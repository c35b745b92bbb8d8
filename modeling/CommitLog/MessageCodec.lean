import CommitLog.MessageSets

/-!
# Messages as bytes

A message is measured and written in two passes, with 16- and 32-bit lengths
in front of its fields and `-1` for an absent one.  It is read back by the
accessors of a serialized message, in 32-bit positions, and by a
bounds-checked parser of its headers.
-/

namespace CommitLog

open Headers List

/-! ## Writing -/

/-- The last `width` bytes of a number, the highest first. -/
def putUint : ℕ → ℕ → Bytes
  | 0, _ => []
  | width + 1, n => putUint width (n / 256) ++ [Fin.ofNat 256 n]

@[simp] theorem length_putUint (width n : ℕ) : (putUint width n).length = width := by
  induction width generalizing n with
  | zero => rfl
  | succ width ih => simp [putUint, ih]

theorem bigEndian_concat (bytes : Bytes) (byte : Byte) :
    bigEndian (bytes ++ [byte]) = 256 * bigEndian bytes + byte.val := by
  simp [bigEndian]

theorem bigEndian_putUint (width n : ℕ) : bigEndian (putUint width n) = n % 256 ^ width := by
  induction width generalizing n with
  | zero => simp [putUint, bigEndian, Nat.mod_one]
  | succ width ih =>
    rw [putUint, bigEndian_concat, ih, Fin.val_ofNat, pow_succ', Nat.mod_mul]
    omega

theorem bigEndian_lt (bytes : Bytes) : bigEndian bytes < 256 ^ bytes.length := by
  induction bytes using reverseRecOn with
  | nil => simp [bigEndian]
  | append_singleton bytes byte ih =>
    rw [bigEndian_concat, length_append, length_singleton, pow_succ]
    have hbyte := byte.isLt
    omega

/-- The message an append is handed.  A header can be there with no value. -/
structure Produced where
  magicByte : Byte
  attributes : Byte
  key : Option Bytes
  value : Option Bytes
  headers : List (Bytes × Option Bytes)
  nodup : (headers.map Prod.fst).Nodup

def maxInt32 : ℕ := 2147483647

/-- `PutBytes` of the byte encoder. -/
def putBytes : Option Bytes → Bytes
  | none => putUint 4 4294967295
  | some bytes => putUint 4 bytes.length ++ bytes

/-- `PutString` of the byte encoder. -/
def putString (bytes : Bytes) : Bytes := putUint 2 bytes.length ++ bytes

def headerBytes (headers : List (Bytes × Option Bytes)) : Bytes :=
  headers.flatMap fun header => putString header.1 ++ putBytes header.2

/-- `PutBytes` of the length encoder refuses a longer slice. -/
def bytesFit (field : Option Bytes) : Bool :=
  field.all fun bytes => decide (bytes.length ≤ maxInt32)

namespace Produced

def fits (msg : Produced) : Bool :=
  bytesFit msg.key && bytesFit msg.value && msg.headers.all fun header =>
      decide (header.1.length ≤ 32767) && bytesFit header.2

/-- What follows the checksum, with the headers in the order the map gives
them out. -/
def body (msg : Produced) (order : List (Bytes × Option Bytes)) : Bytes :=
  [msg.magicByte, msg.attributes] ++ putBytes msg.key ++
    putBytes msg.value ++ putUint 2 msg.headers.length ++ headerBytes order

/-- `encode`; the checksum is a parameter. -/
def encode (crc : Bytes → Fin (2 ^ 32)) (msg : Produced)
    (order : List (Bytes × Option Bytes)) : Option Bytes :=
  if msg.fits then
    some (putUint 4 (crc (msg.body order)).val ++ msg.body order)
  else none

theorem fits_of_encode {crc : Bytes → Fin (2 ^ 32)} {sent : Produced}
    {order : List (Bytes × Option Bytes)} {payload : Bytes}
    (hencode : sent.encode crc order = some payload) : sent.fits = true := by
  unfold encode at hencode
  split_ifs at hencode with hfits
  exact hfits

end Produced

/-- `newMessageSetFromProto` on one message. -/
def frameBytes (headerCrc : Bytes → Fin (2 ^ 32)) (offset timestamp : ℤ)
    (leaderEpoch : ℕ) (payload : Bytes) : Bytes :=
  let fields := putUint 8 (offset % 2 ^ 64).toNat ++
    putUint 8 (timestamp % 2 ^ 64).toNat ++ putUint 8 leaderEpoch ++
    putUint 4 payload.length
  fields ++ putUint 4 (headerCrc fields).val ++ payload

/-! ## Reading -/

/-- `m[low:high]`; out of bounds it panics. -/
def slice (m : Bytes) (low high : ℤ) : Option Bytes :=
  if 0 ≤ low ∧ low ≤ high ∧ high ≤ m.length then
    some ((m.drop low.toNat).take (high - low).toNat)
  else none

/-- `Uint16` and `Uint32` of `m[n:]`. -/
def uintAt (width : ℕ) (m : Bytes) (n : ℤ) : Option ℕ :=
  if 0 ≤ n ∧ n + width ≤ m.length then
    some (bigEndian ((m.drop n.toNat).take width))
  else none

/-- `messageSet.Message`. -/
def setMessage (ms : Bytes) : Option Bytes :=
  if ms.length ≤ msgSetHeaderLen then some []
  else
    (uintAt 4 ms 24).bind fun size : ℕ =>
      slice ms msgSetHeaderLen (int32 (msgSetHeaderLen + int32 size))

/-- An entry of the map is replaced when its name is read again. -/
def Headers.set (headers : Headers) (name value : Bytes) : Headers where
  entries := (headers.entries.filter fun header => decide (header.1 ≠ name)) ++ [(name, value)]
  nodup := by
    rw [map_append, nodup_append]
    refine ⟨headers.nodup.sublist (filter_sublist.map _), nodup_singleton _, ?_⟩
    intro other hother found hfound heq
    rcases mem_map.mp hother with ⟨header, hheader, rfl⟩
    simp only [map_cons, map_nil, mem_singleton] at hfound
    simp only [mem_filter, decide_eq_true_eq] at hheader
    exact hheader.2 (heq.trans hfound)

namespace Serialized

/-- Where a field that starts at `start` ends, and its size. -/
def fieldOffsets (m : Bytes) (start : ℤ) : Option (ℤ × ℤ) :=
  (uintAt 4 m start).map fun n : ℕ =>
    if int32 n = -1 then (int32 (start + 4), -1)
    else (int32 (int32 (start + 4) + int32 n), int32 n)

def field (m : Bytes) (start : ℤ) : Option (Option Bytes) :=
  (fieldOffsets m start).bind fun place =>
    if place.2 = -1 then some none
    else (slice m (int32 (start + 4)) place.1).map some

def key (m : Bytes) : Option (Option Bytes) := field m 6

def valueStart (m : Bytes) : Option ℤ := (fieldOffsets m 6).map Prod.fst

def value (m : Bytes) : Option (Option Bytes) := (valueStart m).bind (field m)

def headersLoop (m : Bytes) : ℕ → ℤ → Headers → Option Headers
  | 0, _, headers => some headers
  | count + 1, n, headers =>
    (uintAt 2 m n).bind fun nameSize : ℕ =>
      let n := int32 (n + 2)
      (slice m n (int32 (n + nameSize))).bind fun name =>
        let n := int32 (n + nameSize)
        (uintAt 4 m n).bind fun valueSize : ℕ =>
          let n := int32 (n + 4)
          (slice m n (int32 (n + int32 valueSize))).bind fun value =>
            headersLoop m count (int32 (n + int32 valueSize)) (headers.set name value)

def headers (m : Bytes) : Option Headers :=
  (valueStart m).bind fun start =>
    (fieldOffsets m start).bind fun place =>
      (uintAt 2 m place.1).bind fun count : ℕ =>
        headersLoop m count (int32 (place.1 + 2)) empty

end Serialized

/-- All accessors; none if one of them panics. -/
def readBack (m : Bytes) : Option Message :=
  m[4]?.bind fun magicByte =>
    m[5]?.bind fun attributes =>
      (Serialized.key m).bind fun key =>
        (Serialized.value m).bind fun value =>
          (Serialized.headers m).map fun headers =>
            ⟨magicByte, attributes, key, value, headers⟩

theorem readBack_eq_some_iff {m : Bytes} {msg : Message} : readBack m = some msg ↔
      m[4]? = some msg.magicByte ∧ m[5]? = some msg.attributes ∧ Serialized.key m = some msg.key ∧
        Serialized.value m = some msg.value ∧
        Serialized.headers m = some msg.headers := by
  unfold readBack
  simp only [Option.bind_eq_some_iff, Option.map_eq_some_iff]
  constructor
  · rintro ⟨magicByte, hmagic, attributes, hattributes, key, hkey, value,
      hvalue, headers, hheaders, rfl⟩
    exact ⟨hmagic, hattributes, hkey, hvalue, hheaders⟩
  · rintro ⟨hmagic, hattributes, hkey, hvalue, hheaders⟩
    exact ⟨_, hmagic, _, hattributes, _, hkey, _, hvalue, _, hheaders, rfl⟩

def crcMatches (crc : Bytes → Fin (2 ^ 32)) (m : Bytes) : Bool :=
  decide (4 ≤ m.length) && bigEndian (m.take 4) == (crc (m.drop 4)).val

variable {crc : Bytes → Fin (2 ^ 32)}

theorem length_of_crcMatches {m : Bytes} (hmatch : crcMatches crc m = true) : 4 ≤ m.length := by
  unfold crcMatches at hmatch
  rw [Bool.and_eq_true, decide_eq_true_eq] at hmatch
  exact hmatch.1

/-! ## The bounds-checked parser -/

/-- `payloadCursor.take`; none is the latched error. -/
def takeAt (buf : Bytes) (n count : ℕ) : Option Bytes :=
  if n + count ≤ buf.length then some ((buf.drop n).take count) else none

/-- Past a key or a value. -/
def skipField (buf : Bytes) (n : ℕ) : Option ℕ :=
  (takeAt buf n 4).bind fun word =>
    let size := int32 (bigEndian word)
    if size = -1 then some (n + 4)
    else if size < 0 then none
    else (takeAt buf (n + 4) size.toNat).map fun _ => n + 4 + size.toNat

def parseHeaders (buf : Bytes) : ℕ → ℕ → Headers → Option Headers
  | 0, _, headers => some headers
  | count + 1, n, headers =>
    (takeAt buf n 2).bind fun word =>
      let n := n + 2
      (takeAt buf n (bigEndian word)).bind fun name =>
        let n := n + bigEndian word
        (takeAt buf n 4).bind fun word =>
          let n := n + 4
          (takeAt buf n (bigEndian word)).bind fun value =>
            parseHeaders buf count (n + bigEndian word) (headers.set name value)

def parseHeadersAfterValue (buf : Bytes) : Option Headers :=
  (skipField buf 6).bind fun n =>
    (skipField buf n).bind fun n =>
      (takeAt buf n 2).bind fun word =>
        parseHeaders buf (bigEndian word) (n + 2) empty

/-! ## Stripping -/

/-- A message whose headers all have values, as the encoder takes it. -/
def Message.produced (msg : Message) : Produced where
  magicByte := msg.magicByte
  attributes := msg.attributes
  key := msg.key
  value := msg.value
  headers := msg.headers.entries.map fun header => (header.1, some header.2)
  nodup := by
    rw [map_map]
    exact msg.headers.nodup

/-- `stripFrame` on the bytes of a frame: none if it fails, none inside if there
is nothing to take out. -/
def stripFrameBytes (crc headerCrc : Bytes → Fin (2 ^ 32)) (ms : Bytes)
    (drop : List Bytes) (order : List (Bytes × Option Bytes)) :
    Option (Option Bytes) :=
  (setMessage ms).bind fun m =>
    if crcMatches crc m then
      (Serialized.headers m).bind fun headers =>
        if drop.any fun name => headers.names.contains name then
          (readBack m).bind fun msg =>
            ((msg.withoutHeaders drop).produced.encode crc order).map
              fun data => some (frameBytes headerCrc (setFrame ms).offset
                (setFrame ms).timestamp (setFrame ms).leaderEpoch data)
        else some none
    else none

/-! ## 32-bit positions -/

theorem int32_eq_self {x : ℤ} (hlow : -2147483648 ≤ x) (hhigh : x ≤ maxInt32) : int32 x = x := by
  unfold int32 maxInt32 at *
  apply Int.bmod_eq_of_le <;> omega

theorem int32_natCast {n : ℕ} (hn : n ≤ maxInt32) : int32 n = n :=
  int32_eq_self (by omega) (by omega)

theorem int32_absent : int32 ((4294967295 % 256 ^ 4 : ℕ) : ℤ) = -1 := by
  decide

/-! ## Reading what was written -/

section Written

variable {front rest : Bytes}

theorem window (middle : Bytes) :
    ((front ++ (middle ++ rest)).drop front.length).take middle.length =
      middle := by
  rw [drop_left, take_left]

theorem uintAt_append (width n : ℕ) :
    uintAt width (front ++ (putUint width n ++ rest)) front.length = some (n % 256 ^ width) := by
  have hwindow := @window front rest (putUint width n)
  rw [length_putUint] at hwindow
  unfold uintAt
  rw [if_pos, Int.toNat_natCast, hwindow, bigEndian_putUint]
  simp only [length_append, length_putUint]
  omega

theorem slice_append (middle : Bytes) : slice (front ++ (middle ++ rest)) front.length
      (front.length + middle.length) = some middle := by
  unfold slice
  rw [if_pos, Int.toNat_natCast, add_sub_cancel_left, Int.toNat_natCast, window]
  simp only [length_append]
  omega

theorem length_putBytes (field : Option Bytes) :
    (putBytes field).length = Message.bytesLen field := by
  cases field <;> simp [putBytes, Message.bytesLen]

def fieldSize : Option Bytes → ℤ
  | none => -1
  | some bytes => bytes.length

theorem uintAt_putBytes {field : Option Bytes} (hfit : bytesFit field = true) :
    ∃ n, uintAt 4 (front ++ (putBytes field ++ rest)) front.length = some n ∧
      int32 n = fieldSize field := by
  have hsize : ∀ rest n, uintAt 4 (front ++ (putUint 4 n ++ rest))
      front.length = some (n % 256 ^ 4) := fun rest n => uintAt_append 4 n
  cases field with
  | none => exact ⟨_, hsize rest 4294967295, int32_absent⟩
  | some bytes =>
    have hbytes : bytes.length ≤ maxInt32 := by simpa [bytesFit] using hfit
    refine ⟨_, ?_, int32_natCast hbytes⟩
    rw [putBytes, append_assoc, hsize, Nat.mod_eq_of_lt]
    unfold maxInt32 at hbytes
    omega

theorem fit_of_bytesLen {field : Option Bytes} {n : ℕ}
    (hlen : n + Message.bytesLen field ≤ maxInt32) : bytesFit field = true := by
  cases field with
  | none => rfl
  | some bytes =>
    simp only [Message.bytesLen] at hlen
    simp only [bytesFit, Option.all_some, decide_eq_true_eq]
    omega

theorem fieldOffsets_append {field : Option Bytes}
    (hlen : front.length + Message.bytesLen field ≤ maxInt32) :
    Serialized.fieldOffsets (front ++ (putBytes field ++ rest)) front.length =
      some (((front.length + Message.bytesLen field : ℕ) : ℤ), fieldSize field) := by
  rcases @uintAt_putBytes front rest field (fit_of_bytesLen hlen) with
    ⟨n, hn, hsize⟩
  unfold Serialized.fieldOffsets
  rw [hn, Option.map_some, hsize]
  cases field with
  | none =>
    simp only [Message.bytesLen] at hlen
    rw [if_pos (show fieldSize none = -1 from rfl), int32_eq_self (by omega) (by omega)]
    rfl
  | some bytes =>
    simp only [Message.bytesLen] at hlen
    have hsome : fieldSize (some bytes) ≠ -1 := by
      change (bytes.length : ℤ) ≠ -1
      omega
    have hstart : int32 ((front.length : ℤ) + 4) = front.length + 4 :=
      int32_eq_self (by omega) (by omega)
    rw [if_neg hsome, hstart]
    simp only [fieldSize, Message.bytesLen]
    rw [int32_eq_self (by omega) (by omega)]
    push_cast
    rw [add_assoc]

theorem field_append {field : Option Bytes}
    (hlen : front.length + Message.bytesLen field ≤ maxInt32) :
    Serialized.field (front ++ (putBytes field ++ rest)) front.length =
      some field := by
  unfold Serialized.field
  rw [fieldOffsets_append hlen, Option.bind_some]
  cases field with
  | none => rfl
  | some bytes =>
    simp only [Message.bytesLen] at hlen
    have hcut := @slice_append (front ++ putUint 4 bytes.length) rest bytes
    simp only [append_assoc, length_append, length_putUint, Nat.cast_add, Nat.cast_ofNat] at hcut
    have hsome : fieldSize (some bytes) ≠ -1 := by
      change (bytes.length : ℤ) ≠ -1
      omega
    rw [if_neg hsome, int32_eq_self (by omega) (by omega)]
    simp only [Message.bytesLen, putBytes, append_assoc]
    push_cast
    rw [← add_assoc, hcut]
    rfl

theorem takeAt_append (middle : Bytes) :
    takeAt (front ++ (middle ++ rest)) front.length middle.length =
      some middle := by
  unfold takeAt
  rw [if_pos, window]
  simp only [length_append]
  omega

theorem takeAt_putUint (width n : ℕ) :
    takeAt (front ++ (putUint width n ++ rest)) front.length width = some (putUint width n) := by
  have htake := @takeAt_append front rest (putUint width n)
  rwa [length_putUint] at htake

theorem skipField_append {field : Option Bytes} (hfit : bytesFit field = true) :
    skipField (front ++ (putBytes field ++ rest)) front.length =
      some (front.length + Message.bytesLen field) := by
  unfold skipField
  cases field with
  | none =>
    rw [putBytes, takeAt_putUint, Option.bind_some, bigEndian_putUint]
    simp only [int32_absent, if_true, Message.bytesLen]
  | some bytes =>
    have hbytes : bytes.length ≤ maxInt32 := by simpa [bytesFit] using hfit
    have htake := @takeAt_append (front ++ putUint 4 bytes.length) rest bytes
    simp only [append_assoc, length_append, length_putUint] at htake
    rw [putBytes, append_assoc, takeAt_putUint, Option.bind_some,
      bigEndian_putUint, Nat.mod_eq_of_lt (by unfold maxInt32 at hbytes; omega)]
    simp only [int32_natCast hbytes, Int.toNat_natCast, Message.bytesLen]
    rw [if_neg (by omega), if_neg (by omega), htake, Option.map_some, add_assoc]

end Written

/-! ## The headers -/

theorem Headers.entries_set {headers : Headers} {name value : Bytes} (hnew : name ∉ headers.names) :
    (headers.set name value).entries = headers.entries ++ [(name, value)] := by
  simp only [set]
  congr 1
  rw [filter_eq_self]
  intro header hheader
  simp only [decide_eq_true_eq]
  intro heq
  exact hnew (heq ▸ mem_map_of_mem hheader)

def valued (entries : List (Bytes × Bytes)) : List (Bytes × Option Bytes) :=
  entries.map fun header => (header.1, some header.2)

theorem headerBytes_valued_cons (name value : Bytes) (entries : List (Bytes × Bytes)) :
    headerBytes (valued ((name, value) :: entries)) = putString name ++ (putBytes (some value) ++
        headerBytes (valued entries)) := by
  simp [headerBytes, valued]

variable {name : Bytes} {count : ℕ}

theorem headersLoop_step {m : Bytes} {size : ℕ} {n nameAt nameEnd valueAt valueEnd : ℤ}
    {acc : Headers} (hname : uintAt 2 m n = some name.length) (hnameAt : int32 (n + 2) = nameAt)
    (hnameEnd : int32 (nameAt + name.length) = nameEnd) (hcut : slice m nameAt nameEnd = some name)
    (hvalue : uintAt 4 m nameEnd = some size) (hvalueAt : int32 (nameEnd + 4) = valueAt)
    (hvalueEnd : int32 (valueAt + int32 size) = valueEnd) :
    Serialized.headersLoop m (count + 1) n acc = (slice m valueAt valueEnd).bind fun value =>
        Serialized.headersLoop m count valueEnd (acc.set name value) := by
  rw [Serialized.headersLoop, hname, Option.bind_some]
  simp only [hnameAt, hnameEnd, hcut, Option.bind_some, hvalue, hvalueAt, hvalueEnd]

theorem headersLoop_cons {front rest : Bytes} {value : Option Bytes} {acc : Headers} (hname : name.length ≤ 32767)
    (hlen : front.length + (2 + (name.length + Message.bytesLen value)) ≤ maxInt32) :
    Serialized.headersLoop (front ++ (putString name ++ (putBytes value ++ rest))) (count + 1)
        front.length acc =
      value.bind fun bytes =>
        Serialized.headersLoop (front ++ (putString name ++ (putBytes value ++ rest))) count
          (front.length + (2 + (name.length + Message.bytesLen value)))
          (acc.set name bytes) := by
  have hle : 4 ≤ Message.bytesLen value := by
    cases value <;> simp [Message.bytesLen]
  have hread : uintAt 2 (front ++ (putString name ++ (putBytes value ++ rest)))
      front.length = some name.length := by
    rw [putString, append_assoc, uintAt_append, Nat.mod_eq_of_lt]
    omega
  have hcut := @slice_append (front ++ putUint 2 name.length) (putBytes value ++ rest) name
  obtain ⟨n, hn, hsize⟩ := @uintAt_putBytes (front ++ putString name) rest
    value (@fit_of_bytesLen value (front.length + (2 + name.length)) (by omega))
  simp only [putString, append_assoc, length_append, length_putUint,
    Nat.cast_add, Nat.cast_ofNat, add_assoc] at hread hcut hn ⊢
  have hnameAt : int32 ((front.length : ℤ) + 2) = front.length + 2 :=
    int32_eq_self (by omega) (by omega)
  have hnameEnd : int32 ((front.length : ℤ) + 2 + name.length) =
      front.length + (2 + name.length) := by
    rw [add_assoc]
    exact int32_eq_self (by omega) (by omega)
  have hvalueAt : int32 ((front.length : ℤ) + (2 + name.length) + 4) =
      front.length + (2 + (name.length + 4)) := by
    rw [int32_eq_self (by omega) (by omega)]
    ring
  cases value with
  | none =>
    have hend : int32 ((front.length : ℤ) + (2 + (name.length + 4)) +
        int32 n) = front.length + (2 + (name.length + 3)) := by
      rw [hsize, fieldSize, int32_eq_self (by omega) (by omega)]
      ring
    rw [headersLoop_step hread hnameAt hnameEnd hcut hn hvalueAt hend,
      slice, if_neg (by omega), Option.bind_none, Option.bind_none]
  | some bytes =>
    simp only [Message.bytesLen] at hlen
    have hend : int32 ((front.length : ℤ) + (2 + (name.length + 4)) + int32 n) =
        front.length + (2 + (name.length + (4 + bytes.length))) := by
      rw [hsize, fieldSize, int32_eq_self (by omega) (by omega)]
      ring
    have hvalue := @slice_append (front ++ putString name ++ putUint 4 bytes.length) rest bytes
    simp only [putString, append_assoc, length_append,
      length_putUint, Nat.cast_add, Nat.cast_ofNat, add_assoc] at hvalue
    rw [headersLoop_step hread hnameAt hnameEnd hcut hn hvalueAt hend]
    simp only [putBytes, append_assoc, hvalue, Option.bind_some,
      Message.bytesLen, Nat.cast_add, Nat.cast_ofNat]

theorem headersLoop_append {entries : List (Bytes × Bytes)} {front : Bytes} {acc : Headers}
    (hnodup : ((acc.entries ++ entries).map Prod.fst).Nodup)
    (hnames : ∀ header ∈ entries, header.1.length ≤ 32767)
    (hlen : front.length + (headerBytes (valued entries)).length ≤ maxInt32) :
    ∃ read, Serialized.headersLoop (front ++ headerBytes (valued entries))
        entries.length front.length acc = some read ∧
      read.entries = acc.entries ++ entries := by
  induction entries generalizing front acc with
  | nil => exact ⟨acc, rfl, by simp⟩
  | cons header entries ih =>
    obtain ⟨name, value⟩ := header
    have hname : name.length ≤ 32767 :=
      hnames (name, value) mem_cons_self
    have hnew : name ∉ acc.names := by
      rw [map_append, nodup_append] at hnodup
      intro hin
      exact hnodup.2.2 name hin name (by simp) rfl
    have hset := @entries_set acc name value hnew
    rw [headerBytes_valued_cons] at hlen ⊢
    have hfront : (front ++ (putString name ++ putBytes (some value))).length =
        front.length + (2 + (name.length + Message.bytesLen (some value))) := by
      simp only [length_append, putString, length_putUint, length_putBytes, add_assoc]
    simp only [length_append, putString, length_putUint, length_putBytes] at hlen
    have hrest := @ih (front ++ (putString name ++ putBytes (some value))) (acc.set name value) (by
        rw [hset, append_assoc]
        exact hnodup)
      (fun header hheader => hnames header (mem_cons_of_mem _ hheader))
      (by omega)
    rw [hfront] at hrest
    simp only [append_assoc, hset, cons_append, nil_append] at hrest
    push_cast at hrest
    rw [length_cons, headersLoop_cons hname (by omega), Option.bind_some]
    simpa only [add_assoc] using hrest

variable {order : List (Bytes × Option Bytes)}

theorem values_of_headersLoop {front : Bytes} {acc read : Headers}
    (hnames : ∀ header ∈ order, header.1.length ≤ 32767)
    (hlen : front.length + (headerBytes order).length ≤ maxInt32)
    (hread : Serialized.headersLoop (front ++ headerBytes order) order.length
      front.length acc = some read) :
    ∀ header ∈ order, header.2 ≠ none := by
  induction order generalizing front acc with
  | nil => simp
  | cons header order ih =>
    obtain ⟨name, value⟩ := header
    have hname : name.length ≤ 32767 :=
      hnames (name, value) mem_cons_self
    have hbytes : headerBytes ((name, value) :: order) =
        putString name ++ (putBytes value ++ headerBytes order) := by
      simp [headerBytes]
    have hfront : (front ++ (putString name ++ putBytes value)).length =
        front.length + (2 + (name.length + Message.bytesLen value)) := by
      simp only [length_append, putString, length_putUint, length_putBytes, add_assoc]
    rw [hbytes] at hlen hread
    simp only [length_append, putString, length_putUint, length_putBytes] at hlen
    rw [length_cons, headersLoop_cons hname (by omega)] at hread
    obtain ⟨bytes, rfl, hloop⟩ := Option.bind_eq_some_iff.mp hread
    intro header hheader
    rcases mem_cons.mp hheader with rfl | hheader
    · simp
    · refine @ih (front ++ (putString name ++ putBytes (some bytes))) (acc.set name bytes)
        (fun header hheader => hnames header (mem_cons_of_mem _ hheader))
        (by omega) ?_ header hheader
      rw [hfront]
      push_cast
      simpa only [append_assoc, add_assoc] using hloop

theorem parseHeaders_step {buf value word word' : Bytes} {n : ℕ} {acc : Headers}
    (hword : takeAt buf n 2 = some word) (hname : takeAt buf (n + 2) (bigEndian word) = some name)
    (hword' : takeAt buf (n + 2 + bigEndian word) 4 = some word')
    (hvalue : takeAt buf (n + 2 + bigEndian word + 4) (bigEndian word') = some value) :
    parseHeaders buf (count + 1) n acc =
      parseHeaders buf count (n + 2 + bigEndian word + 4 + bigEndian word')
        (acc.set name value) := by
  rw [parseHeaders, hword, Option.bind_some]
  simp only [hname, Option.bind_some, hword', hvalue]

theorem parseHeaders_append {entries : List (Bytes × Bytes)} {front : Bytes} {acc : Headers}
    (hnodup : ((acc.entries ++ entries).map Prod.fst).Nodup)
    (hnames : ∀ header ∈ entries, header.1.length ≤ 32767)
    (hvalues : ∀ header ∈ entries, header.2.length ≤ maxInt32) :
    ∃ read, parseHeaders (front ++ headerBytes (valued entries))
        entries.length front.length acc = some read ∧
      read.entries = acc.entries ++ entries := by
  induction entries generalizing front acc with
  | nil => exact ⟨acc, rfl, by simp⟩
  | cons header entries ih =>
    rcases header with ⟨name, value⟩
    have hname := hnames (name, value) mem_cons_self
    have hvalue := hvalues (name, value) mem_cons_self
    simp only at hname hvalue
    have hnew : name ∉ acc.names := by
      rw [map_append, nodup_append] at hnodup
      intro hin
      exact hnodup.2.2 name hin name (by simp) rfl
    have hset := @entries_set acc name value hnew
    have hnameSize : bigEndian (putUint 2 name.length) = name.length := by
      rw [bigEndian_putUint, Nat.mod_eq_of_lt]
      omega
    have hvalueSize : bigEndian (putUint 4 value.length) =
        value.length := by
      rw [bigEndian_putUint, Nat.mod_eq_of_lt]
      unfold maxInt32 at hvalue
      omega
    rw [headerBytes_valued_cons]
    generalize headerBytes (valued entries) = rest at ih ⊢
    have hword := @takeAt_putUint front (name ++ (putBytes (some value) ++ rest)) 2 name.length
    have hcut := @takeAt_append (front ++ putUint 2 name.length)
      (putBytes (some value) ++ rest) name
    have hword' := @takeAt_putUint (front ++ putString name) (value ++ rest) 4 value.length
    have hcut' := @takeAt_append (front ++ putString name ++ putUint 4 value.length) rest value
    have hrest := @ih (front ++ (putUint 2 name.length ++ (name ++
      (putUint 4 value.length ++ value)))) (acc.set name value)
      (by
        rw [hset, append_assoc]
        exact hnodup)
      (fun header hheader => hnames header (mem_cons_of_mem _ hheader))
      (fun header hheader => hvalues header (mem_cons_of_mem _ hheader))
    simp only [putString, putBytes, append_assoc, length_append,
      length_putUint, hset, cons_append, nil_append, ← add_assoc]
      at hword hcut hword' hcut' hrest ⊢
    rw [length_cons, parseHeaders_step hword (by
        rw [hnameSize]
        exact hcut) (by
        rw [hnameSize]
        exact hword') (by
        rw [hnameSize, hvalueSize]
        exact hcut'), hnameSize, hvalueSize]
    exact hrest

/-! ## Whole messages -/

theorem Headers.eq_of_entries {headers headers' : Headers}
    (hentries : headers.entries = headers'.entries) : headers = headers' := by
  cases headers
  cases headers'
  simpa using hentries

def Produced.encodedLen (msg : Produced) : ℕ :=
  4 + 1 + 1 + Message.bytesLen msg.key + Message.bytesLen msg.value + 2 +
    (msg.headers.map fun header =>
      2 + header.1.length + Message.bytesLen header.2).sum

theorem length_headerBytes (headers : List (Bytes × Option Bytes)) : (headerBytes headers).length =
      (headers.map fun header =>
        2 + header.1.length + Message.bytesLen header.2).sum := by
  simp [headerBytes, length_flatMap, putString, length_putBytes, add_assoc]

theorem Produced.length_encode {msg : Produced} (horder : order.Perm msg.headers) {payload : Bytes}
    (hencode : msg.encode crc order = some payload) : payload.length = msg.encodedLen := by
  unfold Produced.encode at hencode
  split_ifs at hencode
  cases hencode
  unfold Produced.body Produced.encodedLen
  simp only [length_append, length_putUint, length_putBytes,
    length_cons, length_nil, length_headerBytes]
  rw [(horder.map _).sum_eq]
  omega

section Whole

variable {crc headerCrc : Bytes → Fin (2 ^ 32)}

structure GivesBack (sent : Produced) (msg : Message) : Prop where
  magicByte : msg.magicByte = sent.magicByte
  attributes : msg.attributes = sent.attributes
  key : msg.key = sent.key
  value : msg.value = sent.value
  headers : (valued msg.headers.entries).Perm sent.headers

theorem valued_of_perm {order headers : List (Bytes × Option Bytes)} (horder : order.Perm headers)
    (hvalues : ∀ header ∈ headers, header.2 ≠ none) : ∃ entries, order = valued entries := by
  have hall : ∀ header ∈ order, header.2 ≠ none :=
    fun header hheader => hvalues header (horder.subset hheader)
  clear horder
  induction order with
  | nil => exact ⟨[], rfl⟩
  | cons header order ih =>
    rcases header with ⟨name, value⟩
    rcases ih (fun other hother => hall other (mem_cons_of_mem _ hother)) with ⟨entries, rfl⟩
    cases value with
    | none => exact absurd rfl (hall (name, none) mem_cons_self)
    | some value => exact ⟨(name, value) :: entries, rfl⟩

theorem headers_eq_headersLoop {start : Bytes} {key value : Option Bytes}
    {order : List (Bytes × Option Bytes)} (hstart : start.length = 6)
    (hcount : order.length ≤ 65535)
    (hlen : 6 + Message.bytesLen key + Message.bytesLen value + 2 ≤ maxInt32) :
    Serialized.headers (start ++ (putBytes key ++ (putBytes value ++
        (putUint 2 order.length ++ headerBytes order)))) =
      Serialized.headersLoop ((start ++ (putBytes key ++ (putBytes value ++
          putUint 2 order.length))) ++ headerBytes order) order.length
        ((start ++ (putBytes key ++ (putBytes value ++
          putUint 2 order.length))).length : ℕ) empty := by
  have hkey := @fieldOffsets_append start (putBytes value ++
    (putUint 2 order.length ++ headerBytes order)) key (by omega)
  have hvalue := @fieldOffsets_append (start ++ putBytes key)
    (putUint 2 order.length ++ headerBytes order) value (by
      rw [length_append, length_putBytes]
      omega)
  have hread := @uintAt_append (start ++ putBytes key ++ putBytes value)
    (headerBytes order) 2 order.length
  rw [Nat.mod_eq_of_lt (by omega)] at hread
  simp only [append_assoc, length_append, length_putBytes, hstart, ← add_assoc] at hkey hvalue hread
  have hstep : int32 (((6 + Message.bytesLen key + Message.bytesLen value : ℕ) : ℤ) + 2) =
      (6 + Message.bytesLen key + Message.bytesLen value + 2 : ℕ) := by
    rw [int32_eq_self (by omega) (by omega)]
    push_cast
    rfl
  simp only [Serialized.headers, Serialized.valueStart]
  rw [show ((6 : ℕ) : ℤ) = 6 from rfl] at hkey
  simp only [hkey, Option.map_some, Option.bind_some, hvalue, hread, hstep, append_assoc,
    length_append, length_putBytes, length_putUint, hstart, ← add_assoc]

/-- A payload as it is laid out behind its first six bytes. -/
def layout (start : Bytes) (key value : Option Bytes) (entries : List (Bytes × Bytes)) : Bytes :=
  start ++ (putBytes key ++ (putBytes value ++
    (putUint 2 entries.length ++ headerBytes (valued entries))))

section Layout

variable {start : Bytes} {key value : Option Bytes} {entries : List (Bytes × Bytes)}

theorem layout_value : layout start key value entries =
    (start ++ putBytes key) ++ (putBytes value ++
      (putUint 2 entries.length ++ headerBytes (valued entries))) := by
  simp only [layout, append_assoc]

theorem layout_count : layout start key value entries = (start ++ putBytes key ++ putBytes value) ++
      (putUint 2 entries.length ++ headerBytes (valued entries)) := by
  simp only [layout, append_assoc]

theorem layout_headers : layout start key value entries =
    (start ++ putBytes key ++ putBytes value ++ putUint 2 entries.length) ++
      headerBytes (valued entries) := by
  simp only [layout, append_assoc]

theorem length_layout : (layout start key value entries).length =
    start.length + Message.bytesLen key + Message.bytesLen value + 2 +
      (headerBytes (valued entries)).length := by
  simp only [layout_headers, length_append, length_putBytes, length_putUint]

theorem readBack_layout {magicByte attributes : Byte} (hstart : start.length = 6)
    (hmagic : start[4]? = some magicByte) (hattributes : start[5]? = some attributes)
    (hnodup : (entries.map Prod.fst).Nodup) (hnames : ∀ header ∈ entries, header.1.length ≤ 32767)
    (hcount : entries.length ≤ 65535) (hlen : (layout start key value entries).length ≤ maxInt32) :
    ∃ read : Headers, read.entries = entries ∧ readBack (layout start key value entries) =
        some ⟨magicByte, attributes, key, value, read⟩ := by
  rw [length_layout, hstart] at hlen
  have hkey := @fieldOffsets_append start (putBytes value ++
    (putUint 2 entries.length ++ headerBytes (valued entries))) key (by omega)
  have hkey' := @field_append start (putBytes value ++
    (putUint 2 entries.length ++ headerBytes (valued entries))) key (by omega)
  rw [hstart] at hkey hkey'
  have hfront : (start ++ putBytes key).length = 6 + Message.bytesLen key := by
    rw [length_append, hstart, length_putBytes]
  have hvalue : Serialized.field (layout start key value entries)
      (6 + Message.bytesLen key : ℕ) = some value := by
    have hfield := @field_append (start ++ putBytes key)
      (putUint 2 entries.length ++ headerBytes (valued entries)) value
      (by omega)
    rw [← layout_value, hfront] at hfield
    exact hfield
  have hlength : (valued entries).length = entries.length := by
    simp [valued]
  have hbehind : (start ++ (putBytes key ++ (putBytes value ++ putUint 2 entries.length))).length =
      6 + Message.bytesLen key + Message.bytesLen value + 2 := by
    simp only [length_append, hstart, length_putBytes, length_putUint, add_assoc]
  obtain ⟨read, hread, hentries⟩ := @headersLoop_append entries
    (start ++ (putBytes key ++ (putBytes value ++ putUint 2 entries.length)))
    empty hnodup hnames (by omega)
  have hheaders : Serialized.headers (layout start key value entries) =
      some read := by
    have hloop := @headers_eq_headersLoop start key value (valued entries)
      hstart (by omega) (by omega)
    rw [hlength] at hloop
    rw [layout, hloop]
    exact hread
  refine ⟨read, hentries, ?_⟩
  have hmagic' : (layout start key value entries)[4]? = some magicByte := by
    rw [layout, getElem?_append_left (by omega), hmagic]
  have hattributes' : (layout start key value entries)[5]? =
      some attributes := by
    rw [layout, getElem?_append_left (by omega), hattributes]
  change Serialized.fieldOffsets (layout start key value entries) 6 = _ at hkey
  change Serialized.field (layout start key value entries) 6 = _ at hkey'
  simp only [readBack, hmagic', hattributes', Serialized.key, hkey', Serialized.value,
    Serialized.valueStart, hkey, Option.map_some, Option.bind_some, hvalue, hheaders]

theorem parse_layout (hstart : start.length = 6) (hnodup : (entries.map Prod.fst).Nodup)
    (hkey : bytesFit key = true) (hvalue : bytesFit value = true)
    (hnames : ∀ header ∈ entries, header.1.length ≤ 32767)
    (hvalues : ∀ header ∈ entries, header.2.length ≤ maxInt32) (hcount : entries.length ≤ 65535) :
    ∃ read : Headers, read.entries = entries ∧
      parseHeadersAfterValue (layout start key value entries) =
        some read := by
  have hskip : skipField (layout start key value entries) 6 = some (6 + Message.bytesLen key) := by
    have hfield := @skipField_append start (putBytes value ++
      (putUint 2 entries.length ++ headerBytes (valued entries))) key hkey
    rw [hstart] at hfield
    exact hfield
  have hfront : (start ++ putBytes key).length = 6 + Message.bytesLen key := by
    rw [length_append, hstart, length_putBytes]
  have hskip' : skipField (layout start key value entries) (6 + Message.bytesLen key) =
      some (6 + Message.bytesLen key + Message.bytesLen value) := by
    have hfield := @skipField_append (start ++ putBytes key)
      (putUint 2 entries.length ++ headerBytes (valued entries)) value hvalue
    rw [← layout_value, hfront] at hfield
    exact hfield
  have hword : takeAt (layout start key value entries)
      (6 + Message.bytesLen key + Message.bytesLen value) 2 =
      some (putUint 2 entries.length) := by
    have htake := @takeAt_putUint (start ++ putBytes key ++ putBytes value)
      (headerBytes (valued entries)) 2 entries.length
    rw [← layout_count, length_append, hfront, length_putBytes] at htake
    exact htake
  rcases @parseHeaders_append entries
    (start ++ putBytes key ++ putBytes value ++ putUint 2 entries.length)
    empty hnodup hnames hvalues with ⟨read, hread, hentries⟩
  rw [← layout_headers, length_append, length_append, hfront,
    length_putBytes, length_putUint] at hread
  refine ⟨read, hentries, ?_⟩
  simp only [parseHeadersAfterValue, hskip, hskip', Option.bind_some, hword, bigEndian_putUint]
  rw [Nat.mod_eq_of_lt (by omega)]
  exact hread

end Layout

theorem readBack_encode {sent : Produced} {payload : Bytes} {entries : List (Bytes × Bytes)}
    (horder : (valued entries).Perm sent.headers)
    (hencode : sent.encode crc (valued entries) = some payload)
    (hcount : sent.headers.length ≤ 65535) (hlen : sent.encodedLen ≤ maxInt32) :
    ∃ msg, readBack payload = some msg ∧ GivesBack sent msg ∧
      parseHeadersAfterValue payload = some msg.headers ∧
      crcMatches crc payload = true := by
  have hlength := Produced.length_encode horder hencode
  have hentries : entries.length = sent.headers.length := by
    simpa [valued] using horder.length_eq
  unfold Produced.encode at hencode
  split_ifs at hencode with hfits
  simp only [Produced.fits, Bool.and_eq_true, all_eq_true, decide_eq_true_eq] at hfits
  have hfit : ∀ header ∈ entries, header.1.length ≤ 32767 ∧ header.2.length ≤ maxInt32 := by
    intro header hheader
    have hin := hfits.2 _ (horder.subset (mem_map_of_mem hheader))
    simpa [bytesFit] using hin
  have hnodup : (entries.map Prod.fst).Nodup := by
    have hmap : (valued entries).map Prod.fst = entries.map Prod.fst := by
      simp [valued]
    rw [← hmap]
    exact (horder.map Prod.fst).nodup_iff.mpr sent.nodup
  have hcrc : crcMatches crc payload = true := by
    have hlt := (crc (sent.body (valued entries))).isLt
    have hdigest := bigEndian_putUint 4 (crc (sent.body (valued entries))).val
    rw [Nat.mod_eq_of_lt (by omega)] at hdigest
    rw [← Option.some.inj hencode]
    unfold crcMatches
    rw [take_left' (length_putUint 4 _), drop_left' (length_putUint 4 _), hdigest]
    simp
  have hdigest := length_putUint 4 (crc (sent.body (valued entries))).val
  generalize putUint 4 (crc (sent.body (valued entries))).val = digest at hencode hdigest
  have hlayout : payload = layout (digest ++ [sent.magicByte, sent.attributes]) sent.key sent.value
      entries := by
    rw [← Option.some.inj hencode]
    simp [layout, Produced.body, hentries]
  have hstart : (digest ++ [sent.magicByte, sent.attributes]).length = 6 := by
    simp [hdigest]
  rw [hlayout] at hlength hcrc ⊢
  rcases @readBack_layout _ sent.key sent.value entries sent.magicByte
    sent.attributes hstart (by simp [hdigest]) (by simp [hdigest]) hnodup
    (fun header hheader => (hfit header hheader).1) (by omega) (by omega) with
    ⟨read, hread, hback⟩
  rcases @parse_layout _ sent.key sent.value entries hstart hnodup hfits.1.1
    hfits.1.2 (fun header hheader => (hfit header hheader).1)
    (fun header hheader => (hfit header hheader).2) (by omega) with
    ⟨parsed, hparsed, hparse⟩
  refine ⟨_, hback, ⟨rfl, rfl, rfl, rfl, ?_⟩, ?_, hcrc⟩
  · rw [hread]
    exact horder
  · rw [hparse, eq_of_entries (hparsed.trans hread.symm)]

/-! ## What reading back takes -/

variable {m : Bytes}

theorem slice_length {cut : Bytes} {low high : ℤ} (hcut : slice m low high = some cut) :
    0 ≤ low ∧ high = low + cut.length ∧ high ≤ m.length := by
  unfold slice at hcut
  split_ifs at hcut with hbounds
  cases hcut
  simp only [length_take, length_drop]
  omega

theorem uintAt_bounds {width n : ℕ} {place : ℤ} (hread : uintAt width m place = some n) :
    0 ≤ place ∧ place + width ≤ m.length := by
  unfold uintAt at hread
  split_ifs at hread with hbounds
  exact hbounds

theorem uintAt_lt {width n : ℕ} {place : ℤ}
    (hread : uintAt width m place = some n) : n < 256 ^ width := by
  unfold uintAt at hread
  split_ifs at hread
  cases hread
  have hwidth : ((m.drop place.toNat).take width).length ≤ width :=
    length_take_le _ _
  exact (bigEndian_lt _).trans_le (Nat.pow_le_pow_right (by norm_num) hwidth)

theorem int32_le (x : ℤ) : int32 x ≤ maxInt32 := by
  have hlt := @Int.bmod_lt x (2 ^ 32) (by norm_num)
  unfold int32 maxInt32
  omega

theorem field_takes {start stop size : ℤ} {found : Option Bytes} (hm : m.length ≤ maxInt32)
    (hoffsets : Serialized.fieldOffsets m start = some (stop, size))
    (hfield : Serialized.field m start = some found) :
    0 ≤ start ∧ stop = start + Message.bytesLen found ∧ stop ≤ m.length := by
  unfold Serialized.field at hfield
  rw [hoffsets, Option.bind_some] at hfield
  unfold Serialized.fieldOffsets at hoffsets
  rcases Option.map_eq_some_iff.mp hoffsets with ⟨n, hn, hplace⟩
  have hbounds := uintAt_bounds hn
  have hstart : int32 (start + 4) = start + 4 :=
    int32_eq_self (by omega) (by omega)
  rw [hstart] at hfield hplace
  split_ifs at hplace with habsent
  · rcases Prod.mk.inj hplace with ⟨rfl, rfl⟩
    simp only [if_true, Option.some.injEq] at hfield
    rw [← hfield]
    simp only [Message.bytesLen]
    omega
  · rcases Prod.mk.inj hplace with ⟨hstop, rfl⟩
    simp only [if_neg habsent, Option.map_eq_some_iff] at hfield
    rcases hfield with ⟨cut, hcut, rfl⟩
    have hlength := slice_length hcut
    simp only [Message.bytesLen]
    omega

theorem Headers.sum_map_set (weight : Bytes × Bytes → ℕ) (headers : Headers) (name value : Bytes) :
    ((headers.set name value).entries.map weight).sum ≤
      (headers.entries.map weight).sum + weight (name, value) := by
  have hfilter : (headers.entries.filter fun header =>
      decide (header.1 ≠ name)).Sublist headers.entries :=
    filter_sublist
  have hsub := (hfilter.map weight).sum_le_sum (fun _ _ => Nat.zero_le _)
  unfold set
  simp only [map_append, sum_append, map_cons, map_nil, sum_cons, sum_nil]
  omega

theorem Headers.encodedLen_set (headers : Headers) (name value : Bytes) :
    (headers.set name value).encodedLen ≤
      headers.encodedLen + (2 + name.length + (4 + value.length)) :=
  headers.sum_map_set (fun header => 2 + header.1.length + (4 + header.2.length)) name value

theorem Headers.length_set (headers : Headers) (name value : Bytes) :
    (headers.set name value).entries.length ≤ headers.entries.length + 1 := by
  have hle := length_filter_le
    (fun header : Bytes × Bytes => decide (header.1 ≠ name)) headers.entries
  unfold set
  simp only [length_append, length_cons, length_nil]
  omega

theorem headersLoop_takes (hm : m.length ≤ maxInt32) {count : ℕ} {n : ℤ} {acc read : Headers}
    (hn : n ≤ m.length) (hread : Serialized.headersLoop m count n acc = some read) :
    (n + read.encodedLen ≤ m.length + acc.encodedLen) ∧
      read.entries.length ≤ acc.entries.length + count := by
  induction count generalizing n acc with
  | zero =>
    cases hread
    omega
  | succ count ih =>
    rw [Serialized.headersLoop] at hread
    rcases Option.bind_eq_some_iff.mp hread with ⟨nameSize, hname, hread⟩
    rcases Option.bind_eq_some_iff.mp hread with ⟨name, hcut, hread⟩
    rcases Option.bind_eq_some_iff.mp hread with ⟨valueSize, hvalue, hread⟩
    rcases Option.bind_eq_some_iff.mp hread with ⟨value, hcut', hread⟩
    have hbounds := uintAt_bounds hname
    have hlength := slice_length hcut
    have hbounds' := uintAt_bounds hvalue
    have hlength' := slice_length hcut'
    have hrest := ih hlength'.2.2 hread
    have hset := acc.encodedLen_set name value
    have hcount := acc.length_set name value
    -- Positions inside the bytes do not wrap.
    have hnameAt : int32 (n + 2) = n + 2 :=
      int32_eq_self (by omega) (by omega)
    have hvalueAt : int32 (int32 (int32 (n + 2) + nameSize) + 4) =
        int32 (int32 (n + 2) + nameSize) + 4 :=
      int32_eq_self (by omega) (by omega)
    omega

theorem readBack_takes {msg : Message} (hm : m.length ≤ maxInt32) (hread : readBack m = some msg) :
    msg.encodedLen ≤ m.length ∧ msg.headers.entries.length ≤ 65535 := by
  rcases readBack_eq_some_iff.mp hread with ⟨-, -, hkey, hvalue, hheaders⟩
  unfold Serialized.key at hkey
  unfold Serialized.value at hvalue
  unfold Serialized.headers at hheaders
  rcases Option.bind_eq_some_iff.mp hheaders with ⟨start, hstart, hafter⟩
  rcases Option.bind_eq_some_iff.mp hafter with ⟨⟨stop, size⟩, hstop, hcounted⟩
  rcases Option.bind_eq_some_iff.mp hcounted with ⟨count, hcount, hentries⟩
  rw [hstart, Option.bind_some] at hvalue
  simp only at hcount hentries
  rcases Option.map_eq_some_iff.mp hstart with ⟨⟨start', size'⟩, hoffsets, heq⟩
  simp only at heq
  rw [heq] at hoffsets
  have hkeyTakes := field_takes hm hoffsets hkey
  have hvalueTakes := field_takes hm hstop hvalue
  have hbounds := uintAt_bounds hcount
  have hcountLt := uintAt_lt hcount
  have hnext : int32 (stop + 2) = stop + 2 :=
    int32_eq_self (by omega) (by omega)
  rw [hnext] at hentries
  have hloop := headersLoop_takes hm (by omega) hentries
  simp only [empty, encodedLen, map_nil, sum_nil,
    length_nil, Message.encodedLen] at hloop hkeyTakes hvalueTakes ⊢
  omega

end Whole

end CommitLog
