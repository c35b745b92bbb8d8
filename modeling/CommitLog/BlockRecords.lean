import CommitLog.MessageCodec
import CommitLog.Varints

/-!
# The records of a version-3 block

A record is an attribute byte, the offset as a difference, key and value with
signed lengths so that an absent one differs from an empty one, and the
headers in the order of their names.  The reader takes any varint and any
order of the headers, a name that comes again replacing the one before, so
what it reads can be written in fewer bytes, never in more.
-/

namespace CommitLog

open List Option Varints

structure BlockRecord where
  attributes : Byte
  offsetDelta : BitVec 32
  key : Option Bytes
  value : Option Bytes
  headers : Headers

/-! ## Writing -/

/-- `appendBytes`. -/
def appendBytes : Option Bytes → Bytes
  | none => putVarint (-1)
  | some bytes => putVarint bytes.length ++ bytes

def encodeEntry (entry : Bytes × Bytes) : Bytes :=
  putUvarint entry.1.length ++ (entry.1 ++ (putUvarint entry.2.length ++ entry.2))

def Headers.sorted (headers : Headers) : Headers where
  entries := headers.entries.insertionSort fun a b => a.1 ≤ b.1
  nodup := ((perm_insertionSort _ headers.entries).map _).nodup_iff.mpr headers.nodup

theorem Headers.entries_sorted_perm (headers : Headers) :
    headers.sorted.entries.Perm headers.entries :=
  perm_insertionSort _ headers.entries

def encodeRecord (r : BlockRecord) : Bytes :=
  r.attributes :: (putUvarint r.offsetDelta.toNat ++ (appendBytes r.key ++ (appendBytes r.value ++
      (putUvarint r.headers.entries.length ++ r.headers.sorted.entries.flatMap encodeEntry))))

def encodeRecords (recs : List BlockRecord) : Bytes :=
  recs.flatMap fun r =>
    putUvarint (encodeRecord r).length ++ encodeRecord r

/-! ## Reading -/

/-- `cursor.bytes`. -/
def readBytes (n : ℕ) (bytes : Bytes) : Option (Bytes × Bytes) :=
  if n ≤ bytes.length then some (bytes.take n, bytes.drop n) else none

/-- `cursor.field`. -/
def readField (bytes : Bytes) : Option (Option Bytes × Bytes) :=
  (varint bytes).bind fun read =>
    if read.1 = -1 then some (none, read.2)
    else if read.1 < -1 then none
    else (readBytes read.1.toNat read.2).map fun field => (some field.1, field.2)

def readSized (bytes : Bytes) : Option (Bytes × Bytes) :=
  (uvarint bytes).bind fun read => readBytes read.1 read.2

/-- The header loop of `decodeRecord`. -/
def readEntries : ℕ → Headers → Bytes → Option (Headers × Bytes)
  | 0, headers, bytes => some (headers, bytes)
  | count + 1, headers, bytes =>
    (readSized bytes).bind fun name =>
      (readSized name.2).bind fun value =>
        readEntries count (headers.set name.1 value.1) value.2

def decodeRecord : Bytes → Option BlockRecord
  | [] => none
  | attributes :: bytes =>
    (uvarint bytes).bind fun delta =>
      (readField delta.2).bind fun key =>
        (readField key.2).bind fun value =>
          (uvarint value.2).bind fun count =>
            (readEntries count.1 Headers.empty count.2).bind fun headers =>
              if headers.2 = [] then
                some ⟨attributes, BitVec.ofNat 32 delta.1, key.1, value.1, headers.1⟩
              else none

def decodeRecords : ℕ → Bytes → Option (List BlockRecord)
  | 0, payload => if payload = [] then some [] else none
  | n + 1, payload =>
    (readSized payload).bind fun body =>
      (decodeRecord body.1).bind fun r =>
        (decodeRecords n body.2).map (r :: ·)

/-! ## What was written is read -/

theorem readBytes_append (bytes rest : Bytes) :
    readBytes bytes.length (bytes ++ rest) = some (bytes, rest) := by
  simp [readBytes]

variable {bytes : Bytes}

theorem readSized_append (hbytes : bytes.length < 2 ^ 63) (rest : Bytes) :
    readSized (putUvarint bytes.length ++ (bytes ++ rest)) = some (bytes, rest) := by
  rw [readSized, uvarint_putUvarint (by omega)]
  exact readBytes_append bytes rest

theorem readField_append {field : Option Bytes} (hfield : (appendBytes field).length < 2 ^ 63)
    (rest : Bytes) : readField (appendBytes field ++ rest) = some (field, rest) := by
  cases field with
  | none =>
    have hread : varint (putVarint (-1) ++ rest) = some (-1, rest) :=
      varint_putVarint (by decide) rest
    rw [readField, appendBytes, hread]
    rfl
  | some bytes =>
    simp only [appendBytes, length_append] at hfield
    have hzigzag : zigzag (bytes.length : ℤ) < 2 ^ 64 := by
      rw [zigzag, if_neg (by omega)]
      omega
    rw [readField, appendBytes, append_assoc, varint_putVarint hzigzag, bind_some,
      if_neg (by omega), if_neg (by omega), Int.toNat_natCast, readBytes_append]
    rfl

theorem readEntries_append {entries : List (Bytes × Bytes)} {acc : Headers}
    (hnames : (acc.names ++ entries.map Prod.fst).Nodup)
    (hlength : (entries.flatMap encodeEntry).length < 2 ^ 63) (rest : Bytes) :
    ∃ headers, readEntries entries.length acc
        (entries.flatMap encodeEntry ++ rest) = some (headers, rest) ∧
      headers.entries = acc.entries ++ entries := by
  induction entries generalizing acc with
  | nil => exact ⟨acc, rfl, by simp⟩
  | cons entry entries ih =>
    obtain ⟨name, value⟩ := entry
    have hnew : name ∉ acc.names := by
      intro hmem
      exact (nodup_append.mp hnames).2.2 name hmem name (by simp) rfl
    have hset : (acc.set name value).entries =
        acc.entries ++ [(name, value)] := Headers.entries_set hnew
    have hnames' : ((acc.set name value).names ++ entries.map Prod.fst).Nodup := by
      simpa [Headers.names, hset] using hnames
    simp only [flatMap_cons, encodeEntry, length_append] at hlength
    obtain ⟨headers, hread, hentries⟩ := ih hnames' (by omega)
    refine ⟨headers, ?_, by rw [hentries, hset]; simp⟩
    simp only [flatMap_cons, encodeEntry, append_assoc, length_cons, readEntries]
    rw [readSized_append (by omega), bind_some, readSized_append (by omega), bind_some]
    exact hread

def BlockRecord.sorted (r : BlockRecord) : BlockRecord :=
  { r with headers := r.headers.sorted }

theorem length_le_flatMap_encodeEntry (entries : List (Bytes × Bytes)) :
    entries.length ≤ (entries.flatMap encodeEntry).length := by
  induction entries with
  | nil => simp
  | cons entry entries ih =>
    have hpos := length_putUvarint_pos entry.1.length
    simp only [flatMap_cons, encodeEntry, length_append, length_cons]
    omega

theorem decodeRecord_encodeRecord {r : BlockRecord} (hlength : (encodeRecord r).length < 2 ^ 63) :
    decodeRecord (encodeRecord r) = some r.sorted := by
  unfold encodeRecord at hlength
  simp only [length_cons, length_append] at hlength
  have hcount : r.headers.entries.length = r.headers.sorted.entries.length :=
    r.headers.entries_sorted_perm.length_eq.symm
  have hentries := length_le_flatMap_encodeEntry r.headers.sorted.entries
  have hnames : (Headers.empty.names ++
      r.headers.sorted.entries.map Prod.fst).Nodup := r.headers.sorted.nodup
  obtain ⟨headers, hread, heq⟩ := readEntries_append hnames (by omega) []
  rw [append_nil] at hread
  have hheaders : headers = r.headers.sorted := Headers.eq_of_entries heq
  have hdelta : r.offsetDelta.toNat < 2 ^ 64 := by
    have hlt := r.offsetDelta.isLt
    omega
  unfold encodeRecord decodeRecord
  simp only
  rw [uvarint_putUvarint hdelta, bind_some, readField_append (by omega), bind_some,
    readField_append (by omega), bind_some, hcount,
    uvarint_putUvarint (by omega), bind_some, hread, hheaders]
  simp [BlockRecord.sorted]

theorem decodeRecords_encodeRecords {recs : List BlockRecord}
    (hlength : (encodeRecords recs).length < 2 ^ 63) :
    decodeRecords recs.length (encodeRecords recs) = some (recs.map BlockRecord.sorted) := by
  induction recs with
  | nil => rfl
  | cons r recs ih =>
    simp only [encodeRecords, flatMap_cons, length_append] at hlength
    have hrest : decodeRecords recs.length (encodeRecords recs) =
        some (recs.map BlockRecord.sorted) := by
      apply ih
      unfold encodeRecords
      omega
    simp only [encodeRecords, flatMap_cons, append_assoc, length_cons, decodeRecords]
    rw [readSized_append (by omega), bind_some, decodeRecord_encodeRecord (by omega), bind_some]
    unfold encodeRecords at hrest
    rw [hrest]
    rfl

/-! ## What was read is not longer when it is written -/

variable {rest : Bytes}

theorem of_readBytes {n : ℕ} {found : Bytes} (hread : readBytes n bytes = some (found, rest)) :
    found.length = n ∧ bytes = found ++ rest := by
  unfold readBytes at hread
  split at hread
  · rename_i hle
    cases hread
    exact ⟨by simp [hle], (take_append_drop n bytes).symm⟩
  · cases hread

theorem of_readSized {found : Bytes} (hread : readSized bytes = some (found, rest)) :
    rest.length + ((putUvarint found.length).length + found.length) ≤
      bytes.length ∧ found.length < 2 ^ 64 := by
  obtain ⟨⟨n, rest'⟩, hn, hbytes⟩ := bind_eq_some_iff.mp hread
  obtain ⟨hlength, rfl⟩ := of_readBytes hbytes
  obtain ⟨hbound, htaken⟩ := of_uvarint hn
  have hle := htaken found.length hlength.le
  rw [length_append] at hle
  constructor
  · omega
  · rw [hlength]
    exact hbound

theorem of_readField {field : Option Bytes} (hread : readField bytes = some (field, rest)) :
    rest.length + (appendBytes field).length ≤ bytes.length := by
  obtain ⟨⟨x, rest'⟩, hx, hfield⟩ := bind_eq_some_iff.mp hread
  obtain ⟨_, htaken⟩ := of_varint hx
  simp only at hfield
  split at hfield
  · rename_i habsent
    cases hfield
    rw [habsent] at htaken
    exact htaken
  · split at hfield
    · cases hfield
    · obtain ⟨⟨found, rest''⟩, hbytes, heq⟩ :=
        map_eq_some_iff.mp hfield
      cases heq
      obtain ⟨hlength, rfl⟩ := of_readBytes hbytes
      have hx : (found.length : ℤ) = x := by omega
      rw [length_append] at htaken
      rw [appendBytes, hx, length_append]
      change rest''.length + ((putVarint x).length + found.length) ≤ _
      omega

def Headers.blockLen (headers : Headers) : ℕ :=
  (headers.entries.map fun entry => (encodeEntry entry).length).sum

theorem length_flatMap_sorted (headers : Headers) :
    (headers.sorted.entries.flatMap encodeEntry).length =
      headers.blockLen := by
  rw [length_flatMap, Headers.blockLen]
  exact (headers.entries_sorted_perm.map _).sum_eq

theorem of_readEntries {count : ℕ} {acc headers : Headers}
    (hread : readEntries count acc bytes = some (headers, rest)) :
    rest.length + headers.blockLen ≤ bytes.length + acc.blockLen ∧
      headers.entries.length ≤ acc.entries.length + count := by
  induction count generalizing acc bytes with
  | zero =>
    cases hread
    omega
  | succ count ih =>
    obtain ⟨name, hname, hread⟩ := bind_eq_some_iff.mp hread
    obtain ⟨value, hvalue, hread⟩ := bind_eq_some_iff.mp hread
    have htakes := (of_readSized hname).1
    have htakes' := (of_readSized hvalue).1
    obtain ⟨hlength, hcount⟩ := ih hread
    have hset := acc.sum_map_set (fun entry => (encodeEntry entry).length) name.1 value.1
    have hentry := acc.length_set name.1 value.1
    simp only [encodeEntry, length_append] at hset
    unfold Headers.blockLen encodeEntry at hlength ⊢
    simp only [length_append] at hlength ⊢
    omega

theorem length_encodeRecord_le {body : Bytes} {r : BlockRecord}
    (hread : decodeRecord body = some r) :
    (encodeRecord r).length ≤ body.length := by
  cases body with
  | nil => cases hread
  | cons attributes bytes =>
    rw [decodeRecord] at hread
    obtain ⟨delta, hdelta, hread⟩ := bind_eq_some_iff.mp hread
    obtain ⟨key, hkey, hread⟩ := bind_eq_some_iff.mp hread
    obtain ⟨value, hvalue, hread⟩ := bind_eq_some_iff.mp hread
    obtain ⟨count, hcount, hread⟩ := bind_eq_some_iff.mp hread
    obtain ⟨headers, hheaders, hread⟩ := bind_eq_some_iff.mp hread
    split at hread
    · cases hread
      -- the difference is cut to 32 bits, and a map has no name twice
      have hcut : (BitVec.ofNat 32 delta.1).toNat ≤ delta.1 := by
        rw [BitVec.toNat_ofNat]
        exact Nat.mod_le _ _
      have hdelta := (of_uvarint hdelta).2 _ hcut
      have hkey := of_readField hkey
      have hvalue := of_readField hvalue
      obtain ⟨hlength, hentries⟩ := of_readEntries hheaders
      have hcount := (of_uvarint hcount).2 headers.1.entries.length (by
        simpa [Headers.empty] using hentries)
      have hempty : Headers.empty.blockLen = 0 := rfl
      simp only [encodeRecord, length_cons, length_append, length_flatMap_sorted]
      omega
    · cases hread

theorem length_encodeRecords_le {n : ℕ} {payload : Bytes}
    {recs : List BlockRecord} (hread : decodeRecords n payload = some recs) :
    (encodeRecords recs).length ≤ payload.length ∧ recs.length = n := by
  induction n generalizing payload recs with
  | zero =>
    rw [decodeRecords] at hread
    split at hread
    · cases hread
      simp [encodeRecords]
    · cases hread
  | succ n ih =>
    rw [decodeRecords] at hread
    obtain ⟨body, hbody, hread⟩ := bind_eq_some_iff.mp hread
    obtain ⟨r, hrecord, hread⟩ := bind_eq_some_iff.mp hread
    obtain ⟨others, hothers, rfl⟩ := map_eq_some_iff.mp hread
    obtain ⟨hrest, hcount⟩ := ih hothers
    obtain ⟨htakes, hbound⟩ := of_readSized hbody
    have hle := length_encodeRecord_le hrecord
    have hmono := length_putUvarint_mono hle hbound
    simp only [encodeRecords, flatMap_cons, length_append, length_cons] at hrest ⊢
    constructor <;> omega

structure BlockRecord.Same (r r' : BlockRecord) : Prop where
  attributes : r'.attributes = r.attributes
  offsetDelta : r'.offsetDelta = r.offsetDelta
  key : r'.key = r.key
  value : r'.value = r.value
  headers : r'.headers.entries.Perm r.headers.entries

theorem BlockRecord.same_sorted (r : BlockRecord) : r.Same r.sorted :=
  ⟨rfl, rfl, rfl, rfl, r.headers.entries_sorted_perm⟩

end CommitLog
