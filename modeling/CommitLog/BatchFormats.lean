import CommitLog.BlockRoundTrip
import CommitLog.FrameReads
import CommitLog.MessageRoundTrip

/-!
# One batch in two block formats

`AppendBatch` writes the identity of the producer on each message and frames
the messages, or writes one version-3 block whose header holds the identity
and from which the frames are put together when it is read.  Either way the
log is read as frames, so both formats are compared as lists of framed
messages.
-/

namespace CommitLog

open List Runs

/-! ## Framed messages -/

/-- A message with its place in the log and the order its headers are written
in. -/
structure FramedMessage where
  offset : BitVec 64
  timestamp : BitVec 64
  leaderEpoch : BitVec 64
  sent : Produced
  order : List (Bytes × Option Bytes)

namespace FramedMessage

section Bytes

variable (crc headerCrc : Bytes → Fin (2 ^ 32))

def payload (f : FramedMessage) : Bytes :=
  putUint 4 (crc (f.sent.body f.order)).val ++ f.sent.body f.order

def bytes (f : FramedMessage) : Bytes :=
  frameBytes headerCrc f.offset.toInt f.timestamp.toInt f.leaderEpoch.toNat (f.payload crc)

/-- What a reader makes of the frame before it looks at the message. -/
def read (f : FramedMessage) : SetFrame :=
  ⟨f.offset.toInt, f.timestamp.toInt, f.leaderEpoch.toNat, f.payload crc⟩

end Bytes

/-- The order is one of the headers, and the frame ends below the largest
32-bit number. -/
structure Sized (f : FramedMessage) : Prop where
  order : f.order.Perm f.sent.headers
  length : msgSetHeaderLen + f.sent.encodedLen ≤ maxInt32

variable {crc headerCrc : Bytes → Fin (2 ^ 32)} {f : FramedMessage}

theorem length_payload_of_perm (horder : f.order.Perm f.sent.headers) :
    (f.payload crc).length = f.sent.encodedLen := by
  unfold payload Produced.body Produced.encodedLen
  simp only [length_append, length_putUint, length_putBytes,
    length_cons, length_nil, length_headerBytes]
  rw [(horder.map _).sum_eq]
  omega

theorem Sized.length_payload (hsized : f.Sized) : (f.payload crc).length = f.sent.encodedLen :=
  length_payload_of_perm hsized.order

theorem length_payload_pos (f : FramedMessage) : 0 < (f.payload crc).length := by
  rw [payload, length_append, length_putUint]
  omega

theorem Sized.length_bytes (hsized : f.Sized) :
    (f.bytes crc headerCrc).length = msgSetHeaderLen + f.sent.encodedLen := by
  rw [bytes, length_frameBytes, hsized.length_payload]

theorem crcMatches_payload (f : FramedMessage) : crcMatches crc (f.payload crc) = true := by
  have hlt := (crc (f.sent.body f.order)).isLt
  have hdigest := bigEndian_putUint 4 (crc (f.sent.body f.order)).val
  rw [Nat.mod_eq_of_lt (by omega)] at hdigest
  unfold crcMatches payload
  rw [take_left' (length_putUint 4 _), drop_left' (length_putUint 4 _), hdigest]
  simp

end FramedMessage

theorem wrapInt64_toInt (x : BitVec 64) :
    wrapInt64 (((x.toInt % 2 ^ 64).toNat % 256 ^ 8 : ℕ) : ℤ) = x.toInt := by
  have hnonneg : 0 ≤ x.toInt % 2 ^ 64 := Int.emod_nonneg _ (by norm_num)
  have hlt : x.toInt % 2 ^ 64 < 2 ^ 64 := Int.emod_lt_of_pos _ (by norm_num)
  have hcast : (((x.toInt % 2 ^ 64).toNat % 256 ^ 8 : ℕ) : ℤ) = x.toInt % 2 ^ 64 := by
    omega
  rw [hcast, wrapInt64]
  exact (Int.emod_bmod _ _).trans (BitVec.toInt_bmod_cancel x)

namespace FramedMessage

variable {crc headerCrc : Bytes → Fin (2 ^ 32)} {f : FramedMessage}

/-- The words of the frame's header in front of its checksum. -/
def words (crc : Bytes → Fin (2 ^ 32)) (f : FramedMessage) : List (ℕ × ℕ) :=
  [(8, (f.offset.toInt % 2 ^ 64).toNat),
    (8, (f.timestamp.toInt % 2 ^ 64).toNat), (8, f.leaderEpoch.toNat),
    (4, (f.payload crc).length)]

theorem length_words : (putWords (f.words crc)).length = 28 := by
  rw [length_putWords]
  rfl

theorem bytes_eq : f.bytes crc headerCrc = putWords (f.words crc) ++
        (putUint 4 (headerCrc (putWords (f.words crc))).val ++ f.payload crc) := by
  simp [bytes, frameBytes, words, putWords]

theorem uintIn_bytes {i place width v : ℕ} (hword : (f.words crc)[i]? = some (width, v))
    (hat : wordOffset (f.words crc) i = place) :
    uintIn (f.bytes crc headerCrc) place width = v % 256 ^ width := by
  rw [bytes_eq]
  exact uintIn_putWords hword hat _

theorem drop_header : (f.bytes crc headerCrc).drop msgSetHeaderLen =
    f.payload crc := by
  rw [bytes_eq, ← append_assoc]
  apply drop_left'
  rw [length_append, length_words, length_putUint]
  rfl

theorem Sized.wholeFrame (hsized : f.Sized) : WholeFrame (f.bytes crc headerCrc) := by
  have hlength := hsized.length
  unfold msgSetHeaderLen at hlength
  have hword : uintIn (f.bytes crc headerCrc) 24 4 = (f.payload crc).length % 256 ^ 4 :=
    uintIn_bytes (i := 3) rfl rfl
  have hsize : setSize (f.bytes crc headerCrc) = f.sent.encodedLen := by
    rw [uintIn] at hword
    rw [setSize, hword, hsized.length_payload,
      Nat.mod_eq_of_lt (by unfold maxInt32 at hlength; omega), int32_natCast (by omega)]
  constructor
  · rw [hsized.length_bytes]
    omega
  · rw [hsize, hsized.length_bytes, Nat.add_sub_cancel_left]

theorem headerCrcMatches_bytes : headerCrcMatches headerCrc (f.bytes crc headerCrc) = true := by
  have htake : (f.bytes crc headerCrc).take 28 = putWords (f.words crc) := by
    rw [bytes_eq]
    exact take_left' length_words
  have hdrop : ((f.bytes crc headerCrc).drop 28).take 4 =
      putUint 4 (headerCrc (putWords (f.words crc))).val := by
    rw [bytes_eq, drop_left' length_words]
    exact take_left' (length_putUint 4 _)
  have hlt := (headerCrc (putWords (f.words crc))).isLt
  rw [headerCrcMatches, htake, hdrop, bigEndian_putUint, Nat.mod_eq_of_lt (by omega)]
  simp

theorem Sized.setFrame_bytes (hsized : f.Sized) :
    setFrame (f.bytes crc headerCrc) = f.read crc := by
  have hwhole : WholeFrame (f.bytes crc headerCrc) := hsized.wholeFrame
  have hpayload := hwhole.payload_eq
  have hoffset : uintIn (f.bytes crc headerCrc) 0 8 = (f.offset.toInt % 2 ^ 64).toNat % 256 ^ 8 :=
    uintIn_bytes (i := 0) rfl rfl
  have htimestamp : uintIn (f.bytes crc headerCrc) 8 8 =
      (f.timestamp.toInt % 2 ^ 64).toNat % 256 ^ 8 :=
    uintIn_bytes (i := 1) rfl rfl
  have hepoch : uintIn (f.bytes crc headerCrc) 16 8 = f.leaderEpoch.toNat := by
    have hlt := f.leaderEpoch.isLt
    have hword : uintIn (f.bytes crc headerCrc) 16 8 =
        f.leaderEpoch.toNat % 256 ^ 8 := uintIn_bytes (i := 2) rfl rfl
    rw [hword, Nat.mod_eq_of_lt]
    omega
  unfold uintIn at hoffset htimestamp hepoch
  rw [drop_zero] at hoffset
  rw [drop_header] at hpayload
  unfold setFrame at hpayload ⊢
  simp only at hpayload
  rw [hoffset, htimestamp, hepoch, hpayload, wrapInt64_toInt, wrapInt64_toInt, read]

/-! ### A list of framed messages -/

variable {frames : List FramedMessage}

theorem length_flatMap_bytes (hsized : ∀ f ∈ frames, f.Sized) :
    (frames.flatMap (bytes crc headerCrc)).length =
      (frames.map fun f => msgSetHeaderLen + f.sent.encodedLen).sum := by
  rw [length_flatMap]
  apply congrArg
  apply map_congr_left
  intro f hf
  exact (hsized f hf).length_bytes

theorem wholeFrame_of_mem {frames : List FramedMessage} (hsized : ∀ f ∈ frames, f.Sized) :
    ∀ ms ∈ frames.map (bytes crc headerCrc), WholeFrame ms := by
  intro ms hms
  obtain ⟨f, hf, rfl⟩ := mem_map.mp hms
  exact (hsized f hf).wholeFrame

theorem map_setFrame_bytes (hsized : ∀ f ∈ frames, f.Sized) :
    (frames.map (bytes crc headerCrc)).map setFrame = frames.map (read crc) := by
  rw [map_map]
  apply map_congr_left
  intro f hf
  exact (hsized f hf).setFrame_bytes

theorem readMessages_flatMap (hsized : ∀ f ∈ frames, f.Sized) :
    readMessages crc headerCrc (frames.flatMap (bytes crc headerCrc)).length
        (frames.flatMap (bytes crc headerCrc)) =
      some (frames.map (read crc)) := by
  have hall : ((frames.map (bytes crc headerCrc)).all fun ms =>
      headerCrcMatches headerCrc ms && crcMatches crc (ms.drop msgSetHeaderLen)) = true := by
    rw [all_eq_true]
    intro ms hms
    obtain ⟨f, hf, rfl⟩ := mem_map.mp hms
    rw [headerCrcMatches_bytes, drop_header, crcMatches_payload]
    rfl
  have hread := @readMessages_flatten crc headerCrc _
    (@wholeFrame_of_mem crc headerCrc frames hsized) _ le_rfl
  rw [if_pos hall, map_setFrame_bytes hsized] at hread
  rw [flatMap_def, hread]

theorem length_of_mem {frames : List FramedMessage} (hsized : ∀ f ∈ frames, f.Sized) :
    ∀ ms ∈ frames.map (bytes crc headerCrc),
      msgSetHeaderLen < ms.length ∧ ms.length ≤ maxInt32 := by
  intro ms hms
  obtain ⟨f, hf, rfl⟩ := mem_map.mp hms
  have hpos := @length_payload_pos crc f
  have hle := (hsized f hf).length
  rw [(hsized f hf).length_payload] at hpos
  rw [(hsized f hf).length_bytes]
  omega

theorem admissible_map {first : FramedMessage} {rest : List FramedMessage}
    (hsized : ∀ f ∈ first :: rest, f.Sized) :
    Admissible ((first :: rest).map (bytes crc headerCrc)) := by
  have hlength := @length_of_mem crc headerCrc _ hsized
  constructor
  · have hfirst := hlength _ (mem_cons_self)
    rw [map_cons, flatten_cons, length_append]
    omega
  · intro ms hms
    exact (hlength ms (mem_of_getLast? hms)).2

theorem entriesForMessageSet_flatMap (hsized : ∀ f ∈ frames, f.Sized) :
    entriesForMessageSet (frames.flatMap (bytes crc headerCrc)) = frames.map (read crc) := by
  cases frames with
  | nil => rfl
  | cons first rest =>
    rw [flatMap_def, entriesForMessageSet_flatten
      (wholeFrame_of_mem hsized) (admissible_map hsized).size,
      map_setFrame_bytes hsized]

theorem checkAppendedEntries_iff {first : FramedMessage} {rest : List FramedMessage}
    (hsized : ∀ f ∈ first :: rest, f.Sized) (tail : ℤ) :
    checkAppendedEntries tail (entriesForMessageSet ((first :: rest).flatMap (bytes crc headerCrc)))
        ((first :: rest).flatMap (bytes crc headerCrc)).length = true ↔
      tail < first.offset.toInt ∧
        (first :: rest).Pairwise fun a b => a.offset.toInt < b.offset.toInt := by
  have hadmissible := @admissible_map crc headerCrc _ _ hsized
  have hoffset : ∀ f ∈ first :: rest,
      (setFrame (bytes crc headerCrc f)).offset = f.offset.toInt := by
    intro f hf
    rw [(hsized f hf).setFrame_bytes]
    rfl
  have hpairwise : ((first :: rest).map (bytes crc headerCrc)).Pairwise
      (fun a b => (setFrame a).offset < (setFrame b).offset) ↔
      (first :: rest).Pairwise fun a b => a.offset.toInt < b.offset.toInt := by
    rw [pairwise_map]
    apply Pairwise.iff_of_mem
    intro a b ha hb
    rw [hoffset a ha, hoffset b hb]
  have hcheck := checkAppended_iff (@wholeFrame_of_mem crc headerCrc _ hsized) tail
  rw [flatMap_def, map_cons, hcheck, ← map_cons, hpairwise, hoffset first mem_cons_self]
  exact and_iff_right hadmissible

end FramedMessage

/-! ## The identity of a producer -/

/-- `BatchMeta`. -/
structure ProducerIdentity where
  producerID : BitVec 64
  producerEpoch : BitVec 32
  baseSequence : BitVec 32
  nonce : BitVec 64
deriving DecidableEq

def hdrProducerID : Bytes := [112, 105, 100]

def hdrProducerEpoch : Bytes := [101, 112, 111, 99, 104]

def hdrSequence : Bytes := [115, 101, 113]

def hdrNonce : Bytes := [110, 111, 110, 99, 101]

def identityMap (producerID : BitVec 64) (producerEpoch sequence : BitVec 32)
    (nonce : Option (BitVec 64)) : Headers where
  entries := [(hdrProducerID, putUint 8 producerID.toNat),
    (hdrProducerEpoch, putUint 4 producerEpoch.toNat),
    (hdrSequence, putUint 4 sequence.toNat)] ++
      nonce.toList.map fun nonce => (hdrNonce, putUint 8 nonce.toNat)
  nodup := by
    cases nonce <;>
      simp [hdrProducerID, hdrProducerEpoch, hdrSequence, hdrNonce]

def Produced.withHeaders (sent : Produced) (entries : Headers) : Produced :=
  { sent with
    headers := (sent.headers.filter fun header =>
      !entries.names.contains header.1) ++ valued entries.entries
    nodup := by
      have hnames : (valued entries.entries).map Prod.fst = entries.names := by
        simp [valued, Headers.names]
      rw [map_append, hnames, nodup_append]
      refine ⟨sent.nodup.sublist (filter_sublist.map _), entries.nodup, ?_⟩
      intro name hname other hother heq
      obtain ⟨header, hheader, rfl⟩ := mem_map.mp hname
      have hfree := (mem_filter.mp hheader).2
      rw [heq] at hfree
      simp [hother] at hfree }

def Headers.get (headers : Headers) (name : Bytes) : Option Bytes :=
  (headers.entries.find? fun header => header.1 == name).map Prod.snd

/-- `identityFromHeaders`: producer, epoch, sequence and nonce. -/
def identityFromHeaders (headers : Headers) : Option (ℕ × ℕ × ℤ × ℕ) :=
  match headers.get hdrProducerID, headers.get hdrProducerEpoch, headers.get hdrSequence with
  | some producerID, some producerEpoch, some sequence =>
    if producerID.length = 8 ∧ producerEpoch.length = 4 ∧ sequence.length = 4 then
      let nonce := (headers.get hdrNonce).getD []
      some (bigEndian producerID, bigEndian producerEpoch, int32 (bigEndian sequence),
        if nonce.length = 8 then bigEndian nonce else 0)
    else none
  | _, _, _ => none

namespace ProducerIdentity

def isNone (identity : ProducerIdentity) : Bool :=
  decide (identity = ⟨0, 0, 0, 0⟩)

def headersAt (identity : ProducerIdentity) (i : ℕ) : Headers :=
  identityMap identity.producerID identity.producerEpoch (identity.baseSequence + BitVec.ofNat 32 i)
    (if identity.nonce = 0 then none else some identity.nonce)

/-- What `appendStamped` makes of a message; `Append` takes it as it is. -/
def stamped (identity : ProducerIdentity) (i : ℕ) (sent : Produced) :
    Produced :=
  if identity.isNone then sent else sent.withHeaders (identity.headersAt i)

end ProducerIdentity

/-- A message as `AppendBatch` is handed it; a zero timestamp is none. -/
structure BatchMessage where
  sent : Produced
  timestamp : BitVec 64
  leaderEpoch : BitVec 64

/-! ## Stored blocks -/

structure BlockBytes where
  bytes : Bytes
  codec : CodecByte
  logicalLen : ℕ

/-- What the two formats share: the checksums, the compressors and the codec
of the log. -/
structure BlockEnv where
  crc : Bytes → Fin (2 ^ 32)
  headerCrc : Bytes → Fin (2 ^ 32)
  blockCrc : Bytes → BitVec 32
  comp : Compressors
  codec : CodecByte

namespace BlockEnv

variable (env : BlockEnv)

/-- The codec a payload is stored under: none below `compressMinBlock`. -/
def codecFor (logical : Bytes) : CodecByte :=
  if logical.length < 4096 then 0 else env.codec

/-- `appendBlock`. -/
def appendBlock (ms : Bytes) (records : ℕ) : BlockBytes :=
  let packed := env.comp.pack (env.codecFor ms) ms
  ⟨putWords [(1, 0xC1), (1, 2), (1, packed.1.val), (4, ms.length),
      (4, packed.2.length), (4, records)] ++ packed.2, packed.1, ms.length⟩

/-- `parseBlockHeader`, and the block it delimits, as a reopen resolves it. -/
def reopenBlock (stored : BlockBytes) : Option BlockBytes :=
  let b := stored.bytes
  let codec : CodecByte := Fin.ofNat 256 (uintIn b 2 1)
  if b.length < 15 ∨ uintIn b 0 1 ≠ 0xC1 ∨ uintIn b 1 1 ≠ 2 ∨
      !codec.valid ∨ uintIn b 11 4 = 0 ∨ b.length < 15 + uintIn b 7 4 then none
  else some ⟨b.take (15 + uintIn b 7 4), codec, uintIn b 3 4⟩

/-- `decodeBlock` of a segment for a version-2 block. -/
def readBlock (stored : BlockBytes) : Option Bytes :=
  (env.comp.decompress stored.codec (stored.bytes.drop 15)).filter fun data =>
    decide (data.length = stored.logicalLen)

end BlockEnv

/-! ## Version-3 blocks -/

def flagControl : BitVec 8 := 1#8

def sortedHeaders (headers : List (Bytes × Option Bytes)) : List (Bytes × Option Bytes) :=
  headers.insertionSort fun a b => a.1 ≤ b.1

namespace BlockHeader

def hasFlag (h : BlockHeader) (flag : BitVec 8) : Bool :=
  decide (h.flags &&& flag ≠ 0)

def messageAt (h : BlockHeader) (i : ℕ) (r : Produced) : Produced :=
  let named :=
    if h.hasFlag flagStripped then r
    else r.withHeaders (identityMap h.producerID h.producerEpoch
      (h.baseSequence + BitVec.ofNat 32 i)
      (if h.hasFlag flagTransactional then some h.txNonce else none))
  { named with
    magicByte := 0
    attributes := (if h.hasFlag flagControl then attrControl else 0) |||
      (r.attributes &&& attrTombstone) }

/-- The frames of `synthesizeFraming`. -/
def frames (h : BlockHeader) (recs : List (BitVec 32 × Produced)) :
    List FramedMessage :=
  recs.zipIdx.map fun r =>
    let sent := h.messageAt r.2 r.1.2
    ⟨h.baseOffset + r.1.1.setWidth 64, h.baseTimestamp, h.leaderEpoch, sent,
      sortedHeaders sent.headers⟩

end BlockHeader

/-- What `encodeV1Message` refuses. -/
def FramedMessage.countable (f : FramedMessage) : Bool :=
  decide (f.sent.headers.length ≤ 32767) &&
    f.sent.headers.all fun header => decide (header.1.length ≤ 32767)

def BlockRecord.produced (r : BlockRecord) : BitVec 32 × Produced :=
  (r.offsetDelta, ⟨0, r.attributes, r.key, r.value, valued r.headers.entries, by
    simpa [valued, Function.comp_def] using r.headers.nodup⟩)

namespace BlockEnv

variable (env : BlockEnv)

def synthesizeFraming (h : BlockHeader) (recs : List (BitVec 32 × Produced)) :
    Option Bytes :=
  if (h.frames recs).all FramedMessage.countable then
    some ((h.frames recs).flatMap (FramedMessage.bytes env.crc env.headerCrc))
  else none

/-- `encodeV3Block`. -/
def encodeV3Block (h : BlockHeader) (recs : List BlockRecord) : Option Bytes :=
  encodeBlock env.blockCrc env.comp { h with codec := if (encodeRecords recs).length < 4096 then 0
      else h.codec } recs

/-- `decodeV3Block`. -/
def decodeV3Block (block : Bytes) : Option Bytes :=
  match decodeBlock env.blockCrc env.comp block with
  | .error _ => none
  | .ok (h, recs) => env.synthesizeFraming h (recs.map BlockRecord.produced)

/-- `scanV3Block`. -/
def reopenV3Block (stored : BlockBytes) : Option BlockBytes :=
  match decodeHeader env.blockCrc stored.bytes with
  | .error _ => none
  | .ok h =>
    if stored.bytes.length < 76 + h.compressedLen.toNat then none
    else
      let raw := stored.bytes.take (76 + h.compressedLen.toNat)
      (env.decodeV3Block raw).map fun framing =>
        ⟨raw, h.codec, framing.length⟩

/-- `decodeBlock` of a segment for a version-3 block. -/
def readV3Block (stored : BlockBytes) : Option Bytes :=
  (env.decodeV3Block stored.bytes).filter fun data =>
    decide (data.length = stored.logicalLen)

end BlockEnv

/-! ## Appending a batch -/

/-- The headers of a record; one without a value is written as empty. -/
def Produced.headerMap (sent : Produced) : Headers where
  entries := sent.headers.map fun header => (header.1, header.2.getD [])
  nodup := by simpa [Function.comp_def] using sent.nodup

def BatchMessage.record (m : BatchMessage) (i : ℕ) : BlockRecord :=
  ⟨m.sent.attributes &&& attrTombstone, BitVec.ofNat 32 i, m.sent.key,
    m.sent.value, m.sent.headerMap⟩

/-- The loop of `AppendBatch` over the messages: one epoch, one kind, and the
timestamp they carry. -/
def checkUniform (epoch : BitVec 64) (control : Bool) :
    BitVec 64 → List BatchMessage → Option (BitVec 64)
  | stamp, [] => some stamp
  | stamp, m :: msgs =>
    if m.timestamp ≠ 0 ∧ stamp ≠ 0 ∧ m.timestamp ≠ stamp then none
    else if m.leaderEpoch ≠ epoch then none
    else if hasAttribute m.sent.attributes attrControl ≠ control then none
    else
      checkUniform epoch control (if m.timestamp ≠ 0 then m.timestamp else stamp) msgs

def identityNames : List Bytes :=
  [hdrProducerID, hdrProducerEpoch, hdrSequence, hdrNonce]

def carriesIdentity (msgs : List BatchMessage) : Bool :=
  msgs.any fun m => m.sent.headers.any fun header =>
    identityNames.contains header.1

/-- A call of `AppendBatch`: the next offset of the log, the clock, and what
is handed in. -/
structure BatchCall where
  next : BitVec 64
  clock : BitVec 64
  identity : ProducerIdentity
  msgs : List BatchMessage

namespace BatchCall

variable (env : BlockEnv) (call : BatchCall)

/-- The message as a version-2 log stores it. -/
def stampedAt (m : BatchMessage × ℕ) : Produced :=
  call.identity.stamped m.2 m.1.sent

/-- The frames of `newMessageSetFromProto`; `order` is the order in which the
headers of each message are met. -/
def frames (order : ℕ → List (Bytes × Option Bytes)) : List FramedMessage :=
  call.msgs.zipIdx.map fun m =>
    ⟨BitVec.ofNat 64 m.2 + call.next,
      if m.1.timestamp = 0 then call.clock else m.1.timestamp,
      m.1.leaderEpoch, call.stampedAt m, order m.2⟩

/-- `AppendBatch` on a log that writes version-2 blocks: the offsets and the
block. -/
def appendV2 (order : ℕ → List (Bytes × Option Bytes)) : Option (List ℤ × BlockBytes) :=
  let frames := call.frames order
  if call.msgs.isEmpty || carriesIdentity call.msgs then none
  else if frames.all fun f => f.sent.fits then
    some (frames.map fun f => f.offset.toInt, env.appendBlock (frames.flatMap
        (FramedMessage.bytes env.crc env.headerCrc)) frames.length)
  else none

/-- The header `AppendBatch` gives the block. -/
def header (stamp epoch : BitVec 64) (control : Bool) : BlockHeader where
  codec := env.codec
  flags := (if control then flagControl else 0) |||
    (if call.identity.nonce ≠ 0 then flagTransactional else 0) |||
    (if call.identity.isNone then flagStripped else 0)
  baseOffset := call.next
  leaderEpoch := epoch
  baseTimestamp := stamp
  producerID := call.identity.producerID
  producerEpoch := call.identity.producerEpoch
  baseSequence := call.identity.baseSequence
  txNonce := call.identity.nonce
  records := 0
  lastOffsetDelta := 0
  uncompressedLen := 0
  compressedLen := 0
  payloadCRC := 0

def records : List BlockRecord :=
  call.msgs.zipIdx.map fun m => m.1.record m.2

/-- The messages of the batch as the records they are framed from before the
write. -/
def drafts : List (BitVec 32 × Produced) :=
  call.msgs.zipIdx.map fun m => (BitVec.ofNat 32 m.2, m.1.sent)

/-- `writeV3`, into a block segment. -/
def writeV3 (h : BlockHeader) (block : Bytes) : Option (List ℤ × BlockBytes) :=
  (env.synthesizeFraming h call.drafts).bind fun logical =>
    if checkAppendedEntries (call.next - 1).toInt (entriesForMessageSet logical) logical.length then
      match decodeHeader env.blockCrc block with
      | .error _ => none
      | .ok stored =>
        some ((entriesForMessageSet logical).map SetFrame.offset,
          ⟨block, stored.codec, logical.length⟩)
    else none

/-- `AppendBatch` on a log that writes version-3 blocks. -/
def appendV3 : Option (List ℤ × BlockBytes) :=
  match call.msgs with
  | [] => none
  | first :: _ =>
    if carriesIdentity call.msgs then none
    else
      let control := hasAttribute first.sent.attributes attrControl
      (checkUniform first.leaderEpoch control 0 call.msgs).bind fun stamp =>
        let h := call.header env (if stamp = 0 then call.clock else stamp) first.leaderEpoch control
        (env.encodeV3Block h call.records).bind fun block =>
          call.writeV3 env h block

end BatchCall

/-! ## What is read -/

def BlockEnv.records (env : BlockEnv) (bytes : Bytes) : Option (List (SetFrame × Message)) :=
  (readMessages env.crc env.headerCrc bytes.length bytes).bind fun frames =>
    frames.mapM fun frame => (readBack frame.payload).map fun msg => (frame, msg)

structure SameRecord (a b : SetFrame × Message) : Prop where
  offset : a.1.offset = b.1.offset
  timestamp : a.1.timestamp = b.1.timestamp
  leaderEpoch : a.1.leaderEpoch = b.1.leaderEpoch
  attributes : a.2.attributes = b.2.attributes
  key : a.2.key = b.2.key
  value : a.2.value = b.2.value
  headers : a.2.headers.entries.Perm b.2.headers.entries
  identity : identityFromHeaders a.2.headers = identityFromHeaders b.2.headers

def BlockEnv.ReadSame (env : BlockEnv) (a b : Option Bytes) : Prop :=
  ∃ recs recs', a.bind env.records = some recs ∧
    b.bind env.records = some recs' ∧ Forall₂ SameRecord recs recs'

/-- Both formats refuse the batch, or both give it the same offsets and read
it back as the same records, before and after a reopen. -/
def FormatIndependent (env : BlockEnv) (call : BatchCall) : Prop :=
  ∀ order, (∀ m ∈ call.msgs.zipIdx, (order m.2).Perm (call.stampedAt m).headers) →
    (call.appendV2 env order = none ∧ call.appendV3 env = none) ∨
    ∃ offsets stored stored', call.appendV2 env order = some (offsets, stored) ∧
      call.appendV3 env = some (offsets, stored') ∧
      env.ReadSame (env.readBlock stored) (env.readV3Block stored') ∧
      env.ReadSame ((BlockEnv.reopenBlock stored).bind env.readBlock)
        ((env.reopenV3Block stored').bind env.readV3Block)

end CommitLog
