import CommitLog.BlockCodec

/-!
# Blocks read back

A block that was encoded decodes to the header it was given, with the sizes
filled in, and to its records, before and after any edits of the header.  The
sizes are kept in 32 bits and nothing refuses a larger payload, so this holds
exactly when the records take fewer than `2 ^ 32` bytes.  Records that were
decoded are always below that.
-/

namespace CommitLog

open List

variable {h : BlockHeader} {recs : List BlockRecord}

/-- The three compressors.  They give back what they were given. -/
structure Compressors where
  encode : CodecByte → Bytes → Bytes
  decode : CodecByte → Bytes → Option Bytes
  decode_encode : ∀ codec src, decode codec (encode codec src) = some src

namespace Compressors

/-- `Codec.Compress`: a codec that is not known stores the bytes raw. -/
def compress (comp : Compressors) (codec : CodecByte) (src : Bytes) : Bytes :=
  if codec = 0 ∨ !codec.valid then src else comp.encode codec src

/-- `Codec.DecompressInto`. -/
def decompress (comp : Compressors) (codec : CodecByte) (src : Bytes) :
    Option Bytes :=
  if codec = 0 then some src
  else if codec.valid then comp.decode codec src else none

/-- The codec and the payload of `EncodeBlock`: raw, unless the codec makes
the records shorter. -/
def pack (comp : Compressors) (codec : CodecByte) (logical : Bytes) : CodecByte × Bytes :=
  if codec = 0 then (0, logical)
  else if (comp.compress codec logical).length < logical.length then
    (codec, comp.compress codec logical)
  else (0, logical)

theorem valid_pack (comp : Compressors) (codec : CodecByte)
    (logical : Bytes) : (comp.pack codec logical).1.valid = true := by
  unfold pack
  split
  · rfl
  · split
    · rename_i hshorter
      by_contra hinvalid
      have hraw : comp.compress codec logical = logical := by
        rw [compress, if_pos (.inr (by simpa using hinvalid))]
      rw [hraw] at hshorter
      exact lt_irrefl _ hshorter
    · rfl

theorem decompress_pack (comp : Compressors) (codec : CodecByte) (logical : Bytes) :
    comp.decompress (comp.pack codec logical).1 (comp.pack codec logical).2 = some logical := by
  have hvalid := comp.valid_pack codec logical
  unfold pack at hvalid ⊢
  split
  · rfl
  · rename_i hcodec
    rw [if_neg hcodec] at hvalid
    split
    · rename_i hshorter
      rw [if_pos hshorter] at hvalid
      have hcompress : comp.compress codec logical =
          comp.encode codec logical := by
        rw [compress, if_neg (by simp [hcodec, hvalid])]
      rw [decompress, if_neg hcodec, if_pos hvalid, hcompress]
      exact comp.decode_encode codec logical
    · rfl

theorem length_pack_le (comp : Compressors) (codec : CodecByte) (logical : Bytes) :
    (comp.pack codec logical).2.length ≤ logical.length := by
  unfold pack
  split
  · exact le_rfl
  · split
    · rename_i hshorter
      exact hshorter.le
    · exact le_rfl

end Compressors

section Blocks

variable (crc : Bytes → BitVec 32) (comp : Compressors)

/-- The header `EncodeBlock` writes: the fields it was given, and those it
computes. -/
def BlockHeader.filled (h : BlockHeader) (recs : List BlockRecord) :
    BlockHeader :=
  let logical := encodeRecords recs
  let packed := comp.pack h.codec logical
  { h with
    codec := packed.1
    records := BitVec.ofNat 32 recs.length
    lastOffsetDelta := (recs.getLast?.map BlockRecord.offsetDelta).getD 0
    uncompressedLen := BitVec.ofNat 32 logical.length
    compressedLen := BitVec.ofNat 32 packed.2.length
    payloadCRC := crc packed.2 }

def encodeBlock (h : BlockHeader) (recs : List BlockRecord) : Option Bytes :=
  if recs.isEmpty then none
  else
    some (encodeHeader crc (h.filled crc comp recs) ++ (comp.pack h.codec (encodeRecords recs)).2)

/-- `VerifyPayload`. -/
def verifyPayload (block : Bytes) : Except BlockError BlockHeader :=
  match decodeHeader crc block with
  | .error e => .error e
  | .ok h =>
    if block.length ≠ 76 + h.compressedLen.toNat then .error .corrupt
    else if crc (block.drop 76) ≠ h.payloadCRC then .error .corrupt
    else .ok h

def decodeBlock (block : Bytes) : Except BlockError (BlockHeader × List BlockRecord) :=
  match verifyPayload crc block with
  | .error e => .error e
  | .ok h =>
    match comp.decompress h.codec (block.drop 76) with
    | none => .error .corrupt
    | some payload =>
      if payload.length ≠ h.uncompressedLen.toNat then .error .corrupt
      else
        match decodeRecords h.records.toNat payload with
        | none => .error .corrupt
        | some recs =>
          if recs.getLast?.map BlockRecord.offsetDelta ≠ some h.lastOffsetDelta then .error .corrupt
          else .ok (h, recs)

/-! ## Edits of the header -/

inductive HeaderEdit
  | rewrite (baseOffset leaderEpoch baseTimestamp : BitVec 64)
  | restamp (producerID : BitVec 64) (producerEpoch baseSequence : BitVec 32) (nonce : BitVec 64)
  | strip

namespace HeaderEdit

def run (block : Bytes) : HeaderEdit → Except BlockError Bytes
  | .rewrite baseOffset leaderEpoch baseTimestamp =>
    rewriteBlock crc block baseOffset leaderEpoch baseTimestamp
  | .restamp producerID producerEpoch baseSequence nonce =>
    CommitLog.restamp crc block producerID producerEpoch baseSequence nonce
  | .strip => stripBlock crc block

def owned (h : BlockHeader) : HeaderEdit → BlockHeader
  | .rewrite baseOffset leaderEpoch baseTimestamp =>
    { h with
      baseOffset := baseOffset
      leaderEpoch := leaderEpoch
      baseTimestamp := baseTimestamp }
  | .restamp producerID producerEpoch baseSequence nonce =>
    { h with
      flags := restampFlags h.flags nonce
      producerID := producerID
      producerEpoch := producerEpoch
      baseSequence := baseSequence
      txNonce := nonce }
  | .strip =>
    { h with
      flags := stripFlags h.flags
      producerID := 0
      producerEpoch := 0
      baseSequence := 0
      txNonce := 0 }

end HeaderEdit

def runEdits (block : Bytes) : List HeaderEdit → Except BlockError Bytes
  | [] => .ok block
  | edit :: rest =>
    match edit.run crc block with
    | .error e => .error e
    | .ok edited => runEdits edited rest

structure Describes (h : BlockHeader) (payload : Bytes)
    (recs : List BlockRecord) : Prop where
  codec : h.codec.valid = true
  records : h.records ≠ 0
  compressedLen : h.compressedLen.toNat = payload.length
  payloadCRC : h.payloadCRC = crc payload
  decodes : ∃ logical, comp.decompress h.codec payload = some logical ∧
    logical.length = h.uncompressedLen.toNat ∧ decodeRecords h.records.toNat logical = some recs
  last : recs.getLast?.map BlockRecord.offsetDelta = some h.lastOffsetDelta

variable {crc comp}

theorem drop_encodeHeader (h : BlockHeader) (payload : Bytes) :
    (encodeHeader crc h ++ payload).drop 76 = payload := by
  rw [← length_encodeHeader crc h, drop_left]

theorem Describes.decodeBlock {payload : Bytes} (hdescribes : Describes crc comp h payload recs) :
    decodeBlock crc comp (encodeHeader crc h ++ payload) = .ok (h, recs) := by
  obtain ⟨logical, hdecompress, hlength, hrecords⟩ := hdescribes.decodes
  have hverify : verifyPayload crc (encodeHeader crc h ++ payload) = .ok h := by
    rw [verifyPayload, decodeHeader_encodeHeader hdescribes.codec hdescribes.records]
    simp only
    rw [if_neg (by
        rw [length_append, length_encodeHeader, hdescribes.compressedLen]
        simp),
      drop_encodeHeader, if_neg (by simp [hdescribes.payloadCRC])]
  rw [CommitLog.decodeBlock, hverify]
  simp only [drop_encodeHeader, hdecompress]
  rw [if_neg (by simp [hlength]), hrecords]
  simp only
  rw [if_neg (by simp [hdescribes.last])]

theorem Describes.owned {payload : Bytes} (hdescribes : Describes crc comp h payload recs)
    (edit : HeaderEdit) : Describes crc comp (HeaderEdit.owned h edit) payload recs := by
  cases edit with
  | rewrite baseOffset leaderEpoch baseTimestamp => exact ⟨hdescribes.codec,
      hdescribes.records, hdescribes.compressedLen, hdescribes.payloadCRC,
      hdescribes.decodes, hdescribes.last⟩
  | restamp producerID producerEpoch baseSequence nonce => exact
      ⟨hdescribes.codec, hdescribes.records, hdescribes.compressedLen,
        hdescribes.payloadCRC, hdescribes.decodes, hdescribes.last⟩
  | strip => exact ⟨hdescribes.codec, hdescribes.records,
      hdescribes.compressedLen, hdescribes.payloadCRC, hdescribes.decodes,
      hdescribes.last⟩

theorem sealHeader_putWords (h : BlockHeader) {old : Bytes}
    (hold : old.length = 4) (payload : Bytes) :
    sealHeader crc (putWords h.words ++ (old ++ payload)) = encodeHeader crc h ++ payload := by
  have htake : (putWords h.words ++ (old ++ payload)).take 72 = putWords h.words := by
    rw [← h.length_words, take_left]
  have hdrop : (putWords h.words ++ (old ++ payload)).drop (72 + 4) =
      payload := by
    rw [← append_assoc, ← h.length_words, ← hold, ← length_append, drop_left]
  rw [sealHeader, putAt, htake, hdrop, encodeHeader, append_assoc]

theorem rewriteBlock_encodeHeader (hcodec : h.codec.valid = true) (hrecords : h.records ≠ 0)
    (baseOffset leaderEpoch baseTimestamp : BitVec 64) (payload : Bytes) :
    rewriteBlock crc (encodeHeader crc h ++ payload) baseOffset leaderEpoch baseTimestamp =
      .ok (encodeHeader crc (HeaderEdit.owned h
        (.rewrite baseOffset leaderEpoch baseTimestamp)) ++ payload) := by
  rw [rewriteBlock, decodeHeader_encodeHeader hcodec hrecords]
  simp only
  rw [encodeHeader, append_assoc, BlockHeader.put_baseOffset, BlockHeader.put_leaderEpoch,
    BlockHeader.put_baseTimestamp, sealHeader_putWords _ (length_putUint 4 _)]
  rfl

theorem restamp_encodeHeader (hcodec : h.codec.valid = true) (hrecords : h.records ≠ 0)
    (producerID : BitVec 64) (producerEpoch baseSequence : BitVec 32)
    (nonce : BitVec 64) (payload : Bytes) :
    restamp crc (encodeHeader crc h ++ payload) producerID producerEpoch baseSequence nonce =
      .ok (encodeHeader crc (HeaderEdit.owned h
        (.restamp producerID producerEpoch baseSequence nonce)) ++ payload) := by
  rw [restamp, decodeHeader_encodeHeader hcodec hrecords]
  simp only
  rw [encodeHeader, append_assoc, BlockHeader.put_producerID, BlockHeader.put_producerEpoch,
    BlockHeader.put_baseSequence, BlockHeader.put_txNonce, BlockHeader.read_flags,
    BlockHeader.put_flags, sealHeader_putWords _ (length_putUint 4 _)]
  rfl

theorem stripBlock_encodeHeader (hcodec : h.codec.valid = true) (hrecords : h.records ≠ 0)
    (payload : Bytes) :
    stripBlock crc (encodeHeader crc h ++ payload) =
      .ok (encodeHeader crc (HeaderEdit.owned h .strip) ++ payload) := by
  -- the zeroed bytes are the four words of the producer
  have hzeroed : ∀ rest : Bytes, (putWords h.words ++ rest).take 28 ++
          (replicate 24 0 ++ (putWords h.words ++ rest).drop 52) =
        putWords { h with
          producerID := 0, producerEpoch := 0
          baseSequence := 0, txNonce := 0 : BlockHeader }.words ++ rest := by
    intro rest
    have htake := take_putWords h.words 7 rest
    have hdrop := drop_putWords h.words 11 rest
    rw [h.wordOffset_words] at htake hdrop
    change (putWords h.words ++ rest).take 28 = _ at htake
    change (putWords h.words ++ rest).drop 52 = _ at hdrop
    have hzeros : replicate 24 (0 : Byte) = putWords [(8, 0), (4, 0), (4, 0), (8, 0)] := by
      decide
    rw [htake, hdrop, hzeros, ← append_assoc, ← append_assoc, ← putWords_append, ← putWords_append]
    rfl
  rw [stripBlock, decodeHeader_encodeHeader hcodec hrecords]
  simp only
  rw [encodeHeader, append_assoc, hzeroed, BlockHeader.read_flags, BlockHeader.put_flags,
    sealHeader_putWords _ (length_putUint 4 _)]
  rfl

theorem HeaderEdit.run_encodeHeader (hcodec : h.codec.valid = true) (hrecords : h.records ≠ 0)
    (payload : Bytes) (edit : HeaderEdit) :
    edit.run crc (encodeHeader crc h ++ payload) =
      .ok (encodeHeader crc (owned h edit) ++ payload) := by
  cases edit with
  | rewrite baseOffset leaderEpoch baseTimestamp =>
    rw [run, rewriteBlock_encodeHeader hcodec hrecords]
  | restamp producerID producerEpoch baseSequence nonce =>
    rw [run, restamp_encodeHeader hcodec hrecords]
  | strip => rw [run, stripBlock_encodeHeader hcodec hrecords]

theorem Describes.runEdits {payload : Bytes} (hdescribes : Describes crc comp h payload recs)
    (edits : List HeaderEdit) :
    runEdits crc (encodeHeader crc h ++ payload) edits =
        .ok (encodeHeader crc (edits.foldl HeaderEdit.owned h) ++ payload) ∧
      Describes crc comp (edits.foldl HeaderEdit.owned h) payload recs := by
  induction edits generalizing h with
  | nil => exact ⟨rfl, hdescribes⟩
  | cons edit rest ih =>
    rw [CommitLog.runEdits, edit.run_encodeHeader hdescribes.codec hdescribes.records]
    exact ih (hdescribes.owned edit)

/-! ## Sizes -/

theorem length_le_encodeRecords (recs : List BlockRecord) :
    recs.length ≤ (encodeRecords recs).length := by
  induction recs with
  | nil => simp
  | cons r recs ih =>
    simp only [encodeRecords, flatMap_cons, length_append, length_cons, encodeRecord] at ih ⊢
    omega

theorem describes_filled {recs : List BlockRecord} (hne : recs ≠ [])
    (hlength : (encodeRecords recs).length < 2 ^ 32) (h : BlockHeader) :
    Describes crc comp (h.filled crc comp recs) (comp.pack h.codec (encodeRecords recs)).2
      (recs.map BlockRecord.sorted) := by
  have hcount := length_le_encodeRecords recs
  have hpos := length_pos_iff.mpr hne
  have hpack := comp.length_pack_le h.codec (encodeRecords recs)
  have hrecords : (BitVec.ofNat 32 recs.length).toNat = recs.length := by
    rw [BitVec.toNat_ofNat]
    exact Nat.mod_eq_of_lt (by omega)
  constructor
  · exact comp.valid_pack h.codec (encodeRecords recs)
  · intro hzero
    change BitVec.ofNat 32 recs.length = 0 at hzero
    rw [hzero] at hrecords
    change 0 = recs.length at hrecords
    omega
  · change (BitVec.ofNat 32 _).toNat = _
    rw [BitVec.toNat_ofNat]
    exact Nat.mod_eq_of_lt (by omega)
  · rfl
  · refine ⟨encodeRecords recs, comp.decompress_pack h.codec _, ?_, ?_⟩
    · change _ = (BitVec.ofNat 32 _).toNat
      rw [BitVec.toNat_ofNat]
      exact (Nat.mod_eq_of_lt hlength).symm
    · change decodeRecords (BitVec.ofNat 32 recs.length).toNat _ = _
      rw [hrecords]
      exact decodeRecords_encodeRecords (by omega)
  · change _ = some ((recs.getLast?.map BlockRecord.offsetDelta).getD 0)
    obtain ⟨last, hlast⟩ := Option.isSome_iff_exists.mp (getLast?_isSome.mpr hne)
    rw [getLast?_map, hlast]
    rfl

theorem of_decodeBlock {block : Bytes} (hdecode : decodeBlock crc comp block = .ok (h, recs)) :
    h = readHeader block ∧ block.length = 76 + h.compressedLen.toNat ∧ recs ≠ [] ∧ ∃ payload,
        comp.decompress h.codec (block.drop 76) = some payload ∧
          payload.length = h.uncompressedLen.toNat ∧
            decodeRecords h.records.toNat payload = some recs := by
  unfold decodeBlock at hdecode
  split at hdecode
  · cases hdecode
  · rename_i h' hverify
    split at hdecode
    · cases hdecode
    · rename_i payload hpayload
      split at hdecode
      · cases hdecode
      · rename_i hlength
        split at hdecode
        · cases hdecode
        · rename_i recs' hrecords
          split at hdecode
          · cases hdecode
          · rename_i hlast
            cases hdecode
            unfold verifyPayload at hverify
            split at hverify
            · cases hverify
            · rename_i found hheader
              split_ifs at hverify with hsize hcrc
              cases hverify
              refine ⟨of_decodeHeader hheader, not_not.mp hsize, ?_, payload,
                hpayload, not_not.mp hlength, hrecords⟩
              rintro rfl
              simp at hlast

variable (crc comp)

def BlockRoundTrips (h : BlockHeader) (recs : List BlockRecord) : Prop :=
  ∃ block, encodeBlock crc comp h recs = some block ∧
    ∀ edits, ∃ edited, runEdits crc block edits = .ok edited ∧
      ∃ recs', decodeBlock crc comp edited =
          .ok (edits.foldl HeaderEdit.owned (h.filled crc comp recs), recs') ∧
        Forall₂ BlockRecord.Same recs recs'

variable {crc comp}

theorem encodeBlock_eq (hne : recs ≠ []) (h : BlockHeader) :
    encodeBlock crc comp h recs = some (encodeHeader crc (h.filled crc comp recs) ++
        (comp.pack h.codec (encodeRecords recs)).2) := by
  rw [encodeBlock, if_neg (by simp [hne])]

theorem roundTrips_of_short (hne : recs ≠ []) (hlength : (encodeRecords recs).length < 2 ^ 32)
    (h : BlockHeader) : BlockRoundTrips crc comp h recs := by
  refine ⟨_, encodeBlock_eq hne h, ?_⟩
  intro edits
  obtain ⟨hrun, hdescribes⟩ :=
    (describes_filled hne hlength h).runEdits edits
  refine ⟨_, hrun, _, hdescribes.decodeBlock, ?_⟩
  rw [forall₂_map_right_iff, forall₂_same]
  intro r _
  exact r.same_sorted

theorem short_of_roundTrips (hne : recs ≠ []) (htrips : BlockRoundTrips crc comp h recs) :
    (encodeRecords recs).length < 2 ^ 32 := by
  obtain ⟨block, hencode, hedits⟩ := htrips
  rw [encodeBlock_eq hne] at hencode
  cases hencode
  obtain ⟨_, hrun, recs', hdecode, _⟩ := hedits []
  cases hrun
  obtain ⟨_, _, _, payload, hpayload, hlength, _⟩ := of_decodeBlock hdecode
  rw [drop_encodeHeader] at hpayload
  have hlogical : payload = encodeRecords recs := by
    have hpack := comp.decompress_pack h.codec (encodeRecords recs)
    exact Option.some.inj (hpayload.symm.trans hpack)
  rw [hlogical] at hlength
  rw [hlength]
  exact BitVec.isLt _

/-- Blocks round-trip exactly while their records take fewer than `2 ^ 32`
bytes; those of a block that decodes do. -/
theorem block_roundTrips_iff (crc : Bytes → BitVec 32) (comp : Compressors) :
    (∀ h recs, recs ≠ [] → (BlockRoundTrips crc comp h recs ↔
      (encodeRecords recs).length < 2 ^ 32)) ∧
    ∀ block h recs, decodeBlock crc comp block = .ok (h, recs) →
      ∀ h', BlockRoundTrips crc comp h' recs := by
  constructor
  · intro h recs hne
    exact ⟨short_of_roundTrips hne, fun hlength =>
      roundTrips_of_short hne hlength h⟩
  · intro block h recs hdecode h'
    obtain ⟨_, _, hne, payload, _, hlength, hrecords⟩ :=
      of_decodeBlock hdecode
    apply roundTrips_of_short hne
    have hle := (length_encodeRecords_le hrecords).1
    have hlt := h.uncompressedLen.isLt
    omega

end Blocks

def storedRaw : Compressors where
  encode _ src := src
  decode _ src := some src
  decode_encode _ _ := rfl

def plainHeader : BlockHeader := ⟨0, 0, 0, 0, 0, 0, 0, 0, 0, 0, 0, 0, 0, 0⟩

def valueRecord (size : ℕ) : BlockRecord :=
  ⟨0, 0, none, some (replicate size 0), Headers.empty⟩

theorem le_length_valueRecord (size : ℕ) : size ≤ (encodeRecords [valueRecord size]).length := by
  simp only [encodeRecords, encodeRecord, valueRecord, appendBytes, flatMap_cons, flatMap_nil,
    length_append, length_cons, length_replicate]
  omega

/-- One record whose value takes four gigabytes is encoded, and the block
does not decode. -/
theorem huge_block_does_not_decode : (encodeBlock (fun _ => 0) storedRaw plainHeader
        [valueRecord (2 ^ 32)]).isSome = true ∧
      ¬ BlockRoundTrips (fun _ => 0) storedRaw plainHeader [valueRecord (2 ^ 32)] := by
  constructor
  · rw [encodeBlock_eq (cons_ne_nil _ _), Option.isSome_some]
  · intro htrips
    have hshort := short_of_roundTrips (cons_ne_nil _ _) htrips
    exact absurd (le_length_valueRecord (2 ^ 32)) (Nat.not_le.mpr hshort)

end CommitLog
