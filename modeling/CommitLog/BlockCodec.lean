import CommitLog.BlockRecords

/-!
# Version-3 blocks

A block is a fixed header of 76 bytes and a compressed payload of records.
The header holds the sizes of the payload in 32 bits, a checksum of the
payload and one of itself, and is edited in place: by the log that appends
the block, by a producer that stamps it, by the compaction that strips it.
-/

namespace CommitLog

open List

/-! ## Words at fixed places -/

def putWords (words : List (ℕ × ℕ)) : Bytes :=
  words.flatMap fun word => putUint word.1 word.2

def wordOffset (words : List (ℕ × ℕ)) (i : ℕ) : ℕ :=
  ((words.take i).map Prod.fst).sum

theorem length_putWords (words : List (ℕ × ℕ)) :
    (putWords words).length = (words.map Prod.fst).sum := by
  simp [putWords, length_flatMap]

theorem putWords_append (words words' : List (ℕ × ℕ)) :
    putWords (words ++ words') = putWords words ++ putWords words' := by
  simp [putWords]

theorem putWords_split (words : List (ℕ × ℕ)) (i : ℕ) :
    putWords words = putWords (words.take i) ++ putWords (words.drop i) := by
  rw [← putWords_append, take_append_drop]

theorem take_putWords (words : List (ℕ × ℕ)) (i : ℕ) (rest : Bytes) :
    (putWords words ++ rest).take (wordOffset words i) = putWords (words.take i) := by
  rw [putWords_split words i, append_assoc, wordOffset, ← length_putWords, take_left]

theorem drop_putWords (words : List (ℕ × ℕ)) (i : ℕ) (rest : Bytes) :
    (putWords words ++ rest).drop (wordOffset words i) = putWords (words.drop i) ++ rest := by
  rw [putWords_split words i, append_assoc, wordOffset, ← length_putWords, drop_left]

/-- The number in `width` bytes at a place. -/
def uintIn (bytes : Bytes) (place width : ℕ) : ℕ :=
  bigEndian ((bytes.drop place).take width)

variable {width v : ℕ}

theorem uintIn_putWords {words : List (ℕ × ℕ)} {i place : ℕ} (hword : words[i]? = some (width, v))
    (hat : wordOffset words i = place) (rest : Bytes) :
    uintIn (putWords words ++ rest) place width = v % 256 ^ width := by
  obtain ⟨hi, hget⟩ := List.getElem?_eq_some_iff.mp hword
  have hdrop : words.drop i = (width, v) :: words.drop (i + 1) := by
    rw [drop_eq_getElem_cons hi, hget]
  have hword' : putWords (words.drop i) = putUint width v ++ putWords (words.drop (i + 1)) := by
    rw [hdrop]
    rfl
  have hlength := length_putUint width v
  rw [uintIn, ← hat, drop_putWords, hword', append_assoc, take_append_of_le_length hlength.ge,
    take_of_length_le hlength.le, bigEndian_putUint]

/-- `PutUint` into a slice. -/
def putAt (bytes : Bytes) (place width v : ℕ) : Bytes :=
  bytes.take place ++ (putUint width v ++ bytes.drop (place + width))

theorem putAt_putWords {words words' : List (ℕ × ℕ)} {i place : ℕ}
    (hat : wordOffset words i = place) (hnext : wordOffset words (i + 1) = place + width)
    (hwords : words.take i ++ (width, v) :: words.drop (i + 1) = words') (rest : Bytes) :
    putAt (putWords words ++ rest) place width v = putWords words' ++ rest := by
  rw [putAt, ← hnext, drop_putWords, ← hat, take_putWords, ← hwords, putWords_append]
  simp [putWords]

/-! ## The header -/

inductive BlockError
  | format
  | corrupt
deriving DecidableEq

/-- `compress.Codec`: none, snappy, s2 and zstd are 0 to 3. -/
abbrev CodecByte := Byte

def CodecByte.valid (codec : CodecByte) : Bool := decide (codec.val ≤ 3)

def flagTransactional : BitVec 8 := 2#8

def flagStripped : BitVec 8 := 4#8

structure BlockHeader where
  codec : CodecByte
  flags : BitVec 8
  baseOffset : BitVec 64
  leaderEpoch : BitVec 64
  baseTimestamp : BitVec 64
  producerID : BitVec 64
  producerEpoch : BitVec 32
  baseSequence : BitVec 32
  txNonce : BitVec 64
  records : BitVec 32
  lastOffsetDelta : BitVec 32
  uncompressedLen : BitVec 32
  compressedLen : BitVec 32
  payloadCRC : BitVec 32
deriving DecidableEq

def BlockHeader.words (h : BlockHeader) : List (ℕ × ℕ) :=
  [(1, 0xC1), (1, 3), (1, h.codec.val), (1, h.flags.toNat),
    (8, h.baseOffset.toNat), (8, h.leaderEpoch.toNat),
    (8, h.baseTimestamp.toNat), (8, h.producerID.toNat),
    (4, h.producerEpoch.toNat), (4, h.baseSequence.toNat),
    (8, h.txNonce.toNat), (4, h.records.toNat),
    (4, h.lastOffsetDelta.toNat), (4, h.uncompressedLen.toNat),
    (4, h.compressedLen.toNat), (4, h.payloadCRC.toNat)]

def headerWidths : List ℕ :=
  [1, 1, 1, 1, 8, 8, 8, 8, 4, 4, 8, 4, 4, 4, 4, 4]

theorem BlockHeader.wordOffset_words (h : BlockHeader) (i : ℕ) :
    wordOffset h.words i = (headerWidths.take i).sum := by
  rw [wordOffset, map_take]
  rfl

theorem BlockHeader.uintIn_words (h : BlockHeader) (i place : ℕ)
    (hword : h.words[i]? = some (width, v))
    (hat : (headerWidths.take i).sum = place) (rest : Bytes) :
    uintIn (putWords h.words ++ rest) place width = v % 256 ^ width :=
  uintIn_putWords hword ((h.wordOffset_words i).trans hat) rest

theorem BlockHeader.putAt_words (h h' : BlockHeader) (i place : ℕ) (hat : (headerWidths.take i).sum = place)
    (hnext : (headerWidths.take (i + 1)).sum = place + width)
    (hwords : h.words.take i ++ (width, v) :: h.words.drop (i + 1) = h'.words)
    (rest : Bytes) :
    putAt (putWords h.words ++ rest) place width v = putWords h'.words ++ rest :=
  putAt_putWords ((h.wordOffset_words i).trans hat)
    ((h.wordOffset_words (i + 1)).trans hnext) hwords rest

/-! Each field that an edit owns, put in its place. -/

section Fields

variable (h : BlockHeader) (rest : Bytes)

theorem BlockHeader.put_flags (x : BitVec 8) : putAt (putWords h.words ++ rest) 3 1 x.toNat =
      putWords { h with flags := x : BlockHeader }.words ++ rest :=
  h.putAt_words { h with flags := x } 3 3 rfl rfl rfl rest

theorem BlockHeader.put_baseOffset (x : BitVec 64) : putAt (putWords h.words ++ rest) 4 8 x.toNat =
      putWords { h with baseOffset := x : BlockHeader }.words ++ rest :=
  h.putAt_words { h with baseOffset := x } 4 4 rfl rfl rfl rest

theorem BlockHeader.put_leaderEpoch (x : BitVec 64) :
    putAt (putWords h.words ++ rest) 12 8 x.toNat =
      putWords { h with leaderEpoch := x : BlockHeader }.words ++ rest :=
  h.putAt_words { h with leaderEpoch := x } 5 12 rfl rfl rfl rest

theorem BlockHeader.put_baseTimestamp (x : BitVec 64) :
    putAt (putWords h.words ++ rest) 20 8 x.toNat =
      putWords { h with baseTimestamp := x : BlockHeader }.words ++ rest :=
  h.putAt_words { h with baseTimestamp := x } 6 20 rfl rfl rfl rest

theorem BlockHeader.put_producerID (x : BitVec 64) : putAt (putWords h.words ++ rest) 28 8 x.toNat =
      putWords { h with producerID := x : BlockHeader }.words ++ rest :=
  h.putAt_words { h with producerID := x } 7 28 rfl rfl rfl rest

theorem BlockHeader.put_producerEpoch (x : BitVec 32) :
    putAt (putWords h.words ++ rest) 36 4 x.toNat =
      putWords { h with producerEpoch := x : BlockHeader }.words ++ rest :=
  h.putAt_words { h with producerEpoch := x } 8 36 rfl rfl rfl rest

theorem BlockHeader.put_baseSequence (x : BitVec 32) :
    putAt (putWords h.words ++ rest) 40 4 x.toNat =
      putWords { h with baseSequence := x : BlockHeader }.words ++ rest :=
  h.putAt_words { h with baseSequence := x } 9 40 rfl rfl rfl rest

theorem BlockHeader.put_txNonce (x : BitVec 64) : putAt (putWords h.words ++ rest) 44 8 x.toNat =
      putWords { h with txNonce := x : BlockHeader }.words ++ rest :=
  h.putAt_words { h with txNonce := x } 10 44 rfl rfl rfl rest

end Fields

theorem BlockHeader.length_words (h : BlockHeader) : (putWords h.words).length = 72 := by
  rw [length_putWords]
  rfl

section Blocks

variable (crc : Bytes → BitVec 32)

def encodeHeader (h : BlockHeader) : Bytes :=
  putWords h.words ++ putUint 4 (crc (putWords h.words)).toNat

theorem length_encodeHeader (h : BlockHeader) : (encodeHeader crc h).length = 76 := by
  rw [encodeHeader, length_append, h.length_words, length_putUint]

/-- The fields of a header, whatever they hold. -/
def readHeader (b : Bytes) : BlockHeader where
  codec := Fin.ofNat 256 (uintIn b 2 1)
  flags := BitVec.ofNat 8 (uintIn b 3 1)
  baseOffset := BitVec.ofNat 64 (uintIn b 4 8)
  leaderEpoch := BitVec.ofNat 64 (uintIn b 12 8)
  baseTimestamp := BitVec.ofNat 64 (uintIn b 20 8)
  producerID := BitVec.ofNat 64 (uintIn b 28 8)
  producerEpoch := BitVec.ofNat 32 (uintIn b 36 4)
  baseSequence := BitVec.ofNat 32 (uintIn b 40 4)
  txNonce := BitVec.ofNat 64 (uintIn b 44 8)
  records := BitVec.ofNat 32 (uintIn b 52 4)
  lastOffsetDelta := BitVec.ofNat 32 (uintIn b 56 4)
  uncompressedLen := BitVec.ofNat 32 (uintIn b 60 4)
  compressedLen := BitVec.ofNat 32 (uintIn b 64 4)
  payloadCRC := BitVec.ofNat 32 (uintIn b 68 4)

def decodeHeader (b : Bytes) : Except BlockError BlockHeader :=
  if b.length < 76 then .error .corrupt
  else if uintIn b 0 1 ≠ 0xC1 then .error .format
  else if uintIn b 1 1 ≠ 3 then .error .format
  else if uintIn b 72 4 ≠ (crc (b.take 72)).toNat then .error .corrupt
  else if !(readHeader b).codec.valid then .error .corrupt
  else if (readHeader b).records = 0 then .error .corrupt
  else .ok (readHeader b)

/-- `sealHeader`. -/
def sealHeader (b : Bytes) : Bytes := putAt b 72 4 (crc (b.take 72)).toNat

/-- `Rewrite`: the fields of the log. -/
def rewriteBlock (block : Bytes) (baseOffset leaderEpoch baseTimestamp : BitVec 64) :
    Except BlockError Bytes :=
  match decodeHeader crc block with
  | .error e => .error e
  | .ok _ =>
    let block := putAt block 4 8 baseOffset.toNat
    let block := putAt block 12 8 leaderEpoch.toNat
    let block := putAt block 20 8 baseTimestamp.toNat
    .ok (sealHeader crc block)

def restampFlags (flags : BitVec 8) (nonce : BitVec 64) : BitVec 8 :=
  let flags := flags &&& ~~~(flagTransactional ||| flagStripped)
  if nonce ≠ 0 then flags ||| flagTransactional else flags

/-- `Restamp`: the fields of the producer. -/
def restamp (block : Bytes) (producerID : BitVec 64)
    (producerEpoch baseSequence : BitVec 32) (nonce : BitVec 64) :
    Except BlockError Bytes :=
  match decodeHeader crc block with
  | .error e => .error e
  | .ok _ =>
    let block := putAt block 28 8 producerID.toNat
    let block := putAt block 36 4 producerEpoch.toNat
    let block := putAt block 40 4 baseSequence.toNat
    let block := putAt block 44 8 nonce.toNat
    let flags := restampFlags (BitVec.ofNat 8 (uintIn block 3 1)) nonce
    .ok (sealHeader crc (putAt block 3 1 flags.toNat))

def stripFlags (flags : BitVec 8) : BitVec 8 :=
  flags &&& ~~~flagTransactional ||| flagStripped

/-- `Strip`: the fields of the producer are zeroed. -/
def stripBlock (block : Bytes) : Except BlockError Bytes :=
  match decodeHeader crc block with
  | .error e => .error e
  | .ok _ =>
    let block := block.take 28 ++ (replicate 24 0 ++ block.drop 52)
    let flags := stripFlags (BitVec.ofNat 8 (uintIn block 3 1))
    .ok (sealHeader crc (putAt block 3 1 flags.toNat))

/-! ## Headers read back -/

theorem BlockHeader.ofNat_field (h : BlockHeader) (i place : ℕ) {bytes width : ℕ} (x : BitVec width)
    (hword : h.words[i]? = some (bytes, x.toNat)) (hat : (headerWidths.take i).sum = place)
    (hwidth : 256 ^ bytes = 2 ^ width) (rest : Bytes) :
    BitVec.ofNat width (uintIn (putWords h.words ++ rest) place bytes) = x := by
  rw [h.uintIn_words i place hword hat, hwidth, Nat.mod_eq_of_lt x.isLt,
    BitVec.ofNat_toNat, BitVec.setWidth_eq]

theorem BlockHeader.read_flags (h : BlockHeader) (rest : Bytes) :
    BitVec.ofNat 8 (uintIn (putWords h.words ++ rest) 3 1) = h.flags :=
  h.ofNat_field 3 3 h.flags rfl rfl (by norm_num) rest

theorem readHeader_putWords (h : BlockHeader) (rest : Bytes) :
    readHeader (putWords h.words ++ rest) = h := by
  have hcodec : Fin.ofNat 256 (uintIn (putWords h.words ++ rest) 2 1) =
      h.codec := by
    rw [h.uintIn_words 2 2 rfl rfl]
    apply Fin.ext
    rw [Fin.val_ofNat]
    have hlt := h.codec.isLt
    omega
  have h32 : 256 ^ 4 = 2 ^ 32 := by norm_num
  have h64 : 256 ^ 8 = 2 ^ 64 := by norm_num
  unfold readHeader
  rw [hcodec, h.read_flags, h.ofNat_field 4 4 h.baseOffset rfl rfl h64,
    h.ofNat_field 5 12 h.leaderEpoch rfl rfl h64, h.ofNat_field 6 20 h.baseTimestamp rfl rfl h64,
    h.ofNat_field 7 28 h.producerID rfl rfl h64, h.ofNat_field 8 36 h.producerEpoch rfl rfl h32,
    h.ofNat_field 9 40 h.baseSequence rfl rfl h32, h.ofNat_field 10 44 h.txNonce rfl rfl h64,
    h.ofNat_field 11 52 h.records rfl rfl h32, h.ofNat_field 12 56 h.lastOffsetDelta rfl rfl h32,
    h.ofNat_field 13 60 h.uncompressedLen rfl rfl h32,
    h.ofNat_field 14 64 h.compressedLen rfl rfl h32, h.ofNat_field 15 68 h.payloadCRC rfl rfl h32]

variable {crc}

theorem readHeader_encodeHeader (h : BlockHeader) (payload : Bytes) :
    readHeader (encodeHeader crc h ++ payload) = h := by
  rw [encodeHeader, append_assoc]
  exact readHeader_putWords h _

theorem decodeHeader_encodeHeader {h : BlockHeader} (hcodec : h.codec.valid = true)
    (hrecords : h.records ≠ 0) (payload : Bytes) :
    decodeHeader crc (encodeHeader crc h ++ payload) = .ok h := by
  have hlength : ¬ (encodeHeader crc h ++ payload).length < 76 := by
    rw [length_append, length_encodeHeader]
    omega
  have hmagic : uintIn (encodeHeader crc h ++ payload) 0 1 = 0xC1 := by
    rw [encodeHeader, append_assoc, h.uintIn_words 0 0 rfl rfl]
    norm_num
  have hversion : uintIn (encodeHeader crc h ++ payload) 1 1 = 3 := by
    rw [encodeHeader, append_assoc, h.uintIn_words 1 1 rfl rfl]
    norm_num
  have hfields : (encodeHeader crc h ++ payload).take 72 = putWords h.words := by
    rw [encodeHeader, append_assoc, take_append_of_le_length h.length_words.ge,
      take_of_length_le h.length_words.le]
  have hcrc : uintIn (encodeHeader crc h ++ payload) 72 4 = (crc (putWords h.words)).toNat := by
    have hword := length_putUint 4 (crc (putWords h.words)).toNat
    rw [uintIn, encodeHeader, append_assoc, ← h.length_words, drop_left,
      take_append_of_le_length hword.ge, take_of_length_le hword.le, bigEndian_putUint]
    exact Nat.mod_eq_of_lt (crc (putWords h.words)).isLt
  rw [decodeHeader, if_neg hlength, if_neg (not_not.mpr hmagic),
    if_neg (not_not.mpr hversion), hfields, if_neg (not_not.mpr hcrc),
    readHeader_encodeHeader, if_neg (by simp [hcodec]), if_neg hrecords]

theorem of_decodeHeader {b : Bytes} {h : BlockHeader}
    (hdecode : decodeHeader crc b = .ok h) : h = readHeader b := by
  unfold decodeHeader at hdecode
  split_ifs at hdecode
  exact (Except.ok.inj hdecode).symm

end Blocks

end CommitLog
