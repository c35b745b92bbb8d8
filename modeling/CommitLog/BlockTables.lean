import CommitLog.BlockCodec
import CommitLog.SegmentRecovery

/-!
# Block tables

A segment's table is written beside its log.  It holds lengths only: where the
blocks start is added up when it is read.
-/

namespace CommitLog

open List LogFile

def blockHeaderLen : ℕ := 15

def BlockVersion.byte : BlockVersion → Byte
  | .v2 => 2
  | .v3 => 3

/-- A table of version-2 blocks only has no bytes for format and flags. -/
def isWide (table : List BlockRef) : Bool := table.any fun ref => decide (ref.kind.version ≠ .v2)

def entryLen (wide : Bool) : ℕ := if wide then 15 else 13

def entryWords (wide : Bool) (ref : BlockRef) : List (ℕ × ℕ) :=
  [(4, ref.logicalLen), (4, ref.physLen), (1, ref.kind.codec), (4, ref.records)] ++
    if wide then [(1, ref.kind.version.byte.val), (1, ref.kind.flags)] else []

def tableWords (table : List BlockRef) : List (ℕ × ℕ) :=
  [(1, 0x42), (1, if isWide table then 4 else 2), (4, table.length)] ++
    table.flatMap (entryWords (isWide table))

/-- One round of the loop of `decodeBlockTable`. -/
def readRef (wide : Bool) (logical phys : ℕ) (body : Bytes) : Option BlockRef :=
  let version := if wide then uintIn body 13 1 else 2
  if uintIn body 4 4 < blockHeaderLen ∨ uintIn body 9 4 = 0 ∨ version ≠ 2 ∧ version ≠ 3 then none
  else some ⟨logical, uintIn body 0 4, phys, uintIn body 4 4, uintIn body 9 4,
    if version = 2 then .v2 else .v3, uintIn body 8 1, if wide then uintIn body 14 1 else 0⟩

def readRefs (wide : Bool) : ℕ → ℕ → ℕ → Bytes → Option (List BlockRef)
  | 0, _, _, _ => some []
  | n + 1, logical, phys, body => (readRef wide logical phys body).bind fun ref =>
      (readRefs wide n (logical + ref.logicalLen) (phys + ref.physLen)
        (body.drop (entryLen wide))).map (ref :: ·)

def encodeBlockTable (crc : Bytes → BitVec 32) (table : List BlockRef) : Bytes :=
  putWords (tableWords table) ++ putUint 4 (crc (putWords (tableWords table))).toNat

def decodeBlockTable (crc : Bytes → BitVec 32) (buf : Bytes) : Option (List BlockRef) :=
  let version := uintIn buf 1 1
  let bodyLen := 6 + uintIn buf 2 4 * entryLen (version = 4)
  if buf.length < 10 ∨ uintIn buf 0 1 ≠ 0x42 ∨ version ≠ 4 ∧ version ≠ 2 ∨
      buf.length ≠ bodyLen + 4 ∨ (crc (buf.take bodyLen)).toNat ≠ uintIn buf bodyLen 4 then none
  else readRefs (version = 4) (uintIn buf 2 4) 0 0 ((buf.take bodyLen).drop 6)

/-- What an entry can hold. -/
structure BlockRef.Fits (wide : Bool) (ref : BlockRef) : Prop where
  words : ∀ word ∈ entryWords wide ref, word.2 < 256 ^ word.1
  header : blockHeaderLen ≤ ref.physLen
  records : ref.records ≠ 0
  narrow : wide = false → ref.kind.version = .v2 ∧ ref.kind.flags = 0

/-- The blocks lie end to end and fit. -/
def Laid (wide : Bool) : ℕ → ℕ → List BlockRef → Prop
  | _, _, [] => True
  | logical, phys, ref :: refs => (ref.logicalStart = logical ∧ ref.physStart = phys) ∧
      ref.Fits wide ∧ Laid wide (logical + ref.logicalLen) (phys + ref.physLen) refs

variable {wide : Bool} {logical phys n : ℕ} {ref : BlockRef} {table : List BlockRef}
  {body : Bytes} {crc : Bytes → BitVec 32} {bs : List DiskBlock}

theorem of_readRef (hread : readRef wide logical phys body = some ref) :
    (ref.logicalStart = logical ∧ ref.physStart = phys) ∧ ref.Fits wide := by
  have hlt : ∀ place width, uintIn body place width < 256 ^ width := fun place width =>
    (bigEndian_lt _).trans_le (Nat.pow_le_pow_right (by norm_num) (length_take_le _ _))
  rw [readRef, Option.ite_none_left_eq_some] at hread
  rcases hread with ⟨hgood, hread⟩
  push Not at hgood
  cases hread
  refine ⟨⟨rfl, rfl⟩, ?_, hgood.1, hgood.2.1, by rintro rfl; exact ⟨rfl, rfl⟩⟩
  cases wide with
  | false => simpa [entryWords] using ⟨hlt 0 4, hlt 4 4, hlt 8 1, hlt 9 4⟩
  | true => simpa [entryWords] using ⟨hlt 0 4, hlt 4 4, hlt 8 1, hlt 9 4, hlt 14 1⟩

theorem readRef_entryWords (hfits : ref.Fits wide) (rest : Bytes) :
    readRef wide ref.logicalStart ref.physStart (putWords (entryWords wide ref) ++ rest) =
      some ref := by
  have hword : ∀ i place width v, (entryWords wide ref)[i]? = some (width, v) →
      wordOffset (entryWords wide ref) i = place →
      uintIn (putWords (entryWords wide ref) ++ rest) place width = v := by
    intro i place width v hget hat
    rw [uintIn_putWords hget hat, Nat.mod_eq_of_lt (hfits.words _ (mem_of_getElem? hget))]
  rcases hfits with ⟨-, hheader, hrecords, hnarrow⟩
  rcases ref with ⟨start, len, phys, physLen, records, version, codec, flags⟩
  have hlen := hword 0 0 4 _ rfl rfl
  have hphys := hword 1 4 4 _ rfl rfl
  have hcodec := hword 2 8 1 _ rfl rfl
  have hcount := hword 3 9 4 _ rfl rfl
  cases wide with
  | false =>
    rcases hnarrow rfl with ⟨rfl, rfl⟩
    simp_all [readRef]
  | true =>
    have hversion := hword 4 13 1 _ rfl rfl
    have hflags := hword 5 14 1 _ rfl rfl
    cases version <;> simp_all [readRef, BlockVersion.byte]

theorem of_readRefs (hread : readRefs wide n logical phys body = some table) :
    Laid wide logical phys table := by
  induction n generalizing logical phys body table with
  | zero =>
    cases hread
    trivial
  | succ n ih =>
    simp only [readRefs, Option.bind_eq_some_iff, Option.map_eq_some_iff] at hread
    rcases hread with ⟨ref, href, refs, hrefs, rfl⟩
    have hentry := of_readRef href
    exact ⟨hentry.1, hentry.2, ih hrefs⟩

theorem length_entryWords (ref : BlockRef) :
    (putWords (entryWords wide ref)).length = entryLen wide := by
  rw [length_putWords]
  cases wide <;> rfl

theorem length_entries (table : List BlockRef) :
    (putWords (table.flatMap (entryWords wide))).length = table.length * entryLen wide := by
  induction table with
  | nil => simp [putWords]
  | cons ref refs ih =>
    rw [flatMap_cons, putWords_append, length_append, ih, length_entryWords, length_cons]
    ring

theorem readRefs_entryWords (hlaid : Laid wide logical phys table) :
    readRefs wide table.length logical phys (putWords (table.flatMap (entryWords wide))) =
      some table := by
  induction table generalizing logical phys with
  | nil => rfl
  | cons ref refs ih =>
    rcases hlaid with ⟨⟨rfl, rfl⟩, hfits, hrefs⟩
    rw [length_cons, readRefs, flatMap_cons, putWords_append, readRef_entryWords hfits,
      Option.bind_some, drop_left' (length_entryWords ref), ih hrefs]
    rfl

theorem length_tableWords :
    (putWords (tableWords table)).length = 6 + table.length * entryLen (isWide table) := by
  rw [tableWords, putWords_append, length_append, length_entries]
  rfl

/-- The checks in front of the entries pass. -/
theorem decodeBlockTable_encode : decodeBlockTable crc (encodeBlockTable crc table) =
      if table.length < 256 ^ 4 then readRefs (isWide table) table.length 0 0
        (putWords (table.flatMap (entryWords (isWide table)))) else none := by
  have hcrc : uintIn (encodeBlockTable crc table) (putWords (tableWords table)).length 4 =
      (crc (putWords (tableWords table))).toNat := by
    rw [uintIn, encodeBlockTable, drop_left, take_of_length_le (length_putUint 4 _).le,
      bigEndian_putUint]
    exact Nat.mod_eq_of_lt (crc _).isLt
  have hwide : (if isWide table then 4 else 2) % 256 ^ 1 = 4 ↔ isWide table = true := by
    cases isWide table <;> decide
  have hword := fun i place width v hget hat =>
    @uintIn_putWords width v (tableWords table) i place hget hat
      (putUint 4 (crc (putWords (tableWords table))).toNat)
  have hpos : 0 < entryLen (isWide table) := by
    cases isWide table <;> decide
  unfold decodeBlockTable
  rw [encodeBlockTable] at hcrc ⊢
  simp only [hword 0 0 1 _ rfl rfl, hword 1 1 1 _ rfl rfl, hword 2 2 4 _ rfl rfl, hwide,
    length_append, length_putUint, length_tableWords, Bool.decide_eq_true]
  by_cases hlt : table.length < 256 ^ 4
  · rw [Nat.mod_eq_of_lt hlt, ← length_tableWords, take_left, hcrc, if_pos hlt, if_neg]
    · rw [tableWords, putWords_append]
      exact congrArg _ (drop_left' (length_putWords _))
    · rw [length_tableWords]
      split_ifs <;> simp
  · have hmod : table.length % 256 ^ 4 < table.length :=
      (Nat.mod_lt _ (by norm_num)).trans_le (not_lt.mp hlt)
    have hmul := Nat.mul_lt_mul_of_pos_right hmod hpos
    rw [if_neg hlt, if_pos (by omega)]

/-- A table reads back exactly if its blocks lie end to end, each fits in an
entry and their number in 32 bits. -/
theorem blockTable_roundTrips_iff (crc : Bytes → BitVec 32) (table : List BlockRef) :
    decodeBlockTable crc (encodeBlockTable crc table) = some table ↔
      table.length < 256 ^ 4 ∧ Laid (isWide table) 0 0 table := by
  rw [decodeBlockTable_encode, Option.ite_none_right_eq_some, and_congr_right_iff]
  exact fun _ => ⟨of_readRefs, readRefs_entryWords⟩

theorem laid_tableOf (hfits : ∀ block ∈ bs, (refOf 0 0 block).Fits wide) :
    Laid wide logical phys (tableOf logical phys bs) := by
  induction bs generalizing logical phys with
  | nil => trivial
  | cons block bs ih =>
    rw [forall_mem_cons] at hfits
    exact ⟨⟨rfl, rfl⟩, { hfits.1 with }, ih hfits.2⟩

/-- A table from the time the file held only its first blocks is no worse than
none: the open ends where the walk over the blocks ends. -/
theorem initPositions_stale_table (crc : Bytes → BitVec 32) (base : ℤ) (encodesBlocks : Bool)
    (bs more : List DiskBlock) (torn : ℕ) (hlength : bs.length < 256 ^ 4)
    (hfits : ∀ block ∈ bs, (refOf 0 0 block).Fits (isWide (tableOf 0 0 bs))) :
    OpenSegment.initPositions base encodesBlocks (.blocks (bs ++ more) torn)
        (decodeBlockTable crc (encodeBlockTable crc (tableOf 0 0 bs))) =
      OpenSegment.initPositions base encodesBlocks (.blocks (bs ++ more) torn) none := by
  have hread := @readRefs_entryWords _ 0 0 _ (laid_tableOf hfits)
  rw [← length_tableOf 0 0 bs] at hlength
  rw [decodeBlockTable_encode, if_pos hlength, hread]
  unfold OpenSegment.initPositions
  by_cases hsize : physLen more + torn = 0
  · cases more with
    | nil => simp_all [Option.filter, LogFile.size, blockTableExtent_tableOf]
    | cons block more =>
      have hpos := block.physLen_pos
      rw [physLen_cons] at hsize
      omega
  · have hstale : ¬ physLen bs = physLen bs + physLen more + torn := by omega
    simp [Option.filter, LogFile.size, blockTableExtent_tableOf, hstale]

theorem initPositions_stale_table_pair :
    OpenSegment.initPositions 0 true (blockFile [(0, []), (1, [])])
        (decodeBlockTable (fun _ => 0) (encodeBlockTable (fun _ => 0)
          (tableOf 0 0 [diskBlock 0 []]))) =
      OpenSegment.initPositions 0 true (blockFile [(0, []), (1, [])]) none := by
  apply initPositions_stale_table (fun _ => 0) 0 true [diskBlock 0 []] [diskBlock 1 []] 0 (by decide)
  intro block hblock
  rw [mem_singleton.mp hblock]
  exact ⟨by decide, by decide, by decide, fun _ => ⟨rfl, rfl⟩⟩

end CommitLog
