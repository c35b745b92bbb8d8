import CommitLog.AcceptedBytes
import CommitLog.SegmentRecovery

/-!
# Seeks are exact

A seek gives the entry of the first frame at or above an offset, and of the
first one at or after a timestamp if the timestamps do not fall.  A raw
segment finds it in its index, a block segment by a scan from the block that
may hold it.  Both are exact as long as the entries they go by fit the 32-bit
fields of the index.
-/

namespace CommitLog

open List

/-! ## The property -/

def ByteSegment.Chronological (seg : ByteSegment) : Prop :=
  seg.frames.Pairwise fun a b =>
    (setFrame a).timestamp ≤ (setFrame b).timestamp

structure ByteSegment.SeeksExactly (seg : ByteSegment) : Prop where
  offsets : ∀ target, seg.findEntry target =
    (frameEntries 0 seg.frames).find? fun e => decide (target ≤ e.offset)
  timestamps : seg.Chronological → ∀ target, seg.findEntryByTimestamp target =
    (frameEntries 0 seg.frames).find? fun e => decide (target ≤ e.timestamp)

def ByteSegment.withMode (seg : ByteSegment) (blockMode : Bool) :
    ByteSegment :=
  { seg with blockMode := blockMode }

/-- What a seek goes by fits 32 bits: the entries of a raw segment, and the
length of every frame. -/
structure ByteSegment.SeekFits (seg : ByteSegment) : Prop where
  entries : seg.blockMode = false → seg.Indexed
  lengths : ∀ ms ∈ seg.frames, ms.length ≤ maxInt32

/-! ## Sizes -/

theorem narrow_entryOf {position : ℕ} {ms : Bytes} (hlength : ms.length ≤ maxInt32) :
    (entryOf position ms).narrow = entryOf position ms := by
  unfold Entry.narrow entryOf
  simp only [int32_natCast hlength]

theorem length_le_of_narrow {position : ℕ} {ms : Bytes}
    (hnarrow : (entryOf position ms).narrow = entryOf position ms) : ms.length ≤ maxInt32 := by
  have hsize := congrArg Entry.size hnarrow
  have hle := int32_le ms.length
  simp only [Entry.narrow, entryOf] at hsize
  omega

theorem map_narrow_find? {frames : List Bytes}
    (hlengths : ∀ ms ∈ frames, ms.length ≤ maxInt32) (test : Entry → Bool) :
    ((frameEntries 0 frames).find? test).map Entry.narrow = (frameEntries 0 frames).find? test := by
  cases hfound : (frameEntries 0 frames).find? test with
  | none => rfl
  | some e =>
    obtain ⟨front, ms, rest, rfl, rfl⟩ :=
      mem_frameEntries.mp (mem_of_find?_eq_some hfound)
    rw [Option.map_some, narrow_entryOf (hlengths ms (by simp))]

/-! ## Exactness -/

section Exact

variable {seg : ByteSegment}

theorem ByteSegment.Chronological.byTimestamp_rising
    (hchronological : seg.Chronological) (target : ℤ) :
    ((frameEntries 0 seg.frames).Pairwise fun a b =>
        (byTimestamp target).entry a = true → (byTimestamp target).entry b = true) ∧
      (frameEntries 0 seg.frames).Pairwise fun a b =>
        (byTimestamp target).anchor b = false → (byTimestamp target).entry a = false := by
  simp only [byTimestamp, decide_eq_true_eq, decide_eq_false_iff_not]
  constructor
  · refine frameEntries_pairwise (hchronological.imp ?_) 0
    intro a b hle i j
    simp only [entryOf]
    omega
  · refine frameEntries_pairwise (hchronological.imp ?_) 0
    intro a b hle i j
    simp only [entryOf]
    omega

theorem ByteSegment.WellFormed.seeksExactly (hwf : seg.WellFormed) (hindexed : seg.Indexed)
    (hlengths : ∀ ms ∈ seg.frames, ms.length ≤ maxInt32) : seg.SeeksExactly := by
  cases hmode : seg.blockMode with
  | false =>
    constructor
    · exact hwf.findEntry_raw hmode hindexed
    · intro hchronological target
      exact hindexed.findEntryBy_raw hmode (hchronological.byTimestamp_rising target).1
  | true =>
    constructor
    · intro target
      rw [hwf.findEntry_blocks hmode hindexed, map_narrow_find? hlengths]
    · intro hchronological target
      obtain ⟨hrising, hback⟩ := hchronological.byTimestamp_rising target
      have hfound := hindexed.findEntryBy_blocks hwf.whole hmode
        (byTimestamp_agrees target) hrising hback
      rw [map_narrow_find? hlengths] at hfound
      exact hfound

theorem ByteSegment.WellFormed.find?_own (hwf : seg.WellFormed) {front rest : List Bytes}
    {ms : Bytes} (hsplit : seg.frames = front ++ ms :: rest) :
    ((frameEntries 0 seg.frames).find? fun e =>
        decide ((setFrame ms).offset ≤ e.offset)) =
      some (entryOf front.flatten.length ms) := by
  have hrising := hwf.rising
  rw [hsplit] at hrising
  exact find?_offset hsplit (fun other hother =>
    (pairwise_append.mp hrising).2.2 other hother ms mem_cons_self)
    le_rfl

theorem ByteSegment.SeeksExactly.indexed (hexact : seg.SeeksExactly)
    (hwf : seg.WellFormed) (hraw : seg.blockMode = false) : seg.Indexed := by
  intro e he
  rw [ByteSegment.written, if_neg (by simp [hraw])] at he
  obtain ⟨front, ms, rest, hsplit, rfl⟩ := mem_frameEntries.mp he
  have hfound := hexact.offsets (setFrame ms).offset
  rw [hwf.find?_own hsplit, ByteSegment.findEntry, if_neg (by simp [hraw])] at hfound
  obtain ⟨other, -, hstored⟩ :=
    mem_map.mp (mem_of_getElem? hfound)
  rw [Nat.zero_add, ← hstored, Entry.stored_stored]

theorem ByteSegment.SeeksExactly.length_le (hexact : seg.SeeksExactly)
    (hwf : seg.WellFormed) (hanchors : seg.blockMode = true → seg.Indexed)
    {ms : Bytes} (hms : ms ∈ seg.frames) : ms.length ≤ maxInt32 := by
  obtain ⟨front, rest, hsplit⟩ := append_of_mem hms
  have hfound := hexact.offsets (setFrame ms).offset
  rw [hwf.find?_own hsplit] at hfound
  cases hmode : seg.blockMode with
  | false =>
    have hfits := hexact.indexed hwf hmode (entryOf front.flatten.length ms) (by
        rw [ByteSegment.written, if_neg (by simp [hmode])]
        exact mem_frameEntries.mpr ⟨front, ms, rest, hsplit, by rw [Nat.zero_add]⟩)
    have hsize := congrArg Entry.size hfits
    have hle := int32_le ms.length
    simp only [Entry.stored, entryOf] at hsize
    omega
  | true =>
    rw [hwf.findEntry_blocks hmode (hanchors hmode), hwf.find?_own hsplit,
      Option.map_some] at hfound
    exact length_le_of_narrow (Option.some.inj hfound)

end Exact

/-- One frame at offset `2 ^ 32` with a payload of one byte. -/
def distantSet : Bytes :=
  [0, 0, 0, 1] ++ replicate 20 0 ++ [0, 0, 0, 1] ++ [0, 0, 0, 0] ++ [7]

theorem distantSet_written : (∀ crc headerCrc, emptyBytes.writes crc headerCrc byteEnv
        (.appendMessageSet distantSet) = some [distantSet]) ∧
      (emptyBytes.active.write [distantSet]).WellFormed := by
  have haccepted : checkAppendedEntries (-1) (entriesForMessageSet distantSet)
      distantSet.length = true ∧ splitFrames distantSet = [distantSet] := by
    decide +kernel
  constructor
  · intro crc headerCrc
    rw [emptyBytes_writes, if_pos haccepted.1, haccepted.2]
  · constructor <;> decide +kernel

end CommitLog
