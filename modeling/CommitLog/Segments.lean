import CommitLog.Frames
import CommitLog.Runs

/-!
# Segments

A segment holds its frames either raw or inside blocks.  A block is either in
the log's own framing or a version-3 block that decodes to that framing; the
two flags of a version-3 block decide whether a rewrite may merge it with its
neighbours.  Positions are logical: they count framing bytes, not what the
codec leaves on disk.
-/

namespace CommitLog

open List

variable {frame : Frame} {segments : List Segment}
variable {seg seg' : Segment} {frame' : Frame} {i j : ℕ}

inductive BlockVersion
  | v2
  | v3
deriving DecidableEq, Repr

/-- A block of a segment with the frames it decodes to.  The flags are those
of a version-3 header. -/
structure Block where
  version : BlockVersion
  stripped : Bool
  control : Bool
  frames : List Frame
deriving DecidableEq

def framingLen (frames : List Frame) : ℕ :=
  (frames.map Frame.length).sum

@[simp] theorem framingLen_nil : framingLen [] = 0 := rfl

@[simp] theorem framingLen_cons (frame : Frame) (frames : List Frame) :
    framingLen (frame :: frames) = frame.length + framingLen frames := by
  simp [framingLen]

@[simp] theorem framingLen_append (frames frames' : List Frame) : framingLen (frames ++ frames') =
      framingLen frames + framingLen frames' := by
  simp [framingLen]

namespace Block

/-- `blockRef.mergeable`. -/
def mergeable (block : Block) : Bool :=
  block.version != .v3 || (block.stripped && !block.control)

/-- A block in the log's own framing, as `appendBlock` writes it. -/
def ofFrames (frames : List Frame) : Block :=
  ⟨.v2, false, false, frames⟩

@[simp] theorem frames_ofFrames (frames : List Frame) : (ofFrames frames).frames = frames := rfl

@[simp] theorem mergeable_ofFrames (frames : List Frame) : (ofFrames frames).mergeable = true := rfl

end Block

inductive Layout
  | raw (frames : List Frame)
  | blocks (blocks : List Block)
deriving DecidableEq

namespace Layout

def frames : Layout → List Frame
  | .raw frames => frames
  | .blocks bs => bs.flatMap Block.frames

/-- `blockMode`. -/
def blockMode : Layout → Bool
  | .raw _ => false
  | .blocks _ => true

end Layout

/-- A segment as the cleaner sees it.  `encodesBlocks` says that the codec and
block format the segment was opened with put a fresh working copy into block
mode; `tier` is set for an offloaded segment. -/
structure Segment where
  baseOffset : ℤ
  layout : Layout
  encodesBlocks : Bool
  blocksPending : Bool
  tier : Option String
deriving DecidableEq

namespace Segment

def frames (seg : Segment) : List Frame := seg.layout.frames

def position (seg : Segment) : ℕ := framingLen seg.frames

def isOffloaded (seg : Segment) : Bool := seg.tier.isSome

/-- `NextOffset`. -/
def nextOffset (seg : Segment) : ℤ :=
  match seg.frames.getLast? with
  | none => seg.baseOffset
  | some frame => frame.offset + 1

def firstWriteTime (seg : Segment) : ℤ :=
  match seg.frames.head? with
  | none => 0
  | some frame => frame.timestamp

def lastWriteTime (seg : Segment) : ℤ :=
  match seg.frames.getLast? with
  | none => 0
  | some frame => frame.timestamp

structure WellFormed (seg : Segment) : Prop where
  base_nonneg : 0 ≤ seg.baseOffset
  ordered : seg.frames.Pairwise fun a b => a.offset < b.offset
  base_le : ∀ frame ∈ seg.frames, seg.baseOffset ≤ frame.offset

instance (seg : Segment) : Decidable seg.WellFormed :=
  decidable_of_iff (0 ≤ seg.baseOffset ∧ (seg.frames.Pairwise fun a b => a.offset < b.offset) ∧
      ∀ frame ∈ seg.frames, seg.baseOffset ≤ frame.offset)
    ⟨fun h => ⟨h.1, h.2.1, h.2.2⟩, fun h => ⟨h.1, h.2, h.3⟩⟩

theorem WellFormed.offset_nonneg (hwf : seg.WellFormed) (hmem : frame ∈ seg.frames) :
    0 ≤ frame.offset :=
  hwf.base_nonneg.trans (hwf.base_le frame hmem)

theorem WellFormed.offset_lt_nextOffset (hwf : seg.WellFormed) (hmem : frame ∈ seg.frames) :
    frame.offset < seg.nextOffset := by
  unfold nextOffset
  cases hlast : seg.frames.getLast? with
  | none =>
    rw [getLast?_eq_none_iff] at hlast
    simp [hlast] at hmem
  | some last =>
    rcases Runs.eq_or_rel_last hwf.ordered hlast hmem with rfl | hlt
    · simp
    · simp only
      omega

theorem WellFormed.base_le_nextOffset (hwf : seg.WellFormed) : seg.baseOffset ≤ seg.nextOffset := by
  unfold nextOffset
  cases hlast : seg.frames.getLast? with
  | none => rfl
  | some last =>
    have hbase := hwf.base_le last (mem_of_getLast? hlast)
    simp only
    omega

theorem nextOffset_le_of {offset : ℤ} (hbase : seg.baseOffset ≤ offset)
    (hbelow : ∀ frame ∈ seg.frames, frame.offset < offset) : seg.nextOffset ≤ offset := by
  unfold nextOffset
  cases hlast : seg.frames.getLast? with
  | none => exact hbase
  | some last => exact hbelow last (mem_of_getLast? hlast)

end Segment

def cleanBlockTarget : ℕ := 256 * 1024

namespace Segment

/-- `needsBlockConsolidation`: at least 1024 blocks, and many more mergeable
ones than the target layout would have. -/
def needsBlockConsolidation (seg : Segment) : Bool :=
  match seg.layout with
  | .raw _ => false
  | .blocks blocks =>
    if seg.blocksPending || decide (blocks.length < 1024) then false
    else
      let mergeable := blocks.countP Block.mergeable
      let targetBlocks := seg.position / cleanBlockTarget + 1
      decide (1024 ≤ mergeable) && decide (4 * targetBlocks < mergeable)

end Segment

/-! ## Segment lists -/

/-- The segments of a log, oldest first: offsets increase from one segment to
the next and every base offset lies above the records before it. -/
structure LogOrdered (segments : List Segment) : Prop where
  wellFormed : ∀ seg ∈ segments, seg.WellFormed
  increasing : segments.Pairwise fun seg seg' =>
    seg.baseOffset < seg'.baseOffset ∧ ∀ frame ∈ seg.frames, frame.offset < seg'.baseOffset

instance (segments : List Segment) : Decidable (LogOrdered segments) :=
  decidable_of_iff ((∀ seg ∈ segments, seg.WellFormed) ∧
      segments.Pairwise fun seg seg' => seg.baseOffset < seg'.baseOffset ∧
        ∀ frame ∈ seg.frames, frame.offset < seg'.baseOffset)
    ⟨fun h => ⟨h.1, h.2⟩, fun h => ⟨h.1, h.2⟩⟩

def recordsOf (segments : List Segment) : List Frame :=
  segments.flatMap Segment.frames

@[simp] theorem recordsOf_nil : recordsOf [] = [] := rfl

@[simp] theorem recordsOf_cons (seg : Segment) (segments : List Segment) :
    recordsOf (seg :: segments) = seg.frames ++ recordsOf segments := rfl

@[simp] theorem recordsOf_append (segments segments' : List Segment) :
    recordsOf (segments ++ segments') = recordsOf segments ++ recordsOf segments' := by
  simp [recordsOf]

theorem mem_recordsOf : frame ∈ recordsOf segments ↔ ∃ seg ∈ segments, frame ∈ seg.frames := by
  simp [recordsOf]

theorem LogOrdered.tail (hordered : LogOrdered (seg :: segments)) : LogOrdered segments :=
  ⟨fun s hs => hordered.wellFormed s (mem_cons_of_mem _ hs),
    (pairwise_cons.mp hordered.increasing).2⟩

theorem LogOrdered.sublist {segs segs' : List Segment} (hordered : LogOrdered segs)
    (hsub : segs'.Sublist segs) : LogOrdered segs' :=
  ⟨fun seg hseg => hordered.wellFormed seg (hsub.subset hseg), hordered.increasing.sublist hsub⟩

theorem LogOrdered.records_ordered (hordered : LogOrdered segments) :
    (recordsOf segments).Pairwise fun a b => a.offset < b.offset := by
  induction segments with
  | nil => exact Pairwise.nil
  | cons seg segments ih =>
    rw [recordsOf_cons, pairwise_append]
    refine ⟨(hordered.wellFormed seg mem_cons_self).ordered, ih hordered.tail, ?_⟩
    intro frame hframe later hlater
    obtain ⟨other, hother, hmem⟩ := mem_recordsOf.mp hlater
    have hstep := (pairwise_cons.mp hordered.increasing).1 other hother
    have hbase := (hordered.wellFormed other (mem_cons_of_mem _ hother)).base_le later hmem
    exact (hstep.2 frame hframe).trans_le hbase

theorem LogOrdered.offset_nonneg (hordered : LogOrdered segments)
    (hmem : frame ∈ recordsOf segments) : 0 ≤ frame.offset := by
  obtain ⟨seg, hseg, hframe⟩ := mem_recordsOf.mp hmem
  exact (hordered.wellFormed seg hseg).offset_nonneg hframe

theorem eq_of_offset_eq_of_pairwise {frames : List Frame}
    (hordered : frames.Pairwise fun a b => a.offset < b.offset) (hmem : frame ∈ frames)
    (hmem' : frame' ∈ frames) (hoffset : frame.offset = frame'.offset) : frame = frame' := by
  induction frames with
  | nil => simp at hmem
  | cons first rest ih =>
    obtain ⟨hfirst, hrest⟩ := pairwise_cons.mp hordered
    rcases mem_cons.mp hmem with heq | hin
    · rcases mem_cons.mp hmem' with heq' | hin'
      · rw [heq, heq']
      · rw [heq] at hoffset
        exact absurd hoffset (hfirst frame' hin').ne
    · rcases mem_cons.mp hmem' with heq' | hin'
      · rw [heq'] at hoffset
        exact absurd hoffset (hfirst frame hin).ne'
      · exact ih hrest hin hin'

theorem LogOrdered.eq_of_offset_eq (hordered : LogOrdered segments)
    (hmem : frame ∈ recordsOf segments) (hmem' : frame' ∈ recordsOf segments)
    (hoffset : frame.offset = frame'.offset) : frame = frame' :=
  eq_of_offset_eq_of_pairwise hordered.records_ordered hmem hmem' hoffset

theorem mem_recordsOf_getElem? : frame ∈ recordsOf segments ↔ ∃ (i : ℕ) (seg : Segment),
        segments[i]? = some seg ∧ frame ∈ seg.frames := by
  rw [mem_recordsOf]
  constructor
  · intro hseg
    obtain ⟨seg, hmem, hframe⟩ := hseg
    obtain ⟨i, hi⟩ := mem_iff_getElem?.mp hmem
    exact ⟨i, seg, hi, hframe⟩
  · intro hseg
    obtain ⟨i, seg, hi, hframe⟩ := hseg
    exact ⟨seg, mem_of_getElem? hi, hframe⟩

theorem LogOrdered.offset_lt (hordered : LogOrdered segments) (hi : segments[i]? = some seg)
    (hj : segments[j]? = some seg') (hij : i < j) (hframe : frame ∈ seg.frames)
    (hframe' : frame' ∈ seg'.frames) : frame.offset < frame'.offset := by
  obtain ⟨hilt, hiseg⟩ := List.getElem?_eq_some_iff.mp hi
  obtain ⟨hjlt, hjseg⟩ := List.getElem?_eq_some_iff.mp hj
  have hpair := pairwise_iff_getElem.mp hordered.increasing i j hilt hjlt hij
  rw [hiseg, hjseg] at hpair
  have hbase := (hordered.wellFormed seg' (mem_of_getElem? hj)).base_le frame' hframe'
  exact (hpair.2 frame hframe).trans_le hbase

theorem LogOrdered.nextOffset_le (hordered : LogOrdered segments) (hi : segments[i]? = some seg)
    (hj : segments[j]? = some seg') (hij : i < j) : seg.nextOffset ≤ seg'.baseOffset := by
  obtain ⟨hilt, hiseg⟩ := List.getElem?_eq_some_iff.mp hi
  obtain ⟨hjlt, hjseg⟩ := List.getElem?_eq_some_iff.mp hj
  have hpair := pairwise_iff_getElem.mp hordered.increasing i j hilt hjlt hij
  rw [hiseg, hjseg] at hpair
  exact Segment.nextOffset_le_of hpair.1.le hpair.2

theorem LogOrdered.index_eq (hordered : LogOrdered segments) (hi : segments[i]? = some seg)
    (hj : segments[j]? = some seg') (hframe : frame ∈ seg.frames) (hframe' : frame' ∈ seg'.frames)
    (hoffset : frame.offset = frame'.offset) : i = j := by
  rcases lt_trichotomy i j with hlt | heq | hgt
  · exact absurd hoffset (hordered.offset_lt hi hj hlt hframe hframe').ne
  · exact heq
  · exact absurd hoffset (hordered.offset_lt hj hi hgt hframe' hframe).ne'

end CommitLog
