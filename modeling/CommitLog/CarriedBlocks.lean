import CommitLog.CompactReference
import CommitLog.LogOps

/-!
# Blocks a rewrite must not merge

A version-3 block that still has its producer identity, or is a control block,
is to go into a rewrite as it is when the pass keeps all its records as they
are.  The walk that compaction and consolidation share does so for a block it
asks nothing of, if the copy has blocks at all.  A join adds frame after frame
and does so for none.
-/

namespace CommitLog

open List

variable {st st' : Rewrite} {blocks : List Block} {b : Block} {seg : Segment}

def Layout.outBlocks : Layout → List Block
  | .raw _ => []
  | .blocks bs => bs

/-- The result holds what is kept of the frames, and every block that is not
mergeable and loses or changes no record as it was. -/
structure TravelsWhole (kept : Frame → Option Frame) (frames : List Frame)
    (blocks : List Block) (result : Layout) : Prop where
  frames : result.frames = frames.filterMap kept
  whole : ∀ b ∈ blocks, b.mergeable = false →
    (∀ f ∈ b.frames, kept f = some f) → b ∈ result.outBlocks

/-! ## What the writer carries -/

namespace BlockWriter

/-- The blocks written whole: what a flush writes is mergeable. -/
def carried (writer : BlockWriter) : List Block :=
  writer.out.filter fun b => !b.mergeable

@[simp] theorem carried_flush (writer : BlockWriter) : writer.flush.carried = writer.carried := by
  unfold flush carried
  split <;> simp

@[simp] theorem carried_add (writer : BlockWriter) (frame : Frame) :
    (writer.add frame).carried = writer.carried := by
  unfold add
  dsimp only
  split
  · rw [carried_flush]
    rfl
  · rfl

theorem carried_foldl_add (frames : List Frame) (writer : BlockWriter) :
    (frames.foldl add writer).carried = writer.carried := by
  induction frames generalizing writer with
  | nil => rfl
  | cons frame frames ih => rw [foldl_cons, ih, carried_add]

theorem mem_outBlocks {writer : BlockWriter} (hunmergeable : b.mergeable = false) :
    b ∈ writer.layout.outBlocks ↔ writer.blockMode = true ∧ b ∈ writer.carried := by
  unfold layout carried
  cases writer.blockMode <;> simp [Layout.outBlocks, hunmergeable]

end BlockWriter

/-! ## The walk -/

section Walk

variable {keep : Rewrite → Frame → Except StripError Rewrite} {whole : List Frame → Bool}

def OnlyAdds (keep : Rewrite → Frame → Except StripError Rewrite) : Prop :=
  ∀ st frame st', keep st frame = .ok st' → st'.writer.carried = st.writer.carried ∧
      st'.writer.blockMode = st.writer.blockMode

theorem onlyAdds_addFrame : OnlyAdds addFrame := by
  intro st frame st' hkeep
  cases hkeep
  simp

theorem onlyAdds_keepFrame (spec : CleanSpec) (drops : Option DropSet) :
    OnlyAdds (keepFrame spec drops) := by
  intro st frame st' hkeep
  unfold keepFrame at hkeep
  split at hkeep
  · cases hkeep
    simp
  · split at hkeep <;> cases hkeep <;> simp
  · cases hkeep
    simp

theorem OnlyAdds.foldlM (hadds : OnlyAdds keep) {frames : List Frame}
    (hfold : frames.foldlM keep st = .ok st') :
    st'.writer.carried = st.writer.carried ∧ st'.writer.blockMode = st.writer.blockMode := by
  induction frames generalizing st with
  | nil =>
    cases hfold
    exact ⟨rfl, rfl⟩
  | cons frame frames ih =>
    obtain ⟨mid, hkeep, hrest⟩ := Runs.foldlM_cons_ok hfold
    obtain ⟨hcarried, hmode⟩ := ih hrest
    obtain ⟨hcarried', hmode'⟩ := hadds st frame mid hkeep
    exact ⟨hcarried.trans hcarried', hmode.trans hmode'⟩

def carries (whole : List Frame → Bool) (blockMode : Bool) (b : Block) : Bool :=
  !b.mergeable && (whole b.frames && blockMode)

theorem OnlyAdds.walkBlock (hadds : OnlyAdds keep) (hwalk : walkBlock keep whole st b = .ok st') :
    st'.writer.carried = st.writer.carried ++ [b].filter (carries whole st.writer.blockMode) ∧
      st'.writer.blockMode = st.writer.blockMode := by
  unfold CommitLog.walkBlock at hwalk
  cases hmergeable : b.mergeable with
  | true =>
    rw [if_pos hmergeable] at hwalk
    simpa [carries, hmergeable] using hadds.foldlM hwalk
  | false =>
    rw [if_neg (by simp [hmergeable])] at hwalk
    cases hwhole : whole b.frames && st.writer.blockMode with
    | true =>
      rw [if_pos hwhole] at hwalk
      cases hwalk
      have hflush := st.writer.carried_flush
      unfold BlockWriter.carried at hflush
      simp [carries, hmergeable, hwhole, BlockWriter.carried, BlockWriter.writeBlock, hflush]
    | false =>
      rw [if_neg (by simp [hwhole])] at hwalk
      split at hwalk
      · cases hfold : b.frames.foldlM keep st.flush with
        | error e =>
          rw [hfold] at hwalk
          cases hwalk
        | ok mid =>
          rw [hfold] at hwalk
          cases hwalk
          simpa [carries, hmergeable, hwhole, Rewrite.flush] using hadds.foldlM hfold
      · simpa [carries, hmergeable, hwhole] using hadds.foldlM hwalk

theorem OnlyAdds.walk (hadds : OnlyAdds keep)
    (hfold : blocks.foldlM (CommitLog.walkBlock keep whole) st = .ok st') :
    st'.writer.carried = st.writer.carried ++ blocks.filter (carries whole st.writer.blockMode) ∧
      st'.writer.blockMode = st.writer.blockMode := by
  induction blocks generalizing st with
  | nil =>
    cases hfold
    simp
  | cons b blocks ih =>
    obtain ⟨mid, hwalk, hrest⟩ := Runs.foldlM_cons_ok hfold
    obtain ⟨hcarried, hmode⟩ := ih hrest
    obtain ⟨hcarried', hmode'⟩ := hadds.walkBlock hwalk
    refine ⟨?_, hmode.trans hmode'⟩
    rw [hcarried, hcarried', hmode', append_assoc, ← filter_append, singleton_append]

theorem OnlyAdds.mem_rewrite (hadds : OnlyAdds keep) {blockMode : Bool}
    (hwalk : rewriteWalk keep whole (.blocks blocks) (.start blockMode) = .ok st)
    (hunmergeable : b.mergeable = false) (hmem : b ∈ blocks) :
    b ∈ st.writer.flush.layout.outBlocks ↔ blockMode = true ∧ whole b.frames = true := by
  obtain ⟨hcarried, hmode⟩ := hadds.walk hwalk
  rw [BlockWriter.mem_outBlocks hunmergeable, BlockWriter.carried_flush,
    BlockWriter.blockMode_flush, hcarried, hmode]
  simp only [Rewrite.start, BlockWriter.carried, filter_nil,
    nil_append, mem_filter, carries, hunmergeable]
  cases blockMode <;> simp [hmem]

end Walk

/-! ## The three rewrites -/

theorem cleanSegment_replaced {spec : CleanSpec} {seg' : Segment} {drops : Option DropSet}
    {result : CleanResult} (hclean : cleanSegment spec seg drops = .ok result)
    (hreplaced : result.outcome = .replaced seg') :
    ∃ st, rewriteWalk (keepFrame spec drops) (wholeBlock spec drops)
        seg.layout (.start seg.encodesBlocks) = .ok st ∧
      seg'.layout = st.writer.flush.layout := by
  unfold cleanSegment at hclean
  cases hwalk : rewriteWalk (keepFrame spec drops) (wholeBlock spec drops)
      seg.layout (.start seg.encodesBlocks) with
  | error e =>
    rw [hwalk] at hclean
    cases hclean
  | ok st =>
    rw [hwalk] at hclean
    cases hclean
    refine ⟨st, rfl, ?_⟩
    dsimp only at hreplaced
    split_ifs at hreplaced
    cases hreplaced
    rfl

theorem travelsWhole_clean {spec : CleanSpec} {seg' : Segment} {drops : Option DropSet}
    {result : CleanResult} (hlayout : seg.layout = .blocks blocks)
    (hclean : cleanSegment spec seg drops = .ok result)
    (hreplaced : result.outcome = .replaced seg') :
    TravelsWhole (rewriteFrame spec drops) seg.frames blocks seg'.layout ↔
      ∀ b ∈ blocks, b.mergeable = false → (∀ f ∈ b.frames, rewriteFrame spec drops f = some f) →
        seg.encodesBlocks = true ∧ ∀ f ∈ b.frames, classify spec drops f = .retain := by
  obtain ⟨st, hwalk, hout⟩ := cleanSegment_replaced hclean hreplaced
  have hframes : seg'.layout.frames = seg.frames.filterMap (rewriteFrame spec drops) := by
    apply cleanSegment_frames hclean
    rw [hreplaced]
    rfl
  rw [hlayout] at hwalk
  have hcarried : ∀ b ∈ blocks, b.mergeable = false →
      (b ∈ seg'.layout.outBlocks ↔ seg.encodesBlocks = true ∧
        ∀ f ∈ b.frames, classify spec drops f = .retain) := by
    intro b hb hunmergeable
    rw [hout, (onlyAdds_keepFrame spec drops).mem_rewrite hwalk hunmergeable hb, wholeBlock]
    simp
  constructor
  · intro htravels b hb hunmergeable hkept
    exact (hcarried b hb hunmergeable).mp (htravels.whole b hb hunmergeable hkept)
  · intro hall
    refine ⟨hframes, fun b hb hunmergeable hkept => ?_⟩
    exact (hcarried b hb hunmergeable).mpr (hall b hb hunmergeable hkept)

theorem travelsWhole_consolidate (hlayout : seg.layout = .blocks blocks) :
    TravelsWhole some seg.frames blocks (consolidateOne seg).layout ↔
      seg.encodesBlocks = true ∨ ∀ b ∈ blocks, b.mergeable = true := by
  obtain ⟨st, hwalk, -, hconsolidated⟩ := consolidateOne_eq seg
  have hout : (consolidateOne seg).layout = st.writer.flush.layout := by
    rw [hconsolidated]
  have hframes : (consolidateOne seg).layout.frames =
      seg.frames.filterMap some := by
    rw [filterMap_some]
    exact consolidateOne_frames seg
  rw [hlayout] at hwalk
  have hcarried : ∀ b ∈ blocks, b.mergeable = false → (b ∈ (consolidateOne seg).layout.outBlocks ↔
        seg.encodesBlocks = true) := by
    intro b hb hunmergeable
    rw [hout, onlyAdds_addFrame.mem_rewrite hwalk hunmergeable hb]
    simp
  constructor
  · intro htravels
    by_contra hnone
    simp only [not_or, not_forall, Bool.not_eq_true] at hnone
    obtain ⟨hmode, b, hb, hunmergeable⟩ := hnone
    have hin := (hcarried b hb hunmergeable).mp (htravels.whole b hb hunmergeable fun f _ => rfl)
    rw [hmode] at hin
    cases hin
  · intro hmode
    refine ⟨hframes, fun b hb hunmergeable _ => ?_⟩
    apply (hcarried b hb hunmergeable).mpr
    rcases hmode with hmode | hall
    · exact hmode
    · rw [hall b hb] at hunmergeable
      cases hunmergeable

theorem travelsWhole_join (first : Segment) (others : List Segment) :
    TravelsWhole some (recordsOf (first :: others))
        ((first :: others).flatMap fun seg => seg.layout.outBlocks)
        (LogView.joinedSegment first others).layout ↔
      ∀ seg ∈ first :: others, ∀ b ∈ seg.layout.outBlocks, b.mergeable = true := by
  -- The writer of a join carries nothing.
  have hnone : ∀ b, b.mergeable = false →
      b ∉ (LogView.joinedSegment first others).layout.outBlocks := by
    intro b hunmergeable
    change b ∉ (BlockWriter.write first.encodesBlocks _).outBlocks
    rw [BlockWriter.write, BlockWriter.mem_outBlocks hunmergeable,
      BlockWriter.carried_flush, BlockWriter.carried_foldl_add]
    simp [BlockWriter.carried]
  constructor
  · intro htravels seg hseg b hb
    cases hunmergeable : b.mergeable with
    | true => rfl
    | false =>
      have hin := htravels.whole b (mem_flatMap.mpr ⟨seg, hseg, hb⟩) hunmergeable fun f _ => rfl
      exact absurd hin (hnone b hunmergeable)
  · intro hall
    constructor
    · rw [filterMap_some]
      exact LogView.frames_joinedSegment first others
    · intro b hb hunmergeable _
      obtain ⟨seg, hseg, hb⟩ := mem_flatMap.mp hb
      rw [hall seg hseg b hb] at hunmergeable
      cases hunmergeable

/-- A block with nothing kept back travels whole through compaction exactly
if the copy has blocks and no record of it is up for stripping, through
consolidation exactly if the copy has blocks, and through a join never. -/
theorem travelsWhole_iff (spec : CleanSpec) (drops : Option DropSet) (seg : Segment)
    (others : List Segment) :
    (∀ result seg' blocks, seg.layout = .blocks blocks → cleanSegment spec seg drops = .ok result →
      result.outcome = .replaced seg' →
      (TravelsWhole (rewriteFrame spec drops) seg.frames blocks seg'.layout ↔
        ∀ b ∈ blocks, b.mergeable = false → (∀ f ∈ b.frames, rewriteFrame spec drops f = some f) →
          seg.encodesBlocks = true ∧ ∀ f ∈ b.frames, classify spec drops f = .retain)) ∧
    (∀ blocks, seg.layout = .blocks blocks →
      (TravelsWhole some seg.frames blocks (consolidateOne seg).layout ↔
        seg.encodesBlocks = true ∨ ∀ b ∈ blocks, b.mergeable = true)) ∧
    (TravelsWhole some (recordsOf (seg :: others))
        ((seg :: others).flatMap fun input => input.layout.outBlocks)
        (LogView.joinedSegment seg others).layout ↔
      ∀ input ∈ seg :: others, ∀ b ∈ input.layout.outBlocks, b.mergeable = true) := by
  refine ⟨?_, ?_, ?_⟩
  · intro result seg' blocks hlayout hclean hreplaced
    exact travelsWhole_clean hlayout hclean hreplaced
  · intro blocks hlayout
    exact travelsWhole_consolidate hlayout
  · exact travelsWhole_join seg others

def identitySegment (offset : ℤ) : Segment :=
  ⟨offset, .blocks [⟨.v3, false, false, [storedFrame offset]⟩], true, false, none⟩

/-- Two of them are joined into one block of both records. -/
theorem identity_blocks_merged :
    (LogView.joinedSegment (identitySegment 0) [identitySegment 1]).layout =
        .blocks [Block.ofFrames [storedFrame 0, storedFrame 1]] ∧
      ¬ TravelsWhole some (recordsOf [identitySegment 0, identitySegment 1])
        ([identitySegment 0, identitySegment 1].flatMap fun seg => seg.layout.outBlocks)
        (LogView.joinedSegment (identitySegment 0) [identitySegment 1]).layout := by
  have hlayout : (LogView.joinedSegment (identitySegment 0) [identitySegment 1]).layout =
        .blocks [Block.ofFrames [storedFrame 0, storedFrame 1]] := by
    decide +kernel
  refine ⟨hlayout, ?_⟩
  intro htravels
  have hin := htravels.whole ⟨.v3, false, false, [storedFrame 0]⟩
    (by simp [identitySegment, Layout.outBlocks]) rfl fun f _ => rfl
  rw [hlayout] at hin
  revert hin
  decide +kernel

/-- Consolidation carries the block. -/
theorem travelsWhole_iff_identity : TravelsWhole some (identitySegment 0).frames
      [⟨.v3, false, false, [storedFrame 0]⟩]
      (consolidateOne (identitySegment 0)).layout :=
  ((travelsWhole_iff (sampleSpec 6) none (identitySegment 0) []).2.1 _
    rfl).mpr (Or.inl rfl)

end CommitLog
