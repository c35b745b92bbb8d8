import CommitLog.MergeDigests

/-!
# Rewriting one segment

`cleanSegment` walks the blocks of a sealed segment, classifies every record
under the spec and the drop set, and collects what survives into a working
copy.  A version-3 block that a merge must not touch is carried over whole
when the pass keeps all its records.  The walk also decides the strip stamp of
the refreshed digest.
-/

namespace CommitLog

open List

variable {spec : CleanSpec} {drops : Option DropSet} {st st' : Rewrite} {seg seg' : Segment}
  {result : CleanResult} {frame' : Frame}

inductive Disposition
  | retain
  | remove
  | strip
deriving DecidableEq, Repr

/-- The last two branches of `classify`, shared by keyed and unkeyed data. -/
def stripOrRetain (spec : CleanSpec) (frame : Frame) : Disposition :=
  if decide (frame.offset < spec.stripBelow) && !spec.stripHeaders.isEmpty
  then .strip
  else .retain

def classify (spec : CleanSpec) (drops : Option DropSet) (frame : Frame) :
    Disposition :=
  if spec.ceiling ≤ frame.offset then .retain
  else if frame.isControl then
    if decide (frame.offset < spec.stripBelow) && !spec.stripHeaders.isEmpty then .remove
    else .retain
  else if spec.aborted frame.offset then .remove
  else
    match frame.key with
    | none => stripOrRetain spec frame
    | some _ =>
      if DropSet.getOf drops frame.offset then .remove
      else stripOrRetain spec frame

/-! ## The block writer -/

/-- The working copy being written: blocks already flushed and the frames
still buffered.  Without a block layout each flush is a plain append. -/
structure BlockWriter where
  blockMode : Bool
  out : List Block
  buf : List Frame

namespace BlockWriter

def frames (writer : BlockWriter) : List Frame :=
  writer.out.flatMap Block.frames ++ writer.buf

def flush (writer : BlockWriter) : BlockWriter :=
  if writer.buf = [] then writer
  else { writer with out := writer.out ++ [Block.ofFrames writer.buf], buf := [] }

def add (writer : BlockWriter) (frame : Frame) : BlockWriter :=
  let writer := { writer with buf := writer.buf ++ [frame] }
  if cleanBlockTarget ≤ framingLen writer.buf then writer.flush else writer

def writeBlock (writer : BlockWriter) (block : Block) : BlockWriter :=
  { writer with out := writer.out ++ [block] }

def layout (writer : BlockWriter) : Layout :=
  if writer.blockMode then .blocks writer.out
  else .raw (writer.out.flatMap Block.frames)

@[simp] theorem frames_flush (writer : BlockWriter) : writer.flush.frames = writer.frames := by
  unfold flush
  split
  · rfl
  · simp [frames]

@[simp] theorem blockMode_flush (writer : BlockWriter) :
    writer.flush.blockMode = writer.blockMode := by
  unfold flush
  split <;> rfl

@[simp] theorem buf_flush (writer : BlockWriter) : writer.flush.buf = [] := by
  unfold flush
  split
  next hbuf => exact hbuf
  · rfl

@[simp] theorem frames_add (writer : BlockWriter) (frame : Frame) :
    (writer.add frame).frames = writer.frames ++ [frame] := by
  unfold add
  dsimp only
  split
  · rw [frames_flush]
    simp [frames]
  · simp [frames]

@[simp] theorem blockMode_add (writer : BlockWriter) (frame : Frame) :
    (writer.add frame).blockMode = writer.blockMode := by
  unfold add
  dsimp only
  split <;> simp

theorem frames_writeBlock {writer : BlockWriter} (hbuf : writer.buf = []) (block : Block) :
    (writer.writeBlock block).frames = writer.frames ++ block.frames := by
  simp [frames, writeBlock, hbuf]

theorem frames_layout {writer : BlockWriter} (hbuf : writer.buf = []) :
    writer.layout.frames = writer.frames := by
  unfold layout
  split <;> simp [frames, Layout.frames, hbuf]

end BlockWriter

/-! ## Walking a segment -/

/-- The variables `cleanSegment` closes over while it walks. -/
structure Rewrite where
  writer : BlockWriter
  removed : ℕ
  stripped : ℕ
  corrupt : ℕ
  residualStrippable : Bool

namespace Rewrite

def start (blockMode : Bool) : Rewrite :=
  ⟨⟨blockMode, [], []⟩, 0, 0, 0, false⟩

def flush (st : Rewrite) : Rewrite :=
  { st with writer := st.writer.flush }

end Rewrite

/-- The closure `keep` of `cleanSegment`. -/
def keepFrame (spec : CleanSpec) (drops : Option DropSet) (st : Rewrite)
    (frame : Frame) : Except StripError Rewrite :=
  match classify spec drops frame with
  | .remove => .ok { st with removed := st.removed + 1 }
  | .strip =>
    match stripFrame frame spec.stripHeaders with
    | .error .corruptRecord =>
      .ok { st with
        writer := st.writer.add frame
        corrupt := st.corrupt + 1
        residualStrippable := true }
    | .error .encode => .error .encode
    | .ok (some frame') =>
      .ok { st with
        writer := st.writer.add frame'
        stripped := st.stripped + 1 }
    | .ok none => .ok { st with writer := st.writer.add frame }
  | .retain =>
    .ok { st with
      writer := st.writer.add frame
      residualStrippable := st.residualStrippable || (spec.stripActive && !frame.isControl &&
          decide (spec.stripBelow ≤ frame.offset) &&
          frame.message.hasAnyHeader spec.stripHeaders) }

/-- The closure `whole` of `cleanSegment`. -/
def wholeBlock (spec : CleanSpec) (drops : Option DropSet) (frames : List Frame) : Bool :=
  frames.all fun frame => classify spec drops frame == .retain

def walkBlock (keep : Rewrite → Frame → Except StripError Rewrite)
    (whole : List Frame → Bool) (st : Rewrite) (block : Block) :
    Except StripError Rewrite :=
  if block.mergeable then block.frames.foldlM keep st
  else if whole block.frames && st.writer.blockMode then
    .ok { st with writer := st.writer.flush.writeBlock block }
  else if block.control then do
    let st ← block.frames.foldlM keep st.flush
    return st.flush
  else block.frames.foldlM keep st

def rewriteWalk (keep : Rewrite → Frame → Except StripError Rewrite)
    (whole : List Frame → Bool) (layout : Layout) (st : Rewrite) :
    Except StripError Rewrite :=
  match layout with
  | .raw frames => frames.foldlM keep st
  | .blocks blocks => blocks.foldlM (walkBlock keep whole) st

/-! ## The outcome of a rewrite -/

def maxInt64 : ℤ := 9223372036854775807

inductive CleanOutcome
  | emptied
  | converged
  | replaced (seg : Segment)

/-- What `cleanSegment` returns, with the stamp it puts on the refreshed
digest. -/
structure CleanResult where
  outcome : CleanOutcome
  removed : ℕ
  stamp : ℤ
  stampHdrs : List Bytes

def stampOf (spec : CleanSpec) (residualStrippable : Bool) : ℤ × List Bytes :=
  if spec.stripActive then
    (if residualStrippable then spec.stripBelow else maxInt64, spec.stripHeaders)
  else (-1, [])

def cleanSegment (spec : CleanSpec) (seg : Segment)
    (drops : Option DropSet) : Except StripError CleanResult := do
  let st ← rewriteWalk (keepFrame spec drops) (wholeBlock spec drops)
    seg.layout (Rewrite.start seg.encodesBlocks)
  let writer := st.writer.flush
  let stamp := stampOf spec st.residualStrippable
  let outcome :=
    if writer.frames = [] then CleanOutcome.emptied
    else if st.removed = 0 ∧ st.stripped = 0 ∧ seg.needsBlockConsolidation = false then
      CleanOutcome.converged
    else
      CleanOutcome.replaced { seg with layout := writer.layout, blocksPending := false }
  return ⟨outcome, st.removed, stamp.1, stamp.2⟩

def CleanOutcome.segment (outcome : CleanOutcome) (seg : Segment) :
    Option Segment :=
  match outcome with
  | .emptied => none
  | .converged => some seg
  | .replaced seg' => some seg'

def CleanOutcome.frames (outcome : CleanOutcome) (seg : Segment) :
    List Frame :=
  ((outcome.segment seg).map Segment.frames).getD []

/-- What the pass makes of one record. -/
def rewriteFrame (spec : CleanSpec) (drops : Option DropSet) (frame : Frame) : Option Frame :=
  match classify spec drops frame with
  | .remove => none
  | .retain => some frame
  | .strip =>
    if frame.crcMatches && frame.message.hasAnyHeader spec.stripHeaders
    then some (reframe frame spec.stripHeaders)
    else some frame

/-- Whether the record, passed to `keep`, makes the scan report that a strip
target may be left behind. -/
def leavesResidual (spec : CleanSpec) (drops : Option DropSet) (frame : Frame) : Bool :=
  match classify spec drops frame with
  | .remove => false
  | .strip => !frame.crcMatches
  | .retain =>
    spec.stripActive && !frame.isControl &&
      decide (spec.stripBelow ≤ frame.offset) &&
      frame.message.hasAnyHeader spec.stripHeaders

/-- The effect of walking `frames`, of which `visited` went through `keep`. -/
structure Walked (spec : CleanSpec) (drops : Option DropSet)
    (frames visited : List Frame) (st st' : Rewrite) : Prop where
  output : st'.writer.frames = st.writer.frames ++ frames.filterMap (rewriteFrame spec drops)
  blockMode : st'.writer.blockMode = st.writer.blockMode
  removed_le : st.removed ≤ st'.removed
  stripped_le : st.stripped ≤ st'.stripped
  unchanged : st'.removed = st.removed → st'.stripped = st.stripped →
    frames.filterMap (rewriteFrame spec drops) = frames
  residual : st'.residualStrippable = true ↔ st.residualStrippable = true ∨
      ∃ frame ∈ visited, leavesResidual spec drops frame = true

theorem Walked.nil (spec : CleanSpec) (drops : Option DropSet)
    (st : Rewrite) : Walked spec drops [] [] st st := by
  refine ⟨by simp, rfl, le_rfl, le_rfl, ?_, by simp⟩
  intro _ _
  rfl

theorem Walked.append {frames visited frames' visited' : List Frame} {st'' : Rewrite}
    (hfirst : Walked spec drops frames visited st st')
    (hsecond : Walked spec drops frames' visited' st' st'') :
    Walked spec drops (frames ++ frames') (visited ++ visited') st st'' := by
  have hremoved := hfirst.removed_le
  have hremoved' := hsecond.removed_le
  have hstripped := hfirst.stripped_le
  have hstripped' := hsecond.stripped_le
  refine ⟨?_, hsecond.blockMode.trans hfirst.blockMode, by omega, by omega, ?_, ?_⟩
  · rw [hsecond.output, hfirst.output, filterMap_append, append_assoc]
  · intro hrem hstr
    have hkeep := hfirst.unchanged (by omega) (by omega)
    have hkeep' := hsecond.unchanged (by omega) (by omega)
    rw [filterMap_append, hkeep, hkeep']
  · rw [hsecond.residual, hfirst.residual, or_assoc]
    apply or_congr_right
    simp only [mem_append]
    constructor
    · intro hor
      rcases hor with ⟨frame, hmem, hres⟩ | ⟨frame, hmem, hres⟩
      · exact ⟨frame, Or.inl hmem, hres⟩
      · exact ⟨frame, Or.inr hmem, hres⟩
    · intro hex
      obtain ⟨frame, hmem, hres⟩ := hex
      rcases hmem with hmem | hmem
      · exact Or.inl ⟨frame, hmem, hres⟩
      · exact Or.inr ⟨frame, hmem, hres⟩

theorem Walked.of_add {frame : Frame} (hrewrite : rewriteFrame spec drops frame = some frame')
    (hwriter : st'.writer = st.writer.add frame')
    (hremoved : st'.removed = st.removed)
    (hstripped : st.stripped ≤ st'.stripped)
    (hsame : st'.stripped = st.stripped → frame' = frame)
    (hresidual : st'.residualStrippable =
      (st.residualStrippable || leavesResidual spec drops frame)) :
    Walked spec drops [frame] [frame] st st' := by
  refine ⟨?_, ?_, hremoved.ge, hstripped, ?_, ?_⟩
  · rw [hwriter]
    simp [hrewrite]
  · rw [hwriter]
    simp
  · intro _ hstr
    simp [hrewrite, hsame hstr]
  · rw [hresidual]
    simp

theorem keepFrame_walked {frame : Frame} (hkeep : keepFrame spec drops st frame = .ok st') :
    Walked spec drops [frame] [frame] st st' := by
  unfold keepFrame at hkeep
  cases hclass : classify spec drops frame with
  | remove =>
    rw [hclass] at hkeep
    cases hkeep
    refine ⟨?_, rfl, by simp, le_rfl, ?_, ?_⟩
    · simp [rewriteFrame, hclass]
    · intro hrem _
      simp at hrem
    · simp [leavesResidual, hclass]
  | retain =>
    rw [hclass] at hkeep
    cases hkeep
    have hrewrite : rewriteFrame spec drops frame = some frame := by
      simp [rewriteFrame, hclass]
    exact Walked.of_add hrewrite rfl rfl le_rfl (fun _ => rfl) (by simp [leavesResidual, hclass])
  | strip =>
    rw [hclass] at hkeep
    cases hstrip : stripFrame frame spec.stripHeaders with
    | error err =>
      cases err with
      | encode =>
        rw [hstrip] at hkeep
        cases hkeep
      | corruptRecord =>
        rw [hstrip] at hkeep
        cases hkeep
        have hcrc := stripFrame_eq_corrupt.mp hstrip
        have hrewrite : rewriteFrame spec drops frame =
            some frame := by
          simp [rewriteFrame, hclass, hcrc]
        exact Walked.of_add hrewrite rfl rfl le_rfl (fun _ => rfl)
          (by simp [leavesResidual, hclass, hcrc])
    | ok result =>
      have hcrc : frame.crcMatches = true := by
        by_contra hfalse
        have hcorrupt : stripFrame frame spec.stripHeaders = .error .corruptRecord :=
          stripFrame_eq_corrupt.mpr (Bool.eq_false_iff.mpr hfalse)
        rw [hcorrupt] at hstrip
        cases hstrip
      cases result with
      | none =>
        rw [hstrip] at hkeep
        cases hkeep
        have hhas := stripFrame_eq_none hstrip
        have hrewrite : rewriteFrame spec drops frame =
            some frame := by
          simp [rewriteFrame, hclass, hhas]
        exact Walked.of_add hrewrite rfl rfl le_rfl (fun _ => rfl)
          (by simp [leavesResidual, hclass, hcrc])
      | some frame' =>
        rw [hstrip] at hkeep
        cases hkeep
        obtain ⟨_, hhas, hframe⟩ := stripFrame_eq_some hstrip
        have hrewrite : rewriteFrame spec drops frame =
            some frame' := by
          simp [rewriteFrame, hclass, hcrc, hhas, hframe]
        exact Walked.of_add hrewrite rfl rfl (by simp) (fun hstr => by simp at hstr)
          (by simp [leavesResidual, hclass, hcrc])

theorem foldlM_keepFrame_walked {frames : List Frame}
    (hfold : frames.foldlM (keepFrame spec drops) st = .ok st') :
    Walked spec drops frames frames st st' := by
  induction frames generalizing st with
  | nil =>
    cases hfold
    exact Walked.nil spec drops _
  | cons frame frames ih =>
    obtain ⟨next, hkeep, hrest⟩ := Runs.foldlM_cons_ok hfold
    exact (keepFrame_walked hkeep).append (ih hrest)

/-! ## Walking blocks -/

theorem Walked.flush_right {frames visited : List Frame}
    (hwalk : Walked spec drops frames visited st st') :
    Walked spec drops frames visited st st'.flush := by
  refine ⟨?_, ?_, hwalk.removed_le, hwalk.stripped_le, hwalk.unchanged, hwalk.residual⟩
  · simpa [Rewrite.flush] using hwalk.output
  · simpa [Rewrite.flush] using hwalk.blockMode

theorem Walked.flush_left {frames visited : List Frame}
    (hwalk : Walked spec drops frames visited st.flush st') :
    Walked spec drops frames visited st st' := by
  refine ⟨?_, ?_, hwalk.removed_le, hwalk.stripped_le, hwalk.unchanged, hwalk.residual⟩
  · simpa [Rewrite.flush] using hwalk.output
  · simpa [Rewrite.flush] using hwalk.blockMode

theorem wholeBlock_rewriteFrame {frames : List Frame}
    (hwhole : wholeBlock spec drops frames = true) :
    frames.filterMap (rewriteFrame spec drops) = frames := by
  unfold wholeBlock at hwhole
  rw [all_eq_true] at hwhole
  induction frames with
  | nil => rfl
  | cons frame frames ih =>
    have hclass : classify spec drops frame = .retain := by
      simpa using hwhole frame mem_cons_self
    have hrest := ih fun f hf => hwhole f (mem_cons_of_mem _ hf)
    have hhead : rewriteFrame spec drops frame = some frame := by
      simp [rewriteFrame, hclass]
    rw [filterMap_cons_some hhead, hrest]

/-- A block the pass carries over without looking at its frames again. -/
def passesWhole (spec : CleanSpec) (drops : Option DropSet)
    (blockMode : Bool) (block : Block) : Bool :=
  !block.mergeable && wholeBlock spec drops block.frames && blockMode

def visitedOfBlock (spec : CleanSpec) (drops : Option DropSet)
    (blockMode : Bool) (block : Block) : List Frame :=
  if passesWhole spec drops blockMode block then [] else block.frames

/-- The frames of a segment that go through `keep`. -/
def visited (spec : CleanSpec) (drops : Option DropSet) (blockMode : Bool) : Layout → List Frame
  | .raw frames => frames
  | .blocks blocks => blocks.flatMap (visitedOfBlock spec drops blockMode)

theorem walkBlock_walked {block : Block}
    (hwalk : walkBlock (keepFrame spec drops) (wholeBlock spec drops) st block = .ok st') :
    Walked spec drops block.frames
      (visitedOfBlock spec drops st.writer.blockMode block) st st' := by
  unfold walkBlock at hwalk
  by_cases hmergeable : block.mergeable = true
  · have hvisited : visitedOfBlock spec drops st.writer.blockMode block =
        block.frames := by
      simp [visitedOfBlock, passesWhole, hmergeable]
    rw [if_pos hmergeable] at hwalk
    rw [hvisited]
    exact foldlM_keepFrame_walked hwalk
  · rw [if_neg hmergeable] at hwalk
    by_cases hwhole : (wholeBlock spec drops block.frames && st.writer.blockMode) = true
    · rw [if_pos hwhole] at hwalk
      cases hwalk
      have hkept := wholeBlock_rewriteFrame (Bool.and_eq_true _ _ |>.mp hwhole).1
      have hvisited : visitedOfBlock spec drops st.writer.blockMode block = [] := by
        have hparts := (Bool.and_eq_true _ _).mp hwhole
        simp [visitedOfBlock, passesWhole, hmergeable, hparts.1, hparts.2]
      rw [hvisited]
      refine ⟨?_, ?_, le_rfl, le_rfl, fun _ _ => hkept, by simp⟩
      · rw [hkept, BlockWriter.frames_writeBlock (by simp)]
        simp
      · simp [BlockWriter.writeBlock]
    · have hvisited : visitedOfBlock spec drops st.writer.blockMode block =
          block.frames := by
        unfold visitedOfBlock passesWhole
        rw [Bool.and_assoc, Bool.eq_false_iff.mpr hwhole]
        simp
      rw [if_neg hwhole] at hwalk
      rw [hvisited]
      by_cases hcontrol : block.control = true
      · rw [if_pos hcontrol] at hwalk
        cases hfold : block.frames.foldlM (keepFrame spec drops) st.flush with
        | error err =>
          rw [hfold] at hwalk
          cases hwalk
        | ok next =>
          rw [hfold] at hwalk
          cases hwalk
          exact (foldlM_keepFrame_walked hfold).flush_left.flush_right
      · rw [if_neg hcontrol] at hwalk
        exact foldlM_keepFrame_walked hwalk

theorem foldlM_walkBlock_walked {blocks : List Block}
    (hfold : blocks.foldlM (walkBlock (keepFrame spec drops) (wholeBlock spec drops)) st =
        .ok st') :
    Walked spec drops (blocks.flatMap Block.frames)
      (blocks.flatMap (visitedOfBlock spec drops st.writer.blockMode))
      st st' := by
  induction blocks generalizing st with
  | nil =>
    cases hfold
    exact Walked.nil spec drops _
  | cons block blocks ih =>
    obtain ⟨next, hwalk, hrest⟩ := Runs.foldlM_cons_ok hfold
    have hhead := walkBlock_walked hwalk
    have htail := ih hrest
    rw [hhead.blockMode] at htail
    exact hhead.append htail

theorem rewriteWalk_walked {layout : Layout}
    (hwalk : rewriteWalk (keepFrame spec drops) (wholeBlock spec drops) layout st = .ok st') :
    Walked spec drops layout.frames (visited spec drops st.writer.blockMode layout) st st' := by
  cases layout with
  | raw frames => exact foldlM_keepFrame_walked hwalk
  | blocks blocks => exact foldlM_walkBlock_walked hwalk

/-! ## The whole segment -/

/-- The frames a rewrite puts through `keep`, with the mode of the working
copy it opens. -/
def visitedBy (spec : CleanSpec) (drops : Option DropSet) (seg : Segment) :
    List Frame :=
  visited spec drops seg.encodesBlocks seg.layout

/-- What `cleanSegment` leaves of a segment, and what it stamps. -/
structure CleanSpecOk (spec : CleanSpec) (seg : Segment)
    (drops : Option DropSet) (result : CleanResult) : Prop where
  frames : result.outcome.frames seg = seg.frames.filterMap (rewriteFrame spec drops)
  identity : ∀ seg', result.outcome.segment seg = some seg' →
    seg'.baseOffset = seg.baseOffset ∧ seg'.tier = seg.tier ∧ seg'.encodesBlocks = seg.encodesBlocks
  emptied : result.outcome.segment seg = none → seg.frames.filterMap (rewriteFrame spec drops) = []
  replaced : ∀ seg', result.outcome = .replaced seg' → seg'.frames ≠ []
  stamp : ∃ residual : Bool, (residual = true ↔ ∃ frame ∈ visitedBy spec drops seg,
      leavesResidual spec drops frame = true) ∧
    (result.stamp, result.stampHdrs) = stampOf spec residual

theorem cleanSegment_spec (hclean : cleanSegment spec seg drops = .ok result) :
    CleanSpecOk spec seg drops result := by
  unfold cleanSegment at hclean
  cases hwalk : rewriteWalk (keepFrame spec drops) (wholeBlock spec drops)
      seg.layout (Rewrite.start seg.encodesBlocks) with
  | error err =>
    rw [hwalk] at hclean
    cases hclean
  | ok st =>
    rw [hwalk] at hclean
    have hwalked := rewriteWalk_walked hwalk
    have houtput : st.writer.flush.frames = seg.frames.filterMap (rewriteFrame spec drops) := by
      rw [BlockWriter.frames_flush, hwalked.output]
      simp [Rewrite.start, BlockWriter.frames, Segment.frames]
    have hlayout : st.writer.flush.layout.frames =
        seg.frames.filterMap (rewriteFrame spec drops) := by
      rw [BlockWriter.frames_layout (by simp), houtput]
    have hstamp : ∃ residual : Bool, (residual = true ↔ ∃ frame ∈ visitedBy spec drops seg,
          leavesResidual spec drops frame = true) ∧
        stampOf spec st.residualStrippable = stampOf spec residual := by
      refine ⟨st.residualStrippable, ?_, rfl⟩
      have hresidual := hwalked.residual
      simpa [Rewrite.start, visitedBy] using hresidual
    change Except.ok _ = Except.ok result at hclean
    have hresult := Except.ok.inj hclean
    by_cases hempty : st.writer.flush.frames = []
    · rw [if_pos hempty] at hresult
      rw [← hresult]
      refine ⟨?_, ?_, ?_, ?_, hstamp⟩
      · rw [← houtput, hempty]
        rfl
      · intro seg' hseg
        cases hseg
      · intro _
        rw [← houtput, hempty]
      · intro seg' hseg
        cases hseg
    · rw [if_neg hempty] at hresult
      by_cases hconverged : st.removed = 0 ∧ st.stripped = 0 ∧ seg.needsBlockConsolidation = false
      · have hsame := hwalked.unchanged hconverged.1 hconverged.2.1
        rw [if_pos hconverged] at hresult
        rw [← hresult]
        refine ⟨?_, ?_, ?_, ?_, hstamp⟩
        · exact hsame.symm
        · intro seg' hseg
          cases hseg
          exact ⟨rfl, rfl, rfl⟩
        · intro hseg
          cases hseg
        · intro seg' hseg
          cases hseg
      · rw [if_neg hconverged] at hresult
        rw [← hresult]
        refine ⟨?_, ?_, ?_, ?_, hstamp⟩
        · exact hlayout
        · intro seg' hseg
          cases hseg
          exact ⟨rfl, rfl, rfl⟩
        · intro hseg
          cases hseg
        · intro seg' hseg hnil
          cases hseg
          apply hempty
          rw [houtput, ← hlayout]
          exact hnil

/-! ## The rewritten segment -/

theorem offset_of_rewriteFrame {frame : Frame}
    (hrewrite : rewriteFrame spec drops frame = some frame') : frame'.offset = frame.offset := by
  unfold rewriteFrame at hrewrite
  split at hrewrite
  · cases hrewrite
  · cases hrewrite
    rfl
  · split at hrewrite
    · cases hrewrite
      rfl
    · cases hrewrite
      rfl

theorem length_of_rewriteFrame {frame : Frame}
    (hrewrite : rewriteFrame spec drops frame = some frame') :
    frame' = frame ∨ frame'.length < frame.length := by
  unfold rewriteFrame at hrewrite
  split at hrewrite
  · cases hrewrite
  · cases hrewrite
    exact Or.inl rfl
  · split at hrewrite
    next hstrip =>
      cases hrewrite
      exact Or.inr (length_reframe_lt ((Bool.and_eq_true _ _).mp hstrip).2)
    · cases hrewrite
      exact Or.inl rfl

theorem framingLen_filterMap_rewriteFrame (spec : CleanSpec)
    (drops : Option DropSet) (frames : List Frame) :
    frames.filterMap (rewriteFrame spec drops) = frames ∨
      framingLen (frames.filterMap (rewriteFrame spec drops)) <
        framingLen frames := by
  induction frames with
  | nil => exact Or.inl rfl
  | cons frame frames ih =>
    have hle : framingLen (frames.filterMap (rewriteFrame spec drops)) ≤
        framingLen frames := by
      rcases ih with heq | hlt
      · rw [heq]
      · exact hlt.le
    have hpos := frame.length_pos
    cases hrewrite : rewriteFrame spec drops frame with
    | none =>
      right
      rw [filterMap_cons_none hrewrite, framingLen_cons]
      omega
    | some frame' =>
      rw [filterMap_cons_some hrewrite, framingLen_cons, framingLen_cons]
      rcases length_of_rewriteFrame hrewrite with heq | hlt
      · rw [heq]
        rcases ih with hsame | hless
        · exact Or.inl (by rw [hsame])
        · exact Or.inr (by omega)
      · exact Or.inr (by omega)

theorem cleanSegment_frames (hclean : cleanSegment spec seg drops = .ok result)
    (hsegment : result.outcome.segment seg = some seg') :
    seg'.frames = seg.frames.filterMap (rewriteFrame spec drops) := by
  have hout := (cleanSegment_spec hclean).frames
  unfold CleanOutcome.frames at hout
  simpa [hsegment] using hout

theorem cleanSegment_position (hclean : cleanSegment spec seg drops = .ok result)
    (hsegment : result.outcome.segment seg = some seg') :
    seg'.frames = seg.frames ∨ seg'.position < seg.position := by
  unfold Segment.position
  rw [cleanSegment_frames hclean hsegment]
  exact framingLen_filterMap_rewriteFrame spec drops seg.frames

theorem cleanSegment_origin {spec : CleanSpec} {seg seg' : Segment} {drops : Option DropSet}
    {result : CleanResult} (hclean : cleanSegment spec seg drops = .ok result)
    (hsegment : result.outcome.segment seg = some seg') {frame' : Frame}
    (hframe' : frame' ∈ seg'.frames) : ∃ frame ∈ seg.frames, frame'.offset = frame.offset := by
  rw [cleanSegment_frames hclean hsegment, mem_filterMap] at hframe'
  obtain ⟨frame, hframe, hrewrite⟩ := hframe'
  exact ⟨frame, hframe, offset_of_rewriteFrame hrewrite⟩

theorem cleanSegment_wellFormed (hclean : cleanSegment spec seg drops = .ok result)
    (hsegment : result.outcome.segment seg = some seg') (hwf : seg.WellFormed) :
    seg'.WellFormed ∧ seg'.nextOffset ≤ seg.nextOffset := by
  have hspec := cleanSegment_spec hclean
  have hbase := (hspec.identity seg' hsegment).1
  have hframes := cleanSegment_frames hclean hsegment
  have horigin := fun frame' hframe' =>
    @cleanSegment_origin spec seg seg' drops result hclean hsegment frame' hframe'
  have hwf' : seg'.WellFormed := by
    refine ⟨by rw [hbase]; exact hwf.base_nonneg, ?_, ?_⟩
    · rw [hframes]
      refine hwf.ordered.filterMap _ ?_
      intro a b hab a' ha b' hb
      rw [offset_of_rewriteFrame ha, offset_of_rewriteFrame hb]
      exact hab
    · intro frame' hframe'
      obtain ⟨frame, hframe, hoffset⟩ := horigin frame' hframe'
      rw [hbase, hoffset]
      exact hwf.base_le frame hframe
  refine ⟨hwf', Segment.nextOffset_le_of ?_ ?_⟩
  · rw [hbase]
    exact hwf.base_le_nextOffset
  · intro frame' hframe'
    obtain ⟨frame, hframe, hoffset⟩ := horigin frame' hframe'
    rw [hoffset]
    exact hwf.offset_lt_nextOffset hframe

end CommitLog
