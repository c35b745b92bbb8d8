import CommitLog.CarriedBlocks

/-!
# What consolidation leaves

Consolidation packs the mergeable blocks of a segment anew, but never across a
block it must carry whole.  Each stretch between two such blocks is packed on
its own and may end with a small block, so the blocks that are left depend on
the number of stretches and not on the size of the segment alone.
-/

namespace CommitLog

open BlockWriter List

/-- The frames of the mergeable blocks between two that are not; `cur` are
those of the stretch under way. -/
def stretches (cur : List Frame) : List Block → List (List Frame)
  | [] => [cur]
  | b :: blocks =>
    if b.mergeable then stretches (cur ++ b.frames) blocks
    else cur :: stretches [] blocks

def packs (frames : List Frame) : ℕ :=
  (write true frames).outBlocks.length

def packedCount (blocks : List Block) : ℕ :=
  ((stretches [] blocks).map packs).sum

/-! ## Packing one stretch -/

namespace BlockWriter

theorem flush_out (writer : BlockWriter) (out : List Block) :
    ({ writer with out := out ++ writer.out } : BlockWriter).flush =
      { writer.flush with out := out ++ writer.flush.out } := by
  unfold flush
  split <;> simp

theorem foldl_add_out (frames : List Frame) (writer : BlockWriter) (out : List Block) :
    frames.foldl add { writer with out := out ++ writer.out } = { frames.foldl add writer with
        out := out ++ (frames.foldl add writer).out } := by
  induction frames generalizing writer with
  | nil => rfl
  | cons frame frames ih =>
    have hadd : ({ writer with out := out ++ writer.out } : BlockWriter).add frame =
        { writer.add frame with out := out ++ (writer.add frame).out } := by
      unfold add
      dsimp only
      split
      · exact flush_out { writer with buf := writer.buf ++ [frame] } out
      · rfl
    rw [foldl_cons, hadd, ih, foldl_cons]

theorem blockMode_foldl_add (frames : List Frame) (writer : BlockWriter) :
    (frames.foldl add writer).blockMode = writer.blockMode := by
  induction frames generalizing writer with
  | nil => rfl
  | cons frame frames ih => rw [foldl_cons, ih, blockMode_add]

theorem length_out_eq_countP {writer : BlockWriter} (hcarried : writer.carried = []) :
    writer.out.countP Block.mergeable = writer.out.length := by
  rw [countP_eq_length]
  intro b hb
  by_contra hunmergeable
  have hin : b ∈ writer.carried := by
    simpa [carried, hb] using hunmergeable
  simp [hcarried] at hin

theorem target_le_foldl_add (frames : List Frame) {writer : BlockWriter}
    (hfull : cleanBlockTarget * writer.out.length ≤ framingLen (writer.out.flatMap Block.frames)) :
    cleanBlockTarget * (frames.foldl add writer).out.length ≤
      framingLen ((frames.foldl add writer).out.flatMap Block.frames) := by
  induction frames generalizing writer with
  | nil => exact hfull
  | cons frame frames ih =>
    rw [foldl_cons]
    apply ih
    unfold add
    dsimp only
    split
    next hreached =>
      have hbuf : writer.buf ++ [frame] ≠ [] := by simp
      simp only [flush, if_neg hbuf, length_append, length_singleton,
        flatMap_append, framingLen_append, flatMap_singleton,
        Block.frames_ofFrames, Nat.mul_add, Nat.mul_one] at hreached ⊢
      omega
    · exact hfull

end BlockWriter

/-- The writer at the end of a stretch, behind what was written before. -/
def packing (out : List Block) (frames : List Frame) : BlockWriter :=
  frames.foldl add ⟨true, out, []⟩

theorem packs_eq (frames : List Frame) : packs frames = (packing [] frames).flush.out.length := by
  have hmode : (packing [] frames).flush.blockMode = true := by
    rw [blockMode_flush, packing]
    exact blockMode_foldl_add frames _
  rw [packs, write, layout]
  simp only [packing] at hmode ⊢
  rw [if_pos hmode]
  rfl

theorem countP_packing (out : List Block) (frames : List Frame) :
    (packing out frames).flush.out.countP Block.mergeable =
      out.countP Block.mergeable + packs frames := by
  have hshift : packing out frames = { packing [] frames with
      out := out ++ (packing [] frames).out } := by
    have hfold := foldl_add_out frames ⟨true, [], []⟩ out
    simpa [packing] using hfold
  have hcarried : (packing [] frames).flush.carried = [] := by
    rw [carried_flush, packing, carried_foldl_add]
    rfl
  rw [hshift, flush_out, packs_eq]
  simp only [countP_append]
  rw [length_out_eq_countP hcarried]

theorem packs_le (frames : List Frame) :
    packs frames ≤ framingLen frames / cleanBlockTarget + 1 := by
  have hfull : cleanBlockTarget * (packing [] frames).out.length ≤
      framingLen ((packing [] frames).out.flatMap Block.frames) :=
    target_le_foldl_add frames (by simp)
  have hframes : (packing [] frames).frames = frames := by
    have hfold := frames_foldl_add frames ⟨true, [], []⟩
    simpa [packing, BlockWriter.frames] using hfold
  have hout : (packing [] frames).out.length ≤ framingLen frames / cleanBlockTarget := by
    rw [Nat.le_div_iff_mul_le (by decide), Nat.mul_comm]
    apply hfull.trans
    conv_rhs => rw [← hframes, BlockWriter.frames, framingLen_append]
    exact Nat.le_add_right _ _
  have hflush : (packing [] frames).flush.out.length ≤ (packing [] frames).out.length + 1 := by
    unfold flush
    split <;> simp
  rw [packs_eq]
  omega

/-! ## The walk over a segment -/

theorem foldlM_addFrame_eq (frames : List Frame) (st : Rewrite) : frames.foldlM addFrame st =
      .ok { st with writer := frames.foldl add st.writer } := by
  induction frames generalizing st with
  | nil => rfl
  | cons frame frames ih =>
    exact ih { st with writer := st.writer.add frame }

/-- From a stretch under way: the mergeable blocks at the end are those
written before and those the stretches are packed into. -/
theorem countP_walk (blocks : List Block) :
    ∀ (out : List Block) (cur : List Frame) (st st' : Rewrite), st.writer = packing out cur →
      blocks.foldlM (walkBlock addFrame fun _ => true) st = .ok st' →
      st'.writer.flush.out.countP Block.mergeable =
        out.countP Block.mergeable + ((stretches cur blocks).map packs).sum := by
  induction blocks with
  | nil =>
    intro out cur st st' hwriter hfold
    cases hfold
    simp [hwriter, countP_packing, stretches]
  | cons b blocks ih =>
    intro out cur st st' hwriter hfold
    obtain ⟨mid, hwalk, hrest⟩ := Runs.foldlM_cons_ok hfold
    have hmode : st.writer.blockMode = true := by
      rw [hwriter, packing]
      exact blockMode_foldl_add cur _
    cases hmergeable : b.mergeable with
    | true =>
      rw [walkBlock, if_pos hmergeable, foldlM_addFrame_eq] at hwalk
      cases hwalk
      have hcur : (b.frames.foldl add st.writer) = packing out (cur ++ b.frames) := by
        rw [hwriter, packing, packing, foldl_append]
      have hcount := ih out (cur ++ b.frames) _ st' hcur hrest
      simpa [stretches, hmergeable] using hcount
    | false =>
      rw [walkBlock, if_neg (by simp [hmergeable]), if_pos (by simp [hmode])] at hwalk
      cases hwalk
      have hnext : st.writer.flush.writeBlock b = packing (st.writer.flush.out ++ [b]) [] := by
        simp [packing, writeBlock, hmode]
      have hcount := ih _ [] _ st' hnext hrest
      rw [hwriter, countP_append, countP_packing] at hcount
      rw [hcount]
      simp [stretches, hmergeable]
      omega

theorem needsBlockConsolidation_raw {seg : Segment} {frames : List Frame}
    (hlayout : seg.layout = .raw frames) : seg.needsBlockConsolidation = false := by
  simp [Segment.needsBlockConsolidation, hlayout]

/-- The count of all blocks is no test of its own. -/
theorem needsBlockConsolidation_blocks {seg : Segment} {out : List Block}
    (hlayout : seg.layout = .blocks out) (hpending : seg.blocksPending = false) :
    seg.needsBlockConsolidation = true ↔ 1024 ≤ out.countP Block.mergeable ∧
        4 * (seg.position / cleanBlockTarget + 1) < out.countP Block.mergeable := by
  have hcount : out.countP Block.mergeable ≤ out.length := countP_le_length
  unfold Segment.needsBlockConsolidation
  simp only [hlayout, hpending, Bool.false_or, decide_eq_true_eq]
  split
  · simp only [Bool.false_eq_true, false_iff]
    omega
  · simp

theorem blocksPending_consolidateOne (seg : Segment) :
    (consolidateOne seg).blocksPending = false := by
  obtain ⟨st, -, -, hout⟩ := consolidateOne_eq seg
  rw [hout]

theorem layout_consolidateOne {seg : Segment} {blocks : List Block}
    (hlayout : seg.layout = .blocks blocks) :
    ∃ st, rewriteWalk addFrame (fun _ => true) (.blocks blocks)
        (.start seg.encodesBlocks) = .ok st ∧
      (consolidateOne seg).layout = if seg.encodesBlocks then
        .blocks st.writer.flush.out
        else .raw (st.writer.flush.out.flatMap Block.frames) := by
  obtain ⟨st, hwalk, -, hout⟩ := consolidateOne_eq seg
  rw [hlayout] at hwalk
  have hmode : st.writer.flush.blockMode = seg.encodesBlocks := by
    rw [blockMode_flush]
    exact (onlyAdds_addFrame.walk hwalk).2
  refine ⟨st, hwalk, ?_⟩
  rw [hout, layout, hmode]

theorem countP_consolidateOne {seg : Segment} {blocks : List Block}
    (hlayout : seg.layout = .blocks blocks) (hmode : seg.encodesBlocks = true) :
    ∃ out, (consolidateOne seg).layout = .blocks out ∧
      out.countP Block.mergeable = packedCount blocks := by
  obtain ⟨st, hwalk, hout⟩ := layout_consolidateOne hlayout
  rw [hmode] at hwalk hout
  refine ⟨st.writer.flush.out, hout, ?_⟩
  have hcount := countP_walk blocks [] [] (.start true) st rfl hwalk
  simpa [packedCount] using hcount

theorem sum_packs_le (blocks : List Block) (cur : List Frame) :
    ((stretches cur blocks).map packs).sum ≤
      (framingLen cur + framingLen (blocks.flatMap Block.frames)) / cleanBlockTarget +
        blocks.countP (fun b => !b.mergeable) + 1 := by
  induction blocks generalizing cur with
  | nil => simpa [stretches] using packs_le cur
  | cons b blocks ih =>
    cases hmergeable : b.mergeable with
    | true =>
      simpa [stretches, hmergeable, Nat.add_assoc] using ih (cur ++ b.frames)
    | false =>
      have hcur := packs_le cur
      have hrest := ih []
      have hdiv : framingLen cur / cleanBlockTarget +
          framingLen (blocks.flatMap Block.frames) / cleanBlockTarget ≤
          (framingLen cur + framingLen (blocks.flatMap Block.frames)) /
            cleanBlockTarget := Nat.div_add_div_le_add_div
      have hmono : (framingLen cur + framingLen (blocks.flatMap Block.frames)) / cleanBlockTarget ≤
          (framingLen cur + (framingLen b.frames +
            framingLen (blocks.flatMap Block.frames))) / cleanBlockTarget :=
        Nat.div_le_div_right (by omega)
      simp only [framingLen_nil, Nat.zero_add] at hrest
      simp only [stretches, hmergeable, map_cons, sum_cons, flatMap_cons, framingLen_append,
        Bool.false_eq_true, if_false, countP_cons, Bool.not_false, if_true]
      omega

/-- Consolidation is not due again exactly if the stretches are packed into
few blocks, few being what the code compares with.  They are at most one block
per target size, one per block carried whole, and one more. -/
theorem consolidateOne_converges_iff {seg : Segment} {blocks : List Block}
    (hlayout : seg.layout = .blocks blocks) :
    ((consolidateOne seg).needsBlockConsolidation = false ↔
        seg.encodesBlocks = false ∨ packedCount blocks < 1024 ∨
          packedCount blocks ≤ 4 * (seg.position / cleanBlockTarget + 1)) ∧
      packedCount blocks ≤ seg.position / cleanBlockTarget +
        blocks.countP (fun b => !b.mergeable) + 1 := by
  constructor
  · cases hmode : seg.encodesBlocks with
    | false =>
      obtain ⟨st, -, hout⟩ := layout_consolidateOne hlayout
      rw [hmode] at hout
      simp [needsBlockConsolidation_raw hout]
    | true =>
      obtain ⟨out, hout, hcount⟩ := countP_consolidateOne hlayout hmode
      have hneeds := needsBlockConsolidation_blocks hout (blocksPending_consolidateOne seg)
      have hposition : (consolidateOne seg).position = seg.position := by
        simp [Segment.position]
      rw [hcount, hposition] at hneeds
      rw [← Bool.not_eq_true, hneeds]
      simp only [Bool.true_eq_false, false_or]
      omega
  · have hbound := sum_packs_le blocks []
    simpa [packedCount, Segment.position, Segment.frames, hlayout, Layout.frames] using hbound

/-! ## A segment that does not converge -/

theorem packs_singleton (frame : Frame) : packs [frame] = 1 := by
  rw [packs_eq]
  simp only [packing, foldl_cons, foldl_nil, add]
  split <;> simp [flush]

/-- A small block, and one that still has its producer identity. -/
def blockPair (i : ℕ) : List Block :=
  [Block.ofFrames [storedFrame (2 * i)], ⟨.v3, false, false, [storedFrame (2 * i + 1)]⟩]

def alternating : Segment :=
  ⟨0, .blocks ((range 1024).flatMap blockPair), true, false, none⟩

theorem sum_packs_blockPair (l : List ℕ) :
    ((stretches [] (l.flatMap blockPair)).map packs).sum = l.length := by
  induction l with
  | nil => rfl
  | cons i l ih =>
    have hident : (⟨.v3, false, false, [storedFrame (2 * i + 1)]⟩ : Block).mergeable = false := rfl
    simp only [flatMap_cons, blockPair, cons_append, nil_append, stretches,
      Block.mergeable_ofFrames, hident, if_true, Bool.false_eq_true, if_false,
      Block.frames_ofFrames, map_cons, sum_cons, packs_singleton, ih, length_cons]
    omega

theorem framingLen_blockPair (l : List ℕ) :
    framingLen ((l.flatMap blockPair).flatMap Block.frames) =
      2 * (storedFrame 0).length * l.length := by
  induction l with
  | nil => rfl
  | cons i l ih =>
    have hlength : ∀ offset, (storedFrame offset).length = (storedFrame 0).length := fun _ => rfl
    simp only [flatMap_cons, flatMap_append, framingLen_append, ih]
    simp only [blockPair, flatMap_cons, flatMap_nil, append_nil, Block.frames_ofFrames,
      framingLen_cons, framingLen_append, framingLen_nil, hlength, length_cons]
    ring

/-- Small blocks between blocks that may not be merged stay as they are, and
consolidation is due again. -/
theorem alternating_not_converged :
    (consolidateOne alternating).needsBlockConsolidation = true := by
  have hlayout : alternating.layout = .blocks ((range 1024).flatMap blockPair) := rfl
  obtain ⟨out, hout, hcount⟩ := countP_consolidateOne hlayout rfl
  have hpacked : out.countP Block.mergeable = 1024 := by
    rw [hcount, packedCount, sum_packs_blockPair, length_range]
  have hposition : (consolidateOne alternating).position = 2 * (storedFrame 0).length * 1024 := by
    have hlen := framingLen_blockPair (range 1024)
    rw [length_range] at hlen
    rw [Segment.position, consolidateOne_frames]
    exact hlen
  rw [needsBlockConsolidation_blocks hout (blocksPending_consolidateOne _), hpacked, hposition]
  decide +kernel

theorem consolidateOne_converges_iff_identity :
    (consolidateOne (identitySegment 0)).needsBlockConsolidation = false :=
  (consolidateOne_converges_iff rfl).1.mpr (.inr (.inl (by decide +kernel)))

end CommitLog
