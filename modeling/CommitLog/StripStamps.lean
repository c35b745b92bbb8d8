import CommitLog.CompactReference
import CommitLog.LogOps

/-!
# Strip stamps over histories

A scan that strips headers stamps the refreshed digest with the boundary it
verified, or with the largest offset when it saw nothing left to strip, and
later passes skip the segment on that word.  The scan does not look at
everything the stamp vouches for: records between the ceiling and the strip
boundary are retained unexamined, and blocks carried over whole are not
examined above the boundary.  Where neither holds a strip header, a skipped
segment is one a rewrite would have left as it is.
-/

namespace CommitLog

open List

variable {log : LogView} {seg : Segment} {spec : CleanSpec} {drops : Option DropSet}

/-! ## A rewrite that changes nothing -/

theorem foldlM_ok {σ α ε : Type*} {f : σ → α → Except ε σ} {items : List α}
    (hok : ∀ a ∈ items, ∀ s, ∃ s', f s a = .ok s') (s : σ) : ∃ s', items.foldlM f s = .ok s' := by
  induction items generalizing s with
  | nil => exact ⟨s, rfl⟩
  | cons a items ih =>
    obtain ⟨mid, hmid⟩ := hok a mem_cons_self s
    obtain ⟨s', hs'⟩ :=
      ih (fun b hb => hok b (mem_cons_of_mem _ hb)) mid
    refine ⟨s', ?_⟩
    rw [foldlM_cons, hmid]
    exact hs'

section Unchanged

variable {spec : CleanSpec} {drops : Option DropSet}

theorem keepFrame_ok {frame : Frame} (hstrip : classify spec drops frame = .strip →
      frame.crcMatches = true →
      frame.message.hasAnyHeader spec.stripHeaders = false)
    (st : Rewrite) : ∃ st', keepFrame spec drops st frame = .ok st' := by
  unfold keepFrame
  cases hclass : classify spec drops frame with
  | remove => exact ⟨_, rfl⟩
  | retain => exact ⟨_, rfl⟩
  | strip =>
    cases hcrc : frame.crcMatches with
    | false =>
      rw [stripFrame_eq_corrupt.mpr hcrc]
      exact ⟨_, rfl⟩
    | true =>
      have hnone : stripFrame frame spec.stripHeaders = .ok none := by
        simp [stripFrame, hcrc, hstrip hclass hcrc]
      rw [hnone]
      exact ⟨_, rfl⟩

theorem walkBlock_ok {block : Block} (hkeep : ∀ frame ∈ block.frames, ∀ st,
      ∃ st', keepFrame spec drops st frame = .ok st') (st : Rewrite) :
    ∃ st', walkBlock (keepFrame spec drops) (wholeBlock spec drops) st block = .ok st' := by
  unfold walkBlock
  split
  · exact foldlM_ok hkeep st
  · split
    · exact ⟨_, rfl⟩
    · split
      · obtain ⟨st', hst'⟩ := foldlM_ok hkeep st.flush
        exact ⟨st'.flush, by rw [hst']; rfl⟩
      · exact foldlM_ok hkeep st

theorem cleanSegment_ok
    (hstrip : ∀ frame ∈ seg.frames, classify spec drops frame = .strip → frame.crcMatches = true →
      frame.message.hasAnyHeader spec.stripHeaders = false) :
    ∃ result, cleanSegment spec seg drops = .ok result := by
  have hkeep : ∀ frame ∈ seg.frames, ∀ st, ∃ st', keepFrame spec drops st frame = .ok st' :=
    fun frame hframe st => keepFrame_ok (hstrip frame hframe) st
  have hwalk : ∃ st, rewriteWalk (keepFrame spec drops) (wholeBlock spec drops) seg.layout
        (Rewrite.start seg.encodesBlocks) = .ok st := by
    unfold Segment.frames at hkeep
    cases hlayout : seg.layout with
    | raw frames =>
      rw [hlayout] at hkeep
      exact foldlM_ok hkeep _
    | blocks bs =>
      rw [hlayout] at hkeep
      apply foldlM_ok
      intro block hblock st
      apply walkBlock_ok
      intro frame hframe
      exact hkeep frame (mem_flatMap.mpr ⟨block, hblock, hframe⟩)
  obtain ⟨st, hst⟩ := hwalk
  unfold cleanSegment
  rw [hst]
  exact ⟨_, rfl⟩

end Unchanged

theorem cleanSegment_of_canSkip {env : PassEnv} {merged : MergeResult} (hfaithful : log.Faithful)
    (hstamps : log.StampsHonest) (hmerged : mergeLog spec env log = .ok merged) {c : Candidate}
    (hc : c ∈ candidatesOf log) (hskip : canSkip spec c.digest merged c.index = true) :
    ∃ result, cleanSegment spec c.seg (merged.drops c.index) = .ok result ∧
      result.outcome.frames c.seg = c.seg.frames := by
  have hmergedFor := mergeLog_spec hfaithful hmerged
  have hget := candidate_getElem? hc
  have hwf := candidate_wellFormed hfaithful hc
  have hdescribes := candidate_describes hfaithful hc
  have hhonest := candidate_stampHonest hfaithful hstamps hc
  have hremoves : ∀ frame ∈ c.seg.frames,
      removes spec env.now (recordsOf log.segments) frame = false :=
    fun frame hframe => removes_of_canSkip hmergedFor hget hwf hdescribes hskip hframe
  have hstrips : ∀ frame ∈ c.seg.frames, strips spec frame = false :=
    fun frame hframe => strips_of_canSkip hmergedFor hget hwf hdescribes hhonest hskip hframe
  have hsound : ∀ frame ∈ c.seg.frames, classify spec (merged.drops c.index) frame = .strip →
      frame.crcMatches = true →
      frame.message.hasAnyHeader spec.stripHeaders = false := by
    intro frame hframe hclass hcrc
    have hstays : classify spec (merged.drops c.index) frame ≠ .remove := by
      rw [hclass]
      simp
    obtain ⟨hceiling, hdata, hbelow, _⟩ :=
      (classify_eq_strip_iff hstays).mp hclass
    have hnot := hstrips frame hframe
    simpa [strips, hceiling, hdata, hbelow, hcrc] using hnot
  obtain ⟨result, hresult⟩ := cleanSegment_ok hsound
  refine ⟨result, hresult, ?_⟩
  have hkept : ∀ frame ∈ c.seg.frames,
      rewriteFrame spec (merged.drops c.index) frame = some frame := by
    intro frame hframe
    rw [rewriteFrame_eq_fate hmergedFor hget hframe]
    simp [fate, hremoves frame hframe, hstrips frame hframe]
  rw [(cleanSegment_spec hresult).frames, filterMap_congr hkept, filterMap_some]

/-! ## What a stamp has to answer for -/

def stripTarget (spec : CleanSpec) (frame : Frame) : Bool :=
  !frame.isControl && frame.crcMatches && frame.message.hasAnyHeader spec.stripHeaders

def Segment.carriedBlocks (seg : Segment) : List Block :=
  match seg.layout with
  | .raw _ => []
  | .blocks bs =>
    if seg.encodesBlocks then bs.filter fun block => !block.mergeable
    else []

/-- The strip targets of a sealed segment are where the scan looks: none lies
between the ceiling and the strip boundary, and none above the boundary in a
block that may be carried over whole. -/
structure TargetsInView (spec : CleanSpec) (seg : Segment) : Prop where
  gap : ∀ frame ∈ seg.frames, spec.ceiling ≤ frame.offset →
    frame.offset < spec.stripBelow → stripTarget spec frame = false
  carried : ∀ block ∈ seg.carriedBlocks, ∀ frame ∈ block.frames,
    spec.stripBelow ≤ frame.offset → stripTarget spec frame = false

theorem mem_visitedBy (spec : CleanSpec) (drops : Option DropSet) {frame : Frame}
    (hframe : frame ∈ seg.frames) :
    frame ∈ visitedBy spec drops seg ∨ ∃ block ∈ seg.carriedBlocks, frame ∈ block.frames := by
  unfold visitedBy Segment.carriedBlocks
  unfold Segment.frames at hframe
  cases hlayout : seg.layout with
  | raw frames =>
    rw [hlayout] at hframe
    exact Or.inl hframe
  | blocks bs =>
    rw [hlayout] at hframe
    obtain ⟨block, hblock, hmem⟩ := mem_flatMap.mp hframe
    by_cases hwhole : passesWhole spec drops seg.encodesBlocks block = true
    · right
      simp only [passesWhole, Bool.and_eq_true, Bool.not_eq_true'] at hwhole
      refine ⟨block, ?_, hmem⟩
      simp [hwhole.2, hblock, hwhole.1.1]
    · left
      apply mem_flatMap.mpr
      refine ⟨block, hblock, ?_⟩
      rw [visitedOfBlock, if_neg hwhole]
      exact hmem

theorem ceiling_le_of_retain {frame : Frame} (hactive : spec.stripActive = true)
    (hclass : classify spec drops frame = .retain) (hdata : frame.isControl = false)
    (hbelow : frame.offset < spec.stripBelow) : spec.ceiling ≤ frame.offset := by
  by_contra hceiling
  have hstays : classify spec drops frame ≠ .remove := by
    rw [hclass]
    simp
  have hheaders : spec.stripHeaders ≠ [] := by
    simp only [CleanSpec.stripActive, Bool.and_eq_true, Bool.not_eq_true',
      isEmpty_eq_false_iff] at hactive
    exact hactive.2
  have hstrip := (classify_eq_strip_iff hstays).mpr ⟨by omega, hdata, hbelow, hheaders⟩
  rw [hclass] at hstrip
  cases hstrip

theorem stripTarget_of_retain {residual : Bool} (hview : TargetsInView spec seg)
    (hactive : spec.stripActive = true)
    (hresidual : residual = true ↔ ∃ frame ∈ visitedBy spec drops seg,
      leavesResidual spec drops frame = true)
    {frame : Frame} (hframe : frame ∈ seg.frames)
    (hclass : classify spec drops frame = .retain)
    (hdata : frame.isControl = false)
    (hbelow : frame.offset <
      if residual then spec.stripBelow else maxInt64) :
    stripTarget spec frame = false := by
  by_cases hunder : frame.offset < spec.stripBelow
  · exact hview.gap frame hframe (ceiling_le_of_retain hactive hclass hdata hunder) hunder
  · have hat : spec.stripBelow ≤ frame.offset := by omega
    cases residual with
    | true =>
      simp only [if_true] at hbelow
      omega
    | false =>
      rcases mem_visitedBy spec drops hframe with
        hvisited | ⟨block, hblock, hmem⟩
      · have hquiet : leavesResidual spec drops frame = false := by
          rw [Bool.eq_false_iff]
          intro hleaves
          cases hresidual.mpr ⟨frame, hvisited, hleaves⟩
        simp only [leavesResidual, hclass, hactive, hdata, hat,
          Bool.not_false, Bool.true_and, decide_true] at hquiet
        simp [stripTarget, hquiet]
      · exact hview.carried block hblock frame hmem hat

theorem cleanSegment_stampHonest {new : Segment} {result : CleanResult} (hwf : seg.WellFormed)
    (hview : spec.stripActive = true → TargetsInView spec seg)
    (hclean : cleanSegment spec seg drops = .ok result)
    (hsegment : result.outcome.segment seg = some new) (digest : KeyDigest) :
    (digest.withStamp result.stamp result.stampHdrs).StampHonest
      new.frames := by
  have hspec := cleanSegment_spec hclean
  have hframes := hspec.frames
  unfold CleanOutcome.frames at hframes
  rw [hsegment] at hframes
  change new.frames = _ at hframes
  obtain ⟨residual, hresidual, hstamp⟩ := hspec.stamp
  intro frame' hframe' hdata hcrc hbelow
  change frame'.offset < result.stamp at hbelow
  change frame'.message.hasAnyHeader result.stampHdrs = false
  rw [hframes] at hframe'
  obtain ⟨frame, hframe, hrewrite⟩ := mem_filterMap.mp hframe'
  have hnonneg := hwf.offset_nonneg hframe
  have hoffset := offset_of_rewriteFrame hrewrite
  cases hactive : spec.stripActive with
  | false =>
    have hstampOff : result.stamp = -1 := by
      rw [stampOf, hactive] at hstamp
      exact congrArg Prod.fst hstamp
    omega
  | true =>
    have hstampOn : result.stamp = (if residual then spec.stripBelow else maxInt64) ∧
        result.stampHdrs = spec.stripHeaders := by
      rw [stampOf, hactive] at hstamp
      exact ⟨congrArg Prod.fst hstamp, congrArg Prod.snd hstamp⟩
    rw [hstampOn.2]
    unfold rewriteFrame at hrewrite
    cases hclass : classify spec drops frame with
    | remove =>
      rw [hclass] at hrewrite
      cases hrewrite
    | strip =>
      simp only [hclass] at hrewrite
      split at hrewrite
      · cases hrewrite
        exact Message.hasAnyHeader_withoutHeaders _ _
      next hkeeps =>
        cases hrewrite
        simpa [hcrc] using hkeeps
    | retain =>
      simp only [hclass] at hrewrite
      cases hrewrite
      have hclear := stripTarget_of_retain (hview hactive) hactive
        hresidual hframe hclass hdata (hstampOn.1 ▸ hbelow)
      simpa [stripTarget, hdata, hcrc] using hclear

/-! ## Histories -/

/-- What a pass has to find for its stamps to be honest. -/
structure StampSafe (spec : CleanSpec) (now : ℤ) (log : LogView) : Prop where
  view : spec.stripActive = true → ∀ seg ∈ log.sealedSegs, TargetsInView spec seg
  spares : SparesOneBlockObjects spec now log

def StampStep (log : LogView) (op : LogOp) (log' : LogView) : Prop :=
  LogStep log op log' ∧
    match op with
    | .append _ => True
    | .roll _ => True
    | .pass spec env => StampSafe spec env.now log
    | _ => False

structure DigestsHonest (log : LogView) : Prop where
  ordered : LogOrdered log.segments
  stored : log.Stored fun digest frames =>
    digest.Describes frames ∧ digest.StampHonest frames
  unsealed : ∀ base, log.active.baseOffset ≤ base → log.keys base = none

theorem DigestsHonest.of_no_keys (hordered : LogOrdered log.segments)
    (hkeys : ∀ base, log.keys base = none) : DigestsHonest log :=
  ⟨hordered, LogView.Stored.of_no_keys hkeys, fun base _ => hkeys base⟩

section

variable (hhonest : DigestsHonest log)
include hhonest

theorem DigestsHonest.good_of_load (hmem : seg ∈ log.sealedSegs) {digest : KeyDigest}
    (hload : loadKeyDigest (log.keys seg.baseOffset) seg = some digest) :
    digest.Describes seg.frames ∧ digest.StampHonest seg.frames := by
  have hstored := (loadKeyDigest_eq_some hload).1
  rw [hstored] at hload
  exact (hhonest.stored seg hmem digest hstored).of_load hload

theorem DigestsHonest.faithful : log.Faithful :=
  ⟨hhonest.ordered, fun _ hmem _ hload =>
    (hhonest.good_of_load hmem hload).1⟩

theorem DigestsHonest.stampsHonest : log.StampsHonest :=
  fun _ hmem _ hload => (hhonest.good_of_load hmem hload).2

theorem DigestsHonest.append {block : Block}
    (happend : log.appendable block) : DigestsHonest (log.append block) :=
  ⟨LogView.append_ordered hhonest.ordered happend, hhonest.stored, hhonest.unsealed⟩

theorem DigestsHonest.roll (hnonempty : log.active.frames ≠ []) (encodesBlocks : Bool) :
    DigestsHonest (log.roll encodesBlocks) := by
  have hwf := hhonest.ordered.wellFormed log.active (by simp [LogView.segments])
  refine ⟨LogView.roll_ordered hhonest.ordered hnonempty encodesBlocks, ?_, ?_⟩
  · intro seg hseg digest hdigest
    rcases mem_append.mp hseg with hin | hin
    · exact hhonest.stored seg hin digest hdigest
    · rw [mem_singleton.mp hin] at hdigest
      have hnone := hhonest.unsealed log.active.baseOffset le_rfl
      rw [show (log.roll encodesBlocks).keys = log.keys from rfl, hnone] at hdigest
      cases hdigest
  · intro base hbase
    exact hhonest.unsealed base (hwf.base_le_nextOffset.trans hbase)

theorem DigestsHonest.compactSpec {env : PassEnv} (hsafe : StampSafe spec env.now log)
    {result : PassResult} (hpass : compactSpec spec env log = .ok result) :
    DigestsHonest result.log := by
  have hordered := compactSpec_ordered hhonest.ordered hpass
  unfold CommitLog.compactSpec at hpass
  split at hpass
  · cases hpass
    exact hhonest
  · obtain ⟨merged, hmerged, hlog, _⟩ := compact_eq_ok hpass
    have hmergedFor := mergeLog_spec hhonest.faithful hmerged
    rw [hlog] at hordered ⊢
    refine ⟨hordered, ?_, ?_⟩
    · apply stored_keysAfter hhonest.ordered hhonest.stored
      · intro c hc
        exact ⟨buildKeyDigest_describes c.seg, buildKeyDigest_stampHonest
          (candidate_wellFormed hhonest.faithful hc)⟩
      · intro c hc cleaned new frames hclean hsegment hscan
        rw [refreshScan_frames hmergedFor hsafe.spares hc hclean hsegment] at hscan
        cases hscan
        have hmem := mem_of_getElem? (mem_candidatesOf.mp hc).1
        refine ⟨(digestOfScan_describes _ _ _ _).withStamp _ _, ?_⟩
        exact cleanSegment_stampHonest (candidate_wellFormed hhonest.faithful hc)
          (fun hactive => hsafe.view hactive c.seg hmem) hclean hsegment _
    · intro base hbase
      change log.active.baseOffset ≤ base at hbase
      change keysAfter spec env log merged base = none
      rw [keysAfter_other]
      · exact hhonest.unsealed base hbase
      · intro c hc heq
        have hmem := mem_of_getElem? (mem_candidatesOf.mp hc).1
        have hlt := (pairwise_append.mp
          hhonest.ordered.increasing).2.2 c.seg hmem log.active (by simp)
        omega

theorem DigestsHonest.step {log' : LogView} {op : LogOp} (hstep : StampStep log op log') :
    DigestsHonest log' := by
  obtain ⟨hlog, hsafe⟩ := hstep
  cases op with
  | append block =>
    rw [hlog.2]
    exact hhonest.append hlog.1
  | roll encodesBlocks =>
    rw [hlog.2]
    exact hhonest.roll hlog.1 encodesBlocks
  | pass spec env =>
    obtain ⟨result, hpass, hresult⟩ := hlog
    rw [← hresult]
    exact hhonest.compactSpec hsafe hpass
  | consolidate => exact hsafe.elim
  | offload => exact hsafe.elim
  | reopen => exact hsafe.elim
  | join => exact hsafe.elim
  | truncate => exact hsafe.elim
  | truncateBefore => exact hsafe.elim

end

def skippedBy (spec : CleanSpec) (env : PassEnv) (log : LogView) :
    List (Candidate × Option DropSet) :=
  match mergeLog spec env log with
  | .error _ => []
  | .ok merged =>
    ((candidatesOf log).filter fun c =>
      canSkip spec c.digest merged c.index).map fun c =>
        (c, merged.drops c.index)

/-- After any history of appends, rolls and passes that are safe to stamp, a
rewrite of a segment that a pass skips would keep its records as they are. -/
theorem skipped_segments_unchanged {start log : LogView} {ops : List LogOp}
    (hordered : LogOrdered start.segments) (hkeys : ∀ base, start.keys base = none)
    (hrun : Runs.Run StampStep start ops log) (spec : CleanSpec) (env : PassEnv) :
    ∀ entry ∈ skippedBy spec env log, ∃ result, cleanSegment spec entry.1.seg entry.2 = .ok result ∧
        result.outcome.frames entry.1.seg = entry.1.seg.frames := by
  have hhonest : DigestsHonest log :=
    hrun.invariant (fun _ _ _ h hstep => h.step hstep) (DigestsHonest.of_no_keys hordered hkeys)
  intro entry hentry
  unfold skippedBy at hentry
  cases hmerged : mergeLog spec env log with
  | error err =>
    rw [hmerged] at hentry
    cases hentry
  | ok merged =>
    rw [hmerged] at hentry
    obtain ⟨c, hc, heq⟩ := mem_map.mp hentry
    obtain ⟨hmem, hskip⟩ := mem_filter.mp hc
    rw [← heq]
    exact cleanSegment_of_canSkip hhonest.faithful hhonest.stampsHonest hmerged hmem hskip

/-! ## Stamps that overreach -/

def stripPass (ceiling stripBelow : ℤ) : CleanSpec :=
  { sampleSpec ceiling with stripBelow := stripBelow, stripHeaders := [[1]] }

/-- A plain record and one with a strip header. -/
def stampLog : LogView where
  sealedSegs := [sampleSegment 0 [sampleFrame 0 1 0 none Headers.empty,
      sampleFrame 1 1 0 none sampleHeaders]]
  active := sampleSegment 2 [sampleFrame 2 1 0 none Headers.empty]
  keys := fun _ => none

/-- The same headers in two blocks, of which the second must not be
merged. -/
def carriedLog : LogView where
  sealedSegs := [⟨0, .blocks [Block.ofFrames [sampleFrame 0 1 0 none sampleHeaders],
      ⟨.v3, false, false, [sampleFrame 1 1 0 none sampleHeaders]⟩],
    true, false, none⟩]
  active := sampleSegment 2 [sampleFrame 2 1 0 none Headers.empty]
  keys := fun _ => none

def skipsChanged (spec : CleanSpec) (env : PassEnv) (log : LogView) : Bool :=
  (skippedBy spec env log).any fun entry =>
    match cleanSegment spec entry.1.seg entry.2 with
    | .error _ => true
    | .ok result =>
      decide (result.outcome.frames entry.1.seg ≠ entry.1.seg.frames)

/-- Two logs whose first pass stamps a digest over a strip header it did not
look at: a record between ceiling and boundary, and a record above the
boundary in a block carried over whole. -/
theorem stamp_covers_strip_header : LogOrdered stampLog.segments ∧ LogOrdered carriedLog.segments ∧
      skipsChanged (stripPass 2 2) sampleEnv (passLog (stripPass 1 2, sampleEnv) stampLog) = true ∧
      skipsChanged (stripPass 2 2) sampleEnv
        (passLog (stripPass 2 1, sampleEnv) carriedLog) = true := by
  decide +kernel

/-- With the boundary at the ceiling the first pass strips the header, and the
second skips the segment. -/
theorem skipped_segments_unchanged_stampLog : skippedBy (stripPass 2 2) sampleEnv
        (passLog (stripPass 2 2, sampleEnv) stampLog) ≠ [] ∧
      ∀ entry ∈ skippedBy (stripPass 2 2) sampleEnv
          (passLog (stripPass 2 2, sampleEnv) stampLog), ∃ result,
        cleanSegment (stripPass 2 2) entry.1.seg entry.2 = .ok result ∧
          result.outcome.frames entry.1.seg = entry.1.seg.frames := by
  have hsafe : StampSafe (stripPass 2 2) sampleEnv.now stampLog := by
    constructor
    · intro _ seg hseg
      rw [mem_singleton.mp hseg]
      constructor <;> decide +kernel
    · unfold SparesOneBlockObjects
      decide +kernel
  have hstep : StampStep stampLog (.pass (stripPass 2 2) sampleEnv)
      (passLog (stripPass 2 2, sampleEnv) stampLog) := by
    refine ⟨?_, hsafe⟩
    have heval : (compactSpec (stripPass 2 2) sampleEnv
        stampLog).toOption.map PassResult.failed = some false := by
      decide +kernel
    obtain ⟨result, hresult, _⟩ := Runs.exists_ok_of_toOption heval
    exact ⟨result, hresult, by simp [passLog, hresult]⟩
  have hnonempty : (skippedBy (stripPass 2 2) sampleEnv
      (passLog (stripPass 2 2, sampleEnv) stampLog)).isEmpty = false := by
    decide +kernel
  refine ⟨by simpa using hnonempty, ?_⟩
  exact skipped_segments_unchanged (by decide +kernel) (fun _ => rfl)
    (Runs.Run.single hstep) (stripPass 2 2) sampleEnv

end CommitLog
