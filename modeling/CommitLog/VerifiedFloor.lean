import CommitLog.CompactReference
import Mathlib.Data.List.TakeWhile

/-!
# The verified floor

A pass returns the end of the longest run of oldest segments it rewrote or
found converged, capped below the strip boundary.  The floor promises that no
record at or below it carries a strip header, is a control record or is
aborted.  What the floor covers and what the pass stripped are decided by
different bounds, so the promise holds exactly for the logs that have nothing
in the gap between them.
-/

namespace CommitLog

open List

/-! ## The floor of the assembly -/

section Assembly

variable (spec : CleanSpec) (env : PassEnv) (merged : MergeResult)
  (loop : LoopResult)

/-- The assembly counts the segment as verified. -/
def settles (c : Candidate) : Bool :=
  match dispositionOf spec env merged c with
  | .keepProtected => false
  | .keepConverged => true
  | .wantRewrite => (loop.done c.index).isSome

/-- The end the assembly reads for a verified segment. -/
def settledEnd (c : Candidate) : ℤ :=
  match dispositionOf spec env merged c with
  | .wantRewrite => segEnd c (loop.done c.index)
  | _ => segEnd c none

theorem assembleOne_verified (acc : Assembly) (c : Candidate) :
    (assembleOne spec env merged loop acc c).chain =
        (acc.chain && settles spec env merged loop c) ∧
      (assembleOne spec env merged loop acc c).verified =
        if acc.chain && settles spec env merged loop c then
          settledEnd spec env merged loop c
        else acc.verified := by
  unfold assembleOne settles settledEnd
  cases dispositionOf spec env merged c with
  | keepProtected => simp
  | keepConverged => simp
  | wantRewrite =>
    cases loop.done c.index with
    | none => simp
    | some result => simp

theorem foldl_assembleOne_verified (items : List Candidate) (acc : Assembly) :
    (items.foldl (assembleOne spec env merged loop) acc).verified =
      if acc.chain then
        ((items.takeWhile (settles spec env merged loop)).getLast?.map
          (settledEnd spec env merged loop)).getD acc.verified
      else acc.verified := by
  induction items generalizing acc with
  | nil => simp
  | cons c items ih =>
    have hstep := assembleOne_verified spec env merged loop acc c
    rw [foldl_cons, ih, hstep.1, hstep.2]
    cases hchain : acc.chain with
    | false => simp
    | true =>
      cases hsettles : settles spec env merged loop c with
      | false => simp [hsettles]
      | true =>
        rw [takeWhile_cons_of_pos hsettles, getLast?_cons]
        cases (items.takeWhile
          (settles spec env merged loop)).getLast? with
        | none => simp
        | some last => simp

end Assembly

def settledRun (spec : CleanSpec) (env : PassEnv) (log : LogView)
    (merged : MergeResult) : List Candidate :=
  (candidatesOf log).takeWhile
    (settles spec env merged (runRewrites spec env log merged))

theorem assemble_verified (spec : CleanSpec) (env : PassEnv)
    (log : LogView) (merged : MergeResult) :
    (assemble spec env log merged).verified =
      ((settledRun spec env log merged).getLast?.map
        (settledEnd spec env merged
          (runRewrites spec env log merged))).getD (-1) := by
  unfold assemble settledRun
  rw [foldl_assembleOne_verified]
  simp

/-! ## Where a verified segment ends -/

section Ends

variable {spec : CleanSpec} {env : PassEnv} {log : LogView}
  {merged : MergeResult} {c : Candidate}

theorem settledEnd_cases (spec : CleanSpec) (env : PassEnv)
    (merged : MergeResult) (hmem : c ∈ candidatesOf log) :
    settledEnd spec env merged (runRewrites spec env log merged) c =
        c.seg.nextOffset - 1 ∨
      ∃ result seg',
        (runRewrites spec env log merged).installed c.index =
          some result ∧ result.outcome = .replaced seg' ∧
        cleanSegment spec c.seg (merged.drops c.index) = .ok result ∧
        settledEnd spec env merged (runRewrites spec env log merged) c =
          seg'.nextOffset - 1 := by
  unfold settledEnd
  cases hdisp : dispositionOf spec env merged c with
  | keepProtected => exact Or.inl rfl
  | keepConverged => exact Or.inl rfl
  | wantRewrite =>
    cases hdone : (runRewrites spec env log merged).done c.index with
    | none => exact Or.inl rfl
    | some result =>
      have hinstalled := LoopResult.installed_of_done hdone
      have hclean := (installed_candidate hmem hinstalled).2
      cases houtcome : result.outcome with
      | emptied => exact Or.inl (by simp [segEnd, houtcome])
      | converged => exact Or.inl (by simp [segEnd, houtcome])
      | replaced seg' =>
        by_cases hoffloaded : c.seg.isOffloaded = true
        · right
          exact ⟨result, seg', hinstalled, houtcome, hclean,
            by simp [segEnd, houtcome, hoffloaded]⟩
        · exact Or.inl (by simp [segEnd, houtcome, hoffloaded])

theorem settledEnd_lt_nextOffset (spec : CleanSpec) (env : PassEnv) (merged : MergeResult)
    (hfaithful : log.Faithful) (hmem : c ∈ candidatesOf log) :
    settledEnd spec env merged (runRewrites spec env log merged) c <
      c.seg.nextOffset := by
  rcases settledEnd_cases spec env merged hmem with hend |
    ⟨result, seg', _, houtcome, hclean, hend⟩
  · omega
  · have hsegment : result.outcome.segment c.seg = some seg' := by
      rw [houtcome]
      rfl
    have hshrink := (cleanSegment_wellFormed hclean hsegment
      (candidate_wellFormed hfaithful hmem)).2
    omega

theorem settledEnd_lt (spec : CleanSpec) (env : PassEnv) (merged : MergeResult)
    (hfaithful : log.Faithful) (hmem : c ∈ candidatesOf log) {j : ℕ} {seg : Segment}
    (hseg : log.segments[j]? = some seg) (hlt : c.index < j) :
    settledEnd spec env merged (runRewrites spec env log merged) c <
      seg.baseOffset :=
  (settledEnd_lt_nextOffset spec env merged hfaithful hmem).trans_le
    (hfaithful.ordered.nextOffset_le (candidate_getElem? hmem) hseg hlt)

theorem baseOffset_le_settledEnd (spec : CleanSpec) (env : PassEnv) (merged : MergeResult)
    (hfaithful : log.Faithful) (hmem : c ∈ candidatesOf log) :
    c.seg.baseOffset - 1 ≤
        settledEnd spec env merged (runRewrites spec env log merged) c ∧
      (0 < c.seg.nextOffset → 0 ≤
        settledEnd spec env merged (runRewrites spec env log merged) c) := by
  have hwf := candidate_wellFormed hfaithful hmem
  rcases settledEnd_cases spec env merged hmem with hend |
    ⟨result, seg', _, houtcome, hclean, hend⟩
  · have hbase := hwf.base_le_nextOffset
    rw [hend]
    constructor <;> omega
  · have hsegment : result.outcome.segment c.seg = some seg' := by
      rw [houtcome]
      rfl
    have hwf' := (cleanSegment_wellFormed hclean hsegment hwf).1
    have hbase := hwf'.base_le_nextOffset
    rw [((cleanSegment_spec hclean).identity seg' hsegment).1] at hbase
    obtain ⟨frame, hframe⟩ := exists_mem_of_ne_nil _
      ((cleanSegment_spec hclean).replaced seg' houtcome)
    have hlt := hwf'.offset_lt_nextOffset hframe
    have hnonneg := hwf'.offset_nonneg hframe
    rw [hend]
    constructor <;> omega

theorem offset_le_settledEnd (hfaithful : log.Faithful) (hmem : c ∈ candidatesOf log)
    {frame' : Frame}
    (hframe' : frame' ∈ framesAfter spec merged (runRewrites spec env log merged) c) :
    frame'.offset ≤
      settledEnd spec env merged (runRewrites spec env log merged) c := by
  have hwf := candidate_wellFormed hfaithful hmem
  have hold : frame'.offset < c.seg.nextOffset := by
    unfold framesAfter at hframe'
    split at hframe'
    · exact hwf.offset_lt_nextOffset hframe'
    · rw [mem_filterMap] at hframe'
      obtain ⟨frame, hframe, hrewrite⟩ := hframe'
      rw [offset_of_rewriteFrame hrewrite]
      exact hwf.offset_lt_nextOffset hframe
  rcases settledEnd_cases spec env merged hmem with hend |
    ⟨result, seg', hinstalled, houtcome, hclean, hend⟩
  · omega
  · have hsegment : result.outcome.segment c.seg = some seg' := by
      rw [houtcome]
      rfl
    rw [← recordsOf_segmentAfter hmem, segmentAfter, hinstalled]
      at hframe'
    simp only [hsegment, Option.toList_some, recordsOf_cons, recordsOf_nil,
      append_nil] at hframe'
    have hlt := (cleanSegment_wellFormed hclean hsegment
      hwf).1.offset_lt_nextOffset hframe'
    omega

end Ends

/-! ## The cap -/

def minInt64 : ℤ := -9223372036854775808

theorem capFloor_le (spec : CleanSpec) (verified : ℤ) : capFloor spec verified ≤ verified := by
  unfold capFloor
  split <;> omega

theorem capFloor_eq_min {spec : CleanSpec} (hlow : minInt64 < spec.stripBelow)
    (hhigh : spec.stripBelow ≤ maxInt64) (verified : ℤ) :
    capFloor spec verified = min verified (spec.stripBelow - 1) := by
  have hwrap : wrapInt64 (spec.stripBelow - 1) = spec.stripBelow - 1 := by
    unfold minInt64 at hlow
    exact wrapInt64_eq_self (by unfold maxInt64; omega) (by omega)
  unfold capFloor
  rw [hwrap]
  split <;> omega

theorem capFloor_minInt64 {spec : CleanSpec} (hwrap : spec.stripBelow = minInt64) (verified : ℤ) :
    capFloor spec verified = min verified maxInt64 := by
  have hmax : wrapInt64 (spec.stripBelow - 1) = maxInt64 := by
    rw [hwrap]
    decide
  unfold capFloor
  rw [hmax]
  split <;> omega

/-! ## Soundness of the floor -/

structure FloorSound (spec : CleanSpec) (result : PassResult) : Prop where
  clean : ∀ frame ∈ recordsOf result.log.segments,
    frame.offset ≤ result.verified →
    frame.message.hasAnyHeader spec.stripHeaders = false ∧
      frame.isControl = false ∧ spec.aborted frame.offset = false
  semantics : 0 ≤ result.verified → spec.stripActive = true

/-- The segment is passed over on the word of its stamp: the stamp covers the
spec and nothing else calls for a rewrite. -/
structure PassedByStamp (spec : CleanSpec) (now : ℤ) (log : LogView)
    (seg : Segment) : Prop where
  covers : (loadOrBuild log.keys seg).stripStampCovers spec.stripBelow
    spec.stripHeaders = true
  compact : seg.needsBlockConsolidation = false
  unmarked : ∀ frame ∈ seg.frames,
    marked spec now (recordsOf log.segments) frame = false

/-- The logs on which every floor is sound: the spec strips something, and
the sealed records below the strip boundary hold nothing that the ceiling, a
failed checksum or a stale stamp keeps from being stripped. -/
structure FloorReady (spec : CleanSpec) (now : ℤ) (log : LogView) :
    Prop where
  semantics : spec.stripActive = true ∨
    (spec.stripBelow ≤ 0 ∧ minInt64 < spec.stripBelow) ∨
    ∀ seg ∈ log.sealedSegs, seg.nextOffset ≤ 0
  ceiling : ∀ frame ∈ recordsOf log.sealedSegs,
    spec.ceiling ≤ frame.offset → frame.offset < spec.stripBelow →
    frame.message.hasAnyHeader spec.stripHeaders = false ∧
      frame.isControl = false ∧ spec.aborted frame.offset = false
  damaged : ∀ frame ∈ recordsOf log.sealedSegs,
    frame.offset < spec.stripBelow → frame.crcMatches = false →
    removes spec now (recordsOf log.segments) frame = false →
    frame.message.hasAnyHeader spec.stripHeaders = false
  stamped : ∀ seg ∈ log.sealedSegs, PassedByStamp spec now log seg →
    ∀ frame ∈ seg.frames, frame.offset < spec.stripBelow →
    frame.message.hasAnyHeader spec.stripHeaders = false

section Sound

variable {spec : CleanSpec} {env : PassEnv} {log : LogView}
  {merged : MergeResult}

theorem settles_cases {c : Candidate} (hmem : c ∈ candidatesOf log)
    (hsettles : settles spec env merged (runRewrites spec env log merged) c = true) :
    (runRewrites spec env log merged).installed c.index ≠ none ∨
      ((runRewrites spec env log merged).installed c.index = none ∧
        canSkip spec c.digest merged c.index = true ∧
        c.seg.needsBlockConsolidation = false) := by
  unfold settles at hsettles
  cases hdisp : dispositionOf spec env merged c with
  | keepProtected =>
    rw [hdisp] at hsettles
    cases hsettles
  | keepConverged =>
    right
    refine ⟨not_installed_of_ne_wantRewrite hmem (by simp [hdisp]),
      canSkip_of_keepConverged hdisp, ?_⟩
    unfold dispositionOf at hdisp
    split at hdisp
    · cases hdisp
    · split at hdisp
      next hskip => simpa using ((Bool.and_eq_true _ _).mp hskip).2
      next => cases hdisp
  | wantRewrite =>
    rw [hdisp] at hsettles
    left
    apply LoopResult.installed_ne_none_of_done
    exact Option.isSome_iff_ne_none.mp hsettles

/-- Below the strip boundary a record a rewrite kept is clean, unless the
ceiling or its checksum protected it. -/
theorem clean_of_fate {now : ℤ} (hready : FloorReady spec now log)
    (hactive : spec.stripActive = true) {frame frame' : Frame}
    (hmem : frame ∈ recordsOf log.sealedSegs)
    (hfate : fate spec now (recordsOf log.segments) frame = some frame')
    (hbelow : frame.offset < spec.stripBelow) :
    frame'.message.hasAnyHeader spec.stripHeaders = false ∧
      frame'.isControl = false ∧ spec.aborted frame'.offset = false := by
  obtain ⟨hkept, hsurvivor⟩ := survivor_of_fate hfate
  have hheaders : spec.stripHeaders.isEmpty = false := by
    simp only [CleanSpec.stripActive, Bool.and_eq_true,
      Bool.not_eq_true'] at hactive
    exact hactive.2
  by_cases hceiling : spec.ceiling ≤ frame.offset
  · have hstrips : strips spec frame = false := by
      have hnot : ¬frame.offset < spec.ceiling := by omega
      simp [strips, hnot]
    rw [hsurvivor.verbatim hstrips]
    exact hready.ceiling frame hmem hceiling hbelow
  · have hlt : frame.offset < spec.ceiling := by omega
    have hdata : frame.isControl = false := by
      rw [Bool.eq_false_iff]
      intro hcontrol
      simp [removes, hlt, hcontrol, hbelow, hheaders] at hkept
    have hlive : spec.aborted frame.offset = false := by
      rw [Bool.eq_false_iff]
      intro haborted
      simp [removes, hlt, hdata, haborted] at hkept
    refine ⟨?_, ?_, ?_⟩
    · cases hcrc : frame.crcMatches with
      | true => exact hasAnyHeader_of_fate hfate hdata hcrc hlt hbelow
      | false =>
        have hstrips : strips spec frame = false := by
          simp [strips, hcrc]
        rw [hsurvivor.verbatim hstrips]
        exact hready.damaged frame hmem hbelow hcrc hkept
    · rw [hsurvivor.same.isControl]
      exact hdata
    · rw [hsurvivor.same.offset]
      exact hlive

theorem clean_of_canSkip (hfaithful : log.Faithful) (hmerged : MergedFor spec env.now log merged)
    (hready : FloorReady spec env.now log) (hactive : spec.stripActive = true) {c : Candidate}
    (hc : c ∈ candidatesOf log) (hskip : canSkip spec c.digest merged c.index = true)
    (hcompact : c.seg.needsBlockConsolidation = false) {frame : Frame}
    (hframe : frame ∈ c.seg.frames) (hbelow : frame.offset < spec.stripBelow) :
    frame.message.hasAnyHeader spec.stripHeaders = false ∧
      frame.isControl = false ∧ spec.aborted frame.offset = false := by
  have hget := candidate_getElem? hc
  have hdescribes := candidate_describes hfaithful hc
  have hwf := candidate_wellFormed hfaithful hc
  have hsealed := mem_of_getElem? (mem_candidatesOf.mp hc).1
  have hunmarked : ∀ f ∈ c.seg.frames,
      marked spec env.now (recordsOf log.segments) f = false :=
    fun f hf => marked_of_canSkip hmerged hget hdescribes hskip hf
  have hdata : frame.isControl = false := by
    rw [Bool.eq_false_iff]
    intro hcontrol
    have hnot := hunmarked frame hframe
    simp [marked, hcontrol, hactive, hbelow] at hnot
  refine ⟨?_, hdata, ?_⟩
  · rw [Bool.eq_false_iff]
    intro hhas
    have hcovers := stripStampCovers_of_wantsStamp hmerged hget hdescribes
      hskip hframe (wantsStamp_of_hasAnyHeader (hwf.offset_nonneg hframe)
        hdata hbelow hhas)
    rw [(mem_candidatesOf.mp hc).2] at hcovers
    have hclean := hready.stamped c.seg hsealed
      ⟨hcovers, hcompact, hunmarked⟩ frame hframe hbelow
    rw [hhas] at hclean
    cases hclean
  · by_cases hceiling : spec.ceiling ≤ frame.offset
    · have hmem := mem_recordsOf.mpr ⟨c.seg, hsealed, hframe⟩
      exact (hready.ceiling frame hmem hceiling hbelow).2.2
    · have hlt : frame.offset < spec.ceiling := by omega
      have hnot := hunmarked frame hframe
      simp only [marked, hdata, hlt, Bool.or_eq_false_iff] at hnot
      simpa using hnot.1.2

theorem mem_settledRun (hfaithful : log.Faithful)
    {log' : LogView}
    (hrecords : recordsOf log'.sealedSegs = (candidatesOf log).flatMap
      (framesAfter spec merged (runRewrites spec env log merged)))
    (hactive : log'.active = log.active) {frame' : Frame}
    (hmem : frame' ∈ recordsOf log'.segments)
    (hnonneg : 0 ≤ frame'.offset)
    (hfloor : frame'.offset ≤ (assemble spec env log merged).verified) :
    ∃ c ∈ candidatesOf log,
      settles spec env merged (runRewrites spec env log merged) c = true ∧
      frame' ∈ framesAfter spec merged
        (runRewrites spec env log merged) c := by
  rw [assemble_verified] at hfloor
  cases hlast : (settledRun spec env log merged).getLast? with
  | none =>
    rw [hlast] at hfloor
    simp only [Option.map_none, Option.getD_none] at hfloor
    omega
  | some last =>
    rw [hlast] at hfloor
    simp only [Option.map_some, Option.getD_some] at hfloor
    have hlastRun := mem_of_getLast? hlast
    have hlastMem : last ∈ candidatesOf log :=
      (takeWhile_sublist _).subset hlastRun
    rcases LogView.mem_records.mp hmem with hsealed | hin
    · rw [hrecords, mem_flatMap] at hsealed
      obtain ⟨c, hc, hframe'⟩ := hsealed
      refine ⟨c, hc, ?_, hframe'⟩
      by_contra hnot
      have hbase : c.seg.baseOffset ≤ frame'.offset := by
        have hwf := candidate_wellFormed hfaithful hc
        unfold framesAfter at hframe'
        split at hframe'
        · exact hwf.base_le frame' hframe'
        · rw [mem_filterMap] at hframe'
          obtain ⟨frame, hframe, hrewrite⟩ := hframe'
          rw [offset_of_rewriteFrame hrewrite]
          exact hwf.base_le frame hframe
      have hlt : last.index < c.index := by
        have hpair := pairwise_index_candidatesOf log
        have hsplit := takeWhile_append_dropWhile
          (p := settles spec env merged
            (runRewrites spec env log merged))
          (l := candidatesOf log)
        rw [← hsplit, pairwise_append] at hpair
        have hcDrop : c ∈ (candidatesOf log).dropWhile (settles spec env
            merged (runRewrites spec env log merged)) := by
          rw [← hsplit] at hc
          rcases mem_append.mp hc with hrun | hdrop
          · exact absurd (mem_takeWhile_imp hrun) hnot
          · exact hdrop
        exact hpair.2.2 last hlastRun c hcDrop
      have hend := settledEnd_lt spec env merged hfaithful hlastMem
        (candidate_getElem? hc) hlt
      omega
    · rw [hactive] at hin
      have hget : log.segments[log.sealedSegs.length]? =
          some log.active := by
        simp [LogView.segments]
      have hlt := (List.getElem?_eq_some_iff.mp
        (mem_candidatesOf.mp hlastMem).1).1
      have hend := settledEnd_lt spec env merged hfaithful hlastMem
        hget hlt
      have hbase := (hfaithful.ordered.wellFormed log.active
        (by simp [LogView.segments])).base_le frame' hin
      omega

theorem floorSound_of_ready {result : PassResult} (hfaithful : log.Faithful)
    (hhigh : spec.stripBelow ≤ maxInt64) (hready : FloorReady spec env.now log)
    (hpass : compactSpec spec env log = .ok result) (hfailed : result.failed = false) :
    FloorSound spec result := by
  unfold compactSpec at hpass
  by_cases hempty : log.sealedSegs = []
  · rw [if_pos hempty] at hpass
    cases hpass
    constructor
    · intro frame hmem hfloor
      have hnonneg := hfaithful.ordered.offset_nonneg hmem
      simp only at hfloor
      omega
    · intro hnonneg
      simp only at hnonneg
      omega
  · rw [if_neg hempty] at hpass
    obtain ⟨merged, hmergeLog, hlog, hverified, hloop⟩ := compact_eq_ok hpass
    have hmerged := mergeLog_spec hfaithful hmergeLog
    rw [hfailed] at hloop
    rw [← hloop, if_neg Bool.false_ne_true] at hverified
    have hle := capFloor_le spec (assemble spec env log merged).verified
    have hsemantics : 0 ≤ result.verified → spec.stripActive = true := by
      intro hnonneg
      rcases hready.semantics with hactive | ⟨hstrip, hlow⟩ | hends
      · exact hactive
      · rw [hverified, capFloor_eq_min hlow hhigh] at hnonneg
        omega
      · have hneg : (assemble spec env log merged).verified < 0 := by
          rw [assemble_verified]
          cases hlast : (settledRun spec env log merged).getLast? with
          | none => simp
          | some last =>
            have hlastMem : last ∈ candidatesOf log :=
              (takeWhile_sublist _).subset
                (mem_of_getLast? hlast)
            have hend := settledEnd_lt_nextOffset spec env merged
              hfaithful hlastMem
            have hbound := hends last.seg (mem_of_getElem?
              (mem_candidatesOf.mp hlastMem).1)
            simp only [Option.map_some, Option.getD_some]
            omega
        omega
    refine ⟨?_, hsemantics⟩
    intro frame' hmem hfloor
    have hrecords : recordsOf result.log.sealedSegs =
        (candidatesOf log).flatMap (framesAfter spec merged
          (runRewrites spec env log merged)) := by
      rw [hlog]
      exact recordsOf_flatMap_segmentAfter spec env log merged
    have hactiveSeg : result.log.active = log.active := by rw [hlog]
    have hnonneg : 0 ≤ frame'.offset := by
      rcases LogView.mem_records.mp hmem with hsealed | hin
      · obtain ⟨frame, hframe, hsurvivor⟩ := compactSpec_origin hfaithful
          (by rw [compactSpec, if_neg hempty]; exact hpass) hsealed
        rw [hsurvivor.same.offset]
        exact hfaithful.ordered.offset_nonneg
          (LogView.mem_records.mpr (Or.inl hframe))
      · rw [hactiveSeg] at hin
        exact hfaithful.ordered.offset_nonneg
          (LogView.mem_records.mpr (Or.inr hin))
    have hactive := hsemantics (hnonneg.trans hfloor)
    have hbelow : frame'.offset < spec.stripBelow := by
      have hpos : 0 < spec.stripBelow := by
        simp only [CleanSpec.stripActive, Bool.and_eq_true,
          decide_eq_true_eq] at hactive
        exact hactive.1
      rw [hverified, capFloor_eq_min (by unfold minInt64; omega) hhigh]
        at hfloor
      omega
    obtain ⟨c, hc, hsettles, hframe'⟩ := mem_settledRun hfaithful hrecords
      hactiveSeg hmem hnonneg (by omega)
    rcases settles_cases hc hsettles with hinstalled |
      ⟨hnone, hskip, hcompact⟩
    · rw [framesAfter_of_installed hmerged hc hinstalled,
        mem_filterMap] at hframe'
      obtain ⟨frame, hframe, hfate⟩ := hframe'
      have hsealed : frame ∈ recordsOf log.sealedSegs :=
        mem_recordsOf.mpr ⟨c.seg,
          mem_of_getElem? (mem_candidatesOf.mp hc).1, hframe⟩
      have hoffset := (survivor_of_fate hfate).2.same.offset
      exact clean_of_fate hready hactive hsealed hfate (by omega)
    · rw [framesAfter_of_not_installed hnone] at hframe'
      exact clean_of_canSkip hfaithful hmerged hready hactive hc hskip
        hcompact hframe' hbelow

theorem settledRun_eq_candidatesOf (hfree : Unrestricted spec env log)
    (hfailed : (runRewrites spec env log merged).failed = none) :
    settledRun spec env log merged = candidatesOf log := by
  unfold settledRun
  rw [takeWhile_eq_self_iff]
  intro c hc
  unfold settles
  cases hdisp : dispositionOf spec env merged c with
  | keepProtected =>
    have hage := dispositionOf_eq_keepProtected.mp hdisp
    rw [hfree.ageProtected] at hage
    cases hage
  | keepConverged => rfl
  | wantRewrite =>
    exact Option.isSome_iff_ne_none.mpr (hfree.done hfailed hc hdisp)

theorem offset_le_assemble_verified (hfaithful : log.Faithful) (hfree : Unrestricted spec env log)
    (hfailed : (runRewrites spec env log merged).failed = none) {c : Candidate}
    (hc : c ∈ candidatesOf log) :
    settledEnd spec env merged (runRewrites spec env log merged) c ≤
      (assemble spec env log merged).verified := by
  rw [assemble_verified, settledRun_eq_candidatesOf hfree hfailed]
  have hne : candidatesOf log ≠ [] := ne_nil_of_mem hc
  rw [getLast?_eq_some_getLast hne]
  simp only [Option.map_some, Option.getD_some]
  have hlastMem := getLast_mem hne
  by_cases heq : c = (candidatesOf log).getLast hne
  · rw [← heq]
  · have hlt : c.index < ((candidatesOf log).getLast hne).index := by
      have hpair := pairwise_index_candidatesOf log
      rw [← dropLast_append_getLast hne, pairwise_append] at hpair
      have hfront : c ∈ (candidatesOf log).dropLast := by
        rw [← dropLast_append_getLast hne] at hc
        rcases mem_append.mp hc with hin | hin
        · exact hin
        · exact absurd (mem_singleton.mp hin) heq
      exact hpair.2.2 c hfront _ (mem_singleton.mpr rfl)
    have hend := settledEnd_lt spec env merged hfaithful hc
      (candidate_getElem? hlastMem) hlt
    have hbase := (baseOffset_le_settledEnd spec env merged hfaithful
      hlastMem).1
    omega

theorem ready_of_floorSound {result : PassResult} (hfaithful : log.Faithful)
    (hlow : minInt64 ≤ spec.stripBelow) (hhigh : spec.stripBelow ≤ maxInt64)
    (hfree : Unrestricted spec env log) (hpass : compactSpec spec env log = .ok result)
    (hfailed : result.failed = false) (hsound : FloorSound spec result) :
    FloorReady spec env.now log := by
  unfold compactSpec at hpass
  by_cases hempty : log.sealedSegs = []
  · exact ⟨Or.inr (Or.inr (by simp [hempty])), by simp [hempty],
      by simp [hempty], by simp [hempty]⟩
  · rw [if_neg hempty] at hpass
    obtain ⟨merged, hmergeLog, hlog, hverified, hloop⟩ := compact_eq_ok hpass
    have hmerged := mergeLog_spec hfaithful hmergeLog
    rw [hfailed] at hloop
    rw [← hloop, if_neg Bool.false_ne_true] at hverified
    have hnofail : (runRewrites spec env log merged).failed = none := by
      simpa using hloop.symm
    have hends : ∀ c ∈ candidatesOf log,
        settledEnd spec env merged (runRewrites spec env log merged) c ≤
          (assemble spec env log merged).verified :=
      fun c hc => offset_le_assemble_verified hfaithful hfree hnofail hc
    -- a sealed record below the boundary that the pass leaves as it is
    have hclean : ∀ c ∈ candidatesOf log, ∀ frame ∈ c.seg.frames,
        frame ∈ framesAfter spec merged
          (runRewrites spec env log merged) c →
        frame.offset < spec.stripBelow →
        frame.message.hasAnyHeader spec.stripHeaders = false ∧
          frame.isControl = false ∧
          spec.aborted frame.offset = false := by
      intro c hc frame hframe hafter hbelow
      apply hsound.clean frame
      · apply LogView.mem_records.mpr
        left
        rw [hlog, recordsOf_flatMap_segmentAfter]
        exact mem_flatMap.mpr ⟨c, hc, hafter⟩
      · have hend := offset_le_settledEnd hfaithful hc hafter
        have hfloor := hends c hc
        have hnonneg := (candidate_wellFormed hfaithful hc).offset_nonneg
          hframe
        rw [hverified, capFloor_eq_min (by unfold minInt64; omega) hhigh]
        omega
    have hkept : ∀ c ∈ candidatesOf log, ∀ frame ∈ c.seg.frames,
        removes spec env.now (recordsOf log.segments) frame = false →
        strips spec frame = false →
        frame ∈ framesAfter spec merged
          (runRewrites spec env log merged) c := by
      intro c hc frame hframe hremoves hstrips
      by_cases hinstalled :
          (runRewrites spec env log merged).installed c.index = none
      · rw [framesAfter_of_not_installed hinstalled]
        exact hframe
      · rw [framesAfter_of_installed hmerged hc hinstalled]
        exact mem_filterMap.mpr ⟨frame, hframe,
          by simp [fate, hremoves, hstrips]⟩
    have hcandidate : ∀ frame ∈ recordsOf log.sealedSegs,
        ∃ c ∈ candidatesOf log, frame ∈ c.seg.frames := by
      intro frame hframe
      rw [← flatMap_candidatesOf] at hframe
      exact mem_flatMap.mp hframe
    refine ⟨?_, ?_, ?_, ?_⟩
    · by_contra hnot
      push Not at hnot
      obtain ⟨hinactive, hwrap, seg, hseg, hnext⟩ := hnot
      apply hinactive
      apply hsound.semantics
      obtain ⟨i, hi⟩ := mem_iff_getElem?.mp hseg
      have hc : (⟨i, seg, loadOrBuild log.keys seg⟩ : Candidate) ∈
          candidatesOf log := mem_candidatesOf.mpr ⟨hi, rfl⟩
      have hfloor := hends _ hc
      have hend := (baseOffset_le_settledEnd spec env merged hfaithful
        hc).2 hnext
      rw [hverified]
      by_cases hmin : spec.stripBelow = minInt64
      · rw [capFloor_minInt64 hmin]
        unfold maxInt64
        omega
      · rw [capFloor_eq_min (by omega) hhigh]
        omega
    · intro frame hframe hceiling hbelow
      obtain ⟨c, hc, hin⟩ := hcandidate frame hframe
      have hnot : ¬frame.offset < spec.ceiling := by omega
      exact hclean c hc frame hin (hkept c hc frame hin
        (by simp [removes, hnot]) (by simp [strips, hnot])) hbelow
    · intro frame hframe hbelow hcrc hremoves
      obtain ⟨c, hc, hin⟩ := hcandidate frame hframe
      exact (hclean c hc frame hin (hkept c hc frame hin hremoves
        (by simp [strips, hcrc])) hbelow).1
    · intro seg hseg hpassed frame hframe hbelow
      obtain ⟨i, hi⟩ := mem_iff_getElem?.mp hseg
      have hc : (⟨i, seg, loadOrBuild log.keys seg⟩ : Candidate) ∈
          candidatesOf log := mem_candidatesOf.mpr ⟨hi, rfl⟩
      have hskip : canSkip spec (loadOrBuild log.keys seg) merged i =
          true :=
        canSkip_of_unmarked hmerged (LogView.getElem?_segments hi)
          (hfaithful.loadOrBuild hseg) hpassed.unmarked hpassed.covers
      have hdisp : dispositionOf spec env merged
          ⟨i, seg, loadOrBuild log.keys seg⟩ = .keepConverged := by
        simp [dispositionOf, hfree.ageProtected, hskip, hpassed.compact]
      have hafter : frame ∈ framesAfter spec merged
          (runRewrites spec env log merged)
          ⟨i, seg, loadOrBuild log.keys seg⟩ := by
        rw [framesAfter_of_not_installed
          (not_installed_of_ne_wantRewrite hc (by simp [hdisp]))]
        exact hframe
      exact (hclean _ hc frame hframe hafter hbelow).1

end Sound

/-! ## Every pass of a kind -/

def CleanSpec.withBudgets (spec : CleanSpec)
    (maxRewrites rewriteBudget : ℤ) (tierBudgets : String → Option ℤ)
    (skipTiers : String → Bool) : CleanSpec :=
  { spec with
    maxRewrites := maxRewrites
    rewriteBudget := rewriteBudget
    tierBudgets := tierBudgets
    skipTiers := skipTiers }

def CleanSpec.unbudgeted (spec : CleanSpec) : CleanSpec :=
  spec.withBudgets 0 0 (fun _ => none) fun _ => false

theorem CleanSpec.unbudgeted_unrestricted (spec : CleanSpec) {env : PassEnv} (log : LogView)
    (hage : env.minAge ≤ 0) : Unrestricted spec.unbudgeted env log := by
  refine ⟨⟨le_rfl, le_rfl, ?_⟩, hage, ?_⟩
  · intro name d htier
    cases htier
  · intro seg _
    unfold inReadOnlyTier
    cases seg.tier <;> rfl

/-- A pass that cleaned under the spec, whatever its budgets, its horizon and
its tiers, returned the result without an error. -/
def Completes (spec : CleanSpec) (now : ℤ) (log : LogView)
    (result : PassResult) : Prop :=
  ∃ (maxRewrites rewriteBudget : ℤ) (tierBudgets : String → Option ℤ)
    (skipTiers : String → Bool) (env : PassEnv),
    env.now = now ∧
      compactSpec (spec.withBudgets maxRewrites rewriteBudget tierBudgets
        skipTiers) env log = .ok result ∧
      result.failed = false

/-- A record with a strip header at offset 1, and one with a failed
checksum. -/
def headerLog (crcMatches : Bool) : LogView where
  sealedSegs :=
    [sampleSegment 0 [sampleFrame 0 1 0 (some [5]) Headers.empty,
      { sampleFrame 1 1 0 (some [6]) sampleHeaders with
        crcMatches := crcMatches }]]
  active := sampleSegment 2 [sampleFrame 2 1 0 (some [8]) Headers.empty]
  keys := fun _ => none

def stripSpec (ceiling stripBelow : ℤ) (stripHeaders : List Bytes) :
    CleanSpec :=
  { sampleSpec ceiling with
    stripBelow := stripBelow
    stripHeaders := stripHeaders }

theorem headerLog_faithful (crcMatches : Bool) : (headerLog crcMatches).Faithful := by
  cases crcMatches <;>
    exact LogView.faithful_of_no_keys (by decide +kernel) fun _ => rfl

/-- Some record at or below the floor is not clean, or the floor was given
although the spec strips nothing. -/
def overreaches (spec : CleanSpec) (result : PassResult) : Bool :=
  (recordsOf result.log.segments).any (fun frame =>
      decide (frame.offset ≤ result.verified) &&
        (frame.message.hasAnyHeader spec.stripHeaders || frame.isControl ||
          spec.aborted frame.offset)) ||
    (decide (0 ≤ result.verified) && !spec.stripActive)

theorem not_floorSound_of_overreaches {spec : CleanSpec} {result : PassResult}
    (hover : overreaches spec result = true) : ¬FloorSound spec result := by
  intro hsound
  unfold overreaches at hover
  rw [Bool.or_eq_true, any_eq_true] at hover
  rcases hover with ⟨frame, hmem, hbad⟩ | hsemantics
  · rw [Bool.and_eq_true, decide_eq_true_eq] at hbad
    have hclean := hsound.clean frame hmem hbad.1
    simp [hclean.1, hclean.2.1, hclean.2.2] at hbad
  · rw [Bool.and_eq_true, decide_eq_true_eq] at hsemantics
    simp [hsound.semantics hsemantics.1] at hsemantics

theorem headerLog_floorReady :
    FloorReady (stripSpec 2 2 [[1]]) 100 (headerLog true) := by
  refine ⟨Or.inl (by decide +kernel), by decide +kernel,
    by decide +kernel, ?_⟩
  intro seg hseg hpassed
  have hcovers := hpassed.covers
  have hstamp : ∀ seg ∈ (headerLog true).sealedSegs,
      (loadOrBuild (headerLog true).keys seg).stripStampCovers 2 [[1]] =
        false := by
    decide +kernel
  have hnot : (loadOrBuild (headerLog true).keys seg).stripStampCovers
      (stripSpec 2 2 [[1]]).stripBelow (stripSpec 2 2 [[1]]).stripHeaders =
        false := hstamp seg hseg
  rw [hnot] at hcovers
  cases hcovers

end CommitLog
