import CommitLog.PassRecords

/-!
# Compaction equals its reference

A pass that nothing holds back leaves in the sealed segments exactly the
records the reference keeps.  Each survivor is the old record, byte for byte
unless it was stripped, and then it only lost the headers the spec names.
-/

namespace CommitLog

open List

variable {spec : CleanSpec} {env : PassEnv} {log : LogView} {result : PassResult} {frame' : Frame}
  {now : ℤ}

structure Survivor (spec : CleanSpec) (frame frame' : Frame) : Prop where
  same : Frame.SameRecord frame frame'
  headers : frame'.message.headers = frame.message.headers ∨ frame'.message.headers =
      frame.message.headers.deleteAll spec.stripHeaders
  verbatim : strips spec frame = false → frame' = frame

theorem Survivor.refl (spec : CleanSpec) (frame : Frame) : Survivor spec frame frame :=
  ⟨Frame.SameRecord.refl frame, Or.inl rfl, fun _ => rfl⟩

variable {frame : Frame}

theorem Survivor.reframe (hstrips : strips spec frame = true) :
    Survivor spec frame (reframe frame spec.stripHeaders) := by
  have hcrc : frame.crcMatches = true := by
    simp only [strips, Bool.and_eq_true] at hstrips
    exact hstrips.1.2
  refine ⟨reframe_sameRecord hcrc, Or.inr rfl, ?_⟩
  intro hnot
  rw [hstrips] at hnot
  cases hnot

variable {records : List Frame}

theorem survivor_of_fate (hfate : fate spec now records frame = some frame') :
    removes spec now records frame = false ∧
      Survivor spec frame frame' := by
  unfold fate at hfate
  cases hremoves : removes spec now records frame with
  | true => simp [hremoves] at hfate
  | false =>
    refine ⟨rfl, ?_⟩
    cases hstrips : strips spec frame with
    | true =>
      simp only [hremoves, hstrips, Bool.false_eq_true, if_false,
        if_true, Option.some.injEq] at hfate
      rw [← hfate]
      exact Survivor.reframe hstrips
    | false =>
      simp only [hremoves, hstrips, Bool.false_eq_true, if_false, Option.some.injEq] at hfate
      rw [← hfate]
      exact Survivor.refl spec frame

theorem hasAnyHeader_of_fate (hfate : fate spec now records frame = some frame')
    (hdata : frame.isControl = false) (hcrc : frame.crcMatches = true)
    (hceiling : frame.offset < spec.ceiling) (hbelow : frame.offset < spec.stripBelow) :
    frame'.message.hasAnyHeader spec.stripHeaders = false := by
  have hkept := (survivor_of_fate hfate).1
  unfold fate at hfate
  cases hhas : frame.message.hasAnyHeader spec.stripHeaders with
  | true =>
    have hstrips : strips spec frame = true := by
      simp [strips, hceiling, hdata, hbelow, hcrc, hhas]
    simp only [hkept, hstrips, Bool.false_eq_true, if_false, if_true, Option.some.injEq] at hfate
    rw [← hfate]
    exact Message.hasAnyHeader_withoutHeaders _ _
  | false =>
    have hstrips : strips spec frame = false := by
      simp [strips, hhas]
    simp only [hkept, hstrips, Bool.false_eq_true, if_false, Option.some.injEq] at hfate
    rw [← hfate]
    exact hhas

def survivors (spec : CleanSpec) (now : ℤ) (log : LogView) : List Frame :=
  (recordsOf log.sealedSegs).filter fun frame =>
    !removes spec now (recordsOf log.segments) frame

theorem forall₂_survivor_filterMap_fate (spec : CleanSpec) (now : ℤ) (records frames : List Frame) :
    Forall₂ (Survivor spec) (frames.filter fun frame => !removes spec now records frame)
      (frames.filterMap (fate spec now records)) := by
  induction frames with
  | nil => exact .nil
  | cons frame frames ih =>
    cases hremoves : removes spec now records frame with
    | true =>
      have hfate : fate spec now records frame = none := by
        simp [fate, hremoves]
      rw [filter_cons_of_neg (by simp [hremoves]), filterMap_cons_none hfate]
      exact ih
    | false =>
      rw [filter_cons_of_pos (by simp [hremoves])]
      cases hstrips : strips spec frame with
      | true =>
        have hfate : fate spec now records frame = some (reframe frame spec.stripHeaders) := by
          simp [fate, hremoves, hstrips]
        rw [filterMap_cons_some hfate]
        exact .cons (Survivor.reframe hstrips) ih
      | false =>
        have hfate : fate spec now records frame = some frame := by
          simp [fate, hremoves, hstrips]
        rw [filterMap_cons_some hfate]
        exact .cons (Survivor.refl spec frame) ih

theorem forall₂_flatMap {α β γ : Type*} {R : β → γ → Prop} {f : α → List β} {g : α → List γ}
    {items : List α} (hitems : ∀ a ∈ items, Forall₂ R (f a) (g a)) :
    Forall₂ R (items.flatMap f) (items.flatMap g) := by
  induction items with
  | nil => exact .nil
  | cons a items ih =>
    exact rel_append (hitems a mem_cons_self) (ih fun b hb => hitems b (mem_cons_of_mem _ hb))

theorem forall₂_mem_left {α β : Type*} {R : α → β → Prop} {xs : List α} {ys : List β}
    (hrel : Forall₂ R xs ys) {x : α} (hmem : x ∈ xs) : ∃ y ∈ ys, R x y := by
  induction hrel with
  | nil => simp at hmem
  | @cons a b as bs hab _ ih =>
    rcases mem_cons.mp hmem with heq | hin
    · exact ⟨b, mem_cons_self, heq ▸ hab⟩
    · obtain ⟨y, hy, hxy⟩ := ih hin
      exact ⟨y, mem_cons_of_mem _ hy, hxy⟩

theorem forall₂_mem_right {α β : Type*} {R : α → β → Prop} {xs : List α} {ys : List β}
    (hrel : Forall₂ R xs ys) {y : β} (hmem : y ∈ ys) : ∃ x ∈ xs, R x y :=
  forall₂_mem_left hrel.flip hmem

section Unrestricted

variable {spec : CleanSpec} {env : PassEnv} {log : LogView} {merged : MergeResult}

theorem framesAfter_survivors (hfaithful : log.Faithful) (hfree : Unrestricted spec env log)
    (hmerged : MergedFor spec env.now log merged)
    (hfailed : (runRewrites spec env log merged).failed = none)
    {c : Candidate} (hmem : c ∈ candidatesOf log) :
    Forall₂ (Survivor spec) (c.seg.frames.filter fun frame =>
        !removes spec env.now (recordsOf log.segments) frame)
      (framesAfter spec merged (runRewrites spec env log merged) c) := by
  rcases hfree.installed_or_canSkip hfailed hmem with hinstalled | hskipped
  · rw [framesAfter_of_installed hmerged hmem hinstalled]
    exact forall₂_survivor_filterMap_fate spec env.now _ _
  · have hkept : ∀ frame ∈ c.seg.frames,
        removes spec env.now (recordsOf log.segments) frame = false := by
      intro frame hframe
      exact removes_of_canSkip hmerged (candidate_getElem? hmem)
        (candidate_wellFormed hfaithful hmem)
        (candidate_describes hfaithful hmem) hskipped.2 hframe
    rw [framesAfter_of_not_installed hskipped.1, filter_eq_self.mpr (by simpa using hkept)]
    exact forall₂_same.mpr fun frame _ => Survivor.refl spec frame

theorem framesAfter_eq_fate (hfaithful : log.Faithful) (hfree : Unrestricted spec env log)
    (hmerged : MergedFor spec env.now log merged)
    (hfailed : (runRewrites spec env log merged).failed = none) (hstamps : log.StampsHonest)
    {c : Candidate} (hmem : c ∈ candidatesOf log) :
    framesAfter spec merged (runRewrites spec env log merged) c = c.seg.frames.filterMap
        (fate spec env.now (recordsOf log.segments)) := by
  rcases hfree.installed_or_canSkip hfailed hmem with hinstalled | hskipped
  · exact framesAfter_of_installed hmerged hmem hinstalled
  · have hget := candidate_getElem? hmem
    have hwf := candidate_wellFormed hfaithful hmem
    have hdescribes := candidate_describes hfaithful hmem
    have hhonest := candidate_stampHonest hfaithful hstamps hmem
    have hfate : ∀ frame ∈ c.seg.frames,
        fate spec env.now (recordsOf log.segments) frame = some frame := by
      intro frame hframe
      have hremoves := removes_of_canSkip hmerged hget hwf hdescribes hskipped.2 hframe
      have hstrips := strips_of_canSkip hmerged hget hwf hdescribes hhonest hskipped.2 hframe
      simp [fate, hremoves, hstrips]
    rw [framesAfter_of_not_installed hskipped.1, filterMap_congr hfate, filterMap_some]

end Unrestricted

theorem compactSpec_records (hfaithful : log.Faithful)
    (hpass : compactSpec spec env log = .ok result) :
    log.sealedSegs = [] ∧ result.log = log ∨ ∃ merged, MergedFor spec env.now log merged ∧
        result.failed = (runRewrites spec env log merged).failed.isSome ∧
        recordsOf result.log.sealedSegs = (candidatesOf log).flatMap (framesAfter spec merged
            (runRewrites spec env log merged)) ∧
        result.log.active = log.active := by
  unfold compactSpec at hpass
  by_cases hempty : log.sealedSegs = []
  · rw [if_pos hempty] at hpass
    cases hpass
    exact Or.inl ⟨hempty, rfl⟩
  · rw [if_neg hempty] at hpass
    obtain ⟨merged, hmergeLog, hlog, _, hfailed⟩ := compact_eq_ok hpass
    refine Or.inr ⟨merged, mergeLog_spec hfaithful hmergeLog, hfailed, ?_, by rw [hlog]⟩
    rw [hlog]
    exact recordsOf_flatMap_segmentAfter spec env log merged

theorem compactSpec_active (hfaithful : log.Faithful)
    (hpass : compactSpec spec env log = .ok result) : result.log.active = log.active := by
  rcases compactSpec_records hfaithful hpass with
    ⟨_, hlog⟩ | ⟨_, _, _, _, hactive⟩
  · rw [hlog]
  · exact hactive

theorem mem_filterMap_fate {frames : List Frame}
    (hmem : frame' ∈ frames.filterMap (fate spec now records)) :
    ∃ frame ∈ frames, Survivor spec frame frame' := by
  have hrel := forall₂_survivor_filterMap_fate spec now records frames
  obtain ⟨frame, hframe, hsurvivor⟩ := forall₂_mem_right hrel hmem
  exact ⟨frame, (mem_filter.mp hframe).1, hsurvivor⟩

theorem compactSpec_origin (hfaithful : log.Faithful)
    (hpass : compactSpec spec env log = .ok result)
    (hmem : frame' ∈ recordsOf result.log.sealedSegs) :
    ∃ frame ∈ recordsOf log.sealedSegs, Survivor spec frame frame' := by
  rcases compactSpec_records hfaithful hpass with
    ⟨_, hlog⟩ | ⟨merged, hmerged, _, hrecords, _⟩
  · rw [hlog] at hmem
    exact ⟨frame', hmem, Survivor.refl spec frame'⟩
  · rw [hrecords, mem_flatMap] at hmem
    obtain ⟨c, hc, hframe'⟩ := hmem
    have hlift : ∀ frame ∈ c.seg.frames, frame ∈ recordsOf log.sealedSegs := by
      intro frame hframe
      rw [← flatMap_candidatesOf]
      exact mem_flatMap.mpr ⟨c, hc, hframe⟩
    by_cases hinstalled : (runRewrites spec env log merged).installed c.index = none
    · rw [framesAfter_of_not_installed hinstalled] at hframe'
      exact ⟨frame', hlift frame' hframe', Survivor.refl spec frame'⟩
    · rw [framesAfter_of_installed hmerged hc hinstalled] at hframe'
      obtain ⟨frame, hframe, hsurvivor⟩ := mem_filterMap_fate hframe'
      exact ⟨frame, hlift frame hframe, hsurvivor⟩

theorem compactSpec_survives (hfaithful : log.Faithful)
    (hpass : compactSpec spec env log = .ok result) (hmem : frame ∈ recordsOf log.sealedSegs)
    (hkept : removes spec env.now (recordsOf log.segments) frame = false) :
    ∃ frame' ∈ recordsOf result.log.sealedSegs,
      Survivor spec frame frame' := by
  rcases compactSpec_records hfaithful hpass with
    ⟨_, hlog⟩ | ⟨merged, hmerged, _, hrecords, _⟩
  · rw [hlog]
    exact ⟨frame, hmem, Survivor.refl spec frame⟩
  · rw [← flatMap_candidatesOf, mem_flatMap] at hmem
    obtain ⟨c, hc, hframe⟩ := hmem
    have hlift : ∀ frame' ∈ framesAfter spec merged (runRewrites spec env log merged) c,
        frame' ∈ recordsOf result.log.sealedSegs := by
      intro frame' hframe'
      rw [hrecords]
      exact mem_flatMap.mpr ⟨c, hc, hframe'⟩
    by_cases hinstalled : (runRewrites spec env log merged).installed c.index = none
    · rw [framesAfter_of_not_installed hinstalled] at hlift
      exact ⟨frame, hlift frame hframe, Survivor.refl spec frame⟩
    · rw [framesAfter_of_installed hmerged hc hinstalled] at hlift
      have hrel := forall₂_survivor_filterMap_fate spec env.now
        (recordsOf log.segments) c.seg.frames
      obtain ⟨frame', hframe', hsurvivor⟩ := forall₂_mem_left hrel
        (mem_filter.mpr ⟨hframe, by simpa using hkept⟩)
      exact ⟨frame', hlift frame' hframe', hsurvivor⟩

theorem compactSpec_sealed_reference (hfaithful : log.Faithful) (hfree : Unrestricted spec env log)
    (hpass : compactSpec spec env log = .ok result) (hfailed : result.failed = false) :
    Forall₂ (Survivor spec) (survivors spec env.now log) (recordsOf result.log.sealedSegs) := by
  rcases compactSpec_records hfaithful hpass with
    ⟨hempty, hlog⟩ | ⟨merged, hmerged, hloop, hrecords, _⟩
  · rw [hlog]
    simp [survivors, hempty]
  · rw [hfailed] at hloop
    rw [hrecords, survivors, ← flatMap_candidatesOf, filter_flatMap]
    apply forall₂_flatMap
    intro c hmem
    exact framesAfter_survivors hfaithful hfree hmerged (by simpa using hloop.symm) hmem

def passLog (pass : CleanSpec × PassEnv) (log : LogView) : LogView :=
  match compactSpec pass.1 pass.2 log with
  | .ok result => result.log
  | .error _ => log

def sampleFrame (offset timestamp : ℤ) (attributes : Byte)
    (key : Option Bytes) (headers : Headers) : Frame :=
  Frame.ofMessage offset timestamp 0 ⟨1, attributes, key, some [7], headers⟩

def sampleHeaders : Headers := ⟨[([1], [2])], by simp⟩

def sampleSegment (baseOffset : ℤ) (frames : List Frame) : Segment :=
  ⟨baseOffset, .raw frames, false, false, none⟩

/-- A pass at the given ceiling with no limit and no strip work. -/
def sampleSpec (ceiling : ℤ) : CleanSpec where
  ceiling := ceiling
  stripOnly := false
  stripBelow := 0
  stripHeaders := []
  abortedFn := none
  tombstoneGCBelow := 0
  tombstoneRetention := 0
  maxRewrites := 0
  rewriteBudget := 0
  tierBudgets := fun _ => none
  skipTiers := fun _ => false

def sampleEnv : PassEnv :=
  ⟨100, 100, 0, fun _ _ => false, fun _ => .none, fun _ => false, fun _ => false⟩

/-- Two copies of a key, a control record and a header to strip. -/
def sampleLog : LogView where
  sealedSegs :=
    [sampleSegment 0 [sampleFrame 0 1 0 (some [5]) Headers.empty,
      sampleFrame 1 1 1 none Headers.empty],
     sampleSegment 3 [sampleFrame 3 1 0 (some [5]) sampleHeaders]]
  active := sampleSegment 6 [sampleFrame 6 1 0 (some [6]) Headers.empty]
  keys := fun _ => none

def sampleStripSpec : CleanSpec :=
  { sampleSpec 6 with stripBelow := 6, stripHeaders := [[1]] }

theorem sampleLog_faithful : sampleLog.Faithful :=
  LogView.faithful_of_no_keys (by decide +kernel) fun _ => rfl

theorem sample_unrestricted : Unrestricted sampleStripSpec sampleEnv
    sampleLog := by
  refine ⟨⟨le_rfl, le_rfl, ?_⟩, le_rfl, ?_⟩
  · intro name d htier
    cases htier
  · decide +kernel

end CommitLog
