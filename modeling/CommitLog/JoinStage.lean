import CommitLog.LogOps

/-!
# The join stage

`planJoins` goes over the sealed segments once and collects runs of small
neighbours of one place that stay within the cap of that place.
`joinSegments` then joins run after run, each into the place of its first
segment, and hands back the list as far as it came when a join fails.  A
failed join leaves its inputs as they were, unless it fails behind the point
where the first input already serves the joined records.
-/

namespace CommitLog

open List Segment

variable {run : JoinRun} {active : List Segment}
variable {runs : List JoinRun} {spec : JoinSpec}

/-! ## Planning -/

/-- `JoinBelow` and `TierJoinBelow`; a tier that is not named has cap zero. -/
structure JoinSpec where
  joinBelow : ℤ
  tierJoinBelow : String → ℤ

def JoinSpec.joinCapFor (spec : JoinSpec) : Option String → ℤ
  | none => spec.joinBelow
  | some tier => spec.tierJoinBelow tier

structure JoinRun where
  first : ℕ
  last : ℕ
  tier : Option String
  bytes : ℤ

/-- The closure `flush`: a run of one is dropped. -/
def flushRun : Option JoinRun → List JoinRun
  | none => []
  | some run => if run.first < run.last then [run] else []

def planLoop (spec : JoinSpec) : List Segment → ℕ → Option JoinRun → List JoinRun
  | [], _, cur => flushRun cur
  | seg :: rest, i, cur =>
    let cap := spec.joinCapFor seg.tier
    if cap ≤ 0 ∨ cap ≤ seg.position then
      flushRun cur ++ planLoop spec rest (i + 1) none
    else
      match cur.filter fun run => decide (run.tier = seg.tier ∧ run.bytes + seg.position ≤ cap) with
      | some run =>
        planLoop spec rest (i + 1) (some { run with last := i, bytes := run.bytes + seg.position })
      | none =>
        flushRun cur ++ planLoop spec rest (i + 1) (some ⟨i, i, seg.tier, seg.position⟩)

def planJoins (spec : JoinSpec) (segments : List Segment) : List JoinRun :=
  if segments.length < 3 then []
  else planLoop spec segments.dropLast 0 none

/-! ## Joining -/

/-- How `joinOne` comes out: an error before its commit leaves all as it was,
an error behind it leaves the joined records in the first input. -/
inductive JoinEnd
  | done
  | failed
  | cut
deriving DecidableEq

structure JoinEnv where
  canJoin : String → Bool
  allow : ℕ → Bool
  ends : ℕ → JoinEnd

def JoinEnv.joins (env : JoinEnv) (run : JoinRun) : Bool :=
  run.tier.all env.canJoin && env.allow run.first

structure JoinResult where
  segments : List Segment
  runs : List JoinRun
  absorbed : List Segment

def joinLoop (env : JoinEnv) (segments : List Segment) : List JoinRun → ℕ → JoinResult
  | [], next => ⟨segments.drop next, [], []⟩
  | run :: runs, next =>
    if env.joins run then
      let front := (segments.take run.first).drop next
      match (segments.take (run.last + 1)).drop run.first, env.ends run.first with
      | first :: others, .done =>
        let rest := joinLoop env segments runs (run.last + 1)
        ⟨front ++ LogView.joinedSegment first others :: rest.segments,
          run :: rest.runs, others ++ rest.absorbed⟩
      | first :: others, .cut =>
        ⟨front ++ LogView.joinedSegment first others ::
          segments.drop (run.first + 1), [run], others⟩
      | _, _ => ⟨front ++ segments.drop run.first, [], []⟩
    else joinLoop env segments runs next

def joinSegments (spec : JoinSpec) (env : JoinEnv) (segments : List Segment) :
    JoinResult :=
  joinLoop env segments (planJoins spec segments) 0

/-! ## What is asked of it -/

/-- The run is a stretch of two or more segments of one place, before the
active one, and within the cap of the place. -/
def JoinRun.Planned (spec : JoinSpec) (segments : List Segment) (run : JoinRun) : Prop :=
  ∃ before inputs after, segments = before ++ inputs ++ after ∧
    run.first = before.length ∧ run.last + 1 = before.length + inputs.length ∧
    2 ≤ inputs.length ∧ after ≠ [] ∧ (∀ seg ∈ inputs, seg.tier = run.tier) ∧
    0 < spec.joinCapFor run.tier ∧
    ((inputs.map position).sum : ℤ) ≤ spec.joinCapFor run.tier

structure JoinResult.Keeps (result : JoinResult) (segments : List Segment) :
    Prop where
  records : recordsOf result.segments = recordsOf segments
  bases : (result.segments.map baseOffset).Nodup
  absorbed : ∀ seg ∈ result.absorbed, seg.baseOffset ∉ result.segments.map baseOffset

/-- The first run that is tried and not joined fails before its commit. -/
def JoinEnv.NoneCut (env : JoinEnv) (runs : List JoinRun) : Prop :=
  ∀ run, ((runs.filter env.joins).find? fun run =>
    decide (env.ends run.first ≠ .done)) = some run → env.ends run.first ≠ .cut

/-! ## The plan -/

section Plan

variable {spec : JoinSpec} {segments rest : List Segment} {i : ℕ}

structure JoinRun.Growing (spec : JoinSpec) (segments rest : List Segment)
    (i : ℕ) (run : JoinRun) : Prop where
  last_eq : run.last + 1 = i
  stretch : ∃ before inputs, segments = before ++ inputs ++ rest ∧
    run.first = before.length ∧ i = before.length + inputs.length ∧
    inputs ≠ [] ∧ (∀ seg ∈ inputs, seg.tier = run.tier) ∧
    ((inputs.map position).sum : ℤ) = run.bytes
  cap_pos : 0 < spec.joinCapFor run.tier
  bytes_le : run.bytes ≤ spec.joinCapFor run.tier

theorem JoinRun.Growing.flush (hgrowing : run.Growing spec segments rest i)
    (hne : rest ++ active ≠ []) (hmore : run.first < run.last) :
    run.Planned spec (segments ++ active) := by
  obtain ⟨before, inputs, hsegments, hfirst, hi, -, htiers, hbytes⟩ :=
    hgrowing.stretch
  have hlast := hgrowing.last_eq
  refine ⟨before, inputs, rest ++ active, ?_, hfirst, by omega, by omega, hne,
    htiers, hgrowing.cap_pos, ?_⟩
  · rw [hsegments, append_assoc]
  · rw [hbytes]
    exact hgrowing.bytes_le

theorem JoinRun.Growing.start {seg : Segment} {before : List Segment}
    (hsegments : segments = before ++ seg :: rest) (hi : i = before.length)
    (hcap : ¬ (spec.joinCapFor seg.tier ≤ 0 ∨ spec.joinCapFor seg.tier ≤ seg.position)) :
    JoinRun.Growing spec segments rest (i + 1) ⟨i, i, seg.tier, seg.position⟩ where
  last_eq := rfl
  stretch := ⟨before, [seg], by simp [hsegments], hi, by simp [hi], by simp, by simp, by simp⟩
  cap_pos := by simpa using (not_or.mp hcap).1
  bytes_le := by
    have := (not_or.mp hcap).2
    simp only
    omega

theorem JoinRun.Growing.grow {seg : Segment} (hgrowing : run.Growing spec segments (seg :: rest) i)
    (htier : run.tier = seg.tier) (hcap : run.bytes + seg.position ≤ spec.joinCapFor seg.tier) :
    JoinRun.Growing spec segments rest (i + 1)
      { run with last := i, bytes := run.bytes + seg.position } := by
  obtain ⟨before, inputs, hsegments, hfirst, hi, -, htiers, hbytes⟩ :=
    hgrowing.stretch
  constructor
  · rfl
  · refine ⟨before, inputs ++ [seg], by simp [hsegments], hfirst,
      by simp [hi]; omega, by simp, ?_, by simp [← hbytes]⟩
    intro other hother
    rcases mem_append.mp hother with hin | hin
    · exact htiers other hin
    · rw [mem_singleton.mp hin, htier]
  · exact hgrowing.cap_pos
  · simpa [htier] using hcap

/-- Where the runs still to come may start. -/
def runFloor (i : ℕ) (cur : Option JoinRun) : ℕ :=
  (cur.map JoinRun.first).getD i

/-- Planned runs from `floor` on, each behind the one before. -/
structure PlannedFrom (spec : JoinSpec) (segments : List Segment)
    (floor : ℕ) (runs : List JoinRun) : Prop where
  planned : ∀ run ∈ runs, run.Planned spec segments
  floor_le : ∀ run ∈ runs, floor ≤ run.first
  apart : runs.Pairwise fun a b => a.last < b.first

theorem PlannedFrom.flush {cur : Option JoinRun}
    (hcur : ∀ run, cur = some run → run.Growing spec segments rest i) (hne : rest ++ active ≠ [])
    {floor : ℕ} (hfloor : i ≤ floor) (hruns : PlannedFrom spec (segments ++ active) floor runs) :
    PlannedFrom spec (segments ++ active) (runFloor i cur) (flushRun cur ++ runs) := by
  cases cur with
  | none =>
    refine ⟨hruns.planned, fun run hrun => ?_, hruns.apart⟩
    exact hfloor.trans (hruns.floor_le run hrun)
  | some run =>
    have hgrowing := hcur run rfl
    have hbehind : ∀ other ∈ runs, run.last < other.first := by
      intro other hother
      have := hruns.floor_le other hother
      have := hgrowing.last_eq
      omega
    have hle : run.first ≤ i := by
      obtain ⟨before, inputs, -, hfirst, hi, -⟩ := hgrowing.stretch
      omega
    have hfloors : ∀ other ∈ runs, run.first ≤ other.first := fun other hother =>
      hle.trans (hfloor.trans (hruns.floor_le other hother))
    by_cases hmore : run.first < run.last
    · have hplanned := hgrowing.flush hne hmore
      simp only [flushRun, if_pos hmore, singleton_append]
      exact ⟨by simpa using ⟨hplanned, hruns.planned⟩, by simpa [runFloor] using hfloors,
        pairwise_cons.mpr ⟨hbehind, hruns.apart⟩⟩
    · simp only [flushRun, if_neg hmore, nil_append]
      exact ⟨hruns.planned, by simpa [runFloor] using hfloors, hruns.apart⟩

/-- Along the loop: what is planned from here on, whatever run is under way. -/
theorem plannedFrom_planLoop (hactive : active ≠ []) :
    ∀ (rest before : List Segment) (cur : Option JoinRun), segments = before ++ rest →
      (∀ run, cur = some run → run.Growing spec segments rest before.length) →
      PlannedFrom spec (segments ++ active) (runFloor before.length cur)
        (planLoop spec rest before.length cur) := by
  intro rest
  induction rest with
  | nil =>
    intro before cur hsegments hcur
    have hnil : PlannedFrom spec (segments ++ active) before.length [] :=
      ⟨by simp, by simp, Pairwise.nil⟩
    simpa [planLoop] using PlannedFrom.flush hcur (by simpa using hactive) le_rfl hnil
  | cons seg rest ih =>
    intro before cur hsegments hcur
    have hnext : segments = (before ++ [seg]) ++ rest := by simp [hsegments]
    have hlength : (before ++ [seg]).length = before.length + 1 := by simp
    have hne : seg :: rest ++ active ≠ [] := by simp
    simp only [planLoop]
    split_ifs with hcap
    · have hruns := ih (before ++ [seg]) none hnext (by simp)
      rw [hlength] at hruns
      exact PlannedFrom.flush hcur hne (by simp [runFloor]) hruns
    · cases hfilter : cur.filter fun run => decide (run.tier = seg.tier ∧
          run.bytes + seg.position ≤ spec.joinCapFor seg.tier) with
      | none =>
        have hstart := JoinRun.Growing.start hsegments rfl hcap
        have hruns := ih (before ++ [seg]) (some ⟨before.length,
          before.length, seg.tier, seg.position⟩) hnext (by
            rintro run ⟨⟩
            rw [hlength]
            exact hstart)
        rw [hlength] at hruns
        exact PlannedFrom.flush hcur hne (by simp [runFloor]) hruns
      | some run =>
        obtain ⟨hsome, hfits⟩ := Option.filter_eq_some_iff.mp hfilter
        have hfits := of_decide_eq_true hfits
        have hgrow := (hcur run hsome).grow hfits.1 hfits.2
        have hruns := ih (before ++ [seg]) (some { run with
          last := before.length
          bytes := run.bytes + seg.position }) hnext (by
            rintro grown ⟨⟩
            rw [hlength]
            exact hgrow)
        rw [hlength] at hruns
        simpa [runFloor, hsome] using hruns

theorem plannedFrom_planJoins (spec : JoinSpec) (segments : List Segment) :
    PlannedFrom spec segments 0 (planJoins spec segments) := by
  unfold planJoins
  split_ifs with hshort
  · exact ⟨by simp, by simp, Pairwise.nil⟩
  · have hne : segments ≠ [] := by
      rintro rfl
      simp at hshort
    have hactive : [segments.getLast hne] ≠ [] := by simp
    have hruns : PlannedFrom spec (segments.dropLast ++ [segments.getLast hne]) (runFloor 0 none)
        (planLoop spec segments.dropLast 0 none) :=
      plannedFrom_planLoop hactive segments.dropLast [] none rfl (by simp)
    simpa [runFloor, dropLast_append_getLast] using hruns

end Plan

/-! ## The list handed back -/

section Result

variable {env : JoinEnv} {segments passed after : List Segment}
variable {result : JoinResult}

structure JoinResult.Carries (result : JoinResult) (stretch : List Segment) :
    Prop where
  records : recordsOf result.segments = recordsOf stretch
  bases : (result.segments.map baseOffset).Sublist (stretch.map baseOffset)
  absorbed_mem : ∀ seg ∈ result.absorbed, seg.baseOffset ∈ stretch.map baseOffset
  absorbed : ∀ seg ∈ result.absorbed, seg.baseOffset ∉ result.segments.map baseOffset

theorem JoinResult.carries_untouched (stretch : List Segment) :
    JoinResult.Carries ⟨stretch, [], []⟩ stretch :=
  ⟨rfl, Sublist.refl _, by simp, by simp⟩

theorem JoinResult.Carries.append_left {stretch : List Segment}
    (hnodup : ((passed ++ stretch).map baseOffset).Nodup) (h : result.Carries stretch) :
    JoinResult.Carries ⟨passed ++ result.segments, result.runs, result.absorbed⟩
      (passed ++ stretch) := by
  rw [map_append, nodup_append] at hnodup
  constructor
  · simp only [recordsOf, flatMap_append]
    exact congrArg _ h.records
  · simpa using (Sublist.refl (passed.map baseOffset)).append h.bases
  · intro seg hseg
    rw [map_append]
    exact mem_append_right _ (h.absorbed_mem seg hseg)
  · intro seg hseg hmem
    rw [map_append] at hmem
    rcases mem_append.mp hmem with hin | hin
    · exact hnodup.2.2 _ hin _ (h.absorbed_mem seg hseg) rfl
    · exact h.absorbed seg hseg hin

theorem JoinResult.Carries.join {first : Segment} {others : List Segment} (runs : List JoinRun)
    (hnodup : ((first :: others ++ after).map baseOffset).Nodup) (h : result.Carries after) :
    JoinResult.Carries ⟨LogView.joinedSegment first others :: result.segments, runs,
        others ++ result.absorbed⟩ (first :: others ++ after) := by
  have hbase : (LogView.joinedSegment first others).baseOffset =
      first.baseOffset := rfl
  rw [cons_append, map_cons, nodup_cons, map_append, nodup_append] at hnodup
  obtain ⟨hfirst, -, -, hapart⟩ := hnodup
  rw [mem_append, not_or] at hfirst
  constructor
  · have hframes := LogView.frames_joinedSegment first others
    have hrecords := h.records
    simp only [recordsOf, flatMap_cons, flatMap_append, cons_append] at hframes hrecords ⊢
    rw [hframes, hrecords, append_assoc]
  · simp only [map_cons, cons_append, map_append, hbase]
    exact (h.bases.trans (sublist_append_right _ _)).cons_cons _
  · intro seg hseg
    simp only [map_append, mem_append, map_cons, cons_append, mem_cons]
    rcases mem_append.mp hseg with hin | hin
    · exact .inr (.inl (mem_map_of_mem hin))
    · exact .inr (.inr (h.absorbed_mem seg hin))
  · intro seg hseg hmem
    rw [map_cons, mem_cons, hbase] at hmem
    rcases mem_append.mp hseg with hin | hin
    · have hothers := mem_map_of_mem (f := baseOffset) hin
      rcases hmem with heq | hrest
      · exact hfirst.1 (heq ▸ hothers)
      · exact hapart _ hothers _ (h.bases.subset hrest) rfl
    · rcases hmem with heq | hrest
      · exact hfirst.2 (heq ▸ h.absorbed_mem seg hin)
      · exact h.absorbed seg hin hrest

/-! ## Run after run -/

theorem JoinEnv.noneCut_of_not_joins (hjoins : env.joins run = false) :
    env.NoneCut (run :: runs) ↔ env.NoneCut runs := by
  simp [NoneCut, hjoins]

theorem JoinEnv.noneCut_of_done
    (hjoins : env.joins run = true) (hends : env.ends run.first = .done) :
    env.NoneCut (run :: runs) ↔ env.NoneCut runs := by
  simp [NoneCut, hjoins, hends]

theorem JoinEnv.noneCut_of_ends
    (hjoins : env.joins run = true) (hends : env.ends run.first ≠ .done) :
    env.NoneCut (run :: runs) ↔ env.ends run.first ≠ .cut := by
  simp [NoneCut, hjoins, hends]

theorem JoinRun.Planned.stretches {next : ℕ}
    (hplanned : run.Planned spec segments) (hnext : next ≤ run.first) :
    ∃ first others, others ≠ [] ∧ (segments.take (run.last + 1)).drop run.first = first :: others ∧
      segments.drop run.first =
        first :: others ++ segments.drop (run.last + 1) ∧
      segments.drop next = (segments.take run.first).drop next ++ segments.drop run.first := by
  obtain ⟨before, inputs, after, rfl, hfirst, hlast, hmany, -⟩ := hplanned
  obtain ⟨first, others, rfl⟩ : ∃ first others, inputs = first :: others :=
    exists_cons_of_ne_nil (by rintro rfl; simp at hmany)
  refine ⟨first, others, by rintro rfl; simp at hmany, ?_, ?_, ?_⟩
  · rw [hlast, hfirst, ← length_append, take_left, drop_left]
  · rw [hlast, ← length_append, drop_left, hfirst, append_assoc, drop_left]
  · rw [hfirst, append_assoc, take_left, drop_left, drop_append_of_le_length (hfirst ▸ hnext)]

theorem PlannedFrom.tail {next : ℕ} (h : PlannedFrom spec segments next (run :: runs)) :
    PlannedFrom spec segments next runs ∧ PlannedFrom spec segments (run.last + 1) runs := by
  have hplanned := fun other hother =>
    h.planned other (mem_cons_of_mem run hother)
  have hapart := pairwise_cons.mp h.apart
  constructor
  · exact ⟨hplanned, fun other hother =>
      h.floor_le other (mem_cons_of_mem run hother), hapart.2⟩
  · exact ⟨hplanned, fun other hother => hapart.1 other hother, hapart.2⟩

theorem carries_joinLoop (hnodup : (segments.map baseOffset).Nodup) :
    ∀ (runs : List JoinRun) (next : ℕ), PlannedFrom spec segments next runs → env.NoneCut runs →
      (joinLoop env segments runs next).Carries (segments.drop next) := by
  have hdrop : ∀ n, ((segments.drop n).map baseOffset).Nodup := fun n =>
    hnodup.sublist ((drop_sublist n segments).map _)
  intro runs
  induction runs with
  | nil =>
    intro next _ _
    exact JoinResult.carries_untouched _
  | cons run runs ih =>
    intro next hruns hcut
    obtain ⟨first, others, -, hinputs, hrest, hfront⟩ :=
      (hruns.planned run (by simp)).stretches (hruns.floor_le run (by simp))
    have hnodup_next := hdrop next
    have hnodup_run := hdrop run.first
    rw [hfront] at hnodup_next ⊢
    cases hjoins : env.joins run with
    | false =>
      rw [JoinEnv.noneCut_of_not_joins hjoins] at hcut
      simpa [joinLoop, hjoins, ← hfront] using ih next hruns.tail.1 hcut
    | true =>
      cases hends : env.ends run.first with
      | done =>
        rw [JoinEnv.noneCut_of_done hjoins hends] at hcut
        rw [hrest] at hnodup_run
        have hjoin := (ih (run.last + 1) hruns.tail.2 hcut).join
          (run :: (joinLoop env segments runs (run.last + 1)).runs)
          hnodup_run
        rw [← hrest] at hjoin
        simpa [joinLoop, hjoins, hinputs, hends] using hjoin.append_left hnodup_next
      | failed =>
        have hsame := JoinResult.carries_untouched (segments.drop run.first)
        simpa [joinLoop, hjoins, hinputs, hends] using hsame.append_left hnodup_next
      | cut =>
        have hends' : env.ends run.first ≠ .done := by simp [hends]
        rw [JoinEnv.noneCut_of_ends hjoins hends'] at hcut
        exact absurd hends hcut

theorem absorbed_joinLoop :
    ∀ (runs : List JoinRun) (next : ℕ), PlannedFrom spec segments next runs → ¬ env.NoneCut runs →
      ∃ seg ∈ (joinLoop env segments runs next).absorbed,
        seg ∈ (joinLoop env segments runs next).segments := by
  intro runs
  induction runs with
  | nil =>
    intro next _ hcut
    exact absurd (by simp [JoinEnv.NoneCut]) hcut
  | cons run runs ih =>
    intro next hruns hcut
    obtain ⟨first, others, hne, hinputs, hrest, -⟩ :=
      (hruns.planned run (by simp)).stretches (hruns.floor_le run (by simp))
    cases hjoins : env.joins run with
    | false =>
      rw [JoinEnv.noneCut_of_not_joins hjoins] at hcut
      simpa [joinLoop, hjoins] using ih next hruns.tail.1 hcut
    | true =>
      cases hends : env.ends run.first with
      | done =>
        rw [JoinEnv.noneCut_of_done hjoins hends] at hcut
        obtain ⟨seg, habsorbed, hmem⟩ :=
          ih (run.last + 1) hruns.tail.2 hcut
        refine ⟨seg, ?_, ?_⟩
        · simp [joinLoop, hjoins, hinputs, hends, habsorbed]
        · simp [joinLoop, hjoins, hinputs, hends, hmem]
      | failed =>
        have hends' : env.ends run.first ≠ .done := by simp [hends]
        rw [JoinEnv.noneCut_of_ends hjoins hends', hends] at hcut
        exact absurd (by simp) hcut
      | cut =>
        obtain ⟨seg, hseg⟩ := exists_mem_of_ne_nil others hne
        have hbehind : segments.drop (run.first + 1) = others ++ segments.drop (run.last + 1) := by
          rw [← tail_drop, hrest, cons_append, tail_cons]
        refine ⟨seg, ?_, ?_⟩
        · simpa [joinLoop, hjoins, hinputs, hends] using hseg
        · simp [joinLoop, hjoins, hinputs, hends, hbehind, hseg]

theorem runs_joinLoop (runs : List JoinRun) (next : ℕ) :
    (joinLoop env segments runs next).runs.Sublist (runs.filter env.joins) := by
  induction runs generalizing next with
  | nil => simp [joinLoop]
  | cons run runs ih =>
    cases hjoins : env.joins run with
    | false => simpa [joinLoop, hjoins] using ih next
    | true =>
      simp only [joinLoop, hjoins, if_true, filter_cons_of_pos]
      split
      · exact (ih (run.last + 1)).cons_cons run
      · exact (nil_sublist _).cons_cons run
      · exact nil_sublist _

end Result

def tierSegment (tier : Option String) (offset : ℤ) : Segment :=
  ⟨offset, .raw [storedFrame offset], false, false, tier⟩

/-- Two sealed segments of a tier that is joined, and the active one. -/
def coldSegments : List Segment :=
  [tierSegment (some "cold") 0, tierSegment (some "cold") 1, tierSegment none 2]

def coldSpec : JoinSpec := ⟨0, fun tier => if tier = "cold" then 1000 else 0⟩

def coldEnv (joinEnd : JoinEnd) : JoinEnv :=
  ⟨fun _ => true, fun _ => true, fun _ => joinEnd⟩

end CommitLog
