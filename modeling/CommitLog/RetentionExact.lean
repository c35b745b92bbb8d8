import CommitLog.Retention

/-!
# How much a retention pass removes

Each limit names an index: the first segment that is still young enough, or the
first from which the total up to the active segment fits.  A pass removes up to
the largest of the three, and no further than the floor allows.  Across tiers
the runs are trimmed from the old end, one after the other, out of one
allowance.
-/

namespace CommitLog

open List

/-- The least index below `bound` that is good, or `bound` if there is none. -/
def FirstBelow (bound : ℕ) (good : ℕ → Prop) (i : ℕ) : Prop :=
  i ≤ bound ∧ (∀ j < i, ¬ good j) ∧ (i < bound → good i)

theorem FirstBelow.congr {bound i : ℕ} {good good' : ℕ → Prop} (hfirst : FirstBelow bound good i)
    (hsame : ∀ j < bound, good j ↔ good' j) : FirstBelow bound good' i := by
  have ⟨hle, hbefore, hgood⟩ := hfirst
  refine ⟨hle, fun j hj hgood' => ?_, fun hi => (hsame i hi).mp (hgood hi)⟩
  exact hbefore j hj ((hsame j (by omega)).mpr hgood')

theorem takeWhile_first {α : Type*} (p : α → Bool) (items : List α) :
    FirstBelow items.length (fun j => ∃ item, items[j]? = some item ∧ p item = false)
      (items.takeWhile p).length := by
  have hlen : (items.takeWhile p).length = items.findIdx fun item => !p item := by
    rw [takeWhile_eq_take_findIdx_not, length_take]
    exact Nat.min_eq_left findIdx_le_length
  rw [hlen]
  refine ⟨findIdx_le_length, ?_, ?_⟩
  · rintro j hj ⟨item, hitem, hp⟩
    have hnot := not_of_lt_findIdx hj
    obtain ⟨hlt, rfl⟩ := List.getElem?_eq_some_iff.mp hitem
    simp [hp] at hnot
  · intro hlt
    have hgood := findIdx_getElem (w := hlt)
    exact ⟨_, getElem?_eq_getElem hlt, by simpa using hgood⟩

/-! ## The indices -/

def totalFrom (measure : Segment → ℕ) (segments : List Segment) (i : ℕ) : ℕ :=
  ((segments.drop i).map measure).sum

def TotalFits (measure : Segment → ℕ) (limit : ℤ) (segments : List Segment) (i : ℕ) : Prop :=
  (totalFrom measure segments i : ℤ) ≤ limit

def WrittenSince (ttl : ℤ) (segments : List Segment) (i : ℕ) : Prop :=
  ∃ seg, segments[i]? = some seg ∧ ttl ≤ seg.lastWriteTime

def Names (limit : ℤ) (bound : ℕ) (good : ℕ → Prop) (i : ℕ) : Prop :=
  if 0 < limit then FirstBelow bound good i else i = 0

/-- The last segment whose base is at or below the floor, the active one
without a floor. -/
def FloorIndex (segments : List Segment) : Option ℤ → ℕ → Prop
  | none, i => i = segments.length - 1
  | some f, i =>
    (∀ j seg, i < j → segments[j]? = some seg → f < seg.baseOffset) ∧
      (i = 0 ∨ ∃ seg, segments[i]? = some seg ∧ seg.baseOffset ≤ f)

theorem totalFrom_append (measure : Segment → ℕ) (older : List Segment) (seg : Segment)
    {i : ℕ} (hi : i ≤ older.length) :
    totalFrom measure (older ++ [seg]) i = totalFrom measure older i + measure seg := by
  simp [totalFrom, drop_append_of_le_length hi]

/-- `total` is what the segments behind the walk measure.  The walk has not
stopped there, so it fits unless they are the ones to keep. -/
theorem totalCut_walk (measure : Segment → ℕ) (limit : ℤ) (keepNewest : ℕ)
    (older : List Segment) (seen : ℕ) (total : ℤ) (hfits : keepNewest < seen → total ≤ limit) :
    FirstBelow (older.length + seen - keepNewest)
      (fun j => total + totalFrom measure older.reverse j ≤ limit)
      (totalCut measure limit keepNewest seen total older) := by
  induction older generalizing seen total with
  | nil =>
    refine ⟨Nat.zero_le _, fun j hj => absurd hj (by simp [totalCut]), fun hlt => ?_⟩
    simp only [totalCut, length_nil, Nat.zero_add] at hlt
    simpa [totalCut, totalFrom] using hfits (by omega)
  | cons seg older ih =>
    have htotal : ∀ j ≤ older.length, total + (totalFrom measure (seg :: older).reverse j : ℤ) =
        total + measure seg + totalFrom measure older.reverse j := by
      intro j hj
      rw [reverse_cons, totalFrom_append measure older.reverse seg (by simpa using hj)]
      push_cast
      ring
    simp only [totalCut]
    split
    next hover =>
      refine ⟨by rw [length_cons]; omega, fun j hj => ?_, fun hlt => ?_⟩
      · simp only [htotal j (by omega)]
        omega
      · rw [length_cons] at hlt
        have hpast : (seg :: older).reverse.drop (older.length + 1) = [] :=
          drop_eq_nil_of_le (by simp)
        simpa [totalFrom, hpast] using hfits (by omega)
    next hunder =>
      have hle := totalCut_le_length measure limit keepNewest older (seen + 1) (total + measure seg)
      rcases ih (seen + 1) (total + measure seg) (by omega) with ⟨hbound, hbefore, hgood⟩
      refine ⟨by rw [length_cons]; omega, fun j hj => ?_, fun hlt => ?_⟩
      · simp only [htotal j (by omega)]
        exact hbefore j hj
      · simp only [htotal _ hle]
        exact hgood (by rw [length_cons] at hlt; omega)

theorem totalCut_names (measure : Segment → ℕ) (limit : ℤ) (keepNewest : ℕ)
    (segments : List Segment) :
    Names limit (segments.length - keepNewest) (TotalFits measure limit segments)
      (if 0 < limit then totalCut measure limit keepNewest 0 0 segments.reverse else 0) := by
  unfold Names
  by_cases hlimit : 0 < limit
  · rw [if_pos hlimit, if_pos hlimit]
    have hwalk := totalCut_walk measure limit keepNewest segments.reverse 0 0 (by omega)
    simp only [length_reverse, Nat.add_zero, reverse_reverse, zero_add] at hwalk
    exact hwalk
  · rw [if_neg hlimit, if_neg hlimit]

theorem expired_first (ttl : ℤ) (segments : List Segment) :
    FirstBelow segments.length (WrittenSince ttl segments) (expired ttl segments) := by
  apply (takeWhile_first (fun seg : Segment => decide (seg.lastWriteTime < ttl)) segments).congr
  intro j _
  simp [WrittenSince]

theorem expired_names (age now : ℤ) (segments : List Segment) :
    Names age (segments.length - 1) (WrittenSince (now - age) segments)
      (if 0 < age then expired (now - age) segments.dropLast else 0) := by
  unfold Names
  by_cases hage : 0 < age
  · rw [if_pos hage, if_pos hage]
    have hfirst := expired_first (now - age) segments.dropLast
    rw [length_dropLast] at hfirst
    apply hfirst.congr
    intro j hj
    rw [WrittenSince, WrittenSince, getElem?_dropLast, if_pos hj]
  · rw [if_neg hage, if_neg hage]

theorem deletablePrefix_floorIndex {segments : List Segment}
    (hsorted : segments.Pairwise fun seg later => seg.baseOffset < later.baseOffset) (f : ℤ) :
    FloorIndex segments (some f) (deletablePrefix segments (some f)) := by
  have ⟨hle, hbefore, hgood⟩ :=
    takeWhile_first (fun seg : Segment => decide (seg.baseOffset ≤ f)) segments.tail
  simp only [deletablePrefix]
  generalize (segments.tail.takeWhile fun seg => decide (seg.baseOffset ≤ f)).length = n at *
  simp only [getElem?_tail, length_tail, decide_eq_false_iff_not] at hle hbefore hgood
  constructor
  · intro j seg hj hseg
    obtain ⟨hlt, rfl⟩ := List.getElem?_eq_some_iff.mp hseg
    rcases hgood (by omega) with ⟨stop, hstop, hover⟩
    obtain ⟨hlo, rfl⟩ := List.getElem?_eq_some_iff.mp hstop
    -- the walk stopped at the segment behind `n`, and bases only grow from there
    by_cases heq : n + 1 = j
    · subst heq
      omega
    · have hbase := pairwise_iff_getElem.mp hsorted (n + 1) j hlo hlt (by omega)
      omega
  · cases n with
    | zero => exact Or.inl rfl
    | succ n =>
      have hlt : n + 1 < segments.length := by omega
      have hseg := getElem?_eq_getElem hlt
      right
      refine ⟨_, hseg, ?_⟩
      by_contra hover
      exact hbefore n (Nat.lt_succ_self n) ⟨_, hseg, hover⟩

/-- A pass that stops short of the active segment is held back by the floor at
the floor's index, whether or not there is a floor. -/
theorem exists_floorIndex {segments : List Segment}
    (hsorted : segments.Pairwise fun seg later => seg.baseOffset < later.baseOffset)
    (floor : Option ℤ) {n : ℕ} (hn : n ≤ segments.length - 1) :
    ∃ F, FloorIndex segments floor F ∧ min n (deletablePrefix segments floor) = min F n := by
  cases floor with
  | none =>
    refine ⟨segments.length - 1, rfl, ?_⟩
    simp only [deletablePrefix]
    omega
  | some f => exact ⟨_, deletablePrefix_floorIndex hsorted f, Nat.min_comm _ _⟩

/-! ## The runs of a pass -/

section Runs

variable {c : DeleteCleaner} {env : RetentionEnv}

/-- What a pass with this allowance does to one of its runs: the tier may be
written, and the older runs are gone.  The run loses what its tier's limits name
out of the rest of the allowance; newer runs lose something only behind it. -/
def DeleteCleaner.Trims (c : DeleteCleaner) (env : RetentionEnv) (maxDrop : ℕ)
    (front : List TierRun) (run : TierRun) (deleted : List Segment) : Prop :=
  env.skipTiers run.tier = false ∧ ∃ tier newer, c.tier run.tier = some tier ∧
    deleted = flattenRuns front ++
      (cleanTier env run.segments tier (maxDrop - (flattenRuns front).length)).deleted ++ newer ∧
    (newer ≠ [] → (cleanTier env run.segments tier (maxDrop - (flattenRuns front).length)).deleted =
        run.segments)

theorem cleanTier_deleted_append (segments : List Segment) (tier : Tier) (maxDrop : ℕ) :
    (cleanTier env segments tier maxDrop).deleted ++ (cleanTier env segments tier maxDrop).kept =
      segments := by
  rw [cleanTier_eq]
  exact dropped_append _ _

theorem cleanRuns_deleted {run : TierRun} {runs : List TierRun} {maxDrop : ℕ}
    (hne : (c.cleanRuns env (run :: runs) false maxDrop).deleted ≠ []) :
    env.skipTiers run.tier = false ∧ ∃ tier newer, c.tier run.tier = some tier ∧
      (c.cleanRuns env (run :: runs) false maxDrop).deleted =
        (cleanTier env run.segments tier maxDrop).deleted ++ newer ∧
      (newer ≠ [] → (cleanTier env run.segments tier maxDrop).deleted = run.segments ∧
        newer = (c.cleanRuns env runs false (maxDrop - run.segments.length)).deleted) := by
  rw [DeleteCleaner.cleanRuns] at hne ⊢
  by_cases hskip : env.skipTiers run.tier = true
  · simp [hskip, cleanRuns_blocked, Dropped.keep] at hne
  · simp only [hskip, Bool.or_false, Bool.false_eq_true, if_false] at hne ⊢
    refine ⟨trivial, ?_⟩
    cases htier : c.tier run.tier with
    | none => simp [htier] at hne
    | some tier =>
      have happend := @cleanTier_deleted_append env run.segments tier maxDrop
      simp only
      split
      · exact ⟨tier, [], rfl, (append_nil _).symm, fun h => absurd rfl h⟩
      · cases hkept : (cleanTier env run.segments tier maxDrop).kept with
        | nil =>
          rw [hkept, append_nil] at happend
          refine ⟨tier, _, rfl, rfl, fun _ => ⟨happend, ?_⟩⟩
          rw [happend]
          rfl
        | cons first rest =>
          refine ⟨tier, [], rfl, ?_, fun h => absurd rfl h⟩
          simp [cleanRuns_blocked, Dropped.keep]

theorem cleanRuns_trims (front : List TierRun) (run : TierRun) (back : List TierRun) (maxDrop : ℕ)
    (hreach : (flattenRuns front).length <
      (c.cleanRuns env (front ++ run :: back) false maxDrop).deleted.length) :
    (∀ older ∈ front, env.skipTiers older.tier = false) ∧ c.Trims env maxDrop front run
        (c.cleanRuns env (front ++ run :: back) false maxDrop).deleted := by
  induction front generalizing maxDrop with
  | nil =>
    have hne := length_pos_iff.mp (Nat.zero_lt_of_lt hreach)
    have ⟨hwritable, tier, newer, htier, hdeleted, hnewer⟩ := cleanRuns_deleted hne
    refine ⟨by simp, hwritable, tier, newer, htier, hdeleted, fun h => (hnewer h).1⟩
  | cons first front ih =>
    rw [cons_append] at hreach ⊢
    have hne := length_pos_iff.mp (Nat.zero_lt_of_lt hreach)
    have ⟨hwritable, tier, newer, htier, hdeleted, hnewer⟩ := cleanRuns_deleted hne
    have hlen : (flattenRuns (first :: front)).length =
        first.segments.length + (flattenRuns front).length := length_append
    have hfirst := congrArg length (@cleanTier_deleted_append env first.segments tier maxDrop)
    rw [length_append] at hfirst
    -- something behind the first run is gone, so the first run is
    have hmore : newer ≠ [] := by
      intro hnil
      rw [hdeleted, hnil, append_nil] at hreach
      omega
    have ⟨hwhole, hrest⟩ := hnewer hmore
    rw [hwhole, hrest] at hdeleted
    rw [hdeleted] at hreach ⊢
    rw [length_append, hlen] at hreach
    have ⟨holder, hrun, tier', newer', htier', hdeleted', hnewer'⟩ :=
      ih (maxDrop - first.segments.length) (by omega)
    rw [Nat.sub_sub, ← hlen] at hdeleted' hnewer'
    constructor
    · intro older hmem
      cases mem_cons.mp hmem with
      | inl heq => rw [heq]; exact hwritable
      | inr hin => exact holder older hin
    · refine ⟨hrun, tier', newer', htier', ?_, hnewer'⟩
      rw [hdeleted']
      simp [flattenRuns]

end Runs

theorem localQuota_le (c : DeleteCleaner) (env : RetentionEnv) (segments : List Segment) :
    c.localQuota env segments ≤ segments.length - 1 := by
  by_cases hnil : segments = []
  · subst hnil
    simp [DeleteCleaner.localQuota, expired, totalCut]
  · have hlt := @localQuota_lt env c segments hnil
    omega

theorem clean_kept_of_local {c : DeleteCleaner} {env : RetentionEnv} {segments : List Segment}
    (hlocal : ∀ seg ∈ segments, seg.isOffloaded = false)
    (hok : ∀ seg ∈ segments, env.deleteFails seg = false) :
    (c.clean env segments).kept = segments.drop (min (c.localQuota env segments)
      (deletablePrefix segments env.floor)) := by
  have hpart : offloadedPart segments = [] := by
    cases segments with
    | nil => rfl
    | cons first rest =>
      exact takeWhile_cons_of_neg (by simp [hlocal first mem_cons_self])
  have hrest : residentPart segments = segments := by
    have hwhole := offloadedPart_append segments
    rwa [hpart, nil_append] at hwhole
  have hstage : c.tierStage env segments = .keep [] := by
    simp [DeleteCleaner.tierStage, hpart]
  have hdropped : ∀ n, (droppedOldest env segments n).failed = false := by
    intro n
    rw [← Bool.not_eq_true, dropped_failed]
    rintro ⟨seg, hseg, hfails⟩
    rw [hok seg (mem_of_mem_take hseg)] at hfails
    cases hfails
  rw [clean_eq, hstage, hrest]
  simp [Dropped.keep, dropped_of_ok (hdropped _)]

/-- A log on local disk keeps the segments from the index on that the limits
and the floor name.  Over tiers, a run is trimmed only behind removed ones, in a
tier that may be written; what goes is the oldest part, within the floor. -/
theorem retention_exact (c : DeleteCleaner) (env : RetentionEnv) :
    (∀ segments : List Segment, (∀ seg ∈ segments, seg.isOffloaded = false) →
      (segments.Pairwise fun seg later => seg.baseOffset < later.baseOffset) →
      (∀ seg ∈ segments, env.deleteFails seg = false) →
      ∃ A M B F, Names c.retention.age (segments.length - 1)
          (WrittenSince (env.now - c.retention.age) segments) A ∧
        Names c.retention.messages (segments.length - 1)
          (TotalFits messageCount c.retention.messages segments) M ∧
        Names c.retention.bytes (segments.length - 1)
          (TotalFits env.physicalSize c.retention.bytes segments) B ∧
        FloorIndex segments env.floor F ∧
        (c.clean env segments).kept = segments.drop (min F (max A (max M B)))) ∧
    (∀ runs maxDrop, (c.cleanRuns env runs false maxDrop).deleted ++
          (c.cleanRuns env runs false maxDrop).kept = flattenRuns runs ∧
        (c.cleanRuns env runs false maxDrop).deleted.length ≤ maxDrop ∧
        ∀ front run back, runs = front ++ run :: back →
          (flattenRuns front).length < (c.cleanRuns env runs false maxDrop).deleted.length →
          (∀ older ∈ front, env.skipTiers older.tier = false) ∧
            c.Trims env maxDrop front run (c.cleanRuns env runs false maxDrop).deleted) ∧
    ∀ segments, (c.tierStage env segments).deleted ++ (c.tierStage env segments).kept =
        offloadedPart segments ∧
      (c.tierStage env segments).deleted.length ≤ deletablePrefix segments env.floor := by
  refine ⟨?_, ?_, fun segments => tierStage_append⟩
  · intro segments hlocal hsorted hok
    have hnames := localQuota_le c env segments
    have ⟨F, hfloor, hmin⟩ := exists_floorIndex hsorted env.floor hnames
    refine ⟨_, _, _, F, expired_names c.retention.age env.now segments,
      totalCut_names messageCount c.retention.messages keepActiveSegment segments,
      totalCut_names env.physicalSize c.retention.bytes keepActiveSegment segments, hfloor, ?_⟩
    rw [clean_kept_of_local hlocal hok, hmin]
    rfl
  · intro runs maxDrop
    have ⟨happend, hle⟩ := @cleanRuns_append c env runs maxDrop
    refine ⟨happend, hle, ?_⟩
    intro front run back hruns hreach
    subst hruns
    exact cleanRuns_trims front run back maxDrop hreach

theorem retention_exact_localLog :
    (oneMessageCleaner.clean quietEnv [singleSegment 0 none, singleSegment 1 none]).kept =
        [singleSegment 1 none] ∧
      ∃ M F, Names 1 1 (TotalFits messageCount 1 [singleSegment 0 none, singleSegment 1 none]) M ∧
        FloorIndex [singleSegment 0 none, singleSegment 1 none] none F ∧
        (oneMessageCleaner.clean quietEnv [singleSegment 0 none, singleSegment 1 none]).kept =
          [singleSegment 0 none, singleSegment 1 none].drop (min F M) := by
  refine ⟨by decide +kernel, ?_⟩
  have ⟨A, M, B, F, hA, hM, hB, hF, hkept⟩ := (retention_exact oneMessageCleaner quietEnv).1
    [singleSegment 0 none, singleSegment 1 none] (by decide +kernel) (by decide +kernel)
    (by decide +kernel)
  have hage : A = 0 := hA
  have hbytes : B = 0 := hB
  rw [hage, hbytes, Nat.max_zero, Nat.zero_max] at hkept
  exact ⟨M, F, hM, hF, hkept⟩

end CommitLog
