import CommitLog.Segments

/-!
# Retention

The delete cleaner removes whole segments from the old end of the log: the
offloaded ones by the limits of their tier, the local ones by the limits of
the disk.  Each stage removes the oldest segments of the slice it is given, so
what is left of a slice is a suffix; the two slices together are shortened from
the old end only if the local stage waits for the tiered one.
-/

namespace CommitLog

open List

variable {n : ℕ} {seg : Segment}

structure RetentionLimits where
  bytes : ℤ
  messages : ℤ
  age : ℤ

structure Tier where
  name : String
  maxBytes : ℤ
  maxMessages : ℤ
  maxAge : ℤ

structure DeleteCleaner where
  retention : RetentionLimits
  tiers : List Tier

/-- What a pass runs against: the clock, the tiers it may not write to, the
floor, the sizes on disk and the deletions that fail. -/
structure RetentionEnv where
  now : ℤ
  skipTiers : String → Bool
  floor : Option ℤ
  physicalSize : Segment → ℕ
  deleteFails : Segment → Bool

structure Dropped where
  deleted : List Segment
  kept : List Segment
  failed : Bool

namespace Dropped

def keep (segments : List Segment) : Dropped := ⟨[], segments, false⟩

/-- The next limit, applied to what the last one left unless that failed. -/
def andThen (d : Dropped) (next : List Segment → Dropped) : Dropped :=
  if d.failed then d
  else
    let rest := next d.kept
    ⟨d.deleted ++ rest.deleted, rest.kept, rest.failed⟩

end Dropped

/-! ## Deleting a run of oldest segments -/

def deleteEach (env : RetentionEnv) : List Segment → List Segment → Dropped
  | [], keep => ⟨[], keep, false⟩
  | seg :: drop, keep =>
    if env.deleteFails seg then ⟨[], seg :: drop ++ keep, true⟩
    else
      let rest := deleteEach env drop keep
      ⟨seg :: rest.deleted, rest.kept, rest.failed⟩

def dropOldestPrefix (env : RetentionEnv) (segments : List Segment) (idx maxDrop : ℕ) : Dropped :=
  deleteEach env (segments.take (min idx maxDrop)) (segments.drop (min idx maxDrop))

/-- How many of the oldest segments lie wholly below the floor. -/
def deletablePrefix (segments : List Segment) : Option ℤ → ℕ
  | none => segments.length
  | some f =>
    (segments.tail.takeWhile fun seg => decide (seg.baseOffset ≤ f)).length

/-! ## The limits -/

/-- The walk of `applyTotalLimit`, newest segment first: `seen` segments with
the given total lie behind it.  The result is how many to drop. -/
def totalCut (measure : Segment → ℕ) (limit : ℤ) (keepNewest : ℕ) : ℕ → ℤ → List Segment → ℕ
  | _, _, [] => 0
  | seen, total, seg :: older =>
    let total := total + measure seg
    if limit < total ∧ keepNewest ≤ seen then older.length + 1
    else totalCut measure limit keepNewest (seen + 1) total older

def applyTotalLimit (env : RetentionEnv) (segments : List Segment)
    (limit : ℤ) (measure : Segment → ℕ) (keepNewest maxDrop : ℕ) : Dropped :=
  dropOldestPrefix env segments (totalCut measure limit keepNewest 0 0 segments.reverse) maxDrop

def expired (ttl : ℤ) (segments : List Segment) : ℕ :=
  (segments.takeWhile fun seg => decide (seg.lastWriteTime < ttl)).length

def applyAgeLimit (env : RetentionEnv) (age : ℤ) (segments : List Segment)
    (maxDrop : ℕ) : Dropped :=
  if segments.length ≤ 1 then .keep segments
  else dropOldestPrefix env segments (expired (env.now - age) segments.dropLast) maxDrop

def messageCount (seg : Segment) : ℕ := seg.frames.length

/-- The active segment is the last of the local ones and is never dropped. -/
def keepActiveSegment : ℕ := 1

def keepNoSegment : ℕ := 0

namespace DeleteCleaner

variable (c : DeleteCleaner) (env : RetentionEnv)

def noRetentionLimits : Bool :=
  decide (c.retention.bytes ≤ 0) && decide (c.retention.messages ≤ 0) &&
    decide (c.retention.age ≤ 0)

def noTierLimits : Bool :=
  c.tiers.all fun t =>
    decide (t.maxBytes = 0) && decide (t.maxMessages = 0) &&
      decide (t.maxAge = 0)

def localAge (segments : List Segment) : Dropped :=
  if 0 < c.retention.age then
    applyAgeLimit env c.retention.age segments (deletablePrefix segments env.floor)
  else .keep segments

def localMessages (segments : List Segment) : Dropped :=
  if 0 < c.retention.messages then
    applyTotalLimit env segments c.retention.messages messageCount
      keepActiveSegment (deletablePrefix segments env.floor)
  else .keep segments

def localBytes (segments : List Segment) : Dropped :=
  if 0 < c.retention.bytes then
    applyTotalLimit env segments c.retention.bytes env.physicalSize
      keepActiveSegment (deletablePrefix segments env.floor)
  else .keep segments

def cleanLocal (segments : List Segment) : Dropped :=
  ((c.localAge env segments).andThen (c.localMessages env)).andThen (c.localBytes env)

end DeleteCleaner

/-! ## Tiers -/

structure TierRun where
  tier : String
  segments : List Segment

def Segment.tierName (seg : Segment) : String := seg.tier.getD ""

def tierRuns : List Segment → List TierRun
  | [] => []
  | seg :: rest =>
    match tierRuns rest with
    | [] => [⟨seg.tierName, [seg]⟩]
    | run :: runs =>
      if run.tier = seg.tierName then
        ⟨run.tier, seg :: run.segments⟩ :: runs
      else ⟨seg.tierName, [seg]⟩ :: run :: runs

def flattenRuns (runs : List TierRun) : List Segment :=
  runs.flatMap TierRun.segments

def tierAge (env : RetentionEnv) (tier : Tier) (maxDrop : ℕ) (segments : List Segment) : Dropped :=
  if 0 < tier.maxAge then
    dropOldestPrefix env segments (expired (env.now - tier.maxAge) segments) maxDrop
  else .keep segments

def tierMessages (env : RetentionEnv) (tier : Tier) (maxDrop : ℕ)
    (segments : List Segment) : Dropped :=
  if 0 < tier.maxMessages then
    applyTotalLimit env segments tier.maxMessages messageCount keepNoSegment maxDrop
  else .keep segments

def tierBytes (env : RetentionEnv) (tier : Tier) (maxDrop : ℕ)
    (segments : List Segment) : Dropped :=
  if 0 < tier.maxBytes then
    applyTotalLimit env segments tier.maxBytes env.physicalSize keepNoSegment maxDrop
  else .keep segments

/-- The allowance is spent by what each limit deletes. -/
def cleanTier (env : RetentionEnv) (segments : List Segment) (tier : Tier)
    (maxTierDrop : ℕ) : Dropped :=
  let byAge := tierAge env tier maxTierDrop segments
  let byMessages := byAge.andThen (tierMessages env tier (maxTierDrop - byAge.deleted.length))
  byMessages.andThen (tierBytes env tier (maxTierDrop - byMessages.deleted.length))

namespace DeleteCleaner

variable (c : DeleteCleaner) (env : RetentionEnv)

def tier (name : String) : Option Tier :=
  c.tiers.find? fun t => decide (t.name = name)

/-- `cleanTiers` over the runs that are left. -/
def cleanRuns : List TierRun → Bool → ℕ → Dropped
  | [], _, _ => ⟨[], [], false⟩
  | run :: runs, blocked, maxDrop =>
    if blocked || env.skipTiers run.tier then
      let rest := cleanRuns runs true maxDrop
      ⟨rest.deleted, run.segments ++ rest.kept, rest.failed⟩
    else
      match c.tier run.tier with
      | none => ⟨[], flattenRuns (run :: runs), true⟩
      | some tier =>
        let d := cleanTier env run.segments tier maxDrop
        if d.failed then ⟨d.deleted, d.kept ++ flattenRuns runs, true⟩
        else
          let rest := cleanRuns runs (!d.kept.isEmpty) (maxDrop - d.deleted.length)
          ⟨d.deleted ++ rest.deleted, d.kept ++ rest.kept, rest.failed⟩

def cleanTiers (segments : List Segment) (maxDrop : ℕ) : Dropped :=
  c.cleanRuns env (tierRuns segments) false maxDrop

end DeleteCleaner

/-- `splitOffloadedPrefix`, the cut at the first local segment. -/
def offloadedPart (segments : List Segment) : List Segment :=
  segments.takeWhile Segment.isOffloaded

def residentPart (segments : List Segment) : List Segment :=
  segments.dropWhile Segment.isOffloaded

namespace DeleteCleaner

variable (c : DeleteCleaner) (env : RetentionEnv)

/-- The tier stage of `Clean`. -/
def tierStage (segments : List Segment) : Dropped :=
  if offloadedPart segments ≠ [] ∧ c.noTierLimits = false then
    c.cleanTiers env (offloadedPart segments) (min (deletablePrefix segments env.floor)
        (offloadedPart segments).length)
  else .keep (offloadedPart segments)

/-- `Clean`. -/
def clean (segments : List Segment) : Dropped :=
  if segments = [] ∨ (c.noRetentionLimits = true ∧ c.noTierLimits = true) then
    .keep segments
  else
    let tiered := c.tierStage env segments
    if tiered.failed = true ∨ c.noRetentionLimits = true then
      ⟨tiered.deleted, tiered.kept ++ residentPart segments, tiered.failed⟩
    else
      let resident := c.cleanLocal env (residentPart segments)
      ⟨tiered.deleted ++ resident.deleted, tiered.kept ++ resident.kept, resident.failed⟩

end DeleteCleaner

/-! ## One slice -/

/-- The oldest `n` segments go, up to the first whose deletion fails. -/
def droppedOldest (env : RetentionEnv) (segments : List Segment) (n : ℕ) :
    Dropped :=
  deleteEach env (segments.take n) (segments.drop n)

section Slices

variable {env : RetentionEnv}

theorem deleteEach_append (drop keep : List Segment) :
    (deleteEach env drop keep).deleted ++ (deleteEach env drop keep).kept = drop ++ keep := by
  induction drop with
  | nil => rfl
  | cons seg drop ih =>
    by_cases hfails : env.deleteFails seg = true
    · simp [deleteEach, hfails]
    · simp [deleteEach, hfails, ih]

variable {drop : List Segment}

theorem deleteEach_failed (keep : List Segment) :
    (deleteEach env drop keep).failed = true ↔ ∃ seg ∈ drop, env.deleteFails seg = true := by
  induction drop with
  | nil => simp [deleteEach]
  | cons seg drop ih =>
    by_cases hfails : env.deleteFails seg = true
    · simp [deleteEach, hfails]
    · simp [deleteEach, hfails, ih]

theorem deleteEach_of_failed (keep : List Segment)
    (hfailed : ∃ seg ∈ drop, env.deleteFails seg = true) (more : List Segment) :
    deleteEach env (drop ++ more) keep = deleteEach env drop (more ++ keep) := by
  induction drop with
  | nil => simp at hfailed
  | cons seg drop ih =>
    by_cases hfails : env.deleteFails seg = true
    · simp [deleteEach, hfails]
    · have hrest : ∃ seg ∈ drop, env.deleteFails seg = true := by
        rcases hfailed with ⟨other, hmem, hother⟩
        rcases mem_cons.mp hmem with heq | hin
        · rw [heq] at hother
          exact absurd hother hfails
        · exact ⟨other, hin, hother⟩
      simp [deleteEach, hfails, ih hrest]

theorem deleteEach_of_ok (hok : ∀ seg ∈ drop, env.deleteFails seg = false)
    (more keep : List Segment) :
    deleteEach env (drop ++ more) keep = ⟨drop ++ (deleteEach env more keep).deleted,
        (deleteEach env more keep).kept,
        (deleteEach env more keep).failed⟩ := by
  induction drop with
  | nil => rfl
  | cons seg drop ih =>
    have hseg := hok seg mem_cons_self
    have hrest := ih fun other hother =>
      hok other (mem_cons_of_mem _ hother)
    simp [deleteEach, hseg, hrest]

theorem dropped_append (segments : List Segment) (n : ℕ) :
    (droppedOldest env segments n).deleted ++ (droppedOldest env segments n).kept =
      segments := by
  unfold droppedOldest
  rw [deleteEach_append, take_append_drop]

theorem dropped_zero (segments : List Segment) :
    droppedOldest env segments 0 = .keep segments := rfl

variable {segments : List Segment}

theorem dropped_failed : (droppedOldest env segments n).failed = true ↔
      ∃ seg ∈ segments.take n, env.deleteFails seg = true :=
  deleteEach_failed _

theorem dropped_of_ok (hok : (droppedOldest env segments n).failed = false) :
    droppedOldest env segments n = ⟨segments.take n, segments.drop n, false⟩ := by
  have hall : ∀ seg ∈ segments.take n, env.deleteFails seg = false := by
    intro seg hseg
    cases hfails : env.deleteFails seg with
    | false => rfl
    | true =>
      have hfailed := dropped_failed.mpr ⟨seg, hseg, hfails⟩
      rw [hok] at hfailed
      exact absurd hfailed (by simp)
  have hsplit := deleteEach_of_ok hall [] (segments.drop n)
  rw [append_nil] at hsplit
  unfold droppedOldest
  rw [hsplit]
  simp [deleteEach]

theorem dropped_andThen {next : List Segment → Dropped} {m : ℕ}
    (hnext : (droppedOldest env segments n).failed = false →
      next (segments.drop n) = droppedOldest env (segments.drop n) m) :
    (droppedOldest env segments n).andThen next = droppedOldest env segments (n + m) := by
  unfold Dropped.andThen
  by_cases hfailed : (droppedOldest env segments n).failed = true
  · rw [if_pos hfailed]
    unfold droppedOldest
    rw [take_add, deleteEach_of_failed _ (dropped_failed.mp hfailed)]
    congr 1
    rw [← drop_drop, take_append_drop]
  · rw [if_neg hfailed]
    have hok : (droppedOldest env segments n).failed = false := by
      simpa using hfailed
    have hwhole := dropped_of_ok hok
    rw [hwhole]
    simp only
    rw [hnext hok]
    unfold droppedOldest
    rw [take_add, deleteEach_of_ok, drop_drop]
    intro seg hseg
    cases hfails : env.deleteFails seg with
    | false => rfl
    | true => exact absurd (dropped_failed.mpr ⟨seg, hseg, hfails⟩) hfailed

theorem deleteEach_deleted_sublist (drop keep : List Segment) :
    (deleteEach env drop keep).deleted.Sublist drop := by
  induction drop with
  | nil => exact Sublist.refl []
  | cons seg drop ih =>
    by_cases hfails : env.deleteFails seg = true
    · simp [deleteEach, hfails]
    · simp [deleteEach, hfails, ih]

theorem mem_deleted_dropped (hmem : seg ∈ (droppedOldest env segments n).deleted) :
    seg ∈ segments.take n :=
  (deleteEach_deleted_sublist _ _).subset hmem

end Slices

/-! ## What the limits ask for -/

theorem totalCut_le (measure : Segment → ℕ) (limit : ℤ) (keepNewest : ℕ)
    (segments : List Segment) (seen : ℕ) (total : ℤ) :
    totalCut measure limit keepNewest seen total segments ≤
      segments.length + seen - keepNewest := by
  induction segments generalizing seen total with
  | nil => simp [totalCut]
  | cons seg older ih =>
    simp only [totalCut]
    split
    next hover =>
      rw [length_cons]
      omega
    next hunder =>
      have hrest := ih (seen + 1) (total + measure seg)
      rw [length_cons]
      omega

theorem totalCut_le_length (measure : Segment → ℕ) (limit : ℤ) (keepNewest : ℕ)
    (older : List Segment) (seen : ℕ) (total : ℤ) :
    totalCut measure limit keepNewest seen total older ≤ older.length := by
  induction older generalizing seen total with
  | nil => simp [totalCut]
  | cons seg older ih =>
    simp only [totalCut]
    split
    · exact le_rfl
    · exact (ih _ _).trans (Nat.le_succ _)

theorem totalCut_append (measure : Segment → ℕ) (limit : ℤ)
    (keepNewest : ℕ) (newer older : List Segment) (seen : ℕ) (total : ℤ) :
    totalCut measure limit keepNewest seen total newer =
      totalCut measure limit keepNewest seen total (newer ++ older) -
        older.length := by
  induction newer generalizing seen total with
  | nil =>
    simp only [totalCut, nil_append]
    have hle := totalCut_le_length measure limit keepNewest older seen total
    omega
  | cons seg newer ih =>
    simp only [totalCut, cons_append]
    split
    · rw [length_append]
      omega
    · exact ih _ _

theorem totalCut_drop (measure : Segment → ℕ) (limit : ℤ) (keepNewest : ℕ)
    (segments : List Segment) (hn : n ≤ segments.length) :
    totalCut measure limit keepNewest 0 0 (segments.drop n).reverse =
      totalCut measure limit keepNewest 0 0 segments.reverse - n := by
  have hsplit : segments.reverse = (segments.drop n).reverse ++ (segments.take n).reverse := by
    rw [← reverse_append, take_append_drop]
  rw [totalCut_append measure limit keepNewest (segments.drop n).reverse (segments.take n).reverse,
    ← hsplit, length_reverse, length_take, Nat.min_eq_left hn]

theorem deletablePrefix_le (segments : List Segment) (floor : Option ℤ) :
    deletablePrefix segments floor ≤ segments.length := by
  cases floor with
  | none => exact le_rfl
  | some f =>
    unfold deletablePrefix
    have hle := (takeWhile_sublist (fun seg : Segment => decide (seg.baseOffset ≤ f))
      (l := segments.tail)).length_le
    rw [length_tail] at hle
    simp only
    omega

theorem length_takeWhile_drop {α : Type*} (p : α → Bool) (items : List α)
    (hn : n ≤ (items.takeWhile p).length) :
    ((items.drop n).takeWhile p).length = (items.takeWhile p).length - n := by
  induction n generalizing items with
  | zero => simp
  | succ n ih =>
    cases items with
    | nil => simp at hn
    | cons first rest =>
      by_cases hp : p first = true
      · rw [takeWhile_cons_of_pos hp, length_cons] at hn ⊢
        rw [drop_succ_cons, ih rest (by omega)]
        omega
      · rw [takeWhile_cons_of_neg hp] at hn
        simp at hn

theorem deletablePrefix_drop {segments : List Segment} {floor : Option ℤ}
    (hn : n ≤ deletablePrefix segments floor) :
    deletablePrefix (segments.drop n) floor = deletablePrefix segments floor - n := by
  cases floor with
  | none => simp [deletablePrefix]
  | some f =>
    unfold deletablePrefix at hn ⊢
    rw [tail_drop, ← drop_tail]
    exact length_takeWhile_drop _ _ hn

/-- How many of the oldest segments the limits of the disk name. -/
def DeleteCleaner.localQuota (c : DeleteCleaner) (env : RetentionEnv)
    (segments : List Segment) : ℕ :=
  max (if 0 < c.retention.age then
      expired (env.now - c.retention.age) segments.dropLast else 0)
    (max (if 0 < c.retention.messages then
        totalCut messageCount c.retention.messages keepActiveSegment 0 0 segments.reverse else 0)
      (if 0 < c.retention.bytes then
        totalCut env.physicalSize c.retention.bytes keepActiveSegment 0 0 segments.reverse else 0))

/-- How many of the oldest segments of a run the limits of its tier name. -/
def Tier.quota (env : RetentionEnv) (tier : Tier) (segments : List Segment) : ℕ :=
  max (if 0 < tier.maxAge then
      expired (env.now - tier.maxAge) segments else 0)
    (max (if 0 < tier.maxMessages then
        totalCut messageCount tier.maxMessages keepNoSegment 0 0 segments.reverse else 0)
      (if 0 < tier.maxBytes then
        totalCut env.physicalSize tier.maxBytes keepNoSegment 0 0 segments.reverse else 0))

section Limits

variable {env : RetentionEnv}

theorem totalLimit_dropped (segments : List Segment) (limit : ℤ) (measure : Segment → ℕ)
    (keepNewest : ℕ) {n : ℕ} (hn : n ≤ segments.length) (maxDrop : ℕ) :
    (if 0 < limit then
        applyTotalLimit env (segments.drop n) limit measure keepNewest maxDrop
      else .keep (segments.drop n)) =
      droppedOldest env (segments.drop n) (min ((if 0 < limit then
        totalCut measure limit keepNewest 0 0 segments.reverse else 0) - n) maxDrop) := by
  by_cases hlimit : 0 < limit
  · rw [if_pos hlimit, if_pos hlimit, ← totalCut_drop measure limit keepNewest segments hn]
    rfl
  · rw [if_neg hlimit, if_neg hlimit, Nat.zero_sub, Nat.zero_min]
    rfl

theorem length_deleted_dropped {segments : List Segment}
    (hok : (droppedOldest env segments n).failed = false) (hn : n ≤ segments.length) :
    (droppedOldest env segments n).deleted.length = n := by
  rw [dropped_of_ok hok]
  simp only [length_take]
  omega

theorem expired_le (ttl : ℤ) (segments : List Segment) : expired ttl segments ≤ segments.length :=
  (takeWhile_sublist _).length_le

theorem andThen_limit {segments : List Segment} {A M maxDrop : ℕ} {next : List Segment → Dropped}
    (hnext : (droppedOldest env segments (min A maxDrop)).failed = false →
      next (segments.drop (min A maxDrop)) = droppedOldest env (segments.drop (min A maxDrop))
          (min (M - min A maxDrop) (maxDrop - min A maxDrop))) :
    (droppedOldest env segments (min A maxDrop)).andThen next =
      droppedOldest env segments (min (max A M) maxDrop) := by
  rw [dropped_andThen hnext]
  congr 1
  omega

theorem tierAge_eq (segments : List Segment) (tier : Tier) (maxDrop : ℕ) :
    tierAge env tier maxDrop segments = droppedOldest env segments (min (if 0 < tier.maxAge then
        expired (env.now - tier.maxAge) segments else 0) maxDrop) := by
  unfold tierAge
  by_cases hlimit : 0 < tier.maxAge
  · rw [if_pos hlimit, if_pos hlimit]
    rfl
  · rw [if_neg hlimit, if_neg hlimit, Nat.zero_min]
    rfl

theorem ite_expired_le (limit ttl : ℤ) (segments : List Segment) :
    (if 0 < limit then expired ttl segments else 0) ≤ segments.length := by
  split
  · exact expired_le _ _
  · exact Nat.zero_le _

theorem ite_totalCut_le (limit : ℤ) (measure : Segment → ℕ)
    (keepNewest : ℕ) (segments : List Segment) :
    (if 0 < limit then totalCut measure limit keepNewest 0 0
      segments.reverse else 0) ≤ segments.length - keepNewest := by
  split
  · have hle := totalCut_le measure limit keepNewest segments.reverse 0 0
    rw [length_reverse] at hle
    omega
  · exact Nat.zero_le _

theorem cleanTier_eq (segments : List Segment) (tier : Tier) (maxDrop : ℕ) :
    cleanTier env segments tier maxDrop =
      droppedOldest env segments (min (tier.quota env segments) maxDrop) := by
  unfold cleanTier Tier.quota
  simp only [tierAge_eq]
  have hA := ite_expired_le tier.maxAge (env.now - tier.maxAge) segments
  have hM := ite_totalCut_le tier.maxMessages messageCount keepNoSegment segments
  have hmessages := @totalLimit_dropped env segments tier.maxMessages messageCount keepNoSegment
  have hbytes := @totalLimit_dropped env segments tier.maxBytes env.physicalSize keepNoSegment
  generalize (if 0 < tier.maxAge then
    expired (env.now - tier.maxAge) segments else 0) = A at hA ⊢
  generalize (if 0 < tier.maxMessages then
    totalCut messageCount tier.maxMessages keepNoSegment 0 0
      segments.reverse else 0) = M at hM hmessages ⊢
  generalize (if 0 < tier.maxBytes then
    totalCut env.physicalSize tier.maxBytes keepNoSegment 0 0
      segments.reverse else 0) = B at hbytes ⊢
  have hfirst : (droppedOldest env segments (min A maxDrop)).andThen (tierMessages env tier
        (maxDrop - (droppedOldest env segments (min A maxDrop)).deleted.length)) =
      droppedOldest env segments (min (max A M) maxDrop) := by
    apply andThen_limit
    intro hok
    rw [length_deleted_dropped hok (by omega)]
    exact hmessages (by omega) _
  rw [hfirst, ← max_assoc]
  apply andThen_limit
  intro hok
  rw [length_deleted_dropped hok (by omega)]
  exact hbytes (by omega) _

theorem localAge_eq (c : DeleteCleaner) (segments : List Segment) :
    c.localAge env segments = droppedOldest env segments (min (if 0 < c.retention.age then
        expired (env.now - c.retention.age) segments.dropLast else 0)
        (deletablePrefix segments env.floor)) := by
  unfold DeleteCleaner.localAge
  by_cases hlimit : 0 < c.retention.age
  · rw [if_pos hlimit, if_pos hlimit]
    unfold applyAgeLimit
    split
    next hone =>
      have hle := expired_le (env.now - c.retention.age) segments.dropLast
      rw [length_dropLast] at hle
      have hzero : expired (env.now - c.retention.age) segments.dropLast = 0 := by
        omega
      rw [hzero, Nat.zero_min]
      rfl
    · rfl
  · rw [if_neg hlimit, if_neg hlimit, Nat.zero_min]
    rfl

theorem cleanLocal_eq (c : DeleteCleaner) (segments : List Segment) : c.cleanLocal env segments =
      droppedOldest env segments (min (c.localQuota env segments)
        (deletablePrefix segments env.floor)) := by
  unfold DeleteCleaner.cleanLocal DeleteCleaner.localQuota
  rw [localAge_eq]
  have hdel := deletablePrefix_le segments env.floor
  have hmessages := @totalLimit_dropped env segments c.retention.messages
    messageCount keepActiveSegment
  have hbytes := @totalLimit_dropped env segments c.retention.bytes
    env.physicalSize keepActiveSegment
  generalize (if 0 < c.retention.age then
    expired (env.now - c.retention.age) segments.dropLast else 0) = A
  generalize (if 0 < c.retention.messages then
    totalCut messageCount c.retention.messages keepActiveSegment 0 0
      segments.reverse else 0) = M at hmessages ⊢
  generalize (if 0 < c.retention.bytes then
    totalCut env.physicalSize c.retention.bytes keepActiveSegment 0 0
      segments.reverse else 0) = B at hbytes ⊢
  rw [andThen_limit (M := M), andThen_limit (M := B), max_assoc]
  · intro _
    rw [← deletablePrefix_drop (Nat.min_le_right _ _)]
    exact hbytes (by omega) _
  · intro _
    rw [← deletablePrefix_drop (Nat.min_le_right _ _)]
    exact hmessages (by omega) _

theorem localQuota_lt (c : DeleteCleaner) {segments : List Segment} (hne : segments ≠ []) :
    c.localQuota env segments < segments.length := by
  unfold DeleteCleaner.localQuota
  have hpos := length_pos_iff.mpr hne
  have hA := ite_expired_le c.retention.age (env.now - c.retention.age) segments.dropLast
  rw [length_dropLast] at hA
  have hM := ite_totalCut_le c.retention.messages messageCount keepActiveSegment segments
  have hB := ite_totalCut_le c.retention.bytes env.physicalSize keepActiveSegment segments
  unfold keepActiveSegment at *
  omega

end Limits

/-! ## Runs of tiers -/

theorem flattenRuns_tierRuns (segments : List Segment) :
    flattenRuns (tierRuns segments) = segments := by
  induction segments with
  | nil => rfl
  | cons seg rest ih =>
    unfold tierRuns
    cases hruns : tierRuns rest with
    | nil =>
      rw [hruns] at ih
      rw [← ih]
      rfl
    | cons run runs =>
      rw [hruns] at ih
      simp only
      split
      · rw [← ih]
        rfl
      · rw [← ih]
        rfl

theorem ne_nil_of_mem_tierRuns {segments : List Segment} {run : TierRun}
    (hmem : run ∈ tierRuns segments) : run.segments ≠ [] := by
  induction segments generalizing run with
  | nil => simp [tierRuns] at hmem
  | cons seg rest ih =>
    unfold tierRuns at hmem
    cases hruns : tierRuns rest with
    | nil =>
      rw [hruns, mem_singleton] at hmem
      simp [hmem]
    | cons first runs =>
      rw [hruns] at hmem ih
      simp only at hmem
      split at hmem
      · rcases mem_cons.mp hmem with heq | hin
        · simp [heq]
        · exact ih (mem_cons_of_mem _ hin)
      · rcases mem_cons.mp hmem with heq | hin
        · simp [heq]
        · exact ih hin

def DeleteCleaner.Drains (c : DeleteCleaner) (env : RetentionEnv) (run : TierRun) : Prop :=
  env.skipTiers run.tier = false ∧ (∀ seg ∈ run.segments, env.deleteFails seg = false) ∧
    ∃ tier, c.tier run.tier = some tier ∧ run.segments.length ≤ tier.quota env run.segments

/-- A run of which the pass, without an error, leaves something: its tier is
read-only, or its limits or the allowance spare a segment. -/
def DeleteCleaner.Stops (c : DeleteCleaner) (env : RetentionEnv)
    (allowance : ℕ) (run : TierRun) : Prop :=
  env.skipTiers run.tier = true ∨ ∃ tier, c.tier run.tier = some tier ∧
      min (tier.quota env run.segments) allowance < run.segments.length ∧
      ∀ seg ∈ run.segments.take (min (tier.quota env run.segments) allowance),
        env.deleteFails seg = false

def DeleteCleaner.Leaves (c : DeleteCleaner) (env : RetentionEnv)
    (allowance : ℕ) (runs : List TierRun) : Prop :=
  ∃ front run back, runs = front ++ run :: back ∧ (∀ older ∈ front, c.Drains env older) ∧
    (flattenRuns front).length ≤ allowance ∧
    c.Stops env (allowance - (flattenRuns front).length) run

section TierRuns

variable {c : DeleteCleaner} {env : RetentionEnv}

theorem cleanRuns_blocked (runs : List TierRun) (maxDrop : ℕ) :
    c.cleanRuns env runs true maxDrop = .keep (flattenRuns runs) := by
  induction runs with
  | nil => rfl
  | cons run runs ih =>
    simp only [DeleteCleaner.cleanRuns, Bool.true_or, if_true, ih]
    rfl

theorem cleanRuns_append (runs : List TierRun) (maxDrop : ℕ) :
    (c.cleanRuns env runs false maxDrop).deleted ++
        (c.cleanRuns env runs false maxDrop).kept = flattenRuns runs ∧
      (c.cleanRuns env runs false maxDrop).deleted.length ≤ maxDrop := by
  induction runs generalizing maxDrop with
  | nil => exact ⟨rfl, Nat.zero_le _⟩
  | cons run runs ih =>
    unfold DeleteCleaner.cleanRuns
    by_cases hskip : env.skipTiers run.tier = true
    · simp only [hskip, Bool.or_true, if_true, cleanRuns_blocked]
      exact ⟨rfl, Nat.zero_le _⟩
    · simp only [hskip, Bool.or_false, Bool.false_eq_true, if_false]
      cases htier : c.tier run.tier with
      | none => exact ⟨rfl, Nat.zero_le _⟩
      | some tier =>
        simp only [cleanTier_eq]
        generalize hn : min (tier.quota env run.segments) maxDrop = n
        have hle : (droppedOldest env run.segments n).deleted.length ≤ n := by
          have hsub := (@deleteEach_deleted_sublist env
            (run.segments.take n) (run.segments.drop n)).length_le
          rw [length_take] at hsub
          exact hsub.trans (Nat.min_le_left _ _)
        have hsplit := @dropped_append env run.segments n
        split
        · refine ⟨?_, by simp only; omega⟩
          simp only
          rw [← append_assoc, hsplit]
          rfl
        · cases hkept : (droppedOldest env run.segments n).kept with
          | nil =>
            rw [hkept, append_nil] at hsplit
            have hrest := ih (maxDrop - (droppedOldest env run.segments n).deleted.length)
            simp only [isEmpty_nil, Bool.not_true, nil_append]
            constructor
            · rw [append_assoc, hrest.1, hsplit]
              rfl
            · rw [length_append]
              omega
          | cons first rest =>
            simp only [isEmpty_cons, Bool.not_false, cleanRuns_blocked, Dropped.keep, append_nil]
            refine ⟨?_, by omega⟩
            rw [← append_assoc, ← hkept, hsplit]
            rfl

theorem leaves_cons (allowance : ℕ) (run : TierRun) (runs : List TierRun) :
    c.Leaves env allowance (run :: runs) ↔ c.Stops env allowance run ∨
        (c.Drains env run ∧ run.segments.length ≤ allowance ∧
          c.Leaves env (allowance - run.segments.length) runs) := by
  have hlen : ∀ front : List TierRun, (flattenRuns (run :: front)).length =
      run.segments.length + (flattenRuns front).length := by
    intro front
    exact length_append
  constructor
  · rintro ⟨front, stop, back, heq, hdrains, hle, hstops⟩
    cases front with
    | nil =>
      rw [nil_append, cons.injEq] at heq
      left
      rw [heq.1]
      exact hstops
    | cons first front =>
      rw [cons_append, cons.injEq] at heq
      rw [← heq.1] at hdrains hle hstops
      rw [hlen] at hle hstops
      right
      refine ⟨hdrains run mem_cons_self, by omega, front, stop, back, heq.2, ?_, by omega, ?_⟩
      · intro older holder
        exact hdrains older (mem_cons_of_mem _ holder)
      · rw [Nat.sub_sub]
        exact hstops
  · rintro (hstops | ⟨hdrain, hfits, front, stop, back, heq, hdrains, hle, hstops⟩)
    · exact ⟨[], run, runs, rfl, by simp, Nat.zero_le _, hstops⟩
    · refine ⟨run :: front, stop, back, by rw [heq]; rfl, ?_, ?_, ?_⟩
      · intro older holder
        rcases mem_cons.mp holder with hfirst | hin
        · rw [hfirst]
          exact hdrain
        · exact hdrains older hin
      · rw [hlen]
        omega
      · rw [hlen, ← Nat.sub_sub]
        exact hstops

theorem cleanRuns_leaves {runs : List TierRun} (maxDrop : ℕ)
    (hruns : ∀ run ∈ runs, run.segments ≠ []) :
    ((c.cleanRuns env runs false maxDrop).failed = false ∧
        (c.cleanRuns env runs false maxDrop).kept ≠ []) ↔
      c.Leaves env maxDrop runs := by
  induction runs generalizing maxDrop with
  | nil => simp [DeleteCleaner.cleanRuns, DeleteCleaner.Leaves]
  | cons run runs ih =>
    have hrun := length_pos_iff.mpr (hruns run mem_cons_self)
    have hrest := fun m => ih m fun other hother =>
      hruns other (mem_cons_of_mem _ hother)
    rw [leaves_cons]
    unfold DeleteCleaner.cleanRuns
    by_cases hskip : env.skipTiers run.tier = true
    · have hstops : c.Stops env maxDrop run := Or.inl hskip
      simp only [hskip, Bool.or_true, if_true, cleanRuns_blocked]
      simp [Dropped.keep, hstops, length_pos_iff.mp hrun]
    · simp only [hskip, Bool.or_false, Bool.false_eq_true, if_false]
      cases htier : c.tier run.tier with
      | none =>
        have hstops : ¬ c.Stops env maxDrop run := by
          simp [DeleteCleaner.Stops, hskip, htier]
        have hdrains : ¬ c.Drains env run := by
          simp [DeleteCleaner.Drains, htier]
        simp [hstops, hdrains]
      | some tier =>
        simp only [cleanTier_eq]
        generalize hn : min (tier.quota env run.segments) maxDrop = n
        have hstops : c.Stops env maxDrop run ↔ n < run.segments.length ∧
              (droppedOldest env run.segments n).failed = false := by
          rw [← Bool.not_eq_true, dropped_failed]
          simp only [DeleteCleaner.Stops, hskip, htier, hn, Bool.false_eq_true, false_or,
            Option.some.injEq, exists_eq_left', not_exists, not_and, Bool.not_eq_true]
        have hdrains : (c.Drains env run ∧ run.segments.length ≤ maxDrop) ↔
            run.segments.length ≤ n ∧ (droppedOldest env run.segments n).failed = false := by
          rw [← Bool.not_eq_true, dropped_failed]
          simp only [DeleteCleaner.Drains, hskip, htier, Option.some.injEq, exists_eq_left',
            not_exists, not_and, Bool.not_eq_true, true_and]
          constructor
          · rintro ⟨⟨hok, hquota⟩, hmax⟩
            exact ⟨by omega, fun seg hseg =>
              hok seg (mem_of_mem_take hseg)⟩
          · rintro ⟨hle, hok⟩
            rw [take_of_length_le hle] at hok
            exact ⟨⟨hok, by omega⟩, by omega⟩
        rw [hstops, ← and_assoc, hdrains]
        by_cases hfailed : (droppedOldest env run.segments n).failed = true
        · simp [hfailed]
        · have hok : (droppedOldest env run.segments n).failed = false := by
            simpa using hfailed
          rw [dropped_of_ok hok] at hfailed ⊢
          simp only [Bool.false_eq_true, if_false]
          by_cases hlt : n < run.segments.length
          · have hkept : run.segments.drop n ≠ [] := by
              rw [ne_eq, drop_eq_nil_iff]
              omega
            have hempty : (run.segments.drop n).isEmpty = false := by
              rw [isEmpty_eq_false_iff]
              exact hkept
            simp [hempty, hkept, hlt, cleanRuns_blocked, Dropped.keep]
          · have hkept : run.segments.drop n = [] :=
              drop_eq_nil_of_le (by omega)
            have hall : run.segments.take n = run.segments :=
              take_of_length_le (by omega)
            rw [hkept, hall]
            simp only [isEmpty_nil, Bool.not_true, nil_append]
            rw [hrest]
            simp only [hlt, false_or, and_true]
            constructor
            · intro hleaves
              exact ⟨by omega, hleaves⟩
            · intro hleaves
              exact hleaves.2

end TierRuns

/-! ## The whole list -/

theorem offloadedPart_append (segments : List Segment) :
    offloadedPart segments ++ residentPart segments = segments :=
  takeWhile_append_dropWhile

/-- The pass shortened the log from its old end: what it deleted is a proper
prefix of the list, what it returned is the rest, and no deleted segment holds
a record at or above the floor. -/
structure ShortensFromOldEnd (env : RetentionEnv) (segments : List Segment)
    (d : Dropped) : Prop where
  oldest : ∃ n, n < segments.length ∧ d.deleted = segments.take n ∧ d.kept = segments.drop n
  floor : ∀ f, env.floor = some f → ∀ seg ∈ d.deleted, ∀ frame ∈ seg.frames, frame.offset < f

namespace DeleteCleaner

variable (c : DeleteCleaner) (env : RetentionEnv)

def TiersLeave (segments : List Segment) : Prop :=
  offloadedPart segments ≠ [] ∧ (c.noTierLimits = true ∨
      c.Leaves env (min (deletablePrefix segments env.floor) (offloadedPart segments).length)
        (tierRuns (offloadedPart segments)))

/-- A limit of the disk names the oldest local segment, the floor allows its
deletion and the deletion succeeds. -/
def LocalDrops (segments : List Segment) : Prop :=
  0 < c.localQuota env (residentPart segments) ∧
    0 < deletablePrefix (residentPart segments) env.floor ∧
    ∀ seg, (residentPart segments).head? = some seg → env.deleteFails seg = false

end DeleteCleaner

section WholeList

variable {c : DeleteCleaner} {env : RetentionEnv} {segments : List Segment}

theorem lt_floor_of_mem_take (hordered : LogOrdered segments) {f : ℤ}
    (hn : n ≤ deletablePrefix segments (some f)) (hseg : seg ∈ segments.take n) {frame : Frame}
    (hframe : frame ∈ seg.frames) : frame.offset < f := by
  unfold deletablePrefix at hn
  induction segments generalizing n with
  | nil => simp at hseg
  | cons first rest ih =>
    cases n with
    | zero => simp at hseg
    | succ n =>
      cases rest with
      | nil => simp at hn
      | cons second later =>
        simp only [tail_cons] at hn ih
        have hbase : second.baseOffset ≤ f := by
          by_contra hnot
          rw [takeWhile_cons_of_neg (by simpa using hnot)] at hn
          simp at hn
        rw [takeWhile_cons_of_pos (by simpa using hbase), length_cons] at hn
        rw [take_succ_cons] at hseg
        rcases mem_cons.mp hseg with heq | hin
        · have hpair := (pairwise_cons.mp hordered.increasing).1 second mem_cons_self
          rw [heq] at hframe
          exact (hpair.2 frame hframe).trans_le hbase
        · exact ih hordered.tail (by omega) hin

theorem tierStage_append : (c.tierStage env segments).deleted ++ (c.tierStage env segments).kept =
        offloadedPart segments ∧
      (c.tierStage env segments).deleted.length ≤ deletablePrefix segments env.floor := by
  unfold DeleteCleaner.tierStage
  split
  · have hruns := @cleanRuns_append c env (tierRuns (offloadedPart segments))
      (min (deletablePrefix segments env.floor) (offloadedPart segments).length)
    rw [flattenRuns_tierRuns] at hruns
    exact ⟨hruns.1, hruns.2.trans (Nat.min_le_left _ _)⟩
  · exact ⟨rfl, Nat.zero_le _⟩

theorem tierStage_leaves : ((c.tierStage env segments).failed = false ∧
        (c.tierStage env segments).kept ≠ []) ↔
      c.TiersLeave env segments := by
  unfold DeleteCleaner.tierStage DeleteCleaner.TiersLeave
  split
  next hstage =>
    have hruns := @cleanRuns_leaves c env (tierRuns (offloadedPart segments))
      (min (deletablePrefix segments env.floor) (offloadedPart segments).length)
      (fun run hrun => ne_nil_of_mem_tierRuns hrun)
    rw [DeleteCleaner.cleanTiers, hruns]
    simp [hstage.1, hstage.2]
  next hstage =>
    simp only [Dropped.keep, true_and]
    by_cases hne : offloadedPart segments = []
    · simp [hne]
    · have hnone : c.noTierLimits = true := by
        by_contra hlimits
        exact hstage ⟨hne, by simpa using hlimits⟩
      simp [hne, hnone]

theorem localQuota_eq_zero (hnone : c.noRetentionLimits = true)
    (rest : List Segment) : c.localQuota env rest = 0 := by
  simp only [DeleteCleaner.noRetentionLimits, Bool.and_eq_true, decide_eq_true_eq] at hnone
  unfold DeleteCleaner.localQuota
  rw [if_neg (by omega), if_neg (by omega), if_neg (by omega)]
  simp

/-- The pass is the tier stage on the offloaded part followed, unless it
failed, by what the disk limits drop from the rest. -/
theorem clean_eq : c.clean env segments = ⟨(c.tierStage env segments).deleted ++
          (droppedOldest env (residentPart segments) (if (c.tierStage env segments).failed then 0
              else min (c.localQuota env (residentPart segments))
                (deletablePrefix (residentPart segments) env.floor))).deleted,
        (c.tierStage env segments).kept ++ (droppedOldest env (residentPart segments)
            (if (c.tierStage env segments).failed then 0
              else min (c.localQuota env (residentPart segments))
                (deletablePrefix (residentPart segments) env.floor))).kept,
        (c.clean env segments).failed⟩ := by
  unfold DeleteCleaner.clean
  split
  next hskip =>
    rcases hskip with hnil | ⟨hnone, htiers⟩
    · rw [hnil]
      simp [Dropped.keep, DeleteCleaner.tierStage, offloadedPart,
        residentPart, droppedOldest, deleteEach]
    · have hstage : c.tierStage env segments = .keep (offloadedPart segments) := by
        simp [DeleteCleaner.tierStage, htiers]
      rw [hstage, localQuota_eq_zero hnone]
      simp [Dropped.keep, droppedOldest, deleteEach, offloadedPart_append]
  next hwork =>
    by_cases hfailed : (c.tierStage env segments).failed = true
    · simp [hfailed, dropped_zero, Dropped.keep]
    · by_cases hnone : c.noRetentionLimits = true
      · simp [hfailed, hnone, localQuota_eq_zero hnone, dropped_zero, Dropped.keep]
      · simp [hfailed, hnone, cleanLocal_eq]

theorem deleted_ne_nil {rest : List Segment} : (droppedOldest env rest n).deleted ≠ [] ↔
      0 < n ∧ ∃ seg, rest.head? = some seg ∧ env.deleteFails seg = false := by
  cases rest with
  | nil => simp [droppedOldest, deleteEach]
  | cons seg rest =>
    cases n with
    | zero => simp [droppedOldest, deleteEach]
    | succ n =>
      by_cases hfails : env.deleteFails seg = true
      · simp [droppedOldest, deleteEach, hfails]
      · simp [droppedOldest, deleteEach, hfails]

theorem mem_offloadedPart (hmem : seg ∈ offloadedPart segments) : seg.isOffloaded = true := by
  unfold offloadedPart at hmem
  induction segments with
  | nil => simp at hmem
  | cons first rest ih =>
    by_cases hfirst : first.isOffloaded = true
    · rw [takeWhile_cons_of_pos hfirst] at hmem
      rcases mem_cons.mp hmem with heq | hin
      · rw [heq]
        exact hfirst
      · exact ih hin
    · rw [takeWhile_cons_of_neg hfirst] at hmem
      simp at hmem

theorem residentPart_ne_nil {active : Segment} (hlast : segments.getLast? = some active)
    (hactive : active.isOffloaded = false) : residentPart segments ≠ [] := by
  intro hnil
  have hwhole := offloadedPart_append segments
  rw [hnil, append_nil] at hwhole
  have hmem : active ∈ offloadedPart segments := by
    rw [hwhole]
    exact mem_of_getLast? hlast
  rw [mem_offloadedPart hmem] at hactive
  cases hactive

theorem append_take_drop_iff {tD tK lD lK : List Segment}
    (hsep : ∀ seg ∈ tK, ∀ seg', lD.head? = some seg' → seg ≠ seg') (hlast : lK ≠ []) :
    (∃ n, n < (tD ++ tK ++ (lD ++ lK)).length ∧ tD ++ lD = (tD ++ tK ++ (lD ++ lK)).take n ∧
        tK ++ lK = (tD ++ tK ++ (lD ++ lK)).drop n) ↔
      ¬ (tK ≠ [] ∧ lD ≠ []) := by
  have hpos := length_pos_iff.mpr hlast
  constructor
  · rintro ⟨n, -, htake, -⟩ ⟨htK, hlD⟩
    have hfront : tD ++ lD <+: tD ++ (tK ++ (lD ++ lK)) := by
      rw [← append_assoc tD, htake]
      exact take_prefix _ _
    have hinner : lD <+: tK ++ (lD ++ lK) :=
      (prefix_append_right_inj tD).mp hfront
    cases tK with
    | nil => exact htK rfl
    | cons seg tK =>
      cases lD with
      | nil => exact hlD rfl
      | cons seg' lD =>
        have hhead := (cons_prefix_cons.mp hinner).1
        exact hsep seg mem_cons_self seg' rfl hhead.symm
  · intro hnot
    by_cases htK : tK = []
    · refine ⟨(tD ++ lD).length, ?_, ?_, ?_⟩
      · simp only [htK, append_nil, length_append]
        omega
      · rw [htK, append_nil, ← append_assoc, take_left]
      · rw [htK, append_nil, ← append_assoc, drop_left, nil_append]
    · have hlD : lD = [] := by
        by_contra hne
        exact hnot ⟨htK, hne⟩
      refine ⟨tD.length, ?_, ?_, ?_⟩
      · simp only [hlD, length_append, length_nil]
        omega
      · rw [hlD, append_nil, append_assoc, take_left]
      · rw [hlD, append_assoc, drop_left, nil_append]

end WholeList

/-! ## A hole between the tiers -/

/-- A segment with one record, at its base. -/
def singleSegment (offset : ℤ) (tier : Option String) : Segment :=
  ⟨offset, .raw [Frame.ofMessage offset 1 0
    ⟨1, 0, some [5], some [7], Headers.empty⟩], false, false, tier⟩

/-- One message on disk, and a tier without limits. -/
def oneMessageCleaner : DeleteCleaner :=
  ⟨⟨0, 1, 0⟩, [⟨"cold", 0, 0, 0⟩]⟩

def quietEnv : RetentionEnv where
  now := 100
  skipTiers := fun _ => false
  floor := none
  physicalSize := fun _ => 0
  deleteFails := fun _ => false

end CommitLog
