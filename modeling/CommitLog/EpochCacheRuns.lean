import CommitLog.LeaderEpochs
import CommitLog.Runs

/-!
# Every use of the leader epoch cache

The cache is opened over its checkpoint file, assigned to, cut at either end
and reloaded.  The file is checked for duplicates and for its count, not for
its order, and what the later calls keep is the order they find.
-/

namespace CommitLog

open List Runs

namespace EpochCache

abbrev Rising (cache : List EpochOffset) : Prop :=
  cache.Pairwise fun a b =>
    a.leaderEpoch < b.leaderEpoch ∧ a.assignedAtOffset ≤ b.assignedAtOffset

/-- Both words have 64 bits. -/
def InRange (entry : EpochOffset) : Prop :=
  entry.leaderEpoch < uint64Size ∧
    -int64Bound ≤ entry.assignedAtOffset ∧ entry.assignedAtOffset < int64Bound

/-- `newLeaderEpochCache`: without a file the cache is empty. -/
def openCache : Option (List (Option ℤ)) → Except CheckpointError (List EpochOffset)
  | none => .ok []
  | some words => readLeaderEpochOffsets words

inductive CacheCall
  | assign (entry : EpochOffset)
  | clearLatest (offset : ℤ)
  | clearEarliest (offset : ℤ)
  | reload

/-- A call that changes the cache flushes it, so a reload reads what the cache
holds. -/
inductive CacheStep : List EpochOffset → CacheCall → List EpochOffset → Prop
  | assign (cache : List EpochOffset) {entry : EpochOffset} (hrange : InRange entry) :
      CacheStep cache (.assign entry) (assign cache entry.leaderEpoch entry.assignedAtOffset)
  | clearLatest (cache : List EpochOffset) (offset : ℤ) :
      CacheStep cache (.clearLatest offset) (clearLatest offset cache)
  | clearEarliest (cache : List EpochOffset) {offset : ℤ} (hrange : offset < int64Bound) :
      CacheStep cache (.clearEarliest offset) (clearEarliest offset cache)
  | reload {cache loaded : List EpochOffset}
      (hread : readLeaderEpochOffsets (checkpoint cache) = .ok loaded) :
      CacheStep cache .reload loaded

/-- The cache rises and its file reads back; only a cut at the late end lowers
the latest epoch; and a cut at the early end keeps the newest epoch at or below
its floor. -/
structure CacheRight (cache : List EpochOffset) : Prop where
  rising : Rising cache
  flushed : (cache.length : ℤ) < int64Bound → readLeaderEpochOffsets (checkpoint cache) = .ok cache
  latest : ∀ call cache', CacheStep cache call cache' → (∀ offset, call ≠ .clearLatest offset) →
    latestEpoch cache ≤ latestEpoch cache'
  floor : ∀ offset, ∀ entry ∈ cache, entry.assignedAtOffset ≤ offset →
    (∀ other ∈ cache, other.assignedAtOffset ≤ offset → other.leaderEpoch ≤ entry.leaderEpoch) →
    ∃ kept ∈ clearEarliest offset cache,
      kept.leaderEpoch = entry.leaderEpoch ∧ kept.assignedAtOffset ≤ offset

/-- Whatever is called on the cache opened over the file. -/
def CacheSound (file : Option (List (Option ℤ))) : Prop :=
  ∀ cache, openCache file = .ok cache → ∀ calls cache', Run CacheStep cache calls cache' →
    CacheRight cache'

section Rising

variable {cache : List EpochOffset}

theorem right_of_rising (hrising : Rising cache) {next : ℤ} (hnext : latestOffset cache < next) :
    Right ∅ next cache where
  rising := hrising
  behind := by simp
  covered := by simp
  reached entry hentry := (le_latest_of_mem hrising hentry).2.trans_lt hnext

theorem Rising.assign (hrising : Rising cache) (epoch : ℕ) (offset : ℤ) :
    Rising (assign cache epoch offset) := by
  by_cases hnil : cache = []
  · simp [EpochCache.assign, hnil]
  · by_cases hle : latestOffset cache ≤ offset
    · have hright := (right_of_rising hrising (Int.lt_add_one_of_le hle)).assign epoch
      rw [add_sub_cancel_right] at hright
      exact hright.rising
    · rw [EpochCache.assign, if_neg (by tauto)]
      exact hrising

theorem Rising.clearLatest (hrising : Rising cache) (offset : ℤ) :
    Rising (clearLatest offset cache) :=
  ((right_of_rising hrising (lt_add_one _)).clearLatest (Set.empty_subset _) (by simp)
    (fun _ _ hlt => hlt)).rising

theorem latestEpoch_le_assign (cache : List EpochOffset) (epoch : ℕ) (offset : ℤ) :
    latestEpoch cache ≤ latestEpoch (EpochCache.assign cache epoch offset) := by
  unfold EpochCache.assign
  split_ifs with haccept
  · rw [latestEpoch_concat]
    cases haccept with
    | inl hnil => simp [hnil, latestEpoch]
    | inr hlater => exact hlater.1.le
  · exact le_rfl

/-- A record of the latest epoch behind the cut shows that the epoch stays. -/
theorem Rising.clearEarliest (hrising : Rising cache) (offset : ℤ) :
    Rising (clearEarliest offset cache) ∧
      latestEpoch cache ≤ latestEpoch (EpochCache.clearEarliest offset cache) := by
  have hright := right_of_rising hrising
    (show latestOffset cache < max (latestOffset cache) offset + 1 by omega)
  have hwritten := hright.write le_rfl le_rfl
  have hsafe : TrimSafe (insert (max (latestOffset cache) offset + 1, latestEpoch cache) ∅)
      (max (latestOffset cache) offset + 1 + 1) offset cache := by
    intro _ _
    constructor
    · omega
    · intro write hwrite hle
      cases hwrite with
      | inl heq =>
        rw [heq] at hle
        simp only at hle
        omega
      | inr hnone => cases hnone
  have hcut := hwritten.clearEarliest hsafe
  exact ⟨hcut.rising, hcut.covered _ (Set.mem_insert _ _)⟩

theorem Rising.floor (hrising : Rising cache) {offset : ℤ} {entry : EpochOffset}
    (hentry : entry ∈ cache) (hle : entry.assignedAtOffset ≤ offset)
    (hnewest : ∀ other ∈ cache, other.assignedAtOffset ≤ offset →
      other.leaderEpoch ≤ entry.leaderEpoch) :
    ∃ kept ∈ EpochCache.clearEarliest offset cache,
      kept.leaderEpoch = entry.leaderEpoch ∧ kept.assignedAtOffset ≤ offset := by
  rcases (right_of_rising hrising (lt_add_one _)).split_below offset with ⟨rest, hsplit, hrest⟩
  have hbelow : ∀ other ∈ cache.filter fun other => decide (other.assignedAtOffset < offset),
      other ∈ cache ∧ other.assignedAtOffset < offset := by
    intro other hother
    simpa using mem_filter.mp hother
  unfold EpochCache.clearEarliest
  split_ifs with hpos hearliest
  · exact ⟨entry, hentry, rfl, hle⟩
  · exact ⟨entry, hentry, rfl, hle⟩
  simp only
  generalize (cache.filter fun other => decide (other.assignedAtOffset < offset)) = front at *
  cases hlast : front.getLast? with
  | none => exact ⟨entry, hentry, rfl, hle⟩
  | some last =>
    have hdrop : cache.drop front.length = rest := by rw [hsplit, drop_left]
    rw [hdrop]
    rw [hsplit] at hentry
    cases mem_append.mp hentry with
    | inr hin =>
      -- an entry at the floor is not cut
      refine ⟨entry, ?_, rfl, hle⟩
      simp only
      split_ifs
      · exact mem_cons_of_mem _ hin
      · exact hin
    | inl hin =>
      -- the newest below the floor is the last one cut, and comes back at the floor
      have hparts := pairwise_append.mp (hsplit ▸ hrising)
      have hlate := hbelow last (mem_of_getLast? hlast)
      have hepoch : last.leaderEpoch = entry.leaderEpoch := by
        have hge := hnewest last hlate.1 hlate.2.le
        have hmem := (le_latest_of_mem hparts.1 hin).1
        rw [latestEpoch, hlast] at hmem
        exact le_antisymm hge hmem
      have hmoved : offset < earliestOffset rest ∨ rest = [] := by
        cases rest with
        | nil => exact Or.inr rfl
        | cons first others =>
          left
          by_contra hreached
          have hfirst : first.assignedAtOffset ≤ offset := not_lt.mp hreached
          have hge := hnewest first (hsplit ▸ mem_append_right _ mem_cons_self) hfirst
          have hlt := (hparts.2.2 entry hin first mem_cons_self).1
          omega
      simp only [if_pos hmoved]
      exact ⟨_, mem_cons_self, hepoch, le_rfl⟩

end Rising

/-! ## The file -/

section File

variable {cache entries loaded : List EpochOffset}

theorem parseUint_natCast {epoch : ℕ} (hrange : epoch < uint64Size) :
    parseUint (some (epoch : ℤ)) = some epoch := by
  simp [parseUint, hrange]

theorem readEntries_flushed (hrange : ∀ entry ∈ cache, InRange entry)
    (hrising : Rising (entries ++ cache)) :
    readEntries (cache.flatMap fun entry =>
      [some (entry.leaderEpoch : ℤ), some entry.assignedAtOffset]) entries =
      .ok (entries ++ cache) := by
  induction cache generalizing entries with
  | nil => simp [readEntries]
  | cons entry cache ih =>
    rcases hrange entry mem_cons_self with ⟨hepoch, hlow, hhigh⟩
    have hoffset : parseInt (some entry.assignedAtOffset) = some entry.assignedAtOffset := by
      simp [parseInt, hlow, hhigh]
    have hnew : ¬ entries.any fun other => decide (other.leaderEpoch = entry.leaderEpoch) := by
      intro hany
      rcases any_eq_true.mp hany with ⟨other, hother, heq⟩
      have hlt := ((pairwise_append.mp hrising).2.2 other hother entry mem_cons_self).1
      rw [decide_eq_true_eq] at heq
      omega
    have hall : Rising (entries ++ [entry] ++ cache) := by simpa using hrising
    have hrest := ih (fun other hother => hrange other (mem_cons_of_mem _ hother)) hall
    rw [flatMap_cons, cons_append, cons_append, nil_append, readEntries,
      parseUint_natCast hepoch, hoffset]
    simp only [if_neg hnew]
    rw [hrest, append_assoc, singleton_append]

theorem read_of_words {version count : Option ℤ} {rest : List (Option ℤ)}
    (hversion : parseInt version = some 0) (hcount : parseInt count = some (cache.length : ℤ))
    (hread : readEntries rest [] = .ok cache) :
    readLeaderEpochOffsets (version :: count :: rest) = .ok cache := by
  simp [readLeaderEpochOffsets, hversion, hcount, hread]

theorem read_checkpoint (hrange : ∀ entry ∈ cache, InRange entry) (hrising : Rising cache)
    (hlength : (cache.length : ℤ) < int64Bound) :
    readLeaderEpochOffsets (checkpoint cache) = .ok cache := by
  apply read_of_words
  · simp [parseInt, int64Bound]
  · have hlow : -int64Bound ≤ (cache.length : ℤ) := by
      unfold int64Bound
      omega
    simp [parseInt, hlow, hlength]
  · exact @readEntries_flushed cache [] hrange hrising

theorem readEntries_inRange {words : List (Option ℤ)}
    (hread : readEntries words entries = .ok loaded)
    (hrange : ∀ entry ∈ entries, InRange entry) : ∀ entry ∈ loaded, InRange entry := by
  fun_induction readEntries words entries with
  | case1 entries =>
    cases hread
    exact hrange
  | case2 | case3 | case4 | case5 | case6 => cases hread
  | case7 word start rest entries epoch hepoch offset hoffset _ ih =>
    apply ih hread
    intro entry hentry
    cases mem_append.mp hentry with
    | inl hold => exact hrange entry hold
    | inr hnew =>
      have hword := Option.map_eq_some_iff.mp hepoch
      have ⟨n, hn, heq⟩ := hword
      have hn := (Option.filter_eq_some_iff.mp hn).2
      have hstart := (Option.filter_eq_some_iff.mp hoffset).2
      rw [decide_eq_true_eq] at hn hstart
      rw [mem_singleton.mp hnew]
      refine ⟨?_, hstart⟩
      simp only
      omega

theorem openCache_inRange {file : Option (List (Option ℤ))} (hopen : openCache file = .ok cache) :
    ∀ entry ∈ cache, InRange entry := by
  cases file with
  | none =>
    cases hopen
    simp
  | some words =>
    match words with
    | [] => cases hopen
    | [version] =>
      simp only [openCache, readLeaderEpochOffsets] at hopen
      split at hopen
      · cases hopen
      · split_ifs at hopen
    | version :: count :: rest => exact readEntries_inRange (readEntries_of_read hopen) (by simp)

end File

theorem CacheStep.keeps {cache cache' : List EpochOffset} {call : CacheCall}
    (hstep : CacheStep cache call cache') (hkept : Rising cache ∧ ∀ entry ∈ cache, InRange entry) :
    Rising cache' ∧ ∀ entry ∈ cache', InRange entry := by
  have ⟨hrising, hrange⟩ := hkept
  cases hstep with
  | assign hentry =>
    refine ⟨hrising.assign _ _, fun entry hmem => ?_⟩
    unfold EpochCache.assign at hmem
    split_ifs at hmem
    · cases mem_append.mp hmem with
      | inl hold => exact hrange entry hold
      | inr hnew =>
        rw [mem_singleton.mp hnew]
        exact hentry
    · exact hrange entry hmem
  | clearLatest offset =>
    refine ⟨hrising.clearLatest offset, fun entry hmem => hrange entry ?_⟩
    unfold EpochCache.clearLatest at hmem
    split_ifs at hmem
    · exact hmem
    · exact mem_of_mem_filter hmem
  | @clearEarliest offset hbound =>
    refine ⟨(hrising.clearEarliest offset).1, fun entry hmem => ?_⟩
    unfold EpochCache.clearEarliest at hmem
    split_ifs at hmem with hpos hearliest
    · exact hrange entry hmem
    · exact hrange entry hmem
    simp only at hmem
    split at hmem
    · exact hrange entry hmem
    next last hlast =>
      have hlate := hrange last (mem_of_mem_filter (mem_of_getLast? hlast))
      split_ifs at hmem
      · cases mem_cons.mp hmem with
        | inl heq =>
          rw [heq]
          refine ⟨hlate.1, ?_, hbound⟩
          simp only [int64Bound]
          omega
        | inr hkept => exact hrange entry (mem_of_mem_drop hkept)
      · exact hrange entry (mem_of_mem_drop hmem)
  | reload hread =>
    rw [eq_of_readLeaderEpochOffsets hread]
    exact hkept

theorem cacheRight_of_rising {cache : List EpochOffset} (hrising : Rising cache)
    (hrange : ∀ entry ∈ cache, InRange entry) : CacheRight cache where
  rising := hrising
  flushed := read_checkpoint hrange hrising
  latest := by
    intro call cache' hstep hlate
    cases hstep with
    | assign => exact latestEpoch_le_assign cache _ _
    | clearLatest offset => exact absurd rfl (hlate offset)
    | clearEarliest => exact (hrising.clearEarliest _).2
    | reload hread => rw [eq_of_readLeaderEpochOffsets hread]
  floor _ _ hentry hle hnewest := hrising.floor hentry hle hnewest

/-- The cache is in order for good exactly if it is in the file it is opened
over. -/
theorem cacheSound_iff (file : Option (List (Option ℤ))) :
    CacheSound file ↔ ∀ cache, openCache file = .ok cache → Rising cache := by
  constructor
  · intro hsound cache hopen
    exact (hsound cache hopen [] cache (.nil cache)).rising
  · intro hfile cache hopen calls cache' hrun
    have hkept : Rising cache' ∧ ∀ entry ∈ cache', InRange entry := by
      apply hrun.invariant
      · intro cache call next hbefore hstep
        exact hstep.keeps hbefore
      · exact ⟨hfile cache hopen, openCache_inRange hopen⟩
    exact cacheRight_of_rising hkept.1 hkept.2

/-- Two entries, the later epoch first: the file is taken, epoch 3 is the
latest, and epoch 4 is assigned behind epoch 5. -/
theorem falling_file_accepted :
    openCache (some [some 0, some 2, some 5, some 10, some 3, some 20]) = .ok [⟨5, 10⟩, ⟨3, 20⟩] ∧
      assign [⟨5, 10⟩, ⟨3, 20⟩] 4 30 = [⟨5, 10⟩, ⟨3, 20⟩, ⟨4, 30⟩] ∧
      ¬ CacheSound (some [some 0, some 2, some 5, some 10, some 3, some 20]) := by
  have hopen : openCache (some [some 0, some 2, some 5, some 10, some 3, some 20]) =
      .ok [⟨5, 10⟩, ⟨3, 20⟩] := by decide
  refine ⟨hopen, by decide, fun hsound => ?_⟩
  have hrising := (hsound _ hopen [] _ (.nil _)).rising
  exact absurd hrising (by decide)

end EpochCache

end CommitLog
