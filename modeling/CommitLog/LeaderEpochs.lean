import CommitLog.Frames
import CommitLog.SortSearch

/-!
# The leader epoch cache

The cache holds where the log stood when an epoch was opened.  A probe for an
epoch is answered with the offset held for the next one, so that offset has to
lie below every record of a later epoch.
-/

namespace CommitLog

open List SortSearch

def uint64Size : ℕ := 2 ^ 64

/-- `2 ^ 63`. -/
def int64Bound : ℤ := 9223372036854775808

structure EpochOffset where
  leaderEpoch : ℕ
  assignedAtOffset : ℤ
deriving DecidableEq

namespace EpochCache

def earliestOffset (cache : List EpochOffset) : ℤ :=
  (cache.head?.map EpochOffset.assignedAtOffset).getD (-1)

def latestEpoch (cache : List EpochOffset) : ℕ :=
  (cache.getLast?.map EpochOffset.leaderEpoch).getD 0

def latestOffset (cache : List EpochOffset) : ℤ :=
  (cache.getLast?.map EpochOffset.assignedAtOffset).getD (-1)

def findEpoch (cache : List EpochOffset) (epoch : ℕ) : Option EpochOffset :=
  cache[search cache.length fun i =>
    cache[i]?.any fun entry => decide (epoch ≤ entry.leaderEpoch)]?

/-- The successor of the largest epoch wraps to 0. -/
def lastOffsetForLeaderEpoch (cache : List EpochOffset) (epoch : ℕ) :
    Option ℤ :=
  (findEpoch cache ((epoch + 1) % uint64Size)).map EpochOffset.assignedAtOffset

/-- An epoch that is not above the latest one, or not at or behind its offset,
is not recorded. -/
def assign (cache : List EpochOffset) (epoch : ℕ) (offset : ℤ) :
    List EpochOffset :=
  if cache = [] ∨ latestEpoch cache < epoch ∧ latestOffset cache ≤ offset then
    cache ++ [⟨epoch, offset⟩]
  else cache

def clearLatest (offset : ℤ) (cache : List EpochOffset) : List EpochOffset :=
  if latestOffset cache < offset then cache
  else cache.filter fun entry => decide (entry.assignedAtOffset < offset)

def clearEarliest (offset : ℤ) (cache : List EpochOffset) :
    List EpochOffset :=
  if offset ≤ 0 then cache
  else if offset ≤ earliestOffset cache then cache
  else
    let earliest := cache.filter fun entry =>
      decide (entry.assignedAtOffset < offset)
    match earliest.getLast? with
    | none => cache
    | some last =>
      let kept := cache.drop earliest.length
      if offset < earliestOffset kept ∨ kept = [] then
        ⟨last.leaderEpoch, offset⟩ :: kept
      else kept

/-! ## The checkpoint file -/

inductive CheckpointError
  | missingVersion
  | invalidVersion
  | unknownVersion (version : ℤ)
  | missingCount
  | invalidCount
  | invalidEpoch
  | missingStartOffset
  | invalidStartOffset
  | duplicateEpoch (epoch : ℕ)
  | wrongCount (expected : ℤ) (got : ℕ)
deriving DecidableEq

/-- The words of the file as numbers; a word that is no number is `none`. -/
def checkpoint (cache : List EpochOffset) : List (Option ℤ) :=
  some 0 :: some cache.length :: cache.flatMap fun entry =>
    [some entry.leaderEpoch, some entry.assignedAtOffset]

def parseUint (word : Option ℤ) : Option ℕ :=
  (word.filter fun n : ℤ => decide (0 ≤ n ∧ n < uint64Size)).map Int.toNat

def parseInt (word : Option ℤ) : Option ℤ :=
  word.filter fun n => decide (-int64Bound ≤ n ∧ n < int64Bound)

def readEntries : List (Option ℤ) → List EpochOffset → Except CheckpointError (List EpochOffset)
  | [], entries => .ok entries
  | [word], _ =>
    match parseUint word with
    | none => .error .invalidEpoch
    | some _ => .error .missingStartOffset
  | word :: start :: rest, entries =>
    match parseUint word with
    | none => .error .invalidEpoch
    | some epoch =>
      match parseInt start with
      | none => .error .invalidStartOffset
      | some offset =>
        if entries.any fun entry => decide (entry.leaderEpoch = epoch)
        then .error (.duplicateEpoch epoch)
        else readEntries rest (entries ++ [⟨epoch, offset⟩])

def readLeaderEpochOffsets (words : List (Option ℤ)) : Except CheckpointError (List EpochOffset) :=
  match words with
  | [] => .error .missingVersion
  | version :: rest =>
    match parseInt version with
    | none => .error .invalidVersion
    | some version =>
      if version ≠ 0 then .error (.unknownVersion version)
      else
        match rest with
        | [] => .error .missingCount
        | count :: rest =>
          match parseInt count with
          | none => .error .invalidCount
          | some count =>
            match readEntries rest [] with
            | .error err => .error err
            | .ok entries =>
              if count ≠ entries.length then
                .error (.wrongCount count entries.length)
              else .ok entries

variable {loaded cache : List EpochOffset}

theorem readEntries_flatMap {entries : List EpochOffset}
    (hread : readEntries (cache.flatMap fun entry =>
      [some (entry.leaderEpoch : ℤ), some entry.assignedAtOffset]) entries = .ok loaded) :
    loaded = entries ++ cache := by
  induction cache generalizing entries with
  | nil =>
    cases hread
    simp
  | cons entry cache ih =>
    rw [flatMap_cons, cons_append, cons_append, nil_append, readEntries] at hread
    cases hepoch : parseUint (some (entry.leaderEpoch : ℤ)) with
    | none =>
      rw [hepoch] at hread
      cases hread
    | some epoch =>
      rw [hepoch] at hread
      cases hoffset : parseInt (some entry.assignedAtOffset) with
      | none =>
        rw [hoffset] at hread
        cases hread
      | some offset =>
        rw [hoffset] at hread
        simp only at hread
        split_ifs at hread with hduplicate
        have heq : epoch = entry.leaderEpoch := by
          unfold parseUint at hepoch
          rw [Option.map_eq_some_iff] at hepoch
          rcases hepoch with ⟨n, hn, rfl⟩
          rw [Option.filter_eq_some_iff] at hn
          cases hn.1
          exact Int.toNat_natCast _
        have heq' : offset = entry.assignedAtOffset := by
          unfold parseInt at hoffset
          rw [Option.filter_eq_some_iff] at hoffset
          exact (Option.some.inj hoffset.1).symm
        rw [ih hread, heq, heq']
        simp

theorem readEntries_of_read {version count : Option ℤ} {rest : List (Option ℤ)}
    (hread : readLeaderEpochOffsets (version :: count :: rest) = .ok loaded) :
    readEntries rest [] = .ok loaded := by
  simp only [readLeaderEpochOffsets] at hread
  split at hread
  · cases hread
  · split_ifs at hread
    split at hread
    · cases hread
    · split at hread
      · cases hread
      next entries hentries =>
        split_ifs at hread
        cases hread
        exact hentries

theorem eq_of_readLeaderEpochOffsets
    (hread : readLeaderEpochOffsets (checkpoint cache) = .ok loaded) : loaded = cache :=
  readEntries_flatMap (readEntries_of_read hread)

/-! ## What the cache vouches for -/

/-- The entries rise; the records at or below an entry's offset are of epochs
up to the entry before it, and no record is of an epoch above the latest. -/
structure Right (writes : Set (ℤ × ℕ)) (next : ℤ)
    (cache : List EpochOffset) : Prop where
  rising : cache.Pairwise fun a b =>
    a.leaderEpoch < b.leaderEpoch ∧ a.assignedAtOffset ≤ b.assignedAtOffset
  behind : ∀ before entry after, cache = before ++ entry :: after →
    ∀ write ∈ writes, write.1 ≤ entry.assignedAtOffset → write.2 ≤ latestEpoch before
  covered : ∀ write ∈ writes, write.2 ≤ latestEpoch cache
  reached : ∀ entry ∈ cache, entry.assignedAtOffset < next

section Right

variable {writes : Set (ℤ × ℕ)} {next : ℤ} {cache : List EpochOffset}

@[simp] theorem latestEpoch_concat (cache : List EpochOffset) (entry : EpochOffset) :
    latestEpoch (cache ++ [entry]) = entry.leaderEpoch := by
  simp [latestEpoch]

variable {front : List EpochOffset}

theorem latestEpoch_append {rest : List EpochOffset} (hne : rest ≠ []) :
    latestEpoch (front ++ rest) = latestEpoch rest := by
  unfold latestEpoch
  rw [getLast?_append_of_ne_nil _ hne]

variable {writes' : Set (ℤ × ℕ)}

theorem Right.mono (hright : Right writes next cache) {next' : ℤ} (hsub : writes' ⊆ writes)
    (hreached : ∀ entry ∈ cache, entry.assignedAtOffset < next') :
    Right writes' next' cache where
  rising := hright.rising
  behind before entry after hsplit write hwrite :=
    hright.behind before entry after hsplit write (hsub hwrite)
  covered write hwrite := hright.covered write (hsub hwrite)
  reached := hreached

theorem Right.findEpoch (hright : Right writes next cache) (epoch : ℕ) :
    ∃ front rest, cache = front ++ rest ∧ (∀ entry ∈ front, entry.leaderEpoch < epoch) ∧
      findEpoch cache epoch = rest.head? := by
  let q := fun entry : EpochOffset => decide (epoch ≤ entry.leaderEpoch)
  have hfront : ∀ entry ∈ cache.takeWhile (fun entry => !q entry), q entry = false := by
    intro entry hentry
    simpa using all_eq_true.mp all_takeWhile entry hentry
  have hrest : ∀ entry ∈ cache.dropWhile (fun entry => !q entry), q entry = true := by
    cases hdrop : cache.dropWhile (fun entry => !q entry) with
    | nil => simp
    | cons first rest =>
      have hfirst : q first = true := by
        have hhead := head?_dropWhile_not (fun entry => !q entry) cache
        rw [hdrop] at hhead
        simpa using hhead
      have hrising : (first :: rest).Pairwise fun a b =>
          a.leaderEpoch < b.leaderEpoch ∧ a.assignedAtOffset ≤ b.assignedAtOffset := by
        rw [← hdrop]
        exact hright.rising.sublist (dropWhile_sublist _)
      intro entry hentry
      rcases mem_cons.mp hentry with rfl | hentry
      · exact hfirst
      · have hlt := (pairwise_cons.mp hrising).1 entry hentry
        simp only [q, decide_eq_true_eq] at hfirst ⊢
        omega
  have hsplit : cache.takeWhile (fun entry => !q entry) ++
      cache.dropWhile (fun entry => !q entry) = cache :=
    takeWhile_append_dropWhile
  generalize cache.takeWhile (fun entry => !q entry) = front at *
  generalize cache.dropWhile (fun entry => !q entry) = rest at *
  refine ⟨front, rest, hsplit.symm, ?_, ?_⟩
  · intro entry hentry
    simpa [q] using hfront entry hentry
  · unfold EpochCache.findEpoch
    rw [← hsplit, search_append hfront hrest, getElem?_append_right le_rfl, Nat.sub_self,
      ← head?_eq_getElem?]

variable {epoch : ℕ}

theorem latestEpoch_lt_of (hfront : ∀ entry ∈ front, entry.leaderEpoch < epoch) (hpos : 0 < epoch) :
    latestEpoch front < epoch := by
  unfold latestEpoch
  cases hlast : front.getLast? with
  | none => exact hpos
  | some last => exact hfront last (mem_of_getLast? hlast)

theorem Right.lastOffset (hright : Right writes next cache)
    (hepoch : epoch + 1 < uint64Size) {write : ℤ × ℕ} (hwrite : write ∈ writes)
    (hkept : ∀ answer, lastOffsetForLeaderEpoch cache epoch = some answer → write.1 ≤ answer) :
    write.2 ≤ epoch := by
  rcases hright.findEpoch (epoch + 1) with ⟨front, rest, hsplit, hfront, hfind⟩
  have hlatest := latestEpoch_lt_of hfront (Nat.succ_pos epoch)
  unfold lastOffsetForLeaderEpoch at hkept
  rw [Nat.mod_eq_of_lt hepoch, hfind] at hkept
  cases rest with
  | nil =>
    have hcovered := hright.covered write hwrite
    rw [hsplit, append_nil] at hcovered
    omega
  | cons entry after =>
    have hle := hright.behind front entry after hsplit write hwrite (hkept _ rfl)
    omega

/-! ## The updates -/

theorem Right.write (hright : Right writes next cache) {offset : ℤ} {epoch : ℕ}
    (hoffset : next ≤ offset) (hepoch : epoch ≤ latestEpoch cache) :
    Right (insert (offset, epoch) writes) (offset + 1) cache where
  rising := hright.rising
  behind := by
    intro before entry after hsplit write hwrite hle
    rcases hwrite with rfl | hwrite
    · have hlt := hright.reached entry (by simp [hsplit])
      simp only at hle
      omega
    · exact hright.behind before entry after hsplit write hwrite hle
  covered := by
    intro write hwrite
    rcases hwrite with rfl | hwrite
    · exact hepoch
    · exact hright.covered write hwrite
  reached := by
    intro entry hentry
    have hlt := hright.reached entry hentry
    omega

theorem latestOffset_le_of (hbound : ∀ entry ∈ cache, entry.assignedAtOffset < next)
    (hne : cache ≠ []) : latestOffset cache ≤ next - 1 := by
  unfold latestOffset
  cases hlast : cache.getLast? with
  | none => exact absurd (getLast?_eq_none_iff.mp hlast) hne
  | some last =>
    have hlt := hbound last (mem_of_getLast? hlast)
    simp only [Option.map_some, Option.getD_some]
    omega

theorem le_latest_of_mem {entry : EpochOffset}
    (hrising : cache.Pairwise fun a b => a.leaderEpoch < b.leaderEpoch ∧
      a.assignedAtOffset ≤ b.assignedAtOffset) (hentry : entry ∈ cache) :
    entry.leaderEpoch ≤ latestEpoch cache ∧ entry.assignedAtOffset ≤ latestOffset cache := by
  rcases eq_nil_or_concat cache with rfl | ⟨front, last, rfl⟩
  · cases hentry
  · rw [concat_eq_append] at hrising hentry ⊢
    have hlast := (pairwise_append.mp hrising).2.2
    simp only [latestEpoch, latestOffset, getLast?_concat, Option.map_some, Option.getD_some]
    rcases mem_append.mp hentry with hentry | hentry
    · have hlt := hlast entry hentry last (mem_singleton_self _)
      exact ⟨hlt.1.le, hlt.2⟩
    · rw [mem_singleton.mp hentry]
      exact ⟨le_rfl, le_rfl⟩

section

variable (hright : Right writes next cache)
include hright

theorem Right.assign (epoch : ℕ) : Right writes next (assign cache epoch (next - 1)) := by
  unfold EpochCache.assign
  split_ifs with haccept
  · have hlater : ∀ entry ∈ cache, entry.leaderEpoch < epoch ∧
        entry.assignedAtOffset ≤ next - 1 := by
      intro entry hentry
      rcases haccept with hnil | haccept
      · simp [hnil] at hentry
      · have hle := le_latest_of_mem hright.rising hentry
        omega
    have hlatest : latestEpoch cache ≤ epoch := by
      rcases haccept with hnil | haccept
      · simp [hnil, latestEpoch]
      · exact haccept.1.le
    constructor
    · rw [pairwise_append]
      refine ⟨hright.rising, pairwise_singleton _ _, ?_⟩
      intro entry hentry new hnew
      rw [mem_singleton.mp hnew]
      exact hlater entry hentry
    · intro before entry after hsplit write hwrite hle
      rcases eq_nil_or_concat after with rfl | ⟨front, last, rfl⟩
      · rcases append_inj' hsplit rfl with ⟨rfl, hentry⟩
        exact hright.covered write hwrite
      · rw [concat_eq_append, ← cons_append, ← append_assoc] at hsplit
        have hfront := (append_inj' hsplit rfl).1
        exact hright.behind before entry front hfront write hwrite hle
    · intro write hwrite
      rw [latestEpoch_concat]
      exact (hright.covered write hwrite).trans hlatest
    · intro entry hentry
      rcases mem_append.mp hentry with hentry | hentry
      · exact hright.reached entry hentry
      · rw [mem_singleton.mp hentry]
        simp
  · exact hright

theorem Right.latestEpoch_assign (hlater : latestEpoch cache < epoch) :
    latestEpoch (EpochCache.assign cache epoch (next - 1)) = epoch := by
  unfold EpochCache.assign
  rw [if_pos, latestEpoch_concat]
  by_cases hnil : cache = []
  · exact Or.inl hnil
  · exact Or.inr ⟨hlater, latestOffset_le_of hright.reached hnil⟩

theorem Right.split_below (offset : ℤ) : ∃ rest, cache = (cache.filter fun entry =>
        decide (entry.assignedAtOffset < offset)) ++ rest ∧
      ∀ entry ∈ rest, offset ≤ entry.assignedAtOffset := by
  let q := fun entry : EpochOffset => decide (entry.assignedAtOffset < offset)
  have hfilter : cache.takeWhile q = cache.filter q := by
    apply takeWhile_eq_filter
    apply hright.rising.imp
    intro a b hlt hb
    simp only [q, decide_eq_true_eq] at hb ⊢
    omega
  have hsplit : cache.filter q ++ cache.dropWhile q = cache := by
    rw [← hfilter, takeWhile_append_dropWhile]
  refine ⟨cache.dropWhile q, hsplit.symm, ?_⟩
  intro entry hentry
  by_contra hlt
  -- An entry below the offset is in front of all that are not.
  cases hdrop : cache.dropWhile q with
  | nil => simp [hdrop] at hentry
  | cons first rest =>
    have hfirst : q first = false := by
      have hhead := head?_dropWhile_not q cache
      rw [hdrop] at hhead
      simpa using hhead
    have hrising := hright.rising.sublist (dropWhile_sublist q)
    rw [hdrop] at hrising hentry
    simp only [q, decide_eq_false_iff_not] at hfirst
    rcases mem_cons.mp hentry with rfl | hentry
    · omega
    · have hle := ((pairwise_cons.mp hrising).1 entry hentry).2
      omega

theorem Right.clearLatest_eq (offset : ℤ) : clearLatest offset cache =
      cache.filter fun entry => decide (entry.assignedAtOffset < offset) := by
  unfold clearLatest
  split_ifs with hlatest
  · symm
    rw [filter_eq_self]
    intro entry hentry
    have hle := (le_latest_of_mem hright.rising hentry).2
    simp only [decide_eq_true_eq]
    omega
  · rfl

theorem Right.clearLatest {offset : ℤ} {next' : ℤ} (hsub : writes' ⊆ writes)
    (hcut : ∀ write ∈ writes', write.1 < offset)
    (hreached : ∀ entry ∈ cache, entry.assignedAtOffset < offset → entry.assignedAtOffset < next') :
    Right writes' next' (clearLatest offset cache) := by
  rcases hright.split_below offset with ⟨rest, hsplit, hrest⟩
  have hmem : ∀ entry ∈ cache.filter fun entry =>
      decide (entry.assignedAtOffset < offset),
      entry ∈ cache ∧ entry.assignedAtOffset < offset := by
    intro entry hentry
    simpa using mem_filter.mp hentry
  rw [hright.clearLatest_eq]
  generalize (cache.filter fun entry =>
    decide (entry.assignedAtOffset < offset)) = front at *
  constructor
  · have hrising := hright.rising
    rw [hsplit] at hrising
    exact (pairwise_append.mp hrising).1
  · intro before entry after hfront write hwrite hle
    apply hright.behind before entry (after ++ rest) _ write (hsub hwrite) hle
    rw [hsplit, hfront]
    simp
  · intro write hwrite
    cases rest with
    | nil =>
      have hcovered := hright.covered write (hsub hwrite)
      rwa [hsplit, append_nil] at hcovered
    | cons first rest =>
      have hfirst := hrest first mem_cons_self
      have hlt := hcut write hwrite
      exact hright.behind front first rest hsplit write (hsub hwrite) (by omega)
  · intro entry hentry
    exact hreached entry (hmem entry hentry).1 (hmem entry hentry).2

end

/-- A trim that drops or moves an entry leaves its offset as the first answer.
Then no record at or below it may be of an epoch above 0, and it must lie
below the end. -/
def TrimSafe (writes : Set (ℤ × ℕ)) (next offset : ℤ) (cache : List EpochOffset) : Prop :=
  0 < offset → (∃ entry ∈ cache, entry.assignedAtOffset < offset) →
    offset < next ∧ ∀ write ∈ writes, write.1 ≤ offset → write.2 = 0

theorem Right.clearEarliest (hright : Right writes next cache) {offset : ℤ}
    (hsafe : TrimSafe writes next offset cache) :
    Right writes next (clearEarliest offset cache) := by
  rcases hright.split_below offset with ⟨kept, hsplit, hkept⟩
  have hmem : ∀ entry ∈ cache.filter fun entry =>
      decide (entry.assignedAtOffset < offset),
      entry ∈ cache ∧ entry.assignedAtOffset < offset := by
    intro entry hentry
    simpa using mem_filter.mp hentry
  unfold EpochCache.clearEarliest
  split_ifs with hpos hearliest
  · exact hright
  · exact hright
  simp only
  generalize (cache.filter fun entry =>
    decide (entry.assignedAtOffset < offset)) = front at *
  have hdrop : cache.drop front.length = kept := by
    rw [hsplit, drop_left]
  rw [hdrop]
  cases hlast : front.getLast? with
  | none => exact hright
  | some last =>
    have hin := hmem last (mem_of_getLast? hlast)
    rcases hsafe (by omega) ⟨last, hin⟩ with ⟨hnext, hzero⟩
    have hrising := hright.rising
    rw [hsplit] at hrising
    have hparts := pairwise_append.mp hrising
    -- Behind the first entry, the one in front of an entry stays the same.
    have hbehind : ∀ before entry after, kept = before ++ entry :: after →
        ∀ write ∈ writes, write.1 ≤ entry.assignedAtOffset →
          write.2 ≤ latestEpoch (front ++ before) := by
      intro before entry after hkeptSplit write hwrite hle
      apply hright.behind (front ++ before) entry after _ write hwrite hle
      rw [hsplit, hkeptSplit, append_assoc]
    have hmovedEpoch : ∀ before, latestEpoch (front ++ before) =
        latestEpoch (⟨last.leaderEpoch, offset⟩ :: before) := by
      intro before
      by_cases hnil : before = []
      · simp [hnil, latestEpoch, hlast]
      · rw [latestEpoch_append hnil, ← singleton_append, latestEpoch_append hnil]
    have hreached : ∀ entry ∈ kept, entry.assignedAtOffset < next := by
      intro entry hentry
      apply hright.reached
      rw [hsplit]
      exact mem_append_right _ hentry
    have hlatest : latestEpoch cache = latestEpoch (front ++ kept) := by
      rw [← hsplit]
    simp only
    split_ifs with hmoved
    · constructor
      · apply pairwise_cons.mpr ⟨?_, hparts.2.1⟩
        intro entry hentry
        exact ⟨(hparts.2.2 last (mem_of_getLast? hlast) entry hentry).1, hkept entry hentry⟩
      · intro before entry after hcons write hwrite hle
        cases before with
        | nil =>
          cases hcons
          rw [hzero write hwrite hle]
          exact Nat.zero_le _
        | cons moved before =>
          cases hcons
          rw [← hmovedEpoch]
          exact hbehind before entry after rfl write hwrite hle
      · intro write hwrite
        rw [← hmovedEpoch, ← hlatest]
        exact hright.covered write hwrite
      · intro entry hentry
        rcases mem_cons.mp hentry with rfl | hentry
        · exact hnext
        · exact hreached entry hentry
    · rw [not_or, not_lt] at hmoved
      constructor
      · exact hparts.2.1
      · intro before entry after hkeptSplit write hwrite hle
        by_cases hnil : before = []
        · have hfirst : entry.assignedAtOffset ≤ offset := by
            have hhead := hmoved.1
            rw [hkeptSplit, hnil] at hhead
            simpa [earliestOffset] using hhead
          rw [hzero write hwrite (hle.trans hfirst)]
          exact Nat.zero_le _
        · have hbound := hbehind before entry after hkeptSplit write hwrite hle
          rwa [latestEpoch_append hnil] at hbound
      · intro write hwrite
        have hbound := hright.covered write hwrite
        rwa [hlatest, latestEpoch_append hmoved.2] at hbound
      · exact hreached

end Right

end EpochCache

end CommitLog
