import Mathlib.Data.List.Sort
import Mathlib.Order.Defs.LinearOrder
import Mathlib.Tactic

/-!
# Merging sorted streams by key

A stream is a list of key-value pairs sorted by key.  The merge repeatedly
takes the smallest key at the head of any stream, gathers the values the
streams hold for it, and advances exactly those streams.  The main result says
that each key comes out once, with its value from every stream that has one.
-/

namespace KeyMerge

open List

variable {κ ν : Type*} [LinearOrder κ]

/-- The streams have strictly increasing keys. -/
def Sorted (stream : List (κ × ν)) : Prop :=
  stream.Pairwise fun a b => a.1 < b.1

variable {stream : List (κ × ν)} {entry : κ × ν}

theorem Sorted.tail (hsorted : Sorted (entry :: stream)) : Sorted stream :=
  (pairwise_cons.mp hsorted).2

def minHead : List (List (κ × ν)) → Option κ
  | [] => none
  | [] :: streams => minHead streams
  | (entry :: _) :: streams =>
    match minHead streams with
    | none => some entry.1
    | some key => some (min entry.1 key)

/-- The values at the stream heads that carry the key, with the index of
their stream. -/
def gather (key : κ) : ℕ → List (List (κ × ν)) → List (ℕ × ν)
  | _, [] => []
  | i, [] :: streams => gather key (i + 1) streams
  | i, (entry :: _) :: streams =>
    if entry.1 = key then (i, entry.2) :: gather key (i + 1) streams
    else gather key (i + 1) streams

def advanceOne (key : κ) : List (κ × ν) → List (κ × ν)
  | [] => []
  | entry :: stream => if entry.1 = key then stream else entry :: stream

def mergeGroups : ℕ → List (List (κ × ν)) → List (κ × List (ℕ × ν))
  | 0, _ => []
  | fuel + 1, streams =>
    match minHead streams with
    | none => []
    | some key =>
      (key, gather key 0 streams) :: mergeGroups fuel (streams.map (advanceOne key))

/-- Entries still to be consumed. -/
def total (streams : List (List (κ × ν))) : ℕ :=
  (streams.map length).sum

/-- The merge of all streams: every round consumes at least one entry. -/
def merge (streams : List (List (κ × ν))) : List (κ × List (ℕ × ν)) :=
  mergeGroups (total streams) streams

def find (key : κ) : List (κ × ν) → Option ν
  | [] => none
  | entry :: stream => if entry.1 = key then some entry.2 else find key stream

def lookupAll (key : κ) : ℕ → List (List (κ × ν)) → List (ℕ × ν)
  | _, [] => []
  | i, stream :: streams =>
    match find key stream with
    | none => lookupAll key (i + 1) streams
    | some value => (i, value) :: lookupAll key (i + 1) streams

/-! ## One stream -/

@[simp] theorem find_nil (key : κ) : find key ([] : List (κ × ν)) = none := rfl

theorem find_cons_self (key : κ) (value : ν) (stream : List (κ × ν)) :
    find key ((key, value) :: stream) = some value := by
  simp [find]

variable {key : κ}

theorem find_cons_of_ne (hne : entry.1 ≠ key) : find key (entry :: stream) = find key stream := by
  simp [find, hne]

theorem find_eq_none (hne : ∀ entry ∈ stream, entry.1 ≠ key) : find key stream = none := by
  induction stream with
  | nil => rfl
  | cons entry stream ih =>
    rw [find_cons_of_ne (hne entry mem_cons_self)]
    exact ih fun e he => hne e (mem_cons_of_mem _ he)

theorem mem_of_find {value : ν} (hfind : find key stream = some value) : (key, value) ∈ stream := by
  induction stream with
  | nil => simp at hfind
  | cons entry stream ih =>
    by_cases hentry : entry.1 = key
    · have hvalue : entry.2 = value := by simpa [find, hentry] using hfind
      rw [← hentry, ← hvalue]
      exact mem_cons_self
    · rw [find_cons_of_ne hentry] at hfind
      exact mem_cons_of_mem _ (ih hfind)

theorem mem_iff_find {value : ν} (hnodup : (stream.map Prod.fst).Nodup) :
    (key, value) ∈ stream ↔ find key stream = some value := by
  refine ⟨?_, mem_of_find⟩
  intro hmem
  induction stream with
  | nil => simp at hmem
  | cons entry stream ih =>
    rw [map_cons, nodup_cons] at hnodup
    rcases mem_cons.mp hmem with heq | hin
    · rw [← heq]
      exact find_cons_self key value stream
    · have hne : entry.1 ≠ key := by
        intro hkey
        apply hnodup.1
        rw [hkey]
        exact mem_map_of_mem (f := Prod.fst) hin
      rw [find_cons_of_ne hne]
      exact ih hnodup.2 hin

theorem find_eq_of_perm {stream' : List (κ × ν)} (hperm : stream.Perm stream')
    (hnodup : (stream.map Prod.fst).Nodup) (key : κ) : find key stream = find key stream' := by
  have hnodup' : (stream'.map Prod.fst).Nodup :=
    (hperm.map Prod.fst).nodup_iff.mp hnodup
  apply Option.ext
  intro value
  rw [← mem_iff_find hnodup, ← mem_iff_find hnodup']
  exact hperm.mem_iff

/-- The keys at the stream heads are at least `key`. -/
def HeadsGE (key : κ) (streams : List (List (κ × ν))) : Prop :=
  ∀ stream ∈ streams, ∀ entry ∈ stream.head?, key ≤ entry.1

variable {streams : List (List (κ × ν))}

theorem minHead_ne_none_of_mem {rest : List (κ × ν)}
    (hmem : entry :: rest ∈ streams) : minHead streams ≠ none := by
  induction streams with
  | nil => simp at hmem
  | cons stream streams ih =>
    cases stream with
    | nil =>
      simp only [mem_cons, reduceCtorEq, false_or] at hmem
      simpa [minHead] using ih hmem
    | cons first rest =>
      simp only [minHead]
      cases minHead streams <;> simp

theorem minHead_le (hmin : minHead streams = some key) : HeadsGE key streams := by
  induction streams generalizing key with
  | nil => simp [HeadsGE]
  | cons stream streams ih =>
    cases stream with
    | nil =>
      intro stream hmem entry hentry
      rcases mem_cons.mp hmem with rfl | hmem
      · simp at hentry
      · exact ih hmin stream hmem entry hentry
    | cons first rest =>
      simp only [minHead] at hmin
      cases hrest : minHead streams with
      | none =>
        rw [hrest] at hmin
        cases hmin
        intro stream hmem entry hentry
        rcases mem_cons.mp hmem with rfl | hmem
        · simp only [head?_cons, Option.mem_some_iff] at hentry
          exact le_of_eq (congrArg Prod.fst hentry)
        · cases stream with
          | nil => simp at hentry
          | cons other tail =>
            exact absurd hrest (minHead_ne_none_of_mem hmem)
      | some least =>
        rw [hrest] at hmin
        cases hmin
        intro stream hmem entry hentry
        rcases mem_cons.mp hmem with rfl | hmem
        · simp only [head?_cons, Option.mem_some_iff] at hentry
          rw [← hentry]
          exact min_le_left _ _
        · exact (min_le_right _ _).trans (ih hrest stream hmem entry hentry)

theorem minHead_mem (hmin : minHead streams = some key) :
    ∃ value rest, (key, value) :: rest ∈ streams := by
  induction streams generalizing key with
  | nil => simp [minHead] at hmin
  | cons stream streams ih =>
    cases stream with
    | nil =>
      obtain ⟨value, rest, hmem⟩ := ih hmin
      exact ⟨value, rest, mem_cons_of_mem _ hmem⟩
    | cons first tail =>
      simp only [minHead] at hmin
      cases hrest : minHead streams with
      | none =>
        rw [hrest] at hmin
        cases hmin
        exact ⟨first.2, tail, mem_cons_self⟩
      | some least =>
        rw [hrest] at hmin
        obtain ⟨value, rest, hmem⟩ := ih hrest
        cases hmin
        rcases min_choice first.1 least with hleft | hright
        · rw [hleft]
          exact ⟨first.2, tail, mem_cons_self⟩
        · rw [hright]
          exact ⟨value, rest, mem_cons_of_mem _ hmem⟩

/-! ## One round -/

theorem Sorted.advanceOne (hsorted : Sorted stream) : Sorted (advanceOne key stream) := by
  cases stream with
  | nil => exact hsorted
  | cons entry stream =>
    simp only [KeyMerge.advanceOne]
    split
    · exact hsorted.tail
    · exact hsorted

theorem find_advanceOne_of_ne {other : κ} (hne : other ≠ key) :
    find other (advanceOne key stream) = find other stream := by
  cases stream with
  | nil => rfl
  | cons entry stream =>
    by_cases hentry : entry.1 = key
    · have hother : entry.1 ≠ other := by
        rw [hentry]
        exact Ne.symm hne
      simp [advanceOne, hentry, find_cons_of_ne hother]
    · simp [advanceOne, hentry]

theorem find_of_head_ge (hsorted : Sorted (entry :: stream)) (hge : key ≤ entry.1) :
    find key (entry :: stream) =
      if entry.1 = key then some entry.2 else none := by
  by_cases hkey : entry.1 = key
  · simp [find, hkey]
  · have hlt : key < entry.1 := lt_of_le_of_ne hge (Ne.symm hkey)
    have hrest : find key stream = none := by
      apply find_eq_none
      intro later hmem
      exact (hlt.trans ((pairwise_cons.mp hsorted).1 later hmem)).ne'
    rw [find_cons_of_ne hkey, if_neg hkey, hrest]

theorem lt_of_mem_advanceOne (hsorted : Sorted stream) (hge : ∀ entry ∈ stream.head?, key ≤ entry.1)
    (hmem : entry ∈ advanceOne key stream) : key < entry.1 := by
  cases stream with
  | nil => simp [advanceOne] at hmem
  | cons first rest =>
    have hfirst : key ≤ first.1 := hge first (by simp)
    have hrest := (pairwise_cons.mp hsorted).1
    simp only [advanceOne] at hmem
    split at hmem
    next heq => exact hfirst.trans_lt (hrest entry hmem)
    next hne =>
      have hlt : key < first.1 := lt_of_le_of_ne hfirst (Ne.symm hne)
      rcases mem_cons.mp hmem with rfl | hmem
      · exact hlt
      · exact hlt.trans (hrest entry hmem)

theorem gather_eq_lookupAll (hsorted : ∀ stream ∈ streams, Sorted stream)
    (hge : HeadsGE key streams) (i : ℕ) : gather key i streams = lookupAll key i streams := by
  induction streams generalizing i with
  | nil => rfl
  | cons stream streams ih =>
    have hrest := ih (fun s hs => hsorted s (mem_cons_of_mem _ hs))
      (fun s hs => hge s (mem_cons_of_mem _ hs)) (i + 1)
    cases stream with
    | nil => simpa [gather, lookupAll] using hrest
    | cons entry stream =>
      have hhead : key ≤ entry.1 :=
        hge _ mem_cons_self entry (by simp)
      have hfind := find_of_head_ge (hsorted _ mem_cons_self) hhead
      simp only [gather, lookupAll, hfind]
      split <;> simp [hrest]

theorem lookupAll_advance_of_ne {other : κ} (hne : other ≠ key) (i : ℕ) :
    lookupAll other i (streams.map (advanceOne key)) =
      lookupAll other i streams := by
  induction streams generalizing i with
  | nil => rfl
  | cons stream streams ih =>
    simp only [map_cons, lookupAll, find_advanceOne_of_ne hne, ih]

theorem length_advanceOne_le (key : κ) (stream : List (κ × ν)) :
    (advanceOne key stream).length ≤ stream.length := by
  cases stream with
  | nil => exact le_rfl
  | cons entry stream =>
    simp only [advanceOne]
    split <;> simp

theorem total_advance_lt (hhead : ∃ value rest, (key, value) :: rest ∈ streams) :
    total (streams.map (advanceOne key)) < total streams := by
  obtain ⟨value, rest, hmem⟩ := hhead
  unfold total
  rw [map_map]
  apply sum_lt_sum
  · intro stream _
    exact length_advanceOne_le key stream
  · exact ⟨_, hmem, by simp [advanceOne]⟩

/-! ## The whole merge -/

/-- The groups of a merge: each key once, in order, with what every stream
holds for it. -/
structure MergeSpec (streams : List (List (κ × ν)))
    (groups : List (κ × List (ℕ × ν))) : Prop where
  sorted : groups.Pairwise fun a b => a.1 < b.1
  sound : ∀ group ∈ groups, group.2 = lookupAll group.1 0 streams
  complete : ∀ key, lookupAll key 0 streams ≠ [] → (key, lookupAll key 0 streams) ∈ groups

theorem lookupAll_eq_nil (hnone : ∀ stream ∈ streams, find key stream = none) (i : ℕ) :
    lookupAll key i streams = [] := by
  induction streams generalizing i with
  | nil => rfl
  | cons stream streams ih =>
    simp only [lookupAll, hnone stream mem_cons_self]
    exact ih (fun s hs => hnone s (mem_cons_of_mem _ hs)) (i + 1)

theorem minHead_eq_none (hmin : minHead streams = none) : ∀ stream ∈ streams, stream = [] := by
  intro stream hmem
  cases stream with
  | nil => rfl
  | cons entry stream => exact absurd hmin (minHead_ne_none_of_mem hmem)

theorem mem_of_mem_advanceOne (hmem : entry ∈ advanceOne key stream) : entry ∈ stream := by
  cases stream with
  | nil => exact hmem
  | cons first rest =>
    simp only [advanceOne] at hmem
    split at hmem
    · exact mem_cons_of_mem _ hmem
    · exact hmem

theorem mergeGroups_key_mem {fuel : ℕ}
    {group : κ × List (ℕ × ν)} (hgroup : group ∈ mergeGroups fuel streams) :
    ∃ stream ∈ streams, ∃ entry ∈ stream, entry.1 = group.1 := by
  induction fuel generalizing streams with
  | zero => simp [mergeGroups] at hgroup
  | succ fuel ih =>
    simp only [mergeGroups] at hgroup
    cases hmin : minHead streams with
    | none => simp [hmin] at hgroup
    | some key =>
      simp only [hmin, mem_cons] at hgroup
      rcases hgroup with rfl | hgroup
      · obtain ⟨value, rest, hmem⟩ := minHead_mem hmin
        exact ⟨_, hmem, (key, value), mem_cons_self, rfl⟩
      · obtain ⟨stream, hstream, entry, hentry, hkey⟩ := ih hgroup
        obtain ⟨source, hsource, rfl⟩ := mem_map.mp hstream
        exact ⟨source, hsource, entry, mem_of_mem_advanceOne hentry, hkey⟩

theorem mergeGroups_spec {fuel : ℕ} (hsorted : ∀ stream ∈ streams, Sorted stream)
    (hfuel : total streams ≤ fuel) : MergeSpec streams (mergeGroups fuel streams) := by
  induction fuel generalizing streams with
  | zero =>
    -- No fuel is needed exactly when every stream is exhausted.
    refine ⟨by simp [mergeGroups], by simp [mergeGroups], ?_⟩
    intro key hne
    refine absurd (lookupAll_eq_nil ?_ 0) hne
    intro stream hmem
    have hle := le_sum_of_mem (mem_map_of_mem (f := length) hmem)
    unfold total at hfuel
    rw [eq_nil_of_length_eq_zero (l := stream) (by omega)]
    rfl
  | succ fuel ih =>
    simp only [mergeGroups]
    cases hmin : minHead streams with
    | none =>
      refine ⟨Pairwise.nil, by simp, ?_⟩
      intro key hne
      refine absurd (lookupAll_eq_nil ?_ 0) hne
      intro stream hmem
      rw [minHead_eq_none hmin stream hmem]
      rfl
    | some key =>
      have hge := minHead_le hmin
      have hsorted' : ∀ stream ∈ streams.map (advanceOne key),
          Sorted stream := by
        intro stream hmem
        obtain ⟨source, hsource, rfl⟩ := mem_map.mp hmem
        exact (hsorted source hsource).advanceOne
      have hless := total_advance_lt (minHead_mem hmin)
      have hspec := ih hsorted' (by omega)
      have hlater : ∀ group ∈ mergeGroups fuel (streams.map (advanceOne key)), key < group.1 := by
        intro group hgroup
        obtain ⟨stream, hstream, entry, hentry, hkey⟩ :=
          mergeGroups_key_mem hgroup
        obtain ⟨source, hsource, rfl⟩ := mem_map.mp hstream
        rw [← hkey]
        exact lt_of_mem_advanceOne (hsorted source hsource) (hge source hsource) hentry
      dsimp only
      refine ⟨pairwise_cons.mpr ⟨hlater, hspec.sorted⟩, ?_, ?_⟩
      · intro group hgroup
        rcases mem_cons.mp hgroup with rfl | hgroup
        · exact gather_eq_lookupAll hsorted hge 0
        · rw [hspec.sound group hgroup, lookupAll_advance_of_ne (hlater group hgroup).ne']
      · intro other hne
        by_cases hkey : other = key
        · subst hkey
          rw [gather_eq_lookupAll hsorted hge 0]
          exact mem_cons_self
        · rw [← lookupAll_advance_of_ne hkey] at hne ⊢
          exact mem_cons_of_mem _ (hspec.complete other hne)

theorem merge_spec (hsorted : ∀ stream ∈ streams, Sorted stream) :
    MergeSpec streams (merge streams) :=
  mergeGroups_spec hsorted le_rfl

theorem mem_lookupAll {first i : ℕ} {value : ν} : (i, value) ∈ lookupAll key first streams ↔
      ∃ j stream, streams[j]? = some stream ∧ i = first + j ∧ find key stream = some value := by
  induction streams generalizing first with
  | nil => simp [lookupAll]
  | cons stream streams ih =>
    have hshift : ((i, value) ∈ lookupAll key (first + 1) streams) ↔
        ∃ j found, (stream :: streams)[j + 1]? = some found ∧
          i = first + (j + 1) ∧ find key found = some value := by
      rw [ih]
      simp only [getElem?_cons_succ]
      constructor
      · rintro ⟨j, found, hget, hi, hfind⟩
        exact ⟨j, found, hget, by omega, hfind⟩
      · rintro ⟨j, found, hget, hi, hfind⟩
        exact ⟨j, found, hget, by omega, hfind⟩
    constructor
    · intro hmem
      simp only [lookupAll] at hmem
      cases hfind : find key stream with
      | none =>
        rw [hfind] at hmem
        obtain ⟨j, found, hfound⟩ := hshift.mp hmem
        exact ⟨j + 1, found, hfound⟩
      | some head =>
        rw [hfind] at hmem
        rcases mem_cons.mp hmem with heq | hmem
        · cases heq
          exact ⟨0, stream, by simp, by simp, hfind⟩
        · obtain ⟨j, found, hfound⟩ := hshift.mp hmem
          exact ⟨j + 1, found, hfound⟩
    · rintro ⟨j, found, hget, hi, hfind⟩
      simp only [lookupAll]
      cases j with
      | zero =>
        simp only [getElem?_cons_zero, Option.some.injEq] at hget
        subst hget
        rw [hfind]
        exact mem_cons.mpr (Or.inl (by simp [hi]))
      | succ j =>
        have hmem := hshift.mpr ⟨j, found, hget, hi, hfind⟩
        cases find key stream with
        | none => exact hmem
        | some head => exact mem_cons_of_mem _ hmem

end KeyMerge
