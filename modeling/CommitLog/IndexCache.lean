import CommitLog.Frames
import CommitLog.Runs

/-!
# The cache of remote indexes

An index of an offloaded segment is downloaded into a file whose name follows
from the object key.  An entry is counted in use from `acquire` to `release`;
one that is invalidated in use leaves the map and is closed, with its file, by
the last release.  The file of a key is written anew by every download of the
key, whatever entry still uses it.
-/

namespace CommitLog

open List Runs

variable {κ : Type*} [DecidableEq κ]

/-- A `cachedIndex`, with the bytes of the object it was fetched from. -/
structure CachedIndex (κ : Type*) where
  id : ℕ
  key : κ
  object : Bytes
  refs : ℕ
  stale : Bool
deriving DecidableEq

/-- A download of a key: at most one runs at a time. -/
inductive Fetch
  | idle
  | begun
  | writing (data : Bytes)

/-- The entries, least recently used first, with those invalidated in use;
`held` are the acquired entries not yet released. -/
structure IndexCache (κ : Type*) where
  maxBytes : ℤ
  entries : List (CachedIndex κ)
  fetching : κ → Fetch
  files : κ → Option Bytes
  total : ℤ
  nextId : ℕ
  held : List ℕ

namespace IndexCache

def new (maxBytes : ℤ) : IndexCache κ :=
  ⟨maxBytes, [], fun _ => .idle, fun _ => none, 0, 0, []⟩

/-- Bytes the entry counts for; one that is invalidated is not accounted. -/
def bytesOf (e : CachedIndex κ) : ℤ := if e.stale then 0 else e.object.length

/-- An entry leaves and is closed: its file is removed. -/
def drop (s : IndexCache κ) (e : CachedIndex κ) : IndexCache κ :=
  { s with
    entries := s.entries.erase e
    total := s.total - bytesOf e
    files := Function.update s.files e.key none }

/-- `evictLocked`, at most one round per entry. -/
def evict : ℕ → IndexCache κ → IndexCache κ
  | 0, s => s
  | rounds + 1, s =>
    if s.total ≤ s.maxBytes then s
    else
      match s.entries.find? fun e => !e.stale && decide (e.refs = 0) with
      | none => s
      | some victim => evict rounds (s.drop victim)

/-- The entry of the map. -/
def resident (s : IndexCache κ) (key : κ) : Option (CachedIndex κ) :=
  s.entries.find? fun e => !e.stale && decide (e.key = key)

end IndexCache

/-- What runs between two holds of the lock, and each step of a download. -/
inductive CacheEvent (κ : Type*)
  | hit (key : κ)
  | begin (key : κ)
  | create (key : κ)
  | write (key : κ) (piece : Bytes)
  | fail (key : κ)
  | finish (key : κ)
  | release (id : ℕ)
  | invalidate (key : κ)

namespace IndexCache

/-- The end of `acquire`: the file that is there under the name is opened, or
an empty one made. -/
def insert (s : IndexCache κ) (key : κ) (data : Bytes) : IndexCache κ :=
  let s : IndexCache κ := { s with
    fetching := Function.update s.fetching key .idle
    files := Function.update s.files key (some ((s.files key).getD []))
    entries := s.entries ++ [⟨s.nextId, key, data, 1, false⟩]
    total := s.total + data.length
    nextId := s.nextId + 1
    held := s.nextId :: s.held }
  s.evict s.entries.length

def step (s : IndexCache κ) : CacheEvent κ → Option (IndexCache κ)
  | .hit key =>
    (s.resident key).map fun e =>
      { s with
        entries := s.entries.erase e ++ [{ e with refs := e.refs + 1 }]
        held := e.id :: s.held }
  | .begin key =>
    match s.resident key, s.fetching key with
    | none, .idle =>
      some { s with fetching := Function.update s.fetching key .begun }
    | _, _ => none
  | .create key =>
    match s.fetching key with
    | .begun =>
      some { s with
        fetching := Function.update s.fetching key (.writing [])
        files := Function.update s.files key (some []) }
    | _ => none
  | .write key piece =>
    match s.fetching key with
    | .writing data =>
      some { s with
        fetching := Function.update s.fetching key (.writing (data ++ piece))
        files := Function.update s.files key ((s.files key).map fun found => found ++ piece) }
    | _ => none
  | .fail key =>
    match s.fetching key with
    | .idle => none
    | .begun => some { s with fetching := Function.update s.fetching key .idle }
    | .writing _ =>
      some { s with
        fetching := Function.update s.fetching key .idle
        files := Function.update s.files key none }
  | .finish key =>
    match s.fetching key with
    | .writing data => if data = [] then none else some (s.insert key data)
    | _ => none
  | .release id =>
    if id ∈ s.held then
      (s.entries.find? fun e => decide (e.id = id)).map fun e =>
        let s := { s with held := s.held.erase id }
        let released := { e with refs := e.refs - 1 }
        let s := { s with entries := s.entries.replace e released }
        if released.refs = 0 ∧ released.stale = true then s.drop released
        else s
    else none
  | .invalidate key =>
    match s.resident key with
    | none => some s
    | some e =>
      if e.refs = 0 then some (s.drop e)
      else some { s with
        entries := { e with stale := true } :: s.entries.erase e
        total := s.total - e.object.length }

/-! ## What is asked of it -/

structure Safe (s : IndexCache κ) : Prop where
  inUse : ∀ id ∈ s.held, ∃ e ∈ s.entries, e.id = id ∧ s.files e.key = some e.object
  accounted : s.total = (s.entries.map bytesOf).sum

/-- Right after an insertion. -/
def WithinBudget (s : IndexCache κ) : Prop :=
  s.total ≤ s.maxBytes ∨ ∀ e ∈ s.entries, e.stale = false → 0 < e.refs

/-- No download is opened over the file of an entry that was invalidated in
use. -/
def Clear (s : IndexCache κ) : CacheEvent κ → Prop
  | .create key => ∀ e ∈ s.entries, e.stale = true → e.key ≠ key
  | _ => True

def ClearStep (s : IndexCache κ) (event : CacheEvent κ) (t : IndexCache κ) :
    Prop :=
  s.Clear event ∧ s.step event = some t

/-! ## The invariant -/

structure Inv (s : IndexCache κ) : Prop where
  ids : (s.entries.map CachedIndex.id).Nodup
  keys : (s.entries.map CachedIndex.key).Nodup
  fresh : ∀ e ∈ s.entries, e.id < s.nextId
  counted : ∀ e ∈ s.entries, e.refs = s.held.count e.id
  open_ : ∀ id ∈ s.held, ∃ e ∈ s.entries, e.id = id
  intact : ∀ e ∈ s.entries, s.files e.key = some e.object
  accounted : s.total = (s.entries.map bytesOf).sum
  apart : ∀ key, s.fetching key ≠ .idle → ∀ e ∈ s.entries, e.key = key → e.stale = true
  written : ∀ key data, s.fetching key = .writing data →
    s.files key = some data ∧ ∀ e ∈ s.entries, e.key ≠ key

variable {s t : IndexCache κ} {e : CachedIndex κ} {key : κ}

omit [DecidableEq κ] in
theorem inv_new (maxBytes : ℤ) : (new maxBytes : IndexCache κ).Inv := by
  constructor <;> simp [new]

omit [DecidableEq κ] in
theorem Inv.safe (h : s.Inv) : s.Safe where
  inUse id hid := by
    obtain ⟨e, he, heq⟩ := h.open_ id hid
    exact ⟨e, he, heq, h.intact e he⟩
  accounted := h.accounted

omit [DecidableEq κ] in
theorem Inv.perm (h : s.Inv) {entries : List (CachedIndex κ)}
    (hperm : s.entries.Perm entries) : Inv { s with entries := entries } where
  ids := (hperm.map _).nodup_iff.mp h.ids
  keys := (hperm.map _).nodup_iff.mp h.keys
  fresh e he := h.fresh e (hperm.mem_iff.mpr he)
  counted e he := h.counted e (hperm.mem_iff.mpr he)
  open_ id hid := by
    obtain ⟨e, he, heq⟩ := h.open_ id hid
    exact ⟨e, hperm.mem_iff.mp he, heq⟩
  intact e he := h.intact e (hperm.mem_iff.mpr he)
  accounted := h.accounted.trans (hperm.map _).sum_eq
  apart key hkey e he := h.apart key hkey e (hperm.mem_iff.mpr he)
  written key data hdata :=
    ⟨(h.written key data hdata).1, fun e he =>
      (h.written key data hdata).2 e (hperm.mem_iff.mpr he)⟩

theorem Inv.drop (h : s.Inv) (he : e ∈ s.entries) (hunused : s.held.count e.id = 0)
    (hclear : ∀ data, s.fetching e.key ≠ .writing data) : (s.drop e).Inv := by
  have hperm := perm_cons_erase he
  have h' := h.perm hperm
  have hids := nodup_cons.mp h'.ids
  have hkeys := nodup_cons.mp h'.keys
  have hkey : ∀ other ∈ s.entries.erase e, other.key ≠ e.key :=
    fun other hother heq => hkeys.1 (heq ▸ mem_map_of_mem hother)
  constructor
  · exact hids.2
  · exact hkeys.2
  · exact fun other hother => h'.fresh other (mem_cons_of_mem e hother)
  · exact fun other hother => h'.counted other (mem_cons_of_mem e hother)
  · intro id hid
    obtain ⟨other, hother, heq⟩ := h'.open_ id hid
    rcases mem_cons.mp hother with hsame | hrest
    · rw [← heq, hsame] at hid
      exact absurd hid (count_eq_zero.mp hunused)
    · exact ⟨other, hrest, heq⟩
  · intro other hother
    have hfile := h'.intact other (mem_cons_of_mem e hother)
    simpa [IndexCache.drop, Function.update_of_ne (hkey other hother)] using hfile
  · have haccounted := h'.accounted
    simp only [map_cons, sum_cons] at haccounted
    simp only [IndexCache.drop]
    omega
  · exact fun key hkey other hother =>
      h'.apart key hkey other (mem_cons_of_mem e hother)
  · intro key data hdata
    obtain ⟨hfile, hnone⟩ := h'.written key data hdata
    have hne : key ≠ e.key := by
      rintro rfl
      exact hclear data hdata
    refine ⟨?_, fun other hother => hnone other (mem_cons_of_mem e hother)⟩
    simpa [IndexCache.drop, Function.update_of_ne hne] using hfile

omit [DecidableEq κ] in
theorem Inv.change (h : s.Inv) (e' : CachedIndex κ) {rest : List (CachedIndex κ)}
    (hperm : s.entries.Perm (e :: rest)) {held : List ℕ}
    (hsame : e'.id = e.id ∧ e'.key = e.key ∧ e'.object = e.object)
    (hrefs : e'.refs = held.count e.id) (hstale : e.stale = true → e'.stale = true)
    (hothers : ∀ id, id ≠ e.id → held.count id = s.held.count id) :
    Inv { s with
      entries := e' :: rest
      held := held
      total := s.total - bytesOf e + bytesOf e' } := by
  obtain ⟨hid, hkey, hobject⟩ := hsame
  have h' := h.perm hperm
  have hids := nodup_cons.mp h'.ids
  constructor
  · simpa [hid] using h'.ids
  · simpa [hkey] using h'.keys
  · intro other hother
    rcases mem_cons.mp hother with rfl | hrest
    · exact hid ▸ h'.fresh e mem_cons_self
    · exact h'.fresh other (mem_cons_of_mem _ hrest)
  · intro other hother
    rcases mem_cons.mp hother with rfl | hrest
    · exact hid ▸ hrefs
    · have hne : other.id ≠ e.id := fun heq =>
        hids.1 (heq ▸ mem_map_of_mem hrest)
      rw [hothers _ hne]
      exact h'.counted other (mem_cons_of_mem _ hrest)
  · intro id hin
    by_cases heq : id = e.id
    · exact ⟨e', mem_cons_self, hid.trans heq.symm⟩
    · have hold : id ∈ s.held := by
        rw [← count_pos_iff, ← hothers id heq]
        exact count_pos_iff.mpr hin
      obtain ⟨other, hother, hother_id⟩ := h'.open_ id hold
      rcases mem_cons.mp hother with rfl | hrest
      · exact absurd hother_id.symm heq
      · exact ⟨other, mem_cons_of_mem _ hrest, hother_id⟩
  · intro other hother
    rcases mem_cons.mp hother with rfl | hrest
    · rw [hkey, hobject]
      exact h'.intact e mem_cons_self
    · exact h'.intact other (mem_cons_of_mem _ hrest)
  · have haccounted := h'.accounted
    simp only [map_cons, sum_cons] at haccounted ⊢
    omega
  · intro key hbusy other hother hother_key
    rcases mem_cons.mp hother with rfl | hrest
    · exact hstale (h'.apart key hbusy e mem_cons_self (hkey.symm.trans hother_key))
    · exact h'.apart key hbusy other (mem_cons_of_mem _ hrest) hother_key
  · intro key data hdata
    refine ⟨(h'.written key data hdata).1, fun other hother => ?_⟩
    rcases mem_cons.mp hother with rfl | hrest
    · exact hkey ▸ (h'.written key data hdata).2 e mem_cons_self
    · exact (h'.written key data hdata).2 other (mem_cons_of_mem _ hrest)

theorem Inv.recount (h : s.Inv) (he : e ∈ s.entries) (refs : ℕ) {held : List ℕ}
    {entries : List (CachedIndex κ)} (hrefs : refs = held.count e.id)
    (hentries : entries.Perm ({ e with refs := refs } :: s.entries.erase e))
    (hothers : ∀ id, id ≠ e.id → held.count id = s.held.count id) :
    Inv { s with entries := entries, held := held } := by
  have hchange := h.change { e with refs := refs }
    (perm_cons_erase he) ⟨rfl, rfl, rfl⟩ hrefs id hothers
  have htotal : s.total - bytesOf e + bytesOf { e with refs := refs } = s.total :=
    sub_add_cancel s.total (bytesOf e)
  rw [htotal] at hchange
  exact hchange.perm hentries.symm

theorem perm_replace {entries : List (CachedIndex κ)} (he : e ∈ entries) (e' : CachedIndex κ) :
    (entries.replace e e').Perm (e' :: entries.erase e) := by
  induction entries with
  | nil => simp at he
  | cons first rest ih =>
    by_cases heq : first = e
    · subst heq
      simp
    · have hrest : e ∈ rest := (mem_cons.mp he).resolve_left (Ne.symm heq)
      have hne : (e == first) = false := by simpa using Ne.symm heq
      rw [replace_cons, hne, erase_cons_tail (by simpa using heq)]
      exact ((ih hrest).cons first).trans (.swap _ _ _)

theorem mem_replace {entries : List (CachedIndex κ)} (he : e ∈ entries)
    (e' : CachedIndex κ) : e' ∈ entries.replace e e' :=
  (perm_replace he e').mem_iff.mpr mem_cons_self

/-! ## Evictions and insertions -/

omit [DecidableEq κ] in
theorem Inv.idle_of_resident (h : s.Inv) (he : e ∈ s.entries)
    (hstale : e.stale = false) : s.fetching e.key = .idle := by
  by_contra hbusy
  have htrue := h.apart e.key hbusy e he rfl
  rw [hstale] at htrue
  cases htrue

theorem Inv.evict (rounds : ℕ) (h : s.Inv) : (s.evict rounds).Inv := by
  induction rounds generalizing s with
  | zero => exact h
  | succ rounds ih =>
    unfold IndexCache.evict
    split
    · exact h
    · cases hfind : s.entries.find? fun e =>
          !e.stale && decide (e.refs = 0) with
      | none => exact h
      | some victim =>
        have hmem := mem_of_find?_eq_some hfind
        have hvictim := find?_some hfind
        simp only [Bool.and_eq_true, Bool.not_eq_true', decide_eq_true_eq] at hvictim
        apply ih
        apply h.drop hmem
        · rw [← h.counted victim hmem]
          exact hvictim.2
        · simp [h.idle_of_resident hmem hvictim.1]

theorem withinBudget_evict {rounds : ℕ} (hrounds : s.entries.length ≤ rounds) :
    (s.evict rounds).WithinBudget := by
  induction rounds generalizing s with
  | zero =>
    have hnil : s.entries = [] := length_eq_zero_iff.mp (by omega)
    exact .inr (by simp [IndexCache.evict, hnil])
  | succ rounds ih =>
    unfold IndexCache.evict
    split
    next hfits => exact .inl hfits
    · cases hfind : s.entries.find? fun e =>
          !e.stale && decide (e.refs = 0) with
      | none =>
        right
        intro e he hstale
        have hnot := find?_eq_none.mp hfind e he
        simp only [hstale, Bool.not_false, Bool.true_and, decide_eq_true_eq] at hnot
        omega
      | some victim =>
        have hmem := mem_of_find?_eq_some hfind
        have hlength := length_erase_of_mem hmem
        apply ih
        simp only [IndexCache.drop]
        omega

/-- A step of a download, with what becomes of the file of its key. -/
theorem Inv.download (h : s.Inv) (key : κ) (fetch : Fetch) (file : Option Bytes)
    (hapart : fetch ≠ .idle → ∀ e ∈ s.entries, e.key = key → e.stale = true)
    (hfile : file = s.files key ∨ ∀ e ∈ s.entries, e.key ≠ key)
    (hwritten : ∀ data, fetch = .writing data → file = some data ∧ ∀ e ∈ s.entries, e.key ≠ key) :
    Inv { s with
      fetching := Function.update s.fetching key fetch
      files := Function.update s.files key file } := by
  constructor
  · exact h.ids
  · exact h.keys
  · exact h.fresh
  · exact h.counted
  · exact h.open_
  · intro e he
    have hold := h.intact e he
    by_cases heq : e.key = key
    · rcases hfile with hsame | hnone
      · simpa [heq, hsame] using hold
      · exact absurd heq (hnone e he)
    · simpa [Function.update_of_ne heq] using hold
  · exact h.accounted
  · intro other hbusy
    by_cases heq : other = key
    · subst heq
      exact hapart (by simpa using hbusy)
    · exact h.apart other (by simpa [Function.update_of_ne heq] using hbusy)
  · intro other data hdata
    by_cases heq : other = key
    · subst heq
      simpa using hwritten data (by simpa using hdata)
    · simp only [Function.update_of_ne heq] at hdata ⊢
      exact h.written other data hdata

theorem Inv.insert (h : s.Inv) {data : Bytes}
    (hwriting : s.fetching key = .writing data) : (s.insert key data).Inv := by
  obtain ⟨hfile, hnone⟩ := h.written key data hwriting
  have h' := h.download key .idle (some data) (by simp) (.inr hnone) (by simp)
  unfold IndexCache.insert
  rw [hfile]
  apply Inv.evict
  refine Inv.perm (s := { s with
    fetching := Function.update s.fetching key .idle
    files := Function.update s.files key (some data)
    entries := ⟨s.nextId, key, data, 1, false⟩ :: s.entries
    total := s.total + data.length
    nextId := s.nextId + 1
    held := s.nextId :: s.held }) ?_ (perm_append_singleton _ _).symm
  have hids : ∀ e ∈ s.entries, e.id ≠ s.nextId := fun e he => (h.fresh e he).ne
  have hnew : s.held.count s.nextId = 0 := by
    rw [count_eq_zero]
    intro hin
    obtain ⟨e, he, heq⟩ := h.open_ _ hin
    exact hids e he heq
  constructor
  · simpa [h.ids] using hids
  · simpa [h.keys] using hnone
  · intro e he
    rcases mem_cons.mp he with rfl | hrest
    · exact Nat.lt_succ_self _
    · exact (h.fresh e hrest).trans (Nat.lt_succ_self _)
  · intro e he
    rcases mem_cons.mp he with rfl | hrest
    · simp [hnew]
    · rw [count_cons_of_ne (hids e hrest).symm]
      exact h.counted e hrest
  · intro id hid
    rcases mem_cons.mp hid with rfl | hold
    · exact ⟨_, mem_cons_self, rfl⟩
    · obtain ⟨e, he, heq⟩ := h.open_ id hold
      exact ⟨e, mem_cons_of_mem _ he, heq⟩
  · intro e he
    rcases mem_cons.mp he with rfl | hrest
    · simp
    · exact h'.intact e hrest
  · simp only [map_cons, sum_cons, bytesOf, h.accounted]
    simp [add_comm]
  · intro other hbusy e he heq
    rcases mem_cons.mp he with rfl | hrest
    · exact absurd (by simp [← heq]) hbusy
    · exact h'.apart other hbusy e hrest heq
  · intro other found hfound
    refine ⟨(h'.written other found hfound).1, fun e he => ?_⟩
    rcases mem_cons.mp he with rfl | hrest
    · rintro rfl
      simp at hfound
    · exact (h'.written other found hfound).2 e hrest

/-! ## Every event -/

theorem resident_spec (hresident : s.resident key = some e) :
    e ∈ s.entries ∧ e.stale = false ∧ e.key = key := by
  have hfound := find?_some hresident
  simp only [Bool.and_eq_true, Bool.not_eq_true', decide_eq_true_eq] at hfound
  exact ⟨mem_of_find?_eq_some hresident, hfound⟩

theorem Inv.release (h : s.Inv) {id : ℕ} (hstep : s.step (.release id) = some t) : t.Inv := by
  simp only [step] at hstep
  split at hstep
  next hheld =>
    obtain ⟨e, hfind, rfl⟩ := Option.map_eq_some_iff.mp hstep
    have he := mem_of_find?_eq_some hfind
    have hid : e.id = id := by simpa using find?_some hfind
    subst hid
    have hrefs : e.refs - 1 = (s.held.erase e.id).count e.id := by
      rw [count_erase_self, h.counted e he]
    have h' := h.recount he (e.refs - 1) hrefs (perm_replace he _) fun other hne =>
      count_erase_of_ne hne
    split
    next hlast =>
      apply h'.drop (mem_replace he _)
      · exact hrefs.symm.trans hlast.1
      · intro data hdata
        exact (h'.written _ data hdata).2 _ (mem_replace he _) rfl
    · exact h'
  · cases hstep

theorem Inv.invalidate (h : s.Inv) (hstep : s.step (.invalidate key) = some t) : t.Inv := by
  simp only [step] at hstep
  cases hresident : s.resident key with
  | none =>
    rw [hresident] at hstep
    cases hstep
    exact h
  | some e =>
    obtain ⟨he, hstale, -⟩ := resident_spec hresident
    simp only [hresident] at hstep
    split at hstep
    next hunused =>
      cases hstep
      apply h.drop he
      · rw [← h.counted e he, hunused]
      · simp [h.idle_of_resident he hstale]
    · cases hstep
      have hchange := h.change { e with stale := true }
        (perm_cons_erase he) ⟨rfl, rfl, rfl⟩ (h.counted e he)
        (fun _ => rfl) fun _ _ => rfl
      simpa [bytesOf, hstale] using hchange

theorem Inv.step (h : s.Inv) {event : CacheEvent κ} (hclear : s.Clear event)
    (hstep : s.step event = some t) : t.Inv := by
  cases event with
  | hit key =>
    obtain ⟨e, hresident, rfl⟩ := Option.map_eq_some_iff.mp hstep
    obtain ⟨he, -, -⟩ := resident_spec hresident
    apply h.recount he (e.refs + 1)
    · rw [count_cons_self, h.counted e he]
    · exact perm_append_singleton _ _
    · exact fun other hne => count_cons_of_ne hne.symm
  | begin key =>
    simp only [IndexCache.step] at hstep
    split at hstep
    next hnone _ =>
      cases hstep
      have hapart : ∀ e ∈ s.entries, e.key = key → e.stale = true := by
        intro e he hkey
        have hnot := find?_eq_none.mp hnone e he
        simpa [hkey] using hnot
      have h' := h.download key .begun (s.files key) (fun _ => hapart) (.inl rfl) (by simp)
      rwa [Function.update_eq_self] at h'
    · cases hstep
  | create key =>
    simp only [IndexCache.step] at hstep
    split at hstep
    next hbegun =>
      cases hstep
      have hnone : ∀ e ∈ s.entries, e.key ≠ key := by
        intro e he hkey
        have hstale := h.apart key (by simp [hbegun]) e he hkey
        exact hclear e he hstale hkey
      apply h.download
      · exact fun _ e he hkey => absurd hkey (hnone e he)
      · exact .inr hnone
      · rintro data ⟨⟩
        exact ⟨rfl, hnone⟩
    · cases hstep
  | write key piece =>
    simp only [IndexCache.step] at hstep
    split at hstep
    next data hwriting =>
      cases hstep
      obtain ⟨hfile, hnone⟩ := h.written key data hwriting
      apply h.download
      · exact fun _ e he hkey => absurd hkey (hnone e he)
      · exact .inr hnone
      · rintro found ⟨⟩
        exact ⟨by simp [hfile], hnone⟩
    · cases hstep
  | fail key =>
    simp only [IndexCache.step] at hstep
    split at hstep
    · cases hstep
    · cases hstep
      have h' := h.download key .idle (s.files key) (by simp) (.inl rfl) (by simp)
      rwa [Function.update_eq_self] at h'
    next data hwriting =>
      cases hstep
      have hnone := (h.written key data hwriting).2
      exact h.download key .idle none (by simp) (.inr hnone) (by simp)
  | finish key =>
    simp only [IndexCache.step] at hstep
    split at hstep
    next data hwriting =>
      split at hstep
      · cases hstep
      · cases hstep
        exact h.insert hwriting
    · cases hstep
  | release id => exact h.release hstep
  | invalidate key => exact h.invalidate hstep

theorem withinBudget_finish (hstep : s.step (.finish key) = some t) : t.WithinBudget := by
  simp only [IndexCache.step] at hstep
  split at hstep
  · split at hstep
    · cases hstep
    · cases hstep
      exact withinBudget_evict le_rfl
  · cases hstep

/-- A key is acquired, invalidated in use, and fetched again. -/
def refetched : List (CacheEvent Unit) :=
  [.begin (), .create (), .write () [7], .finish (), .invalidate (), .begin (), .create ()]

def afterAll (events : List (CacheEvent Unit)) : Option (IndexCache Unit) :=
  events.foldlM step (new 1000)

end IndexCache

end CommitLog
