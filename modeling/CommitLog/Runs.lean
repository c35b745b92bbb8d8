import Mathlib.Tactic

/-!
# Runs of a transition system

A run applies a list of labelled steps to a state.  The two rules here carry
an invariant along a run: through a relation for systems with choices, and
through a left fold for loops that accumulate.
-/

namespace Runs

open List

variable {σ α : Type*}

/-- `Run step s labels s'`: the labels lead from `s` to `s'`. -/
inductive Run (step : σ → α → σ → Prop) : σ → List α → σ → Prop
  | nil (s : σ) : Run step s [] s
  | cons {s t u : σ} {a : α} {labels : List α} :
      step s a t → Run step t labels u → Run step s (a :: labels) u

variable {step : σ → α → σ → Prop} {s : σ} {a : α}

theorem Run.single {t : σ} (hstep : step s a t) : Run step s [a] t :=
  .cons hstep (.nil t)

variable {labels : List α}

theorem Run.append {t u : σ} {labels' : List α} (hrun : Run step s labels t)
    (hrun' : Run step t labels' u) : Run step s (labels ++ labels') u := by
  induction hrun with
  | nil => exact hrun'
  | cons hstep _ ih => exact .cons hstep (ih hrun')

theorem Run.snoc {t u : σ} (hrun : Run step s labels t) (hstep : step t a u) :
    Run step s (labels ++ [a]) u :=
  hrun.append (.single hstep)

theorem Run.invariant {Inv : σ → Prop} (hpreserve : ∀ s a t, Inv s → step s a t → Inv t) {u : σ}
    (hrun : Run step s labels u) (hinit : Inv s) : Inv u := by
  induction hrun with
  | nil => exact hinit
  | cons hstep _ ih => exact ih (hpreserve _ _ _ hinit hstep)

variable {items : List α}

theorem foldl_invariant (Inv : σ → Prop) {f : σ → α → σ}
    (hstep : ∀ s, ∀ a ∈ items, Inv s → Inv (f s a)) (hinit : Inv s) : Inv (items.foldl f s) := by
  induction items generalizing s with
  | nil => exact hinit
  | cons a items ih =>
    apply ih
    · intro t b hb ht
      exact hstep t b (mem_cons_of_mem _ hb) ht
    · exact hstep s a mem_cons_self hinit

theorem foldl_accumulates (Inv P : σ → Prop) (Q : α → Prop) {f : σ → α → σ}
    (hinv : ∀ s, ∀ a ∈ items, Inv s → Inv (f s a))
    (hstep : ∀ s, ∀ a ∈ items, Inv s → (P (f s a) ↔ P s ∨ Q a)) (hinit : Inv s) :
    P (items.foldl f s) ↔ P s ∨ ∃ a ∈ items, Q a := by
  induction items generalizing s with
  | nil => simp
  | cons a items ih =>
    have hrest := ih (fun t b hb ht => hinv t b (mem_cons_of_mem _ hb) ht)
      (fun t b hb ht => hstep t b (mem_cons_of_mem _ hb) ht)
      (hinv s a mem_cons_self hinit)
    rw [foldl_cons, hrest, hstep s a mem_cons_self hinit]
    simp [or_assoc]

theorem foldl_local {κ ν : Type*} {f : (κ → ν) → α → κ → ν} (key : α → κ) {update : α → ν → ν}
    (hnodup : (items.map key).Nodup)
    (hother : ∀ a ∈ items, ∀ table k, k ≠ key a → f table a k = table k)
    (hself : ∀ a ∈ items, ∀ table, f table a (key a) = update a (table (key a))) (hmem : a ∈ items)
    (table : κ → ν) : items.foldl f table (key a) = update a (table (key a)) := by
  induction items generalizing table with
  | nil => simp at hmem
  | cons b items ih =>
    rw [map_cons, nodup_cons] at hnodup
    have hrest : ∀ k, k ∉ items.map key → ∀ t : κ → ν, items.foldl f t k = t k := by
      intro k hk t
      have hkeep : ∀ s : κ → ν, ∀ c ∈ items, s k = t k → f s c k = t k := by
        intro s c hc hs
        rw [hother c (mem_cons_of_mem _ hc) s k]
        · exact hs
        · intro heq
          exact hk (heq ▸ mem_map_of_mem (f := key) hc)
      exact foldl_invariant (fun s : κ → ν => s k = t k) hkeep rfl
    rw [foldl_cons]
    rcases mem_cons.mp hmem with heq | hin
    · rw [heq, hrest (key b) hnodup.1, hself b mem_cons_self]
    · rw [ih hnodup.2 (fun c hc => hother c (mem_cons_of_mem _ hc))
        (fun c hc => hself c (mem_cons_of_mem _ hc)) hin]
      congr 1
      apply hother b mem_cons_self
      intro heq
      exact hnodup.1 (heq ▸ mem_map_of_mem (f := key) hin)

variable {β : Type*}

theorem exists_ok_of_toOption {ε : Type*} {x : Except ε α} {f : α → β} {b : β}
    (heval : x.toOption.map f = some b) : ∃ a, x = .ok a ∧ f a = b := by
  cases x with
  | error err => cases heval
  | ok a => exact ⟨a, rfl, Option.some.inj heval⟩

theorem foldlM_cons_ok {ε : Type*} {f : σ → α → Except ε σ} {t : σ} (hfold : (a :: items).foldlM f s = .ok t) :
    ∃ mid, f s a = .ok mid ∧ items.foldlM f mid = .ok t := by
  rw [foldlM_cons] at hfold
  cases hstep : f s a with
  | error e =>
    rw [hstep] at hfold
    cases hfold
  | ok mid =>
    rw [hstep] at hfold
    exact ⟨mid, rfl, hfold⟩

theorem eq_or_rel_last {r : α → α → Prop} {last item : α} (hpairwise : items.Pairwise r)
    (hlast : items.getLast? = some last) (hmem : item ∈ items) : item = last ∨ r item last := by
  obtain ⟨front, rfl⟩ := getLast?_eq_some_iff.mp hlast
  rcases mem_append.mp hmem with hfront | hown
  · exact Or.inr ((pairwise_append.mp hpairwise).2.2 item hfront last (by simp))
  · exact Or.inl (mem_singleton.mp hown)

theorem forall₂_getElem? {R : α → β → Prop} {as : List α} {bs : List β} (hall : Forall₂ R as bs)
    {i : ℕ} (hget : as[i]? = some a) : ∃ b, bs[i]? = some b ∧ R a b := by
  induction hall generalizing i with
  | nil => simp at hget
  | cons hhead _ ih =>
    cases i with
    | zero =>
      simp only [getElem?_cons_zero, Option.some.injEq] at hget ⊢
      subst hget
      exact ⟨_, rfl, hhead⟩
    | succ i => exact ih hget

variable {f : α → Option β}

theorem mapM_eq_some_map {g : α → β} (hall : ∀ a ∈ items, f a = some (g a)) :
    items.mapM f = some (items.map g) := by
  induction items with
  | nil => rfl
  | cons a items ih =>
    rw [mapM_cons, hall a mem_cons_self, ih fun b hb => hall b (mem_cons_of_mem _ hb)]
    rfl

theorem isSome_mapM_iff : (items.mapM f).isSome = true ↔ ∀ a ∈ items, (f a).isSome = true := by
  induction items with
  | nil => exact iff_of_true rfl (by simp)
  | cons a items ih =>
    rw [mapM_cons, forall_mem_cons, ← ih]
    cases f a with
    | none => simp
    | some b =>
      cases items.mapM f with
      | none => simp
      | some bs => simp

theorem mapM_forall₂_iff {γ : Type*} {g : α → Option γ} {R : β → γ → Prop} :
    (∃ bs cs, items.mapM f = some bs ∧ items.mapM g = some cs ∧ Forall₂ R bs cs) ↔
      ∀ a ∈ items, ∃ b c, f a = some b ∧ g a = some c ∧ R b c := by
  induction items with
  | nil =>
    refine iff_of_true ⟨[], [], rfl, rfl, Forall₂.nil⟩ ?_
    simp
  | cons a items ih =>
    rw [forall_mem_cons, ← ih]
    constructor
    · rintro ⟨bs, cs, hbs, hcs, hall⟩
      rw [mapM_cons] at hbs hcs
      obtain ⟨b, hb, hbs⟩ := Option.bind_eq_some_iff.mp hbs
      obtain ⟨bs', hbs', heq⟩ := Option.bind_eq_some_iff.mp hbs
      obtain ⟨c, hc, hcs⟩ := Option.bind_eq_some_iff.mp hcs
      obtain ⟨cs', hcs', heq'⟩ := Option.bind_eq_some_iff.mp hcs
      cases heq
      cases heq'
      cases hall with
      | cons hbc hrest =>
        exact ⟨⟨b, c, hb, hc, hbc⟩, bs', cs', hbs', hcs', hrest⟩
    · rintro ⟨⟨b, c, hb, hc, hbc⟩, bs, cs, hbs, hcs, hall⟩
      refine ⟨b :: bs, c :: cs, ?_, ?_, Forall₂.cons hbc hall⟩
      · rw [mapM_cons, hb, hbs]
        rfl
      · rw [mapM_cons, hc, hcs]
        rfl

/-! ## Loops that stop -/

/-- What a round of a loop gives: a state to go on from, or a result. -/
inductive Round (σ ρ : Type*)
  | more (s : σ)
  | stop (r : ρ)

namespace Round

variable {ρ ι : Type*} {step : ι → σ → Round σ ρ} {Grows : σ → σ → Prop}

def after (step : ι → σ → Round σ ρ) : (ℕ → ι) → ℕ → Round σ ρ → Round σ ρ
  | _, 0, round => round
  | _, _ + 1, .stop r => .stop r
  | inputs, n + 1, .more s =>
    after step (fun k => inputs (k + 1)) n (step (inputs 0) s)

theorem after_stop (inputs : ℕ → ι) (n : ℕ) (r : ρ) : after step inputs n (.stop r) = .stop r := by
  cases n <;> rfl

/-- Whatever the inputs are, the loop stops with a result as wanted, and the
state grows in every round before the last. -/
def Ends (step : ι → σ → Round σ ρ) (Grows : σ → σ → Prop) (s : σ) (Wanted : ρ → Prop) : Prop :=
  ∀ inputs, ∃ n r, after step inputs (n + 1) (.more s) = .stop r ∧ Wanted r ∧
    ∀ k < n, ∃ t t', after step inputs k (.more s) = .more t ∧
      after step inputs (k + 1) (.more s) = .more t' ∧ Grows t t'

theorem ends_of_rank {Inv : σ → Prop} {rank : σ → ℕ} {Wanted : σ → ρ → Prop}
    (hstep : ∀ s, Inv s → ∀ i, (∃ r, step i s = .stop r ∧ Wanted s r) ∨
      ∃ t, step i s = .more t ∧ Inv t ∧ rank t < rank s ∧ Grows s t ∧
        ∀ r, Wanted t r → Wanted s r) {s : σ} (hinv : Inv s) :
    Ends step Grows s (Wanted s) := by
  induction hrank : rank s using Nat.strong_induction_on generalizing s with
  | _ bound ih =>
    intro inputs
    rcases hstep s hinv (inputs 0) with
      ⟨r, hstop, hwanted⟩ | ⟨t, hmore, ht, hlt, hgrows, hback⟩
    · exact ⟨0, r, hstop, hwanted, by simp⟩
    · obtain ⟨n, r, hstop, hwanted, hrounds⟩ :=
        ih (rank t) (hrank ▸ hlt) ht rfl fun k => inputs (k + 1)
      refine ⟨n + 1, r, ?_, hback r hwanted, ?_⟩
      · rw [after, hmore]
        exact hstop
      · intro k hk
        cases k with
        | zero => exact ⟨s, t, rfl, hmore, hgrows⟩
        | succ k =>
          rw [after, hmore, after, hmore]
          exact hrounds k (by omega)

end Round

end Runs
