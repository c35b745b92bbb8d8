import CommitLog.Runs

/-!
# Walks over positions

A loop that goes from a position to the next as long as it may and notes
something at each.  How far a step goes is read at the position, so the loop
need not advance and need not end.
-/

namespace Runs

namespace Round

variable {σ ρ ι : Type*} {step : ι → σ → Round σ ρ} {Grows : σ → σ → Prop}
  {Wanted : ρ → Prop} {s t : σ} {i : ι}

theorem Ends.of_more (hends : Ends step Grows s Wanted)
    (hmore : step i s = .more t) : Grows s t ∧ Ends step Grows t Wanted := by
  have hfirst : ∀ inputs : ℕ → ι, ∃ n r,
      after step inputs (n + 1) (.more t) = .stop r ∧ Wanted r ∧ Grows s t ∧
      ∀ k < n, ∃ u u', after step inputs k (.more t) = .more u ∧
        after step inputs (k + 1) (.more t) = .more u' ∧ Grows u u' := by
    intro inputs
    obtain ⟨n, r, hstop, hwanted, hrounds⟩ :=
      hends fun k => Nat.casesOn k i inputs
    cases n with
    | zero =>
      change step i s = .stop r at hstop
      rw [hmore] at hstop
      cases hstop
    | succ n =>
      have hafter : ∀ k, after step (fun k => Nat.casesOn k i inputs) (k + 1)
          (.more s) = after step inputs k (.more t) := by
        intro k
        rw [← hmore]
        rfl
      refine ⟨n, r, (hafter (n + 1)).symm.trans hstop, hwanted, ?_, ?_⟩
      · obtain ⟨u, u', hu, hu', hgrows⟩ := hrounds 0 (by omega)
        rw [hafter 0] at hu'
        cases hu
        cases hu'
        exact hgrows
      · intro k hk
        obtain ⟨u, u', hu, hu', hgrows⟩ := hrounds (k + 1) (by omega)
        exact ⟨u, u', (hafter k).symm.trans hu, (hafter (k + 1)).symm.trans hu', hgrows⟩
  constructor
  · obtain ⟨_, _, _, _, hgrows, _⟩ := hfirst fun _ => i
    exact hgrows
  · intro inputs
    obtain ⟨n, r, hstop, hwanted, _, hrounds⟩ := hfirst inputs
    exact ⟨n, r, hstop, hwanted, hrounds⟩

theorem Ends.cons (hmore : ∀ i, step i s = .more t) (hgrows : Grows s t)
    (hends : Ends step Grows t Wanted) : Ends step Grows s Wanted := by
  intro inputs
  obtain ⟨n, r, hstop, hwanted, hrounds⟩ := hends fun k => inputs (k + 1)
  refine ⟨n + 1, r, ?_, hwanted, ?_⟩
  · rw [after, hmore]
    exact hstop
  · intro k hk
    cases k with
    | zero => exact ⟨s, t, rfl, hmore _, hgrows⟩
    | succ k =>
      rw [after, hmore, after, hmore]
      exact hrounds k (by omega)

end Round

structure Walk (α ω : Type*) where
  goes : ℤ → Bool
  next : ℤ → ℤ
  note : ℤ → α
  ending : ℤ → ω

namespace Walk

variable {α ω : Type*} (walk : Walk α ω)

def step (_ : Unit) (s : ℤ × List α) : Round (ℤ × List α) (ω × List α) :=
  if walk.goes s.1 then .more (walk.next s.1, s.2 ++ [walk.note s.1])
  else .stop (walk.ending s.1, s.2)

def after (n : ℕ) (s : ℤ × List α) : Round (ℤ × List α) (ω × List α) :=
  Round.after walk.step (fun _ => ()) n (.more s)

def EndsWith (width : ℤ) (Passes : α → Prop) (s : ℤ × List α) : Prop :=
  Round.Ends walk.step (fun s t => s.1 + width ≤ t.1) s fun r => ∀ a ∈ r.2, Passes a

variable {walk} {width : ℤ} {Passes : α → Prop} {s : ℤ × List α}

theorem step_of_goes (hgoes : walk.goes s.1 = true) :
    walk.step () s = .more (walk.next s.1, s.2 ++ [walk.note s.1]) :=
  if_pos hgoes

theorem step_of_not_goes (hgoes : walk.goes s.1 = false) :
    walk.step () s = .stop (walk.ending s.1, s.2) :=
  if_neg (by simp [hgoes])

theorem after_of_goes (hgoes : walk.goes s.1 = true) (n : ℕ) : walk.after (n + 1) s =
      walk.after n (walk.next s.1, s.2 ++ [walk.note s.1]) := by
  unfold after
  rw [Round.after, step_of_goes hgoes]

theorem after_of_not_goes (hgoes : walk.goes s.1 = false) (n : ℕ) :
    walk.after (n + 1) s = .stop (walk.ending s.1, s.2) := by
  unfold after
  rw [Round.after, step_of_not_goes hgoes, Round.after_stop]

theorem subset_of_after {n : ℕ} {r : ω × List α}
    (hstop : walk.after n s = .stop r) : s.2 ⊆ r.2 := by
  induction n generalizing s with
  | zero => cases hstop
  | succ n ih =>
    cases hgoes : walk.goes s.1 with
    | false =>
      rw [after_of_not_goes hgoes] at hstop
      cases hstop
      exact List.Subset.refl _
    | true =>
      rw [after_of_goes hgoes] at hstop
      exact List.Subset.trans (List.subset_append_left _ _) (ih hstop)

theorem EndsWith.noted (hends : walk.EndsWith width Passes s) : ∀ a ∈ s.2, Passes a := by
  obtain ⟨n, r, hstop, hpasses, _⟩ := hends fun _ => ()
  intro a ha
  exact hpasses a (subset_of_after (n := n + 1) hstop ha)

theorem endsWith_of_goes (hgoes : walk.goes s.1 = true) :
    walk.EndsWith width Passes s ↔ s.1 + width ≤ walk.next s.1 ∧ walk.EndsWith width Passes
        (walk.next s.1, s.2 ++ [walk.note s.1]) := by
  constructor
  · intro hends
    exact Round.Ends.of_more (i := ()) hends (step_of_goes hgoes)
  · rintro ⟨hgrows, hends⟩
    exact Round.Ends.cons (fun _ => step_of_goes hgoes) hgrows hends

theorem endsWith_of_not_goes (hgoes : walk.goes s.1 = false) :
    walk.EndsWith width Passes s ↔ ∀ a ∈ s.2, Passes a := by
  constructor
  · exact EndsWith.noted
  · intro hpasses inputs
    refine ⟨0, (walk.ending s.1, s.2), ?_, hpasses, by simp⟩
    exact step_of_not_goes hgoes

end Walk

end Runs
