import Mathlib.Tactic

/-!
# Binary search by a predicate

The search halves an interval until it is empty.  On a predicate that stays
true once it is true, it ends at the first place where it holds.
-/

namespace SortSearch

open List

/-- The loop on the interval from `i` up to `j`. -/
def loop (p : ℕ → Bool) : ℕ → ℕ → ℕ → ℕ
  | 0, i, _ => i
  | fuel + 1, i, j =>
    if i < j then
      if p ((i + j) / 2) then loop p fuel i ((i + j) / 2)
      else loop p fuel ((i + j) / 2 + 1) j
    else i

def search (n : ℕ) (p : ℕ → Bool) : ℕ := loop p n 0 n

/-- The predicate stays true on the first `n` numbers. -/
def Rising (n : ℕ) (p : ℕ → Bool) : Prop :=
  ∀ i j, i ≤ j → j < n → p i = true → p j = true

variable {n : ℕ} {p : ℕ → Bool}

theorem loop_spec (hrising : Rising n p) {fuel i j : ℕ} (hij : i ≤ j) (hj : j ≤ n)
    (hfuel : j - i ≤ fuel) (hbelow : ∀ k < i, p k = false)
    (habove : ∀ k, j ≤ k → k < n → p k = true) :
    loop p fuel i j ≤ n ∧ (∀ k < loop p fuel i j, p k = false) ∧
      ∀ k, loop p fuel i j ≤ k → k < n → p k = true := by
  induction fuel generalizing i j with
  | zero =>
    have heq : i = j := by omega
    exact ⟨by rw [loop]; omega, hbelow, by rw [loop, heq]; exact habove⟩
  | succ fuel ih =>
    rw [loop]
    by_cases hlt : i < j
    · rw [if_pos hlt]
      by_cases hp : p ((i + j) / 2) = true
      · rw [if_pos hp]
        apply ih (by omega) (by omega) (by omega) hbelow
        intro k hk hkn
        exact hrising _ k hk hkn hp
      · rw [if_neg hp]
        apply ih (by omega) hj (by omega) _ habove
        intro k hk
        cases hpk : p k with
        | false => rfl
        | true =>
          exact absurd (hrising k _ (by omega) (by omega) hpk) hp
    · rw [if_neg hlt]
      have heq : i = j := by omega
      exact ⟨by omega, hbelow, by rw [heq]; exact habove⟩

theorem search_spec (hrising : Rising n p) : search n p ≤ n ∧ (∀ k < search n p, p k = false) ∧
      ∀ k, search n p ≤ k → k < n → p k = true :=
  loop_spec hrising (Nat.zero_le n) le_rfl le_rfl (by simp) (fun k hk hkn => absurd hkn (by omega))

theorem search_eq (hrising : Rising n p) {k : ℕ} (hk : k ≤ n) (hbelow : ∀ i < k, p i = false)
    (hat : k < n → p k = true) : search n p = k := by
  have hspec := search_spec hrising
  rcases lt_trichotomy (search n p) k with hlt | heq | hgt
  · have htrue := hspec.2.2 (search n p) le_rfl (by omega)
    rw [hbelow _ hlt] at htrue
    cases htrue
  · exact heq
  · have htrue := hat (by omega)
    rw [hspec.2.1 k hgt] at htrue
    cases htrue

theorem loop_boundary {fuel i j : ℕ} (hij : i ≤ j) (hfuel : j - i ≤ fuel)
    (hleft : i = 0 ∨ p (i - 1) = false) (hright : j < n → p j = true) (hj : j ≤ n) :
    (loop p fuel i j = 0 ∨ p (loop p fuel i j - 1) = false) ∧
      (loop p fuel i j < n → p (loop p fuel i j) = true) ∧
      loop p fuel i j ≤ n := by
  induction fuel generalizing i j with
  | zero =>
    have heq : i = j := by omega
    rw [loop, heq]
    exact ⟨heq ▸ hleft, hright, hj⟩
  | succ fuel ih =>
    rw [loop]
    by_cases hlt : i < j
    · rw [if_pos hlt]
      by_cases hp : p ((i + j) / 2) = true
      · rw [if_pos hp]
        exact ih (by omega) (by omega) hleft (fun _ => hp) (by omega)
      · rw [if_neg hp]
        apply ih (by omega) (by omega) _ hright hj
        right
        rw [Nat.add_sub_cancel]
        exact Bool.eq_false_of_not_eq_true hp
    · rw [if_neg hlt]
      have heq : i = j := by omega
      rw [heq]
      exact ⟨heq ▸ hleft, hright, hj⟩

theorem search_boundary (n : ℕ) (p : ℕ → Bool) : (search n p = 0 ∨ p (search n p - 1) = false) ∧
      (search n p < n → p (search n p) = true) ∧ search n p ≤ n :=
  loop_boundary (Nat.zero_le n) le_rfl (Or.inl rfl) (fun hlt => absurd hlt (lt_irrefl n)) le_rfl

theorem search_append {α : Type*} {front rest : List α} {q : α → Bool}
    (hfront : ∀ a ∈ front, q a = false) (hrest : ∀ a ∈ rest, q a = true) :
    search (front ++ rest).length (fun i => ((front ++ rest)[i]?).any q) = front.length := by
  have hbelow : ∀ i < front.length, ((front ++ rest)[i]?).any q = false := by
    intro i hi
    rw [getElem?_append_left hi, getElem?_eq_getElem hi]
    exact hfront _ (getElem_mem hi)
  have habove : ∀ i, front.length ≤ i → i < (front ++ rest).length →
      ((front ++ rest)[i]?).any q = true := by
    intro i hi hlt
    have hir : i - front.length < rest.length := by
      rw [length_append] at hlt
      omega
    rw [getElem?_append_right hi, getElem?_eq_getElem hir]
    exact hrest _ (getElem_mem hir)
  apply search_eq
  · intro i j hij hj hi
    apply habove j _ hj
    by_contra hlt
    exact absurd hi (by simp [hbelow i (by omega)])
  · rw [length_append]
    omega
  · exact hbelow
  · exact habove _ le_rfl

theorem exists_split {α : Type*} {items : List α} {q : α → Bool}
    (hrising : items.Pairwise fun a b => q a = true → q b = true) :
    ∃ low high, items = low ++ high ∧ (∀ a ∈ low, q a = false) ∧ ∀ a ∈ high, q a = true := by
  induction items with
  | nil => exact ⟨[], [], rfl, by simp, by simp⟩
  | cons a items ih =>
    have hparts := pairwise_cons.mp hrising
    cases ha : q a with
    | true =>
      refine ⟨[], a :: items, rfl, by simp, ?_⟩
      intro b hb
      rcases mem_cons.mp hb with rfl | hb
      · exact ha
      · exact hparts.1 b hb ha
    | false =>
      obtain ⟨low, high, rfl, hlow, hhigh⟩ := ih hparts.2
      refine ⟨a :: low, high, rfl, ?_, hhigh⟩
      intro b hb
      rcases mem_cons.mp hb with rfl | hb
      · exact ha
      · exact hlow b hb

theorem getElem?_search {α : Type*} {items : List α} {q : α → Bool}
    (hrising : items.Pairwise fun a b => q a = true → q b = true) :
    items[search items.length fun i => (items[i]?).any q]? = items.find? q := by
  obtain ⟨low, high, rfl, hlow, hhigh⟩ := exists_split hrising
  have hnone : low.find? q = none := by
    rw [find?_eq_none]
    intro a ha
    simp [hlow a ha]
  rw [search_append hlow hhigh, getElem?_append_right le_rfl,
    Nat.sub_self, find?_append, hnone, Option.none_or]
  cases high with
  | nil => rfl
  | cons a high => rw [find?_cons_of_pos (hhigh a mem_cons_self)]; rfl

theorem takeWhile_eq_filter {α : Type*} {items : List α} {q : α → Bool}
    (hfalling : items.Pairwise fun a b => q b = true → q a = true) :
    items.takeWhile q = items.filter q := by
  induction items with
  | nil => rfl
  | cons a items ih =>
    have hparts := pairwise_cons.mp hfalling
    by_cases ha : q a = true
    · rw [takeWhile_cons_of_pos ha, filter_cons_of_pos ha, ih hparts.2]
    · rw [takeWhile_cons_of_neg ha, filter_cons_of_neg ha]
      symm
      rw [filter_eq_nil_iff]
      exact fun b hb hq => ha (hparts.1 b hb hq)

end SortSearch
