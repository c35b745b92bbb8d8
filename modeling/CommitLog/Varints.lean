import Mathlib.Tactic

/-!
# Varints

A number in groups of seven bits, the lowest first, every byte but the last
with its high bit set.  The writer uses as few bytes as it can.  The reader
takes at most ten bytes and what fits into 64 bits, and accepts padding.
-/

namespace Varints

open List

local instance neZero_group : NeZero 256 := ⟨by decide⟩

/-- The groups of a number, at most `fuel` of them. -/
def putGroups : ℕ → ℕ → List (Fin 256)
  | 0, _ => []
  | fuel + 1, v =>
    if v < 128 then [Fin.ofNat 256 v]
    else Fin.ofNat 256 (v % 128 + 128) :: putGroups fuel (v / 128)

/-- The number, and what follows it. -/
def readGroups : ℕ → List (Fin 256) → Option (ℕ × List (Fin 256))
  | 0, _ => none
  | _ + 1, [] => none
  | fuel + 1, byte :: rest =>
    if byte.val < 128 then
      -- of the tenth byte one bit is left
      if fuel = 0 ∧ 1 < byte.val then none else some (byte.val, rest)
    else
      (readGroups fuel rest).map fun read =>
        (byte.val - 128 + 128 * read.1, read.2)

/-- `binary.AppendUvarint` of a `uint64`. -/
def putUvarint (v : ℕ) : List (Fin 256) := putGroups 10 (v % 2 ^ 64)

/-- `binary.Uvarint`. -/
def uvarint (bytes : List (Fin 256)) : Option (ℕ × List (Fin 256)) :=
  readGroups 10 bytes

variable {v : ℕ}

theorem readGroups_last {fuel : ℕ} (hv : v < 128) (hbit : ¬ (fuel = 0 ∧ 1 < v))
    (rest : List (Fin 256)) : readGroups (fuel + 1) (Fin.ofNat 256 v :: rest) = some (v, rest) := by
  have hval : (Fin.ofNat 256 v).val = v := by
    rw [Fin.val_ofNat]
    omega
  rw [readGroups, hval, if_pos hv, if_neg hbit]

theorem readGroups_putGroups {fuel : ℕ} (hv : v < 2 ^ (7 * fuel + 1)) (rest : List (Fin 256)) :
    readGroups (fuel + 1) (putGroups (fuel + 1) v ++ rest) = some (v, rest) := by
  induction fuel generalizing v with
  | zero =>
    have hsmall : v < 128 := by omega
    rw [putGroups, if_pos hsmall]
    exact readGroups_last hsmall (by omega) rest
  | succ fuel ih =>
    rw [putGroups]
    split
    · rename_i hsmall
      exact readGroups_last hsmall (by omega) rest
    · have hval : (Fin.ofNat 256 (v % 128 + 128)).val = v % 128 + 128 := by
        rw [Fin.val_ofNat]
        omega
      have hrest : v / 128 < 2 ^ (7 * fuel + 1) := by
        rw [Nat.div_lt_iff_lt_mul (by norm_num)]
        have hpow : 2 ^ (7 * fuel + 1) * 128 = 2 ^ (7 * (fuel + 1) + 1) := by
          ring
        omega
      rw [cons_append, readGroups, if_neg (by omega), ih hrest, Option.map_some, hval]
      congr 2
      omega

theorem uvarint_putUvarint (hv : v < 2 ^ 64) (rest : List (Fin 256)) :
    uvarint (putUvarint v ++ rest) = some (v, rest) := by
  rw [uvarint, putUvarint, Nat.mod_eq_of_lt hv]
  apply readGroups_putGroups
  exact hv

theorem length_putGroups_pos (fuel v : ℕ) : 0 < (putGroups (fuel + 1) v).length := by
  rw [putGroups]
  split <;> simp

theorem length_putGroups_mono (fuel : ℕ) {w : ℕ} (hle : v ≤ w) :
    (putGroups fuel v).length ≤ (putGroups fuel w).length := by
  induction fuel generalizing v w with
  | zero => simp [putGroups]
  | succ fuel ih =>
    by_cases hv : v < 128
    · have hpos := length_putGroups_pos fuel w
      rw [putGroups, if_pos hv, length_singleton]
      omega
    · have hw : ¬ w < 128 := by omega
      rw [putGroups, if_neg hv, putGroups, if_neg hw, length_cons,
        length_cons, Nat.add_le_add_iff_right]
      exact ih (Nat.div_le_div_right hle)

variable {bytes rest : List (Fin 256)}

theorem of_readGroups {fuel : ℕ} (hread : readGroups fuel bytes = some (v, rest)) :
    v < 2 ^ (7 * fuel - 6) ∧ ∀ limit, rest.length + (putGroups limit v).length ≤ bytes.length := by
  induction fuel generalizing v bytes rest with
  | zero => cases hread
  | succ fuel ih =>
    cases bytes with
    | nil => cases hread
    | cons byte bytes =>
      rw [readGroups] at hread
      split at hread
      · rename_i hsmall
        split at hread
        · cases hread
        · rename_i hbit
          cases hread
          constructor
          · cases fuel with
            | zero =>
              have hone : ¬ 1 < byte.val := fun hone => hbit ⟨rfl, hone⟩
              omega
            | succ fuel =>
              have hpow : 2 ^ 7 ≤ 2 ^ (7 * (fuel + 1 + 1) - 6) :=
                Nat.pow_le_pow_right (by norm_num) (by omega)
              omega
          · intro limit
            cases limit with
            | zero => simp [putGroups]
            | succ limit => simp [putGroups, hsmall]
      · rename_i hlarge
        rw [Option.map_eq_some_iff] at hread
        obtain ⟨⟨high, rest'⟩, hhigh, heq⟩ := hread
        cases heq
        obtain ⟨hbound, hlength⟩ := ih hhigh
        have hbyte := byte.isLt
        constructor
        · cases fuel with
          | zero => cases hhigh
          | succ fuel =>
            have hpow : 2 ^ (7 * (fuel + 1) - 6) * 128 = 2 ^ (7 * (fuel + 1 + 1) - 6) := by
              rw [show 7 * (fuel + 1) - 6 = 7 * fuel + 1 by omega,
                show 7 * (fuel + 1 + 1) - 6 = 7 * fuel + 1 + 7 by omega, pow_add _ _ 7]
              norm_num
            omega
        · intro limit
          cases limit with
          | zero =>
            have htail := hlength 0
            simp only [putGroups, length_nil, length_cons] at htail ⊢
            omega
          | succ limit =>
            have htail := hlength limit
            rw [putGroups]
            split
            · simp only [length_cons, length_nil]
              omega
            · have hdiv : (byte.val - 128 + 128 * high) / 128 = high := by
                omega
              rw [hdiv]
              simp only [length_cons]
              omega

theorem of_uvarint (hread : uvarint bytes = some (v, rest)) :
    v < 2 ^ 64 ∧ ∀ w ≤ v, rest.length + (putUvarint w).length ≤ bytes.length := by
  obtain ⟨hbound, hlength⟩ := of_readGroups hread
  refine ⟨hbound, ?_⟩
  intro w hw
  have hmono := length_putGroups_mono 10 (show w % 2 ^ 64 ≤ v by
    rw [Nat.mod_eq_of_lt (hw.trans_lt hbound)]
    exact hw)
  have htaken := hlength 10
  unfold putUvarint
  omega

theorem length_putUvarint_pos (v : ℕ) : 0 < (putUvarint v).length :=
  length_putGroups_pos 9 _

theorem length_putUvarint_mono {w : ℕ} (hle : v ≤ w) (hw : w < 2 ^ 64) :
    (putUvarint v).length ≤ (putUvarint w).length := by
  apply length_putGroups_mono
  rw [Nat.mod_eq_of_lt hw, Nat.mod_eq_of_lt (hle.trans_lt hw)]
  exact hle

/-! ## Signed numbers -/

/-- The zigzag form of an `int64`. -/
def zigzag (x : ℤ) : ℕ :=
  if x < 0 then (-2 * x - 1).toNat else (2 * x).toNat

def unzigzag (u : ℕ) : ℤ :=
  if u % 2 = 1 then -(u / 2 : ℕ) - 1 else (u / 2 : ℕ)

theorem unzigzag_zigzag (x : ℤ) : unzigzag (zigzag x) = x := by
  unfold zigzag
  split
  · have hodd : (-2 * x - 1).toNat % 2 = 1 := by omega
    rw [unzigzag, if_pos hodd]
    omega
  · have heven : ¬ (2 * x).toNat % 2 = 1 := by omega
    rw [unzigzag, if_neg heven]
    omega

/-- `binary.AppendVarint`. -/
def putVarint (x : ℤ) : List (Fin 256) := putUvarint (zigzag x)

/-- `binary.Varint`. -/
def varint (bytes : List (Fin 256)) : Option (ℤ × List (Fin 256)) :=
  (uvarint bytes).map fun read => (unzigzag read.1, read.2)

theorem varint_putVarint {x : ℤ} (hx : zigzag x < 2 ^ 64) (rest : List (Fin 256)) :
    varint (putVarint x ++ rest) = some (x, rest) := by
  rw [varint, putVarint, uvarint_putUvarint hx, Option.map_some, unzigzag_zigzag]

theorem zigzag_unzigzag (u : ℕ) : zigzag (unzigzag u) = u := by
  unfold unzigzag
  split
  · rw [zigzag, if_pos (by omega)]
    omega
  · rw [zigzag, if_neg (by omega)]
    omega

theorem of_varint {x : ℤ} (hread : varint bytes = some (x, rest)) :
    zigzag x < 2 ^ 64 ∧ rest.length + (putVarint x).length ≤ bytes.length := by
  rw [varint, Option.map_eq_some_iff] at hread
  obtain ⟨⟨u, rest'⟩, hu, heq⟩ := hread
  cases heq
  obtain ⟨hbound, hlength⟩ := of_uvarint hu
  rw [putVarint, zigzag_unzigzag]
  exact ⟨hbound, hlength u le_rfl⟩

end Varints
