import Mathlib.Data.BitVec
import Mathlib.Tactic

/-!
# Drop sets

The bitmap of offsets a merge decided to remove from one segment, one bit per
offset in 64-bit words.  Offsets outside the bitmap are ignored by `set` and
read as absent by `get`.
-/

namespace CommitLog

open List

structure DropSet where
  base : ℤ
  bits : List (BitVec 64)
  count : ℕ

namespace DropSet

/-- `newDropSet`, with the word count rounded up. -/
def new (base next : ℤ) : DropSet where
  base := base
  bits := replicate (((next - base).toNat + 63) / 64) 0#64
  count := 0

def InRange (drops : DropSet) (offset : ℤ) : Prop :=
  0 ≤ offset - drops.base ∧ offset - drops.base < (drops.bits.length : ℤ) * 64

instance (drops : DropSet) (offset : ℤ) : Decidable (drops.InRange offset) :=
  inferInstanceAs (Decidable (_ ∧ _))

def index (drops : DropSet) (offset : ℤ) : ℕ :=
  (offset - drops.base).toNat

def testBit (word : BitVec 64) (b : ℕ) : Bool :=
  word &&& (1#64 <<< b) != 0#64

def bitAt (bits : List (BitVec 64)) (i : ℕ) : Bool :=
  testBit (bits.getD (i / 64) 0#64) (i % 64)

def get (drops : DropSet) (offset : ℤ) : Bool :=
  if drops.InRange offset then bitAt drops.bits (drops.index offset)
  else false

def setBit (bits : List (BitVec 64)) (i : ℕ) : List (BitVec 64) :=
  bits.set (i / 64) (bits.getD (i / 64) 0#64 ||| (1#64 <<< (i % 64)))

def set (drops : DropSet) (offset : ℤ) : DropSet :=
  if drops.InRange offset then
    if bitAt drops.bits (drops.index offset) then drops
    else
      { drops with
        bits := setBit drops.bits (drops.index offset)
        count := drops.count + 1 }
  else drops

/-- `get` through the possibly absent drop set of a segment. -/
def getOf (drops : Option DropSet) (offset : ℤ) : Bool :=
  match drops with
  | none => false
  | some drops => drops.get offset

theorem testBit_eq_getLsbD {word : BitVec 64} {b : ℕ} (hb : b < 64) :
    testBit word b = word.getLsbD b := by
  have hmask : 1#64 <<< b = BitVec.twoPow 64 b := by
    rw [BitVec.twoPow]
  have hand : word &&& BitVec.twoPow 64 b =
      if word.getLsbD b then BitVec.twoPow 64 b else 0#64 :=
    BitVec.and_twoPow word b
  unfold testBit
  rw [hmask, hand]
  cases hword : word.getLsbD b with
  | false => simp
  | true =>
    have hne : BitVec.twoPow 64 b ≠ 0#64 := by
      intro hzero
      have hbit := congrArg (fun w : BitVec 64 => w.getLsbD b) hzero
      simp [hb] at hbit
    simpa using hne

@[simp] theorem testBit_zero (b : ℕ) : testBit 0#64 b = false := by
  simp [testBit]

theorem testBit_or {word : BitVec 64} {b b' : ℕ} (hb : b < 64) (hb' : b' < 64) :
    testBit (word ||| (1#64 <<< b)) b' = (testBit word b' || decide (b' = b)) := by
  rw [testBit_eq_getLsbD hb', testBit_eq_getLsbD hb', BitVec.getLsbD_or]
  congr 1
  have hmask : 1#64 <<< b = BitVec.twoPow 64 b := by
    rw [BitVec.twoPow]
  rw [hmask, BitVec.getLsbD_twoPow]
  by_cases heq : b' = b
  · simp [heq, hb]
  · simp [heq, Ne.symm heq]

theorem bitAt_setBit {bits : List (BitVec 64)} {i j : ℕ} (hi : i / 64 < bits.length) :
    bitAt (setBit bits i) j = (bitAt bits j || decide (j = i)) := by
  have hmod : j % 64 < 64 := Nat.mod_lt j (by omega)
  have hmodI : i % 64 < 64 := Nat.mod_lt i (by omega)
  unfold bitAt setBit
  by_cases hword : j / 64 = i / 64
  · have hget : (bits.set (i / 64) (bits.getD (i / 64) 0#64 ||| (1#64 <<< (i % 64)))).getD (j / 64)
          0#64 = bits.getD (i / 64) 0#64 ||| (1#64 <<< (i % 64)) := by
      simp [hword, hi]
    have hsame : decide (j % 64 = i % 64) = decide (j = i) := by
      apply decide_eq_decide.mpr
      omega
    rw [hget, testBit_or hmodI hmod, hword, hsame]
  · have hget : (bits.set (i / 64) (bits.getD (i / 64) 0#64 ||| (1#64 <<< (i % 64)))).getD (j / 64)
          0#64 = bits.getD (j / 64) 0#64 := by
      simp [getD_eq_getElem?_getD, Ne.symm hword]
    have hne : j ≠ i := by
      intro heq
      exact hword (by rw [heq])
    rw [hget]
    simp [hne]

@[simp] theorem get_new (base next offset : ℤ) : (new base next).get offset = false := by
  unfold get
  split
  · have hword : ∀ w n : ℕ, (replicate n 0#64).getD w 0#64 = 0#64 := by
      intro w n
      rw [getD_eq_getElem?_getD, getElem?_replicate]
      split <;> rfl
    simp only [bitAt, new, hword, testBit_zero]
  · rfl

@[simp] theorem base_set (drops : DropSet) (offset : ℤ) : (drops.set offset).base = drops.base := by
  unfold set
  split
  · split <;> rfl
  · rfl

@[simp] theorem length_bits_set (drops : DropSet) (offset : ℤ) :
    (drops.set offset).bits.length = drops.bits.length := by
  unfold set
  split
  · split
    · rfl
    · simp [setBit]
  · rfl

variable {drops : DropSet} {offset : ℤ}

theorem inRange_set {other : ℤ} : (drops.set offset).InRange other ↔ drops.InRange other := by
  simp [InRange]

theorem inRange_new {base next : ℤ} (hbase : base ≤ offset)
    (hnext : offset < next) : (new base next).InRange offset := by
  unfold InRange new
  simp only [length_replicate]
  omega

theorem InRange.word_lt (hrange : drops.InRange offset) :
    drops.index offset / 64 < drops.bits.length := by
  unfold InRange at hrange
  unfold index
  omega

theorem index_inj {other : ℤ} (hoffset : drops.InRange offset) (hother : drops.InRange other) :
    drops.index other = drops.index offset ↔ other = offset := by
  unfold InRange at hoffset hother
  unfold index
  omega

theorem get_set (drops : DropSet) (offset other : ℤ) : (drops.set offset).get other =
      (drops.get other || (decide (other = offset) && decide (drops.InRange offset))) := by
  by_cases hoffset : drops.InRange offset
  · by_cases hother : drops.InRange other
    · have hindex : decide (drops.index other = drops.index offset) =
          decide (other = offset) :=
        decide_eq_decide.mpr (index_inj hoffset hother)
      have hget : drops.get other = bitAt drops.bits (drops.index other) := by
        simp [get, hother]
      by_cases hbit : bitAt drops.bits (drops.index offset) = true
      · have hset : drops.set offset = drops := by
          simp [set, hoffset, hbit]
        rw [hset]
        by_cases heq : other = offset
        · rw [heq, get, if_pos hoffset, hbit]
          rfl
        · simp [heq]
      · have hset : (drops.set offset).bits = setBit drops.bits (drops.index offset) := by
          simp [set, hoffset, hbit]
        have hsame : (drops.set offset).index other = drops.index other := by
          simp [index]
        have hrange : (drops.set offset).InRange other :=
          inRange_set.mpr hother
        rw [get, if_pos hrange, hset, hsame, bitAt_setBit hoffset.word_lt, hget, hindex]
        simp [hoffset]
    · have hne : other ≠ offset := by
        intro heq
        exact hother (heq ▸ hoffset)
      have hrange : ¬(drops.set offset).InRange other :=
        fun hin => hother (inRange_set.mp hin)
      simp [get, hrange, hother, hne]
  · have hset : drops.set offset = drops := by
      simp [set, hoffset]
    simp [hset, hoffset]

def CountOk (drops : DropSet) : Prop :=
  0 < drops.count ↔ ∃ offset, drops.get offset = true

theorem countOk_new (base next : ℤ) : (new base next).CountOk := by
  unfold CountOk
  constructor
  · intro hcount
    simp [new] at hcount
  · intro hget
    obtain ⟨offset, hoffset⟩ := hget
    simp at hoffset

theorem CountOk.set (hcount : drops.CountOk) (offset : ℤ) : (drops.set offset).CountOk := by
  by_cases hchange : drops.InRange offset ∧ ¬bitAt drops.bits (drops.index offset) = true
  · have hpos : 0 < (drops.set offset).count := by
      simp [DropSet.set, hchange.1, hchange.2]
    have hget : (drops.set offset).get offset = true := by
      rw [get_set]
      simp [hchange.1]
    exact ⟨fun _ => ⟨offset, hget⟩, fun _ => hpos⟩
  · have hsame : drops.set offset = drops := by
      unfold DropSet.set
      split
      next hrange =>
        rw [if_pos (by_contra fun hbit => hchange ⟨hrange, hbit⟩)]
      · rfl
    rw [hsame]
    exact hcount

end DropSet

end CommitLog
