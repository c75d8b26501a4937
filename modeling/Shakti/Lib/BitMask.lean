import Mathlib.Data.List.Basic
import Mathlib.Data.Nat.Bitwise

/-!
# Shakti.Lib.BitMask

Sets of small numbers as bit masks.

* `maskOf bits` — the mask with the bits of a list. It depends on the members of the list only
  (`maskOf_congr`), and `testBit_maskOf` reads them back.
* `members n mask` — the bits of a mask below `n`, in ascending order. `maskOf_members` makes the
  mask of them again.
* `join_words` — a mask from its low and its high word.
-/

namespace BitMask

/-- The mask with the bits of a list. -/
def maskOf : List Nat → Nat
  | [] => 0
  | b :: bits => 1 <<< b ||| maskOf bits

theorem testBit_one_shiftLeft (b i : Nat) : (1 <<< b).testBit i = decide (b = i) := by
  rw [Nat.one_shiftLeft, Nat.testBit_two_pow]

@[simp] theorem testBit_maskOf (bits : List Nat) (i : Nat) :
    (maskOf bits).testBit i = decide (i ∈ bits) := by
  induction bits with
  | nil => simp [maskOf]
  | cons b bits ih =>
      rw [maskOf, Nat.testBit_or, testBit_one_shiftLeft, ih]
      simp [eq_comm]

theorem maskOf_congr {bits bits' : List Nat} (h : ∀ b, b ∈ bits ↔ b ∈ bits') :
    maskOf bits = maskOf bits' := by
  refine Nat.eq_of_testBit_eq fun i => ?_
  simp [h]

theorem maskOf_lt {bits : List Nat} {n : Nat} (h : ∀ b ∈ bits, b < n) : maskOf bits < 2 ^ n := by
  refine Nat.lt_pow_two_of_testBit _ fun i hi => ?_
  have hnot : i ∉ bits := fun hmem => absurd (h i hmem) (by omega)
  simp [hnot]

/-- The bits of a mask below `n`. -/
def members (n mask : Nat) : List Nat := (List.range n).filter (mask.testBit ·)

theorem mem_members {n mask b : Nat} : b ∈ members n mask ↔ b < n ∧ mask.testBit b = true := by
  simp [members]

theorem maskOf_members {n mask : Nat} (h : mask < 2 ^ n) : maskOf (members n mask) = mask := by
  refine Nat.eq_of_testBit_eq fun i => ?_
  rw [testBit_maskOf]
  by_cases hi : i < n
  · simp [mem_members, hi]
  · have hhigh : mask.testBit i = false :=
      Nat.testBit_eq_false_of_lt (h.trans_le (Nat.pow_le_pow_right (by decide) (by omega)))
    simp [mem_members, hi, hhigh]

/-- A mask of two words from its low and its high word. -/
theorem join_words {w mask : Nat} (h : mask < 2 ^ (w + w)) :
    ((mask >>> w) % 2 ^ w) <<< w ||| mask % 2 ^ w = mask := by
  refine Nat.eq_of_testBit_eq fun i => ?_
  simp only [Nat.testBit_or, Nat.testBit_shiftLeft, Nat.testBit_mod_two_pow,
    Nat.testBit_shiftRight]
  by_cases hlow : i < w
  · simp [hlow]
  · have hsplit : w + (i - w) = i := by omega
    by_cases hhigh : i < w + w
    · have hsub : i - w < w := by omega
      simp [hlow, hsub, hsplit, Nat.le_of_not_lt hlow]
    · have hout : mask.testBit i = false :=
        Nat.testBit_eq_false_of_lt (h.trans_le (Nat.pow_le_pow_right (by decide) (by omega)))
      simp [hlow, hsplit, hout]

end BitMask
