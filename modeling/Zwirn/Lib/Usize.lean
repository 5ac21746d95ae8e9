import Mathlib

/-!
# Checked machine arithmetic

Unsigned 64-bit sizes are natural numbers below `usizeBound`; a checked operation has no result
when the exact one does not fit. A size is aligned by a padding (`add_padding_eq_alignUp`).
-/

namespace Lib

/-- The number of 64-bit sizes: a size is below it, and arithmetic that reaches it overflows. -/
def usizeBound : Nat := 2 ^ 64

/-- The number of 32-bit words. -/
def u32Bound : Nat := 2 ^ 32

/-- A sum, unless it overflows: `usize::checked_add`. -/
def checkedAdd (a b : Nat) : Option Nat := if a + b < usizeBound then some (a + b) else none

/-- A product, unless it overflows: `usize::checked_mul`. -/
def checkedMul (a b : Nat) : Option Nat := if a * b < usizeBound then some (a * b) else none

/-- A difference, unless it is negative: `usize::checked_sub`. -/
def checkedSub (a b : Nat) : Option Nat := if b ≤ a then some (a - b) else none

/-- The conversion of a size to 32 bits, unless it does not fit: `u32::try_from`. -/
def u32TryFrom (a : Nat) : Option Nat := if a < u32Bound then some a else none

/-- A sum is computed exactly if it does not overflow, and then it is the sum. -/
@[simp] theorem checkedAdd_eq_some {a b c : Nat} :
    checkedAdd a b = some c ↔ a + b < usizeBound ∧ a + b = c := by
  simp [checkedAdd]

/-- A product is computed exactly if it does not overflow, and then it is the product. -/
@[simp] theorem checkedMul_eq_some {a b c : Nat} :
    checkedMul a b = some c ↔ a * b < usizeBound ∧ a * b = c := by
  simp [checkedMul]

/-- A difference is computed exactly if it is not negative, and then it is the difference. -/
@[simp] theorem checkedSub_eq_some {a b c : Nat} : checkedSub a b = some c ↔ b ≤ a ∧ a - b = c := by
  simp [checkedSub]

/-- A size is converted exactly if it fits, and then it stays the same number. -/
@[simp] theorem u32TryFrom_eq_some {a c : Nat} : u32TryFrom a = some c ↔ a < u32Bound ∧ a = c := by
  simp [u32TryFrom]

/-! ## Alignment -/

/-- The least multiple of `a` that is not below `n`. -/
def alignUp (a n : Nat) : Nat := a * (n ⌈/⌉ a)

/-- The aligned size is the least multiple of the alignment that is not below `n`. -/
theorem alignUp_isLeast {a : Nat} (ha : 0 < a) (n : Nat) :
    IsLeast {m | n ≤ m ∧ a ∣ m} (alignUp a n) := by
  refine ⟨⟨le_smul_ceilDiv ha, dvd_mul_right _ _⟩, fun m hm => ?_⟩
  obtain ⟨hle, k, rfl⟩ := hm
  exact Nat.mul_le_mul_left a ((ceilDiv_le_iff_le_mul ha).2 hle)

/-- The next aligned size is reached by a padding. Where the size is aligned the padding is zero,
and else it is what is missing. -/
theorem add_padding_eq_alignUp {a : Nat} (ha : 0 < a) (n : Nat) :
    n + (a - n % a) % a = alignUp a n := by
  have hdiv := Nat.div_add_mod n a
  have hlt := Nat.mod_lt n ha
  rcases Nat.eq_zero_or_pos (n % a) with hzero | hpos
  · rw [hzero, Nat.sub_zero, Nat.mod_self, Nat.add_zero]
    exact IsLeast.unique (s := {m | n ≤ m ∧ a ∣ m})
      ⟨⟨Nat.le_refl n, Nat.dvd_of_mod_eq_zero hzero⟩, fun m hm => hm.1⟩ (alignUp_isLeast ha n)
  · have hnext : n + (a - n % a) = a * (n / a + 1) := by rw [Nat.mul_add_one]; omega
    rw [Nat.mod_eq_of_lt (by omega), hnext]
    refine IsLeast.unique (s := {m | n ≤ m ∧ a ∣ m}) ⟨⟨by omega, dvd_mul_right _ _⟩, fun m hm => ?_⟩
      (alignUp_isLeast ha n)
    obtain ⟨hle, k, rfl⟩ := hm
    have hlt : n / a < k := by
      refine Nat.lt_of_mul_lt_mul_left (a := a) ?_
      omega
    exact Nat.mul_le_mul_left a hlt

end Lib
