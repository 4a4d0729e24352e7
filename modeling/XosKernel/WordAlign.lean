import Mathlib.Algebra.Order.Group.Nat
import Mathlib.Tactic.Common

/-! Rounding with masks. For a power of two `a`, the word `a - 1` masks the remainder modulo `a` and its
complement masks the multiple of `a` below: the C idioms `x & (a - 1)`, `x & ~(a - 1)` and the test
`a & (a - 1)` in terms of division. -/

namespace XosKernel.Word

variable {w : Nat}

theorem toNat_sub_one {a : BitVec w} (ha : a.toNat ≠ 0) : (a - 1).toNat = a.toNat - 1 := by
  have hwidth : 0 < w := by
    rcases Nat.eq_zero_or_pos w with rfl | hpos
    · exact absurd (BitVec.toNat_of_zero_length rfl a) ha
    · exact hpos
  have hone : (1 : BitVec w).toNat = 1 := BitVec.toNat_one hwidth
  rw [BitVec.toNat_sub_of_le (by rw [BitVec.le_def, hone]; omega), hone]

/-- The C test for a power of two also accepts zero. -/
theorem and_sub_one_eq_zero_iff (a : BitVec w) : a &&& (a - 1) = 0 ↔ a = 0 ∨ a.toNat.isPowerOfTwo := by
  by_cases ha : a = 0
  · simp [ha]
  have hne : a.toNat ≠ 0 := fun h => ha (BitVec.eq_of_toNat_eq (by simpa using h))
  rw [← Nat.and_sub_one_eq_zero_iff_isPowerOfTwo hne, ← BitVec.toNat_inj, BitVec.toNat_and, toNat_sub_one hne]
  simp [show ¬ a = 0#w from ha]

theorem toNat_dvd_two_pow {a : BitVec w} (ha : a.toNat.isPowerOfTwo) : a.toNat ∣ 2 ^ w := by
  obtain ⟨k, hk⟩ := ha
  have hlt := a.isLt
  rw [hk] at hlt ⊢
  exact Nat.pow_dvd_pow 2 ((Nat.pow_lt_pow_iff_right (by decide)).mp hlt).le

theorem toNat_and_sub_one {a : BitVec w} (ha : a.toNat.isPowerOfTwo) (x : BitVec w) :
    (x &&& (a - 1)).toNat = x.toNat % a.toNat := by
  have hne : a.toNat ≠ 0 := Nat.pos_iff_ne_zero.mp (Nat.pos_of_isPowerOfTwo ha)
  rw [BitVec.toNat_and, toNat_sub_one hne]
  obtain ⟨k, hk⟩ := ha
  rw [hk, Nat.and_two_pow_sub_one_eq_mod]

/-- A mask and its complement split a word. -/
theorem toNat_and_not (x m : BitVec w) : (x &&& ~~~m).toNat = x.toNat - (x &&& m).toNat := by
  have hdisjoint : (x &&& ~~~m) &&& (x &&& m) = 0#w := by
    ext i
    simp only [BitVec.getElem_and, BitVec.getElem_not, BitVec.getElem_zero]
    cases x[i] <;> cases m[i] <;> rfl
  have hunion : (x &&& ~~~m) ||| (x &&& m) = x := by
    ext i
    simp only [BitVec.getElem_or, BitVec.getElem_and, BitVec.getElem_not]
    cases x[i] <;> cases m[i] <;> rfl
  have hsum : (x &&& ~~~m) + (x &&& m) = x := by
    rw [BitVec.add_eq_or_of_and_eq_zero _ _ hdisjoint, hunion]
  have hle : (x &&& m).toNat ≤ x.toNat := by
    rw [BitVec.toNat_and]
    exact Nat.and_le_left
  rw [← BitVec.toNat_sub_of_le (BitVec.le_def.mpr hle), ← BitVec.eq_sub_iff_add_eq.mpr hsum]

theorem toNat_and_not_sub_one {a : BitVec w} (ha : a.toNat.isPowerOfTwo) (x : BitVec w) :
    (x &&& ~~~(a - 1)).toNat = x.toNat / a.toNat * a.toNat := by
  rw [toNat_and_not, toNat_and_sub_one ha]
  have := Nat.div_add_mod' x.toNat a.toNat
  omega

/-- A mask is added to the multiple below. -/
theorem toNat_or_sub_one {a : BitVec w} (ha : a.toNat.isPowerOfTwo) (x : BitVec w) :
    (x ||| (a - 1)).toNat = x.toNat / a.toNat * a.toNat + (a.toNat - 1) := by
  have hne : a.toNat ≠ 0 := Nat.pos_iff_ne_zero.mp (Nat.pos_of_isPowerOfTwo ha)
  have hdisjoint : (x &&& ~~~(a - 1)) &&& (a - 1) = 0#w := by
    ext i
    simp only [BitVec.getElem_and, BitVec.getElem_not, BitVec.getElem_zero]
    cases x[i] <;> cases (a - 1)[i] <;> rfl
  have hunion : (x &&& ~~~(a - 1)) ||| (a - 1) = x ||| (a - 1) := by
    ext i
    simp only [BitVec.getElem_or, BitVec.getElem_and, BitVec.getElem_not]
    cases x[i] <;> cases (a - 1)[i] <;> rfl
  rw [← hunion, ← BitVec.add_eq_or_of_and_eq_zero _ _ hdisjoint, BitVec.toNat_add_of_and_eq_zero hdisjoint,
    toNat_and_not_sub_one ha, toNat_sub_one hne]

end XosKernel.Word
