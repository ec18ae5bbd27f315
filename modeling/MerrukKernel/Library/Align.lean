import Mathlib.Data.BitVec
import Mathlib.Algebra.Order.Ring.Nat

/-!
# Alignment by masks

Rounding to a multiple of a power of two by masking the low bits, on words of any width, and what
it is on numbers.
-/

/-! ### On numbers -/

/-- The least multiple of `2 ^ k` that is not below `x`. -/
def Nat.alignUp (k x : ℕ) : ℕ := (x + (2 ^ k - 1)) / 2 ^ k * 2 ^ k

theorem Nat.le_alignUp (k x : ℕ) : x ≤ Nat.alignUp k x := by
  have hdiv := Nat.div_add_mod (x + (2 ^ k - 1)) (2 ^ k)
  rw [Nat.alignUp, Nat.mul_comm]
  omega

/-! ### On words -/

namespace BitVec

variable {w k : ℕ} {a b m : BitVec w}

/-- `a` rounded down to a multiple of `m`. -/
def alignDown (a m : BitVec w) : BitVec w := a &&& ~~~(m - 1)

/-- `a` rounded up to a multiple of `m`; the sum may wrap around. -/
def alignUp (a m : BitVec w) : BitVec w := alignDown (a + (m - 1)) m

section

variable (hm : m.toNat = 2 ^ k)
include hm

theorem toNat_sub_one_of_two_pow : (m - 1).toNat = 2 ^ k - 1 := by
  have hlt := m.isLt
  have hpos := Nat.two_pow_pos k
  have hone : (1 : BitVec w).toNat = 1 := by grind
  rw [BitVec.toNat_sub_of_le, hone, hm]
  rw [BitVec.le_def, hone, hm]
  exact hpos

/-- Masking clears the low bits. -/
theorem alignDown_eq_shift : alignDown a m = (a >>> k) <<< k := by
  ext i hi
  have hbit : (m - 1).getLsbD i = decide (i < k) := by
    rw [← BitVec.testBit_toNat, toNat_sub_one_of_two_pow hm, Nat.testBit_two_pow_sub_one]
  rw [alignDown, BitVec.getElem_and, BitVec.getElem_not, BitVec.getElem_shiftLeft,
    ← BitVec.getLsbD_eq_getElem (x := m - 1) hi, hbit, Bool.and_comm]
  by_cases hik : i < k
  · simp only [hik, decide_true, Bool.not_true, Bool.false_and]
  · rw [BitVec.getElem_ushiftRight, Nat.add_sub_cancel' (Nat.le_of_not_lt hik),
      BitVec.getLsbD_eq_getElem hi]

theorem toNat_alignDown : (alignDown a m).toNat = a.toNat / 2 ^ k * 2 ^ k := by
  rw [alignDown_eq_shift hm, BitVec.toNat_shiftLeft, BitVec.toNat_ushiftRight, Nat.shiftLeft_eq,
    Nat.shiftRight_eq_div_pow]
  exact Nat.mod_eq_of_lt ((Nat.div_mul_le_self _ _).trans_lt a.isLt)

theorem dvd_alignDown : 2 ^ k ∣ (alignDown a m).toNat := by
  rw [toNat_alignDown hm]
  exact Nat.dvd_mul_left ..

end

theorem alignDown_le : (alignDown a m).toNat ≤ a.toNat := by
  exact Nat.and_le_left

/-- No multiple lies between `alignDown a m` and `a`. -/
theorem le_alignDown (hm : m.toNat = 2 ^ k) {n : ℕ} (hdvd : 2 ^ k ∣ n) (hle : n ≤ a.toNat) :
    n ≤ (alignDown a m).toNat := by
  obtain ⟨c, rfl⟩ := hdvd
  rw [toNat_alignDown hm, Nat.mul_comm]
  exact Nat.mul_le_mul_right _ ((Nat.le_div_iff_mul_le (Nat.two_pow_pos k)).2
    (by rwa [Nat.mul_comm]))

theorem toNat_alignUp (hm : m.toNat = 2 ^ k) (hfit : a.toNat + (2 ^ k - 1) < 2 ^ w) :
    (alignUp a m).toNat = Nat.alignUp k a.toNat := by
  rw [Nat.alignUp, alignUp, toNat_alignDown hm, BitVec.toNat_add, toNat_sub_one_of_two_pow hm,
    Nat.mod_eq_of_lt hfit]

end BitVec
