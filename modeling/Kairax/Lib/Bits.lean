import Mathlib.Data.Nat.Find
import Mathlib.Data.BitVec

/-!
# Bits of a word

What the test `w & 1` reads, the lowest clear bit of a word that has one, and how a mask and its
complement take a word apart.
-/

namespace Kairax.Lib

open BitVec

variable {w : Nat}

theorem and_one_ne_zero (x : BitVec w) : x &&& 1#w ≠ 0 ↔ x.getLsbD 0 = true := by
  cases w with
  | zero => simp
  | succ w =>
    rw [and_one_eq_setWidth_ofBool_getLsbD]
    cases x.getLsbD 0 <;> simp

theorem exists_clear_of_ne_allOnes {x : BitVec w} (hx : x ≠ allOnes w) : ∃ bit, bit < w ∧ x.getLsbD bit = false := by
  by_contra hnone
  push Not at hnone
  apply hx
  apply eq_of_getLsbD_eq
  intro bit hbit
  simpa [hbit] using hnone bit hbit

theorem exists_lowest_clear {x : BitVec w} (hx : x ≠ allOnes w) :
    ∃ bit, bit < w ∧ x.getLsbD bit = false ∧ ∀ lower < bit, x.getLsbD lower = true := by
  have hexists := exists_clear_of_ne_allOnes hx
  refine ⟨Nat.find hexists, (Nat.find_spec hexists).1, (Nat.find_spec hexists).2, ?_⟩
  intro lower hlower
  have hmin := Nat.find_min hexists hlower
  have hw : lower < w := lt_trans hlower (Nat.find_spec hexists).1
  simpa [hw] using hmin

variable {x mask : BitVec w}

theorem and_not_or_and (x mask : BitVec w) : (x &&& ~~~mask) ||| (x &&& mask) = x := by
  apply eq_of_getLsbD_eq
  intro i hi
  simp only [BitVec.getLsbD_or, BitVec.getLsbD_and, BitVec.getLsbD_not, hi]
  cases x.getLsbD i <;> cases mask.getLsbD i <;> rfl

theorem and_not_and (x mask : BitVec w) : (x &&& ~~~mask) &&& mask = 0 := by
  apply eq_of_getLsbD_eq
  intro i hi
  simp only [BitVec.getLsbD_and, BitVec.getLsbD_not, hi, BitVec.ofNat_eq_ofNat,
    getLsbD_zero]
  cases x.getLsbD i <;> cases mask.getLsbD i <;> rfl

theorem or_and_not (x mask : BitVec w) : (x ||| mask) &&& ~~~mask = x &&& ~~~mask := by
  apply eq_of_getLsbD_eq
  intro i hi
  simp only [BitVec.getLsbD_or, BitVec.getLsbD_and, BitVec.getLsbD_not, hi]
  cases x.getLsbD i <;> cases mask.getLsbD i <;> rfl

theorem and_eq_self (hcover : ∀ i < w, x.getLsbD i = true → mask.getLsbD i = true) : x &&& mask = x := by
  apply eq_of_getLsbD_eq
  intro i hi
  rw [getLsbD_and]
  cases hbit : x.getLsbD i with
  | false => rfl
  | true => rw [hcover i hi hbit, Bool.and_self]

theorem getLsbD_of_mod {k i : Nat} (hmod : x.toNat % 2 ^ k = 0) (hi : i < k) : x.getLsbD i = false := by
  rw [getLsbD, Nat.testBit_eq_decide_div_mod_eq, decide_eq_false_iff_not]
  obtain ⟨c, hc⟩ := Nat.dvd_of_mod_eq_zero hmod
  have hpow : 2 ^ k = 2 ^ i * (2 * 2 ^ (k - i - 1)) := by
    rw [← Nat.pow_succ', ← Nat.pow_add]
    congr 1
    omega
  rw [hc, hpow, mul_assoc, Nat.mul_div_cancel_left _ (Nat.two_pow_pos i), mul_assoc]
  omega

theorem getLsbD_of_lt {k i : Nat} (hlt : x.toNat < 2 ^ k) (hi : k ≤ i) : x.getLsbD i = false := by
  exact Nat.testBit_lt_two_pow (hlt.trans_le (Nat.pow_le_pow_right (by decide) hi))

end Kairax.Lib
