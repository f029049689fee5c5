import Mathlib.Data.Nat.Basic
import Mathlib.Tactic.Ring

/-!
# Machine words and the rounding functions of the kernel's stdlib

Addresses, sizes and page-table entries are `uint64_t`, so every sum wraps where the C sum does. `align` is not the
usual round-up: a value below the alignment, zero included, becomes the alignment itself, and a value near `2^64`
wraps.
-/

namespace Kairax

open BitVec

abbrev Word := BitVec 64

/-- `NULL`. -/
def null : Word := 0

/-- `PAGE_SIZE`. -/
def pageSize : Word := 0x1000

@[simp] theorem toNat_pageSize : pageSize.toNat = 4096 := rfl

def align (val alignment : Word) : Word :=
  if val < alignment then alignment
  else if val % alignment ≠ 0 then val + (alignment - val % alignment)
  else val

def alignDown (val alignment : Word) : Word := val - val % alignment

theorem toNat_add_ofNat {a : Word} {k : Nat} (hlt : a.toNat + k < 2 ^ 64) :
    (a + BitVec.ofNat 64 k).toNat = a.toNat + k := by
  rw [toNat_add, toNat_ofNat]
  omega

theorem toNat_alignDown (val alignment : Word) :
    (alignDown val alignment).toNat = val.toNat - val.toNat % alignment.toNat := by
  have hle : val.toNat % alignment.toNat ≤ val.toNat := Nat.mod_le _ _
  simp only [alignDown, toNat_sub, toNat_umod]
  omega

theorem toNat_align_of_lt {val alignment : Word} (hlt : val.toNat < alignment.toNat) :
    (align val alignment).toNat = alignment.toNat := by
  rw [align, if_pos (lt_def.mpr hlt)]

theorem toNat_align_of_le {val alignment : Word} (hpos : 0 < alignment.toNat)
    (hle : alignment.toNat ≤ val.toNat) (hroom : val.toNat + alignment.toNat ≤ 2 ^ 64) :
    (align val alignment).toNat =
      if val.toNat % alignment.toNat = 0 then val.toNat
      else val.toNat + (alignment.toNat - val.toNat % alignment.toNat) := by
  have hmod : (val % alignment = 0) ↔ val.toNat % alignment.toNat = 0 := by
    rw [← toNat_inj]
    rfl
  rw [align, if_neg (by rw [lt_def]; omega)]
  by_cases hzero : val.toNat % alignment.toNat = 0
  · rw [if_neg (not_not_intro (hmod.mpr hzero)), if_pos hzero]
  · rw [if_pos (mt hmod.mp hzero), if_neg hzero]
    have hmodlt := Nat.mod_lt val.toNat hpos
    simp only [toNat_add, toNat_sub, toNat_umod]
    omega

theorem align_spec (val alignment : Word) (hpos : 0 < alignment.toNat) (hroom : val.toNat + alignment.toNat ≤ 2 ^ 64) :
    val.toNat ≤ (align val alignment).toNat ∧
      alignment.toNat ≤ (align val alignment).toNat ∧
      (align val alignment).toNat ≤ val.toNat + alignment.toNat ∧
      (align val alignment).toNat % alignment.toNat = 0 := by
  rcases lt_or_ge val.toNat alignment.toNat with hlt | hge
  · rw [toNat_align_of_lt hlt, Nat.mod_self]
    omega
  · rw [toNat_align_of_le hpos hge hroom]
    have hmodlt := Nat.mod_lt val.toNat hpos
    split
    · rename_i hzero
      exact ⟨le_rfl, hge, by omega, hzero⟩
    · refine ⟨by omega, by omega, by omega, ?_⟩
      have hdiv := Nat.div_add_mod val.toNat alignment.toNat
      have hsum : val.toNat + (alignment.toNat - val.toNat % alignment.toNat) =
          alignment.toNat * (val.toNat / alignment.toNat + 1) := by
        rw [Nat.mul_add]
        omega
      rw [hsum, Nat.mul_mod_right]

end Kairax
