import Kairax.Lib.Bits
import Kairax.Word

/-!
# Page-table entries and virtual addresses

The bit fields of `arch/x86_64/memory/paging.h` and the direct map of `mem_layout.h`. The kernel reaches a frame
through `P2V`, which is `|`, with `V2P`, which is `& ~`, as its inverse on low frames.
-/

namespace Kairax.Paging

open Lib BitVec

def pagePresent : Word := 0x1
def pageWritable : Word := 0x2
def pageUserAccessible : Word := 0x4
def pageHuge : Word := 0x80
def pageExecDisable : Word := 1#64 <<< 63

/-- `PAGE_BASE_FLAGS`. -/
def pageBaseFlags : Word := pagePresent ||| pageWritable

/-- `PHYSICAL_MEM_MAP_OFFSET`. -/
def physicalMemMapOffset : Word := 0xFFFF888000000000

def p2v (a : Word) : Word := a ||| physicalMemMapOffset

def v2p (a : Word) : Word := a &&& ~~~physicalMemMapOffset

def getPageOffset (x : Word) : Word := x &&& 0xFFF

def flagMask : Word := pageExecDisable ||| 0xFFF

def getPageFrame (x : Word) : Word := x &&& ~~~flagMask

def getPageFlags (x : Word) : Word := x &&& flagMask

/-- The index of a virtual address in a table whose entries each cover `2 ^ shift` bytes. -/
def pageIndex (shift : Nat) (va : Word) : BitVec 9 := ((va >>> shift) &&& 0x1FF).setWidth 9

def level4Index (va : Word) : BitVec 9 := pageIndex 0x27 va
def level3Index (va : Word) : BitVec 9 := pageIndex 0x1E va
def level2Index (va : Word) : BitVec 9 := pageIndex 0x15 va
def level1Index (va : Word) : BitVec 9 := pageIndex 0x0C va

theorem frame_or_flags (x : Word) : getPageFrame x ||| getPageFlags x = x := and_not_or_and x flagMask

theorem getPageFrame_or (x y : Word) : getPageFrame (x ||| y) = getPageFrame x ||| getPageFrame y := by
  rw [getPageFrame, and_or_distrib_right]
  rfl

theorem getPageFlags_or (x y : Word) : getPageFlags (x ||| y) = getPageFlags x ||| getPageFlags y := by
  rw [getPageFlags, and_or_distrib_right]
  rfl

def IsFrame (x : Word) : Prop := x.toNat % 2 ^ 12 = 0 ∧ x.toNat < 2 ^ 63

theorem getPageFrame_of_isFrame {x : Word} (hframe : IsFrame x) : getPageFrame x = x := by
  apply and_eq_self
  intro i hi hbit
  have hlow : 12 ≤ i := by
    by_contra hlt
    rw [getLsbD_of_mod hframe.1 (by omega)] at hbit
    exact absurd hbit (by decide)
  have hhigh : i ≠ 63 := by
    intro heq
    rw [heq, getLsbD_of_lt hframe.2 le_rfl] at hbit
    exact absurd hbit (by decide)
  have hmask : ∀ j : Fin 64, 12 ≤ j.val → j.val ≠ 63 → (~~~flagMask).getLsbD j.val = true := by decide
  exact hmask ⟨i, hi⟩ hlow hhigh

theorem isFrame_getPageFrame (x : Word) : IsFrame (getPageFrame x) := by
  have hflags : getPageFrame x &&& flagMask = 0 := and_not_and x flagMask
  constructor
  · have hlow : getPageFrame x &&& 0xFFF = 0 := by
      rw [show (0xFFF : Word) = flagMask &&& 0xFFF by decide, ← BitVec.and_assoc, hflags]
      exact zero_and
    have hnat := congrArg BitVec.toNat hlow
    exact (Nat.and_two_pow_sub_one_eq_mod (getPageFrame x).toNat 12).symm.trans hnat
  · have hhigh : (getPageFrame x).getLsbD 63 = false := by
      rw [getPageFrame, getLsbD_and, show (~~~flagMask).getLsbD 63 = false by decide, Bool.and_false]
    exact toNat_lt_of_msb_false ((msb_eq_getLsbD_last _).trans hhigh)

theorem getPageFlags_of_isFrame {x : Word} (hframe : IsFrame x) : getPageFlags x = 0 := by
  rw [← getPageFrame_of_isFrame hframe]
  exact and_not_and x flagMask

theorem getPageFrame_entry {f flags : Word} (hf : IsFrame f) (hflags : getPageFrame flags = 0) :
    getPageFrame (f ||| flags) = f := by
  rw [getPageFrame_or, getPageFrame_of_isFrame hf, hflags]
  exact or_zero

theorem getPageFlags_entry {f flags : Word} (hf : IsFrame f) (hflags : getPageFrame flags = 0) :
    getPageFlags (f ||| flags) = flags := by
  have hsplit := frame_or_flags flags
  rw [hflags] at hsplit
  rw [getPageFlags_or, getPageFlags_of_isFrame hf]
  exact hsplit

theorem v2p_p2v {x : Word} (hlow : x.toNat < 2 ^ 39) : v2p (p2v x) = x := by
  rw [v2p, p2v, or_and_not]
  apply and_eq_self
  intro i hi hbit
  have hlt : i < 39 := by
    by_contra hge
    rw [getLsbD_of_lt hlow (by omega)] at hbit
    exact absurd hbit (by decide)
  have hmask : ∀ j : Fin 39, (~~~physicalMemMapOffset).getLsbD j.val = true := by decide
  exact hmask ⟨i, hlt⟩

theorem p2v_injective {x y : Word} (hx : x.toNat < 2 ^ 39) (hy : y.toNat < 2 ^ 39) (heq : p2v x = p2v y) : x = y := by
  rw [← v2p_p2v hx, heq, v2p_p2v hy]

def pageNumber (va : Word) : BitVec 36 := (va >>> 12).setWidth 36

theorem pageNumber_alignDown (va : Word) : pageNumber (alignDown va pageSize) = pageNumber va := by
  apply eq_of_toNat_eq
  simp only [pageNumber, toNat_setWidth, toNat_ushiftRight, toNat_alignDown, toNat_pageSize]
  omega

def numberIndex (level : Nat) (n : BitVec 36) : BitVec 9 := n.extractLsb' (9 * level) 9

theorem pageIndex_eq_numberIndex (va : Word) (level : Nat) (hlevel : level < 4) :
    pageIndex (12 + 9 * level) va = numberIndex level (pageNumber va) := by
  apply eq_of_getLsbD_eq
  intro i hi
  have hmask : ∀ j : Fin 9, (0x1FF : Word).getLsbD j.val = true := by decide
  simp only [pageIndex, numberIndex, pageNumber, getLsbD_setWidth, getLsbD_and,
    getLsbD_ushiftRight, getLsbD_extractLsb', hmask ⟨i, hi⟩, Bool.and_true]
  rw [decide_eq_true (by omega : 9 * level + i < 36), add_assoc, Bool.true_and]

theorem pageNumber_ext {n n' : BitVec 36} (hindex : ∀ level < 4, numberIndex level n = numberIndex level n') :
    n = n' := by
  apply eq_of_getLsbD_eq
  intro i hi
  have hbit := congrArg (fun x => x.getLsbD (i % 9)) (hindex (i / 9) (by omega))
  simp only [numberIndex, getLsbD_extractLsb'] at hbit
  rwa [decide_eq_true (by omega : i % 9 < 9), Bool.true_and, Bool.true_and, Nat.div_add_mod] at hbit

end Kairax.Paging
