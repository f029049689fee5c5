import Kairax.Word
import Mathlib.Logic.Function.Basic

/-!
# The physical page allocator

`mem/pmm.c`: one bit per 4 KiB page, 64 pages to a word of `bitmap`, and a counter of the pages in use. Accesses past
the last word are `none`; the source can reach one in the reservation of a region above the bitmap and in the
word-skipping loop of `findFreePages`.
-/

namespace Kairax.Pmm

open Function

/-- `MAX_BITMASK_DATA`, the number of words of the bitmap. -/
def maxBitmaskData : Nat := 657356

def maxPages : Nat := maxBitmaskData * 64

abbrev Bitmap := Nat → Word

def fullWord : Word := 0xFFFFFFFFFFFFFFFF

structure State where
  bitmap : Bitmap
  pagesUsed : Word

def setBit (bm : Bitmap) (bit : Nat) : Bitmap :=
  update bm (bit / 64) (bm (bit / 64) ||| 1#64 <<< (bit % 64))

def unsetBit (bm : Bitmap) (bit : Nat) : Bitmap :=
  update bm (bit / 64) (bm (bit / 64) &&& ~~~(1#64 <<< (bit % 64)))

def used (bm : Bitmap) (page : Nat) : Bool := (bm (page / 64)).getLsbD (page % 64)

/-- The first loop of `find_free_page`: the first word from `i` on that is not full, among the next
`left` words. -/
def skipFull (bm : Bitmap) : (left : Nat) → (i : Nat) → Option Nat
  | 0, _ => none
  | left + 1, i => if bm i = fullWord then skipFull bm left (i + 1) else some i

/-- The second loop of `find_free_page`: shift out set bits, counting them. -/
def countSet : (left : Nat) → (bits : Word) → (bitpos : Nat) → Nat
  | 0, _, bitpos => bitpos
  | left + 1, bits, bitpos =>
    if bits &&& 1#64 ≠ 0 then countSet left (bits >>> 1) (bitpos + 1) else bitpos

def findFreePage (bm : Bitmap) : Nat :=
  match skipFull bm maxBitmaskData 0 with
  | none => 0
  | some i => i * 64 + countSet 64 (bm i) 0

inductive WordScan
  /-- The run counter reached the request at this bit. -/
  | found (bitpos : Nat)
  /-- The word ended with the run counter at this value. -/
  | next (nfound : Nat)
  deriving DecidableEq

/-- The `for` loop of `find_free_pages` over the bits of one word. The source shifts `bits` only in the branch of a used
page, so the first free page decides every later bit. -/
def scanWord (pages : Int) : (left : Nat) → (bitpos : Nat) → (bits : Word) → (nfound : Nat) → WordScan
  | 0, _, _, nfound => .next nfound
  | left + 1, bitpos, bits, nfound =>
    if bits &&& 1#64 ≠ 0 then scanWord pages left (bitpos + 1) (bits >>> 1) 0
    else if pages = nfound + 1 then .found bitpos
    else scanWord pages left (bitpos + 1) bits (nfound + 1)

/-- The outer loop of `find_free_pages` from word `i`. The loop that skips full words has no bound and leaves the run
counter as it is; after the last word the next read is past the bitmap. -/
def findFreePagesFrom (bm : Bitmap) (pages : Int) : (left : Nat) → (i : Nat) → (nfound : Nat) → Option Nat
  | 0, _, _ => some 0
  | left + 1, i, nfound =>
    if bm i = fullWord then
      if left = 0 then none else findFreePagesFrom bm pages left (i + 1) nfound
    else
      match scanWord pages 64 0 (bm i) nfound with
      | .found bitpos => some (i * 64 + bitpos + 1 - pages.toNat)
      | .next nfound' => findFreePagesFrom bm pages left (i + 1) nfound'

def findFreePages (bm : Bitmap) (pages : BitVec 32) : Option Nat :=
  findFreePagesFrom bm pages.toInt maxBitmaskData 0 0

def pageOf (addr : Word) : Nat := (addr / pageSize).toNat

def addrOf (page : Nat) : Word := BitVec.ofNat 64 page * pageSize

def pmmAllocPage (p : State) : Word × State :=
  let i := findFreePage p.bitmap
  if i = 0 then (null, p)
  else (addrOf i, { bitmap := setBit p.bitmap i, pagesUsed := p.pagesUsed + 1 })

/-- `set_bit` on the pages `i`, …, `i + pages - 1`. -/
def setBits (bm : Bitmap) (i : Nat) : (pages : Nat) → Bitmap
  | 0 => bm
  | pages + 1 => setBit (setBits bm i pages) (i + pages)

/-- `unset_bit` on the pages `i`, …, `i + pages - 1`. -/
def unsetBits (bm : Bitmap) (i : Nat) : (pages : Nat) → Bitmap
  | 0 => bm
  | pages + 1 => unsetBit (unsetBits bm i pages) (i + pages)

def pmmAllocPages (p : State) (pages : BitVec 32) : Option (Word × State) :=
  (findFreePages p.bitmap pages).map fun i =>
    if i = 0 then (null, p)
    else (addrOf i, { bitmap := setBits p.bitmap i pages.toNat, pagesUsed := p.pagesUsed + pages.setWidth 64 })

def pmmFreePage (p : State) (addr : Word) : State :=
  { bitmap := unsetBit p.bitmap (pageOf addr), pagesUsed := p.pagesUsed - 1 }

def pmmFreePages (p : State) (addr : Word) (pages : BitVec 32) : State :=
  { bitmap := unsetBits p.bitmap (pageOf addr) pages.toNat, pagesUsed := p.pagesUsed - pages.setWidth 64 }

/-- Reserve a region. Setting a bit past the last word of the bitmap is undefined. -/
def pmmSetMemRegion (p : State) (offset size : Word) (markAsUsed : Bool) : Option State :=
  let offset := offset - offset % pageSize
  let size := align size pageSize
  if maxPages < pageOf offset + pageOf size then none
  else some {
    bitmap := setBits p.bitmap (pageOf offset) (pageOf size),
    pagesUsed := if markAsUsed then p.pagesUsed + size / pageSize else p.pagesUsed }

def initPmm : State := { bitmap := fun _ => 0, pagesUsed := 0 }

@[simp] theorem used_zero (page : Nat) : used (fun _ => 0) page = false := by
  simp [used]

theorem getLsbD_bit {bit page : Nat} (hword : page / 64 = bit / 64) :
    (1#64 <<< (bit % 64)).getLsbD (page % 64) = decide (page = bit) := by
  have hlt : page % 64 < 64 := Nat.mod_lt _ (by decide)
  rw [BitVec.getLsbD_shiftLeft, BitVec.getLsbD_one, Bool.eq_iff_iff]
  simp only [Bool.and_eq_true, Bool.not_eq_true', decide_eq_true_eq,
    decide_eq_false_iff_not]
  omega

variable (bm : Bitmap)

theorem used_setBit (bit page : Nat) :
    used (setBit bm bit) page = (decide (page = bit) || used bm page) := by
  by_cases hword : page / 64 = bit / 64
  · rw [used, used, setBit, hword, update_self, BitVec.getLsbD_or, getLsbD_bit hword, Bool.or_comm]
  · have hne : page ≠ bit := fun h => hword (by rw [h])
    simp [used, setBit, update_of_ne hword, hne]

theorem used_unsetBit (bit page : Nat) :
    used (unsetBit bm bit) page = (!decide (page = bit) && used bm page) := by
  by_cases hword : page / 64 = bit / 64
  · have hlt : page % 64 < 64 := Nat.mod_lt _ (by decide)
    rw [used, used, unsetBit, hword, update_self, BitVec.getLsbD_and, BitVec.getLsbD_not, getLsbD_bit hword,
      decide_eq_true hlt, Bool.true_and, Bool.and_comm]
  · have hne : page ≠ bit := fun h => hword (by rw [h])
    simp [used, unsetBit, update_of_ne hword, hne]

theorem used_setBits (i pages page : Nat) :
    used (setBits bm i pages) page = (decide (i ≤ page ∧ page < i + pages) || used bm page) := by
  induction pages with
  | zero => simp [setBits]
  | succ pages ih =>
    rw [setBits, used_setBit, ih, ← Bool.or_assoc]
    congr 1
    rw [← Bool.decide_or]
    congr 1
    apply propext
    omega

theorem used_unsetBits (i pages page : Nat) :
    used (unsetBits bm i pages) page = (!decide (i ≤ page ∧ page < i + pages) && used bm page) := by
  induction pages with
  | zero =>
    have hnone : ¬ (i ≤ page ∧ page < i + 0) := by omega
    rw [unsetBits, decide_eq_false hnone, Bool.not_false, Bool.true_and]
  | succ pages ih =>
    rw [unsetBits, used_unsetBit, ih, ← Bool.and_assoc]
    congr 1
    rw [← Bool.not_or, ← Bool.decide_or]
    congr 2
    apply propext
    omega

theorem pageOf_addrOf {page : Nat} (hpage : page < maxPages) : pageOf (addrOf page) = page := by
  have hlt : page < 42070784 := hpage
  simp only [pageOf, addrOf, BitVec.toNat_udiv, BitVec.toNat_mul, BitVec.toNat_ofNat, toNat_pageSize]
  omega

end Kairax.Pmm
