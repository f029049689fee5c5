import Kairax.Mem.Pmm

/-!
# The kernel heap

`mem/kheap.c`: one doubly linked list of blocks, each a 32-byte header in front of its payload. The headers are in the
64-bit words of the heap's own memory, so two headers that overlap do overlap. An access outside the mapped part, or
not at a multiple of eight, is `none`; so is a signed overflow, and a walk that never ends. `grant` says whether the
`i`-th page of `kheap_expand` is obtained. A page is never obtained beyond the frames the page allocator can describe,
since the heap keeps every frame it gets.
-/

namespace Kairax.Kheap

open Pmm (maxPages)

/-- `KHEAP_MAP_OFFSET`. -/
def kheapMapOffset : Word := 0xffffc90000000000

/-- `KHEAP_INIT_SIZE`. -/
def kheapInitSize : Word := 8192000

/-- `sizeof(kheap_item_t)`. -/
def headerSize : Word := 32

inductive Field
  | next
  | prev
  | size
  /-- The word with the one-bit field `free`. -/
  | free
  deriving DecidableEq

def Field.offset : Field → Word
  | .next => 0
  | .prev => 8
  | .size => 16
  | .free => 24

/-- `kheap_t`, and the memory the heap lives in, by the address of each 64-bit word. -/
structure Heap where
  startVaddr : Word
  endVaddr : Word
  head : Word
  tail : Word
  mem : Word → Word

def Heap.Mapped (h : Heap) (a : Word) : Prop :=
  h.startVaddr.toNat ≤ a.toNat ∧ a.toNat + 8 ≤ h.endVaddr.toNat ∧ a.toNat % 8 = 0

instance (h : Heap) (a : Word) : Decidable (h.Mapped a) :=
  inferInstanceAs (Decidable (_ ∧ _ ∧ _))

def setField (mem : Word → Word) (item : Word) (f : Field) (v : Word) : Word → Word :=
  Function.update mem (item + f.offset) v

def Heap.read (h : Heap) (item : Word) (f : Field) : Option Word :=
  if h.Mapped (item + f.offset) then some (h.mem (item + f.offset)) else none

def Heap.write (h : Heap) (item : Word) (f : Field) (v : Word) : Option Heap :=
  if h.Mapped (item + f.offset) then some { h with mem := setField h.mem item f v } else none

def Heap.isFree (h : Heap) (item : Word) : Option Bool :=
  (h.read item .free).map fun w => w.getLsbD 0

/-- The word of the bit field with `free` replaced and `reserved` kept. -/
def withFree (w : Word) (free : Bool) : Word := if free then w ||| 1#64 else w &&& ~~~1#64

def Heap.setFree (h : Heap) (item : Word) (free : Bool) : Option Heap := do
  let w ← h.read item .free
  h.write item .free (withFree w free)

/-- `memset` of one page to zero. -/
def zeroPage (mem : Word → Word) (page : Word) : Word → Word :=
  fun a => if page.toNat ≤ a.toNat ∧ a.toNat < page.toNat + 4096 then 0 else mem a

/-- A frame for the next page of the heap: granted, and not beyond what the page allocator has. -/
def Heap.obtains (h : Heap) (grant : Nat → Bool) (i : Nat) : Bool :=
  grant i && decide ((h.endVaddr.toNat - h.startVaddr.toNat) / 4096 < maxPages)

/-- The loop of `kheap_expand` from page `i`, with `left` pages to go, and whether every page was obtained. -/
def expandLoop (grant : Nat → Bool) : (left i : Nat) → Heap → Bool × Heap
  | 0, _, h => (true, h)
  | left + 1, i, h =>
    if h.obtains grant i then
      expandLoop grant left (i + 1)
        { h with mem := zeroPage h.mem h.endVaddr, endVaddr := h.endVaddr + pageSize }
    else (false, h)

/-- The `int` that counts the pages of an expansion. -/
def pagesCount (size : Word) : Int := ((align size pageSize / pageSize).setWidth 32).toInt

def kheapExpand (h : Heap) (grant : Nat → Bool) (size : Word) : Option (Word × Heap) :=
  match expandLoop grant (pagesCount size).toNat 0 h with
  | (false, h) => some (0, h)
  | (true, h) =>
    if -2 ^ 31 ≤ pagesCount size * 4096 ∧ pagesCount size * 4096 < 2 ^ 31 then
      some (BitVec.ofInt 64 (pagesCount size * 4096), h)
    else none

/-- `kheap` before its first expansion. -/
def unmappedHeap (mem : Word → Word) (startVaddr : Word) : Heap :=
  { startVaddr, endVaddr := startVaddr, head := null, tail := null, mem }

/-- `kheap_init`, `none` where it returns `0`. -/
def kheapInit (mem : Word → Word) (grant : Nat → Bool) (startVaddr : Word) : Option Heap := do
  let (rc, h) ← kheapExpand (unmappedHeap mem startVaddr) grant kheapInitSize
  if rc = 0 then none
  else
    let h := { h with head := h.startVaddr }
    let h ← h.setFree h.head true
    let h ← h.write h.head .next null
    let h ← h.write h.head .prev null
    let h ← h.write h.head .size (kheapInitSize - headerSize)
    some { h with tail := h.head }

/-- More steps than there are places for a header: a longer walk is in a cycle. -/
def Heap.fuel (h : Heap) : Nat := (h.endVaddr.toNat - h.startVaddr.toNat) / 8 + 1

/-- The loop of `get_suitable_item`, `null` when the list has no suitable item. -/
def firstSuitable (h : Heap) (size : Word) : (fuel : Nat) → (item : Word) → Option Word
  | 0, item => if item = null then some null else none
  | fuel + 1, item =>
    if item = null then some null
    else do
      let free ← h.isFree item
      let itemSize ← h.read item .size
      if free ∧ itemSize ≥ size then some item
      else
        let next ← h.read item .next
        firstSuitable h size fuel next

def getSuitableItem (h : Heap) (grant : Nat → Bool) (size : Word) : Option (Word × Heap) := do
  let item ← firstSuitable h size h.fuel h.head
  if item ≠ null then some (item, h)
  else
    let (allocated, h) ← kheapExpand h grant size
    if allocated = 0 then some (null, h)
    else
      let tailSize ← h.read h.tail .size
      let h ← h.write h.tail .size (tailSize + allocated)
      some (h.tail, h)

/-- The branch of `kmalloc` that cuts the rest of a block off as a new free block. -/
def splitItem (h : Heap) (current size totalSize : Word) : Option Heap := do
  let newItem := current + headerSize + size
  let h ← h.setFree newItem true
  let currentSize ← h.read current .size
  let h ← h.write newItem .size (currentSize - totalSize)
  let h ← h.write newItem .prev current
  let next ← h.read current .next
  let h ← h.write newItem .next next
  let newNext ← h.read newItem .next
  let h ← if newNext ≠ null then h.write newNext .prev newItem else some h
  let h := if current = h.tail then { h with tail := newItem } else h
  let h ← h.write current .next newItem
  h.write current .size size

/-- The rest of `kmalloc`, once it has an item. -/
def takeItem (h : Heap) (current size totalSize : Word) : Option (Word × Heap) := do
  let currentSize ← h.read current .size
  let h ← if currentSize > totalSize + 8 then splitItem h current size totalSize else some h
  let h ← h.setFree current false
  some (current + headerSize, h)

def kmalloc (h : Heap) (grant : Nat → Bool) (size : Word) : Option (Word × Heap) := do
  let size := align size 8
  let totalSize := size + headerSize
  let (current, h) ← getSuitableItem h grant totalSize
  if current = null then some (null, h) else takeItem h current size totalSize

def combineForward (h : Heap) (item : Word) : Option Heap :=
  if item = null then some h
  else do
    let free ← h.isFree item
    if free = false then some h
    else
      let nextItem ← h.read item .next
      if nextItem = null then some h
      else
        let nextFree ← h.isFree nextItem
        if nextFree = false then some h
        else
          let nextNext ← h.read nextItem .next
          let h ← if nextNext ≠ null then h.write nextNext .prev item else some h
          let h := if nextItem = h.tail then { h with tail := item } else h
          let h ← h.write item .next nextNext
          let itemSize ← h.read item .size
          let nextSize ← h.read nextItem .size
          h.write item .size (itemSize + (nextSize + headerSize))

def kfree (h : Heap) (mem : Word) : Option Heap :=
  if mem < kheapMapOffset then some h
  else do
    let item := mem - headerSize
    let free ← h.isFree item
    if free then some h
    else
      let h ← h.setFree item true
      let h ← combineForward h item
      let prev ← h.read item .prev
      combineForward h prev

structure Block where
  addr : Word
  size : Word
  free : Bool
  deriving DecidableEq, Repr

/-- Follow `next` from an item to the end of the list. -/
def walk (h : Heap) : (fuel : Nat) → (item : Word) → Option (List Block)
  | 0, item => if item = null then some [] else none
  | fuel + 1, item =>
    if item = null then some []
    else do
      let size ← h.read item .size
      let free ← h.isFree item
      let next ← h.read item .next
      let rest ← walk h fuel next
      some ({ addr := item, size, free } :: rest)

/-- The blocks reached from `head` by `next`. -/
def Heap.blocks (h : Heap) : Option (List Block) := walk h h.fuel h.head

end Kairax.Kheap
