import Kairax.Mem.KheapInv

/-!
# What the heap operations do to the list of blocks

The operations on lists of blocks, and for each function of the source that it is defined under the
invariant, performs its operation on the list and keeps the invariant.
-/

namespace Kairax.Kheap

open Lib List Option BitVec

def Block.payload (b : Block) : Word := b.addr + headerSize

/-- The test of `get_suitable_item`. -/
def Block.suits (size : Word) (b : Block) : Bool := b.free && decide (size ≤ b.size)

/-- What becomes of a block when `size` bytes of it are taken. -/
def carve (b : Block) (size : Word) : List Block :=
  if b.size > size + headerSize + 8 then
    [{ addr := b.addr, size, free := false },
      { addr := b.addr + headerSize + size, size := b.size - (size + headerSize), free := true }]
  else [{ b with free := false }]

def joinForward (b : Block) : List Block → List Block
  | [] => [b]
  | c :: post =>
    if b.free && c.free then { b with size := b.size + (c.size + headerSize) } :: post
    else b :: c :: post

/-- The last block of a list absorbs the first block of another, if both are free. -/
def coalesce : List Block → List Block → List Block
  | [], post => post
  | [a], post => joinForward a post
  | a :: a' :: pre, post => a :: coalesce (a' :: pre) post

theorem coalesce_append_singleton (pre : List Block) (a : Block) (post : List Block) :
    coalesce (pre ++ [a]) post = pre ++ joinForward a post := by
  induction pre with
  | nil => rfl
  | cons b pre ih => cases pre <;> simp_all [coalesce]

variable {n p size : Word} {mem : Word → Word}

section Mem

variable {mem : Word → Word} {b c : Block} {prev next : Word}

/-- The memory with a whole header written, in the order of the source. -/
def putHeader (mem : Word → Word) (b : Block) (prev next : Word) : Word → Word :=
  let mem := setField mem b.addr .free (withFree (mem (b.addr + Field.free.offset)) b.free)
  setField (setField (setField mem b.addr .size b.size) b.addr .prev prev) b.addr .next next

/-- The memory with the `prev` link of an item set, if there is such an item. -/
def setPrevOf (mem : Word → Word) (item prev : Word) : Word → Word :=
  if item ≠ null then setField mem item .prev prev else mem

theorem holds_putHeader : Holds (putHeader mem b prev next) b prev next :=
  (((holds_self mem b.addr).setFree _ b.free).setSize b.size).setPrev prev |>.setNext next

theorem Holds.putHeader_apart (hholds : Holds mem c p n) (hapart : Apart b.addr c.addr) (hb : Fits b.addr)
    (hc : Fits c.addr) : Holds (putHeader mem b prev next) c p n :=
  (((hholds.setField_apart hapart hb hc).setField_apart hapart hb hc).setField_apart hapart hb
    hc).setField_apart hapart hb hc

theorem Holds.setPrevOf_apart {item v : Word} (hholds : Holds mem c p n)
    (hitem : item ≠ null → Apart item c.addr ∧ Fits item) (hc : Fits c.addr) : Holds (setPrevOf mem item v) c p n := by
  rw [setPrevOf]
  split
  · rename_i hne
    exact hholds.setField_apart (hitem hne).1 (hitem hne).2 hc
  · exact hholds

/-- The memory after the last three writes of a split and of a join. -/
def linkMem (mem : Word → Word) (behind last item next size : Word) : Word → Word :=
  setField (setField (setPrevOf mem behind last) item .next next) item .size size

variable {behind last item size : Word}

theorem Holds.linkMem_apart (hholds : Holds mem c p n) (hbehind : behind ≠ null → Apart behind c.addr ∧ Fits behind)
    (hapart : Apart item c.addr) (hitem : Fits item) (hc : Fits c.addr) :
    Holds (linkMem mem behind last item next size) c p n :=
  ((hholds.setPrevOf_apart hbehind hc).setField_apart hapart hitem hc).setField_apart hapart hitem hc

theorem Holds.linkMem_item (hholds : Holds mem b prev n) (hbehind : behind ≠ null → Apart behind b.addr ∧ Fits behind)
    (hb : Fits b.addr) : Holds (linkMem mem behind last b.addr next size) { b with size } prev next :=
  ((hholds.setPrevOf_apart hbehind hb).setNext next).setSize size

theorem Holds.linkMem_behind (hholds : Holds mem c prev n) (hnull : c.addr ≠ null) (hapart : Apart item c.addr)
    (hitem : Fits item) (hc : Fits c.addr) : Holds (linkMem mem c.addr last item next size) c last n := by
  rw [linkMem, setPrevOf, if_pos hnull]
  exact ((hholds.setPrev last).setField_apart hapart hitem hc).setField_apart hapart hitem hc

end Mem

namespace HeapInv

variable {h : Heap} {blocks pre post : List Block} {a b c : Block}

section

variable (hinv : HeapInv h (pre ++ b :: post))
include hinv

theorem apart_pre (ha : a ∈ pre) : Apart b.addr a.addr := by
  have := hinv.sides.1 a ha
  exact Or.inr (by omega)

theorem apart_post (hc : c ∈ post) : Apart b.addr c.addr := by
  have := hinv.sides.2 c hc
  exact Or.inl (by omega)

theorem rewrite {b' : Block} (haddr : b'.addr = b.addr) (haligned : b'.size.toNat % 8 = 0)
    (hholds : Holds mem b' (lastOr Block.addr null pre) (headOr Block.addr null post))
    (hframe : ∀ c : Block, Apart b.addr c.addr → Fits c.addr → ∀ p n, Holds h.mem c p n → Holds mem c p n)
    (htiles : ∃ top, Covered kheapMapOffset.toNat top (pre ++ b' :: post) ∧ top ≤ h.endVaddr.toNat) :
    HeapInv { h with mem } (pre ++ b' :: post) := by
  have hchain := (chain_append.mp hinv.chain).2.2
  refine replace [b] [b'] hinv (by simp) (by simp [headOr, haddr]) ?_ ⟨hholds, trivial⟩
    ?_ htiles ?_ ?_
  · intro a ha
    exact hframe a (hinv.apart_pre ha) (hinv.fits (by simp [ha]))
  · rw [lastOr, lastOr, haddr]
    exact hchain.frame fun c hc => hframe c (hinv.apart_post hc) (hinv.fits (by simp [hc]))
  · intro c hc
    obtain rfl := mem_singleton.mp hc
    exact ⟨by rw [haddr]; exact (hinv.aligned b (by simp)).1, haligned⟩
  · rw [hinv.tail]
    simp [lastOr, haddr]

theorem setFree (free : Bool) :
    ∃ h', h.setFree b.addr free = some h' ∧ HeapInv h' (pre ++ { b with free } :: post) := by
  refine ⟨_, setFree_of_covers (hinv.covers (by simp)) free, ?_⟩
  have hb := hinv.fits (b := b) (by simp)
  obtain ⟨top, htiles, htop⟩ := hinv.tiles
  exact hinv.rewrite rfl (hinv.aligned b (by simp)).2 (hinv.holds.setFree _ free)
    (fun c hapart hc p n hholds => hholds.setField_apart hapart hb hc)
    ⟨top, htiles.exchange [b] [{ b with free }] fun lo mid hmid => hmid, htop⟩

end

end HeapInv

section Split

variable {h : Heap} {b c rest : Block} {prev next : Word}

theorem splitItem_eq (hb : Covers h.startVaddr h.endVaddr b.addr) (hrest : Covers h.startVaddr h.endVaddr rest.addr)
    (hnext : next ≠ null → Covers h.startVaddr h.endVaddr next) (hholds : Holds h.mem b prev next)
    (hapart : Apart rest.addr b.addr) (haddr : rest.addr = b.addr + headerSize + size)
    (hsize : rest.size = b.size - (size + headerSize)) (hfree : rest.free = true) :
    splitItem h b.addr size (size + headerSize) = some { h with
      tail := if b.addr = h.tail then rest.addr else h.tail
      mem := linkMem (putHeader h.mem rest b.addr next) next rest.addr b.addr rest.addr size } := by
  have hkeep (m : Word → Word) (f : Field) (v : Word) (g : Field) :
      setField m rest.addr f v (b.addr + g.offset) = m (b.addr + g.offset) :=
    setField_apart hapart hrest.fits hb.fits
  rw [splitItem, ← haddr]
  simp only [setFree_of_covers, read_of_covers, write_of_covers, hb, hrest, bind_eq_bind,
    bind_some, setField_same, hkeep, hholds.next_eq, hholds.size_eq]
  by_cases hnull : next = null
  · rw [if_neg (not_not.mpr hnull), linkMem, setPrevOf, if_neg (not_not.mpr hnull)]
    split <;> simp only [write_of_covers, hb, bind_some, putHeader, hsize, hfree]
  · rw [linkMem, setPrevOf, if_pos hnull]
    simp only [write_of_covers, hnext hnull, bind_some]
    split <;> simp only [write_of_covers, hb, bind_some, putHeader, hsize, hfree]

theorem combineForward_eq (hb : Covers h.startVaddr h.endVaddr b.addr)
    (hc : Covers h.startVaddr h.endVaddr c.addr) (hbNull : b.addr ≠ null) (hcNull : c.addr ≠ null)
    (hnext : next ≠ null → Covers h.startVaddr h.endVaddr next ∧ Apart next b.addr ∧ Apart next c.addr)
    (hholds : Holds h.mem b prev c.addr) (hholds' : Holds h.mem c b.addr next)
    (hapart : Apart b.addr c.addr) (hfree : b.free = true) (hfree' : c.free = true) :
    combineForward h b.addr = some { h with
      tail := if c.addr = h.tail then b.addr else h.tail
      mem := linkMem h.mem next b.addr b.addr next (b.size + (c.size + headerSize)) } := by
  have hrelinked (d : Block) (hd : next ≠ null → Apart next d.addr) (hfits : Fits d.addr) {p n : Word}
      (hholds : Holds h.mem d p n) : Holds (setPrevOf h.mem next b.addr) d p n :=
    hholds.setPrevOf_apart (fun hnull => ⟨hd hnull, (hnext hnull).1.fits⟩) hfits
  have hsize := ((hrelinked b (fun hnull => (hnext hnull).2.1) hb.fits hholds).setNext next).size_eq
  have hsize' := ((hrelinked c (fun hnull => (hnext hnull).2.2) hc.fits hholds').setField_apart
    (f := .next) (v := next) hapart hb.fits hc.fits).size_eq
  rw [combineForward, if_neg hbNull]
  simp only [isFree_of_covers, read_of_covers, hb, hc, hholds.free_eq, hholds.next_eq, hholds'.free_eq,
    hholds'.next_eq, hfree, hfree', hcNull, bind_eq_bind, bind_some, reduceCtorEq, if_false]
  by_cases hnull : next = null
  · rw [setPrevOf, if_neg (not_not.mpr hnull)] at hsize hsize'
    rw [if_neg (not_not.mpr hnull), linkMem, setPrevOf, if_neg (not_not.mpr hnull)]
    split <;> simp only [read_of_covers, write_of_covers, hb, hc, bind_some, hsize, hsize']
  · rw [setPrevOf, if_pos hnull] at hsize hsize'
    rw [linkMem, setPrevOf, if_pos hnull]
    simp only [write_of_covers, (hnext hnull).1, bind_some]
    split <;> simp only [read_of_covers, write_of_covers, hb, hc, bind_some, hsize, hsize']

end Split

namespace HeapInv

variable {h : Heap} {pre post : List Block} {b c : Block}

theorem next_of_ne_null (hinv : HeapInv h (pre ++ post)) (hnull : headOr Block.addr null post ≠ null) :
    Covers h.startVaddr h.endVaddr (headOr Block.addr null post) ∧
      (∀ a ∈ pre, Apart (headOr Block.addr null post) a.addr) ∧
      ∀ d ∈ post.tail, Apart (headOr Block.addr null post) d.addr := by
  cases post with
  | nil => exact absurd rfl hnull
  | cons c post =>
    exact ⟨hinv.covers (by simp), fun a ha => hinv.apart_pre ha, fun d hd => hinv.apart_post hd⟩

theorem relink (olds news : List Block) (hinv : HeapInv h (pre ++ (b :: olds ++ post)))
    (hkeep : ∀ d, d ∈ pre ∨ d ∈ post → ∀ p n, Holds h.mem d p n → Holds mem d p n)
    (hfirst : Holds mem b (lastOr Block.addr null pre) n)
    (hnews : Chain Block.addr Holds mem b.addr news (headOr Block.addr null post))
    (hapart : ∀ r ∈ news, Fits r.addr ∧ Apart b.addr r.addr ∧ ∀ d ∈ post, Apart d.addr r.addr)
    (hsame : ∀ lo mid, Covered lo mid (b :: olds) → Covered lo mid ({ b with size } :: news))
    (haligned : ∀ r ∈ ({ b with size } :: news : List Block), r.addr.toNat % 8 = 0 ∧ r.size.toNat % 8 = 0) :
    HeapInv { h with
      tail := lastOr Block.addr null (pre ++ ({ b with size } :: news ++ post))
      mem := linkMem mem (headOr Block.addr null post) (lastOr Block.addr b.addr news) b.addr
        (headOr Block.addr (headOr Block.addr null post) news) size }
      (pre ++ ({ b with size } :: news ++ post)) := by
  have hb : Fits b.addr := hinv.fits (by simp)
  have hinv' : HeapInv h ((pre ++ b :: olds) ++ post) := by rwa [List.append_assoc]
  have hnext := hinv'.next_of_ne_null
  obtain ⟨top, htiles, htop⟩ := hinv.tiles
  refine hinv.replace _ _ (by simp) rfl ?_ ⟨hfirst.linkMem_item ?_ hb, hnews.frame ?_⟩ ?_
    ⟨top, htiles.exchange _ _ hsame, htop⟩ haligned rfl
  · intro a ha p n hholds
    exact (hkeep a (.inl ha) p n hholds).linkMem_apart
      (fun hnull => ⟨(hnext hnull).2.1 a (by simp [ha]), (hnext hnull).1.fits⟩) (hinv.apart_pre ha) hb
      (hinv.fits (by simp [ha]))
  · exact fun hnull => ⟨(hnext hnull).2.1 b (by simp), (hnext hnull).1.fits⟩
  · intro r hr p n hholds
    obtain ⟨hfits, hbr, hpost⟩ := hapart r hr
    refine hholds.linkMem_apart (fun hnull => ⟨?_, (hnext hnull).1.fits⟩) hbr hb hfits
    cases post with
    | nil => exact absurd rfl hnull
    | cons c post => exact hpost c (by simp)
  · have hchain := (chain_append.mp hinv'.chain).2
    refine hchain.relink ?_ ?_
    · rintro c rest rfl n hholds
      exact (hkeep c (.inr (by simp)) _ _ hholds).linkMem_behind (hinv.addr_ne_null (by simp))
        (hinv.apart_post (by simp)) hb (hinv.fits (by simp))
    · intro d hd p n hholds
      have hmem := mem_of_mem_tail hd
      exact (hkeep d (.inr hmem) p n hholds).linkMem_apart
        (fun hnull => ⟨(hnext hnull).2.2 d hd, (hnext hnull).1.fits⟩) (hinv.apart_post (by simp [hmem])) hb
        (hinv.fits (by simp [hmem]))

variable (hinv : HeapInv h (pre ++ b :: post))

include hinv

theorem tail_update (last : Word) : (if b.addr = h.tail then last else h.tail) = lastOr Block.addr last post := by
  have htail : h.tail = lastOr Block.addr b.addr post := by rw [hinv.tail, lastOr_append, lastOr]
  rcases eq_nil_or_concat post with rfl | ⟨init, c, rfl⟩
  · exact if_pos htail.symm
  · rw [concat_eq_append, lastOr_append, lastOr, lastOr] at htail ⊢
    rw [htail, if_neg]
    intro heq
    have hsides := hinv.sides.2 c (by simp)
    rw [heq] at hsides
    omega

theorem splitItem {rest : Block} (hsize : size.toNat % 8 = 0) (hroom : size.toNat + 32 ≤ b.size.toNat)
    (hrest : rest = { addr := b.addr + headerSize + size, size := b.size - (size + headerSize), free := true }) :
    ∃ h', Kheap.splitItem h b.addr size (size + headerSize) = some h' ∧
      HeapInv h' (pre ++ { b with size } :: rest :: post) := by
  have hb := hinv.covers (b := b) (by simp)
  have hbounds := hinv.bounds (b := b) (by simp)
  have haligned := hinv.aligned b (by simp)
  have hrestAddr : rest.addr.toNat = b.addr.toNat + 32 + size.toNat := by
    rw [hrest]
    simp only [headerSize, toNat_add, reduceToNat]
    omega
  have hrestSize : rest.size.toNat = b.size.toNat - (size.toNat + 32) := by
    rw [hrest]
    simp only [headerSize, toNat_sub, toNat_add, reduceToNat]
    omega
  have hcovers : Covers h.startVaddr h.endVaddr rest.addr := ⟨by have := hb.1; omega, by omega, by omega⟩
  have hbRest : Apart b.addr rest.addr := Or.inl (by omega)
  have hothers (d : Block) (hd : d ∈ pre ∨ d ∈ post) : Apart rest.addr d.addr := by
    rcases hd with hd | hd
    · have := hinv.sides.1 d hd
      exact Or.inr (by omega)
    · have := hinv.sides.2 d hd
      exact Or.inl (by omega)
  have hinv' : HeapInv h ((pre ++ [b]) ++ post) := by rwa [List.append_assoc]
  refine ⟨_, splitItem_eq hb hcovers (fun hnull => (hinv'.next_of_ne_null hnull).1) hinv.holds hbRest.symm
    (by rw [hrest]) (by rw [hrest]) (by rw [hrest]), ?_⟩
  have htail : (if b.addr = h.tail then rest.addr else h.tail) =
      lastOr Block.addr null (pre ++ ({ b with size } :: [rest] ++ post)) := by
    simp [hinv.tail_update, lastOr]
  rw [htail]
  refine hinv.relink [] [rest] ?_ (hinv.holds.putHeader_apart hbRest.symm hcovers.fits
    hb.fits) ⟨holds_putHeader, trivial⟩ ?_ ?_ ?_
  · intro d hd p n hholds
    exact hholds.putHeader_apart (hothers d hd) hcovers.fits (hinv.fits (by rcases hd with hd | hd <;> simp [hd]))
  · intro r hr
    obtain rfl := mem_singleton.mp hr
    exact ⟨hcovers.fits, hbRest, fun d hd => (hothers d (.inr hd)).symm⟩
  · rintro lo mid ⟨hlo, hmid⟩
    simp only [Block.span, Tiles] at hlo hmid ⊢
    omega
  · intro r hr
    simp only [mem_cons, not_mem_nil, or_false] at hr
    rcases hr with rfl | rfl
    · exact ⟨haligned.1, hsize⟩
    · omega

omit hinv

theorem toNat_join (hinv : HeapInv h (pre ++ b :: c :: post)) :
    (b.size + (c.size + headerSize)).toNat = b.size.toNat + c.size.toNat + 32 := by
  have hbounds := hinv.bounds (b := c) (by simp)
  have hsides := hinv.sides.2 c (by simp)
  simp only [headerSize, toNat_add, reduceToNat]
  omega

include hinv

theorem span_joinForward : ((joinForward b post).map Block.span).sum = ((b :: post).map Block.span).sum := by
  cases post with
  | nil => rfl
  | cons c post =>
    rw [joinForward]
    split
    · simp only [map_cons, sum_cons, Block.span, hinv.toNat_join]
      omega
    · rfl

theorem combineForward : ∃ h', Kheap.combineForward h b.addr = some h' ∧ HeapInv h' (pre ++ joinForward b post) := by
  have hb := hinv.covers (b := b) (by simp)
  have hbNull := hinv.addr_ne_null (b := b) (by simp)
  obtain ⟨hnext, -, -, hfree⟩ := hinv.reads
  cases post with
  | nil =>
    refine ⟨h, ?_, hinv⟩
    rw [Kheap.combineForward, hfree, hnext]
    simp [headOr]
  | cons c post =>
    have hinv' : HeapInv h ((pre ++ [b]) ++ c :: post) := by rwa [List.append_assoc]
    have hcNull := hinv'.addr_ne_null (b := c) (by simp)
    have hfree' := hinv'.reads.2.2.2
    by_cases hboth : b.free = true ∧ c.free = true
    · obtain ⟨hbFree, hcFree⟩ := hboth
      have hbAligned := hinv.aligned b (by simp)
      have hcAligned := hinv.aligned c (by simp)
      have hsize := hinv.toNat_join
      have hinv'' : HeapInv h ((pre ++ [b, c]) ++ post) := by simpa using hinv
      have hholds : Holds h.mem c b.addr (headOr Block.addr null post) := by
        have := hinv'.holds
        rwa [lastOr_append, lastOr, lastOr] at this
      refine ⟨_, combineForward_eq hb (hinv'.covers (by simp)) hbNull hcNull (fun hnull => ?_) hinv.holds hholds
        (hinv.apart_post (by simp)) hbFree hcFree, ?_⟩
      · obtain ⟨hcovers, hpre, -⟩ := hinv''.next_of_ne_null hnull
        exact ⟨hcovers, hpre b (by simp), hpre c (by simp)⟩
      · have htail : (if c.addr = h.tail then b.addr else h.tail) = lastOr Block.addr null
            (pre ++ ({ b with size := b.size + (c.size + headerSize) } :: [] ++ post)) := by
          simp [hinv'.tail_update, lastOr]
        rw [htail, joinForward, if_pos (by rw [hbFree, hcFree]; rfl)]
        refine hinv.relink [c] [] (fun _ _ _ _ hholds => hholds) hinv.holds trivial
          (by simp) ?_ ?_
        · rintro lo mid ⟨hlo, hmid⟩
          refine ⟨hlo, ?_⟩
          simp only [Block.span, Tiles] at hmid ⊢
          omega
        · intro r hr
          obtain rfl := mem_singleton.mp hr
          exact ⟨hbAligned.1, by rw [hsize]; omega⟩
    · refine ⟨h, ?_, ?_⟩
      · rw [Kheap.combineForward, hnext]
        simp only [headOr]
        grind
      · rw [joinForward, if_neg (by simpa using hboth)]
        exact hinv

end HeapInv

end Kairax.Kheap
