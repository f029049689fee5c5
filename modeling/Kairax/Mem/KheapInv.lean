import Kairax.Lib.Chain
import Kairax.Mem.Kheap

/-!
# The heap invariant

`HeapInv h blocks` says that the memory of `h` holds the list `blocks`, linked in both directions, and that the blocks
tile the heap from its start. `replace` exchanges a segment for another that covers the same addresses.
-/

namespace Kairax.Kheap

open Lib List Option
open Pmm (maxPages)

def Block.span (b : Block) : Nat := 32 + b.size.toNat

abbrev Covered (lo hi : Nat) (blocks : List Block) : Prop :=
  Tiles (fun b : Block => b.addr.toNat) Block.span lo hi blocks

/-- The four words of a block's header hold its size, its state and its links. -/
structure Holds (mem : Word → Word) (b : Block) (prev next : Word) : Prop where
  next_eq : mem (b.addr + Field.next.offset) = next
  prev_eq : mem (b.addr + Field.prev.offset) = prev
  size_eq : mem (b.addr + Field.size.offset) = b.size
  free_eq : (mem (b.addr + Field.free.offset)).getLsbD 0 = b.free

def Apart (a b : Word) : Prop := a.toNat + 32 ≤ b.toNat ∨ b.toNat + 32 ≤ a.toNat

def Fits (a : Word) : Prop := a.toNat + 32 ≤ 2 ^ 64

theorem Field.offset_bounds (f : Field) : f.offset.toNat + 8 ≤ 32 ∧ f.offset.toNat % 8 = 0 := by
  cases f <;> decide

theorem toNat_field {item : Word} (hfits : Fits item) (f : Field) :
    (item + f.offset).toNat = item.toNat + f.offset.toNat := by
  have hoffset := f.offset_bounds
  rw [Fits] at hfits
  rw [BitVec.toNat_add, Nat.mod_eq_of_lt (by omega)]

theorem Apart.symm {a b : Word} (h : Apart a b) : Apart b a := Or.symm h

section SetField

variable {mem : Word → Word} {item other : Word} {f g : Field} {v : Word}

@[simp] theorem setField_same : setField mem item f v (item + f.offset) = v := by
  rw [setField, Function.update_self]

theorem setField_field (hne : g ≠ f) : setField mem item f v (item + g.offset) = mem (item + g.offset) := by
  rw [setField, Function.update_of_ne]
  intro heq
  have hoffset : g.offset = f.offset := (BitVec.add_right_inj item).mp heq
  revert hoffset
  cases f <;> cases g <;> first | exact absurd rfl hne | decide

theorem setField_apart (hapart : Apart item other) (hitem : Fits item) (hother : Fits other) :
    setField mem item f v (other + g.offset) = mem (other + g.offset) := by
  rw [setField, Function.update_of_ne]
  intro heq
  have hnat := congrArg BitVec.toNat heq
  rw [toNat_field hother g, toNat_field hitem f] at hnat
  have hf := f.offset_bounds
  have hg := g.offset_bounds
  rcases hapart with hlt | hlt <;> omega

end SetField

@[simp] theorem withFree_bit (w : Word) (free : Bool) : (withFree w free).getLsbD 0 = free := by
  cases free <;> simp [withFree]

theorem holds_self (mem : Word → Word) (item : Word) :
    Holds mem ⟨item, mem (item + Field.size.offset), (mem (item + Field.free.offset)).getLsbD 0⟩
      (mem (item + Field.prev.offset)) (mem (item + Field.next.offset)) :=
  ⟨rfl, rfl, rfl, rfl⟩

namespace Holds

variable {mem : Word → Word} {b : Block} {prev next : Word}

section

variable (hholds : Holds mem b prev next)
include hholds

theorem setField_apart {item : Word} {f : Field} {v : Word}
    (hapart : Apart item b.addr) (hitem : Fits item) (hb : Fits b.addr) :
    Holds (setField mem item f v) b prev next := by
  constructor <;> rw [Kheap.setField_apart hapart hitem hb]
  exacts [hholds.next_eq, hholds.prev_eq, hholds.size_eq, hholds.free_eq]

theorem setNext (v : Word) : Holds (setField mem b.addr .next v) b prev v := by
  refine ⟨setField_same, ?_, ?_, ?_⟩ <;> rw [setField_field (by decide)]
  exacts [hholds.prev_eq, hholds.size_eq, hholds.free_eq]

theorem setPrev (v : Word) : Holds (setField mem b.addr .prev v) b v next := by
  refine ⟨?_, setField_same, ?_, ?_⟩ <;> rw [setField_field (by decide)]
  exacts [hholds.next_eq, hholds.size_eq, hholds.free_eq]

theorem setSize (v : Word) : Holds (setField mem b.addr .size v) { b with size := v } prev next := by
  refine ⟨?_, ?_, setField_same, ?_⟩ <;> rw [setField_field (by decide)]
  exacts [hholds.next_eq, hholds.prev_eq, hholds.free_eq]

theorem setFree (w : Word) (free : Bool) :
    Holds (setField mem b.addr .free (withFree w free)) { b with free } prev next := by
  refine ⟨?_, ?_, ?_, by rw [setField_same, withFree_bit]⟩ <;> rw [setField_field (by decide)]
  exacts [hholds.next_eq, hholds.prev_eq, hholds.size_eq]

end

end Holds

def Covers (lo hi item : Word) : Prop :=
  lo.toNat ≤ item.toNat ∧ item.toNat + 32 ≤ hi.toNat ∧ item.toNat % 8 = 0

section Access

variable {h : Heap} {item : Word}

theorem Covers.fits {lo hi : Word} (hcovers : Covers lo hi item) : Fits item := by
  have hroom := hcovers.2.1
  rw [Fits]
  omega

section

variable (hcovers : Covers h.startVaddr h.endVaddr item)
include hcovers

theorem mapped_of_covers (f : Field) : h.Mapped (item + f.offset) := by
  have hfield := toNat_field hcovers.fits f
  have hoffset := f.offset_bounds
  obtain ⟨hlo, hhi, haligned⟩ := hcovers
  rw [Heap.Mapped]
  omega

theorem read_of_covers (f : Field) : h.read item f = some (h.mem (item + f.offset)) :=
  if_pos (mapped_of_covers hcovers f)

theorem write_of_covers (f : Field) (v : Word) : h.write item f v = some { h with mem := setField h.mem item f v } :=
  if_pos (mapped_of_covers hcovers f)

theorem isFree_of_covers : h.isFree item = some ((h.mem (item + Field.free.offset)).getLsbD 0) := by
  rw [Heap.isFree, read_of_covers hcovers, map_some]

theorem setFree_of_covers (free : Bool) :
    h.setFree item free = some { h with
      mem := setField h.mem item .free (withFree (h.mem (item + Field.free.offset)) free) } := by
  rw [Heap.setFree, read_of_covers hcovers, bind_eq_bind, bind_some, write_of_covers hcovers]

end

end Access

/-- The mapped part of the heap: whole pages, from the heap's place on, and no more of them than there
are frames. -/
structure Extent (h : Heap) : Prop where
  start : h.startVaddr = kheapMapOffset
  le : kheapMapOffset.toNat ≤ h.endVaddr.toNat
  limit : h.endVaddr.toNat ≤ kheapMapOffset.toNat + maxPages * 4096
  pages : h.endVaddr.toNat % 4096 = 0

structure HeapInv (h : Heap) (blocks : List Block) : Prop extends Extent h where
  nonempty : blocks ≠ []
  head : h.head = headOr Block.addr null blocks
  tail : h.tail = lastOr Block.addr null blocks
  chain : Chain Block.addr Holds h.mem null blocks null
  tiles : ∃ top, Covered kheapMapOffset.toNat top blocks ∧ top ≤ h.endVaddr.toNat
  aligned : ∀ b ∈ blocks, b.addr.toNat % 8 = 0 ∧ b.size.toNat % 8 = 0

theorem kheapMapOffset_eq : kheapMapOffset.toNat = 18446683600570023936 := rfl

theorem maxPages_eq : maxPages = 42070784 := rfl

namespace HeapInv

variable {h : Heap} {blocks pre post : List Block} {b c : Block}

section

variable (hinv : HeapInv h blocks)
include hinv

variable (hb : b ∈ blocks)

include hb

theorem bounds : kheapMapOffset.toNat ≤ b.addr.toNat ∧ b.addr.toNat + 32 + b.size.toNat ≤ h.endVaddr.toNat := by
  obtain ⟨top, htiles, htop⟩ := hinv.tiles
  obtain ⟨hlo, hhi⟩ := htiles.bounds hb
  rw [Block.span] at hhi
  omega

theorem covers : Covers h.startVaddr h.endVaddr b.addr := by
  obtain ⟨hlo, hhi⟩ := hinv.bounds hb
  rw [hinv.start]
  exact ⟨hlo, by omega, (hinv.aligned b hb).1⟩

theorem fits : Fits b.addr :=
  (hinv.covers hb).fits

theorem addr_ne_null : b.addr ≠ null := by
  intro hnull
  have hlo := (hinv.bounds hb).1
  rw [hnull] at hlo
  exact absurd hlo (by decide)

end

theorem sides (hinv : HeapInv h (pre ++ b :: post)) :
    (∀ a ∈ pre, a.addr.toNat + 32 + a.size.toNat ≤ b.addr.toNat) ∧
      ∀ c ∈ post, b.addr.toNat + 32 + b.size.toNat ≤ c.addr.toNat := by
  obtain ⟨top, htiles, _⟩ := hinv.tiles
  have hpairwise := pairwise_append.mp htiles.pairwise
  constructor
  · intro a ha
    have := hpairwise.2.2 a ha b (by simp)
    simp only [Block.span] at this
    omega
  · intro c hc
    have := (pairwise_cons.mp hpairwise.2.1).1 c hc
    simp only [Block.span] at this
    omega

theorem holds (hinv : HeapInv h (pre ++ b :: post)) :
    Holds h.mem b (lastOr Block.addr null pre) (headOr Block.addr null post) :=
  hinv.chain.at_middle

theorem replace (old new : List Block) {mem : Word → Word} {tail : Word}
    (hinv : HeapInv h (pre ++ (old ++ post))) (hnew : new ≠ [])
    (hhead : headOr Block.addr null (new ++ post) = headOr Block.addr null (old ++ post))
    (hframe : ∀ a ∈ pre, ∀ p n, Holds h.mem a p n → Holds mem a p n)
    (hsegment : Chain Block.addr Holds mem (lastOr Block.addr null pre) new (headOr Block.addr null post))
    (hrest : Chain Block.addr Holds mem (lastOr Block.addr (lastOr Block.addr null pre) new) post null)
    (htiles : ∃ top, Covered kheapMapOffset.toNat top (pre ++ (new ++ post)) ∧ top ≤ h.endVaddr.toNat)
    (haligned : ∀ b ∈ new, b.addr.toNat % 8 = 0 ∧ b.size.toNat % 8 = 0)
    (htail : tail = lastOr Block.addr null (pre ++ (new ++ post))) :
    HeapInv { h with mem, tail } (pre ++ (new ++ post)) where
  start := hinv.start
  le := hinv.le
  limit := hinv.limit
  pages := hinv.pages
  nonempty := by simp [hnew]
  head := by
    have := hinv.head
    rw [headOr_append] at this ⊢
    rw [hhead]
    exact this
  tail := htail
  chain := by
    have hchain := chain_append.mp hinv.chain
    rw [chain_append, chain_append, hhead]
    exact ⟨hchain.1.frame hframe, hsegment, hrest⟩
  tiles := htiles
  aligned := by
    intro b hb
    rw [mem_append, mem_append] at hb
    rcases hb with hb | hb | hb
    · exact hinv.aligned b (by simp [hb])
    · exact haligned b hb
    · exact hinv.aligned b (by simp [hb])

theorem reads (hinv : HeapInv h (pre ++ b :: post)) :
    h.read b.addr .next = some (headOr Block.addr null post) ∧
      h.read b.addr .prev = some (lastOr Block.addr null pre) ∧
      h.read b.addr .size = some b.size ∧ h.isFree b.addr = some b.free := by
  have hcovers := hinv.covers (b := b) (by simp)
  have hholds := hinv.holds
  rw [read_of_covers hcovers, read_of_covers hcovers, read_of_covers hcovers, isFree_of_covers hcovers,
    hholds.next_eq, hholds.prev_eq, hholds.size_eq, hholds.free_eq]
  exact ⟨rfl, rfl, rfl, rfl⟩

theorem length_le_fuel (hinv : HeapInv h blocks) : blocks.length ≤ h.fuel := by
  obtain ⟨top, htiles, htop⟩ := hinv.tiles
  have hlength := htiles.length_le 32 fun b _ => by rw [Block.span]; omega
  rw [Heap.fuel, hinv.start]
  omega

theorem walk_eq (pre : List Block) (hinv : HeapInv h (pre ++ post)) {fuel : Nat} (hfuel : post.length ≤ fuel) :
    walk h fuel (headOr Block.addr null post) = some post := by
  induction post generalizing pre fuel with
  | nil => cases fuel <;> rfl
  | cons b post ih =>
    cases fuel with
    | zero => simp at hfuel
    | succ fuel =>
      obtain ⟨hnext, -, hsize, hfree⟩ := hinv.reads
      have hrest := ih (pre ++ [b]) (by rwa [List.append_assoc]) (Nat.le_of_succ_le_succ hfuel)
      rw [headOr, walk, if_neg (hinv.addr_ne_null (by simp)), hsize, hfree, hnext]
      simp only [Option.bind_eq_bind, Option.bind_some, hrest]

theorem blocks_eq (hinv : HeapInv h blocks) : h.blocks = some blocks := by
  rw [Heap.blocks, hinv.head]
  exact walk_eq [] hinv hinv.length_le_fuel

end HeapInv

end Kairax.Kheap
