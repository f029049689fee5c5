import Kairax.Lib.Run
import Kairax.Mem.KheapCalls
import Mathlib.Data.List.Chain
import Mathlib.Data.List.Nodup

/-!
# Allocation histories of the kernel heap

A history starts with `kheap_init` and then calls `kmalloc` and `kfree`. Beside the heap it records
the pointer and the requested size of each live allocation.
-/

namespace Kairax.Kheap

open Lib List Option Prod

inductive Call
  /-- A request, with the pages the page allocator is ready to give. -/
  | kmalloc (grant : Nat → Bool) (size : Word)
  | kfree (mem : Word)

structure History where
  heap : Heap
  live : List (Word × Word)

def step (s : History) : Call → Option History
  | .kmalloc grant size =>
    (kmalloc s.heap grant size).map fun (p, heap) =>
      { heap, live := if p = null then s.live else (p, size) :: s.live }
  | .kfree mem => (kfree s.heap mem).map fun heap => { heap, live := s.live.filter fun a => a.1 ≠ mem }

def Legal (s : History) : Call → Prop
  | .kmalloc _ _ => True
  | .kfree mem => mem ∈ s.live.map fst

instance (s : History) (c : Call) : Decidable (Legal s c) := by
  cases c <;> (unfold Legal; infer_instance)

/-- The bytes `kmalloc` looks for. -/
def totalSize (size : Word) : Word := align size 8 + headerSize

def Heap.Suitable (h : Heap) (size : Word) : Prop :=
  (h.blocks.getD []).any (Block.suits (totalSize size)) = true

/-- The heap does not have to grow for a call, or grows with a free tail. -/
def TailFree (s : History) : Call → Prop
  | .kmalloc grant size => ¬ s.heap.Suitable size → s.heap.expands grant (totalSize size) = true →
      s.heap.isFree s.heap.tail = some true
  | .kfree _ => True

/-- Rounding does not wrap, and an `int` holds the pages and, unless they are refused, the bytes by which the heap
grows. -/
def InRange (s : History) : Call → Prop
  | .kmalloc grant size => size.toNat + 48 ≤ 2 ^ 64 ∧ (¬ s.heap.Suitable size →
      (totalSize size).toNat + 4096 < 2 ^ 43 ∧ (s.heap.expands grant (totalSize size) = true →
        (totalSize size).toNat + 4096 < 2 ^ 31))
  | .kfree _ => True

instance (h : Heap) (size : Word) : Decidable (h.Suitable size) := inferInstanceAs (Decidable (_ = true))

instance (s : History) (c : Call) : Decidable (TailFree s c) := by
  cases c <;> (unfold TailFree; infer_instance)

instance (s : History) (c : Call) : Decidable (InRange s c) := by
  cases c <;> (unfold InRange; infer_instance)

def used (blocks : List Block) : List Block := blocks.filter fun b => !b.free

variable {b : Block}

@[simp] theorem used_append (xs ys : List Block) : used (xs ++ ys) = used xs ++ used ys :=
  filter_append ..

@[simp] theorem used_cons_free (hfree : b.free = true) (bs : List Block) : used (b :: bs) = used bs := by
  rw [used, filter_cons_of_neg (by simp [hfree]), used]

@[simp] theorem used_cons_used (hused : b.free = false) (bs : List Block) : used (b :: bs) = b :: used bs := by
  rw [used, filter_cons_of_pos (by simp [hused]), used]

@[simp] theorem used_joinForward (b : Block) (post : List Block) : used (joinForward b post) = used (b :: post) := by
  cases post with
  | nil => rfl
  | cons c post =>
    rw [joinForward]
    split
    · rename_i hboth
      rw [Bool.and_eq_true] at hboth
      simp [hboth.1, hboth.2]
    · rfl

@[simp] theorem used_coalesce (pre post : List Block) : used (coalesce pre post) = used pre ++ used post := by
  rcases eq_nil_or_concat pre with rfl | ⟨init, a, rfl⟩
  · rfl
  · rw [concat_eq_append, coalesce_append_singleton, used_append, used_joinForward, ← used_append,
      ← used_append, List.append_assoc]
    rfl

theorem used_carve (b : Block) (size : Word) (hroom : size.toNat + 32 ≤ b.size.toNat) :
    ∃ taken : Block, used (carve b size) = [taken] ∧ taken.addr = b.addr ∧ size.toNat ≤ taken.size.toNat := by
  rw [carve]
  split
  · exact ⟨_, rfl, rfl, le_rfl⟩
  · exact ⟨_, rfl, rfl, by simp only; omega⟩

/-- The live allocations are the blocks in use, each as large as it was requested. -/
structure Tracked (taken : List Block) (live : List (Word × Word)) : Prop where
  perm : (live.map fst).Perm (taken.map Block.payload)
  large : ∀ b ∈ taken, ∀ size, (b.payload, size) ∈ live → size.toNat ≤ b.size.toNat

variable {size : Word} {blocks post pre : List Block} {s : History} {h : Heap} {grant : Nat → Bool} {calls : List Call}

namespace Tracked

variable {xs ys : List Block} {live : List (Word × Word)}

theorem take (htracked : Tracked (xs ++ ys) live) (hnodup : ((xs ++ b :: ys).map Block.payload).Nodup)
    (hsize : size.toNat ≤ b.size.toNat) : Tracked (xs ++ b :: ys) ((b.payload, size) :: live) := by
  have hfresh : b.payload ∉ live.map fst := by
    rw [htracked.perm.mem_iff]
    rw [map_append, map_cons, nodup_middle, nodup_cons, ← map_append] at hnodup
    exact hnodup.1
  constructor
  · rw [map_append]
    refine (List.Perm.cons _ htracked.perm).trans ?_
    rw [map_append]
    exact perm_middle.symm
  · intro c hc r hr
    rcases mem_cons.mp hr with heq | hlive
    · obtain ⟨hpayload, rfl⟩ := mk.inj heq
      rwa [inj_on_of_nodup_map hnodup hc (by simp) hpayload]
    · refine htracked.large c ?_ r hlive
      rw [mem_append, mem_cons] at hc
      rcases hc with hc | rfl | hc
      · exact mem_append_left _ hc
      · exact absurd (mem_map_of_mem hlive) hfresh
      · exact mem_append_right _ hc

theorem release (htracked : Tracked (xs ++ b :: ys) live) (hnodup : ((xs ++ b :: ys).map Block.payload).Nodup) :
    Tracked (xs ++ ys) (live.filter fun a => a.1 ≠ b.payload) := by
  rw [map_append, map_cons, nodup_middle, nodup_cons, ← map_append] at hnodup
  constructor
  · have hfilter := htracked.perm.filter fun p => p ≠ b.payload
    rw [List.filter_map, List.map_append, List.map_cons, List.filter_append,
      filter_cons_of_neg (by simp), ← filter_append, ← map_append] at hfilter
    refine hfilter.trans (List.Perm.of_eq (filter_eq_self.mpr fun p hp => ?_))
    exact decide_eq_true fun heq => hnodup.1 (heq ▸ hp)
  · intro c hc r hr
    refine htracked.large c ?_ r (mem_of_mem_filter hr)
    rw [mem_append] at hc
    rcases hc with hc | hc <;> simp [hc]

end Tracked

def NoFreePair (blocks : List Block) : Prop := blocks.IsChain fun a b => ¬ (a.free = true ∧ b.free = true)

def HeadUsed (blocks : List Block) : Prop := ∀ b ∈ blocks.head?, b.free = false

theorem noFreePair_cons : NoFreePair (b :: post) ↔ (b.free = true → HeadUsed post) ∧ NoFreePair post := by
  cases post with
  | nil | cons c post => simp [NoFreePair, HeadUsed]

theorem noFreePair_append_cons :
    NoFreePair (pre ++ b :: post) ↔
      NoFreePair pre ∧ (b.free = true → ∀ a ∈ pre.getLast?, a.free = false) ∧ NoFreePair (b :: post) := by
  rw [NoFreePair, isChain_append, NoFreePair, NoFreePair]
  grind

theorem noFreePair_joinForward (hpost : NoFreePair post) : NoFreePair (joinForward b post) := by
  cases post with
  | nil => simp [joinForward, NoFreePair]
  | cons c post =>
    rw [joinForward]
    rw [noFreePair_cons] at hpost
    split
    · rename_i hboth
      rw [Bool.and_eq_true] at hboth
      exact noFreePair_cons.mpr ⟨fun _ => hpost.1 hboth.2, hpost.2⟩
    · rename_i hboth
      refine noFreePair_cons.mpr ⟨fun hfree => ?_, noFreePair_cons.mpr hpost⟩
      simpa [HeadUsed, hfree] using hboth

theorem noFreePair_release (hpair : NoFreePair (pre ++ b :: post)) :
    NoFreePair (coalesce pre (joinForward { b with free := true } post)) := by
  obtain ⟨hpre, -, hrest⟩ := noFreePair_append_cons.mp hpair
  have hjoined := noFreePair_joinForward (b := { b with free := true }) (noFreePair_cons.mp hrest).2
  rcases eq_nil_or_concat pre with rfl | ⟨init, a, rfl⟩
  · exact hjoined
  · rw [concat_eq_append] at hpre ⊢
    rw [coalesce_append_singleton]
    obtain ⟨hinit, hlast, -⟩ := noFreePair_append_cons.mp hpre
    have hboth := noFreePair_joinForward (b := a) hjoined
    obtain ⟨a', rest, heq, -, hfree⟩ := joinForward_eq_cons a (joinForward { b with free := true } post)
    rw [heq] at hboth ⊢
    exact noFreePair_append_cons.mpr ⟨hinit, fun h => hlast (hfree ▸ h), hboth⟩

theorem noFreePair_take {s : Word} (hpair : NoFreePair (pre ++ b :: post)) (hfree : b.free = true) :
    NoFreePair (pre ++ (carve { b with size := s } size ++ post)) := by
  obtain ⟨hpre, -, hrest⟩ := noFreePair_append_cons.mp hpair
  obtain ⟨hhead, hpost⟩ := noFreePair_cons.mp hrest
  rw [carve]
  split
  · exact noFreePair_append_cons.mpr ⟨hpre, by simp,
      noFreePair_cons.mpr ⟨by simp, noFreePair_cons.mpr ⟨fun _ => hhead hfree, hpost⟩⟩⟩
  · exact noFreePair_append_cons.mpr ⟨hpre, by simp, noFreePair_cons.mpr ⟨by simp, hpost⟩⟩

theorem HeapInv.nodup_payload (hinv : HeapInv h blocks) : (blocks.map Block.payload).Nodup := by
  obtain ⟨top, htiles, -⟩ := hinv.tiles
  rw [List.Nodup, List.pairwise_map]
  refine htiles.pairwise.imp fun {a b} hab heq => ?_
  rw [Block.payload, Block.payload, BitVec.add_left_inj] at heq
  rw [heq, Block.span] at hab
  omega

structure Sound (s : History) (blocks : List Block) : Prop where
  heap : HeapInv s.heap blocks
  tracked : Tracked (used blocks) s.live
  separated : NoFreePair blocks

variable (hsound : Sound s blocks)

include hsound

theorem Sound.nodup : ((used blocks).map Block.payload).Nodup :=
  hsound.heap.nodup_payload.sublist (filter_sublist.map _)

theorem Sound.kmalloc (htail : TailFree s (.kmalloc grant size)) (hrange : InRange s (.kmalloc grant size)) :
    ∃ p heap, Kheap.kmalloc s.heap grant size = some (p, heap) ∧
      (p ≠ null → ∃ b ∈ blocks, b.free = true ∧ b.payload = p) ∧
      ∃ blocks', Sound { heap, live := if p = null then s.live else (p, size) :: s.live } blocks' := by
  obtain ⟨hsize, hgrow⟩ := hrange
  have hblocks := hsound.heap.blocks_eq
  have hrequest : blocks.any (Block.suits (totalSize size)) = true ∨ (totalSize size).toNat + 4096 < 2 ^ 43 ∧
      (s.heap.expands grant (totalSize size) = true →
        s.heap.isFree s.heap.tail = some true ∧ (totalSize size).toNat + 4096 < 2 ^ 31) := by
    rw [TailFree] at htail
    simp only [Heap.Suitable, hblocks] at htail hgrow
    by_cases hsuits : blocks.any (Block.suits (totalSize size)) = true
    · exact .inl hsuits
    · exact .inr ⟨(hgrow hsuits).1, fun hexpands => ⟨htail hsuits hexpands, (hgrow hsuits).2 hexpands⟩⟩
  obtain ⟨p, heap, hkmalloc, hcases⟩ := hsound.heap.kmalloc hsize hrequest
  refine ⟨p, heap, hkmalloc, ?_⟩
  rcases hcases with ⟨rfl, hinv⟩ | ⟨pre, b, post, room, rfl, hfree, rfl, hle, hroom, hinv⟩
  · exact ⟨fun hne => absurd rfl hne, blocks, hinv, by simpa using hsound.tracked, hsound.separated⟩
  · refine ⟨fun _ => ⟨b, by simp, hfree, rfl⟩, _, hinv, ?_, noFreePair_take hsound.separated hfree⟩
    obtain ⟨taken, htaken, haddr, htakenSize⟩ := used_carve { b with size := room } (align size 8) hroom
    have hne : b.payload ≠ null := by
      intro hnull
      have hpayload := hsound.heap.toNat_payload (b := b) (by simp)
      rw [hnull] at hpayload
      exact absurd (show (0 : Nat) = b.addr.toNat + 32 from hpayload) (by omega)
    have hused : used (pre ++ (carve { b with size := room } (align size 8) ++ post)) =
        used pre ++ taken :: used post := by
      rw [used_append, used_append, htaken, singleton_append]
    have hnodup := hinv.nodup_payload.sublist ((filter_sublist (p := fun b => !b.free)).map _)
    have hpayload : b.payload = taken.payload := by rw [Block.payload, Block.payload, haddr]
    rw [← used, hused] at hnodup
    rw [hused, if_neg hne, hpayload]
    refine Tracked.take ?_ hnodup (by omega)
    have := hsound.tracked
    rwa [used_append, used_cons_free hfree] at this

theorem Sound.kfree {mem : Word} (hlegal : Legal s (.kfree mem)) :
    ∃ heap, Kheap.kfree s.heap mem = some heap ∧
      ∃ blocks', Sound { heap, live := s.live.filter fun a => a.1 ≠ mem } blocks' ∧
        (blocks'.map Block.span).sum = (blocks.map Block.span).sum := by
  rw [Legal, hsound.tracked.perm.mem_iff, List.mem_map] at hlegal
  obtain ⟨b, hb, rfl⟩ := hlegal
  rw [used, List.mem_filter] at hb
  obtain ⟨hmem, hused⟩ := hb
  rw [Bool.not_eq_true'] at hused
  obtain ⟨pre, post, rfl⟩ := List.append_of_mem hmem
  obtain ⟨heap, hkfree, hinv, hsum⟩ := hsound.heap.kfree hused
  refine ⟨heap, hkfree, _, ⟨hinv, ?_, noFreePair_release hsound.separated⟩, hsum⟩
  have htracked := hsound.tracked
  have hnodup := hsound.nodup
  rw [used_append, used_cons_used hused] at htracked hnodup
  rw [used_coalesce, used_joinForward]
  exact htracked.release hnodup

omit hsound

/-- What the callers and the sizes must be for the heap to stay sound. -/
def Admitted (s : History) (c : Call) : Prop := Legal s c ∧ TailFree s c ∧ InRange s c

instance (s : History) (c : Call) : Decidable (Admitted s c) := inferInstanceAs (Decidable (_ ∧ _ ∧ _))

/-- The pointer a call returns, `null` for `kfree`. -/
def result (s : History) : Call → Word
  | .kmalloc grant size => ((kmalloc s.heap grant size).map fst).getD null
  | .kfree _ => null

include hsound in
theorem Sound.step {c : Call} (hadmitted : Admitted s c) :
    ∃ t, step s c = some t ∧ (∃ blocks', Sound t blocks') ∧
      (result s c ≠ null → ∃ b ∈ blocks, b.free = true ∧ b.payload = result s c) := by
  obtain ⟨hlegal, htail, hrange⟩ := hadmitted
  cases c with
  | kmalloc grant size =>
    obtain ⟨p, heap, hkmalloc, hresult, hsound'⟩ := hsound.kmalloc htail hrange
    refine ⟨_, by rw [Kheap.step, hkmalloc, map_some], hsound', ?_⟩
    rwa [result, hkmalloc]
  | kfree mem =>
    obtain ⟨heap, hkfree, blocks', hsound', -⟩ := hsound.kfree hlegal
    exact ⟨_, by rw [Kheap.step, hkfree, map_some], ⟨blocks', hsound'⟩, fun hne => absurd rfl hne⟩

theorem sound_of_run {mem : Word → Word} {heap : Heap} (hinit : kheapInit mem grant kheapMapOffset = some heap)
    (hrun : Run step Admitted { heap, live := [] } calls s) : ∃ blocks, Sound s blocks := by
  refine hrun.invariant (fun s => ∃ blocks, Sound s blocks) ?_ ⟨_, heapInv_kheapInit hinit, ?_, ?_⟩
  · rintro s c t ⟨blocks, hsound⟩ hadmitted hstep
    obtain ⟨t', hstep', hsound', -⟩ := hsound.step hadmitted
    rw [hstep] at hstep'
    exact some.inj hstep' ▸ hsound'
  · exact ⟨List.Perm.refl _, by simp [used]⟩
  · simp [NoFreePair]

/-- What the list in memory and the live allocations look like. -/
structure WellFormed (s : History) (blocks : List Block) : Prop where
  list : s.heap.blocks = some blocks
  increasing : blocks.Pairwise fun a b => a.addr < b.addr
  linked : ∀ pre a b post, blocks = pre ++ a :: b :: post →
    s.heap.read a.addr .next = some b.addr ∧ s.heap.read b.addr .prev = some a.addr
  head : s.heap.read s.heap.head .prev = some null
  tail : s.heap.tail = lastOr Block.addr null blocks
  abutting : ∀ pre a b post, blocks = pre ++ a :: b :: post →
    a.addr.toNat + headerSize.toNat + a.size.toNat = b.addr.toNat
  large : ∀ p size, (p, size) ∈ s.live →
    ∃ b ∈ blocks, b.free = false ∧ b.payload = p ∧ size.toNat ≤ b.size.toNat
  disjoint : s.live.Pairwise fun x y => ∀ a ∈ blocks, ∀ b ∈ blocks, a.payload = x.1 → b.payload = y.1 →
    a.payload.toNat + a.size.toNat ≤ b.payload.toNat ∨ b.payload.toNat + b.size.toNat ≤ a.payload.toNat

theorem HeapInv.adjacent {a : Block} (hinv : HeapInv h (pre ++ a :: b :: post)) :
    h.read a.addr .next = some b.addr ∧ h.read b.addr .prev = some a.addr ∧
      a.addr.toNat + headerSize.toNat + a.size.toNat = b.addr.toNat := by
  have hinv' : HeapInv h ((pre ++ [a]) ++ b :: post) := by rwa [List.append_assoc]
  have hprev := hinv'.reads.2.1
  rw [lastOr_append] at hprev
  refine ⟨hinv.reads.1, hprev, ?_⟩
  obtain ⟨top, htiles, -⟩ := hinv.tiles
  obtain ⟨mid, -, ha, hb, -⟩ := tiles_append.mp htiles
  simp only [Block.span, headerSize, BitVec.reduceToNat] at ha hb ⊢
  omega

theorem HeapInv.disjoint {a : Block} (hinv : HeapInv h blocks) (ha : a ∈ blocks) (hb : b ∈ blocks)
    (hne : a.payload ≠ b.payload) :
    a.payload.toNat + a.size.toNat ≤ b.payload.toNat ∨ b.payload.toNat + b.size.toNat ≤ a.payload.toNat := by
  obtain ⟨pre, post, rfl⟩ := append_of_mem ha
  obtain ⟨hpre, hpost⟩ := hinv.sides
  rw [hinv.toNat_payload ha, hinv.toNat_payload hb]
  rw [mem_append, mem_cons] at hb
  rcases hb with hb | rfl | hb
  · have := hpre b hb
    omega
  · exact absurd rfl hne
  · have := hpost b hb
    omega

include hsound in
theorem Sound.wellFormed : WellFormed s blocks where
  list := hsound.heap.blocks_eq
  increasing := by
    obtain ⟨top, htiles, -⟩ := hsound.heap.tiles
    refine htiles.pairwise.imp fun {a b} hab => ?_
    rw [Block.span] at hab
    rw [BitVec.lt_def]
    omega
  linked := by
    rintro pre a b post rfl
    exact ⟨hsound.heap.adjacent.1, hsound.heap.adjacent.2.1⟩
  head := by
    obtain ⟨b, post, rfl⟩ := exists_cons_of_ne_nil hsound.heap.nonempty
    have hinv : HeapInv s.heap ([] ++ b :: post) := hsound.heap
    rw [hinv.head]
    exact hinv.reads.2.1
  tail := hsound.heap.tail
  abutting := by
    rintro pre a b post rfl
    exact hsound.heap.adjacent.2.2
  large := by
    intro p size hlive
    have hp := hsound.tracked.perm.mem_iff.mp (mem_map_of_mem hlive)
    obtain ⟨b, hb, rfl⟩ := mem_map.mp hp
    obtain ⟨hmem, hused⟩ := mem_filter.mp hb
    exact ⟨b, hmem, by simpa using hused, rfl, hsound.tracked.large b hb size hlive⟩
  disjoint := by
    have hnodup : (s.live.map fst).Nodup := hsound.tracked.perm.nodup_iff.mpr hsound.nodup
    rw [List.Nodup, pairwise_map] at hnodup
    refine hnodup.imp fun {x y} hne a ha b hb hx hy => ?_
    exact hsound.heap.disjoint ha hb (by rwa [hx, hy])

/-- The list is well formed, live allocations are large enough and disjoint, and `kmalloc` returns blocks that were
free. -/
theorem history_wellFormed {mem : Word → Word} {grant : Nat → Bool} {heap : Heap} {calls : List Call}
    {s : History} (hinit : kheapInit mem grant kheapMapOffset = some heap)
    (hrun : Run step Admitted { heap, live := [] } calls s) :
    ∃ blocks, WellFormed s blocks ∧ ∀ c, Admitted s c → ∃ t, step s c = some t ∧
      (result s c ≠ null → ∃ b ∈ blocks, b.free = true ∧ b.payload = result s c) := by
  obtain ⟨blocks, hsound⟩ := sound_of_run hinit hrun
  refine ⟨blocks, hsound.wellFormed, fun c hadmitted => ?_⟩
  obtain ⟨t, hstep, -, hresult⟩ := hsound.step hadmitted
  exact ⟨t, hstep, hresult⟩

/-- The heap that `kheap_init` makes over cleared memory. -/
def freshHeap : Heap :=
  { startVaddr := kheapMapOffset
    endVaddr := kheapMapOffset + kheapInitSize
    head := kheapMapOffset
    tail := kheapMapOffset
    mem := setField (setField (setField (setField (fun _ => 0) kheapMapOffset .free 1)
      kheapMapOffset .next null) kheapMapOffset .prev null) kheapMapOffset .size (kheapInitSize - headerSize) }

theorem zeroPage_clear (page : Word) : zeroPage (fun _ => 0) page = fun _ => 0 :=
  funext fun _ => ite_self _

theorem expandLoop_clear (left i : Nat) (hextent : Extent h) (hmem : h.mem = fun _ => 0)
    (hroom : h.endVaddr.toNat + 4096 * left ≤ kheapMapOffset.toNat + Pmm.maxPages * 4096) :
    expandLoop (fun _ => true) left i h =
      (true, { h with endVaddr := h.endVaddr + BitVec.ofNat 64 (4096 * left) }) := by
  induction left generalizing i h with
  | zero => simp [expandLoop]
  | succ left ih =>
    have hobtains : h.obtains (fun _ => true) i = true := by
      have hle := hextent.le
      rw [Heap.obtains, Bool.true_and, decide_eq_true_iff, hextent.start]
      omega
    obtain ⟨hend, hextent'⟩ := hextent.newPage hobtains
    rw [expandLoop, if_pos hobtains, ih (i + 1) hextent' (by simp only [hmem, zeroPage_clear]) (by
      simp only [hend]
      omega)]
    simp only [hmem, zeroPage_clear]
    rw [BitVec.add_assoc, Nat.mul_add, Nat.add_comm, BitVec.ofNat_add]
    rfl

theorem kheapInit_clear : kheapInit (fun _ => 0) (fun _ => true) kheapMapOffset = some freshHeap := by
  have hloop := expandLoop_clear 2000 0 (h := unmappedHeap (fun _ => 0) kheapMapOffset)
    ⟨rfl, le_rfl, Nat.le_add_right _ _, show kheapMapOffset.toNat % 4096 = 0 by decide⟩ rfl (by
      simp only [unmappedHeap, maxPages_eq]
      omega)
  rw [kheapInit, kheapExpand, show (pagesCount kheapInitSize).toNat = 2000 by decide, hloop]
  rfl

theorem history_wellFormed_threeCalls : ∃ s,
    Run step Admitted { heap := freshHeap, live := [] }
      [.kmalloc (fun _ => true) 8191000, .kmalloc (fun _ => true) 2000, .kfree (kheapMapOffset + 32)] s ∧
    ∃ blocks, WellFormed s blocks := by
  obtain ⟨s, hreplay⟩ := isSome_iff_exists.mp (show (replay step Admitted
    { heap := freshHeap, live := [] } [.kmalloc (fun _ => true) 8191000, .kmalloc (fun _ => true) 2000,
      .kfree (kheapMapOffset + 32)]).isSome = true by decide +kernel)
  obtain ⟨blocks, hwellFormed, -⟩ := history_wellFormed kheapInit_clear (run_of_replay hreplay)
  exact ⟨s, run_of_replay hreplay, blocks, hwellFormed⟩

/-- The second request grows the tail, which is the block of the first, and returns it again. -/
theorem history_aliased : ∃ s p,
    kheapInit (fun _ => 0) (fun _ => true) kheapMapOffset = some freshHeap ∧
      Run step Legal { heap := freshHeap, live := [] }
        [.kmalloc (fun _ => true) 8191936, .kmalloc (fun _ => true) 8] s ∧
      s.live = [(p, 8), (p, 8191936)] := by
  obtain ⟨s, hreplay, hlive⟩ := map_eq_some_iff.mp (show (replay step Legal
    { heap := freshHeap, live := [] }
    [.kmalloc (fun _ => true) 8191936, .kmalloc (fun _ => true) 8]).map History.live =
      some [(kheapMapOffset + 32, 8), (kheapMapOffset + 32, 8191936)] by decide +kernel)
  exact ⟨s, _, kheapInit_clear, run_of_replay hreplay, hlive⟩

def Frees (s : History) : Call → Prop
  | .kmalloc _ _ => False
  | .kfree mem => Legal s (.kfree mem)

instance (s : History) (c : Call) : Decidable (Frees s c) := by
  cases c <;> (unfold Frees; infer_instance)

include hsound

theorem Sound.frees {t : History} (hrun : Run Kheap.step Frees s calls t) :
    ∃ blocks', Sound t blocks' ∧ (blocks'.map Block.span).sum = (blocks.map Block.span).sum := by
  refine hrun.invariant (fun t => ∃ blocks', Sound t blocks' ∧
    (blocks'.map Block.span).sum = (blocks.map Block.span).sum) ?_ ⟨blocks, hsound, rfl⟩
  rintro s c t ⟨blocks', hsound', hsum⟩ hfrees hstep
  cases c with
  | kmalloc grant size => exact hfrees.elim
  | kfree mem =>
    obtain ⟨heap, hkfree, blocks'', hsound'', hsum'⟩ := hsound'.kfree hfrees
    rw [Kheap.step, hkfree] at hstep
    exact ⟨blocks'', some.inj hstep ▸ hsound'', hsum'.trans hsum⟩

theorem Sound.single (hlive : s.live = []) : ∃ b, blocks = [b] ∧ b.free = true := by
  have hused : used blocks = [] := by
    have hperm := hsound.tracked.perm
    rw [hlive, map_nil, nil_perm, map_eq_nil_iff] at hperm
    exact hperm
  have hfree (b : Block) (hb : b ∈ blocks) : b.free = true := by
    simpa using filter_eq_nil_iff.mp hused b hb
  have hpair := hsound.separated
  match blocks, hsound.heap.nonempty with
  | [b], _ => exact ⟨b, rfl, hfree b (by simp)⟩
  | a :: b :: rest, _ =>
    have := (noFreePair_cons.mp hpair).1 (hfree a (by simp)) b (by simp)
    rw [hfree b (by simp)] at this
    exact absurd this (by simp)

omit hsound

/-- No two adjacent blocks are free, and freeing all that is live leaves one free block with all the bytes. -/
theorem history_coalesced {mem : Word → Word} {grant : Nat → Bool} {heap : Heap} {calls : List Call}
    {s : History} (hinit : kheapInit mem grant kheapMapOffset = some heap)
    (hrun : Run step Admitted { heap, live := [] } calls s) :
    ∃ blocks, s.heap.blocks = some blocks ∧ NoFreePair blocks ∧
      ∀ frees t, Run step Frees s frees t → t.live = [] →
        ∃ b, t.heap.blocks = some [b] ∧ b.free = true ∧
          headerSize.toNat + b.size.toNat = (blocks.map fun b => headerSize.toNat + b.size.toNat).sum := by
  obtain ⟨blocks, hsound⟩ := sound_of_run hinit hrun
  refine ⟨blocks, hsound.heap.blocks_eq, hsound.separated, fun frees t hfrees hlive => ?_⟩
  obtain ⟨blocks', hsound', hsum⟩ := hsound.frees hfrees
  obtain ⟨b, rfl, hfree⟩ := hsound'.single hlive
  exact ⟨b, hsound'.heap.blocks_eq, hfree, hsum⟩

theorem history_coalesced_twoCalls : ∃ s t b,
    Run step Admitted { heap := freshHeap, live := [] }
      [.kmalloc (fun _ => true) 100, .kmalloc (fun _ => true) 200] s ∧
    Run step Frees s [.kfree (kheapMapOffset + 32), .kfree (kheapMapOffset + 168)] t ∧
    t.heap.blocks = some [b] ∧ b.free = true := by
  obtain ⟨t, hreplay, hlive⟩ := map_eq_some_iff.mp (show ((replay step Admitted
    { heap := freshHeap, live := [] } [.kmalloc (fun _ => true) 100, .kmalloc (fun _ => true) 200]).bind
      fun s => replay step Frees s [.kfree (kheapMapOffset + 32), .kfree (kheapMapOffset + 168)]).map
        History.live = some [] by decide)
  obtain ⟨s, hreplay, hfrees⟩ := bind_eq_some_iff.mp hreplay
  obtain ⟨blocks, -, -, hsingle⟩ := history_coalesced kheapInit_clear (run_of_replay hreplay)
  obtain ⟨b, hblocks, hfree, -⟩ := hsingle _ _ (run_of_replay hfrees) hlive
  exact ⟨s, t, b, run_of_replay hreplay, run_of_replay hfrees, hblocks, hfree⟩

theorem walk_cycle {item : Word} (hnull : item ≠ null) (hnext : h.read item .next = some item) (fuel : Nat) :
    walk h fuel item = none := by
  induction fuel with
  | zero => rw [walk, if_neg hnull]
  | succ fuel ih =>
    rw [walk, if_neg hnull, hnext]
    simp [ih]

/-- A request whose size with its header wraps to zero: the block is split at its own address and linked to itself. -/
theorem history_cyclic : ∃ s,
    kheapInit (fun _ => 0) (fun _ => true) kheapMapOffset = some freshHeap ∧
      Run step (fun s c => Legal s c ∧ TailFree s c) { heap := freshHeap, live := [] }
        [.kmalloc (fun _ => true) (-32), .kfree (kheapMapOffset + 32)] s ∧
      s.live = [] ∧ s.heap.isFree s.heap.head = some true ∧
      s.heap.read s.heap.head .next = some s.heap.head ∧ s.heap.blocks = none := by
  obtain ⟨s, hreplay, hend⟩ := map_eq_some_iff.mp (show (replay step
    (fun s c => Legal s c ∧ TailFree s c) { heap := freshHeap, live := [] }
    [.kmalloc (fun _ => true) (-32), .kfree (kheapMapOffset + 32)]).map (fun s => (s.live, s.heap.head,
      s.heap.isFree s.heap.head, s.heap.read s.heap.head .next)) =
      some ([], kheapMapOffset, some true, some kheapMapOffset) by decide)
  simp only [mk.injEq] at hend
  obtain ⟨hlive, hhead, hfree, hnext⟩ := hend
  rw [← hhead] at hnext
  exact ⟨s, kheapInit_clear, run_of_replay hreplay, hlive, hfree, hnext, walk_cycle (by rw [hhead]; decide) hnext _⟩

end Kairax.Kheap
