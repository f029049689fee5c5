import Kairax.Mem.KheapOps

/-!
# `kheap_init`, `kmalloc` and `kfree` on the list of blocks
-/

namespace Kairax.Kheap

open Lib List Option BitVec
open Pmm (maxPages)

theorem joinForward_eq_cons (b : Block) (post : List Block) :
    ∃ b' post', joinForward b post = b' :: post' ∧ b'.addr = b.addr ∧ b'.free = b.free := by
  cases post with
  | nil => exact ⟨b, [], rfl, rfl, rfl⟩
  | cons c post =>
    rw [joinForward]
    split
    · exact ⟨_, _, rfl, rfl, rfl⟩
    · exact ⟨_, _, rfl, rfl, rfl⟩

namespace HeapInv

variable {h : Heap} {blocks pre post : List Block} {b : Block}

theorem toNat_payload (hinv : HeapInv h blocks) (hb : b ∈ blocks) : b.payload.toNat = b.addr.toNat + 32 := by
  have hbounds := hinv.bounds hb
  simp only [Block.payload, headerSize, toNat_add, reduceToNat]
  omega

theorem kfree (hinv : HeapInv h (pre ++ b :: post)) (hused : b.free = false) :
    ∃ h', Kheap.kfree h b.payload = some h' ∧
      HeapInv h' (coalesce pre (joinForward { b with free := true } post)) ∧
      ((coalesce pre (joinForward { b with free := true } post)).map Block.span).sum =
        ((pre ++ b :: post).map Block.span).sum := by
  have hpayload := hinv.toNat_payload (b := b) (by simp)
  have hbounds := hinv.bounds (b := b) (by simp)
  obtain ⟨h₁, hsetFree, hinv₁⟩ := hinv.setFree true
  obtain ⟨h₂, hforward, hinv₂⟩ := hinv₁.combineForward
  obtain ⟨b', post', hjoin, haddr, -⟩ := joinForward_eq_cons { b with free := true } post
  have hsum : ((b' :: post').map Block.span).sum = ((b :: post).map Block.span).sum := by
    rw [← hjoin]
    exact hinv₁.span_joinForward
  rw [hjoin] at hinv₂ ⊢
  have hprev := hinv₂.reads.2.1
  have hstart : ¬ b.payload < kheapMapOffset := by
    rw [lt_def]
    omega
  rw [Kheap.kfree, if_neg hstart, Block.payload, add_sub_cancel]
  simp only [bind_eq_bind, hinv.reads.2.2.2, hused, bind_some, hsetFree]
  rw [hforward, bind_some, ← show b'.addr = b.addr from haddr, hprev]
  rcases eq_nil_or_concat pre with rfl | ⟨init, a, rfl⟩
  · exact ⟨h₂, rfl, hinv₂, hsum⟩
  · rw [concat_eq_append] at hinv₂ ⊢
    rw [List.append_assoc, List.singleton_append] at hinv₂
    rw [coalesce_append_singleton, lastOr_append]
    obtain ⟨h₃, hback, hinv₃⟩ := hinv₂.combineForward
    refine ⟨h₃, hback, hinv₃, ?_⟩
    have hsum' := hinv₂.span_joinForward
    simp only [map_append, sum_append, map_cons, sum_cons, map_nil, sum_nil]
      at hsum hsum' ⊢
    omega

theorem firstSuitable_eq (pre : List Block) (hinv : HeapInv h (pre ++ post)) (size : Word) {fuel : Nat}
    (hfuel : post.length ≤ fuel) :
    firstSuitable h size fuel (headOr Block.addr null post) =
      some ((post.find? (Block.suits size)).elim null Block.addr) := by
  induction post generalizing pre fuel with
  | nil => cases fuel <;> rfl
  | cons b post ih =>
    cases fuel with
    | zero => simp at hfuel
    | succ fuel =>
      obtain ⟨hnext, -, hsize, hfree⟩ := hinv.reads
      have hrest := ih (pre ++ [b]) (by rwa [List.append_assoc]) (Nat.le_of_succ_le_succ hfuel)
      rw [headOr, firstSuitable, if_neg (hinv.addr_ne_null (by simp)), hsize, hfree, hnext, List.find?_cons]
      simp only [Option.bind_eq_bind, Option.bind_some, hrest]
      by_cases hsuits : b.suits size = true
      · rw [if_pos (by simpa [Block.suits] using hsuits), hsuits, Option.elim_some]
      · rw [if_neg (by simpa [Block.suits] using hsuits), Bool.eq_false_iff.mpr hsuits]

theorem takeItem {size : Word} (hinv : HeapInv h (pre ++ b :: post)) (hsize : size.toNat % 8 = 0)
    (hroom : size.toNat + 32 ≤ b.size.toNat) :
    ∃ h', Kheap.takeItem h b.addr size (size + headerSize) = some (b.payload, h') ∧
      HeapInv h' (pre ++ (carve b size ++ post)) := by
  rw [Kheap.takeItem, hinv.reads.2.2.1, carve]
  simp only [bind_eq_bind, bind_some]
  split
  · obtain ⟨h₁, hsplit, hinv₁⟩ := hinv.splitItem hsize hroom rfl
    obtain ⟨h₂, hsetFree, hinv₂⟩ := hinv₁.setFree false
    rw [hsplit, bind_some, hsetFree]
    exact ⟨h₂, rfl, hinv₂⟩
  · obtain ⟨h₁, hsetFree, hinv₁⟩ := hinv.setFree false
    rw [hsetFree]
    exact ⟨h₁, rfl, hinv₁⟩

end HeapInv

variable {grant : Nat → Bool} {h : Heap} {i : Nat} {mem : Word → Word} {obtained : Bool}

theorem Extent.newPage (hextent : Extent h) (hobtains : h.obtains grant i = true) :
    (h.endVaddr + pageSize).toNat = h.endVaddr.toNat + 4096 ∧
      Extent { h with mem := zeroPage h.mem h.endVaddr, endVaddr := h.endVaddr + pageSize } := by
  rw [Heap.obtains, Bool.and_eq_true, decide_eq_true_iff, hextent.start] at hobtains
  obtain ⟨-, hroom⟩ := hobtains
  have hle := hextent.le
  have hpages := hextent.pages
  rw [kheapMapOffset_eq] at hle hroom
  rw [maxPages_eq] at hroom
  have hend : (h.endVaddr + pageSize).toNat = h.endVaddr.toNat + 4096 := by
    rw [toNat_add, toNat_pageSize]
    omega
  refine ⟨hend, hextent.start, ?_, ?_, ?_⟩ <;> simp only [kheapMapOffset_eq, maxPages_eq] <;> omega

theorem expandLoop_spec {left : Nat} {h' : Heap} (hextent : Extent h)
    (hloop : expandLoop grant left i h = (obtained, h')) :
    Extent h' ∧ h'.head = h.head ∧ h'.tail = h.tail ∧ h.endVaddr.toNat ≤ h'.endVaddr.toNat ∧
      (obtained = true → h'.endVaddr.toNat = h.endVaddr.toNat + 4096 * left) ∧
      ∀ a : Word, a.toNat < h.endVaddr.toNat → h'.mem a = h.mem a := by
  induction left generalizing i h with
  | zero =>
    cases hloop
    exact ⟨hextent, rfl, rfl, le_rfl, fun _ => rfl, fun _ _ => rfl⟩
  | succ left ih =>
    rw [expandLoop] at hloop
    split at hloop
    · rename_i hobtains
      obtain ⟨hend, hextent'⟩ := hextent.newPage hobtains
      obtain ⟨hfinal, hhead, htail, hle, hfull, hmem⟩ := ih hextent' hloop
      rw [hend] at hle hfull hmem
      refine ⟨hfinal, hhead, htail, by omega, fun hobtained => ?_, fun a ha => ?_⟩
      · rw [hfull hobtained]
        omega
      · exact (hmem a (by omega)).trans (if_neg (by omega))
    · cases hloop
      exact ⟨hextent, rfl, rfl, le_rfl, by simp, fun _ _ => rfl⟩

theorem Holds.congr {mem' : Word → Word} {b : Block} {prev next : Word} (hholds : Holds mem b prev next)
    (hmem : ∀ f : Field, mem' (b.addr + f.offset) = mem (b.addr + f.offset)) : Holds mem' b prev next := by
  constructor <;> rw [hmem]
  exacts [hholds.next_eq, hholds.prev_eq, hholds.size_eq, hholds.free_eq]

theorem HeapInv.expandLoop {h' : Heap} {blocks : List Block} {left : Nat} (hinv : HeapInv h blocks)
    (hloop : expandLoop grant left i h = (obtained, h')) : HeapInv h' blocks := by
  obtain ⟨hextent, hhead, htail, hle, -, hmem⟩ := expandLoop_spec hinv.toExtent hloop
  obtain ⟨top, htiles, htop⟩ := hinv.tiles
  refine { hextent with
    nonempty := hinv.nonempty, head := hhead.trans hinv.head, tail := htail.trans hinv.tail, chain := ?_
    tiles := ⟨top, htiles, by omega⟩, aligned := hinv.aligned }
  refine hinv.chain.frame fun b hb p n hholds => hholds.congr fun f => hmem _ ?_
  have hbounds := hinv.bounds hb
  have hoffset := f.offset_bounds
  rw [toNat_field (hinv.fits hb)]
  omega

theorem pagesCount_spec (size : Word) (hsize : size.toNat + 4096 < 2 ^ 43) :
    ∃ count : Nat, pagesCount size = count ∧ 0 < count ∧ size.toNat ≤ 4096 * count ∧
      4096 * count ≤ size.toNat + 4096 := by
  obtain ⟨hle, hpos, hroom, hmod⟩ := align_spec size pageSize (by decide)
    (by rw [toNat_pageSize]; omega)
  rw [toNat_pageSize] at hpos hroom hmod
  refine ⟨(align size pageSize).toNat / 4096, ?_, by omega, by omega, by omega⟩
  have hcount : ((align size pageSize / pageSize).setWidth 32).toNat = (align size pageSize).toNat / 4096 := by
    rw [toNat_setWidth, toNat_udiv, toNat_pageSize]
    omega
  rw [pagesCount, toInt_eq_toNat_of_lt (by omega), hcount]

def Heap.expands (h : Heap) (grant : Nat → Bool) (size : Word) : Bool :=
  (expandLoop grant (pagesCount size).toNat 0 h).1

theorem kheapExpand_spec {size : Word} (hextent : Extent h) (hsize : size.toNat + 4096 < 2 ^ 31)
    (hexpands : h.expands grant size = true) :
    ∃ allocated h', kheapExpand h grant size = some (allocated, h') ∧
      expandLoop grant (pagesCount size).toNat 0 h = (true, h') ∧
      size.toNat ≤ allocated.toNat ∧ 0 < allocated.toNat ∧ allocated.toNat % 8 = 0 ∧
      h'.endVaddr.toNat = h.endVaddr.toNat + allocated.toNat := by
  obtain ⟨count, hcount, hpos, hle, hroom⟩ := pagesCount_spec size (by omega)
  have hloop : expandLoop grant (pagesCount size).toNat 0 h =
      (true, (expandLoop grant (pagesCount size).toNat 0 h).2) := Prod.ext hexpands rfl
  have hend := (expandLoop_spec hextent hloop).2.2.2.2.1 rfl
  have hallocated : (BitVec.ofInt 64 (pagesCount size * 4096)).toNat = 4096 * count := by
    rw [BitVec.toNat_ofInt, hcount]
    omega
  refine ⟨BitVec.ofInt 64 (pagesCount size * 4096), _, ?_, hloop, ?_⟩
  · rw [kheapExpand, hloop]
    exact if_pos (by rw [hcount]; omega)
  · rw [hcount, Int.toNat_natCast] at hend
    rw [hallocated, hcount, Int.toNat_natCast, hend]
    omega

theorem Covered.grow {lo top : Nat} {pre : List Block} {t t' : Block} {more : Nat}
    (htiles : Covered lo top (pre ++ [t])) (haddr : t'.addr = t.addr) (hspan : t'.span = t.span + more) :
    Covered lo (top + more) (pre ++ [t']) := by
  obtain ⟨mid, hpre, hlast⟩ := tiles_append.mp htiles
  refine tiles_append.mpr ⟨mid, hpre, ?_⟩
  simp only [Tiles, haddr] at hlast ⊢
  omega

namespace HeapInv

variable {blocks pre : List Block} {t : Block} {size : Word}

theorem grow (hinv : HeapInv h (pre ++ [t])) (hsize : size.toNat + 4096 < 2 ^ 31)
    (hexpands : h.expands grant size = true) :
    ∃ allocated h₁ h₂, kheapExpand h grant size = some (allocated, h₁) ∧ allocated ≠ 0 ∧
      h₁.read h₁.tail .size = some t.size ∧ h₁.tail = t.addr ∧
      h₁.write h₁.tail .size (t.size + allocated) = some h₂ ∧ size.toNat ≤ (t.size + allocated).toNat ∧
      HeapInv h₂ (pre ++ [{ t with size := t.size + allocated }]) := by
  obtain ⟨allocated, h₁, hexpand, hloop, hle, hpos, hmod, hend⟩ := kheapExpand_spec hinv.toExtent hsize hexpands
  have hinv₁ := hinv.expandLoop hloop
  have hcovers := hinv₁.covers (b := t) (by simp)
  have htail : h₁.tail = t.addr := by
    rw [hinv₁.tail, lastOr_append]
    rfl
  have hbounds := hinv.bounds (b := t) (by simp)
  have haligned := hinv.aligned t (by simp)
  have hgrown : (t.size + allocated).toNat = t.size.toNat + allocated.toNat := by
    rw [toNat_add]
    omega
  refine ⟨allocated, h₁, _, hexpand, fun hzero => ?_, by rw [htail]; exact hinv₁.reads.2.2.1, htail,
    by rw [htail]; exact write_of_covers hcovers _ _, by omega, ?_⟩
  · rw [hzero] at hpos
    exact absurd hpos (by decide)
  · obtain ⟨top, htiles, htop⟩ := hinv.tiles
    refine hinv₁.rewrite rfl (by simp only [hgrown]; omega) (hinv₁.holds.setSize _)
      (fun c hapart hc p n hholds => hholds.setField_apart hapart hcovers.fits hc)
      ⟨top + allocated.toNat, htiles.grow rfl ?_, by omega⟩
    simp only [Block.span]
    omega

theorem getSuitableItem (hinv : HeapInv h blocks)
    (hrequest : blocks.any (Block.suits size) = true ∨ size.toNat + 4096 < 2 ^ 43 ∧
      (h.expands grant size = true → h.isFree h.tail = some true ∧ size.toNat + 4096 < 2 ^ 31)) :
    ∃ item h', Kheap.getSuitableItem h grant size = some (item, h') ∧
      ((item = null ∧ HeapInv h' blocks) ∨
        ∃ pre b post s, blocks = pre ++ b :: post ∧ b.free = true ∧ item = b.addr ∧
          size.toNat ≤ s.toNat ∧ HeapInv h' (pre ++ { b with size := s } :: post)) := by
  have hsearch := firstSuitable_eq [] hinv size hinv.length_le_fuel
  rw [← hinv.head] at hsearch
  rw [Kheap.getSuitableItem, hsearch]
  cases hfind : blocks.find? (Block.suits size) with
  | some b =>
    obtain ⟨hsuits, pre, post, hblocks, -⟩ := find?_eq_some_iff_append.mp hfind
    rw [Block.suits, Bool.and_eq_true, decide_eq_true_iff] at hsuits
    simp only [bind_eq_bind, bind_some, elim_some]
    rw [if_pos (hinv.addr_ne_null (by simp [hblocks]))]
    exact ⟨b.addr, h, rfl, .inr ⟨pre, b, post, b.size, hblocks, hsuits.1, rfl, hsuits.2, hblocks ▸ hinv⟩⟩
  | none =>
    have hnone : ¬ blocks.any (Block.suits size) = true := by
      simpa using hfind
    obtain ⟨hint, hgrow⟩ := hrequest.resolve_left hnone
    simp only [bind_eq_bind]
    by_cases hexpands : h.expands grant size = true
    · obtain ⟨hfree, hsize⟩ := hgrow hexpands
      obtain ⟨pre, t, rfl⟩ := (eq_nil_or_concat blocks).resolve_left hinv.nonempty
      rw [concat_eq_append] at hinv ⊢
      obtain ⟨allocated, h₁, h₂, hexpand, hne, hread, htail, hwrite, hle, hinv₂⟩ := hinv.grow hsize hexpands
      have htailFree : t.free = true := by
        have := hinv.reads.2.2.2
        rw [← show h.tail = t.addr by rw [hinv.tail, lastOr_append]; rfl, hfree] at this
        exact (some.inj this).symm
      rw [hexpand]
      simp only [bind_some, hne, hread, hwrite]
      have hitem : h₂.tail = t.addr := by
        rw [hinv₂.tail, lastOr_append]
        rfl
      exact ⟨_, _, rfl, .inr ⟨pre, t, [], _, rfl, htailFree, hitem, hle, hinv₂⟩⟩
    · have hloop : Kheap.expandLoop grant (pagesCount size).toNat 0 h =
          (false, (Kheap.expandLoop grant (pagesCount size).toNat 0 h).2) :=
        Prod.ext (Bool.eq_false_iff.mpr hexpands) rfl
      rw [kheapExpand, hloop]
      exact ⟨null, _, rfl, .inl ⟨rfl, hinv.expandLoop hloop⟩⟩

theorem kmalloc (hinv : HeapInv h blocks) (hsize : size.toNat + 48 ≤ 2 ^ 64)
    (hrequest : blocks.any (Block.suits (align size 8 + headerSize)) = true ∨
      (align size 8 + headerSize).toNat + 4096 < 2 ^ 43 ∧
      (h.expands grant (align size 8 + headerSize) = true →
        h.isFree h.tail = some true ∧ (align size 8 + headerSize).toNat + 4096 < 2 ^ 31)) :
    ∃ p h', Kheap.kmalloc h grant size = some (p, h') ∧
      ((p = null ∧ HeapInv h' blocks) ∨
        ∃ pre b post s, blocks = pre ++ b :: post ∧ b.free = true ∧ p = b.payload ∧
          size.toNat ≤ (align size 8).toNat ∧ (align size 8).toNat + 32 ≤ s.toNat ∧
          HeapInv h' (pre ++ (carve { b with size := s } (align size 8) ++ post))) := by
  obtain ⟨hle, -, hroom, hmod⟩ := align_spec size 8 (by decide)
    (by simp only [reduceToNat]; omega)
  simp only [reduceToNat] at hroom hmod
  have htotal : (align size 8 + headerSize).toNat = (align size 8).toNat + 32 := by
    simp only [headerSize, toNat_add, reduceToNat]
    omega
  obtain ⟨item, h₁, hitem, hcases⟩ := hinv.getSuitableItem hrequest
  simp only [Kheap.kmalloc, hitem, bind_eq_bind, bind_some]
  rcases hcases with ⟨rfl, hinv₁⟩ | ⟨pre, b, post, s, hblocks, hfree, rfl, hfits, hinv₁⟩
  · exact ⟨null, h₁, rfl, .inl ⟨rfl, hinv₁⟩⟩
  · rw [htotal] at hfits
    obtain ⟨h₂, htake, hinv₂⟩ := hinv₁.takeItem hmod hfits
    rw [if_neg (hinv₁.addr_ne_null (b := { b with size := s }) (by simp)), htake]
    exact ⟨_, h₂, rfl, .inr ⟨pre, b, post, s, hblocks, hfree, rfl, hle, hfits, hinv₂⟩⟩

end HeapInv

/-- The list `kheap_init` makes: one free block. -/
def initialBlock : Block := { addr := kheapMapOffset, size := kheapInitSize - headerSize, free := true }

theorem heapInv_kheapInit (hinit : kheapInit mem grant kheapMapOffset = some h) : HeapInv h [initialBlock] := by
  have hextent : Extent (unmappedHeap mem kheapMapOffset) :=
    ⟨rfl, le_rfl, Nat.le_add_right _ _, show kheapMapOffset.toNat % 4096 = 0 by decide⟩
  rw [kheapInit] at hinit
  by_cases hexpands : (unmappedHeap mem kheapMapOffset).expands grant kheapInitSize = true
  · obtain ⟨allocated, h₁, hexpand, hloop, hle, hpos, -, hend⟩ := kheapExpand_spec hextent (by decide) hexpands
    have hextent₁ := (expandLoop_spec hextent hloop).1
    have hne : allocated ≠ 0 := by
      rintro rfl
      exact absurd hpos (by decide)
    have hroom : kheapMapOffset.toNat + 8192000 ≤ h₁.endVaddr.toNat := by
      rw [hend]
      exact Nat.add_le_add_left hle _
    have hcovers : Covers kheapMapOffset h₁.endVaddr kheapMapOffset :=
      ⟨le_rfl, (Nat.add_le_add_left (by decide) _).trans hroom, by decide⟩
    rw [hexpand] at hinit
    simp only [bind_eq_bind, bind_some, hne, hextent₁.start, setFree_of_covers,
      write_of_covers, hcovers] at hinit
    cases hinit
    refine { start := rfl, le := hextent₁.le, limit := hextent₁.limit, pages := hextent₁.pages
             nonempty := by simp, head := rfl, tail := rfl, chain := ⟨?_, trivial⟩
             tiles := ⟨_, ⟨rfl, rfl⟩, hroom⟩, aligned := by simp; decide }
    exact (((holds_self h₁.mem kheapMapOffset).setFree _ true).setNext null).setPrev null |>.setSize _
  · have hloop : expandLoop grant (pagesCount kheapInitSize).toNat 0 (unmappedHeap mem kheapMapOffset) =
        (false, (expandLoop grant (pagesCount kheapInitSize).toNat 0 (unmappedHeap mem kheapMapOffset)).2) :=
      Prod.ext (Bool.eq_false_iff.mpr hexpands) rfl
    rw [kheapExpand, hloop] at hinit
    simp at hinit

end Kairax.Kheap
