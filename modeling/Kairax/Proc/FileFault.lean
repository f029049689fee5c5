import Kairax.Proc.Fault

/-!
# Page faults in mapped files

The fault handler, `tmpfs_mmap` and `map_vm_region`. `tmpfs_mmap` takes the number of blocks to map for the block to
stop at, so it maps nothing but block 0, and `map_vm_region` ends its loop at `align(offset)`, which is past `offset`
for offset 0 and no other multiple of the page size.
-/

namespace Kairax.Proc

open Paging Lib

/-- The loop of `map_vm_region` over the offsets of the pages. -/
def mapVmRegionLoop (root : Word) (region : MmapRange) : List Word → Word → Machine → Rc × Machine
  | [], _, m => (.ok, m)
  | i :: rest, physAddr, m =>
    if region.flags &&& mapShared ≠ 0 then
      match vmTableMap m root (region.base + i) physAddr region.protection with
      | (.ok, m) => mapVmRegionLoop root region rest (physAddr + pageSize) m
      | (rc, m) => (rc, m)
    else
      let (newp, m) := pmmAllocPage m
      let m := m.setPage (p2v newp) (m.mem (p2v physAddr))
      match vmTableMap m root (region.base + i) newp region.protection with
      | (.ok, m) => mapVmRegionLoop root region rest (physAddr + pageSize) m
      | (rc, m) => (rc, m)

/-- `map_vm_region`, which does not use the size it is given. -/
def mapVmRegion (m : Machine) (root : Word) (region : MmapRange) (physAddr offset : Word) : Rc × Machine :=
  let alignedOffset := alignDown offset pageSize
  let alignedSize := align offset pageSize
  mapVmRegionLoop root region (pageAddrs alignedOffset alignedSize) physAddr m

/-- `tmpfs_mmap` on a file with the given blocks, or without an inode. -/
def tmpfsMmap (inode : Option (List Word)) (m : Machine) (root : Word) (area : MmapRange) (offset size : Word) :
    Int × Machine :=
  let alignedOffset := alignDown offset pageSize
  let firstBlock := (alignDown offset pageSize / pageSize).toNat
  let blocks := (align size pageSize / pageSize).toNat
  match inode with
  | none => (-2, m)
  | some inode =>
    let m := (List.range' firstBlock (blocks - firstBlock)).foldl
      (fun m i => (mapVmRegion m root area (inode.getD i 0) (alignedOffset + BitVec.ofNat 64 i * pageSize)).2) m
    (0, m)

def blockIndex (r : MmapRange) (a : Word) : Nat :=
  (r.fileOffset.toNat + ((alignDown a pageSize).toNat - r.base.toNat)) / 4096

/-- A fault at `a` in a range that maps a tmpfs file, on a page that the file has as `block`. -/
structure FileFault (m : Machine) (p : Space) (r : MmapRange) (blocks : List Word) (a block : Word) : Prop where
  tree : TreeInv m p.root
  flat : FlatAlong m p.root (tablePath a)
  found : processGetRegionByAddr p.ranges a = some r
  absent : m.leaf p.root (pageNumber a) = none
  base_le : r.base.toNat ≤ a.toNat
  base_aligned : r.base.toNat % 4096 = 0
  offset_aligned : r.fileOffset.toNat % 4096 = 0
  count : blocks.length ≤ 2 ^ 52
  block_at : blocks[blockIndex r a]? = some block
  block_ne : block ≠ 0
  frame : IsFrame block
  kept : Kept m p.root (p2v block)

section Offset

variable {m : Machine} {p : Space} {r : MmapRange} {blocks : List Word} {a block : Word}

section

variable (hfault : FileFault m p r blocks a block)
include hfault

theorem FileFault.down_bounds :
    (alignDown a pageSize).toNat = a.toNat - a.toNat % 4096 ∧ r.base.toNat ≤ (alignDown a pageSize).toNat := by
  have hbase := hfault.base_aligned
  have hle := hfault.base_le
  rw [toNat_alignDown, toNat_pageSize]
  omega

theorem FileFault.offset : (alignDown (a - r.base + r.fileOffset) pageSize).toNat = 4096 * blockIndex r a := by
  obtain ⟨hdown, hbase⟩ := hfault.down_bounds
  have hindex := (List.getElem?_eq_some_iff.mp hfault.block_at).1
  have hcount := hfault.count
  have haligned := hfault.offset_aligned
  have hstart := hfault.base_aligned
  have hsum : (a - r.base + r.fileOffset).toNat = a.toNat - r.base.toNat + r.fileOffset.toNat := by
    rw [blockIndex] at hindex
    rw [BitVec.toNat_add, BitVec.toNat_sub]
    omega
  rw [toNat_alignDown, toNat_pageSize, hsum, blockIndex]
  omega

theorem FileFault.blockIndex_eq_zero : blockIndex r a = 0 ↔ r.fileOffset = 0 ∧ alignDown a pageSize = r.base := by
  obtain ⟨hdown, hbase⟩ := hfault.down_bounds
  have haligned := hfault.offset_aligned
  have hstart := hfault.base_aligned
  rw [blockIndex, ← BitVec.toNat_inj, ← BitVec.toNat_inj, show (0 : Word).toNat = 0 from rfl]
  omega

end

theorem tmpfsMmap_page (blocks : List Word) (m : Machine) (root : Word) (area : MmapRange) {offset : Word} {i : Nat}
    (hoffset : offset.toNat = 4096 * i) :
    (tmpfsMmap (some blocks) m root area offset pageSize).2 =
      if i = 0 then (mapVmRegion m root area (blocks.getD 0 0) 0).2 else m := by
  have hfirst : (alignDown offset pageSize / pageSize).toNat = i := by
    rw [BitVec.toNat_udiv, toNat_alignDown, toNat_pageSize]
    omega
  have hblocks : (align pageSize pageSize / pageSize).toNat = 1 := by decide
  rw [tmpfsMmap]
  simp only [hfirst, hblocks]
  split_ifs with hzero
  · subst hzero
    obtain rfl : offset = 0 := BitVec.eq_of_toNat_eq hoffset
    rfl
  · rw [show 1 - i = 0 by omega]
    rfl

end Offset

/-- A page of a file has become the page of an address, or a copy of it has if the range is not shared, and no other
page has changed. -/
structure FilePage (m m' : Machine) (root : Word) (shared : Bool) (block a : Word) (entry : Word) : Prop where
  leaf : m'.leaf root (pageNumber a) = some entry
  contents : m'.mem (p2v (getPageFrame entry)) = m.mem (p2v block)
  shares : shared = true → getPageFrame entry = block
  copies : shared = false → getPageFrame entry ≠ block
  others : ∀ n, n ≠ pageNumber a → m'.leaf root n = m.leaf root n

theorem FilePage.of_pageNumber {m m' : Machine} {root block a a' entry : Word} {shared : Bool}
    (hpage : FilePage m m' root shared block a entry) (hnumber : pageNumber a = pageNumber a') :
    FilePage m m' root shared block a' entry := by
  refine { hpage with leaf := ?_, others := ?_ }
  · rw [← hnumber, hpage.leaf]
  · rw [← hnumber]
    exact hpage.others

theorem shared_iff (r : MmapRange) : r.flags &&& mapShared ≠ 0 ↔ r.shared = true := by
  rw [MmapRange.shared, show mapShared = 1#32 from rfl,
    BitVec.and_one_eq_setWidth_ofBool_getLsbD]
  cases r.flags.getLsbD 0 <;> decide

section Map

variable {m : Machine} {root a block : Word} {r : MmapRange}

theorem mapVmRegion_zero (m : Machine) (root block : Word) (r : MmapRange) :
    (mapVmRegion m root r block 0).2 = (mapVmRegionLoop root r [0] block m).2 := by
  rw [mapVmRegion, show pageAddrs (alignDown 0 pageSize) (align 0 pageSize) = [0] by decide]

theorem mapVmRegion_page (htree : TreeInv m root) (hflat : FlatAlong m root (tablePath r.base))
    (habsent : m.leaf root (pageNumber r.base) = none) (hframe : IsFrame block)
    (hsupplied : Supplied m.pool (pageAllocs m root r.shared r.base)) :
    ∃ f, PagePlaced m (mapVmRegion m root r block 0).2 root (x86_64Prot2Flags r.protection) r.base block
      r.shared f := by
  have hbase : r.base + 0 = r.base := BitVec.add_zero _
  have hlast (x : Rc × Machine) (physAddr : Word) :
      (match x with
        | (.ok, m) => mapVmRegionLoop root r [] physAddr m
        | (rc, m) => (rc, m)).2 = x.2 := by
    obtain ⟨rc, m'⟩ := x
    cases rc <;> rfl
  rw [mapVmRegion_zero, mapVmRegionLoop, hbase]
  simp only [shared_iff]
  generalize r.shared = shared at hsupplied
  cases shared with
  | true =>
    rw [if_pos rfl, hlast]
    exact ⟨_, placed_shared htree hflat habsent hsupplied (prot_present _) hframe⟩
  | false =>
    obtain ⟨f, pool, hpool, hf, hrest⟩ := hsupplied.exists_cons
    rw [if_neg (by decide), pmmAllocPage, hpool]
    rw [hlast]
    exact ⟨f, placed_copy htree hflat habsent hpool hf hrest (prot_present _) block⟩

end Map

theorem filePage_of_placed {m m' : Machine} {root a block f : Word} {protection : BitVec 32} {shared : Bool}
    (hplaced : PagePlaced m m' root (x86_64Prot2Flags protection) a block shared f) (hkept : Kept m root (p2v block)) :
    FilePage m m' root shared block a (f ||| x86_64Prot2Flags protection) := by
  have hframe := getPageFrame_entry hplaced.frame (prot_noFrame protection)
  refine ⟨?_, ?_, ?_, ?_, ?_⟩
  · rw [hplaced.leaf, if_pos rfl]
  · rw [hframe]
    cases shared with
    | true =>
      rw [hplaced.shares rfl]
      exact (hplaced.keeps _ hkept).2
    | false => exact (hplaced.copies rfl).2.2.2
  · intro hshared
    rw [hframe, hplaced.shares hshared]
  · intro hprivate heq
    obtain ⟨hmem, hne, -, -⟩ := hplaced.copies hprivate
    rw [hframe] at heq
    exact hkept.2 f hmem hne (congrArg p2v heq)
  · intro n hn
    rw [hplaced.leaf, if_neg hn]

/-- What the fault handler is meant to do for a page that the file has. -/
def FaultContract (mmap : Nat → MmapOp) (free : Bool) (m : Machine) (p : Space) (r : MmapRange) (a block : Word) :
    Prop :=
  (processHandlePageFault mmap free m p a).1 = 1 →
    ∃ entry, FilePage m (processHandlePageFault mmap free m p a).2 p.root r.shared block a entry

/-- If no `pmm_alloc_page` fails, a fault brings in the page of the file exactly when the lock is free and the page is
the first of both the range and the file, or a guard page. Only the first block of a file takes pages. -/
theorem fileFault_iff {mmap : Nat → MmapOp} {free : Bool} {m : Machine} {p : Space} {r : MmapRange} {file : Nat}
    {blocks : List Word} {a block : Word} (hfile : r.file = some file)
    (hmmap : mmap file = fun m root area offset size => (tmpfsMmap (some blocks) m root area offset size).2)
    (hfault : FileFault m p r blocks a block)
    (hsupplied : blockIndex r a = 0 → Supplied m.pool (pageAllocs m p.root r.shared a)) :
    FaultContract mmap free m p r a block ↔
      free = true ∧ alignDown a pageSize = r.base ∧ (r.fileOffset = 0 ∨ r.flags &&& mapStack = mapStack) := by
  have hunmapped : ¬ ∃ entry, FilePage m m p.root r.shared block a entry := by
    rintro ⟨entry, hpage⟩
    exact absurd (hfault.absent.symm.trans hpage.leaf) (by simp)
  rw [FaultContract, processHandlePageFault]
  cases free with
  | false =>
    simp only [Bool.false_eq_true, if_false, false_and, iff_false, not_forall]
    exact ⟨trivial, hunmapped⟩
  | true =>
    simp only [if_true, hfault.found, true_and]
    by_cases hguard : r.flags &&& mapStack = mapStack ∧ alignDown a pageSize = r.base
    · simp only [hguard, and_self, if_true, or_true, zero_ne_one, false_implies]
    · simp only [if_neg hguard, hfile, hmmap, forall_const]
      rw [tmpfsMmap_page blocks m p.root r hfault.offset]
      split_ifs with hindex
      · obtain ⟨hzero, hbase⟩ := hfault.blockIndex_eq_zero.mp hindex
        have hnumber : pageNumber r.base = pageNumber a := by rw [← hbase, pageNumber_alignDown]
        have hpath := tablePath_of_pageNumber hnumber
        have hblock : blocks.getD 0 0 = block := by
          rw [List.getD_eq_getElem?_getD, ← hindex, hfault.block_at, Option.getD_some]
        obtain ⟨f, hplaced⟩ := mapVmRegion_page hfault.tree (hpath ▸ hfault.flat)
          (hnumber ▸ hfault.absent) hfault.frame (by rw [pageAllocs, hpath]; exact hsupplied hindex)
        rw [hblock]
        exact iff_of_true ⟨_, (filePage_of_placed hplaced hfault.kept).of_pageNumber hnumber⟩ ⟨hbase, .inl hzero⟩
      · apply iff_of_false hunmapped
        rintro ⟨hbase, hzero | hstack⟩
        · exact hindex (hfault.blockIndex_eq_zero.mpr ⟨hzero, hbase⟩)
        · exact hguard ⟨hstack, hbase⟩

def twoBlocks : Nat → MmapOp :=
  fun _ m root area offset size => (tmpfsMmap (some [0x20000, 0x21000]) m root area offset size).2

def twoPages : MmapRange where
  base := 0x400000
  length := 0x2000
  protection := 0xA
  flags := mapPrivate
  fileOffset := 0
  file := some 0
  refs := 1

theorem fileFault_firstPage :
    FaultContract twoBlocks true emptyMachine
      { root := p2v 0x1000, ranges := [twoPages] } twoPages 0x400010 0x20000 := by
  obtain ⟨htree, hflat⟩ := treeInv_emptyMachine
  have hkept : Kept emptyMachine (p2v 0x1000) (p2v 0x20000) := by
    apply kept_of_empty (fun _ => rfl) (by decide)
    intro f hf _
    simp only [emptyMachine, List.mem_cons, List.not_mem_nil, or_false] at hf
    obtain rfl | rfl | rfl | rfl := hf <;> decide
  have hfault : FileFault emptyMachine { root := p2v 0x1000, ranges := [twoPages] } twoPages [0x20000, 0x21000]
      0x400010 0x20000 :=
    { tree := htree
      flat := hflat.along _
      found := by decide
      absent := by decide
      base_le := by decide
      base_aligned := by decide
      offset_aligned := by decide
      count := by decide
      block_at := by decide
      block_ne := by decide
      frame := ⟨by decide, by decide⟩
      kept := hkept }
  exact (fileFault_iff rfl rfl hfault fun _ => by decide).mpr ⟨rfl, by decide, .inl (by decide)⟩

/-- A fault in the second page, or in a mapping of the second block, is reported as handled but nothing is mapped. -/
theorem fileFault_nothing :
    ((processHandlePageFault twoBlocks true emptyMachine { root := p2v 0x1000, ranges := [twoPages] } 0x401010).1 = 1 ∧
      (processHandlePageFault twoBlocks true emptyMachine { root := p2v 0x1000, ranges := [twoPages] } 0x401010).2.leaf
        (p2v 0x1000) (pageNumber 0x401010) = none) ∧
    (processHandlePageFault twoBlocks true emptyMachine
        { root := p2v 0x1000, ranges := [{ twoPages with fileOffset := 0x1000 }] } 0x400010).1 = 1 ∧
      (processHandlePageFault twoBlocks true emptyMachine
        { root := p2v 0x1000, ranges := [{ twoPages with fileOffset := 0x1000 }] } 0x400010).2.leaf
        (p2v 0x1000) (pageNumber 0x400010) = none := by
  decide

end Kairax.Proc
