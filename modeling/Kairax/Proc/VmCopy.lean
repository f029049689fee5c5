import Kairax.Lib.Paged
import Kairax.Proc.Fork
import Kairax.Proc.Layout

/-!
# Writing to the memory of a process

`arch_vm_memcpy` and `arch_vm_memset` write through the tables of a process, and `process_alloc_memory` gives a range
its pages. `Holds` relates the machine to pages with flags and bytes, which are known because no other page has their
frames.
-/

namespace Kairax.Proc

open Paging Lib List Option BitVec Function

def replaceByte (x : Word) (i : Nat) (b : Byte) : Word :=
  (x &&& ~~~(0xFF#64 <<< (8 * i))) ||| (b.setWidth 64 <<< (8 * i))

theorem replaceByte_same (x : Word) {i : Nat} (hi : i < 8) (b : Byte) :
    (replaceByte x i b >>> (8 * i)).setWidth 8 = b := by
  apply eq_of_getLsbD_eq
  intro j hj
  have hmask : ∀ n < 8, (0xFF#64).getLsbD n = true := by decide
  have hlt : 8 * i + j < 64 := by omega
  have hge : ¬ 8 * i + j < 8 * i := by omega
  simp only [replaceByte]
  simp [hj, hlt, hmask j hj, hj.trans_le (by decide : 8 ≤ 64)]

theorem replaceByte_other (x : Word) {i i' : Nat} (hi' : i' < 8) (hne : i' ≠ i) (b : Byte) :
    (replaceByte x i b >>> (8 * i')).setWidth 8 = (x >>> (8 * i')).setWidth 8 := by
  apply eq_of_getLsbD_eq
  intro j hj
  have hlt : 8 * i' + j < 64 := by omega
  have hout : ∀ n, 8 ≤ n → n < 64 → (0xFF#64).getLsbD n = false := by decide
  simp only [replaceByte, getLsbD_setWidth, getLsbD_ushiftRight, getLsbD_or, getLsbD_and,
    getLsbD_not, getLsbD_shiftLeft]
  by_cases hbelow : 8 * i' + j < 8 * i
  · simp [hlt, hbelow]
  · have hge : 8 ≤ 8 * i' + j - 8 * i := by omega
    simp [hlt, hout _ hge (by omega), getLsbD_of_ge b _ hge]

def putByte (page : BitVec 9 → Word) (a : Word) (b : Byte) : BitVec 9 → Word :=
  update page (pageIndex 3 a) (replaceByte (page (pageIndex 3 a)) (a.toNat % 8) b)

theorem toNat_pageIndex_three (a : Word) : (pageIndex 3 a).toNat = a.toNat / 8 % 512 := by
  have hmask : a.toNat / 2 ^ 3 &&& (0x1FF : Word).toNat = a.toNat / 2 ^ 3 % 2 ^ 9 :=
    Nat.and_two_pow_sub_one_eq_mod (a.toNat / 2 ^ 3) 9
  rw [pageIndex, toNat_setWidth, toNat_and, toNat_ushiftRight, Nat.shiftRight_eq_div_pow]
  omega

variable {a a' f : Word} {q : List (BitVec 9)}

theorem pageIndex_three_congr (hlow : a.toNat % 4096 = a'.toNat % 4096) : pageIndex 3 a = pageIndex 3 a' := by
  apply eq_of_toNat_eq
  rw [toNat_pageIndex_three, toNat_pageIndex_three]
  omega

theorem putByte_congr (hlow : a.toNat % 4096 = a'.toNat % 4096) (page : BitVec 9 → Word) (b : Byte) :
    putByte page a b = putByte page a' b := by
  have hmod : a.toNat % 8 = a'.toNat % 8 := by omega
  rw [putByte, putByte, pageIndex_three_congr hlow, hmod]

theorem byteAt_putByte (page : BitVec 9 → Word) (hpage : a'.toNat / 4096 = a.toNat / 4096) (b : Byte) :
    byteAt (putByte page a b) a' = if a'.toNat = a.toNat then b else byteAt page a' := by
  rw [byteAt, putByte]
  by_cases hindex : pageIndex 3 a' = pageIndex 3 a
  · rw [hindex, update_self]
    have hnat := congrArg BitVec.toNat hindex
    rw [toNat_pageIndex_three, toNat_pageIndex_three] at hnat
    split_ifs with heq
    · rw [heq, replaceByte_same _ (Nat.mod_lt _ (by decide))]
    · rw [replaceByte_other _ (Nat.mod_lt _ (by decide)) (by omega), byteAt, hindex]
  · rw [update_of_ne hindex, if_neg, byteAt]
    intro heq
    exact hindex (pageIndex_three_congr (by rw [heq]))

theorem toNat_getPageOffset (a : Word) : (getPageOffset a).toNat = a.toNat % 4096 := by
  exact Nat.and_two_pow_sub_one_eq_mod a.toNat 12

theorem toNat_phys (hframe : IsFrame f) (a : Word) : (f + getPageOffset a).toNat = f.toNat + a.toNat % 4096 := by
  obtain ⟨hmod, hlt⟩ := hframe
  rw [toNat_add, toNat_getPageOffset]
  omega

theorem getPageFrame_phys (hframe : IsFrame f) (a : Word) : getPageFrame (f + getPageOffset a) = f := by
  have hand : f &&& getPageOffset a = 0 := by
    have hsub : getPageOffset a = flagMask &&& getPageOffset a := by
      rw [getPageOffset, ← BitVec.and_assoc, BitVec.and_comm flagMask, BitVec.and_assoc,
        show flagMask &&& 0xFFF = 0xFFF by decide]
    rw [hsub, ← BitVec.and_assoc, show f &&& flagMask = 0 from getPageFlags_of_isFrame hframe]
    exact zero_and
  have hoffset : getPageFrame (getPageOffset a) = 0 := by
    rw [getPageOffset, getPageFrame, BitVec.and_assoc]
    exact and_zero
  rw [add_eq_or_of_and_eq_zero _ _ hand, getPageFrame_or, getPageFrame_of_isFrame hframe, hoffset]
  exact or_zero

def setByte (m : Machine) (pa : Word) (b : Byte) : Machine :=
  m.setPage (p2v (getPageFrame pa)) (putByte (m.mem (p2v (getPageFrame pa))) pa b)

/-- The loop of `arch_vm_memcpy`, from byte `i` on, with the number of bytes that were copied. -/
def vmMemcpyFrom (root dst : Word) (src : Buf) : Nat → Nat → Machine → Nat × Machine
  | i, 0, m => (i, m)
  | i, n + 1, m =>
    let physAddr := getPhysicalAddress m root (dst + BitVec.ofNat 64 i)
    if physAddr = 0 then (i, m) else vmMemcpyFrom root dst src (i + 1) n (setByte m physAddr (src i))

def archVmMemcpy (m : Machine) (root dst : Word) (src : Buf) (size : Nat) : Nat × Machine :=
  vmMemcpyFrom root dst src 0 size m

def archVmMemset (m : Machine) (root addr : Word) (val : Byte) (size : Word) : Machine :=
  (range ((addr + size).toNat - addr.toNat)).foldl
    (fun m k => (archVmMemcpy m root (addr + BitVec.ofNat 64 k) (fun _ => val) 1).2) m

/-- The body of the loop of `process_alloc_memory`, as far as memory goes. -/
def allocPage (root : Word) (flags : BitVec 32) (m : Machine) (address : Word) : Machine :=
  let (pageAddr, m) := pmmAllocPage m
  let m := m.setPage (p2v pageAddr) fun _ => 0
  (vmTableMap m root address pageAddr flags).2

def processAllocMemory (p : Process) (m : Machine) (root start size : Word) (flags : BitVec 32) : Process × Machine :=
  let startAligned := alignDown start pageSize
  let endAddr := align (start + size) pageSize
  let range : MmapRange :=
    { base := startAligned
      length := endAddr - startAligned
      protection := flags
      flags := mapPrivate
      fileOffset := 0
      file := none
      refs := 0 }
  let growBrk (brk address : Word) : Word := if address + pageSize > brk then address + pageSize else brk
  ({ ranges := processAddMmapRegion p.ranges range
     brk := (pageAddrs startAligned endAddr).foldl growBrk p.brk },
    (pageAddrs startAligned endAddr).foldl (allocPage root flags) m)

theorem vmMemcpyFrom_pool (root dst : Word) (src : Buf) (i n : Nat) (m : Machine) :
    (vmMemcpyFrom root dst src i n m).2.pool = m.pool := by
  induction n generalizing i m with
  | zero => rfl
  | succ n ih =>
    rw [vmMemcpyFrom]
    split_ifs
    · rfl
    · rw [ih]
      rfl

theorem archVmMemset_pool (m : Machine) (root addr : Word) (val : Byte) (size : Word) :
    (archVmMemset m root addr val size).pool = m.pool := by
  rw [archVmMemset]
  induction (range ((addr + size).toNat - addr.toNat)) generalizing m with
  | nil => rfl
  | cons k l ih =>
    rw [foldl_cons, ih]
    exact vmMemcpyFrom_pool root _ _ 0 1 m

/-- The machine holds a memory. Of the pages that are the process's own the bytes are known. -/
structure Holds (m : Machine) (root : Word) (own : Nat → Prop) (s : Paged Word) : Prop where
  tree : TreeInv m root
  flat : ∀ a : Word, a.toNat < 2 ^ 47 → FlatAlong m root (tablePath a)
  flags : ∀ a : Word, a.toNat < 2 ^ 47 → (m.leaf root (pageNumber a)).map getPageFlags = s.flags (a.toNat / 4096)
  kept : ∀ a : Word, a.toNat < 2 ^ 47 → ∀ entry, m.leaf root (pageNumber a) = some entry →
    Kept m root (p2v (getPageFrame entry))
  byte : ∀ a : Word, a.toNat < 2 ^ 47 → own (a.toNat / 4096) → ∀ entry, m.leaf root (pageNumber a) = some entry →
    getPageFrame entry ≠ 0 ∧ byteAt (m.mem (p2v (getPageFrame entry))) a = s.byte a.toNat
  apart : ∀ a a' : Word, a.toNat < 2 ^ 47 → a'.toNat < 2 ^ 47 → own (a.toNat / 4096) →
    a.toNat / 4096 ≠ a'.toNat / 4096 → ∀ entry entry', m.leaf root (pageNumber a) = some entry →
    m.leaf root (pageNumber a') = some entry' → p2v (getPageFrame entry) ≠ p2v (getPageFrame entry')

theorem pageNumber_eq_iff (ha : a.toNat < 2 ^ 47) (ha' : a'.toNat < 2 ^ 47) :
    pageNumber a = pageNumber a' ↔ a.toNat / 4096 = a'.toNat / 4096 := by
  rw [← toNat_inj, toNat_pageNumber (by omega), toNat_pageNumber (by omega)]

section Steps

variable {m m' : Machine} {root : Word} {own : Nat → Prop} {s : Paged Word} (hholds : Holds m root own s)

include hholds

theorem Holds.of_keeps (htree : TreeInv m' root)
    (hflat : ∀ full, full.length ≤ 3 → FlatAlong m root full → FlatAlong m' root full) (hkeeps : Keeps root m m')
    (hleaf : ∀ n, m'.leaf root n = m.leaf root n) : Holds m' root own s := by
  refine ⟨htree, fun a ha => hflat _ (by simp [tablePath]) (hholds.flat a ha), ?_, ?_, ?_, ?_⟩
  · intro a ha
    rw [hleaf, hholds.flags a ha]
  · intro a ha entry hentry
    rw [hleaf] at hentry
    exact (hkeeps _ (hholds.kept a ha entry hentry)).1
  · intro a ha hown entry hentry
    rw [hleaf] at hentry
    rw [(hkeeps _ (hholds.kept a ha entry hentry)).2]
    exact hholds.byte a ha hown entry hentry
  · intro a a' ha ha' hown hne entry entry' hentry hentry'
    rw [hleaf] at hentry hentry'
    exact hholds.apart a a' ha ha' hown hne entry entry' hentry hentry'

variable (ha : a.toNat < 2 ^ 47)

include ha

theorem Holds.of_filled {flags : Word} (hnone : m.leaf root (pageNumber a) = none)
    (hflags : getPageFrame flags = 0) (hfilled : PageFilled m m' root flags a (fun _ => 0) f) :
    Holds m' root own (s.mapRange 4096 (a.toNat / 4096) (a.toNat / 4096 + 1) flags) := by
  have hmissing : s.flags (a.toNat / 4096) = none := by rw [← hholds.flags a ha, hnone, map_none]
  have hframe : getPageFrame (f ||| flags) = f := getPageFrame_entry hfilled.frame hflags
  have hnew {a' entry : Word} (ha' : a'.toNat < 2 ^ 47) (hpage : a'.toNat / 4096 = a.toNat / 4096)
      (hentry : m'.leaf root (pageNumber a') = some entry) : entry = f ||| flags := by
    rw [hfilled.leaf, if_pos ((pageNumber_eq_iff ha' ha).mpr hpage)] at hentry
    exact (some.inj hentry).symm
  have hold {a' : Word} (ha' : a'.toNat < 2 ^ 47) (hpage : a'.toNat / 4096 ≠ a.toNat / 4096) :
      m'.leaf root (pageNumber a') = m.leaf root (pageNumber a') := by
    rw [hfilled.leaf, if_neg fun h => hpage ((pageNumber_eq_iff ha' ha).mp h)]
  have hfresh {a' entry : Word} (ha' : a'.toNat < 2 ^ 47) (hentry : m.leaf root (pageNumber a') = some entry) :
      p2v f ≠ p2v (getPageFrame entry) := (hholds.kept a' ha' entry hentry).2 f hfilled.taken hfilled.nonzero
  refine ⟨hfilled.tree, fun a' ha' => hfilled.flat _ (by simp [tablePath]) (hholds.flat a' ha'), ?_, ?_, ?_, ?_⟩
  · intro a' ha'
    rw [Paged.flags_mapRange]
    by_cases hpage : a'.toNat / 4096 = a.toNat / 4096
    · rw [hfilled.leaf, if_pos ((pageNumber_eq_iff ha' ha).mpr hpage), hpage, if_pos (by omega), hmissing,
        map_some, getPageFlags_entry hfilled.frame hflags]
      rfl
    · rw [hold ha' hpage, if_neg (by omega), hholds.flags a' ha']
  · intro a' ha' entry hentry
    by_cases hpage : a'.toNat / 4096 = a.toNat / 4096
    · rw [hnew ha' hpage hentry, hframe]
      exact hfilled.kept
    · rw [hold ha' hpage] at hentry
      exact (hfilled.keeps _ (hholds.kept a' ha' entry hentry)).1
  · intro a' ha' hown entry hentry
    rw [Paged.byte_mapRange]
    by_cases hpage : a'.toNat / 4096 = a.toNat / 4096
    · rw [hnew ha' hpage hentry, hframe, hfilled.contents, if_pos ⟨by omega, by rw [hpage, hmissing]⟩, byteAt]
      exact ⟨hfilled.nonzero, by rw [ofNat_eq_ofNat, zero_ushiftRight]; rfl⟩
    · rw [hold ha' hpage] at hentry
      rw [(hfilled.keeps _ (hholds.kept a' ha' entry hentry)).2, if_neg (by omega)]
      exact hholds.byte a' ha' hown entry hentry
  · intro a₁ a₂ ha₁ ha₂ hown hne entry entry' hentry hentry'
    by_cases hpage : a₁.toNat / 4096 = a.toNat / 4096
    · rw [hold ha₂ (by omega)] at hentry'
      rw [hnew ha₁ hpage hentry, hframe]
      exact hfresh ha₂ hentry'
    · rw [hold ha₁ hpage] at hentry
      by_cases hpage' : a₂.toNat / 4096 = a.toNat / 4096
      · rw [hnew ha₂ hpage' hentry', hframe]
        exact (hfresh ha₁ hentry).symm
      · rw [hold ha₂ hpage'] at hentry'
        exact hholds.apart a₁ a₂ ha₁ ha₂ hown hne entry entry' hentry hentry'

theorem Holds.allocPage (flags : BitVec 32) (hsupplied : Supplied m.pool 4) :
    Holds (allocPage root flags m a) root own
        (s.mapRange 4096 (a.toNat / 4096) (a.toNat / 4096 + 1) (x86_64Prot2Flags flags)) ∧
      ∃ k ≤ 4, (Proc.allocPage root flags m a).pool = m.pool.drop k := by
  obtain ⟨f, pool, hpool, hf, hrest⟩ := hsupplied.exists_cons
  have hflat := hholds.flat a ha
  have hcall : Proc.allocPage root flags m a =
      (mapPageMem (m.take f pool fun _ => 0) root a f (x86_64Prot2Flags flags)).2 := by
    rw [Proc.allocPage, pmmAllocPage, hpool]
    rfl
  rw [hcall]
  cases hleaf : m.leaf root (pageNumber a) with
  | none =>
    have hfilled := filled hholds.tree hflat hleaf hpool hf (hrest.mono (missing_le m root (tablePath a)))
      (prot_present flags) fun _ => 0
    obtain ⟨k, hk, hpool'⟩ := hfilled.pool
    exact ⟨hholds.of_filled ha hleaf (prot_noFrame flags) hfilled, k,
      hk.trans (Nat.succ_le_succ (missing_le m root (tablePath a))), hpool'⟩
  | some entry =>
    -- The page is there already: the new frame is lost.
    have hinv' : TreeInv (m.take f pool fun _ => 0) root := hholds.tree.take hpool hf
    have hflat' : FlatAlong (m.take f pool fun _ => 0) root (tablePath a) :=
      hflat.take (by simp [tablePath]) hholds.tree hpool hf
    have htake := leaf_take hholds.tree hpool hf fun _ => 0
    obtain ⟨htree, hkeep, hrc, hentries⟩ := mapPageMem_leaf hinv' hflat' f (x86_64Prot2Flags flags)
    obtain ⟨k, hk, hpool'⟩ := mapPageMem_pool hinv' hflat' f (x86_64Prot2Flags flags)
    have hle := hk.trans (missing_le _ root (tablePath a))
    rw [htake, hleaf, isSome_some] at hrc
    have hsame : s.mapRange 4096 (a.toNat / 4096) (a.toNat / 4096 + 1) (x86_64Prot2Flags flags) = s := by
      have hthere : s.flags (a.toNat / 4096) = some (getPageFlags entry) := by
        rw [← hholds.flags a ha, hleaf, map_some]
      refine Paged.ext_of (fun n => ?_) fun b => ?_
      · rw [Paged.flags_mapRange]
        split_ifs with hn
        · obtain rfl : n = a.toNat / 4096 := by omega
          rw [hthere, getD_some]
        · rfl
      · rw [Paged.byte_mapRange, if_neg]
        rintro ⟨hn, hnone⟩
        rw [show b / 4096 = a.toNat / 4096 by omega, hthere] at hnone
        cases hnone
    rw [hsame]
    refine ⟨hholds.of_keeps htree (fun full hfull h => hkeep full hfull (h.take hfull hholds.tree hpool hf))
      ((Keeps.take hholds.tree hpool hf).trans (mapPageMem_keeps hinv' hflat' _ _)) fun n => ?_, k + 1,
      Nat.succ_le_succ hle, ?_⟩
    · rw [hentries, hrc, if_neg (by simp), htake]
    · rw [hpool', hpool]
      rfl

theorem Holds.setByte {entry : Word} (hleaf : m.leaf root (pageNumber a) = some entry) (b : Byte) :
    Holds (setByte m (getPageFrame entry + getPageOffset a) b) root own (s.write 4096 a.toNat 1 fun _ => b) := by
  have hframe := isFrame_getPageFrame entry
  have hkept := hholds.kept a ha entry hleaf
  have hcall : Proc.setByte m (getPageFrame entry + getPageOffset a) b =
      m.setPage (p2v (getPageFrame entry)) (putByte (m.mem (p2v (getPageFrame entry))) a b) := by
    have hlow : (getPageFrame entry + getPageOffset a).toNat % 4096 = a.toNat % 4096 := by
      rw [toNat_phys hframe]
      have hmod := hframe.1
      omega
    rw [Proc.setByte, getPageFrame_phys hframe, putByte_congr hlow]
  have hthere : (s.flags (a.toNat / 4096)).isSome := by
    rw [← hholds.flags a ha, hleaf]
    rfl
  rw [hcall]
  refine ⟨treeInv_setPage hkept hholds.tree,
    fun a' ha' => flatAlong_setPage hkept (by simp [tablePath]) (hholds.flat a' ha'), ?_, ?_, ?_, ?_⟩
  · intro a' ha'
    rw [leaf_setPage hkept, Paged.flags_write, hholds.flags a' ha']
  · intro a' ha' entry' hentry'
    rw [leaf_setPage hkept] at hentry'
    exact kept_setPage hkept (hholds.kept a' ha' entry' hentry')
  · intro a' ha' hown entry' hentry'
    rw [leaf_setPage hkept] at hentry'
    obtain ⟨hnonzero, hbyte⟩ := hholds.byte a' ha' hown entry' hentry'
    refine ⟨hnonzero, ?_⟩
    rw [Paged.byte_write]
    by_cases hpage : a'.toNat / 4096 = a.toNat / 4096
    · rw [(pageNumber_eq_iff ha' ha).mpr hpage, hleaf] at hentry'
      cases hentry'
      rw [setPage_same, byteAt_putByte _ hpage, hbyte]
      exact if_congr ⟨fun h => ⟨by omega, by rw [hpage]; exact hthere⟩, fun h => by omega⟩ rfl rfl
    · have hne := hholds.apart a' a ha' ha hown hpage entry' entry hentry' hleaf
      rw [setPage_of_ne m hne, hbyte, if_neg (by omega)]
  · intro a₁ a₂ ha₁ ha₂ hown hne entry₁ entry₂ hentry₁ hentry₂
    rw [leaf_setPage hkept] at hentry₁ hentry₂
    exact hholds.apart a₁ a₂ ha₁ ha₂ hown hne entry₁ entry₂ hentry₁ hentry₂

omit ha

include ha

theorem Holds.lookup :
    (m.leaf root (pageNumber a) = none ∧ getPhysicalAddress m root a = 0) ∨
      ∃ entry, m.leaf root (pageNumber a) = some entry ∧
        getPhysicalAddress m root a = getPageFrame entry + getPageOffset a := by
  rw [leaf_pageNumber]
  obtain ⟨hleaf, hphys, -⟩ | ⟨entry, hleaf, hphys, -⟩ := lookup_cases a (hholds.flat a ha)
  · exact .inl ⟨hleaf, hphys⟩
  · exact .inr ⟨entry, hleaf, hphys⟩

theorem Holds.phys_ne_zero {entry : Word} (hown : own (a.toNat / 4096))
    (hleaf : m.leaf root (pageNumber a) = some entry) : getPageFrame entry + getPageOffset a ≠ 0 := by
  intro hzero
  refine (hholds.byte a ha hown entry hleaf).1 (BitVec.eq_of_toNat_eq ?_)
  have hnat := congrArg BitVec.toNat hzero
  rw [toNat_phys (isFrame_getPageFrame entry)] at hnat
  exact (Nat.add_eq_zero_iff.mp hnat).1

theorem Holds.poke (val : Byte) :
    Holds (archVmMemcpy m root a (fun _ => val) 1).2 root own (s.write 4096 a.toNat 1 fun _ => val) := by
  have hzero : a + BitVec.ofNat 64 0 = a := BitVec.add_zero a
  rw [archVmMemcpy, vmMemcpyFrom, hzero]
  by_cases hphys : getPhysicalAddress m root a = 0
  · -- Nothing is written, and the page is none of the process's own.
    rw [if_pos hphys]
    refine { hholds with byte := ?_ }
    intro a' ha' hown entry hleaf
    obtain ⟨hnonzero, hbyte⟩ := hholds.byte a' ha' hown entry hleaf
    refine ⟨hnonzero, ?_⟩
    rw [Paged.byte_write, if_neg, hbyte]
    rintro ⟨hin, -⟩
    obtain rfl : a' = a := eq_of_toNat_eq (by omega)
    obtain ⟨hnone, -⟩ | ⟨entry', hleaf', haddr⟩ := hholds.lookup ha
    · rw [hnone] at hleaf
      cases hleaf
    · exact hholds.phys_ne_zero ha hown hleaf' (haddr.symm.trans hphys)
  · rw [if_neg hphys]
    obtain ⟨-, haddr⟩ | ⟨entry, hleaf, haddr⟩ := hholds.lookup ha
    · exact absurd haddr hphys
    · rw [haddr]
      exact hholds.setByte ha hleaf val

omit ha

theorem Holds.fill {addr : Word} (val : Byte) (n : Nat) (hroom : addr.toNat + n ≤ 2 ^ 47) :
    Holds ((range n).foldl
        (fun m k => (archVmMemcpy m root (addr + BitVec.ofNat 64 k) (fun _ => val) 1).2) m) root own
      (s.write 4096 addr.toNat n fun _ => val) := by
  induction n with
  | zero =>
    rw [Paged.write_zero]
    exact hholds
  | succ n ih =>
    have hnat : (addr + BitVec.ofNat 64 n).toNat = addr.toNat + n := toNat_add_ofNat (by omega)
    rw [range_succ, foldl_append, Paged.write_succ, ← hnat]
    exact (ih (by omega)).poke (by omega) val

theorem Holds.memset (addr size : Word) (val : Byte) (hroom : addr.toNat + size.toNat ≤ 2 ^ 47) :
    Holds (archVmMemset m root addr val size) root own (s.write 4096 addr.toNat size.toNat fun _ => val) := by
  have hcount : (addr + size).toNat - addr.toNat = size.toNat := by
    rw [BitVec.toNat_add]
    omega
  rw [archVmMemset, hcount]
  exact hholds.fill val _ hroom

theorem Holds.copyFrom (dst : Word) (src : Buf) (n i : Nat) (hroom : dst.toNat + i + n ≤ 2 ^ 47)
    (hown : ∀ k < n, own ((dst.toNat + i + k) / 4096) ∧ (s.flags ((dst.toNat + i + k) / 4096)).isSome) :
    Holds (vmMemcpyFrom root dst src i n m).2 root own (s.write 4096 (dst.toNat + i) n fun k => src (i + k)) := by
  induction n generalizing i m s with
  | zero =>
    rw [Paged.write_zero]
    exact hholds
  | succ n ih =>
    have hnat : (dst + BitVec.ofNat 64 i).toNat = dst.toNat + i := toNat_add_ofNat (by omega)
    have hlt : (dst + BitVec.ofNat 64 i).toNat < 2 ^ 47 := by omega
    obtain ⟨howned, hthere⟩ := hown 0 (by omega)
    rw [add_zero, ← hnat] at howned hthere
    rw [vmMemcpyFrom]
    obtain ⟨hnone, -⟩ | ⟨entry, hleaf, haddr⟩ := hholds.lookup hlt
    · rw [← hholds.flags _ hlt, hnone] at hthere
      cases hthere
    · rw [haddr, if_neg (hholds.phys_ne_zero hlt howned hleaf), Paged.write_front]
      have hnext := hholds.setByte hlt hleaf (src i)
      rw [hnat] at hnext
      have hrest := ih hnext (i + 1) (by omega) (by
        intro k hk
        rw [show dst.toNat + (i + 1) + k = dst.toNat + i + (k + 1) by omega]
        exact hown (k + 1) (by omega))
      simp only [add_assoc, add_comm 1] at hrest ⊢
      exact hrest

theorem Holds.memcpy (dst : Word) (src : Buf) {size : Nat} (hroom : dst.toNat + size ≤ 2 ^ 47)
    (hown : ∀ k < size, own ((dst.toNat + k) / 4096) ∧ (s.flags ((dst.toNat + k) / 4096)).isSome) :
    Holds (archVmMemcpy m root dst src size).2 root own (s.write 4096 dst.toNat size src) := by
  have hcopy := hholds.copyFrom dst src size 0 hroom hown
  simp only [zero_add] at hcopy
  exact hcopy

theorem Holds.allocPages (haligned : a.toNat % 4096 = 0) (flags : BitVec 32) (n : Nat)
    (hroom : a.toNat + 4096 * n ≤ 2 ^ 47) (hsupplied : Supplied m.pool (4 * n)) :
    Holds (((range n).map fun k => a + BitVec.ofNat 64 (4096 * k)).foldl (Proc.allocPage root flags) m) root own
        (s.mapRange 4096 (a.toNat / 4096) (a.toNat / 4096 + n) (x86_64Prot2Flags flags)) ∧
      ∃ k ≤ 4 * n,
        (((range n).map fun k => a + BitVec.ofNat 64 (4096 * k)).foldl (Proc.allocPage root flags) m).pool =
          m.pool.drop k := by
  induction n with
  | zero =>
    rw [add_zero, Paged.mapRange_empty s le_rfl]
    exact ⟨hholds, 0, le_rfl, rfl⟩
  | succ n ih =>
    obtain ⟨hbefore, k, hk, hpool⟩ := ih (by omega) (hsupplied.mono (by omega))
    have hnat : (a + BitVec.ofNat 64 (4096 * n)).toNat = a.toNat + 4096 * n := toNat_add_ofNat (by omega)
    have hpage : (a + BitVec.ofNat 64 (4096 * n)).toNat / 4096 = a.toNat / 4096 + n := by omega
    rw [range_succ, map_append, foldl_append]
    generalize ((range n).map fun k => a + BitVec.ofNat 64 (4096 * k)).foldl (Proc.allocPage root flags) m = m'
      at hbefore hpool
    have hleft : Supplied m'.pool 4 := by
      rw [hpool]
      exact Supplied.drop (hsupplied.mono (by omega))
    obtain ⟨hafter, k', hk', hpool'⟩ := hbefore.allocPage (a := a + BitVec.ofNat 64 (4096 * n)) (by omega) flags hleft
    rw [hpage, ← Paged.mapRange_succ s (Nat.le_add_right _ _)] at hafter
    refine ⟨hafter, k + k', by omega, ?_⟩
    rw [map_singleton, foldl_cons, foldl_nil, hpool', hpool, drop_drop]

end Steps

end Kairax.Proc
