import Kairax.Paging.Refine

/-!
# Huge pages

A region of 2 MiB mapped by `map_page_mem_huge`. The mask `0xFFFFF * 2` misses bit 0, so `get_physical_address` lets
the present bit through. `unmap_page1` and `set_page_flags` split the region but go on with the entry they read before
the split.
-/

namespace Kairax.Paging

open Lib Option BitVec

def SameRegion (va v : Word) : Prop := v >>> 0x15 = va >>> 0x15

/-- A region that `map_page_mem_huge` has mapped to the frames from `base` on. -/
structure HugeMapped (m : Machine) (root va base flags pd : Word) : Prop where
  tree : TreeInv m root
  walk : m.walk root [level4Index va, level3Index va] = some pd
  entry : m.mem pd (level2Index va) = base ||| (flags ||| pageHuge)
  aligned : base.toNat % 2 ^ 21 = 0
  base_lt : base.toNat < 2 ^ 63
  present : flags &&& pagePresent ≠ 0
  noFrame : getPageFrame flags = 0

variable {va v : Word} {m' : Machine}

section Region

variable {w : Word}

section

variable (hregion : SameRegion va v)
include hregion

theorem SameRegion.pageIndex {shift : Nat} (hshift : 0x15 ≤ shift) : pageIndex shift v = pageIndex shift va := by
  obtain ⟨k, rfl⟩ := Nat.exists_eq_add_of_le hshift
  rw [Paging.pageIndex, Paging.pageIndex, shiftRight_add, shiftRight_add, hregion]

theorem SameRegion.tablePath : tablePath v = tablePath va := by
  rw [Paging.tablePath, level4Index, level3Index, level2Index, hregion.pageIndex (by decide),
    hregion.pageIndex (by decide), hregion.pageIndex (by decide)]
  rfl

theorem SameRegion.pageDirectory (m : Machine) (root : Word) : pageDirectory m root v = pageDirectory m root va := by
  rw [Paging.pageDirectory, level4Index, level3Index, hregion.pageIndex (by decide),
    hregion.pageIndex (by decide)]
  rfl

theorem SameRegion.level2Index : level2Index v = level2Index va :=
  hregion.pageIndex (by decide)

theorem SameRegion.level1Index_ne (hregion' : SameRegion va w)
    (hpage : pageNumber w ≠ pageNumber v) : level1Index w ≠ level1Index v := by
  intro heq
  apply hpage
  apply pageNumber_ext
  intro level hlevel
  rw [← pageIndex_eq_numberIndex w level hlevel, ← pageIndex_eq_numberIndex v level hlevel]
  by_cases hzero : level = 0
  · rw [hzero]
    exact heq
  · rw [hregion'.pageIndex (by omega), hregion.pageIndex (by omega)]

theorem SameRegion.exists_other : ∃ w, SameRegion va w ∧ pageNumber w ≠ pageNumber v := by
  refine ⟨v ^^^ 0x1000, ?_, ?_⟩
  · rw [SameRegion, ushiftRight_xor_distrib, show (0x1000 : Word) >>> 0x15 = 0#64 by decide, xor_zero, hregion]
  · intro heq
    have hbit := congrArg (fun n => n.getLsbD 0) heq
    simp only [pageNumber, getLsbD_setWidth, getLsbD_ushiftRight, getLsbD_xor] at hbit
    cases v.getLsbD (12 + 0) <;> simp at hbit

end

theorem page_add_offset (v : Word) : pageSize * (level1Index v).setWidth 64 + getPageOffset v = v % 0x200000 := by
  apply eq_of_toNat_eq
  have hoffset : (getPageOffset v).toNat = v.toNat % 4096 := by
    exact Nat.and_two_pow_sub_one_eq_mod v.toNat 12
  have hindex : ((level1Index v).setWidth 64).toNat = v.toNat / 4096 % 512 := by
    rw [level1Index, Paging.pageIndex, toNat_setWidth, toNat_setWidth, toNat_and,
      toNat_ushiftRight, Nat.shiftRight_eq_div_pow]
    have hmask : v.toNat / 2 ^ 0x0C &&& (0x1FF : Word).toNat = v.toNat / 2 ^ 12 % 2 ^ 9 :=
      Nat.and_two_pow_sub_one_eq_mod (v.toNat / 2 ^ 12) 9
    omega
  rw [toNat_add, toNat_mul, toNat_pageSize, hindex, hoffset, toNat_umod,
    show (0x200000 : Word).toNat = 2097152 from rfl]
  omega

end Region

section Entry

variable {base flags : Word}

variable (haligned : base.toNat % 2 ^ 21 = 0)

include haligned

theorem isFrame_page (hlt : base.toNat < 2 ^ 63) (j : BitVec 9) : IsFrame (base + pageSize * j.setWidth 64) := by
  have hsum : (base + pageSize * j.setWidth 64).toNat = base.toNat + 4096 * j.toNat := by
    rw [toNat_add, toNat_mul, toNat_pageSize, toNat_setWidth]
    omega
  rw [IsFrame]
  omega

theorem isFrame_base (hlt : base.toNat < 2 ^ 63) : IsFrame base :=
  ⟨by omega, hlt⟩

omit haligned

def splitFlags (flags : Word) : Word := flags &&& ~~~pageHuge

theorem tableFlags_splitFlags (hpresent : flags &&& pagePresent ≠ 0) (hframe : getPageFrame flags = 0) :
    TableFlags (splitFlags flags) where
  present := by
    rw [splitFlags, BitVec.and_assoc]
    exact hpresent
  noHuge := and_not_and flags pageHuge
  noFrame := by
    rw [getPageFrame, splitFlags, BitVec.and_assoc, BitVec.and_comm (~~~pageHuge), ← BitVec.and_assoc,
      show flags &&& ~~~flagMask = 0 from hframe]
    exact BitVec.zero_and

theorem getPageFrame_hugeFlags (hframe : getPageFrame flags = 0) : getPageFrame (flags ||| pageHuge) = 0 := by
  rw [getPageFrame_or, hframe]
  decide

theorem hugeEntry_present (hpresent : flags &&& pagePresent ≠ 0) :
    ¬ (base ||| (flags ||| pageHuge)) &&& pagePresent = 0 := by
  apply and_pagePresent_or
  rw [BitVec.or_comm]
  exact and_pagePresent_or hpresent

theorem hugeEntry_huge : (base ||| (flags ||| pageHuge)) &&& pageHuge = pageHuge := by
  apply eq_of_getLsbD_eq
  intro i hi
  simp only [getLsbD_and, getLsbD_or]
  cases pageHuge.getLsbD i <;> simp

theorem getLsbD_flags (hframe : getPageFrame flags = 0) {i : Nat} (hlow : 12 ≤ i) (hhigh : i < 63) :
    flags.getLsbD i = false := by
  have hbit := congrArg (fun x => x.getLsbD i) hframe
  have hmask : ∀ j : Fin 63, 12 ≤ j.val → (~~~flagMask).getLsbD j.val = true := by decide
  simp only [getPageFrame, BitVec.getLsbD_and] at hbit
  rw [hmask ⟨i, hhigh⟩ hlow, Bool.and_true] at hbit
  rw [hbit]
  exact BitVec.getLsbD_zero

include haligned

theorem getLsbD_base_add (v : Word) (i : Nat) :
    (base + v % 0x200000).getLsbD i = if i < 21 then v.getLsbD i else base.getLsbD i := by
  have hmask : v % 0x200000 = v &&& 0x1FFFFF := by
    apply eq_of_toNat_eq
    exact (Nat.and_two_pow_sub_one_eq_mod v.toNat 21).symm
  have hbits : ∀ j, (0x1FFFFF : Word).getLsbD j = decide (j < 21) := by
    intro j
    by_cases hj : j < 64
    · have hall : ∀ k : Fin 64, (0x1FFFFF : Word).getLsbD k.val = decide (k.val < 21) := by decide
      exact hall ⟨j, hj⟩
    · rw [getLsbD_of_ge _ _ (by omega), decide_eq_false (by omega)]
  have hdisjoint : base &&& (v &&& 0x1FFFFF) = 0#64 := by
    apply eq_of_getLsbD_eq
    intro j hj
    rw [getLsbD_and, getLsbD_and, hbits, getLsbD_zero]
    by_cases hlow : j < 21
    · rw [getLsbD_of_mod haligned hlow, Bool.false_and]
    · rw [decide_eq_false hlow, Bool.and_false, Bool.and_false]
  rw [hmask, add_eq_or_of_and_eq_zero _ _ hdisjoint, getLsbD_or, getLsbD_and, hbits]
  split_ifs with hlow
  · rw [getLsbD_of_mod haligned hlow, decide_eq_true hlow, Bool.and_true, Bool.false_or]
  · rw [decide_eq_false hlow, Bool.and_false, Bool.or_false]

theorem hugeEntry_translate (hlt : base.toNat < 2 ^ 63)
    (hpresent : flags &&& pagePresent ≠ 0) (hframe : getPageFrame flags = 0) (v : Word) :
    ((base ||| (flags ||| pageHuge)) &&& ~~~(pageExecDisable ||| hugeMask)) ||| (v &&& hugeMask) =
      (base + v % 0x200000) ||| 1 := by
  have hzero := (and_one_ne_zero flags).mp hpresent
  apply eq_of_getLsbD_eq
  intro i hi
  simp only [getLsbD_or, getLsbD_and, getLsbD_base_add haligned]
  have hkeep : ∀ k : Fin 64, (~~~(pageExecDisable ||| hugeMask)).getLsbD k.val =
      decide (k.val = 0 ∨ 21 ≤ k.val ∧ k.val < 63) := by decide
  have hoffset : ∀ k : Fin 64, hugeMask.getLsbD k.val = decide (k.val ≠ 0 ∧ k.val < 21) := by decide
  have hone : ∀ k : Fin 64, (1 : Word).getLsbD k.val = decide (k.val = 0) := by decide
  have hhuge : ∀ k : Fin 64, pageHuge.getLsbD k.val = decide (k.val = 7) := by decide
  rw [hkeep ⟨i, hi⟩, hoffset ⟨i, hi⟩, hhuge ⟨i, hi⟩]
  by_cases hfirst : i = 0
  · subst hfirst
    simp [hzero]
  · by_cases hlow : i < 21
    · simp [hfirst, hlow]
    · by_cases hhigh : i < 63
      · simp [hfirst, hlow, hhigh, show 21 ≤ i by omega, show i ≠ 7 by omega,
          getLsbD_flags hframe (show 12 ≤ i by omega) hhigh]
      · simp [hfirst, hlow, hhigh, getLsbD_of_lt hlt (show 63 ≤ i by omega)]

end Entry

variable {m : Machine} {root base flags pd : Word}

section

variable (hmapped : HugeMapped m root va base flags pd) (hregion : SameRegion va v)
include hmapped hregion

theorem HugeMapped.directory : pageDirectory m root v = some pd := by
  rw [hregion.pageDirectory, pageDirectory_of_walk hmapped.walk]

theorem HugeMapped.entry_at : m.mem pd (level2Index v) = base ||| (flags ||| pageHuge) := by
  rw [hregion.level2Index, hmapped.entry]

theorem HugeMapped.translate : getPhysicalAddress m root v = (base + v % 0x200000) ||| 1 := by
  rw [getPhysicalAddress, hmapped.directory hregion]
  simp only [hmapped.entry_at hregion, if_neg (hugeEntry_present hmapped.present), hugeEntry_huge]
  rw [if_pos (by decide), hugeEntry_translate hmapped.aligned hmapped.base_lt hmapped.present hmapped.noFrame]

theorem HugeMapped.translate_iff : getPhysicalAddress m root v = base + v % 0x200000 ↔ v.getLsbD 0 = true := by
  rw [hmapped.translate hregion]
  constructor
  · intro heq
    have hbit := congrArg (fun x => x.getLsbD 0) heq
    simp only [getLsbD_base_add hmapped.aligned] at hbit
    simpa using hbit.symm
  · intro hodd
    apply eq_of_getLsbD_eq
    intro i hi
    have hone : ∀ k : Fin 64, (1 : Word).getLsbD k.val = decide (k.val = 0) := by decide
    rw [getLsbD_or]
    by_cases hfirst : i = 0
    · subst hfirst
      rw [getLsbD_base_add hmapped.aligned, if_pos (by decide), hodd, Bool.true_or]
    · simp [hfirst]

end

def splitPage (base flags : Word) (j : BitVec 9) : Word :=
  (base + pageSize * j.setWidth 64) ||| splitFlags flags

/-- The machine in which the next frame has become the page table of a region. -/
def Machine.split (m : Machine) (pd : Word) (i : BitVec 9) (base flags f : Word) (pool : List Word) : Machine :=
  { m with mem := Radix.link m.mem pd i (f ||| splitFlags flags) (p2v f) (splitPage base flags), pool }

variable {f : Word} {pool : List Word}

section

variable (hmapped : HugeMapped m root va base flags pd)
include hmapped

theorem HugeMapped.new_ne (hpool : m.pool = f :: pool) (hf : f ≠ 0) : p2v f ≠ pd := by
  intro heq
  exact (hmapped.tree.head hpool hf).2 [level4Index va, level3Index va] (by simp) (heq ▸ hmapped.walk)

theorem HugeMapped.splitHugepage (hpool : m.pool = f :: pool) (hf : f ≠ 0) :
    splitHugepage m pd (level2Index va) = (.ok, m.split pd (level2Index va) base flags f pool) := by
  have hframe := isFrame_base hmapped.aligned hmapped.base_lt
  have hflags := getPageFrame_hugeFlags hmapped.noFrame
  rw [Paging.splitHugepage, hmapped.entry, getPageFlags_entry hframe hflags, getPageFrame_entry hframe hflags,
    show flags ||| pageHuge = 0 ||| (flags ||| pageHuge) from zero_or.symm, hugeEntry_huge, newPageTable, pmmAllocPage,
    hpool,
    show (0 : Word) ||| (flags ||| pageHuge) = flags ||| pageHuge from zero_or, or_and_not]
  simp only [hf, p2v_ne_null, if_false, Machine.setEntry, Machine.setPage]
  rw [v2p_p2v (hmapped.tree.head hpool hf).1.2, Radix.update_write (hmapped.new_ne hpool hf)]
  rfl

theorem HugeMapped.openTable (hregion : SameRegion va v) (hpool : m.pool = f :: pool) (hf : f ≠ 0) :
    openTable m root v = (some (p2v base), m.split pd (level2Index va) base flags f pool) := by
  rw [Paging.openTable, hmapped.directory hregion]
  simp only [hmapped.entry_at hregion, if_neg (hugeEntry_present hmapped.present), hugeEntry_huge]
  rw [if_pos (by decide), hregion.level2Index, hmapped.splitHugepage hpool hf,
    getPageFrame_entry (isFrame_base hmapped.aligned hmapped.base_lt) (getPageFrame_hugeFlags hmapped.noFrame)]

theorem HugeMapped.child_none : child (m.mem pd (level2Index va)) = none := by
  rw [hmapped.entry, child, if_pos]
  right
  rw [hugeEntry_huge]
  decide

section

variable (hpool : m.pool = f :: pool)
include hpool

theorem HugeMapped.linkable (hf : f ≠ 0) :
    Radix.Linkable child m.mem root 3 [level4Index va, level3Index va] pd (level2Index va) (f ||| splitFlags flags)
      (p2v f) (splitPage base flags) := by
  obtain ⟨hlow, hunreached⟩ := hmapped.tree.head hpool hf
  exact ⟨hmapped.tree.separated, hmapped.walk, by simp, hmapped.child_none,
    child_tableEntry hlow (tableFlags_splitFlags hmapped.present hmapped.noFrame), hunreached, .inl rfl⟩

theorem HugeMapped.walk_split (hf : f ≠ 0) {q : List (BitVec 9)} (hq : q.length ≤ 3) :
    (m.split pd (level2Index va) base flags f pool).walk root q =
      if q = tablePath va then some (p2v f) else m.walk root q :=
  (hmapped.linkable hpool hf).walk_link hq

theorem HugeMapped.walk_new
    (hf : f ≠ 0) : (m.split pd (level2Index va) base flags f pool).walk root (tablePath va) = some (p2v f) := by
  rw [hmapped.walk_split hpool hf (by simp [tablePath]), if_pos rfl]

theorem HugeMapped.split_page (hf : f ≠ 0) (j : BitVec 9) :
    (m.split pd (level2Index va) base flags f pool).mem (p2v f) j = splitPage base flags j :=
  Radix.link_new (hmapped.new_ne hpool hf) j

end

end

theorem HugeMapped.split_entry (m : Machine) (pd va base flags f : Word) (pool : List Word) :
    (m.split pd (level2Index va) base flags f pool).mem pd (level2Index va) = f ||| splitFlags flags :=
  Radix.write_same pd (level2Index va) (f ||| splitFlags flags)

theorem HugeMapped.splitPage_present (hmapped : HugeMapped m root va base flags pd) (j : BitVec 9) :
    ¬ splitPage base flags j &&& pagePresent = 0 :=
  and_pagePresent_or (tableFlags_splitFlags hmapped.present hmapped.noFrame).present

theorem HugeMapped.splitPage_frame (hmapped : HugeMapped m root va base flags pd) (j : BitVec 9) :
    getPageFrame (splitPage base flags j) = base + pageSize * j.setWidth 64 :=
  getPageFrame_entry (isFrame_page hmapped.aligned hmapped.base_lt j)
    (tableFlags_splitFlags hmapped.present hmapped.noFrame).noFrame

/-- The page of `v` is unmapped and every other address of its region translates as before. -/
def UnmapsExactly (m : Machine) (root va base v : Word) : Prop :=
  archVmIsMapped m root v = 0 ∧
    ∀ w, SameRegion va w → pageNumber w ≠ pageNumber v →
      archVmIsMapped m root w = 1 ∧ getPhysicalAddress m root w = base + w % 0x200000

/-- The page of `v` has new flags and every other address of its region translates as before. -/
def SetsExactly (m : Machine) (root va base v flags : Word) : Prop :=
  m.pages root (pageNumber v) =
      some { frame := base + pageSize * (level1Index v).setWidth 64, flags := flags } ∧
    ∀ w, SameRegion va w → pageNumber w ≠ pageNumber v →
      archVmIsMapped m root w = 1 ∧ getPhysicalAddress m root w = base + w % 0x200000

theorem pageDirectory_of_erased (herased : ∀ t i, m'.mem t i = m.mem t i ∨ m'.mem t i = 0)
    (hpd : pageDirectory m' root va = some pd) : pageDirectory m root va = some pd := by
  have hsame {t : Word} {i : BitVec 9} (hpresent : ¬ m'.mem t i &&& pagePresent = 0) : m'.mem t i = m.mem t i := by
    apply (herased t i).resolve_right
    intro hzero
    rw [hzero] at hpresent
    exact hpresent rfl
  rw [pageDirectory] at hpd ⊢
  split_ifs at hpd with habsent
  rw [hsame habsent] at hpd habsent
  rw [if_neg habsent]
  simp only at hpd ⊢
  split_ifs at hpd with habsent'
  rw [hsame habsent'] at hpd habsent'
  rw [if_neg habsent']
  exact hpd

section

variable (hmapped : HugeMapped m root va base flags pd) (hregion : SameRegion va v) (hpool : m.pool = f :: pool)
include hmapped hregion hpool

variable (hf : f ≠ 0)

include hf

theorem HugeMapped.unmap_right :
    UnmapsExactly ((m.split pd (level2Index va) base flags f pool).setEntry (p2v f) (level1Index v) 0)
      root va base v := by
  have hwalk := hmapped.walk_new hpool hf
  have hkeep (w : Word) (hw : SameRegion va w) :
      ((m.split pd (level2Index va) base flags f pool).setEntry (p2v f) (level1Index v) 0).walk root (tablePath w) =
        some (p2v f) := by
    rw [hw.tablePath]
    exact (Radix.walk_write_leaf (hmapped.linkable hpool hf).separated hwalk rfl (by simp [tablePath])).trans hwalk
  constructor
  · rcases lookup_of_walk (hkeep v hregion) with ⟨-, -, hzero⟩ | ⟨entry, hvisible, -, -⟩
    · exact hzero
    · exact absurd hvisible (by simp [visible])
  · intro w hw hpage
    have hentry : ((m.split pd (level2Index va) base flags f pool).setEntry (p2v f) (level1Index v) 0).mem (p2v f)
        (level1Index w) = splitPage base flags (level1Index w) := by
      rw [← hmapped.split_page hpool hf]
      exact setEntry_of_ne fun _ => hregion.level1Index_ne hw hpage
    have hvisible : visible (splitPage base flags (level1Index w)) = some (splitPage base flags (level1Index w)) :=
      if_neg (hmapped.splitPage_present _)
    rcases lookup_of_walk (hkeep w hw) with ⟨hnone, -, -⟩ | ⟨entry, hsome, htranslate, hone⟩
    · rw [hentry, hvisible] at hnone
      exact absurd hnone (by simp)
    · rw [hentry, hvisible] at hsome
      refine ⟨hone, ?_⟩
      rw [htranslate, ← some.inj hsome, hmapped.splitPage_frame, add_assoc, page_add_offset]

theorem HugeMapped.unmap_wrong
    (herased : ∀ t i, m'.mem t i = (m.split pd (level2Index va) base flags f pool).mem t i ∨ m'.mem t i = 0)
    (hkeep : m'.mem (p2v f) = (m.split pd (level2Index va) base flags f pool).mem (p2v f)) :
    ¬ UnmapsExactly m' root va base v := by
  intro ⟨hzero, hothers⟩
  obtain ⟨w, hw, hpage⟩ := hregion.exists_other
  have hone := (hothers w hw hpage).1
  have hwalk : (m.split pd (level2Index va) base flags f pool).walk root [level4Index va, level3Index va] =
      some pd := by
    rw [hmapped.walk_split hpool hf (by simp), if_neg (by simp [tablePath]), hmapped.walk]
  rw [archVmIsMapped, hw.pageDirectory, hw.level2Index] at hone
  rw [archVmIsMapped, hregion.pageDirectory, hregion.level2Index] at hzero
  cases hpd : pageDirectory m' root va with
  | none =>
    rw [hpd] at hone
    simp at hone
  | some pd' =>
    obtain rfl : pd = pd' := by
      have hold := pageDirectory_of_erased herased hpd
      rw [pageDirectory_of_walk hwalk] at hold
      exact some.inj hold
    have hflags := tableFlags_splitFlags hmapped.present hmapped.noFrame
    have hlow := (hmapped.tree.head hpool hf).1
    simp only [hpd] at hone hzero
    rcases herased pd (level2Index va) with hentry | hentry
    · rw [HugeMapped.split_entry] at hentry
      simp only [hentry, if_neg (and_pagePresent_or hflags.present), tableEntry_noHuge hlow hflags,
        getPageFrame_entry hlow.isFrame hflags.noFrame, hkeep,
        hmapped.split_page hpool hf] at hzero
      exact hmapped.splitPage_present _ hzero
    · rw [hentry] at hone
      simp at hone

theorem HugeMapped.unmap_iff : UnmapsExactly (unmapPage m root v).2 root va base v ↔ p2v base = p2v f := by
  rw [unmapPage, unmapPage1, hmapped.openTable hregion hpool hf]
  constructor
  · intro hexact
    by_contra hne
    have hkeep : ((m.split pd (level2Index va) base flags f pool).setEntry (p2v base) (level1Index v) 0).mem (p2v f) =
        (m.split pd (level2Index va) base flags f pool).mem (p2v f) := by
      funext j
      exact setEntry_of_ne fun heq => absurd heq.symm hne
    simp only at hexact
    split_ifs at hexact with habsent
    · exact hmapped.unmap_wrong hregion hpool hf (fun _ _ => .inl rfl) rfl hexact
    · apply hmapped.unmap_wrong hregion hpool hf _ hkeep hexact
      intro t i
      by_cases hplace : t = p2v base ∧ i = level1Index v
      · right
        rw [hplace.1, hplace.2, setEntry_same]
      · left
        exact setEntry_of_ne fun ht hi => hplace ⟨ht, hi⟩
  · intro heq
    rw [heq]
    simp only [hmapped.split_page hpool hf, if_neg (hmapped.splitPage_present _)]
    exact hmapped.unmap_right hregion hpool hf

theorem HugeMapped.setPageFlags_keeps (hne : p2v base ≠ p2v f) {flags' : Word} (hflags' : getPageFrame flags' = 0) :
    (setPageFlags m root v flags').2.mem (p2v f) = splitPage base flags ∧
      ((setPageFlags m root v flags').2.walk root (tablePath va) = some (p2v f) ∨
        (setPageFlags m root v flags').2.walk root (tablePath va) = none) := by
  have hwalk := hmapped.walk_new hpool hf
  have hpage : (m.split pd (level2Index va) base flags f pool).mem (p2v f) = splitPage base flags := by
    funext j
    exact hmapped.split_page hpool hf j
  rw [setPageFlags, hmapped.openTable hregion hpool hf]
  simp only
  split_ifs with habsent
  · exact ⟨hpage, .inl hwalk⟩
  · constructor
    · rw [← hpage]
      funext j
      exact setEntry_of_ne fun heq => absurd heq.symm hne
    · apply Radix.walk_of_frayed hwalk
      intro t i c hchild
      by_cases hplace : t = p2v base ∧ i = level1Index v
      · obtain ⟨rfl, rfl⟩ := hplace
        -- the entry keeps its frame, so it still points to the same table if it points to one
        rw [setEntry_same, child]
        split_ifs with hnone
        · exact .inr rfl
        · left
          rw [(child_eq_some hchild).2.2, getPageFrame_or, hflags', getPageFrame, getPageFrame, BitVec.and_assoc]
          exact congrArg (fun x => some (p2v x)) or_zero
      · left
        rw [setEntry_of_ne fun ht hi => hplace ⟨ht, hi⟩, hchild]

theorem HugeMapped.setPageFlags_wrong (hne : p2v base ≠ p2v f) {flags' : Word}
    (hflags' : getPageFrame flags' = 0) (hchange : flags' ≠ splitFlags flags) :
    ¬ SetsExactly (setPageFlags m root v flags').2 root va base v flags' := by
  intro hsets
  obtain ⟨hpage, hwalk⟩ := hmapped.setPageFlags_keeps hregion hpool hf hne hflags'
  obtain ⟨t, entry, ht, hentry, -, hmapping⟩ := entry_of_pages hsets.1
  rw [hregion.tablePath] at ht
  obtain rfl : p2v f = t := by
    cases hwalk with
    | inl hsome => exact some.inj (hsome.symm.trans ht)
    | inr hnone => exact absurd (hnone.symm.trans ht) (by simp)
  have hflags : getPageFlags entry = flags' := congrArg Mapping.flags hmapping
  apply hchange
  rw [← hflags, ← hentry, hpage, splitPage, getPageFlags_entry (isFrame_page hmapped.aligned hmapped.base_lt _)
    (tableFlags_splitFlags hmapped.present hmapped.noFrame).noFrame]

end

theorem TreeInv.of_children (hinv : TreeInv m root) (hchild : ∀ t i, child (m'.mem t i) = child (m.mem t i))
    (hpool : m'.pool = m.pool) : TreeInv m' root ∧ ∀ q, m'.walk root q = m.walk root q := by
  have hwalk (q : List (BitVec 9)) : m'.walk root q = m.walk root q :=
    Radix.walk_congr fun _ i _ t _ _ => hchild t i
  exact ⟨.of_walk (fun q _ => hwalk q) hinv hpool, hwalk⟩

theorem hugeMapped_of_map (hinv : TreeInv m root) (hflat : FlatAlong m root [level4Index va, level3Index va])
    (haligned : base.toNat % 2 ^ 21 = 0) (hlt : base.toNat < 2 ^ 63) (hpresent : flags &&& pagePresent ≠ 0)
    (hframe : getPageFrame flags = 0) (hmap : mapPageMemHuge m root va base flags = (.ok, m')) :
    ∃ pd, HugeMapped m' root va base flags pd := by
  have hbase : base &&& ~~~hugeMask = base := by
    apply and_eq_self
    intro i hi hbit
    have hmask : ∀ k : Fin 64, 21 ≤ k.val → (~~~hugeMask).getLsbD k.val = true := by decide
    apply hmask ⟨i, hi⟩
    by_contra hlow
    rw [getLsbD_of_mod haligned (not_le.mp hlow)] at hbit
    exact absurd hbit (by decide)
  obtain ⟨r, m₁, hensure, hinv', -, hend, -⟩ :=
    ensurePath_grows [level4Index va, level3Index va] (tableFlags_baseFlags flags) (by simp) hinv hflat
  rw [mapPageMemHuge, hensure, hbase] at hmap
  cases r with
  | none => exact absurd (congrArg Prod.fst hmap) (by simp)
  | some pd =>
    simp only at hmap
    split_ifs at hmap with habsent
    · obtain rfl := congrArg Prod.snd hmap
      have hentry : (base ||| flags ||| pageHuge : Word) = base ||| (flags ||| pageHuge) := or_assoc _ _ _
      have hchild (t : Word) (i : BitVec 9) :
          child ((m₁.setEntry pd (level2Index va) (base ||| flags ||| pageHuge)).mem t i) =
            child (m₁.mem t i) := by
        by_cases hplace : t = pd ∧ i = level2Index va
        · rw [hplace.1, hplace.2, setEntry_same, child_of_absent habsent, child, if_pos]
          right
          rw [hentry, hugeEntry_huge]
          decide
        · rw [setEntry_of_ne fun ht hi => hplace ⟨ht, hi⟩]
      obtain ⟨htree, hwalks⟩ := hinv'.of_children hchild rfl
      refine ⟨pd, htree, ?_, ?_, haligned, hlt, hpresent, hframe⟩
      · exact (hwalks _).trans (hend pd rfl)
      · exact (setEntry_same m₁ pd _ _).trans hentry
    · exact absurd (congrArg Prod.fst hmap) (by simp)

/-- What the paging functions are meant to do with a region mapped to the frames from `base` on. -/
structure RegionContract (m : Machine) (root va base : Word) : Prop where
  translates : ∀ v, SameRegion va v → getPhysicalAddress m root v = base + v % 0x200000
  unmaps : ∀ v, SameRegion va v → m.pool.headD 0 ≠ 0 → UnmapsExactly (unmapPage m root v).2 root va base v
  setsFlags : ∀ v flags, SameRegion va v → m.pool.headD 0 ≠ 0 → flags &&& pagePresent ≠ 0 →
    flags &&& pageHuge = 0 → getPageFrame flags = 0 →
    SetsExactly (setPageFlags m root v flags).2 root va base v flags

/-- An address of a region translates rightly just when it is odd, and, with a frame `f` for the split, `unmap_page`
works just when `f` is the first frame of the region. -/
theorem regionContract_never {m : Machine} {root va base flags pd : Word}
    (hmapped : HugeMapped m root va base flags pd) :
    ¬ RegionContract m root va base ∧
      (∀ v, SameRegion va v → (getPhysicalAddress m root v = base + v % 0x200000 ↔ v.getLsbD 0 = true)) ∧
      ∀ v f pool, SameRegion va v → m.pool = f :: pool → f ≠ 0 →
        (UnmapsExactly (unmapPage m root v).2 root va base v ↔ p2v base = p2v f) ∧
        ∀ flags', p2v base ≠ p2v f → getPageFrame flags' = 0 → flags' ≠ splitFlags flags →
          ¬ SetsExactly (setPageFlags m root v flags').2 root va base v flags' := by
  refine ⟨fun hcontract => ?_, fun v hregion => hmapped.translate_iff hregion, ?_⟩
  · -- the first address of the region is even
    have hfirst : SameRegion va (va &&& ~~~0x1FFFFF) := by
      rw [SameRegion, ushiftRight_and_distrib]
      apply and_eq_self
      intro i hi hbit
      rw [getLsbD_ushiftRight] at hbit ⊢
      have hmask : ∀ k : Fin 64, 21 ≤ k.val → (~~~(0x1FFFFF : Word)).getLsbD k.val = true := by decide
      by_cases hbound : 0x15 + i < 64
      · exact hmask ⟨0x15 + i, hbound⟩ (Nat.le_add_right 21 i)
      · rw [getLsbD_of_ge _ _ (not_lt.mp hbound)] at hbit
        exact absurd hbit (by decide)
    have hodd := (hmapped.translate_iff hfirst).mp (hcontract.translates _ hfirst)
    rw [BitVec.getLsbD_and, show (~~~(0x1FFFFF : Word)).getLsbD 0 = false by decide, Bool.and_false] at hodd
    exact absurd hodd (by decide)
  · intro v f pool hregion hpool hf
    exact ⟨hmapped.unmap_iff hregion hpool hf, fun flags' hne hflags' hchange =>
      hmapped.setPageFlags_wrong hregion hpool hf hne hflags' hchange⟩

def hugeMachine : Machine := (mapPageMemHuge emptyMachine (p2v 0x1000) 0x40000000 0x200000 3).2

theorem regionContract_never_hugeMachine : ¬ RegionContract hugeMachine (p2v 0x1000) 0x40000000 0x200000 := by
  have hmap : mapPageMemHuge emptyMachine (p2v 0x1000) 0x40000000 0x200000 3 = (.ok, hugeMachine) :=
    Prod.ext (by decide +kernel) rfl
  obtain ⟨hinv, hflat⟩ := treeInv_emptyMachine
  obtain ⟨pd, hmapped⟩ :=
    hugeMapped_of_map hinv (hflat _ (by simp)) (by decide) (by decide) (by decide) (by decide) hmap
  exact (regionContract_never hmapped).1

/-- The first address of the region translates to an odd address, and `unmap_page` on it leaves it
mapped. -/
theorem region_unmap_ignored :
    getPhysicalAddress hugeMachine (p2v 0x1000) 0x40000000 = 0x200001 ∧
      archVmIsMapped (unmapPage hugeMachine (p2v 0x1000) 0x40000000).2 (p2v 0x1000) 0x40000000 = 1 ∧
      ((setPageFlags hugeMachine (p2v 0x1000) 0x40000000 1).2.pages (p2v 0x1000) (pageNumber 0x40000000)) =
        some { frame := 0x200000, flags := 3 } := by
  decide

end Kairax.Paging
