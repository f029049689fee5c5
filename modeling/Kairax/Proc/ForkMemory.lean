import Kairax.Proc.Fork

/-!
# When a fork copies the memory

What `sys_fork` is meant to do with the memory of a process, and `fork_copies_iff`, which says when it
does: the pages of the parent have to be there, since a page that is not becomes physical page 0.
-/

namespace Kairax.Proc

open Paging Lib List

/-- What `sys_fork` is meant to do with the memory of the ranges. -/
structure ForkContract (mmap : Nat → MmapOp) (m m' : Machine) (src dest : Word) (ranges : List MmapRange) :
    Prop where
  reads : ∀ r ∈ ranges, ∀ a, r.Has a →
    userRead mmap m' { root := dest, ranges := ranges } a = userRead mmap m { root := src, ranges := ranges } a
  privates : ∀ r ∈ ranges, r.shared = false → ∀ a, r.Has a → ∀ entry entry',
    m.leaf src (pageNumber a) = some entry → m'.leaf dest (pageNumber a) = some entry' →
    getPageFrame entry' ≠ getPageFrame entry
  shares : ∀ r ∈ ranges, r.shared = true → ∀ a, r.Has a → ∀ entry, m.leaf src (pageNumber a) = some entry →
    ∃ entry', m'.leaf dest (pageNumber a) = some entry' ∧ getPageFrame entry' = getPageFrame entry
  confined : ∀ a : Word, a.toNat < 2 ^ 47 → ∀ entry', m'.leaf dest (pageNumber a) = some entry' →
    (∃ r ∈ ranges, r.Has a) ∧
      ((getPageFrame entry' ≠ 0 ∧ getPageFrame entry' ∈ m.pool) ∨
        ∃ r ∈ ranges, ∃ b, r.Has b ∧ ∃ entry, m.leaf src (pageNumber b) = some entry ∧
          getPageFrame entry = getPageFrame entry')

/-- Every address is on a page that is there, or, in a range that is not shared, reads in the parent as page 0 does. -/
def Resident (mmap : Nat → MmapOp) (m : Machine) (src : Word) (ranges : List MmapRange) : Prop :=
  ∀ r ∈ ranges, ∀ a, r.Has a → (m.leaf src (pageNumber a)).isSome = true ∨
    r.shared = false ∧
      userRead mmap m { root := src, ranges := ranges } a = some (byteAt (m.mem (p2v 0)) a)

theorem frameOf_of_leaf {m : Machine} {root a entry : Word} (hleaf : m.leaf root (pageNumber a) = some entry) :
    frameOf m root a = getPageFrame entry := by
  rw [frameOf, hleaf]

theorem userRead_of_leaf (mmap : Nat → MmapOp) {m : Machine} {p : Space} {a entry : Word}
    (hleaf : m.leaf p.root (pageNumber a) = some entry) :
    userRead mmap m p a = some (byteAt (m.mem (p2v (getPageFrame entry))) a) := by
  rw [userRead, readByte, hleaf, Option.map_some]

section Child

variable {m : Machine} {src dest : Word} {ranges : List MmapRange} {r : MmapRange} {a : Word}

theorem Laid.exists_request (hlaid : Laid ranges) (hr : r ∈ ranges) (ha : r.Has a) :
    ∃ b, (r, b) ∈ requests ranges ∧ pageNumber b = pageNumber a := by
  obtain ⟨hbase, hlength, -, -⟩ := hlaid.inside r hr
  have hdown := toNat_alignDown a pageSize
  rw [toNat_pageSize] at hdown
  refine ⟨alignDown a pageSize, (hlaid.mem_requests _).mpr ⟨hr, ?_, ?_⟩, ?_⟩
  · simp only [hdown]
    omega
  · have hlow := ha.1
    have hhigh := ha.2
    simp only [Extent.Has] at hhigh ⊢
    omega
  · exact pageNumber_alignDown a

theorem Laid.has_of_request (hlaid : Laid ranges) {q : MmapRange × Word} (hq : q ∈ requests ranges)
    (hlt : a.toNat < 2 ^ 47) (hpage : pageNumber q.2 = pageNumber a) : q.1.Has a := by
  obtain ⟨hr, hzero, hhas⟩ := (hlaid.mem_requests q).mp hq
  obtain ⟨hbase, hlength, -, -⟩ := hlaid.inside q.1 hr
  have hbound := hlaid.lt hr hhas
  have hnat := congrArg BitVec.toNat hpage
  rw [toNat_pageNumber (by omega), toNat_pageNumber (by omega)] at hnat
  have hlow := hhas.1
  have hhigh := hhas.2
  rw [Extent.Has]
  rw [Extent.stop] at hhigh ⊢
  omega

theorem child_page (hstate : ForkState m src dest ranges)
    (hsupplied : Supplied m.pool (forkAllocs src dest m (requests ranges))) (hr : r ∈ ranges) (ha : r.Has a) :
    ∃ entry, (forkRegions m src dest ranges).leaf dest (pageNumber a) = some entry ∧
      (forkRegions m src dest ranges).mem (p2v (getPageFrame entry)) = m.mem (p2v (frameOf m src a)) ∧
      (r.shared = true → getPageFrame entry = frameOf m src a) ∧
      (r.shared = false → getPageFrame entry ∈ m.pool ∧ getPageFrame entry ≠ 0) := by
  have hforked := forkRegions_spec hstate hsupplied
  obtain ⟨b, hb, hpage⟩ := hstate.laid.exists_request hr ha
  have hsame : frameOf m src b = frameOf m src a := by
    rw [frameOf, frameOf, hpage]
  obtain ⟨f, hcopied⟩ := hforked.copied (r, b) hb
  have hframe := getPageFrame_entry hcopied.frame (prot_noFrame r.protection)
  have hleaf := hcopied.leaf
  rw [hpage] at hleaf
  refine ⟨_, hleaf, ?_, ?_, ?_⟩
  · rw [hframe]
    cases hshared : r.shared with
    | true =>
      rw [hcopied.shares hshared, hsame]
      exact (hforked.keeps _ (hstate.kept_frameOf hr ha)).2
    | false => rw [(hcopied.copies hshared).2.2.2, hsame]
  · intro hshared
    rw [hframe, hcopied.shares hshared, hsame]
  · intro hprivate
    rw [hframe]
    exact ⟨(hcopied.copies hprivate).1, (hcopied.copies hprivate).2.1⟩

end Child

/-- If no `pmm_alloc_page` of the fork fails, the child has the memory of the parent exactly when the pages of the
parent are there, or would read as physical page 0 in a range that is not shared. -/
theorem fork_copies_iff (mmap : Nat → MmapOp) {m : Machine} {src dest : Word} {ranges : List MmapRange}
    (hstate : ForkState m src dest ranges) (hsupplied : Supplied m.pool (forkAllocs src dest m (requests ranges))) :
    ForkContract mmap m (forkRegions m src dest ranges) src dest ranges ↔ Resident mmap m src ranges := by
  have hpages {r : MmapRange} {a : Word} (hr : r ∈ ranges) (ha : r.Has a) :=
    child_page hstate hsupplied hr ha
  constructor
  · intro hcontract r hr a ha
    obtain ⟨entry', hleaf', hmem, hshares, -⟩ := hpages hr ha
    cases hleaf : m.leaf src (pageNumber a) with
    | some entry => exact .inl rfl
    | none =>
      have hzero : frameOf m src a = 0 := by
        rw [frameOf, hleaf]
      right
      cases hshared : r.shared with
      | true =>
        rw [hshared, hzero] at hshares
        rcases (hcontract.confined a (hstate.laid.lt hr ha) entry' hleaf').2 with
          ⟨hne, -⟩ | ⟨r', hr', b, hb, entry, hentry, heq⟩
        · exact absurd (hshares rfl) hne
        · rw [hshares rfl] at heq
          exact absurd heq (hstate.parentPages r' hr' b hb entry hentry).1
      | false =>
        refine ⟨rfl, ?_⟩
        rw [← hcontract.reads r hr a ha, userRead_of_leaf mmap hleaf', hmem, hzero]
  · intro hresident
    refine ⟨?_, ?_, ?_, ?_⟩
    · intro r hr a ha
      obtain ⟨entry', hleaf', hmem, -, -⟩ := hpages hr ha
      rw [userRead_of_leaf mmap hleaf', hmem]
      cases hleaf : m.leaf src (pageNumber a) with
      | some entry => rw [userRead_of_leaf mmap hleaf, frameOf_of_leaf hleaf]
      | none =>
        have hread := (hresident r hr a ha).resolve_left (by simp [hleaf])
        rw [hread.2, frameOf, hleaf]
    · intro r hr hprivate a ha entry entry' hleaf hleaf' heq
      obtain ⟨entry'', hsame, -, -, hcopies⟩ := hpages hr ha
      cases hleaf'.symm.trans hsame
      obtain ⟨hpool, hne⟩ := hcopies hprivate
      apply (hstate.parentPages r hr a ha entry hleaf).2.2 _ hpool hne
      rw [heq]
    · intro r hr hshared a ha entry hleaf
      obtain ⟨entry', hleaf', -, hshares, -⟩ := hpages hr ha
      exact ⟨entry', hleaf', (hshares hshared).trans (frameOf_of_leaf hleaf)⟩
    · intro a hlt entry' hleaf'
      have hforked := forkRegions_spec hstate hsupplied
      have hrange : ∃ r ∈ ranges, r.Has a := by
        by_contra hout
        rw [hforked.others, (hstate.absent hlt).2] at hleaf'
        · exact absurd hleaf' (by simp)
        · intro q hq heq
          exact hout ⟨q.1, ((hstate.laid.mem_requests q).mp hq).1, hstate.laid.has_of_request hq hlt heq⟩
      refine ⟨hrange, ?_⟩
      obtain ⟨r, hr, ha⟩ := hrange
      obtain ⟨entry'', hsame, -, hshares, hcopies⟩ := hpages hr ha
      cases hleaf'.symm.trans hsame
      cases hshared : r.shared with
      | false => exact .inl ⟨(hcopies hshared).2, (hcopies hshared).1⟩
      | true =>
        right
        have hpresent := (hresident r hr a ha).resolve_right (by simp [hshared])
        obtain ⟨entry, hleaf⟩ := Option.isSome_iff_exists.mp hpresent
        exact ⟨r, hr, a, ha, entry, hleaf, ((hshares hshared).trans (frameOf_of_leaf hleaf)).symm⟩

/-- A machine whose memory is empty but for the first byte of physical page 0. -/
def forkMachine : Machine where
  mem p j := if p = p2v 0 ∧ j = 0 then 0xAA else 0
  pool := [0x2000, 0x3000, 0x4000, 0x5000, 0x6000, 0x7000, 0x8000]
  freed := []

theorem forkMachine_mem {p : Word} (hp : p ≠ p2v 0) (j : BitVec 9) : forkMachine.mem p j = 0 := by
  exact if_neg fun h => hp h.1

/-- A parent with one page at `0x400000`. -/
def parentMachine : Machine := (mapPageMem forkMachine (p2v 0x10000) 0x400000 0x20000 7).2

def onePage : MmapRange where
  base := 0x400000
  length := 0x1000
  protection := 0xA
  flags := 0x22
  fileOffset := 0
  file := none
  refs := 1

theorem laid_onePage : Laid [onePage] where
  inside r hr := by
    obtain rfl := mem_singleton.mp hr
    exact ⟨by decide, by decide, by decide, by decide⟩
  disjoint := pairwise_singleton _ _

theorem pageNumber_onePage {a : Word} (ha : onePage.Has a) : pageNumber a = pageNumber 0x400000 := by
  have hlow : 0x400000 ≤ a.toNat := ha.1
  have hhigh : a.toNat < 0x400000 + 0x1000 := ha.2
  apply BitVec.eq_of_toNat_eq
  rw [toNat_pageNumber (by omega), toNat_pageNumber (by decide)]
  rw [show (0x400000 : Word).toNat = 0x400000 from rfl]
  omega

theorem leaf_parentMachine {a : Word} (ha : onePage.Has a) :
    parentMachine.leaf (p2v 0x10000) (pageNumber a) = some 0x20007 := by
  rw [pageNumber_onePage ha]
  decide

theorem tree_forkMachine : TreeInv forkMachine (p2v 0x10000) ∧ Flat forkMachine (p2v 0x10000) :=
  treeInv_empty (forkMachine_mem (by decide)) (by decide) (by decide)

theorem apart_of_all {pool : List Word} {p : Word} (hall : pool.all fun f => p2v f ≠ p) (f : Word) (hf : f ∈ pool) :
    p2v f ≠ p :=
  of_decide_eq_true (all_eq_true.mp hall f hf)

theorem forkState_parentMachine : ForkState parentMachine (p2v 0x10000) (p2v 0x11000) [onePage] := by
  obtain ⟨htree, hflat⟩ := tree_forkMachine
  obtain ⟨htree', hflat', -, -⟩ := mapPageMem_leaf htree (hflat.along 0x400000) 0x20000 7
  have hdest : Kept forkMachine (p2v 0x10000) (p2v 0x11000) :=
    kept_of_empty (forkMachine_mem (by decide)) (by decide) fun f hf _ => apart_of_all (by decide) f hf
  obtain ⟨hdest', hmem⟩ := mapPageMem_keeps htree (hflat.along 0x400000) 0x20000 7 _ hdest
  have hempty (i : BitVec 9) : parentMachine.mem (p2v 0x11000) i = 0 := by
    rw [parentMachine, hmem]
    exact forkMachine_mem (by decide) i
  have hkept {p : Word} (hne : p ≠ p2v 0x11000)
      (hpool : parentMachine.pool.all fun f => p2v f ≠ p) : Kept parentMachine (p2v 0x11000) p :=
    kept_of_empty hempty hne fun f hf _ => apart_of_all hpool f hf
  refine ⟨laid_onePage, ?_, fun i _ => hempty i, fun a _ => hflat' _ (by simp [tablePath]) (hflat.along a), ?_, ?_, ?_⟩
  · refine (treeInv_empty hempty ?_ ?_).1
    · decide
    · decide
  · intro a _ path t hpre hwalk
    have hpath : path.length ≤ 3 := hpre.length_le
    apply kept_of_empty hempty
    · intro heq
      exact hdest'.1 path hpath (heq ▸ hwalk)
    · intro f hf hne heq
      exact (htree'.fresh f hf hne).2 path hpath (heq ▸ hwalk)
  · intro r hr a ha entry hleaf
    obtain rfl := mem_singleton.mp hr
    rw [leaf_parentMachine ha] at hleaf
    cases hleaf
    exact ⟨by decide, hkept (by decide) (by decide)⟩
  · exact hkept (by decide) (by decide)

def noFiles : Nat → MmapOp := fun _ m _ _ _ _ => m

theorem fork_copies_onePage :
    ForkContract noFiles parentMachine (forkRegions parentMachine (p2v 0x10000) (p2v 0x11000) [onePage])
      (p2v 0x10000) (p2v 0x11000) [onePage] := by
  have hsupplied : Supplied parentMachine.pool
      (forkAllocs (p2v 0x10000) (p2v 0x11000) parentMachine (requests [onePage])) := by
    decide
  apply (fork_copies_iff noFiles forkState_parentMachine hsupplied).mpr
  intro r hr a ha
  obtain rfl := mem_singleton.mp hr
  left
  rw [leaf_parentMachine ha]
  rfl

/-- A page that the parent has not touched is not zero in the child, and the guard page of a stack is readable there. -/
theorem fork_invents_pages :
    userRead noFiles forkMachine { root := p2v 0x10000, ranges := [onePage] } 0x400000 = some 0 ∧
      userRead noFiles (forkRegions forkMachine (p2v 0x10000) (p2v 0x11000) [onePage])
        { root := p2v 0x11000, ranges := [onePage] } 0x400000 = some 0xAA ∧
      userRead noFiles forkMachine
        { root := p2v 0x10000, ranges := [{ onePage with flags := mapStack ||| mapPrivate }] } 0x400000 = none ∧
      userRead noFiles
        (forkRegions forkMachine (p2v 0x10000) (p2v 0x11000) [{ onePage with flags := mapStack ||| mapPrivate }])
        { root := p2v 0x11000, ranges := [{ onePage with flags := mapStack ||| mapPrivate }] } 0x400000 =
          some 0xAA := by
  decide

end Kairax.Proc
