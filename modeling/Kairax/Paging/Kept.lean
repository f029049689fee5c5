import Kairax.Paging.Refine

/-!
# What a mapping leaves alone

Mapping a page writes tables of the tree and nothing else, and takes its tables from the page allocator. So a page of
memory that is no table of the tree and no frame to come keeps its contents.
-/

namespace Kairax.Paging

open Lib List Option

/-- A page of memory that is neither a table of the tree nor a frame to come. -/
def Kept (m : Machine) (root p : Word) : Prop :=
  Radix.Unreached child m.mem root 3 p ∧ ∀ f ∈ m.pool, f ≠ 0 → p2v f ≠ p

variable {p : Word} {q : List (BitVec 9)} {n : Nat}

theorem Kept.ne_head {m : Machine} {root f : Word} {pool : List Word} (hkept : Kept m root p)
    (hpool : m.pool = f :: pool) (hf : f ≠ 0) : p2v f ≠ p := by
  apply hkept.2 f _ hf
  rw [hpool]
  exact mem_cons_self

theorem kept_of_empty {m : Machine} {root : Word} (hempty : ∀ i, m.mem root i = 0) (hne : p ≠ root)
    (hpool : ∀ f ∈ m.pool, f ≠ 0 → p2v f ≠ p) : Kept m root p := by
  refine ⟨fun q _ hwalk => ?_, hpool⟩
  cases q with
  | nil => exact hne (some.inj hwalk).symm
  | cons i q =>
    rw [Radix.walk, hempty, child_zero] at hwalk
    exact absurd hwalk (by simp)

/-- The kept pages of one machine are kept in another, with their contents. -/
def Keeps (root : Word) (m m' : Machine) : Prop :=
  ∀ p, Kept m root p → Kept m' root p ∧ m'.mem p = m.mem p

theorem Keeps.refl (root : Word) (m : Machine) : Keeps root m m := fun _ hkept => ⟨hkept, rfl⟩

theorem Keeps.trans {root : Word} {m m' m'' : Machine} (hfirst : Keeps root m m') (hsecond : Keeps root m' m'') :
    Keeps root m m'' := by
  intro p hkept
  obtain ⟨hkept', hmem⟩ := hfirst p hkept
  obtain ⟨hkept'', hmem'⟩ := hsecond p hkept'
  exact ⟨hkept'', hmem'.trans hmem⟩

variable {m : Machine} {root f flags : Word} {pool : List Word}

section Steps

variable {t : Word} {path : List (BitVec 9)} {i : BitVec 9}

theorem Keeps.skip (root : Word) (m : Machine) : Keeps root m { m with pool := m.pool.tail } :=
  fun _ hkept => ⟨⟨hkept.1, fun f hf => hkept.2 f (mem_of_mem_tail hf)⟩, rfl⟩

theorem Links.keeps (hlink : Links m root path t i f flags pool) : Keeps root m (m.linkTable t i f flags pool) := by
  intro p hkept
  have hne := hkept.ne_head hlink.head hlink.ne
  refine ⟨⟨?_, ?_⟩, ?_⟩
  · intro q hq
    rw [← Machine.walk, hlink.walk_link hq]
    split_ifs
    · exact fun heq => hne (some.inj heq)
    · exact hkept.1 q hq
  · intro f' hf'
    apply hkept.2 f'
    rw [hlink.head]
    exact mem_cons_of_mem f hf'
  · funext j
    rw [linkTable_mem, Radix.link_of_ne hne.symm]
    intro heq
    exact absurd (heq ▸ hlink.walk) (hkept.1 path (Nat.le_succ_of_le hlink.short))

theorem Keeps.setEntry (hinv : TreeInv m root) (hwalk : m.walk root path = some t) (hlen : path.length = 3)
    (entry : Word) : Keeps root m (m.setEntry t i entry) := by
  intro p hkept
  refine ⟨⟨?_, hkept.2⟩, ?_⟩
  · intro q hq
    rw [← Machine.walk, walk_setEntry hinv hwalk hlen entry hq]
    exact hkept.1 q hq
  · funext j
    apply setEntry_of_ne
    intro heq
    exact absurd (heq ▸ hwalk) (hkept.1 path (by omega))

end Steps

theorem missing_le (m : Machine) (t : Word) (path : List (BitVec 9)) : missing m t path ≤ path.length := by
  induction path generalizing t with
  | nil => exact le_rfl
  | cons i path ih =>
    rw [missing]
    cases child (m.mem t i) with
    | none => exact le_rfl
    | some t' => exact Nat.le_succ_of_le (ih t')

theorem Supplied.mono {n' : Nat} (hsupplied : Supplied pool n) (hle : n' ≤ n) : Supplied pool n' :=
  fun k hk => hsupplied k (by omega)

theorem Supplied.exists_cons (hsupplied : Supplied pool (n + 1)) :
    ∃ f rest, pool = f :: rest ∧ f ≠ 0 ∧ Supplied rest n := by
  cases pool with
  | nil => exact absurd rfl (hsupplied 0 (by omega))
  | cons f rest =>
    obtain ⟨hf, hrest⟩ := supplied_succ.mp hsupplied
    exact ⟨f, rest, rfl, hf, hrest⟩

theorem Supplied.drop {k : Nat} (hsupplied : Supplied pool (k + n)) : Supplied (pool.drop k) n := by
  intro j hj
  rw [getD_eq_getElem?_getD, getElem?_drop]
  exact hsupplied (k + j) (by omega)

section Map

variable {va : Word}

section

variable (hinv : TreeInv m root) (hflat : FlatAlong m root (tablePath va))
include hinv hflat

theorem mapPageMem_keeps (pa flags : Word) : Keeps root m (mapPageMem m root va pa flags).2 := by
  obtain ⟨r, m', hensure, hinv', ⟨-, hkeeps⟩, hend, -⟩ :=
    ensurePath_spec (P := fun m' => FlatAlong m' root (tablePath va) ∧ Keeps root m m')
      (tableFlags_baseFlags flags) (by simp [tablePath])
      (fun _ path t i hP => hP.1 path t i)
      (fun m' hP _ => ⟨hP.1, hP.2.trans (Keeps.skip root m')⟩)
      (fun _ _ _ _ _ _ hlink hP _ => ⟨hlink.flat hP.1 (by simp [tablePath]), hP.2.trans hlink.keeps⟩)
      m [] (tablePath va) root hinv ⟨hflat, Keeps.refl root m⟩ rfl rfl
  rw [mapPageMem_eq hinv hflat, hensure]
  cases r with
  | none => exact hkeeps
  | some pt =>
    simp only
    split_ifs
    · exact hkeeps.trans (Keeps.setEntry hinv' (hend pt rfl) rfl _)
    · exact hkeeps

theorem mapPageMem_leaf (pa flags : Word) :
    TreeInv (mapPageMem m root va pa flags).2 root ∧
      (∀ full, full.length ≤ 3 → FlatAlong m root full →
        FlatAlong (mapPageMem m root va pa flags).2 root full) ∧
      (mapPageMem m root va pa flags).1 =
        (if (m.leaf root (pageNumber va)).isSome then .alreadyMapped
        else if Supplied m.pool (missing m root (tablePath va)) then .ok else .noMem) ∧
      ∀ n, (mapPageMem m root va pa flags).2.leaf root n =
        if (mapPageMem m root va pa flags).1 = .ok ∧ n = pageNumber va then visible (pa ||| flags)
        else m.leaf root n := by
  obtain ⟨rc, m', hcall, hinv', hflat', hrc, hentries⟩ := mapPageMem_spec hinv va hflat pa flags
  rw [hcall, leaf_pageNumber]
  refine ⟨hinv', hflat', hrc, fun n => ?_⟩
  by_cases hok : rc = .ok
  · simp only [hok, true_and] at hentries ⊢
    exact leaf_update hentries n
  · simp only [hok] at hentries ⊢
    exact hentries _ _ rfl

theorem mapped_leaf
    (hnone : m.leaf root (pageNumber va) = none) (hsupplied : Supplied m.pool (missing m root (tablePath va)))
    (hpresent : flags &&& pagePresent ≠ 0) (pa : Word) (n : BitVec 36) :
    (mapPageMem m root va pa flags).2.leaf root n =
      if n = pageNumber va then some (pa ||| flags) else m.leaf root n := by
  obtain ⟨-, -, hrc, hleaf⟩ := mapPageMem_leaf hinv hflat pa flags
  rw [hnone, if_neg (by decide), if_pos hsupplied] at hrc
  rw [hleaf n, hrc, visible, if_neg (and_pagePresent_or hpresent)]
  simp only [true_and]

end

theorem ensureTable_pool (m : Machine) (t : Word) (i : BitVec 9) (flags : Word) :
    ∃ k ≤ 1, (ensureTable m t i flags).2.pool = m.pool.drop k := by
  rw [ensureTable]
  split_ifs
  · refine ⟨1, le_rfl, ?_⟩
    rw [newPageTable, pmmAllocPage]
    cases hpool : m.pool with
    | nil => exact hpool
    | cons f pool =>
      by_cases hf : f = 0
      · simp only [hf, if_true, drop_succ_cons, drop_zero]
      · simp only [hf, if_false, p2v_ne_null, Machine.setEntry, Machine.setPage, drop_succ_cons, drop_zero]
  · exact ⟨0, Nat.zero_le 1, rfl⟩

theorem ensurePath_pool (m : Machine) (t : Word) (path : List (BitVec 9)) (flags : Word) :
    ∃ k ≤ missing m t path, (ensurePath m t path flags).2.pool = m.pool.drop k := by
  induction path generalizing m t with
  | nil => exact ⟨0, le_rfl, rfl⟩
  | cons i path ih =>
    rw [ensurePath, missing]
    cases hchild : child (m.mem t i) with
    | some t' =>
      obtain ⟨hpresent, -, rfl⟩ := child_eq_some hchild
      rw [ensureTable, if_neg hpresent]
      exact ih m _
    | none =>
      dsimp only
      obtain ⟨k, hk, hpool⟩ := ensureTable_pool m t i flags
      rcases htable : ensureTable m t i flags with ⟨_ | t', m'⟩
      · exact ⟨k, by omega, by rw [← hpool, htable]⟩
      · obtain ⟨k', hk', hpool'⟩ := ih m' t'
        have hle := missing_le m' t' path
        refine ⟨k + k', by omega, ?_⟩
        rw [htable] at hpool
        rw [hpool', hpool, drop_drop]

theorem mapPageMem_pool (hinv : TreeInv m root) (hflat : FlatAlong m root (tablePath va)) (pa flags : Word) :
    ∃ k ≤ missing m root (tablePath va), (mapPageMem m root va pa flags).2.pool = m.pool.drop k := by
  obtain ⟨k, hk, hpool⟩ := ensurePath_pool m root (tablePath va) (baseFlags flags)
  refine ⟨k, hk, ?_⟩
  rw [mapPageMem_eq hinv hflat, ← hpool]
  rcases ensurePath m root (tablePath va) (baseFlags flags) with ⟨_ | pt, m'⟩
  · rfl
  · simp only
    split_ifs <;> rfl

end Map

theorem call_keeps (hinv : TreeInv m root) (hflat : Flat m root) (op : Op) : Keeps root m (m.call root op).2 := by
  rcases op with ⟨va, frame, flags⟩ | va | ⟨va, flags⟩
  · exact mapPageMem_keeps hinv (hflat.along va) frame flags
  all_goals
    simp only [Machine.call, unmapPage1, setPageFlags, openTable_eq (hflat.along va)]
    cases hwalk : m.walk root (tablePath va) with
    | none => exact .refl root m
    | some pt =>
      dsimp only
      split_ifs
      · exact .refl root m
      · exact .setEntry hinv hwalk rfl _

/-- Calls on one root keep every page that is neither a table of it nor a frame to come, so the pages of other processes
and the tables that they do not share. -/
theorem calls_keep {m : Machine} {root : Word} (hinv : TreeInv m root) (hflat : Flat m root) (ops : List Op) :
    Keeps root m (ops.foldl (fun m op => (m.call root op).2) m) := by
  induction ops generalizing m with
  | nil => exact .refl root m
  | cons op ops ih =>
    obtain ⟨hinv', hflat', -⟩ := call_refines hinv hflat op
    exact (call_keeps hinv hflat op).trans (ih hinv' hflat')

theorem calls_keep_one :
    Keeps (p2v 0x1000) emptyMachine (emptyMachine.call (p2v 0x1000) (.map 0x400000 0x5000 7)).2 :=
  calls_keep treeInv_emptyMachine.1 treeInv_emptyMachine.2 [.map 0x400000 0x5000 7]

theorem setPage_same (m : Machine) (p : Word) (page : BitVec 9 → Word) : (m.setPage p page).mem p = page :=
  Function.update_self _ _ _

theorem setPage_of_ne (m : Machine) {p p' : Word} (hne : p' ≠ p) (page : BitVec 9 → Word) :
    (m.setPage p page).mem p' = m.mem p' :=
  Function.update_of_ne hne _ _

section SetPage

variable {page : BitVec 9 → Word} (hkept : Kept m root p)

include hkept

theorem mem_setPage_of_walk {t : Word} (hq : q.length ≤ 3) (hwalk : m.walk root q = some t) :
    (m.setPage p page).mem t = m.mem t := by
  apply setPage_of_ne
  intro heq
  exact hkept.1 q hq (heq ▸ hwalk)

theorem walk_setPage (hq : q.length ≤ 3) : (m.setPage p page).walk root q = m.walk root q := by
  apply Radix.walk_congr
  intro path i rest t hsplit hwalk
  rw [hsplit, length_append] at hq
  rw [mem_setPage_of_walk hkept (by omega) hwalk]

theorem treeInv_setPage (hinv : TreeInv m root) : TreeInv (m.setPage p page) root :=
  .of_walk (fun _ => walk_setPage hkept) hinv rfl

theorem kept_setPage {p' : Word} (hkept' : Kept m root p') : Kept (m.setPage p page) root p' := by
  refine ⟨fun q hq => ?_, hkept'.2⟩
  rw [← Machine.walk, walk_setPage hkept hq]
  exact hkept'.1 q hq

theorem flatAlong_setPage {full : List (BitVec 9)} (hfull : full.length ≤ 3) (hflat : FlatAlong m root full) :
    FlatAlong (m.setPage p page) root full :=
  .of_walk (fun _ => walk_setPage hkept) hflat hfull fun _ _ hq => mem_setPage_of_walk hkept hq.le

theorem leaf_setPage (n : BitVec 36) : (m.setPage p page).leaf root n = m.leaf root n := by
  rw [Machine.leaf, Machine.leaf, Machine.entryAt, Machine.entryAt, walk_setPage hkept (by simp)]
  cases hwalk : m.walk root [numberIndex 3 n, numberIndex 2 n, numberIndex 1 n] with
  | none => rfl
  | some t => rw [bind_some, bind_some, mem_setPage_of_walk hkept (by simp) hwalk]

theorem missing_setPage {t : Word} (pre path : List (BitVec 9)) (hlength : (pre ++ path).length ≤ 3)
    (hwalk : m.walk root pre = some t) : missing (m.setPage p page) t path = missing m t path := by
  induction path generalizing pre t with
  | nil => rfl
  | cons i path ih =>
    rw [length_append, length_cons] at hlength
    rw [missing, missing, mem_setPage_of_walk hkept (by omega) hwalk]
    cases hchild : child (m.mem t i) with
    | none => rfl
    | some t' =>
      refine ih (pre ++ [i]) ?_ ((Radix.walk_concat hwalk i).trans hchild)
      rw [length_append, length_append, length_singleton]
      omega

end SetPage

def Machine.take (m : Machine) (f : Word) (pool : List Word) (page : BitVec 9 → Word) : Machine :=
  { m with pool }.setPage (p2v f) page

section Take

variable {page : BitVec 9 → Word}

section

variable (hinv : TreeInv m root) (hpool : m.pool = f :: pool) (hf : f ≠ 0)
include hinv hpool hf

theorem kept_head : Kept { m with pool } root (p2v f) := by
  obtain ⟨hlow, hunreached⟩ := hinv.head hpool hf
  refine ⟨hunreached, fun f' hf' hne heq => ?_⟩
  have hmem' : f' ∈ m.pool := by
    rw [hpool]
    exact mem_cons_of_mem f hf'
  have hdistinct := hinv.distinct
  rw [hpool, pairwise_cons] at hdistinct
  exact hdistinct.1 f' hf' hf (p2v_injective hlow.2 (hinv.fresh f' hmem' hne).1.2 heq.symm)

theorem TreeInv.take : TreeInv (m.take f pool page) root := by
  have hrest := hinv.skip
  rw [hpool] at hrest
  exact treeInv_setPage (kept_head hinv hpool hf) hrest

theorem leaf_take (page : BitVec 9 → Word) (n : BitVec 36) : (m.take f pool page).leaf root n = m.leaf root n :=
  leaf_setPage (kept_head hinv hpool hf) n

theorem Keeps.take : Keeps root m (m.take f pool page) := by
  intro p hkept
  have hrest := (Keeps.skip root m p hkept).1
  rw [hpool] at hrest
  exact ⟨kept_setPage (kept_head hinv hpool hf) hrest, setPage_of_ne _ (hkept.ne_head hpool hf).symm _⟩

end

theorem FlatAlong.take {full : List (BitVec 9)} (hflat : FlatAlong m root full) (hfull : full.length ≤ 3)
    (hinv : TreeInv m root) (hpool : m.pool = f :: pool) (hf : f ≠ 0) : FlatAlong (m.take f pool page) root full :=
  flatAlong_setPage (kept_head hinv hpool hf) hfull hflat

end Take

/-- How many pages `pmm_alloc_page` is asked for to give an address its page: a new frame unless the page is shared, and
the missing tables. -/
def pageAllocs (m : Machine) (root : Word) (shared : Bool) (a : Word) : Nat :=
  missing m root (tablePath a) + if shared then 0 else 1

/-- An address has got a page: the frame at `paddr` if it is shared, and otherwise a new frame with the
same contents. -/
structure PagePlaced (m m' : Machine) (root flags a paddr : Word) (shared : Bool) (f : Word) : Prop where
  tree : TreeInv m' root
  flat : ∀ full, full.length ≤ 3 → FlatAlong m root full → FlatAlong m' root full
  keeps : Keeps root m m'
  pool : ∃ k ≤ pageAllocs m root shared a, m'.pool = m.pool.drop k
  leaf : ∀ n, m'.leaf root n = if n = pageNumber a then some (f ||| flags) else m.leaf root n
  frame : IsFrame f
  shares : shared = true → f = paddr
  copies : shared = false → f ∈ m.pool ∧ f ≠ 0 ∧ Kept m' root (p2v f) ∧ m'.mem (p2v f) = m.mem (p2v paddr)

/-- An address has got a new frame with given contents. -/
structure PageFilled (m m' : Machine) (root flags a : Word) (page : BitVec 9 → Word) (f : Word) : Prop where
  tree : TreeInv m' root
  flat : ∀ full, full.length ≤ 3 → FlatAlong m root full → FlatAlong m' root full
  keeps : Keeps root m m'
  pool : ∃ k ≤ pageAllocs m root false a, m'.pool = m.pool.drop k
  leaf : ∀ n, m'.leaf root n = if n = pageNumber a then some (f ||| flags) else m.leaf root n
  frame : IsFrame f
  taken : f ∈ m.pool
  nonzero : f ≠ 0
  kept : Kept m' root (p2v f)
  contents : m'.mem (p2v f) = page

theorem prot_present (protection : BitVec 32) : x86_64Prot2Flags protection &&& pagePresent ≠ 0 := by
  rw [x86_64Prot2Flags]
  split_ifs <;> decide

theorem prot_noFrame (protection : BitVec 32) : getPageFrame (x86_64Prot2Flags protection) = 0 := by
  rw [x86_64Prot2Flags]
  split_ifs <;> decide

section Place

variable {a : Word} (hinv : TreeInv m root) (hflat : FlatAlong m root (tablePath a))
  (hnone : m.leaf root (pageNumber a) = none)

include hinv hflat hnone

theorem placed_shared {paddr : Word} (hsupplied : Supplied m.pool (pageAllocs m root true a))
    (hpresent : flags &&& pagePresent ≠ 0) (hframe : IsFrame paddr) :
    PagePlaced m (mapPageMem m root a paddr flags).2 root flags a paddr true paddr := by
  obtain ⟨htree, hkeep, -, -⟩ := mapPageMem_leaf hinv hflat paddr flags
  obtain ⟨k, hk, hpool⟩ := mapPageMem_pool hinv hflat paddr flags
  exact ⟨htree, hkeep, mapPageMem_keeps hinv hflat _ _, ⟨k, hk, hpool⟩,
    mapped_leaf hinv hflat hnone hsupplied hpresent _, hframe, fun _ => rfl, by simp⟩

variable (hpool : m.pool = f :: pool) (hf : f ≠ 0) (hrest : Supplied pool (missing m root (tablePath a)))
  (hpresent : flags &&& pagePresent ≠ 0)

include hpool hf hrest hpresent

theorem filled (page : BitVec 9 → Word) :
    PageFilled m (mapPageMem (m.take f pool page) root a f flags).2 root flags a page f := by
  have hinv' : TreeInv (m.take f pool page) root := hinv.take hpool hf
  have hflat' : FlatAlong (m.take f pool page) root (tablePath a) := hflat.take (by simp [tablePath]) hinv hpool hf
  have hhead := kept_head hinv hpool hf
  have hleaf := leaf_take hinv hpool hf page
  have hmissing : missing (m.take f pool page) root (tablePath a) = missing m root (tablePath a) :=
    missing_setPage hhead [] (tablePath a) (by simp [tablePath]) rfl
  obtain ⟨htree, hkeep, -, -⟩ := mapPageMem_leaf hinv' hflat' f flags
  obtain ⟨k, hk, hpool'⟩ := mapPageMem_pool hinv' hflat' f flags
  have hkeeps := mapPageMem_keeps hinv' hflat' f flags
  obtain ⟨hkept, hcopy⟩ := hkeeps (p2v f) (kept_setPage hhead hhead)
  refine ⟨htree, fun full hfull h => hkeep full hfull (h.take hfull hinv hpool hf),
    (Keeps.take hinv hpool hf).trans hkeeps, ⟨k + 1, Nat.succ_le_succ (hmissing ▸ hk), ?_⟩, fun n => ?_,
    (hinv.head hpool hf).1.isFrame, ?_, hf, hkept, ?_⟩
  · rw [hpool', hpool]
    rfl
  · rw [mapped_leaf hinv' hflat' ((hleaf _).trans hnone) (hmissing ▸ hrest) hpresent, hleaf]
  · rw [hpool]
    exact mem_cons_self
  · exact hcopy.trans (setPage_same _ _ _)

theorem placed_copy (paddr : Word) :
    PagePlaced m (mapPageMem (m.take f pool (m.mem (p2v paddr))) root a f flags).2 root flags a paddr false f := by
  have hfilled := filled hinv hflat hnone hpool hf hrest hpresent (m.mem (p2v paddr))
  exact { hfilled with shares := by simp, copies := fun _ => ⟨hfilled.taken, hf, hfilled.kept, hfilled.contents⟩ }

end Place

end Kairax.Paging
