import Kairax.Lib.Run
import Kairax.Paging.Tree

/-!
# Page tables refine a partial map

A tree without huge pages behaves as a partial map from virtual page numbers to frames and flags, along every sequence
of `map_page_mem`, `unmap_page1` and `set_page_flags`.
-/

namespace Kairax.Paging

open Lib List Option Function

def tablePath (va : Word) : List (BitVec 9) := [level4Index va, level3Index va, level2Index va]

theorem and_pagePresent {x : Word} (hpresent : ¬ x &&& pagePresent = 0) : x &&& pagePresent = 1 := by
  have hbit := (and_one_ne_zero x).mp hpresent
  rw [show pagePresent = 1#64 from rfl, BitVec.and_one_eq_setWidth_ofBool_getLsbD, hbit]
  rfl

variable {pt : Word} {page : Option Word}

variable {m : Machine} {root va : Word}

theorem pageDirectory_of_walk {pd : Word} (hwalk : m.walk root [level4Index va, level3Index va] = some pd) :
    pageDirectory m root va = some pd := by
  rw [Machine.walk, Radix.walk] at hwalk
  cases hpdp : child (m.mem root (level4Index va)) with
  | none => simp [hpdp] at hwalk
  | some pdp =>
    obtain ⟨hpresent, -, hframe⟩ := child_eq_some hpdp
    rw [hpdp, bind_some, Radix.walk] at hwalk
    cases hchild : child (m.mem pdp (level3Index va)) with
    | none => simp [hchild] at hwalk
    | some pd' =>
      obtain ⟨hpresent', -, hframe'⟩ := child_eq_some hchild
      rw [hchild, bind_some, Radix.walk] at hwalk
      rw [pageDirectory, if_neg hpresent]
      simp only [← hframe, if_neg hpresent']
      rw [← hframe', hwalk]

theorem directory_of_walk (hwalk : m.walk root (tablePath va) = some pt) :
    ∃ pd, pageDirectory m root va = some pd ∧ child (m.mem pd (level2Index va)) = some pt := by
  rw [tablePath, Machine.walk, show [level4Index va, level3Index va, level2Index va] =
    [level4Index va, level3Index va] ++ [level2Index va] from rfl, Radix.walk_append] at hwalk
  obtain ⟨pd, hpd, hchild⟩ := bind_eq_some_iff.mp hwalk
  exact ⟨pd, pageDirectory_of_walk hpd, (Radix.walk_concat (p := []) rfl (level2Index va)).symm.trans hchild⟩

theorem lookup_of_walk (hwalk : m.walk root (tablePath va) = some pt) :
    (visible (m.mem pt (level1Index va)) = none ∧ getPhysicalAddress m root va = 0 ∧
      archVmIsMapped m root va = 0) ∨
    ∃ entry, visible (m.mem pt (level1Index va)) = some entry ∧
      getPhysicalAddress m root va = getPageFrame entry + getPageOffset va ∧ archVmIsMapped m root va = 1 := by
  obtain ⟨pd, hpd, hchild⟩ := directory_of_walk hwalk
  obtain ⟨hpresent, hhuge, hframe⟩ := child_eq_some hchild
  rw [getPhysicalAddress, archVmIsMapped, hpd]
  simp only [if_neg hpresent, hhuge, ne_eq, not_true_eq_false, if_false, ← hframe, visible]
  by_cases hleaf : m.mem pt (level1Index va) &&& pagePresent = 0
  · left
    simp only [hleaf, if_true, and_self]
  · right
    simp only [if_neg hleaf]
    exact ⟨_, rfl, rfl, and_pagePresent hleaf⟩

def Machine.leaf (m : Machine) (root : Word) (n : BitVec 36) : Option Word :=
  m.entryAt root [numberIndex 3 n, numberIndex 2 n, numberIndex 1 n] (numberIndex 0 n)

theorem indices_eq (va : Word) :
    level4Index va = numberIndex 3 (pageNumber va) ∧ level3Index va = numberIndex 2 (pageNumber va) ∧
      level2Index va = numberIndex 1 (pageNumber va) ∧ level1Index va = numberIndex 0 (pageNumber va) :=
  ⟨pageIndex_eq_numberIndex va 3 (by decide), pageIndex_eq_numberIndex va 2 (by decide),
    pageIndex_eq_numberIndex va 1 (by decide), pageIndex_eq_numberIndex va 0 (by decide)⟩

theorem leaf_pageNumber (m : Machine) (root va : Word) :
    m.leaf root (pageNumber va) = m.entryAt root (tablePath va) (level1Index va) := by
  obtain ⟨h4, h3, h2, h1⟩ := indices_eq va
  rw [Machine.leaf, tablePath, h4, h3, h2, h1]

theorem tablePath_of_pageNumber {va' : Word} (hnumber : pageNumber va = pageNumber va') :
    tablePath va = tablePath va' := by
  obtain ⟨h4, h3, h2, -⟩ := indices_eq va
  obtain ⟨h4', h3', h2', -⟩ := indices_eq va'
  rw [tablePath, tablePath, h4, h3, h2, h4', h3', h2', hnumber]

theorem leaf_update {m' : Machine} (hentries : ∀ q j, q.length = 3 → m'.entryAt root q j =
      if q = tablePath va ∧ j = level1Index va then page else m.entryAt root q j) (n : BitVec 36) :
    m'.leaf root n = if n = pageNumber va then page else m.leaf root n := by
  obtain ⟨h4, h3, h2, h1⟩ := indices_eq va
  rw [Machine.leaf, hentries _ _ rfl, tablePath, h4, h3, h2, h1]
  by_cases hn : n = pageNumber va
  · rw [hn, if_pos ⟨rfl, rfl⟩, if_pos rfl]
  · rw [if_neg, if_neg hn]
    · rfl
    · rintro ⟨hpath, hlast⟩
      simp only [cons.injEq, and_true] at hpath
      apply hn
      apply pageNumber_ext
      intro level hlevel
      match level, hlevel with
      | 0, _ => exact hlast
      | 1, _ => exact hpath.2.2
      | 2, _ => exact hpath.2.1
      | 3, _ => exact hpath.1

theorem missing_eq_zero {t t' : Word} {path : List (BitVec 9)} (hwalk : m.walk t path = some t') :
    missing m t path = 0 := by
  induction path generalizing t with
  | nil => rfl
  | cons i path ih =>
    obtain ⟨t'', hchild, hrest⟩ := bind_eq_some_iff.mp hwalk
    rw [missing, hchild]
    exact ih hrest

theorem ensurePath_concat (m : Machine) (t : Word) (path : List (BitVec 9)) (i : BitVec 9) (flags : Word) :
    ensurePath m t (path ++ [i]) flags =
      match ensurePath m t path flags with
      | (none, m') => (none, m')
      | (some t', m') => ensureTable m' t' i flags := by
  induction path generalizing m t with
  | nil =>
    simp only [nil_append, ensurePath]
    rcases ensureTable m t i flags with ⟨_ | t', m'⟩ <;> rfl
  | cons j path ih =>
    rw [cons_append, ensurePath, ensurePath]
    rcases ensureTable m t j flags with ⟨_ | t', m'⟩
    · rfl
    · exact ih m' t'

theorem mapPageMem_eq (hinv : TreeInv m root) (hflat : FlatAlong m root (tablePath va)) (pa flags : Word) :
    mapPageMem m root va pa flags =
      match ensurePath m root (tablePath va) (baseFlags flags) with
      | (none, m') => (.noMem, m')
      | (some pt, m') =>
        if m'.mem pt (level1Index va) &&& pagePresent = 0 then
          (.ok, m'.setEntry pt (level1Index va) (pa ||| flags))
        else (.alreadyMapped, m') := by
  have hupper : FlatAlong m root [level4Index va, level3Index va] := fun path t i hpre =>
    hflat path t i (hpre.trans ⟨[level2Index va], rfl⟩)
  obtain ⟨r, m', hensure, -, hgrows, hend, -⟩ :=
    ensurePath_grows [level4Index va, level3Index va] (tableFlags_baseFlags flags) (by simp) hinv hupper
  have hconcat := ensurePath_concat m root [level4Index va, level3Index va] (level2Index va) (baseFlags flags)
  rw [hensure] at hconcat
  rw [mapPageMem, hensure, tablePath, show [level4Index va, level3Index va, level2Index va] =
      [level4Index va, level3Index va] ++ [level2Index va] from rfl, hconcat]
  cases r with
  | none => rfl
  | some pd =>
    have hnot : ¬ (m'.mem pd (level2Index va) &&& pagePresent ≠ 0 ∧
        m'.mem pd (level2Index va) &&& pageHuge = pageHuge) := by
      rintro ⟨hpresent, hset⟩
      have hflat' := hgrows.flat (tablePath va) (by simp [tablePath]) hflat
      rw [hflat' _ pd (level2Index va) ⟨[], rfl⟩ (hend pd rfl) hpresent] at hset
      exact absurd hset (by decide)
    rcases ensureTable m' pd (level2Index va) (baseFlags flags) with ⟨_ | pt, m''⟩
    · exact if_neg hnot
    · exact if_neg hnot

section

variable (hflat : FlatAlong m root (tablePath va))
include hflat

theorem pageDirectory_eq : pageDirectory m root va = m.walk root [level4Index va, level3Index va] := by
  rw [pageDirectory, Machine.walk, Radix.walk]
  by_cases habsent : m.mem root (level4Index va) &&& pagePresent = 0
  · rw [if_pos habsent, child_of_absent habsent, bind_none]
  · have hchild := child_of_present habsent (hflat [] root _ ⟨[_, _], rfl⟩ rfl habsent)
    have hwalk : m.walk root [level4Index va] = some (p2v (getPageFrame (m.mem root (level4Index va)))) :=
      (Radix.walk_concat (p := []) rfl _).trans hchild
    rw [if_neg habsent, hchild, bind_some, Radix.walk]
    by_cases habsent' : m.mem (p2v (getPageFrame (m.mem root (level4Index va)))) (level3Index va) &&& pagePresent = 0
    · simp only [if_pos habsent', child_of_absent habsent', bind_none]
    · simp only [if_neg habsent', Radix.walk, bind_some,
        child_of_present habsent' (hflat _ _ _ ⟨[_], rfl⟩ hwalk habsent')]

theorem directory_noHuge {pd : Word}
    (hpd : pageDirectory m root va = some pd) (hpresent : ¬ m.mem pd (level2Index va) &&& pagePresent = 0) :
    m.mem pd (level2Index va) &&& pageHuge = 0 := by
  rw [pageDirectory_eq hflat] at hpd
  exact hflat _ pd _ ⟨[], rfl⟩ hpd hpresent

theorem walk_tablePath :
    m.walk root (tablePath va) = (pageDirectory m root va).bind fun pd => child (m.mem pd (level2Index va)) := by
  rw [pageDirectory_eq hflat, tablePath, Machine.walk, show [level4Index va, level3Index va, level2Index va] =
    [level4Index va, level3Index va] ++ [level2Index va] from rfl, Radix.walk_append]
  congr 1
  funext pd
  rw [Radix.walk]
  cases child (m.mem pd (level2Index va)) <;> rfl

theorem openTable_eq : openTable m root va = (m.walk root (tablePath va), m) := by
  rw [openTable, walk_tablePath hflat]
  cases hpd : pageDirectory m root va with
  | none => rfl
  | some pd =>
    by_cases habsent : m.mem pd (level2Index va) &&& pagePresent = 0
    · simp only [bind_some, if_pos habsent, child_of_absent habsent]
    · have hset := directory_noHuge hflat hpd habsent
      simp only [bind_some, if_neg habsent, hset, ne_eq, not_true_eq_false, if_false, child_of_present habsent hset]

end

theorem lookup_cases (va : Word) (hflat : FlatAlong m root (tablePath va)) :
    (m.entryAt root (tablePath va) (level1Index va) = none ∧ getPhysicalAddress m root va = 0 ∧
      archVmIsMapped m root va = 0) ∨
    ∃ entry, m.entryAt root (tablePath va) (level1Index va) = some entry ∧
      getPhysicalAddress m root va = getPageFrame entry + getPageOffset va ∧ archVmIsMapped m root va = 1 := by
  cases hwalk : m.walk root (tablePath va) with
  | some pt =>
    rw [entryAt_of_walk hwalk]
    exact lookup_of_walk hwalk
  | none =>
    left
    rw [walk_tablePath hflat] at hwalk
    rw [Machine.entryAt, walk_tablePath hflat, hwalk, getPhysicalAddress, archVmIsMapped]
    cases hpd : pageDirectory m root va with
    | none => exact ⟨rfl, rfl, rfl⟩
    | some pd =>
      rw [hpd, bind_some] at hwalk
      by_cases habsent : m.mem pd (level2Index va) &&& pagePresent = 0
      · simp only [if_pos habsent, bind_none, and_self]
      · rw [child_of_present habsent (directory_noHuge hflat hpd habsent)] at hwalk
        exact absurd hwalk (by simp)

theorem mapPageMem_spec (hinv : TreeInv m root) (va : Word) (hflat : FlatAlong m root (tablePath va))
    (pa flags : Word) :
    ∃ rc m', mapPageMem m root va pa flags = (rc, m') ∧ TreeInv m' root ∧
      (∀ full, full.length ≤ 3 → FlatAlong m root full → FlatAlong m' root full) ∧
      rc = (if (m.entryAt root (tablePath va) (level1Index va)).isSome then .alreadyMapped
        else if Supplied m.pool (missing m root (tablePath va)) then .ok else .noMem) ∧
      ∀ q j, q.length = 3 → m'.entryAt root q j =
        if rc = .ok ∧ q = tablePath va ∧ j = level1Index va then visible (pa ||| flags)
        else m.entryAt root q j := by
  obtain ⟨r, m', hensure, hinv', hgrows, hend, hsupplied⟩ :=
    ensurePath_grows (tablePath va) (tableFlags_baseFlags flags) (by simp [tablePath]) hinv hflat
  have hentry := hgrows.entries (tablePath va) (level1Index va) rfl
  rw [mapPageMem_eq hinv hflat, hensure]
  cases r with
  | none =>
    have hrefused : ¬ Supplied m.pool (missing m root (tablePath va)) := fun h => by simpa using hsupplied.mpr h
    have hnone : m.entryAt root (tablePath va) (level1Index va) = none := by
      rw [Machine.entryAt]
      cases hwalk : m.walk root (tablePath va) with
      | none => rfl
      | some t =>
        rw [missing_eq_zero hwalk] at hrefused
        exact absurd (fun k hk => absurd hk (by omega)) hrefused
    refine ⟨.noMem, m', rfl, hinv', hgrows.flat, ?_, fun q j hq => ?_⟩
    · rw [hnone, if_neg (by simp), if_neg hrefused]
    · rw [if_neg (by simp), hgrows.entries q j hq]
  | some pt =>
    have hwalk := hend pt rfl
    have hready := hsupplied.mp rfl
    rw [← hentry, entryAt_of_walk hwalk, visible]
    by_cases hleaf : m'.mem pt (level1Index va) &&& pagePresent = 0
    · refine ⟨.ok, m'.setEntry pt (level1Index va) (pa ||| flags), if_pos hleaf, hinv'.setEntry hwalk rfl _,
        fun full hfull h => (hgrows.flat full hfull h).setEntry hfull hinv' hwalk rfl _, ?_, fun q j hq => ?_⟩
      · rw [if_pos hleaf, if_neg (by simp), if_pos hready]
      · rw [entryAt_setEntry hinv' hwalk rfl _ hq, hgrows.entries q j hq]
        simp only [true_and]
    · refine ⟨.alreadyMapped, m', if_neg hleaf, hinv', hgrows.flat, ?_, fun q j hq => ?_⟩
      · rw [if_neg hleaf, isSome_some, if_pos rfl]
      · rw [if_neg (by simp), hgrows.entries q j hq]

structure Mapping where
  frame : Word
  flags : Word
  deriving DecidableEq, Repr

abbrev PageMap := BitVec 36 → Option Mapping

def Mapping.ofEntry (entry : Word) : Mapping := { frame := getPageFrame entry, flags := getPageFlags entry }

/-- The map with a page mapped to a frame with flags; without the present flag the page is unmapped. -/
def PageMap.install (p : PageMap) (n : BitVec 36) (frame flags : Word) : PageMap :=
  update p n ((visible (frame ||| flags)).map Mapping.ofEntry)

theorem install_eq (p : PageMap) (n : BitVec 36) {frame flags : Word} (hframe : IsFrame frame)
    (hflags : getPageFrame flags = 0) (hpresent : flags &&& pagePresent ≠ 0) :
    p.install n frame flags = update p n (some { frame, flags }) := by
  rw [PageMap.install, visible, if_neg (and_pagePresent_or hpresent), map_some, Mapping.ofEntry,
    getPageFrame_entry hframe hflags, getPageFlags_entry hframe hflags]

inductive Op
  | map (va frame flags : Word)
  | unmap (va : Word)
  | setFlags (va flags : Word)

structure Reply where
  rc : Rc
  unmapped : Option Mapping := none
  deriving DecidableEq, Repr

/-- The calls on the map. The page allocator has frames for the missing tables if `supplied`. -/
def PageMap.call (p : PageMap) (supplied : Prop) [Decidable supplied] : Op → Reply × PageMap
  | .map va frame flags =>
    match p (pageNumber va) with
    | some _ => ({ rc := .alreadyMapped }, p)
    | none => if supplied then ({ rc := .ok }, p.install (pageNumber va) frame flags) else ({ rc := .noMem }, p)
  | .unmap va =>
    match p (pageNumber va) with
    | none => ({ rc := .noPagePresent }, p)
    | some page => ({ rc := .ok, unmapped := some page }, update p (pageNumber va) none)
  | .setFlags va flags =>
    match p (pageNumber va) with
    | none => ({ rc := .noPagePresent }, p)
    | some page => ({ rc := .ok }, p.install (pageNumber va) page.frame flags)

def Machine.call (m : Machine) (root : Word) : Op → Reply × Machine
  | .map va frame flags =>
    let (rc, m) := mapPageMem m root va frame flags
    ({ rc }, m)
  | .unmap va =>
    let (rc, unmapped, m) := unmapPage1 m root va
    ({ rc, unmapped := unmapped.map fun u => { frame := u.physAddr, flags := u.flags } }, m)
  | .setFlags va flags =>
    let (rc, m) := setPageFlags m root va flags
    ({ rc }, m)

def Machine.Supplies (m : Machine) (root : Word) : Op → Prop
  | .map va _ _ => Supplied m.pool (missing m root (tablePath va))
  | .unmap _ => True
  | .setFlags _ _ => True

instance (m : Machine) (root : Word) (op : Op) : Decidable (m.Supplies root op) := by
  cases op <;> (unfold Machine.Supplies; infer_instance)

def Machine.pages (m : Machine) (root : Word) : PageMap := fun n => (m.leaf root n).map Mapping.ofEntry

def Flat (m : Machine) (root : Word) : Prop := ∀ full, full.length ≤ 3 → FlatAlong m root full

/-- The tables are still in shape, and the call does on the map what it does on the tables. -/
def Machine.Refines (m : Machine) (root : Word) (op : Op) : Prop :=
  TreeInv (m.call root op).2 root ∧ Flat (m.call root op).2 root ∧
    ((m.call root op).1, (m.call root op).2.pages root) = (m.pages root).call (m.Supplies root op) op

theorem Flat.along (hflat : Flat m root) (va : Word) : FlatAlong m root (tablePath va) :=
  hflat (tablePath va) (by simp [tablePath])

section Pages

variable {m' : Machine}

theorem pages_pageNumber (m : Machine) (root va : Word) :
    m.pages root (pageNumber va) = (m.entryAt root (tablePath va) (level1Index va)).map Mapping.ofEntry := by
  rw [Machine.pages, leaf_pageNumber]

theorem pages_update (hentries : ∀ q j, q.length = 3 → m'.entryAt root q j =
      if q = tablePath va ∧ j = level1Index va then page else m.entryAt root q j) :
    m'.pages root = update (m.pages root) (pageNumber va) (page.map Mapping.ofEntry) := by
  funext n
  rw [Machine.pages, leaf_update hentries, update_apply]
  split_ifs <;> rfl

theorem pages_congr (hentries : ∀ q j, q.length = 3 → m'.entryAt root q j = m.entryAt root q j) :
    m'.pages root = m.pages root := by
  funext n
  rw [Machine.pages, Machine.leaf, hentries _ _ rfl, Machine.pages, Machine.leaf]

theorem setEntry_spec (hinv : TreeInv m root) (hflat : Flat m root) (hwalk : m.walk root (tablePath va) = some pt)
    (entry : Word) :
    TreeInv (m.setEntry pt (level1Index va) entry) root ∧ Flat (m.setEntry pt (level1Index va) entry) root ∧
      (m.setEntry pt (level1Index va) entry).pages root =
        update (m.pages root) (pageNumber va) ((visible entry).map Mapping.ofEntry) :=
  ⟨hinv.setEntry hwalk rfl entry, fun full hfull => (hflat full hfull).setEntry hfull hinv hwalk rfl entry,
    pages_update fun _ j hq => entryAt_setEntry hinv hwalk rfl entry hq j⟩

theorem entry_of_pages {page : Mapping} (hpage : m.pages root (pageNumber va) = some page) :
    ∃ pt entry, m.walk root (tablePath va) = some pt ∧ m.mem pt (level1Index va) = entry ∧
      ¬ entry &&& pagePresent = 0 ∧ Mapping.ofEntry entry = page := by
  rw [pages_pageNumber] at hpage
  obtain ⟨entry, hentry, hof⟩ := map_eq_some_iff.mp hpage
  obtain ⟨pt, hwalk, hvisible⟩ := bind_eq_some_iff.mp hentry
  rw [visible] at hvisible
  split_ifs at hvisible with habsent
  cases hvisible
  exact ⟨pt, _, hwalk, rfl, habsent, hof⟩

theorem absent_of_pages (hpage : m.pages root (pageNumber va) = none) :
    m.walk root (tablePath va) = none ∨
      ∃ pt, m.walk root (tablePath va) = some pt ∧ m.mem pt (level1Index va) &&& pagePresent = 0 := by
  rw [pages_pageNumber, map_eq_none_iff, Machine.entryAt] at hpage
  cases hwalk : m.walk root (tablePath va) with
  | none => exact .inl rfl
  | some pt =>
    rw [hwalk, bind_some, visible] at hpage
    split_ifs at hpage with habsent
    exact .inr ⟨pt, rfl, habsent⟩

section

variable (hinv : TreeInv m root) (hflat : Flat m root)
include hinv hflat

theorem map_refines (va frame flags : Word) : m.Refines root (.map va frame flags) := by
  obtain ⟨rc, m', hcall, hinv', hflat', hrc, hentries⟩ := mapPageMem_spec hinv va (hflat.along va) frame flags
  have hpage := pages_pageNumber m root va
  rw [Machine.Refines, Machine.call, hcall]
  refine ⟨hinv', fun full hfull => hflat' full hfull (hflat full hfull), ?_⟩
  rw [PageMap.call]
  cases hentry : m.entryAt root (tablePath va) (level1Index va) with
  | some entry =>
    rw [hentry, isSome_some, if_pos rfl] at hrc
    rw [hpage, hentry, map_some]
    subst hrc
    rw [pages_congr hentries]
  | none =>
    rw [hentry] at hrc
    rw [hpage, hentry, map_none]
    by_cases hsupplied : m.Supplies root (.map va frame flags)
    · obtain rfl := hrc.trans (if_pos (show Supplied _ _ from hsupplied))
      simp only [true_and] at hentries
      simp only [if_pos hsupplied, pages_update hentries]
      rfl
    · obtain rfl := hrc.trans (if_neg (show ¬ Supplied _ _ from hsupplied))
      simp only [if_neg hsupplied, pages_congr hentries]

theorem unmap_refines (va : Word) : m.Refines root (.unmap va) := by
  rw [Machine.Refines, Machine.call, unmapPage1, openTable_eq (hflat.along va), PageMap.call]
  cases hpage : m.pages root (pageNumber va) with
  | none =>
    rcases absent_of_pages hpage with hwalk | ⟨pt, hwalk, habsent⟩
    · rw [hwalk]
      exact ⟨hinv, hflat, rfl⟩
    · rw [hwalk]
      simp only [if_pos habsent]
      exact ⟨hinv, hflat, rfl⟩
  | some page =>
    obtain ⟨pt, entry, hwalk, hread, hpresent, hof⟩ := entry_of_pages hpage
    obtain ⟨hinv', hflat', hpages⟩ := setEntry_spec hinv hflat hwalk 0
    rw [hwalk]
    simp only [hread, if_neg hpresent]
    refine ⟨hinv', hflat', ?_⟩
    rw [hpages, ← hof]
    rfl

theorem setFlags_refines (va flags : Word) : m.Refines root (.setFlags va flags) := by
  rw [Machine.Refines, Machine.call, setPageFlags, openTable_eq (hflat.along va), PageMap.call]
  cases hpage : m.pages root (pageNumber va) with
  | none =>
    rcases absent_of_pages hpage with hwalk | ⟨pt, hwalk, habsent⟩
    · rw [hwalk]
      exact ⟨hinv, hflat, rfl⟩
    · rw [hwalk]
      simp only [if_pos habsent]
      exact ⟨hinv, hflat, trivial⟩
  | some page =>
    obtain ⟨pt, entry, hwalk, hread, hpresent, hof⟩ := entry_of_pages hpage
    obtain ⟨hinv', hflat', hpages⟩ := setEntry_spec hinv hflat hwalk (getPageFrame entry ||| flags)
    rw [hwalk]
    simp only [hread, if_neg hpresent]
    refine ⟨hinv', hflat', ?_⟩
    rw [hpages, ← hof]
    rfl

theorem call_refines (op : Op) : m.Refines root op := by
  cases op with
  | map va frame flags => exact map_refines hinv hflat va frame flags
  | unmap va => exact unmap_refines hinv hflat va
  | setFlags va flags => exact setFlags_refines hinv hflat va flags

end

end Pages

structure Pair where
  machine : Machine
  map : PageMap

def Pair.step (root : Word) (s : Pair) (op : Op) : Option Pair :=
  some { machine := (s.machine.call root op).2, map := (s.map.call (s.machine.Supplies root op) op).2 }

theorem Pair.exists_run (root : Word) (s : Pair) (ops : List Op) :
    ∃ t, Run (Pair.step root) (fun _ _ => True) s ops t := by
  induction ops generalizing s with
  | nil => exact ⟨s, .nil s⟩
  | cons op ops ih =>
    obtain ⟨t, hrest⟩ := ih _
    exact ⟨t, .cons trivial rfl hrest⟩

def Agrees (root : Word) (s : Pair) : Prop :=
  ∀ va, match s.map (pageNumber va) with
    | none => getPhysicalAddress s.machine root va = 0 ∧ archVmIsMapped s.machine root va = 0
    | some page => getPhysicalAddress s.machine root va = page.frame + getPageOffset va ∧
        archVmIsMapped s.machine root va = 1

theorem agrees_of_pages {s : Pair} (hflat : Flat s.machine root) (hmap : s.map = s.machine.pages root) :
    Agrees root s := by
  intro va
  rw [hmap, pages_pageNumber]
  rcases lookup_cases va (hflat.along va) with ⟨hentry, hphys, hmapped⟩ | ⟨entry, hentry, hphys, hmapped⟩
  · rw [hentry]
    exact ⟨hphys, hmapped⟩
  · rw [hentry]
    exact ⟨hphys, hmapped⟩

/-- Along every sequence of calls the tables agree with the map and every call returns what it returns
on the map. -/
theorem paging_refines {m : Machine} {root : Word} (hinv : TreeInv m root) (hflat : Flat m root)
    {ops : List Op} {s : Pair}
    (hrun : Run (Pair.step root) (fun _ _ => True) { machine := m, map := m.pages root } ops s) :
    Agrees root s ∧
      (∀ op, (s.machine.call root op).1 = (s.map.call (s.machine.Supplies root op) op).1) ∧
      ∀ n frame flags, IsFrame frame → getPageFrame flags = 0 → flags &&& pagePresent ≠ 0 →
        s.map.install n frame flags = update s.map n (some { frame, flags }) := by
  have hsound : TreeInv s.machine root ∧ Flat s.machine root ∧ s.map = s.machine.pages root := by
    apply hrun.invariant (fun s => TreeInv s.machine root ∧ Flat s.machine root ∧
      s.map = s.machine.pages root) _ ⟨hinv, hflat, rfl⟩
    intro s op t hs _ hstep
    obtain ⟨hinv', hflat', hmap⟩ := hs
    obtain ⟨hinv'', hflat'', hcall⟩ := call_refines hinv' hflat' op
    cases hstep
    refine ⟨hinv'', hflat'', ?_⟩
    rw [hmap, ← hcall]
  obtain ⟨hinv', hflat', hmap⟩ := hsound
  refine ⟨agrees_of_pages hflat' hmap, fun op => ?_, fun n _ _ hframe hflags hpresent =>
    install_eq s.map n hframe hflags hpresent⟩
  rw [hmap, ← (call_refines hinv' hflat' op).2.2]

theorem treeInv_empty (hempty : ∀ i, m.mem root i = 0) (hpool : m.pool.all fun f => LowFrame f ∧ p2v f ≠ root)
    (hdistinct : m.pool.Pairwise fun f f' => f ≠ 0 → f ≠ f') : TreeInv m root ∧ Flat m root := by
  have hwalk (q : List (BitVec 9)) (t : Word) (h : m.walk root q = some t) : q = [] ∧ t = root := by
    cases q with
    | nil => exact ⟨rfl, (some.inj h).symm⟩
    | cons i q =>
      rw [Machine.walk, Radix.walk, hempty, child_zero] at h
      exact absurd h (by simp)
  refine ⟨⟨?_, ?_, hdistinct⟩, ?_⟩
  · intro p q t _ _ hp hq
    rw [(hwalk p t hp).1, (hwalk q t hq).1]
  · intro f hf _
    obtain ⟨hlow, hapart⟩ := of_decide_eq_true (all_eq_true.mp hpool f hf)
    exact ⟨hlow, fun q _ h => hapart (hwalk q _ h).2⟩
  · intro full _ path t i _ h hpresent
    rw [(hwalk path t h).2, hempty] at hpresent
    exact absurd rfl hpresent

def emptyMachine : Machine := { mem := fun _ _ => 0, pool := [0x2000, 0x3000, 0x4000, 0x5000], freed := [] }

theorem treeInv_emptyMachine : TreeInv emptyMachine (p2v 0x1000) ∧ Flat emptyMachine (p2v 0x1000) :=
  treeInv_empty (fun _ => rfl) (by decide) (by decide)

theorem paging_refines_threeCalls : ∃ s,
    Run (Pair.step (p2v 0x1000)) (fun _ _ => True)
      { machine := emptyMachine, map := emptyMachine.pages (p2v 0x1000) }
      [.map 0x400000 0x5000 7, .setFlags 0x400000 5, .unmap 0x400000] s ∧ Agrees (p2v 0x1000) s := by
  obtain ⟨s, hrun⟩ := Pair.exists_run (p2v 0x1000)
    { machine := emptyMachine, map := emptyMachine.pages (p2v 0x1000) }
    [.map 0x400000 0x5000 7, .setFlags 0x400000 5, .unmap 0x400000]
  exact ⟨s, hrun, (paging_refines treeInv_emptyMachine.1 treeInv_emptyMachine.2 hrun).1⟩

end Kairax.Paging
