import Kairax.Proc.Fault

/-!
# The memory of a forked process

The region loop of `sys_fork` and `page_table_mmap_fork`. For a page that is not there the physical address is `0`,
which the loop takes for a frame: a private page becomes a copy of physical page 0, a shared one page 0 itself.
-/

namespace Kairax.Proc

open Paging Lib List BitVec

/-- The body of the loop of `page_table_mmap_fork`, at a page-aligned address. -/
def forkPage (src dest flags : Word) (shared : Bool) (m : Machine) (address : Word) : Machine :=
  let paddr := getPhysicalAddress m src address
  if shared then (mapPageMem m dest address paddr flags).2
  else
    let (newp, m) := pmmAllocPage m
    let m := m.setPage (p2v newp) (m.mem (p2v paddr))
    (mapPageMem m dest address newp flags).2

def pageTableMmapFork (m : Machine) (src dest : Word) (area : MmapRange) (shared : Bool) : Machine :=
  (pageAddrs area.base (align (area.base + area.length) pageSize)).foldl
    (forkPage src dest (x86_64Prot2Flags area.protection) shared) m

/-- The region loop of `sys_fork`, which also gives the child a copy of each range. -/
def forkRegions (m : Machine) (src dest : Word) (ranges : List MmapRange) : Machine :=
  ranges.foldl (fun m range => pageTableMmapFork m src dest range range.shared) m

def requests (ranges : List MmapRange) : List (MmapRange × Word) :=
  ranges.flatMap fun r => (pageAddrs r.base (align (r.base + r.length) pageSize)).map fun a => (r, a)

def forkRequest (src dest : Word) (m : Machine) (q : MmapRange × Word) : Machine :=
  forkPage src dest (x86_64Prot2Flags q.1.protection) q.1.shared m q.2

/-- How many pages the fork asks `pmm_alloc_page` for. -/
def forkAllocs (src dest : Word) : Machine → List (MmapRange × Word) → Nat
  | _, [] => 0
  | m, q :: rest => pageAllocs m dest q.1.shared q.2 + forkAllocs src dest (forkRequest src dest m q) rest

theorem forkRegions_eq (m : Machine) (src dest : Word) (ranges : List MmapRange) :
    forkRegions m src dest ranges = (requests ranges).foldl (forkRequest src dest) m := by
  rw [forkRegions, requests, foldl_flatMap]
  congr 1
  funext m r
  rw [foldl_map]
  rfl

section Addrs

variable {r : MmapRange} (hinside : r.toExtent.Inside)

include hinside

theorem pageAddrs_laid :
    pageAddrs r.base (align (r.base + r.length) pageSize) =
        (List.range (r.length.toNat / 4096)).map (fun k => r.base + BitVec.ofNat 64 (4096 * k)) ∧
      ∀ k < r.length.toNat / 4096, (r.base + BitVec.ofNat 64 (4096 * k)).toNat = r.base.toNat + 4096 * k := by
  obtain ⟨hbase, hlength, hpos, hmax⟩ := hinside
  rw [Extent.stop] at hpos hmax
  have hsum : (r.base + r.length).toNat = r.base.toNat + r.length.toNat := by
    rw [BitVec.toNat_add]
    omega
  constructor
  · rw [pageAddrs, toNat_align_of_le (by decide) (by rw [toNat_pageSize]; omega) (by rw [toNat_pageSize]; omega),
      toNat_pageSize, hsum, if_pos (by omega)]
    congr 2
    omega
  · intro k hk
    rw [BitVec.toNat_add, BitVec.toNat_ofNat]
    omega

theorem mem_pageAddrs (a : Word) :
    a ∈ pageAddrs r.base (align (r.base + r.length) pageSize) ↔ a.toNat % 4096 = 0 ∧ r.Has a := by
  obtain ⟨hlist, hentry⟩ := pageAddrs_laid hinside
  obtain ⟨hbase, hlength, -, -⟩ := hinside
  rw [hlist, List.mem_map, Extent.Has, Extent.stop]
  constructor
  · rintro ⟨k, hk, rfl⟩
    rw [List.mem_range] at hk
    rw [hentry k hk]
    omega
  · rintro ⟨hpage, hlow, hhigh⟩
    refine ⟨(a.toNat - r.base.toNat) / 4096, List.mem_range.mpr (by omega), ?_⟩
    apply BitVec.eq_of_toNat_eq
    rw [hentry _ (by omega)]
    omega

theorem nodup_pageAddrs : (pageAddrs r.base (align (r.base + r.length) pageSize)).Nodup := by
  obtain ⟨hlist, hentry⟩ := pageAddrs_laid hinside
  rw [hlist]
  apply List.nodup_range.map_on
  intro k hk k' hk' heq
  rw [List.mem_range] at hk hk'
  have hnat := congrArg BitVec.toNat heq
  rw [hentry k hk, hentry k' hk'] at hnat
  omega

end Addrs

variable {a root : Word} {m' : Machine}

theorem toNat_pageNumber (ha : a.toNat < 2 ^ 48) : (pageNumber a).toNat = a.toNat / 4096 := by
  rw [pageNumber, toNat_setWidth, toNat_ushiftRight]
  omega

theorem Laid.mem_requests {ranges : List MmapRange} (hlaid : Laid ranges) (q : MmapRange × Word) :
    q ∈ requests ranges ↔ q.1 ∈ ranges ∧ q.2.toNat % 4096 = 0 ∧ q.1.Has q.2 := by
  obtain ⟨r, a⟩ := q
  simp only [requests, List.mem_flatMap, List.mem_map, Prod.mk.injEq]
  constructor
  · rintro ⟨r', hr, a', ha, rfl, rfl⟩
    exact ⟨hr, (mem_pageAddrs (hlaid.inside r' hr) a').mp ha⟩
  · rintro ⟨hr, ha⟩
    exact ⟨r, hr, a, (mem_pageAddrs (hlaid.inside r hr) a).mpr ha, rfl, rfl⟩

theorem Laid.lt {ranges : List MmapRange} (hlaid : Laid ranges) {r : MmapRange} (hr : r ∈ ranges) (ha : r.Has a) :
    a.toNat < 2 ^ 47 := by
  have hmax := (hlaid.inside r hr).stop_le
  have hhigh := ha.2
  rw [toNat_userspaceMaxAddr] at hmax
  omega

theorem Laid.pairwise {ranges : List MmapRange} (hlaid : Laid ranges) :
    (requests ranges).Pairwise fun q q' => pageNumber q.2 ≠ pageNumber q'.2 := by
  have hpage {a a' : Word} (ha : a.toNat < 2 ^ 47 ∧ a.toNat % 4096 = 0)
      (ha' : a'.toNat < 2 ^ 47 ∧ a'.toNat % 4096 = 0) (heq : pageNumber a = pageNumber a') : a = a' := by
    have hnat := congrArg BitVec.toNat heq
    rw [toNat_pageNumber (by omega), toNat_pageNumber (by omega)] at hnat
    apply eq_of_toNat_eq
    omega
  rw [requests, pairwise_flatMap]
  constructor
  · intro r hr
    have hmem := mem_pageAddrs (hlaid.inside r hr)
    rw [pairwise_map]
    apply (nodup_pageAddrs (hlaid.inside r hr)).imp_of_mem
    intro a a' ha ha' hne heq
    obtain ⟨hzero, hhas⟩ := (hmem a).mp ha
    obtain ⟨hzero', hhas'⟩ := (hmem a').mp ha'
    exact hne (hpage ⟨hlaid.lt hr hhas, hzero⟩ ⟨hlaid.lt hr hhas', hzero'⟩ heq)
  · apply hlaid.disjoint.imp_of_mem
    intro r r' hr hr' hdisjoint q hq q' hq' heq
    obtain ⟨a, ha, rfl⟩ := mem_map.mp hq
    obtain ⟨a', ha', rfl⟩ := mem_map.mp hq'
    obtain ⟨hzero, hhas⟩ := (mem_pageAddrs (hlaid.inside r hr) a).mp ha
    obtain ⟨hzero', hhas'⟩ := (mem_pageAddrs (hlaid.inside r' hr') a').mp ha'
    obtain rfl := hpage ⟨hlaid.lt hr hhas, hzero⟩ ⟨hlaid.lt hr' hhas', hzero'⟩ heq
    exact hdisjoint a hhas hhas'

theorem forkPage_spec {m : Machine} {src dest flags : Word} (hinv : TreeInv m dest)
    (hflat : FlatAlong m dest (tablePath a)) (hnone : m.leaf dest (pageNumber a) = none)
    (hpresent : flags &&& pagePresent ≠ 0) (hframe : IsFrame (getPhysicalAddress m src a)) (shared : Bool)
    (hsupplied : Supplied m.pool (pageAllocs m dest shared a)) :
    ∃ f, PagePlaced m (forkPage src dest flags shared m a) dest flags a (getPhysicalAddress m src a) shared f := by
  cases shared with
  | true =>
    exact ⟨_, placed_shared hinv hflat hnone hsupplied hpresent hframe⟩
  | false =>
    obtain ⟨f, pool, hpool, hf, hrest⟩ := hsupplied.exists_cons
    refine ⟨f, ?_⟩
    rw [forkPage, pmmAllocPage, hpool]
    exact placed_copy hinv hflat hnone hpool hf hrest hpresent (getPhysicalAddress m src a)

/-- The frame of a page in a table, `0` if there is none. -/
def frameOf (m : Machine) (root a : Word) : Word :=
  match m.leaf root (pageNumber a) with
  | none => 0
  | some entry => getPageFrame entry

theorem isFrame_frameOf (m : Machine) (root a : Word) : IsFrame (frameOf m root a) := by
  rw [frameOf]
  split
  · exact ⟨rfl, by decide⟩
  · exact isFrame_getPageFrame _

theorem getPhysicalAddress_aligned {m : Machine} (hflat : FlatAlong m root (tablePath a)) (ha : a.toNat % 4096 = 0) :
    getPhysicalAddress m root a = frameOf m root a := by
  have hoffset : getPageOffset a = 0 := by
    apply eq_of_toNat_eq
    exact (Nat.and_two_pow_sub_one_eq_mod a.toNat 12).trans ha
  rw [frameOf, leaf_pageNumber]
  rcases lookup_cases a hflat with ⟨hleaf, hphys, -⟩ | ⟨entry, hleaf, hphys, -⟩
  · rw [hleaf, hphys]
  · rw [hleaf, hphys, hoffset]
    exact add_zero _

theorem read_of_same {m : Machine} (hflat : FlatAlong m root (tablePath a))
    (hsame : ∀ path t, path <+: tablePath a → m.walk root path = some t → m'.mem t = m.mem t) :
    FlatAlong m' root (tablePath a) ∧ m'.leaf root (pageNumber a) = m.leaf root (pageNumber a) := by
  have hwalk (q : List (BitVec 9)) (hq : q <+: tablePath a) : m'.walk root q = m.walk root q := by
    apply Radix.walk_congr
    intro path i rest t hsplit hpath
    rw [hsame path t ((hsplit ▸ prefix_append path (i :: rest) : path <+: q).trans hq) hpath]
  constructor
  · intro path t i hpre hpath
    have hle : path <+: tablePath a := (prefix_append path [i]).trans hpre
    rw [hwalk path hle] at hpath
    rw [hsame path t hle hpath]
    exact hflat path t i hpre hpath
  · rw [leaf_pageNumber, leaf_pageNumber, Machine.entryAt, Machine.entryAt, hwalk _ prefix_rfl]
    cases hpath : m.walk root (tablePath a) with
    | none => rfl
    | some t => rw [Option.bind_some, Option.bind_some, hsame _ t prefix_rfl hpath]

/-- A parent and an empty child, whose tables and frames to come are no pages of the parent and not page 0. -/
structure ForkState (m : Machine) (src dest : Word) (ranges : List MmapRange) : Prop where
  laid : Laid ranges
  tree : TreeInv m dest
  empty : ∀ i : BitVec 9, i.toNat < 256 → m.mem dest i = 0
  parentFlat : ∀ a : Word, a.toNat < 2 ^ 47 → FlatAlong m src (tablePath a)
  parentTables : ∀ a : Word, a.toNat < 2 ^ 47 → ∀ path t, path <+: tablePath a → m.walk src path = some t →
    Kept m dest t
  parentPages : ∀ r ∈ ranges, ∀ a, r.Has a → ∀ entry, m.leaf src (pageNumber a) = some entry →
    getPageFrame entry ≠ 0 ∧ Kept m dest (p2v (getPageFrame entry))
  zeroPage : Kept m dest (p2v 0)

theorem level4Index_lt (ha : a.toNat < 2 ^ 47) : (level4Index a).toNat < 256 := by
  have hmask : a.toNat / 2 ^ 39 &&& (0x1FF : Word).toNat = a.toNat / 2 ^ 39 % 2 ^ 9 :=
    Nat.and_two_pow_sub_one_eq_mod (a.toNat / 2 ^ 39) 9
  rw [level4Index, pageIndex, toNat_setWidth, toNat_and, toNat_ushiftRight, Nat.shiftRight_eq_div_pow]
  omega

theorem absent_of_empty {m : Machine} (hempty : m.mem root (level4Index a) = 0) :
    FlatAlong m root (tablePath a) ∧ m.leaf root (pageNumber a) = none := by
  have hwalk (i : BitVec 9) (path : List (BitVec 9)) (hi : i = level4Index a) : m.walk root (i :: path) = none := by
    rw [hi, Machine.walk, Radix.walk, hempty, child_zero, Option.bind_none]
  constructor
  · intro path t i hpre hpath hpresent
    cases path with
    | nil =>
      cases hpath
      obtain ⟨rest, hrest⟩ := hpre
      obtain rfl : i = level4Index a := by
        simp only [tablePath, List.nil_append, List.cons_append, List.cons.injEq] at hrest
        exact hrest.1
      rw [hempty] at hpresent
      exact absurd rfl hpresent
    | cons j path =>
      obtain ⟨rest, hrest⟩ := hpre
      simp only [tablePath, List.cons_append, List.cons.injEq] at hrest
      rw [hwalk j path hrest.1] at hpath
      exact absurd hpath (by simp)
  · rw [leaf_pageNumber, Machine.entryAt, tablePath, hwalk _ _ rfl, Option.bind_none]

variable {m : Machine} {src dest : Word} {ranges : List MmapRange}

section

variable (hstate : ForkState m src dest ranges)
include hstate

theorem ForkState.absent (ha : a.toNat < 2 ^ 47) : FlatAlong m dest (tablePath a) ∧ m.leaf dest (pageNumber a) = none :=
  absent_of_empty (hstate.empty _ (level4Index_lt ha))

theorem ForkState.kept_frameOf {r : MmapRange} (hr : r ∈ ranges) (ha : r.Has a) :
    Kept m dest (p2v (frameOf m src a)) := by
  rw [frameOf]
  cases hleaf : m.leaf src (pageNumber a) with
  | none => exact hstate.zeroPage
  | some entry => exact (hstate.parentPages r hr a ha entry hleaf).2

theorem ForkState.parent_same (hkeeps : Keeps dest m m') (ha : a.toNat < 2 ^ 47) :
    FlatAlong m' src (tablePath a) ∧ m'.leaf src (pageNumber a) = m.leaf src (pageNumber a) :=
  read_of_same (hstate.parentFlat a ha) fun path t hpath hwalk =>
    (hkeeps t (hstate.parentTables a ha path t hpath hwalk)).2

theorem ForkState.paddr (hkeeps : Keeps dest m m') (ha : a.toNat < 2 ^ 47)
    (hzero : a.toNat % 4096 = 0) : getPhysicalAddress m' src a = frameOf m src a := by
  obtain ⟨hflat, hleaf⟩ := hstate.parent_same hkeeps ha
  rw [getPhysicalAddress_aligned hflat hzero, frameOf, frameOf, hleaf]

end

/-- What the child has of one page after the loop. -/
structure Copied (m₀ m : Machine) (src dest : Word) (q : MmapRange × Word) (f : Word) : Prop where
  leaf : m.leaf dest (pageNumber q.2) = some (f ||| x86_64Prot2Flags q.1.protection)
  frame : IsFrame f
  shares : q.1.shared = true → f = frameOf m₀ src q.2
  copies : q.1.shared = false → f ∈ m₀.pool ∧ f ≠ 0 ∧ Kept m dest (p2v f) ∧
    m.mem (p2v f) = m₀.mem (p2v (frameOf m₀ src q.2))

structure Forked (m₀ m : Machine) (src dest : Word) (done : List (MmapRange × Word)) : Prop where
  tree : TreeInv m dest
  flat : ∀ a : Word, a.toNat < 2 ^ 47 → FlatAlong m dest (tablePath a)
  keeps : Keeps dest m₀ m
  pool : ∀ f ∈ m.pool, f ∈ m₀.pool
  copied : ∀ q ∈ done, ∃ f, Copied m₀ m src dest q f
  others : ∀ n, (∀ q ∈ done, pageNumber q.2 ≠ n) → m.leaf dest n = m₀.leaf dest n

section Loop

variable {m₀ : Machine} {done : List (MmapRange × Word)} {q : MmapRange × Word}

theorem forkRequest_spec (hstate : ForkState m₀ src dest ranges) (hforked : Forked m₀ m src dest done)
    (hq : q ∈ requests ranges) (hnew : ∀ q' ∈ done, pageNumber q'.2 ≠ pageNumber q.2)
    (hsupplied : Supplied m.pool (pageAllocs m dest q.1.shared q.2)) :
    Forked m₀ (forkRequest src dest m q) src dest (done ++ [q]) ∧
      ∃ k ≤ pageAllocs m dest q.1.shared q.2, (forkRequest src dest m q).pool = m.pool.drop k := by
  obtain ⟨hr, hzero, hhas⟩ := (hstate.laid.mem_requests q).mp hq
  have hlt := hstate.laid.lt hr hhas
  have hpaddr := hstate.paddr hforked.keeps hlt hzero
  have hnone : m.leaf dest (pageNumber q.2) = none := by
    rw [hforked.others _ hnew, (hstate.absent hlt).2]
  obtain ⟨f, hpage⟩ := forkPage_spec hforked.tree (hforked.flat q.2 hlt) hnone
    (prot_present q.1.protection) (hpaddr ▸ isFrame_frameOf m₀ src q.2) q.1.shared hsupplied
  refine ⟨⟨hpage.tree, fun a ha => hpage.flat _ (by simp [tablePath]) (hforked.flat a ha),
    hforked.keeps.trans hpage.keeps, ?_, ?_, ?_⟩, hpage.pool⟩
  · obtain ⟨k, -, hpool⟩ := hpage.pool
    intro f' hf'
    rw [forkRequest, hpool] at hf'
    exact hforked.pool f' (mem_of_mem_drop hf')
  · intro q' hq'
    rcases mem_append.mp hq' with hold | hlast
    · obtain ⟨f', hcopied⟩ := hforked.copied q' hold
      refine ⟨f', ?_, hcopied.frame, hcopied.shares, fun hprivate => ?_⟩
      · rw [forkRequest, hpage.leaf, if_neg (hnew q' hold), hcopied.leaf]
      · obtain ⟨hmem, hne, hkept, hcopy⟩ := hcopied.copies hprivate
        obtain ⟨hkept', hkeep⟩ := hpage.keeps (p2v f') hkept
        exact ⟨hmem, hne, hkept', hkeep.trans hcopy⟩
    · obtain rfl := mem_singleton.mp hlast
      refine ⟨f, ?_, hpage.frame, fun hshared => (hpage.shares hshared).trans hpaddr, fun hprivate => ?_⟩
      · rw [forkRequest, hpage.leaf, if_pos rfl]
      · obtain ⟨hmem, hne, hkept, hcopy⟩ := hpage.copies hprivate
        refine ⟨hforked.pool f hmem, hne, hkept, ?_⟩
        rw [forkRequest, hcopy, hpaddr, (hforked.keeps _ (hstate.kept_frameOf hr hhas)).2]
  · intro n hn
    rw [forkRequest, hpage.leaf, if_neg, hforked.others]
    · exact fun q' hq' => hn q' (mem_append_left _ hq')
    · exact fun heq => hn q (mem_append_right _ (mem_singleton_self q)) heq.symm

theorem foldl_forkRequest (hstate : ForkState m₀ src dest ranges) (rest : List (MmapRange × Word))
    (hforked : Forked m₀ m src dest done) (hrest : ∀ q ∈ rest, q ∈ requests ranges)
    (hpairwise : (done ++ rest).Pairwise fun q q' => pageNumber q.2 ≠ pageNumber q'.2)
    (hsupplied : Supplied m.pool (forkAllocs src dest m rest)) :
    Forked m₀ (rest.foldl (forkRequest src dest) m) src dest (done ++ rest) := by
  induction rest generalizing m done with
  | nil => rwa [append_nil]
  | cons q rest ih =>
    have hnew : ∀ q' ∈ done, pageNumber q'.2 ≠ pageNumber q.2 := fun q' hq' =>
      (pairwise_append.mp hpairwise).2.2 q' hq' q mem_cons_self
    rw [forkAllocs] at hsupplied
    obtain ⟨hnext, k, hk, hpool⟩ := forkRequest_spec hstate hforked (hrest q mem_cons_self) hnew
      (hsupplied.mono (by omega))
    rw [append_cons]
    apply ih hnext (fun q' hq' => hrest q' (mem_cons_of_mem q hq'))
    · rwa [← append_cons]
    · rw [hpool]
      exact Supplied.drop (hsupplied.mono (by omega))

theorem forkRegions_spec (hstate : ForkState m src dest ranges)
    (hsupplied : Supplied m.pool (forkAllocs src dest m (requests ranges))) :
    Forked m (forkRegions m src dest ranges) src dest (requests ranges) := by
  rw [forkRegions_eq]
  have hstart : Forked m m src dest [] :=
    ⟨hstate.tree, fun a ha => (hstate.absent ha).1, Keeps.refl dest m, fun _ hf => hf, by simp, fun _ _ => rfl⟩
  exact foldl_forkRequest hstate (requests ranges) hstart (fun _ hq => hq) hstate.laid.pairwise hsupplied

end Loop

end Kairax.Proc
