import Kairax.Paging.Table

/-!
# The tree of tables

The tables of a root as a radix tree of depth three. `TreeInv` separates the tables from each other and
from the frames the page allocator is going to give out, and `ensurePath`, the part of a mapping that
makes the missing tables, keeps it and keeps every mapped page.
-/

namespace Kairax.Paging

open Lib List Option

def child (entry : Word) : Option Word :=
  if entry &&& pagePresent = 0 ∨ entry &&& pageHuge ≠ 0 then none else some (p2v (getPageFrame entry))

variable {entry f flags : Word} {full q : List (BitVec 9)} {pool : List Word}

theorem child_of_absent (habsent : entry &&& pagePresent = 0) : child entry = none :=
  if_pos (.inl habsent)

theorem child_of_present (hpresent : ¬ entry &&& pagePresent = 0) (hhuge : entry &&& pageHuge = 0) :
    child entry = some (p2v (getPageFrame entry)) :=
  if_neg fun h => h.elim hpresent fun hset => hset hhuge

theorem child_eq_some {t : Word} (hchild : child entry = some t) :
    ¬ entry &&& pagePresent = 0 ∧ entry &&& pageHuge = 0 ∧ t = p2v (getPageFrame entry) := by
  rw [child] at hchild
  split_ifs at hchild with hnone
  rw [not_or, not_not] at hnone
  exact ⟨hnone.1, hnone.2, (some.inj hchild).symm⟩

@[simp] theorem child_zero : child 0 = none := rfl

theorem p2v_ne_null (x : Word) : p2v x ≠ null := by
  intro hnull
  have hbit := congrArg (fun y => y.getLsbD 63) hnull
  simp only [p2v, BitVec.getLsbD_or] at hbit
  rw [show physicalMemMapOffset.getLsbD 63 = true by decide, Bool.or_true] at hbit
  exact absurd hbit (by decide)

structure TableFlags (flags : Word) : Prop where
  present : flags &&& pagePresent ≠ 0
  noHuge : flags &&& pageHuge = 0
  noFrame : getPageFrame flags = 0

theorem tableFlags_baseFlags (flags : Word) : TableFlags (baseFlags flags) := by
  rw [baseFlags]
  split
  · exact ⟨by decide, by decide, by decide⟩
  · exact ⟨by decide, by decide, by decide⟩

def LowFrame (f : Word) : Prop := f.toNat % 2 ^ 12 = 0 ∧ f.toNat < 2 ^ 39

instance (f : Word) : Decidable (LowFrame f) := inferInstanceAs (Decidable (_ ∧ _))

theorem LowFrame.isFrame (hlow : LowFrame f) : IsFrame f :=
  ⟨hlow.1, hlow.2.trans (by decide)⟩

theorem and_pagePresent_or {x y : Word} (hy : y &&& pagePresent ≠ 0) : (x ||| y) &&& pagePresent ≠ 0 := by
  rw [show pagePresent = 1#64 from rfl, and_one_ne_zero] at hy ⊢
  rw [BitVec.getLsbD_or, hy, Bool.or_true]

theorem tableEntry_noHuge (hlow : LowFrame f) (hflags : TableFlags flags) : (f ||| flags) &&& pageHuge = 0 := by
  have hf : f &&& pageHuge = 0 := by
    rw [show pageHuge = flagMask &&& pageHuge by decide, ← BitVec.and_assoc,
      show f &&& flagMask = 0 from getPageFlags_of_isFrame hlow.isFrame]
    exact BitVec.zero_and
  rw [BitVec.and_or_distrib_right, hf, hflags.noHuge]
  rfl

theorem child_tableEntry (hlow : LowFrame f) (hflags : TableFlags flags) : child (f ||| flags) = some (p2v f) := by
  rw [child_of_present (and_pagePresent_or hflags.present) (tableEntry_noHuge hlow hflags),
    getPageFrame_entry hlow.isFrame hflags.noFrame]

def Machine.walk (m : Machine) (root : Word) (path : List (BitVec 9)) : Option Word :=
  Radix.walk child m.mem root path

def visible (entry : Word) : Option Word := if entry &&& pagePresent = 0 then none else some entry

/-- The present entry at an index of the page table that a path leads to. -/
def Machine.entryAt (m : Machine) (root : Word) (path : List (BitVec 9)) (i : BitVec 9) : Option Word :=
  (m.walk root path).bind fun t => visible (m.mem t i)

theorem entryAt_of_walk {m : Machine} {root t : Word} {path : List (BitVec 9)}
    (hwalk : m.walk root path = some t) (i : BitVec 9) : m.entryAt root path i = visible (m.mem t i) := by
  rw [Machine.entryAt, hwalk, bind_some]

structure TreeInv (m : Machine) (root : Word) : Prop where
  separated : Radix.Separated child m.mem root 3
  fresh : ∀ f ∈ m.pool, f ≠ 0 → LowFrame f ∧ Radix.Unreached child m.mem root 3 (p2v f)
  distinct : m.pool.Pairwise fun f f' => f ≠ 0 → f ≠ f'

theorem TreeInv.head {m : Machine} {root : Word} (hinv : TreeInv m root) (hpool : m.pool = f :: pool) (hf : f ≠ 0) :
    LowFrame f ∧ Radix.Unreached child m.mem root 3 (p2v f) := by
  apply hinv.fresh f _ hf
  rw [hpool]
  exact mem_cons_self

def FlatAlong (m : Machine) (root : Word) (full : List (BitVec 9)) : Prop :=
  ∀ path t i, path ++ [i] <+: full → m.walk root path = some t → ¬ m.mem t i &&& pagePresent = 0 →
    m.mem t i &&& pageHuge = 0

section OfWalk

variable {m m' : Machine} {root : Word} (hwalk : ∀ q : List (BitVec 9), q.length ≤ 3 → m'.walk root q = m.walk root q)
include hwalk

theorem TreeInv.of_walk (hinv : TreeInv m root) (hpool : m'.pool = m.pool) : TreeInv m' root := by
  refine ⟨fun p q t hp hq hwalkp hwalkq => ?_, fun f hf hne => ?_, hpool ▸ hinv.distinct⟩
  · exact hinv.separated p q t hp hq ((hwalk p hp).symm.trans hwalkp) ((hwalk q hq).symm.trans hwalkq)
  · rw [hpool] at hf
    obtain ⟨hlow, hunreached⟩ := hinv.fresh f hf hne
    exact ⟨hlow, fun q hq hreached => hunreached q hq ((hwalk q hq).symm.trans hreached)⟩

theorem FlatAlong.of_walk {full : List (BitVec 9)} (hflat : FlatAlong m root full) (hfull : full.length ≤ 3)
    (hmem : ∀ q t, q.length < 3 → m.walk root q = some t → m'.mem t = m.mem t) : FlatAlong m' root full := by
  intro path t i hpre hwalk'
  have hpath : path.length < 3 := by
    have hle := hpre.length_le
    rw [length_append, length_singleton] at hle
    omega
  rw [hwalk path hpath.le] at hwalk'
  rw [hmem path t hpath hwalk']
  exact hflat path t i hpre hwalk'

end OfWalk

structure Grows (root : Word) (m m' : Machine) : Prop where
  walks : ∀ q t, q.length ≤ 3 → m.walk root q = some t → m'.walk root q = some t
  entries : ∀ path i, path.length = 3 → m'.entryAt root path i = m.entryAt root path i
  flat : ∀ full, full.length ≤ 3 → FlatAlong m root full → FlatAlong m' root full
  freed : m'.freed = m.freed
  pages : ∀ p, Radix.Unreached child m'.mem root 3 p → m'.mem p = m.mem p

theorem Grows.refl (root : Word) (m : Machine) : Grows root m m :=
  ⟨fun _ _ _ hwalk => hwalk, fun _ _ _ => rfl, fun _ _ hflat => hflat, rfl, fun _ _ => rfl⟩

theorem Grows.trans {root : Word} {m m' m'' : Machine} (hfirst : Grows root m m')
    (hsecond : Grows root m' m'') : Grows root m m'' where
  walks q t hq hwalk := hsecond.walks q t hq (hfirst.walks q t hq hwalk)
  entries path i hpath := (hsecond.entries path i hpath).trans (hfirst.entries path i hpath)
  flat full hfull hflat := hsecond.flat full hfull (hfirst.flat full hfull hflat)
  freed := hsecond.freed.trans hfirst.freed
  pages p hp := by
    rw [hsecond.pages p hp, hfirst.pages p]
    intro q hq hwalk
    exact hp q hq (hsecond.walks q p hq hwalk)

/-- The machine in which the next frame has become the table below an entry. -/
def Machine.linkTable (m : Machine) (t : Word) (i : BitVec 9) (f flags : Word) (pool : List Word) : Machine :=
  { m with mem := Radix.link m.mem t i (f ||| flags) (p2v f) (fun _ => 0), pool }

theorem linkTable_mem (m : Machine) (t : Word) (i : BitVec 9) (f flags : Word) (pool : List Word) :
    (m.linkTable t i f flags pool).mem = Radix.link m.mem t i (f ||| flags) (p2v f) (fun _ => 0) := rfl

theorem ensureTable_cases {m : Machine} {t : Word} {i : BitVec 9} (hflags : TableFlags flags)
    (hfresh : ∀ f ∈ m.pool, f ≠ 0 → LowFrame f) (hhuge : ¬ m.mem t i &&& pagePresent = 0 → m.mem t i &&& pageHuge = 0) :
    (∃ t', child (m.mem t i) = some t' ∧ ensureTable m t i flags = (some t', m)) ∨
    (child (m.mem t i) = none ∧ m.pool.headD 0 = 0 ∧
      ensureTable m t i flags = (none, { m with pool := m.pool.tail })) ∨
    ∃ f pool, child (m.mem t i) = none ∧ m.pool = f :: pool ∧ f ≠ 0 ∧
      ensureTable m t i flags =
        (some (p2v f), m.linkTable t i f flags pool) := by
  rw [ensureTable]
  split
  · rename_i habsent
    right
    have hchild : child (m.mem t i) = none := child_of_absent habsent
    rw [newPageTable, pmmAllocPage]
    cases hpool : m.pool with
    | nil =>
      left
      refine ⟨hchild, rfl, ?_⟩
      simp only [if_true, tail_nil]
      rw [← hpool]
    | cons f pool =>
      by_cases hf : f = 0
      · left
        refine ⟨hchild, hf, ?_⟩
        simp only [hf, if_true, tail_cons]
      · right
        have hlow := hfresh f (by rw [hpool]; exact mem_cons_self) hf
        refine ⟨f, pool, hchild, rfl, hf, ?_⟩
        simp only [hf, p2v_ne_null, if_false, Machine.setEntry, Radix.write_same]
        rw [v2p_p2v hlow.2, getPageFrame_entry hlow.isFrame hflags.noFrame]
        rfl
  · rename_i hpresent
    left
    exact ⟨_, child_of_present hpresent (hhuge hpresent), rfl⟩

variable {m : Machine} {root t : Word} {path : List (BitVec 9)} {i : BitVec 9}

section Link

/-- An entry with no table below it, on the first levels of the tree, and the frame that is to become that table. -/
structure Links (m : Machine) (root : Word) (path : List (BitVec 9)) (t : Word) (i : BitVec 9) (f flags : Word)
    (pool : List Word) : Prop where
  tree : TreeInv m root
  walk : m.walk root path = some t
  short : path.length ≤ 2
  absent : child (m.mem t i) = none
  head : m.pool = f :: pool
  ne : f ≠ 0
  flags : TableFlags flags

variable (hlink : Links m root path t i f flags pool)
include hlink

theorem Links.low : LowFrame f := (hlink.tree.head hlink.head hlink.ne).1

theorem Links.linkable : Radix.Linkable child m.mem root 3 path t i (f ||| flags) (p2v f) fun _ => 0 where
  sep := hlink.tree.separated
  path := hlink.walk
  short := Nat.lt_succ_of_le hlink.short
  absent := hlink.absent
  entry := child_tableEntry hlink.low hlink.flags
  fresh := (hlink.tree.head hlink.head hlink.ne).2
  leaf := .inr fun _ => child_zero

theorem Links.walk_link (hq : q.length ≤ 3) :
    (m.linkTable t i f flags pool).walk root q = if q = path ++ [i] then some (p2v f) else m.walk root q :=
  hlink.linkable.walk_link hq

theorem Links.fresh (j : BitVec 9) : (m.linkTable t i f flags pool).mem (p2v f) j = 0 :=
  Radix.link_new hlink.linkable.ne j

theorem Links.mem_link {t' : Word} (hwalk : m.walk root q = some t') (hq : q.length ≤ 3) (j : BitVec 9) :
    (m.linkTable t i f flags pool).mem t' j = if q = path ∧ j = i then f ||| flags else m.mem t' j :=
  hlink.linkable.link_apply hwalk hq j

theorem Links.treeInv : TreeInv (m.linkTable t i f flags pool) root := by
  have hdistinct := hlink.tree.distinct
  rw [hlink.head, pairwise_cons] at hdistinct
  refine ⟨hlink.linkable.separated, ?_, hdistinct.2⟩
  intro f' hf' hne
  have hmem' : f' ∈ m.pool := by
    rw [hlink.head]
    exact mem_cons_of_mem f hf'
  obtain ⟨hlow', hunreached'⟩ := hlink.tree.fresh f' hmem' hne
  refine ⟨hlow', fun q hq => ?_⟩
  rw [← Machine.walk, hlink.walk_link hq]
  split_ifs with hnew
  · intro heq
    exact hdistinct.1 f' hf' hlink.ne (p2v_injective hlink.low.2 hlow'.2 (some.inj heq))
  · exact hunreached' q hq

theorem Links.flat (hflat : FlatAlong m root full) (hfull : full.length ≤ 3) :
    FlatAlong (m.linkTable t i f flags pool) root full := by
  intro path' t' j hpre hwalk' hpresent
  have hpath' : path'.length + 1 ≤ 3 := by
    have hle := hpre.length_le
    rw [length_append, length_singleton] at hle
    omega
  rw [hlink.walk_link (by omega)] at hwalk'
  split_ifs at hwalk' with hnew
  · cases hwalk'
    rw [hlink.fresh] at hpresent
    exact absurd rfl hpresent
  · rw [hlink.mem_link hwalk' (by omega)] at hpresent ⊢
    split_ifs at hpresent ⊢ with hplace
    · exact tableEntry_noHuge hlink.low hlink.flags
    · exact hflat path' t' j hpre hwalk' hpresent

theorem Links.grows : Grows root m (m.linkTable t i f flags pool) := by
  have hshort := hlink.short
  constructor
  · intro q t' hq hwalk'
    exact hlink.linkable.walk_old hq hwalk'
  · intro path' j hpath'
    rw [Machine.entryAt, Machine.entryAt, hlink.walk_link (by omega)]
    split_ifs with hnew
    · rw [hnew, Machine.walk, Radix.walk_concat hlink.walk, hlink.absent, bind_some, hlink.fresh]
      rfl
    · cases hold : m.walk root path' with
      | none => rfl
      | some t' =>
        rw [bind_some, bind_some, hlink.mem_link hold (by omega), if_neg]
        rintro ⟨rfl, -⟩
        omega
  · intro full hfull hflat
    exact hlink.flat hflat hfull
  · rfl
  · intro p hp
    have ht : p ≠ t := fun heq => hp path (by omega) (heq ▸ hlink.linkable.walk_old (by omega) hlink.walk)
    have hlen : (path ++ [i]).length ≤ 3 := by
      rw [length_append, length_singleton]
      omega
    have hnew : p ≠ p2v f := fun heq => hp (path ++ [i]) hlen (by
      rw [← Machine.walk, hlink.walk_link hlen, if_pos rfl, heq])
    funext j
    rw [linkTable_mem, Radix.link_of_ne hnew fun heq => absurd heq ht]

end Link

def Supplied (pool : List Word) (n : Nat) : Prop := ∀ k < n, pool.getD k 0 ≠ 0

instance (pool : List Word) (n : Nat) : Decidable (Supplied pool n) :=
  inferInstanceAs (Decidable (∀ k < n, _))

theorem supplied_succ {n : Nat} : Supplied (f :: pool) (n + 1) ↔ f ≠ 0 ∧ Supplied pool n := by
  constructor
  · intro h
    exact ⟨h 0 (by omega), fun k hk => h (k + 1) (by omega)⟩
  · rintro ⟨hf, hpool⟩ k hk
    cases k with
    | zero => exact hf
    | succ k => exact hpool k (by omega)

def missing (m : Machine) (t : Word) : List (BitVec 9) → Nat
  | [] => 0
  | i :: path =>
    match child (m.mem t i) with
    | none => path.length + 1
    | some t' => missing m t' path

theorem missing_empty (hempty : ∀ j, m.mem t j = 0) (path : List (BitVec 9)) : missing m t path = path.length := by
  cases path with
  | nil => rfl
  | cons i path => rw [missing, hempty, child_zero, length_cons]

theorem TreeInv.skip (hinv : TreeInv m root) : TreeInv { m with pool := m.pool.tail } root :=
  ⟨hinv.separated, fun f hf => hinv.fresh f (mem_of_mem_tail hf), hinv.distinct.tail⟩

theorem ensurePath_spec {P : Machine → Prop} (hflags : TableFlags flags) (hfull : full.length ≤ 3)
    (hflat : ∀ m path t i, P m → path ++ [i] <+: full → m.walk root path = some t →
      ¬ m.mem t i &&& pagePresent = 0 → m.mem t i &&& pageHuge = 0)
    (hskip : ∀ m, P m → m.pool.headD 0 = 0 → P { m with pool := m.pool.tail })
    (hlink : ∀ m path t i f pool, Links m root path t i f flags pool → P m → path ++ [i] <+: full →
      P (m.linkTable t i f flags pool)) (m : Machine) (pre path : List (BitVec 9)) (t : Word) (hinv : TreeInv m root)
    (hP : P m) (hwalk : m.walk root pre = some t) (hpath : pre ++ path = full) :
    ∃ r m', ensurePath m t path flags = (r, m') ∧ TreeInv m' root ∧ P m' ∧
      (∀ t', r = some t' → m'.walk root full = some t') ∧
      (r.isSome = true ↔ Supplied m.pool (missing m t path)) := by
  induction path generalizing m pre t with
  | nil =>
    rw [append_nil] at hpath
    refine ⟨some t, m, rfl, hinv, hP, ?_, ?_⟩
    · intro t' ht'
      rw [← hpath, hwalk, ht']
    · simp [missing, Supplied]
  | cons i path ih =>
    have hpath' : (pre ++ [i]) ++ path = full := by rwa [append_assoc]
    have hlength := congrArg length hpath
    simp only [length_append, length_cons] at hlength
    rw [ensurePath, missing]
    have hpre : pre ++ [i] <+: full := ⟨path, hpath'⟩
    rcases ensureTable_cases hflags (fun f hf hne => (hinv.fresh f hf hne).1)
      (hflat m pre t i hP hpre hwalk) with
      ⟨t', hchild, htable⟩ | ⟨hchild, hnull, htable⟩ | ⟨f, pool, hchild, hpool, hf, htable⟩
    · have hnext : m.walk root (pre ++ [i]) = some t' := (Radix.walk_concat hwalk i).trans hchild
      rw [htable, hchild]
      exact ih m (pre ++ [i]) t' hinv hP hnext hpath'
    · rw [htable, hchild]
      refine ⟨none, _, rfl, hinv.skip, hskip m hP hnull, by simp, ?_⟩
      simp only [isSome_none, Bool.false_eq_true, false_iff]
      intro hsupplied
      apply hsupplied 0 (by omega)
      rw [← hnull]
      cases m.pool <;> rfl
    · have hnew : Links m root pre t i f flags pool := ⟨hinv, hwalk, by omega, hchild, hpool, hf, hflags⟩
      have hnext := hnew.walk_link (q := pre ++ [i]) (by simp only [length_append, length_singleton]; omega)
      rw [if_pos rfl] at hnext
      obtain ⟨r, m', hrest, hinv'', hP'', hend, hsupplied⟩ :=
        ih _ (pre ++ [i]) (p2v f) hnew.treeInv (hlink m pre t i f pool hnew hP hpre) hnext hpath'
      rw [htable, hchild]
      refine ⟨r, m', hrest, hinv'', hP'', hend, ?_⟩
      rw [hsupplied, missing_empty hnew.fresh, hpool, supplied_succ]
      exact ⟨fun h => ⟨hf, h⟩, fun h => h.2⟩

theorem ensurePath_grows (path : List (BitVec 9)) (hflags : TableFlags flags) (hpath : path.length ≤ 3)
    (hinv : TreeInv m root) (hflat : FlatAlong m root path) :
    ∃ r m', ensurePath m root path flags = (r, m') ∧ TreeInv m' root ∧ Grows root m m' ∧
      (∀ t, r = some t → m'.walk root path = some t) ∧
      (r.isSome = true ↔ Supplied m.pool (missing m root path)) :=
  ensurePath_spec (P := Grows root m) hflags hpath
    (fun _ path' t i hgrows => hgrows.flat path hpath hflat path' t i)
    (fun _ hgrows _ => { hgrows with })
    (fun _ _ _ _ _ _ hlink hgrows _ => hgrows.trans hlink.grows)
    m [] path root hinv (Grows.refl root m) rfl (nil_append path)

@[simp] theorem setEntry_same (m : Machine) (t : Word) (i : BitVec 9) (entry : Word) :
    (m.setEntry t i entry).mem t i = entry :=
  Radix.write_same t i entry

theorem setEntry_of_ne {t' : Word} {j : BitVec 9} (hne : t' = t → j ≠ i) :
    (m.setEntry t i entry).mem t' j = m.mem t' j :=
  Radix.write_of_ne hne

variable (hinv : TreeInv m root) (hwalk : m.walk root path = some t) (hlen : path.length = 3)

include hinv hwalk hlen

theorem walk_setEntry
    (entry : Word) (hq : q.length ≤ 3) : (m.setEntry t i entry).walk root q = m.walk root q :=
  Radix.walk_write_leaf hinv.separated hwalk hlen hq

theorem TreeInv.setEntry
    (entry : Word) : TreeInv (m.setEntry t i entry) root :=
  TreeInv.of_walk (fun _ => walk_setEntry hinv hwalk hlen entry) hinv rfl

omit hinv hwalk hlen

theorem FlatAlong.setEntry (hflat : FlatAlong m root full) (hfull : full.length ≤ 3) (hinv : TreeInv m root)
    (hwalk : m.walk root path = some t) (hlen : path.length = 3) (entry : Word) :
    FlatAlong (m.setEntry t i entry) root full := by
  refine FlatAlong.of_walk (fun _ => walk_setEntry hinv hwalk hlen entry) hflat hfull fun q t' hq hwalk' => ?_
  funext j
  apply setEntry_of_ne
  intro heq
  have hsame := hinv.separated q path t hq.le hlen.le (heq ▸ hwalk') hwalk
  exact absurd hlen (hsame ▸ hq.ne)

include hinv hwalk hlen in
theorem entryAt_setEntry
    (entry : Word) (hq : q.length = 3) (j : BitVec 9) :
    (m.setEntry t i entry).entryAt root q j =
      if q = path ∧ j = i then visible entry else m.entryAt root q j := by
  rw [Machine.entryAt, Machine.entryAt, walk_setEntry hinv hwalk hlen entry (by omega)]
  split_ifs with hplace
  · obtain ⟨rfl, rfl⟩ := hplace
    rw [hwalk, bind_some, setEntry_same]
  · cases hold : m.walk root q with
    | none => rfl
    | some t' =>
      have hkeep : (m.setEntry t i entry).mem t' j = m.mem t' j := by
        apply setEntry_of_ne
        intro heq hj
        exact hplace ⟨hinv.separated q path t (by omega) (by omega) (heq ▸ hold) hwalk, hj⟩
      rw [bind_some, bind_some, hkeep]

end Kairax.Paging
