import Mathlib.Data.List.Nodup
import Mathlib.Logic.Function.Basic

/-!
# Radix trees in memory

A table is an array of entries, and an entry may point to a child table. A tree is separated to a depth when different
paths lead to different tables, and then each write changes exactly one place of it: `walk_write_leaf`,
`walk_unlink` and `Linkable.walk_link`.
-/

namespace Kairax.Lib.Radix

open List Option Function

variable {Ptr Idx Entry : Type*} (child : Entry → Option Ptr) {q p : List Idx} {t' : Ptr} {j i : Idx} {e : Entry}

def walk (mem : Ptr → Idx → Entry) : Ptr → List Idx → Option Ptr
  | t, [] => some t
  | t, i :: path => (child (mem t i)).bind fun t' => walk mem t' path

/-- Different paths to tables, up to a depth, lead to different tables. -/
def Separated (mem : Ptr → Idx → Entry) (root : Ptr) (depth : Nat) : Prop :=
  ∀ p q t, p.length ≤ depth → q.length ≤ depth → walk child mem root p = some t →
    walk child mem root q = some t → p = q

def Unreached (mem : Ptr → Idx → Entry) (root : Ptr) (depth : Nat) (t : Ptr) : Prop :=
  ∀ q, q.length ≤ depth → walk child mem root q ≠ some t

variable {child} {mem mem' : Ptr → Idx → Entry} {root t : Ptr} {depth : Nat}

theorem walk_append (t : Ptr) (p q : List Idx) :
    walk child mem t (p ++ q) = (walk child mem t p).bind fun t' => walk child mem t' q := by
  induction p generalizing t with
  | nil => rfl
  | cons i p ih =>
    rw [cons_append, walk, walk, bind_assoc]
    congr 1
    funext t'
    exact ih t'

theorem walk_concat (hp : walk child mem root p = some t) (i : Idx) :
    walk child mem root (p ++ [i]) = child (mem t i) := by
  rw [walk_append, hp, bind_some, walk]
  cases child (mem t i) <;> rfl

theorem walk_congr
    (hsame : ∀ p i rest t, q = p ++ i :: rest → walk child mem root p = some t → child (mem' t i) = child (mem t i)) :
    walk child mem' root q = walk child mem root q := by
  induction q generalizing root with
  | nil => rfl
  | cons i q ih =>
    rw [walk, walk, hsame [] i q root rfl rfl]
    cases hchild : child (mem root i) with
    | none => rfl
    | some t =>
      apply ih
      intro p j rest t' hq hp
      apply hsame (i :: p) j rest t' (by rw [hq, cons_append])
      rw [walk, hchild, bind_some, hp]

theorem walk_of_frayed (hwalk : walk child mem root q = some t)
    (hfrayed : ∀ t i c, child (mem t i) = some c → child (mem' t i) = some c ∨ child (mem' t i) = none) :
    walk child mem' root q = some t ∨ walk child mem' root q = none := by
  induction q generalizing root with
  | nil => exact .inl hwalk
  | cons i q ih =>
    obtain ⟨c, hchild, hrest⟩ := bind_eq_some_iff.mp hwalk
    rw [walk]
    cases hfrayed root i c hchild with
    | inl hkeep =>
      rw [hkeep]
      exact ih hrest
    | inr hcut =>
      right
      rw [hcut, bind_none]

theorem walk_of_child {child' : Entry → Option Ptr}
    (hsame : ∀ p i rest t c, q = p ++ i :: rest → walk child' mem root p = some t → child (mem t i) = some c →
      child' (mem t i) = some c) (hwalk : walk child mem root q = some t) : walk child' mem root q = some t := by
  induction q generalizing root with
  | nil => exact hwalk
  | cons i q ih =>
    obtain ⟨c, hchild, hrest⟩ := bind_eq_some_iff.mp hwalk
    have hchild' := hsame [] i q root c rfl rfl hchild
    rw [walk, hchild']
    apply ih _ hrest
    intro p j rest t' c' hq hp
    apply hsame (i :: p) j rest t' c' (by rw [hq, cons_append])
    rw [walk, hchild', bind_some, hp]

def nodes (child : Entry → Option Ptr) (all : List Idx) (mem : Ptr → Idx → Entry) : Nat → Ptr → List Ptr
  | 0, t => [t]
  | depth + 1, t =>
    (all.flatMap fun i => (child (mem t i)).elim [] (nodes child all mem depth)) ++ [t]

theorem mem_nodes {all : List Idx} (hall : ∀ i, i ∈ all) (depth : Nat) (root t : Ptr) :
    t ∈ nodes child all mem depth root ↔ ∃ q, q.length ≤ depth ∧ walk child mem root q = some t := by
  induction depth generalizing root with
  | zero =>
    rw [nodes, mem_singleton]
    constructor
    · intro heq
      exact ⟨[], Nat.le_refl 0, by rw [heq]; rfl⟩
    · intro ⟨q, hq, hwalk⟩
      obtain rfl := length_eq_zero_iff.mp (Nat.le_zero.mp hq)
      exact (some.inj hwalk).symm
  | succ depth ih =>
    rw [nodes, mem_append, mem_singleton, mem_flatMap]
    constructor
    · intro hmem
      cases hmem with
      | inl hbelow =>
        obtain ⟨i, -, ht⟩ := hbelow
        cases hchild : child (mem root i) with
        | none =>
          rw [hchild] at ht
          cases ht
        | some c =>
          rw [hchild, elim_some, ih c] at ht
          obtain ⟨q, hq, hwalk⟩ := ht
          exact ⟨i :: q, Nat.succ_le_succ hq, by rw [walk, hchild, bind_some, hwalk]⟩
      | inr hroot => exact ⟨[], Nat.zero_le _, by rw [hroot]; rfl⟩
    · intro ⟨q, hq, hwalk⟩
      cases q with
      | nil => exact .inr (some.inj hwalk).symm
      | cons i q =>
        obtain ⟨c, hchild, hrest⟩ := bind_eq_some_iff.mp hwalk
        refine .inl ⟨i, hall i, ?_⟩
        rw [hchild, elim_some, ih c]
        exact ⟨q, Nat.le_of_succ_le_succ hq, hrest⟩

theorem nodup_nodes {all : List Idx} (hall : ∀ i, i ∈ all) (hnodup : all.Nodup) (depth : Nat) (root : Ptr)
    (hsep : Separated child mem root depth) : (nodes child all mem depth root).Nodup := by
  induction depth generalizing root with
  | zero => exact nodup_singleton root
  | succ depth ih =>
    have hbelow {i : Idx} {t : Ptr} (ht : t ∈ (child (mem root i)).elim [] (nodes child all mem depth)) :
        ∃ q, q.length ≤ depth ∧ walk child mem root (i :: q) = some t := by
      cases hchild : child (mem root i) with
      | none =>
        rw [hchild] at ht
        cases ht
      | some c =>
        rw [hchild, elim_some, mem_nodes hall] at ht
        obtain ⟨q, hq, hwalk⟩ := ht
        exact ⟨q, hq, by rw [walk, hchild, bind_some, hwalk]⟩
    rw [nodes, nodup_append]
    refine ⟨nodup_flatMap.mpr ⟨fun i _ => ?_, ?_⟩, nodup_singleton root, ?_⟩
    · cases hchild : child (mem root i) with
      | none => exact nodup_nil
      | some c =>
        apply ih
        intro p q t hp hq hwalk hwalk'
        have hpaths := hsep (i :: p) (i :: q) t (Nat.succ_le_succ hp) (Nat.succ_le_succ hq)
          (by rw [walk, hchild, bind_some, hwalk]) (by rw [walk, hchild, bind_some, hwalk'])
        exact (cons.inj hpaths).2
    · apply hnodup.imp
      intro i j hij t hi hj
      obtain ⟨p, hp, hwalk⟩ := hbelow hi
      obtain ⟨q, hq, hwalk'⟩ := hbelow hj
      exact hij (cons.inj (hsep _ _ t (Nat.succ_le_succ hp) (Nat.succ_le_succ hq) hwalk hwalk')).1
    · intro t ht t' ht' heq
      obtain ⟨i, -, hi⟩ := mem_flatMap.mp ht
      obtain ⟨q, hq, hwalk⟩ := hbelow hi
      rw [heq, mem_singleton.mp ht'] at hwalk
      exact absurd (hsep (i :: q) [] root (Nat.succ_le_succ hq) (Nat.zero_le _) hwalk rfl) (cons_ne_nil i q)

variable [DecidableEq Ptr] [DecidableEq Idx]

def write (mem : Ptr → Idx → Entry) (t : Ptr) (i : Idx) (e : Entry) : Ptr → Idx → Entry :=
  update mem t (update (mem t) i e)

@[simp] theorem write_same (t : Ptr) (i : Idx) (e : Entry) : write mem t i e t i = e := by
  simp [write]

theorem write_of_ne (hne : t' = t → j ≠ i) : write mem t i e t' j = mem t' j := by
  by_cases ht : t' = t
  · subst t'
    simp [write, hne rfl]
  · simp [write, ht]

theorem walk_write_of_not_through (hsep : Separated child mem root depth) (hp : walk child mem root p = some t)
    (hlen : p.length ≤ depth) (hq : q.length ≤ depth) (hthrough : ¬ p ++ [i] <+: q) :
    walk child (write mem t i e) root q = walk child mem root q := by
  apply walk_congr
  intro p' j rest t' hsplit hp'
  rw [write_of_ne]
  intro heq hj
  have hshort : p'.length ≤ depth := by
    rw [hsplit, length_append] at hq
    omega
  have hsame := hsep p' p t hshort hlen (heq ▸ hp') hp
  exact hthrough ⟨rest, by rw [hsplit, hsame, hj, append_assoc, singleton_append]⟩

theorem write_apply (hsep : Separated child mem root depth) (hp : walk child mem root p = some t)
    (hlen : p.length ≤ depth) (hq : walk child mem root q = some t') (hlen' : q.length ≤ depth) :
    write mem t i e t' j = if q = p ∧ j = i then e else mem t' j := by
  split_ifs with hplace
  · obtain ⟨rfl, rfl⟩ := hplace
    obtain rfl := some.inj (hp.symm.trans hq)
    exact write_same t j e
  · apply write_of_ne
    intro heq hj
    exact hplace ⟨hsep q p t hlen' hlen (heq ▸ hq) hp, hj⟩

section Leaf

section

variable (hsep : Separated child mem root depth) (hp : walk child mem root p = some t)
include hsep hp

theorem walk_write_leaf (hlen : p.length = depth) (hq : q.length ≤ depth) :
    walk child (write mem t i e) root q = walk child mem root q := by
  apply walk_write_of_not_through hsep hp (by omega) hq
  intro hthrough
  have := hthrough.length_le
  rw [length_append, length_singleton] at this
  omega

theorem Separated.write_leaf (hlen : p.length = depth) : Separated child (write mem t i e) root depth := by
  intro q q' t' hq hq' hwalk hwalk'
  rw [walk_write_leaf hsep hp hlen hq] at hwalk
  rw [walk_write_leaf hsep hp hlen hq'] at hwalk'
  exact hsep q q' t' hq hq' hwalk hwalk'

theorem walk_unlink (hlen : p.length + 1 = depth) (hchild : child e = none) (hq : q.length ≤ depth) :
    walk child (write mem t i e) root q = if q = p ++ [i] then none else walk child mem root q := by
  split_ifs with hplace
  · subst hplace
    have hkeep : walk child (write mem t i e) root p = some t := by
      rw [walk_write_of_not_through hsep hp (by omega) (by omega), hp]
      intro hthrough
      have := hthrough.length_le
      rw [length_append, length_singleton] at this
      omega
    rw [walk_concat hkeep, write_same, hchild]
  · apply walk_write_of_not_through hsep hp (by omega) hq
    rintro ⟨rest, rfl⟩
    rw [length_append, length_append, length_singleton] at hq
    obtain rfl : rest = [] := length_eq_zero_iff.mp (by omega)
    exact hplace (append_nil _)

theorem Separated.unlink (hlen : p.length + 1 = depth) (hchild : child e = none) :
    Separated child (write mem t i e) root depth := by
  intro q q' t' hq hq' hwalk hwalk'
  rw [walk_unlink hsep hp hlen hchild hq] at hwalk
  rw [walk_unlink hsep hp hlen hchild hq'] at hwalk'
  split_ifs at hwalk hwalk'
  exact hsep q q' t' hq hq' hwalk hwalk'

end

end Leaf

section Link

variable {p : List Idx} {i : Idx} {e : Entry} {new : Ptr} {page : Idx → Entry}

/-- The memory in which an entry points to a page with given contents. -/
def link (mem : Ptr → Idx → Entry) (t : Ptr) (i : Idx) (e : Entry) (new : Ptr) (page : Idx → Entry) :
    Ptr → Idx → Entry :=
  write (update mem new page) t i e

theorem link_of_ne (hnew : t' ≠ new) (hne : t' = t → j ≠ i) : link mem t i e new page t' j = mem t' j := by
  rw [link, write_of_ne hne, update_of_ne hnew]

theorem link_new (hnew : new ≠ t) (j : Idx) : link mem t i e new page new j = page j := by
  rw [link, write_of_ne (fun heq => absurd heq hnew), update_self]

theorem write_update (hne : t' ≠ new) : write (update mem new page) t i e t' j = write mem t i e t' j := by
  by_cases hplace : t' = t ∧ j = i
  · rw [hplace.1, hplace.2, write_same, write_same]
  · rw [write_of_ne fun ht hj => hplace ⟨ht, hj⟩, write_of_ne fun ht hj => hplace ⟨ht, hj⟩, update_of_ne hne]

theorem update_write (hnew : new ≠ t) (page' : Idx → Entry) :
    update (write (update mem new page') t i e) new page = link mem t i e new page := by
  funext t' j
  by_cases hpage : t' = new
  · rw [hpage, update_self, link_new hnew]
  · rw [update_of_ne hpage, link, write_update hpage, write_update hpage]

/-- An entry with no child may come to point to a page that has no place in the tree and no table below it. -/
structure Linkable (child : Entry → Option Ptr) (mem : Ptr → Idx → Entry) (root : Ptr) (depth : Nat) (p : List Idx)
    (t : Ptr) (i : Idx) (e : Entry) (new : Ptr) (page : Idx → Entry) : Prop where
  sep : Separated child mem root depth
  path : walk child mem root p = some t
  short : p.length < depth
  absent : child (mem t i) = none
  entry : child e = some new
  fresh : Unreached child mem root depth new
  leaf : p.length + 1 = depth ∨ ∀ j, child (page j) = none

section

variable (hlink : Linkable child mem root depth p t i e new page)
include hlink

omit [DecidableEq Ptr] [DecidableEq Idx] in
theorem Linkable.ne : new ≠ t := fun heq => hlink.fresh p (Nat.le_of_lt hlink.short) (heq ▸ hlink.path)

theorem Linkable.link_apply (hq : walk child mem root q = some t') (hlen : q.length ≤ depth) (j : Idx) :
    link mem t i e new page t' j = if q = p ∧ j = i then e else mem t' j := by
  rw [← write_apply hlink.sep hlink.path (Nat.le_of_lt hlink.short) hq hlen, link, write_update]
  intro heq
  exact hlink.fresh q hlen (heq ▸ hq)

theorem Linkable.walk_link (hq : q.length ≤ depth) :
    walk child (link mem t i e new page) root q =
      if q = p ++ [i] then some new else walk child mem root q := by
  obtain ⟨hsep, hp, hlen, hnone, hchild, hfresh, hpage⟩ := hlink
  have hupdate (q : List Idx) (hq : q.length ≤ depth) :
      walk child (update mem new page) root q = walk child mem root q := by
    apply walk_congr
    intro p' j rest t' hsplit hp'
    rw [update_of_ne]
    intro heq
    rw [hsplit, length_append] at hq
    exact hfresh p' (by omega) (heq ▸ hp')
  have hsep' : Separated child (update mem new page) root depth := by
    intro q q' t' hq hq' hwalk hwalk'
    rw [hupdate q hq] at hwalk
    rw [hupdate q' hq'] at hwalk'
    exact hsep q q' t' hq hq' hwalk hwalk'
  have hp' : walk child (update mem new page) root p = some t := (hupdate p (by omega)).trans hp
  by_cases hthrough : p ++ [i] <+: q
  · obtain ⟨rest, rfl⟩ := hthrough
    have hkeep : walk child (link mem t i e new page) root p = some t := by
      rw [link, walk_write_of_not_through hsep' hp' (by omega) (by omega), hp']
      intro hthrough
      have := hthrough.length_le
      rw [length_append, length_singleton] at this
      omega
    have hhere : walk child (link mem t i e new page) root (p ++ [i]) = some new := by
      rw [walk_concat hkeep, link, write_same, hchild]
    rw [walk_append, hhere, bind_some]
    cases rest with
    | nil => rw [if_pos (append_nil _), walk]
    | cons j rest =>
      rw [length_append, length_append, length_singleton, length_cons] at hq
      have hmissing : walk child mem root (p ++ [i] ++ j :: rest) = none := by
        rw [walk_append, walk_concat hp, hnone, bind_none]
      have hnew : new ≠ t := fun heq => hfresh p (by omega) (heq ▸ hp)
      rw [if_neg (by simp), hmissing, walk, link_new hnew, hpage.resolve_left (by omega), bind_none]
  · rw [if_neg fun heq : q = p ++ [i] => hthrough (heq ▸ prefix_rfl), link,
      walk_write_of_not_through hsep' hp' (by omega) hq hthrough, hupdate q hq]

theorem Linkable.walk_old (hq : q.length ≤ depth) (hwalk : walk child mem root q = some t') :
    walk child (link mem t i e new page) root q = some t' := by
  rw [hlink.walk_link hq, if_neg, hwalk]
  intro heq
  rw [heq, walk_concat hlink.path, hlink.absent] at hwalk
  cases hwalk

theorem Linkable.separated : Separated child (link mem t i e new page) root depth := by
  intro q q' t' hq hq' hwalk hwalk'
  rw [hlink.walk_link hq] at hwalk
  rw [hlink.walk_link hq'] at hwalk'
  split_ifs at hwalk hwalk' with hfirst hsecond hsecond
  · rw [hfirst, hsecond]
  · exact absurd (hwalk'.trans hwalk.symm) (hlink.fresh q' hq')
  · exact absurd (hwalk.trans hwalk'.symm) (hlink.fresh q hq)
  · exact hlink.sep q q' t' hq hq' hwalk hwalk'

end

end Link

end Kairax.Lib.Radix
