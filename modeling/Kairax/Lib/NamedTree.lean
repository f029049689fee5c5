import Mathlib.Data.List.Find
import Mathlib.Data.List.Induction
import Mathlib.Logic.Function.Basic

/-!
# Trees with named children

A tree of nodes where each node has a list of children and a name that tells it from its siblings, so that a node is
reached from the root by one path of names. Trees grow by leaves. What a path leads to does not change by that.
-/

namespace Kairax.Lib

open List Option Function

section Paths

variable {T N : Type*} [DecidableEq N] (kids : T → List T) (name : T → N)

def child (c : T) (seg : N) : Option T := (kids c).find? fun d => name d = seg

def locate (c : T) (segs : List N) : Option T := segs.foldlM (child kids name) c

theorem locate_append (c : T) (segs segs' : List N) :
    locate kids name c (segs ++ segs') = (locate kids name c segs).bind fun d => locate kids name d segs' := by
  rw [locate, foldlM_append]
  rfl

theorem locate_singleton (c : T) (seg : N) : locate kids name c [seg] = child kids name c seg := by
  exact bind_fun_some _

/-- A path leads to one node from `root`, and each node has the path of its parent and its own name. -/
structure IsTree (root : T) (alive : T → Prop) (path : T → List N) : Prop where
  root_alive : alive root
  root_path : path root = []
  alive_of_kid : ∀ {i c}, c ∈ kids i → alive i ∧ alive c
  path_kid : ∀ {i c}, c ∈ kids i → path c = path i ++ [name c]
  distinct : ∀ {i c d}, c ∈ kids i → d ∈ kids i → name c = name d → c = d
  reached : ∀ {c}, alive c → locate kids name root (path c) = some c

end Paths

section Tree

variable {T N : Type*} [DecidableEq N] {kids : T → List T} {name : T → N} {root : T} {alive : T → Prop}
  {path : T → List N}

theorem mem_of_child {c d : T} {seg : N} (hchild : child kids name c seg = some d) : d ∈ kids c ∧ name d = seg :=
  ⟨mem_of_find?_eq_some hchild, by simpa using find?_some hchild⟩

namespace IsTree

section

variable (htree : IsTree kids name root alive path)
include htree

theorem child_iff {c d : T} {seg : N} : child kids name c seg = some d ↔ d ∈ kids c ∧ name d = seg := by
  refine ⟨mem_of_child, fun ⟨hmem, hname⟩ => ?_⟩
  obtain ⟨e, he⟩ : ∃ e, child kids name c seg = some e := by
    rw [← isSome_iff_exists, child, find?_isSome]
    exact ⟨d, hmem, decide_eq_true hname⟩
  obtain ⟨hemem, hename⟩ := mem_of_child he
  rw [he, htree.distinct hemem hmem (hename.trans hname.symm)]

theorem locate_iff {p : List N} {c : T} : locate kids name root p = some c ↔ alive c ∧ path c = p := by
  constructor
  · intro hlocate
    induction p using reverseRecOn generalizing c with
    | nil =>
      cases hlocate
      exact ⟨htree.root_alive, htree.root_path⟩
    | append_singleton p seg ih =>
      rw [locate_append, bind_eq_some_iff] at hlocate
      obtain ⟨i, hi, hc⟩ := hlocate
      rw [locate_singleton] at hc
      obtain ⟨hmem, rfl⟩ := mem_of_child hc
      exact ⟨(htree.alive_of_kid hmem).2, by rw [htree.path_kid hmem, (ih hi).2]⟩
  · rintro ⟨halive, rfl⟩
    exact htree.reached halive

theorem locate_concat {i : T} (hi : alive i) (seg : N) :
    locate kids name root (path i ++ [seg]) = child kids name i seg := by
  rw [locate_append, htree.reached hi, bind_some, locate_singleton]

end

variable [DecidableEq T]

theorem addLeaf (htree : IsTree kids name root alive path) {i t : T} {seg : N} (hi : alive i) (ht : ¬ alive t)
    (hfree : child kids name i seg = none) :
    IsTree (update kids i (kids i ++ [t])) (update name t seg) root (fun c => alive c ∨ c = t)
      (update path t (path i ++ [seg])) := by
  have hne {c : T} (hc : alive c) : c ≠ t := fun h => ht (h ▸ hc)
  have hkid {j c : T} : c ∈ update kids i (kids i ++ [t]) j ↔ c ∈ kids j ∨ j = i ∧ c = t := by
    by_cases hj : j = i
    · rw [hj, update_self, mem_append, mem_singleton, and_iff_right rfl]
    · rw [update_of_ne hj, or_iff_left fun h => hj h.1]
  have hname {c : T} (hc : alive c) : update name t seg c = name c := update_of_ne (hne hc) _ _
  have hpath {c : T} (hc : alive c) : update path t (path i ++ [seg]) c = path c :=
    update_of_ne (hne hc) _ _
  -- a child of before is found as before
  have hstep {j c : T} {s : N} (hchild : child kids name j s = some c) :
      child (update kids i (kids i ++ [t])) (update name t seg) j s = some c := by
    have hold : (kids j).find? (fun d => update name t seg d = s) = some c := by
      rw [← hchild]
      refine find?_congr fun d hd => ?_
      rw [hname (htree.alive_of_kid hd).2]
    rw [child]
    by_cases hj : j = i
    · rw [hj] at hold ⊢
      rw [update_self, find?_append, hold]
      rfl
    · rw [update_of_ne hj, hold]
  have hkeep {p : List N} {c : T} (hlocate : locate kids name root p = some c) :
      locate (update kids i (kids i ++ [t])) (update name t seg) root p = some c := by
    induction p using reverseRecOn generalizing c with
    | nil => exact hlocate
    | append_singleton p s ih =>
      rw [locate_append, bind_eq_some_iff] at hlocate
      obtain ⟨j, hj, hc⟩ := hlocate
      rw [locate_singleton] at hc
      rw [locate_append, ih hj, bind_some, locate_singleton, hstep hc]
  refine ⟨.inl htree.root_alive, ?_, fun {j c} hc => ?_, fun {j c} hc => ?_, fun {j c d} hc hd heq => ?_,
    fun {c} hc => ?_⟩
  · rw [hpath htree.root_alive, htree.root_path]
  · obtain hc | ⟨rfl, rfl⟩ := hkid.mp hc
    · exact ⟨.inl (htree.alive_of_kid hc).1, .inl (htree.alive_of_kid hc).2⟩
    · exact ⟨.inl hi, .inr rfl⟩
  · obtain hc | ⟨rfl, rfl⟩ := hkid.mp hc
    · obtain ⟨hj, hcalive⟩ := htree.alive_of_kid hc
      rw [hpath hcalive, hpath hj, hname hcalive, htree.path_kid hc]
    · rw [update_self, hpath hi, update_self]
  · -- a sibling with the name of the leaf would have been found before
    have hother {e : T} (he : e ∈ kids i) (hsame : update name t seg e = seg) : False := by
      rw [hname (htree.alive_of_kid he).2] at hsame
      exact absurd (hfree.symm.trans (htree.child_iff.mpr ⟨he, hsame⟩)) (some_ne_none e).symm
    obtain hcold | ⟨hj, hct⟩ := hkid.mp hc
    · obtain hdold | ⟨hj, hdt⟩ := hkid.mp hd
      · rw [hname (htree.alive_of_kid hcold).2, hname (htree.alive_of_kid hdold).2] at heq
        exact htree.distinct hcold hdold heq
      · rw [hdt, update_self] at heq
        exact (hother (hj ▸ hcold) heq).elim
    · obtain hdold | ⟨-, hdt⟩ := hkid.mp hd
      · rw [hct, update_self] at heq
        exact (hother (hj ▸ hdold) heq.symm).elim
      · rw [hct, hdt]
  · obtain hc | rfl := hc
    · rw [hpath hc]
      exact hkeep (htree.reached hc)
    · rw [update_self, locate_append, hkeep (htree.reached hi), bind_some, locate_singleton, child,
        update_self, find?_append, find?_eq_none.mpr, none_or, find?_singleton,
        update_self, if_pos (decide_eq_true rfl)]
      intro d hd hsame
      rw [hname (htree.alive_of_kid hd).2, decide_eq_true_eq] at hsame
      exact absurd (hfree.symm.trans (htree.child_iff.mpr ⟨hd, hsame⟩)) (some_ne_none d).symm

end IsTree

end Tree

end Kairax.Lib
