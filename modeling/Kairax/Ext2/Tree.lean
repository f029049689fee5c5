import Kairax.Ext2.Inode
import Kairax.Lib.Radix

/-!
# The blocks of an inode

A radix tree: twelve entries of the inode point to data, and three more to trees of indirect blocks of depth one, two
and three. A path is the list of indices from the inode to one of its blocks.
-/

namespace Kairax.Ext2

open Lib List Option

def child (e : Nat) : Option Nat := if e = 0 then none else some e

def words (disk : Nat → Buf) (b j : Nat) : Nat := readLE (disk b) (4 * j) 4

def blockAt (ino : Buf) (disk : Nat → Buf) : List Nat → Option Nat
  | [] => none
  | s :: path => (child (Inode.block ino s)).bind fun b => Radix.walk child (words disk) b path

/-- The paths of an inode on a volume with `L` entries to a block. -/
def IsPath (L : Nat) : List Nat → Prop
  | [] => False
  | s :: path => s < 15 ∧ path.length ≤ s - 11 ∧ ∀ j ∈ path, j < L

def IsLeaf : List Nat → Prop
  | [] => False
  | s :: path => path.length = s - 11

@[simp] theorem child_zero : child 0 = none := rfl

theorem child_of_ne {e : Nat} (hne : e ≠ 0) : child e = some e := if_neg hne

theorem child_eq_some_iff {e b : Nat} : child e = some b ↔ e = b ∧ b ≠ 0 := by
  rw [child]
  split_ifs with hzero
  · constructor
    · intro h
      cases h
    · intro h
      exact absurd (h.1 ▸ hzero) h.2
  · constructor
    · intro h
      cases h
      exact ⟨rfl, hzero⟩
    · intro h
      rw [h.1]

section Paths

variable {L : Nat} {p : List Nat} {j s : Nat}

theorem isPath_singleton : IsPath L [s] ↔ s < 15 := by
  simp [IsPath]

variable (hpath : IsPath L (p ++ [j]))

include hpath

theorem IsPath.parent (hne : p ≠ []) : IsPath L p := by
  cases p with
  | nil => exact absurd rfl hne
  | cons s path =>
    rw [cons_append] at hpath
    obtain ⟨hs, hlen, hlt⟩ := hpath
    rw [length_append] at hlen
    exact ⟨hs, by omega, fun k hk => hlt k (mem_append_left _ hk)⟩

theorem IsPath.not_leaf : ¬ IsLeaf p := by
  cases p with
  | nil => exact id
  | cons s path =>
    intro hleaf
    rw [cons_append] at hpath
    have hlen := hpath.2.1
    rw [IsLeaf] at hleaf
    rw [length_append, length_singleton] at hlen
    omega

theorem IsPath.lt (hne : p ≠ []) : j < L := by
  cases p with
  | nil => exact absurd rfl hne
  | cons s path => exact hpath.2.2 j (mem_append_right _ (mem_singleton_self j))

end Paths

section BlockAt

variable {ino ino' : Buf} {disk disk' : Nat → Buf} {p q : List Nat} {t j v L : Nat}

theorem blockAt_singleton (s : Nat) : blockAt ino disk [s] = child (Inode.block ino s) := by
  rw [blockAt]
  cases child (Inode.block ino s) <;> rfl

theorem blockAt_concat (hp : blockAt ino disk p = some t) (j : Nat) :
    blockAt ino disk (p ++ [j]) = child (words disk t j) := by
  cases p with
  | nil => cases hp
  | cons s path =>
    rw [blockAt] at hp
    obtain ⟨b, hb, hwalk⟩ := bind_eq_some_iff.mp hp
    rw [cons_append, blockAt, hb, bind_some, Radix.walk_concat hwalk]

theorem blockAt_concat_none (hne : p ≠ []) (hp : blockAt ino disk p = none) (j : Nat) :
    blockAt ino disk (p ++ [j]) = none := by
  cases p with
  | nil => exact absurd rfl hne
  | cons s path =>
    rw [blockAt] at hp
    rw [cons_append, blockAt]
    cases hb : child (Inode.block ino s) with
    | none => rfl
    | some b =>
      rw [hb, bind_some] at hp
      rw [bind_some, Radix.walk_append, hp, bind_none]

theorem blockAt_ne_zero {b : Nat} (hb : blockAt ino disk q = some b) : b ≠ 0 := by
  cases q using reverseRecOn with
  | nil => cases hb
  | append_singleton p j =>
    cases p with
    | nil =>
      rw [nil_append, blockAt_singleton] at hb
      exact (child_eq_some_iff.mp hb).2
    | cons s path =>
      cases hp : blockAt ino disk (s :: path) with
      | none =>
        rw [blockAt_concat_none (cons_ne_nil s path) hp] at hb
        cases hb
      | some t =>
        rw [blockAt_concat hp] at hb
        exact (child_eq_some_iff.mp hb).2

theorem blockAt_setSlot {q₀ : List Nat}
    (hinode : ∀ s < 15, Inode.block ino' s = if [s] = q₀ then v else Inode.block ino s)
    (hwords : ∀ p t j, IsPath L (p ++ [j]) → blockAt ino disk p = some t →
      words disk' t j = if p ++ [j] = q₀ then v else words disk t j)
    (hparent : ∀ p j, p ≠ [] → q₀ = p ++ [j] → ∃ t, blockAt ino disk p = some t)
    (hbelow : q₀ ≠ [] → IsLeaf q₀ ∨ blockAt ino disk q₀ = none ∧ ∀ j < L, words disk' v j = 0) (hq : IsPath L q) :
    blockAt ino' disk' q = if q = q₀ then child v else blockAt ino disk q := by
  induction q using reverseRecOn with
  | nil => exact hq.elim
  | append_singleton p j ih =>
    cases hp : p with
    | nil =>
      rw [hp, nil_append, isPath_singleton] at hq
      rw [nil_append, blockAt_singleton, blockAt_singleton, hinode j hq]
      split_ifs <;> rfl
    | cons s path =>
      have hne : p ≠ [] := hp ▸ cons_ne_nil s path
      rw [← hp]
      have hprev := ih (hq.parent hne)
      by_cases hroot : p = q₀
      · -- below the new entry there is nothing, as there was before
        rw [if_pos hroot] at hprev
        have hlonger : p ++ [j] ≠ q₀ := by
          intro heq
          have := congrArg length (heq.trans hroot.symm)
          simp at this
        obtain ⟨hnone, hzero⟩ := (hbelow (hroot ▸ hne)).resolve_left (hroot ▸ hq.not_leaf)
        rw [← hroot] at hnone
        rw [if_neg hlonger, blockAt_concat_none hne hnone]
        cases hv : child v with
        | none => exact blockAt_concat_none hne (hprev.trans hv) j
        | some t =>
          obtain ⟨rfl, -⟩ := child_eq_some_iff.mp hv
          rw [blockAt_concat (hprev.trans hv), hzero j (hq.lt hne), child_zero]
      · rw [if_neg hroot] at hprev
        cases ht : blockAt ino disk p with
        | none =>
          rw [blockAt_concat_none hne (hprev.trans ht), blockAt_concat_none hne ht, if_neg]
          intro heq
          obtain ⟨t, htop⟩ := hparent p j hne heq.symm
          rw [ht] at htop
          cases htop
        | some t =>
          rw [blockAt_concat (hprev.trans ht), blockAt_concat ht, hwords p t j hq ht]
          split_ifs <;> rfl

theorem blockAt_congr (hinode : ∀ s < 15, Inode.block ino' s = Inode.block ino s)
    (hwords : ∀ p t j, IsPath L (p ++ [j]) → blockAt ino disk p = some t → words disk' t j = words disk t j)
    (hq : IsPath L q) : blockAt ino' disk' q = blockAt ino disk q := by
  have hnil (p : List Nat) (j : Nat) : p ++ [j] ≠ [] := append_ne_nil_of_right_ne_nil p (cons_ne_nil j [])
  have hset : blockAt ino' disk' q = if q = [] then child 0 else blockAt ino disk q :=
    blockAt_setSlot (fun s hs => (hinode s hs).trans (if_neg (hnil [] s)).symm)
      (fun p t j hp ht => (hwords p t j hp ht).trans (if_neg (hnil p j)).symm)
      (fun p j _ h => absurd h.symm (hnil p j)) (fun h => absurd rfl h) hq
  rwa [if_neg fun h => by rwa [h] at hq] at hset

end BlockAt

end Kairax.Ext2
