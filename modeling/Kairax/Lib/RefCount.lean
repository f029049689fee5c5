import Mathlib.Data.List.Basic
import Mathlib.Logic.Function.Basic

/-!
# Reference counts

Objects with a counter, which die when it is no longer positive. A dead object must not be touched, so `acquire` and
`release` are undefined on it. `Tally` says that the counters agree with the pointers there are, and that since some
earlier store no object has appeared or come back to life.
-/

namespace Kairax.Lib

open Function

inductive Cell
  | fresh
  | live (refs : Int)
  | dead
  deriving DecidableEq, Repr

def Cell.Agrees : Cell → Nat → Prop
  | .live refs, n => refs = n ∧ 0 < n
  | _, n => n = 0

/-- The live objects are those with pointers, and their counters say how many. -/
def Counts {K : Type*} (store : K → Cell) (pointers : K → Nat) : Prop := ∀ k, (store k).Agrees (pointers k)

theorem Counts.live {K : Type*} {store : K → Cell} {pointers : K → Nat} (hcounts : Counts store pointers) {k : K}
    (hpos : 0 < pointers k) : store k = .live (pointers k) := by
  have hk := hcounts k
  cases hcell : store k with
  | live refs =>
    rw [hcell] at hk
    rw [hk.1]
  | fresh | dead =>
    rw [hcell] at hk
    exact absurd hk (Nat.pos_iff_ne_zero.mp hpos)

variable {K : Type*} [DecidableEq K] {store store' : K → Cell}

def create (store : K → Cell) (k : K) : K → Cell := update store k (.live 0)

def acquire (store : K → Cell) (k : K) : Option (K → Cell) :=
  match store k with
  | .live refs => some (update store k (.live (refs + 1)))
  | _ => none

def release (store : K → Cell) (k : K) : Option (K → Cell) :=
  match store k with
  | .live refs => some (update store k (if refs - 1 ≤ 0 then .dead else .live (refs - 1)))
  | _ => none

def releaseSlot (store : K → Cell) : Option K → Option (K → Cell)
  | some k => release store k
  | none => some store

theorem acquire_fresh_iff {k : K} (hacquire : acquire store k = some store') (j : K) :
    store' j = .fresh ↔ store j = .fresh := by
  rw [acquire] at hacquire
  split at hacquire
  · rename_i refs hlive
    cases hacquire
    by_cases hj : j = k
    · rw [hj, update_self, hlive]
      exact ⟨nofun, nofun⟩
    · rw [update_of_ne hj]
  · cases hacquire

theorem release_fresh_iff {k : K} (hrelease : release store k = some store') (j : K) :
    store' j = .fresh ↔ store j = .fresh := by
  rw [release] at hrelease
  split at hrelease
  · rename_i refs hlive
    cases hrelease
    by_cases hj : j = k
    · rw [hj, update_self, hlive]
      split_ifs
      · exact ⟨nofun, nofun⟩
      · exact ⟨nofun, nofun⟩
    · rw [update_of_ne hj]
  · cases hrelease

structure Tally (store₀ store : K → Cell) (pointers : K → Nat) : Prop where
  counts : Counts store pointers
  settled : ∀ k, (∀ refs, store₀ k ≠ .live refs) → store k = store₀ k

namespace Tally

variable {store₀ : K → Cell} {pointers pointers' : K → Nat} {k : K}

omit [DecidableEq K] in
theorem congr (htally : Tally store₀ store pointers) (hsame : ∀ j, pointers' j = pointers j) :
    Tally store₀ store pointers' := by
  obtain rfl : pointers' = pointers := funext hsame
  exact htally

section

variable (htally : Tally store₀ store pointers)
include htally

theorem update {refs : Int} (hlive : store k = .live refs) {cell : Cell}
    (hcell : cell.Agrees (pointers' k)) (hothers : ∀ j, k ≠ j → pointers' j = pointers j) :
    Tally store₀ (update store k cell) pointers' := by
  constructor
  · refine (forall_update_iff store fun j cell => cell.Agrees (pointers' j)).mpr ⟨hcell, fun j hj => ?_⟩
    rw [hothers j (Ne.symm hj)]
    exact htally.counts j
  · intro j hstart
    have hj : j ≠ k := by
      intro heq
      have hsame := htally.settled j hstart
      rw [heq, hlive] at hsame
      rw [heq] at hstart
      exact hstart refs hsame.symm
    rw [update_of_ne hj]
    exact htally.settled j hstart

theorem acquire (hpos : 0 < pointers k) (pointers' : K → Nat)
    (hnew : ∀ j, pointers' j = pointers j + if k = j then 1 else 0) :
    ∃ store', acquire store k = some store' ∧ Tally store₀ store' pointers' := by
  have hlive := htally.counts.live hpos
  rw [Lib.acquire, hlive]
  refine ⟨_, rfl, htally.update hlive ?_ ?_⟩
  · have hk := hnew k
    rw [if_pos rfl] at hk
    exact ⟨by rw [hk]; rfl, by omega⟩
  · intro j hj
    rw [hnew j, if_neg hj, Nat.add_zero]

theorem release (k : K) (pointers' : K → Nat) (hold : ∀ j, pointers j = pointers' j + if k = j then 1 else 0) :
    ∃ store', release store k = some store' ∧ Tally store₀ store' pointers' := by
  have hk := hold k
  rw [if_pos rfl] at hk
  have hlive := htally.counts.live (show 0 < pointers k by omega)
  rw [Lib.release, hlive]
  refine ⟨_, rfl, htally.update hlive ?_ ?_⟩
  · split_ifs with hlast
    · show pointers' k = 0
      omega
    · exact ⟨by omega, by omega⟩
  · intro j hj
    have hsame := hold j
    rw [if_neg hj] at hsame
    exact hsame.symm

theorem releaseSlot (slot : Option K) (pointers' : K → Nat)
    (hold : ∀ j, pointers j = pointers' j + if slot = some j then 1 else 0) :
    ∃ store', releaseSlot store slot = some store' ∧ Tally store₀ store' pointers' := by
  cases slot with
  | none => exact ⟨store, rfl, htally.congr fun j => (hold j).symm⟩
  | some k =>
    apply htally.release
    simpa only [Option.some.injEq] using hold

theorem release_slots (slots : List (Option K))
    (pointers' : K → Nat) (hold : ∀ j, pointers j = pointers' j + slots.count (some j)) :
    ∃ store', slots.foldlM Lib.releaseSlot store = some store' ∧ Tally store₀ store' pointers' := by
  induction slots generalizing store pointers with
  | nil => exact ⟨store, rfl, htally.congr fun j => (hold j).symm⟩
  | cons slot slots ih =>
    have hfirst : ∀ j, pointers j = (pointers' j + slots.count (some j)) + if slot = some j then 1 else 0 := by
      intro j
      rw [hold j, List.count_cons, Nat.add_assoc]
      simp only [beq_iff_eq]
    obtain ⟨store', hrelease, htally'⟩ := htally.releaseSlot slot _ hfirst
    obtain ⟨store'', hrest, htally''⟩ := ih htally' fun _ => rfl
    refine ⟨store'', ?_, htally''⟩
    rw [List.foldlM_cons, hrelease]
    exact hrest

end

section Create

variable (hcounts : Counts store pointers)

include hcounts

theorem of_create {cell : Cell} (hcell : cell.Agrees (pointers' k)) (hothers : ∀ j, k ≠ j → pointers' j = pointers j) :
    Tally (create store k) (Function.update (create store k) k cell) pointers' := by
  constructor
  · rw [create, update_idem]
    refine (forall_update_iff store fun j cell => cell.Agrees (pointers' j)).mpr ⟨hcell, fun j hj => ?_⟩
    rw [hothers j (Ne.symm hj)]
    exact hcounts j
  · intro j hstart
    have hj : j ≠ k := by
      intro heq
      rw [heq, create, update_self] at hstart
      exact hstart 0 rfl
    rw [update_of_ne hj]

theorem create_acquire (hfresh : store k = .fresh) (hnew : ∀ j, pointers' j = pointers j + if k = j then 1 else 0) :
    ∃ store', Lib.acquire (create store k) k = some store' ∧ Tally (create store k) store' pointers' := by
  have hk := hcounts k
  rw [hfresh] at hk
  have hzero : pointers k = 0 := hk
  rw [Lib.acquire, create, update_self]
  refine ⟨_, rfl, of_create hcounts ?_ ?_⟩
  · rw [hnew k, if_pos rfl, hzero]
    exact ⟨rfl, Nat.one_pos⟩
  · intro j hj
    rw [hnew j, if_neg hj, Nat.add_zero]

theorem create_release (hfresh : store k = .fresh) :
    ∃ store', Lib.release (create store k) k = some store' ∧ Tally (create store k) store' pointers := by
  have hk := hcounts k
  rw [hfresh] at hk
  rw [Lib.release, create, update_self]
  exact ⟨_, rfl, of_create hcounts hk fun _ _ => rfl⟩

end Create

end Tally

end Kairax.Lib
