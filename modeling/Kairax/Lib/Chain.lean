import Mathlib.Data.List.Basic

/-!
# Doubly linked lists and tilings

`Chain` is the linked view of a list of records in memory: every record holds the addresses of its neighbours. `Tiles`
is the spatial one: every record starts where the one before it ends. Both split along `++`, which is how an operation
on one record is taken apart from the rest.
-/

namespace Kairax.Lib

section Chain

variable {Mem Addr Rec : Type*} (addr : Rec → Addr) (holds : Mem → Rec → Addr → Addr → Prop)

/-- The address of the first record, or `next` if there is none. -/
def headOr (next : Addr) : List Rec → Addr
  | [] => next
  | r :: _ => addr r

/-- The address of the last record, or `prev` if there is none. -/
def lastOr (prev : Addr) : List Rec → Addr
  | [] => prev
  | r :: rs => lastOr (addr r) rs

/-- The records are linked in both directions, between `prev` and `next`. -/
def Chain (m : Mem) : (prev : Addr) → List Rec → (next : Addr) → Prop
  | _, [], _ => True
  | prev, r :: rs, next => holds m r prev (headOr addr next rs) ∧ Chain m (addr r) rs next

variable {addr holds} {m m' : Mem} {prev next : Addr}

@[simp] theorem headOr_append (xs ys : List Rec) :
    headOr addr next (xs ++ ys) = headOr addr (headOr addr next ys) xs := by
  cases xs <;> rfl

@[simp] theorem lastOr_append (xs ys : List Rec) :
    lastOr addr prev (xs ++ ys) = lastOr addr (lastOr addr prev xs) ys := by
  induction xs generalizing prev with
  | nil => rfl
  | cons r rs ih => exact ih

theorem chain_append {xs ys : List Rec} :
    Chain addr holds m prev (xs ++ ys) next ↔
      Chain addr holds m prev xs (headOr addr next ys) ∧
        Chain addr holds m (lastOr addr prev xs) ys next := by
  induction xs generalizing prev with
  | nil => simp [Chain, lastOr]
  | cons r rs ih => simp only [List.cons_append, Chain, lastOr, headOr_append, ih, and_assoc]

theorem Chain.frame {rs : List Rec} (hchain : Chain addr holds m prev rs next)
    (hkeep : ∀ r ∈ rs, ∀ p n, holds m r p n → holds m' r p n) : Chain addr holds m' prev rs next := by
  induction rs generalizing prev with
  | nil => trivial
  | cons r rs ih =>
    refine ⟨hkeep r (by simp) _ _ hchain.1, ih hchain.2 fun r' hr' => hkeep r' (by simp [hr'])⟩

theorem Chain.relink {rs : List Rec} {prev' : Addr} (hchain : Chain addr holds m prev rs next)
    (hfirst : ∀ r rest, rs = r :: rest → ∀ n, holds m r prev n → holds m' r prev' n)
    (hrest : ∀ r ∈ rs.tail, ∀ p n, holds m r p n → holds m' r p n) : Chain addr holds m' prev' rs next := by
  cases rs with
  | nil => trivial
  | cons r rs => exact ⟨hfirst r rs rfl _ hchain.1, hchain.2.frame hrest⟩

theorem Chain.at_middle {xs ys : List Rec} {r : Rec} (hchain : Chain addr holds m prev (xs ++ r :: ys) next) :
    holds m r (lastOr addr prev xs) (headOr addr next ys) :=
  (chain_append.mp hchain).2.1

end Chain

section Tiles

variable {Rec : Type*} (base len : Rec → Nat) {rs : List Rec}

/-- The records cover the addresses from `lo` to `hi`, in order and without gaps. -/
def Tiles : (lo hi : Nat) → List Rec → Prop
  | lo, hi, [] => lo = hi
  | lo, hi, r :: rs => base r = lo ∧ Tiles (lo + len r) hi rs

variable {base len} {lo hi : Nat}

theorem tiles_append {xs ys : List Rec} :
    Tiles base len lo hi (xs ++ ys) ↔ ∃ mid, Tiles base len lo mid xs ∧ Tiles base len mid hi ys := by
  induction xs generalizing lo with
  | nil => simp [Tiles]
  | cons r rs ih => simp only [List.cons_append, Tiles, ih, and_assoc, exists_and_left]

theorem Tiles.exchange {xs ys : List Rec} (old new : List Rec) (htiles : Tiles base len lo hi (xs ++ (old ++ ys)))
    (hsame : ∀ lo mid, Tiles base len lo mid old → Tiles base len lo mid new) :
    Tiles base len lo hi (xs ++ (new ++ ys)) := by
  obtain ⟨lo', hxs, hrest⟩ := tiles_append.mp htiles
  obtain ⟨mid, hold, hys⟩ := tiles_append.mp hrest
  exact tiles_append.mpr ⟨lo', hxs, tiles_append.mpr ⟨mid, hsame lo' mid hold, hys⟩⟩

section

variable (htiles : Tiles base len lo hi rs)
include htiles

theorem Tiles.le : lo ≤ hi := by
  induction rs generalizing lo with
  | nil => exact Nat.le_of_eq htiles
  | cons r rs ih =>
    have := ih htiles.2
    omega

theorem Tiles.bounds {r : Rec} (hr : r ∈ rs) : lo ≤ base r ∧ base r + len r ≤ hi := by
  induction rs generalizing lo with
  | nil => simp at hr
  | cons r' rs ih =>
    have hbase := htiles.1
    have hrest := htiles.2.le
    rcases List.mem_cons.mp hr with rfl | hmem
    · omega
    · have := ih htiles.2 hmem
      omega

theorem Tiles.pairwise : rs.Pairwise fun r r' => base r + len r ≤ base r' := by
  induction rs generalizing lo with
  | nil => exact List.Pairwise.nil
  | cons r rs ih =>
    refine List.Pairwise.cons (fun r' hr' => ?_) (ih htiles.2)
    rw [htiles.1]
    exact (htiles.2.bounds hr').1

theorem Tiles.length_le (least : Nat) (hleast : ∀ r ∈ rs, least ≤ len r) : lo + least * rs.length ≤ hi := by
  induction rs generalizing lo with
  | nil => simpa using htiles.le
  | cons r rs ih =>
    have hrest := ih htiles.2 fun r' hr' => hleast r' (by simp [hr'])
    have hfirst := hleast r (by simp)
    rw [List.length_cons, Nat.mul_add]
    omega

end

end Tiles

end Kairax.Lib
