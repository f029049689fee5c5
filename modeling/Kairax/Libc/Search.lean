import Mathlib.Algebra.Order.Ring.Int

/-!
# Binary search

`bsearch` keeps both ends of the part that is left to search as `size_t`, and its right end is the last place of that
part. So the end of an empty part that begins at zero wraps around.
-/

namespace Kairax.Libc

open List Option

variable {α : Type*}

/-- A comparison of the caller: by its sign, a total preorder. -/
structure IsComparison (compare : α → α → Int) : Prop where
  swap : ∀ a b, compare a b ≤ 0 ↔ 0 ≤ compare b a
  trans : ∀ a b c, compare a b ≤ 0 → compare b c ≤ 0 → compare a c ≤ 0

/-- `n - 1` of a `size_t`. -/
def pred (n : Nat) : Nat := (n + 2 ^ 64 - 1) % 2 ^ 64

/-- `(left + right) / 2` -/
def middle (left right : Nat) : Nat := (left + right) % 2 ^ 64 / 2

/-- The loop of `bsearch`. It returns the place of the element, and a comparison outside of the array is a fault. -/
def bsearchLoop (compare : α → Int) (elems : List α) : Nat → Nat → Nat → Option (Option Nat)
  | 0, _, _ => none
  | fuel + 1, left, right =>
    if left ≤ right then
      elems[middle left right]?.bind fun e =>
        if compare e = 0 then some (some (middle left right))
        else if compare e < 0 then bsearchLoop compare elems fuel (middle left right + 1) right
        else bsearchLoop compare elems fuel left (pred (middle left right))
    else some none

def bsearch (compare : α → Int) (elems : List α) (fuel : Nat) : Option (Option Nat) :=
  bsearchLoop compare elems fuel 0 (pred elems.length)

/-- What `bsearch` is to return. -/
def Found (compare : α → Int) (elems : List α) (r : Option Nat) : Prop :=
  r.elim (∀ e ∈ elems, compare e ≠ 0) fun i => ∃ e ∈ elems[i]?, compare e = 0

theorem pred_eq {n : Nat} (hn : n ≠ 0) (hlt : n < 2 ^ 64) : pred n = n - 1 := by
  rw [pred]
  omega

section Loop

variable {compare : α → Int} {elems : List α}

theorem bsearchLoop_faults (habove : ∀ e ∈ elems, 0 < compare e) (fuel right : Nat) :
    bsearchLoop compare elems fuel 0 right = none := by
  induction fuel generalizing right with
  | zero => rfl
  | succ fuel ih =>
    rw [bsearchLoop, if_pos (Nat.zero_le right)]
    cases he : elems[middle 0 right]? with
    | none => rfl
    | some e =>
      have hpos := habove e (mem_of_getElem? he)
      rw [bind_some, if_neg hpos.ne', if_neg hpos.not_gt, ih]

theorem bsearchLoop_found (hlen : elems.length < 2 ^ 63)
    (hmono : ∀ (i j : Nat) a b, i ≤ j → elems[i]? = some a → elems[j]? = some b →
      (compare b < 0 → compare a < 0) ∧ (0 < compare a → 0 < compare b))
    (hfirst : ∀ e, elems[0]? = some e → compare e ≤ 0) (l r : Nat) (hr : r < elems.length)
    (hinside : ∀ i e, elems[i]? = some e → compare e = 0 → l ≤ i ∧ i ≤ r) :
    ∃ fuel x, bsearchLoop compare elems fuel l r = some x ∧ Found compare elems x := by
  induction hd : r + 1 - l using Nat.strong_induction_on generalizing l r with
  | h d ih =>
  by_cases hle : l ≤ r
  · obtain ⟨m, hm, hlow, hhigh⟩ : ∃ m, middle l r = m ∧ l ≤ m ∧ m ≤ r := by
      refine ⟨_, rfl, ?_⟩
      rw [middle]
      omega
    obtain ⟨e, he⟩ : ∃ e, elems[m]? = some e := ⟨_, getElem?_eq_getElem (by omega)⟩
    rcases lt_trichotomy (compare e) 0 with hneg | hzero | hpos
    · have hinside' : ∀ i a, elems[i]? = some a → compare a = 0 → m + 1 ≤ i ∧ i ≤ r := by
        intro i a ha hzero
        refine ⟨Nat.succ_le_of_lt (not_le.mp fun hi => ?_), (hinside i a ha hzero).2⟩
        exact hzero.not_lt ((hmono i m a e hi ha he).1 hneg)
      obtain ⟨fuel, x, hrest, hfound⟩ := ih _ (by omega) (m + 1) r hr hinside' rfl
      refine ⟨fuel + 1, x, ?_, hfound⟩
      rw [bsearchLoop, if_pos hle, hm, he, bind_some, if_neg hneg.ne, if_pos hneg, hrest]
    · refine ⟨1, some m, ?_, e, he, hzero⟩
      rw [bsearchLoop, if_pos hle, hm, he, bind_some, if_pos hzero]
    · have hne : m ≠ 0 := by
        rintro rfl
        exact hpos.not_ge (hfirst e he)
      have hinside' : ∀ i b, elems[i]? = some b → compare b = 0 → l ≤ i ∧ i ≤ m - 1 := by
        intro i b hb hzero
        refine ⟨(hinside i b hb hzero).1, Nat.le_sub_one_of_lt (not_le.mp fun hi => ?_)⟩
        exact hzero.not_gt ((hmono m i e b hi he hb).2 hpos)
      obtain ⟨fuel, x, hrest, hfound⟩ := ih _ (by omega) l (m - 1) (by omega) hinside' rfl
      refine ⟨fuel + 1, x, ?_, hfound⟩
      rw [bsearchLoop, if_pos hle, hm, he, bind_some, if_neg hpos.ne', if_neg hpos.not_gt, pred_eq hne (by omega),
        hrest]
  · refine ⟨1, none, by rw [bsearchLoop, if_neg hle], fun e he hzero => ?_⟩
    obtain ⟨i, hi⟩ := getElem?_of_mem he
    have := hinside i e hi hzero
    omega

end Loop

/-- The key is found, or is known not to be there, exactly if the array is not empty and does not begin with an element
above the key. -/
theorem bsearch_iff {compare : α → α → Int} (hcompare : IsComparison compare) {elems : List α} (key : α)
    (hlen : elems.length < 2 ^ 63) (hsorted : elems.Pairwise fun a b => compare a b ≤ 0) :
    (∃ fuel r, bsearch (compare · key) elems fuel = some r ∧ Found (compare · key) elems r) ↔
      ∃ first ∈ elems.head?, compare first key ≤ 0 := by
  have hmono : ∀ (i j : Nat) a b, i ≤ j → elems[i]? = some a → elems[j]? = some b →
      (compare b key < 0 → compare a key < 0) ∧ (0 < compare a key → 0 < compare b key) := by
    intro i j a b hij ha hb
    obtain ⟨hi, rfl⟩ := List.getElem?_eq_some_iff.mp ha
    obtain ⟨hj, rfl⟩ := List.getElem?_eq_some_iff.mp hb
    rcases hij.eq_or_lt with rfl | hlt
    · exact ⟨id, id⟩
    have hab := pairwise_iff_getElem.mp hsorted i j hi hj hlt
    constructor
    · intro hneg
      by_contra hge
      have := (hcompare.swap key _).mp (hcompare.trans _ _ _ ((hcompare.swap key _).mpr (not_lt.mp hge)) hab)
      omega
    · intro hpos
      by_contra hnot
      have := hcompare.trans _ _ _ hab (not_lt.mp hnot)
      omega
  constructor
  · rintro ⟨fuel, r, hcall, -⟩
    by_contra hnone
    push Not at hnone
    rw [bsearch, bsearchLoop_faults] at hcall
    · cases hcall
    · intro e he
      obtain ⟨i, hi⟩ := getElem?_of_mem he
      cases elems with
      | nil => cases he
      | cons first rest => exact (hmono 0 i first e (Nat.zero_le i) rfl hi).2 (hnone first rfl)
  · rintro ⟨first, hfirst, hle⟩
    cases elems with
    | nil => cases hfirst
    | cons first rest =>
      cases hfirst
      simp only [bsearch, pred_eq (length_cons ▸ Nat.succ_ne_zero rest.length) (hlen.trans (by decide))]
      refine bsearchLoop_found hlen hmono (fun e he => ?_) 0 rest.length (Nat.lt_succ_self _) fun i e hi _ => ?_
      · cases he
        exact hle
      · exact ⟨Nat.zero_le i, Nat.le_of_lt_succ (List.getElem?_eq_some_iff.mp hi).1⟩

theorem bsearch_iff_two : ∃ fuel r, bsearch (· - 7) [5, 7] fuel = some r ∧ Found (· - 7) [5, 7] r :=
  (bsearch_iff ⟨fun a b => by omega, fun a b c => by omega⟩ (7 : Int) (by decide) (by simp)).mpr ⟨5, rfl, by decide⟩

/-- A key below the first element takes `right` to `-1`, as it begins in an empty array. -/
theorem bsearch_leaves_array :
    (∀ fuel, bsearch (· - (3 : Int)) [5] fuel = none) ∧ ∀ fuel, bsearch (· - (3 : Int)) [] fuel = none :=
  ⟨fun fuel => bsearchLoop_faults (by simp) fuel _, fun fuel => bsearchLoop_faults (by simp) fuel _⟩

end Kairax.Libc
