import Mathlib.Data.BitVec
import Mathlib.Data.List.Basic
import Mathlib.Logic.Function.Basic

/-!
# Ring buffers

A ring of `n` slots with two counters that are never reduced. They are machine words and may wrap, which does not
matter as long as `n` divides the number of words. `ringContents` lists the elements from the oldest on.
-/

namespace Kairax.Lib

open BitVec (add_assoc add_comm add_zero ofNat ofNat_add)

variable {α : Type*} {w n : Nat}

/-- The elements in `len` slots from a position on. -/
def ringContents (n : Nat) (slots : Nat → α) (head : BitVec w) : Nat → List α
  | 0 => []
  | len + 1 => slots (head.toNat % n) :: ringContents n slots (head + 1) len

def ringCount (head tail : BitVec w) : Nat := (tail - head).toNat

section Contents

variable {slots : Nat → α} {head tail : BitVec w} {len : Nat} {x : α}

theorem length_ringContents : (ringContents n slots head len).length = len := by
  induction len generalizing head with
  | zero => rfl
  | succ len ih => rw [ringContents, List.length_cons, ih]

theorem ringSlot_add (hdvd : n ∣ 2 ^ w) (head : BitVec w) (k : Nat) :
    (head + ofNat w k).toNat % n = (head.toNat + k) % n := by
  rw [BitVec.toNat_add, BitVec.toNat_ofNat, Nat.mod_mod_of_dvd _ hdvd, Nat.add_mod, Nat.mod_mod_of_dvd _ hdvd,
    ← Nat.add_mod]

theorem ringSlot_ne (hdvd : n ∣ 2 ^ w) {k : Nat} (hpos : 0 < k) (hlt : k < n) :
    head.toNat % n ≠ (head + ofNat w k).toNat % n := by
  rw [ringSlot_add hdvd]
  intro heq
  have hmod : head.toNat + 0 ≡ head.toNat + k [MOD n] := heq
  have hzero : (0 : Nat) % n = k % n := Nat.ModEq.add_left_cancel' _ hmod
  rw [Nat.zero_mod, Nat.mod_eq_of_lt hlt] at hzero
  omega

theorem ringContents_push (hdvd : n ∣ 2 ^ w) (hlen : len < n) :
    ringContents n (Function.update slots ((head + ofNat w len).toNat % n) x) head (len + 1) =
      ringContents n slots head len ++ [x] := by
  induction len generalizing head with
  | zero =>
    rw [add_zero]
    exact congrArg (· :: []) (Function.update_self ..)
  | succ len ih =>
    have hnext : head + ofNat w (len + 1) = head + 1 + ofNat w len := by
      rw [add_assoc, Nat.add_comm len 1, ofNat_add]
      rfl
    rw [ringContents, Function.update_of_ne (ringSlot_ne hdvd (Nat.succ_pos len) hlen), hnext, ih (by omega)]
    rfl

end Contents

section Counters

variable {head tail : BitVec w}

theorem tail_eq_add_ringCount (head tail : BitVec w) : tail = head + ofNat w (ringCount head tail) := by
  rw [ringCount, BitVec.ofNat_toNat, BitVec.setWidth_eq, add_comm, BitVec.sub_add_cancel]

theorem ringCount_eq_zero : ringCount head tail = 0 ↔ head = tail := by
  constructor
  · intro hzero
    rw [tail_eq_add_ringCount head tail, hzero, add_zero]
  · rintro rfl
    rw [ringCount, BitVec.sub_self, BitVec.toNat_zero]

theorem ringCount_add (head : BitVec w) (k : Nat) : ringCount head (head + ofNat w k) = k % 2 ^ w := by
  rw [ringCount, add_comm, BitVec.add_sub_cancel, BitVec.toNat_ofNat]

theorem eq_add_iff_ringCount (hlt : n < 2 ^ w) : tail = head + ofNat w n ↔ ringCount head tail = n := by
  constructor
  · rintro rfl
    rw [ringCount_add, Nat.mod_eq_of_lt hlt]
  · intro hcount
    rw [tail_eq_add_ringCount head tail, hcount]

theorem ringCount_push (hlt : ringCount head tail + 1 < 2 ^ w) :
    ringCount head (tail + 1) = ringCount head tail + 1 := by
  have hnext : tail + 1 = head + ofNat w (ringCount head tail + 1) := by
    rw [ofNat_add, ← add_assoc, ← tail_eq_add_ringCount]
    rfl
  rw [hnext, ringCount_add, Nat.mod_eq_of_lt hlt]

theorem ringCount_pop (hne : head ≠ tail) : ringCount (head + 1) tail + 1 = ringCount head tail := by
  obtain ⟨k, hk⟩ := Nat.exists_eq_succ_of_ne_zero (mt ringCount_eq_zero.mp hne)
  have hlt : ringCount head tail < 2 ^ w := (tail - head).isLt
  have hnext : tail = head + 1 + ofNat w k := by
    rw [tail_eq_add_ringCount head tail, hk, Nat.succ_eq_one_add, ofNat_add, ← add_assoc]
    rfl
  rw [hk, hnext, ringCount_add, Nat.mod_eq_of_lt (by omega)]

end Counters

end Kairax.Lib
