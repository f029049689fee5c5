import Mathlib.Data.List.Pairwise
import Mathlib.Data.List.Basic
import Kairax.Lib.Bytes

/-!
# Memory in pages

A memory whose pages may be missing. Mapping gives zeroed pages where there are none, and writing has an effect where
there are pages. So a page has the flags of the first segment whose range has it, and an address has what was written
to it last.
-/

namespace Kairax.Lib

open List Option

structure Paged (φ : Type) where
  flags : Nat → Option φ
  byte : Nat → Byte

namespace Paged

variable {φ : Type} (w : Nat)

/-- Pages `lo` to `hi` get flags, and zeros, if they are missing. -/
def mapRange (s : Paged φ) (lo hi : Nat) (f : φ) : Paged φ where
  flags n := if lo ≤ n ∧ n < hi then some ((s.flags n).getD f) else s.flags n
  byte a := if (lo ≤ a / w ∧ a / w < hi) ∧ s.flags (a / w) = none then 0 else s.byte a

def write (s : Paged φ) (o len : Nat) (src : Nat → Byte) : Paged φ where
  flags := s.flags
  byte a := if (o ≤ a ∧ a < o + len) ∧ (s.flags (a / w)).isSome then src (a - o) else s.byte a

theorem ext_of {s t : Paged φ} (hflags : ∀ n, s.flags n = t.flags n) (hbyte : ∀ a, s.byte a = t.byte a) : s = t := by
  exact congr (congrArg Paged.mk (funext hflags)) (funext hbyte)

variable {w}

section

variable (s : Paged φ)

theorem flags_mapRange (lo hi : Nat) (f : φ) (n : Nat) :
    (s.mapRange w lo hi f).flags n = if lo ≤ n ∧ n < hi then some ((s.flags n).getD f) else s.flags n := rfl

theorem byte_mapRange (lo hi : Nat) (f : φ) (a : Nat) :
    (s.mapRange w lo hi f).byte a =
      if (lo ≤ a / w ∧ a / w < hi) ∧ s.flags (a / w) = none then 0 else s.byte a := rfl

variable (o len : Nat)

theorem flags_write (src : Nat → Byte) : (s.write w o len src).flags = s.flags := rfl

theorem byte_write (src : Nat → Byte) (a : Nat) :
    (s.write w o len src).byte a =
      if (o ≤ a ∧ a < o + len) ∧ (s.flags (a / w)).isSome then src (a - o) else s.byte a := rfl

theorem mapRange_empty {lo hi : Nat} (hle : hi ≤ lo) (f : φ) : s.mapRange w lo hi f = s := by
  refine ext_of ?_ ?_
  · intro n
    exact if_neg (by omega)
  · intro a
    exact if_neg (by omega)

theorem mapRange_succ {lo hi : Nat} (hle : lo ≤ hi) (f : φ) :
    s.mapRange w lo (hi + 1) f = (s.mapRange w lo hi f).mapRange w hi (hi + 1) f := by
  refine ext_of ?_ ?_
  · intro n
    rw [flags_mapRange, flags_mapRange, flags_mapRange]
    by_cases hn : n = hi
    · subst hn
      rw [if_pos ⟨hle, by omega⟩, if_pos ⟨le_rfl, by omega⟩, if_neg (by omega)]
    · rw [if_neg (by omega : ¬ (hi ≤ n ∧ n < hi + 1))]
      exact if_congr (by omega) rfl rfl
  · intro a
    rw [byte_mapRange, byte_mapRange, byte_mapRange]
    by_cases ha : a / w = hi
    · have hflags : (s.mapRange w lo hi f).flags (a / w) = s.flags (a / w) := if_neg (by omega)
      rw [if_neg (by omega : ¬ ((lo ≤ a / w ∧ a / w < hi) ∧ s.flags (a / w) = none))]
      exact if_congr (and_congr (by omega) (by rw [hflags])) rfl rfl
    · rw [if_neg (by omega : ¬ ((hi ≤ a / w ∧ a / w < hi + 1) ∧ (s.mapRange w lo hi f).flags (a / w) = none))]
      exact if_congr (and_congr_left' (by omega)) rfl rfl

theorem write_zero (o : Nat) (src : Nat → Byte) : s.write w o 0 src = s := by
  refine ext_of (fun _ => rfl) ?_
  intro a
  exact if_neg (by omega)

theorem write_succ (src : Nat → Byte) :
    s.write w o (len + 1) src = (s.write w o len src).write w (o + len) 1 fun _ => src len := by
  refine ext_of (fun _ => rfl) ?_
  intro a
  rw [byte_write, byte_write, byte_write, flags_write]
  by_cases ha : a = o + len
  · subst ha
    rw [if_neg (by omega : ¬ ((o ≤ o + len ∧ o + len < o + len) ∧ (s.flags ((o + len) / w)).isSome)),
      Nat.add_sub_cancel_left]
    exact if_congr (and_congr_left' (by omega)) rfl rfl
  · rw [if_neg (by omega : ¬ ((o + len ≤ a ∧ a < o + len + 1) ∧ (s.flags (a / w)).isSome))]
    exact if_congr (and_congr_left' (by omega)) rfl rfl

theorem write_front (src : Nat → Byte) :
    s.write w o (len + 1) src = (s.write w o 1 fun _ => src 0).write w (o + 1) len fun k => src (k + 1) := by
  refine ext_of (fun _ => rfl) ?_
  intro a
  rw [byte_write, byte_write, byte_write, flags_write]
  by_cases ha : a = o
  · subst ha
    rw [if_neg (by omega : ¬ ((a + 1 ≤ a ∧ a < a + 1 + len) ∧ (s.flags (a / w)).isSome)), Nat.sub_self]
    exact if_congr (and_congr_left' (by omega)) rfl rfl
  · rw [if_neg (by omega : ¬ ((o ≤ a ∧ a < o + 1) ∧ (s.flags (a / w)).isSome))]
    by_cases hin : (o ≤ a ∧ a < o + (len + 1)) ∧ (s.flags (a / w)).isSome
    · rw [if_pos hin, if_pos ⟨by omega, hin.2⟩]
      congr 1
      omega
    · rw [if_neg hin, if_neg fun h => hin ⟨by omega, h.2⟩]

end

end Paged

/-- The data of a segment, and the room that is cleared for it. -/
structure Segment (φ : Type) where
  start : Nat
  room : Nat
  filesz : Nat
  memsz : Nat
  data : Nat → Byte
  flags : φ

namespace Segment

variable {φ : Type} (w : Nat)

def content (t : Segment φ) (k : Nat) : Byte := if k < t.filesz then t.data k else 0

def Covers (t : Segment φ) (n : Nat) : Prop := t.start / w ≤ n ∧ n < (t.start + t.room + w - 1) / w

instance (t : Segment φ) (n : Nat) : Decidable (t.Covers w n) := inferInstanceAs (Decidable (_ ∧ _))

/-- The first comes before the second and has no page in common with it. -/
def Before (t u : Segment φ) : Prop :=
  t.start ≤ u.start ∧ ∀ k < t.memsz, ∀ k' < u.memsz, (t.start + k) / w ≠ (u.start + k') / w

instance (t u : Segment φ) : Decidable (t.Before w u) := inferInstanceAs (Decidable (_ ∧ _))

/-- Where the room of the second has bytes of the first, these are zero. -/
def Clear (t u : Segment φ) : Prop :=
  ∀ k < t.memsz, u.start ≤ t.start + k → t.start + k < u.start + u.room → t.content k = 0

instance (t u : Segment φ) : Decidable (t.Clear u) := inferInstanceAs (Decidable (∀ k < t.memsz, _))

structure Fits (t : Segment φ) : Prop where
  filesz_le : t.filesz ≤ t.memsz
  memsz_le : t.memsz ≤ t.room

end Segment

namespace Paged

variable {φ : Type} (w : Nat)

def load (s : Paged φ) (t : Segment φ) : Paged φ :=
  ((s.mapRange w (t.start / w) ((t.start + t.room + w - 1) / w) t.flags).write w t.start t.room fun _ => 0).write w
    t.start t.filesz t.data

variable {w}

variable (s : Paged φ)

theorem flags_load (t : Segment φ) (n : Nat) :
    (s.load w t).flags n = if t.Covers w n then some ((s.flags n).getD t.flags) else s.flags n := rfl

theorem flags_loadAll (l : List (Segment φ)) (n : Nat) :
    (l.foldl (load w) s).flags n = (s.flags n).or ((l.find? fun t => t.Covers w n).map Segment.flags) := by
  induction l generalizing s with
  | nil =>
    rw [foldl_nil, find?_nil, map_none, or_none]
  | cons t l ih =>
    rw [foldl_cons, ih, flags_load, find?_cons]
    split_ifs with hcovers
    · rw [decide_eq_true hcovers]
      cases s.flags n with
      | none | some f => rfl
    · rw [decide_eq_false hcovers]

theorem covers_of_room (hw : 0 < w) (t : Segment φ) {a : Nat} (hlow : t.start ≤ a) (hhigh : a < t.start + t.room) :
    t.Covers w (a / w) := by
  refine ⟨Nat.div_le_div_right hlow, ?_⟩
  have hstep : (a + w) / w ≤ (t.start + t.room + w - 1) / w := Nat.div_le_div_right (by omega)
  rw [Nat.add_div_right a hw] at hstep
  omega

theorem byte_load_inside (hw : 0 < w) (s : Paged φ) {t : Segment φ} {k : Nat} (hk : k < t.room) :
    (s.load w t).byte (t.start + k) = t.content k := by
  have hcovers := covers_of_room hw t (Nat.le_add_right t.start k) (Nat.add_lt_add_left hk t.start)
  have hsome : ((s.mapRange w (t.start / w) ((t.start + t.room + w - 1) / w) t.flags).flags
      ((t.start + k) / w)).isSome := by
    rw [flags_mapRange, if_pos (show _ ∧ _ from hcovers)]
    rfl
  rw [load, byte_write, byte_write, Segment.content, Nat.add_sub_cancel_left]
  by_cases hfile : k < t.filesz
  · rw [if_pos hfile, if_pos ⟨by omega, hsome⟩]
  · rw [if_neg hfile, if_neg fun h => hfile (by omega), if_pos ⟨by omega, hsome⟩]

theorem byte_load_outside {t : Segment φ} (hle : t.filesz ≤ t.room) {a : Nat}
    (hpage : (s.flags (a / w)).isSome) (hout : a < t.start ∨ t.start + t.room ≤ a) :
    (s.load w t).byte a = s.byte a := by
  rw [load, byte_write, if_neg (by omega), byte_write, if_neg (by omega), byte_mapRange, if_neg]
  rintro ⟨-, hnone⟩
  rw [hnone] at hpage
  cases hpage

theorem isSome_load (t : Segment φ) {n : Nat} (hpage : (s.flags n).isSome) :
    ((s.load w t).flags n).isSome := by
  rw [flags_load]
  split_ifs
  · rfl
  · exact hpage

theorem byte_loadAll (hw : 0 < w) (s : Paged φ) (l : List (Segment φ)) {a : Nat} (hpage : (s.flags (a / w)).isSome)
    (hfits : ∀ u ∈ l, u.filesz ≤ u.room) (hempty : ∀ u ∈ l, u.start ≤ a → a < u.start + u.room → u.filesz = 0) :
    (l.foldl (load w) s).byte a = if ∃ u ∈ l, u.start ≤ a ∧ a < u.start + u.room then 0 else s.byte a := by
  induction l generalizing s with
  | nil =>
    rw [if_neg]
    · rfl
    · rintro ⟨u, hu, -⟩
      cases hu
  | cons t l ih =>
    obtain ⟨ht, hfits⟩ := forall_mem_cons.mp hfits
    obtain ⟨hempty, hrest⟩ := forall_mem_cons.mp hempty
    rw [foldl_cons, ih _ (isSome_load s t hpage) hfits hrest]
    by_cases hlater : ∃ u ∈ l, u.start ≤ a ∧ a < u.start + u.room
    · rw [if_pos hlater, if_pos]
      obtain ⟨u, hu, hroom⟩ := hlater
      exact ⟨u, mem_cons_of_mem _ hu, hroom⟩
    · rw [if_neg hlater]
      by_cases hroom : t.start ≤ a ∧ a < t.start + t.room
      · rw [if_pos ⟨t, mem_cons_self, hroom⟩]
        obtain ⟨k, rfl⟩ := Nat.exists_eq_add_of_le hroom.1
        rw [byte_load_inside hw s (by omega), Segment.content, hempty hroom.1 hroom.2, if_neg (Nat.not_lt_zero k)]
      · rw [byte_load_outside s ht hpage (by omega), if_neg]
        rw [exists_mem_cons_iff]
        rintro (h | h)
        · exact hroom h
        · exact hlater h

theorem memsz_eq_zero (t u : Segment φ) (hbefore : t.Before w u) {k : Nat} (hk : k < t.memsz)
    (hstart : u.start ≤ t.start + k) : u.memsz = 0 := by
  by_contra hne
  obtain ⟨hle, hdisjoint⟩ := hbefore
  obtain ⟨i, hi⟩ := Nat.exists_eq_add_of_le hle
  refine hdisjoint i (by omega) 0 (by omega) ?_
  rw [add_zero, hi]

theorem contents_iff (hw : 0 < w) {l : List (Segment φ)} (hfits : ∀ t ∈ l, t.Fits)
    (hbefore : l.Pairwise (Segment.Before w))
    (s : Paged φ) :
    (∀ t ∈ l, ∀ k < t.memsz, (l.foldl (load w) s).byte (t.start + k) = t.content k) ↔ l.Pairwise Segment.Clear := by
  induction l generalizing s with
  | nil => exact iff_of_true (forall_mem_nil _) List.Pairwise.nil
  | cons t l ih =>
    obtain ⟨ht, hfits⟩ := forall_mem_cons.mp hfits
    obtain ⟨hfirst, hbefore⟩ := pairwise_cons.mp hbefore
    rw [forall_mem_cons, pairwise_cons, foldl_cons, ih hfits hbefore]
    refine and_congr_left fun _ => ?_
    have hbyte {k : Nat} (hk : k < t.memsz) : (l.foldl (load w) (s.load w t)).byte (t.start + k) =
        if ∃ u ∈ l, u.start ≤ t.start + k ∧ t.start + k < u.start + u.room then 0 else t.content k := by
      have hroom := hk.trans_le ht.memsz_le
      have hpage : ((s.load w t).flags ((t.start + k) / w)).isSome := by
        rw [flags_load, if_pos (covers_of_room hw t (Nat.le_add_right _ _) (Nat.add_lt_add_left hroom _))]
        rfl
      rw [byte_loadAll hw _ l hpage, byte_load_inside hw s hroom]
      · exact fun u hu => (hfits u hu).filesz_le.trans (hfits u hu).memsz_le
      · intro u hu hstart _
        exact Nat.le_zero.mp (memsz_eq_zero t u (hfirst u hu) hk hstart ▸ (hfits u hu).filesz_le)
    constructor
    · intro hcontent u hu k hk hlow hhigh
      rw [← hcontent k hk, hbyte hk, if_pos ⟨u, hu, hlow, hhigh⟩]
    · intro hclear k hk
      rw [hbyte hk]
      split_ifs with hlater
      · obtain ⟨u, hu, hlow, hhigh⟩ := hlater
        exact (hclear u hu k hk hlow hhigh).symm
      · rfl

end Paged

end Kairax.Lib
