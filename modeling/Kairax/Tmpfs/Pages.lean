import Kairax.Tmpfs.Directory
import Kairax.Tmpfs.File

/-!
# The pages of tmpfs files

Which pages a file owns while it is written, truncated, evicted and read again, and released in the end. A page is
named by its place in the order of the allocations. `tmpfs_truncate` takes the number of blocks in the VFS inode for
the end of the table.
-/

namespace Kairax.Tmpfs

open Lib List Option

/-- The block table of a file with `blocks` of its VFS inode, the pages allocated, and the arguments of `pmm_free_page`.
-/
structure Pages where
  size : Nat
  blocks : List (Option Nat)
  vfsBlocks : Nat
  next : Nat
  freed : List (Option Nat)
  kept : Bool
  deriving DecidableEq

def blocksNeeded (len : Nat) : Nat := max 1 ((len + 4095) / 4096)

/-- Whether the table has no block behind the end of a file of this length. -/
def Pages.cut (s : Pages) (len : Nat) : Bool :=
  decide (∀ j < s.blocks.length, blocksNeeded len ≤ j → s.blocks[j]?.join = none)

namespace Pages

variable (s : Pages)

def new : Pages := ⟨0, [], 0, 0, [], true⟩

def allocAt (i : Nat) : Pages := { s with blocks := s.blocks.set i (some s.next), next := s.next + 1 }

/-- `tmpfs_inode_extend_blockstore`, if the heap has room. -/
def extend (room : Bool) (n : Nat) : Option Pages :=
  if n ≤ s.blocks.length then some s
  else if room then some { s with blocks := s.blocks ++ replicate (n - s.blocks.length) none } else none

/-- The table for a write that ends in block `endBlock`. -/
def growTo (room : Bool) (endBlock : Nat) : Option Pages :=
  if s.blocks.length < endBlock + 1 then s.extend room (endBlock + 1 + 4) else some s

end Pages

/-- The loop of `tmpfs_file_write` with the number of pages that are left. The flag is unset when there is none. -/
def pageLoop : Nat → Nat → Nat → Nat → Nat → Pages → Option (Bool × Pages)
  | 0, _, _, _, _, s => some (true, s)
  | passes + 1, remain, o, i, left, s =>
    if remain = 0 then some (true, s)
    else
      let remain := remain - min remain (blocksize - o)
      s.blocks[i]?.bind fun
        | some _ => pageLoop passes remain 0 (i + 1) left s
        | none =>
          if left = 0 then some (false, s)
          else pageLoop passes remain 0 (i + 1) (left - 1) { s.allocAt i with vfsBlocks := s.vfsBlocks + 1 }

/-- The pages in `tmpfs_file_write`. It returns when the table cannot grow. -/
def writePages (s : Pages) (offset count left : Nat) (room : Bool) : Option Pages :=
  let endByte := (offset + count) % 2 ^ 64
  match s.growTo room (endByte / blocksize) with
  | none => some s
  | some s => (pageLoop count count (offset % blocksize) (offset / blocksize) left s).map fun (done, s) =>
    if done then { s with size := max s.size endByte } else s

/-- The first loop of `tmpfs_truncate` over `n` blocks from `i` on. -/
def fillLoop : Nat → Nat → Nat → Pages → Option (Bool × Pages)
  | 0, _, _, s => some (true, s)
  | n + 1, i, left, s => s.blocks[i]?.bind fun
      | some _ => fillLoop n (i + 1) left s
      | none => if left = 0 then some (false, s) else fillLoop n (i + 1) (left - 1) (s.allocAt i)

def dropLoop : Nat → Nat → Pages → Option Pages
  | 0, _, s => some s
  | n + 1, i, s => s.blocks[i]?.bind fun page =>
    dropLoop n (i + 1) { s with blocks := s.blocks.set i none, freed := s.freed ++ [page] }

/-- The pages in `tmpfs_truncate`. It goes on when the table cannot grow. -/
def truncatePages (s : Pages) (len left : Nat) (room : Bool) : Option Pages :=
  let count := newBlockCount len
  (fillLoop count 0 left ((s.extend room count).getD s)).bind fun (done, t) =>
    if done then (dropLoop (t.vfsBlocks - count) count t).map fun t =>
      { t with size := len, vfsBlocks := count, kept := t.kept && (s.size ≤ len || t.cut len) }
    else some t

/-- The pages in `tmpfs_free_inode`, when the last reference is given back. -/
def Pages.freeInode (s : Pages) : Pages :=
  { s with blocks := [], freed := s.freed ++ s.blocks.filter (·.isSome) }

inductive PageOp where
  /-- With the number of free pages, and whether the heap has room for a table. -/
  | write (offset count left : Nat) (room : Bool)
  | truncate (len left : Nat) (room : Bool)
  /-- The VFS inode is evicted, and made again by `tmpfs_read_node`. -/
  | reread

def pageStep (s : Pages) : PageOp → Option Pages
  | .write offset count left room => writePages s offset count left room
  | .truncate len left room => truncatePages s len left room
  | .reread => some { s with vfsBlocks := 0 }

/-- Every page is freed once when the file is released, NULL never is, and truncations cut off what they should. -/
structure Pages.Settled (s : Pages) : Prop where
  once : ∀ p < s.next, s.freeInode.freed.count (some p) = 1
  null : none ∉ s.freeInode.freed
  kept : s.kept = true

/-- A write does not wrap around, and the table of a truncation reaches the new end or can be extended to it; or the
call returns before it leaves the table, since that cannot grow or the pages run out. -/
def PageOp.Inside (s : Pages) : PageOp → Prop
  | .write offset count left room => offset + count < 2 ^ 64 ∨ count = 0 ∨
    ∀ u, s.growTo room ((offset + count) % 2 ^ 64 / blocksize) = some u →
      (offset + count - 1) / blocksize < u.blocks.length ∨ left < (u.blocks.drop (offset / blocksize)).countP isNone
  | .truncate len left room =>
    newBlockCount len ≤ s.blocks.length ∨ room = true ∨ left < s.blocks.countP isNone
  | .reread => True

/-- If there are pages for all holes in front of the new end, the blocks from there on are present, and for a shorter
file they are the last ones. -/
def PageOp.Safe (s : Pages) : PageOp → Prop
  | .truncate len left _ =>
    newBlockCount len - (s.blocks.take (newBlockCount len)).countP isSome ≤ left →
      (∀ i, newBlockCount len ≤ i → i < s.vfsBlocks → s.blocks[i]?.join ≠ none) ∧
      (len < s.size → ∀ i, blocksNeeded len ≤ i →
        newBlockCount len ≤ i ∧ (i < s.vfsBlocks ∨ s.blocks[i]?.join = none))
  | _ => True

/-- Each call of a sequence is inside the table and safe in the state that it finds. -/
def Safely : Pages → List PageOp → Prop
  | _, [] => True
  | s, op :: ops => (op.Inside s ∧ op.Safe s) ∧ ∀ t, pageStep s op = some t → Safely t ops

namespace Pages

def Owned (s : Pages) : Prop :=
  ∀ p, s.blocks.count (some p) + s.freed.count (some p) = if p < s.next then 1 else 0

def Clean (s : Pages) : Prop := none ∉ s.freed ∧ s.kept = true

/-- The table has got new pages, and nothing was freed. -/
structure Filled (s t : Pages) : Prop where
  owned : s.Owned → t.Owned
  freed : t.freed = s.freed
  kept : t.kept = s.kept
  size : t.size = s.size

end Pages

variable {room : Bool}

section Loops

variable {s t u : Pages} {i n left : Nat} {done : Bool}

namespace Pages

theorem Filled.refl (s : Pages) : s.Filled s := ⟨id, rfl, rfl, rfl⟩

theorem Filled.trans (h₁ : s.Filled t) (h₂ : t.Filled u) : s.Filled u :=
  ⟨fun h => h₂.owned (h₁.owned h), h₂.freed.trans h₁.freed, h₂.kept.trans h₁.kept, h₂.size.trans h₁.size⟩

theorem filled_allocAt (vfsBlocks : Nat) (hnull : s.blocks[i]? = some none) :
    s.Filled { s.allocAt i with vfsBlocks := vfsBlocks } := by
  refine ⟨fun howned p => ?_, rfl, rfl, rfl⟩
  obtain ⟨hi, hnone⟩ := List.getElem?_eq_some_iff.mp hnull
  have hold := howned p
  show (s.blocks.set i (some s.next)).count (some p) + s.freed.count (some p) = if p < s.next + 1 then 1 else 0
  rw [List.count_set hi, hnone]
  by_cases hp : p = s.next
  · subst hp
    simp at hold ⊢
    omega
  · rw [if_neg (by simp), if_neg (by simpa using Ne.symm hp), Nat.sub_zero, Nat.add_zero, hold]
    split_ifs <;> omega

theorem extend_spec (hextend : s.extend room n = some t) :
    s.Filled t ∧ t.vfsBlocks = s.vfsBlocks ∧ (∀ j : Nat, t.blocks[j]?.join = s.blocks[j]?.join) ∧
      (t.blocks.take n).countP isSome = (s.blocks.take n).countP isSome := by
  rw [extend] at hextend
  split_ifs at hextend
  · cases hextend
    exact ⟨.refl s, rfl, fun _ => rfl, rfl⟩
  · cases hextend
    refine ⟨⟨fun howned p => ?_, rfl, rfl, rfl⟩, rfl, join_append_replicate _ _, ?_⟩
    · rw [← howned p, count_append, count_replicate, if_neg (by simp), add_zero]
    · rw [take_append, countP_append, take_replicate, countP_replicate, if_neg (by simp), add_zero]

theorem extend_getD_spec (s : Pages) (room : Bool) (n : Nat) :
    s.Filled ((s.extend room n).getD s) ∧ ((s.extend room n).getD s).vfsBlocks = s.vfsBlocks ∧
      (∀ j : Nat, ((s.extend room n).getD s).blocks[j]?.join = s.blocks[j]?.join) ∧
      (((s.extend room n).getD s).blocks.take n).countP isSome = (s.blocks.take n).countP isSome := by
  cases hgrown : s.extend room n with
  | none => exact ⟨.refl s, rfl, fun _ => rfl, rfl⟩
  | some u => exact extend_spec hgrown

end Pages

theorem filled_pageLoop {remain o : Nat} (hloop : pageLoop n remain o i left s = some (done, t)) : s.Filled t := by
  induction n generalizing remain o i left s with
  | zero =>
    obtain ⟨-, rfl⟩ := Prod.mk.inj (some.inj hloop)
    exact .refl s
  | succ n ih =>
    rw [pageLoop] at hloop
    by_cases hremain : remain = 0
    · rw [if_pos hremain] at hloop
      obtain ⟨-, rfl⟩ := Prod.mk.inj (some.inj hloop)
      exact .refl s
    rw [if_neg hremain] at hloop
    obtain ⟨slot, hslot, hloop⟩ := bind_eq_some_iff.mp hloop
    cases slot with
    | some page => exact ih hloop
    | none =>
      split_ifs at hloop
      · obtain ⟨-, rfl⟩ := Prod.mk.inj (some.inj hloop)
        exact .refl s
      · exact (Pages.filled_allocAt _ hslot).trans (ih hloop)

theorem fillLoop_spec (hloop : fillLoop n i left s = some (done, t)) :
    s.Filled t ∧ t.vfsBlocks = s.vfsBlocks ∧
      (done = true ↔ n - ((s.blocks.drop i).take n).countP Option.isSome ≤ left) ∧
      (∀ j, j < i ∨ i + n ≤ j → t.blocks[j]? = s.blocks[j]?) ∧
      (done = true → ∀ j, i ≤ j → j < i + n → t.blocks[j]?.join ≠ none) := by
  induction n generalizing i left s with
  | zero =>
    obtain ⟨rfl, rfl⟩ := Prod.mk.inj (Option.some.inj hloop)
    exact ⟨.refl s, rfl, by simp, fun _ _ => rfl, fun _ j _ _ => by omega⟩
  | succ n ih =>
    obtain ⟨slot, hslot, hloop⟩ := Option.bind_eq_some_iff.mp hloop
    obtain ⟨hi, hslot'⟩ := List.getElem?_eq_some_iff.mp hslot
    have hle : ((s.blocks.drop (i + 1)).take n).countP Option.isSome ≤ n :=
      List.countP_le_length.trans (List.length_take_le ..)
    rw [List.drop_eq_getElem_cons hi, List.take_succ_cons, hslot']
    cases slot with
    | some page =>
      obtain ⟨hfilled, hvfs, hdone, hsame, hfull⟩ := ih hloop
      refine ⟨hfilled, hvfs, ?_, fun j hj => hsame j (by omega), fun h j hlow hhigh => ?_⟩
      · rw [hdone, List.countP_cons_of_pos rfl]
        omega
      · by_cases hj : j = i
        · rw [hj, hsame i (by omega), hslot]
          simp
        · exact hfull h j (by omega) (by omega)
    | none =>
      rw [List.countP_cons_of_neg (by simp)]
      split_ifs at hloop with hleft
      · obtain ⟨rfl, rfl⟩ := Prod.mk.inj (Option.some.inj hloop)
        exact ⟨.refl s, rfl, by simp; omega, fun _ _ => rfl, fun h => by cases h⟩
      · obtain ⟨hfilled, hvfs, hdone, hsame, hfull⟩ := ih hloop
        have hrest : ((s.allocAt i).blocks.drop (i + 1)) = s.blocks.drop (i + 1) :=
          List.drop_set_of_lt (Nat.lt_succ_self i)
        rw [hrest] at hdone
        refine ⟨(Pages.filled_allocAt _ hslot).trans hfilled, hvfs, ?_, fun j hj => ?_, fun h j hlow hhigh => ?_⟩
        · rw [hdone]
          omega
        · rw [hsame j (by omega)]
          exact List.getElem?_set_ne (by omega)
        · by_cases hj : j = i
          · rw [hj, hsame i (by omega), show (s.allocAt i).blocks[i]? = _ from List.getElem?_set_self hi]
            simp
          · exact hfull h j (by omega) (by omega)

theorem pageLoop_isSome_iff (left : Nat) {remain o : Nat} (hfuel : remain ≤ n) (ho : o < blocksize) :
    (pageLoop n remain o i left s).isSome = true ↔ remain = 0 ∨ i + (o + remain - 1) / blocksize < s.blocks.length ∨
      left < (s.blocks.drop i).countP Option.isNone := by
  rw [blocksize] at ho ⊢
  induction n generalizing remain o i left s with
  | zero =>
    obtain rfl := Nat.le_zero.mp hfuel
    exact iff_of_true rfl (.inl rfl)
  | succ n ih =>
    rw [pageLoop, blocksize]
    by_cases hremain : remain = 0
    · rw [if_pos hremain]
      exact iff_of_true rfl (.inl hremain)
    rw [if_neg hremain, or_iff_right hremain]
    cases hslot : s.blocks[i]? with
    | none =>
      have hout := List.getElem?_eq_none_iff.mp hslot
      rw [List.drop_eq_nil_of_le hout]
      exact iff_of_false nofun (by rw [List.countP_nil]; omega)
    | some slot =>
      obtain ⟨hi, hslot'⟩ := List.getElem?_eq_some_iff.mp hslot
      rw [List.drop_eq_getElem_cons hi, hslot']
      cases slot with
      | some page =>
        rw [List.countP_cons_of_neg (by simp)]
        refine (ih _ (by omega) (by omega)).trans ?_
        omega
      | none =>
        rw [List.countP_cons_of_pos rfl]
        dsimp only
        split_ifs with hleft
        · exact iff_of_true rfl (by omega)
        · have hlength : (s.allocAt i).blocks.length = s.blocks.length := List.length_set
          have hsame : (s.allocAt i).blocks.drop (i + 1) = s.blocks.drop (i + 1) :=
            List.drop_set_of_lt (Nat.lt_succ_self i)
          refine (ih _ (by omega) (by omega)).trans ?_
          dsimp only
          rw [hsame]
          omega

theorem fillLoop_isSome_iff (n left : Nat) (hi : i ≤ s.blocks.length) :
    (fillLoop n i left s).isSome = true ↔ i + n ≤ s.blocks.length ∨ left < (s.blocks.drop i).countP Option.isNone := by
  induction n generalizing i left s with
  | zero => exact iff_of_true rfl (.inl hi)
  | succ n ih =>
    rw [fillLoop]
    cases hslot : s.blocks[i]? with
    | none =>
      have hout := List.getElem?_eq_none_iff.mp hslot
      rw [List.drop_eq_nil_of_le hout]
      exact iff_of_false nofun (by rw [List.countP_nil]; omega)
    | some slot =>
      obtain ⟨hlt, hslot'⟩ := List.getElem?_eq_some_iff.mp hslot
      rw [List.drop_eq_getElem_cons hlt, hslot', Option.bind_some, Nat.add_comm n 1, ← Nat.add_assoc]
      cases slot with
      | some page =>
        exact ih _ hlt
      | none =>
        rw [List.countP_cons_of_pos rfl]
        split_ifs with hleft
        · exact iff_of_true rfl (by omega)
        · have hlength : (s.allocAt i).blocks.length = s.blocks.length := List.length_set
          have hsame : (s.allocAt i).blocks.drop (i + 1) = s.blocks.drop (i + 1) :=
            List.drop_set_of_lt (Nat.lt_succ_self i)
          rw [ih _ (hlength ▸ hlt), hsame, hlength]
          exact or_congr_right (by omega)

theorem dropLoop_isSome (hinside : ∀ j, i ≤ j → j < i + n → j < s.blocks.length) :
    (dropLoop n i s).isSome = true := by
  induction n generalizing i s with
  | zero => rfl
  | succ n ih =>
    have hi : i < s.blocks.length := hinside i le_rfl (by omega)
    rw [dropLoop, List.getElem?_eq_getElem hi]
    refine ih fun j hlow hhigh => ?_
    rw [List.length_set]
    exact hinside j (by omega) (by omega)

theorem dropLoop_spec (hloop : dropLoop n i s = some t) :
    (s.Owned → t.Owned) ∧ t.kept = s.kept ∧ t.next = s.next ∧
      (none ∈ t.freed ↔ none ∈ s.freed ∨ ∃ j, i ≤ j ∧ j < i + n ∧ s.blocks[j]?.join = none) ∧
      ∀ j, t.blocks[j]?.join = if i ≤ j ∧ j < i + n then none else s.blocks[j]?.join := by
  induction n generalizing i s with
  | zero =>
    cases hloop
    exact ⟨id, rfl, rfl, by simp; omega, fun j => by rw [if_neg (by omega)]⟩
  | succ n ih =>
    obtain ⟨page, hpage, hloop⟩ := Option.bind_eq_some_iff.mp hloop
    obtain ⟨hi, hpage'⟩ := List.getElem?_eq_some_iff.mp hpage
    obtain ⟨howned, hkept, hnext, hnull, hslots⟩ := ih hloop
    have hother (j : Nat) (hj : j ≠ i) : (s.blocks.set i none)[j]? = s.blocks[j]? :=
      List.getElem?_set_ne (Ne.symm hj)
    refine ⟨fun h => howned fun p => ?_, hkept, hnext, ?_, fun j => ?_⟩
    · have hold := h p
      have hpos : s.blocks[i] = some p → 0 < s.blocks.count (some p) := fun heq =>
        List.count_pos_iff.mpr (heq ▸ List.getElem_mem hi)
      rw [List.count_set hi, List.count_append, hpage'] at *
      by_cases hp : page = some p
      · have := hpos hp
        simp [hp]
        omega
      · simp [hp]
        omega
    · rw [hnull, List.mem_append, List.mem_singleton]
      constructor
      · rintro ((hmem | rfl) | ⟨j, hlow, hhigh, hj⟩)
        · exact .inl hmem
        · exact .inr ⟨i, le_rfl, by omega, by rw [hpage]; rfl⟩
        · exact .inr ⟨j, by omega, by omega, by rwa [hother j (by omega)] at hj⟩
      · rintro (hmem | ⟨j, hlow, hhigh, hj⟩)
        · exact .inl (.inl hmem)
        · by_cases hji : j = i
          · rw [hji, hpage] at hj
            exact .inl (.inr hj.symm)
          · exact .inr ⟨j, by omega, by omega, by rwa [hother j hji]⟩
    · rw [hslots]
      by_cases hji : j = i
      · rw [hji, if_neg (by omega), if_pos (by omega), List.getElem?_set_self hi]
        rfl
      · rw [hother j hji]
        exact if_congr (by omega) rfl rfl

end Loops

section Steps

variable {s t : Pages} {op : PageOp}

theorem cut_iff (s : Pages) (len : Nat) : s.cut len = true ↔ ∀ j, blocksNeeded len ≤ j → s.blocks[j]?.join = none := by
  rw [Pages.cut, decide_eq_true_iff]
  refine ⟨fun hcut j hneeded => ?_, fun hcut j _ => hcut j⟩
  by_cases hj : j < s.blocks.length
  · exact hcut j hj hneeded
  · rw [getElem?_eq_none (not_lt.mp hj), join_none]

theorem writePages_spec {offset count left : Nat} (hcall : writePages s offset count left room = some t) :
    (s.Owned → t.Owned) ∧ t.freed = s.freed ∧ t.kept = s.kept := by
  rw [writePages] at hcall
  split at hcall
  · cases hcall
    exact ⟨id, rfl, rfl⟩
  · rename_i u hgrown
    have hfilled : s.Filled u := by
      rw [Pages.growTo] at hgrown
      split_ifs at hgrown
      · exact (Pages.extend_spec hgrown).1
      · cases hgrown
        exact .refl s
    obtain ⟨⟨done, v⟩, hloop, rfl⟩ := map_eq_some_iff.mp hcall
    have hall := hfilled.trans (filled_pageLoop hloop)
    cases done <;> exact ⟨hall.owned, hall.freed, hall.kept⟩

theorem truncatePages_spec {len left : Nat} (hcall : truncatePages s len left room = some t) :
    (s.Owned → t.Owned) ∧ (t.Clean ↔ s.Clean ∧ PageOp.Safe s (.truncate len left room)) := by
  obtain ⟨⟨done, v⟩, hloop, hcall⟩ := bind_eq_some_iff.mp hcall
  obtain ⟨hfilled, hvfs, hslots, hcount⟩ := Pages.extend_getD_spec s room (newBlockCount len)
  obtain ⟨hfilled', hvfs', hdone, hsame, hfull⟩ := fillLoop_spec hloop
  have hall := hfilled.trans hfilled'
  rw [zero_add] at hsame hfull
  rw [drop_zero, hcount] at hdone
  cases done with
  | false =>
    cases hcall
    refine ⟨hall.owned, ?_⟩
    rw [Pages.Clean, hall.freed, hall.kept]
    exact (and_iff_left fun hle => absurd (hdone.mpr hle) Bool.false_ne_true).symm
  | true =>
    obtain ⟨w, hdrop, rfl⟩ := map_eq_some_iff.mp hcall
    obtain ⟨howned, hkept, -, hnull, hcut⟩ := dropLoop_spec hdrop
    refine ⟨fun h => howned (hall.owned h), ?_⟩
    have hsafe : PageOp.Safe s (.truncate len left room) ↔
        (∀ i, newBlockCount len ≤ i → i < s.vfsBlocks → s.blocks[i]?.join ≠ none) ∧
        (len < s.size → ∀ i, blocksNeeded len ≤ i →
          newBlockCount len ≤ i ∧ (i < s.vfsBlocks ∨ s.blocks[i]?.join = none)) :=
      ⟨fun h => h (hdone.mp rfl), fun h _ => h⟩
    have hold (j : Nat) (hj : newBlockCount len ≤ j) : v.blocks[j]?.join = s.blocks[j]?.join := by
      rw [hsame j (.inr hj), hslots]
    have hfreed : none ∈ w.freed ↔ none ∈ s.freed ∨
        ¬ ∀ i, newBlockCount len ≤ i → i < s.vfsBlocks → s.blocks[i]?.join ≠ none := by
      rw [hnull, hall.freed]
      refine or_congr_right ?_
      push Not
      refine exists_congr fun j => and_congr_right fun hj => ?_
      rw [hold j hj]
      exact and_congr_left fun _ => by omega
    have hgone (j : Nat) : w.blocks[j]?.join = none ↔
        newBlockCount len ≤ j ∧ (j < s.vfsBlocks ∨ s.blocks[j]?.join = none) := by
      rw [hcut]
      by_cases hj : newBlockCount len ≤ j
      · rw [hold j hj]
        split_ifs with hin
        · exact iff_of_true rfl ⟨hj, .inl (by omega)⟩
        · rw [and_iff_right hj, or_iff_right (by omega)]
      · rw [if_neg (by omega)]
        exact iff_of_false (hfull rfl j (Nat.zero_le j) (by omega)) fun h => hj h.1
    rw [hsafe, Pages.Clean]
    rw [hfreed, hkept, hall.kept, Bool.and_eq_true, Bool.or_eq_true, decide_eq_true_iff, cut_iff, not_or, not_not,
      ← not_lt, ← imp_iff_not_or]
    simp only [hgone]
    exact and_and_and_comm

theorem pageStep_spec (hstep : pageStep s op = some t) : (s.Owned → t.Owned) ∧ (t.Clean ↔ s.Clean ∧ op.Safe s) := by
  cases op with
  | write offset count left room =>
    obtain ⟨howned, hfreed, hkept⟩ := writePages_spec hstep
    exact ⟨howned, by rw [Pages.Clean, hfreed, hkept]; exact (and_iff_left trivial).symm⟩
  | truncate len left room => exact truncatePages_spec hstep
  | reread =>
    cases hstep
    exact ⟨id, (and_iff_left trivial).symm⟩

theorem settled_iff (howned : s.Owned) : s.Settled ↔ s.Clean := by
  have hnull : none ∉ s.freeInode.freed ↔ none ∉ s.freed := by simp [Pages.freeInode]
  refine ⟨fun h => ⟨hnull.mp h.null, h.kept⟩, fun h => ⟨fun p hp => ?_, hnull.mpr h.1, h.2⟩⟩
  have hpage := howned p
  rw [if_pos hp] at hpage
  rw [Pages.freeInode, count_append, count_filter rfl, ← hpage, add_comm]

theorem writePages_isSome_iff {offset count left : Nat} :
    (writePages s offset count left room).isSome = true ↔ PageOp.Inside s (.write offset count left room) := by
  rw [writePages, PageOp.Inside]
  cases hgrown : s.growTo room ((offset + count) % 2 ^ 64 / blocksize) with
  | none => exact iff_of_true rfl (.inr (.inr nofun))
  | some u =>
    have hlength : (offset + count) % 2 ^ 64 / blocksize < u.blocks.length := by
      rw [Pages.growTo, Pages.extend] at hgrown
      split_ifs at hgrown
      all_goals
        cases hgrown
        try simp only [length_append, length_replicate]
        omega
    have hloop := pageLoop_isSome_iff (s := u) (i := offset / blocksize) left (le_refl count)
      (Nat.mod_lt offset (by decide : 0 < blocksize))
    simp only [Option.isSome_map, hloop, some.injEq, forall_eq']
    rw [blocksize] at hlength ⊢
    omega

theorem pageStep_isSome_iff (hsafe : op.Safe s) : (pageStep s op).isSome = true ↔ op.Inside s := by
  cases op with
  | write offset count left room => exact writePages_isSome_iff
  | reread => exact iff_of_true rfl trivial
  | truncate len left room =>
    rw [pageStep, truncatePages, PageOp.Inside]
    obtain ⟨-, hvfs, hslots, hcount⟩ := Pages.extend_getD_spec s room (newBlockCount len)
    have hreach : newBlockCount len ≤ s.blocks.length ∨ room = true ∨ left < s.blocks.countP isNone ↔
        newBlockCount len ≤ ((s.extend room (newBlockCount len)).getD s).blocks.length ∨
          left < ((s.extend room (newBlockCount len)).getD s).blocks.countP isNone := by
      rw [Pages.extend]
      split_ifs with hlength hroom
      · exact iff_of_true (.inl hlength) (.inl hlength)
      · refine iff_of_true (.inr (.inl hroom)) (.inl ?_)
        simp only [getD_some, length_append, length_replicate]
        omega
      · rw [getD_none, or_iff_right hroom]
    have hfill := fillLoop_isSome_iff (newBlockCount len) left
      (Nat.zero_le ((s.extend room (newBlockCount len)).getD s).blocks.length)
    rw [zero_add, drop_zero] at hfill
    rw [hreach, ← hfill]
    generalize (s.extend room (newBlockCount len)).getD s = u at hvfs hslots hcount
    cases hloop : fillLoop (newBlockCount len) 0 left u with
    | none => exact Iff.rfl
    | some r =>
      obtain ⟨done, v⟩ := r
      obtain ⟨-, hvfs', hdone, hsame, -⟩ := fillLoop_spec hloop
      cases done with
      | false => exact Iff.rfl
      | true =>
        refine iff_of_true ?_ rfl
        rw [drop_zero, hcount] at hdone
        refine isSome_map.trans (dropLoop_isSome fun j hlow hhigh => ?_)
        have hthere := (hsafe (hdone.mp rfl)).1 j hlow (by omega)
        rw [← hslots, ← hsame j (by omega)] at hthere
        by_contra hout
        exact hthere (by rw [getElem?_eq_none (not_lt.mp hout), join_none])

theorem exists_clean_iff (s : Pages) (ops : List PageOp) :
    (∃ t, Run pageStep (fun _ _ => True) s ops t ∧ t.Clean) ↔ s.Clean ∧ Safely s ops := by
  induction ops generalizing s with
  | nil =>
    rw [Safely, and_true]
    constructor
    · rintro ⟨t, hrun, hclean⟩
      cases hrun
      exact hclean
    · exact fun hclean => ⟨s, .nil s, hclean⟩
  | cons op ops ih =>
    constructor
    · rintro ⟨t, hrun, hclean⟩
      cases hrun with
      | cons _ hstep hrest =>
        obtain ⟨hmid, hsafely⟩ := (ih _).mp ⟨t, hrest, hclean⟩
        obtain ⟨hs, hsafe⟩ := (pageStep_spec hstep).2.mp hmid
        refine ⟨hs, ⟨(pageStep_isSome_iff hsafe).mp (by rw [hstep]; rfl), hsafe⟩, fun u hu => ?_⟩
        rwa [← some.inj (hstep.symm.trans hu)]
    · rintro ⟨hs, ⟨hinside, hsafe⟩, hsafely⟩
      obtain ⟨u, hstep⟩ := isSome_iff_exists.mp ((pageStep_isSome_iff hsafe).mpr hinside)
      obtain ⟨t, hrest, hclean⟩ := (ih u).mpr ⟨(pageStep_spec hstep).2.mpr ⟨hs, hsafe⟩, hsafely u hstep⟩
      exact ⟨t, .cons trivial hstep hrest, hclean⟩

end Steps

/-- A run frees every page once and never NULL, and leaves no block behind the end, if and only if each call stays
inside the table, and each truncation finds the blocks that it drops, and no others behind them. -/
theorem page_ownership (ops : List PageOp) :
    (∃ s, Run pageStep (fun _ _ => True) .new ops s ∧ s.Settled) ↔ Safely .new ops := by
  have hnew : Pages.new.Owned ∧ Pages.new.Clean := ⟨fun _ => rfl, by decide, rfl⟩
  have howned {s : Pages} (hrun : Run pageStep (fun _ _ => True) .new ops s) : s.Owned :=
    hrun.invariant Pages.Owned (fun _ _ _ h _ hstep => (pageStep_spec hstep).1 h) hnew.1
  refine Iff.trans ?_ ((exists_clean_iff .new ops).trans (and_iff_right hnew.2))
  exact exists_congr fun s => and_congr_right fun hrun => settled_iff (howned hrun)

/-- A file with one block behind a hole is truncated to nothing: the hole is freed and the block stays. -/
theorem hole_freed : ∃ s, Run pageStep (fun _ _ => True) .new
    [.write 8192 1 1 true, .write 12288 1 1 true, .truncate 0 1 true] s ∧ none ∈ s.freed ∧ s.kept = false := by
  apply exists_run_of_replay
  decide

end Kairax.Tmpfs
