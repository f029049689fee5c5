import Kairax.Ext2.Image
import Mathlib.Tactic.IntervalCases

/-!
# The block map of an inode

`ext2_inode_block_absolute` reads the tree of an inode and `ext2_inode_add_block` extends it, each with its own
arithmetic. `pathOf` is the path that both mean. In the triple indirect range the writer stops after the first
indirect block of the third level, and writes the block below the triple indirect root into the double indirect root.
-/

namespace Kairax.Ext2

open Lib List Option BitVec

/-- `tmp[j]` of a block that was read into a buffer of one block. -/
def Inst.word (inst : Inst) (b j : Nat) : Option Nat :=
  if j < inst.blockSize / 4 then some (words inst.disk b j) else none

/-- `ext2_inode_block_absolute` -/
def inodeBlockAbsolute (inst : Inst) (ino : Buf) (i : BitVec 32) : Option Nat :=
  let level := BitVec.ofNat 32 (inst.blockSize / 4)
  let a := i - 12#32
  let b := a - level
  let c := b - level * level
  let d := c - level * level * level
  if i < 12#32 then some (Inode.block ino i.toNat)
  else if b.slt 0#32 then
    if Inode.block ino 12 = 0 then some 0 else inst.word (Inode.block ino 12) a.toNat
  else if c.slt 0#32 then
    if Inode.block ino 13 = 0 then some 0
    else (inst.word (Inode.block ino 13) (b / level).toNat).bind fun x =>
      if x = 0 then some 0 else inst.word x (b - b / level * level).toNat
  else if d.slt 0#32 then
    let e := c / (level * level)
    let f := (c - e * level * level) / level
    let g := c - e * level * level - f * level
    if Inode.block ino 14 = 0 then some 0
    else (inst.word (Inode.block ino 14) e.toNat).bind fun x =>
      if x = 0 then some 0
      else (inst.word x f.toNat).bind fun y => if y = 0 then some 0 else inst.word y g.toNat
  else some 0

/-- `inode->num_blocks += block_size / 512` -/
def addNumBlocks (inst : Inst) (ino : Buf) : Buf :=
  Inode.setNumBlocks ino (Inode.numBlocks ino + inst.blockSize / 512)

/-- An indirect block of the inode itself, allocated where there is none, with its number in a variable of so many bits.
-/
def ensureRoot (inst : Inst) (ino : Buf) (n s bits : Nat) : Option (Bool × Inst × Buf) :=
  if Inode.block ino s ≠ 0 then some (true, inst, ino)
  else (allocBlock inst).map fun (b, inst) =>
    if b % 2 ^ bits = 0 then (false, inst, ino)
    else
      let ino := addNumBlocks inst (Inode.setBlock ino s (b % 2 ^ bits))
      (true, inst.writeInodeMetadata ino n, ino)

/-- The indirect block in entry `j` of the block `t`, allocated where there is none and written to the block `dest`. -/
def ensureChild (inst : Inst) (ino : Buf) (t j dest : Nat) : Option (Option Nat × Inst × Buf) :=
  (inst.word t j).bind fun x =>
    if x ≠ 0 then some (some x, inst, ino)
    else (allocBlock inst).map fun (b, inst') =>
      if b = 0 then (none, inst', ino)
      else
        let buf := writeLE (inst.disk t) (4 * j) 4 b
        (some (readLE buf (4 * j) 4), inst'.writeBlock dest buf, addNumBlocks inst' ino)

/-- The number of a block goes into entry `j` of the block `t`. -/
def setEntry (inst : Inst) (t j abs : Nat) : Option Inst :=
  if j < inst.blockSize / 4 then some (inst.writeBlock t (writeLE (inst.disk t) (4 * j) 4 abs)) else none

/-- `ext2_inode_add_block`: returns 1, -2 when there is no free block and -1 when the index is too large. -/
def inodeAddBlock (inst : Inst) (ino : Buf) (n abs : Nat) (i : BitVec 32) : Option (Int × Inst × Buf) :=
  let level := BitVec.ofNat 32 (inst.blockSize / 4)
  let a := i - 12#32
  let b := a - level
  let c := b - level * level
  if i < 12#32 then some (1, inst, Inode.setBlock ino i.toNat abs)
  else if i < 12#32 + level then
    (ensureRoot inst ino n 12 32).bind fun
      | (false, inst, ino) => some (-2, inst, ino)
      | (true, inst, ino) =>
        (setEntry inst (Inode.block ino 12) a.toNat abs).map fun inst => (1, inst, ino)
  else if i < 12#32 + level + level * level then
    (ensureRoot inst ino n 13 64).bind fun
      | (false, inst, ino) => some (-2, inst, ino)
      | (true, inst, ino) =>
        (ensureChild inst ino (Inode.block ino 13) (b / level).toNat (Inode.block ino 13)).bind fun
          | (none, inst, ino) => some (-2, inst, ino)
          | (some saved, inst, ino) =>
            (setEntry inst saved (b - b / level * level).toNat abs).map fun inst => (1, inst, ino)
  else if i < 12#32 + level + level * level + level then
    let d := c / (level * level)
    let e := c - d * level * level
    let f := e / level
    let g := e - f * level
    (ensureRoot inst ino n 14 64).bind fun
      | (false, inst, ino) => some (-2, inst, ino)
      | (true, inst, ino) =>
        -- the source names the double indirect root here
        (ensureChild inst ino (Inode.block ino 14) d.toNat (Inode.block ino 13)).bind fun
          | (none, inst, ino) => some (-2, inst, ino)
          | (some saved, inst, ino) =>
            (ensureChild inst ino saved f.toNat saved).bind fun
              | (none, inst, ino) => some (-2, inst, ino)
              | (some saved, inst, ino) =>
                (setEntry inst saved g.toNat abs).map fun inst => (1, inst, ino)
  else some (-1, inst, ino)

/-- The blocks below the triple indirect root that the reader can tell apart, in 32 bits. -/
def tripleSpan (L : Nat) : Nat := L * L * L % 2 ^ 32

def readable (L : Nat) : Nat := 12 + L + L * L + tripleSpan L

def pathOf (L i : Nat) : List Nat :=
  if i < 12 then [i]
  else if i < 12 + L then [12, i - 12]
  else if i < 12 + L + L * L then [13, (i - 12 - L) / L, (i - 12 - L) % L]
  else
    let c := i - 12 - L - L * L
    [14, c / (L * L), c % (L * L) / L, c % (L * L) % L]

/-- The number of entries of a block on a regular volume. -/
structure Entries (L : Nat) : Prop where
  ge : 256 ≤ L
  square_le : L * L ≤ 2 ^ 28
  le_square : L ≤ L * L
  cube : tripleSpan L = 0 ∨ tripleSpan L = L * L * L ∧ L * L * L ≤ 2 ^ 30

theorem entries_of_sized {bs : Nat} (hsized : ∃ k ≤ 6, bs = 1024 * 2 ^ k) : Entries (bs / 4) := by
  obtain ⟨k, hk, hsize⟩ := hsized
  rw [hsize]
  interval_cases k <;> exact ⟨by decide, by decide, by decide, by decide⟩

theorem Geo.Regular.entries {G : Geo} (hreg : G.Regular) : Entries (G.blockSize / 4) := entries_of_sized hreg.sized

variable {j : Nat} {p : List Nat}

section Arithmetic

variable {L i : Nat}

theorem sub_slt_zero {x y : BitVec 32} (hx : x.toNat < 2 ^ 31) (hy : y.toNat < 2 ^ 31) :
    (x - y).slt 0#32 = decide (x.toNat < y.toNat) := by
  rw [slt_eq_decide, toInt_zero, decide_eq_decide, toInt_eq_toNat_cond, toNat_sub]
  split_ifs <;> omega

theorem toNat_sub_of_ge {x y : BitVec 32} (hle : y.toNat ≤ x.toNat) : (x - y).toNat = x.toNat - y.toNat :=
  toNat_sub_of_le (le_def.mpr hle)

theorem toNat_sub_div_mul (x y : BitVec 32) : (x - x / y * y).toNat = x.toNat % y.toNat := by
  have hle := Nat.div_mul_le_self x.toNat y.toNat
  have hmul : (x / y * y).toNat = x.toNat / y.toNat * y.toNat := by
    exact Nat.mod_eq_of_lt (hle.trans_lt x.isLt)
  have hsplit := Nat.div_add_mod' x.toNat y.toNat
  rw [toNat_sub_of_ge (hmul ▸ hle)]
  omega

variable (hent : Entries L)

include hent

theorem Entries.toNat_level : (BitVec.ofNat 32 L).toNat = L := by
  have := hent.square_le
  have := hent.le_square
  exact Nat.mod_eq_of_lt (by omega)

theorem Entries.toNat_square : (BitVec.ofNat 32 L * BitVec.ofNat 32 L).toNat = L * L := by
  have := hent.square_le
  rw [BitVec.toNat_mul, hent.toNat_level]
  exact Nat.mod_eq_of_lt (by omega)

theorem Entries.toNat_cube : (BitVec.ofNat 32 L * BitVec.ofNat 32 L * BitVec.ofNat 32 L).toNat = tripleSpan L := by
  rw [BitVec.toNat_mul, hent.toNat_square, hent.toNat_level]
  rfl

theorem Entries.readable_lt : readable L < 2 ^ 31 := by
  have := hent.square_le
  have := hent.le_square
  obtain hzero | ⟨hcube, hle⟩ := hent.cube
  · rw [readable]
    omega
  · rw [readable, hcube]
    omega

omit hent

section Offsets

variable {i : BitVec 32}

theorem toNat_single (hlow : 12 ≤ i.toNat) : (i - 12#32).toNat = i.toNat - 12 := toNat_sub_of_ge hlow

variable (hent : Entries L)

include hent

theorem Entries.toNat_double (hlow : 12 + L ≤ i.toNat) : (i - 12#32 - BitVec.ofNat 32 L).toNat = i.toNat - 12 - L := by
  have ha := toNat_single (i := i) (by omega)
  have hlevel := hent.toNat_level
  rw [toNat_sub_of_ge (by omega), ha, hlevel]

theorem Entries.toNat_triple (hlow : 12 + L + L * L ≤ i.toNat) :
    (i - 12#32 - BitVec.ofNat 32 L - BitVec.ofNat 32 L * BitVec.ofNat 32 L).toNat = i.toNat - 12 - L - L * L := by
  have hb := hent.toNat_double (i := i) (by omega)
  have hsquare := hent.toNat_square
  rw [toNat_sub_of_ge (by omega), hb, hsquare]

theorem Entries.slt_single (hlow : 12 ≤ i.toNat) (hhigh : i.toNat < 2 ^ 31) :
    (i - 12#32 - BitVec.ofNat 32 L).slt 0#32 = decide (i.toNat < 12 + L) := by
  have ha := toNat_single hlow
  have hlevel := hent.toNat_level
  have := hent.square_le
  have := hent.le_square
  rw [sub_slt_zero (by omega) (by omega), decide_eq_decide]
  omega

theorem Entries.slt_double (hlow : 12 + L ≤ i.toNat) (hhigh : i.toNat < 2 ^ 31) :
    (i - 12#32 - BitVec.ofNat 32 L - BitVec.ofNat 32 L * BitVec.ofNat 32 L).slt 0#32 =
      decide (i.toNat < 12 + L + L * L) := by
  have hb := hent.toNat_double hlow
  have hsquare := hent.toNat_square
  have := hent.square_le
  rw [sub_slt_zero (by omega) (by omega), decide_eq_decide]
  omega

theorem Entries.slt_triple (hlow : 12 + L + L * L ≤ i.toNat) (hhigh : i.toNat < 2 ^ 31) :
    (i - 12#32 - BitVec.ofNat 32 L - BitVec.ofNat 32 L * BitVec.ofNat 32 L -
      BitVec.ofNat 32 L * BitVec.ofNat 32 L * BitVec.ofNat 32 L).slt 0#32 = decide (i.toNat < readable L) := by
  have hc := hent.toNat_triple hlow
  have hcube := hent.toNat_cube
  have hlt := hent.readable_lt
  rw [readable] at hlt ⊢
  rw [sub_slt_zero (by omega) (by omega), decide_eq_decide]
  omega

end Offsets

theorem isLeaf_pathOf (L i : Nat) : IsLeaf (pathOf L i) := by
  rw [pathOf]
  split_ifs with hdirect <;> simp [IsLeaf]
  omega

include hent

theorem Entries.isPath_pathOf (hi : i < 12 + L + L * L + L * L * L) : IsPath L (pathOf L i) := by
  have hpos : 0 < L := by
    have := hent.ge
    omega
  rw [pathOf]
  split_ifs with hdirect hsingle hdouble
  · exact ⟨by omega, Nat.zero_le _, by simp⟩
  · refine ⟨by decide, le_rfl, fun j hj => ?_⟩
    rw [mem_singleton] at hj
    omega
  · refine ⟨by decide, le_rfl, fun j hj => ?_⟩
    rw [mem_pair] at hj
    cases hj with
    | inl hj => exact hj ▸ Nat.div_lt_of_lt_mul (by omega)
    | inr hj => exact hj ▸ Nat.mod_lt _ hpos
  · refine ⟨by decide, le_rfl, fun j hj => ?_⟩
    have hmod := Nat.mod_lt (i - 12 - L - L * L) (mul_pos hpos hpos)
    simp only [mem_cons, not_mem_nil, or_false] at hj
    obtain hj | hj | hj := hj
    · exact hj ▸ Nat.div_lt_of_lt_mul (by omega)
    · exact hj ▸ Nat.div_lt_of_lt_mul hmod
    · exact hj ▸ Nat.mod_lt _ hpos

theorem Entries.isPath_of_readable (hi : i < readable L) : IsPath L (pathOf L i) := by
  apply hent.isPath_pathOf
  rw [readable] at hi
  obtain hzero | ⟨hcube, -⟩ := hent.cube
  · omega
  · omega

omit hent

theorem pathOf_injective (heq : pathOf L i = pathOf L j) : i = j := by
  rw [pathOf, pathOf] at heq
  have hsquare (x y : Nat) (hdiv : x / L = y / L) (hmod : x % L = y % L) : x = y := by
    rw [← Nat.div_add_mod x L, ← Nat.div_add_mod y L, hdiv, hmod]
  split_ifs at heq <;> simp only [cons.injEq, and_true, true_and] at heq
  all_goals first
    | omega
    | skip
  · have := hsquare _ _ heq.1 heq.2
    omega
  · obtain ⟨htop, hmid, hlow⟩ := heq
    have hrest := hsquare _ _ hmid hlow
    have : i - 12 - L - L * L = j - 12 - L - L * L := by
      rw [← Nat.div_add_mod (i - 12 - L - L * L) (L * L), ← Nat.div_add_mod (j - 12 - L - L * L) (L * L), htop, hrest]
    omega

end Arithmetic

section Reader

variable {inst : Inst} {ino : Buf} {disk : Nat → Buf} {L : Nat}

def numberAt (ino : Buf) (disk : Nat → Buf) (q : List Nat) : Nat := (blockAt ino disk q).getD 0

theorem getD_child (e : Nat) : (child e).getD 0 = e := by
  rw [child]
  split_ifs with hzero
  · exact hzero.symm
  · rfl

theorem numberAt_singleton (ino : Buf) (disk : Nat → Buf) (s : Nat) : numberAt ino disk [s] = Inode.block ino s := by
  rw [numberAt, blockAt_singleton, getD_child]

theorem numberAt_concat (hne : p ≠ []) (j : Nat) :
    numberAt ino disk (p ++ [j]) = if numberAt ino disk p = 0 then 0 else words disk (numberAt ino disk p) j := by
  rw [numberAt, numberAt]
  cases hp : blockAt ino disk p with
  | none => rw [blockAt_concat_none hne hp, getD_none, if_pos rfl]
  | some t => rw [blockAt_concat hp, getD_some, if_neg (blockAt_ne_zero hp), getD_child]

theorem word_numberAt (hne : p ≠ []) (hj : j < inst.blockSize / 4) :
    (if numberAt ino inst.disk p = 0 then some 0 else inst.word (numberAt ino inst.disk p) j) =
      some (numberAt ino inst.disk (p ++ [j])) := by
  rw [numberAt_concat hne, Inst.word]
  split_ifs <;> rfl

theorem word_bind_numberAt (hne : p ≠ []) (hj : j < inst.blockSize / 4) (next : Nat → Option Nat)
    (hnext : next 0 = some 0) :
    (if numberAt ino inst.disk p = 0 then some 0 else (inst.word (numberAt ino inst.disk p) j).bind next) =
      next (numberAt ino inst.disk (p ++ [j])) := by
  rw [numberAt_concat hne, Inst.word, if_pos hj]
  split_ifs
  · exact hnext.symm
  · rfl

theorem inodeBlockAbsolute_eq (hent : Entries (inst.blockSize / 4)) {i : BitVec 32}
    (hi : i.toNat < readable (inst.blockSize / 4)) :
    inodeBlockAbsolute inst ino i = some (numberAt ino inst.disk (pathOf (inst.blockSize / 4) i.toNat)) := by
  have hpath := hent.isPath_of_readable hi
  have hlt := hi.trans hent.readable_lt
  rw [inodeBlockAbsolute]
  rw [pathOf] at hpath ⊢
  generalize hL : inst.blockSize / 4 = L at *
  dsimp only
  by_cases hdirect : i.toNat < 12
  · rw [if_pos (BitVec.lt_def.mpr hdirect), if_pos hdirect, numberAt_singleton]
  have hlow := not_lt.mp hdirect
  rw [if_neg hdirect] at hpath
  rw [if_neg fun h => hdirect (BitVec.lt_def.mp h), if_neg hdirect, hent.slt_single hlow hlt]
  by_cases hsingle : i.toNat < 12 + L
  · rw [if_pos (decide_eq_true hsingle), if_pos hsingle, toNat_single hlow, ← numberAt_singleton ino inst.disk 12]
    exact word_numberAt (cons_ne_nil 12 []) (by omega)
  have hlow := not_lt.mp hsingle
  rw [if_neg hsingle] at hpath
  rw [if_neg (mt of_decide_eq_true hsingle), if_neg hsingle, hent.slt_double hlow hlt]
  by_cases hdouble : i.toNat < 12 + L + L * L
  · rw [if_pos hdouble] at hpath
    have hfirst := hpath.2.2 _ (mem_cons_self ..)
    have hsecond := hpath.2.2 _ (mem_cons_of_mem _ (mem_singleton_self _))
    rw [if_pos (decide_eq_true hdouble), if_pos hdouble, toNat_sub_div_mul, BitVec.toNat_udiv, hent.toNat_double hlow,
      hent.toNat_level, ← numberAt_singleton ino inst.disk 13]
    refine (word_bind_numberAt (cons_ne_nil 13 []) (hfirst.trans_eq hL.symm) _ (if_pos rfl)).trans ?_
    exact word_numberAt (cons_ne_nil 13 _) (hsecond.trans_eq hL.symm)
  have hlow := not_lt.mp hdouble
  rw [if_neg hdouble] at hpath
  rw [if_neg (mt of_decide_eq_true hdouble), if_neg hdouble, hent.slt_triple hlow hlt, if_pos (decide_eq_true hi)]
  have hc := hent.toNat_triple hlow
  generalize i - 12#32 - BitVec.ofNat 32 L - BitVec.ofNat 32 L * BitVec.ofNat 32 L = c at hc ⊢
  have hfirst := hpath.2.2 _ (mem_cons_self ..)
  have hsecond := hpath.2.2 _ (mem_cons_of_mem _ (mem_cons_self ..))
  have hthird := hpath.2.2 _ (mem_cons_of_mem _ (mem_cons_of_mem _ (mem_singleton_self _)))
  rw [BitVec.mul_assoc (c / _), toNat_sub_div_mul, BitVec.toNat_udiv, BitVec.toNat_udiv, toNat_sub_div_mul, hc,
    hent.toNat_level, hent.toNat_square, ← numberAt_singleton ino inst.disk 14]
  refine (word_bind_numberAt (cons_ne_nil 14 []) (hfirst.trans_eq hL.symm) _ (if_pos rfl)).trans ?_
  refine (word_bind_numberAt (cons_ne_nil 14 _) (hsecond.trans_eq hL.symm) _ (if_pos rfl)).trans ?_
  exact word_numberAt (cons_ne_nil 14 _) (hthird.trans_eq hL.symm)

theorem inodeBlockAbsolute_beyond (hent : Entries (inst.blockSize / 4)) {i : BitVec 32}
    (hlow : readable (inst.blockSize / 4) ≤ i.toNat) (hhigh : i.toNat < 2 ^ 31) :
    inodeBlockAbsolute inst ino i = some 0 := by
  have hbeyond := not_lt.mpr hlow
  rw [readable] at hlow
  rw [inodeBlockAbsolute]
  rw [if_neg fun h => absurd (BitVec.lt_def.mp h) (show ¬ i.toNat < 12 by omega), hent.slt_single (by omega) hhigh,
    if_neg (mt of_decide_eq_true (by omega)), hent.slt_double (by omega) hhigh,
    if_neg (mt of_decide_eq_true (by omega)),
    hent.slt_triple (by omega) hhigh, if_neg (mt of_decide_eq_true hbeyond)]

end Reader

end Kairax.Ext2
