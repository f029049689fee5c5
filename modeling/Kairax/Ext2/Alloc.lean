import Kairax.Ext2.Disk
import Kairax.Lib.Run
import Mathlib.Algebra.BigOperators.Group.Finset.Basic
import Mathlib.Algebra.Order.BigOperators.Group.Finset

/-!
# Allocation of blocks and inodes

Each group has bitmaps for its blocks and inodes, and counters of the clear bits are kept in its descriptor and in the
superblock. `Counted` says that the counters are right, which keeps the unbounded scan of `ext2_alloc_block` inside
its buffer. `Toggled` is what allocation and release do to one bit and two counters.
-/

namespace Kairax.Ext2

open Lib Option Finset
open Nat (mod_lt zero_le)

/-- The group loop of `ext2_alloc_block`: the group and the bit of a free block. The scan is undefined when there is no
clear bit in the buffer. -/
def findFreeBlock (inst : Inst) : Nat → Nat → Option (Option (Nat × Nat))
  | 0, _ => some none
  | fuel + 1, g =>
    if 0 < inst.groupFree .block g then
      match firstClear (inst.disk (inst.blockBitmap g)) (8 * inst.blockSize) 0 with
      | none => none
      | some i => if inst.blocksPerGroup ≤ i then findFreeBlock inst fuel (g + 1) else some (some (g, i))
    else findFreeBlock inst fuel (g + 1)

/-- The part of `ext2_alloc_block` after the search. -/
def takeBlock (inst : Inst) (g i : Nat) : Inst :=
  (((((inst.writeBlock (inst.blockBitmap g) (setBit (inst.disk (inst.blockBitmap g)) i)).addGroupFree
    .block g (2 ^ 16 - 1)).writeBgds).addSuperFree .block (2 ^ 32 - 1)).rewriteSuperblock).writeBlock
    (g * inst.blocksPerGroup + i) fun _ => 0

/-- `ext2_alloc_block`: the number of a zeroed block, 0 when there is none. -/
def allocBlock (inst : Inst) : Option (Nat × Inst) :=
  (findFreeBlock inst inst.totalGroups 0).map fun
    | none => (0, inst.exhaust)
    | some (g, i) =>
      if g * inst.blocksPerGroup + i = 0 then (0, inst.exhaust)
      else (g * inst.blocksPerGroup + i, takeBlock inst g i)

/-- `ext2_free_block` -/
def freeBlock (inst : Inst) (b : Nat) : Option Inst :=
  let i := b % inst.blocksPerGroup
  let g := b / inst.blocksPerGroup
  if i / 8 < inst.blockSize then
    some (((inst.writeBlock (inst.blockBitmap g) (clearBit (inst.disk (inst.blockBitmap g)) i)).addGroupFree
      .block g 1).addSuperFree .block 1)
  else none

/-- The bit loop of `ext2_alloc_inode` over one word of a bitmap. -/
def firstFreeBit (word : Nat) : Nat → Nat → Option Nat
  | 0, _ => none
  | fuel + 1, k => if word.testBit k then firstFreeBit word fuel (k + 1) else some k

/-- The word loop of `ext2_alloc_inode` over one bitmap. -/
def firstFreeWord (buf : Buf) : Nat → Nat → Option (Nat × Nat)
  | 0, _ => none
  | fuel + 1, j =>
    match firstFreeBit (readLE buf (4 * j) 4) 32 0 with
    | some k => some (j, k)
    | none => firstFreeWord buf fuel (j + 1)

/-- The group loop of `ext2_alloc_inode`: the group, word and bit of a free inode. -/
def findFreeInode (inst : Inst) : Nat → Nat → Option (Nat × Nat × Nat)
  | 0, _ => none
  | fuel + 1, g =>
    if inst.groupFree .inode g = 0 then findFreeInode inst fuel (g + 1)
    else
      match firstFreeWord (inst.disk (inst.inodeBitmap g)) (inst.blockSize / 4) 0 with
      | some (j, k) => some (g, j, k)
      | none => findFreeInode inst fuel (g + 1)

/-- The part of `ext2_alloc_inode` after the search. -/
def takeInode (inst : Inst) (g j k : Nat) : Inst :=
  let buf := inst.disk (inst.inodeBitmap g)
  ((((inst.writeBlock (inst.inodeBitmap g) (writeLE buf (4 * j) 4 (readLE buf (4 * j) 4 ||| 2 ^ k))).addGroupFree
    .inode g (2 ^ 16 - 1)).writeBgds).addSuperFree .inode (2 ^ 32 - 1)).rewriteSuperblock

/-- `ext2_alloc_inode`: no number stands for `-ERROR_NO_SPACE`. -/
def allocInode (inst : Inst) : Option Nat × Inst :=
  match findFreeInode inst inst.totalGroups 0 with
  | none => (none, inst)
  | some (g, j, k) =>
    (some ((g * inst.inodesPerGroup + j * 32 + k + 1) % 2 ^ 32), takeInode inst g j k)

/-- The index of an inode in the inode tables: `node_index--` in 32 bits. -/
def inodeIndex (n : Nat) : Nat := (n + (2 ^ 32 - 1)) % 2 ^ 32

/-- The last stage of `ext2_purge_inode`, which releases the number. -/
def releaseInode (inst : Inst) (n : Nat) : Option Inst :=
  let g := inodeIndex n / inst.inodesPerGroup
  let i := inodeIndex n % inst.inodesPerGroup
  if i / 8 < inst.blockSize then
    some ((((inst.writeBlock (inst.inodeBitmap g) (clearBit (inst.disk (inst.inodeBitmap g)) i)).addGroupFree
      .inode g 1).addSuperFree .inode 1).writeBgds).rewriteSuperblock
  else none

variable {b fuel j k x : Nat} {buf : Buf}

section Search

theorem firstFreeBit_spec (word fuel k : Nat) :
    (∀ m, firstFreeBit word fuel k = some m → m < k + fuel ∧ word.testBit m = false) ∧
      ∀ x, k ≤ x → x < k + fuel → word.testBit x = false → ∃ m ≤ x, firstFreeBit word fuel k = some m := by
  induction fuel generalizing k with
  | zero => exact ⟨fun _ hm => absurd hm (by simp [firstFreeBit]), fun x _ _ => by omega⟩
  | succ fuel ih =>
    obtain ⟨hclear, hexists⟩ := ih (k + 1)
    rw [firstFreeBit]
    split_ifs with hset
    · refine ⟨fun m hm => (hclear m hm).imp_left (by omega), fun x hlow hhigh hx => hexists x ?_ (by omega) hx⟩
      have hne : x ≠ k := by
        rintro rfl
        rw [hset] at hx
        cases hx
      omega
    · refine ⟨fun m hm => ?_, fun x hlow _ _ => ⟨k, hlow, rfl⟩⟩
      cases hm
      exact ⟨by omega, by simpa using hset⟩

theorem exists_firstFreeWord (hlow : 32 * j ≤ x) (hhigh : x < 32 * (j + fuel)) (hclear : bitAt buf x = false) :
    ∃ m k, firstFreeWord buf fuel j = some (m, k) ∧ k < 32 ∧ 32 * m + k ≤ x ∧ bitAt buf (32 * m + k) = false := by
  induction fuel generalizing j with
  | zero => omega
  | succ fuel ih =>
    have hword (i : Nat) (hi : i < 32) : (readLE buf (4 * j) 4).testBit i = bitAt buf (32 * j + i) := by
      rw [testBit_readLE buf (4 * j) 4 i hi, ← Nat.mul_assoc]
    obtain ⟨hsome, hexists⟩ := firstFreeBit_spec (readLE buf (4 * j) 4) 32 0
    have hhere (hlt : x < 32 * (j + 1)) : ∃ m ≤ x - 32 * j, firstFreeBit (readLE buf (4 * j) 4) 32 0 = some m :=
      hexists _ (zero_le _) (by omega) (by rwa [hword _ (by omega), Nat.add_sub_cancel' hlow])
    rw [firstFreeWord]
    cases hbit : firstFreeBit (readLE buf (4 * j) 4) 32 0 with
    | some k =>
      obtain ⟨hk, hkclear⟩ := hsome k hbit
      rw [hword k (by omega)] at hkclear
      refine ⟨j, k, rfl, by omega, ?_, hkclear⟩
      by_contra hlt
      obtain ⟨m, hm, hbit'⟩ := hhere (by omega)
      rw [hbit] at hbit'
      cases hbit'
      omega
    | none =>
      refine ih ?_ (by omega)
      by_contra hlt
      obtain ⟨m, -, hbit'⟩ := hhere (by omega)
      rw [hbit] at hbit'
      cases hbit'

end Search

/-- What the format says of a volume: groups fit their bitmaps and 16-bit counters, numbers fit in 32 bits, and the
bitmaps are different blocks of the volume, none of them in its header. -/
structure Geo.Valid (G : Geo) : Prop where
  perGroup_pos : ∀ r, 0 < G.perGroup r
  perGroup_le : ∀ r, G.perGroup r ≤ 8 * G.blockSize
  perGroup_lt : ∀ r, G.perGroup r < 2 ^ 16
  blocks_le : G.totalGroups * G.blocksPerGroup ≤ 2 ^ 32
  inodes_lt : G.totalGroups * G.inodesPerGroup < 2 ^ 32
  words : 4 ∣ G.blockSize
  bitmap_inj : ∀ {r r' g g'}, g < G.totalGroups → g' < G.totalGroups → G.bitmap r g = G.bitmap r' g' → r = r' ∧ g = g'
  bitmap_header : ∀ {r g}, g < G.totalGroups → ¬ G.Header (G.bitmap r g)
  bitmap_lt : ∀ {r g}, g < G.totalGroups → G.bitmap r g < G.totalGroups * G.blocksPerGroup

namespace Geo

variable (G : Geo) {r : Resource} {g i : Nat}

/-- Whether the bit of a block, or of the inode after this index, is set in its bitmap. -/
def inUse (disk : Nat → Buf) (r : Resource) (x : Nat) : Bool :=
  bitAt (disk (G.bitmap r (x / G.perGroup r))) (x % G.perGroup r)

def free (disk : Nat → Buf) (r : Resource) (g : Nat) : Nat := clearBits (disk (G.bitmap r g)) (G.perGroup r)

variable {G}

theorem div_lt (hx : x < G.totalGroups * G.perGroup r) : x / G.perGroup r < G.totalGroups :=
  Nat.div_lt_of_lt_mul (by rwa [mul_comm])

theorem Valid.byte_lt (hvalid : G.Valid) (r : Resource) (x : Nat) : x % G.perGroup r / 8 < G.blockSize := by
  have hmod := mod_lt x (hvalid.perGroup_pos r)
  have hle := hvalid.perGroup_le r
  omega

theorem Valid.index_div (hvalid : G.Valid) (hi : i < G.perGroup r) : (g * G.perGroup r + i) / G.perGroup r = g := by
  rw [mul_comm, Nat.mul_add_div (hvalid.perGroup_pos r), Nat.div_eq_of_lt hi, add_zero]

theorem index_mod (hi : i < G.perGroup r) : (g * G.perGroup r + i) % G.perGroup r = i := by
  rw [mul_comm, Nat.mul_add_mod, Nat.mod_eq_of_lt hi]

theorem index_lt (hg : g < G.totalGroups) (hi : i < G.perGroup r) :
    g * G.perGroup r + i < G.totalGroups * G.perGroup r := by
  calc g * G.perGroup r + i < g * G.perGroup r + G.perGroup r := by omega
    _ = (g + 1) * G.perGroup r := by rw [Nat.succ_mul]
    _ ≤ G.totalGroups * G.perGroup r := Nat.mul_le_mul_right _ hg

theorem Valid.inUse_index (hvalid : G.Valid) (disk : Nat → Buf) (hi : i < G.perGroup r) :
    G.inUse disk r (g * G.perGroup r + i) = bitAt (disk (G.bitmap r g)) i := by
  rw [inUse, hvalid.index_div hi, index_mod hi]

end Geo

/-- The counters count the clear bits, and the bitmaps' own blocks are marked used. -/
structure Counted (G : Geo) (inst : Inst) : Prop where
  geo : inst.geo = G
  group : ∀ r g, g < G.totalGroups → inst.groupFree r g = G.free inst.disk r g
  super : ∀ r, inst.superFree r = ∑ g ∈ range G.totalGroups, G.free inst.disk r g
  kept : ∀ r g, g < G.totalGroups → G.inUse inst.disk .block (G.bitmap r g) = true

/-- One bit of a bitmap gets a value, and the counters of its kind move by one. -/
structure Toggled (G : Geo) (inst inst' : Inst) (r : Resource) (g i : Nat) (v : Bool) : Prop where
  geo : inst'.geo = G
  bits : ∀ j < G.perGroup r,
    bitAt (inst'.disk (G.bitmap r g)) j = if j = i then v else bitAt (inst.disk (G.bitmap r g)) j
  other : ∀ r' g', g' < G.totalGroups → ¬ (r' = r ∧ g' = g) →
    inst'.disk (G.bitmap r' g') = inst.disk (G.bitmap r' g')
  group : ∀ r' g', inst'.groupFree r' g' =
    if r' = r ∧ g' = g then (inst.groupFree r g + if v then 2 ^ 16 - 1 else 1) % 2 ^ 16 else inst.groupFree r' g'
  super : ∀ r', inst'.superFree r' =
    if r' = r then (inst.superFree r + if v then 2 ^ 32 - 1 else 1) % 2 ^ 32 else inst.superFree r'

section Toggle

variable {G : Geo} {inst inst' : Inst} {r : Resource} {g i : Nat} {v : Bool}

theorem Toggled.inUse {y : Nat} (htog : Toggled G inst inst' r (y / G.perGroup r) (y % G.perGroup r) v)
    (hvalid : G.Valid) {r' : Resource} (hx : x < G.totalGroups * G.perGroup r') :
    G.inUse inst'.disk r' x = if r' = r ∧ x = y then v else G.inUse inst.disk r' x := by
  by_cases hgroup : r' = r ∧ x / G.perGroup r' = y / G.perGroup r
  · obtain ⟨rfl, hg⟩ := hgroup
    have hiff : x % G.perGroup r' = y % G.perGroup r' ↔ x = y := by
      refine ⟨fun hmod => ?_, fun hxy => by rw [hxy]⟩
      rw [← Nat.div_add_mod' x (G.perGroup r'), hg, hmod, Nat.div_add_mod']
    rw [Geo.inUse, hg, htog.bits _ (mod_lt x (hvalid.perGroup_pos r')), Geo.inUse, hg]
    simp only [hiff, true_and]
  · rw [Geo.inUse, htog.other _ _ (Geo.div_lt hx) hgroup, if_neg]
    · rfl
    · rintro ⟨rfl, rfl⟩
      exact hgroup ⟨rfl, rfl⟩

variable (htog : Toggled G inst inst' r g i v)

include htog

theorem Toggled.free (hi : i < G.perGroup r)
    (hbit : bitAt (inst.disk (G.bitmap r g)) i = !v) (r' : Resource) {g' : Nat} (hg' : g' < G.totalGroups) :
    G.free inst'.disk r' g' + (if r' = r ∧ g' = g ∧ v then 1 else 0) =
      G.free inst.disk r' g' + if r' = r ∧ g' = g ∧ ¬ v then 1 else 0 := by
  by_cases hgroup : r' = r ∧ g' = g
  · obtain ⟨rfl, rfl⟩ := hgroup
    cases v with
    | true =>
      have hset := clearBits_of_set hi hbit htog.bits
      simpa [Geo.free] using hset
    | false =>
      have hclear := clearBits_of_clear hi hbit htog.bits
      simpa [Geo.free] using hclear
  · have hsame : G.free inst'.disk r' g' = G.free inst.disk r' g' := by
      rw [Geo.free, htog.other r' g' hg' hgroup, Geo.free]
    rw [hsame, if_neg fun h => hgroup ⟨h.1, h.2.1⟩, if_neg fun h => hgroup ⟨h.1, h.2.1⟩]

theorem Toggled.sum_free (hg : g < G.totalGroups) (hi : i < G.perGroup r)
    (hbit : bitAt (inst.disk (G.bitmap r g)) i = !v) (r' : Resource) :
    (∑ g ∈ range G.totalGroups, G.free inst'.disk r' g) + (if r' = r ∧ v then 1 else 0) =
      (∑ g ∈ range G.totalGroups, G.free inst.disk r' g) + if r' = r ∧ ¬ v then 1 else 0 := by
  have hmem := mem_range.mpr hg
  have hrest : ∑ g' ∈ (range G.totalGroups).erase g, G.free inst'.disk r' g' =
      ∑ g' ∈ (range G.totalGroups).erase g, G.free inst.disk r' g' := by
    apply sum_congr rfl
    intro g' hg'
    obtain ⟨hne, hlt⟩ := mem_erase.mp hg'
    have hfree := htog.free hi hbit r' (mem_range.mp hlt)
    rwa [if_neg fun h => hne h.2.1, if_neg fun h => hne h.2.1] at hfree
  have hhere := htog.free hi hbit r' hg
  simp only [true_and] at hhere
  rw [← add_sum_erase _ (fun g => G.free inst'.disk r' g) hmem,
    ← add_sum_erase _ (fun g => G.free inst.disk r' g) hmem]
  omega

omit htog

theorem Geo.sum_free_le (G : Geo) (disk : Nat → Buf) (r : Resource) :
    ∑ g ∈ range G.totalGroups, G.free disk r g ≤ G.totalGroups * G.perGroup r := by
  calc ∑ g ∈ range G.totalGroups, G.free disk r g
      ≤ ∑ _g ∈ range G.totalGroups, G.perGroup r := sum_le_sum fun g _ => clearBits_le _ _
    _ = G.totalGroups * G.perGroup r := by
        rw [sum_const, card_range]
        rfl

theorem Geo.Valid.sum_free_lt (hvalid : G.Valid) {disk : Nat → Buf} (hg : g < G.totalGroups)
    (hkept : G.inUse disk .block (G.bitmap r g) = true) (r' : Resource) :
    ∑ g ∈ range G.totalGroups, G.free disk r' g < 2 ^ 32 := by
  cases r' with
  | inode => exact (G.sum_free_le disk .inode).trans_lt hvalid.inodes_lt
  | block =>
    apply lt_of_lt_of_le _ hvalid.blocks_le
    have hlt := hvalid.bitmap_lt (r := r) hg
    have hmem := mem_range.mpr (Geo.div_lt (r := .block) hlt)
    have hsome : G.free disk .block (G.bitmap r g / G.blocksPerGroup) < G.blocksPerGroup :=
      clearBits_lt_of_set (mod_lt _ (hvalid.perGroup_pos .block)) hkept
    calc ∑ g ∈ range G.totalGroups, G.free disk .block g
        < ∑ _g ∈ range G.totalGroups, G.blocksPerGroup :=
          sum_lt_sum (fun g _ => clearBits_le _ _) ⟨_, hmem, hsome⟩
      _ = G.totalGroups * G.blocksPerGroup := by
          rw [sum_const, card_range]
          rfl

theorem Counted.toggle {y : Nat} (hcount : Counted G inst) (hvalid : G.Valid) (hy : y < G.totalGroups * G.perGroup r)
    (hbit : G.inUse inst.disk r y = !v) (htog : Toggled G inst inst' r (y / G.perGroup r) (y % G.perGroup r) v)
    (hapart : v = false → r = .block → ∀ r' g', g' < G.totalGroups → G.bitmap r' g' ≠ y) : Counted G inst' := by
  have hg := Geo.div_lt hy
  have hi := mod_lt y (hvalid.perGroup_pos r)
  have hkept (r' : Resource) (g' : Nat) (hg' : g' < G.totalGroups) :
      G.inUse inst'.disk .block (G.bitmap r' g') = true := by
    rw [htog.inUse hvalid (hvalid.bitmap_lt hg')]
    split_ifs with hsame
    · obtain ⟨rfl, heq⟩ := hsame
      cases v with
      | true => rfl
      | false => exact absurd heq (hapart rfl rfl r' g' hg')
    · exact hcount.kept r' g' hg'
  refine ⟨htog.geo, fun r' g' hg' => ?_, fun r' => ?_, hkept⟩
  · have hfree := htog.free hi hbit r' hg'
    have hle : G.free inst'.disk r' g' ≤ G.perGroup r' := clearBits_le _ _
    have hle' : G.free inst.disk r' g' ≤ G.perGroup r' := clearBits_le _ _
    have hlt := hvalid.perGroup_lt r'
    rw [htog.group]
    by_cases hgroup : r' = r ∧ g' = y / G.perGroup r
    · rw [← hgroup.2, ← hgroup.1, hcount.group r' g' hg']
      cases v <;> simp [hgroup] at hfree hle hle' hlt ⊢ <;> omega
    · rw [if_neg hgroup, hcount.group r' g' hg']
      rw [if_neg fun h => hgroup ⟨h.1, h.2.1⟩, if_neg fun h => hgroup ⟨h.1, h.2.1⟩] at hfree
      exact hfree.symm
  · have hsum := htog.sum_free hg hi hbit r'
    have hlt := hvalid.sum_free_lt hg (hcount.kept .block _ hg) r'
    have hlt' := hvalid.sum_free_lt hg (hkept .block _ hg) r'
    rw [htog.super]
    by_cases hsame : r' = r
    · rw [← hsame, hcount.super r']
      cases v <;> simp [hsame] at hsum hlt hlt' ⊢ <;> omega
    · rw [if_neg hsame, hcount.super r']
      rw [if_neg fun h => hsame h.1, if_neg fun h => hsame h.1] at hsum
      exact hsum.symm

theorem Toggled.of_write (hvalid : G.Valid) (hg : g < G.totalGroups) (hgeo : inst.geo = G)
    (hbits : ∀ j < G.perGroup r, bitAt buf j = if j = i then v else bitAt (inst.disk (G.bitmap r g)) j)
    (hgeo' : inst'.geo = G) (hdisk : ∀ r' g', g' < G.totalGroups →
      inst'.disk (G.bitmap r' g') = (inst.writeBlock (G.bitmap r g) buf).disk (G.bitmap r' g'))
    (hgroup : ∀ r' g', inst'.groupFree r' g' =
      if r' = r ∧ g' = g then (inst.groupFree r g + if v then 2 ^ 16 - 1 else 1) % 2 ^ 16
      else inst.groupFree r' g') (hsuper : ∀ r', inst'.superFree r' =
      if r' = r then (inst.superFree r + if v then 2 ^ 32 - 1 else 1) % 2 ^ 32 else inst.superFree r') :
    Toggled G inst inst' r g i v := by
  refine ⟨hgeo', fun j hj => ?_, fun r' g' hg' hother => ?_, hgroup, hsuper⟩
  · have := hvalid.perGroup_le r
    rw [hdisk r g hg, disk_writeBlock_same, hgeo, bitAt_clip (by omega), hbits j hj]
  · rw [hdisk r' g' hg', disk_writeBlock_of_ne]
    intro heq
    exact hother (hvalid.bitmap_inj hg' hg heq)

end Toggle

section AllocBlock

variable {G : Geo} {inst inst' : Inst}

theorem findFreeBlock_spec (hvalid : G.Valid) (hcount : Counted G inst) (fuel g : Nat)
    (hfuel : g + fuel = G.totalGroups) :
    ∃ found, findFreeBlock inst fuel g = some found ∧ ∀ g' i, found = some (g', i) →
      g' < G.totalGroups ∧ i < G.blocksPerGroup ∧ bitAt (inst.disk (G.blockBitmap g')) i = false := by
  have hgeo := hcount.geo
  subst hgeo
  induction fuel generalizing g with
  | zero => exact ⟨none, rfl, fun _ _ h => by cases h⟩
  | succ fuel ih =>
    unfold findFreeBlock
    split_ifs with hfree
    · have hg : g < inst.geo.totalGroups := by omega
      rw [hcount.group .block g hg] at hfree
      obtain ⟨k, hk, hclear⟩ := exists_clear_of_pos hfree
      have hbuf : k < 0 + 8 * inst.blockSize := by
        have hle : inst.geo.perGroup .block ≤ 8 * inst.blockSize := hvalid.perGroup_le .block
        omega
      obtain ⟨i, hik, hfirst⟩ := exists_firstClear (zero_le k) hbuf hclear
      have hi : i < inst.blocksPerGroup := hik.trans_lt hk
      change firstClear (inst.disk (inst.blockBitmap g)) _ _ = _ at hfirst
      rw [hfirst]
      refine ⟨some (g, i), if_neg (by omega), fun g' i' heq => ?_⟩
      cases heq
      exact ⟨hg, hi, bitAt_firstClear hfirst⟩
    · exact ih (g + 1) (by omega)

/-- What a successful `ext2_alloc_block` does. -/
structure Taken (G : Geo) (inst : Inst) (b : Nat) (inst' : Inst) : Prop where
  ne_zero : b ≠ 0
  lt : b < G.totalGroups * G.blocksPerGroup
  fresh : G.inUse inst.disk .block b = false
  toggled : Toggled G inst inst' .block (b / G.blocksPerGroup) (b % G.blocksPerGroup) true
  zeroed : inst'.disk b = fun _ => 0
  frame : ∀ c, c ≠ b → ¬ G.Header c → c ≠ G.blockBitmap (b / G.blocksPerGroup) → inst'.disk c = inst.disk c
  exhausted : inst'.exhausted = inst.exhausted

theorem takeBlock_spec (hvalid : G.Valid) (hcount : Counted G inst) {g i : Nat} (hg : g < G.totalGroups)
    (hi : i < G.blocksPerGroup) (hclear : bitAt (inst.disk (G.blockBitmap g)) i = false)
    (hne : g * G.blocksPerGroup + i ≠ 0) : Taken G inst (g * G.blocksPerGroup + i) (takeBlock inst g i) := by
  have hgeo := hcount.geo
  subst hgeo
  have hdiv : (g * inst.geo.blocksPerGroup + i) / inst.geo.blocksPerGroup = g := hvalid.index_div (r := .block) hi
  have hmod : (g * inst.geo.blocksPerGroup + i) % inst.geo.blocksPerGroup = i := Geo.index_mod (r := .block) hi
  have hfresh : inst.geo.inUse inst.disk .block (g * inst.geo.blocksPerGroup + i) = false :=
    (hvalid.inUse_index inst.disk (r := .block) hi).trans hclear
  have hframe (c : Nat) (hc : c ≠ g * inst.geo.blocksPerGroup + i) (hheader : ¬ inst.geo.Header c) :
      (takeBlock inst g i).disk c =
        (inst.writeBlock (inst.blockBitmap g) (setBit (inst.disk (inst.blockBitmap g)) i)).disk c := by
    apply (disk_writeBlock_of_ne _ _ hc).trans
    rw [disk_rewriteSuperblock _ (by simpa using hheader), disk_addSuperFree,
      disk_writeBgds _ (by simpa using hheader), disk_addGroupFree]
  refine ⟨hne, Geo.index_lt (r := .block) hg hi, hfresh, ?_, ?_, fun c hc hheader hbitmap => ?_, rfl⟩
  · rw [hdiv, hmod]
    refine Toggled.of_write hvalid hg rfl (fun j _ => bitAt_setBit _ i j) ?_ (fun r' g' hg' => ?_) ?_ ?_
    · simp [takeBlock]
    · apply hframe _ _ (hvalid.bitmap_header hg')
      intro heq
      have hkept := hcount.kept r' g' hg'
      rw [heq, hfresh] at hkept
      cases hkept
    · simp [takeBlock, groupFree_addGroupFree]
    · simp [takeBlock, superFree_addSuperFree]
  · apply (disk_writeBlock_same ..).trans
    funext p
    rw [clip]
    split_ifs <;> rfl
  · rw [hdiv] at hbitmap
    exact (hframe c hc hheader).trans (disk_writeBlock_of_ne _ _ hbitmap)

theorem allocBlock_spec (hvalid : G.Valid) (hcount : Counted G inst) :
    ∃ b inst', allocBlock inst = some (b, inst') ∧
      ((b = 0 ∧ inst' = inst.exhaust) ∨ Taken G inst b inst') := by
  obtain ⟨found, hfind, hfound⟩ := findFreeBlock_spec hvalid hcount G.totalGroups 0 (zero_add _)
  have hgroups : inst.totalGroups = G.totalGroups := congrArg Geo.totalGroups hcount.geo
  have hper : inst.blocksPerGroup = G.blocksPerGroup := congrArg Geo.blocksPerGroup hcount.geo
  rw [allocBlock, hgroups, hfind, map_some]
  cases found with
  | none => exact ⟨0, _, rfl, .inl ⟨rfl, rfl⟩⟩
  | some p =>
    obtain ⟨g, i⟩ := p
    obtain ⟨hg, hi, hclear⟩ := hfound g i rfl
    dsimp only
    rw [hper]
    split_ifs with hzero
    · exact ⟨0, _, rfl, .inl ⟨rfl, rfl⟩⟩
    · exact ⟨_, _, rfl, .inr (takeBlock_spec hvalid hcount hg hi hclear hzero)⟩

/-- An allocation of a block has failed, and so will the next one. -/
structure Inst.Spent (inst : Inst) : Prop where
  exhausted : inst.exhausted = true
  fails : allocBlock inst = some (0, inst.exhaust)

section Congr

variable (hgeo : inst'.geo = inst.geo) (hfree : ∀ g, inst'.groupFree .block g = inst.groupFree .block g)
  (hbitmap : ∀ g < inst.totalGroups, inst'.disk (inst.blockBitmap g) = inst.disk (inst.blockBitmap g))
include hgeo hfree hbitmap

theorem findFreeBlock_congr (fuel g : Nat) (hfuel : g + fuel ≤ inst.totalGroups) :
    findFreeBlock inst' fuel g = findFreeBlock inst fuel g := by
  have hmap : inst'.blockBitmap = inst.blockBitmap := congrArg Geo.blockBitmap hgeo
  have hsize : inst'.blockSize = inst.blockSize := congrArg Geo.blockSize hgeo
  have hper : inst'.blocksPerGroup = inst.blocksPerGroup := congrArg Geo.blocksPerGroup hgeo
  induction fuel generalizing g with
  | zero => rfl
  | succ fuel ih =>
    rw [findFreeBlock, findFreeBlock, hfree, hmap, hsize, hper, hbitmap g (by omega), ih (g + 1) (by omega)]

theorem allocBlock_congr {x : Inst} (hfails : allocBlock inst = some (0, x)) :
    allocBlock inst' = some (0, inst'.exhaust) := by
  have hgroups : inst'.totalGroups = inst.totalGroups := congrArg Geo.totalGroups hgeo
  have hper : inst'.blocksPerGroup = inst.blocksPerGroup := congrArg Geo.blocksPerGroup hgeo
  rw [allocBlock] at hfails ⊢
  rw [hgroups, hper, findFreeBlock_congr hgeo hfree hbitmap _ _ (Nat.zero_add _).le]
  cases hfind : findFreeBlock inst inst.totalGroups 0 with
  | none =>
    rw [hfind] at hfails
    cases hfails
  | some found =>
    rw [hfind, map_some] at hfails
    rw [map_some]
    cases found with
    | none => rfl
    | some p =>
      dsimp only at hfails ⊢
      split_ifs at hfails ⊢ with hzero
      · rfl
      · exact absurd (Prod.mk.inj (some.inj hfails)).1 hzero

theorem Inst.Spent.congr (hspent : inst.Spent) (hexhausted : inst'.exhausted = inst.exhausted) : inst'.Spent :=
  ⟨hexhausted.trans hspent.exhausted, allocBlock_congr hgeo hfree hbitmap hspent.fails⟩

end Congr

theorem Inst.Spent.exhaust {x : Inst} (hfails : allocBlock inst = some (0, x)) : inst.exhaust.Spent :=
  ⟨rfl, allocBlock_congr (show inst.exhaust.geo = inst.geo from rfl) (fun _ => rfl) (fun _ _ => rfl) hfails⟩

theorem Taken.counted (htaken : Taken G inst b inst') (hvalid : G.Valid) (hcount : Counted G inst) : Counted G inst' :=
  hcount.toggle hvalid (r := .block) htaken.lt (v := true) htaken.fresh htaken.toggled fun hv => by cases hv

theorem Taken.inUse (htaken : Taken G inst b inst') (hvalid : G.Valid) {r : Resource}
    (hx : x < G.totalGroups * G.perGroup r) :
    G.inUse inst'.disk r x = if r = .block ∧ x = b then true else G.inUse inst.disk r x :=
  Toggled.inUse htaken.toggled hvalid hx

theorem freeBlock_spec (hvalid : G.Valid) (hgeo : inst.geo = G) (hb : b < G.totalGroups * G.blocksPerGroup) :
    ∃ inst', freeBlock inst b = some inst' ∧
      Toggled G inst inst' .block (b / G.blocksPerGroup) (b % G.blocksPerGroup) false ∧
      ∀ c, c ≠ G.blockBitmap (b / G.blocksPerGroup) → inst'.disk c = inst.disk c := by
  subst hgeo
  refine ⟨_, if_pos (hvalid.byte_lt .block b), ?_, fun c hc => disk_writeBlock_of_ne _ _ hc⟩
  refine Toggled.of_write hvalid (Geo.div_lt (r := .block) hb) rfl (fun j _ => bitAt_clearBit _ _ j) ?_
    (fun r' g' _ => rfl) ?_ ?_
  · simp
  · intro r' g'
    simp only [groupFree_addSuperFree, groupFree_addGroupFree]
    rfl
  · intro r'
    simp only [superFree_addSuperFree]
    rfl

end AllocBlock

section AllocInode

variable {G : Geo} {inst : Inst}

theorem findFreeInode_spec (hvalid : G.Valid) (hcount : Counted G inst) (fuel g : Nat)
    (hfuel : g + fuel = G.totalGroups) :
    match findFreeInode inst fuel g with
    | some (g', j, k) => g' < G.totalGroups ∧ k < 32 ∧ 32 * j + k < G.inodesPerGroup ∧
        bitAt (inst.disk (G.inodeBitmap g')) (32 * j + k) = false
    | none => ∀ g', g ≤ g' → g' < G.totalGroups → G.free inst.disk .inode g' = 0 := by
  have hgeo := hcount.geo
  subst hgeo
  induction fuel generalizing g with
  | zero => exact fun g' hlow hhigh => by omega
  | succ fuel ih =>
    have hg : g < inst.geo.totalGroups := by omega
    have hfree := hcount.group .inode g hg
    have hle : inst.geo.perGroup .inode ≤ 8 * inst.blockSize := hvalid.perGroup_le .inode
    obtain ⟨words, hwords⟩ : 4 ∣ inst.blockSize := hvalid.words
    have hnext := ih (g + 1) (by omega)
    rw [findFreeInode]
    split_ifs with hzero
    · split at hnext
      · exact hnext
      · intro g' hlow hhigh
        by_cases hhere : g' = g
        · rw [hhere, ← hfree, hzero]
        · exact hnext g' (by omega) hhigh
    · rw [hfree] at hzero
      obtain ⟨x, hx, hclear⟩ : ∃ x < inst.geo.perGroup .inode, bitAt (inst.disk (inst.inodeBitmap g)) x = false :=
        exists_clear_of_pos (pos_of_ne_zero hzero)
      obtain ⟨j, k, hscan, hk, hjk, hbit⟩ := exists_firstFreeWord (show 32 * 0 ≤ x from zero_le x)
        (show x < 32 * (0 + inst.blockSize / 4) by omega) hclear
      rw [hscan]
      exact ⟨hg, hk, hjk.trans_lt hx, hbit⟩

/-- What a successful `ext2_alloc_inode` does. The inode after index `x` is number `x + 1`. -/
structure TakenInode (G : Geo) (inst : Inst) (x : Nat) (inst' : Inst) : Prop where
  lt : x < G.totalGroups * G.inodesPerGroup
  fresh : G.inUse inst.disk .inode x = false
  toggled : Toggled G inst inst' .inode (x / G.inodesPerGroup) (x % G.inodesPerGroup) true
  frame : ∀ c, ¬ G.Header c → c ≠ G.inodeBitmap (x / G.inodesPerGroup) → inst'.disk c = inst.disk c
  exhausted : inst'.exhausted = inst.exhausted

theorem takeInode_spec (hvalid : G.Valid) (hgeo : inst.geo = G) {g : Nat} (hg : g < G.totalGroups) (hk : k < 32)
    (hi : 32 * j + k < G.inodesPerGroup) (hclear : bitAt (inst.disk (G.inodeBitmap g)) (32 * j + k) = false) :
    TakenInode G inst (g * G.inodesPerGroup + (32 * j + k)) (takeInode inst g j k) := by
  subst hgeo
  have hdiv : (g * inst.geo.inodesPerGroup + (32 * j + k)) / inst.geo.inodesPerGroup = g :=
    hvalid.index_div (r := .inode) hi
  have hmod : (g * inst.geo.inodesPerGroup + (32 * j + k)) % inst.geo.inodesPerGroup = 32 * j + k :=
    Geo.index_mod (r := .inode) hi
  have hframe (c : Nat) (hheader : ¬ inst.geo.Header c) :
      (takeInode inst g j k).disk c =
        (inst.writeBlock (inst.inodeBitmap g) (writeLE (inst.disk (inst.inodeBitmap g)) (4 * j) 4
          (readLE (inst.disk (inst.inodeBitmap g)) (4 * j) 4 ||| 2 ^ k))).disk c := by
    rw [takeInode, disk_rewriteSuperblock _ (by simpa using hheader), disk_addSuperFree,
      disk_writeBgds _ (by simpa using hheader), disk_addGroupFree]
  refine ⟨Geo.index_lt (r := .inode) hg hi, (hvalid.inUse_index inst.disk (r := .inode) hi).trans hclear, ?_,
    fun c hheader hbitmap => ?_, rfl⟩
  · rw [hdiv, hmod]
    refine Toggled.of_write hvalid hg rfl (fun x _ => ?_) ?_ (fun r' g' hg' => hframe _ (hvalid.bitmap_header hg'))
      ?_ ?_
    · rw [bitAt_writeLE_or _ _ _ _ _ hk, show 8 * (4 * j) + k = 32 * j + k by omega]
      rfl
    · simp [takeInode]
    · simp [takeInode, groupFree_addGroupFree]
    · simp [takeInode, superFree_addSuperFree]
  · rw [hdiv] at hbitmap
    exact (hframe c hheader).trans (disk_writeBlock_of_ne _ _ hbitmap)

theorem allocInode_spec (hvalid : G.Valid) (hcount : Counted G inst) :
    (allocInode inst = (none, inst) ∧ ∀ g < G.totalGroups, G.free inst.disk .inode g = 0) ∨
      ∃ x inst', allocInode inst = (some (x + 1), inst') ∧ TakenInode G inst x inst' := by
  have hfind := findFreeInode_spec hvalid hcount G.totalGroups 0 (zero_add _)
  have hgroups : inst.totalGroups = G.totalGroups := congrArg Geo.totalGroups hcount.geo
  have hper : inst.inodesPerGroup = G.inodesPerGroup := congrArg Geo.inodesPerGroup hcount.geo
  rw [allocInode, hgroups]
  cases hsearch : findFreeInode inst G.totalGroups 0 with
  | none =>
    rw [hsearch] at hfind
    exact .inl ⟨rfl, fun g hg => hfind g (zero_le g) hg⟩
  | some p =>
    obtain ⟨g, j, k⟩ := p
    rw [hsearch] at hfind
    obtain ⟨hg, hk, hi, hclear⟩ := hfind
    have htaken := takeInode_spec hvalid hcount.geo hg hk hi hclear
    have hlt := htaken.lt
    have htotal := hvalid.inodes_lt
    refine .inr ⟨_, _, ?_, htaken⟩
    dsimp only
    rw [hper, mul_comm j 32, add_assoc (g * _), Nat.mod_eq_of_lt (by omega)]

theorem TakenInode.counted {inst' : Inst} (htaken : TakenInode G inst x inst') (hvalid : G.Valid)
    (hcount : Counted G inst) : Counted G inst' :=
  hcount.toggle hvalid (r := .inode) htaken.lt (v := true) htaken.fresh htaken.toggled fun hv => by cases hv

theorem TakenInode.inUse {inst' : Inst} (htaken : TakenInode G inst x inst') (hvalid : G.Valid) {r : Resource} {y : Nat}
    (hy : y < G.totalGroups * G.perGroup r) :
    G.inUse inst'.disk r y = if r = .inode ∧ y = x then true else G.inUse inst.disk r y :=
  Toggled.inUse htaken.toggled hvalid hy

theorem inodeIndex_succ (hx : x < 2 ^ 32) : inodeIndex (x + 1) = x := by
  rw [inodeIndex]
  omega

theorem releaseInode_spec (hvalid : G.Valid) (hgeo : inst.geo = G) (hx : x < G.totalGroups * G.inodesPerGroup) :
    ∃ inst', releaseInode inst (x + 1) = some inst' ∧
      Toggled G inst inst' .inode (x / G.inodesPerGroup) (x % G.inodesPerGroup) false := by
  subst hgeo
  rw [releaseInode, inodeIndex_succ (hx.trans hvalid.inodes_lt)]
  refine ⟨_, if_pos (hvalid.byte_lt .inode x), ?_⟩
  refine Toggled.of_write hvalid (Geo.div_lt (r := .inode) hx) rfl (fun j _ => bitAt_clearBit _ _ j) ?_
    (fun r' g' hg' => ?_) ?_ ?_
  · simp
  · have hheader := hvalid.bitmap_header hg' (r := r')
    rw [disk_rewriteSuperblock _ (by simpa using hheader), disk_writeBgds _ (by simpa using hheader)]
    rfl
  · intro r' g'
    simp only [groupFree_rewriteSuperblock, groupFree_writeBgds, groupFree_addSuperFree, groupFree_addGroupFree]
    rfl
  · intro r'
    simp only [superFree_rewriteSuperblock, superFree_writeBgds, superFree_addSuperFree]
    rfl

end AllocInode

end Kairax.Ext2
