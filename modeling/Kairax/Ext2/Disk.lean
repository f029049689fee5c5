import Kairax.Lib.Bytes

/-!
# The ext2 volume

The driver's view of a mounted volume (`ext2_instance_t`): the blocks of the partition, and in memory the
superblock and the group descriptors as the packed structures they are on disk. The device has no I/O
errors, so the return codes of block transfers are left out.
-/

namespace Kairax.Ext2

open Lib Function

structure Inst where
  disk : Nat → Buf
  superblock : Buf
  bgds : Buf
  blockSize : Nat
  totalGroups : Nat
  bgdStartBlock : Nat
  bgdsBlocks : Nat
  fileSize64bitFlag : Bool
  exhausted : Bool

inductive Resource
  | block
  | inode
  deriving DecidableEq

namespace Resource

/-- The offset of `free_blocks` and `free_inodes` in a group descriptor. -/
def groupOffset : Resource → Nat
  | block => 12
  | inode => 14

/-- The offset of `free_blocks` and `free_inodes` in the superblock. -/
def superOffset : Resource → Nat
  | block => 12
  | inode => 16

end Resource

namespace Inst

variable (inst : Inst)

def blocksPerGroup : Nat := readLE inst.superblock 32 4

def inodesPerGroup : Nat := readLE inst.superblock 40 4

def inodeSize : Nat := readLE inst.superblock 88 2

def blockBitmap (g : Nat) : Nat := readLE inst.bgds (32 * g) 4

def inodeBitmap (g : Nat) : Nat := readLE inst.bgds (32 * g + 4) 4

def inodeTable (g : Nat) : Nat := readLE inst.bgds (32 * g + 8) 4

def groupFree (r : Resource) (g : Nat) : Nat := readLE inst.bgds (32 * g + r.groupOffset) 2

def superFree (r : Resource) : Nat := readLE inst.superblock r.superOffset 4

/-- `bgds[g].free_blocks += d` in 16 bits. -/
def addGroupFree (r : Resource) (g d : Nat) : Inst :=
  { inst with bgds := writeLE inst.bgds (32 * g + r.groupOffset) 2 (inst.groupFree r g + d) }

/-- `superblock->free_blocks += d` in 32 bits. -/
def addSuperFree (r : Resource) (d : Nat) : Inst :=
  { inst with superblock := writeLE inst.superblock r.superOffset 4 (inst.superFree r + d) }

def exhaust : Inst := { inst with exhausted := true }

def writeBlock (b : Nat) (buf : Buf) : Inst :=
  { inst with disk := update inst.disk b (clip inst.blockSize buf) }

/-- `ext2_write_bgds` -/
def writeBgds : Inst :=
  { inst with
    disk := fun b =>
      if inst.bgdStartBlock ≤ b ∧ b < inst.bgdStartBlock + inst.bgdsBlocks then
        clip inst.blockSize fun p => inst.bgds ((b - inst.bgdStartBlock) * inst.blockSize + p)
      else inst.disk b }

/-- `ext2_rewrite_superblock`: the superblock is at byte 1024 of the partition. -/
def rewriteSuperblock : Inst :=
  { inst with
    disk := update inst.disk (1024 / inst.blockSize)
      (copy (inst.disk (1024 / inst.blockSize)) (1024 % inst.blockSize) inst.superblock 1024) }

end Inst

structure Geo where
  blockSize : Nat
  totalGroups : Nat
  bgdStartBlock : Nat
  bgdsBlocks : Nat
  blocksPerGroup : Nat
  inodesPerGroup : Nat
  inodeSize : Nat
  blockBitmap : Nat → Nat
  inodeBitmap : Nat → Nat
  inodeTable : Nat → Nat
  fileSize64bitFlag : Bool

def Inst.geo (inst : Inst) : Geo where
  blockSize := inst.blockSize
  totalGroups := inst.totalGroups
  bgdStartBlock := inst.bgdStartBlock
  bgdsBlocks := inst.bgdsBlocks
  blocksPerGroup := inst.blocksPerGroup
  inodesPerGroup := inst.inodesPerGroup
  inodeSize := inst.inodeSize
  blockBitmap := inst.blockBitmap
  inodeBitmap := inst.inodeBitmap
  inodeTable := inst.inodeTable
  fileSize64bitFlag := inst.fileSize64bitFlag

namespace Geo

def Header (G : Geo) (b : Nat) : Prop :=
  b = 1024 / G.blockSize ∨ (G.bgdStartBlock ≤ b ∧ b < G.bgdStartBlock + G.bgdsBlocks)

def bitmap (G : Geo) : Resource → Nat → Nat
  | .block => G.blockBitmap
  | .inode => G.inodeBitmap

def perGroup (G : Geo) : Resource → Nat
  | .block => G.blocksPerGroup
  | .inode => G.inodesPerGroup

end Geo

section Updates

variable (inst : Inst) (r : Resource) (g d : Nat)

theorem geo_of_groupHalf (off x : Nat) (hlow : 12 ≤ off) (hhigh : off ≤ 30) :
    ({ inst with bgds := writeLE inst.bgds (32 * g + off) 2 x } : Inst).geo = inst.geo := by
  have hword (g' off' : Nat) (hoff' : off' ≤ 8) :
      readLE (writeLE inst.bgds (32 * g + off) 2 x) (32 * g' + off') 4 = readLE inst.bgds (32 * g' + off') 4 :=
    readLE_writeLE_of_disjoint (by omega)
  have hblock : Inst.blockBitmap { inst with bgds := writeLE inst.bgds (32 * g + off) 2 x } = inst.blockBitmap :=
    funext fun g' => hword g' 0 (by decide)
  have hinode : Inst.inodeBitmap { inst with bgds := writeLE inst.bgds (32 * g + off) 2 x } = inst.inodeBitmap :=
    funext fun g' => hword g' 4 (by decide)
  have htable : Inst.inodeTable { inst with bgds := writeLE inst.bgds (32 * g + off) 2 x } = inst.inodeTable :=
    funext fun g' => hword g' 8 (by decide)
  rw [Inst.geo, hblock, hinode, htable]
  rfl

@[simp] theorem geo_addGroupFree : (inst.addGroupFree r g d).geo = inst.geo := by
  cases r with
  | block => exact geo_of_groupHalf inst g 12 _ (by decide) (by decide)
  | inode => exact geo_of_groupHalf inst g 14 _ (by decide) (by decide)

@[simp] theorem geo_addSuperFree : (inst.addSuperFree r d).geo = inst.geo := by
  have hword (off len : Nat) (hoff : 32 ≤ off) :
      readLE (writeLE inst.superblock r.superOffset 4 (inst.superFree r + d)) off len =
        readLE inst.superblock off len := by
    apply readLE_writeLE_of_disjoint
    cases r
    · exact .inr (show 12 + 4 ≤ off by omega)
    · exact .inr (show 16 + 4 ≤ off by omega)
  have hblocks : (inst.addSuperFree r d).blocksPerGroup = inst.blocksPerGroup := hword 32 4 (by decide)
  have hinodes : (inst.addSuperFree r d).inodesPerGroup = inst.inodesPerGroup := hword 40 4 (by decide)
  have hsize : (inst.addSuperFree r d).inodeSize = inst.inodeSize := hword 88 2 (by decide)
  rw [Inst.geo, hblocks, hinodes, hsize]
  rfl

@[simp] theorem geo_writeBlock (b : Nat) (buf : Buf) : (inst.writeBlock b buf).geo = inst.geo := rfl

@[simp] theorem geo_writeBgds : inst.writeBgds.geo = inst.geo := rfl

@[simp] theorem geo_rewriteSuperblock : inst.rewriteSuperblock.geo = inst.geo := rfl

variable (r' : Resource)

theorem groupFree_addGroupFree (g' : Nat) :
    (inst.addGroupFree r g d).groupFree r' g' =
      if r' = r ∧ g' = g then (inst.groupFree r g + d) % 2 ^ 16 else inst.groupFree r' g' := by
  split_ifs with hsame
  · rw [hsame.1, hsame.2]
    exact readLE_writeLE _ _ 2 _
  · apply readLE_writeLE_of_disjoint
    cases r <;> cases r' <;> simp only [Resource.groupOffset, true_and] at hsame ⊢ <;> omega

theorem superFree_addSuperFree :
    (inst.addSuperFree r d).superFree r' =
      if r' = r then (inst.superFree r + d) % 2 ^ 32 else inst.superFree r' := by
  split_ifs with hsame
  · rw [hsame]
    exact readLE_writeLE _ _ 4 _
  · apply readLE_writeLE_of_disjoint
    cases r <;> cases r' <;> simp [Resource.superOffset] at hsame ⊢

@[simp] theorem superFree_addGroupFree :
    (inst.addGroupFree r g d).superFree r' = inst.superFree r' := rfl

@[simp] theorem groupFree_addSuperFree (g' : Nat) :
    (inst.addSuperFree r d).groupFree r' g' = inst.groupFree r' g' := rfl

@[simp] theorem groupFree_writeBlock (b : Nat) (buf : Buf) (r' : Resource) (g' : Nat) :
    (inst.writeBlock b buf).groupFree r' g' = inst.groupFree r' g' := rfl

@[simp] theorem superFree_writeBlock (b : Nat) (buf : Buf) (r' : Resource) :
    (inst.writeBlock b buf).superFree r' = inst.superFree r' := rfl

@[simp] theorem groupFree_writeBgds (g' : Nat) :
    inst.writeBgds.groupFree r' g' = inst.groupFree r' g' := rfl

@[simp] theorem superFree_writeBgds : inst.writeBgds.superFree r' = inst.superFree r' := rfl

@[simp] theorem groupFree_rewriteSuperblock (g' : Nat) :
    inst.rewriteSuperblock.groupFree r' g' = inst.groupFree r' g' := rfl

@[simp] theorem superFree_rewriteSuperblock :
    inst.rewriteSuperblock.superFree r' = inst.superFree r' := rfl

@[simp] theorem disk_addGroupFree : (inst.addGroupFree r g d).disk = inst.disk := rfl

@[simp] theorem disk_addSuperFree : (inst.addSuperFree r d).disk = inst.disk := rfl

theorem disk_writeBlock_same (b : Nat) (buf : Buf) : (inst.writeBlock b buf).disk b = clip inst.geo.blockSize buf :=
  update_self ..

theorem disk_writeBlock_of_ne {b c : Nat} (buf : Buf) (hne : c ≠ b) : (inst.writeBlock b buf).disk c = inst.disk c :=
  update_of_ne hne ..

theorem disk_writeBgds {b : Nat} (hb : ¬ inst.geo.Header b) : inst.writeBgds.disk b = inst.disk b :=
  if_neg fun hin => hb (.inr hin)

theorem disk_rewriteSuperblock {b : Nat} (hb : ¬ inst.geo.Header b) : inst.rewriteSuperblock.disk b = inst.disk b :=
  update_of_ne (fun heq => hb (.inl heq)) ..

end Updates

end Kairax.Ext2
