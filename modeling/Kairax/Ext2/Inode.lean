import Kairax.Ext2.Alloc

/-!
# Inodes and the inode tables

An inode is the packed structure `ext2_inode_t` of 128 bytes. Inode `n` has its place in the table of its
group, several to a block. Writing one inode and reading it back gives the inode, and other inodes stay as
they were.
-/

namespace Kairax.Ext2

open Lib

namespace Inode

def mode (ino : Buf) : Nat := readLE ino 0 2

def size (ino : Buf) : Nat := readLE ino 4 4

def numBlocks (ino : Buf) : Nat := readLE ino 28 4

/-- `inode->blocks[k]` -/
def block (ino : Buf) (k : Nat) : Nat := readLE ino (40 + 4 * k) 4

def sizeHigh (ino : Buf) : Nat := readLE ino 108 4

def setMode (ino : Buf) (x : Nat) : Buf := writeLE ino 0 2 x

def setSize (ino : Buf) (x : Nat) : Buf := writeLE ino 4 4 x

def setHardLinks (ino : Buf) (x : Nat) : Buf := writeLE ino 26 2 x

def setNumBlocks (ino : Buf) (x : Nat) : Buf := writeLE ino 28 4 x

def setBlock (ino : Buf) (k x : Nat) : Buf := writeLE ino (40 + 4 * k) 4 x

def setSizeHigh (ino : Buf) (x : Nat) : Buf := writeLE ino 108 4 x

def Fits (ino : Buf) : Prop := clip 128 ino = ino

section Fields

variable (ino : Buf) (k x : Nat)

theorem block_setBlock_same : block (setBlock ino k x) k = x % 2 ^ 32 := readLE_writeLE _ _ 4 _

theorem block_setBlock_of_ne {k' : Nat} (hne : k' ≠ k) : block (setBlock ino k x) k' = block ino k' :=
  readLE_writeLE_of_disjoint (by omega)

@[simp] theorem block_setSize : block (setSize ino x) k = block ino k := readLE_writeLE_of_disjoint (by omega)

@[simp] theorem block_setNumBlocks : block (setNumBlocks ino x) k = block ino k :=
  readLE_writeLE_of_disjoint (by omega)

theorem Fits.writeLE {ino : Buf} {o len : Nat} (hfits : Fits ino) (hin : o + len ≤ 128) :
    Fits (Lib.writeLE ino o len x) := by
  rw [Fits, clip_writeLE hin, hfits]

theorem Fits.setBlock {ino : Buf} {k : Nat} (hfits : Fits ino) (hk : k < 15) : Fits (setBlock ino k x) :=
  hfits.writeLE x (by omega)

theorem Fits.setNumBlocks {ino : Buf} (hfits : Fits ino) : Fits (setNumBlocks ino x) :=
  hfits.writeLE x (by decide)

end Fields

end Inode

namespace Geo

variable (G : Geo)

def inodeGroup (n : Nat) : Nat := inodeIndex n / G.inodesPerGroup

def idxInGroup (n : Nat) : Nat := inodeIndex n - G.inodeGroup n * G.inodesPerGroup

/-- `block_offset`: the block of the table that an inode is in. -/
def inodeBlockOffset (n : Nat) : Nat := G.idxInGroup n * G.inodeSize % 2 ^ 32 / G.blockSize

def inodeBlock (n : Nat) : Nat := (G.inodeTable (G.inodeGroup n) + G.inodeBlockOffset n) % 2 ^ 32

def inodePlace (n : Nat) : Nat :=
  (G.idxInGroup n - G.inodeBlockOffset n * (G.blockSize / G.inodeSize)) * G.inodeSize

def HasInode (n : Nat) : Prop := 1 ≤ n ∧ n ≤ G.totalGroups * G.inodesPerGroup

end Geo

/-- `ext2_inode` -/
def Inst.inode (inst : Inst) (n : Nat) : Buf :=
  clip 128 fun p => inst.disk (inst.geo.inodeBlock n) (inst.geo.inodePlace n + p)

/-- `ext2_write_inode_metadata` -/
def Inst.writeInodeMetadata (inst : Inst) (ino : Buf) (n : Nat) : Inst :=
  inst.writeBlock (inst.geo.inodeBlock n)
    (copy (inst.disk (inst.geo.inodeBlock n)) (inst.geo.inodePlace n) ino 128)

/-- A volume whose blocks have a size of the format, and whose inodes divide them. -/
structure Geo.Regular (G : Geo) : Prop extends G.Valid where
  sized : ∃ k ≤ 6, G.blockSize = 1024 * 2 ^ k
  inodeSize_dvd : G.inodeSize ∣ G.blockSize
  inodeSize_ge : 128 ≤ G.inodeSize
  inodeSize_lt : G.inodeSize < 2 ^ 16
  bitmap_ne_zero : ∀ {r g}, g < G.totalGroups → G.bitmap r g ≠ 0

section Places

variable {G : Geo} {n m : Nat}

variable (hreg : G.Regular)

include hreg in
theorem Geo.Regular.inodeIndex_lt (hn : G.HasInode n) :
    inodeIndex n = n - 1 ∧ inodeIndex n < G.totalGroups * G.inodesPerGroup := by
  have hlt := hreg.inodes_lt
  obtain ⟨hlow, hhigh⟩ := hn
  rw [inodeIndex]
  omega

theorem Geo.idxInGroup_eq (G : Geo) (n : Nat) : G.idxInGroup n = inodeIndex n % G.inodesPerGroup := by
  have hsplit := Nat.div_add_mod' (inodeIndex n) G.inodesPerGroup
  rw [Geo.idxInGroup, Geo.inodeGroup]
  omega

include hreg

theorem Geo.Regular.exists_perBlock :
    ∃ per, 0 < per ∧ G.blockSize = G.inodeSize * per ∧ G.blockSize / G.inodeSize = per := by
  obtain ⟨per, hper⟩ := hreg.inodeSize_dvd
  have hge := hreg.inodeSize_ge
  obtain ⟨k, -, hsize⟩ := hreg.sized
  refine ⟨per, pos_of_ne_zero fun hzero => ?_, hper, ?_⟩
  · rw [hzero, hsize] at hper
    exact absurd hper (Nat.mul_ne_zero (by decide) (Nat.pow_pos (by decide)).ne')
  · rw [hper, Nat.mul_div_cancel_left per (by omega)]

theorem Geo.Regular.inodeBlockOffset_eq {per : Nat} (hsize : G.blockSize = G.inodeSize * per) :
    G.inodeBlockOffset n = G.idxInGroup n / per := by
  have hge := hreg.inodeSize_ge
  have hidx : G.idxInGroup n < 2 ^ 16 := by
    rw [Geo.idxInGroup_eq]
    exact (Nat.mod_lt _ (hreg.perGroup_pos .inode)).trans (hreg.perGroup_lt .inode)
  have hprod : G.idxInGroup n * G.inodeSize < 2 ^ 32 :=
    Nat.lt_of_lt_of_eq (Nat.mul_lt_mul'' hidx hreg.inodeSize_lt) (by decide)
  rw [Geo.inodeBlockOffset, Nat.mod_eq_of_lt hprod, hsize, mul_comm, Nat.mul_div_mul_left _ _ (by omega)]

theorem Geo.Regular.inodePlace_eq {per : Nat} (hsize : G.blockSize = G.inodeSize * per)
    (hdiv : G.blockSize / G.inodeSize = per) : G.inodePlace n = G.idxInGroup n % per * G.inodeSize := by
  have hsplit := Nat.div_add_mod' (G.idxInGroup n) per
  rw [Geo.inodePlace, hreg.inodeBlockOffset_eq hsize, hdiv]
  congr 1
  omega

theorem Geo.Regular.inodePlace_le (n : Nat) : G.inodePlace n + 128 ≤ G.blockSize := by
  obtain ⟨per, hpos, hsize, hdiv⟩ := hreg.exists_perBlock
  have hge := hreg.inodeSize_ge
  have hmod : G.idxInGroup n % per + 1 ≤ per := Nat.mod_lt _ hpos
  calc G.inodePlace n + 128 ≤ G.idxInGroup n % per * G.inodeSize + G.inodeSize := by
        rw [hreg.inodePlace_eq hsize hdiv]
        omega
    _ = (G.idxInGroup n % per + 1) * G.inodeSize := by rw [Nat.succ_mul]
    _ ≤ per * G.inodeSize := Nat.mul_le_mul_right _ hmod
    _ = G.blockSize := by rw [hsize, mul_comm]

theorem Geo.Regular.inodePlace_apart (hn : G.HasInode n) (hm : G.HasInode m) (hne : m ≠ n)
    (hgroup : G.inodeGroup m = G.inodeGroup n) (hblock : G.inodeBlockOffset m = G.inodeBlockOffset n) :
    G.inodePlace m + 128 ≤ G.inodePlace n ∨ G.inodePlace n + 128 ≤ G.inodePlace m := by
  obtain ⟨per, hpos, hsize, hdiv⟩ := hreg.exists_perBlock
  have hge := hreg.inodeSize_ge
  have hindex := (hreg.inodeIndex_lt hn).1
  have hindex' := (hreg.inodeIndex_lt hm).1
  have hsplit := Nat.div_add_mod' (inodeIndex n) G.inodesPerGroup
  have hsplit' := Nat.div_add_mod' (inodeIndex m) G.inodesPerGroup
  have hpart := Nat.div_add_mod' (G.idxInGroup n) per
  have hpart' := Nat.div_add_mod' (G.idxInGroup m) per
  rw [hreg.inodeBlockOffset_eq hsize, hreg.inodeBlockOffset_eq hsize] at hblock
  rw [Geo.inodeGroup, Geo.inodeGroup] at hgroup
  rw [hblock] at hpart'
  rw [hgroup, ← Geo.idxInGroup_eq] at hsplit'
  rw [← Geo.idxInGroup_eq] at hsplit
  rw [hreg.inodePlace_eq hsize hdiv, hreg.inodePlace_eq hsize hdiv]
  have hplace : G.idxInGroup m % per ≠ G.idxInGroup n % per := by
    intro heq
    obtain ⟨hlow, -⟩ := hn
    obtain ⟨hlow', -⟩ := hm
    omega
  have hstep (a b : Nat) (hab : a < b) : a * G.inodeSize + 128 ≤ b * G.inodeSize := by
    calc a * G.inodeSize + 128 ≤ (a + 1) * G.inodeSize := by
          rw [Nat.succ_mul]
          omega
      _ ≤ b * G.inodeSize := Nat.mul_le_mul_right _ hab
  cases Nat.lt_or_gt_of_ne hplace with
  | inl hlt => exact .inl (hstep _ _ hlt)
  | inr hgt => exact .inr (hstep _ _ hgt)

end Places

section Metadata

variable {inst : Inst} {ino : Buf} {n m : Nat}

@[simp] theorem geo_writeInodeMetadata : (inst.writeInodeMetadata ino n).geo = inst.geo := rfl

theorem disk_writeInodeMetadata {b : Nat} (hne : b ≠ inst.geo.inodeBlock n) :
    (inst.writeInodeMetadata ino n).disk b = inst.disk b :=
  disk_writeBlock_of_ne _ _ hne

theorem inode_writeInodeMetadata_same (hreg : inst.geo.Regular) (hfits : Inode.Fits ino) :
    (inst.writeInodeMetadata ino n).inode n = ino := by
  have hle := hreg.inodePlace_le n
  rw [← hfits]
  funext p
  rw [Inst.inode, geo_writeInodeMetadata, clip, clip]
  split_ifs with hp
  · rw [Inst.writeInodeMetadata, disk_writeBlock_same, clip_apply (by omega), copy_of_inside (by omega), hfits]
  · rfl

theorem inode_writeInodeMetadata_of_ne (hreg : inst.geo.Regular) (hn : inst.geo.HasInode n) (hm : inst.geo.HasInode m)
    (hne : m ≠ n) (hplace : inst.geo.inodeBlock m = inst.geo.inodeBlock n →
      inst.geo.inodeGroup m = inst.geo.inodeGroup n ∧ inst.geo.inodeBlockOffset m = inst.geo.inodeBlockOffset n) :
    (inst.writeInodeMetadata ino n).inode m = inst.inode m := by
  have hle := hreg.inodePlace_le m
  funext p
  rw [Inst.inode, Inst.inode, geo_writeInodeMetadata, clip, clip]
  split_ifs with hp
  · by_cases hblock : inst.geo.inodeBlock m = inst.geo.inodeBlock n
    · obtain ⟨hgroup, hoffset⟩ := hplace hblock
      have hapart := hreg.inodePlace_apart hn hm hne hgroup hoffset
      rw [hblock, Inst.writeInodeMetadata, disk_writeBlock_same, clip_apply (by omega), copy_of_outside (by omega)]
    · rw [disk_writeInodeMetadata hblock]
  · rfl

end Metadata

end Kairax.Ext2
