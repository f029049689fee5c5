import Kairax.Ext2.FileData

/-!
# The driver and the format

Three places where the driver reads the format of the volume in its own way: the number of the first block of a group,
the two halves of the size of a file, and the superblock of a volume that nobody has checked.
-/

namespace Kairax.Ext2

open Lib Option

/-- `superblock_idx`: the first block of the first group. -/
def Inst.superblockIdx (inst : Inst) : Nat := readLE inst.superblock 20 4

/-- The block of the bitmap that the format keeps a block in, and its bit there. -/
def Inst.formatBit (inst : Inst) (b : Nat) : Nat × Nat :=
  (inst.blockBitmap ((b - inst.superblockIdx) / inst.blocksPerGroup), (b - inst.superblockIdx) % inst.blocksPerGroup)

def Inst.formatUsed (inst : Inst) (b : Nat) : Bool := bitAt (inst.disk (inst.formatBit b).1) (inst.formatBit b).2

/-- The call of `ext2_free_block` clears the bit of the format and nothing else. -/
def Inst.FreesBit (inst : Inst) (b : Nat) : Prop :=
  ∃ inst', freeBlock inst b = some inst' ∧ (∀ c ≠ (inst.formatBit b).1, inst'.disk c = inst.disk c) ∧
    ∀ j < 8 * inst.blockSize, bitAt (inst'.disk (inst.formatBit b).1) j =
      if j = (inst.formatBit b).2 then false else bitAt (inst.disk (inst.formatBit b).1) j

section Numbers

variable {inst : Inst} {b : Nat}

theorem findFreeBlock_clear {fuel g g' i : Nat} (hfind : findFreeBlock inst fuel g = some (some (g', i))) :
    i < inst.blocksPerGroup ∧ bitAt (inst.disk (inst.blockBitmap g')) i = false := by
  induction fuel generalizing g with
  | zero => cases hfind
  | succ fuel ih =>
    rw [findFreeBlock] at hfind
    split_ifs at hfind
    · cases hfirst : firstClear (inst.disk (inst.blockBitmap g)) (8 * inst.blockSize) 0 with
      | none =>
        rw [hfirst] at hfind
        cases hfind
      | some j =>
        rw [hfirst] at hfind
        dsimp only at hfind
        split_ifs at hfind with hj
        · exact ih hfind
        · cases some.inj hfind
          exact ⟨not_le.mp hj, bitAt_firstClear hfirst⟩
    · exact ih hfind

theorem allocBlock_clear {inst' : Inst} (halloc : allocBlock inst = some (b, inst')) (hb : b ≠ 0) :
    bitAt (inst.disk (inst.blockBitmap (b / inst.blocksPerGroup))) (b % inst.blocksPerGroup) = false := by
  obtain ⟨found, hfind, hresult⟩ := map_eq_some_iff.mp halloc
  cases found with
  | none =>
    cases hresult
    exact absurd rfl hb
  | some p =>
    obtain ⟨hi, hclear⟩ := findFreeBlock_clear hfind
    dsimp only at hresult
    split_ifs at hresult
    · cases hresult
      exact absurd rfl hb
    · cases hresult
      rwa [mul_comm, Nat.mul_add_div (by omega), Nat.div_eq_of_lt hi, add_zero, Nat.mul_add_mod,
        Nat.mod_eq_of_lt hi]

theorem disk_freeBlock {inst' : Inst} (hfree : freeBlock inst b = some inst') :
    inst'.disk = (inst.writeBlock (inst.blockBitmap (b / inst.blocksPerGroup))
      (clearBit (inst.disk (inst.blockBitmap (b / inst.blocksPerGroup))) (b % inst.blocksPerGroup))).disk := by
  rw [freeBlock] at hfree
  split_ifs at hfree
  exact (congrArg Inst.disk (some.inj hfree)).symm

end Numbers

/-- The driver and the format agree about the blocks handed out and freed if and only if the groups begin with block 0.
-/
theorem block_numbering_iff {inst : Inst} {b : Nat} (hgroup : inst.superblockIdx < inst.blocksPerGroup)
    (hbitmap : inst.blocksPerGroup ≤ 8 * inst.blockSize) (hb : inst.superblockIdx ≤ b)
    (hused : inst.formatUsed b = true) :
    (∀ b' inst', allocBlock inst = some (b', inst') → b' ≠ 0 → inst.formatUsed b' = false) ∧ inst.FreesBit b ↔
      inst.superblockIdx = 0 := by
  constructor
  · rintro ⟨-, inst', hfree, -, hclear⟩
    by_contra hidx
    have hmod := Nat.mod_lt (b - inst.superblockIdx) ((Nat.zero_le _).trans_lt hgroup)
    have hother : (b - inst.superblockIdx) % inst.blocksPerGroup ≠ b % inst.blocksPerGroup := by
      intro hsame
      have hdvd := Nat.sub_mod_eq_zero_of_mod_eq hsame.symm
      rw [Nat.sub_sub_self hb, Nat.mod_eq_of_lt hgroup] at hdvd
      exact hidx hdvd
    have hgone := hclear (inst.formatBit b).2 (hmod.trans_le hbitmap)
    rw [if_pos rfl, disk_freeBlock hfree] at hgone
    have hkept : bitAt ((inst.writeBlock (inst.blockBitmap (b / inst.blocksPerGroup))
        (clearBit (inst.disk (inst.blockBitmap (b / inst.blocksPerGroup))) (b % inst.blocksPerGroup))).disk
          (inst.formatBit b).1) (inst.formatBit b).2 = true := by
      by_cases hblock : (inst.formatBit b).1 = inst.blockBitmap (b / inst.blocksPerGroup)
      · rw [hblock, disk_writeBlock_same]
        refine (bitAt_clip (hmod.trans_le hbitmap)).trans ((bitAt_clearBit ..).trans ?_)
        rw [if_neg hother, ← hblock]
        exact hused
      · rw [disk_writeBlock_of_ne _ _ hblock]
        exact hused
    exact Bool.false_ne_true (hgone.symm.trans hkept)
  · intro hidx
    have hbit (b : Nat) : inst.formatBit b =
        (inst.blockBitmap (b / inst.blocksPerGroup), b % inst.blocksPerGroup) := by
      rw [Inst.formatBit, hidx, Nat.sub_zero]
    refine ⟨fun b' inst' halloc hb' => ?_, ?_⟩
    · rw [Inst.formatUsed, hbit]
      exact allocBlock_clear halloc hb'
    · have hmod := Nat.mod_lt b ((Nat.zero_le _).trans_lt hgroup)
      obtain ⟨inst', hfree⟩ : ∃ inst', freeBlock inst b = some inst' :=
        ⟨_, if_pos (show b % inst.blocksPerGroup / 8 < inst.blockSize by omega)⟩
      refine ⟨inst', hfree, fun c hc => ?_, fun j hj => ?_⟩
      · rw [hbit] at hc
        rw [disk_freeBlock hfree, disk_writeBlock_of_ne _ _ hc]
      · rw [hbit, disk_freeBlock hfree, disk_writeBlock_same]
        exact (bitAt_clip hj).trans (bitAt_clearBit ..)

def numberedVolume (first : Nat) : Inst :=
  { smallVolume 0xff 24 0x7ff 5 with superblock := writeLE (smallVolume 0xff 24 0x7ff 5).superblock 20 4 first }

theorem block_numbering_zero : (numberedVolume 0).FreesBit 3 :=
  ((@block_numbering_iff (numberedVolume 0) 3 (by decide) (by decide) (by decide)
    (by decide)).mpr (by decide)).2

/-- With the first block 1, a used block is handed out, and the release of block 3 leaves its bit set. -/
theorem used_block_taken : (numberedVolume 1).formatUsed 8 = true ∧
    (allocBlock (numberedVolume 1)).map (·.1) = some 8 ∧ (numberedVolume 1).formatUsed 3 = true ∧
    (freeBlock (numberedVolume 1) 3).map (fun inst => (inst.formatUsed 3, inst.formatUsed 4)) = some (true, false) := by
  decide

def storedSize (ino : Buf) : Nat := Inode.sizeHigh ino * 2 ^ 32 + Inode.size ino

/-- The size in the VFS inode that `ext2_inode_to_vfs_inode` makes of a regular file. -/
def vfsSize (inst : Inst) (ino : Buf) : Nat :=
  if inst.fileSize64bitFlag then Inode.sizeHigh ino <<< 32 ||| Inode.size ino else Inode.size ino

section Sizes

variable {inst : Inst} {ino : Buf} {s : Nat}

theorem updateBlock_steady (inst : Inst) (ino : Buf) (n i o : Nat) (data : Buf) (len : Nat) :
    Along Inst.SteadyWith (·.2) (inst, ino) (updateBlock inst ino n i o data len) :=
  .read fun _ => writeInodeBlock_steady inst ino n _ _

theorem writeBlocks_steady (n start startOffset : Nat) (data : Buf) (left i written : Nat) (inst : Inst) (ino : Buf) :
    Along Inst.SteadyWith (·.2) (inst, ino) (writeBlocks n start startOffset data left i written inst ino) := by
  induction left generalizing i written inst ino with
  | zero => exact .some (Inst.Steady.refl inst).with
  | succ left ih =>
    refine .read fun temp => (writeInodeBlock_steady inst ino n _ temp).bind fun r => ?_
    dsimp only
    split_ifs
    · exact .some (Inst.Steady.refl _).with
    · exact ih _ _ _ _

theorem writeSpan_steady (inst : Inst) (ino : Buf) (n offset size : Nat) (data : Buf) :
    Along Inst.SteadyWith (·.2) (inst, ino) (writeSpan inst ino n offset size data) := by
  rw [writeSpan]
  by_cases hone : offset / inst.blockSize = (offset + size) / inst.blockSize
  · rw [if_pos hone]
    exact updateBlock_steady _ _ _ _ _ _ _
  · rw [if_neg hone]
    refine (writeBlocks_steady _ _ _ _ _ _ _ _ _).bind fun r => ?_
    dsimp only
    split_ifs
    · exact .some (Inst.Steady.refl _).with
    · exact updateBlock_steady _ _ _ _ _ _ _
    · exact .some (Inst.Steady.refl _).with

theorem storedSize_congr {ino' : Buf} (hsame : ∀ p, p < 28 ∨ 100 ≤ p → ino' p = ino p) :
    storedSize ino' = storedSize ino := by
  have hfield (o : Nat) (ho : o = 4 ∨ o = 108) : readLE ino' o 4 = readLE ino o 4 :=
    readLE_congr fun p hlow hhigh => hsame p (by omega)
  rw [storedSize, storedSize, Inode.size, Inode.sizeHigh, hfield 4 (.inl rfl), hfield 108 (.inr rfl)]
  rfl

theorem storedSize_inodeSetSize (ino : Buf) (hflag : inst.fileSize64bitFlag = true) (hs : s < 2 ^ 64) :
    Inode.sizeHigh (inodeSetSize inst ino s) = s / 2 ^ 32 ∧ Inode.size (inodeSetSize inst ino s) = s % 2 ^ 32 := by
  rw [inodeSetSize, if_pos hflag]
  constructor
  · refine (readLE_writeLE_of_disjoint (by omega)).trans ((readLE_writeLE _ _ 4 _).trans (Nat.mod_eq_of_lt ?_))
    omega
  · exact readLE_writeLE _ _ 4 s

theorem storedSize_writeInodeFiledata {n offset size : Nat} {data : Buf} {r : Int × Inst × Buf}
    (hwrite : writeInodeFiledata inst ino n offset size data = some r) :
    storedSize r.2.2 = storedSize (growFile inst ino n (offset + size)).2 := by
  rw [writeInodeFiledata] at hwrite
  dsimp only at hwrite
  split_ifs at hwrite
  · cases hwrite
    rfl
  · obtain ⟨x, hx, rfl⟩ := map_eq_some_iff.mp hwrite
    exact storedSize_congr (writeSpan_steady _ _ _ _ _ _ x hx).2

end Sizes

/-- The size that was set is read back, and a write leaves the larger of the old size and its end, if and only if the
size is below 4 GiB, and the file is, or the write does not end between the joined halves and the size. -/
theorem file_sizes_iff {inst : Inst} {ino : Buf} {s n offset size : Nat} {data : Buf} {r : Int × Inst × Buf}
    (hflag : inst.fileSize64bitFlag = true) (hs : s < 2 ^ 64) (hend : offset + size < 2 ^ 64)
    (hwrite : writeInodeFiledata inst ino n offset size data = some r) :
    inodeGetSize inst (inodeSetSize inst ino s) = s ∧ vfsSize inst (inodeSetSize inst ino s) = s ∧
        storedSize r.2.2 = max (storedSize ino) (offset + size) ↔
      s < 2 ^ 32 ∧ (Inode.sizeHigh ino = 0 ∨ offset + size ≤ Inode.sizeHigh ino ||| Inode.size ino ∨
        storedSize ino ≤ offset + size) := by
  obtain ⟨hhigh, hlow⟩ := storedSize_inodeSetSize ino hflag hs
  have hor {x y : Nat} (hx : x < 2 ^ 32) (hy : y < 2 ^ 32) : x ||| y < 2 ^ 32 := Nat.or_lt_two_pow hx hy
  have hget : inodeGetSize inst (inodeSetSize inst ino s) = s ↔ s < 2 ^ 32 := by
    rw [inodeGetSize, if_pos hflag, hhigh, hlow]
    constructor
    · intro heq
      exact heq ▸ hor (by omega) (Nat.mod_lt s (by decide))
    · intro hlt
      rw [Nat.div_eq_of_lt hlt, Nat.zero_or, Nat.mod_eq_of_lt hlt]
  have hvfs : vfsSize inst (inodeSetSize inst ino s) = s := by
    rw [vfsSize, if_pos hflag, hhigh, hlow, ← Nat.shiftLeft_add_eq_or_of_lt (Nat.mod_lt s (by decide)),
      Nat.shiftLeft_eq,
      Nat.div_add_mod']
  have hsize := readLE_lt ino 4 4
  have hsizeHigh := readLE_lt ino 108 4
  have hjoined := hor hsizeHigh hsize
  change Inode.sizeHigh ino ||| Inode.size ino < _ at hjoined
  rw [hget, and_iff_right hvfs, storedSize_writeInodeFiledata hwrite, growFile, inodeGetSize]
  refine and_congr_right fun _ => ?_
  split_ifs with hgrow
  · obtain ⟨hhigh', hlow'⟩ := storedSize_inodeSetSize ino hflag hend
    rw [storedSize, hhigh', hlow', Nat.div_add_mod', eq_comm, max_eq_right_iff, or_iff_right (not_le.mpr hgrow)]
    refine ⟨.inr, fun h => h.elim (fun hzero => ?_) id⟩
    rw [hzero, Nat.zero_or] at hgrow
    rw [storedSize, hzero, zero_mul, zero_add]
    exact hgrow.le
  · refine iff_of_true (Nat.max_eq_left ?_).symm (.inr (.inl (Nat.le_of_not_lt hgrow)))
    show _ ≤ storedSize ino
    by_cases hzero : Inode.sizeHigh ino = 0
    · rw [hzero, Nat.zero_or] at hgrow
      rw [storedSize]
      omega
    · rw [storedSize]
      omega

theorem file_sizes_below : ∃ r, writeInodeFiledata { freshVolume with fileSize64bitFlag := true } (fun _ => 0) 12 0 5
    (fun _ => 7) = some r ∧ storedSize r.2.2 = 5 := by
  obtain ⟨r, hwrite⟩ : ∃ r, writeInodeFiledata { freshVolume with fileSize64bitFlag := true } (fun _ => 0) 12 0 5
      (fun _ => 7) = some r := isSome_iff_exists.mp (by decide)
  have hsizes := (file_sizes_iff (s := 0) rfl (by decide) (by decide) hwrite).mpr ⟨by decide, .inl (by decide)⟩
  exact ⟨r, hwrite, hsizes.2.2.trans (by decide)⟩

/-- The size 4 GiB is read back as 1, and a write of one byte to a file of this size at offset 9 leaves the size 10. -/
theorem size_lost : inodeGetSize { freshVolume with fileSize64bitFlag := true }
      (inodeSetSize { freshVolume with fileSize64bitFlag := true } (fun _ => 0) (2 ^ 32)) = 1 ∧
    (writeInodeFiledata { freshVolume with fileSize64bitFlag := true }
      (inodeSetSize { freshVolume with fileSize64bitFlag := true } (fun _ => 0) (2 ^ 32)) 12 9 1 fun _ => 7).map
        (fun r => (r.1, storedSize r.2.2)) = some (1, 10) := by
  decide

/-- The loops that round a quotient up: `while (per * count < total) count++`. -/
def roundUp (per total : Nat) : Nat → Nat → Nat
  | 0, count => count
  | fuel + 1, count => if per * count < total then roundUp per total fuel (count + 1) else count

/-- What `ext2_inode` needs: no division by zero, and the group and the inode in their buffers. -/
structure Geo.ReadsInside (G : Geo) (n : Nat) : Prop where
  inodesPerGroup : G.inodesPerGroup ≠ 0
  blockSize : G.blockSize ≠ 0
  inodeSize : G.inodeSize ≠ 0
  group : G.inodeGroup n < G.totalGroups
  place : G.inodePlace n % 2 ^ 32 + 128 ≤ G.blockSize

def superblockOf (part : Buf) : Buf := clip 1024 fun p => part (1024 + p)

/-- The instance that `ext2_mount` makes. -/
def mountInst (part : Buf) : Inst :=
  let superblock := superblockOf part
  let totalBlocks := readLE superblock 4 4
  let blocksPerGroup := readLE superblock 32 4
  let blockSize := 1024 <<< readLE superblock 24 4
  let totalGroups := roundUp blocksPerGroup totalBlocks totalBlocks (totalBlocks / blocksPerGroup)
  let bgdsBlocks := roundUp blockSize (totalGroups * 32) (totalGroups * 32) (totalGroups * 32 / blockSize)
  let bgdStartBlock := if blockSize = 1024 then 2 else 1
  { disk := fun b => clip blockSize fun p => part (b * blockSize + p)
    superblock
    bgds := clip (bgdsBlocks * blockSize) fun p => part (bgdStartBlock * blockSize + p)
    blockSize
    totalGroups
    bgdStartBlock
    bgdsBlocks
    fileSize64bitFlag := 1 ≤ readLE superblock 76 4 ∧ (readLE superblock 100 4).testBit 1
    exhausted := false }

/-- `ext2_mount` up to the read of the root. It is undefined where the shift of 1024 overflows and where it divides by
zero. -/
def ext2Mount (part : Buf) : Option (Option Inst) :=
  if readLE (superblockOf part) 56 2 ≠ 61267 then some none
  else if 20 < readLE (superblockOf part) 24 4 ∨ readLE (superblockOf part) 32 4 = 0 then none
  else some (some (mountInst part))

/-- No field is zero, the groups have room for all inodes, and no inode leaves its block. An inode at `w` is read behind
its place by the rest of a block for each block in front of it. -/
structure Readable (superblock : Buf) : Prop where
  log2blockSize : readLE superblock 24 4 ≤ 20
  blocksPerGroup : readLE superblock 32 4 ≠ 0
  inodesPerGroup : readLE superblock 40 4 ≠ 0
  inodeSize : readLE superblock 88 2 ≠ 0
  groups : max 2 (readLE superblock 0 4) ≤ readLE superblock 40 4 *
    ((readLE superblock 4 4 + (readLE superblock 32 4 - 1)) / readLE superblock 32 4)
  inside : ∀ i < min (readLE superblock 40 4) (max 2 (readLE superblock 0 4)),
    let blockSize := 1024 <<< readLE superblock 24 4
    let w := i * readLE superblock 88 2 % 2 ^ 32
    (w % blockSize + w / blockSize * (blockSize % readLE superblock 88 2)) % 2 ^ 32 + 128 ≤ blockSize

section Mount

theorem roundUp_eq {per total : Nat} (hper : per ≠ 0) :
    roundUp per total total (total / per) = (total + (per - 1)) / per := by
  have hpos := pos_of_ne_zero hper
  have hsplit := Nat.div_add_mod total per
  have hmod := Nat.mod_lt total hpos
  have hceil : (total + (per - 1)) / per = total / per + (total % per + (per - 1)) / per := by
    rw [← Nat.mul_add_div hpos, ← add_assoc, hsplit]
  rw [hceil]
  cases total with
  | zero => simp [roundUp, Nat.div_eq_of_lt, hpos]
  | succ t =>
    rw [roundUp]
    split_ifs with hless
    · have hdone : ¬ per * ((t + 1) / per + 1) < t + 1 := by
        rw [Nat.mul_add_one]
        omega
      rw [show ((t + 1) % per + (per - 1)) / per = 1 from Nat.div_eq_of_lt_le (by omega) (by omega)]
      cases t with
      | zero => rfl
      | succ t => rw [roundUp, if_neg hdone]
    · rw [show ((t + 1) % per + (per - 1)) / per = 0 from Nat.div_eq_of_lt (by omega)]
      rfl

theorem place_eq (i inodeSize blockSize : Nat) :
    (i - i * inodeSize % 2 ^ 32 / blockSize * (blockSize / inodeSize)) * inodeSize % 2 ^ 32 =
      (i * inodeSize % 2 ^ 32 % blockSize +
        i * inodeSize % 2 ^ 32 / blockSize * (blockSize % inodeSize)) % 2 ^ 32 := by
  generalize hw : i * inodeSize % 2 ^ 32 = w
  have hrest : w / blockSize * (blockSize / inodeSize) * inodeSize + w / blockSize * (blockSize % inodeSize) +
      w % blockSize = w := by
    rw [mul_assoc, ← mul_add, Nat.div_add_mod', Nat.div_add_mod']
  have hturns := Nat.div_add_mod (i * inodeSize) (2 ^ 32)
  rw [Nat.sub_mul]
  omega

theorem readsInside_iff {G : Geo} {n : Nat} (hlow : 1 ≤ n) (hhigh : n ≤ 2 ^ 32) (hper : G.inodesPerGroup ≠ 0)
    (hsize : G.blockSize ≠ 0) (hinode : G.inodeSize ≠ 0) :
    G.ReadsInside n ↔ n ≤ G.inodesPerGroup * G.totalGroups ∧
      ((n - 1) % G.inodesPerGroup * G.inodeSize % 2 ^ 32 % G.blockSize +
        (n - 1) % G.inodesPerGroup * G.inodeSize % 2 ^ 32 / G.blockSize * (G.blockSize % G.inodeSize)) % 2 ^ 32 +
          128 ≤ G.blockSize := by
  have hindex : inodeIndex n = n - 1 := by
    rw [inodeIndex]
    omega
  rw [← place_eq, ← hindex, ← Geo.idxInGroup_eq]
  have hgroup : G.inodeGroup n < G.totalGroups ↔ n ≤ G.inodesPerGroup * G.totalGroups := by
    rw [Geo.inodeGroup, Nat.div_lt_iff_lt_mul (pos_of_ne_zero hper), mul_comm]
    omega
  exact ⟨fun h => ⟨hgroup.mp h.group, h.place⟩, fun h => ⟨hper, hsize, hinode, hgroup.mpr h.1, h.2⟩⟩

end Mount

/-- A volume is mounted and every inode is read inside the buffers if and only if the superblock is `Readable`. -/
theorem mount_reads_iff {part : Buf} (hmagic : readLE (superblockOf part) 56 2 = 61267) :
    (∃ inst, ext2Mount part = some (some inst) ∧
        ∀ n, n = 2 ∨ (1 ≤ n ∧ n ≤ readLE (superblockOf part) 0 4) → inst.geo.ReadsInside n) ↔
      Readable (superblockOf part) := by
  rw [ext2Mount, if_neg (not_not_intro hmagic)]
  by_cases hbad : 20 < readLE (superblockOf part) 24 4 ∨ readLE (superblockOf part) 32 4 = 0
  · rw [if_pos hbad]
    refine iff_of_false (fun ⟨_, h, _⟩ => by cases h) fun h => ?_
    exact hbad.elim (fun h' => by have := h.log2blockSize; omega) h.blocksPerGroup
  rw [if_neg hbad]
  push Not at hbad
  have hinst : (∃ inst, some (some (mountInst part)) = some (some inst) ∧
      ∀ n, n = 2 ∨ (1 ≤ n ∧ n ≤ readLE (superblockOf part) 0 4) → inst.geo.ReadsInside n) ↔
      ∀ n, n = 2 ∨ (1 ≤ n ∧ n ≤ readLE (superblockOf part) 0 4) → (mountInst part).geo.ReadsInside n :=
    ⟨fun ⟨inst, hinst, h⟩ => some.inj (some.inj hinst) ▸ h, fun h => ⟨_, rfl, h⟩⟩
  rw [hinst]
  have htotal := readLE_lt (superblockOf part) 0 4
  have hgroups : (mountInst part).geo.totalGroups = _ := roundUp_eq hbad.2
  have hsize : (mountInst part).geo.blockSize ≠ 0 := by
    show 1024 <<< _ ≠ 0
    rw [Nat.shiftLeft_eq]
    exact Nat.mul_ne_zero (by decide) (Nat.two_pow_pos _).ne'
  constructor
  · intro hall
    obtain ⟨hper, -, hinode, -, -⟩ := hall 2 (.inl rfl)
    refine ⟨hbad.1, hbad.2, hper, hinode, ?_, fun i hi => ?_⟩
    · rw [← hgroups]
      exact ((readsInside_iff (by omega) (by omega) hper hsize hinode).mp
        (hall (max 2 (readLE (superblockOf part) 0 4)) (by omega))).1
    · rcases eq_zero_or_pos i with rfl | hi'
      · simp only [zero_mul, Nat.zero_mod, Nat.zero_div, Nat.shiftLeft_eq]
        exact le_trans (by decide) (Nat.le_mul_of_pos_right 1024 (Nat.two_pow_pos _))
      · have hinside := ((readsInside_iff (by omega) (by omega) hper hsize hinode).mp (hall (i + 1) (by omega))).2
        rw [Nat.add_sub_cancel, Nat.mod_eq_of_lt (show i < (mountInst part).geo.inodesPerGroup from by
          exact hi.trans_le (min_le_left ..))] at hinside
        exact hinside
  · intro hread n hn
    have hmod := Nat.mod_lt (n - 1) (pos_of_ne_zero hread.inodesPerGroup)
    have hle := Nat.mod_le (n - 1) (readLE (superblockOf part) 40 4)
    refine (readsInside_iff (by omega) (by omega) hread.inodesPerGroup hsize hread.inodeSize).mpr ⟨?_, ?_⟩
    · rw [hgroups]
      exact le_trans (by omega) hread.groups
    · exact hread.inside ((n - 1) % readLE (superblockOf part) 40 4) (by omega)

/-- A volume with 1 KiB blocks, one group of 32 blocks and 16 inodes of a given size. -/
def bareVolume (inodesPerGroup inodeSize : Nat) : Buf := fun p =>
  packed [(0, 4, 16), (4, 4, 32), (32, 4, 32), (40, 4, inodesPerGroup), (56, 2, 61267), (88, 2, inodeSize)] (p - 1024)

theorem mount_reads_bare : ∃ inst, ext2Mount (bareVolume 16 128) = some (some inst) ∧ inst.geo.ReadsInside 16 := by
  obtain ⟨inst, hmount, hall⟩ := (@mount_reads_iff (bareVolume 16 128) (by decide)).mpr
    ⟨by decide, by decide, by decide, by decide, by decide, by decide⟩
  exact ⟨inst, hmount, hall 16 (.inr (by decide))⟩

/-- Volumes that are not rejected: one without inodes in a group, and one with 15 of them. -/
theorem unreadable_mounted : (∀ inst ∈ (ext2Mount (bareVolume 0 128)).join, inst.geo.inodesPerGroup = 0) ∧
    (ext2Mount (bareVolume 0 128)).join.isSome = true ∧
    ((ext2Mount (bareVolume 15 128)).join.map fun inst => (inst.geo.inodeGroup 16, inst.geo.totalGroups)) =
      some (1, 1) := by
  refine ⟨fun inst hinst => ?_, by decide, by decide⟩
  cases hinst
  decide

end Kairax.Ext2
