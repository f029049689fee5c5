import Mathlib.Data.List.Nodup
import Mathlib.Data.List.Range
import Mathlib.Tactic.Ring
import Kairax.Fat.Volume

/-!
# Inode numbers of a FAT volume

A number is made of the sector and the offset of a directory record, and `fat_read_dentry` takes it apart again. The
root directory gets the number of its own first record.
-/

namespace Kairax.Fat

open Lib List

/-- `WRONG_INODE_INDEX` -/
def wrongInodeIndex : Nat := 2 ^ 64 - 1

inductive DirBlock
  | sector (index : Nat)
  | cluster (id : Nat)
  deriving DecidableEq

/-- The 32 bytes of a `struct fat_direntry`. -/
def recordAt (buf : Buf) (offset : Nat) : Buf := clip 32 fun i => buf (offset + i)

/-- `name[0]` is a byte of a name, and the record is not a part of a long name or the label of the volume. -/
def isEntry (record : Buf) : Bool :=
  record 0 != 0 && record 0 != 0xE5 && record 11 != 0x0F && record 11 &&& 0x08 == 0

namespace Instance

variable (inst : Instance)

/-- What `fat_read_directory_cluster` stores in `first_sector`. -/
def baseSector : DirBlock → Nat
  | .sector index => (inst.rootDirSector + index) % 2 ^ 32
  | .cluster id => ((id + 2 ^ 32 - 2) * inst.sectorsPerCluster + inst.firstDataSector) % 2 ^ 32

def toInodeNumSector (sector offset : Nat) : Nat :=
  ((sector + offset / inst.bytesPerSector) % 2 ^ 32) <<< 32 ||| offset % inst.bytesPerSector

def toInodeNum (cluster offset : Nat) : Nat := inst.baseSector (.cluster cluster) <<< 32 ||| offset

/-- The number that `fat_mount` gives to the root directory. -/
def rootInodeNum : Nat :=
  match inst.fsType with
  | .fat12 | .fat16 => inst.toInodeNumSector inst.rootDirSector 0
  | .fat32 => inst.toInodeNum inst.rootCluster 0

/-- The number that `fat_find_dentry` and `fat_file_readdir` return for the record at `pos` of a block. -/
def entryInodeNum (place : DirBlock × Nat) : Nat := inst.toInodeNumSector (inst.baseSector place.1) place.2

/-- `fat_read_dentry` on a drive with blocks of the given size. It is `none` if the transfer does not fit in the buffer,
or the record is not in what was read. -/
def readDentry (blockSize : Nat) (disk : Buf) (inodeNum : Nat) : Option (Except Int Buf) :=
  let sector := inodeNum / 2 ^ 32
  let offset := inodeNum % 2 ^ 32
  if inodeNum = wrongInodeIndex then some (.error (-enoent))
  else if offset % 32 ≠ 0 then some (.error (-enoent))
  else
    match inst.readSector sector 1 with
    | .error rc => some (.error rc)
    | .ok io =>
      if inst.bytesPerSector < io.count * blockSize ∨ io.count * blockSize < offset + 32 then none
      else
        let record := recordAt disk (io.lba * blockSize + offset)
        if record 0 = 0 ∨ record 0 = 0xE5 then some (.error (-enoent)) else some (.ok record)

end Instance

/-- A volume, with the blocks of its root directory and the clusters of the other directories. -/
structure Volume where
  blockSize : Nat
  bpb : Bpb
  info : FsInfo
  disk : Buf
  root : List DirBlock
  directories : List (List Nat)

namespace Volume

variable (v : Volume)

def inst : Instance := v.bpb.toInstance

def blocks : List DirBlock := v.root ++ v.directories.flatten.map .cluster

def rootStart : DirBlock := if v.inst.fsType = .fat32 then .cluster v.inst.rootCluster else .sector 0

def firstSector : DirBlock → Nat
  | .sector index => v.bpb.reservedSectorCount.toNat + v.bpb.fatsCount.toNat * v.bpb.fatSize + index
  | .cluster id => v.bpb.metaSectors + (id - 2) * v.bpb.sectorsPerCluster.toNat

def sectorsOf : DirBlock → Nat
  | .sector _ => 1
  | .cluster _ => v.bpb.sectorsPerCluster.toNat

def address (place : DirBlock × Nat) : Nat := v.firstSector place.1 * v.bpb.bytesPerSector.toNat + place.2

def record (place : DirBlock × Nat) : Buf := recordAt v.disk (v.address place)

def places (blocks : List DirBlock) : List (DirBlock × Nat) :=
  blocks.flatMap fun b =>
    (range (v.sectorsOf b * v.bpb.bytesPerSector.toNat / 32)).map fun i => (b, 32 * i)

/-- The entries of a directory. The first record with no name ends it. -/
def entriesOf (blocks : List DirBlock) : List (DirBlock × Nat) :=
  ((v.places blocks).takeWhile fun p => v.record p 0 != 0).filter fun p => isEntry (v.record p)

def entries : List (DirBlock × Nat) :=
  v.entriesOf v.root ++ v.directories.flatMap fun chain => v.entriesOf (chain.map .cluster)

inductive IsRoot : Prop
  | fixed (hfs : v.inst.fsType ≠ .fat32) (hentries : 0 < v.bpb.rootEntryCount.toNat)
      (hroot : v.root = (range v.bpb.rootDirSectors).map .sector)
  | chain (hfs : v.inst.fsType = .fat32) (rest : List Nat)
      (hroot : v.root = (v.inst.rootCluster :: rest).map .cluster)

/-- No block belongs to two directories or twice to one. -/
structure Consistent : Prop where
  mounted : fatMount v.blockSize v.bpb v.info = .ok v.inst
  sectorSize : v.bpb.bytesPerSector.toNat ∈ [512, 1024, 2048, 4096]
  dataClusters : 0 < v.bpb.dataClusters
  root : v.IsRoot
  clusters : ∀ c, .cluster c ∈ v.blocks → 2 ≤ c ∧ c ≤ v.bpb.dataClusters + 1
  nodup : v.blocks.Nodup

/-- The numbers of the root and of all entries are distinct, and each entry is read back by its number. -/
structure Identified : Prop where
  distinct : (v.inst.rootInodeNum :: v.entries.map v.inst.entryInodeNum).Nodup
  readBack : ∀ p ∈ v.entries, v.inst.readDentry v.blockSize v.disk (v.inst.entryInodeNum p) = some (.ok (v.record p))

end Volume

def numberOf (bytesPerSector a : Nat) : Nat := a / bytesPerSector * 2 ^ 32 + a % bytesPerSector

variable {blockSize bytesPerSector : Nat} {p q : DirBlock × Nat} {blocks : List DirBlock} {b : DirBlock}

section

variable (hpos : 0 < bytesPerSector) (hlt : bytesPerSector ≤ 2 ^ 32)
include hpos hlt

theorem numberOf_div (a : Nat) : numberOf bytesPerSector a / 2 ^ 32 = a / bytesPerSector := by
  have hoffset := (Nat.mod_lt a hpos).trans_le hlt
  rw [numberOf, mul_comm, Nat.mul_add_div (by decide), Nat.div_eq_of_lt hoffset, add_zero]

theorem numberOf_mod (a : Nat) : numberOf bytesPerSector a % 2 ^ 32 = a % bytesPerSector := by
  have hoffset := (Nat.mod_lt a hpos).trans_le hlt
  rw [numberOf, mul_comm, Nat.mul_add_mod, Nat.mod_eq_of_lt hoffset]

theorem numberOf_injective : Function.Injective (numberOf bytesPerSector) := by
  intro a b heq
  have hdiv : a / bytesPerSector = b / bytesPerSector := by
    rw [← numberOf_div hpos hlt a, heq, numberOf_div hpos hlt b]
  have hmod : a % bytesPerSector = b % bytesPerSector := by
    rw [← numberOf_mod hpos hlt a, heq, numberOf_mod hpos hlt b]
  rw [← Nat.div_add_mod a bytesPerSector, hdiv, hmod, Nat.div_add_mod]

end

namespace Instance

variable {inst : Instance}

theorem toInodeNumSector_eq (hpos : 0 < inst.bytesPerSector) (hlt : inst.bytesPerSector ≤ 2 ^ 32) {sector offset : Nat}
    (hsector : sector + offset / inst.bytesPerSector < 2 ^ 32) :
    inst.toInodeNumSector sector offset =
      numberOf inst.bytesPerSector (sector * inst.bytesPerSector + offset) := by
  have hoffset := Nat.mod_lt offset hpos
  rw [toInodeNumSector, Nat.mod_eq_of_lt hsector, ← Nat.shiftLeft_add_eq_or_of_lt (by omega), Nat.shiftLeft_eq,
    numberOf, mul_comm sector, Nat.mul_add_div hpos, Nat.mul_add_mod]

theorem readDentry_numberOf (hattached : inst.detached = false) (hcount : inst.sectorsCount < 2 ^ 32) {k : Nat}
    (hbps : inst.bytesPerSector = 512 * k) (hk : 0 < k) (hsmall : k ≤ 8) (hblock : 512 ≤ blockSize) (disk : Buf)
    {a : Nat} (haligned : a % 32 = 0) (hinside : a / inst.bytesPerSector < inst.sectorsCount) :
    inst.readDentry blockSize disk (numberOf inst.bytesPerSector a) =
      if blockSize ≠ 512 then none
      else if recordAt disk a 0 = 0 ∨ recordAt disk a 0 = 0xE5 then some (.error (-enoent))
      else some (.ok (recordAt disk a)) := by
  have hpos : 0 < inst.bytesPerSector := by omega
  have hle : inst.bytesPerSector ≤ 2 ^ 32 := by omega
  have hoffset := Nat.mod_lt a hpos
  have hmod : a % inst.bytesPerSector % 32 = 0 := by
    rw [hbps, Nat.mod_mod_of_dvd a ⟨16 * k, by ring⟩, haligned]
  have hnumber : numberOf inst.bytesPerSector a ≠ wrongInodeIndex := by
    intro heq
    have hlow := numberOf_mod hpos hle a
    rw [heq, wrongInodeIndex] at hlow
    omega
  have hbytes : a / inst.bytesPerSector * inst.bytesPerSector % 2 ^ 64 = 512 * (a / inst.bytesPerSector * k) := by
    have hmul : a / inst.bytesPerSector * inst.bytesPerSector ≤ 2 ^ 32 * (512 * 8) :=
      Nat.mul_le_mul (by omega) (by omega)
    rw [Nat.mod_eq_of_lt (by omega)]
    nth_rewrite 2 [hbps]
    ring
  have hcountBytes : 1 * inst.bytesPerSector % 2 ^ 64 = 512 * k := by
    rw [one_mul, hbps, Nat.mod_eq_of_lt (by omega)]
  rw [readDentry, if_neg hnumber, numberOf_mod hpos hle, numberOf_div hpos hle, if_neg (not_not.mpr hmod), readSector,
    sectorIo, hattached, if_neg Bool.false_ne_true, if_neg (by omega), hbytes, hcountBytes,
    Nat.mul_div_cancel_left _ (by decide), Nat.mul_div_cancel_left _ (by decide)]
  by_cases hsize : blockSize = 512
  · have haddress : a / inst.bytesPerSector * k * 512 + a % inst.bytesPerSector = a := by
      rw [mul_assoc, mul_comm k, ← hbps, mul_comm, Nat.div_add_mod]
    have hroom : ¬ (inst.bytesPerSector < k * 512 ∨ k * 512 < a % inst.bytesPerSector + 32) := by
      omega
    rw [if_neg (not_not.mpr hsize), hsize]
    show (if inst.bytesPerSector < k * 512 ∨ k * 512 < a % inst.bytesPerSector + 32 then none else _) = _
    rw [if_neg hroom, haddress]
  · have hover : inst.bytesPerSector < k * blockSize := by
      rw [hbps, mul_comm]
      exact Nat.mul_lt_mul_of_pos_left (by omega) hk
    rw [if_pos hsize]
    exact if_pos (Or.inl hover)

end Instance

namespace Volume

variable {v : Volume}

namespace Consistent

variable (hv : v.Consistent)
include hv

theorem blockSize_ge : 512 ≤ v.blockSize := (fatMount_ok hv.mounted).1

theorem sectorSize_eq : ∃ k, v.bpb.bytesPerSector.toNat = 512 * k ∧ 0 < k ∧ k ≤ 8 := by
  have hmem := hv.sectorSize
  simp only [mem_cons, not_mem_nil, or_false] at hmem
  obtain h | h | h | h := hmem
  · exact ⟨1, h, by decide, by decide⟩
  · exact ⟨2, h, by decide, by decide⟩
  · exact ⟨4, h, by decide, by decide⟩
  · exact ⟨8, h, by decide, by decide⟩

theorem metaSectors_lt : v.bpb.metaSectors + v.bpb.sectorsPerCluster.toNat ≤ v.bpb.sectorsCount := by
  have hend := Bpb.clusterEnd_le hv.dataClusters le_rfl (Nat.succ_le_succ hv.dataClusters)
  omega

theorem index_lt {i : Nat} (hmem : .sector i ∈ v.blocks) : i < v.bpb.rootDirSectors := by
  rw [blocks, mem_append] at hmem
  obtain hmem | hmem := hmem
  · cases hv.root with
    | fixed hfs hentries hroot =>
      rw [hroot, mem_map] at hmem
      obtain ⟨j, hj, heq⟩ := hmem
      rw [← DirBlock.sector.inj heq]
      exact mem_range.mp hj
    | chain hfs rest hroot =>
      rw [hroot, mem_map] at hmem
      obtain ⟨c, -, heq⟩ := hmem
      cases heq
  · obtain ⟨c, -, heq⟩ := mem_map.mp hmem
    cases heq

theorem block_end (hmem : b ∈ v.blocks) : v.firstSector b + v.sectorsOf b ≤ v.bpb.sectorsCount := by
  cases b with
  | sector i =>
    have hindex := hv.index_lt hmem
    have hmeta := hv.metaSectors_lt
    rw [Bpb.metaSectors] at hmeta
    rw [firstSector, sectorsOf]
    omega
  | cluster c =>
    obtain ⟨hlow, hhigh⟩ := hv.clusters c hmem
    exact Bpb.clusterEnd_le hv.dataClusters hlow hhigh

theorem rootDirSector_eq : v.inst.rootDirSector = v.firstSector (.sector 0) := by
  have hmeta := hv.metaSectors_lt
  have hcount := v.bpb.sectorsCount_lt
  rw [Bpb.metaSectors] at hmeta
  exact Nat.mod_eq_of_lt (by omega)

theorem baseSector_eq (hmem : b ∈ v.blocks) : v.inst.baseSector b = v.firstSector b := by
  have hend := hv.block_end hmem
  have hcount := v.bpb.sectorsCount_lt
  cases b with
  | sector i =>
    rw [firstSector] at hend
    rw [Instance.baseSector, hv.rootDirSector_eq, firstSector]
    exact Nat.mod_eq_of_lt (by omega)
  | cluster c =>
    have hlow := (hv.clusters c hmem).1
    have hspc : v.inst.sectorsPerCluster = v.bpb.sectorsPerCluster.toNat := rfl
    have hcut : (c + 2 ^ 32 - 2) * v.bpb.sectorsPerCluster.toNat =
        (c - 2) * v.bpb.sectorsPerCluster.toNat + 2 ^ 32 * v.bpb.sectorsPerCluster.toNat := by
      rw [← add_mul]
      congr 1
      omega
    rw [firstSector] at hend
    rw [Instance.baseSector, hspc, hcut, show v.inst.firstDataSector = v.bpb.metaSectors from
      (Bpb.toInstance_layout (Nat.le_of_add_right_le hv.metaSectors_lt)).1, add_right_comm, Nat.add_mul_mod_self_left,
      firstSector,
      Nat.mod_eq_of_lt (by omega), add_comm]

theorem blocks_apart {b' : DirBlock} (hmem : b ∈ v.blocks) (hmem' : b' ∈ v.blocks) (hne : b ≠ b') :
    v.firstSector b + v.sectorsOf b ≤ v.firstSector b' ∨ v.firstSector b' + v.sectorsOf b' ≤ v.firstSector b := by
  have hbefore {i c : Nat} (hi : .sector i ∈ v.blocks) :
      v.firstSector (.sector i) + 1 ≤ v.firstSector (.cluster c) := by
    have hindex := hv.index_lt hi
    rw [firstSector, firstSector, Bpb.metaSectors]
    omega
  have hstep {c d : Nat} (hc : 2 ≤ c) (hlt : c < d) :
      v.firstSector (.cluster c) + v.bpb.sectorsPerCluster.toNat ≤ v.firstSector (.cluster d) := by
    have hmul : (c - 2 + 1) * v.bpb.sectorsPerCluster.toNat ≤ (d - 2) * v.bpb.sectorsPerCluster.toNat :=
      Nat.mul_le_mul_right _ (by omega)
    rw [Nat.succ_mul] at hmul
    rw [firstSector, firstSector]
    omega
  cases b with
  | sector i =>
    cases b' with
    | sector j =>
      have hij : i ≠ j := fun heq => hne (congrArg DirBlock.sector heq)
      simp only [firstSector, sectorsOf]
      omega
    | cluster d => exact Or.inl (hbefore hmem)
  | cluster c =>
    cases b' with
    | sector j => exact Or.inr (hbefore hmem')
    | cluster d =>
      obtain hlt | hlt := Nat.lt_or_gt_of_ne fun heq => hne (congrArg DirBlock.cluster heq)
      · exact Or.inl (hstep (hv.clusters c hmem).1 hlt)
      · exact Or.inr (hstep (hv.clusters d hmem').1 hlt)

end Consistent

def Within (v : Volume) (p : DirBlock × Nat) : Prop :=
  p.1 ∈ v.blocks ∧ p.2 % 32 = 0 ∧ p.2 < v.sectorsOf p.1 * v.bpb.bytesPerSector.toNat

theorem mem_places (hmem : p ∈ v.places blocks) :
    p.1 ∈ blocks ∧ p.2 % 32 = 0 ∧ p.2 < v.sectorsOf p.1 * v.bpb.bytesPerSector.toNat := by
  rw [places, mem_flatMap] at hmem
  obtain ⟨b, hb, hmem⟩ := hmem
  obtain ⟨i, hi, rfl⟩ := mem_map.mp hmem
  rw [mem_range] at hi
  exact ⟨hb, Nat.mul_mod_right 32 i, by dsimp only; omega⟩

theorem nodup_places (hnodup : blocks.Nodup) : (v.places blocks).Nodup := by
  rw [places, nodup_flatMap]
  refine ⟨fun b _ => ?_, ?_⟩
  · refine List.Nodup.map ?_ nodup_range
    intro i j heq
    have h32 := (Prod.mk.inj heq).2
    omega
  · refine hnodup.imp fun {b b'} hne p hp hp' => hne ?_
    obtain ⟨i, -, rfl⟩ := mem_map.mp hp
    obtain ⟨j, -, heq⟩ := mem_map.mp hp'
    exact (Prod.mk.inj heq).1.symm

theorem entriesOf_sublist (blocks : List DirBlock) : (v.entriesOf blocks).Sublist (v.places blocks) :=
  filter_sublist.trans (takeWhile_sublist _)

theorem entries_sublist (v : Volume) : v.entries.Sublist (v.places v.blocks) := by
  rw [places, blocks, flatMap_append]
  refine (entriesOf_sublist v.root).append ?_
  induction v.directories with
  | nil => exact List.Sublist.refl _
  | cons chain rest ih =>
    rw [flatten_cons, map_append, flatMap_append]
    exact (entriesOf_sublist (chain.map .cluster)).append ih

theorem within_of_mem (hmem : p ∈ v.entries) : v.Within p :=
  mem_places (v.entries_sublist.subset hmem)

theorem isEntry_of_mem (hmem : p ∈ v.entries) : isEntry (v.record p) = true := by
  rw [entries, mem_append, mem_flatMap] at hmem
  obtain hmem | ⟨chain, -, hmem⟩ := hmem
  · exact (mem_filter.mp hmem).2
  · exact (mem_filter.mp hmem).2

theorem isEntry_iff {record : Buf} : isEntry record = true ↔
    record 0 ≠ 0 ∧ record 0 ≠ 0xE5 ∧ record 11 ≠ 0x0F ∧ record 11 &&& 0x08 = 0 := by
  simp only [isEntry, Bool.and_eq_true, bne_iff_ne, beq_iff_eq, and_assoc]

namespace Consistent

variable (hv : v.Consistent)
include hv

theorem nodup_entries : v.entries.Nodup := v.entries_sublist.nodup (nodup_places hv.nodup)

theorem sector_lt (hp : v.Within p) : v.firstSector p.1 + p.2 / v.bpb.bytesPerSector.toNat < v.bpb.sectorsCount := by
  have hend := hv.block_end hp.1
  have hpos := Nat.div_lt_of_lt_mul (Nat.mul_comm _ _ ▸ hp.2.2)
  omega

theorem entryInodeNum_eq (hp : v.Within p) :
    v.inst.entryInodeNum p = numberOf v.bpb.bytesPerSector.toNat (v.address p) := by
  obtain ⟨k, hbps, hk, hsmall⟩ := hv.sectorSize_eq
  have hsector := hv.sector_lt hp
  have hcount := v.bpb.sectorsCount_lt
  have hinst : v.inst.bytesPerSector = v.bpb.bytesPerSector.toNat := rfl
  rw [Instance.entryInodeNum, hv.baseSector_eq hp.1, Instance.toInodeNumSector_eq (by omega) (by omega)
    (by rw [hinst]; omega), hinst, address]

theorem address_injective (hp : v.Within p) (hq : v.Within q) (heq : v.address p = v.address q) : p = q := by
  by_cases hblock : p.1 = q.1
  · rw [address, hblock] at heq
    exact Prod.ext hblock (Nat.add_left_cancel heq)
  · have hover {p q : DirBlock × Nat} (hp : v.Within p)
        (hle : v.firstSector p.1 + v.sectorsOf p.1 ≤ v.firstSector q.1) : v.address p < v.address q := by
      have hmul := Nat.mul_le_mul_right v.bpb.bytesPerSector.toNat hle
      have hlt := hp.2.2
      rw [add_mul] at hmul
      rw [address, address]
      omega
    obtain hle | hle := hv.blocks_apart hp.1 hq.1 hblock
    · exact absurd heq (hover hp hle).ne
    · exact absurd heq.symm (hover hq hle).ne

theorem entryInodeNum_injective (hp : v.Within p) (hq : v.Within q)
    (heq : v.inst.entryInodeNum p = v.inst.entryInodeNum q) : p = q := by
  obtain ⟨k, hbps, hk, hsmall⟩ := hv.sectorSize_eq
  rw [hv.entryInodeNum_eq hp, hv.entryInodeNum_eq hq] at heq
  exact hv.address_injective hp hq (numberOf_injective (by omega) (by omega) heq)

theorem root_eq : ∃ rest, v.root = v.rootStart :: rest := by
  rw [rootStart]
  cases hv.root with
  | fixed hfs hentries hroot =>
    have hsectors : 0 < v.bpb.rootDirSectors := by
      obtain ⟨k, hbps, hk, -⟩ := hv.sectorSize_eq
      exact Nat.div_pos (by omega) (by omega)
    obtain ⟨n, hn⟩ := Nat.exists_eq_succ_of_ne_zero hsectors.ne'
    rw [if_neg hfs, hroot, hn, range_succ_eq_map]
    exact ⟨_, rfl⟩
  | chain hfs rest hroot =>
    rw [if_pos hfs]
    exact ⟨_, hroot⟩

theorem within_rootStart : v.Within (v.rootStart, 0) := by
  obtain ⟨rest, hroot⟩ := hv.root_eq
  obtain ⟨k, hbps, hk, -⟩ := hv.sectorSize_eq
  have hsectors : 0 < v.sectorsOf v.rootStart := by
    cases v.rootStart with
    | sector i => exact Nat.one_pos
    | cluster c => exact (fatMount_ok hv.mounted).2.2.1
  refine ⟨?_, rfl, mul_pos hsectors (by omega)⟩
  rw [blocks, hroot]
  exact mem_cons_self ..

theorem rootInodeNum_eq : v.inst.rootInodeNum = v.inst.entryInodeNum (v.rootStart, 0) := by
  have hmem := hv.within_rootStart.1
  rw [rootStart] at hmem
  have hsector {fsType : FsType} (hne : fsType ≠ .fat32) (hfs : v.inst.fsType = fsType) :
      v.inst.toInodeNumSector v.inst.rootDirSector 0 =
        v.inst.toInodeNumSector (v.inst.baseSector v.rootStart) 0 := by
    rw [if_neg (hfs ▸ hne)] at hmem
    rw [rootStart, if_neg (hfs ▸ hne), hv.baseSector_eq hmem, hv.rootDirSector_eq]
  rw [Instance.rootInodeNum]
  cases hfs : v.inst.fsType with
  | fat12 | fat16 => exact hsector (by decide) hfs
  | fat32 =>
    have hlt : v.inst.baseSector (.cluster v.inst.rootCluster) < 2 ^ 32 := Nat.mod_lt _ (by decide)
    rw [rootStart, if_pos hfs]
    show v.inst.baseSector (.cluster v.inst.rootCluster) <<< 32 ||| 0 = v.inst.toInodeNumSector _ 0
    rw [Instance.toInodeNumSector, Nat.zero_div, Nat.zero_mod, add_zero, Nat.mod_eq_of_lt hlt]

theorem rootStart_mem_entries : (v.rootStart, 0) ∈ v.entries ↔ isEntry (v.record (v.rootStart, 0)) = true := by
  refine ⟨isEntry_of_mem, fun hentry => ?_⟩
  obtain ⟨rest, hroot⟩ := hv.root_eq
  obtain ⟨k, hbps, hk, -⟩ := hv.sectorSize_eq
  have hwithin := hv.within_rootStart
  have hrecords : 0 < v.sectorsOf v.rootStart * v.bpb.bytesPerSector.toNat / 32 := by
    have hlt := hwithin.2.2
    refine Nat.div_pos ?_ (by decide)
    obtain hzero | hpos := eq_zero_or_pos (v.sectorsOf v.rootStart)
    · rw [hzero, zero_mul] at hlt
      exact absurd hlt (lt_irrefl 0)
    · exact le_trans (by omega) (Nat.le_mul_of_pos_left _ hpos)
  obtain ⟨n, hn⟩ := Nat.exists_eq_succ_of_ne_zero hrecords.ne'
  have hplaces : ∃ others, v.places v.root = (v.rootStart, 0) :: others := by
    rw [hroot, places, flatMap_cons, hn, range_succ_eq_map]
    exact ⟨_, rfl⟩
  obtain ⟨others, hplaces⟩ := hplaces
  have hname : (v.record (v.rootStart, 0) 0 != 0) = true := bne_iff_ne.mpr (isEntry_iff.mp hentry).1
  rw [entries, entriesOf, hplaces, takeWhile_cons, if_pos hname, filter_cons, if_pos hentry]
  exact mem_append_left _ (mem_cons_self ..)

theorem distinct_iff : (v.inst.rootInodeNum :: v.entries.map v.inst.entryInodeNum).Nodup ↔
    isEntry (v.record (v.rootStart, 0)) = false := by
  have hmap : (v.entries.map v.inst.entryInodeNum).Nodup :=
    hv.nodup_entries.map_on fun p hp q hq heq =>
      hv.entryInodeNum_injective (within_of_mem hp) (within_of_mem hq) heq
  rw [nodup_cons, and_iff_left hmap, ← Bool.not_eq_true, not_iff_not, ← hv.rootStart_mem_entries,
    hv.rootInodeNum_eq, mem_map]
  constructor
  · rintro ⟨p, hp, heq⟩
    rw [← hv.entryInodeNum_injective (within_of_mem hp) hv.within_rootStart heq]
    exact hp
  · exact fun hmem => ⟨_, hmem, rfl⟩

theorem readDentry_iff (hp : p ∈ v.entries) :
    v.inst.readDentry v.blockSize v.disk (v.inst.entryInodeNum p) = some (.ok (v.record p)) ↔ v.blockSize = 512 := by
  obtain ⟨k, hbps, hk, hsmall⟩ := hv.sectorSize_eq
  have hwithin := within_of_mem hp
  have hinst : v.inst.bytesPerSector = v.bpb.bytesPerSector.toNat := rfl
  obtain ⟨hname, hkept, -, -⟩ := isEntry_iff.mp (isEntry_of_mem hp)
  have haligned : v.address p % 32 = 0 := by
    have hpos := hwithin.2.1
    rw [address, hbps, show v.firstSector p.1 * (512 * k) = 32 * (v.firstSector p.1 * (16 * k)) by ring,
      Nat.mul_add_mod, hpos]
  have hsector : v.address p / v.inst.bytesPerSector < v.inst.sectorsCount := by
    rw [hinst, address, mul_comm, Nat.mul_add_div (by omega)]
    exact hv.sector_lt hwithin
  rw [hv.entryInodeNum_eq hwithin, ← hinst, Instance.readDentry_numberOf rfl v.bpb.sectorsCount_lt hbps hk hsmall
    hv.blockSize_ge v.disk haligned hsector, ← record]
  by_cases hsize : v.blockSize = 512
  · rw [if_neg (not_not.mpr hsize), if_neg (not_or.mpr ⟨hname, hkept⟩)]
    exact iff_of_true rfl hsize
  · rw [if_pos hsize]
    exact iff_of_false (by simp) hsize

end Consistent

end Volume

/-- The numbers identify the root and the entries if and only if the first record of the root directory is no entry, and
the drive has blocks of 512 bytes or there is nothing to read back. -/
theorem inode_numbers_identify {v : Volume} (hv : v.Consistent) :
    v.Identified ↔ isEntry (v.record (v.rootStart, 0)) = false ∧ (v.blockSize = 512 ∨ v.entries = []) := by
  constructor
  · rintro ⟨hdistinct, hread⟩
    refine ⟨hv.distinct_iff.mp hdistinct, ?_⟩
    cases hentries : v.entries with
    | nil => exact Or.inr rfl
    | cons p rest =>
      have hp : p ∈ v.entries := hentries ▸ mem_cons_self ..
      exact Or.inl ((hv.readDentry_iff hp).mp (hread p hp))
  · rintro ⟨hfirst, hsize⟩
    refine ⟨hv.distinct_iff.mpr hfirst, fun p hp => ?_⟩
    obtain hsize | hnone := hsize
    · exact (hv.readDentry_iff hp).mpr hsize
    · rw [hnone] at hp
      exact absurd hp not_mem_nil

/-- The root directory of `smallBpb`, with the given first bytes of its records. -/
def rootOnly (blockSize : Nat) (records : List (Byte × Byte)) : Volume :=
  { blockSize
    bpb := smallBpb
    info := goodInfo
    disk := fun a =>
      let record := records.getD ((a - 1024) / 32) (0, 0)
      if a < 1024 then 0 else if (a - 1024) % 32 = 0 then record.1 else if (a - 1024) % 32 = 11 then record.2 else 0
    root := [.sector 0]
    directories := [] }

theorem consistent_rootOnly (hmount : fatMount blockSize smallBpb goodInfo = .ok smallBpb.toInstance)
    (records : List (Byte × Byte)) : (rootOnly blockSize records).Consistent where
  mounted := hmount
  sectorSize := show smallBpb.bytesPerSector.toNat ∈ _ by decide
  dataClusters := show 0 < smallBpb.dataClusters by decide
  root := .fixed (show smallBpb.toInstance.fsType ≠ _ by decide) (show 0 < smallBpb.rootEntryCount.toNat by decide)
    (show [DirBlock.sector 0] = (range smallBpb.rootDirSectors).map .sector by decide)
  clusters c hmem := by
    obtain heq | hmem := mem_cons.mp hmem
    · cases heq
    · exact absurd hmem not_mem_nil
  nodup := nodup_singleton _

/-- A label and then a file. -/
theorem inode_numbers_identify_label :
    (rootOnly 512 [(0x4B, 0x08), (0x41, 0x20)]).Identified ∧
      (rootOnly 512 [(0x4B, 0x08), (0x41, 0x20)]).entries = [(.sector 0, 32)] :=
  ⟨(inode_numbers_identify (consistent_rootOnly rfl _)).mpr ⟨by decide, Or.inl rfl⟩, by decide⟩

/-- A file in the first record has the number of the root, and with blocks of 4096 bytes a sector is read over the end
of its buffer. -/
theorem first_file_is_root :
    ((rootOnly 512 [(0x41, 0x20)]).Consistent ∧
      (rootOnly 512 [(0x41, 0x20)]).entries = [(.sector 0, 0)] ∧
      (rootOnly 512 [(0x41, 0x20)]).inst.entryInodeNum (.sector 0, 0) =
        (rootOnly 512 [(0x41, 0x20)]).inst.rootInodeNum ∧
      ¬ (rootOnly 512 [(0x41, 0x20)]).Identified) ∧
    ((rootOnly 4096 [(0x4B, 0x08), (0x41, 0x20)]).Consistent ∧
      (rootOnly 4096 [(0x4B, 0x08), (0x41, 0x20)]).entries = [(.sector 0, 32)] ∧
      smallBpb.toInstance.readDentry 4096 (rootOnly 4096 [(0x4B, 0x08), (0x41, 0x20)]).disk
        (smallBpb.toInstance.entryInodeNum (.sector 0, 32)) = none) := by
  have hentries : (rootOnly 512 [(0x41, 0x20)]).entries = [(.sector 0, 0)] := by decide
  refine ⟨⟨consistent_rootOnly rfl _, hentries, rfl, fun hidentified => ?_⟩, consistent_rootOnly rfl _,
    by decide, Option.isNone_iff_eq_none.mp (by decide)⟩
  have hdistinct := hidentified.distinct
  exact (nodup_cons.mp hdistinct).1 (mem_cons_self ..)

end Kairax.Fat
