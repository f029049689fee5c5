import Kairax.Errors
import Mathlib.Order.CompletePartialOrder
import Mathlib.Order.Interval.Set.Disjoint
import Mathlib.Order.Interval.Set.LinearOrder
import Mathlib.Algebra.Order.Floor.Div
import Kairax.Lib.Bytes

/-!
# The FAT volume

`fat_mount` computes the layout from the boot sector, and the cluster functions turn a cluster into blocks of the
drive. The driver stops below `n` of the clusters 2 to `n + 1`, and divides the offset, of 32 bits, by 512 whatever
the blocks of the drive are.
-/

namespace Kairax.Fat

open Lib

/-- The fields of `struct fat_bpb` that the driver reads. -/
structure Bpb where
  jumpOp0 : Byte
  jumpOp2 : Byte
  bytesPerSector : BitVec 16
  sectorsPerCluster : Byte
  reservedSectorCount : BitVec 16
  fatsCount : Byte
  rootEntryCount : BitVec 16
  totalSectors16 : BitVec 16
  fatSize16 : BitVec 16
  totalSectors32 : BitVec 32
  fatSize32 : BitVec 32
  rootCluster : BitVec 32
  bootPartSignature : BitVec 16

/-- The signatures of `struct fat_fsinfo32`. -/
structure FsInfo where
  leadSignature : BitVec 32
  trailSignature : BitVec 32

inductive FsType
  | fat12
  | fat16
  | fat32
  deriving DecidableEq

/-- `struct fat_instance`, with the flag of its superblock. -/
structure Instance where
  detached : Bool
  fsType : FsType
  bytesPerSector : Nat
  sectorsPerCluster : Nat
  sectorsCount : Nat
  rootDirSector : Nat
  rootDirSectors : Nat
  firstFatsSectors : List Nat
  firstDataSector : Nat
  totalClusters : Nat
  rootCluster : Nat

/-- The arguments of `partition_read` and `partition_write`. -/
structure Io where
  lba : Nat
  count : Nat
  deriving DecidableEq

namespace Instance

variable (inst : Instance)

def sectorIo (firstSector sectors : Nat) : Except Int Io :=
  if inst.detached then .error (-eio)
  else if inst.sectorsCount ≤ firstSector then .error (-e2big)
  else .ok ⟨firstSector * inst.bytesPerSector % 2 ^ 64 / 512, sectors * inst.bytesPerSector % 2 ^ 64 / 512⟩

def readSector (firstSector sectors : Nat) : Except Int Io := inst.sectorIo firstSector sectors

def clusterIo (cluster : Nat) : Except Int Io :=
  if inst.detached then .error (-eio)
  else if cluster < 2 ∨ inst.totalClusters ≤ cluster then .error (-e2big)
  else
    let bpc := inst.sectorsPerCluster * inst.bytesPerSector % 2 ^ 32
    let firstSector := ((cluster - 2) * inst.sectorsPerCluster + inst.firstDataSector) % 2 ^ 32
    .ok ⟨firstSector * inst.bytesPerSector % 2 ^ 32 / 512, bpc / 512⟩

def readCluster (cluster : Nat) : Except Int Io := inst.clusterIo cluster

def writeCluster (cluster : Nat) : Except Int Io := inst.clusterIo cluster

def fatOffset (cluster : Nat) : Nat :=
  match inst.fsType with
  | .fat12 => (cluster + cluster / 2) % 2 ^ 32
  | .fat16 => cluster * 2 % 2 ^ 32
  | .fat32 => cluster * 4 % 2 ^ 32

/-- The sector of the entry of a cluster in the table that begins at the given sector. -/
def fatSector (firstFatSector cluster : Nat) : Nat :=
  (firstFatSector + inst.fatOffset cluster / inst.bytesPerSector) % 2 ^ 32

/-- The transfer of `fat_get_next_cluster_ex`, which leaves out a sector that is there. The last sector is returned. -/
def loadFatSector (cluster lastSector : Nat) : Except Int Nat :=
  let sector := inst.fatSector (inst.firstFatsSectors.headD 0) cluster
  if lastSector = sector then .ok sector
  else (inst.readSector sector (if inst.fsType = .fat12 then 2 else 1)).map fun _ => sector

/-- The transfers of `fat_calc_free_clusters`. -/
def calcFreeClusters : Except Int Nat :=
  (List.range inst.totalClusters).foldlM (fun lastSector cluster => inst.loadFatSector cluster lastSector) 0

end Instance

namespace Bpb

variable (bpb : Bpb)

def validJump : Bool := (bpb.jumpOp0 == 0xEB && bpb.jumpOp2 == 0x90) || bpb.jumpOp0 == 0xE9

def sectorsCount : Nat :=
  if bpb.totalSectors16 = 0 then bpb.totalSectors32.toNat else bpb.totalSectors16.toNat

def fatSize : Nat := if bpb.fatSize16 = 0 then bpb.fatSize32.toNat else bpb.fatSize16.toNat

def rootDirSectors : Nat :=
  (bpb.rootEntryCount.toNat * 32 + (bpb.bytesPerSector.toNat - 1)) / bpb.bytesPerSector.toNat

/-- What `fat_mount` computes. All numbers are of 32 bits. -/
def toInstance : Instance :=
  let firstDataSector :=
    (bpb.reservedSectorCount.toNat + bpb.fatsCount.toNat * bpb.fatSize + bpb.rootDirSectors) % 2 ^ 32
  let dataSectors := (bpb.sectorsCount + 2 ^ 32 - firstDataSector) % 2 ^ 32
  let totalClusters := dataSectors / bpb.sectorsPerCluster.toNat
  { detached := false
    fsType := if totalClusters < 4085 then .fat12 else if totalClusters < 65525 then .fat16 else .fat32
    bytesPerSector := bpb.bytesPerSector.toNat
    sectorsPerCluster := bpb.sectorsPerCluster.toNat
    sectorsCount := bpb.sectorsCount
    rootDirSector := (bpb.reservedSectorCount.toNat + bpb.fatsCount.toNat * bpb.fatSize) % 2 ^ 32
    rootDirSectors := bpb.rootDirSectors
    firstFatsSectors := (List.range (min bpb.fatsCount.toNat 2)).map fun i =>
      (bpb.reservedSectorCount.toNat + i * bpb.fatSize) % 2 ^ 32
    firstDataSector
    totalClusters
    rootCluster := bpb.rootCluster.toNat }

end Bpb

inductive MountError
  | blockSize
  | jump
  | noFats
  | signature
  | fsinfo
  | freeClusters
  | fault
  deriving DecidableEq

/-- `fat_mount` on a drive whose transfers succeed. It divides by `bytes_per_sector` before the test for exFAT. -/
def fatMount (blockSize : Nat) (bpb : Bpb) (info : FsInfo) : Except MountError Instance :=
  if blockSize < 512 then .error .blockSize
  else if bpb.validJump = false then .error .jump
  else if bpb.fatsCount = 0 then .error .noFats
  else if bpb.bootPartSignature ≠ 0xAA55 then .error .signature
  else if bpb.bytesPerSector = 0 ∨ bpb.sectorsPerCluster = 0 then .error .fault
  else if bpb.toInstance.fsType = .fat32 then
    if info.leadSignature ≠ 0x41615252 ∨ info.trailSignature ≠ 0xAA550000 then .error .fsinfo
    else .ok bpb.toInstance
  else
    match bpb.toInstance.calcFreeClusters with
    | .error _ => .error .freeClusters
    | .ok _ => .ok bpb.toInstance

theorem fatMount_ok {blockSize : Nat} {bpb : Bpb} {info : FsInfo} {inst : Instance}
    (hmount : fatMount blockSize bpb info = .ok inst) :
    512 ≤ blockSize ∧ 0 < bpb.bytesPerSector.toNat ∧ 0 < bpb.sectorsPerCluster.toNat ∧ inst = bpb.toInstance := by
  unfold fatMount at hmount
  split_ifs at hmount with hsize hjump hfats hsig hzero htype hinfo
  · obtain ⟨hbps, hspc⟩ := not_or.mp hzero
    refine ⟨by omega, ?_, ?_, (Except.ok.inj hmount).symm⟩
    · exact pos_of_ne_zero fun h => hbps (BitVec.eq_of_toNat_eq h)
    · exact pos_of_ne_zero fun h => hspc (BitVec.eq_of_toNat_eq h)
  · obtain ⟨hbps, hspc⟩ := not_or.mp hzero
    have hinst : inst = bpb.toInstance := by
      cases hscan : bpb.toInstance.calcFreeClusters with
      | error rc =>
        rw [hscan] at hmount
        cases hmount
      | ok last =>
        rw [hscan] at hmount
        exact (Except.ok.inj hmount).symm
    refine ⟨by omega, ?_, ?_, hinst⟩
    · exact pos_of_ne_zero fun h => hbps (BitVec.eq_of_toNat_eq h)
    · exact pos_of_ne_zero fun h => hspc (BitVec.eq_of_toNat_eq h)

namespace Bpb

variable (bpb : Bpb)

/-- The sectors before the data: the reserved ones, the tables and the root directory of FAT12 and FAT16. -/
def metaSectors : Nat :=
  bpb.reservedSectorCount.toNat + bpb.fatsCount.toNat * bpb.fatSize + bpb.rootDirSectors

def dataClusters : Nat := (bpb.sectorsCount - bpb.metaSectors) / bpb.sectorsPerCluster.toNat

def clusterBytes : Nat := bpb.sectorsPerCluster.toNat * bpb.bytesPerSector.toNat

def clusterOffset (cluster : Nat) : Nat :=
  (bpb.metaSectors + (cluster - 2) * bpb.sectorsPerCluster.toNat) * bpb.bytesPerSector.toNat

end Bpb

def Io.bytes (blockSize : Nat) (io : Io) : Set Nat := Set.Ico (io.lba * blockSize) ((io.lba + io.count) * blockSize)

def Exact (blockSize : Nat) (bpb : Bpb) (cluster : Nat) (r : Except Int Io) : Prop :=
  ∃ io, r = .ok io ∧
    io.bytes blockSize = Set.Ico (bpb.clusterOffset cluster) (bpb.clusterOffset cluster + bpb.clusterBytes)

/-- So many bytes are whole blocks of the drive, and as many blocks of 512 bytes. -/
def Whole (blockSize bytes : Nat) : Prop := blockSize ∣ bytes ∧ bytes / blockSize * (blockSize - 512) < 512

/-- Not one of the last two clusters, below 4 GiB, and on a drive with blocks of 512 bytes that divide the cluster. -/
structure Addressable (blockSize : Nat) (bpb : Bpb) (cluster : Nat) : Prop where
  inside : cluster < bpb.dataClusters
  low : bpb.clusterOffset cluster < 2 ^ 32
  offset : Whole blockSize (bpb.clusterOffset cluster)
  size : Whole blockSize bpb.clusterBytes

section Whole

variable {blockSize bytes : Nat}

theorem whole_iff (hblock : 512 ≤ blockSize) : Whole blockSize bytes ↔ bytes / 512 * blockSize = bytes := by
  obtain ⟨d, rfl⟩ := Nat.exists_eq_add_of_le hblock
  rw [Whole, Nat.add_sub_cancel_left]
  constructor
  · rintro ⟨⟨k, rfl⟩, hsmall⟩
    rw [Nat.mul_div_cancel_left k (by omega)] at hsmall
    have hdiv : (512 + d) * k / 512 = k := by
      rw [add_mul, Nat.mul_add_div (by decide), mul_comm d k, Nat.div_eq_of_lt hsmall, add_zero]
    rw [hdiv, mul_comm]
  · intro heq
    have hdiv : bytes / (512 + d) = bytes / 512 := by
      rw [← heq, Nat.mul_div_cancel _ (by omega), heq]
    refine ⟨⟨bytes / 512, by rw [mul_comm, heq]⟩, ?_⟩
    rw [hdiv]
    have hsplit : bytes / 512 * (512 + d) = 512 * (bytes / 512) + bytes / 512 * d := by
      rw [mul_add, mul_comm _ 512]
    omega

theorem Whole.blockSize_lt (hwhole : Whole blockSize bytes) (hblock : 512 ≤ blockSize) (hpos : 0 < bytes) :
    blockSize < 1024 := by
  obtain ⟨⟨k, rfl⟩, hsmall⟩ := hwhole
  rw [Nat.mul_div_cancel_left k (by omega)] at hsmall
  have hk : 0 < k := Nat.pos_of_mul_pos_left hpos
  have hle : 1 * (blockSize - 512) ≤ k * (blockSize - 512) := Nat.mul_le_mul_right _ hk
  omega

theorem cut_iff (hblock : 512 ≤ blockSize) (hsmall : blockSize < 1024) :
    bytes % 2 ^ 32 / 512 * blockSize = bytes ↔ bytes < 2 ^ 32 ∧ Whole blockSize bytes := by
  rw [whole_iff hblock]
  constructor
  · intro heq
    obtain ⟨q, hq⟩ : ∃ q, bytes % 2 ^ 32 / 512 = q := ⟨_, rfl⟩
    have hlt : bytes < 2 ^ 32 := by
      have hle : q * blockSize ≤ q * 1024 := Nat.mul_le_mul_left q (by omega)
      rw [hq] at heq
      omega
    rw [Nat.mod_eq_of_lt hlt] at heq
    exact ⟨hlt, heq⟩
  · rintro ⟨hlt, heq⟩
    rw [Nat.mod_eq_of_lt hlt, heq]

end Whole

section Clusters

variable {blockSize : Nat} {bpb : Bpb} {cluster : Nat}

theorem Bpb.clusterEnd_le (hpos : 0 < bpb.dataClusters) (hlow : 2 ≤ cluster) (hhigh : cluster ≤ bpb.dataClusters + 1) :
    bpb.metaSectors + (cluster - 2) * bpb.sectorsPerCluster.toNat + bpb.sectorsPerCluster.toNat ≤ bpb.sectorsCount := by
  have hmul : bpb.dataClusters * bpb.sectorsPerCluster.toNat ≤ bpb.sectorsCount - bpb.metaSectors :=
    Nat.div_mul_le_self ..
  have hspc : 0 < bpb.sectorsPerCluster.toNat := by
    refine pos_of_ne_zero fun hzero => ?_
    rw [Bpb.dataClusters, hzero, Nat.div_zero] at hpos
    exact lt_irrefl 0 hpos
  have hstep : (cluster - 2) * bpb.sectorsPerCluster.toNat + bpb.sectorsPerCluster.toNat ≤
      bpb.dataClusters * bpb.sectorsPerCluster.toNat := by
    rw [← Nat.succ_mul]
    exact Nat.mul_le_mul_right _ (by omega)
  omega

theorem Bpb.sectorsCount_lt (bpb : Bpb) : bpb.sectorsCount < 2 ^ 32 := by
  rw [Bpb.sectorsCount]
  split_ifs
  · exact bpb.totalSectors32.isLt
  · exact bpb.totalSectors16.isLt.trans (by decide)

theorem Bpb.clusterBytes_lt (bpb : Bpb) : bpb.clusterBytes < 2 ^ 32 := by
  have hmul : bpb.clusterBytes ≤ 2 ^ 8 * 2 ^ 16 :=
    Nat.mul_le_mul bpb.sectorsPerCluster.isLt.le bpb.bytesPerSector.isLt.le
  omega

theorem Bpb.toInstance_layout (hfits : bpb.metaSectors ≤ bpb.sectorsCount) :
    bpb.toInstance.firstDataSector = bpb.metaSectors ∧ bpb.toInstance.totalClusters = bpb.dataClusters := by
  have hcount := bpb.sectorsCount_lt
  have hfirst : bpb.metaSectors % 2 ^ 32 = bpb.metaSectors := Nat.mod_eq_of_lt (by omega)
  have hdata : (bpb.sectorsCount + 2 ^ 32 - bpb.metaSectors) % 2 ^ 32 = bpb.sectorsCount - bpb.metaSectors := by
    omega
  refine ⟨hfirst, ?_⟩
  show (bpb.sectorsCount + 2 ^ 32 - bpb.metaSectors % 2 ^ 32) % 2 ^ 32 / bpb.sectorsPerCluster.toNat = bpb.dataClusters
  rw [hfirst, hdata, Bpb.dataClusters]

theorem clusterIo_toInstance (hlow : 2 ≤ cluster) (hhigh : cluster ≤ bpb.dataClusters + 1)
    (hpos : 0 < bpb.dataClusters) :
    bpb.toInstance.clusterIo cluster =
      if cluster < bpb.dataClusters then
        .ok ⟨bpb.clusterOffset cluster % 2 ^ 32 / 512, bpb.clusterBytes / 512⟩
      else .error (-e2big) := by
  have hend := Bpb.clusterEnd_le hpos hlow hhigh
  have hfits : bpb.metaSectors ≤ bpb.sectorsCount := by omega
  obtain ⟨hfirst, htotal⟩ := Bpb.toInstance_layout hfits
  have hsector : ((cluster - 2) * bpb.sectorsPerCluster.toNat + bpb.metaSectors) % 2 ^ 32 =
      bpb.metaSectors + (cluster - 2) * bpb.sectorsPerCluster.toNat := by
    have hcount := bpb.sectorsCount_lt
    rw [Nat.mod_eq_of_lt (by omega), add_comm]
  have hbytes : bpb.sectorsPerCluster.toNat * bpb.bytesPerSector.toNat % 2 ^ 32 = bpb.clusterBytes :=
    Nat.mod_eq_of_lt bpb.clusterBytes_lt
  rw [Instance.clusterIo, hfirst, if_neg (show ¬ bpb.toInstance.detached = true from Bool.false_ne_true)]
  by_cases hinside : cluster < bpb.dataClusters
  · rw [if_neg (by omega), if_pos hinside]
    show Except.ok (Io.mk (_ * bpb.bytesPerSector.toNat % 2 ^ 32 / 512)
      (bpb.sectorsPerCluster.toNat * bpb.bytesPerSector.toNat % 2 ^ 32 / 512)) = _
    rw [hbytes]
    show Except.ok (Io.mk (((cluster - 2) * bpb.sectorsPerCluster.toNat + bpb.metaSectors) % 2 ^ 32 *
      bpb.bytesPerSector.toNat % 2 ^ 32 / 512) _) = _
    rw [hsector, Bpb.clusterOffset]
  · rw [if_pos (by omega), if_neg hinside]

theorem exact_ok_iff {io : Io} (hsize : 0 < bpb.clusterBytes) : Exact blockSize bpb cluster (.ok io) ↔
    io.lba * blockSize = bpb.clusterOffset cluster ∧ io.count * blockSize = bpb.clusterBytes := by
  have hends : io.bytes blockSize = Set.Ico (bpb.clusterOffset cluster) (bpb.clusterOffset cluster + bpb.clusterBytes) ↔
      io.lba * blockSize = bpb.clusterOffset cluster ∧ io.count * blockSize = bpb.clusterBytes := by
    rw [Io.bytes, Set.Ico_eq_Ico_iff (Or.inr (by omega)), add_mul]
    omega
  rw [← hends]
  constructor
  · rintro ⟨io', hio, hbytes⟩
    rw [Except.ok.inj hio]
    exact hbytes
  · intro hbytes
    exact ⟨io, rfl, hbytes⟩

theorem exact_clusterIo_iff (hblock : 512 ≤ blockSize) (hbps : 0 < bpb.bytesPerSector.toNat)
    (hspc : 0 < bpb.sectorsPerCluster.toNat) (hlow : 2 ≤ cluster) (hhigh : cluster ≤ bpb.dataClusters + 1)
    (hpos : 0 < bpb.dataClusters) :
    Exact blockSize bpb cluster (bpb.toInstance.clusterIo cluster) ↔ Addressable blockSize bpb cluster := by
  have hsize : 0 < bpb.clusterBytes := Nat.mul_pos hspc hbps
  rw [clusterIo_toInstance hlow hhigh hpos]
  split_ifs with hinside
  · rw [exact_ok_iff hsize]
    constructor
    · rintro ⟨hoffset, hcount⟩
      have hwhole : Whole blockSize bpb.clusterBytes := (whole_iff hblock).mpr hcount
      obtain ⟨hsmall, hstart⟩ := (cut_iff hblock (hwhole.blockSize_lt hblock hsize)).mp hoffset
      exact ⟨hinside, hsmall, hstart, hwhole⟩
    · intro haddr
      have hlt := haddr.size.blockSize_lt hblock hsize
      exact ⟨(cut_iff hblock hlt).mpr ⟨haddr.low, haddr.offset⟩, (whole_iff hblock).mp haddr.size⟩
  · constructor
    · rintro ⟨io, hio, -⟩
      cases hio
    · intro haddr
      exact absurd haddr.inside hinside

theorem Bpb.clusterOffset_add_le (bpb : Bpb) {c d : Nat} (hlow : 2 ≤ c) (hlt : c < d) :
    bpb.clusterOffset c + bpb.clusterBytes ≤ bpb.clusterOffset d := by
  obtain ⟨k, hk⟩ : ∃ k, d - 2 = c - 2 + 1 + k := ⟨d - 2 - (c - 2 + 1), by omega⟩
  rw [Bpb.clusterOffset, Bpb.clusterOffset, Bpb.clusterBytes, hk, ← add_mul]
  apply Nat.mul_le_mul_right
  rw [add_mul, add_mul]
  omega

end Clusters

/-- A data cluster is read and written exactly if and only if it is addressable. The transfers of addressable clusters
are disjoint, behind the tables and the root directory, and end on the volume. -/
theorem cluster_addressing {blockSize : Nat} {bpb : Bpb} {info : FsInfo} {inst : Instance}
    (hmount : fatMount blockSize bpb info = .ok inst) :
    (∀ c, 2 ≤ c → c ≤ bpb.dataClusters + 1 →
      (Exact blockSize bpb c (inst.readCluster c) ∧ Exact blockSize bpb c (inst.writeCluster c) ↔
        Addressable blockSize bpb c)) ∧
    (∀ c d, 2 ≤ c → 2 ≤ d → c ≠ d → Addressable blockSize bpb c → Addressable blockSize bpb d →
      ∃ io io', inst.readCluster c = .ok io ∧ inst.writeCluster c = .ok io ∧ inst.readCluster d = .ok io' ∧
        inst.writeCluster d = .ok io' ∧ Disjoint (io.bytes blockSize) (io'.bytes blockSize)) ∧
    (∀ c, 2 ≤ c → Addressable blockSize bpb c →
      ∃ io, inst.readCluster c = .ok io ∧ inst.writeCluster c = .ok io ∧
        io.bytes blockSize ⊆ Set.Ico (bpb.metaSectors * bpb.bytesPerSector.toNat)
          (bpb.sectorsCount * bpb.bytesPerSector.toNat)) := by
  obtain ⟨hblock, hbps, hspc, rfl⟩ := fatMount_ok hmount
  have hexact {c : Nat} (hlow : 2 ≤ c) (haddr : Addressable blockSize bpb c) :
      Exact blockSize bpb c (bpb.toInstance.readCluster c) := by
    have hinside := haddr.inside
    exact (exact_clusterIo_iff hblock hbps hspc hlow (by omega) (by omega)).mpr haddr
  refine ⟨?_, ?_, ?_⟩
  · intro c hlow hhigh
    have hpos : 0 < bpb.dataClusters := by omega
    rw [Instance.readCluster, Instance.writeCluster, and_self]
    exact exact_clusterIo_iff hblock hbps hspc hlow hhigh hpos
  · intro c d hc hd hne haddrc haddrd
    obtain ⟨io, hio, hbytes⟩ := hexact hc haddrc
    obtain ⟨io', hio', hbytes'⟩ := hexact hd haddrd
    refine ⟨io, io', hio, hio, hio', hio', ?_⟩
    rw [hbytes, hbytes', Set.Ico_disjoint_Ico]
    obtain hlt | hlt := Nat.lt_or_gt_of_ne hne
    · have hle := bpb.clusterOffset_add_le hc hlt
      omega
    · have hle := bpb.clusterOffset_add_le hd hlt
      omega
  · intro c hlow haddr
    obtain ⟨io, hio, hbytes⟩ := hexact hlow haddr
    have hinside := haddr.inside
    have hend := Bpb.clusterEnd_le (by omega) hlow (by omega : c ≤ bpb.dataClusters + 1)
    refine ⟨io, hio, hio, ?_⟩
    rw [hbytes]
    apply Set.Ico_subset_Ico
    · exact Nat.mul_le_mul_right _ (Nat.le_add_right ..)
    · rw [Bpb.clusterOffset, Bpb.clusterBytes, ← add_mul]
      exact Nat.mul_le_mul_right _ hend

def smallBpb : Bpb :=
  { jumpOp0 := 0xEB, jumpOp2 := 0x90, bytesPerSector := 512, sectorsPerCluster := 1, reservedSectorCount := 1
    fatsCount := 1, rootEntryCount := 16, totalSectors16 := 8, fatSize16 := 1, totalSectors32 := 0, fatSize32 := 0
    rootCluster := 0, bootPartSignature := 0xAA55 }

def largeBpb : Bpb :=
  { jumpOp0 := 0xEB, jumpOp2 := 0x90, bytesPerSector := 512, sectorsPerCluster := 8, reservedSectorCount := 32
    fatsCount := 2, rootEntryCount := 0, totalSectors16 := 0, fatSize16 := 0, totalSectors32 := 0x1000000
    fatSize32 := 16376, rootCluster := 2, bootPartSignature := 0xAA55 }

def nativeBpb : Bpb :=
  { largeBpb with bytesPerSector := 4096, sectorsPerCluster := 1, totalSectors32 := 0x100000, fatSize32 := 1024 }

def goodInfo : FsInfo := ⟨0x41615252, 0xAA550000⟩

theorem cluster_addressing_small :
    fatMount 512 smallBpb goodInfo = .ok smallBpb.toInstance ∧
      Exact 512 smallBpb 4 (smallBpb.toInstance.readCluster 4) := by
  have hmount : fatMount 512 smallBpb goodInfo = .ok smallBpb.toInstance := rfl
  have haddr : Addressable 512 smallBpb 4 :=
    ⟨by decide, by decide, ⟨⟨5, rfl⟩, by decide⟩, ⟨⟨1, rfl⟩, by decide⟩⟩
  exact ⟨hmount, (((cluster_addressing hmount).1 4 (by decide) (by decide)).mpr haddr).1⟩

/-- The last two of five clusters are refused, the cluster at 4 GiB is written to the first blocks, and with blocks of
4096 bytes the first cluster is read from eight times its offset on. -/
theorem clusters_misplaced :
    (fatMount 512 smallBpb goodInfo = .ok smallBpb.toInstance ∧ smallBpb.dataClusters = 5 ∧
      smallBpb.toInstance.readCluster 5 = .error (-7) ∧ smallBpb.toInstance.writeCluster 6 = .error (-7)) ∧
    (fatMount 512 largeBpb goodInfo = .ok largeBpb.toInstance ∧ 1044480 < largeBpb.dataClusters ∧
      largeBpb.clusterOffset 1044480 = 2 ^ 32 ∧ largeBpb.toInstance.writeCluster 1044480 = .ok ⟨0, 8⟩) ∧
    (fatMount 4096 nativeBpb goodInfo = .ok nativeBpb.toInstance ∧ nativeBpb.clusterOffset 2 = 2080 * 4096 ∧
      nativeBpb.toInstance.readCluster 2 = .ok ⟨2080 * 8, 8⟩) :=
  ⟨⟨rfl, rfl, rfl, rfl⟩, ⟨rfl, by decide, rfl, rfl⟩, ⟨rfl, rfl, rfl⟩⟩

/-- The layout is the one the boot sector describes, and the tables and the root directory are on the volume. -/
structure Geometry (bpb : Bpb) (inst : Instance) : Prop where
  fits : bpb.metaSectors ≤ bpb.sectorsCount
  firstDataSector : inst.firstDataSector = bpb.metaSectors
  totalClusters : inst.totalClusters = bpb.dataClusters
  rootDirSectors : inst.rootDirSectors = (bpb.rootEntryCount.toNat * 32) ⌈/⌉ bpb.bytesPerSector.toNat

/-- The volume is refused without a fault, or it is mounted with the right layout. -/
def Sane (bpb : Bpb) : Except MountError Instance → Prop
  | .error e => e ≠ .fault
  | .ok inst => Geometry bpb inst

theorem geometry_toInstance_iff {bpb : Bpb} (hbps : 0 < bpb.bytesPerSector.toNat) :
    Geometry bpb bpb.toInstance ↔ bpb.metaSectors ≤ bpb.sectorsCount := by
  refine ⟨Geometry.fits, fun hfits => ?_⟩
  obtain ⟨hfirst, htotal⟩ := Bpb.toInstance_layout hfits
  refine ⟨hfits, hfirst, htotal, ?_⟩
  rw [Nat.ceilDiv_eq_add_pred_div, Nat.add_sub_assoc hbps]
  rfl

theorem foldlM_loadFatSector {inst : Instance} (hattached : inst.detached = false) (clusters : List Nat)
    {lastSector : Nat} (hlast : lastSector < max 1 inst.sectorsCount) :
    (∃ k, clusters.foldlM (fun lastSector cluster => inst.loadFatSector cluster lastSector) lastSector = .ok k) ↔
      ∀ cluster ∈ clusters, inst.fatSector (inst.firstFatsSectors.headD 0) cluster < max 1 inst.sectorsCount := by
  induction clusters generalizing lastSector with
  | nil => exact iff_of_true ⟨lastSector, rfl⟩ nofun
  | cons cluster clusters ih =>
    have hload : inst.loadFatSector cluster lastSector =
        if inst.fatSector (inst.firstFatsSectors.headD 0) cluster < max 1 inst.sectorsCount then
          .ok (inst.fatSector (inst.firstFatsSectors.headD 0) cluster) else .error (-e2big) := by
      simp only [Instance.loadFatSector, Instance.readSector, Instance.sectorIo, hattached, Bool.false_eq_true,
        if_false]
      split_ifs <;> first | rfl | omega
    rw [List.foldlM_cons, List.forall_mem_cons, hload]
    split_ifs with hin
    · exact (ih hin).trans (and_iff_right hin).symm
    · exact iff_of_false nofun fun h => hin h.1

/-- What follows the boot sector can be used: the information sector of FAT32, and otherwise the table. -/
def Readable (bpb : Bpb) (info : FsInfo) : Prop :=
  if bpb.toInstance.fsType = .fat32 then info.leadSignature = 0x41615252 ∧ info.trailSignature = 0xAA550000
  else ∀ cluster < bpb.toInstance.totalClusters,
    bpb.toInstance.fatSector (bpb.toInstance.firstFatsSectors.headD 0) cluster < max 1 bpb.sectorsCount

/-- A boot sector is refused or its layout is right just if, where the tests of the boot sector pass, a sector and a
cluster are not empty, and the tables fit on the volume if what follows the boot sector can be used. -/
theorem mount_sane_iff (blockSize : Nat) (bpb : Bpb) (info : FsInfo) :
    Sane bpb (fatMount blockSize bpb info) ↔
      (512 ≤ blockSize → bpb.validJump = true → bpb.fatsCount ≠ 0 → bpb.bootPartSignature = 0xAA55 →
        bpb.bytesPerSector ≠ 0 ∧ bpb.sectorsPerCluster ≠ 0 ∧
          (Readable bpb info → bpb.metaSectors ≤ bpb.sectorsCount)) := by
  have hmounted (hbps : bpb.bytesPerSector ≠ 0) : Sane bpb (.ok bpb.toInstance) ↔ bpb.metaSectors ≤ bpb.sectorsCount :=
    geometry_toInstance_iff (pos_of_ne_zero fun h => hbps (BitVec.eq_of_toNat_eq h))
  unfold fatMount
  split_ifs with hsize hjump hfats hsig hzero htype hinfo
  · exact iff_of_true nofun fun h => absurd h (by omega)
  · exact iff_of_true nofun fun _ h => absurd h (hjump ▸ Bool.false_ne_true)
  · exact iff_of_true nofun fun _ _ h => absurd hfats h
  · exact iff_of_true nofun fun _ _ _ h => absurd h hsig
  · refine iff_of_false (fun h => h rfl) fun h => ?_
    obtain ⟨hbps, hspc, -⟩ := h (by omega) (Bool.eq_true_of_not_eq_false hjump) hfats (not_not.mp hsig)
    exact hzero.elim hbps hspc
  all_goals
    obtain ⟨hbps, hspc⟩ := not_or.mp hzero
    have htested {p : Prop} : (512 ≤ blockSize → bpb.validJump = true → bpb.fatsCount ≠ 0 →
        bpb.bootPartSignature = 0xAA55 → p) ↔ p :=
      ⟨fun h => h (by omega) (Bool.eq_true_of_not_eq_false hjump) hfats (not_not.mp hsig), fun h _ _ _ _ => h⟩
    rw [htested, and_iff_right hbps, and_iff_right hspc, Readable]
  · rw [if_pos htype]
    exact iff_of_true nofun fun h => absurd h (not_and_or.mpr hinfo)
  · rw [hmounted hbps, if_pos htype]
    rw [not_or, not_not, not_not] at hinfo
    exact (imp_iff_right hinfo).symm
  · have hscan := @foldlM_loadFatSector bpb.toInstance rfl (List.range bpb.toInstance.totalClusters) 0 (by omega)
    simp only [List.mem_range] at hscan
    rw [if_neg htype]
    cases hcalc : bpb.toInstance.calcFreeClusters with
    | error rc => exact iff_of_true nofun fun h => by obtain ⟨k, hk⟩ := hscan.mpr h; cases hcalc.symm.trans hk
    | ok k => exact (hmounted hbps).trans (imp_iff_right (hscan.mp ⟨k, hcalc⟩)).symm

/-- With no sectors in a cluster the kernel divides by zero. A volume of one sector with 32784 sectors before its data
is mounted, with more than four billion clusters. -/
theorem mount_not_sane : fatMount 512 { smallBpb with sectorsPerCluster := 0 } goodInfo = .error .fault ∧
    ∃ inst, fatMount 512 { largeBpb with sectorsPerCluster := 1, totalSectors32 := 1 } goodInfo = .ok inst ∧
      inst.totalClusters = 4294934513 ∧
      Bpb.metaSectors { largeBpb with sectorsPerCluster := 1, totalSectors32 := 1 } = 32784 :=
  ⟨rfl, _, rfl, rfl, rfl⟩

end Kairax.Fat
