import Kairax.Ext2.Release

/-!
# Writes that fail

`ext2_file_write` over a block layer whose functions may fail at any call. Besides the return value and the volume, the
end of the bytes that have been written is kept. The position of the file moves by the return value, also when it is an
error.
-/

namespace Kairax.Ext2

open Lib Option Function

/-- `ext2_inode`, `ext2_write_inode_metadata` and the block functions with their return values. A read that fails leaves
any bytes. -/
structure Device where
  inode : Inst → Nat → Int × Buf
  writeInodeMetadata : Inst → Buf → Nat → Int × Inst
  readInodeBlock : Inst → Buf → BitVec 32 → Option (Int × Buf)
  writeInodeBlock : Inst → Buf → Nat → BitVec 32 → Buf → Option (Int × Inst × Buf)

/-- A return value with the volume and the inode, and the end of the bytes that have been written. -/
structure Progress where
  rc : Int
  inst : Inst
  ino : Buf
  stop : Nat

def Progress.result (s : Progress) : Int × Inst × Buf := (s.rc, s.inst, s.ino)

namespace Device

def sound : Device where
  inode inst n := (0, inst.inode n)
  writeInodeMetadata inst ino n := (0, inst.writeInodeMetadata ino n)
  readInodeBlock inst ino i := (Ext2.readInodeBlock inst ino i).map (0, ·)
  writeInodeBlock := Ext2.writeInodeBlock

variable (d : Device)

def putBlock (n i : Nat) (temp : Buf) (stop : Nat) (s : Progress) : Option Progress :=
  (d.writeInodeBlock s.inst s.ino n (BitVec.ofNat 32 i) temp).map fun (rc, inst, ino) =>
    ⟨rc, inst, ino, if rc ≠ 0 then s.stop else stop⟩

/-- The loop of `write_inode_filedata` over all blocks but the last one. The result of the read is not looked at. -/
def writeBlocks (n start startOffset : Nat) (data : Buf) : Nat → Nat → Nat → Progress → Option Progress
  | 0, _, _, s => some s
  | left + 1, i, written, s =>
    let temp :=
      if i = start then
        (d.readInodeBlock s.inst s.ino (BitVec.ofNat 32 start)).map fun (_, temp) =>
          copy temp startOffset data (s.inst.blockSize - startOffset)
      else some (copy (fun _ => 0) 0 (fun p => data (written * s.inst.blockSize - startOffset + p)) s.inst.blockSize)
    temp.bind fun temp => (d.putBlock n i temp ((i + 1) * s.inst.blockSize) s).bind fun s =>
      if s.rc ≠ 0 then some s else writeBlocks n start startOffset data left (i + 1) (written + 1) s

/-- One block is read, changed and written. A failing read ends the call only when `checked`. -/
def updateBlock (checked : Bool) (n i o : Nat) (data : Buf) (len : Nat) (s : Progress) : Option Progress :=
  (d.readInodeBlock s.inst s.ino (BitVec.ofNat 32 i)).bind fun (rc, temp) =>
    if checked ∧ rc ≠ 0 then some { s with rc := rc }
    else d.putBlock n i (copy temp o data len) (i * s.inst.blockSize + o + len) s

def writeSpan (inst : Inst) (ino : Buf) (n offset size : Nat) (data : Buf) : Option Progress :=
  let writeEnd := offset + size
  let start := offset / inst.blockSize
  let startOffset := offset % inst.blockSize
  let last := writeEnd / inst.blockSize
  let endSize := writeEnd - last * inst.blockSize
  if start = last then d.updateBlock true n start startOffset data size ⟨0, inst, ino, 0⟩
  else (d.writeBlocks n start startOffset data (last - start) start 0 ⟨0, inst, ino, 0⟩).bind fun s =>
    if s.rc ≠ 0 then some s
    else if 0 < endSize then
      d.updateBlock false n last 0 (fun p => data ((last - start) * s.inst.blockSize - startOffset + p)) endSize s
    else some s

def growFile (inst : Inst) (ino : Buf) (n writeEnd : Nat) : Progress :=
  if inodeGetSize inst ino < writeEnd then
    let ino := inodeSetSize inst ino writeEnd
    ⟨(d.writeInodeMetadata inst ino n).1, (d.writeInodeMetadata inst ino n).2, ino, 0⟩
  else ⟨0, inst, ino, 0⟩

/-- `write_inode_filedata` -/
def writeInodeFiledata (inst : Inst) (ino : Buf) (n offset size : Nat) (data : Buf) : Option Progress :=
  let grown := d.growFile inst ino n (offset + size)
  if grown.rc ≠ 0 then some grown
  else if inodeGetSize grown.inst grown.ino < offset + size then some { grown with rc := -1 }
  else (d.writeSpan grown.inst grown.ino n offset size data).map fun s =>
    { s with rc := if s.rc ≠ 0 then s.rc else size, inst := s.inst.writeBgds }

/-- `ext2_file_write`, with `file->pos` before and after the call. The position and the return value have 64 bits. -/
def fileWrite (inst : Inst) (n : Nat) (pos : BitVec 64) (offset count : Nat) (data : Buf) :
    Option (BitVec 64 × Progress) :=
  if (d.inode inst n).1 ≠ 0 then some (pos, ⟨(d.inode inst n).1, inst, (d.inode inst n).2, 0⟩)
  else (d.writeInodeFiledata inst (d.inode inst n).2 n offset count data).map fun s =>
    (pos + BitVec.ofInt 64 s.rc, { s with rc := s.rc.bmod (2 ^ 64) })

section Sound

variable (n : Nat) (data : Buf)

theorem putBlock_sound (i : Nat) (temp : Buf) (stop : Nat) (s : Progress) :
    (sound.putBlock n i temp stop s).map Progress.result =
      Ext2.writeInodeBlock s.inst s.ino n (BitVec.ofNat 32 i) temp := by
  rw [putBlock, map_map]
  exact map_id'

theorem updateBlock_sound (checked : Bool) (i o len : Nat) (s : Progress) :
    (sound.updateBlock checked n i o data len s).map Progress.result =
      Ext2.updateBlock s.inst s.ino n i o data len := by
  rw [updateBlock, sound]
  rw [bind_map, map_bind]
  refine congrArg _ (funext fun temp => ?_)
  dsimp only [comp_apply]
  rw [if_neg fun h => h.2 rfl]
  exact putBlock_sound n i _ _ s

theorem writeBlocks_sound (start startOffset left i written : Nat) (s : Progress) (hrc : s.rc = 0) :
    (sound.writeBlocks n start startOffset data left i written s).map Progress.result =
      Ext2.writeBlocks n start startOffset data left i written s.inst s.ino := by
  induction left generalizing i written s with
  | zero =>
    rw [writeBlocks, Ext2.writeBlocks, map_some, Progress.result, hrc]
  | succ left ih =>
    rw [writeBlocks]
    rw [Option.map_bind, show (sound.readInodeBlock s.inst s.ino (BitVec.ofNat 32 start)).map (fun (_, temp) =>
        copy temp startOffset data (s.inst.blockSize - startOffset)) =
        (Ext2.readInodeBlock s.inst s.ino (BitVec.ofNat 32 start)).map fun temp =>
          copy temp startOffset data (s.inst.blockSize - startOffset) from map_map ..]
    refine congrArg _ (funext fun temp => ?_)
    dsimp only [comp_apply]
    rw [← putBlock_sound, bind_map, map_bind]
    refine congrArg _ (funext fun s' => ?_)
    dsimp only [comp_apply]
    by_cases hfail : s'.rc = 0
    · rw [if_neg (not_not.mpr hfail)]
      exact (ih (i + 1) (written + 1) s' hfail).trans (if_neg (not_not.mpr hfail)).symm
    · rw [if_pos hfail]
      exact (if_pos hfail).symm

theorem writeSpan_sound (inst : Inst) (ino : Buf) (offset size : Nat) :
    (sound.writeSpan inst ino n offset size data).map Progress.result = Ext2.writeSpan inst ino n offset size data := by
  rw [writeSpan, Ext2.writeSpan]
  by_cases hsame : offset / inst.blockSize = (offset + size) / inst.blockSize
  · rw [if_pos hsame, if_pos hsame]
    exact updateBlock_sound n data true _ _ _ _
  · rw [if_neg hsame, if_neg hsame, ← writeBlocks_sound n data _ _ _ _ _ ⟨0, inst, ino, 0⟩ rfl, bind_map, map_bind]
    refine congrArg _ (funext fun s => ?_)
    dsimp only [comp_apply]
    by_cases hfail : s.rc = 0
    · rw [if_neg (not_not.mpr hfail)]
      refine Eq.trans ?_ (if_neg (not_not.mpr hfail)).symm
      split_ifs
      · exact updateBlock_sound n _ false _ _ _ s
      · rw [map_some, Progress.result, hfail]
    · rw [if_pos hfail]
      exact (if_pos hfail).symm

theorem writeInodeFiledata_sound (inst : Inst) (ino : Buf) (offset size : Nat) :
    (sound.writeInodeFiledata inst ino n offset size data).map Progress.result =
      Ext2.writeInodeFiledata inst ino n offset size data := by
  have hgrown : sound.growFile inst ino n (offset + size) =
      ⟨0, (Ext2.growFile inst ino n (offset + size)).1, (Ext2.growFile inst ino n (offset + size)).2, 0⟩ := by
    rw [growFile, Ext2.growFile]
    split_ifs <;> rfl
  rw [writeInodeFiledata, Ext2.writeInodeFiledata, hgrown]
  dsimp only
  rw [if_neg (not_not.mpr rfl)]
  split_ifs with hshort
  · rfl
  · rw [← writeSpan_sound, map_map, map_map]
    rfl

end Sound

/-- A write that returns an error leaves the position and the size right if and only if the inode could not be read. -/
theorem failed_write_iff {inst : Inst} {n offset count : Nat} {pos pos' : BitVec 64} {data : Buf}
    {s : Progress} (hcall : d.fileWrite inst n pos offset count data = some (pos', s)) (hneg : s.rc < 0) :
    pos' = pos ∧ s.inst.recordedSize n ≤ max (inst.recordedSize n) s.stop ↔ (d.inode inst n).1 ≠ 0 := by
  rw [fileWrite] at hcall
  constructor
  · rintro ⟨hpos, -⟩ hread
    rw [if_neg (not_not.mpr hread)] at hcall
    obtain ⟨s', -, heq⟩ := map_eq_some_iff.mp hcall
    obtain ⟨rfl, rfl⟩ := Prod.mk.inj heq
    have hzero := congrArg BitVec.toInt (add_eq_left.mp hpos)
    rw [BitVec.toInt_ofInt] at hzero
    exact absurd hneg (hzero ▸ lt_irrefl 0)
  · intro hread
    rw [if_pos hread] at hcall
    cases hcall
    exact ⟨rfl, le_max_left ..⟩

theorem recordedSize_fileWrite {S : Nat → Prop} {own : Nat → Option Owner} {inst : Inst} {n offset count : Nat}
    {pos pos' : BitVec 64} {data : Buf} {s : Progress} (hreg : inst.geo.Regular)
    (himage : Image inst.geo S inst.inode own inst) (hn : S n) (hin : inst.geo.HasInode n)
    (hsmall : SmallFile inst (inst.inode n)) (hrange : WriteCall.InRange inst.geo ⟨offset, count, data⟩)
    (hcall : sound.fileWrite inst n pos offset count data = some (pos', s)) :
    s.inst.recordedSize n = max (inst.recordedSize n) (offset + count) := by
  have hrecorded {inst : Inst} (hsmall : SmallFile inst (inst.inode n)) :
      inst.recordedSize n = Inode.size (inst.inode n) := by
    rw [Inst.recordedSize]
    split_ifs with hflag
    · rw [storedSize, hsmall hflag, zero_mul, zero_add]
    · rfl
  obtain ⟨rc, s', hwrite, hwrote, hsmall', hsize, -⟩ :=
    writeInodeFiledata_spec (s := ⟨inst, inst.inode, own⟩) hreg himage
    hn hin hsmall hrange.1 hrange.2.1 hrange.2.2 data
  obtain ⟨u, hu, heq⟩ := map_eq_some_iff.mp ((if_neg (not_not.mpr rfl)).symm.trans hcall)
  have hsame : some u.result = some (rc, s'.inst, s'.inodes n) :=
    (congrArg (Option.map Progress.result) hu).symm.trans ((writeInodeFiledata_sound ..).trans hwrite)
  obtain ⟨-, hinst, -⟩ : u.rc = rc ∧ u.inst = s'.inst ∧ u.ino = s'.inodes n := by
    simpa [Progress.result] using hsame
  have hsynced : s'.inst.inode n = s'.inodes n := hwrote.synced rfl
  cases heq
  rw [hrecorded hsmall, hinst, hrecorded (hsynced ▸ hsmall'), hsynced, hsize]

def unreadable : Device := { sound with inode := fun _ _ => (-5, fun _ => 0) }

theorem failed_write_unreadable : ∃ pos s,
    unreadable.fileWrite fileVolume 12 7 0 1 (fun _ => 0) = some (pos, s) ∧ s.rc < 0 ∧ pos = 7 := by
  obtain ⟨⟨pos, s⟩, hcall⟩ : ∃ r, unreadable.fileWrite fileVolume 12 7 0 1 (fun _ => 0) = some r :=
    isSome_iff_exists.mp (by decide)
  have hneg : s.rc < 0 := by
    cases hcall
    decide
  exact ⟨pos, s, hcall, hneg, ((failed_write_iff unreadable hcall hneg).mpr (show (-5 : Int) ≠ 0 by decide)).1⟩

/-- On a volume without free blocks the position becomes 7 - 28, and the size grows by bytes that were never
written. -/
theorem failed_write_moves : (sound.fileWrite (smallVolume (2 ^ 32 - 1) 0 0x7ff 5) 12 7 0 5 fun _ => 0).map
    (fun (pos, s) => (pos.toInt, s.rc, s.inst.recordedSize 12, s.stop)) = some (-21, -28, 5, 0) ∧
      (smallVolume (2 ^ 32 - 1) 0 0x7ff 5).recordedSize 12 = 0 := by
  decide

end Device

end Kairax.Ext2
