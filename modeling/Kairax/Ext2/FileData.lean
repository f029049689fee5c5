import Kairax.Ext2.FileBlock

/-!
# The contents of files

`write_inode_filedata` splits a write into a first block, whole blocks and a last block, and `read_inode_filedata`
puts the blocks together again. `file_contents` follows a file, a flat byte array, over any sequence of writes.
-/

namespace Kairax.Ext2

open Lib Option
open BitVec (ofNat)

/-- `ext2_inode_get_size`. The upper half is not shifted. -/
def inodeGetSize (inst : Inst) (ino : Buf) : Nat :=
  if inst.fileSize64bitFlag then Inode.sizeHigh ino ||| Inode.size ino else Inode.size ino

/-- `ext2_inode_set_size` -/
def inodeSetSize (inst : Inst) (ino : Buf) (size : Nat) : Buf :=
  Inode.setSize (if inst.fileSize64bitFlag then Inode.setSizeHigh ino (size / 2 ^ 32) else ino) size

/-- The loop of `read_inode_filedata` over the blocks that are left. A copy of a negative length is not
defined. -/
def readBlocks (inst : Inst) (ino : Buf) (start last startOffset endSize : Nat) : Nat → Nat → Nat → Buf → Option Buf
  | 0, _, _, out => some out
  | left + 1, i, current, out =>
    let leftOffset := if i = start then startOffset else 0
    let rightEnd := if i = last then endSize else inst.blockSize
    (readInodeBlock inst ino (ofNat 32 i)).bind fun temp =>
      if rightEnd < leftOffset then none
      else readBlocks inst ino start last startOffset endSize left (i + 1) (current + (rightEnd - leftOffset))
        (copy out current (fun p => temp (leftOffset + p)) (rightEnd - leftOffset))

/-- `read_inode_filedata`, with the caller's buffer. -/
def readInodeFiledata (inst : Inst) (ino : Buf) (offset size : Nat) (out : Buf) : Option (Int × Buf) :=
  let endOffset := if offset + size ≤ Inode.size ino then offset + size else Inode.size ino
  let start := offset / inst.blockSize
  let last := endOffset / inst.blockSize
  (readBlocks inst ino start last (offset % inst.blockSize) (endOffset - last * inst.blockSize) (last + 1 - start)
    start 0
    out).map fun out => ((endOffset : Int) - offset, out)

/-- The loop of `write_inode_filedata` over all blocks but the last one. -/
def writeBlocks (n start startOffset : Nat) (data : Buf) : Nat → Nat → Nat → Inst → Buf → Option (Int × Inst × Buf)
  | 0, _, _, inst, ino => some (0, inst, ino)
  | left + 1, i, written, inst, ino =>
    let temp :=
      if i = start then
        (readInodeBlock inst ino (ofNat 32 start)).map fun temp =>
          copy temp startOffset data (inst.blockSize - startOffset)
      else some (copy (fun _ => 0) 0 (fun p => data (written * inst.blockSize - startOffset + p)) inst.blockSize)
    temp.bind fun temp => (writeInodeBlock inst ino n (ofNat 32 i) temp).bind fun (rc, inst, ino) =>
      if rc ≠ 0 then some (rc, inst, ino)
      else writeBlocks n start startOffset data left (i + 1) (written + 1) inst ino

def updateBlock (inst : Inst) (ino : Buf) (n i o : Nat) (data : Buf) (len : Nat) : Option (Int × Inst × Buf) :=
  (readInodeBlock inst ino (ofNat 32 i)).bind fun temp =>
    writeInodeBlock inst ino n (ofNat 32 i) (copy temp o data len)

/-- The part of `write_inode_filedata` that writes the blocks, with the result of the last transfer. -/
def writeSpan (inst : Inst) (ino : Buf) (n offset size : Nat) (data : Buf) : Option (Int × Inst × Buf) :=
  let writeEnd := offset + size
  let start := offset / inst.blockSize
  let startOffset := offset % inst.blockSize
  let last := writeEnd / inst.blockSize
  let endSize := writeEnd - last * inst.blockSize
  if start = last then updateBlock inst ino n start startOffset data size
  else (writeBlocks n start startOffset data (last - start) start 0 inst ino).bind fun (rc, inst, ino) =>
    if rc ≠ 0 then some (rc, inst, ino)
    else if 0 < endSize then
      updateBlock inst ino n last 0 (fun p => data ((last - start) * inst.blockSize - startOffset + p)) endSize
    else some (0, inst, ino)

def growFile (inst : Inst) (ino : Buf) (n writeEnd : Nat) : Inst × Buf :=
  if inodeGetSize inst ino < writeEnd then
    let ino := inodeSetSize inst ino writeEnd
    (inst.writeInodeMetadata ino n, ino)
  else (inst, ino)

/-- `write_inode_filedata` -/
def writeInodeFiledata (inst : Inst) (ino : Buf) (n offset size : Nat) (data : Buf) : Option (Int × Inst × Buf) :=
  let (inst, ino) := growFile inst ino n (offset + size)
  if inodeGetSize inst ino < offset + size then some (-1, inst, ino)
  else (writeSpan inst ino n offset size data).map fun (rc, inst, ino) =>
    (if rc ≠ 0 then rc else size, inst.writeBgds, ino)

def fileBytes (inst : Inst) (ino : Buf) : Buf := flat inst.blockSize (fileBlock inst ino)

def doubleEnd (G : Geo) : Nat := 12 + G.blockSize / 4 + G.blockSize / 4 * (G.blockSize / 4)

variable {s' s : Stage} {a b bs i : Nat} {new temp old : Buf}

section Spans

variable {G : Geo} {S : Nat → Prop} {s : Stage} {n : Nat}

theorem Geo.Regular.blockSize_pos (hreg : G.Regular) : 0 < G.blockSize := by
  have := hreg.entries.ge
  omega

theorem Geo.Regular.doubleEnd_lt (hreg : G.Regular) : doubleEnd G < 2 ^ 31 :=
  (Nat.le_add_right _ _).trans_lt hreg.entries.readable_lt

theorem toNat_ofNat_lt (hi : i < 2 ^ 31) : (ofNat 32 i).toNat = i :=
  Nat.mod_eq_of_lt (by omega)

theorem fileBytes_block (himage : s.Consistent G S) {q : Nat} (hq : q < G.blockSize) :
    fileBytes s.inst (s.inodes n) (i * G.blockSize + q) = fileBlock s.inst (s.inodes n) i q := by
  rw [fileBytes, himage.blockSize]
  exact flat_block hq

/-- The blocks from `a` up to `b` are those of the array `new`, unless the volume ran out of blocks. -/
structure Stage.Spliced (G : Geo) (S : Nat → Prop) (n : Nat) (s s' : Stage) (new old : Buf) (a b : Nat) : Prop where
  wrote : Wrote G S n s s'
  rest : s.SameRest n s'
  bytes : s'.inst.exhausted = true ∨ fileBytes s'.inst (s'.inodes n) = splice G.blockSize new old a b

theorem Stage.Spliced.of_exhausted {b' : Nat} (hspliced : s.Spliced G S n s' new old a b)
    (hexhausted : s'.inst.exhausted = true) : s.Spliced G S n s' new old a b' :=
  ⟨hspliced.wrote, hspliced.rest, .inl hexhausted⟩

variable (hreg : G.Regular) (hn : S n) (hin : G.HasInode n) (hspliced : s.Spliced G S n s' new old a b) (hab : a ≤ b)
  (hb : b < doubleEnd G)

include hreg hn hin hspliced hab hb in
theorem writeInodeBlock_splice
    (htemp : fileBytes s'.inst (s'.inodes n) = splice G.blockSize new old a b →
      ∀ q < G.blockSize, temp q = new (b * G.blockSize + q)) :
    ∃ rc s'', writeInodeBlock s'.inst (s'.inodes n) n (ofNat 32 b) temp = some (rc, s''.inst, s''.inodes n) ∧
      s.Spliced G S n s'' new old a (b + 1) ∧ (rc ≠ 0 → s''.inst.exhausted = true) := by
  have himage := hspliced.wrote.image
  have hindex := toNat_ofNat_lt (hb.trans hreg.doubleEnd_lt)
  obtain ⟨rc, s'', hcall, hwrote, hrest, hcase⟩ := writeInodeBlock_spec hreg himage hn hin
    (by rwa [hindex]) temp
  refine ⟨rc, s'', hcall, ⟨hspliced.wrote.trans hwrote, hspliced.rest.trans hrest, ?_⟩, fun hrc =>
    hcase.resolve_right fun h => hrc h.1⟩
  obtain hexhausted | ⟨-, hput⟩ := hcase
  · exact .inl hexhausted
  obtain hexhausted | hbytes := hspliced.bytes
  · exact .inl (hwrote.exhausted hexhausted)
  have htemp := htemp hbytes
  rw [hindex] at hput
  rw [fileBytes, himage.blockSize] at hbytes
  rw [fileBytes, hwrote.image.blockSize, flat_putBlock hput, hbytes]
  refine .inr (putBlock_splice hreg.blockSize_pos hab fun q hq => ?_)
  rw [clip_apply hq, htemp q hq]

theorem copy_part {data data' : Buf} {o len offset size : Nat}
    (hpart : ∀ q < bs, (offset ≤ i * bs + q ∧ i * bs + q < offset + size) ↔ o ≤ q ∧ q < o + len)
    (hdata : ∀ q < bs, o ≤ q → q < o + len → data' (q - o) = data (i * bs + q - offset))
    (hold : ∀ q < bs, ¬ (o ≤ q ∧ q < o + len) → temp q = old (i * bs + q)) :
    ∀ q < bs, copy temp o data' len q = copy old offset data size (i * bs + q) := by
  intro q hq
  rw [copy, copy]
  by_cases hin : o ≤ q ∧ q < o + len
  · rw [if_pos hin, if_pos ((hpart q hq).mpr hin), hdata q hq hin.1 hin.2]
  · rw [if_neg hin, if_neg (mt (hpart q hq).mp hin), hold q hq hin]

include hreg hn hin hspliced hab hb in
theorem updateBlock_splice (o : Nat) (data : Buf) (len : Nat)
    (hnew : ∀ temp : Buf, (∀ q < G.blockSize, temp q = old (b * G.blockSize + q)) →
      ∀ q < G.blockSize, copy temp o data len q = new (b * G.blockSize + q)) :
    ∃ rc s'', updateBlock s'.inst (s'.inodes n) n b o data len = some (rc, s''.inst, s''.inodes n) ∧
      s.Spliced G S n s'' new old a (b + 1) ∧ (rc ≠ 0 → s''.inst.exhausted = true) := by
  have himage := hspliced.wrote.image
  have hsmall := hb.trans hreg.doubleEnd_lt
  have hindex := toNat_ofNat_lt hsmall
  have hread := readInodeBlock_eq (s'.inodes n) (by rw [himage.blockSize]; exact hreg.entries)
    (show (ofNat 32 b).toNat < 2 ^ 31 by rwa [hindex])
  rw [updateBlock, hread]
  apply writeInodeBlock_splice hreg hn hin hspliced hab hb
  intro hbytes
  apply hnew
  intro q hq
  rw [hindex, ← fileBytes_block himage hq, hbytes, splice, if_neg (by omega)]

section Write

variable {data : Buf} {offset size start startOffset last : Nat}

theorem mul_eq_add_mul (bs : Nat) (hi : start ≤ i) : i * bs = start * bs + (i - start) * bs := by
  rw [← add_mul, Nat.add_sub_cancel' hi]

section

variable (hoffset : offset = start * bs + startOffset)
include hoffset

theorem copy_middle (hlt : startOffset < bs) (hi : start < i) (hend : (i + 1) * bs ≤ offset + size) :
    ∀ q < bs, copy (fun _ => 0) 0 (fun p => data ((i - start) * bs - startOffset + p)) bs q =
      copy old offset data size (i * bs + q) := by
  have hmul := mul_eq_add_mul bs hi.le
  have hle : bs ≤ (i - start) * bs := Nat.le_mul_of_pos_left bs (by omega)
  rw [add_mul] at hend
  apply copy_part
  · omega
  · intro q hq _ _
    exact congrArg data (by omega)
  · omega

theorem copy_first {len : Nat} (hlen : startOffset + len = bs ∧ (start + 1) * bs ≤ offset + size ∨ len = size)
    (hold : ∀ q < bs, temp q = old (start * bs + q)) :
    ∀ q < bs, copy temp startOffset data len q = copy old offset data size (start * bs + q) := by
  rw [add_mul] at hlen
  apply copy_part
  · omega
  · intro q hq _ _
    exact congrArg data (by omega)
  · intro q hq _
    exact hold q hq

theorem copy_last (hlt : startOffset < bs) (hlast : start < last)
    (hend : last * bs ≤ offset + size) (hold : ∀ q < bs, temp q = old (last * bs + q)) :
    ∀ q < bs, copy temp 0 (fun p => data ((last - start) * bs - startOffset + p)) (offset + size - last * bs) q =
      copy old offset data size (last * bs + q) := by
  have hmul := mul_eq_add_mul bs hlast.le
  have hle : bs ≤ (last - start) * bs := Nat.le_mul_of_pos_left bs (by omega)
  apply copy_part
  · omega
  · intro q hq _ _
    exact congrArg data (by omega)
  · intro q hq _
    exact hold q hq

end

theorem writeBlocks_splice (hreg : G.Regular) (hn : S n) (hin : G.HasInode n)
    (hoffset : offset = start * G.blockSize + startOffset) (hlt : startOffset < G.blockSize)
    (hlast : last ≤ doubleEnd G) (hend : last * G.blockSize ≤ offset + size) (left : Nat) :
    ∀ (i : Nat) (s' : Stage), start ≤ i → i + left = last →
      s.Spliced G S n s' (copy old offset data size) old start i →
      ∃ rc s'', writeBlocks n start startOffset data left i (i - start) s'.inst (s'.inodes n) =
          some (rc, s''.inst, s''.inodes n) ∧
        s.Spliced G S n s'' (copy old offset data size) old start last ∧ (rc ≠ 0 → s''.inst.exhausted = true) := by
  induction left with
  | zero =>
    intro i s' _ hi hspliced
    obtain rfl : i = last := hi
    exact ⟨0, s', rfl, hspliced, fun h => absurd rfl h⟩
  | succ left ih =>
    intro i s' hstart hi hspliced
    have himage := hspliced.wrote.image
    have hblock : (i + 1) * G.blockSize ≤ offset + size :=
      (Nat.mul_le_mul_right _ (by omega)).trans hend
    -- the rest of the loop after the block has been written from a buffer or by an update
    have hnext {found : Option (Int × Inst × Buf)} {rc : Int} {s₁ : Stage}
        (hcall : found = some (rc, s₁.inst, s₁.inodes n))
        (hspliced₁ : s.Spliced G S n s₁ (copy old offset data size) old start (i + 1))
        (hfail : rc ≠ 0 → s₁.inst.exhausted = true) :
        ∃ rc s'', (found.bind fun (rc, inst, ino) =>
            if rc ≠ 0 then some (rc, inst, ino)
            else writeBlocks n start startOffset data left (i + 1) (i - start + 1) inst ino) =
            some (rc, s''.inst, s''.inodes n) ∧
          s.Spliced G S n s'' (copy old offset data size) old start last ∧
          (rc ≠ 0 → s''.inst.exhausted = true) := by
      rw [hcall, bind_some]
      dsimp only
      by_cases hrc : rc ≠ 0
      · exact ⟨rc, s₁, if_pos hrc, hspliced₁.of_exhausted (hfail hrc), hfail⟩
      · rw [if_neg hrc, show i - start + 1 = i + 1 - start by omega]
        exact ih (i + 1) s₁ (by omega) (by omega) hspliced₁
    rw [writeBlocks, himage.blockSize]
    by_cases hfirst : i = start
    · subst hfirst
      obtain ⟨rc, s₁, hcall, hspliced₁, hfail⟩ := updateBlock_splice hreg hn hin hspliced hstart (by omega)
        startOffset data (G.blockSize - startOffset) fun temp hold => copy_first hoffset (.inl ⟨by omega, hblock⟩) hold
      obtain ⟨rc, s'', hrest, hdone⟩ := hnext hcall hspliced₁ hfail
      refine ⟨rc, s'', ?_, hdone⟩
      rw [if_pos rfl, bind_map, ← hrest, updateBlock, bind_assoc]
      rfl
    · rw [if_neg hfirst]
      obtain ⟨rc, s₁, hcall, hspliced₁, hfail⟩ := writeInodeBlock_splice hreg hn hin hspliced hstart (by omega)
        fun _ => copy_middle hoffset hlt (by omega) hblock
      exact hnext hcall hspliced₁ hfail

theorem writeSpan_spec (hreg : G.Regular) (himage : s.Consistent G S) (hn : S n) (hin : G.HasInode n)
    (hoffset : offset < doubleEnd G * G.blockSize) (hend : offset + size ≤ doubleEnd G * G.blockSize) (data : Buf) :
    ∃ rc s', writeSpan s.inst (s.inodes n) n offset size data = some (rc, s'.inst, s'.inodes n) ∧
      Wrote G S n s s' ∧ s.SameRest n s' ∧ (rc ≠ 0 → s'.inst.exhausted = true) ∧
      (s'.inst.exhausted = true ∨
        fileBytes s'.inst (s'.inodes n) = copy (fileBytes s.inst (s.inodes n)) offset data size) := by
  have hbs := hreg.blockSize_pos
  have hsplit : offset = offset / G.blockSize * G.blockSize + offset % G.blockSize := (Nat.div_add_mod' _ _).symm
  have hlt := Nat.mod_lt offset hbs
  have hstart : offset / G.blockSize < doubleEnd G := Nat.div_lt_of_lt_mul (by rwa [mul_comm])
  have hlast : (offset + size) / G.blockSize * G.blockSize ≤ offset + size := Nat.div_mul_le_self _ _
  have hlast' : offset + size < ((offset + size) / G.blockSize + 1) * G.blockSize := by
    rw [add_mul, one_mul]
    exact Nat.lt_div_mul_add hbs
  have hle : offset / G.blockSize ≤ (offset + size) / G.blockSize := Nat.div_le_div_right (Nat.le_add_right _ _)
  have hbase : s.Spliced G S n s (copy (fileBytes s.inst (s.inodes n)) offset data size)
      (fileBytes s.inst (s.inodes n)) (offset / G.blockSize) (offset / G.blockSize) :=
    ⟨.refl himage, fun _ _ => rfl, .inr splice_self.symm⟩
  -- a write that has reached its end
  have hdone {b : Nat} (hb : offset + size ≤ b * G.blockSize) {rc : Int} {s' : Stage}
      (hspliced : s.Spliced G S n s' (copy (fileBytes s.inst (s.inodes n)) offset data size)
        (fileBytes s.inst (s.inodes n)) (offset / G.blockSize) b)
      (hfail : rc ≠ 0 → s'.inst.exhausted = true) :
      Wrote G S n s s' ∧ s.SameRest n s' ∧ (rc ≠ 0 → s'.inst.exhausted = true) ∧
        (s'.inst.exhausted = true ∨
          fileBytes s'.inst (s'.inodes n) = copy (fileBytes s.inst (s.inodes n)) offset data size) := by
    refine ⟨hspliced.wrote, hspliced.rest, hfail, hspliced.bytes.imp_right fun hbytes => ?_⟩
    rw [hbytes]
    apply splice_eq
    intro p hp
    exact copy_of_outside (by omega)
  rw [writeSpan, himage.blockSize]
  dsimp only
  by_cases hone : offset / G.blockSize = (offset + size) / G.blockSize
  · rw [if_pos hone]
    obtain ⟨rc, s', hcall, hspliced, hfail⟩ := updateBlock_splice hreg hn hin hbase le_rfl hstart
      (offset % G.blockSize) data size fun temp hold => copy_first hsplit (.inr rfl) hold
    rw [← hone] at hlast'
    exact ⟨rc, s', hcall, hdone hlast'.le hspliced hfail⟩
  · have hrange : (offset + size) / G.blockSize ≤ doubleEnd G := by
      apply Nat.div_le_of_le_mul
      rwa [mul_comm]
    obtain ⟨rc, s₁, hcall, hspliced, hfail⟩ := writeBlocks_splice hreg hn hin hsplit hlt hrange hlast
      ((offset + size) / G.blockSize - offset / G.blockSize) _ s le_rfl (by omega) hbase
    rw [Nat.sub_self] at hcall
    rw [if_neg hone, hcall, bind_some]
    by_cases hrc : rc ≠ 0
    · exact ⟨rc, s₁, if_pos hrc, hdone hlast'.le (hspliced.of_exhausted (hfail hrc)) hfail⟩
    rw [if_neg hrc, hspliced.wrote.image.blockSize]
    by_cases hrest : 0 < offset + size - (offset + size) / G.blockSize * G.blockSize
    · have hin' : (offset + size) / G.blockSize < doubleEnd G := by
        apply Nat.lt_of_mul_lt_mul_right (a := G.blockSize)
        omega
      obtain ⟨rc, s₂, hcall, hspliced₂, hfail₂⟩ := updateBlock_splice hreg hn hin hspliced hle hin' 0
        (fun p => data (((offset + size) / G.blockSize - offset / G.blockSize) * G.blockSize -
          offset % G.blockSize + p))
        (offset + size - (offset + size) / G.blockSize * G.blockSize) fun temp hold =>
        copy_last hsplit hlt (by omega) hlast hold
      exact ⟨rc, s₂, (if_pos hrest).trans hcall, hdone hlast'.le hspliced₂ hfail₂⟩
    · exact ⟨0, s₁, if_neg hrest, hdone (by omega) hspliced fun h => absurd rfl h⟩

end Write

end Spans

def SmallFile (inst : Inst) (ino : Buf) : Prop := inst.fileSize64bitFlag = true → Inode.sizeHigh ino = 0

section Sizes

variable {inst : Inst} {ino ino' : Buf} {x : Nat}

theorem SmallFile.getSize (hsmall : SmallFile inst ino) : inodeGetSize inst ino = Inode.size ino := by
  rw [inodeGetSize]
  split_ifs with hflag
  · rw [hsmall hflag, Nat.zero_or]
  · rfl

theorem size_inodeSetSize (hx : x < 2 ^ 32) : Inode.size (inodeSetSize inst ino x) = x :=
  (readLE_writeLE _ _ 4 x).trans (Nat.mod_eq_of_lt hx)

theorem smallFile_inodeSetSize (hx : x < 2 ^ 32) : SmallFile inst (inodeSetSize inst ino x) := by
  intro hflag
  have hhigh : Inode.sizeHigh (inodeSetSize inst ino x) = Inode.sizeHigh (Inode.setSizeHigh ino (x / 2 ^ 32)) := by
    rw [inodeSetSize, if_pos hflag]
    exact readLE_writeLE_of_disjoint (by omega)
  rw [hhigh, Nat.div_eq_of_lt hx]
  exact readLE_writeLE _ _ 4 0

theorem inodeSetSize_apply {p : Nat} (hp : p < 4 ∨ (8 ≤ p ∧ p < 108) ∨ 112 ≤ p) :
    inodeSetSize inst ino x p = ino p := by
  rw [inodeSetSize, Inode.setSize, writeLE_of_outside (by omega)]
  split_ifs
  · exact writeLE_of_outside (by omega)
  · rfl

theorem fits_inodeSetSize (hfits : Inode.Fits ino) : Inode.Fits (inodeSetSize inst ino x) := by
  apply fits_iff.mpr
  intro p hp
  rw [inodeSetSize_apply (by omega)]
  exact fits_iff.mp hfits p hp

theorem Stage.SameRest.size {n : Nat} (hrest : s.SameRest n s') :
    Inode.size (s'.inodes n) = Inode.size (s.inodes n) := by
  apply readLE_congr
  intro p _ hp
  exact hrest p (by omega)

theorem Stage.SameRest.sizeHigh {n : Nat} (hrest : s.SameRest n s') :
    Inode.sizeHigh (s'.inodes n) = Inode.sizeHigh (s.inodes n) := by
  apply readLE_congr
  intro p hp _
  exact hrest p (by omega)

end Sizes

def Stage.SameFields (n : Nat) (s s' : Stage) : Prop := ∀ p, p < 4 ∨ (8 ≤ p ∧ p < 28) → s'.inodes n p = s.inodes n p

section Filedata

variable {G : Geo} {S : Nat → Prop} {n offset size : Nat}

theorem growFile_spec (hreg : G.Regular) (himage : s.Consistent G S) (hn : S n) (hin : G.HasInode n)
    (hsmall : SmallFile s.inst (s.inodes n)) {writeEnd : Nat} (hlimit : writeEnd < 2 ^ 32) :
    ∃ s', growFile s.inst (s.inodes n) n writeEnd = (s'.inst, s'.inodes n) ∧ Wrote G S n s s' ∧
      SmallFile s'.inst (s'.inodes n) ∧ Inode.size (s'.inodes n) = max (Inode.size (s.inodes n)) writeEnd ∧
      s.SameFields n s' ∧ fileBytes s'.inst (s'.inodes n) = fileBytes s.inst (s.inodes n) := by
  rw [growFile, hsmall.getSize]
  by_cases hgrow : Inode.size (s.inodes n) < writeEnd
  · have hblock (k : Nat) (hk : k < 15) :
        Inode.block (inodeSetSize s.inst (s.inodes n) writeEnd) k = Inode.block (s.inodes n) k :=
      readLE_congr fun p hlow hhigh => inodeSetSize_apply (by omega)
    have hino := s.inodes_writeInode n (inodeSetSize s.inst (s.inodes n) writeEnd)
    refine ⟨s.writeInode n (inodeSetSize s.inst (s.inodes n) writeEnd), ?_,
      Wrote.writeInode hreg himage hin hblock fun hsynced => fits_inodeSetSize hsynced.fits, ?_, ?_,
      fun p hp => ?_, ?_⟩
    · rw [if_pos hgrow, hino]
      rfl
    · rw [hino]
      exact show SmallFile s.inst _ from smallFile_inodeSetSize hlimit
    · rw [hino, size_inodeSetSize hlimit, max_eq_right hgrow.le]
    · rw [hino]
      exact inodeSetSize_apply (by omega)
    · rw [hino, fileBytes, funext (fileBlock_writeInode hreg himage hn hin hblock)]
      rfl
  · exact ⟨s, if_neg hgrow, .refl himage, hsmall, (max_eq_left (not_lt.mp hgrow)).symm, fun _ _ => rfl, rfl⟩

theorem writeInodeFiledata_spec (hreg : G.Regular) (himage : s.Consistent G S) (hn : S n) (hin : G.HasInode n)
    (hsmall : SmallFile s.inst (s.inodes n)) (hoffset : offset < doubleEnd G * G.blockSize)
    (hend : offset + size ≤ doubleEnd G * G.blockSize) (hlimit : offset + size < 2 ^ 32) (data : Buf) :
    ∃ rc s', writeInodeFiledata s.inst (s.inodes n) n offset size data = some (rc, s'.inst, s'.inodes n) ∧
      Wrote G S n s s' ∧ SmallFile s'.inst (s'.inodes n) ∧
      Inode.size (s'.inodes n) = max (Inode.size (s.inodes n)) (offset + size) ∧ s.SameFields n s' ∧
      (s'.inst.exhausted = true ∨ (rc = size ∧
        fileBytes s'.inst (s'.inodes n) = copy (fileBytes s.inst (s.inodes n)) offset data size)) := by
  obtain ⟨s₁, hgrow, hwrote₁, hsmall₁, hsize₁, hfields₁, hbytes₁⟩ := growFile_spec hreg himage hn hin hsmall hlimit
  obtain ⟨rc, s₂, hspan, hwrote₂, hrest, hfail, hbytes₂⟩ :=
    writeSpan_spec hreg hwrote₁.image hn hin hoffset hend data
  have hflag : s₂.inst.fileSize64bitFlag = s₁.inst.fileSize64bitFlag :=
    congrArg Geo.fileSize64bitFlag (hwrote₂.image.counted.geo.trans hwrote₁.image.counted.geo.symm)
  refine ⟨if rc ≠ 0 then rc else size, s₂.writeBgds, ?_,
    hwrote₁.trans (hwrote₂.trans (Wrote.writeBgds hreg.toValid hwrote₂.image hin)), fun hset => ?_, ?_,
    fun p hp => ?_, ?_⟩
  · rw [writeInodeFiledata, hgrow]
    dsimp only
    rw [hsmall₁.getSize, if_neg (by omega), hspan]
    rfl
  · exact hrest.sizeHigh.trans (hsmall₁ (hflag ▸ hset))
  · exact hrest.size.trans hsize₁
  · exact (hrest p (by omega)).trans (hfields₁ p hp)
  · obtain hexhausted | hbytes₂ := hbytes₂
    · exact .inl hexhausted
    by_cases hrc : rc ≠ 0
    · exact .inl (hfail hrc)
    refine .inr ⟨if_neg hrc, ?_⟩
    rw [hbytes₁] at hbytes₂
    rw [← hbytes₂]
    exact congrArg (flat s₂.inst.blockSize) (funext (fileBlock_writeBgds hreg hwrote₂.image hn))

theorem readBlocks_spec {inst : Inst} (ino : Buf) {start last startOffset endSize : Nat}
    (hent : Entries (inst.blockSize / 4)) (hstart : start ≤ last) (hlast : last < 2 ^ 31)
    (hoffset : offset = start * inst.blockSize + startOffset) (hlt : startOffset < inst.blockSize)
    (hend : offset + size = last * inst.blockSize + endSize) (hle : endSize < inst.blockSize) (left : Nat) :
    ∀ (i current : Nat) (out : Buf), start ≤ i → i + left = last + 1 →
      (i ≤ last → offset + current = i * inst.blockSize + if i = start then startOffset else 0) →
      (i = last + 1 → current = size) →
      (∀ p < current, out p = fileBytes inst ino (offset + p)) →
      ∃ out', readBlocks inst ino start last startOffset endSize left i current out = some out' ∧
        ∀ p < size, out' p = fileBytes inst ino (offset + p) := by
  induction left with
  | zero =>
    intro i current out _ hi _ hdone hout
    obtain rfl := hdone hi
    exact ⟨out, rfl, hout⟩
  | succ left ih =>
    intro i current out hlow hi hpos _ hout
    have hilast : i ≤ last := by omega
    have hindex := toNat_ofNat_lt (hilast.trans_lt hlast)
    rw [readBlocks, readInodeBlock_eq ino hent (by rw [hindex]; omega), bind_some, hindex]
    have hright : (if i = last then endSize else inst.blockSize) ≤ inst.blockSize := by
      split_ifs
      · exact hle.le
      · exact le_rfl
    have horder : (if i = start then startOffset else 0) ≤ if i = last then endSize else inst.blockSize := by
      split_ifs with hfirst hfinal
      · subst hfirst
        subst hfinal
        omega
      · exact hlt.le
      · exact Nat.zero_le _
      · exact Nat.zero_le _
    generalize hl : (if i = start then startOffset else 0) = l at *
    generalize hr : (if i = last then endSize else inst.blockSize) = r at *
    rw [if_neg (not_lt.mpr horder)]
    apply ih (i + 1) _ _ (by omega) (by omega)
    · intro hnext
      rw [if_neg (by omega)] at hr
      rw [if_neg (by omega), add_mul]
      omega
    · intro hfinal
      obtain rfl : i = last := by omega
      rw [if_pos rfl] at hr
      omega
    · intro p hp
      by_cases hold : p < current
      · rw [copy_of_outside (.inl hold), hout p hold]
      · rw [copy, if_pos (by omega), show offset + p = i * inst.blockSize + (l + (p - current)) by omega]
        exact (flat_block (by omega)).symm

theorem readInodeFiledata_spec {inst : Inst} {ino : Buf} (hent : Entries (inst.blockSize / 4))
    (hsize : offset + size ≤ Inode.size ino) (out : Buf) :
    ∃ out', readInodeFiledata inst ino offset size out = some ((size : Int), out') ∧
      ∀ p < size, out' p = fileBytes inst ino (offset + p) := by
  have hlimit : Inode.size ino < 2 ^ 32 := readLE_lt ino 4 4
  have hge := hent.ge
  have hbs : 0 < inst.blockSize := by omega
  have hstart : offset / inst.blockSize ≤ (offset + size) / inst.blockSize :=
    Nat.div_le_div_right (Nat.le_add_right _ _)
  have hlast : (offset + size) / inst.blockSize < 2 ^ 31 := by
    apply Nat.div_lt_of_lt_mul
    omega
  have hsplit := Nat.div_add_mod' (offset + size) inst.blockSize
  obtain ⟨out', hread, hbytes⟩ := readBlocks_spec ino hent hstart hlast
    (Nat.div_add_mod' offset inst.blockSize).symm (Nat.mod_lt offset hbs) hsplit.symm (Nat.mod_lt _ hbs)
    ((offset + size) / inst.blockSize + 1 - offset / inst.blockSize) _ 0 out le_rfl (by omega)
    (fun _ => by rw [if_pos rfl, add_zero, Nat.div_add_mod']) (fun h => by omega) (fun p hp => by omega)
  refine ⟨out', ?_, hbytes⟩
  rw [readInodeFiledata, if_pos hsize,
    show offset + size - (offset + size) / inst.blockSize * inst.blockSize = (offset + size) % inst.blockSize by omega,
    hread]
  simp

end Filedata

/-- The arguments of `write_inode_filedata`. -/
structure WriteCall where
  offset : Nat
  size : Nat
  data : Buf

/-- The call stays below 4 GiB and in the direct, single and double indirect range. -/
def WriteCall.InRange (G : Geo) (c : WriteCall) : Prop :=
  c.offset < doubleEnd G * G.blockSize ∧ c.offset + c.size ≤ doubleEnd G * G.blockSize ∧ c.offset + c.size < 2 ^ 32

instance (G : Geo) (c : WriteCall) : Decidable (c.InRange G) := inferInstanceAs (Decidable (_ ∧ _ ∧ _))

structure OpenFile where
  inst : Inst
  ino : Buf

def OpenFile.write (n : Nat) (f : OpenFile) (c : WriteCall) : Option (Int × OpenFile) :=
  (writeInodeFiledata f.inst f.ino n c.offset c.size c.data).map fun (rc, inst, ino) => (rc, ⟨inst, ino⟩)

def OpenFile.step (n : Nat) (f : OpenFile) (c : WriteCall) : Option OpenFile := (f.write n c).map (·.2)

def applyWrites (arr : Buf) (calls : List WriteCall) : Buf :=
  calls.foldl (fun arr c => copy arr c.offset c.data c.size) arr

def sizeAfter (size : Nat) (calls : List WriteCall) : Nat :=
  calls.foldl (fun size c => max size (c.offset + c.size)) size

section Sequence

variable {G : Geo} {S : Nat → Prop} {n : Nat} {calls : List WriteCall} {t : OpenFile}

theorem OpenFile.write_spec (hreg : G.Regular) (himage : s.Consistent G S) (hn : S n) (hin : G.HasInode n)
    (hsmall : SmallFile s.inst (s.inodes n)) {c : WriteCall} (hc : c.InRange G) :
    ∃ rc s', OpenFile.write n ⟨s.inst, s.inodes n⟩ c = some (rc, ⟨s'.inst, s'.inodes n⟩) ∧ Wrote G S n s s' ∧
      SmallFile s'.inst (s'.inodes n) ∧ Inode.size (s'.inodes n) = max (Inode.size (s.inodes n)) (c.offset + c.size) ∧
      (s'.inst.exhausted = true ∨ (rc = c.size ∧
        fileBytes s'.inst (s'.inodes n) = copy (fileBytes s.inst (s.inodes n)) c.offset c.data c.size)) := by
  obtain ⟨rc, s', hcall, hwrote, hsmall', hsize, -, hcase⟩ :=
    writeInodeFiledata_spec hreg himage hn hin hsmall hc.1 hc.2.1 hc.2.2 c.data
  refine ⟨rc, s', ?_, hwrote, hsmall', hsize, hcase⟩
  rw [OpenFile.write, hcall]
  rfl

theorem OpenFile.run_spec (hreg : G.Regular) (hn : S n) (hin : G.HasInode n) {f : OpenFile}
    (hrun : Run (OpenFile.step n) (fun _ c => c.InRange G) f calls t) :
    ∀ s : Stage, f = ⟨s.inst, s.inodes n⟩ → s.Consistent G S → SmallFile s.inst (s.inodes n) →
      ∃ s', t = ⟨s'.inst, s'.inodes n⟩ ∧ Wrote G S n s s' ∧ SmallFile s'.inst (s'.inodes n) ∧
        Inode.size (s'.inodes n) = sizeAfter (Inode.size (s.inodes n)) calls ∧
        (s'.inst.exhausted = true ∨
          fileBytes s'.inst (s'.inodes n) = applyWrites (fileBytes s.inst (s.inodes n)) calls) := by
  induction hrun with
  | nil f =>
    intro s hf himage hsmall
    exact ⟨s, hf, .refl himage, hsmall, rfl, .inr rfl⟩
  | cons hc hstep _ ih =>
    intro s hf himage hsmall
    obtain ⟨rc, s₁, hcall, hwrote₁, hsmall₁, hsize₁, hcase₁⟩ := OpenFile.write_spec hreg himage hn hin hsmall hc
    rw [hf, OpenFile.step, hcall] at hstep
    obtain ⟨s₂, ht, hwrote₂, hsmall₂, hsize₂, hcase₂⟩ := ih s₁ (some.inj hstep).symm hwrote₁.image hsmall₁
    rw [hsize₁] at hsize₂
    refine ⟨s₂, ht, hwrote₁.trans hwrote₂, hsmall₂, hsize₂, ?_⟩
    obtain hexhausted | ⟨-, hbytes₁⟩ := hcase₁
    · exact .inl (hwrote₂.exhausted hexhausted)
    · rw [hbytes₁] at hcase₂
      exact hcase₂

theorem Wrote.foreign (himage : s.Consistent G S) (hwrote : Wrote G S n s s') {m : Nat} (hm : S m) (hne : m ≠ n)
    {q : List Nat} (hq : IsPath (G.blockSize / 4) q) (hb : blockAt (s.inodes m) s.inst.disk q = some b) :
    blockAt (s.inodes m) s'.inst.disk q = some b ∧ s'.inst.disk b = s.inst.disk b := by
  refine ⟨?_, hwrote.keeps b _ (himage.node m hm q b hq hb) hne⟩
  rw [← hb]
  exact himage.blockAt_frame hm (fun c q' ho _ => hwrote.keeps c _ ho hne) hq

end Sequence

/-- A file that is written by any sequence of calls is the byte array that they make, as long as the calls reach. -/
theorem file_contents {S : Nat → Prop} {own : Nat → Option Owner} {inst : Inst} {n : Nat} {calls : List WriteCall}
    {t : OpenFile} (hreg : inst.geo.Regular) (himage : Image inst.geo S inst.inode own inst) (hn : S n)
    (hin : inst.geo.HasInode n) (hsmall : SmallFile inst (inst.inode n))
    (hzero : ∀ p, fileBytes inst (inst.inode n) p = 0)
    (hrun : Run (OpenFile.step n) (fun _ c => c.InRange inst.geo) ⟨inst, inst.inode n⟩ calls t)
    (hroom : t.inst.exhausted = false) :
    (∀ offset size out, offset + size ≤ Inode.size t.ino →
        ∃ out', readInodeFiledata t.inst t.ino offset size out = some ((size : Int), out') ∧
          ∀ p < size, out' p = applyWrites (fun _ => 0) calls (offset + p)) ∧
      (∀ c : WriteCall, c.InRange inst.geo →
        ∃ rc u, t.write n c = some (rc, u) ∧ (u.inst.exhausted = false → rc = c.size)) ∧
      (∀ m, S m → inst.geo.HasInode m → m ≠ n → ∀ q b, IsPath (inst.blockSize / 4) q →
        blockAt (inst.inode m) inst.disk q = some b →
          blockAt (t.inst.inode m) t.inst.disk q = some b ∧ t.inst.disk b = inst.disk b) ∧
      t.inst.inode n = t.ino ∧ Inode.size t.ino = sizeAfter (Inode.size (inst.inode n)) calls := by
  let s : Stage := ⟨inst, inst.inode, own⟩
  obtain ⟨s', rfl, hwrote, hsmall', hsize', hcase⟩ := OpenFile.run_spec hreg hn hin hrun s rfl himage hsmall
  have hbytes : fileBytes s'.inst (s'.inodes n) = applyWrites (fun _ => 0) calls := by
    obtain hexhausted | hbytes := hcase
    · rw [hroom] at hexhausted
      cases hexhausted
    · rw [hbytes]
      exact congrArg (applyWrites · calls) (funext hzero)
  refine ⟨fun offset size out hsize => ?_, fun c hc => ?_, fun m hm hm' hne q b hq hb => ?_, hwrote.synced rfl,
    hsize'⟩
  · obtain ⟨out', hread, hout⟩ := readInodeFiledata_spec (by rw [hwrote.image.blockSize]; exact hreg.entries) hsize out
    refine ⟨out', hread, fun p hp => ?_⟩
    rw [hout p hp, hbytes]
  · obtain ⟨rc, s'', hcall, -, -, -, hcase⟩ := OpenFile.write_spec hreg hwrote.image hn hin hsmall' hc
    refine ⟨rc, _, hcall, fun hroom' => ?_⟩
    obtain hexhausted | ⟨hrc, -⟩ := hcase
    · rw [hroom'] at hexhausted
      cases hexhausted
    · exact hrc
  · rw [hwrote.tables m hm' hne]
    exact hwrote.foreign (s := s) himage hm hne hq hb

theorem freshVolume_inode : freshVolume.inode 12 = fun _ => 0 := by
  have hblock : freshVolume.geo.inodeBlock 12 = 6 := by decide +kernel
  funext p
  rw [Inst.inode, clip]
  split_ifs <;> rfl

/-- Two writes, the second of them behind a hole. -/
theorem file_contents_twoWrites :
    ∃ t, Run (OpenFile.step 12) (fun _ c => c.InRange freshVolume.geo) ⟨freshVolume, freshVolume.inode 12⟩
        [⟨1000, 100, fun p => ofNat 8 p⟩, ⟨5000, 3000, fun _ => 7⟩] t ∧ t.inst.exhausted = false ∧
      ∃ out, readInodeFiledata t.inst t.ino 1000 6000 (fun _ => 0) = some (6000, out) ∧
        ∀ p < 6000, out p = applyWrites (fun _ => 0)
          [⟨1000, 100, fun p => ofNat 8 p⟩, ⟨5000, 3000, fun _ => 7⟩] (1000 + p) := by
  have himage : Image freshVolume.geo (· = 12) freshVolume.inode freshOwn freshVolume := by
    have himage := freshVolume_image (· = 12)
    refine { himage with node := fun n hn q b _ hb => ?_ }
    rw [hn, freshVolume_inode, blockAt_empty] at hb
    cases hb
  refine exists_run_of_replay_imp (fun t => t.inst.exhausted = false ∧ Inode.size t.ino = 8000) (by decide +kernel)
    fun t hrun ⟨hroom, hsize⟩ => ⟨hroom, ?_⟩
  apply (file_contents freshVolume_regular himage rfl ⟨by decide, by decide +kernel⟩ _ _ hrun hroom).1 1000 6000
  · rw [hsize]
    decide
  · exact fun h => by cases h
  · intro p
    rw [fileBytes, flat, fileBlock, freshVolume_inode, blockAt_empty]
    split_ifs <;> rfl

end Kairax.Ext2
