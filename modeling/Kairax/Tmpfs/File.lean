import Kairax.Lib.Bytes
import Kairax.Lib.Run
import Kairax.Word

/-!
# The contents of tmpfs files

`tmpfs_file_read`, `tmpfs_file_write` and `tmpfs_truncate` on one inode. The number of blocks in the VFS inode is no
bound for the table. A block that is missing ends a read, and what a truncation leaves in the blocks that it keeps is
seen again when the file grows.
-/

namespace Kairax.Tmpfs

open Lib List Option Function

/-- `blocksize` of the instance, as `tmpfs_mount` sets it. -/
def blocksize : Nat := 4096

abbrev Table := List (Option Buf)

/-- `struct tmpfs_inode` of a file, `blocks` of its VFS inode, and `pos` of the files that are open on it. -/
structure File where
  size : Nat
  blocks : Table
  vfsBlocks : Nat
  pos : Nat → Nat

/-- The inode that `tmpfs_mkfile` makes. -/
def File.new : File := ⟨0, [], 0, fun _ => 0⟩

def File.advance (s : File) (file count : Nat) : File :=
  { s with pos := update s.pos file (s.pos file + count) }

/-- The loop of `tmpfs_file_read` from place `o` of block `i` on. Every pass copies a byte. The flag is false when it
ends at a missing block. -/
def readLoop (blocks : Table) : Nat → Nat → Nat → Nat → Nat → Buf → Option (Bool × Nat × Buf)
  | 0, _, _, _, rc, out => some (true, rc, out)
  | passes + 1, remain, o, i, rc, out =>
    if remain = 0 then some (true, rc, out)
    else blocks[i]?.bind fun
      | none => some (false, rc, out)
      | some blk =>
        let len := min remain (blocksize - o)
        readLoop blocks passes (remain - len) 0 (i + 1) (rc + len) (copy out rc (fun p => blk (o + p)) len)

/-- `tmpfs_file_read`, with the buffer of the caller. The position stays where it is when a block is missing. -/
def fileRead (s : File) (file offset count : Nat) (out : Buf) : Option (Nat × Buf × File) :=
  if s.size < offset then some (0, out, s)
  else
    let count := if s.size < (offset + count) % 2 ^ 64 then s.size - offset else count
    (readLoop s.blocks count count (offset % blocksize) (offset / blocksize) 0 out).map fun (done, rc, out) =>
      (rc, out, if done then s.advance file rc else s)

/-- `tmpfs_inode_extend_blockstore` -/
def inodeExtendBlockstore (blocks : Table) (newBlockCount : Nat) : Table :=
  blocks ++ replicate (newBlockCount - blocks.length) none

/-- The loop of `tmpfs_file_write`, with the table and the number of blocks of the VFS inode. -/
def writeLoop (data : Buf) : Nat → Nat → Nat → Nat → Nat → Table → Nat → Option (Nat × Table × Nat)
  | 0, _, _, _, rc, blocks, vfsBlocks => some (rc, blocks, vfsBlocks)
  | passes + 1, remain, o, i, rc, blocks, vfsBlocks =>
    if remain = 0 then some (rc, blocks, vfsBlocks)
    else blocks[i]?.bind fun found =>
      let len := min remain (blocksize - o)
      let blk := found.getD fun _ => 0
      writeLoop data passes (remain - len) 0 (i + 1) (rc + len)
        (blocks.set i (some (copy blk o (fun p => data (rc + p)) len)))
        (if found.isSome then vfsBlocks else vfsBlocks + 1)

/-- `tmpfs_file_write` -/
def fileWrite (s : File) (file offset count : Nat) (data : Buf) : Option (Nat × File) :=
  let endByte := (offset + count) % 2 ^ 64
  let endBlock := endByte / blocksize
  let blocks := if s.blocks.length < endBlock + 1 then inodeExtendBlockstore s.blocks (endBlock + 1 + 4) else s.blocks
  (writeLoop data count count (offset % blocksize) (offset / blocksize) 0 blocks s.vfsBlocks).map
    fun (rc, blocks, vfsBlocks) =>
      (rc, { size := if s.size < endByte then endByte else s.size, blocks, vfsBlocks,
             pos := update s.pos file (s.pos file + rc) })

/-- The blocks that `tmpfs_truncate` keeps. There is at least one. -/
def newBlockCount (len : Nat) : Nat := (align (BitVec.ofNat 64 len) pageSize).toNat / blocksize

/-- The first loop of `tmpfs_truncate`: the blocks that are missing below the new end are allocated. -/
def fillBlocks (blocks : Table) (count : Nat) : Table :=
  blocks.mapIdx fun i blk => if i < count then some (blk.getD fun _ => 0) else blk

/-- The second loop. It ends at the number of blocks of the VFS inode, and gives what it finds to `pmm_free_page`, NULL
as well. -/
def dropBlocks (blocks : Table) (count vfsBlocks : Nat) : Option Table :=
  if count < vfsBlocks ∧ blocks.length < vfsBlocks then none
  else some (blocks.mapIdx fun i blk => if count ≤ i ∧ i < vfsBlocks then none else blk)

/-- `tmpfs_truncate` -/
def truncate (s : File) (len : Nat) : Option File :=
  let count := newBlockCount len
  let blocks := if s.blocks.length < count then inodeExtendBlockstore s.blocks count else s.blocks
  (dropBlocks (fillBlocks blocks count) count s.vfsBlocks).map fun blocks =>
    { s with size := len, blocks, vfsBlocks := count }

inductive FileOp where
  | read (file offset count : Nat) (out : Buf)
  | write (file offset count : Nat) (data : Buf)
  | truncate (len : Nat)

def step (s : File) : FileOp → Option File
  | .read file offset count out => (fileRead s file offset count out).map (·.2.2)
  | .write file offset count data => (fileWrite s file offset count data).map (·.2)
  | .truncate len => Tmpfs.truncate s len

/-- A file as its users see it: an array of bytes with zeros behind its end. -/
structure Plain where
  size : Nat
  bytes : Buf
  zero : ∀ p, size ≤ p → bytes p = 0

namespace Plain

def empty : Plain := ⟨0, fun _ => 0, fun _ _ => rfl⟩

def write (f : Plain) (offset count : Nat) (data : Buf) : Plain where
  size := max f.size (offset + count)
  bytes := copy f.bytes offset data count
  zero p hp := by
    rw [copy_of_outside (by omega)]
    exact f.zero p (by omega)

def truncate (f : Plain) (len : Nat) : Plain where
  size := len
  bytes := clip len f.bytes
  zero _ hp := clip_of_le hp

def available (f : Plain) (offset count : Nat) : Nat := min count (f.size - offset)

def call (f : Plain) : FileOp → Plain
  | .read .. => f
  | .write _ offset count data => f.write offset count data
  | .truncate len => f.truncate len

end Plain

section Tables

variable {blocks : Table} {i o remain n : Nat}

def blockOf (blocks : Table) (i : Nat) : Buf := blocks[i]?.join.getD fun _ => 0

def contents (blocks : Table) : Buf := flat blocksize (blockOf blocks)

theorem contents_block {q : Nat} (hq : q < blocksize) : contents blocks (i * blocksize + q) = blockOf blocks i q :=
  flat_block hq

theorem contents_extend (blocks : Table) (n : Nat) : contents (inodeExtendBlockstore blocks n) = contents blocks := by
  apply congrArg (flat blocksize)
  funext i
  rw [blockOf, blockOf, inodeExtendBlockstore, getElem?_append]
  split_ifs with hi
  · rfl
  · rw [getElem?_eq_none (not_lt.mp hi), getElem?_replicate]
    split_ifs <;> rfl

theorem length_extend (hle : blocks.length ≤ n) : (inodeExtendBlockstore blocks n).length = n := by
  rw [inodeExtendBlockstore, length_append, length_replicate]
  omega

theorem countP_extend (blocks : Table) (n : Nat) :
    (inodeExtendBlockstore blocks n).countP isSome = blocks.countP isSome := by
  rw [inodeExtendBlockstore, countP_append, countP_replicate]
  rfl

theorem le_countP (hall : ∀ i < n, ∃ blk, blocks[i]? = some (some blk)) : n ≤ blocks.countP Option.isSome := by
  have hlength : n ≤ blocks.length := by
    by_contra hlt
    obtain ⟨blk, hblk⟩ := hall blocks.length (by omega)
    rw [List.getElem?_eq_none le_rfl] at hblk
    cases hblk
  have htake : (blocks.take n).countP Option.isSome = n := by
    rw [List.countP_eq_length.mpr, List.length_take, min_eq_left hlength]
    intro found hfound
    obtain ⟨i, hi, rfl⟩ := List.mem_iff_getElem.mp hfound
    rw [List.length_take] at hi
    obtain ⟨blk, hblk⟩ := hall i (by omega)
    rw [List.getElem_take, List.getElem_of_getElem? hblk |>.2]
    rfl
  rw [← htake]
  exact (List.take_sublist n blocks).countP_le

theorem contents_set {blk : Buf} (hi : i < blocks.length) :
    contents (blocks.set i (some blk)) = putBlock blocksize (contents blocks) i blk := by
  apply flat_putBlock
  intro j
  rw [blockOf, blockOf]
  split_ifs with hj
  · rw [hj, getElem?_set_self hi]
    rfl
  · rw [getElem?_set_ne (Ne.symm hj)]

theorem pass_end (i : Nat) (ho : o < blocksize) (hremain : remain ≠ 0) :
    0 < min remain (blocksize - o) ∧ (remain - min remain (blocksize - o) = 0 ∨
      i * blocksize + o + min remain (blocksize - o) = (i + 1) * blocksize) := by
  rw [add_mul]
  omega

theorem putBlock_copy {blk data : Buf} {len : Nat} {arr : Buf} (hblk : ∀ q < blocksize, blk q = arr (i * blocksize + q))
    (hlen : o + len ≤ blocksize) :
    putBlock blocksize arr i (copy blk o data len) = copy arr (i * blocksize + o) data len := by
  have hpos : 0 < blocksize := by decide
  funext p
  rw [putBlock, copy, copy]
  by_cases hp : p / blocksize = i
  · have hmod := block_add_mod hp
    rw [if_pos hp, hblk _ (Nat.mod_lt p hpos), hmod]
    by_cases hin : o ≤ p % blocksize ∧ p % blocksize < o + len
    · rw [if_pos hin, if_pos (by omega)]
      exact congrArg data (by omega)
    · rw [if_neg hin, if_neg (by omega)]
  · have hrange := mt (div_eq_iff_block hpos).mpr hp
    rw [add_mul] at hrange
    rw [if_neg hp, if_neg (by omega)]

theorem readLoop_spec (hall : ∀ p, i * blocksize + o ≤ p → p < i * blocksize + o + remain →
      blocks[p / blocksize]?.join.isSome = true) (ho : o < blocksize) (hpasses : remain ≤ n) (rc : Nat) (out : Buf) :
    readLoop blocks n remain o i rc out =
      some (true, rc + remain, copy out rc (fun p => contents blocks (i * blocksize + o + p)) remain) := by
  induction n generalizing remain o i rc out with
  | zero =>
    obtain rfl : remain = 0 := by omega
    rw [readLoop, copy_zero, add_zero]
  | succ n ih =>
    rw [readLoop]
    split_ifs with hzero
    · rw [hzero, copy_zero, add_zero]
    obtain ⟨hpos, hend⟩ := pass_end i ho hzero
    have hfirst : (i * blocksize + o) / blocksize = i := by
      rw [add_comm, Nat.add_mul_div_right _ _ (by decide), Nat.div_eq_of_lt ho, zero_add]
    have hpresent := hall (i * blocksize + o) le_rfl (by omega)
    rw [hfirst] at hpresent
    obtain ⟨blk, hblk⟩ := isSome_iff_exists.mp hpresent
    have hentry : blocks[i]? = some (some blk) := join_eq_some_iff.mp hblk
    have hbytes (q : Nat) (hq : q < blocksize) : blk q = contents blocks (i * blocksize + q) := by
      rw [contents_block hq, blockOf, hblk, getD_some]
    have hlen := min_le_left remain (blocksize - o)
    have hlen' := min_le_right remain (blocksize - o)
    rw [hentry, bind_some]
    dsimp only
    rw [ih (fun p hlow hhigh => hall p (by omega) (by omega)) (by decide) (by omega)]
    rw [add_assoc]
    rw [copy_append fun p => contents blocks (i * blocksize + o + p), Nat.add_sub_cancel' hlen]
    · intro p hp
      rw [hbytes _ (by omega), add_assoc]
    · intro p hp
      exact congrArg (contents blocks) (by omega)

theorem writeLoop_spec (data : Buf) (hroom : i * blocksize + o + remain ≤ blocks.length * blocksize)
    (ho : o < blocksize)
    (hpasses : remain ≤ n) (rc vfsBlocks : Nat) (hcount : vfsBlocks ≤ blocks.countP isSome) :
    ∃ blocks' vfsBlocks', writeLoop data n remain o i rc blocks vfsBlocks = some (rc + remain, blocks', vfsBlocks') ∧
      blocks'.length = blocks.length ∧
      contents blocks' = copy (contents blocks) (i * blocksize + o) (fun p => data (rc + p)) remain ∧
      vfsBlocks' ≤ blocks'.countP isSome := by
  induction n generalizing remain o i rc vfsBlocks blocks with
  | zero =>
    obtain rfl : remain = 0 := by omega
    exact ⟨blocks, vfsBlocks, rfl, rfl, copy_zero.symm, hcount⟩
  | succ n ih =>
    rw [writeLoop]
    split_ifs with hzero
    · subst hzero
      exact ⟨blocks, vfsBlocks, rfl, rfl, copy_zero.symm, hcount⟩
    obtain ⟨hpos, hend⟩ := pass_end i ho hzero
    have hi : i < blocks.length := Nat.lt_of_mul_lt_mul_right (a := blocksize) (by omega)
    have hlen := min_le_left remain (blocksize - o)
    have hlen' := min_le_right remain (blocksize - o)
    have hblk (q : Nat) (hq : q < blocksize) :
        (blocks[i].getD fun _ => 0) q = contents blocks (i * blocksize + q) := by
      rw [contents_block hq, blockOf, getElem?_eq_getElem hi]
      rfl
    rw [getElem?_eq_getElem hi, Option.bind_some]
    generalize min remain (blocksize - o) = len at hpos hend hlen hlen' ⊢
    have hnext : (i + 1) * blocksize ≤ blocks.length * blocksize := Nat.mul_le_mul_right _ hi
    have hset (blk : Buf) : (if blocks[i].isSome then vfsBlocks else vfsBlocks + 1) ≤
        (blocks.set i (some blk)).countP isSome := by
      rw [countP_set hi, if_pos (show (some blk).isSome = true from rfl)]
      split_ifs <;> omega
    have hroom' : (i + 1) * blocksize + 0 + (remain - len) ≤
        (blocks.set i (some (copy (blocks[i].getD fun _ => 0) o (fun p => data (rc + p)) len))).length * blocksize := by
      rw [length_set]
      omega
    obtain ⟨blocks', vfsBlocks', hloop, hlength, hbytes, hcount'⟩ :=
      ih hroom' (by decide) (by omega) (rc + len) _ (hset _)
    refine ⟨blocks', vfsBlocks', ?_, ?_, ?_, hcount'⟩
    · rw [hloop, add_assoc, Nat.add_sub_cancel' hlen]
    · rw [hlength, length_set]
    · rw [hbytes, contents_set hi, putBlock_copy hblk (by omega)]
      obtain hdone | hfull := hend
      · rw [hdone, copy_zero, show len = remain by omega]
      · rw [← hfull, add_zero, copy_append fun p => data (rc + p), Nat.add_sub_cancel' hlen]
        · exact fun _ _ => rfl
        · intro p _
          exact congrArg data (add_assoc ..)

theorem contents_fillBlocks (blocks : Table) (n : Nat) : contents (fillBlocks blocks n) = contents blocks := by
  apply congrArg (flat blocksize)
  funext i
  rw [blockOf, blockOf, fillBlocks, getElem?_mapIdx]
  rcases blocks[i]? with _ | _ | blk
  · rfl
  · split_ifs <;> rfl
  · split_ifs <;> rfl

theorem getElem?_fillBlocks (hn : n ≤ blocks.length) (hi : i < n) :
    ∃ blk, (fillBlocks blocks n)[i]? = some (some blk) := by
  rw [fillBlocks, getElem?_mapIdx, getElem?_eq_getElem (hi.trans_le hn), Option.map_some, if_pos hi]
  exact ⟨_, rfl⟩

theorem contents_dropBlocks (blocks : Table) (n vfsBlocks p : Nat) :
    contents (blocks.mapIdx fun i blk => if n ≤ i ∧ i < vfsBlocks then none else blk) p =
      if n ≤ p / blocksize ∧ p / blocksize < vfsBlocks then 0 else contents blocks p := by
  rw [contents, contents, flat, flat, blockOf, blockOf, getElem?_mapIdx]
  cases blocks[p / blocksize]? with
  | none => exact (ite_self _).symm
  | some found =>
    split_ifs <;> rfl

theorem le_newBlockCount {len : Nat} (hlen : len + 4096 ≤ 2 ^ 64) : len ≤ newBlockCount len * blocksize := by
  have hval : (BitVec.ofNat 64 len).toNat = len := Nat.mod_eq_of_lt (by omega)
  obtain ⟨hle, -, -, hmod⟩ := align_spec (BitVec.ofNat 64 len) pageSize (by decide) (by rwa [hval])
  rw [hval] at hle
  rw [newBlockCount, show blocksize = pageSize.toNat from rfl, Nat.div_mul_cancel (Nat.dvd_of_mod_eq_zero hmod)]
  exact hle

end Tables

/-- No sum wraps, a read meets no missing block, and the bytes behind the end of a truncation are zeros already or lie
in the blocks that it frees. -/
def Clear (s : File) : FileOp → Prop
  | .read _ offset count _ => s.size < offset ∨ offset + count < 2 ^ 64 ∧
      ∀ p, offset ≤ p → p < offset + count → p < s.size → s.blocks[p / blocksize]?.join.isSome = true
  | .write _ offset count _ => offset + count < 2 ^ 64
  | .truncate len => len + 4096 ≤ 2 ^ 64 ∧ ∀ p, len ≤ p → contents s.blocks p ≠ 0 →
      newBlockCount len ≤ p / blocksize ∧ p / blocksize < s.vfsBlocks

structure Shows (s : File) (f : Plain) : Prop where
  size : s.size = f.size
  bytes : contents s.blocks = f.bytes
  room : s.size ≤ s.blocks.length * blocksize
  count : s.vfsBlocks ≤ s.blocks.countP isSome

section Calls

variable {s : File} {f : Plain}

theorem shows_new : Shows File.new Plain.empty := ⟨rfl, rfl, le_rfl, le_rfl⟩

section

variable (hshows : Shows s f)
include hshows

theorem Shows.read {file offset count : Nat} {out : Buf} (hclear : Clear s (.read file offset count out)) :
    fileRead s file offset count out =
      some (f.available offset count, copy out 0 (fun p => f.bytes (offset + p)) (f.available offset count),
        s.advance file (f.available offset count)) := by
  have hsame : s.advance file 0 = s := by rw [File.advance, add_zero, update_eq_self]
  rw [fileRead]
  by_cases hpast : s.size < offset
  · have hnone : f.available offset count = 0 := by
      rw [Plain.available, ← hshows.size]
      omega
    rw [if_pos hpast, hnone, copy_zero, hsame]
  obtain ⟨hsum, hall⟩ := hclear.resolve_left hpast
  have hcount : (if s.size < (offset + count) % 2 ^ 64 then s.size - offset else count) = f.available offset count := by
    rw [Plain.available, ← hshows.size]
    split_ifs <;> omega
  have hlast : f.available offset count ≤ count ∧ offset + f.available offset count ≤ s.size := by
    rw [Plain.available, ← hshows.size]
    omega
  have hstart := Nat.div_add_mod' offset blocksize
  rw [if_neg hpast, hcount]
  dsimp only
  rw [readLoop_spec (fun p hlow hhigh => hall p (by omega) (by omega) (by omega)) (Nat.mod_lt _ (by decide)) le_rfl,
    hstart, zero_add, hshows.bytes]
  rfl

theorem Shows.write (file : Nat) {offset count : Nat} (data : Buf) (hsum : offset + count < 2 ^ 64) :
    ∃ t, fileWrite s file offset count data = some (count, t) ∧ Shows t (f.write offset count data) ∧
      t.pos = update s.pos file (s.pos file + count) := by
  have hstart := Nat.div_add_mod' offset blocksize
  have hend : offset + count < ((offset + count) / blocksize + 1) * blocksize := by
    rw [add_mul]
    exact Nat.lt_div_mul_add (by decide)
  -- the table of the loop
  obtain ⟨blocks, hblocks⟩ : ∃ blocks, blocks = if s.blocks.length < (offset + count) / blocksize + 1 then
    inodeExtendBlockstore s.blocks ((offset + count) / blocksize + 1 + 4) else s.blocks := ⟨_, rfl⟩
  have htable : contents blocks = f.bytes ∧ s.vfsBlocks ≤ blocks.countP isSome ∧ s.blocks.length ≤ blocks.length ∧
      (offset + count) / blocksize + 1 ≤ blocks.length := by
    rw [hblocks]
    split_ifs with hshort
    · rw [contents_extend, countP_extend, length_extend (by omega)]
      exact ⟨hshows.bytes, hshows.count, by omega, by omega⟩
    · exact ⟨hshows.bytes, hshows.count, le_rfl, by omega⟩
  obtain ⟨hbytes, hcount, hlength, hlast⟩ := htable
  have hroom : ((offset + count) / blocksize + 1) * blocksize ≤ blocks.length * blocksize :=
    Nat.mul_le_mul_right _ hlast
  obtain ⟨blocks', vfsBlocks', hloop, hlength', hbytes', hcount'⟩ := writeLoop_spec data (i := offset / blocksize)
    (by omega) (Nat.mod_lt offset (by decide)) (le_refl count) 0 s.vfsBlocks hcount
  rw [hstart, hbytes] at hbytes'
  obtain ⟨size, hsize⟩ : ∃ size, size = if s.size < offset + count then offset + count else s.size := ⟨_, rfl⟩
  have hmax : size = max s.size (offset + count) := by
    rw [hsize]
    split_ifs <;> omega
  refine ⟨⟨size, blocks', vfsBlocks', update s.pos file (s.pos file + count)⟩, ?_, ⟨?_, ?_, ?_, hcount'⟩, rfl⟩
  · rw [fileWrite, Nat.mod_eq_of_lt hsum, ← hblocks, hloop, zero_add, ← hsize]
    rfl
  · rw [hmax, hshows.size]
    rfl
  · rw [hbytes']
    exact congrArg (copy _ _ · _) (funext fun p => congrArg data (zero_add p))
  · have hold := hshows.room
    have hgrow : s.blocks.length * blocksize ≤ blocks.length * blocksize := Nat.mul_le_mul_right _ hlength
    dsimp only
    rw [hlength']
    omega

theorem Shows.truncate {len : Nat} (hclear : Clear s (.truncate len)) :
    ∃ t, Tmpfs.truncate s len = some t ∧ Shows t (f.truncate len) := by
  obtain ⟨hlen, hrest⟩ := hclear
  have hend := le_newBlockCount hlen
  rw [Tmpfs.truncate]
  generalize newBlockCount len = n at hrest hend ⊢
  obtain ⟨blocks, hblocks⟩ : ∃ blocks, blocks =
      if s.blocks.length < n then inodeExtendBlockstore s.blocks n else s.blocks :=
    ⟨_, rfl⟩
  have htable : contents blocks = f.bytes ∧ s.vfsBlocks ≤ blocks.countP isSome ∧ n ≤ blocks.length := by
    rw [hblocks]
    split_ifs with hshort
    · rw [contents_extend, countP_extend, length_extend hshort.le]
      exact ⟨hshows.bytes, hshows.count, le_rfl⟩
    · exact ⟨hshows.bytes, hshows.count, not_lt.mp hshort⟩
  obtain ⟨hbytes, hcount, hlength⟩ := htable
  have hvfs : s.vfsBlocks ≤ (fillBlocks blocks n).length := by
    rw [fillBlocks, length_mapIdx]
    exact hcount.trans countP_le_length
  rw [← hblocks, dropBlocks, if_neg (by omega)]
  refine ⟨_, rfl, rfl, ?_, ?_, le_countP fun i (hi : i < n) => ?_⟩
  · funext p
    have hsmall (hp : p < len) : p / blocksize < n := Nat.div_lt_of_lt_mul (by rw [mul_comm]; omega)
    dsimp only [Plain.truncate]
    rw [contents_dropBlocks, contents_fillBlocks, hbytes, clip]
    by_cases hp : p < len
    · rw [if_pos hp, if_neg (by omega)]
    · rw [if_neg hp, ite_eq_left_iff]
      intro hkept
      by_contra hne
      rw [← hshows.bytes] at hne
      exact hkept (hrest p (not_lt.mp hp) hne)
  · rw [length_mapIdx, fillBlocks, length_mapIdx]
    exact hend.trans (Nat.mul_le_mul_right _ hlength)
  · obtain ⟨blk, hblk⟩ := getElem?_fillBlocks hlength hi
    refine ⟨blk, ?_⟩
    rw [getElem?_mapIdx, hblk, map_some, if_neg (by omega)]

theorem Shows.step {op : FileOp} (hclear : Clear s op) : ∃ t, Tmpfs.step s op = some t ∧ Shows t (f.call op) := by
  cases op with
  | read file offset count out =>
    refine ⟨s.advance file (f.available offset count), ?_, hshows.size, hshows.bytes, hshows.room, hshows.count⟩
    rw [Tmpfs.step, hshows.read hclear, map_some]
  | write file offset count data =>
    obtain ⟨t, hwrite, hshows', -⟩ := hshows.write file data hclear
    exact ⟨t, by rw [Tmpfs.step, hwrite, map_some], hshows'⟩
  | truncate len => exact hshows.truncate hclear

theorem Shows.run {ops : List FileOp} {t : File} (hrun : Run Tmpfs.step Clear s ops t) :
    Shows t (ops.foldl Plain.call f) := by
  induction hrun generalizing f with
  | nil s => exact hshows
  | cons hclear hstep hrest ih =>
    obtain ⟨t', hstep', hshows'⟩ := hshows.step hclear
    cases hstep.symm.trans hstep'
    exact ih hshows'

end

end Calls

/-- A file is an array of bytes over calls that are `Clear`: a read gets the bytes from its offset to the end at most
and advances the position by their number. -/
theorem tmpfs_contents {ops : List FileOp} {s : File} (hrun : Run step Clear File.new ops s) :
    (∀ op, Clear s op → ∃ t, step s op = some t) ∧ s.size = (ops.foldl Plain.call Plain.empty).size ∧
      ∀ file offset count out, Clear s (.read file offset count out) →
        ∃ n, n = min count ((ops.foldl Plain.call Plain.empty).size - offset) ∧
          fileRead s file offset count out =
            some (n, copy out 0 (fun p => (ops.foldl Plain.call Plain.empty).bytes (offset + p)) n,
              { s with pos := update s.pos file (s.pos file + n) }) := by
  have hshows := shows_new.run hrun
  refine ⟨fun op hclear => ?_, hshows.size, fun file offset count out hclear => ⟨_, rfl, hshows.read hclear⟩⟩
  obtain ⟨t, hstep, -⟩ := hshows.step hclear
  exact ⟨t, hstep⟩

def twoBytes : Buf := fun p => if p = 0 then 7 else 8

theorem tmpfs_contents_twoBytes :
    ∃ s, Run step Clear File.new [.write 0 0 2 twoBytes] s ∧ Clear s (.read 0 1 5 fun _ => 0) ∧
      ∃ out t, fileRead s 0 1 5 (fun _ => 0) = some (1, out, t) ∧ out 0 = 8 ∧ t.pos 0 = s.pos 0 + 1 := by
  obtain ⟨s, hrun, hsize, hblock⟩ : ∃ s, Run step Clear File.new [.write 0 0 2 twoBytes] s ∧ s.size = 2 ∧
      s.blocks[0]?.join.isSome = true := ⟨_, .cons (show 0 + 2 < 2 ^ 64 by decide) rfl (.nil _), rfl, rfl⟩
  have hclear : Clear s (.read 0 1 5 fun _ => 0) := by
    refine .inr ⟨by decide, fun p _ _ hp => ?_⟩
    rw [Nat.div_eq_of_lt (show p < blocksize by rw [hsize] at hp; exact hp.trans (by decide))]
    exact hblock
  obtain ⟨-, -, hread⟩ := tmpfs_contents hrun
  obtain ⟨n, rfl, hcall⟩ := hread 0 1 5 (fun _ => 0) hclear
  exact ⟨s, hrun, hclear, _, _, hcall, by decide, rfl⟩

/-- A block that was never written ends a read. A byte that was cut off comes back when the file grows again. -/
theorem hole_ends_read :
    (∃ s, Run step (fun _ _ => True) File.new [.write 0 4096 1 twoBytes] s ∧
      s.size = 4097 ∧ (fileRead s 0 0 2 fun _ => 0).map (·.1) = some 0) ∧
    ∃ s, Run step (fun _ _ => True) File.new [.write 0 0 2 twoBytes, .truncate 0, .write 0 2 1 twoBytes] s ∧
      s.size = 3 ∧ (fileRead s 0 0 3 fun _ => 0).map (fun r => (r.1, r.2.1 0)) = some (3, 7) := by
  constructor
  · apply exists_run_of_replay
    decide
  · apply exists_run_of_replay
    decide

end Kairax.Tmpfs
