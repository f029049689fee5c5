import Kairax.Ext2.DirHistory

/-!
# Scans over the bytes of a directory

Four functions walk over the records of a directory, follow the sizes in them and check none. A record of size zero is
never left, unless it is the one that is looked for.
-/

namespace Kairax.Ext2

open Lib Option
open BitVec (ofNat)

inductive DirScan where
  | findDentry (name : List Byte)
  | readdir (index : BitVec 32)
  | removeDentry (name : List Byte)
  | rmdir

namespace DirScan

def bits : DirScan → Nat
  | removeDentry _ => 64
  | _ => 32

/-- Whether the scan ends at a record, after it has passed so many entries. -/
def ends (passed : BitVec 32) (r : Rec) : DirScan → Bool
  | findDentry name | removeDentry name => r.inode ≠ 0 ∧ r.name = name
  | readdir index => r.inode ≠ 0 ∧ passed = index
  | rmdir => false

/-- `passed_entries` behind a record. Only `ext2_file_readdir` counts. -/
def pass (passed : BitVec 32) (r : Rec) : DirScan → BitVec 32
  | readdir _ => if r.inode ≠ 0 then passed + 1 else passed
  | _ => passed

/-- The bytes that `strlen` reads from a place on, if it finds the end within the limit. -/
def strlenBytes (buf : Buf) (place limit : Nat) : Nat :=
  ((List.range limit).find? fun k => decide (buf (place + k) = 0)).getD limit + 1

/-- The bytes from the name on that have to be in the buffer. A name is compared up to its length or until it differs.
When it is copied its end is first looked for with `strlen`, and `ext2_rmdir` looks at one byte or two. -/
def nameBytes (limit : Nat) (passed : BitVec 32) (c : Cursor) : DirScan → Nat
  | findDentry _ | removeDentry _ => c.record.name.length
  | readdir index => if passed = index then strlenBytes c.buffer (c.inBlock + 8) limit else 0
  | rmdir => if c.buffer (c.inBlock + 8) = 0x2E ∧ c.record.name.length ≠ 1 then 2 else 1

variable (scan : DirScan) (inst : Inst) (ino : Buf)

def behind (c : Cursor) : Cursor :=
  ⟨(c.offset + c.record.size) % 2 ^ scan.bits, c.inBlock + c.record.size, c.block, c.buffer⟩

def next (passed : BitVec 32) (c : Cursor) : Option (BitVec 32 × Cursor) :=
  if scan.ends passed c.record then none
  else if (scan.behind c).offset < Inode.size ino then
    ((scan.behind c).load false inst ino).map (scan.pass passed c.record, ·)
  else none

/-- The record that is looked at in an iteration, and the entries that have been passed. -/
def visit : Nat → Option (BitVec 32 × Cursor)
  | 0 => if 0 < Inode.size ino then (readInodeBlock inst ino 0#32).map fun buf => (0, ⟨0, 0, 0, buf⟩) else none
  | k + 1 => (visit k).bind fun (passed, c) => scan.next inst ino passed c

/-- The header and the name are in the buffer, and if a further block is needed it can be read. -/
def Inside (passed : BitVec 32) (c : Cursor) : Prop :=
  (c.inBlock + 8 + if c.record.inode = 0 then 0
    else scan.nameBytes (inst.blockSize - (c.inBlock + 8)) passed c) ≤ inst.blockSize ∧
  (scan.ends passed c.record = false → (scan.behind c).offset < Inode.size ino →
    ((scan.behind c).load false inst ino).isSome = true)

instance (passed : BitVec 32) (c : Cursor) : Decidable (scan.Inside inst ino passed c) := by
  unfold Inside
  infer_instance

/-- The scan comes to an end, and what it looks at is in the buffer. -/
def Proper : Prop :=
  (∃ k, scan.visit inst ino k = none) ∧
    ∀ k passed c, scan.visit inst ino k = some (passed, c) → scan.Inside inst ino passed c

section Scans

variable {scan : DirScan} {inst : Inst} {ino : Buf} {passed passed' : BitVec 32} {c c' : Cursor} {k : Nat}

theorem Inside.lt (hinside : scan.Inside inst ino passed c) : c.inBlock < inst.blockSize :=
  lt_of_lt_of_le (by omega) hinside.1

end Scans

end DirScan

end Kairax.Ext2
