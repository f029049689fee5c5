import Kairax.Errors
import Kairax.Elf.Image
import Kairax.Proc.VmCopy

/-!
# Loading the segments of a program

`elf_load_process` maps, clears and fills the memory of each segment. The mapped range can have a page more than the
segment. If the next segment starts in that page, its own mapping fails without notice. Segments without memory are
given a page as well. Entries with an alignment of 0 divide by zero.
-/

namespace Kairax.Proc

open Paging Lib Elf

def segmentProtection (flags : BitVec 32) : BitVec 32 :=
  let protection := pageProtectionUser
  let protection := if flags &&& elfSegmentFlagExec ≠ 0 then protection ||| pageProtectionExecEnable else protection
  if flags &&& elfSegmentFlagWrite ≠ 0 then protection ||| pageProtectionWriteEnable else protection

def loadSegment (image : Buf) (offset root : Word) (s : Process × Machine) (pehentry : ProgramEntry) :
    Process × Machine :=
  let vaddr := pehentry.vAddr + offset
  let alignedSize := align pehentry.pMemsz pehentry.alignment
  let (p, m) := processAllocMemory s.1 s.2 root vaddr alignedSize (segmentProtection pehentry.flags)
  let m := archVmMemset m root vaddr 0 alignedSize
  (p, (archVmMemcpy m root vaddr (fun k => image (pehentry.pOffset.toNat + k)) pehentry.pFilesz.toNat).2)

/-- One entry of the table, undefined where `align` divides by zero. -/
def loadEntry (image : Buf) (offset root : Word) (s : Process × Machine) (pehentry : ProgramEntry) :
    Option (Process × Machine) :=
  if pehentry.alignment = 0 then none
  else if pehentry.type = elfSegmentTypeLoad then some (loadSegment image offset root s pehentry)
  else some s

def programEntries (image : Buf) : List ProgramEntry :=
  (List.range (progHeaderEntriesNum image)).map (getProgramEntry image)

/-- What `elf_load_process` returns, and stores through its pointer, with what it leaves behind. -/
structure LoadResult where
  rc : Int
  entryIp : Option Word
  process : Process
  machine : Machine

/-- `elf_load_process`, without `interp_path` and the sections for thread-local data, whose `kmalloc` is not checked. -/
def elfLoadProcess (image : Buf) (offset root : Word) (p : Process) (m : Machine) : Option LoadResult :=
  if ¬ checkSignature image then some ⟨errorBadExecFormat, none, p, m⟩
  else ((programEntries image).foldlM (loadEntry image offset root) (p, m)).map fun s =>
    ⟨0, some (progEntryPos image + offset), s.1, s.2⟩

def loads (image : Buf) : List ProgramEntry := (programEntries image).filter fun e => e.type = elfSegmentTypeLoad

def pageCount (t : Segment Word) : Nat := (t.start + t.room + 4095) / 4096 - t.start / 4096

section Spec

variable (image : Buf) (offset : Word)

def segmentOf (e : ProgramEntry) : Segment Word where
  start := (e.vAddr + offset).toNat
  room := (align e.pMemsz e.alignment).toNat
  filesz := e.pFilesz.toNat
  memsz := e.pMemsz.toNat
  data k := image (e.pOffset.toNat + k)
  flags := x86_64Prot2Flags (segmentProtection e.flags)

def segments : List (Segment Word) := (loads image).map (segmentOf image offset)

/-- The pages of the segments are apart, in ascending order and in user space. -/
structure Executable : Prop where
  signature : checkSignature image
  alignment : ∀ e ∈ loads image, e.alignment = pageSize
  sizes : ∀ e ∈ loads image, e.pFilesz.toNat ≤ e.pMemsz.toNat
  userspace : ∀ t ∈ segments image offset, (t.start + t.memsz + 4095) / 4096 * 4096 ≤ userspaceMaxAddr.toNat
  layout : (segments image offset).Pairwise (Segment.Before 4096)

def pagesAsked : Nat := ((segments image offset).map pageCount).sum

/-- The process has none of the pages, and there are enough frames for them and for tables. -/
structure Ready (root : Word) (m : Machine) : Prop where
  tree : TreeInv m root
  flat : ∀ a : Word, a.toNat < 2 ^ 47 → FlatAlong m root (tablePath a)
  kept : ∀ a : Word, a.toNat < 2 ^ 47 → ∀ entry, m.leaf root (pageNumber a) = some entry →
    Kept m root (p2v (getPageFrame entry))
  unmapped : ∀ t ∈ segments image offset, ∀ a : Word, t.start ≤ a.toNat → a.toNat < t.start + t.memsz →
    m.leaf root (pageNumber a) = none
  memory : Supplied m.pool (4 * pagesAsked image offset)

/-- The page of an address may be used as the flags of its segment say. -/
def HasRights (root : Word) (m : Machine) (e : ProgramEntry) (a : Word) : Prop :=
  ∃ entry, m.leaf root (pageNumber a) = some entry ∧ entry &&& pageUserAccessible ≠ 0 ∧
    (entry &&& pageWritable ≠ 0 ↔ e.flags &&& elfSegmentFlagWrite ≠ 0) ∧
    (entry &&& pageExecDisable = 0 ↔ e.flags &&& elfSegmentFlagExec ≠ 0)

structure InMemory (root : Word) (m : Machine) (e : ProgramEntry) : Prop where
  file : ∀ k < e.pFilesz.toNat,
    readByte m root (e.vAddr + offset + BitVec.ofNat 64 k) = some (image (e.pOffset.toNat + k))
  zero : ∀ k, e.pFilesz.toNat ≤ k → k < e.pMemsz.toNat →
    readByte m root (e.vAddr + offset + BitVec.ofNat 64 k) = some 0
  rights : ∀ k < e.pMemsz.toNat, HasRights root m e (e.vAddr + offset + BitVec.ofNat 64 k)

def Meets (root : Word) (result : Option LoadResult) : Prop :=
  ∃ r, result = some r ∧ r.rc = 0 ∧ ∀ e ∈ loads image, InMemory image offset root r.machine e

def firstCovering (n : Nat) : Option ProgramEntry :=
  (loads image).find? fun e => (segmentOf image offset e).Covers 4096 n

def SameRights (e e' : ProgramEntry) : Prop :=
  (e.flags &&& elfSegmentFlagWrite ≠ 0 ↔ e'.flags &&& elfSegmentFlagWrite ≠ 0) ∧
    (e.flags &&& elfSegmentFlagExec ≠ 0 ↔ e'.flags &&& elfSegmentFlagExec ≠ 0)

instance (e e' : ProgramEntry) : Decidable (SameRights e e') := inferInstanceAs (Decidable (_ ∧ _))

/-- No alignment is 0, no page of a segment is first mapped with other flags, and no bytes are cleared for a later
segment. -/
structure Loadable : Prop where
  divides : ∀ e ∈ programEntries image, e.alignment ≠ 0
  rights : ∀ e ∈ loads image, ∀ k < e.pMemsz.toNat, ∀ e',
    firstCovering image offset (((e.vAddr + offset).toNat + k) / 4096) = some e' → SameRights e' e
  clear : (segments image offset).Pairwise Segment.Clear

end Spec

end Kairax.Proc
