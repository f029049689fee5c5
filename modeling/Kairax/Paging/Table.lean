import Kairax.Lib.Radix
import Kairax.Paging.Entry

/-!
# Four-level page tables

`arch/x86_64/memory/paging.c` over physical memory, which is kept by page, at the address of the direct map, as 512
words. The answers of the page allocator to come are part of the machine, `0` for `NULL`, and so are the frames given
back to it. Flushing the TLB has no counterpart.
-/

namespace Kairax.Paging

open Lib

inductive Rc
  | ok
  | alreadyMapped
  | noPagePresent
  | noMem
  /-- The `-1` of `split_hugepage`. -/
  | notHuge
  deriving DecidableEq, Repr

structure Machine where
  mem : Word → BitVec 9 → Word
  pool : List Word
  freed : List Word

def Machine.setEntry (m : Machine) (table : Word) (i : BitVec 9) (entry : Word) : Machine :=
  { m with mem := Radix.write m.mem table i entry }

def Machine.setPage (m : Machine) (page : Word) (words : BitVec 9 → Word) : Machine :=
  { m with mem := Function.update m.mem page words }

def pmmAllocPage (m : Machine) : Word × Machine :=
  match m.pool with
  | [] => (0, m)
  | page :: pool => (page, { m with pool })

def pmmFreePage (m : Machine) (frame : Word) : Machine := { m with freed := frame :: m.freed }

def newPageTable (m : Machine) : Word × Machine :=
  let (table, m) := pmmAllocPage m
  if table = 0 then (null, m) else (p2v table, m.setPage (p2v table) fun _ => 0)

def baseFlags (flags : Word) : Word :=
  if flags &&& pageUserAccessible = pageUserAccessible then pageBaseFlags ||| pageUserAccessible
  else pageBaseFlags

/-- One level of `map_page_mem`: the table below an entry, which is made if it is missing. -/
def ensureTable (m : Machine) (table : Word) (i : BitVec 9) (flags : Word) : Option Word × Machine :=
  if m.mem table i &&& pagePresent = 0 then
    let (new, m) := newPageTable m
    if new = null then (none, m)
    else
      let m := m.setEntry table i (v2p new ||| flags)
      (some (p2v (getPageFrame (m.mem table i))), m)
  else (some (p2v (getPageFrame (m.mem table i))), m)

/-- Several levels of `map_page_mem`. -/
def ensurePath (m : Machine) (table : Word) (path : List (BitVec 9)) (flags : Word) : Option Word × Machine :=
  match path with
  | [] => (some table, m)
  | i :: path =>
    match ensureTable m table i flags with
    | (none, m) => (none, m)
    | (some table, m) => ensurePath m table path flags

def mapPageMem (m : Machine) (root va pa flags : Word) : Rc × Machine :=
  match ensurePath m root [level4Index va, level3Index va] (baseFlags flags) with
  | (none, m) => (.noMem, m)
  | (some pd, m) =>
    if m.mem pd (level2Index va) &&& pagePresent ≠ 0 ∧ m.mem pd (level2Index va) &&& pageHuge = pageHuge then
      (.alreadyMapped, m)
    else
      match ensureTable m pd (level2Index va) (baseFlags flags) with
      | (none, m) => (.noMem, m)
      | (some pt, m) =>
        if m.mem pt (level1Index va) &&& pagePresent = 0 then
          (.ok, m.setEntry pt (level1Index va) (pa ||| flags))
        else (.alreadyMapped, m)

/-- The mask `0xFFFFFULL * 2` of the huge paths. -/
def hugeMask : Word := 0xFFFFF * 2

def mapPageMemHuge (m : Machine) (root va pa flags : Word) : Rc × Machine :=
  match ensurePath m root [level4Index va, level3Index va] (baseFlags flags) with
  | (none, m) => (.noMem, m)
  | (some pd, m) =>
    if m.mem pd (level2Index va) &&& pagePresent = 0 then
      (.ok, m.setEntry pd (level2Index va) ((pa &&& ~~~hugeMask) ||| flags ||| pageHuge))
    else (.alreadyMapped, m)

/-- The page directory of an address, if its two upper levels are present. -/
def pageDirectory (m : Machine) (root va : Word) : Option Word :=
  if m.mem root (level4Index va) &&& pagePresent = 0 then none
  else
    let pdp := p2v (getPageFrame (m.mem root (level4Index va)))
    if m.mem pdp (level3Index va) &&& pagePresent = 0 then none
    else some (p2v (getPageFrame (m.mem pdp (level3Index va))))

def getPhysicalAddress (m : Machine) (root va : Word) : Word :=
  match pageDirectory m root va with
  | none => 0
  | some pd =>
    let pdaddr := m.mem pd (level2Index va)
    if pdaddr &&& pagePresent = 0 then 0
    else if pdaddr &&& pageHuge ≠ 0 then
      (pdaddr &&& ~~~(pageExecDisable ||| hugeMask)) ||| (va &&& hugeMask)
    else
      let pt := p2v (getPageFrame pdaddr)
      if m.mem pt (level1Index va) &&& pagePresent = 0 then 0
      else getPageFrame (m.mem pt (level1Index va)) + getPageOffset va

def archVmIsMapped (m : Machine) (root va : Word) : Word :=
  match pageDirectory m root va with
  | none => 0
  | some pd =>
    let pdaddr := m.mem pd (level2Index va)
    if pdaddr &&& pagePresent = 0 then 0
    else if pdaddr &&& pageHuge ≠ 0 then 1
    else m.mem (p2v (getPageFrame pdaddr)) (level1Index va) &&& pagePresent

def splitHugepage (m : Machine) (pd : Word) (i : BitVec 9) : Rc × Machine :=
  let oldFlags := getPageFlags (m.mem pd i)
  let physAddr := getPageFrame (m.mem pd i)
  if oldFlags &&& pageHuge = 0 then (.notHuge, m)
  else
    let oldFlags := oldFlags &&& ~~~pageHuge
    let (pt, m) := newPageTable m
    if pt = null then (.noMem, m)
    else
      let m := m.setEntry pd i (v2p pt ||| oldFlags)
      (.ok, m.setPage pt fun j => (physAddr + pageSize * j.setWidth 64) ||| oldFlags)

/-- How `unmap_page1` and `set_page_flags` find a page table: they split a huge page, but go on from the entry read
before. -/
def openTable (m : Machine) (root va : Word) : Option Word × Machine :=
  match pageDirectory m root va with
  | none => (none, m)
  | some pd =>
    let pdaddr := m.mem pd (level2Index va)
    if pdaddr &&& pagePresent = 0 then (none, m)
    else
      let m := if pdaddr &&& pageHuge ≠ 0 then (splitHugepage m pd (level2Index va)).2 else m
      (some (p2v (getPageFrame pdaddr)), m)

/-- What `unmap_page1` stores through its two pointers. -/
structure Unmapped where
  physAddr : Word
  flags : Word
  deriving DecidableEq, Repr

def unmapPage1 (m : Machine) (root va : Word) : Rc × Option Unmapped × Machine :=
  match openTable m root va with
  | (none, m) => (.noPagePresent, none, m)
  | (some pt, m) =>
    let ptValue := m.mem pt (level1Index va)
    if ptValue &&& pagePresent = 0 then (.noPagePresent, none, m)
    else
      (.ok, some { physAddr := getPageFrame ptValue, flags := getPageFlags ptValue }, m.setEntry pt (level1Index va) 0)

def unmapPage (m : Machine) (root va : Word) : Rc × Machine :=
  let (rc, _, m) := unmapPage1 m root va
  (rc, m)

def setPageFlags (m : Machine) (root va flags : Word) : Rc × Machine :=
  match openTable m root va with
  | (none, m) => (.noPagePresent, m)
  | (some pt, m) =>
    let paddr := getPageFrame (m.mem pt (level1Index va))
    if m.mem pt (level1Index va) &&& pagePresent = 0 then (.noPagePresent, m)
    else (.ok, m.setEntry pt (level1Index va) (paddr ||| flags))

def pageProtectionWriteEnable : BitVec 32 := 0x02
def pageProtectionExecEnable : BitVec 32 := 0x04
def pageProtectionUser : BitVec 32 := 0x08

def x86_64Prot2Flags (protection : BitVec 32) : Word :=
  let flags := pagePresent
  let flags := if protection &&& pageProtectionWriteEnable ≠ 0 then flags ||| pageWritable else flags
  let flags := if protection &&& pageProtectionUser ≠ 0 then flags ||| pageUserAccessible else flags
  if protection &&& pageProtectionExecEnable = 0 then flags ||| pageExecDisable else flags

/-- `vm_table_map`, which is `arch_vm_map` under the lock of the table. -/
def vmTableMap (m : Machine) (root va pa : Word) (protection : BitVec 32) : Rc × Machine :=
  mapPageMem m root va pa (x86_64Prot2Flags protection)

end Kairax.Paging
