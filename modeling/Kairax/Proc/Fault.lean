import Kairax.Paging.Kept
import Kairax.Proc.Region

/-!
# Page faults

`process_handle_page_fault`, and what a user program reads through it. Ranges are mapped on demand: an
access to a page that is not there faults, and the handler supplies a page of zeros, or has the mapped
file supply a page, or refuses.
-/

namespace Kairax.Proc

open Paging

structure Space where
  root : Word
  ranges : List MmapRange

abbrev MmapOp := Machine → Word → MmapRange → Word → Word → Machine

/-- `process_handle_page_fault`, with the `mmap` of each file and whether the lock of the ranges is free. -/
def processHandlePageFault (mmap : Nat → MmapOp) (free : Bool) (m : Machine) (p : Space) (address : Word) :
    Nat × Machine :=
  if free then
    match processGetRegionByAddr p.ranges address with
    | none => (0, m)
    | some range =>
      let aligned := alignDown address pageSize
      if range.flags &&& mapStack = mapStack ∧ aligned = range.base then (0, m)
      else
        match range.file with
        | some file =>
          let offset := alignDown (address - range.base + range.fileOffset) pageSize
          (1, mmap file m p.root range offset pageSize)
        | none =>
          let (paddr, m) := pmmAllocPage m
          let m := m.setPage (p2v paddr) fun _ => 0
          (1, (vmTableMap m p.root aligned paddr range.protection).2)
  else (1, m)

/-- The values of `address` in `for (address = start; address < stop; address += PAGE_SIZE)`. -/
def pageAddrs (start stop : Word) : List Word :=
  (List.range ((stop.toNat - start.toNat + 4095) / 4096)).map fun k => start + BitVec.ofNat 64 (4096 * k)

def byteAt (page : BitVec 9 → Word) (a : Word) : BitVec 8 :=
  (page (pageIndex 3 a) >>> (8 * (a.toNat % 8))).setWidth 8

/-- The byte that the processor reads at an address, if its page is present. -/
def readByte (m : Machine) (root a : Word) : Option (BitVec 8) :=
  (m.leaf root (pageNumber a)).map fun entry => byteAt (m.mem (p2v (getPageFrame entry))) a

/-- The byte that a user program reads at an address, after a fault if need be. -/
def userRead (mmap : Nat → MmapOp) (m : Machine) (p : Space) (a : Word) : Option (BitVec 8) :=
  match readByte m p.root a with
  | some b => some b
  | none =>
    match processHandlePageFault mmap true m p a with
    | (1, m') => readByte m' p.root a
    | _ => none

end Kairax.Proc
