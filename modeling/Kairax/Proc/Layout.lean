import Kairax.Lib.Run
import Kairax.Paging.Table
import Kairax.Proc.Region

/-!
# The layout of an address space

`sys_memory_map`, `sys_memory_unmap`, `process_brk` and `process_alloc_stack_memory` on the ranges and the break of a
process. `layout_kept` needs conditions on the calls: `sys_memory_map` tests `address + length` before rounding and
with a wrap, `process_brk` tests nothing, and `process_alloc_stack_memory` takes the `NULL` of a failed search for an
address.
-/

namespace Kairax.Proc

open Lib Paging List Option

inductive Errno
  | invalidValue
  | badFd
  | noMemory
  | access
  | noDevice
  /-- The `-1` of `sys_memory_unmap`. -/
  | noRegion
  deriving DecidableEq, Repr

def inodeTypeMask : BitVec 32 := 0xF000
def inodeTypeFile : BitVec 32 := 0x8000
def inodeFlagChardevice : BitVec 32 := 0x2000

def fileOpenModeMask : BitVec 32 := 0b11
def fileOpenModeReadOnly : BitVec 32 := 0
def fileOpenModeWriteOnly : BitVec 32 := 1

/-- What `sys_memory_map` reads of a `struct file`. -/
structure FileInfo where
  mode : BitVec 32
  flags : BitVec 32
  mmap : Bool
  deriving DecidableEq, Repr

structure OpenFile extends FileInfo where
  number : Nat
  deriving DecidableEq, Repr

def fileAllowRead (file : FileInfo) : Bool := file.flags &&& fileOpenModeMask ≠ fileOpenModeWriteOnly

def fileAllowWrite (file : FileInfo) : Bool := file.flags &&& fileOpenModeMask ≠ fileOpenModeReadOnly

structure Process where
  ranges : List MmapRange
  brk : Word
  deriving DecidableEq, Repr

/-- The file of a mapping, after the checks of `sys_memory_map`; `file` is what the descriptor gives. -/
def mappedFile (file : Option OpenFile) (protection flags : BitVec 32) (offset : Word) :
    Except Errno (Option OpenFile) :=
  if flags &&& mapAnonymous = 0 then
    if BitVec.slt 0 (offset.srem pageSize) then .error .invalidValue
    else
      match file with
      | none => .error .badFd
      | some file =>
        let inodeType := file.mode &&& inodeTypeMask
        if inodeType ≠ inodeTypeFile ∧ inodeType ≠ inodeFlagChardevice then .error .access
        else if fileAllowRead file.toFileInfo = false then .error .access
        else if flags &&& mapShared = mapShared ∧
            protection &&& pageProtectionWriteEnable = pageProtectionWriteEnable ∧
            fileAllowWrite file.toFileInfo = false then
          .error .access
        else if file.mmap = false then .error .noDevice
        else .ok (some file)
  else .ok none

/-- The range that `sys_memory_map` makes, where `alloc` says whether `new_mmap_region` gets its memory. -/
def mappedRange (p : Process) (address length : Word) (protection flags : BitVec 32) (file : Option OpenFile)
    (offset : Word) (alloc : Bool) : Except Errno MmapRange :=
  if length = 0 then .error .invalidValue
  else if address + length ≥ userspaceMaxAddr then .error .invalidValue
  else
    let sharedPrivateMask := flags &&& (mapShared ||| mapPrivate)
    if sharedPrivateMask = mapShared ||| mapPrivate ∨ sharedPrivateMask = 0 then .error .invalidValue
    else
      match mappedFile file protection flags offset with
      | .error e => .error e
      | .ok file =>
        let length := align length pageSize
        let address := processGetFreeAddr p.ranges p.brk length (alignDown address pageSize)
        if address = null then .error .noMemory
        else if alloc = false then .error .noMemory
        else
          .ok
            { base := address
              length := length
              protection := protection ||| pageProtectionUser
              flags := flags
              fileOffset := if file.isSome then offset else 0
              file := file.map OpenFile.number
              refs := 0 }

def sysMemoryMap (p : Process) (address length : Word) (protection flags : BitVec 32) (file : Option OpenFile)
    (offset : Word) (alloc : Bool) : Except Errno Word × Process :=
  match mappedRange p address length protection flags file offset alloc with
  | .error e => (.error e, p)
  | .ok range => (.ok range.base, { p with ranges := processAddMmapRegion p.ranges range })

/-- `sys_memory_unmap`, which removes the whole range that has the address. -/
def sysMemoryUnmap (p : Process) (address length : Word) : Except Errno Unit × Process :=
  if length = 0 then (.error .invalidValue, p)
  else
    match processGetRegionByAddr p.ranges address with
    | none => (.error .noRegion, p)
    | some region => (.ok (), { p with ranges := p.ranges.erase region })

/-- The loop of `process_brk`. -/
def growBrk (uaddr : Word) : Nat → Word → Word
  | 0, brk => brk
  | n + 1, brk => if uaddr > brk then growBrk uaddr n (brk + pageSize) else brk

/-- `process_brk`, undefined where it writes to the `NULL` of `new_mmap_region`. -/
def processBrk (p : Process) (addr : Word) (alloc : Bool) : Option (Word × Process) :=
  let uaddr := align addr pageSize
  if alloc = false then none
  else
    let range : MmapRange :=
      { base := p.brk
        length := uaddr - p.brk
        protection := pageProtectionUser ||| pageProtectionWriteEnable
        flags := mapPrivate
        fileOffset := 0
        file := none
        refs := 0 }
    let brk := growBrk uaddr ((uaddr.toNat - p.brk.toNat + 4095) / 4096) p.brk
    some (brk, { ranges := processAddMmapRegion p.ranges range, brk := brk })

/-- `process_alloc_stack_memory`, undefined as `process_brk` is. -/
def processAllocStackMemory (p : Process) (stackSize : Word) (alloc : Bool) : Option (MmapRange × Process) :=
  let stackSize := align stackSize pageSize + pageSize
  let memBegin := processGetFreeAddr p.ranges p.brk stackSize (alignDown userspaceMmapAddr pageSize)
  if alloc = false then none
  else
    let range : MmapRange :=
      { base := memBegin
        length := stackSize
        protection := pageProtectionUser ||| pageProtectionWriteEnable
        flags := mapStack ||| mapPrivate
        fileOffset := 0
        file := none
        refs := 0 }
    some (mmapRegionRef range, { p with ranges := processAddMmapRegion p.ranges range })

inductive SpaceCall
  | map (address length : Word) (protection flags : BitVec 32) (file : Option OpenFile) (offset : Word) (alloc : Bool)
  | unmap (address length : Word)
  | brk (addr : Word) (alloc : Bool)
  | allocStack (stackSize : Word) (alloc : Bool)

def Process.step (p : Process) : SpaceCall → Option Process
  | .map address length protection flags file offset alloc =>
    some (sysMemoryMap p address length protection flags file offset alloc).2
  | .unmap address length => some (sysMemoryUnmap p address length).2
  | .brk addr alloc => (processBrk p addr alloc).map Prod.snd
  | .allocStack stackSize alloc => (processAllocStackMemory p stackSize alloc).map Prod.snd

def stackLength (stackSize : Word) : Nat := (align stackSize pageSize).toNat + 4096

def SpaceCall.Fits (p : Process) : SpaceCall → Prop
  | .map address length _ _ _ _ _ =>
    length ≠ 0 → address + length < userspaceMaxAddr →
      address.toNat + length.toNat < 2 ^ 64 ∧
        (alignDown address pageSize).toNat + (align length pageSize).toNat ≤ userspaceMaxAddr.toNat
  | .unmap _ _ => True
  | .brk addr _ =>
    addr.toNat + 4096 ≤ 2 ^ 64 ∧ p.brk.toNat ≤ (align addr pageSize).toNat ∧
      (align addr pageSize).toNat ≤ userspaceMaxAddr.toNat ∧
      ∀ r ∈ p.ranges, r.stop ≤ p.brk.toNat ∨ (align addr pageSize).toNat ≤ r.base.toNat
  | .allocStack stackSize _ =>
    stackSize.toNat + 4096 ≤ 2 ^ 64 ∧
      ((∀ r ∈ p.ranges, ¬ r.Touches userspaceMmapAddr.toNat (stackLength stackSize)) ∧
          userspaceMmapAddr.toNat + stackLength stackSize ≤ userspaceMaxAddr.toNat ∨
        (∃ r ∈ p.ranges, r.Touches userspaceMmapAddr.toNat (stackLength stackSize)) ∧
          ∃ base, RoomAt p.ranges p.brk userspaceMmapAddr (stackLength stackSize) base)

variable {ranges : List MmapRange} {new range : MmapRange} {file : Option OpenFile} {alloc : Bool}
  {flags protection : BitVec 32} {address brk stackSize : Word}

theorem Laid.append (hlaid : Laid ranges) (hinside : new.toExtent.Inside)
    (hapart : ∀ r ∈ ranges, ∀ a, r.Has a → ¬ new.Has a) : Laid (ranges ++ [new]) := by
  constructor
  · intro r hr
    rcases mem_append.mp hr with hr | hr
    · exact hlaid.inside r hr
    · rw [mem_singleton.mp hr]
      exact hinside
  · rw [pairwise_append]
    refine ⟨hlaid.disjoint, pairwise_singleton _ _, fun r hr r' hr' => ?_⟩
    rw [mem_singleton.mp hr']
    exact hapart r hr

theorem Laid.erase (hlaid : Laid ranges) (r : MmapRange) : Laid (ranges.erase r) :=
  ⟨fun r' hr' => hlaid.inside r' (mem_of_mem_erase hr'), hlaid.disjoint.sublist erase_sublist⟩

theorem Laid.place (hlaid : Laid ranges) {hint : Word} (hpos : 0 < new.length.toNat)
    (hlength : new.length.toNat < 2 ^ 63) (haligned : new.length.toNat % 4096 = 0) (hhint : hint.toNat % 4096 = 0)
    (hmax : hint.toNat ≤ userspaceMaxAddr.toNat) (hbase : new.base = processGetFreeAddr ranges brk new.length hint)
    (hfree : (∀ r ∈ ranges, ¬ r.Touches hint.toNat new.length.toNat) →
      hint.toNat + new.length.toNat ≤ userspaceMaxAddr.toNat)
    (hroom : new.base ≠ null ∨ hint ≠ 0 ∧ ((∃ r ∈ ranges, r.Touches hint.toNat new.length.toNat) →
      ∃ base, RoomAt ranges brk hint new.length.toNat base)) : Laid (ranges ++ [new]) := by
  rcases processGetFreeAddr_cases brk hint hpos hlength ranges hmax hlaid.inside with
    ⟨-, hclear, hresult⟩ | ⟨hbusy, hplace | ⟨hnull, hnone⟩⟩
  · rw [← hbase] at hresult
    apply hlaid.append
    · refine ⟨hresult ▸ hhint, haligned, ?_, ?_⟩
      · rw [Extent.stop]
        omega
      · rw [Extent.stop, hresult]
        exact hfree hclear
    · intro r hr
      apply Extent.disjoint_of_not_touches
      rw [hresult]
      exact hclear r hr
  · rw [← hbase] at hplace
    obtain ⟨before, range, after, rfl, hstop, -, -, hlt, hclear⟩ := hplace
    have hrange := hlaid.inside range (by simp)
    apply hlaid.append
    · refine ⟨?_, haligned, ?_, ?_⟩
      · have hb := hrange.base_aligned
        have hl := hrange.length_aligned
        rw [hstop, Extent.stop]
        omega
      · rw [Extent.stop]
        omega
      · rw [Extent.stop]
        omega
    · intro r hr
      by_cases hother : r ∈ before ++ after
      · exact Extent.disjoint_of_not_touches (hclear r hother)
      · -- the range right before the new one
        have hsame : r = range := by
          simp only [mem_append, mem_cons, not_or] at hr hother
          exact (hr.resolve_left hother.1).resolve_right hother.2
        intro a ha hnew
        have hend := ha.2
        have hstart := hnew.1
        rw [hsame] at hend
        omega
  · rw [← hbase] at hnull
    rcases hroom with hne | ⟨hne, htouched⟩
    · exact absurd hnull hne
    · obtain ⟨base, hat⟩ := htouched (hbusy.resolve_left hne)
      exact absurd hat (hnone base)

section Calls

variable {p p' : Process}

theorem align_bounds (x : Word) (hroom : x.toNat + 4096 ≤ 2 ^ 64) :
    4096 ≤ (align x pageSize).toNat ∧ (align x pageSize).toNat ≤ x.toNat + 4096 ∧
      (align x pageSize).toNat % 4096 = 0 := by
  obtain ⟨-, hge, hle, hmod⟩ := align_spec x pageSize (by decide) hroom
  exact ⟨hge, hle, hmod⟩

theorem alignDown_bounds (x : Word) :
    (alignDown x pageSize).toNat ≤ x.toNat ∧ (alignDown x pageSize).toNat % 4096 = 0 := by
  rw [toNat_alignDown, toNat_pageSize]
  omega

theorem mappedRange_spec {length : Word} {offset : Word}
    (hrange : mappedRange p address length protection flags file offset alloc = .ok new) :
    (length ≠ 0 ∧ address + length < userspaceMaxAddr ∧ new.length = align length pageSize ∧
      new.base = processGetFreeAddr p.ranges p.brk new.length (alignDown address pageSize) ∧ new.base ≠ null) ∧
      new.refs = 0 ∧ ∃ mapped, mappedFile file protection flags offset = .ok mapped ∧
        new.file = mapped.map OpenFile.number := by
  rw [mappedRange] at hrange
  split at hrange
  · cases hrange
  rename_i hzero
  split at hrange
  · cases hrange
  rename_i hmax
  simp only at hrange
  split at hrange
  · cases hrange
  split at hrange
  · cases hrange
  rename_i mapped hmapped
  split at hrange
  · cases hrange
  rename_i hnull
  split at hrange
  · cases hrange
  obtain rfl := Except.ok.inj hrange
  exact ⟨⟨hzero, BitVec.not_le.mp hmax, rfl, rfl, hnull⟩, rfl, mapped, hmapped, rfl⟩

theorem sysMemoryMap_laid (hlaid : Laid p.ranges) {length offset : Word}
    (hfits : (SpaceCall.map address length protection flags file offset alloc).Fits p) :
    Laid (sysMemoryMap p address length protection flags file offset alloc).2.ranges ∧
      (sysMemoryMap p address length protection flags file offset alloc).2.brk = p.brk := by
  rw [sysMemoryMap]
  split
  · exact ⟨hlaid, rfl⟩
  · rename_i range hrange
    obtain ⟨⟨hzero, hlt, hlength, hbase, hnull⟩, -⟩ := mappedRange_spec hrange
    refine ⟨?_, rfl⟩
    obtain ⟨hwrap, hstop⟩ := hfits hzero hlt
    rw [BitVec.lt_def, BitVec.toNat_add, Nat.mod_eq_of_lt hwrap, toNat_userspaceMaxAddr] at hlt
    obtain ⟨hge, hle, hmod⟩ := align_bounds length (by omega)
    obtain ⟨hdown, hdownmod⟩ := alignDown_bounds address
    rw [← hlength] at hge hle hmod hstop
    exact hlaid.place (by show 0 < range.length.toNat; omega)
      (by show range.length.toNat < _; omega) hmod hdownmod (by omega) hbase
      (fun _ => hstop) (.inl hnull)

theorem growBrk_aligned (uaddr : Word) (n : Nat) (hbrk : brk.toNat % 4096 = 0) :
    (growBrk uaddr n brk).toNat % 4096 = 0 := by
  induction n generalizing brk with
  | zero => exact hbrk
  | succ n ih =>
    rw [growBrk]
    split_ifs
    · apply ih
      rw [BitVec.toNat_add, toNat_pageSize]
      omega
    · exact hbrk

theorem processBrk_laid (hlaid : Laid p.ranges) (hbrk : p.brk.toNat % 4096 = 0) {addr : Word}
    (hfits : (SpaceCall.brk addr alloc).Fits p) (hcall : processBrk p addr alloc = some (brk, p')) :
    Laid p'.ranges ∧ p'.brk.toNat % 4096 = 0 := by
  obtain ⟨hroom, hle, hmax, hapart⟩ := hfits
  obtain ⟨hge, -, hmod⟩ := align_bounds _ hroom
  rw [processBrk] at hcall
  split_ifs at hcall with halloc
  obtain rfl := congrArg Prod.snd (some.inj hcall)
  refine ⟨?_, growBrk_aligned _ _ hbrk⟩
  have hlength : (align addr pageSize - p.brk).toNat = (align addr pageSize).toNat - p.brk.toNat := by
    rw [BitVec.toNat_sub]
    omega
  apply hlaid.append
  · refine ⟨hbrk, ?_, ?_, ?_⟩
    · show (align addr pageSize - p.brk).toNat % 4096 = 0
      omega
    · show 0 < p.brk.toNat + (align addr pageSize - p.brk).toNat
      omega
    · show p.brk.toNat + (align addr pageSize - p.brk).toNat ≤ userspaceMaxAddr.toNat
      omega
  · intro r hr a ⟨hlow, hhigh⟩ ⟨hlow', hhigh'⟩
    have hstart : p.brk.toNat ≤ a.toNat := hlow'
    have hend : a.toNat < p.brk.toNat + (align addr pageSize - p.brk).toNat := hhigh'
    rcases hapart r hr with hbefore | hafter
    · omega
    · omega

theorem processAllocStackMemory_cases (hcall : processAllocStackMemory p stackSize alloc = some (range, p')) :
    range.length = align stackSize pageSize + pageSize ∧
      range.base = processGetFreeAddr p.ranges p.brk range.length userspaceMmapAddr ∧
      p' = { p with ranges := p.ranges ++ [range] } := by
  have hhint : alignDown userspaceMmapAddr pageSize = userspaceMmapAddr := by decide
  rw [processAllocStackMemory] at hcall
  split_ifs at hcall with halloc
  cases hcall
  exact ⟨rfl, rfl, rfl⟩

theorem processAllocStackMemory_laid (hlaid : Laid p.ranges) (hfits : (SpaceCall.allocStack stackSize alloc).Fits p)
    (hcall : processAllocStackMemory p stackSize alloc = some (range, p')) : Laid p'.ranges ∧ p'.brk = p.brk := by
  obtain ⟨hroom, hplace⟩ := hfits
  obtain ⟨hge, hle, hmod⟩ := align_bounds _ hroom
  obtain ⟨hlength, hbase, rfl⟩ := processAllocStackMemory_cases hcall
  refine ⟨?_, rfl⟩
  have hsmall : stackLength stackSize ≤ userspaceMaxAddr.toNat := by
    rcases hplace with ⟨-, hstop⟩ | ⟨-, base, -, -, -, -, -, -, -, hlt, -⟩ <;> omega
  have hnat : range.length.toNat = stackLength stackSize := by
    rw [stackLength] at hsmall ⊢
    rw [hlength, BitVec.toNat_add, toNat_pageSize]
    omega
  have hbounds : 0 < range.length.toNat ∧ range.length.toNat < 2 ^ 63 ∧ range.length.toNat % 4096 = 0 := by
    rw [toNat_userspaceMaxAddr] at hsmall
    rw [hnat]
    rw [stackLength] at hsmall ⊢
    omega
  rw [← hnat] at hplace
  apply hlaid.place hbounds.1 hbounds.2.1 hbounds.2.2 (by decide) (by decide) hbase
  · intro hclear
    rcases hplace with ⟨-, hstop⟩ | ⟨⟨r, hr, htouch⟩, -⟩
    · exact hstop
    · exact absurd htouch (hclear r hr)
  · right
    refine ⟨by decide, fun htouched => ?_⟩
    rcases hplace with ⟨hclear, -⟩ | ⟨-, hat⟩
    · obtain ⟨r, hr, htouch⟩ := htouched
      exact absurd htouch (hclear r hr)
    · exact hat

theorem step_laid (hlaid : Laid p.ranges) (hbrk : p.brk.toNat % 4096 = 0) {call : SpaceCall} (hfits : call.Fits p)
    (hstep : p.step call = some p') : Laid p'.ranges ∧ p'.brk.toNat % 4096 = 0 := by
  cases call with
  | map address length protection flags file offset alloc =>
    cases hstep
    obtain ⟨hlaid', hsame⟩ := sysMemoryMap_laid hlaid hfits
    exact ⟨hlaid', hsame ▸ hbrk⟩
  | unmap address length =>
    cases hstep
    rw [sysMemoryUnmap]
    split
    · exact ⟨hlaid, hbrk⟩
    · split
      · exact ⟨hlaid, hbrk⟩
      · exact ⟨hlaid.erase _, hbrk⟩
  | brk addr alloc =>
    obtain ⟨⟨brk, p''⟩, hcall, rfl⟩ := map_eq_some_iff.mp hstep
    exact processBrk_laid hlaid hbrk hfits hcall
  | allocStack stackSize alloc =>
    obtain ⟨⟨range, p''⟩, hcall, rfl⟩ := map_eq_some_iff.mp hstep
    obtain ⟨hlaid', hsame⟩ := processAllocStackMemory_laid hlaid hfits hcall
    exact ⟨hlaid', hsame ▸ hbrk⟩

end Calls

def emptyProcess : Process := { ranges := [], brk := 0 }

/-- In every run of calls that fit, the ranges stay in user space and apart. -/
theorem layout_kept {calls : List SpaceCall} {p : Process}
    (hrun : Run Process.step (fun p call => call.Fits p) emptyProcess calls p) : Laid p.ranges := by
  have hkept : Laid p.ranges ∧ p.brk.toNat % 4096 = 0 := by
    apply hrun.invariant (fun p => Laid p.ranges ∧ p.brk.toNat % 4096 = 0)
    · intro p call p' hinv hfits hstep
      exact step_laid hinv.1 hinv.2 hfits hstep
    · exact ⟨⟨by simp [emptyProcess], List.Pairwise.nil⟩, rfl⟩
  exact hkept.1

theorem layout_kept_threeCalls :
    ∃ p, Run Process.step (fun p call => call.Fits p) emptyProcess
      [.map 0x10000 0x1800 3 0x22 none 0 true, .brk 0x2800 true, .allocStack 0x8000 true] p ∧
      p.ranges.map MmapRange.toExtent = [⟨0x10000, 0x2000⟩, ⟨0, 0x3000⟩, ⟨userspaceMmapAddr, 0x9000⟩] ∧
      Laid p.ranges := by
  have hrun : Run Process.step (fun p call => call.Fits p) emptyProcess
      [.map 0x10000 0x1800 3 0x22 none 0 true, .brk 0x2800 true, .allocStack 0x8000 true] _ :=
    .cons (fun _ _ => by decide) rfl (.cons ⟨by decide, by decide, by decide, by decide⟩ rfl
      (.cons ⟨by decide, .inl (by decide)⟩ rfl (.nil _)))
  exact ⟨_, hrun, by decide, layout_kept hrun⟩

/-- The second of two calls of `process_brk` is below the break: the end wraps. And a mapping above the break is covered
by it. -/
theorem layout_broken :
    (∃ p, Run Process.step (fun _ _ => True) emptyProcess [.brk 0x2000 true, .brk 0x1000 true] p ∧
      ∃ r ∈ p.ranges, 2 ^ 64 ≤ r.stop) ∧
    (∃ p, Run Process.step (fun _ _ => True) emptyProcess
      [.map 0x1000 0x1000 3 0x22 none 0 true, .brk 0x3000 true] p ∧
      ∃ r r', p.ranges = [r, r'] ∧ r.Has 0x1000 ∧ r'.Has 0x1000) := by
  refine ⟨⟨_, .cons trivial rfl (.cons trivial rfl (.nil _)), ?_⟩,
    ⟨_, .cons trivial rfl (.cons trivial rfl (.nil _)), ?_⟩⟩
  · decide
  · exact ⟨_, _, rfl, ⟨by decide, by decide⟩, ⟨by decide, by decide⟩⟩

end Kairax.Proc
