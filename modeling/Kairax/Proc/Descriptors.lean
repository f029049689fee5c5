import Kairax.Errors
import Kairax.Lib.RefCount
import Kairax.Proc.Cloexec
import Kairax.Proc.Layout

/-!
# Open files and the pointers to them

The counter `refs` of a `struct file` over the descriptor tables and the mapped ranges of all processes. A counter
that reaches zero closes and frees the file; to touch it after that is undefined. `files_counted` is about runs in
which a process that forks has no mapped file, since `sys_fork` copies a range with its `file` and takes no reference,
and no bit of a field behind `fd_lock` is changed by `process_set_cloexec`.
-/

namespace Kairax.Descriptors

open Lib Proc Option
open Cloexec (Fields Fd maxDescriptors fdLock Keeps SameBehind tlsWord tlsSizeWord mmapRangesWord)
open List (count_append finRange map_cons map_nil)

abbrev Files := Nat → Cell

def fileAcquire (files : Files) (file : Nat) : Option Files := acquire files file

def fileClose (files : Files) (file : Nat) : Option Files := release files file

structure Task where
  fields : Fields
  space : Process

/-- What `create_new_process` makes, with the address of `mmap_ranges`. -/
def createNewProcess (list : Word) : Task :=
  { fields := ⟨fun _ => none, Function.update (fun _ => 0) mmapRangesWord list, []⟩, space := emptyProcess }

/-- The fields after a call. It is a fault if one behind `fd_lock` has been changed. -/
def Task.withFields (t : Task) (fields : Fields) : Option Task :=
  if SameBehind t.fields fields then some { t with fields := fields } else none

def Task.setRanges (t : Task) (ranges : List MmapRange) : Task :=
  { t with space := { t.space with ranges := ranges } }

/-- The check `fd < 0 || fd >= MAX_DESCRIPTORS`. -/
def descriptor (fd : Int) : Option Fd :=
  if h : 0 ≤ fd ∧ fd < maxDescriptors then some ⟨fd.toNat, by omega⟩ else none

def processGetFile (t : Task) (fd : Int) : Option Nat := (descriptor fd).bind t.fields.fds

/-- The first descriptor that is not used. -/
def Task.lowest (t : Task) : Option Fd := (finRange maxDescriptors).find? fun i => t.fields.fds i = none

def processAddFile (files : Files) (t : Task) (file : Nat) (cloexec : Bool) : Option (Int × Files × Task) := do
  let fields ← Cloexec.processAddFile t.fields file cloexec
  let after ← t.withFields fields
  match t.lowest with
  | some i => do
      let files ← fileAcquire files file
      some (i, files, after)
  | none => some (-errorTooManyOpenFiles, files, after)

def processAddFileAt (files : Files) (t : Task) (file : Nat) (fd : Int) : Option (Int × Files × Task) :=
  match descriptor fd with
  | none => some (-errorBadFd, files, t)
  | some i => do
      let fields ← Cloexec.processAddFileAt t.fields file i
      let after ← t.withFields fields
      let files ← releaseSlot files (t.fields.fds i)
      let files ← fileAcquire files file
      some (0, files, after)

def processCloseFile (files : Files) (t : Task) (fd : Int) : Option (Int × Files × Task) :=
  match descriptor fd with
  | none => some (-errorBadFd, files, t)
  | some i => do
      let fields ← Cloexec.processCloseFile t.fields i
      let after ← t.withFields fields
      match t.fields.fds i with
      | some file => do
          let files ← fileClose files file
          some (0, files, after)
      | none => some (-errorBadFd, files, after)

/-- `sys_open_file` once `file_open_ex` has its `new_file`, with the error of `ops->open` or of the checks. -/
def sysOpenFile (files : Files) (t : Task) (file : Nat) (cloexec : Bool) (refused : Option Int) :
    Option (Int × Files × Task) :=
  let files := create files file
  match refused with
  | some rc => do
      let files ← fileClose files file
      some (rc, files, t)
  | none => do
      let (fd, files, t) ← processAddFile files t file cloexec
      if fd < 0 then
        let files ← fileClose files file
        some (fd, files, t)
      else some (fd, files, t)

def sysDup (files : Files) (t : Task) (oldfd : Int) : Option (Int × Files × Task) :=
  if oldfd < 0 then some (-errorBadFd, files, t)
  else
    match processGetFile t oldfd with
    | none => some (-errorBadFd, files, t)
    | some file => processAddFile files t file false

def sysDup2 (files : Files) (t : Task) (oldfd newfd : Int) : Option (Int × Files × Task) :=
  if oldfd < 0 ∨ newfd < 0 then some (-errorBadFd, files, t)
  else if oldfd = newfd then some (0, files, t)
  else
    match processGetFile t oldfd with
    | none => some (-errorBadFd, files, t)
    | some file => processAddFileAt files t file newfd

def mmapRegionUnref (files : Files) (region : MmapRange) : Option Files :=
  if region.refs - 1 ≤ 0 then releaseSlot files region.file else some files

/-- The arguments of `sys_memory_map`, and whether `new_mmap_region` gets its memory. -/
structure MapArgs where
  address : Word
  length : Word
  protection : BitVec 32
  flags : BitVec 32
  fd : Int
  offset : Word
  alloc : Bool

def sysMemoryMap (info : Nat → FileInfo) (files : Files) (t : Task) (a : MapArgs) :
    Option (Except Errno Word × Files × Task) :=
  let file := (processGetFile t a.fd).map fun number => { info number with number := number }
  match mappedRange t.space a.address a.length a.protection a.flags file a.offset a.alloc with
  | .error e => some (.error e, files, t)
  | .ok range => do
      let files ← match range.file with
        | some file => fileAcquire files file
        | none => some files
      some (.ok range.base, files, t.setRanges (processAddMmapRegion t.space.ranges range))

def sysMemoryUnmap (files : Files) (t : Task) (address length : Word) : Option (Except Errno Unit × Files × Task) :=
  if length = 0 then some (.error .invalidValue, files, t)
  else
    match processGetRegionByAddr t.space.ranges address with
    | none => some (.error .noRegion, files, t)
    | some region => do
        let files ← mmapRegionUnref files region
        some (.ok (), files, t.setRanges (t.space.ranges.erase region))

/-- A turn of the descriptor loop of `sys_fork`. -/
def forkFd (t : Task) (child : Files × Task) (i : Fd) : Option (Files × Task) :=
  match t.fields.fds i with
  | some file => (processAddFileAt child.1 child.2 file i).map Prod.snd
  | none => some child

/-- The region loop of `sys_fork`: each range is copied whole, with its `file`. -/
def forkRanges (ranges : List MmapRange) : List MmapRange :=
  ranges.foldl (fun copies range => processAddMmapRegion copies { range with refs := 0 }) []

/-- The process that `sys_fork` makes, with the bits of the parent, the addresses of the copied TLS data and of
`mmap_ranges`. -/
def forkChild (t : Task) (tls list : Word) : Task :=
  { fields :=
      { fds := fun _ => none
        words := fun k =>
          if k = tlsWord then tls
          else if k = mmapRangesWord then list
          else if k.val = 0 ∨ k = tlsSizeWord then t.fields.words k
          else 0
        accessed := [] }
    space := emptyProcess }

def sysFork (files : Files) (t : Task) (tls list : Word) : Option (Files × Task) := do
  let (files, child) ← (finRange maxDescriptors).foldlM (forkFd t) (files, forkChild t tls list)
  some (files, { child with space := { ranges := forkRanges t.space.ranges, brk := t.space.brk } })

def processFreeResources (files : Files) (t : Task) : Option Files := do
  let files ← t.space.ranges.foldlM mmapRegionUnref files
  (List.ofFn t.fields.fds).foldlM releaseSlot files

/-- The files that were opened are those below `next`. A process that has exited is `none`. -/
structure System where
  files : Files
  info : Nat → FileInfo
  next : Nat
  procs : List (Option Task)

inductive FileCall
  | openFile (info : FileInfo) (cloexec : Bool) (refused : Option Int)
  | dup (oldfd : Int)
  | dup2 (oldfd newfd : Int)
  | close (fd : Int)
  | map (args : MapArgs)
  | unmap (address length : Word)
  | fork (tls list : Word)
  | exit

/-- The system after a call of process `pid` that leaves it with `reply`. -/
def System.put {α : Type} (s : System) (pid : Nat) (reply : α × Files × Task) : System :=
  { s with files := reply.2.1, procs := s.procs.set pid (some reply.2.2) }

def System.call (s : System) (pid : Nat) (t : Task) : FileCall → Option System
  | .openFile info cloexec refused =>
    (sysOpenFile s.files t s.next cloexec refused).map fun reply =>
      { s.put pid reply with info := Function.update s.info s.next info, next := s.next + 1 }
  | .dup oldfd => (sysDup s.files t oldfd).map (s.put pid)
  | .dup2 oldfd newfd => (sysDup2 s.files t oldfd newfd).map (s.put pid)
  | .close fd => (processCloseFile s.files t fd).map (s.put pid)
  | .map args => (sysMemoryMap s.info s.files t args).map (s.put pid)
  | .unmap address length => (sysMemoryUnmap s.files t address length).map (s.put pid)
  | .fork tls list =>
    (sysFork s.files t tls list).map fun (files, child) => { s with files := files, procs := s.procs ++ [some child] }
  | .exit =>
    (processFreeResources s.files t).map fun files => { s with files := files, procs := s.procs.set pid none }

def System.step (s : System) (op : Nat × FileCall) : Option System :=
  match s.procs[op.1]? with
  | some (some t) => s.call op.1 t op.2
  | _ => none

/-- Where a process can have a pointer to a file, in the order in which an exit drops them. -/
def Task.slots (t : Task) : List (Option Nat) := t.space.ranges.map MmapRange.file ++ List.ofFn t.fields.fds

def Task.pointers (t : Task) (file : Nat) : Nat := t.slots.count (some file)

def pointersOf (file : Nat) (proc : Option Task) : Nat := proc.elim 0 fun t => t.pointers file

def System.pointers (s : System) (file : Nat) : Nat := (s.procs.map (pointersOf file)).sum

def Task.setFd (t : Task) (i : Fd) (slot : Option Nat) : Task := { t with fields := t.fields.setFd i slot }

theorem pointers_update (t : Task) (i : Fd) (slot : Option Nat) {fields : Fields}
    (hfds : fields.fds = Function.update t.fields.fds i slot) (f : Nat) :
    ({ t with fields := fields } : Task).pointers f + (if t.fields.fds i = some f then 1 else 0) =
      t.pointers f + if slot = some f then 1 else 0 := by
  have hset : List.ofFn fields.fds = (List.ofFn t.fields.fds).set i slot := by
    rw [hfds]
    refine List.ext_getElem (by rw [List.length_set, List.length_ofFn, List.length_ofFn]) fun k hk _ => ?_
    rw [List.getElem_ofFn, List.getElem_set, List.getElem_ofFn, Function.update_apply]
    simp only [Fin.ext_iff, eq_comm]
  have hlt : (i : Nat) < (List.ofFn t.fields.fds).length := by
    exact i.isLt
  have hcount : (if t.fields.fds i = some f then 1 else 0) ≤ (List.ofFn t.fields.fds).count (some f) := by
    split_ifs with hslot
    · rw [Nat.one_le_iff_ne_zero, ← pos_iff_ne_zero, List.count_pos_iff, List.mem_ofFn]
      exact ⟨i, hslot⟩
    · exact Nat.zero_le _
  simp only [Task.pointers, Task.slots, hset, count_append, List.count_set hlt, List.getElem_ofFn, beq_iff_eq,
    Fin.eta]
  omega

variable {i : Fd} {α : Type} {fd : Int} {file : Nat}

theorem pointers_pos {t : Task} {f : Nat} (hfd : t.fields.fds i = some f) : 0 < t.pointers f := by
  rw [Task.pointers, Task.slots, count_append]
  exact Nat.add_pos_right _ (List.count_pos_iff.mpr (List.mem_ofFn.mpr ⟨i, hfd⟩))

theorem pointers_setRanges (t : Task) (ranges : List MmapRange) (f : Nat) :
    (t.setRanges ranges).pointers f + (t.space.ranges.map MmapRange.file).count (some f) =
      t.pointers f + (ranges.map MmapRange.file).count (some f) := by
  simp only [Task.pointers, Task.slots, Task.setRanges, count_append]
  omega

theorem exists_descriptor {t : Task} {f : Nat} (hget : processGetFile t fd = some f) :
    ∃ i, descriptor fd = some i ∧ t.fields.fds i = some f := bind_eq_some_iff.mp hget

theorem descriptor_inj {fd' : Int} (hfd : descriptor fd = some i) (hfd' : descriptor fd' = some i) : fd = fd' := by
  rw [descriptor] at hfd hfd'
  split_ifs at hfd hfd'
  have heq := (some.inj hfd).trans (some.inj hfd').symm
  rw [Fin.mk.injEq] at heq
  omega

/-- A process that has the only pointer to each of its ranges, and whose `fd_lock` is free. -/
structure Task.Tidy (t : Task) : Prop where
  refs : ∀ r ∈ t.space.ranges, r.refs = 1
  unlocked : fdLock t.fields = 0

/-- A tidy process whose pointers, with the others', are the counters. -/
structure Sound (files₀ : Files) (others : Nat → Nat) (files : Files) (t : Task) : Prop where
  tally : Tally files₀ files fun f => others f + t.pointers f
  tidy : t.Tidy

def Answers {α : Type} (files₀ : Files) (others : Nat → Nat) (reply : Option (α × Files × Task)) : Prop :=
  ∃ r, reply = some r ∧ Sound files₀ others r.2.1 r.2.2

section Calls

variable {files₀ files : Files} {others : Nat → Nat} {t : Task}

variable (hsound : Sound files₀ others files t)

include hsound in
theorem Sound.answers (rc : α) : Answers files₀ others (some (rc, files, t)) := ⟨_, rfl, hsound⟩

theorem withFields_eq {fields : Fields} (hsame : SameBehind t.fields fields) :
    t.withFields fields = some { t with fields := fields } := if_pos hsame

theorem processAddFile_spec {cloexec : Bool} (htidy : t.Tidy)
    (hkeeps : ∀ i ∈ t.lowest, cloexec = true → Keeps t.fields i true) (hacquire : ∀ pointers : Nat → Nat,
      (∀ f, pointers f = (others f + t.pointers f) + if file = f then 1 else 0) →
        ∃ files', fileAcquire files file = some files' ∧ Tally files₀ files' pointers) :
    processAddFile files t file cloexec = some (-errorTooManyOpenFiles, files, t) ∨
      ∃ r, processAddFile files t file cloexec = some r ∧ 0 ≤ r.1 ∧ Sound files₀ others r.2.1 r.2.2 := by
  rw [processAddFile]
  cases hlowest : t.lowest with
  | none =>
    left
    simp only [Cloexec.processAddFile_full htidy.unlocked hlowest, bind_eq_bind, bind_some,
      withFields_eq (fun _ _ => rfl : SameBehind t.fields t.fields)]
  | some i =>
    have hnull : t.fields.fds i = none := by simpa only [decide_eq_true_eq] using List.find?_some hlowest
    obtain ⟨fields, hadd, hfds, hunlocked, hsame⟩ :=
      Cloexec.processAddFile_lowest htidy.unlocked hlowest file (hkeeps i hlowest)
    obtain ⟨files', hfiles, htally⟩ :=
      hacquire (fun f => others f + ({ t with fields := fields } : Task).pointers f) <| by
        intro f
        have hpointers := pointers_update t i (some file) hfds f
        rw [hnull, if_neg (some_ne_none f).symm, add_zero] at hpointers
        rw [hpointers, add_assoc]
        simp only [some.injEq]
    right
    simp only [hadd, bind_eq_bind, bind_some, withFields_eq hsame, hfiles]
    exact ⟨_, rfl, Int.natCast_nonneg i, htally, htidy.refs, hunlocked⟩

section

variable (hsound : Sound files₀ others files t)
include hsound

theorem processAddFileAt_spec (file : Nat) (fd : Int)
    (hheld : ∀ i, descriptor fd = some i → 0 < others file + (t.setFd i none).pointers file) :
    Answers files₀ others (processAddFileAt files t file fd) := by
  rw [processAddFileAt]
  cases hfd : descriptor fd with
  | none => exact hsound.answers _
  | some i =>
    have hset (slot : Option Nat) := @pointers_update t i slot (t.fields.setFd i slot) rfl
    have hnone := hset none
    have hsome := hset (some file)
    simp only [reduceCtorEq, if_false, add_zero, some.injEq] at hnone hsome
    obtain ⟨files₁, hclose, htally₁⟩ := hsound.tally.releaseSlot (t.fields.fds i)
      (fun f => others f + (t.setFd i none).pointers f) <| by
        intro f
        rw [← hnone f, ← add_assoc]
        rfl
    obtain ⟨files₂, hacquire, htally₂⟩ := htally₁.acquire (hheld i hfd)
      (fun f => others f + (t.setFd i (some file)).pointers f) <| by
        intro f
        have hnone := hnone f
        have hsome := hsome f
        rw [Task.setFd, Task.setFd]
        omega
    have hsame : SameBehind t.fields (t.fields.setFd i (some file)) := fun _ _ => rfl
    refine ⟨(0, files₂, t.setFd i (some file)), ?_, htally₂, hsound.tidy.refs, hsound.tidy.unlocked⟩
    simp only [Cloexec.processAddFileAt_eq hsound.tidy.unlocked, withFields_eq hsame, hclose, fileAcquire, hacquire,
      bind_eq_bind, bind_some]
    rfl

theorem processCloseFile_spec (fd : Int)
    (hkeeps : ∀ i ∈ descriptor fd, t.fields.fds i ≠ none → Keeps t.fields i false) :
    Answers files₀ others (processCloseFile files t fd) := by
  rw [processCloseFile]
  cases hfd : descriptor fd with
  | none => exact hsound.answers _
  | some i =>
    cases hslot : t.fields.fds i with
    | none =>
      simp only [Cloexec.processCloseFile_of_closed hsound.tidy.unlocked hslot, bind_eq_bind, bind_some,
        withFields_eq (fun _ _ => rfl : SameBehind t.fields t.fields), hslot]
      exact hsound.answers _
    | some file =>
      have hopen : t.fields.fds i ≠ none := by rw [hslot]; exact some_ne_none file
      obtain ⟨fields, hcall, hfds, hunlocked, hsame⟩ :=
        Cloexec.processCloseFile_keeps hsound.tidy.unlocked hopen (hkeeps i hfd hopen)
      obtain ⟨files', hclose, htally⟩ := hsound.tally.release file
        (fun f => others f + ({ t with fields := fields } : Task).pointers f) <| by
          intro f
          have hpointers := pointers_update t i none hfds f
          rw [hslot, if_neg (some_ne_none f).symm, add_zero] at hpointers
          rw [← hpointers, add_assoc]
          simp only [some.injEq]
      simp only [hcall, bind_eq_bind, bind_some, withFields_eq hsame, hslot, fileClose, hclose]
      exact ⟨_, rfl, htally, hsound.tidy.refs, hunlocked⟩

theorem sysDup_spec (oldfd : Int) : Answers files₀ others (sysDup files t oldfd) := by
  rw [sysDup]
  split
  · exact hsound.answers _
  · cases hget : processGetFile t oldfd with
    | none => exact hsound.answers _
    | some file =>
      obtain ⟨i, -, hslot⟩ := exists_descriptor hget
      have hpos := pointers_pos hslot
      have hheld : 0 < others file + t.pointers file := by omega
      rcases processAddFile_spec hsound.tidy (fun _ _ (h : false = true) => nomatch h) (hsound.tally.acquire hheld) with
        hfull | ⟨r, hadd, -, hr⟩
      · simp only [hfull]
        exact hsound.answers _
      · exact ⟨r, hadd, hr⟩

theorem sysDup2_spec (oldfd newfd : Int) : Answers files₀ others (sysDup2 files t oldfd newfd) := by
  rw [sysDup2]
  split
  · exact hsound.answers _
  · split
    · exact hsound.answers _
    · rename_i hne
      cases hget : processGetFile t oldfd with
      | none => exact hsound.answers _
      | some file =>
        obtain ⟨i, hold, hslot⟩ := exists_descriptor hget
        apply processAddFileAt_spec hsound
        intro j hnew
        have hij : i ≠ j := fun heq => hne (descriptor_inj hold (heq ▸ hnew))
        have hkept : (t.setFd j none).fields.fds i = some file := by
          rw [← hslot]
          exact Function.update_of_ne hij ..
        have hpos := pointers_pos hkept
        omega

end

theorem mappedFile_eq {file : Option OpenFile} {protection flags : BitVec 32} {offset : Word}
    {mapped : Option OpenFile} (hmapped : mappedFile file protection flags offset = .ok mapped) :
    mapped = none ∨ mapped = file := by
  unfold mappedFile at hmapped
  split at hmapped
  · split at hmapped
    · cases hmapped
    split at hmapped
    · cases hmapped
    simp only at hmapped
    split_ifs at hmapped
    exact .inr (Except.ok.inj hmapped).symm
  · exact .inl (Except.ok.inj hmapped).symm

include hsound

theorem Sound.addRange {range : MmapRange} (hrefs : range.refs = 0)
    {files' : Files} (htally : Tally files₀ files' fun f =>
      (others f + t.pointers f) + if range.file = some f then 1 else 0) :
    Sound files₀ others files' (t.setRanges (processAddMmapRegion t.space.ranges range)) := by
  constructor
  · apply htally.congr
    intro f
    have hranges := pointers_setRanges t (processAddMmapRegion t.space.ranges range) f
    simp only [processAddMmapRegion, List.map_append, count_append, map_cons, map_nil,
      List.count_singleton, beq_iff_eq, mmapRegionRef] at hranges ⊢
    omega
  · refine ⟨fun r hr => ?_, hsound.tidy.unlocked⟩
    rcases List.mem_append.mp hr with hold | hnew
    · exact hsound.tidy.refs r hold
    · rw [List.mem_singleton.mp hnew, mmapRegionRef, hrefs]
      rfl

theorem sysMemoryMap_spec (info : Nat → FileInfo) (a : MapArgs) :
    Answers files₀ others (sysMemoryMap info files t a) := by
  rw [sysMemoryMap]
  split
  · exact hsound.answers _
  · rename_i range hrange
    obtain ⟨-, hrefs, mapped, hmapped, hfile⟩ := mappedRange_spec hrange
    cases hslot : range.file with
    | none =>
      refine ⟨_, rfl, hsound.addRange hrefs (hsound.tally.congr ?_)⟩
      intro f
      rw [hslot, if_neg (some_ne_none f).symm, add_zero]
    | some file =>
      have hget : processGetFile t a.fd = some file := by
        rcases mappedFile_eq hmapped with hnone | hsome
        · rw [hslot, hnone] at hfile
          cases hfile
        · rw [hslot, hsome, map_map] at hfile
          rw [hfile]
          exact map_id'.symm
      obtain ⟨i, -, hfd⟩ := exists_descriptor hget
      have hpos := pointers_pos hfd
      obtain ⟨files', hacquire, htally⟩ := hsound.tally.acquire (show 0 < others file + t.pointers file by omega)
        _ fun _ => rfl
      simp only [fileAcquire, hacquire]
      refine ⟨_, rfl, hsound.addRange hrefs (htally.congr ?_)⟩
      intro f
      simp only [hslot, some.injEq]

omit hsound

theorem mmapRegionUnref_eq {r : MmapRange} (hrefs : r.refs = 1) (files : Files) :
    mmapRegionUnref files r = releaseSlot files r.file := by
  rw [mmapRegionUnref, hrefs, if_pos (by decide)]

include hsound in
theorem sysMemoryUnmap_spec (address length : Word) :
    Answers files₀ others (sysMemoryUnmap files t address length) := by
  rw [sysMemoryUnmap]
  split
  · exact hsound.answers _
  · split
    · exact hsound.answers _
    · rename_i region hregion
      have hmem : region ∈ t.space.ranges := List.mem_of_find?_eq_some hregion
      have hperm := (List.perm_cons_erase hmem).map MmapRange.file
      obtain ⟨files', hrelease, htally⟩ := hsound.tally.releaseSlot region.file
        (fun f => others f + (t.setRanges (t.space.ranges.erase region)).pointers f) <| by
        intro f
        have hranges := pointers_setRanges t (t.space.ranges.erase region) f
        rw [hperm.count_eq, map_cons, List.count_cons] at hranges
        simp only [beq_iff_eq] at hranges
        omega
      rw [mmapRegionUnref_eq (hsound.tidy.refs region hmem), hrelease]
      exact ⟨_, rfl, htally, fun r hr => hsound.tidy.refs r (List.mem_of_mem_erase hr), hsound.tidy.unlocked⟩

theorem sysOpenFile_spec (hcounts : Counts files fun f => others f + t.pointers f) (htidy : t.Tidy)
    (hfresh : files file = .fresh) {cloexec : Bool} {refused : Option Int}
    (hkeeps : refused = none → ∀ i ∈ t.lowest, cloexec = true → Keeps t.fields i true) :
    Answers (create files file) others (sysOpenFile files t file cloexec refused) := by
  obtain ⟨files', hclose, htally⟩ := Tally.create_release hcounts hfresh
  unfold sysOpenFile
  cases refused with
  | some rc =>
    simp only [fileClose, hclose]
    exact ⟨_, rfl, htally, htidy⟩
  | none =>
    rcases processAddFile_spec htidy (hkeeps rfl) (fun _ => Tally.create_acquire hcounts hfresh)
      with hfull | ⟨r, hadd, hfd, hr⟩
    · simp only [hfull, fileClose, hclose, bind_eq_bind, bind_some]
      exact ⟨_, rfl, htally, htidy⟩
    · simp only [hadd, bind_eq_bind, bind_some]
      rw [if_neg (Int.not_lt.mpr hfd)]
      exact ⟨_, rfl, hr⟩

theorem processAddFileAt_space {r : Int × Files × Task} (hadd : processAddFileAt files t file fd = some r) :
    r.2.2.space = t.space := by
  rw [processAddFileAt] at hadd
  split at hadd
  · rw [← some.inj hadd]
  · obtain ⟨fields, -, hadd⟩ := bind_eq_some_iff.mp hadd
    obtain ⟨after, hafter, hadd⟩ := bind_eq_some_iff.mp hadd
    obtain ⟨files₁, -, hadd⟩ := bind_eq_some_iff.mp hadd
    obtain ⟨files₂, -, hadd⟩ := bind_eq_some_iff.mp hadd
    rw [Task.withFields] at hafter
    split_ifs at hafter
    rw [← some.inj hadd, ← some.inj hafter]

theorem forkFds_spec {child : Task} (hsound : Sound files₀ others files child)
    (hheld : ∀ (i : Fd) (f : Nat), t.fields.fds i = some f → 0 < others f) (is : List Fd) :
    ∃ r, is.foldlM (forkFd t) (files, child) = some r ∧ Sound files₀ others r.1 r.2 ∧
      r.2.space = child.space := by
  induction is generalizing files child with
  | nil => exact ⟨_, rfl, hsound, rfl⟩
  | cons i is ih =>
    rw [List.foldlM_cons, forkFd]
    cases hslot : t.fields.fds i with
    | none => exact ih hsound
    | some file =>
      obtain ⟨r, hadd, hr⟩ := processAddFileAt_spec hsound file i fun _ _ =>
        Nat.add_pos_left (hheld i file hslot) _
      obtain ⟨r', hrest, hr', hspace⟩ := ih hr
      simp only [hadd]
      exact ⟨r', hrest, hr', hspace.trans (processAddFileAt_space hadd)⟩

theorem forkRanges_eq (ranges : List MmapRange) : forkRanges ranges = ranges.map fun r => { r with refs := 1 } := by
  have hfrom (copies : List MmapRange) :
      ranges.foldl (fun copies range => processAddMmapRegion copies { range with refs := 0 }) copies =
        copies ++ ranges.map fun r => { r with refs := 1 } := by
    induction ranges generalizing copies with
    | nil => rw [List.foldl_nil, map_nil, List.append_nil]
    | cons r ranges ih =>
      rw [List.foldl_cons, ih, processAddMmapRegion, List.append_assoc]
      rfl
  exact hfrom []

theorem pointers_of_empty (hfds : ∀ i, t.fields.fds i = none) (hranges : t.space.ranges = []) (f : Nat) :
    t.pointers f = 0 := by
  rw [Task.pointers, Task.slots, hranges, show t.fields.fds = fun _ => none from funext hfds]
  simp [List.count_replicate]

theorem sysFork_spec (htally : Tally files₀ files others) (hheld : ∀ f, 0 < t.pointers f → 0 < others f)
    (hunmapped : ∀ r ∈ t.space.ranges, r.file = none) (tls list : Word) :
    ∃ r, sysFork files t tls list = some r ∧ Sound files₀ others r.1 r.2 := by
  have hnew : Sound files₀ others files (forkChild t tls list) := by
    refine ⟨htally.congr fun f => ?_, nofun, rfl⟩
    rw [pointers_of_empty (fun _ => rfl) rfl, add_zero]
  obtain ⟨⟨files', child⟩, hfds, hchild, hspace⟩ :=
    forkFds_spec hnew (fun i f hfd => hheld f (pointers_pos hfd)) (finRange maxDescriptors)
  simp only [sysFork, hfds]
  refine ⟨_, rfl, hchild.tally.congr fun f => ?_, fun r hr => ?_, hchild.tidy.unlocked⟩
  · have hcopies : (forkRanges t.space.ranges).map MmapRange.file = t.space.ranges.map fun _ => none := by
      rw [forkRanges_eq, List.map_map]
      exact List.map_congr_left hunmapped
    have hempty : child.space.ranges = [] := by rw [hspace]; rfl
    simp [Task.pointers, Task.slots, hcopies, hempty, List.count_replicate]
  · simp only [forkRanges_eq, List.mem_map] at hr
    obtain ⟨r', -, rfl⟩ := hr
    rfl

theorem foldlM_mmapRegionUnref {ranges : List MmapRange} (hrefs : ∀ r ∈ ranges, r.refs = 1) (files : Files) :
    ranges.foldlM mmapRegionUnref files = (ranges.map MmapRange.file).foldlM releaseSlot files := by
  induction ranges generalizing files with
  | nil => rfl
  | cons r ranges ih =>
    rw [map_cons, List.foldlM_cons, mmapRegionUnref_eq (hrefs r List.mem_cons_self)]
    congr 1
    funext files
    exact ih (fun r' hr' => hrefs r' (List.mem_cons_of_mem r hr')) files

include hsound in
theorem processFreeResources_spec :
    ∃ files', processFreeResources files t = some files' ∧ Tally files₀ files' others := by
  rw [processFreeResources, foldlM_mmapRegionUnref hsound.tidy.refs, ← List.foldlM_append]
  exact hsound.tally.release_slots t.slots others fun _ => rfl

end Calls

section System

variable {s : System} {pid : Nat} {t : Task}

/-- The pointers of the processes other than `pid`. -/
def System.others (s : System) (pid file : Nat) : Nat := ((s.procs.set pid none).map (pointersOf file)).sum

theorem sum_map_set (g : α → Nat) (l : List α) {i : Nat} {x : α} (hx : l[i]? = some x) (y : α) :
    ((l.set i y).map g).sum + g x = (l.map g).sum + g y := by
  induction l generalizing i with
  | nil => simp at hx
  | cons a l ih =>
    cases i with
    | zero =>
      obtain rfl : a = x := by simpa using hx
      simp only [List.set_cons_zero, map_cons, List.sum_cons]
      omega
    | succ i =>
      have hrest := ih (by simpa using hx)
      simp only [List.set_cons_succ, map_cons, List.sum_cons]
      omega

theorem pointers_set (hpid : s.procs[pid]? = some (some t)) (proc : Option Task) (file : Nat) :
    ((s.procs.set pid proc).map (pointersOf file)).sum = s.others pid file + pointersOf file proc := by
  have hset := sum_map_set (pointersOf file) s.procs hpid proc
  have hnone := sum_map_set (pointersOf file) s.procs hpid none
  simp only [System.others, pointersOf, elim_none] at hset hnone ⊢
  omega

theorem pointers_eq (hpid : s.procs[pid]? = some (some t)) (file : Nat) :
    s.pointers file = s.others pid file + t.pointers file := by
  have hnone := sum_map_set (pointersOf file) s.procs hpid none
  simp only [System.pointers, System.others, pointersOf, elim_none, elim_some] at hnone ⊢
  omega

structure System.Inv (s : System) : Prop where
  counts : Counts s.files s.pointers
  unopened : ∀ f, s.next ≤ f → s.files f = .fresh
  tidy : ∀ t, some t ∈ s.procs → t.Tidy

def System.Next (s s' : System) : Prop := s'.Inv ∧ ∀ f, s.files f = .dead → s'.files f = .dead

theorem System.Inv.next (hinv : s.Inv) {s' : System} (files₀ : Files) (htally : Tally files₀ s'.files s'.pointers)
    (hstart : ∀ f, s'.next ≤ f ∨ s.files f = .dead → files₀ f = s.files f) (hnext : s.next ≤ s'.next)
    (htidy : ∀ t, some t ∈ s'.procs → t.Tidy) : s.Next s' := by
  have hkept (f : Nat) (hf : s'.next ≤ f ∨ s.files f = .dead) (hcell : ∀ refs, s.files f ≠ .live refs) :
      s'.files f = s.files f := by
    rw [← hstart f hf]
    apply htally.settled
    rw [hstart f hf]
    exact hcell
  refine ⟨⟨htally.counts, fun f hf => ?_, htidy⟩, fun f hdead => ?_⟩
  · have hfresh := hinv.unopened f (hnext.trans hf)
    rw [hkept f (.inl hf) (by simp [hfresh]), hfresh]
  · rw [hkept f (.inr hdead) (by simp [hdead]), hdead]

theorem System.Inv.sound (hinv : s.Inv) (hpid : s.procs[pid]? = some (some t)) :
    Sound s.files (s.others pid) s.files t := by
  refine ⟨⟨?_, fun _ _ => rfl⟩, hinv.tidy t (List.mem_of_getElem? hpid)⟩
  intro f
  have hf := hinv.counts f
  rw [pointers_eq hpid] at hf
  exact hf

theorem System.Inv.tidy_set (hinv : s.Inv) {proc : Option Task} (htidy : ∀ t, some t = proc → t.Tidy) :
    ∀ t, some t ∈ s.procs.set pid proc → t.Tidy := by
  intro t ht
  rcases List.mem_or_eq_of_mem_set ht with hold | hnew
  · exact hinv.tidy t hold
  · exact htidy t hnew

theorem System.Inv.put (hinv : s.Inv) (hpid : s.procs[pid]? = some (some t)) {reply : α × Files × Task}
    (hsound : Sound s.files (s.others pid) reply.2.1 reply.2.2) : s.Next (s.put pid reply) := by
  apply hinv.next s.files
  · exact hsound.tally.congr fun f => pointers_set hpid (some reply.2.2) f
  · exact fun f _ => rfl
  · exact le_rfl
  · apply hinv.tidy_set
    rintro _ ⟨⟩
    exact hsound.tidy

/-- What is asked of a call: a process that forks has no range that maps a file, and the bit of a descriptor that is
opened to be closed on exec or is closed is not that of a field behind `fd_lock`, or stays as it is. -/
def FileCall.Legal (t : Task) : FileCall → Prop
  | .openFile _ cloexec none => ∀ i ∈ t.lowest, cloexec = true → Keeps t.fields i true
  | .close fd => ∀ i ∈ descriptor fd, t.fields.fds i ≠ none → Keeps t.fields i false
  | .fork _ _ => ∀ r ∈ t.space.ranges, r.file = none
  | _ => True

instance (t : Task) (call : FileCall) : Decidable (call.Legal t) := by
  unfold FileCall.Legal
  split <;> infer_instance

theorem call_spec (hinv : s.Inv) (hpid : s.procs[pid]? = some (some t)) {call : FileCall} (hlegal : call.Legal t) :
    ∃ s', s.call pid t call = some s' ∧ s.Next s' := by
  have hsound := hinv.sound hpid
  have hput {α : Type} {reply : Option (α × Files × Task)} (hanswers : Answers s.files (s.others pid) reply) :
      ∃ s', reply.map (s.put pid) = some s' ∧ s.Next s' := by
    obtain ⟨r, rfl, hr⟩ := hanswers
    exact ⟨_, rfl, hinv.put hpid hr⟩
  cases call with
  | openFile info cloexec refused =>
    have hfresh := hinv.unopened s.next le_rfl
    have hkeeps : refused = none → ∀ i ∈ t.lowest, cloexec = true → Keeps t.fields i true := by
      rintro rfl
      exact hlegal
    obtain ⟨r, hopen, hr⟩ := sysOpenFile_spec hsound.tally.counts hsound.tidy hfresh hkeeps
    rw [System.call, hopen]
    refine ⟨_, rfl, hinv.next (create s.files s.next) ?_ ?_ ?_ ?_⟩
    · exact hr.tally.congr fun f => pointers_set hpid (some r.2.2) f
    · intro f hf
      apply Function.update_of_ne
      rintro rfl
      rcases hf with hle | hdead
      · exact absurd hle (Nat.not_succ_le_self s.next)
      · rw [hfresh] at hdead
        cases hdead
    · exact Nat.le_succ s.next
    · apply hinv.tidy_set
      rintro _ ⟨⟩
      exact hr.tidy
  | dup oldfd => exact hput (sysDup_spec hsound oldfd)
  | dup2 oldfd newfd => exact hput (sysDup2_spec hsound oldfd newfd)
  | close fd => exact hput (processCloseFile_spec hsound fd hlegal)
  | map args => exact hput (sysMemoryMap_spec hsound s.info args)
  | unmap address length => exact hput (sysMemoryUnmap_spec hsound address length)
  | fork tls list =>
    have htally : Tally s.files s.files s.pointers := ⟨hinv.counts, fun _ _ => rfl⟩
    have hheld (f : Nat) (hpos : 0 < t.pointers f) : 0 < s.pointers f := by
      rw [pointers_eq hpid]
      exact Nat.add_pos_right _ hpos
    obtain ⟨⟨files, child⟩, hfork, hchild⟩ := sysFork_spec htally hheld hlegal tls list
    rw [System.call, hfork]
    refine ⟨_, rfl, hinv.next s.files ?_ (fun _ _ => rfl) le_rfl ?_⟩
    · apply hchild.tally.congr
      intro f
      simp only [System.pointers, List.map_append, List.sum_append, map_cons, map_nil, List.sum_singleton,
        pointersOf, elim_some]
    · intro t' ht'
      rcases List.mem_append.mp ht' with hold | hnew
      · exact hinv.tidy t' hold
      · cases List.mem_singleton.mp hnew
        exact hchild.tidy
  | exit =>
    obtain ⟨files, hexit, htally⟩ := processFreeResources_spec hsound
    rw [System.call, hexit]
    refine ⟨_, rfl, hinv.next s.files ?_ (fun _ _ => rfl) le_rfl ?_⟩
    · exact htally.congr fun f => pointers_set hpid none f
    · apply hinv.tidy_set
      intro t' hnone
      cases hnone

end System

/-- New processes, by the addresses of their `mmap_ranges`. -/
def boot (lists : List Word) : System where
  files _ := .fresh
  info _ := { mode := 0, flags := 0, mmap := false }
  next := 0
  procs := lists.map fun list => some (createNewProcess list)

theorem inv_boot (lists : List Word) : (boot lists).Inv := by
  refine ⟨fun f => ?_, fun _ _ => rfl, fun t ht => ?_⟩
  · have hzero : pointersOf f ∘ (fun list => some (createNewProcess list)) = fun _ => 0 :=
      funext fun list => pointers_of_empty (fun _ => rfl) rfl f
    show ((lists.map _).map (pointersOf f)).sum = 0
    rw [List.map_map, hzero]
    simp
  · obtain ⟨list, -, heq⟩ := List.mem_map.mp ht
    cases heq
    exact ⟨nofun, rfl⟩

/-- A call of a process that is there, as `FileCall.Legal` asks. -/
def Legal (s : System) (op : Nat × FileCall) : Prop := ∃ t ∈ s.procs[op.1]?.join, op.2.Legal t

instance (s : System) (op : Nat × FileCall) : Decidable (Legal s op) := by
  unfold Legal
  infer_instance

theorem step_spec {s : System} {op : Nat × FileCall} (hinv : s.Inv) (hlegal : Legal s op) :
    ∃ s', s.step op = some s' ∧ s.Next s' := by
  obtain ⟨t, hpid, hcall⟩ := hlegal
  have ht : s.procs[op.1]? = some (some t) := join_eq_some_iff.mp hpid
  rw [System.step, ht]
  exact call_spec hinv ht hcall

/-- In every run without a fork of a mapped file the counters are the pointers. A next call is defined, so it touches no
closed file, and leaves closed what is. -/
theorem files_counted {lists : List Word} {ops : List (Nat × FileCall)} {s : System}
    (hrun : Run System.step Legal (boot lists) ops s) :
    Counts s.files s.pointers ∧
      ∀ op, Legal s op → ∃ s', s.step op = some s' ∧ ∀ f, s.files f = .dead → s'.files f = .dead := by
  have hinv : s.Inv := by
    apply hrun.invariant System.Inv
    · intro s op s' hinv hlegal hstep
      obtain ⟨s'', hstep', hnext⟩ := step_spec hinv hlegal
      cases hstep'.symm.trans hstep
      exact hnext.1
    · exact inv_boot lists
  refine ⟨hinv.counts, fun op hlegal => ?_⟩
  obtain ⟨s', hstep, hnext⟩ := step_spec hinv hlegal
  exact ⟨s', hstep, hnext.2⟩

def openMappable : FileCall := .openFile { mode := 0x8000, flags := 0, mmap := true } true none

def mapFirst : FileCall :=
  .map { address := 0x10000, length := 0x1000, protection := 1, flags := 2, fd := 0, offset := 0, alloc := true }

theorem files_counted_threeCalls :
    ∃ s, Run System.step Legal (boot [0x1000, 0x2000]) [(0, openMappable), (0, .fork 0 0x3000), (2, mapFirst)] s ∧
      (s.files 0 = .live 3 ∧ s.pointers 0 = 3) ∧ Counts s.files s.pointers := by
  exact exists_run_of_replay_imp (fun s => s.files 0 = .live 3 ∧ s.pointers 0 = 3) (by decide)
    fun s hrun hfile => ⟨hfile, (files_counted hrun).1⟩

/-- A process maps a file and forks: four pointers and a counter of three. After an exit and a close the file is closed,
and the range still points to it; its unmapping closes it again. -/
theorem files_miscounted :
    (∃ s, Run System.step (fun _ _ => True) (boot [0x1000]) [(0, openMappable), (0, mapFirst), (0, .fork 0 0x3000)] s ∧
      s.files 0 = .live 3 ∧ s.pointers 0 = 4) ∧
    ∃ s, Run System.step (fun _ _ => True) (boot [0x1000])
        [(0, openMappable), (0, mapFirst), (0, .fork 0 0x3000), (1, .exit), (0, .close 0)] s ∧
      s.files 0 = .dead ∧ s.pointers 0 = 1 ∧ (s.step (0, .unmap 0x10000 0x1000)).isNone :=
  ⟨exists_run_of_replay (by decide), exists_run_of_replay (by rfl)⟩

end Kairax.Descriptors
