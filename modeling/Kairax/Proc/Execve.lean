import Kairax.Errors
import Kairax.Elf.Image
import Kairax.Proc.Cloexec
import Kairax.Proc.Region

/-!
# Replacing the image of a process

`sys_execve` takes what it needs, with a dozen places to fail at, and gives it back at the label `error`; then it
replaces the image. The block of the auxiliary vector is given back by a successful call only. The block
`process->tls` is freed by the next call, which leaves the pointer as it is unless one of the images has a section for
thread-local data. Between the two points the descriptors to be closed on exec are closed, where the bits of those from
16 on are bits of the fields behind `fd_lock`. A bit that is cleared there is a fault, as is the path of a loader that
does not end within `interp_path`.
-/

namespace Kairax.Execve

open Lib Elf Proc List Prod
open Cloexec

inductive Block where
  | aux
  | processImage
  | loaderImage
  | argvk
  | argvkAt (i : Nat)
  | envpk
  | envpkAt (i : Nat)
  | tls (n : Nat)
  deriving DecidableEq, Repr

inductive OpenFile where
  | exec
  | loader
  deriving DecidableEq, Repr

inductive Event where
  | alloc (b : Block)
  | free (b : Block)
  | opened (f : OpenFile)
  | closed (f : OpenFile)
  deriving DecidableEq, Repr

structure Balanced (log : List Event) : Prop where
  blocks : ∀ b, .alloc b ∈ log → log.count (.free b) = 1
  files : ∀ f, .opened f ∈ log → log.count (.closed f) = 1

structure Process where
  threads : Nat
  children : Nat
  ranges : List MmapRange
  fields : Fields
  uid : Nat
  euid : Nat
  gid : Nat
  egid : Nat
  name : List Byte
  brk : Word
  tls : Option Nat
  nextTls : Nat

structure UserString where
  valid : Bool
  length : Nat

/-- An array of strings. If it is not terminated, the read behind its last string faults. -/
structure UserVector where
  valid : Bool
  strings : List UserString
  terminated : Bool

def UserVector.size (v : UserVector) : Nat := (v.strings.map fun s => s.length + 1).sum

/-- A file as `file_open` gives it, with what the checks and the read find. -/
structure ExecFile where
  number : Nat
  isDirectory : Bool
  executable : Bool
  size : Nat
  readFull : Bool
  image : Buf
  setUid : Option Nat
  setGid : Option Nat

structure Call where
  path : List Byte
  pathValid : Bool
  argv : Option UserVector
  envp : Option UserVector
  exec : Option ExecFile
  loader : Option ExecFile
  alloc : Block → Bool
  address : Nat → Word
  mapped : List MmapRange
  brk : Word

def Call.argc (c : Call) : Nat := (c.argv.map fun v => v.strings.length).getD 0
def Call.envc (c : Call) : Nat := (c.envp.map fun v => v.strings.length).getD 0

def processMaxArgs : Nat := 65535
def processMaxArgsSize : Nat := 128 * 1024 * 1024
def processNameMaxLen : Nat := 40

/-- The pointers of `sys_execve` that are not `NULL`, and the record. -/
structure Locals where
  execFile : Bool := false
  loaderFile : Bool := false
  processImage : Bool := false
  loaderImage : Bool := false
  argvk : Bool := false
  envpk : Bool := false
  log : List Event := []

def Locals.note (l : Locals) (events : List Event) : Locals := { l with log := l.log ++ events }

inductive Stage where
  | fault
  | ret (rc : Int) (l : Locals)
  | error (rc : Int) (l : Locals)
  | done (l : Locals)

def Stage.bind : Stage → (Locals → Stage) → Stage
  | .done l, f => f l
  | s, _ => s

def UserVector.check (v : UserVector) (l : Locals) (next : Stage) : Stage :=
  if ¬ v.valid then .ret (-efault) l
  else if ¬ v.strings.all (·.valid) then .ret (-efault) l
  else if ¬ v.terminated then .fault
  else next

def checkArgv (c : Call) (l : Locals) : Stage :=
  let checked : Stage := match c.argv with
    | none => .done l
    | some v => v.check l (if v.strings.length > processMaxArgs then .error (-e2big) l else .done l)
  checked.bind fun l =>
    if (c.argv.map UserVector.size).getD 0 > processMaxArgsSize then .error (-errorArgsBufferBig) l else .done l

def checkEnvp (c : Call) (l : Locals) : Stage :=
  match c.envp with
  | none => .done l
  | some v => v.check l (.done l)

def elfSegmentTypeInterp : Nat := 3
def interpPathMaxLen : Nat := 64

/-- The path of a loader that is copied with the zero behind it over the end of `interp_path`. -/
def pathOverruns (image : Buf) (entry : ProgramEntry) : Bool :=
  decide (interpPathMaxLen ≤ entry.pFilesz.toNat) &&
    (range interpPathMaxLen).all fun k => image (entry.pOffset.toNat + k) ≠ 0

/-- The entries from which a path of a loader is copied: the first one by `elf_get_loader_path`, and all of them by
`elf_load_process`. -/
def interpEntries (image : Buf) : List ProgramEntry :=
  ((range (progHeaderEntriesNum image)).map (getProgramEntry image)).filter (·.type = elfSegmentTypeInterp)

def openExec (c : Call) (l : Locals) : Stage :=
  match c.exec with
  | none => .error (-enoent) l
  | some f =>
    let l := { l.note [.opened .exec] with execFile := true }
    if f.isDirectory then .error (-errorIsDirectory) l
    else if ¬ f.executable then .error (-eacces) l
    else if f.size = 0 then .error (-errorBadExecFormat) l
    else if ¬ c.alloc .processImage then .error (-enomem) l
    else
      let l := { l.note [.alloc .processImage] with processImage := true }
      if ¬ f.readFull then .error (-errorBadExecFormat) l
      else if ¬ checkSignature f.image then .error (-errorBadExecFormat) l
      else if (interpEntries f.image).head?.any (pathOverruns f.image) then .fault
      else .done l

/-- The loader is closed once it is read, and the pointer to it stays. -/
def openLoader (c : Call) (l : Locals) : Stage :=
  match c.loader with
  | none => .error (-enoent) l
  | some f =>
    let l := { l.note [.opened .loader] with loaderFile := true }
    if f.isDirectory then .error (-errorIsDirectory) l
    else if ¬ f.executable then .error (-eacces) l
    else if ¬ c.alloc .loaderImage then .error (-enomem) l
    else .done { l.note [.alloc .loaderImage, .closed .loader] with loaderImage := true }

/-- The copies of the strings, where `strcpy` faults without memory. -/
def copyStrings (c : Call) (count : Nat) (site : Nat → Block) (l : Locals) : Stage :=
  if (range count).all fun i => c.alloc (site i) then
    .done (l.note ((range count).map fun i => .alloc (site i)))
  else .fault

def copyArgv (c : Call) (l : Locals) : Stage :=
  if ¬ c.alloc .argvk then .error (-enomem) l
  else copyStrings c c.argc .argvkAt { l.note [.alloc .argvk] with argvk := true }

def copyEnvp (c : Call) (l : Locals) : Stage :=
  if ¬ c.alloc .envpk then .error (-enomem) l
  else copyStrings c c.envc .envpkAt { l.note [.alloc .envpk] with envpk := true }

def prepare (c : Call) (l : Locals) : Stage :=
  (((((checkArgv c l).bind (checkEnvp c)).bind (openExec c)).bind (openLoader c)).bind (copyArgv c)).bind (copyEnvp c)

def freeTwodim (arr : Block) (site : Nat → Block) (size : Nat) : List Event :=
  (range size).map (fun i => .free (site i)) ++ [.free arr]

/-- The label `error`. -/
def atError (c : Call) (l : Locals) : List Event :=
  l.log ++ (if l.argvk then freeTwodim .argvk .argvkAt c.argc else []) ++
    (if l.envpk then freeTwodim .envpk .envpkAt c.envc else []) ++
    (if l.loaderImage then [.free .loaderImage] else []) ++
    (if l.loaderFile then [.closed .loader] else []) ++
    (if l.processImage then [.free .processImage] else []) ++
    (if l.execFile then [.closed .exec] else [])

def elfSectionFlagTls : Word := 0x400

/-- The sizes of the sections that `elf_load_process` takes for thread-local data. -/
def tlsSections (image : Buf) : List Nat :=
  if ¬ checkSignature image then []
  else
    ((range (sectionHeaderEntriesNum image)).filter fun i =>
      decide (nameIs image i ".tbss" ∨ nameIs image i ".tdata") &&
        ((getSectionEntry image i).flags &&& elfSectionFlagTls ≠ 0)).map
      fun i => (getSectionEntry image i).size

/-- One such section. Without memory the clearing or the copy faults, unless there is nothing to clear or copy. -/
def loadTls (c : Call) (s : Process × List Event) (size : Nat) : Option (Process × List Event) :=
  let n := s.1.nextTls
  let fields (tls : Word) : Fields :=
    { s.1.fields with
      words := Function.update (Function.update s.1.fields.words tlsWord tls) tlsSizeWord (BitVec.ofNat 64 size) }
  if c.alloc (.tls n) then
    some ({ s.1 with fields := fields (c.address n), tls := some n, nextTls := n + 1 }, s.2 ++ [.alloc (.tls n)])
  else if size = 0 then some ({ s.1 with fields := fields 0, tls := none, nextTls := n + 1 }, s.2)
  else none

/-- `kfree`, which returns at once for `NULL`. -/
def kfreeTls (tls : Option Nat) : List Event :=
  match tls with
  | some n => [.free (.tls n)]
  | none => []

/-- A turn of the loop over the descriptors to be closed on exec. A bit that is cleared behind `fd_lock` damages `tls`,
from which the next block is freed, or another field. -/
def closeFlagged (fields : Fields) (i : Fd) : Option Fields :=
  if fields.fds i ≠ none ∧ processGetCloexec fields i = 1 then
    (processCloseFile fields i).filter fun after => SameBehind fields after
  else some fields

/-- The descriptors to be closed on exec are closed, and the file is added at the lowest free one. -/
def newFields (fields : Fields) (file : Nat) : Option Fields :=
  ((finRange maxDescriptors).foldlM closeFlagged fields).bind fun fields => processAddFile fields file false

def replaceImage (p : Process) (c : Call) (f loader : ExecFile) (log : List Event) :
    Option (Process × List Event) := do
  let fields ← newFields p.fields f.number
  let p := { p with
    name := c.path.take (processNameMaxLen - 1)
    ranges := c.mapped
    fields := fields
    uid := f.setUid.getD p.uid
    euid := f.setUid.getD p.euid
    gid := f.setGid.getD p.gid
    egid := f.setGid.getD p.egid
    brk := c.brk }
  if (interpEntries f.image).any (pathOverruns f.image) then none
  else
    let s ← (tlsSections f.image).foldlM (loadTls c) (p, log ++ kfreeTls p.tls)
    let s ← (tlsSections loader.image).foldlM (loadTls c) (s.1, s.2 ++ [.free .processImage])
    some (s.1, s.2 ++ [.free .loaderImage] ++ freeTwodim .argvk .argvkAt c.argc ++
      freeTwodim .envpk .envpkAt c.envc ++ [.free .aux])

/-- `sys_execve`: the result, the process and the record, or `none` for a fault. -/
def sysExecve (p : Process) (c : Call) : Option (Int × Process × List Event) :=
  if ¬ c.pathValid then some (-efault, p, [])
  else if p.threads > 1 then some (-1, p, [])
  else if p.children > 0 then some (-1, p, [])
  else if ¬ c.alloc .aux then some (-enomem, p, [])
  else
    match prepare c { log := [.alloc .aux] } with
    | .fault => none
    | .ret rc l => some (rc, p, l.log)
    | .error rc l => some (rc, p, atError c l)
    | .done l =>
      match c.exec, c.loader with
      | some f, some loader => (replaceImage p c f loader l.log).map fun (p, log) => (0, p, log)
      | _, _ => none

/-- What `process_free_resources` does with `process->tls`. -/
def processFreeResources (p : Process) : List Event := kfreeTls p.tls

def runExecs : Process → List Call → Option (Process × List Event)
  | p, [] => some (p, [])
  | p, c :: calls =>
    match sysExecve p c with
    | some (0, p, log) => (runExecs p calls).map fun (q, log') => (q, log ++ log')
    | _ => none

def Refused (p : Process) (c : Call) : Prop :=
  c.pathValid = false ∨ p.threads > 1 ∨ p.children > 0 ∨ c.alloc .aux = false

instance (p : Process) (c : Call) : Decidable (Refused p c) := inferInstanceAs (Decidable (_ ∨ _))

/-- Events that free neither the auxiliary vector nor have to do with thread-local data. -/
def Event.quiet : Event → Bool
  | .alloc (.tls _) => false
  | .free (.tls _) => false
  | .free .aux => false
  | _ => true

def Grows (log log' : List Event) : Prop := ∃ events, log' = log ++ events ∧ events.all Event.quiet

theorem Grows.refl (log : List Event) : Grows log log := ⟨[], (append_nil _).symm, rfl⟩

theorem Grows.trans {a b c : List Event} (hab : Grows a b) (hbc : Grows b c) : Grows a c := by
  obtain ⟨events, rfl, hevents⟩ := hab
  obtain ⟨events', rfl, hevents'⟩ := hbc
  exact ⟨events ++ events', append_assoc _ _ _, by rw [all_append, hevents, hevents']; rfl⟩

/-- A part of the function that adds quiet events only, and gives up with an error only. -/
def Stage.Quiet (log : List Event) : Stage → Prop
  | .fault => True
  | .ret rc l => rc < 0 ∧ Grows log l.log
  | .error rc l => rc < 0 ∧ Grows log l.log
  | .done l => Grows log l.log

variable {events first log rest : List Event} {p p' q : Process} {calls : List Call} {s s' : Process × List Event}
  {c : Call} {b : Nat}

theorem Stage.Quiet.bind {s : Stage} {f : Locals → Stage} (hs : s.Quiet log) (hf : ∀ l, (f l).Quiet l.log) :
    (s.bind f).Quiet log := by
  cases s with
  | fault => trivial
  | ret rc l | error rc l => exact hs
  | done l =>
    have hl := hf l
    rw [Stage.bind]
    cases hfl : f l with
    | fault => trivial
    | ret rc l' | error rc l' =>
      rw [hfl] at hl
      exact ⟨hl.1, hs.trans hl.2⟩
    | done l' =>
      rw [hfl] at hl
      exact hs.trans hl

theorem Stage.Quiet.ite {s t : Stage} {b : Prop} [Decidable b] (hs : s.Quiet log) (ht : t.Quiet log) :
    (if b then s else t).Quiet log := by
  split
  · exact hs
  · exact ht

theorem check_quiet (v : UserVector) {l : Locals} {next : Stage} (hnext : next.Quiet l.log) :
    (v.check l next).Quiet l.log :=
  .ite ⟨by decide, .refl _⟩ (.ite ⟨by decide, .refl _⟩ (.ite trivial hnext))

theorem checkArgv_quiet (c : Call) (l : Locals) : (checkArgv c l).Quiet l.log := by
  apply Stage.Quiet.bind
  · cases c.argv with
    | none => exact Grows.refl _
    | some v => exact check_quiet v (.ite ⟨by decide, .refl _⟩ (Grows.refl _))
  · exact fun l' => .ite ⟨by decide, .refl _⟩ (Grows.refl _)

theorem checkEnvp_quiet (c : Call) (l : Locals) : (checkEnvp c l).Quiet l.log := by
  rw [checkEnvp]
  cases c.envp with
  | none => exact Grows.refl _
  | some v => exact check_quiet v (Grows.refl _)

theorem openExec_quiet (c : Call) (l : Locals) : (openExec c l).Quiet l.log := by
  rw [openExec]
  cases c.exec with
  | none => exact ⟨by decide, .refl _⟩
  | some f =>
    have hopened : Grows l.log (l.log ++ [.opened .exec]) := ⟨_, rfl, rfl⟩
    have hread : Grows l.log (l.log ++ [.opened .exec] ++ [.alloc .processImage]) :=
      hopened.trans ⟨_, rfl, rfl⟩
    exact .ite ⟨by decide, hopened⟩ (.ite ⟨by decide, hopened⟩ (.ite ⟨by decide, hopened⟩
      (.ite ⟨by decide, hopened⟩ (.ite ⟨by decide, hread⟩ (.ite ⟨by decide, hread⟩ (.ite trivial hread))))))

theorem openLoader_quiet (c : Call) (l : Locals) : (openLoader c l).Quiet l.log := by
  rw [openLoader]
  cases c.loader with
  | none => exact ⟨by decide, .refl _⟩
  | some f =>
    have hopened : Grows l.log (l.log ++ [.opened .loader]) := ⟨_, rfl, rfl⟩
    have hread : Grows l.log (l.log ++ [.opened .loader] ++ [.alloc .loaderImage, .closed .loader]) :=
      hopened.trans ⟨_, rfl, rfl⟩
    exact .ite ⟨by decide, hopened⟩ (.ite ⟨by decide, hopened⟩ (.ite ⟨by decide, hopened⟩ hread))

theorem copyStrings_quiet {count : Nat} {site : Nat → Block} (hsite : ∀ i, (Event.alloc (site i)).quiet) (l : Locals) :
    (copyStrings c count site l).Quiet l.log := by
  refine .ite ⟨_, rfl, ?_⟩ trivial
  rw [all_eq_true]
  intro e he
  obtain ⟨i, -, rfl⟩ := mem_map.mp he
  exact hsite i

theorem copyArgv_quiet (c : Call) (l : Locals) : (copyArgv c l).Quiet l.log := by
  refine .ite ⟨by decide, .refl _⟩ ?_
  exact Stage.Quiet.bind (s := .done { l.note [.alloc .argvk] with argvk := true }) ⟨_, rfl, rfl⟩
    (copyStrings_quiet fun _ => rfl)

theorem copyEnvp_quiet (c : Call) (l : Locals) : (copyEnvp c l).Quiet l.log := by
  refine .ite ⟨by decide, .refl _⟩ ?_
  exact Stage.Quiet.bind (s := .done { l.note [.alloc .envpk] with envpk := true }) ⟨_, rfl, rfl⟩
    (copyStrings_quiet fun _ => rfl)

theorem prepare_quiet (c : Call) (l : Locals) : (prepare c l).Quiet l.log :=
  (((((checkArgv_quiet c l).bind (checkEnvp_quiet c)).bind (openExec_quiet c)).bind (openLoader_quiet c)).bind
    (copyArgv_quiet c)).bind (copyEnvp_quiet c)

theorem freeTwodim_quiet (arr : Block) (site : Nat → Block) (harr : (Event.free arr).quiet)
    (hsite : ∀ i, (Event.free (site i)).quiet) (size : Nat) : (freeTwodim arr site size).all Event.quiet := by
  rw [freeTwodim, all_append, Bool.and_eq_true, all_eq_true]
  refine ⟨fun e he => ?_, by rw [all_cons, harr]; rfl⟩
  obtain ⟨i, -, rfl⟩ := mem_map.mp he
  exact hsite i

theorem atError_grows (c : Call) (l : Locals) : Grows l.log (atError c l) := by
  have hite {b : Prop} [Decidable b] {events : List Event} (hevents : events.all Event.quiet) :
      (if b then events else []).all Event.quiet := by
    split_ifs
    · exact hevents
    · rfl
  have hargvk := hite (b := l.argvk = true)
    (freeTwodim_quiet .argvk .argvkAt rfl (fun _ => rfl) c.argc)
  have henvpk := hite (b := l.envpk = true)
    (freeTwodim_quiet .envpk .envpkAt rfl (fun _ => rfl) c.envc)
  refine ⟨_, by simp only [atError, append_assoc]; rfl, ?_⟩
  simp only [all_append, hargvk, henvpk]
  rw [hite rfl, hite rfl,
    hite rfl, hite rfl]
  rfl

theorem not_balanced_of_quiet (hquiet : events.all Event.quiet) : ¬ Balanced (.alloc .aux :: events) := by
  intro hbalanced
  have hcount := hbalanced.blocks .aux mem_cons_self
  have hzero : (Event.alloc .aux :: events).count (.free .aux) = 0 := by
    rw [count_eq_zero]
    intro hmem
    have hevents := (mem_cons.mp hmem).resolve_left (by decide)
    exact absurd (all_eq_true.mp hquiet _ hevents) (by decide)
  omega

theorem sysExecve_cases {rc : Int} (hcall : sysExecve p c = some (rc, p', log)) :
    (Refused p c ∧ rc < 0 ∧ p' = p ∧ log = []) ∨
      (¬ Refused p c ∧ rc < 0 ∧ p' = p ∧ ∃ events, log = .alloc .aux :: events ∧ events.all Event.quiet) ∨
      (rc = 0 ∧ ∃ f loader events, c.exec = some f ∧ c.loader = some loader ∧ events.all Event.quiet ∧
        replaceImage p c f loader (.alloc .aux :: events) = some (p', log)) := by
  have hearly {rc' : Int} (hrc' : rc' < 0) (heq : some (rc', p, ([] : List Event)) = some (rc, p', log)) :
      rc < 0 ∧ p' = p ∧ log = [] := by
    obtain ⟨rfl, hpair⟩ := mk.inj (Option.some.inj heq)
    cases hpair
    exact ⟨hrc', rfl, rfl⟩
  have hlate {rc' : Int} {log' : List Event} (hrc' : rc' < 0) (hgrows : Grows [.alloc .aux] log')
      (heq : some (rc', p, log') = some (rc, p', log)) :
      rc < 0 ∧ p' = p ∧ ∃ events, log = .alloc .aux :: events ∧ events.all Event.quiet := by
    obtain ⟨rfl, hpair⟩ := mk.inj (Option.some.inj heq)
    cases hpair
    exact ⟨hrc', rfl, hgrows⟩
  rw [sysExecve] at hcall
  by_cases hpath : c.pathValid = true
  swap
  · rw [if_pos hpath] at hcall
    exact .inl ⟨.inl (Bool.eq_false_iff.mpr hpath), hearly (by decide) hcall⟩
  rw [if_neg (not_not.mpr hpath)] at hcall
  by_cases hthreads : p.threads > 1
  · rw [if_pos hthreads] at hcall
    exact .inl ⟨.inr (.inl hthreads), hearly (by decide) hcall⟩
  rw [if_neg hthreads] at hcall
  by_cases hchildren : p.children > 0
  · rw [if_pos hchildren] at hcall
    exact .inl ⟨.inr (.inr (.inl hchildren)), hearly (by decide) hcall⟩
  rw [if_neg hchildren] at hcall
  by_cases haux : c.alloc .aux = true
  swap
  · rw [if_pos haux] at hcall
    exact .inl ⟨.inr (.inr (.inr (Bool.eq_false_iff.mpr haux))), hearly (by decide) hcall⟩
  rw [if_neg (not_not.mpr haux)] at hcall
  have hnot : ¬ Refused p c := by
    simp [Refused, hpath, hthreads, hchildren, haux]
  have hquiet := prepare_quiet c { log := [.alloc .aux] }
  refine .inr ?_
  cases hprepare : prepare c { log := [.alloc .aux] } with
  | fault =>
    rw [hprepare] at hcall
    cases hcall
  | ret rc' l =>
    rw [hprepare] at hcall hquiet
    exact .inl ⟨hnot, hlate hquiet.1 hquiet.2 hcall⟩
  | error rc' l =>
    rw [hprepare] at hcall hquiet
    exact .inl ⟨hnot, hlate hquiet.1 (hquiet.2.trans (atError_grows c l)) hcall⟩
  | done l =>
    rw [hprepare] at hcall hquiet
    obtain ⟨events, hlog, hevents⟩ := hquiet
    cases hexec : c.exec with
    | none =>
      rw [hexec] at hcall
      cases hcall
    | some f =>
      cases hloader : c.loader with
      | none =>
        rw [hexec, hloader] at hcall
        cases hcall
      | some loader =>
        rw [hexec, hloader] at hcall
        obtain ⟨r, hr, heq⟩ := Option.map_eq_some_iff.mp hcall
        obtain ⟨hrc, hpair⟩ := mk.inj heq
        cases hpair
        rw [hlog] at hr
        exact .inr ⟨hrc.symm, f, loader, events, rfl, rfl, hevents, hr⟩

theorem failed_call {rc : Int} (hcall : sysExecve p c = some (rc, p', log)) (hneg : rc < 0) :
    p' = p ∧ (Balanced log ↔ Refused p c) := by
  obtain ⟨hrefused, -, hp, rfl⟩ | ⟨hnot, -, hp, events, rfl, hevents⟩ | ⟨rfl, -⟩ := sysExecve_cases hcall
  · exact ⟨hp, iff_of_true ⟨fun _ h => absurd h not_mem_nil, fun _ h => absurd h not_mem_nil⟩ hrefused⟩
  · exact ⟨hp, iff_of_false (not_balanced_of_quiet hevents) hnot⟩
  · exact absurd hneg (lt_irrefl 0)

/-- The value of `process->tls` after `m` sections, whose blocks have numbers from `n` on. -/
def tlsAfter (c : Call) (tls : Option Nat) (n m : Nat) : Option Nat :=
  if m = 0 then tls else if c.alloc (.tls (n + m - 1)) then some (n + m - 1) else none

/-- The effect of `m` sections. -/
structure Sections (c : Call) (m : Nat) (s s' : Process × List Event) : Prop where
  next : s'.1.nextTls = s.1.nextTls + m
  tls : s'.1.tls = tlsAfter c s.1.tls s.1.nextTls m
  allocs : ∀ b, .alloc (.tls b) ∈ s'.2 ↔ .alloc (.tls b) ∈ s.2 ∨
    (s.1.nextTls ≤ b ∧ b < s.1.nextTls + m) ∧ c.alloc (.tls b) = true
  frees : ∀ b, s'.2.count (.free (.tls b)) = s.2.count (.free (.tls b))

theorem Sections.refl (c : Call) (s : Process × List Event) : Sections c 0 s s := by
  refine ⟨rfl, rfl, fun b => ?_, fun _ => rfl⟩
  rw [or_iff_left]
  omega

theorem Sections.trans {m k : Nat} {t u : Process × List Event} (hst : Sections c m s t) (htu : Sections c k t u) :
    Sections c (m + k) s u := by
  refine ⟨by rw [htu.next, hst.next, add_assoc], ?_, fun b => ?_, fun b => (htu.frees b).trans (hst.frees b)⟩
  · rw [htu.tls, hst.tls, hst.next, tlsAfter, tlsAfter, tlsAfter]
    by_cases hk : k = 0
    · rw [if_pos hk, hk, add_zero]
    · rw [if_neg hk, if_neg (by omega : ¬ m + k = 0), add_assoc]
  · rw [htu.allocs, hst.allocs, hst.next, or_assoc]
    refine or_congr_right ?_
    rw [← or_and_right]
    exact and_congr_left' (by omega)

theorem loadTls_sections {size : Nat} (hload : loadTls c s size = some s') : Sections c 1 s s' := by
  rw [loadTls] at hload
  by_cases halloc : c.alloc (.tls s.1.nextTls) = true
  · rw [if_pos halloc] at hload
    cases hload
    refine ⟨rfl, ?_, fun b => ?_, fun b => ?_⟩
    · rw [tlsAfter, if_neg Nat.one_ne_zero, Nat.add_sub_cancel, if_pos halloc]
    · rw [mem_append, mem_singleton]
      refine or_congr_right ⟨fun heq => ?_, fun hb => ?_⟩
      · obtain rfl : b = s.1.nextTls := by simpa using heq
        exact ⟨by omega, halloc⟩
      · rw [show b = s.1.nextTls by omega]
    · rw [count_append]
      exact add_zero _
  · rw [if_neg halloc] at hload
    by_cases hsize : size = 0
    · rw [if_pos hsize] at hload
      cases hload
      refine ⟨rfl, ?_, fun b => ?_, fun _ => rfl⟩
      · rw [tlsAfter, if_neg Nat.one_ne_zero, Nat.add_sub_cancel, if_neg halloc]
      · rw [or_iff_left]
        rintro ⟨hb, hb'⟩
        exact halloc (by rwa [show b = s.1.nextTls by omega] at hb')
    · rw [if_neg hsize] at hload
      cases hload

theorem foldlM_sections {sizes : List Nat} (hload : sizes.foldlM (loadTls c) s = some s') :
    Sections c sizes.length s s' := by
  induction sizes generalizing s with
  | nil =>
    obtain rfl := Option.some.inj hload
    exact .refl c s
  | cons size sizes ih =>
    rw [foldlM_cons, Option.bind_eq_bind, Option.bind_eq_some_iff] at hload
    obtain ⟨t, ht, hload⟩ := hload
    rw [length_cons, add_comm]
    exact (loadTls_sections ht).trans (ih hload)

def Event.apart : Event → Bool
  | .alloc (.tls _) => false
  | .free (.tls _) => false
  | _ => true

theorem apart_of_quiet (hquiet : events.all Event.quiet) : events.all Event.apart := by
  rw [all_eq_true] at hquiet ⊢
  intro e he
  have hq := hquiet e he
  cases e with
  | alloc b | free b => cases b <;> first | rfl | exact hq
  | opened f | closed f => rfl

theorem mem_append_apart (hapart : events.all Event.apart) (b : Nat) :
    .alloc (.tls b) ∈ log ++ events ↔ .alloc (.tls b) ∈ log := by
  rw [mem_append, or_iff_left]
  exact fun hmem => absurd (all_eq_true.mp hapart _ hmem) Bool.false_ne_true

theorem count_append_apart (hapart : events.all Event.apart) (b : Nat) :
    (log ++ events).count (.free (.tls b)) = log.count (.free (.tls b)) := by
  have hzero : events.count (.free (.tls b)) = 0 :=
    count_eq_zero.mpr fun hmem => absurd (all_eq_true.mp hapart _ hmem) Bool.false_ne_true
  rw [count_append, hzero, add_zero]

/-- The number of sections for thread-local data in the two images of a call. -/
def Call.tlsCount (c : Call) : Nat :=
  match c.exec, c.loader with
  | some f, some loader => (tlsSections f.image).length + (tlsSections loader.image).length
  | _, _ => 0

/-- What a successful call does with thread-local data. -/
structure Replaced (c : Call) (p p' : Process) (log : List Event) : Prop where
  next : p'.nextTls = p.nextTls + c.tlsCount
  tls : p'.tls = tlsAfter c p.tls p.nextTls c.tlsCount
  allocs : ∀ b, .alloc (.tls b) ∈ log ↔
    (p.nextTls ≤ b ∧ b < p.nextTls + c.tlsCount) ∧ c.alloc (.tls b) = true
  frees : ∀ b, log.count (.free (.tls b)) = if p.tls = some b then 1 else 0

theorem count_kfreeTls (tls : Option Nat) (b : Nat) :
    (kfreeTls tls).count (.free (.tls b)) = if tls = some b then 1 else 0 := by
  cases tls with
  | none => rfl
  | some n =>
    rw [kfreeTls, count_singleton]
    simp

theorem alloc_notMem_kfreeTls (tls : Option Nat) (b : Nat) : .alloc (.tls b) ∉ kfreeTls tls := by
  cases tls with
  | none => exact not_mem_nil
  | some n => simp [kfreeTls]

theorem replaceImage_effect {f loader : ExecFile} {log' : List Event} (hexec : c.exec = some f)
    (hloader : c.loader = some loader) (hlog : log.all Event.apart)
    (hreplace : replaceImage p c f loader log = some (p', log')) : Replaced c p p' log' := by
  have hcount : c.tlsCount = (tlsSections f.image).length + (tlsSections loader.image).length := by
    rw [Call.tlsCount, hexec, hloader]
  rw [replaceImage, Option.bind_eq_bind, Option.bind_eq_some_iff] at hreplace
  obtain ⟨fields, -, hreplace⟩ := hreplace
  split_ifs at hreplace
  rw [Option.bind_eq_bind, Option.bind_eq_some_iff] at hreplace
  obtain ⟨s, hs, hreplace⟩ := hreplace
  rw [Option.bind_eq_some_iff] at hreplace
  obtain ⟨t, ht, hreplace⟩ := hreplace
  cases hreplace
  have hfirst := foldlM_sections hs
  have hmiddle : Sections c 0 s (s.1, s.2 ++ [.free .processImage]) := by
    refine ⟨rfl, rfl, fun b => ?_, count_append_apart rfl⟩
    rw [mem_append_apart rfl, or_iff_left]
    omega
  have hall := (hfirst.trans hmiddle).trans (foldlM_sections ht)
  rw [add_zero, ← hcount] at hall
  have hrest : ([Event.free .loaderImage] ++ (freeTwodim .argvk .argvkAt c.argc ++
      (freeTwodim .envpk .envpkAt c.envc ++ [Event.free .aux]))).all Event.apart := by
    have hargvk := apart_of_quiet (freeTwodim_quiet .argvk .argvkAt rfl (fun _ => rfl) c.argc)
    have henvpk := apart_of_quiet (freeTwodim_quiet .envpk .envpkAt rfl (fun _ => rfl) c.envc)
    simp only [all_append, hargvk, henvpk]
    rfl
  rw [append_assoc, append_assoc, append_assoc]
  refine ⟨hall.next, hall.tls, fun b => ?_, fun b => ?_⟩
  · rw [mem_append_apart hrest, hall.allocs, mem_append, or_iff_right]
    rintro (hmem | hmem)
    · exact absurd (all_eq_true.mp hlog _ hmem) Bool.false_ne_true
    · exact alloc_notMem_kfreeTls _ b hmem
  · rw [count_append_apart hrest, hall.frees, count_append, count_kfreeTls]
    have hzero : log.count (.free (.tls b)) = 0 :=
      count_eq_zero.mpr fun hmem => absurd (all_eq_true.mp hlog _ hmem) Bool.false_ne_true
    rw [hzero, zero_add]

theorem sysExecve_effect (hcall : sysExecve p c = some (0, p', log)) : Replaced c p p' log := by
  obtain ⟨-, hneg, -⟩ | ⟨-, hneg, -⟩ | ⟨-, f, loader, events, hexec, hloader, hevents, hreplace⟩ :=
    sysExecve_cases hcall
  · exact absurd hneg (lt_irrefl 0)
  · exact absurd hneg (lt_irrefl 0)
  · refine replaceImage_effect hexec hloader ?_ hreplace
    rw [all_cons, apart_of_quiet hevents]
    rfl

/-- One section for thread-local data in each call, or none as long as `process->tls` is `NULL`. A section without
memory does not count. -/
def OneTls (null : Bool) (n : Nat) : List Call → Prop
  | [] => True
  | c :: calls =>
    (if c.tlsCount = 0 then null = true else ∀ j < c.tlsCount - 1, c.alloc (.tls (n + j)) = false) ∧
      OneTls (tlsAfter c (if null then none else some 0) n c.tlsCount).isNone (n + c.tlsCount) calls

def freedBy (log : List Event) (q : Process) (b : Nat) : Nat :=
  (log ++ processFreeResources q).count (.free (.tls b))

theorem runExecs_cons (hrun : runExecs p (c :: calls) = some (q, log)) :
    ∃ p' first rest, Replaced c p p' first ∧ runExecs p' calls = some (q, rest) ∧ log = first ++ rest := by
  rw [runExecs] at hrun
  split at hrun
  · rename_i p' first hcall
    obtain ⟨r, hr, heq⟩ := Option.map_eq_some_iff.mp hrun
    cases heq
    exact ⟨p', first, r.2, sysExecve_effect hcall, hr, rfl⟩
  · cases hrun

theorem freedBy_append (first rest : List Event) (q : Process) (b : Nat) :
    freedBy (first ++ rest) q b = first.count (.free (.tls b)) + freedBy rest q b := by
  rw [freedBy, freedBy, append_assoc, count_append]

variable (hrun : runExecs p calls = some (q, log))

include hrun in
theorem freedBy_current (htls : p.tls = some b) : 1 ≤ freedBy log q b := by
  cases calls with
  | nil =>
    cases hrun
    rw [freedBy, nil_append, processFreeResources, count_kfreeTls, if_pos htls]
  | cons c calls =>
    obtain ⟨p', first, rest, heffect, -, rfl⟩ := runExecs_cons hrun
    rw [freedBy_append, heffect.frees, if_pos htls]
    exact Nat.le_add_right _ _

theorem tlsAfter_eq_some {tls : Option Nat} {n m : Nat} (h : tlsAfter c tls n m = some b) :
    tls = some b ∧ m = 0 ∨ b = n + m - 1 ∧ m ≠ 0 ∧ c.alloc (.tls b) = true := by
  rw [tlsAfter] at h
  by_cases hm : m = 0
  · rw [if_pos hm] at h
    exact .inl ⟨h, hm⟩
  · rw [if_neg hm] at h
    by_cases halloc : c.alloc (.tls (n + m - 1)) = true
    · rw [if_pos halloc] at h
      cases h
      exact .inr ⟨rfl, hm, halloc⟩
    · rw [if_neg halloc] at h
      cases h

include hrun

theorem freedBy_lost (hb : b < p.nextTls) (htls : p.tls ≠ some b) : freedBy log q b = 0 ∧ .alloc (.tls b) ∉ log := by
  induction calls generalizing p log with
  | nil =>
    cases hrun
    rw [freedBy, nil_append, processFreeResources, count_kfreeTls, if_neg htls]
    exact ⟨rfl, not_mem_nil⟩
  | cons c calls ih =>
    obtain ⟨p', first, rest, heffect, hrun', rfl⟩ := runExecs_cons hrun
    have htls' : p'.tls ≠ some b := by
      intro heq
      rw [heffect.tls] at heq
      rcases tlsAfter_eq_some heq with ⟨hsame, -⟩ | ⟨hnew, hm, -⟩
      · exact htls hsame
      · omega
    obtain ⟨hzero, hnotMem⟩ := ih hrun' (by rw [heffect.next]; omega) htls'
    rw [freedBy_append, heffect.frees, if_neg htls, hzero]
    refine ⟨rfl, fun hmem => ?_⟩
    rcases mem_append.mp hmem with hmem | hmem
    · have hnew := ((heffect.allocs b).mp hmem).1
      omega
    · exact hnotMem hmem

theorem alloc_ge (hmem : .alloc (.tls b) ∈ log) : p.nextTls ≤ b := by
  induction calls generalizing p log with
  | nil =>
    cases hrun
    exact absurd hmem not_mem_nil
  | cons c calls ih =>
    obtain ⟨p', first, rest, heffect, hrun', rfl⟩ := runExecs_cons hrun
    rcases mem_append.mp hmem with hmem | hmem
    · exact ((heffect.allocs b).mp hmem).1.1
    · have hle := ih hrun' hmem
      rw [heffect.next] at hle
      omega

omit hrun

/-- Each block is freed once: those taken by the calls, and the one that was there before. -/
def FreedOnce (p q : Process) (log : List Event) : Prop :=
  ∀ b, p.tls = some b ∨ .alloc (.tls b) ∈ log → freedBy log q b = 1

theorem tlsAfter_isNone (c : Call) (tls : Option Nat) (n m : Nat) :
    (tlsAfter c (if tls.isNone then none else some 0) n m).isNone = (tlsAfter c tls n m).isNone := by
  rw [tlsAfter, tlsAfter]
  by_cases hm : m = 0
  · rw [if_pos hm, if_pos hm]
    cases tls with
    | none | some b => rfl
  · rw [if_neg hm, if_neg hm]

theorem freedOnce_cons_none (heffect : Replaced c p p' first) (hcount : c.tlsCount = 0)
    (hrun : runExecs p' calls = some (q, rest)) :
    FreedOnce p q (first ++ rest) ↔ p.tls.isNone = true ∧ FreedOnce p' q rest := by
  have htls : p'.tls = p.tls := by rw [heffect.tls, tlsAfter, if_pos hcount]
  have hnotMem : ∀ b, .alloc (.tls b) ∉ first := by
    intro b hmem
    have hnew := ((heffect.allocs b).mp hmem).1
    omega
  have hfreed : ∀ b, freedBy (first ++ rest) q b = (if p.tls = some b then 1 else 0) + freedBy rest q b := by
    intro b
    rw [freedBy_append, heffect.frees]
  cases hold : p.tls with
  | none =>
    simp only [hold, reduceCtorEq, if_false, zero_add] at hfreed
    simp only [FreedOnce, htls, hfreed, mem_append, hnotMem, false_or, Option.isNone_none, true_and]
  | some b =>
    refine iff_of_false (fun honce => ?_) (fun h => Bool.false_ne_true h.1)
    have hone := honce b (.inl hold)
    have hagain := freedBy_current hrun (htls.trans hold)
    rw [hfreed, if_pos hold] at hone
    omega

theorem freedOnce_cons_some (hnumbered : ∀ b, p.tls = some b → b < p.nextTls) (heffect : Replaced c p p' first)
    (hcount : c.tlsCount ≠ 0) (hrun : runExecs p' calls = some (q, rest)) :
    FreedOnce p q (first ++ rest) ↔
      (∀ j < c.tlsCount - 1, c.alloc (.tls (p.nextTls + j)) = false) ∧ FreedOnce p' q rest := by
  have hnext := heffect.next
  have hnew : ∀ b, p'.tls = some b → b = p.nextTls + c.tlsCount - 1 ∧ c.alloc (.tls b) = true := by
    intro b hb
    rw [heffect.tls] at hb
    rcases tlsAfter_eq_some hb with ⟨-, hzero⟩ | ⟨hb, -, halloc⟩
    · exact absurd hzero hcount
    · exact ⟨hb, halloc⟩
  -- a block from `nextTls` on is not the one that the call frees
  have hlater : ∀ b, p.nextTls ≤ b → freedBy (first ++ rest) q b = freedBy rest q b := by
    intro b hb
    rw [freedBy_append, heffect.frees, if_neg, zero_add]
    intro htls
    have := hnumbered b htls
    omega
  constructor
  · intro honce
    refine ⟨fun j hj => ?_, fun b hb => ?_⟩
    · by_contra halloc
      rw [Bool.not_eq_false] at halloc
      have hmem : .alloc (.tls (p.nextTls + j)) ∈ first := (heffect.allocs _).mpr ⟨by omega, halloc⟩
      have hone := honce _ (.inr (mem_append_left rest hmem))
      have hlost : freedBy rest q (p.nextTls + j) = 0 :=
        (freedBy_lost hrun (by omega) fun htls => by have := (hnew _ htls).1; omega).1
      rw [hlater _ (by omega)] at hone
      omega
    · cases hb with
      | inl htls =>
        obtain ⟨hlast, halloc⟩ := hnew b htls
        rw [← hlater b (by omega)]
        exact honce b (.inr (mem_append_left rest ((heffect.allocs b).mpr ⟨by omega, halloc⟩)))
      | inr hmem =>
        have hge := alloc_ge hrun hmem
        rw [← hlater b (by omega)]
        exact honce b (.inr (mem_append_right first hmem))
  · rintro ⟨hothers, honce⟩ b hb
    rcases hb with htls | hmem
    · have hlt := hnumbered b htls
      have hlost : freedBy rest q b = 0 :=
        (freedBy_lost hrun (by omega) fun htls' => by have := (hnew _ htls').1; omega).1
      rw [freedBy_append, heffect.frees, if_pos htls, hlost]
    · rcases mem_append.mp hmem with hmem | hmem
      · obtain ⟨hrange, halloc⟩ := (heffect.allocs b).mp hmem
        have hlast : b = p.nextTls + c.tlsCount - 1 := by
          by_contra hne
          have hfalse := hothers (b - p.nextTls) (by omega)
          rw [Nat.add_sub_cancel' hrange.1, halloc] at hfalse
          cases hfalse
        rw [hlater b hrange.1]
        apply honce b (.inl _)
        rw [heffect.tls, tlsAfter, if_neg hcount, ← hlast, if_pos halloc]
      · have hge := alloc_ge hrun hmem
        rw [hlater b (by omega)]
        exact honce b (.inr hmem)

theorem freedOnce_iff (hnumbered : ∀ b, p.tls = some b → b < p.nextTls) (hrun : runExecs p calls = some (q, log)) :
    FreedOnce p q log ↔ OneTls p.tls.isNone p.nextTls calls := by
  induction calls generalizing p log with
  | nil =>
    cases hrun
    refine iff_of_true (fun b hb => ?_) trivial
    have htls := hb.resolve_right not_mem_nil
    rw [freedBy, nil_append, processFreeResources, count_kfreeTls, if_pos htls]
  | cons c calls ih =>
    obtain ⟨p', first, rest, heffect, hrun', rfl⟩ := runExecs_cons hrun
    have hnumbered' : ∀ b, p'.tls = some b → b < p'.nextTls := by
      intro b hb
      rw [heffect.tls] at hb
      rw [heffect.next]
      rcases tlsAfter_eq_some hb with ⟨hsame, -⟩ | ⟨hnew, hm, -⟩
      · have := hnumbered b hsame
        omega
      · omega
    rw [OneTls, tlsAfter_isNone, ← heffect.tls, ← heffect.next, ← ih hnumbered' hrun']
    split_ifs with hcount
    · exact freedOnce_cons_none heffect hcount hrun'
    · exact freedOnce_cons_some hnumbered heffect hcount hrun'

/-- A call that fails changes nothing, but gave back what it took only if it took nothing. Over successful calls the
blocks for thread-local data are freed once each only with one such block in each call, or none from the start. -/
theorem execve_releases (p : Process) (hnumbered : ∀ b, p.tls = some b → b < p.nextTls) :
    (∀ c rc p' log, sysExecve p c = some (rc, p', log) → rc < 0 → (p' = p ∧ Balanced log ↔ Refused p c)) ∧
      ∀ calls q log, runExecs p calls = some (q, log) →
        (FreedOnce p q log ↔ OneTls p.tls.isNone p.nextTls calls) := by
  refine ⟨fun c rc p' log hcall hneg => ?_, fun calls q log hrun => freedOnce_iff hnumbered hrun⟩
  obtain ⟨hp, hbalanced⟩ := failed_call hcall hneg
  rw [and_iff_right hp, hbalanced]

def bareImage : Buf := fun k => [0x7F, 0x45, 0x4C, 0x46].getD k 0

def bareFile : ExecFile :=
  { number := 3, isDirectory := false, executable := true, size := 64, readFull := true, image := bareImage,
    setUid := none, setGid := none }

def bareCall : Call :=
  { path := [0x61], pathValid := true, argv := none, envp := none, exec := some bareFile, loader := some bareFile,
    alloc := fun _ => true, address := fun n => 0x1000 * BitVec.ofNat 64 n, mapped := [], brk := 0 }

/-- An image whose one section is `.tbss`, with 8 bytes of thread-local data. -/
def tlsImage : Buf :=
  [(0, 4, 0x464C457F), (40, 8, 64), (58, 2, 64), (60, 2, 1), (72, 8, 0x400), (88, 8, 128), (96, 8, 8),
    (128, 6, 0x737362742E)].foldl (fun image (o, len, v) => writeLE image o len v) fun _ => 0

def tlsCall : Call := { bareCall with exec := some { bareFile with image := tlsImage } }

def startedProcess (tls : Option Nat) : Process :=
  { threads := 1, children := 0, ranges := []
    fields := ⟨fun _ => none, fun k => if k = tlsWord ∧ tls ≠ none then 0x1000 else 0, []⟩
    uid := 0, euid := 0, gid := 0, egid := 0, name := [], brk := 0, tls := tls, nextTls := 1 }

/-- A call that finds no file, and two calls of a program with thread-local data in a process that has such a block. -/
theorem execve_releases_tls :
    (∃ log, sysExecve (startedProcess (some 0)) { tlsCall with exec := none } =
        some (-enoent, startedProcess (some 0), log) ∧ ¬ Balanced log) ∧
      ∃ q log, runExecs (startedProcess (some 0)) [tlsCall, tlsCall] = some (q, log) ∧
        (.alloc (.tls 1) ∈ log ∧ .alloc (.tls 2) ∈ log) ∧
        freedBy log q 0 = 1 ∧ freedBy log q 1 = 1 ∧ freedBy log q 2 = 1 := by
  obtain ⟨hfailed, hsequence⟩ := execve_releases (startedProcess (some 0)) fun b hb => by
    cases hb
    decide
  obtain ⟨log, hlog⟩ : ∃ log, sysExecve (startedProcess (some 0)) { tlsCall with exec := none } =
      some (-enoent, startedProcess (some 0), log) := ⟨_, rfl⟩
  refine ⟨⟨log, hlog, fun hbalanced => ?_⟩, ?_⟩
  · have hrefused := (hfailed _ _ _ _ hlog (by decide)).mp ⟨rfl, hbalanced⟩
    exact absurd hrefused (by decide)
  · have hany : (runExecs (startedProcess (some 0)) [tlsCall, tlsCall]).any (fun r =>
        .alloc (.tls 1) ∈ r.2 ∧ .alloc (.tls 2) ∈ r.2) = true := by decide +kernel
    obtain ⟨⟨q, log⟩, hrun, hallocs⟩ := (Option.any_eq_true _ _).mp hany
    have hone : tlsCall.tlsCount = 1 := by decide
    have honce : FreedOnce (startedProcess (some 0)) q log := by
      refine (hsequence _ _ _ hrun).mpr ?_
      simp only [OneTls, hone, Nat.one_ne_zero, if_false, Nat.sub_self, Nat.not_lt_zero, false_imp_iff, implies_true,
        and_self]
    have hmem := of_decide_eq_true hallocs
    exact ⟨q, log, hrun, hmem, honce 0 (.inl rfl), honce 1 (.inr hmem.1), honce 2 (.inr hmem.2)⟩

/-- A missing program costs a block; without memory for `argvk` the loader is closed twice; and a program without
thread-local data leaves the freed block to be freed again. -/
theorem block_lost_and_freed_twice :
    (sysExecve (startedProcess none) { bareCall with exec := none }).map (fun r => (r.1, r.2.2)) =
        some (-enoent, [.alloc .aux]) ∧
      ((sysExecve (startedProcess none) { bareCall with alloc := fun b => b ≠ .argvk }).map
        fun r => (r.1, r.2.2.count (.closed .loader))) = some (-enomem, 2) ∧
      (runExecs (startedProcess (some 0)) [bareCall]).map (fun r => freedBy r.2 r.1 0) = some 2 := by
  decide

end Kairax.Execve
