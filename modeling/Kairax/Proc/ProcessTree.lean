import Mathlib.Data.List.Nodup
import Mathlib.Data.List.Range
import Mathlib.Logic.Function.Basic
import Kairax.Lib.Run

/-!
# The process tree

Processes and threads share one table of numbers. The table, the list of the parent and the callers that look a
process up have one reference each. `exit_process` gives back the list of children without the references. A new
object that finds the table full keeps number 0.
-/

namespace Kairax.Proc.Tree

open Lib List Function

inductive Block (α : Type*)
  | unused
  | object (x : α)
  | freed
  deriving DecidableEq

def Block.get {α : Type*} : Block α → Option α
  | .object x => some x
  | _ => none

/-- `struct process` -/
structure Process (A : Type*) where
  pid : Nat
  zombie : Bool
  code : Int
  refs : Int
  parent : Option A
  threads : List A
  children : Option (List A)
  deriving DecidableEq

/-- `struct thread` -/
structure Thread (A : Type*) where
  id : Nat
  zombie : Bool
  code : Int
  process : A
  deriving DecidableEq

inductive Ref (A : Type*)
  | process (p : A)
  | thread (t : A)
  deriving DecidableEq

@[irreducible] def maxProcesses : Nat := 3000

/-- The objects and the table, the references of callers, and what the waits so far have returned. -/
structure System (A : Type*) where
  process : A → Block (Process A)
  thread : A → Block (Thread A)
  processes : Nat → Option (Ref A)
  held : A → Nat
  returned : List (Ref A)

def System.init {A : Type*} : System A := ⟨fun _ => .unused, fun _ => .unused, fun _ => none, fun _ => 0, []⟩

inductive WaitResult (A : Type*)
  | noChild
  | nothing
  | asleep
  | invalid
  | reaped (r : Ref A) (id : Nat) (code : Int)

inductive ProcessOp (A : Type*)
  | create (p : A) (memory : Bool) (parent : Option A)
  | createThread (t p : A)
  | exitProcess (p : A) (code : Int)
  | exitThread (t : A) (code : Int)
  | wait (p : A) (id : Int) (nohang : Bool)
  | getById (pid : Nat)
  | free (p : A)

namespace System

variable {A : Type*} [DecidableEq A]

def setProcess (s : System A) (p : A) (proc : Process A) : System A :=
  { s with process := update s.process p (.object proc) }

def setThread (s : System A) (t : A) (thr : Thread A) : System A :=
  { s with thread := update s.thread t (.object thr) }

def setEntry (s : System A) (pid : Nat) (r : Option (Ref A)) : System A :=
  { s with processes := update s.processes pid r }

def processAcquire (s : System A) (p : A) : Option (System A) := do
  let proc ← (s.process p).get
  some (s.setProcess p { proc with refs := proc.refs + 1 })

/-- `process_remove_from_list` of a thread, for which `free_process` does nothing. -/
def removeThreadEntry (s : System A) (t : A) : Option (System A) := do
  let thr ← (s.thread t).get
  if s.processes thr.id = some (.thread t) then some (s.setEntry thr.id none) else some s

def threadDestroy (s : System A) (t : A) : Option (System A) := do
  let thr ← (s.thread t).get
  if thr.zombie then some { s with thread := update s.thread t .freed } else none

def destroyEntry (s : System A) (t : A) : Option (System A) := do
  let s ← s.removeThreadEntry t
  s.threadDestroy t

/-- The threads are removed under the lock of the table, so this never returns if the caller has it. -/
def freeProcess (s : System A) (p : A) (locked : Bool) : Option (System A) := do
  let proc ← (s.process p).get
  let s := s.setProcess p { proc with refs := proc.refs - 1 }
  if proc.refs - 1 ≤ 0 then
    if proc.zombie then
      if locked ∧ proc.threads ≠ [] then none
      else do
        let s ← proc.threads.foldlM destroyEntry s
        some { s with process := update s.process p .freed }
    else some s
  else some s

def take (s : System A) (p : A) : Option (System A) := do
  let s ← s.processAcquire p
  some { s with held := update s.held p (s.held p + 1) }

def release (s : System A) (p : A) : Option (System A) :=
  freeProcess { s with held := update s.held p (s.held p - 1) } p false

@[irreducible] def firstFree (processes : Nat → Option (Ref A)) : Option Nat :=
  (range maxProcesses).find? fun pid => (processes pid).isNone

def processAddToList (s : System A) : Ref A → Option (System A)
  | .process p =>
    match firstFree s.processes with
    | some pid => do
        let proc ← (s.process p).get
        let s := (s.setEntry pid (some (.process p))).setProcess p { proc with pid }
        s.processAcquire p
    | none => some s
  | .thread t =>
    match firstFree s.processes with
    | some pid => do
        let thr ← (s.thread t).get
        some ((s.setEntry pid (some (.thread t))).setThread t { thr with id := pid })
    | none => some s

def removeProcessEntry (s : System A) (p : A) : Option (System A) := do
  let proc ← (s.process p).get
  if s.processes proc.pid = some (.process p) then do
    let s ← s.freeProcess p true
    let proc ← (s.process p).get
    some (s.setEntry proc.pid none)
  else some s

def processGetById (s : System A) (pid : Nat) : Option (System A) :=
  if maxProcesses ≤ pid then some s
  else
    match s.processes pid with
    | some (.process p) => s.take p
    | some (.thread t) => do
        let _ ← (s.thread t).get
        some s
    | none => some s

def createNewProcess (s : System A) (p : A) : Option A → Option (System A)
  | none => some (s.setProcess p ⟨0, false, 0, 0, none, [], some []⟩)
  | some q => do
      let s := s.setProcess p ⟨0, false, 0, 1, some q, [], some []⟩
      let parent ← (s.process q).get
      let children ← parent.children
      some (s.setProcess q { parent with children := some (children ++ [p]) })

def create (s : System A) (p : A) (memory : Bool) (parent : Option A) : Option (System A) :=
  if memory then do
    let s ← s.createNewProcess p parent
    s.processAddToList (.process p)
  else some s

def createThread (s : System A) (t p : A) : Option (System A) := do
  let s := s.setThread t ⟨0, false, 0, p⟩
  let proc ← (s.process p).get
  let s := s.setProcess p { proc with threads := proc.threads ++ [t] }
  s.processAddToList (.thread t)

def killThread (s : System A) (t : A) : Option (System A) := do
  let thr ← (s.thread t).get
  some (s.setThread t { thr with zombie := true })

/-- At the end the parent gets a signal and its waiting threads are woken up. -/
def exitProcess (s : System A) (p : A) (code : Int) : Option (System A) := do
  let proc ← (s.process p).get
  let s ← proc.threads.foldlM killThread s
  let s := s.setProcess p { proc with code, zombie := true, children := none }
  let q ← proc.parent
  let _ ← (s.process q).get
  some s

def exitThread (s : System A) (t : A) (code : Int) : Option (System A) := do
  let thr ← (s.thread t).get
  let s := s.setThread t { thr with code }
  let proc ← (s.process thr.process).get
  if proc.threads.length = 1 then s.exitProcess thr.process code
  else some (s.setThread t { thr with code, zombie := true })

def findChild (s : System A) (found : Process A → Bool) : List A → Option (Option A)
  | [] => some none
  | c :: rest => do
      let child ← (s.process c).get
      if found child then some (some c) else s.findChild found rest

def findThread (s : System A) (id : Int) : List A → Option (Option A)
  | [] => some none
  | t :: rest => do
      let thr ← (s.thread t).get
      if (thr.id : Int) = id then some (some t) else s.findThread id rest

/-- `process_get_child_by_id` and `process_get_first_zombie` -/
def processGetChild (s : System A) (p : A) (found : Process A → Bool) : Option (Option A × System A) := do
  let proc ← (s.process p).get
  let children ← proc.children
  let c ← s.findChild found children
  match c with
  | some c => do
      let s ← s.take c
      some (some c, s)
  | none => some (none, s)

def processRemoveChild (s : System A) (p c : A) : Option (System A) := do
  let proc ← (s.process p).get
  let children ← proc.children
  (s.setProcess p { proc with children := some (children.erase c) }).freeProcess c false

/-- The end of `sys_wait` for a process. -/
def reapProcess (s : System A) (p c : A) : Option (WaitResult A × System A) := do
  let child ← (s.process c).get
  let s ← s.removeProcessEntry c
  let s := { s with returned := .process c :: s.returned }
  let s ← s.processRemoveChild p c
  let s ← s.release c
  some (.reaped (.process c) child.pid child.code, s)

/-- The end of `sys_wait` for a thread. -/
def reapThread (s : System A) (p t : A) : Option (WaitResult A × System A) := do
  let thr ← (s.thread t).get
  let s ← s.removeThreadEntry t
  let s := { s with returned := .thread t :: s.returned }
  let proc ← (s.process p).get
  let s ← (s.setProcess p { proc with threads := proc.threads.erase t }).threadDestroy t
  some (.reaped (.thread t) thr.id thr.code, s)

def waitMore (nohang : Bool) : WaitResult A := if nohang then .nothing else .asleep

/-- One round of the loop of `sys_wait`. -/
def sysWait (s : System A) (p : A) (id : Int) (nohang : Bool) : Option (WaitResult A × System A) :=
  if 0 < id then do
    let (c, s) ← s.processGetChild p fun child => child.pid = id
    match c with
    | some c => do
        let child ← (s.process c).get
        if child.zombie then s.reapProcess p c
        else do
          let s ← s.release c
          some (waitMore nohang, s)
    | none => do
        let proc ← (s.process p).get
        let t ← s.findThread id proc.threads
        match t with
        | some t => do
            let thr ← (s.thread t).get
            if thr.zombie then s.reapThread p t else some (waitMore nohang, s)
        | none => some (.noChild, s)
  else if id = -1 then do
    let (c, s) ← s.processGetChild p fun child => child.zombie
    match c with
    | some c => s.reapProcess p c
    | none => some (waitMore nohang, s)
  else some (.invalid, s)

def step (s : System A) : ProcessOp A → Option (System A)
  | .create p memory parent => s.create p memory parent
  | .createThread t p => s.createThread t p
  | .exitProcess p code => s.exitProcess p code
  | .exitThread t code => s.exitThread t code
  | .wait p id nohang => (s.sysWait p id nohang).map Prod.snd
  | .getById pid => s.processGetById pid
  | .free p => s.release p

def Running (s : System A) (p : A) : Prop := ∃ proc, s.process p = .object proc ∧ proc.zombie = false

/-- Calls that can be made: new objects are in unused memory, and processes act until they exit. -/
def Enabled (s : System A) : ProcessOp A → Prop
  | .create p _ parent => s.process p = .unused ∧ ∀ q, parent = some q → s.Running q
  | .createThread t p => s.thread t = .unused ∧ s.Running p
  | .exitProcess p _ => s.Running p
  | .exitThread t _ => ∃ thr, s.thread t = .object thr ∧ thr.zombie = false ∧ s.Running thr.process
  | .wait p _ _ => s.Running p
  | .getById _ => True
  | .free p => 0 < s.held p

def ParentThere (s : System A) (p : A) : Prop :=
  ∃ proc q, s.process p = .object proc ∧ proc.parent = some q ∧ (.process q ∉ s.returned ∨ 0 < s.held q)

def HasRoom (s : System A) : Prop := ∃ pid < maxProcesses, s.processes pid = none

/-- New objects find a free entry, and a process that exits has its parent. -/
def Fits (s : System A) : ProcessOp A → Prop
  | .create _ memory _ => memory = true → s.HasRoom
  | .createThread _ _ => s.HasRoom
  | .exitProcess p _ => s.ParentThere p
  | .exitThread t _ => ∀ thr proc, s.thread t = .object thr → s.process thr.process = .object proc →
      proc.threads.length = 1 → s.ParentThere thr.process
  | _ => True

def pidOf (s : System A) : Ref A → Option Nat
  | .process p => (s.process p).get.map (·.pid)
  | .thread t => (s.thread t).get.map (·.id)

/-- The table, the list of a parent or a caller refers to the process. -/
def Referred (s : System A) (p : A) : Prop :=
  (∃ pid, s.processes pid = some (.process p)) ∨
    (∃ q proc l, s.process q = .object proc ∧ proc.children = some l ∧ p ∈ l) ∨ 0 < s.held p

structure Sound (s : System A) : Prop where
  entry : ∀ r pid, s.pidOf r = some pid → r ∉ s.returned → s.processes pid = some r
  distinct : ∀ r r' pid, s.pidOf r = some pid → s.pidOf r' = some pid → r ∉ s.returned → r' ∉ s.returned → r = r'
  once : s.returned.Nodup
  freed : ∀ p, s.process p ≠ .unused → (s.process p = .freed ↔ ¬ s.Referred p)

/-- A process has a reference from the table and one from its parent until it has been waited for. -/
def links (s : System A) (p : A) (proc : Process A) : Nat :=
  if .process p ∈ s.returned then 0 else if proc.parent.isSome then 2 else 1

structure Good (s : System A) (p : A) (proc : Process A) : Prop where
  reaped : .process p ∈ s.returned → proc.zombie = true
  listed : proc.children = none ↔ proc.zombie = true
  children : ∀ l, proc.children = some l → l.Nodup ∧
    ∀ c ∈ l, .process c ∉ s.returned ∧ ∃ child, s.process c = .object child ∧ child.parent = some p
  parent : ∀ q, proc.parent = some q → s.process q ≠ .unused
  nodup : proc.threads.Nodup
  threads : ∀ t ∈ proc.threads, ∃ thr, s.thread t = .object thr ∧ thr.process = p ∧
    (proc.zombie = true → thr.zombie = true)

structure Inv (s : System A) : Prop where
  entry : ∀ pid r, s.processes pid = some r ↔ s.pidOf r = some pid ∧ r ∉ s.returned
  unused : ∀ p, s.process p = .unused → .process p ∉ s.returned ∧ s.held p = 0
  freed : ∀ p, s.process p = .freed ↔ .process p ∈ s.returned ∧ s.held p = 0
  thread : ∀ t, .thread t ∈ s.returned → s.thread t = .freed
  once : s.returned.Nodup
  refs : ∀ p proc, s.process p = .object proc → proc.refs = s.links p proc + s.held p
  good : ∀ p proc, s.process p = .object proc → s.Good p proc

theorem Inv.init : (System.init : System A).Inv where
  entry pid r := by
    constructor
    · intro hentry
      cases hentry
    · rintro ⟨hpid, -⟩
      cases r with
      | process p | thread t => cases hpid
  unused p _ := ⟨not_mem_nil, rfl⟩
  freed p := by
    constructor
    · intro hfreed
      cases hfreed
    · rintro ⟨hmem, -⟩
      cases hmem
  thread t h := absurd h not_mem_nil
  once := nodup_nil
  refs p proc h := by cases h
  good p proc h := by cases h

namespace Inv

variable {s : System A} {p : A}

theorem exists_object (hinv : s.Inv) (hmade : s.process p ≠ .unused)
    (hthere : .process p ∉ s.returned ∨ 0 < s.held p) : ∃ proc, s.process p = .object proc := by
  cases hp : s.process p with
  | unused => exact absurd hp hmade
  | object proc => exact ⟨proc, rfl⟩
  | freed =>
    obtain ⟨hreturned, hheld⟩ := (hinv.freed p).mp hp
    obtain hnot | hpos := hthere
    · exact absurd hreturned hnot
    · omega

theorem sound (hinv : s.Inv) : s.Sound where
  entry r pid hpid hr := (hinv.entry pid r).mpr ⟨hpid, hr⟩
  distinct r r' pid hpid hpid' hr hr' := by
    have hentry := (hinv.entry pid r).mpr ⟨hpid, hr⟩
    rw [(hinv.entry pid r').mpr ⟨hpid', hr'⟩] at hentry
    exact (Option.some.inj hentry).symm
  once := hinv.once
  freed p hmade := by
    constructor
    · intro hfreed
      obtain ⟨hreturned, hheld⟩ := (hinv.freed p).mp hfreed
      rintro (⟨pid, hentry⟩ | ⟨q, proc, l, hq, hl, hmem⟩ | hpos)
      · exact ((hinv.entry pid _).mp hentry).2 hreturned
      · exact (((hinv.good q proc hq).children l hl).2 p hmem).1 hreturned
      · omega
    · intro hnot
      by_contra hfreed
      have hheld : s.held p = 0 := Nat.eq_zero_of_not_pos fun hpos => hnot (.inr (.inr hpos))
      have hreturned : .process p ∉ s.returned := fun h => hfreed ((hinv.freed p).mpr ⟨h, hheld⟩)
      obtain ⟨proc, hp⟩ := hinv.exists_object hmade (.inl hreturned)
      refine hnot (.inl ⟨proc.pid, (hinv.entry _ _).mpr ⟨?_, hreturned⟩⟩)
      rw [pidOf, hp]
      rfl

end Inv

end System

end Kairax.Proc.Tree
