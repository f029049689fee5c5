import Mathlib.Data.Fintype.Card
import Mathlib.Data.Fintype.Basic
import Kairax.Lib.Run

/-!
# Futexes

`futex_wait` and `futex_wake` of the threads of one process, with the sections that hold a lock and the accesses to
the futex word as steps. Two threads can make two objects, an object can be found again between its last reference and
its removal, and a wake-up can come between the comparison and the sleep. `scheduler_wakeup_intrusive` reads the head
of the queue before it takes the lock; here the read and the loop are one step.
-/

namespace Kairax.Proc

open Lib Option Finset Function

/-- `INT_MAX` -/
def intMax : Nat := 0x7fffffff

inductive Place (A : Type*)
  | idle
  /-- The word had the expected value. -/
  | checked (a : A)
  /-- There was no object. -/
  | missing (a : A)
  | holding (a : A) (k : Nat)
  | asleep (a : A) (k : Nat)
  /-- `futex_wake` has found the object. -/
  | waking (a : A) (k max : Nat)
  /-- Before `futex_free`. -/
  | leaving (k : Nat)
  /-- In `futex_free`, with the last reference gone. -/
  | dropped (k : Nat)
  deriving DecidableEq

variable {k : Nat} {refs : Nat → Int}

namespace Place

variable {A : Type*} {p : Place A}

def ref : Place A → Option Nat
  | holding _ k => some k
  | asleep _ k => some k
  | waking _ k _ => some k
  | leaving k => some k
  | _ => none

def target : Place A → Option (A × Nat)
  | holding a k => some (a, k)
  | asleep a k => some (a, k)
  | waking a k _ => some (a, k)
  | _ => none

/-- The address of a `futex_wait` between the comparison and the sleep. -/
def gap : Place A → Option A
  | checked a => some a
  | missing a => some a
  | holding a _ => some a
  | _ => none

/-- The address of a `futex_wait` from the comparison to the wake-up. -/
def waits : Place A → Option A
  | asleep a _ => some a
  | p => p.gap

/-- The address that a `futex_wait` will look up. -/
def lookup : Place A → Option A
  | checked a => some a
  | _ => none

def doomed : Place A → Option Nat
  | dropped k => some k
  | _ => none

theorem ref_of_target {a : A} (htarget : p.target = some (a, k)) : p.ref = some k := by
  cases p with
  | holding b j | asleep b j | waking b j m => exact congrArg (Option.map Prod.snd) htarget
  | _ => cases htarget

theorem gap_or_asleep {a : A} (hwaits : p.waits = some a) : p.gap = some a ∨ ∃ k, p = .asleep a k := by
  cases p with
  | asleep b k => exact .inr ⟨k, by rw [some.inj hwaits]⟩
  | _ => exact .inl hwaits

theorem waits_of_gap {a : A} (hgap : p.gap = some a) : p.waits = some a ∧ ∀ b k, p ≠ .asleep b k := by
  cases p with
  | checked b | missing b | holding b k => exact ⟨hgap, fun _ _ h => by cases h⟩
  | _ => cases hgap

end Place

/-- `struct futex` -/
structure FutexObj (T A : Type*) where
  addr : A
  refs : Int
  sleepers : List T
  live : Bool

/-- The futex words, the list of the objects and the threads. What follows `next` is a record of the history: the
expected values, the threads whose word changed after their comparison, those that a wake-up of all is for, and those it
has passed. -/
structure Futexes (T A : Type*) where
  word : A → Int
  pc : T → Place A
  futexList : List Nat
  objs : Nat → FutexObj T A
  next : Nat
  expected : T → Int
  changed : T → Bool
  owed : T → T → Bool
  passed : T → Bool

inductive FutexOp (T A : Type*)
  | store (a : A) (v : Int)
  | read (t : T) (a : A) (val : Int)
  | find (t : T)
  | create (t : T)
  | sleep (t : T)
  | interrupt (t : T)
  | findWaker (t : T) (a : A) (max : Nat)
  | wake (t : T)
  | release (t : T)
  | free (t : T)

namespace Futexes

variable {T A : Type*}

section

variable [DecidableEq T] [DecidableEq A]

def go (s : Futexes T A) (t : T) (p : Place A) : Futexes T A := { s with pc := update s.pc t p }

def setObj (s : Futexes T A) (k : Nat) (obj : FutexObj T A) : Futexes T A :=
  { s with objs := update s.objs k obj }

/-- `process_get_futex` before the reference is taken. -/
def processGetFutex (s : Futexes T A) (a : A) : Option Nat := s.futexList.find? fun k => (s.objs k).addr = a

def acquire (s : Futexes T A) (k : Nat) : Futexes T A := s.setObj k { s.objs k with refs := (s.objs k).refs + 1 }

/-- `new_futex`, which is entered into the list. -/
def make (s : Futexes T A) (t : T) (a : A) : Futexes T A :=
  { (s.setObj s.next ⟨a, 1, [], true⟩).go t (.holding a s.next) with
    futexList := s.futexList ++ [s.next], next := s.next + 1 }

/-- `futex_free` up to the lock. -/
def drop (s : Futexes T A) (t : T) (k : Nat) : Futexes T A :=
  (s.setObj k { s.objs k with refs := (s.objs k).refs - 1 }).go t
    (if (s.objs k).refs - 1 ≤ 0 then .dropped k else .idle)

/-- The rest of `futex_free`. -/
def remove (s : Futexes T A) (t : T) (k : Nat) : Futexes T A :=
  { (s.setObj k { s.objs k with live := false }).go t .idle with futexList := s.futexList.erase k }

def enqueue (s : Futexes T A) (t : T) (a : A) (k : Nat) : Futexes T A :=
  (s.setObj k { s.objs k with sleepers := (s.objs k).sleepers ++ [t] }).go t (.asleep a k)

def wakeOne (k : Nat) (s : Futexes T A) (t : T) : Futexes T A :=
  (s.setObj k { s.objs k with sleepers := (s.objs k).sleepers.erase t }).go t (.leaving k)

def store (s : Futexes T A) (a : A) (v : Int) : Futexes T A :=
  { s with
    word := update s.word a v
    changed := fun t => s.changed t || decide ((s.pc t).waits = some a ∧ v ≠ s.expected t) }

/-- The start of `futex_wait`, if the word has the expected value. -/
def begin (s : Futexes T A) (t : T) (a : A) (val : Int) : Futexes T A :=
  { s.go t (.checked a) with
    expected := update s.expected t val
    changed := update s.changed t false
    owed := fun u => update (s.owed u) t false
    passed := update s.passed t false }

/-- The waiting threads for which another value was stored are those that a wake-up of all threads is for. -/
def owes (s : Futexes T A) (a : A) (max : Nat) (t : T) : Bool :=
  decide (max = intMax ∧ (s.pc t).waits = some a) && s.changed t

def beginWake (s : Futexes T A) (t : T) (a : A) (k max : Nat) : Futexes T A :=
  { (s.acquire k).go t (.waking a k max) with owed := update s.owed t (s.owes a max) }

def pass (s : Futexes T A) (owed : T → Bool) : Futexes T A := { s with passed := fun t => s.passed t || owed t }

/-- A step of a thread that is at that place. Nothing is defined on an object that was freed. -/
def step (s : Futexes T A) : FutexOp T A → Option (Futexes T A)
  | .store a v => some (s.store a v)
  | .read t a val =>
    if s.pc t = .idle then if s.word a = val then some (s.begin t a val) else some s else none
  | .find t =>
    match s.pc t with
    | .checked a =>
      match s.processGetFutex a with
      | none => some (s.go t (.missing a))
      | some k => some ((s.acquire k).go t (.holding a k))
    | _ => none
  | .create t =>
    match s.pc t with
    | .missing a => some (s.make t a)
    | _ => none
  | .sleep t =>
    match s.pc t with
    | .holding a k =>
      if (s.objs k).live then some (s.enqueue t a k) else none
    | _ => none
  | .interrupt t =>
    match s.pc t with
    | .asleep _ k => if (s.objs k).live then some (s.wakeOne k t) else none
    | _ => none
  | .findWaker t a max =>
    if s.pc t = .idle then
      match s.processGetFutex a with
      | none => some (s.pass (s.owes a max))
      | some k => some (s.beginWake t a k max)
    else none
  | .wake t =>
    match s.pc t with
    | .waking _ k max =>
      if (s.objs k).live then
        some (((((s.objs k).sleepers.take max).foldl (wakeOne k) s).go t (.leaving k)).pass (s.owed t))
      else none
    | _ => none
  | .release t =>
    match s.pc t with
    | .leaving k =>
      if (s.objs k).live then some (s.drop t k) else none
    | _ => none
  | .free t =>
    match s.pc t with
    | .dropped k =>
      if (s.objs k).live then some (s.remove t k) else none
    | _ => none

def start [Inhabited A] (word : A → Int) : Futexes T A :=
  ⟨word, fun _ => .idle, [], fun _ => ⟨default, 0, [], false⟩, 0, fun _ => 0, fun _ => false, fun _ _ => false,
    fun _ => false⟩

/-- An address has one object, an object in use is not freed, and no thread is asleep that a wake-up of all has passed.
-/
structure Sound (s : Futexes T A) : Prop where
  unique : (s.futexList.map fun k => (s.objs k).addr).Nodup
  live : ∀ t k, (s.pc t).ref = some k → (s.objs k).live = true
  heard : ∀ t a k, s.pc t = .asleep a k → s.passed t = false

def Doomed (s : Futexes T A) : Prop := ∃ ops s', Run step (fun _ _ => True) s ops s' ∧ ¬ Sound s'

def Dropping (s : Futexes T A) (a : A) : Prop := ∃ u, ∃ k ∈ (s.pc u).doomed, (s.objs k).addr = a

/-- No lookup comes while another thread is about to make the object of the address, or between its last reference and
its removal. No wake-up of all begins while another thread has compared the word before a different value was stored,
and is not yet asleep. -/
def Undisturbed (s : Futexes T A) : FutexOp T A → Prop
  | .find t => ∀ a ∈ (s.pc t).lookup, (∀ u, s.pc u ≠ .missing a) ∧ ¬ s.Dropping a
  | .findWaker _ a max =>
    ¬ s.Dropping a ∧ (max = intMax → ∀ t, (s.pc t).gap = some a → s.changed t = false)
  | _ => True

instance decidableDropping [Fintype T] (s : Futexes T A) (a : A) : Decidable (s.Dropping a) := by
  unfold Dropping
  infer_instance

instance decidableUndisturbed [Fintype T] (s : Futexes T A) (op : FutexOp T A) : Decidable (Undisturbed s op) := by
  cases op <;> (unfold Undisturbed; infer_instance)

end

def refCount [Fintype T] (pc : T → Place A) (k : Nat) : Nat := (univ.filter fun t => (pc t).ref = some k).card

theorem refCount_update [DecidableEq T] [Fintype T] (pc : T → Place A) (t : T) (p : Place A) (k : Nat) :
    refCount (update pc t p) k + (if (pc t).ref = some k then 1 else 0) =
      refCount pc k + (if p.ref = some k then 1 else 0) := by
  have hrest : (univ.filter fun u => (update pc t p u).ref = some k).erase t =
      (univ.filter fun u => (pc u).ref = some k).erase t := by
    ext u
    rw [mem_erase, mem_erase, mem_filter, mem_filter]
    refine and_congr_right fun hne => ?_
    rw [update_of_ne hne]
  have hcount (f : T → Place A) : refCount f k =
      ((univ.filter fun u => (f u).ref = some k).erase t).card + (if (f t).ref = some k then 1 else 0) := by
    rw [refCount]
    split_ifs with h
    · exact (card_erase_add_one (mem_filter.mpr ⟨mem_univ t, h⟩)).symm
    · have hout : t ∉ univ.filter fun u => (f u).ref = some k := fun hmem => h (mem_filter.mp hmem).2
      rw [erase_eq_of_notMem hout, Nat.add_zero]
  rw [hcount pc, hcount (update pc t p), hrest, update_self]
  omega

theorem refCount_pos [Fintype T] {pc : T → Place A} {t : T} (href : (pc t).ref = some k) : 0 < refCount pc k :=
  card_pos.mpr ⟨t, mem_filter.mpr ⟨mem_univ t, href⟩⟩

/-- The objects in the list are those that are alive, one for an address. -/
structure Objects (s : Futexes T A) : Prop where
  nodup : s.futexList.Nodup
  unique : ∀ k ∈ s.futexList, ∀ j ∈ s.futexList, (s.objs k).addr = (s.objs j).addr → k = j
  below : ∀ k ∈ s.futexList, k < s.next
  live : ∀ k, (s.objs k).live = true ↔ k ∈ s.futexList

/-- The threads point to objects in the list, whose counters and queues are right. One thread at most is about to make
or to remove an object. -/
structure Places [Fintype T] (s : Futexes T A) : Prop where
  ref : ∀ t k, (s.pc t).ref = some k → k ∈ s.futexList
  target : ∀ t a k, (s.pc t).target = some (a, k) → (s.objs k).addr = a
  dropped : ∀ t k, s.pc t = .dropped k →
    k ∈ s.futexList ∧ (s.objs k).refs = 0 ∧ ∀ u, s.pc u = .dropped k → u = t
  missing : ∀ t a, s.pc t = .missing a →
    (∀ k ∈ s.futexList, (s.objs k).addr ≠ a) ∧ ∀ u, s.pc u = .missing a → u = t
  counts : ∀ k ∈ s.futexList, (s.objs k).refs = refCount s.pc k
  sleepers : ∀ k ∈ s.futexList,
    (s.objs k).sleepers.Nodup ∧ ∀ t, t ∈ (s.objs k).sleepers ↔ ∃ a, s.pc t = .asleep a k

/-- No thread that waits was passed, and a wake-up in progress will find the threads that it is for. -/
structure Heard (s : Futexes T A) : Prop where
  passed : ∀ t a, (s.pc t).waits = some a → s.passed t = false
  owed : ∀ u t a k max, s.pc u = .waking a k max → s.owed u t = true →
    max = intMax ∧ ∀ b, (s.pc t).waits = some b → s.pc t = .asleep a k

section Move

variable {s s' : Futexes T A} {t : T} {p : Place A}

/-- The object is in the list, and the thread has a reference to it, or nobody is about to remove it. -/
def Takes (s : Futexes T A) (t : T) (k : Nat) : Prop :=
  k ∈ s.futexList ∧ ((s.pc t).ref = some k ∨ ∀ u, s.pc u ≠ .dropped k)

def Fits (s : Futexes T A) (refs : Nat → Int) (t : T) : Place A → Prop
  | .idle => True
  | .checked _ => True
  | .missing a => (∀ k ∈ s.futexList, (s.objs k).addr ≠ a) ∧ ∀ u ≠ t, s.pc u ≠ .missing a
  | .holding a k => s.Takes t k ∧ (s.objs k).addr = a
  | .asleep a k => s.Takes t k ∧ (s.objs k).addr = a
  | .waking a k _ => s.Takes t k ∧ (s.objs k).addr = a
  | .leaving k => s.Takes t k
  | .dropped k => k ∈ s.futexList ∧ refs k = 0 ∧ ∀ u ≠ t, s.pc u ≠ .dropped k

theorem Fits.ref (hfits : s.Fits refs t p) (hk : p.ref = some k) : s.Takes t k := by
  cases p with
  | holding b j | asleep b j | waking b j m => exact some.inj hk ▸ hfits.1
  | leaving j => exact some.inj hk ▸ hfits
  | _ => cases hk

theorem Fits.target {a : A} (hfits : s.Fits refs t p) (hk : p.target = some (a, k)) : (s.objs k).addr = a := by
  cases p with
  | holding b j | asleep b j | waking b j m =>
    cases hk
    exact hfits.2
  | _ => cases hk

variable [DecidableEq T]

theorem Places.move [Fintype T] (hplaces : Places s) (hlist : s'.futexList = s.futexList)
    (hpc : s'.pc = update s.pc t p) (haddr : ∀ k, (s'.objs k).addr = (s.objs k).addr)
    (hfits : s.Fits (fun k => (s'.objs k).refs) t p)
    (hcounts : ∀ k ∈ s.futexList, (s'.objs k).refs + (if (s.pc t).ref = some k then 1 else 0) =
      (s.objs k).refs + (if p.ref = some k then 1 else 0)) (hsleepers : ∀ k ∈ s.futexList, (s'.objs k).sleepers.Nodup ∧
      (∀ u ≠ t, u ∈ (s'.objs k).sleepers ↔ u ∈ (s.objs k).sleepers) ∧
      (t ∈ (s'.objs k).sleepers ↔ ∃ a, p = .asleep a k)) : Places s' := by
  have hself : s'.pc t = p := by rw [hpc, update_self]
  have hother {u : T} (hu : u ≠ t) : s'.pc u = s.pc u := by rw [hpc, update_of_ne hu]
  have hcount (k : Nat) (hk : k ∈ s.futexList) : (s'.objs k).refs = refCount s'.pc k := by
    have hold := hplaces.counts k hk
    have hnew := hcounts k hk
    have hupdate := refCount_update s.pc t p k
    rw [← hpc] at hupdate
    split_ifs at hnew hupdate <;> omega
  refine ⟨fun u k hu => ?_, fun u a k hu => ?_, fun u k hu => ?_, fun u a hu => ?_, fun k hk => ?_, fun k hk => ?_⟩
  · rw [hlist]
    by_cases hut : u = t
    · rw [hut, hself] at hu
      exact (hfits.ref hu).1
    · rw [hother hut] at hu
      exact hplaces.ref u k hu
  · rw [haddr]
    by_cases hut : u = t
    · rw [hut, hself] at hu
      exact hfits.target hu
    · rw [hother hut] at hu
      exact hplaces.target u a k hu
  · rw [hlist]
    by_cases hut : u = t
    · rw [hut, hself] at hu
      rw [hu] at hfits
      obtain ⟨hk, hzero, hunique⟩ := hfits
      refine ⟨hk, hzero, fun v hv => ?_⟩
      by_contra hvu
      rw [hut] at hvu
      exact hunique v hvu (hother hvu ▸ hv)
    · rw [hother hut] at hu
      obtain ⟨hk, hzero, hunique⟩ := hplaces.dropped u k hu
      refine ⟨hk, ?_, fun v hv => ?_⟩
      · -- Nobody has a reference, and nobody gets one.
        have hcount := hplaces.counts k hk
        have hold : (s.pc t).ref ≠ some k := fun h => by
          have := refCount_pos h
          omega
        have hnew : p.ref ≠ some k := fun h => (hfits.ref h).2.elim hold fun hnone => hnone u hu
        have hsum := hcounts k hk
        rw [if_neg hold, if_neg hnew] at hsum
        omega
      · by_cases hvt : v = t
        · rw [hvt, hself] at hv
          rw [hv] at hfits
          exact absurd hu (hfits.2.2 u hut)
        · exact hunique v (hother hvt ▸ hv)
  · rw [hlist]
    by_cases hut : u = t
    · rw [hut, hself] at hu
      rw [hu] at hfits
      obtain ⟨hnone, hunique⟩ := hfits
      refine ⟨fun k hk => haddr k ▸ hnone k hk, fun v hv => ?_⟩
      by_contra hvu
      rw [hut] at hvu
      exact hunique v hvu (hother hvu ▸ hv)
    · rw [hother hut] at hu
      obtain ⟨hnone, hunique⟩ := hplaces.missing u a hu
      refine ⟨fun k hk => haddr k ▸ hnone k hk, fun v hv => ?_⟩
      by_cases hvt : v = t
      · rw [hvt, hself] at hv
        rw [hv] at hfits
        exact absurd hu (hfits.2 u hut)
      · exact hunique v (hother hvt ▸ hv)
  · rw [hlist] at hk
    exact hcount k hk
  · rw [hlist] at hk
    obtain ⟨hnodup, hkeep, hnew⟩ := hsleepers k hk
    refine ⟨hnodup, fun u => ?_⟩
    by_cases hut : u = t
    · rw [hut, hself, hnew]
    · rw [hother hut, hkeep u hut, (hplaces.sleepers k hk).2]

theorem Heard.change (hheard : Heard s) (hpc : s'.pc = update s.pc t p) (hpassed : ∀ u ≠ t, s'.passed u = s.passed u)
    (hnow : ∀ a, p.waits = some a → s'.passed t = false)
    (howed : ∀ u ≠ t, ∀ v, s'.owed u v = true → s.owed u v = true)
    (hwaiter : ∀ u a, s'.owed u t = true → p.waits = some a → (s.pc t).gap = some a)
    (hwaker : ∀ v a k max, p = .waking a k max → s'.owed t v = true → max = intMax ∧ s'.pc v = .asleep a k) :
    Heard s' := by
  have hself : s'.pc t = p := by rw [hpc, update_self]
  have hother {u : T} (hu : u ≠ t) : s'.pc u = s.pc u := by rw [hpc, update_of_ne hu]
  refine ⟨fun u a hu => ?_, fun u v a k max hu hv => ?_⟩
  · by_cases hut : u = t
    · rw [hut] at hu ⊢
      exact hnow a (hself ▸ hu)
    · rw [hother hut] at hu
      exact (hpassed u hut).trans (hheard.passed u a hu)
  · by_cases hut : u = t
    · rw [hut] at hu hv
      obtain ⟨hmax, hasleep⟩ := hwaker v a k max (hself.symm.trans hu) hv
      exact ⟨hmax, fun _ _ => hasleep⟩
    · rw [hother hut] at hu
      obtain ⟨hmax, hasleep⟩ := hheard.owed u v a k max hu (howed u hut v hv)
      refine ⟨hmax, fun b hb => ?_⟩
      by_cases hvt : v = t
      · rw [hvt] at hb hv hasleep
        obtain ⟨hwait, hnot⟩ := Place.waits_of_gap (hwaiter u b hv (hself ▸ hb))
        exact absurd (hasleep b hwait) (hnot a k)
      · rw [hother hvt] at hb ⊢
        exact hasleep b hb

theorem Heard.move (hheard : Heard s) (hpc : s'.pc = update s.pc t p) (howed : s'.owed = s.owed)
    (hpassed : s'.passed = s.passed) (hwaits : ∀ a, p.waits = some a → (s.pc t).gap = some a)
    (hwaking : ∀ a k max, p ≠ .waking a k max) : Heard s' := by
  refine hheard.change hpc (fun u _ => congrFun hpassed u) (fun a ha => ?_) (fun u _ v hv => howed ▸ hv)
    (fun u a _ ha => hwaits a ha) fun v a k max hp => absurd hp (hwaking a k max)
  rw [hpassed]
  exact hheard.passed t a (Place.waits_of_gap (hwaits a ha)).1

end Move

theorem Objects.congr {s s' : Futexes T A} (hobjects : Objects s) (hlist : s'.futexList = s.futexList)
    (hnext : s'.next = s.next) (haddr : ∀ k, (s'.objs k).addr = (s.objs k).addr)
    (hlive : ∀ k, (s'.objs k).live = (s.objs k).live) : Objects s' := by
  refine ⟨hlist ▸ hobjects.nodup, fun k hk j hj hsame => ?_, fun k hk => ?_, fun k => ?_⟩
  · rw [hlist] at hk hj
    rw [haddr, haddr] at hsame
    exact hobjects.unique k hk j hj hsame
  · rw [hlist] at hk
    exact hnext ▸ hobjects.below k hk
  · rw [hlist, hlive]
    exact hobjects.live k

theorem setObj_kept {β : Type*} (f : FutexObj T A → β) (s : Futexes T A) {obj : FutexObj T A}
    (hkeep : f obj = f (s.objs k)) (j : Nat) : f ((s.setObj k obj).objs j) = f (s.objs j) := by
  show f (update s.objs k obj j) = _
  by_cases hj : j = k
  · rw [hj, update_self, hkeep]
  · rw [update_of_ne hj]

end Futexes

end Kairax.Proc
