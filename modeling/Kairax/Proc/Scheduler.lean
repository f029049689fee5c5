import Mathlib.Data.Fintype.Card
import Kairax.Lib.Intrusive
import Kairax.Lib.Run

/-!
# The queues of the scheduler

The run queue and the queues of the blockers, linked through the threads (`thread_scheduler.c`). A thread counts as
linked if it has a neighbour, so a thread that sleeps alone on a blocker counts as free, and adding it to the run
queue leaves it in both.
-/

namespace Kairax.Proc

open Lib List Option Function

inductive ThreadState
  | running
  | runnable
  | interruptibleSleep
  | uninterruptibleSleep
  | zombie
  | stopped
  deriving DecidableEq

def ThreadState.asleep : ThreadState → Bool
  | interruptibleSleep => true
  | uninterruptibleSleep => true
  | _ => false

section Intrusive

variable {T : Type*} [DecidableEq T]

/-- A link is written through a pointer that can be null, after a test. -/
def setPrev (link : T → Link T) (t prev : Option T) : T → Link T :=
  t.elim link fun t => update link t { link t with prev }

def setNext (link : T → Link T) (t next : Option T) : T → Link T :=
  t.elim link fun t => update link t { link t with next }

/-- `thread_intrusive_add`, with the flag that it has returned 0. A list that has a head and no tail is a fault. -/
def threadIntrusiveAdd (link : T → Link T) (ends : Ends T) (t : T) : Option (Bool × (T → Link T) × Ends T) :=
  if (link t).prev ≠ none ∨ (link t).next ≠ none then some (false, link, ends)
  else
    match ends.head, ends.tail with
    | none, _ => some (true, setNext (setPrev link (some t) none) (some t) none, ⟨some t, some t⟩)
    | some _, none => none
    | some head, some tail =>
      some (true, setNext (setPrev (setNext link (some tail) (some t)) (some t) (some tail)) (some t) none,
        ⟨some head, some t⟩)

/-- `thread_intrusive_remove` -/
def threadIntrusiveRemove (link : T → Link T) (ends : Ends T) (t : T) : (T → Link T) × Ends T :=
  let prev := (link t).prev
  let next := (link t).next
  let link := setPrev (setNext link prev next) next prev
  let link := if ends.head = some t then setPrev link next none else link
  let link := if ends.tail = some t then setNext link prev none else link
  (setPrev (setNext link (some t) none) (some t) none,
    ⟨if ends.head = some t then next else ends.head, if ends.tail = some t then prev else ends.tail⟩)

end Intrusive

/-- The threads, the run queue and the queues of the blockers. The run queue is that of no blocker. -/
structure Sched (T B : Type*) where
  link : T → Link T
  inQueue : T → Bool
  state : T → ThreadState
  blocker : T → Option B
  queue : Option B → Ends T
  size : Nat

namespace Sched

variable {T B : Type*} [DecidableEq T] [DecidableEq B]

def wqAddThread (s : Sched T B) (t : T) : Option (Sched T B) :=
  if s.inQueue t then some s
  else
    (threadIntrusiveAdd s.link (s.queue none) t).map fun r =>
      if r.1 then
        { s with
          link := r.2.1
          queue := update s.queue none r.2.2
          size := s.size + 1
          inQueue := update s.inQueue t true }
      else s

def wqRemoveThread (s : Sched T B) (t : T) : Sched T B :=
  if s.inQueue t = false then s
  else if s.size = 0 then s
  else
    let r := threadIntrusiveRemove s.link (s.queue none) t
    { s with
      link := r.1
      queue := update s.queue none r.2
      size := s.size - 1
      inQueue := update s.inQueue t false }

def setState (s : Sched T B) (t : T) (state : ThreadState) : Sched T B :=
  { s with state := update s.state t state }

def leave (s : Sched T B) (b : B) (t : T) : Sched T B :=
  let r := threadIntrusiveRemove s.link (s.queue (some b)) t
  { s with
    link := r.1
    queue := update s.queue (some b) r.2
    blocker := update s.blocker t none }

/-- `scheduler_sleep_on` up to the switch to another thread. -/
def schedulerSleepOn (s : Sched T B) (t : T) (b : B) : Option (Sched T B) :=
  let s := { s with blocker := update s.blocker t (some b) }
  let s := (s.setState t .interruptibleSleep).wqRemoveThread t
  (threadIntrusiveAdd s.link (s.queue (some b)) t).map fun r =>
    { s with link := r.2.1, queue := update s.queue (some b) r.2.2 }

/-- `scheduler_sleep` up to the switch to another thread. -/
def schedulerSleep (s : Sched T B) (t : T) : Sched T B :=
  (s.setState t .interruptibleSleep).wqRemoveThread t

/-- The end of a wake-up: `wq_add_thread` and `scheduler_unblock`. -/
def unblock (s : Sched T B) (t : T) : Option (Sched T B) := (s.wqAddThread t).map fun s => s.setState t .runnable

/-- The loop of `scheduler_wakeup_intrusive` over the queue of a blocker. -/
def wakeLoop (b : B) (max : Nat) : Nat → Sched T B → Option T → Nat → Option (Nat × Sched T B)
  | 0, _, _, _ => none
  | _ + 1, s, none, unblocked => some (unblocked, s)
  | fuel + 1, s, some t, unblocked =>
    let next := (s.link t).next
    if unblocked < max then
      let s := s.leave b t
      if (s.state t).asleep then (s.unblock t).bind fun s => wakeLoop b max fuel s next (unblocked + 1)
      else wakeLoop b max fuel s next unblocked
    else wakeLoop b max fuel s next unblocked

/-- `scheduler_wake`. A queue without an end is a loop without one. -/
def schedulerWake [Fintype T] (s : Sched T B) (b : B) (max : Nat) : Option (Nat × Sched T B) :=
  wakeLoop b max (Fintype.card T + 1) s (s.queue (some b)).head 0

def schedulerWakeup (s : Sched T B) (t : T) : Option (Sched T B) :=
  if (s.state t).asleep then
    match s.blocker t with
    | none => s.unblock t
    | some b => (s.leave b t).unblock t
  else some s

end Sched

inductive SchedOp (T B : Type*)
  | add (t : T)
  | remove (t : T)
  | sleepOn (t : T) (b : B)
  | sleep (t : T)
  | wake (b : B) (max : Nat)
  | wakeup (t : T)

namespace Sched

variable {T B : Type*} [DecidableEq T] [DecidableEq B] [Fintype T]

def step (s : Sched T B) : SchedOp T B → Option (Sched T B)
  | .add t => s.wqAddThread t
  | .remove t => some (s.wqRemoveThread t)
  | .sleepOn t b => s.schedulerSleepOn t b
  | .sleep t => some (s.schedulerSleep t)
  | .wake b max => (s.schedulerWake b max).map Prod.snd
  | .wakeup t => s.schedulerWakeup t

end Sched

section Intrusive

variable {T I : Type*} [DecidableEq T] [DecidableEq I] {link : T → Link T} {ends : I → Ends T} {nodes : I → List T}
  {t : T}

theorem elim_update_apply (link : T → Link T) (f : Link T → Link T) (o : Option T) (x : T) :
    (o.elim link fun t => update link t (f (link t))) x = if o = some x then f (link x) else link x := by
  cases o with
  | none => rfl
  | some t =>
    show update link t (f (link t)) x = _
    rw [update_apply]
    by_cases hx : x = t
    · rw [if_pos hx, if_pos (congrArg some hx.symm), hx]
    · rw [if_neg hx, if_neg fun h => hx (some.inj h).symm]

theorem setPrev_apply (link : T → Link T) (o prev : Option T) (x : T) :
    setPrev link o prev x = if o = some x then { link x with prev } else link x :=
  elim_update_apply link (fun l => { l with prev }) o x

theorem setNext_apply (link : T → Link T) (o next : Option T) (x : T) :
    setNext link o next x = if o = some x then { link x with next } else link x :=
  elim_update_apply link (fun l => { l with next }) o x

theorem threadIntrusiveAdd_free {l : List T} {e : Ends T} (hqueue : IsQueue link e l) (hfree : link t = .free) :
    ∃ link', threadIntrusiveAdd link e t = some (true, link', ⟨e.head.or (some t), some t⟩) ∧
      (∀ x, link' x = if x = t then ⟨e.tail, none⟩ else if e.tail = some x then { link x with next := some t }
        else link x) := by
  rw [threadIntrusiveAdd, hfree]
  cases hhead : e.head with
  | none =>
    have htail : e.tail = none := hqueue.tail_eq_none.mpr (hqueue.head_eq_none.mp hhead)
    refine ⟨_, rfl, fun x => ?_⟩
    simp only [setNext_apply, setPrev_apply, htail, some.injEq, @eq_comm T t x, if_neg (some_ne_none x).symm]
    split_ifs <;> rfl
  | some head =>
    cases htail : e.tail with
    | none =>
      rw [hqueue.head_eq_none.mpr (hqueue.tail_eq_none.mp htail)] at hhead
      cases hhead
    | some tail =>
      refine ⟨_, rfl, fun x => ?_⟩
      simp only [setNext_apply, setPrev_apply, some.injEq, @eq_comm T t x]
      split_ifs <;> rfl

theorem add_shared (hshared : Shared link ends nodes) (hnew : ∀ j, t ∉ nodes j) (i : I) :
    ∃ link', threadIntrusiveAdd link (ends i) t = some (true, link', ⟨(ends i).head.or (some t), some t⟩) ∧
      Shared link' (update ends i ⟨(ends i).head.or (some t), some t⟩)
        (update nodes i (nodes i ++ [t])) := by
  obtain ⟨link', hadd, hlink⟩ := threadIntrusiveAdd_free (hshared.queue i) (hshared.free t hnew)
  refine ⟨link', hadd, hshared.concat hnew i ?_ ?_ ?_⟩
  · rw [hlink, if_pos rfl]
  · intro x htail
    have hne : x ≠ t := fun h => hnew i (h ▸ hshared.mem_tail htail)
    rw [hlink, if_neg hne, if_pos htail]
  · intro x hne htail
    rw [hlink, if_neg hne, if_neg htail]

theorem setPrev_setPrev (link : T → Link T) (o prev : Option T) :
    setPrev (setPrev link o prev) o prev = setPrev link o prev := by
  funext x
  rw [setPrev_apply, setPrev_apply]
  split_ifs <;> rfl

theorem setNext_setNext (link : T → Link T) (o next : Option T) :
    setNext (setNext link o next) o next = setNext link o next := by
  funext x
  rw [setNext_apply, setNext_apply]
  split_ifs <;> rfl

theorem threadIntrusiveRemove_apply {e : Ends T} (hhead : e.head = some t → (link t).prev = none)
    (htail : e.tail = some t → (link t).next = none) (hapart : ∀ x, (link t).prev = some x → (link t).next ≠ some x)
    (x : T) :
    (threadIntrusiveRemove link e t).1 x =
      if x = t then .free else if (link t).prev = some x then { link x with next := (link t).next }
      else if (link t).next = some x then { link x with prev := (link t).prev } else link x := by
  rw [threadIntrusiveRemove]
  obtain ⟨prev, hprev⟩ : ∃ prev, (link t).prev = prev := ⟨_, rfl⟩
  obtain ⟨next, hnext⟩ : ∃ next, (link t).next = next := ⟨_, rfl⟩
  rw [hprev, hnext] at hapart
  rw [hprev] at hhead
  rw [hnext] at htail
  dsimp only
  rw [hprev, hnext]
  have hfirst : (if e.head = some t then setPrev (setPrev (setNext link prev next) next prev) next none
      else setPrev (setNext link prev next) next prev) = setPrev (setNext link prev next) next prev := by
    split_ifs with h
    · rw [hhead h, setPrev_setPrev]
    · rfl
  have hlast : (if e.tail = some t then setNext (setPrev (setNext link prev next) next prev) prev none
      else setPrev (setNext link prev next) next prev) = setPrev (setNext link prev next) next prev := by
    split_ifs with h
    · rw [htail h]
      exact setNext_setNext link prev none
    · rfl
  rw [hfirst, hlast, setPrev_apply, setNext_apply, setPrev_apply, setNext_apply]
  simp only [some.injEq, @eq_comm T t x]
  by_cases hx : x = t
  · rw [if_pos hx, if_pos hx, if_pos hx]
    rfl
  · rw [if_neg hx, if_neg hx, if_neg hx]
    by_cases hp : prev = some x
    · rw [if_pos hp, if_pos hp, if_neg (hapart x hp)]
    · rw [if_neg hp, if_neg hp]

theorem remove_shared {i : I} (hshared : Shared link ends nodes) (hmem : t ∈ nodes i) :
    Shared (threadIntrusiveRemove link (ends i) t).1
      (update ends i (threadIntrusiveRemove link (ends i) t).2)
      (update nodes i ((nodes i).erase t)) := by
  obtain ⟨hhead, htail, hapart⟩ := hshared.neighbour_none hmem
  have hlink := threadIntrusiveRemove_apply hhead htail hapart
  refine hshared.erase hmem ?_ ?_ ?_ ?_
  · rw [hlink, if_pos rfl]
  · intro x hx
    rw [hlink, if_neg (hshared.mem_neighbour hmem (.inl hx)).2, if_pos hx]
  · intro x hx
    rw [hlink, if_neg (hshared.mem_neighbour hmem (.inr hx)).2, if_neg fun h => hapart x h hx, if_pos hx]
  · intro x hne hprev hnext
    rw [hlink, if_neg hne, if_neg hprev, if_neg hnext]

end Intrusive

namespace Sched

variable {T B : Type*} [DecidableEq T] [DecidableEq B] {s : Sched T B} {nodes : Option B → List T} {t : T} {b : B}

/-- The links and the ends describe one list for every queue, and the flags and the size are those of the run queue. -/
structure Describes (s : Sched T B) (nodes : Option B → List T) : Prop where
  shared : Shared s.link s.queue nodes
  inQueue : ∀ t, s.inQueue t = true ↔ t ∈ nodes none
  size : s.size = (nodes none).length

/-- A thread points to the blocker that it sleeps on. -/
structure Inv (s : Sched T B) (nodes : Option B → List T) : Prop extends Describes s nodes where
  blocker : ∀ t b, s.blocker t = some b ↔ t ∈ nodes (some b)
  asleep : ∀ t b, t ∈ nodes (some b) → (s.state t).asleep = true

omit [DecidableEq B] in
theorem Inv.setState (hinv : Inv s nodes) {st : ThreadState} (hst : st.asleep = true ∨ ∀ b, t ∉ nodes (some b)) :
    Inv (s.setState t st) nodes := by
  refine ⟨{ hinv with }, hinv.blocker, fun x b hx => ?_⟩
  show (update s.state t st x).asleep = true
  by_cases hxt : x = t
  · subst hxt
    rw [update_self]
    exact hst.resolve_right fun hout => hout b hx
  · rw [update_of_ne hxt]
    exact hinv.asleep x b hx

section

variable (hinv : Inv s nodes)
include hinv

theorem Inv.wqAddThread (hnew : ∀ i, t ∉ nodes i) :
    ∃ s', s.wqAddThread t = some s' ∧ Inv s' (update nodes none (nodes none ++ [t])) := by
  obtain ⟨link', hadd, hshared⟩ := add_shared hinv.shared hnew none
  have hflag : ¬ s.inQueue t = true := fun h => hnew none ((hinv.inQueue t).mp h)
  rw [Sched.wqAddThread, if_neg hflag, hadd]
  refine ⟨_, rfl, ⟨⟨hshared, fun x => ?_, ?_⟩, fun x b => ?_, fun x b hx => ?_⟩⟩
  · rw [mem_update_concat, and_iff_right rfl, ← hinv.inQueue]
    show update s.inQueue t true x = true ↔ _
    by_cases hxt : x = t
    · subst hxt
      rw [update_self]
      exact iff_of_true rfl (.inr rfl)
    · rw [update_of_ne hxt, or_iff_left hxt]
  · rw [update_self, length_append, ← hinv.size]
    rfl
  · exact hinv.blocker x b
  · rw [update_of_ne (some_ne_none b)] at hx
    exact hinv.asleep x b hx

theorem Inv.unblock (hnew : ∀ i, t ∉ nodes i) :
    ∃ s', s.unblock t = some s' ∧ Inv s' (update nodes none (nodes none ++ [t])) := by
  obtain ⟨s', hadd, hinv'⟩ := hinv.wqAddThread hnew
  rw [Sched.unblock, hadd]
  refine ⟨_, rfl, hinv'.setState (.inr fun b => ?_)⟩
  exact hnew (some b)

theorem Inv.wqRemoveThread (hmem : t ∈ nodes none) :
    Inv (s.wqRemoveThread t) (update nodes none ((nodes none).erase t)) := by
  have hflag : ¬ s.inQueue t = false := by
    rw [(hinv.inQueue t).mpr hmem]
    exact Bool.noConfusion
  have hsize : ¬ s.size = 0 := by
    rw [hinv.size]
    exact fun h => ne_nil_of_mem hmem (eq_nil_of_length_eq_zero h)
  rw [Sched.wqRemoveThread, if_neg hflag, if_neg hsize]
  refine ⟨⟨remove_shared hinv.shared hmem, fun x => ?_, ?_⟩, fun x b => ?_, fun x b hx => ?_⟩
  · rw [mem_update_erase (hinv.shared.nodup none), and_iff_right rfl, ← hinv.inQueue]
    show update s.inQueue t false x = true ↔ _
    by_cases hxt : x = t
    · subst hxt
      rw [update_self]
      exact iff_of_false Bool.noConfusion fun h => h.2 rfl
    · rw [update_of_ne hxt, and_iff_left hxt]
  · rw [update_self, length_erase_of_mem hmem, ← hinv.size]
  · exact hinv.blocker x b
  · exact hinv.asleep x b hx

theorem Inv.wqRemoveThread_of_not_mem (hout : t ∉ nodes none) : s.wqRemoveThread t = s := by
  rw [Sched.wqRemoveThread, if_pos]
  rw [← Bool.not_eq_true, hinv.inQueue]
  exact hout

theorem Inv.leave (hmem : t ∈ nodes (some b)) :
    Inv (s.leave b t) (update nodes (some b) ((nodes (some b)).erase t)) := by
  have hnodup := hinv.shared.nodup (some b)
  refine ⟨⟨remove_shared hinv.shared hmem, fun x => ?_, ?_⟩, fun x c => ?_, fun x c hx => ?_⟩
  · exact hinv.inQueue x
  · exact hinv.size
  · rw [mem_update_erase hnodup, ← hinv.blocker]
    show update s.blocker t none x = some c ↔ _
    by_cases hxt : x = t
    · subst hxt
      rw [update_self, hinv.blocker]
      refine iff_of_false (some_ne_none c).symm fun h => h.2 ⟨?_, rfl⟩
      exact hinv.shared.apart h.1 hmem
    · rw [update_of_ne hxt, and_iff_left fun h => hxt h.2]
  · rw [mem_update_erase hnodup] at hx
    exact hinv.asleep x c hx.1

theorem Inv.not_mem_erase {i : Option B} (hmem : t ∈ nodes i) (j : Option B) :
    t ∉ update nodes i ((nodes i).erase t) j := by
  rw [mem_update_erase (hinv.shared.nodup i)]
  exact fun h => h.2 ⟨hinv.shared.apart h.1 hmem, rfl⟩

end

theorem wqRemoveThread_with (s : Sched T B) (t : T) (state : T → ThreadState) (blocker : T → Option B) :
    { s with state, blocker }.wqRemoveThread t = { s.wqRemoveThread t with state, blocker } := by
  rw [Sched.wqRemoveThread, Sched.wqRemoveThread]
  split_ifs <;> rfl

theorem Inv.schedulerSleepOn (hinv : Inv s nodes) (hmem : t ∈ nodes none) (b : B) :
    ∃ s' nodes', s.schedulerSleepOn t b = some s' ∧ Inv s' nodes' := by
  have hinv₁ := hinv.wqRemoveThread hmem
  have hnew := hinv.not_mem_erase hmem
  obtain ⟨link', hadd, hshared⟩ := add_shared hinv₁.shared hnew (some b)
  have hkept : (s.wqRemoveThread t).blocker = s.blocker ∧ (s.wqRemoveThread t).state = s.state := by
    rw [Sched.wqRemoveThread]
    split_ifs <;> exact ⟨rfl, rfl⟩
  have hremoved : ({ s with blocker := update s.blocker t (some b) }.setState t
      .interruptibleSleep).wqRemoveThread t =
        { s.wqRemoveThread t with
          state := update s.state t .interruptibleSleep
          blocker := update s.blocker t (some b) } :=
    wqRemoveThread_with s t _ _
  rw [Sched.schedulerSleepOn, hremoved]
  rw [hadd]
  refine ⟨_, _, rfl, ⟨⟨hshared, fun x => ?_, ?_⟩, fun x c => ?_, fun x c hx => ?_⟩⟩
  · exact hinv₁.inQueue x
  · exact hinv₁.size
  · rw [mem_update_concat, ← hinv₁.blocker, hkept.1]
    show update s.blocker t (some b) x = some c ↔ _
    by_cases hxt : x = t
    · subst hxt
      have hfree : s.blocker x ≠ some c := by
        rw [← hkept.1]
        exact fun h => hnew (some c) ((hinv₁.blocker x c).mp h)
      rw [update_self, or_iff_right hfree, and_iff_left rfl]
      exact eq_comm
    · rw [update_of_ne hxt, or_iff_left fun h => hxt h.2]
  · show (update s.state t .interruptibleSleep x).asleep = true
    by_cases hxt : x = t
    · rw [hxt, update_self]
      rfl
    · rw [mem_update_concat, or_iff_left fun h => hxt h.2] at hx
      rw [update_of_ne hxt, ← hkept.2]
      exact hinv₁.asleep x c hx

/-- The first threads that sleep on a blocker are moved to the end of the run queue. -/
def woken (nodes : Option B → List T) (b : B) (k : Nat) : Option B → List T :=
  update (update nodes (some b) ((nodes (some b)).drop k)) none
    (nodes none ++ (nodes (some b)).take k)

omit [DecidableEq T] in
theorem woken_zero (nodes : Option B → List T) (b : B) : woken nodes b 0 = nodes := by
  rw [woken, drop_zero, take_zero, append_nil, update_eq_self, update_eq_self]

omit [DecidableEq T] in
theorem woken_succ {x : T} {l : List T} (hl : nodes (some b) = x :: l) (k : Nat) :
    woken nodes b (k + 1) =
      woken (update (update nodes (some b) l) none (nodes none ++ [x])) b k := by
  have hrest : update (update nodes (some b) l) none (nodes none ++ [x]) (some b) = l := by
    rw [update_of_ne (some_ne_none b), update_self]
  funext i
  rw [woken, woken, hrest, hl, update_self]
  cases i with
  | none =>
    rw [update_self, append_assoc]
    rfl
  | some c =>
    rw [update_of_ne (some_ne_none c), update_of_ne (some_ne_none c)]
    by_cases hc : some c = some b
    · rw [hc, update_self, update_self]
      rfl
    · rw [update_of_ne hc, update_of_ne hc, update_of_ne (some_ne_none c), update_of_ne hc]

section

variable (hinv : Inv s nodes)
include hinv

theorem Inv.wakeLoop_rest {max unblocked : Nat} (hmax : max ≤ unblocked) {a l : List T}
    (hsplit : nodes (some b) = a ++ l) {fuel : Nat} (hfuel : l.length < fuel) :
    wakeLoop b max fuel s (headOr some none l) unblocked = some (unblocked, s) := by
  induction l generalizing a fuel with
  | nil =>
    obtain ⟨fuel, rfl⟩ := Nat.exists_eq_succ_of_ne_zero hfuel.ne'
    rfl
  | cons x l ih =>
    obtain ⟨fuel, rfl⟩ := Nat.exists_eq_succ_of_ne_zero (Nat.ne_zero_of_lt hfuel)
    have hqueue := hinv.shared.queue (some b)
    rw [hsplit] at hqueue
    show wakeLoop b max (fuel + 1) s (some x) unblocked = _
    rw [wakeLoop, if_neg (by omega), hqueue.link_eq]
    apply ih (a := a ++ [x])
    · rw [hsplit, append_assoc, singleton_append]
    · exact Nat.lt_of_succ_lt_succ hfuel

theorem Inv.wakeLoop {l : List T} (hl : nodes (some b) = l) (max unblocked : Nat)
    {fuel : Nat} (hfuel : l.length < fuel) :
    ∃ s', wakeLoop b max fuel s (headOr some none l) unblocked =
      some (unblocked + min (max - unblocked) l.length, s') ∧ Inv s' (woken nodes b (max - unblocked)) := by
  induction l generalizing s nodes unblocked fuel with
  | nil =>
    obtain ⟨fuel, rfl⟩ := Nat.exists_eq_succ_of_ne_zero hfuel.ne'
    refine ⟨s, by rw [length_nil, Nat.min_zero]; rfl, ?_⟩
    rw [woken, hl, drop_nil, take_nil, append_nil, ← hl, update_eq_self, update_eq_self]
    exact hinv
  | cons x l ih =>
    obtain ⟨fuel, rfl⟩ := Nat.exists_eq_succ_of_ne_zero (Nat.ne_zero_of_lt hfuel)
    by_cases hmax : unblocked < max
    · have hmem : x ∈ nodes (some b) := hl ▸ mem_cons_self
      have hnext : (s.link x).next = headOr some none l := by
        have hqueue := hinv.shared.queue (some b)
        rw [hl, ← nil_append (x :: l)] at hqueue
        rw [hqueue.link_eq]
      -- The thread leaves the blocker and is put at the end of the run queue.
      have hleft := hinv.leave hmem
      have hnew := hinv.not_mem_erase hmem
      obtain ⟨s', hunblock, hinv'⟩ := hleft.unblock hnew
      rw [hl, erase_cons_head, update_of_ne (some_ne_none b).symm] at hinv'
      obtain ⟨s'', hloop, hinv''⟩ := ih hinv'
        (by rw [update_of_ne (some_ne_none b), update_self]) (unblocked + 1)
        (Nat.lt_of_succ_lt_succ hfuel)
      refine ⟨s'', ?_, ?_⟩
      · show wakeLoop b max (fuel + 1) s (some x) unblocked = _
        have hasleep : ((s.leave b x).state x).asleep = true := hinv.asleep x b hmem
        rw [Sched.wakeLoop, if_pos hmax]
        rw [if_pos hasleep, hunblock, hnext, bind_some, hloop, length_cons]
        congr 2
        omega
      · rw [show max - unblocked = max - (unblocked + 1) + 1 by omega, woken_succ hl]
        exact hinv''
    · refine ⟨s, ?_, ?_⟩
      · rw [hinv.wakeLoop_rest (not_lt.mp hmax) (hl.trans (nil_append _).symm) hfuel,
          Nat.sub_eq_zero_of_le (not_lt.mp hmax)]
        rfl
      · rw [Nat.sub_eq_zero_of_le (not_lt.mp hmax), woken_zero]
        exact hinv

theorem Inv.schedulerWake [Fintype T] (b : B) (max : Nat) :
    ∃ s', s.schedulerWake b max = some (min max (nodes (some b)).length, s') ∧ Inv s' (woken nodes b max) := by
  have hlength : (nodes (some b)).length < Fintype.card T + 1 :=
    Nat.lt_succ_of_le (hinv.shared.nodup (some b)).length_le_card
  obtain ⟨s', hloop, hinv'⟩ := hinv.wakeLoop rfl max 0 hlength
  rw [Nat.sub_zero] at hloop hinv'
  refine ⟨s', ?_, hinv'⟩
  rw [Sched.schedulerWake, (hinv.shared.queue (some b)).1, hloop, Nat.zero_add]

theorem Inv.wqAddThread_of_mem (hmem : t ∈ nodes none) : s.wqAddThread t = some s := by
  rw [Sched.wqAddThread, if_pos ((hinv.inQueue t).mpr hmem)]

theorem Inv.schedulerWakeup (t : T) : ∃ s' nodes', s.schedulerWakeup t = some s' ∧ Inv s' nodes' := by
  rw [Sched.schedulerWakeup]
  by_cases hasleep : (s.state t).asleep = true
  · rw [if_pos hasleep]
    cases hblocker : s.blocker t with
    | some b =>
      have hmem := (hinv.blocker t b).mp hblocker
      obtain ⟨s', hunblock, hinv'⟩ := (hinv.leave hmem).unblock (hinv.not_mem_erase hmem)
      exact ⟨s', _, hunblock, hinv'⟩
    | none =>
      have hout (b : B) : t ∉ nodes (some b) := by
        intro hmem
        rw [(hinv.blocker t b).mpr hmem] at hblocker
        cases hblocker
      by_cases hmem : t ∈ nodes none
      · refine ⟨s.setState t .runnable, nodes, ?_, hinv.setState (.inr hout)⟩
        rw [Sched.unblock, hinv.wqAddThread_of_mem hmem]
        rfl
      · obtain ⟨s', hunblock, hinv'⟩ := hinv.unblock fun i => by
          cases i with
          | none => exact hmem
          | some b => exact hout b
        exact ⟨s', _, hunblock, hinv'⟩
  · exact ⟨s, nodes, if_neg hasleep, hinv⟩

end

def start (state : T → ThreadState) : Sched T B :=
  ⟨fun _ => .free, fun _ => false, state, fun _ => none, fun _ => ⟨none, none⟩, 0⟩

omit [DecidableEq T] [DecidableEq B] in
theorem inv_start (state : T → ThreadState) : Inv (start state : Sched T B) fun _ => [] := by
  refine ⟨⟨⟨fun _ => isQueue_nil, fun _ => nodup_nil, fun h => ?_, fun _ _ => rfl⟩, fun t => ?_, rfl⟩,
    fun t b => ?_, fun t b h => ?_⟩
  · cases h
  · exact iff_of_false Bool.noConfusion List.not_mem_nil
  · exact iff_of_false (some_ne_none b).symm not_mem_nil
  · cases h

def Current (s : Sched T B) : SchedOp T B → Prop
  | .sleepOn t _ => s.inQueue t = true
  | .sleep t => s.inQueue t = true
  | _ => True

instance decidableCurrent (s : Sched T B) (op : SchedOp T B) : Decidable (Current s op) := by
  cases op <;> (unfold Current; infer_instance)

/-- The thread is the only one that sleeps on a blocker, and is added to the run queue. -/
def AddsLoneSleeper (s : Sched T B) : SchedOp T B → Prop
  | .add t => ∃ b ∈ s.blocker t, s.queue (some b) = ⟨some t, some t⟩
  | _ => False

instance decidableAddsLoneSleeper (s : Sched T B) (op : SchedOp T B) : Decidable (AddsLoneSleeper s op) := by
  cases op <;> (unfold AddsLoneSleeper; infer_instance)

omit [DecidableEq T] [DecidableEq B] in
theorem not_describes (hflag : s.inQueue t = true) (hhead : (s.queue (some b)).head = some t) :
    ¬ ∃ nodes, Describes s nodes := by
  rintro ⟨nodes, hdescribes⟩
  have hrun : t ∈ nodes none := (hdescribes.inQueue t).mp hflag
  rw [(hdescribes.shared.queue (some b)).1] at hhead
  exact some_ne_none b (hdescribes.shared.apart (mem_of_headOr hhead) hrun)

theorem Inv.add_lone (hinv : Inv s nodes) {b : B} (hblocker : s.blocker t = some b)
    (hlone : s.queue (some b) = ⟨some t, some t⟩) :
    ∃ s', s.wqAddThread t = some s' ∧ ¬ ∃ nodes', Describes s' nodes' := by
  have hmem := (hinv.blocker t b).mp hblocker
  have hqueue := hinv.shared.queue (some b)
  have hsingle := (hqueue.singleton_iff (hinv.shared.nodup (some b))).mp hlone
  have hfree := (hqueue.free_iff hmem).mpr hsingle
  have hflag : ¬ s.inQueue t = true := by
    rw [hinv.inQueue]
    exact fun h => some_ne_none b (hinv.shared.apart hmem h)
  obtain ⟨link', hadd, -⟩ := threadIntrusiveAdd_free (hinv.shared.queue none) hfree
  rw [Sched.wqAddThread, if_neg hflag, hadd]
  refine ⟨_, rfl, not_describes (b := b) (update_self ..) ?_⟩
  show (update s.queue none ⟨(s.queue none).head.or (some t), some t⟩ (some b)).head = some t
  rw [update_of_ne (some_ne_none b), hlone]

theorem Inv.add (hinv : Inv s nodes) (t : T) (hlone : ¬ AddsLoneSleeper s (.add t)) :
    ∃ s' nodes', s.wqAddThread t = some s' ∧ Inv s' nodes' := by
  by_cases hrun : t ∈ nodes none
  · exact ⟨s, nodes, hinv.wqAddThread_of_mem hrun, hinv⟩
  · by_cases hsleep : ∃ b, t ∈ nodes (some b)
    · -- The thread has a neighbour on its blocker, and nothing happens.
      obtain ⟨b, hmem⟩ := hsleep
      have hqueue := hinv.shared.queue (some b)
      have hlinked : (s.link t).prev ≠ none ∨ (s.link t).next ≠ none := by
        by_contra hnone
        obtain ⟨hprev, hnext⟩ := not_or.mp hnone
        have hfree : s.link t = .free := congrArg₂ Link.mk (not_not.mp hprev) (not_not.mp hnext)
        have hsingle := (hqueue.free_iff hmem).mp hfree
        exact hlone ⟨b, (hinv.blocker t b).mpr hmem, (hqueue.singleton_iff (hinv.shared.nodup (some b))).mpr hsingle⟩
      refine ⟨s, nodes, ?_, hinv⟩
      rw [Sched.wqAddThread, if_neg fun h => hrun ((hinv.inQueue t).mp h), threadIntrusiveAdd, if_pos hlinked]
      rfl
    · obtain ⟨s', hadd, hinv'⟩ := hinv.wqAddThread fun i => by
        cases i with
        | none => exact hrun
        | some b => exact fun h => hsleep ⟨b, h⟩
      exact ⟨s', _, hadd, hinv'⟩

theorem Inv.step [Fintype T] (hinv : Inv s nodes) {op : SchedOp T B} (hcurrent : Current s op)
    (hlone : ¬ AddsLoneSleeper s op) : ∃ s' nodes', s.step op = some s' ∧ Inv s' nodes' := by
  cases op with
  | add t => exact hinv.add t hlone
  | remove t =>
    by_cases hmem : t ∈ nodes none
    · exact ⟨_, _, rfl, hinv.wqRemoveThread hmem⟩
    · exact ⟨_, nodes, rfl, by rw [hinv.wqRemoveThread_of_not_mem hmem]; exact hinv⟩
  | sleepOn t b => exact hinv.schedulerSleepOn ((hinv.inQueue t).mp hcurrent) b
  | sleep t =>
    have hinv' : Inv (s.setState t .interruptibleSleep) nodes := hinv.setState (.inl rfl)
    exact ⟨_, _, rfl, hinv'.wqRemoveThread ((hinv.inQueue t).mp hcurrent)⟩
  | wake b max =>
    obtain ⟨s', hwake, hinv'⟩ := hinv.schedulerWake b max
    exact ⟨s', _, by rw [Sched.step, hwake]; rfl, hinv'⟩
  | wakeup t => exact hinv.schedulerWakeup t

/-- As long as no thread is added that sleeps alone on a blocker, the queues are lists with no thread in common, and a
wake-up moves the longest sleepers to the end of the run queue. Every call succeeds, and the queues stay so if and only
if it adds no such thread. -/
theorem scheduler_queues [Fintype T] {state : T → ThreadState} {ops : List (SchedOp T B)}
    (hrun : Run step (fun s op => Current s op ∧ ¬ AddsLoneSleeper s op) (start state) ops s) :
    ∃ nodes, Describes s nodes ∧
      (∀ b max, ∃ s', s.schedulerWake b max = some (min max (nodes (some b)).length, s') ∧
        Describes s' (woken nodes b max)) ∧
      ∀ op, Current s op →
        ∃ s', s.step op = some s' ∧ ((∃ nodes', Describes s' nodes') ↔ ¬ AddsLoneSleeper s op) := by
  obtain ⟨nodes, hinv⟩ := hrun.invariant (fun s => ∃ nodes, Inv s nodes)
    (fun s op t hInv hguard hstep => by
      obtain ⟨nodes, hinv⟩ := hInv
      obtain ⟨s', nodes', hstep', hinv'⟩ := hinv.step hguard.1 hguard.2
      rw [hstep] at hstep'
      cases hstep'
      exact ⟨nodes', hinv'⟩)
    ⟨_, inv_start state⟩
  refine ⟨nodes, hinv.toDescribes, fun b max => ?_, fun op hcurrent => ?_⟩
  · obtain ⟨s', hwake, hinv'⟩ := hinv.schedulerWake b max
    exact ⟨s', hwake, hinv'.toDescribes⟩
  · by_cases hlone : AddsLoneSleeper s op
    · cases op with
      | add t =>
        obtain ⟨b, hblocker, hends⟩ := hlone
        obtain ⟨s', hadd, hnot⟩ := hinv.add_lone hblocker hends
        exact ⟨s', hadd, iff_of_false hnot fun h => h ⟨b, hblocker, hends⟩⟩
      | _ => exact False.elim hlone
    · obtain ⟨s', nodes', hstep, hinv'⟩ := hinv.step hcurrent hlone
      exact ⟨s', hstep, iff_of_true ⟨nodes', hinv'.toDescribes⟩ hlone⟩

/-- Two threads go to sleep on a blocker, and the first of them is woken. -/
theorem scheduler_queues_two :
    ∃ s : Sched (Fin 2) Unit,
      Run step (fun s op => Current s op ∧ ¬ AddsLoneSleeper s op) (start fun _ => .runnable)
        [.add 0, .add 1, .sleepOn 1 (), .sleepOn 0 (), .wake () 1] s ∧
      s.queue none = ⟨some 1, some 1⟩ ∧ ∃ nodes, Describes s nodes := by
  refine exists_run_of_replay_imp (fun s => s.queue none = ⟨some 1, some 1⟩) (by decide) fun s hrun hqueue => ?_
  obtain ⟨nodes, hdescribes, -⟩ := scheduler_queues hrun
  exact ⟨hqueue, nodes, hdescribes⟩

/-- A thread that sleeps alone on a blocker is added: it is in both queues. -/
theorem lone_sleeper_twice :
    ∃ s : Sched (Fin 1) Unit,
      Run step (fun s op => Current s op) (start fun _ => .runnable) [.add 0, .sleepOn 0 (), .add 0] s ∧
      (s.inQueue 0 = true ∧ s.queue none = ⟨some 0, some 0⟩ ∧ s.queue (some ()) = ⟨some 0, some 0⟩) ∧
      ¬ ∃ nodes, Describes s nodes := by
  exact exists_run_of_replay_imp
    (fun s => s.inQueue 0 = true ∧ s.queue none = ⟨some 0, some 0⟩ ∧ s.queue (some ()) = ⟨some 0, some 0⟩)
    (by decide) fun s _ hboth => ⟨hboth, not_describes hboth.1 (congrArg Ends.head hboth.2.2)⟩

end Sched

end Kairax.Proc
