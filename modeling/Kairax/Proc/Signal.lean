import Kairax.Word
import Mathlib.Data.BitVec

/-!
# The choice of a signal

`thread_send_signal` and the loop of `process_handle_signals`. The calls accept the number 32, for which there is no
entry in the tables. The loop looks for the next bit of the pending set before it tests the number, so that it shifts
by 64 and more when all pending signals are blocked.
-/

namespace Kairax.Proc

open List BitVec Bool

/-- `SIGNALS` -/
def signals : Nat := 32

inductive SigHandler
  | dfl
  | ign
  | user (addr : Word)
  deriving DecidableEq

inductive SigDefault
  | ignore
  | terminate
  | core
  | stop
  | cont
  deriving DecidableEq

def signalsTable : List SigDefault :=
  [.ignore, .terminate, .terminate, .terminate, .terminate, .core, .core, .terminate, .core, .terminate, .terminate,
    .core, .terminate, .terminate, .terminate, .terminate, .terminate, .ignore, .cont, .stop, .stop, .stop, .stop,
    .ignore, .terminate, .terminate, .terminate, .terminate, .ignore, .ignore, .ignore, .ignore]

inductive SigEffect
  | nothing
  | exit (code : Nat)
  | stopProcess
  | runHandler (addr : Word)
  deriving DecidableEq

/-- `pending_signals` and `blocked_signals` of a thread. -/
structure SigState where
  pending : Word
  blocked : Word
  deriving DecidableEq

namespace SigState

/-- `thread_is_signal_blocked` -/
def isSignalBlocked (t : SigState) (signal : Nat) : Bool :=
  t.blocked.getLsbD signal && !(signal == 9 || signal == 19)

/-- `thread_send_signal` for a number that `sys_send_signal` accepts. For 32 the actions and `behind` are what stands
behind the two tables. -/
def sendSignal (behind : SigDefault) (t : SigState) (sigactions : Nat → SigHandler) (signal : Nat) : SigState :=
  if sigactions signal = .dfl ∧ signalsTable.getD signal behind = .ignore then t
  else { t with pending := t.pending ||| twoPow 64 signal }

/-- The two loops of `process_handle_signals`, with the number of shifts that are still defined. Both go on to the next
signal, and a signal that is found to be too large ends them. -/
def findSignal (t : SigState) : Nat → Nat → Option (Option Nat)
  | 0, _ => none
  | fuel + 1, signal =>
    if t.pending.getLsbD signal = false then findSignal t fuel (signal + 1)
    else if signals < signal then some none
    else if t.isSignalBlocked signal then findSignal t fuel (signal + 1)
    else some (some signal)

/-- The action for a signal, if it has an entry in the tables. -/
def effect (sigactions : Nat → SigHandler) (signal : Nat) : Option SigEffect :=
  signalsTable[signal]?.map fun sigdefault =>
    match sigactions signal with
    | .ign => .nothing
    | .user addr => .runHandler addr
    | .dfl => match sigdefault with
      | .terminate => .exit (signal <<< 8 ||| signal)
      | .core => .exit (signal <<< 8 ||| signal)
      | .stop => .stopProcess
      | _ => .nothing

/-- `process_handle_signals` of a thread that is neither killed nor stopped. -/
def handleSignals (t : SigState) (sigactions : Nat → SigHandler) : Option (Option (Nat × SigEffect) × SigState) :=
  if t.pending = 0 then some (none, t)
  else (t.findSignal 64 0).bind fun
    | none => some (none, t)
    | some signal => (effect sigactions signal).map fun e =>
      (some (signal, e), { t with pending := t.pending &&& ~~~twoPow 64 signal })

def Deliverable (t : SigState) (signal : Nat) : Prop :=
  t.pending.getLsbD signal = true ∧ (t.blocked.getLsbD signal = false ∨ signal = 9 ∨ signal = 19)

instance (t : SigState) : DecidablePred t.Deliverable :=
  fun signal => inferInstanceAs (Decidable (t.pending.getLsbD signal = true ∧ _))

/-- The lowest deliverable signal is handled and nothing else is taken out of the pending set. If there is none, nothing
is done. -/
structure Chooses (t : SigState) (r : Option (Option (Nat × SigEffect) × SigState)) : Prop where
  lowest : ∀ signal, t.Deliverable signal → (∀ j < signal, ¬ t.Deliverable j) → ∃ e t',
    r = some (some (signal, e), t') ∧
    t'.blocked = t.blocked ∧ ∀ j, t'.pending.getLsbD j = (t.pending.getLsbD j && decide (j ≠ signal))
  idle : (∀ signal, ¬ t.Deliverable signal) → r = some (none, t)

section

variable {t : SigState} {signal : Nat}

theorem deliverable_iff :
    t.Deliverable signal ↔ t.pending.getLsbD signal = true ∧ t.isSignalBlocked signal = false := by
  rw [Deliverable, isSignalBlocked, and_eq_false_iff, not_eq_false', or_eq_true, beq_iff_eq, beq_iff_eq]

theorem Deliverable.pending_ne_zero (hsignal : t.Deliverable signal) : t.pending ≠ 0 := by
  intro hzero
  have hbit := hsignal.1
  rw [hzero] at hbit
  exact false_ne_true (getLsbD_zero.symm.trans hbit)

variable (hsmall : ∀ j, t.pending.getLsbD j = true → j ≤ signals)

include hsmall in
theorem findSignal_eq (fuel signal : Nat) :
    t.findSignal fuel signal = ((range' signal fuel).find? fun j => decide (t.Deliverable j)).map some := by
  induction fuel generalizing signal with
  | zero => rfl
  | succ fuel ih =>
    rw [findSignal, range'_succ, find?_cons]
    split_ifs with hpending hlarge hblocked
    · rw [decide_eq_false fun h : t.Deliverable signal => false_ne_true (hpending.symm.trans h.1)]
      exact ih (signal + 1)
    · exact absurd (hsmall signal (eq_true_of_not_eq_false hpending)) (not_le.mpr hlarge)
    · rw [decide_eq_false fun h => false_ne_true ((deliverable_iff.mp h).2.symm.trans hblocked)]
      exact ih (signal + 1)
    · rw [decide_eq_true (deliverable_iff.mpr
        ⟨eq_true_of_not_eq_false hpending, eq_false_of_not_eq_true hblocked⟩)]
      rfl

theorem effect_eq_none_iff (sigactions : Nat → SigHandler) : effect sigactions signal = none ↔ signals ≤ signal := by
  rw [effect, Option.map_eq_none_iff, List.getElem?_eq_none_iff]
  rfl

theorem pending_le_of_sends {behind : SigDefault} {blocked : Word} {sends : List ((Nat → SigHandler) × Nat)}
    (haccepted : ∀ send ∈ sends, send.2 ≤ signals) {j : Nat}
    (hj : (sends.foldl (fun t send => sendSignal behind t send.1 send.2) ⟨0, blocked⟩).pending.getLsbD j = true) :
    j ≤ signals := by
  induction sends using reverseRecOn with
  | nil => exact absurd (getLsbD_zero.symm.trans hj) false_ne_true
  | append_singleton sends send ih =>
    rw [forall_mem_append] at haccepted
    rw [foldl_concat, sendSignal] at hj
    split_ifs at hj
    · exact ih haccepted.1 hj
    · rw [getLsbD_or, or_eq_true, getLsbD_twoPow, and_eq_true, decide_eq_true_eq, decide_eq_true_eq] at hj
      obtain hj | ⟨-, rfl⟩ := hj
      · exact ih haccepted.1 hj
      · exact haccepted.2 send (mem_singleton_self send)

theorem getLsbD_clear (x : Word) (hsignal : signal < 64) (j : Nat) :
    (x &&& ~~~BitVec.twoPow 64 signal).getLsbD j = (x.getLsbD j && decide (j ≠ signal)) := by
  rw [BitVec.getLsbD_and, BitVec.getLsbD_not, BitVec.getLsbD_twoPow, decide_eq_true hsignal, Bool.true_and]
  obtain hj | hj := lt_or_ge j 64
  · rw [decide_eq_true hj, ← decide_not]
    exact congrArg (x.getLsbD j && ·) (decide_eq_decide.mpr ne_comm)
  · rw [BitVec.getLsbD_of_ge x j hj, Bool.false_and, Bool.false_and]

include hsmall

theorem handleSignals_lowest (hsignal : t.Deliverable signal)
    (hbefore : ∀ j < signal, ¬ t.Deliverable j) (sigactions : Nat → SigHandler) :
    t.handleSignals sigactions = (effect sigactions signal).map fun e =>
      (some (signal, e), { t with pending := t.pending &&& ~~~twoPow 64 signal }) := by
  have hfind : (range 64).find? (fun j => decide (t.Deliverable j)) = some signal :=
    find?_range_eq_some.mpr ⟨decide_eq_true hsignal, mem_range.mpr (lt_of_getLsbD hsignal.1),
      fun j hj => by rw [decide_eq_false (hbefore j hj)]; rfl⟩
  rw [handleSignals, if_neg hsignal.pending_ne_zero, findSignal_eq hsmall, ← range_eq_range', hfind]
  rfl

theorem handleSignals_blocked (hne : t.pending ≠ 0)
    (hnone : ∀ j, ¬ t.Deliverable j) (sigactions : Nat → SigHandler) : t.handleSignals sigactions = none := by
  have hfind : (range 64).find? (fun j => decide (t.Deliverable j)) = none :=
    find?_eq_none.mpr fun j _ => by rw [decide_eq_false (hnone j)]; exact false_ne_true
  rw [handleSignals, if_neg hne, findSignal_eq hsmall, ← range_eq_range', hfind]
  rfl

end

/-- The signal is chosen as it should be just if none is pending, or one that has an entry in the tables is pending and
not blocked. -/
theorem handle_chooses_iff (behind : SigDefault) (blocked : Word) (sends : List ((Nat → SigHandler) × Nat))
    (haccepted : ∀ send ∈ sends, send.2 ≤ signals) (sigactions : Nat → SigHandler) (t : SigState)
    (ht : t = sends.foldl (fun t send => sendSignal behind t send.1 send.2) ⟨0, blocked⟩) :
    t.Chooses (t.handleSignals sigactions) ↔ t.pending = 0 ∨ ∃ signal < signals, t.Deliverable signal := by
  have hsmall (j : Nat) (hj : t.pending.getLsbD j = true) : j ≤ signals := pending_le_of_sends haccepted (ht ▸ hj)
  by_cases hexists : ∃ signal, t.Deliverable signal
  · obtain ⟨hsignal, hbefore⟩ : t.Deliverable (Nat.find hexists) ∧ ∀ j < Nat.find hexists, ¬ t.Deliverable j :=
      ⟨Nat.find_spec hexists, fun j hj => Nat.find_min hexists hj⟩
    generalize Nat.find hexists = signal at hsignal hbefore
    have hhandle := handleSignals_lowest hsmall hsignal hbefore sigactions
    constructor
    · intro hchooses
      obtain ⟨e, t', heq, -⟩ := hchooses.lowest signal hsignal hbefore
      refine .inr ⟨signal, not_le.mp fun hle => ?_, hsignal⟩
      rw [hhandle, (effect_eq_none_iff sigactions).mpr hle] at heq
      cases heq
    · rintro (hzero | ⟨k, hk, hdeliver⟩)
      · exact absurd hzero hsignal.pending_ne_zero
      · have hle : signal ≤ k := not_lt.mp fun hlt => hbefore k hlt hdeliver
        have heffect := mt (effect_eq_none_iff sigactions).mp (not_le.mpr (hle.trans_lt hk))
        obtain ⟨e, he⟩ := Option.ne_none_iff_exists'.mp heffect
        refine ⟨fun j hj hlow => ?_, fun hnone => absurd hsignal (hnone signal)⟩
        obtain rfl : j = signal :=
          (Nat.not_lt.mp fun h => hlow _ h hsignal).antisymm (not_lt.mp fun h => hbefore _ h hj)
        rw [hhandle, he]
        exact ⟨e, _, rfl, rfl, getLsbD_clear t.pending (lt_of_getLsbD hj.1)⟩
  · rw [not_exists] at hexists
    constructor
    · intro hchooses
      by_contra hne
      rw [handleSignals_blocked hsmall (not_or.mp hne).1 hexists] at hchooses
      cases hchooses.idle hexists
    · rintro (hzero | ⟨k, -, hdeliver⟩)
      · exact ⟨fun k hk => absurd hk (hexists k), fun _ => if_pos hzero⟩
      · exact absurd hdeliver (hexists k)

/-- `SIGUSR1` and `SIGTERM` are sent and `SIGUSR1` is blocked. -/
theorem handle_chooses_second :
    ((SigState.mk 0x8400 0x400).handleSignals fun _ => .dfl) = some (some (15, .exit 3855), ⟨0x400, 0x400⟩) ∧
      (SigState.mk 0x8400 0x400).Chooses ((SigState.mk 0x8400 0x400).handleSignals fun _ => .dfl) :=
  ⟨rfl, (handle_chooses_iff .ignore 0x400 [(fun _ => .dfl, 10), (fun _ => .dfl, 15)] (by decide) _ _ rfl).mpr
    (.inr ⟨15, by decide, by decide⟩)⟩

/-- A signal that is blocked makes the kernel shift by 64, and the number 32 makes it read behind the tables. -/
theorem handle_undefined : (((sendSignal .ignore ⟨0, 0x400⟩ (fun _ => .dfl) 10).handleSignals fun _ => .dfl) = none) ∧
    (sendSignal .terminate ⟨0, 0⟩ (fun _ => .dfl) 32).handleSignals (fun _ => .dfl) = none :=
  ⟨rfl, rfl⟩

end SigState

end Kairax.Proc
