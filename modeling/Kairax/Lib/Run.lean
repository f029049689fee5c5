import Mathlib.Data.List.Basic

/-!
# Runs of a partial transition function

A run is a finite sequence of defined steps, each taken in a state where a guard holds. The guard restricts a result
to the histories it is about: the callers' obligations, and the condition under which a faulty operation still
behaves.
-/

namespace Kairax.Lib

variable {State Op : Type*} {step : State → Op → Option State} {guard : State → Op → Prop} {ops : List Op} {s : State}

inductive Run (step : State → Op → Option State) (guard : State → Op → Prop) :
    State → List Op → State → Prop
  | nil (s : State) : Run step guard s [] s
  | cons {s t u : State} {op : Op} {ops : List Op} (hguard : guard s op)
      (hstep : step s op = some t) (hrest : Run step guard t ops u) :
      Run step guard s (op :: ops) u

namespace Run

variable {guard' : State → Op → Prop} {t : State}

theorem invariant (Inv : State → Prop) (hpreserve : ∀ s op t, Inv s → guard s op → step s op = some t → Inv t)
    (hrun : Run step guard s ops t) (hinit : Inv s) : Inv t := by
  induction hrun with
  | nil s => exact hinit
  | cons hguard hstep _ ih => exact ih (hpreserve _ _ _ hinit hguard hstep)

end Run

/-- Run a list of operations, stopping where the guard fails or a step is undefined. -/
def replay (step : State → Op → Option State) (guard : State → Op → Prop)
    [∀ s op, Decidable (guard s op)] : State → List Op → Option State
  | s, [] => some s
  | s, op :: ops => if guard s op then (step s op).bind fun t => replay step guard t ops else none

theorem run_of_replay [∀ s op, Decidable (guard s op)] {t : State} (hreplay : replay step guard s ops = some t) :
    Run step guard s ops t := by
  induction ops generalizing s with
  | nil =>
    obtain rfl := Option.some.inj hreplay
    exact .nil s
  | cons op ops ih =>
    rw [replay] at hreplay
    split at hreplay
    · rename_i hguard
      obtain ⟨u, hstep, hrest⟩ := Option.bind_eq_some_iff.mp hreplay
      exact .cons hguard hstep (ih hrest)
    · simp at hreplay

theorem exists_run_of_replay [∀ s op, Decidable (guard s op)] {P : State → Prop} [DecidablePred P]
    (hreplay : (replay step guard s ops).any (fun t => decide (P t)) = true) : ∃ t, Run step guard s ops t ∧ P t := by
  cases hend : replay step guard s ops with
  | none =>
    rw [hend] at hreplay
    cases hreplay
  | some t =>
    rw [hend] at hreplay
    exact ⟨t, run_of_replay hend, of_decide_eq_true hreplay⟩

theorem exists_run_of_replay_imp [∀ s op, Decidable (guard s op)] {Q : State → Prop} (P : State → Prop)
    [DecidablePred P] (hreplay : (replay step guard s ops).any (fun t => decide (P t)) = true)
    (himp : ∀ t, Run step guard s ops t → P t → Q t) : ∃ t, Run step guard s ops t ∧ Q t :=
  (exists_run_of_replay hreplay).imp fun t ⟨hrun, hend⟩ => ⟨hrun, himp t hrun hend⟩

end Kairax.Lib
