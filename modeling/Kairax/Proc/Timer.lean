import Mathlib.Algebra.Order.Ring.Int
import Kairax.Lib.Run

/-!
# Timers

Normalised times and the timers that count them down (`time.c`, `timer.c`). A borrow loses a nanosecond, so the
countdown takes a second for 999999999 nanoseconds.
-/

namespace Kairax.Proc

open Lib List Option

/-- A normalised time with a 64-bit number of seconds. -/
structure Timespec where
  sec : Int
  nsec : Nat
  sec_ge : -2 ^ 63 ≤ sec
  sec_lt : sec < 2 ^ 63
  nsec_lt : nsec < 1000000000

namespace Timespec

variable (a b : Timespec)

def value : Int := a.sec * 1000000000 + a.nsec

def zero : Timespec := ⟨0, 0, by decide, by decide, by decide⟩

/-- The time with `sec` seconds, where an overflow is undefined. -/
def ofSec (sec : Int) (nsec : Nat) (hnsec : nsec < 1000000000) : Option Timespec :=
  if h : -2 ^ 63 ≤ sec ∧ sec < 2 ^ 63 then some ⟨sec, nsec, h.1, h.2, hnsec⟩ else none

def timespecAdd : Option Timespec :=
  have := a.nsec_lt
  have := b.nsec_lt
  if h : a.nsec + b.nsec > 999999999 then
    if a.sec + 1 < 2 ^ 63 then ofSec (a.sec + 1 + b.sec) (a.nsec + b.nsec - 1000000000) (by omega) else none
  else ofSec (a.sec + b.sec) (a.nsec + b.nsec) (by omega)

def subSec (sec : Int) (nsec : Nat) (hnsec : nsec < 1000000000) : Option Timespec :=
  if b.sec > sec then some zero else ofSec (sec - b.sec) nsec hnsec

def timespecSub : Option Timespec :=
  have := a.nsec_lt
  have := b.nsec_lt
  if h : b.nsec > a.nsec then
    if a.sec = 0 then some zero
    else if a.sec = -2 ^ 63 then none
    else b.subSec (a.sec - 1) (999999999 - (b.nsec - a.nsec)) (by omega)
  else b.subSec a.sec (a.nsec - b.nsec) (by omega)

def timespecIsZero : Bool := a.sec = 0 ∧ a.nsec = 0

def AddFits : Prop :=
  (999999999 < a.nsec + b.nsec → a.sec + 1 < 2 ^ 63) ∧
    -2 ^ 63 * 1000000000 ≤ a.value + b.value ∧ a.value + b.value < 2 ^ 63 * 1000000000

/-- Nothing is borrowed, or the result is zero. -/
def SubFits : Prop :=
  b.nsec ≤ a.nsec ∧ a.sec - b.sec < 2 ^ 63 ∨ a.nsec < b.nsec ∧ a.sec ≤ b.sec ∧ a.sec ≠ -2 ^ 63

variable {a b} {sec v : Int} {nsec : Nat} {hnsec : nsec < 1000000000}

theorem exists_zero_iff : (∃ c, some zero = some c ∧ c.value = v) ↔ v = 0 := by
  constructor
  · rintro ⟨c, hc, rfl⟩
    cases hc
    rfl
  · intro hv
    exact ⟨zero, rfl, hv.symm⟩

theorem exists_ofSec_iff : (∃ c, ofSec sec nsec hnsec = some c ∧ c.value = v) ↔
    (-2 ^ 63 ≤ sec ∧ sec < 2 ^ 63) ∧ sec * 1000000000 + nsec = v := by
  rw [ofSec]
  split_ifs with h
  · rw [and_iff_right h]
    constructor
    · rintro ⟨c, hc, rfl⟩
      cases hc
      rfl
    · intro hv
      exact ⟨_, rfl, hv⟩
  · exact iff_of_false (fun ⟨c, hc, _⟩ => by cases hc) (fun hv => h hv.1)

theorem exists_subSec_iff : (∃ c, b.subSec sec nsec hnsec = some c ∧ c.value = v) ↔
    b.sec > sec ∧ v = 0 ∨ b.sec ≤ sec ∧ sec - b.sec < 2 ^ 63 ∧ (sec - b.sec) * 1000000000 + nsec = v := by
  rw [subSec]
  split_ifs
  · rw [exists_zero_iff]
    omega
  · rw [exists_ofSec_iff]
    omega

theorem add_exact_iff : (∃ c, a.timespecAdd b = some c ∧ c.value = a.value + b.value) ↔ AddFits a b := by
  rw [timespecAdd, AddFits, value, value]
  have := a.nsec_lt
  have := b.nsec_lt
  split_ifs
  · rw [exists_ofSec_iff]
    omega
  · simp only [false_and, exists_false, false_iff]
    omega
  · rw [exists_ofSec_iff]
    omega

theorem sub_exact_iff : (∃ c, a.timespecSub b = some c ∧ c.value = max (a.value - b.value) 0) ↔ SubFits a b := by
  rw [timespecSub, SubFits, value, value]
  have := a.nsec_lt
  have := b.nsec_lt
  split_ifs
  · rw [exists_zero_iff]
    omega
  · simp only [false_and, exists_false, false_iff]
    omega
  · rw [exists_subSec_iff]
    omega
  · rw [exists_subSec_iff]
    omega

/-- The time with the seconds that the countdown uses. -/
def weight (a : Timespec) : Int := a.sec * 999999999 + a.nsec

/-- A tick with `TIMER_FREQUENCY` 250. -/
def tick : Timespec := ⟨0, 1000000000 / 250, by decide, by decide, by decide⟩

theorem subSec_tick (hge : 0 ≤ sec) (hlt : sec < 2 ^ 63) :
    tick.subSec sec nsec hnsec = some ⟨sec, nsec, by omega, hlt, hnsec⟩ := by
  simp only [subSec, tick, ofSec, Int.sub_zero]
  rw [if_neg (by omega), dif_pos (by omega)]

theorem sub_tick (hsec : 0 ≤ a.sec) : ∃ c, a.timespecSub tick = some c ∧ 0 ≤ c.sec ∧
    (a.weight ≤ 4000000 ∧ c.timespecIsZero = true ∨
      4000000 < a.weight ∧ c.timespecIsZero = false ∧ c.weight = a.weight - 4000000) := by
  have hlt := a.sec_lt
  have htick : tick.nsec = 4000000 := rfl
  rw [timespecSub]
  simp only [weight, timespecIsZero, decide_eq_true_iff, decide_eq_false_iff_not]
  split_ifs
  · exact ⟨zero, rfl, le_rfl, .inl ⟨by omega, rfl, rfl⟩⟩
  · omega
  · rw [subSec_tick (by omega) (by omega)]
    refine ⟨_, rfl, ?_⟩
    dsimp only
    omega
  · rw [subSec_tick hsec hlt]
    refine ⟨_, rfl, ?_⟩
    dsimp only
    omega

end Timespec

open Timespec

structure EventTimer where
  when : Timespec
  alarmed : Bool

def EventTimer.handle (t : EventTimer) : Option EventTimer :=
  if t.alarmed then some t else (t.when.timespecSub tick).map fun w => ⟨w, w.timespecIsZero⟩

/-- The timers stand in the list with their addresses. -/
structure Timers where
  currentTicks : Timespec
  timersList : List (Nat × EventTimer)

inductive TimerOp
  | handle (acquired : Bool)
  | register (p : Nat) (duration : Timespec)
  | unregister (p : Nat)

def TimerOp.isHandle : TimerOp → Bool
  | .handle _ => true
  | _ => false

namespace Timers

def handleAll : List (Nat × EventTimer) → Option (List (Nat × EventTimer))
  | [] => some []
  | (p, t) :: l => t.handle.bind fun t => (handleAll l).map ((p, t) :: ·)

def timerHandle (s : Timers) (acquired : Bool) : Option Timers :=
  (s.currentTicks.timespecAdd tick).bind fun ticks =>
    if acquired then (handleAll s.timersList).map (⟨ticks, ·⟩) else some ⟨ticks, s.timersList⟩

def register (s : Timers) (p : Nat) (duration : Timespec) : Timers :=
  { s with timersList := s.timersList ++ [(p, ⟨duration, false⟩)] }

def step (s : Timers) : TimerOp → Option Timers
  | .handle acquired => s.timerHandle acquired
  | .register p duration => some (s.register p duration)
  | .unregister p => some { s with timersList := s.timersList.eraseP (·.1 = p) }

abbrev Runs (p : Nat) : Timers → List TimerOp → Timers → Prop := Run step fun _ op => ∀ d, op ≠ .register p d

/-- A timer with duration `d` is alarmed only after ticks that add up to `d`. -/
def NeverEarly (d : Timespec) : Prop :=
  ∀ (s : Timers) (p : Nat) (ops : List TimerOp) (u : Timers), (∀ t, (p, t) ∉ s.timersList) →
    Runs p (s.register p d) ops u →
    ∀ t, (p, t) ∈ u.timersList → t.alarmed = true → d.value ≤ ops.countP TimerOp.isHandle * tick.value

/-- What there is left to count after `k` ticks, at least. -/
structure Counts (d : Timespec) (k : Nat) (t : EventTimer) : Prop where
  sec : 0 ≤ t.when.sec
  left : d.weight ≤ (if t.alarmed then 0 else t.when.weight) + k * 4000000

variable {d : Timespec} {k p : Nat} {t : EventTimer} {s u : Timers}

theorem Counts.mono (hcounts : Counts d k t) : Counts d (k + 1) t :=
  ⟨hcounts.sec, hcounts.left.trans (by push_cast; omega)⟩

theorem Counts.handle (hcounts : Counts d k t) {t' : EventTimer} (hhandle : t.handle = some t') :
    Counts d (k + 1) t' := by
  rw [EventTimer.handle] at hhandle
  split_ifs at hhandle with halarmed
  · cases hhandle
    exact hcounts.mono
  · obtain ⟨c, hsub, hsec, hcase⟩ := sub_tick hcounts.sec
    have hleft := hcounts.left
    rw [hsub] at hhandle
    cases hhandle
    refine ⟨hsec, ?_⟩
    obtain ⟨hle, hzero⟩ | ⟨-, hzero, hweight⟩ := hcase
    · rw [if_pos hzero]
      omega
    · rw [if_neg halarmed] at hleft
      rw [if_neg (by simp [hzero])]
      dsimp only
      omega

theorem mem_handleAll {l l' : List (Nat × EventTimer)} (hcall : handleAll l = some l') (hmem : (p, t) ∈ l') :
    ∃ t₀, (p, t₀) ∈ l ∧ t₀.handle = some t := by
  induction l generalizing l' with
  | nil =>
    cases hcall
    cases hmem
  | cons q l ih =>
    obtain ⟨r, hr, hcall⟩ := bind_eq_some_iff.mp hcall
    obtain ⟨rest, hrest, rfl⟩ := map_eq_some_iff.mp hcall
    rcases mem_cons.mp hmem with heq | hmem
    · cases heq
      exact ⟨q.2, mem_cons_self, hr⟩
    · obtain ⟨t₀, ht₀, hhandle⟩ := ih hrest hmem
      exact ⟨t₀, mem_cons_of_mem q ht₀, hhandle⟩

section

variable (hcounts : ∀ t, (p, t) ∈ s.timersList → Counts d k t)
include hcounts

theorem Counts.step {op : TimerOp} (hother : ∀ d, op ≠ .register p d) (hstep : s.step op = some u) :
    ∀ t, (p, t) ∈ u.timersList → Counts d (k + if op.isHandle then 1 else 0) t := by
  intro t ht
  cases op with
  | handle acquired =>
    rw [Timers.step] at hstep
    obtain ⟨ticks, -, hstep⟩ := bind_eq_some_iff.mp hstep
    split_ifs at hstep
    · obtain ⟨l, hl, rfl⟩ := map_eq_some_iff.mp hstep
      obtain ⟨t₀, ht₀, hhandle⟩ := mem_handleAll hl ht
      exact (hcounts t₀ ht₀).handle hhandle
    · cases hstep
      exact (hcounts t ht).mono
  | register q e =>
    cases hstep
    rcases mem_append.mp ht with ht | ht
    · exact hcounts t ht
    · cases mem_singleton.mp ht
      exact absurd rfl (hother e)
  | unregister q =>
    cases hstep
    exact hcounts t (mem_of_mem_eraseP ht)

theorem Counts.run {ops : List TimerOp} (hrun : Runs p s ops u) :
    ∀ t, (p, t) ∈ u.timersList → Counts d (k + ops.countP TimerOp.isHandle) t := by
  induction hrun generalizing k with
  | nil s => exact hcounts
  | cons hguard hstep _ ih =>
    rw [countP_cons, Nat.add_comm _ (ite ..), ← Nat.add_assoc]
    exact ih (Counts.step hcounts hguard hstep)

end

section

variable (ticks : Timespec) {w : Timespec} (hsec : 0 ≤ w.sec)
include hsec

theorem handle_single (hticks : ticks.value + 4000000 < 2 ^ 63 * 1000000000) :
    ∃ ticks' c, step ⟨ticks, [(p, ⟨w, false⟩)]⟩ (.handle true) = some ⟨ticks', [(p, ⟨c, c.timespecIsZero⟩)]⟩ ∧
      ticks'.value = ticks.value + 4000000 ∧ 0 ≤ c.sec ∧
      (w.weight ≤ 4000000 ∧ c.timespecIsZero = true ∨
        4000000 < w.weight ∧ c.timespecIsZero = false ∧ c.weight = w.weight - 4000000) := by
  have hge := ticks.sec_ge
  have hfits : AddFits ticks tick := by
    have htick : tick.sec = 0 ∧ tick.nsec = 4000000 := ⟨rfl, rfl⟩
    rw [value] at hticks
    rw [AddFits, value, value]
    omega
  obtain ⟨ticks', hadd, hvalue⟩ := add_exact_iff.mpr hfits
  obtain ⟨c, hsub, hc⟩ := sub_tick hsec
  refine ⟨ticks', c, ?_, hvalue, hc⟩
  rw [step, timerHandle, hadd, bind_some, handleAll, EventTimer.handle, hsub]
  rfl

theorem exists_alarm (hgt : k * 4000000 < w.weight) (hle : w.weight ≤ k * 4000000 + 4000000)
    (hticks : ticks.value + k * 4000000 + 4000000 < 2 ^ 63 * 1000000000) :
    ∃ u t, Runs p ⟨ticks, [(p, ⟨w, false⟩)]⟩ (replicate (k + 1) (.handle true)) u ∧ (p, t) ∈ u.timersList ∧
      t.alarmed = true := by
  induction k generalizing ticks w with
  | zero =>
    obtain ⟨ticks', c, hstep, -, -, hcase⟩ := handle_single ticks hsec (by omega)
    exact ⟨_, _, .cons (fun _ => TimerOp.noConfusion) hstep (.nil _), mem_singleton_self _,
      (hcase.resolve_right (by omega)).2⟩
  | succ k ih =>
    obtain ⟨ticks', c, hstep, hvalue, hsec', hcase⟩ := handle_single ticks hsec (by omega)
    obtain ⟨-, hzero, hweight⟩ := hcase.resolve_left (by omega)
    rw [hzero] at hstep
    obtain ⟨u, t, hrun, ht⟩ := ih ticks' hsec' (by omega) (by omega) (by omega)
    exact ⟨u, t, .cons (fun _ => TimerOp.noConfusion) hstep hrun, ht⟩

end

theorem neverEarly_iff : NeverEarly d ↔ d.value ≤ (d.weight + 3999999) / 4000000 * 4000000 := by
  have hlt := d.sec_lt
  have hnsec := d.nsec_lt
  constructor
  · intro hnever
    by_cases hpos : 0 ≤ d.sec ∧ 0 < d.weight
    · obtain ⟨k, hk⟩ : ∃ k : Nat, (d.weight + 3999999) / 4000000 = k + 1 :=
        ⟨((d.weight - 1) / 4000000).toNat, by omega⟩
      have hmax : d.weight ≤ 2 ^ 63 * 999999999 := by
        rw [weight]
        omega
      obtain ⟨u, t, hrun, ht, halarmed⟩ := exists_alarm (k := k) zero hpos.1 (by omega) (by omega)
        (by rw [show zero.value = 0 from rfl]; omega)
      have hle := hnever ⟨zero, []⟩ 0 _ u (fun _ => not_mem_nil) hrun t ht halarmed
      rw [countP_replicate, TimerOp.isHandle] at hle
      rw [hk]
      exact hle
    · rw [weight] at hpos ⊢
      rw [value]
      omega
  · intro hle s p ops u hfresh hrun t ht halarmed
    show _ ≤ _ * 4000000
    by_cases hsec : 0 ≤ d.sec
    · have hstart : ∀ t, (p, t) ∈ (s.register p d).timersList → Counts d 0 t := by
        intro t ht
        cases mem_singleton.mp ((mem_append.mp ht).resolve_left (hfresh t))
        exact ⟨hsec, by simp⟩
      have hleft := (Counts.run hstart hrun t ht).left
      rw [if_pos halarmed] at hleft
      omega
    · rw [value]
      omega

end Timers

open Timers

/-- The sum is exact unless it overflows, the difference unless a nanosecond is lost with a borrow, and a timer is never
early unless what its seconds lose makes up for a tick. -/
theorem timers_exact_iff (a b d : Timespec) :
    ((∃ c, a.timespecAdd b = some c ∧ c.value = a.value + b.value) ↔ AddFits a b) ∧
    ((∃ c, a.timespecSub b = some c ∧ c.value = max (a.value - b.value) 0) ↔ SubFits a b) ∧
    (NeverEarly d ↔ d.value ≤ (d.weight + 3999999) / 4000000 * 4000000) :=
  ⟨add_exact_iff, sub_exact_iff, neverEarly_iff⟩

/-- One second less a nanosecond is 999999998 nanoseconds, and 1.000000001 seconds are over after one. -/
theorem sub_loses_nanosecond :
    (timespecSub ⟨1, 0, by decide, by decide, by decide⟩ ⟨0, 1, by decide, by decide, by decide⟩).map value =
      some 999999998 ∧ ¬ NeverEarly ⟨1, 1, by decide, by decide, by decide⟩ := by
  rw [neverEarly_iff]
  decide

end Kairax.Proc
