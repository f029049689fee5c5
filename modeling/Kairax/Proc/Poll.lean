import Kairax.Errors
import Mathlib.Data.BitVec

/-!
# The results of poll

`sys_poll` scans its array until a file is ready. It does not write the result of a file with nothing to report, so
what the caller left there is read as a result.
-/

namespace Kairax.Proc

open List

structure PollFd where
  fd : Int
  events : BitVec 16
  revents : BitVec 16
deriving DecidableEq

inductive Look
  | closed
  | noPoll
  | reports (mask : BitVec 16)

/-- `POLLHUP | POLLERR` -/
def mandatoryEvents : BitVec 16 := 0x018

def pollNval : BitVec 16 := 0x020

/-- The round of the loop for one entry, and what it adds to the count. -/
def pollEntry (e : PollFd) (look : Look) : Option (PollFd × Nat) :=
  if e.fd < 0 then some ({ e with revents := 0 }, 0)
  else
    match look with
    | .closed => some ({ e with revents := pollNval }, 1)
    | .noPoll => none
    | .reports mask =>
      let revents := (e.events ||| mandatoryEvents) &&& mask
      if revents ≠ 0 then some ({ e with revents }, 1) else some (e, 0)

/-- A scan with the number of entries that it caught. It stops at a file that cannot be polled. -/
def scan : List PollFd → (Nat → Look) → List PollFd × Option Nat
  | [], _ => ([], some 0)
  | e :: ufds, look =>
    match pollEntry e (look 0) with
    | none => (e :: ufds, none)
    | some (e, n) => ((e :: (scan ufds fun i => look (i + 1)).1), (scan ufds fun i => look (i + 1)).2.map (n + ·))

inductive Wake
  | signal
  | timer
  | normal

/-- What the call meets in a round: the files, the allocation of the timer and the reason to wake. -/
structure Round where
  look : Nat → Look
  allocated : Bool
  wake : Wake

/-- What the call returns after a scan that caught `n` entries, if it does. -/
def pollResult (timeout : Int) (round : Round) (n : Nat) : Option Int :=
  if 0 < n then some n
  else if timeout = 0 then some 0
  else if 0 < timeout ∧ round.allocated = false then some (-enomem)
  else
    match round.wake with
    | .signal => some (-eintr)
    | .timer => some 0
    | .normal => none

/-- The loop over the rounds. It is undefined while the caller sleeps and when the count overflows. -/
def sysPoll (timeout : Int) : List PollFd → List Round → Option (Int × List PollFd)
  | _, [] => none
  | ufds, round :: rounds =>
    match scan ufds round.look with
    | (ufds, none) => some (-errorBadFd, ufds)
    | (ufds, some n) =>
      if 2 ^ 31 ≤ n then none
      else (pollResult timeout round n).elim (sysPoll timeout ufds rounds) fun rc => some (rc, ufds)

def PollFd.expected (e : PollFd) (look : Look) : BitVec 16 :=
  if e.fd < 0 then 0
  else
    match look with
    | .closed => pollNval
    | .noPoll => 0
    | .reports mask => (e.events ||| mandatoryEvents) &&& mask

def Exact (ufds : List PollFd) (looks : Nat → Look) (n : Int) (out : List PollFd) : Prop :=
  (out = ufds.mapIdx fun i e => { e with revents := e.expected (looks i) }) ∧ n = out.countP (·.revents ≠ 0)

/-- The file has nothing to report. -/
def Quiet (e : PollFd) (look : Look) : Prop :=
  0 ≤ e.fd ∧ e.expected look = 0

variable {e e' : PollFd} {look : Look} {ufds out : List PollFd} {looks : Nat → Look} {n : Nat}

theorem pollEntry_cases (hentry : pollEntry e look = some (e', n)) :
    e' = { e with revents := e.expected look } ∧ (n = if e.expected look ≠ 0 then 1 else 0) ∧ ¬ Quiet e look ∨
      e' = e ∧ n = 0 ∧ Quiet e look := by
  unfold pollEntry at hentry
  split_ifs at hentry with hfd
  · cases hentry
    unfold Quiet PollFd.expected
    rw [if_pos hfd]
    exact .inl ⟨rfl, rfl, fun h => absurd h.1 (Int.not_le.mpr hfd)⟩
  · unfold Quiet PollFd.expected
    rw [if_neg hfd]
    cases look with
    | closed =>
      cases hentry
      exact .inl ⟨rfl, rfl, fun h => absurd h.2 (show ¬ pollNval = 0 by decide)⟩
    | noPoll => cases hentry
    | reports mask =>
      dsimp only at hentry ⊢
      split_ifs at hentry with hmask
      · cases hentry
        exact .inl ⟨rfl, (if_pos hmask).symm, fun h => hmask h.2⟩
      · cases hentry
        exact .inr ⟨rfl, rfl, Int.not_lt.mp hfd, not_not.mp hmask⟩

theorem scan_cons_iff : scan (e :: ufds) looks = (out, some n) ↔
    ∃ e' k out' m, pollEntry e (looks 0) = some (e', k) ∧ scan ufds (fun i => looks (i + 1)) = (out', some m) ∧
      out = e' :: out' ∧ n = k + m := by
  rw [scan]
  constructor
  · intro hscan
    cases hentry : pollEntry e (looks 0) with
    | none =>
      rw [hentry] at hscan
      cases hscan
    | some r =>
      rw [hentry] at hscan
      obtain ⟨hout, hn⟩ := Prod.mk.inj hscan
      obtain ⟨m, hm, rfl⟩ := Option.map_eq_some_iff.mp hn
      exact ⟨r.1, r.2, _, m, rfl, Prod.ext rfl hm, hout.symm, rfl⟩
  · rintro ⟨e', k, out', m, hentry, hrest, rfl, rfl⟩
    rw [hentry, hrest]
    rfl

theorem scan_of_scan {looks' : Nat → Look} {out' : List PollFd} (hscan : scan ufds looks = (out, some 0))
    (hnext : scan out looks' = (out', some n)) : scan ufds looks' = (out', some n) := by
  induction ufds generalizing looks looks' out out' n with
  | nil =>
    cases hscan
    exact hnext
  | cons e ufds ih =>
    obtain ⟨e', k, rest, m, hentry, hrest, rfl, hsum⟩ := scan_cons_iff.mp hscan
    obtain ⟨rfl, rfl⟩ : k = 0 ∧ m = 0 := by omega
    obtain ⟨e₂, k₂, rest₂, m₂, hentry₂, hrest₂, rfl, rfl⟩ := scan_cons_iff.mp hnext
    refine scan_cons_iff.mpr ⟨e₂, k₂, rest₂, m₂, ?_, ih hrest hrest₂, rfl, rfl⟩
    obtain ⟨rfl, hzero, hquiet⟩ | ⟨rfl, -, -⟩ := pollEntry_cases hentry
    · have hnone : e.expected (looks 0) = 0 := by
        by_contra hne
        rw [if_pos hne] at hzero
        cases hzero
      have hfd : e.fd < 0 := Int.not_le.mp fun h => hquiet ⟨h, hnone⟩
      unfold pollEntry at hentry₂ ⊢
      rw [if_pos hfd] at hentry₂ ⊢
      exact hentry₂
    · exact hentry₂

theorem scan_exact_iff (hscan : scan ufds looks = (out, some n)) :
    Exact ufds looks n out ↔ ∀ i e, ufds[i]? = some e → Quiet e (looks i) → e.revents = 0 := by
  induction ufds generalizing looks out n with
  | nil =>
    cases hscan
    exact iff_of_true ⟨rfl, rfl⟩ fun i e h => by simp at h
  | cons e ufds ih =>
    obtain ⟨e', k, rest, m, hentry, hrest, rfl, rfl⟩ := scan_cons_iff.mp hscan
    have hsplit : (∀ i e₀, (e :: ufds)[i]? = some e₀ → Quiet e₀ (looks i) → e₀.revents = 0) ↔
        (Quiet e (looks 0) → e.revents = 0) ∧
          ∀ i e, ufds[i]? = some e → Quiet e (looks (i + 1)) → e.revents = 0 := by
      constructor
      · intro h
        exact ⟨h 0 e rfl, fun i => h (i + 1)⟩
      · rintro ⟨hzero, hsucc⟩ i e₀ hi
        cases i with
        | zero =>
          cases hi
          exact hzero
        | succ i => exact hsucc i e₀ hi
    rw [hsplit, ← ih hrest, Exact, Exact, mapIdx_cons, cons.injEq, countP_cons]
    obtain ⟨rfl, rfl, hquiet⟩ | ⟨rfl, rfl, hquiet⟩ := pollEntry_cases hentry
    · simp [hquiet]
      omega
    · have hclear : e' = { e' with revents := 0 } ↔ e'.revents = 0 := ⟨fun h => by rw [h], fun h => by rw [← h]⟩
      rw [hquiet.2, imp_iff_right hquiet, hclear]
      by_cases hzero : e'.revents = 0
      · simp [hzero]
      · exact iff_of_false (fun h => hzero h.1.1) fun h => hzero h.1

variable {timeout rc : Int} {round : Round} {rounds : List Round}

theorem pollResult_of_some (hresult : pollResult timeout round n = some rc) (hrc : 0 ≤ rc) : rc = n := by
  unfold pollResult enomem eintr at hresult
  split_ifs at hresult with hpos
  · cases hresult
    rfl
  · cases hresult
    omega
  · cases hresult
    omega
  · cases hwake : round.wake <;> rw [hwake] at hresult <;> cases hresult <;> omega

theorem pollResult_of_none (hresult : pollResult timeout round n = none) : n = 0 := by
  unfold pollResult at hresult
  split_ifs at hresult with hpos
  omega

theorem sysPoll_cons (hcall : sysPoll timeout ufds (round :: rounds) = some (rc, out)) (hrc : 0 ≤ rc) :
    ∃ mid n, scan ufds round.look = (mid, some n) ∧ ∀ rounds, sysPoll timeout ufds (round :: rounds) =
      (pollResult timeout round n).elim (sysPoll timeout mid rounds) fun rc => some (rc, mid) := by
  simp only [sysPoll] at hcall ⊢
  generalize scan ufds round.look = r at hcall ⊢
  obtain ⟨mid, _ | n⟩ := r
  · cases hcall
    exact absurd hrc (by decide)
  · dsimp only at hcall ⊢
    split_ifs at hcall with hlimit
    exact ⟨mid, n, rfl, fun _ => if_neg hlimit⟩

theorem scan_of_sysPoll (hsleeps : sysPoll timeout ufds rounds = none)
    (hcall : sysPoll timeout ufds (rounds ++ [round]) = some (rc, out)) (hrc : 0 ≤ rc) :
    ∃ n : Nat, scan ufds round.look = (out, some n) ∧ rc = n := by
  induction rounds generalizing ufds with
  | nil =>
    obtain ⟨mid, n, hscan, hnext⟩ := sysPoll_cons hcall hrc
    rw [nil_append, hnext] at hcall
    cases hresult : pollResult timeout round n with
    | none =>
      rw [hresult] at hcall
      cases hcall
    | some rc =>
      rw [hresult] at hcall
      cases hcall
      exact ⟨n, hscan, pollResult_of_some hresult hrc⟩
  | cons first rounds ih =>
    obtain ⟨mid, n, hscan, hnext⟩ := sysPoll_cons hcall hrc
    rw [hnext] at hsleeps
    rw [cons_append, hnext] at hcall
    cases hresult : pollResult timeout first n with
    | none =>
      rw [hresult] at hsleeps hcall
      rw [pollResult_of_none hresult] at hscan
      obtain ⟨k, hlast, hk⟩ := ih hsleeps hcall
      exact ⟨k, scan_of_scan hscan hlast, hk⟩
    | some rc =>
      rw [hresult] at hsleeps
      cases hsleeps

/-- A call that returns no error is exact if the caller cleared the results of the files with nothing to report. -/
theorem poll_exact_iff (hsleeps : sysPoll timeout ufds rounds = none)
    (hcall : sysPoll timeout ufds (rounds ++ [round]) = some (rc, out)) (hrc : 0 ≤ rc) :
    Exact ufds round.look rc out ↔ ∀ i e, ufds[i]? = some e → Quiet e (round.look i) → e.revents = 0 := by
  obtain ⟨n, hscan, rfl⟩ := scan_of_sysPoll hsleeps hcall hrc
  exact scan_exact_iff hscan

theorem poll_exact_second : ∃ quiet ready : Round, sysPoll (-1) [⟨3, 1, 7⟩] [quiet] = none ∧
    sysPoll (-1) [⟨3, 1, 7⟩] [quiet, ready] = some (1, [⟨3, 1, 1⟩]) ∧
      Exact [⟨3, 1, 7⟩] ready.look 1 [⟨3, 1, 1⟩] := by
  let quiet : Round := ⟨fun _ => .reports 0, true, .normal⟩
  have hsleeps : sysPoll (-1) [⟨3, 1, 7⟩] [quiet] = none := by decide
  have hcall : sysPoll (-1) [⟨3, 1, 7⟩] ([quiet] ++ [⟨fun _ => .reports 5, true, .normal⟩]) =
      some (1, [⟨3, 1, 1⟩]) := by
    decide
  refine ⟨quiet, _, hsleeps, hcall, (poll_exact_iff hsleeps hcall (by decide)).mpr fun i e hi hquiet => ?_⟩
  cases i with
  | zero =>
    cases hi
    exact absurd hquiet.2 (by decide)
  | succ i => cases hi

theorem poll_keeps_stale : sysPoll 0 [⟨3, 1, 1⟩] [⟨fun _ => .reports 0, true, .normal⟩] = some (0, [⟨3, 1, 1⟩]) ∧
    ¬ Exact [⟨3, 1, 1⟩] (fun _ => .reports 0) 0 [⟨3, 1, 1⟩] :=
  ⟨by decide, fun h => absurd h.2 (by decide)⟩

end Kairax.Proc
