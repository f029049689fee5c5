import Kairax.Errors
import Kairax.Lib.Bytes
import Kairax.Lib.Ring
import Kairax.Lib.Run

/-!
# Pipes

`pipe_read` and `pipe_write` work on a ring of `PIPE_SIZE` bytes under the lock of the pipe. A call that finds the
ring empty or full releases the lock and sleeps, so a call is a sequence of sections; each step is one section, in any
order.
-/

namespace Kairax.Ipc

open Lib List Option Function

/-- `PIPE_SIZE` -/
def pipeSize : Nat := 4096

/-- `struct pipe`. The positions are `loff_t`, which is unsigned. -/
structure Pipe where
  buffer : Buf
  refCount : Int
  locked : Bool
  writePos : BitVec 64
  readPos : BitVec 64
  checkEnds : Int
  nwritefds : Int
  nreadfds : Int

/-- `new_pipe`. The page behind the ring is not cleared. -/
def Pipe.new (buffer : Buf) : Pipe := ⟨buffer, 0, false, 0, 0, 0, 0, 0⟩

/-- The loop of `pipe_read`: up to `count` bytes are taken while there are any. -/
def Pipe.copyOut (p : Pipe) : Nat → List Byte × Pipe
  | 0 => ([], p)
  | count + 1 =>
    if p.readPos = p.writePos then ([], p)
    else
      let (bytes, p') := copyOut { p with readPos := p.readPos + 1 } count
      (p.buffer (p.readPos.toNat % pipeSize) :: bytes, p')

def Pipe.put (p : Pipe) (byte : Byte) : Pipe :=
  { p with
    buffer := update p.buffer (p.writePos.toNat % pipeSize) byte
    writePos := p.writePos + 1 }

/-- The ring has no free place. -/
def Pipe.Full (p : Pipe) : Prop := p.writePos = p.readPos + BitVec.ofNat 64 pipeSize

instance (p : Pipe) : Decidable p.Full := inferInstanceAs (Decidable (_ = _))

/-- The loop of `pipe_write` up to where it finds the ring full: the bytes that were put, and those that wait. -/
def Pipe.copyIn (p : Pipe) : List Byte → List Byte × List Byte × Pipe
  | [] => ([], [], p)
  | byte :: bytes =>
    if p.Full then ([], byte :: bytes, p)
    else
      let (put, rest, p') := copyIn (p.put byte) bytes
      (byte :: put, rest, p')

/-- A section of `pipe_read`: the bytes it returns, or nothing if it has to sleep. -/
def Pipe.readSection (p : Pipe) (count nonblock : Nat) : Option (List Byte) × Pipe :=
  if p.readPos = p.writePos then
    if p.checkEnds = 1 ∧ p.nwritefds = 0 then (some [], p)
    else if nonblock = 1 then (some [], p)
    else (none, p)
  else ((p.copyOut count).1, (p.copyOut count).2)

inductive PipeCall
  | reading (count nonblock : Nat)
  | writing (rest : List Byte)

/-- A pipe, the calls that sleep on it by thread, and all bytes that were put into it and returned from it. -/
structure PipeSystem where
  pipe : Pipe
  calls : Nat → Option PipeCall
  stored : List Byte
  returned : List Byte

def PipeSystem.start (buffer : Buf) : PipeSystem := ⟨.new buffer, fun _ => none, [], []⟩

inductive PipeOp
  | read (thread count nonblock : Nat)
  | write (thread : Nat) (bytes : List Byte)
  | resume (thread : Nat)
  | interrupt (thread : Nat)
  | ends (checkEnds nreadfds nwritefds : Int)
  deriving DecidableEq

namespace PipeSystem

def read (s : PipeSystem) (thread count nonblock : Nat) : PipeSystem :=
  match s.pipe.readSection count nonblock with
  | (none, p) => { s with pipe := p, calls := update s.calls thread (some (.reading count nonblock)) }
  | (some bytes, p) =>
    { s with pipe := p, calls := update s.calls thread none, returned := s.returned ++ bytes }

def write (s : PipeSystem) (thread : Nat) (bytes : List Byte) : PipeSystem :=
  let (put, rest, p) := s.pipe.copyIn bytes
  { s with
    pipe := p
    calls := update s.calls thread (if rest = [] then none else some (.writing rest))
    stored := s.stored ++ put }

/-- A thread enters a call, or wakes up because of the pipe or of a signal. A writer that finds no reader is refused
before it takes the lock. -/
def step (s : PipeSystem) : PipeOp → Option PipeSystem
  | .read thread count nonblock =>
    match s.calls thread with
    | none => some (s.read thread count nonblock)
    | some _ => none
  | .write thread bytes =>
    match s.calls thread with
    | none => if s.pipe.checkEnds = 1 ∧ s.pipe.nreadfds = 0 then some s else some (s.write thread bytes)
    | some _ => none
  | .resume thread =>
    match s.calls thread with
    | some (.reading count nonblock) => some (s.read thread count nonblock)
    | some (.writing rest) => some (s.write thread rest)
    | none => none
  | .interrupt thread =>
    match s.calls thread with
    | some _ => some { s with calls := update s.calls thread none }
    | none => none
  | .ends checkEnds nreadfds nwritefds =>
    some { s with pipe := { s.pipe with checkEnds := checkEnds, nreadfds := nreadfds, nwritefds := nwritefds } }

end PipeSystem

section Ring

variable {p : Pipe}

def Pipe.used (p : Pipe) : Nat := ringCount p.readPos p.writePos

def Pipe.contents (p : Pipe) : List Byte := ringContents pipeSize p.buffer p.readPos p.used

theorem Pipe.length_contents (p : Pipe) : p.contents.length = p.used := length_ringContents

theorem pipeSize_dvd : pipeSize ∣ 2 ^ 64 := by decide

theorem Pipe.copyOut_contents (p : Pipe) (count : Nat) :
    p.contents = (p.copyOut count).1 ++ (p.copyOut count).2.contents ∧ (p.copyOut count).2.used ≤ p.used := by
  induction count generalizing p with
  | zero => exact ⟨rfl, le_rfl⟩
  | succ count ih =>
    rw [copyOut]
    split_ifs with hempty
    · exact ⟨rfl, le_rfl⟩
    obtain ⟨hcontents, hused⟩ := ih { p with readPos := p.readPos + 1 }
    have hpop : used { p with readPos := p.readPos + 1 } + 1 = p.used := ringCount_pop hempty
    refine ⟨?_, hused.trans (hpop ▸ Nat.le_succ _)⟩
    rw [contents, ← hpop]
    exact congrArg _ hcontents

theorem Pipe.used_put (hlt : p.used < pipeSize) (byte : Byte) : (p.put byte).used = p.used + 1 :=
  ringCount_push (lt_of_le_of_lt hlt (by decide))

theorem Pipe.contents_put (hlt : p.used < pipeSize) (byte : Byte) : (p.put byte).contents = p.contents ++ [byte] := by
  rw [contents, used_put hlt]
  have hpush : ringContents pipeSize
      (update p.buffer ((p.readPos + BitVec.ofNat 64 p.used).toNat % pipeSize) byte) p.readPos (p.used + 1) =
      p.contents ++ [byte] := ringContents_push pipeSize_dvd hlt
  rwa [used, ← tail_eq_add_ringCount] at hpush

theorem Pipe.copyIn_contents (p : Pipe) (bytes : List Byte) (hused : p.used ≤ pipeSize) :
    (p.copyIn bytes).2.2.contents = p.contents ++ (p.copyIn bytes).1 ∧ (p.copyIn bytes).2.2.used ≤ pipeSize := by
  induction bytes generalizing p with
  | nil => exact ⟨(append_nil _).symm, hused⟩
  | cons byte bytes ih =>
    rw [copyIn]
    split_ifs with hfull
    · exact ⟨(append_nil _).symm, hused⟩
    rw [Full, eq_add_iff_ringCount (by decide)] at hfull
    have hlt : p.used < pipeSize := Nat.lt_of_le_of_ne hused hfull
    obtain ⟨hcontents, hroom⟩ := ih (p.put byte) ((Nat.le_of_eq (used_put hlt byte)).trans hlt)
    refine ⟨hcontents.trans ?_, hroom⟩
    rw [contents_put hlt, append_assoc]
    rfl

end Ring

/-- What readers got and what is in the ring is what writers put, in this order. -/
structure PipeSystem.Streams (s : PipeSystem) : Prop where
  room : s.pipe.used ≤ pipeSize
  bytes : s.stored = s.returned ++ s.pipe.contents

namespace PipeSystem

variable {s t : PipeSystem}

theorem Streams.read (hs : s.Streams) (thread count nonblock : Nat) : (s.read thread count nonblock).Streams := by
  rw [PipeSystem.read, Pipe.readSection]
  split_ifs
  · refine ⟨hs.room, ?_⟩
    dsimp only
    rw [append_nil]
    exact hs.bytes
  · refine ⟨hs.room, ?_⟩
    dsimp only
    rw [append_nil]
    exact hs.bytes
  · exact { hs with }
  · obtain ⟨hcontents, hused⟩ := s.pipe.copyOut_contents count
    refine ⟨hused.trans hs.room, ?_⟩
    rw [append_assoc, ← hcontents]
    exact hs.bytes

theorem Streams.write (hs : s.Streams) (thread : Nat) (bytes : List Byte) : (s.write thread bytes).Streams := by
  obtain ⟨hcontents, hused⟩ := s.pipe.copyIn_contents bytes hs.room
  refine ⟨hused, ?_⟩
  show s.stored ++ (s.pipe.copyIn bytes).1 = s.returned ++ (s.pipe.copyIn bytes).2.2.contents
  rw [hcontents, hs.bytes, append_assoc]

theorem Streams.step (hs : s.Streams) {op : PipeOp} (hstep : s.step op = some t) : t.Streams := by
  cases op with
  | read thread count nonblock =>
    rw [PipeSystem.step] at hstep
    split at hstep
    · exact some.inj hstep ▸ hs.read thread count nonblock
    · cases hstep
  | write thread bytes =>
    rw [PipeSystem.step] at hstep
    split at hstep
    · split_ifs at hstep
      · exact some.inj hstep ▸ hs
      · exact some.inj hstep ▸ hs.write thread bytes
    · cases hstep
  | resume thread =>
    rw [PipeSystem.step] at hstep
    split at hstep
    · exact some.inj hstep ▸ hs.read ..
    · exact some.inj hstep ▸ hs.write ..
    · cases hstep
  | interrupt thread =>
    rw [PipeSystem.step] at hstep
    split at hstep
    · exact some.inj hstep ▸ { hs with }
    · cases hstep
  | ends checkEnds nreadfds nwritefds => exact some.inj hstep ▸ { hs with }

/-- Over any interleaving the ring never holds more than its size, and what readers got is the beginning of what writers
put, the rest being in the ring. -/
theorem pipe_stream {buffer : Buf} {ops : List PipeOp} (hrun : Run step (fun _ _ => True) (start buffer) ops t) :
    ringCount t.pipe.readPos t.pipe.writePos ≤ pipeSize ∧ t.returned <+: t.stored ∧
      t.stored = t.returned ++ t.pipe.contents ∧
      t.pipe.contents.length = ringCount t.pipe.readPos t.pipe.writePos := by
  have hempty : (start buffer).pipe.used = 0 := ringCount_eq_zero.mpr rfl
  have hstart : (start buffer).Streams := by
    refine ⟨hempty ▸ Nat.zero_le _, ?_⟩
    rw [Pipe.contents, hempty]
    rfl
  have ht : t.Streams := hrun.invariant Streams (fun _ _ _ hs _ hstep => hs.step hstep) hstart
  exact ⟨ht.room, ⟨_, ht.bytes.symm⟩, ht.bytes, t.pipe.length_contents⟩

/-- Two writers and a reader: the first byte of the second message is read together with the first message. -/
theorem pipe_stream_two_writers :
    ∃ t, Run step (fun _ _ => True) (start fun _ => 0) [.write 0 [1, 2], .write 1 [3, 4], .read 2 3 0] t ∧
      t.returned = [1, 2, 3] ∧ t.returned <+: t.stored := by
  exact exists_run_of_replay_imp (fun t => t.returned = [1, 2, 3]) (by decide) fun t hrun hreturned =>
    ⟨hreturned, (pipe_stream hrun).2.1⟩

end PipeSystem

/-- A call with the bytes of its message that have entered the ring, and the value it returned. -/
structure WriteCall where
  system : PipeSystem
  entered : List Byte
  result : Option Int

namespace WriteCall

/-- A section of the call of thread `k`, which has `rest` still to put. -/
def attempt (s : PipeSystem) (k : Nat) (msg entered rest : List Byte) : WriteCall :=
  ⟨s.write k rest, entered ++ (s.pipe.copyIn rest).1, if (s.pipe.copyIn rest).2.1 = [] then some msg.length else none⟩

/-- `pipe_write` up to where it sleeps or returns. -/
def enter (s : PipeSystem) (k : Nat) (msg : List Byte) : WriteCall :=
  if s.pipe.checkEnds = 1 ∧ s.pipe.nreadfds = 0 then ⟨s, [], some (-epipe)⟩ else attempt s k msg [] msg

/-- A step of the system during the call. -/
def step (k : Nat) (msg : List Byte) (c : WriteCall) (op : PipeOp) : Option WriteCall :=
  if c.result ≠ none then none
  else if op = .resume k then
    match c.system.calls k with
    | some (.writing rest) => some (attempt c.system k msg c.entered rest)
    | _ => none
  else (c.system.step op).map fun t =>
    { c with system := t, result := if op = .interrupt k then some (-eintr) else none }

/-- As many bytes have entered as the call says, and none if it fails. -/
def Accounts (c : WriteCall) (rc : Int) : Prop := (0 ≤ rc → c.entered.length = rc) ∧ (rc < 0 → c.entered = [])

/-- Thread `k` finds the ring full whenever it wakes up to put more of its message. -/
def StaysFull (k : Nat) : PipeSystem → List PipeOp → Prop
  | _, [] => True
  | s, op :: ops => (op = .resume k → s.pipe.Full) ∧ ∀ t ∈ s.step op, StaysFull k t ops

/-- The call sleeps with the rest of its message, or it has ended in one of three ways. -/
structure Balanced (k : Nat) (msg : List Byte) (c : WriteCall) : Prop where
  asleep : c.result = none →
    ∃ rest, c.system.calls k = some (.writing rest) ∧ c.entered ++ rest = msg ∧ rest ≠ []
  ended : ∀ rc, c.result = some rc → rc = -epipe ∧ c.entered = [] ∨ rc = msg.length ∧ c.entered = msg ∨
    rc = -eintr ∧ c.entered <+: msg

variable {k : Nat} {msg rest : List Byte} {s t : PipeSystem} {c c' : WriteCall} {op : PipeOp}

theorem copyIn_append (p : Pipe) (bytes : List Byte) : (p.copyIn bytes).1 ++ (p.copyIn bytes).2.1 = bytes := by
  induction bytes generalizing p with
  | nil => rfl
  | cons byte bytes ih =>
    rw [Pipe.copyIn]
    split_ifs with hfull
    · rfl
    · exact congrArg (byte :: ·) (ih (p.put byte))

theorem copyIn_eq_nil_iff (p : Pipe) (hrest : rest ≠ []) : (p.copyIn rest).1 = [] ↔ p.Full := by
  obtain ⟨byte, bytes, rfl⟩ := exists_cons_of_ne_nil hrest
  rw [Pipe.copyIn]
  split_ifs with hfull
  · exact ⟨fun _ => hfull, fun _ => rfl⟩
  · exact ⟨nofun, fun h => absurd h hfull⟩

theorem balanced_attempt {entered : List Byte} (hmsg : entered ++ rest = msg) :
    (attempt s k msg entered rest).Balanced k msg := by
  have happend := copyIn_append s.pipe rest
  rw [attempt]
  split_ifs with hdone
  · refine ⟨nofun, fun rc hrc => .inr (.inl ⟨(some.inj hrc).symm, ?_⟩)⟩
    rw [hdone, append_nil] at happend
    rw [happend, hmsg]
  · refine ⟨fun _ => ⟨(s.pipe.copyIn rest).2.1, ?_, ?_, hdone⟩, nofun⟩
    · exact (update_self ..).trans (if_neg hdone)
    · rw [append_assoc, happend, hmsg]

theorem balanced_enter (s : PipeSystem) (k : Nat) (msg : List Byte) : (enter s k msg).Balanced k msg := by
  rw [enter]
  split_ifs
  · exact ⟨nofun, fun rc hrc => .inl ⟨(some.inj hrc).symm, rfl⟩⟩
  · exact balanced_attempt rfl

theorem calls_step {call : PipeCall} (hcall : s.calls k = some call) (hresume : op ≠ .resume k)
    (hinterrupt : op ≠ .interrupt k) (hstep : s.step op = some t) : t.calls k = some call := by
  have hother : ∀ thread call', thread ≠ k → update s.calls thread call' k = some call :=
    fun thread call' hne => (update_of_ne hne.symm ..).trans hcall
  have hread : ∀ thread count nonblock, thread ≠ k → (s.read thread count nonblock).calls k = some call := by
    intro thread count nonblock hne
    rw [PipeSystem.read]
    split <;> exact hother _ _ hne
  cases op with
  | read thread count nonblock =>
    rw [PipeSystem.step] at hstep
    split at hstep
    · rename_i hnone
      exact some.inj hstep ▸ hread _ _ _ fun heq => by cases hnone.symm.trans (heq ▸ hcall)
    · cases hstep
  | write thread bytes =>
    rw [PipeSystem.step] at hstep
    split at hstep
    · rename_i hnone
      split_ifs at hstep
      · exact some.inj hstep ▸ hcall
      · exact some.inj hstep ▸ hother _ _ fun heq => by cases hnone.symm.trans (heq ▸ hcall)
    · cases hstep
  | resume thread =>
    have hne : thread ≠ k := fun heq => hresume (heq ▸ rfl)
    rw [PipeSystem.step] at hstep
    split at hstep
    · exact some.inj hstep ▸ hread _ _ _ hne
    · exact some.inj hstep ▸ hother _ _ hne
    · cases hstep
  | interrupt thread =>
    rw [PipeSystem.step] at hstep
    split at hstep
    · exact some.inj hstep ▸ hother _ _ fun heq => hinterrupt (heq ▸ rfl)
    · cases hstep
  | ends => exact some.inj hstep ▸ hcall

theorem Balanced.step (hc : c.Balanced k msg) (hstep : c.step k msg op = some c') : c'.Balanced k msg := by
  by_cases hresult : c.result = none
  · obtain ⟨rest, hcall, hmsg, hrest⟩ := hc.asleep hresult
    rw [WriteCall.step, if_neg (not_not.mpr hresult)] at hstep
    split_ifs at hstep with hresume hinterrupt
    · rw [hcall] at hstep
      exact some.inj hstep ▸ balanced_attempt hmsg
    · obtain ⟨t, -, rfl⟩ := map_eq_some_iff.mp hstep
      exact ⟨nofun, fun rc hrc => .inr (.inr ⟨(some.inj hrc).symm, rest, hmsg⟩)⟩
    · obtain ⟨t, ht, rfl⟩ := map_eq_some_iff.mp hstep
      exact ⟨fun _ => ⟨rest, calls_step hcall hresume hinterrupt ht, hmsg, hrest⟩, nofun⟩
  · rw [WriteCall.step, if_pos hresult] at hstep
    cases hstep

theorem Balanced.step_spec (hc : c.Balanced k msg) (hstep : c.step k msg op = some c') :
    c.system.step op = some c'.system ∧
      (c'.entered = [] ↔ c.entered = [] ∧ (op = .resume k → c.system.pipe.Full)) ∧
      (op = .interrupt k → c'.result = some (-eintr)) ∧
      (op ≠ .interrupt k → c'.result ≠ some (-eintr)) := by
  by_cases hresult : c.result = none
  · obtain ⟨rest, hcall, -, hrest⟩ := hc.asleep hresult
    rw [WriteCall.step, if_neg (not_not.mpr hresult)] at hstep
    split_ifs at hstep with hresume hinterrupt
    · rw [hcall] at hstep
      subst hresume
      obtain rfl := some.inj hstep
      refine ⟨by rw [PipeSystem.step, hcall]; rfl, ?_, nofun, fun _ => ?_⟩
      · simp only [attempt, append_eq_nil_iff, copyIn_eq_nil_iff _ hrest, forall_const]
      · rw [attempt, eintr]
        split_ifs
        · exact fun h => absurd (some.inj h) (by omega)
        · nofun
    · obtain ⟨t, ht, rfl⟩ := map_eq_some_iff.mp hstep
      exact ⟨ht, ⟨fun h => ⟨h, fun heq => absurd heq hresume⟩, And.left⟩, fun _ => rfl, fun h => absurd hinterrupt h⟩
    · obtain ⟨t, ht, rfl⟩ := map_eq_some_iff.mp hstep
      exact ⟨ht, ⟨fun h => ⟨h, fun heq => absurd heq hresume⟩, And.left⟩, fun h => absurd h hinterrupt, fun _ => nofun⟩
  · rw [WriteCall.step, if_pos hresult] at hstep
    cases hstep

theorem eq_of_run_ended {ops : List PipeOp} (hrun : Run (WriteCall.step k msg) (fun _ _ => True) c ops c')
    (hresult : c.result ≠ none) : ops = [] ∧ c' = c := by
  cases hrun with
  | nil => exact ⟨rfl, rfl⟩
  | cons _ hstep _ =>
    rw [WriteCall.step, if_pos hresult] at hstep
    cases hstep

theorem Balanced.interrupted_iff {ops : List PipeOp} (hc : c.Balanced k msg)
    (hrun : Run (WriteCall.step k msg) (fun _ _ => True) c ops c') (hresult : c.result ≠ some (-eintr)) :
    (c'.result = some (-eintr) ↔ .interrupt k ∈ ops) ∧
      (c'.entered = [] ↔ c.entered = [] ∧ StaysFull k c.system ops) := by
  induction hrun with
  | nil => exact ⟨⟨fun h => absurd h hresult, nofun⟩, fun h => ⟨h, trivial⟩, And.left⟩
  | @cons c c₁ c' op ops _ hstep hrest ih =>
    obtain ⟨hsystem, hentered, hsignal, hother⟩ := hc.step_spec hstep
    have hfull : StaysFull k c.system (op :: ops) ↔
        (op = .resume k → c.system.pipe.Full) ∧ StaysFull k c₁.system ops := by
      simp only [StaysFull, hsystem, mem_def, some.injEq, forall_eq']
    by_cases hinterrupt : op = .interrupt k
    · obtain ⟨rfl, rfl⟩ := eq_of_run_ended hrest (by rw [hsignal hinterrupt]; nofun)
      refine ⟨⟨fun _ => by rw [hinterrupt]; exact mem_cons_self, fun _ => hsignal hinterrupt⟩, ?_⟩
      rw [hentered, hfull, StaysFull, and_true]
    · obtain ⟨hends, hempty⟩ := ih (hc.step hstep) (hother hinterrupt)
      rw [hends, hempty, hentered, hfull, and_assoc, mem_cons, or_iff_right (Ne.symm hinterrupt)]
      exact ⟨.rfl, .rfl⟩

/-- What enters the ring in a call is the beginning of its message. The result accounts for it if and only if a signal
ends the call only when the writer has found the ring full, at the beginning and whenever it woke up. -/
theorem write_accounts_iff (s : PipeSystem) (k : Nat) (msg : List Byte) {ops : List PipeOp} {rc : Int}
    (hrun : Run (WriteCall.step k msg) (fun _ _ => True) (enter s k msg) ops c) (hrc : c.result = some rc) :
    c.entered <+: msg ∧
      (c.Accounts rc ↔ (.interrupt k ∈ ops → s.pipe.Full ∧ StaysFull k (s.write k msg) ops)) := by
  have hstart := balanced_enter s k msg
  have hc := hrun.invariant (Balanced k msg) (fun _ _ _ hs _ hstep => hs.step hstep) hstart
  have hnot : (enter s k msg).result ≠ some (-eintr) := by
    rw [enter, attempt, eintr]
    split_ifs
    · exact fun h => absurd (some.inj h) (by decide)
    · exact fun h => absurd (some.inj h) (by omega)
    · nofun
  obtain ⟨hends, hempty⟩ := hstart.interrupted_iff hrun hnot
  rw [hrc, some.injEq] at hends
  obtain ⟨rfl, hnone⟩ | ⟨rfl, hall⟩ | ⟨rfl, hpart⟩ := hc.ended rc hrc
  · rw [← hends, Accounts, hnone]
    exact ⟨ nil_prefix, fun _ h => absurd h (by decide), fun _ => ⟨fun h => absurd h (by decide), fun _ => rfl⟩⟩
  · rw [← hends, Accounts, hall, eintr]
    exact ⟨prefix_rfl, fun _ h => absurd h (by omega), fun _ => ⟨fun _ => rfl, fun h => absurd h (by omega)⟩⟩
  · have hasleep : (enter s k msg).result = none := by
      by_contra hended
      obtain ⟨-, rfl⟩ := eq_of_run_ended hrun hended
      exact hnot hrc
    have hwrite : (enter s k msg).system = s.write k msg ∧ ((enter s k msg).entered = [] ↔ s.pipe.Full) := by
      rw [enter, attempt] at hasleep ⊢
      split_ifs at hasleep ⊢ with hbroken hdone
      refine ⟨rfl, copyIn_eq_nil_iff _ ?_⟩
      rintro rfl
      exact hdone rfl
    rw [hwrite.1, hwrite.2] at hempty
    refine ⟨hpart, ?_⟩
    rw [← hempty]
    exact ⟨fun h _ => h.2 (by decide), fun h => ⟨fun hneg => absurd hneg (by decide), fun _ => h (hends.mp rfl)⟩⟩

/-- A message of two bytes for a ring with one free place, and a reader that makes room. -/
theorem write_accounts_whole :
    ∃ c, Run (WriteCall.step 0 [1, 2]) (fun _ _ => True)
        (enter { PipeSystem.start fun _ => 0 with pipe := { Pipe.new fun _ => 0 with writePos := 4095 } } 0 [1, 2])
        [.read 1 1 0, .resume 0] c ∧ c.result = some 2 ∧ c.Accounts 2 :=
  exists_run_of_replay_imp (fun c => c.result = some 2) (by decide) fun _ hrun hrc =>
    ⟨hrc, (write_accounts_iff _ _ _ hrun hrc).2.mpr fun h => by simp at h⟩

/-- Instead of the reader a signal comes: the call fails, and the first byte is in the ring. -/
theorem write_interrupted_with_byte :
    ∃ c, Run (WriteCall.step 0 [1, 2]) (fun _ _ => True)
        (enter { PipeSystem.start fun _ => 0 with pipe := { Pipe.new fun _ => 0 with writePos := 4095 } } 0 [1, 2])
        [.interrupt 0] c ∧ c.result = some (-eintr) ∧ c.entered = [1] :=
  exists_run_of_replay (by decide)

end WriteCall

end Kairax.Ipc
