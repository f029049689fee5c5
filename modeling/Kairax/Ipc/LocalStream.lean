import Kairax.Ipc.LocalRefs

/-!
# The stream between two local sockets

A message is put into the queue of the receiver as a bucket. A receive looks at the queue, may sleep, and then copies
what it can under the lock. When the sender closes, a receive which begins then is refused, whatever is in the queue.
-/

namespace Kairax.Ipc

open Lib List Option Function

/-- The loop of `sock_local_recvfrom_stream` with the number of bytes still to read. A bucket is removed when all of it
is read. -/
def copyBuckets : Nat → List Bucket → Option (List Byte × List Bucket)
  | 0, queue => some ([], queue)
  | _ + 1, [] => none
  | remain + 1, bucket :: queue =>
    let n := min (bucket.data.length - bucket.offset) (remain + 1)
    let bytes := (bucket.data.drop bucket.offset).take n
    if bucket.data.length = bucket.offset + n then
      (copyBuckets (remain + 1 - n) queue).map fun (rest, queue) => (bytes ++ rest, queue)
    else some (bytes, { bucket with offset := bucket.offset + n } :: queue)

inductive Receive
  | asleep (len : Nat)
  | ready (len : Nat)
  deriving DecidableEq

namespace Locals

/-- `sock_local_sendto` -/
def sendto (s : Locals) (k : Nat) (msg : List Byte) : Option (Int × Locals) :=
  (s.deref k).bind fun d =>
    if d.state ≠ .connected then some (-enotconn, s)
    else d.peer.bind fun peer => (s.deref peer).map fun p =>
      (0, s.set peer { p with rxQueue := p.rxQueue ++ [⟨msg, 0⟩], rxAvailable := p.rxAvailable + msg.length })

/-- `sock_local_recvfrom_stream` up to where it sleeps or takes the lock. -/
def recvStart (s : Locals) (k len : Nat) (dontwait : Bool) : Option (Int ⊕ Receive) :=
  (s.deref k).map fun d =>
    if d.state ≠ .connected then .inl (-enotconn)
    else match d.rxQueue with
      | [] => if dontwait then .inl (-eagain) else .inr (.asleep len)
      | _ :: _ => .inr (.ready len)

def recvWake (s : Locals) (k len : Nat) : Option (Int ⊕ Receive) :=
  (s.deref k).map fun d =>
    match d.rxQueue with
    | [] => .inl (if d.state ≠ .connected ∧ d.peerDisconnected then 0 else -eintr)
    | _ :: _ => .inr (.ready len)

def recvCopy (s : Locals) (k len : Nat) : Option (List Byte × Locals) :=
  (s.deref k).bind fun d =>
    (copyBuckets (min len d.rxAvailable) d.rxQueue).map fun (bytes, queue) =>
      (bytes, s.set k { d with rxQueue := queue, rxAvailable := d.rxAvailable - bytes.length })

end Locals

/-- The sockets, the receives in progress, and the bytes that were sent and received so far. -/
structure Stream where
  locals : Locals
  calls : List Receive
  sent : List Byte
  received : List Byte

inductive StreamOp
  | send (msg : List Byte)
  | recv (len : Nat) (dontwait : Bool)
  | wake (i : Nat)
  | copy (i : Nat)
  | close
  deriving DecidableEq

namespace Stream

/-- A pair that is just connected, or has been used before: what is in the queue counts as sent. -/
def new (l : Locals) (b : Nat) : Stream := ⟨l, [], unread (l.socks b).rxQueue, []⟩

def queued (s : Stream) (b : Nat) : List Byte := unread (s.locals.socks b).rxQueue

/-- One part of a call, with what the call returns if it ends there. The sender is `a` and the receiver `b`. -/
def turn (a b : Nat) (s : Stream) : StreamOp → Option (Stream × Option Int)
  | .send msg =>
    if a ∈ s.locals.opened then
      (s.locals.sendto a msg).map fun (rc, l) =>
        ({ s with locals := l, sent := if rc = 0 then s.sent ++ msg else s.sent }, some rc)
    else none
  | .recv len dontwait =>
    (s.locals.recvStart b len dontwait).map fun
      | .inl rc => (s, some rc)
      | .inr call => ({ s with calls := s.calls ++ [call] }, none)
  | .wake i =>
    match s.calls[i]? with
    | some (.asleep len) => (s.locals.recvWake b len).map fun
        | .inl rc => ({ s with calls := s.calls.eraseIdx i }, some rc)
        | .inr call => ({ s with calls := s.calls.set i call }, none)
    | _ => none
  | .copy i =>
    match s.calls[i]? with
    | some (.ready len) => (s.locals.recvCopy b len).map fun (bytes, l) =>
      (⟨l, s.calls.eraseIdx i, s.sent, s.received ++ bytes⟩, some bytes.length)
    | _ => none
  | .close => if a ∈ s.locals.opened then (s.locals.close a).map fun l => ({ s with locals := l }, some 0) else none

def step (a b : Nat) (s : Stream) (op : StreamOp) : Option Stream := (s.turn a b op).map Prod.fst

def Reports (s : Stream) (op : StreamOp) (rc : Int) : Prop :=
  match op with
  | .recv _ _ => True
  | .wake _ => True
  | .copy i => rc ≤ 0 ∧ ∃ len, s.calls[i]? = some (.ready len) ∧ 0 < len
  | _ => False

/-- No receive reports the end of the stream or an error before all has been received. -/
def Drains (a b : Nat) (s : Stream) : Prop :=
  ∀ op s' rc, s.turn a b op = some (s', some rc) → s.Reports op rc → s.queued b = []

end Stream

/-- The bytes are taken from the front of a queue. Of its buckets the last ones are left, and one that was read from has
something left to read. -/
structure Takes (bytes : List Byte) (queue queue' : List Bucket) : Prop where
  bytes : bytes ++ unread queue' = unread queue
  left : queue'.map (·.data) <:+ queue.map (·.data)
  kept : ∀ bucket ∈ queue', bucket ∈ queue ∨ bucket.offset < bucket.data.length

theorem Takes.refl (queue : List Bucket) : Takes [] queue queue := ⟨rfl, suffix_rfl, fun _ => .inl⟩

theorem Takes.cons {bytes : List Byte} {queue queue' : List Bucket} (htakes : Takes bytes queue queue')
    (bucket : Bucket) : Takes (bucket.data.drop bucket.offset ++ bytes) (bucket :: queue) queue' :=
  ⟨by rw [append_assoc, htakes.bytes, unread_cons], htakes.left.trans (suffix_cons ..),
    fun b hb => (htakes.kept b hb).imp_left (mem_cons_of_mem _)⟩

theorem Takes.offsets {bytes : List Byte} {queue queue' : List Bucket} (htakes : Takes bytes queue queue')
    (hoffsets : ∀ bucket ∈ queue, bucket.offset ≤ bucket.data.length) :
    ∀ bucket ∈ queue', bucket.offset ≤ bucket.data.length :=
  fun bucket hbucket => (htakes.kept bucket hbucket).elim (hoffsets bucket) Nat.le_of_lt

theorem copyBuckets_spec {queue : List Bucket} (hoffsets : ∀ bucket ∈ queue, bucket.offset ≤ bucket.data.length)
    {n : Nat} (hn : n ≤ (unread queue).length) :
    ∃ bytes queue', copyBuckets n queue = some (bytes, queue') ∧ Takes bytes queue queue' ∧ bytes.length = n := by
  induction queue generalizing n with
  | nil =>
    obtain rfl : n = 0 := Nat.le_zero.mp hn
    exact ⟨[], [], rfl, .refl _, rfl⟩
  | cons bucket queue ih =>
    cases n with
    | zero => exact ⟨[], bucket :: queue, rfl, .refl _, rfl⟩
    | succ remain =>
      obtain ⟨hbucket, hqueue⟩ := forall_mem_cons.mp hoffsets
      rw [unread_cons, length_append, length_drop] at hn
      rw [copyBuckets]
      split_ifs with hall
      · have hmin : min (bucket.data.length - bucket.offset) (remain + 1) = bucket.data.length - bucket.offset := by
          omega
        have htake : (bucket.data.drop bucket.offset).take (bucket.data.length - bucket.offset) =
            bucket.data.drop bucket.offset := take_of_length_le (by rw [length_drop])
        obtain ⟨bytes, queue', hcopy, htakes, hlength⟩ :=
          ih hqueue (n := remain + 1 - (bucket.data.length - bucket.offset)) (by omega)
        rw [hmin, htake, hcopy]
        refine ⟨_, queue', rfl, htakes.cons bucket, ?_⟩
        rw [length_append, length_drop, hlength]
        omega
      · have hmin : min (bucket.data.length - bucket.offset) (remain + 1) = remain + 1 := by omega
        refine ⟨_, _, rfl, ⟨?_, suffix_rfl, forall_mem_cons.mpr ⟨.inr ?_, fun b hb => .inl (mem_cons_of_mem _ hb)⟩⟩, ?_⟩
        · rw [unread_cons, unread_cons, ← append_assoc, ← drop_drop, take_append_drop]
        · dsimp only
          omega
        · rw [length_take, length_drop]
          omega

structure Locals.Connected (l : Locals) (a b : Nat) : Prop where
  sender : (l.socks a).state = .connected
  receiver : (l.socks b).state = .connected
  peer : (l.socks a).peer = some b
  back : (l.socks b).peer = some a

theorem Locals.Connected.symm {l : Locals} {a b : Nat} (hconnected : l.Connected a b) : l.Connected b a :=
  ⟨hconnected.receiver, hconnected.sender, hconnected.back, hconnected.peer⟩

/-- A connected pair of stream sockets that are both open. -/
structure Locals.Paired (l : Locals) (a b : Nat) : Prop extends l.Connected a b where
  sound : l.Sound
  opened : a ∈ l.opened ∧ b ∈ l.opened
  stream : (l.socks a).ops = .stream ∧ (l.socks b).ops = .stream
  available : (l.socks b).rxAvailable = (unread (l.socks b).rxQueue).length
  offsets : ∀ bucket ∈ (l.socks b).rxQueue, bucket.offset ≤ bucket.data.length

theorem Locals.Sound.paired {l : Locals} (hsound : l.Sound) {a b : Nat} (ha : a ∉ l.made) (hb : b ∉ l.made)
    (hne : a ≠ b) : ∃ l', l.pair a b .stream = some l' ∧ l'.Paired a b ∧ l'.Paired b a := by
  obtain ⟨l', hpair, hsound', hopened, hsocka, hsockb⟩ := hsound.pair ha hb hne .stream
  have hconnected : l'.Connected a b := ⟨by rw [hsocka], by rw [hsockb], by rw [hsocka], by rw [hsockb]⟩
  have hstream : (l'.socks a).ops = .stream ∧ (l'.socks b).ops = .stream := by
    rw [hsocka, hsockb]
    exact ⟨rfl, rfl⟩
  refine ⟨l', hpair, ⟨hconnected, hsound', hopened, hstream, ?_, ?_⟩,
    ⟨hconnected.symm, hsound', hopened.symm, hstream.symm, ?_, ?_⟩⟩
  · rw [hsockb]
    rfl
  · rw [hsockb]
    nofun
  · rw [hsocka]
    rfl
  · rw [hsocka]
    nofun

namespace Stream

structure Flows (a b : Nat) (s : Stream) : Prop where
  sound : s.locals.Sound
  receiver : b ∈ s.locals.opened
  account : s.received ++ s.queued b = s.sent
  available : (s.locals.socks b).rxAvailable = (s.queued b).length
  offsets : ∀ bucket ∈ (s.locals.socks b).rxQueue, bucket.offset ≤ bucket.data.length
  connected : a ∈ s.locals.opened → s.locals.Connected a b
  cut : a ∉ s.locals.opened → (s.locals.socks b).state = .unconnected

variable {a b : Nat} {s s' : Stream}

theorem Flows.start {l : Locals} (hpaired : l.Paired a b) : Flows a b (new l b) :=
  ⟨hpaired.sound, hpaired.opened.2, rfl, hpaired.available, hpaired.offsets, fun _ => hpaired.toConnected,
    fun h => absurd hpaired.opened.1 h⟩

variable (hflows : s.Flows a b)

include hflows

theorem Flows.deref : s.locals.deref b = some (s.locals.socks b) :=
  hflows.sound.deref hflows.receiver

theorem Flows.ne : a ≠ b := by
  intro heq
  have hpeer := (hflows.connected (heq ▸ hflows.receiver)).peer
  rw [← heq] at hpeer
  exact (hflows.sound.fits a).own hpeer

theorem Flows.refill (queue : List Bucket) (available : Nat) (calls : List Receive)
    {sent received : List Byte} (hoffsets : ∀ bucket ∈ queue, bucket.offset ≤ bucket.data.length)
    (havailable : available = (unread queue).length) (haccount : received ++ unread queue = sent) :
    Flows a b ⟨s.locals.set b { s.locals.socks b with rxQueue := queue, rxAvailable := available },
      calls, sent, received⟩ := by
  generalize hd : ({ s.locals.socks b with rxQueue := queue, rxAvailable := available } : LocalSocket) = d
  have hstate : d.state = (s.locals.socks b).state := by rw [← hd]
  have hpeer : d.peer = (s.locals.socks b).peer := by rw [← hd]
  have hself : (s.locals.set b d).socks b = d := update_self ..
  have hsender : (s.locals.set b d).socks a = s.locals.socks a := update_of_ne hflows.ne ..
  refine ⟨?_, hflows.receiver, ?_, ?_, ?_, fun ha => ?_, fun ha => ?_⟩
  · have hbacklog : d.backlog = (s.locals.socks b).backlog := by rw [← hd]
    have hfits := (hflows.sound.fits b).of_eq hpeer hbacklog hstate (by rw [← hd])
    exact hflows.sound.set hflows.receiver hfits (by rw [← hd]) hpeer (by rw [← hd])
  · rw [queued, hself, ← hd]
    exact haccount
  · rw [queued, hself, ← hd]
    exact havailable
  · rw [hself, ← hd]
    exact hoffsets
  · obtain ⟨hsent, hreceived, hto, hback⟩ := hflows.connected ha
    exact ⟨by rw [hsender, hsent], by rw [hself, hstate, hreceived], by rw [hsender, hto], by rw [hself, hpeer, hback]⟩
  · rw [hself, hstate]
    exact hflows.cut ha

theorem Flows.calls (calls : List Receive) : Flows a b { s with calls := calls } :=
  { hflows with }

omit hflows

/-- Socket `a` is as before, and no socket was opened or closed. -/
def Leaves (s : Stream) (a : Nat) (s' : Stream) : Prop :=
  s'.locals.socks a = s.locals.socks a ∧ s'.locals.opened = s.locals.opened

include hflows

theorem Flows.sendto (ha : a ∈ s.locals.opened) (msg : List Byte) :
    s.locals.sendto a msg = some (0, s.locals.set b { s.locals.socks b with
      rxQueue := (s.locals.socks b).rxQueue ++ [⟨msg, 0⟩]
      rxAvailable := (s.locals.socks b).rxAvailable + msg.length }) := by
  have hconnected := hflows.connected ha
  rw [Locals.sendto, hflows.sound.deref ha, bind_some, if_neg (not_not.mpr hconnected.sender), hconnected.peer,
    bind_some, hflows.deref]
  rfl

theorem Flows.send (ha : a ∈ s.locals.opened) (msg : List Byte) :
    ∃ s', s.turn a b (.send msg) = some (s', some 0) ∧ Flows a b s' ∧ s.Leaves a s' := by
  rw [turn, if_pos ha, hflows.sendto ha]
  refine ⟨_, rfl, hflows.refill _ _ _ ?_ ?_ ?_, update_of_ne hflows.ne .., rfl⟩
  · rw [forall_mem_append]
    exact ⟨hflows.offsets, forall_mem_singleton.mpr (Nat.zero_le _)⟩
  · rw [unread_concat, length_append, hflows.available]
    rfl
  · rw [unread_concat, ← append_assoc, ← hflows.account]
    rfl

theorem Flows.recvCopy (len : Nat) :
    ∃ bytes queue, s.locals.recvCopy b len = some (bytes, s.locals.set b { s.locals.socks b with
        rxQueue := queue, rxAvailable := (s.locals.socks b).rxAvailable - bytes.length }) ∧
      Takes bytes (s.locals.socks b).rxQueue queue ∧ bytes.length = min len (s.locals.socks b).rxAvailable := by
  obtain ⟨bytes, queue, hcopy, htakes, hlength⟩ := copyBuckets_spec hflows.offsets (min_le_right len _)
  have havailable : _ = (unread (s.locals.socks b).rxQueue).length := hflows.available
  rw [← havailable] at hcopy hlength
  refine ⟨bytes, queue, ?_, htakes, hlength⟩
  rw [Locals.recvCopy, hflows.deref, bind_some, hcopy]
  rfl

theorem Flows.copy {i len : Nat} (hcall : s.calls[i]? = some (.ready len)) :
    ∃ s' bytes, s.turn a b (.copy i) = some (s', some (bytes.length : Int)) ∧ Flows a b s' ∧
      s'.received = s.received ++ bytes ∧ bytes ++ s'.queued b = s.queued b ∧
      bytes.length = min len (s.queued b).length ∧ s.Leaves a s' := by
  obtain ⟨bytes, queue, hcopy, htakes, hlength⟩ := hflows.recvCopy len
  have hbytes := htakes.bytes
  have havailable : _ = (unread (s.locals.socks b).rxQueue).length := hflows.available
  rw [turn, hcall]
  dsimp only
  rw [hcopy]
  refine ⟨_, bytes, rfl, hflows.refill _ _ _ (htakes.offsets hflows.offsets) ?_ ?_, rfl, ?_,
    hflows.available ▸ hlength, update_of_ne hflows.ne .., rfl⟩
  · have hsum := congrArg length hbytes
    rw [length_append] at hsum
    omega
  · rw [append_assoc, hbytes]
    exact hflows.account
  · rw [queued, queued, ← hbytes]
    show _ ++ unread (update s.locals.socks b _ b).rxQueue = _
    rw [update_self]

theorem Flows.close (ha : a ∈ s.locals.opened) :
    ∃ s', s.turn a b .close = some (s', some 0) ∧ Flows a b s' ∧ a ∉ s'.locals.opened ∧ s'.queued b = s.queued b := by
  have hconnected := hflows.connected ha
  obtain ⟨l, hclose, hsound, hopened, hcut⟩ := hflows.sound.close ha fun j hj => by
    cases hconnected.peer.symm.trans hj
    exact ⟨hflows.receiver, hconnected.back⟩
  have hsock := hcut b hconnected.peer
  have hgone : a ∉ l.opened := by
    rw [hopened]
    exact Finset.notMem_erase a _
  have hqueued : unread (l.socks b).rxQueue = s.queued b := by
    rw [hsock]
    rfl
  rw [turn, if_pos ha, hclose]
  refine ⟨_, rfl, ⟨hsound, ?_, ?_, ?_, ?_, fun h => absurd h hgone, fun _ => ?_⟩, hgone, hqueued⟩
  · rw [hopened]
    exact Finset.mem_erase.mpr ⟨hflows.ne.symm, hflows.receiver⟩
  · show s.received ++ unread (l.socks b).rxQueue = s.sent
    rw [hqueued]
    exact hflows.account
  · show (l.socks b).rxAvailable = (unread (l.socks b).rxQueue).length
    rw [hsock]
    exact hflows.available
  · rw [hsock]
    exact hflows.offsets
  · rw [hsock]

theorem Flows.turn {op : StreamOp} {r : Option Int} (hturn : s.turn a b op = some (s', r)) :
    Flows a b s' ∧ (op ≠ .close → s.Leaves a s') ∧
      (a ∉ s.locals.opened → a ∉ s'.locals.opened ∧ ∃ bytes, bytes ++ s'.queued b = s.queued b) := by
  cases op with
  | send msg =>
    by_cases ha : a ∈ s.locals.opened
    · obtain ⟨t, hsend, hflows', hleaves⟩ := hflows.send ha msg
      obtain ⟨rfl, -⟩ := Prod.mk.inj (Option.some.inj (hsend.symm.trans hturn))
      exact ⟨hflows', fun _ => hleaves, fun h => absurd ha h⟩
    · rw [Stream.turn, if_neg ha] at hturn
      cases hturn
  | recv len dontwait =>
    obtain ⟨result, -, hresult⟩ := Option.map_eq_some_iff.mp hturn
    cases result with
    | inl rc =>
      cases hresult
      exact ⟨hflows, fun _ => ⟨rfl, rfl⟩, fun ha => ⟨ha, [], rfl⟩⟩
    | inr call =>
      cases hresult
      exact ⟨hflows.calls _, fun _ => ⟨rfl, rfl⟩, fun ha => ⟨ha, [], rfl⟩⟩
  | wake i =>
    rw [Stream.turn] at hturn
    split at hturn
    · obtain ⟨result, -, hresult⟩ := Option.map_eq_some_iff.mp hturn
      cases result with
      | inl rc | inr call =>
        cases hresult
        exact ⟨hflows.calls _, fun _ => ⟨rfl, rfl⟩, fun ha => ⟨ha, [], rfl⟩⟩
    · cases hturn
  | copy i =>
    have hready : ∃ len, s.calls[i]? = some (.ready len) := by
      rw [Stream.turn] at hturn
      split at hturn
      · rename_i len hcall
        exact ⟨len, hcall⟩
      · cases hturn
    obtain ⟨len, hcall⟩ := hready
    obtain ⟨t, bytes, hcopy, hflows', -, hbytes, -, hleaves⟩ := hflows.copy hcall
    obtain ⟨rfl, -⟩ := Prod.mk.inj (Option.some.inj (hcopy.symm.trans hturn))
    exact ⟨hflows', fun _ => hleaves, fun ha => ⟨hleaves.2 ▸ ha, bytes, hbytes⟩⟩
  | close =>
    by_cases ha : a ∈ s.locals.opened
    · obtain ⟨t, hclose, hflows', -⟩ := hflows.close ha
      obtain ⟨rfl, -⟩ := Prod.mk.inj (Option.some.inj (hclose.symm.trans hturn))
      exact ⟨hflows', fun h => absurd rfl h, fun h => absurd ha h⟩
    · rw [Stream.turn, if_neg ha] at hturn
      cases hturn

omit hflows

theorem turn_of_step {op : StreamOp} (hstep : s.step a b op = some s') : ∃ r, s.turn a b op = some (s', r) := by
  obtain ⟨⟨t, r⟩, hturn, rfl⟩ := map_eq_some_iff.mp hstep
  exact ⟨r, hturn⟩

theorem Flows.of_run {ops : List StreamOp} (hrun : Run (step a b) (fun _ _ => True) s ops s') (hflows : s.Flows a b) :
    s'.Flows a b := by
  refine hrun.invariant (Flows a b) (fun s op t hflows _ hstep => ?_) hflows
  obtain ⟨r, hturn⟩ := turn_of_step hstep
  exact (hflows.turn hturn).1

include hflows

theorem Flows.drains_of_run (hgone : a ∉ s.locals.opened) (hempty : s.queued b = [])
    {ops : List StreamOp} (hrun : Run (step a b) (fun _ _ => True) s ops s') : s'.Drains a b := by
  have hinv : s'.Flows a b ∧ a ∉ s'.locals.opened ∧ s'.queued b = [] := by
    refine hrun.invariant (fun s => s.Flows a b ∧ a ∉ s.locals.opened ∧ s.queued b = [])
      (fun s op t hs _ hstep => ?_) ⟨hflows, hgone, hempty⟩
    obtain ⟨r, hturn⟩ := turn_of_step hstep
    obtain ⟨hflows', -, hshorter⟩ := hs.1.turn hturn
    obtain ⟨hgone', bytes, hbytes⟩ := hshorter hs.2.1
    rw [hs.2.2, append_eq_nil_iff] at hbytes
    exact ⟨hflows', hgone', hbytes.2⟩
  exact fun _ _ _ _ _ => hinv.2.2

theorem Flows.recv_refused (hgone : a ∉ s.locals.opened) (len : Nat) (dontwait : Bool) :
    s.turn a b (.recv len dontwait) = some (s, some (-enotconn)) := by
  rw [Stream.turn, Locals.recvStart, hflows.deref, map_some, hflows.cut hgone]
  rfl

omit hflows

/-- What has been received is a prefix of what was sent and the rest is queued, and a receive gets as much of it as it
asked for. When the sender closes, the rest is received if and only if there is none. -/
theorem stream_loses_nothing {l : Locals} (hpaired : l.Paired a b) {ops : List StreamOp} {t : Stream}
    (hrun : Run (step a b) (fun _ _ => True) (new l b) ops t) :
    t.received <+: t.sent ∧ t.received ++ t.queued b = t.sent ∧
    (∀ i len, t.calls[i]? = some (.ready len) → ∃ t' bytes,
      t.turn a b (.copy i) = some (t', some (bytes.length : Int)) ∧
      t'.received = t.received ++ bytes ∧ bytes.length = min len (t.queued b).length) ∧
    (a ∈ t.locals.opened → ∃ t', t.turn a b .close = some (t', some 0) ∧
      ((∀ ops' u, Run (step a b) (fun _ _ => True) t' ops' u → u.Drains a b) ↔ t.queued b = [])) := by
  have hflows := Flows.of_run hrun (.start hpaired)
  refine ⟨⟨_, hflows.account⟩, hflows.account, fun i len hcall => ?_, fun ha => ?_⟩
  · obtain ⟨t', bytes, hcopy, -, hreceived, -, hlength, -⟩ := hflows.copy hcall
    exact ⟨t', bytes, hcopy, hreceived, hlength⟩
  · obtain ⟨t', hclose, hflows', hgone, hqueued⟩ := hflows.close ha
    refine ⟨t', hclose, fun hdrains => ?_, fun hempty => ?_⟩
    · rw [← hqueued]
      exact hdrains [] t' (.nil t') _ _ _ (hflows'.recv_refused hgone 1 true) trivial
    · intro ops' u hrest
      exact hflows'.drains_of_run hgone (hqueued.trans hempty) hrest

/-- Two messages, a receive of the first three of their five bytes, and a close with two bytes in the queue. -/
theorem stream_loses_nothing_split :
    ∃ l t, l.Paired 0 1 ∧ Run (step 0 1) (fun _ _ => True) (new l 1)
        [.recv 3 false, .send [10, 11], .send [12, 13, 14], .wake 0, .copy 0] t ∧
      t.received = [10, 11, 12] ∧ t.queued 1 = [13, 14] ∧
      ∃ t', t.turn 0 1 .close = some (t', some 0) ∧
        ¬ ∀ ops u, Run (step 0 1) (fun _ _ => True) t' ops u → u.Drains 0 1 := by
  obtain ⟨l, hpair, hpaired, -⟩ := Locals.sound_start.paired (a := 0) (b := 1) (by decide) (by decide) (by decide)
  have hreplay : ((Locals.start.pair 0 1 .stream).bind fun l => replay (step 0 1) (fun _ _ => True) (new l 1)
      [.recv 3 false, .send [10, 11], .send [12, 13, 14], .wake 0, .copy 0]).any (fun t =>
        decide (t.received = [10, 11, 12] ∧ t.queued 1 = [13, 14] ∧ 0 ∈ t.locals.opened)) = true := by decide
  rw [hpair] at hreplay
  obtain ⟨t, hrun, hreceived, hqueued, hopened⟩ := exists_run_of_replay hreplay
  obtain ⟨t', hclose, hiff⟩ := (stream_loses_nothing hpaired hrun).2.2.2 hopened
  refine ⟨l, t, hpaired, hrun, hreceived, hqueued, t', hclose, fun hdrains => ?_⟩
  have hempty := hiff.mp hdrains
  rw [hqueued] at hempty
  cases hempty

/-- A message is sent and the sender closes. The receive that comes then is refused. -/
theorem recv_after_close_refused :
    ∃ l t, l.Paired 0 1 ∧ Run (step 0 1) (fun _ _ => True) (new l 1) [.send [7], .close] t ∧
      t.turn 0 1 (.recv 1 false) = some (t, some (-enotconn)) ∧ t.received = [] ∧ t.queued 1 = [7] := by
  obtain ⟨l, hpair, hpaired, -⟩ := Locals.sound_start.paired (a := 0) (b := 1) (by decide) (by decide) (by decide)
  have hreplay : ((Locals.start.pair 0 1 .stream).bind fun l => replay (step 0 1) (fun _ _ => True) (new l 1)
      [.send [7], .close]).any (fun t =>
        decide (0 ∉ t.locals.opened ∧ t.received = [] ∧ t.queued 1 = [7])) = true := by decide
  rw [hpair] at hreplay
  obtain ⟨t, hrun, hgone, hreceived, hqueued⟩ := exists_run_of_replay hreplay
  exact ⟨l, t, hpaired, hrun, (Flows.of_run hrun (.start hpaired)).recv_refused hgone 1 false, hreceived, hqueued⟩

end Stream

/-- A pair, with the receives in progress on each of its sockets. -/
structure Duplex where
  locals : Locals
  calls : Nat → List Receive

namespace Duplex

def toward (s : Duplex) (b : Nat) : Stream := { Stream.new s.locals b with calls := s.calls b }

/-- A part of a call by which `a` sends or `b` receives. -/
def turn (a b : Nat) (s : Duplex) (op : StreamOp) : Option (Duplex × Option Int) :=
  ((s.toward b).turn a b op).map fun (t, rc) => (⟨t.locals, update s.calls b t.calls⟩, rc)

/-- The operations are towards `b`, or else towards `a`. -/
def step (a b : Nat) (s : Duplex) : Bool × StreamOp → Option Duplex
  | (true, op) => (s.turn a b op).map Prod.fst
  | (false, op) => (s.turn b a op).map Prod.fst

/-- The queue of a socket and its counter agree, and no bucket is read beyond its end. -/
structure Counts (d : LocalSocket) : Prop where
  available : d.rxAvailable = (d.rxQueue.map fun bucket => bucket.data.length - bucket.offset).sum
  offsets : ∀ bucket ∈ d.rxQueue, bucket.offset ≤ bucket.data.length

/-- What `a` sends is put at the end of the queue of `b`. A receive on `b` that finds a bucket at first or when it is
woken goes on to copy, and one that is woken without a bucket is interrupted. The copy hands out as much as there is of
what was asked for, takes it from the queue and subtracts it from the counter. -/
structure Delivers (a b : Nat) (s : Duplex) : Prop where
  send : ∀ msg, s.turn a b (.send msg) = some ({ s with locals := s.locals.set b { s.locals.socks b with
    rxQueue := (s.locals.socks b).rxQueue ++ [⟨msg, 0⟩]
    rxAvailable := (s.locals.socks b).rxAvailable + msg.length } }, some 0)
  recv : ∀ len dontwait, (s.locals.socks b).rxQueue ≠ [] → s.turn a b (.recv len dontwait) =
    some ({ s with calls := update s.calls b (s.calls b ++ [.ready len]) }, none)
  wake : ∀ i len, (s.calls b)[i]? = some (.asleep len) → s.turn a b (.wake i) =
    some (if (s.locals.socks b).rxQueue = [] then
      ({ s with calls := update s.calls b ((s.calls b).eraseIdx i) }, some (-eintr))
    else ({ s with calls := update s.calls b ((s.calls b).set i (.ready len)) }, none))
  copy : ∀ i len, (s.calls b)[i]? = some (.ready len) → ∃ bytes queue locals,
    s.locals.recvCopy b len = some (bytes, locals) ∧
    s.turn a b (.copy i) =
      some (⟨locals, update s.calls b ((s.calls b).eraseIdx i)⟩, some (Int.ofNat bytes.length)) ∧
    bytes.length = min len (s.locals.socks b).rxAvailable ∧ Takes bytes (s.locals.socks b).rxQueue queue ∧
    locals = s.locals.set b { s.locals.socks b with
      rxQueue := queue, rxAvailable := (s.locals.socks b).rxAvailable - bytes.length }

variable {a b : Nat} {s t : Duplex} {op : StreamOp} {rc : Option Int}

theorem flows_turn (hforth : (s.toward b).Flows a b) (hback : (s.toward a).Flows b a) (hop : op ≠ .close)
    (hturn : s.turn a b op = some (t, rc)) : (t.toward b).Flows a b ∧ (t.toward a).Flows b a := by
  obtain ⟨⟨u, rc'⟩, hu, heq⟩ := Option.map_eq_some_iff.mp hturn
  cases heq
  obtain ⟨hflows, hleaves, -⟩ := hforth.turn hu
  obtain ⟨hsock, hopened⟩ := hleaves hop
  have ha : a ∈ u.locals.opened := hopened ▸ hback.receiver
  refine ⟨{ hflows with account := rfl },
    ⟨hflows.sound, ha, rfl, ?_, ?_, fun _ => (hflows.connected ha).symm, fun h => absurd hflows.receiver h⟩⟩
  · show (u.locals.socks a).rxAvailable = (unread (u.locals.socks a).rxQueue).length
    rw [hsock]
    exact hback.available
  · show ∀ bucket ∈ (u.locals.socks a).rxQueue, _
    rw [hsock]
    exact hback.offsets

theorem flows_of_run {l : Locals} {ops : List (Bool × StreamOp)} (hforth : l.Paired a b) (hback : l.Paired b a)
    (hrun : Run (step a b) (fun _ op => op.2 ≠ .close) ⟨l, fun _ => []⟩ ops t) :
    (t.toward b).Flows a b ∧ (t.toward a).Flows b a := by
  refine hrun.invariant (fun s => (s.toward b).Flows a b ∧ (s.toward a).Flows b a) (fun s op t hs hop hstep => ?_)
    ⟨.start hforth, .start hback⟩
  obtain ⟨_ | _, op⟩ := op
  · obtain ⟨⟨u, rc⟩, hturn, rfl⟩ := map_eq_some_iff.mp hstep
    exact (flows_turn hs.2 hs.1 hop hturn).symm
  · obtain ⟨⟨u, rc⟩, hturn, rfl⟩ := map_eq_some_iff.mp hstep
    exact flows_turn hs.1 hs.2 hop hturn

theorem counts_of_flows (hflows : (s.toward b).Flows a b) : Counts (s.locals.socks b) := by
  refine ⟨hflows.available.trans ?_, hflows.offsets⟩
  show (unread (s.locals.socks b).rxQueue).length = _
  rw [unread, length_flatMap]
  simp only [length_drop]

theorem delivers_of_flows (hflows : (s.toward b).Flows a b) (hopened : a ∈ s.locals.opened) : s.Delivers a b := by
  have hderef : s.locals.deref b = some (s.locals.socks b) := hflows.deref
  have hstate : (s.locals.socks b).state = .connected := (hflows.connected hopened).receiver
  refine ⟨fun msg => ?_, fun len dontwait hqueue => ?_, fun i len hcall => ?_, fun i len hcall => ?_⟩
  · have hsame : update s.calls b (s.toward b).calls = s.calls := update_eq_self ..
    have hsender : a ∈ (s.toward b).locals.opened := hopened
    rw [turn, Stream.turn, hflows.sendto hopened, if_pos hsender, map_some, map_some]
    dsimp only
    rw [hsame]
    rfl
  · obtain ⟨bucket, queue, hcons⟩ := exists_cons_of_ne_nil hqueue
    have hstart : (s.toward b).locals.recvStart b len dontwait = some (.inr (.ready len)) := by
      show s.locals.recvStart b len dontwait = _
      rw [Locals.recvStart, hderef, map_some, if_neg (not_not.mpr hstate), hcons]
    rw [turn, Stream.turn, hstart]
    rfl
  · have hasleep : (s.toward b).calls[i]? = some (.asleep len) := hcall
    have hwake : (s.toward b).locals.recvWake b len =
        some (if (s.locals.socks b).rxQueue = [] then .inl (-eintr) else .inr (.ready len)) := by
      show s.locals.recvWake b len = _
      rw [Locals.recvWake, hderef, map_some, if_neg fun h => h.1 hstate]
      cases (s.locals.socks b).rxQueue with
      | nil => rfl
      | cons bucket queue => rfl
    rw [turn, Stream.turn, hasleep]
    dsimp only
    rw [hwake]
    split_ifs <;> rfl
  · obtain ⟨bytes, queue, hcopy, htakes, hlength⟩ := hflows.recvCopy len
    have hready : (s.toward b).calls[i]? = some (.ready len) := hcall
    refine ⟨bytes, queue, _, hcopy, ?_, hlength, htakes, rfl⟩
    rw [turn, Stream.turn, hready]
    dsimp only
    rw [hcopy]
    rfl

/-- On a connected pair of streams the counter of each socket is the number of the bytes in its queue, and what is sent
in either direction is delivered. -/
theorem stream_counts {l : Locals} {ops : List (Bool × StreamOp)} (hforth : l.Paired a b) (hback : l.Paired b a)
    (hrun : Run (step a b) (fun _ op => op.2 ≠ .close) ⟨l, fun _ => []⟩ ops t) :
    (Counts (t.locals.socks a) ∧ t.Delivers b a) ∧ Counts (t.locals.socks b) ∧ t.Delivers a b := by
  obtain ⟨hto, hfrom⟩ := flows_of_run hforth hback hrun
  exact ⟨⟨counts_of_flows hfrom, delivers_of_flows hfrom hto.receiver⟩, counts_of_flows hto,
    delivers_of_flows hto hfrom.receiver⟩

/-- An empty message in front of five bytes, and answers in the other direction. -/
theorem stream_counts_empty_message :
    ∃ l t, Run (step 0 1) (fun _ op => op.2 ≠ .close) ⟨l, fun _ => []⟩
        [(true, .send []), (false, .send [1]), (true, .send [10, 11, 12, 13, 14]), (true, .recv 3 true)] t ∧
      (t.locals.socks 1).rxQueue = [⟨[], 0⟩, ⟨[10, 11, 12, 13, 14], 0⟩] ∧ (t.locals.socks 1).rxAvailable = 5 ∧
      ∃ l', t.locals.recvCopy 1 3 = some ([10, 11, 12], l') ∧ unread (l'.socks 1).rxQueue = [13, 14] := by
  obtain ⟨l, hpair, hforth, hback⟩ := Locals.sound_start.paired (a := 0) (b := 1) (by decide) (by decide) (by decide)
  have hreplay : ((Locals.start.pair 0 1 .stream).bind fun l => replay (step 0 1) (fun _ op => op.2 ≠ .close)
      ⟨l, fun _ => []⟩ [(true, .send []), (false, .send [1]), (true, .send [10, 11, 12, 13, 14]),
      (true, .recv 3 true)]).any
        (fun t => decide ((t.locals.socks 1).rxQueue = [⟨[], 0⟩, ⟨[10, 11, 12, 13, 14], 0⟩] ∧
          (t.locals.socks 1).rxAvailable = 5 ∧ (t.calls 1)[0]? = some (.ready 3))) = true := by decide
  rw [hpair, bind_some] at hreplay
  obtain ⟨t, hrun, hqueue, havailable, hcall⟩ := exists_run_of_replay hreplay
  obtain ⟨bytes, queue, l', hcopy, -, hlength, htakes, hl'⟩ := (stream_counts hforth hback hrun).2.2.copy 0 3 hcall
  have hbytes := htakes.bytes
  rw [hqueue] at hbytes
  rw [havailable] at hlength
  obtain ⟨rfl, hrest⟩ : bytes = [10, 11, 12] ∧ unread queue = [13, 14] := append_inj hbytes hlength
  exact ⟨l, t, hrun, hqueue, havailable, l', hcopy, by simp only [hl', Locals.set, update_self, hrest]⟩

end Duplex

end Kairax.Ipc
