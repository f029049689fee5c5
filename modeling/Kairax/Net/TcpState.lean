import Kairax.Net.Tcp

/-!
# The states of a TCP socket

`Move` lists what can happen to the state of a socket apart from the answer to a SYN. The handler does not look at the
state when a SYN|ACK arrives, nor for FIN in a segment with PSH.
-/

namespace Kairax.Net

open Lib Ipc Finset Function Bool Prod

def TcpSocket.phase (d : TcpSocket) : SockState × Bool := (d.state, d.wasConnected)

inductive Move : SockState × Bool → SockState × Bool → Prop
  | stay (p : SockState × Bool) : Move p p
  | connect (state : SockState) : Move (state, false) (.connecting, false)
  | listen (state : SockState) (was : Bool) : Move (state, was) (.listen, was)
  | peerCloses (was : Bool) : Move (.connected, was) (.closeWait, was)
  | close (was : Bool) : Move (.connected, was) (.finWait1, was)
  | closeToo (was : Bool) : Move (.closeWait, was) (.lastAck, was)
  | bothClose (was : Bool) : Move (.finWait1, was) (.closing, was)
  | closeAcked (was : Bool) : Move (.finWait1, was) (.finWait2, was)
  | ends (state : SockState) (was : Bool) : Move (state, was) (.unconnected, was)

namespace Move

variable {p q : SockState × Bool}

theorem of_connected (hmove : Move p q) (hq : q.1 = .connected) : p = q := by
  cases hmove with
  | stay => rfl
  | _ => cases hq

theorem was_eq (hmove : Move p q) : q.2 = p.2 := by
  cases hmove <;> rfl

theorem of_connecting (hmove : Move p q) (hq : q.1 = .connecting) : p = q ∨ p.2 = false := by
  cases hmove with
  | stay => exact .inl rfl
  | connect => exact .inr rfl
  | _ => cases hq

end Move

/-- A socket that connects was never connected, and one in a connection, or on its way out of it, was. -/
def Coherent (p : SockState × Bool) : Prop :=
  match p.1 with
  | .connecting => p.2 = false
  | .connected => p.2 = true
  | .closing => p.2 = true
  | .closeWait => p.2 = true
  | .lastAck => p.2 = true
  | .finWait1 => p.2 = true
  | .finWait2 => p.2 = true
  | _ => True

variable {p : SockState × Bool} {ops : List TcpOp}

theorem Move.coherent {q : SockState × Bool} (hmove : Move p q) (hp : Coherent p) : Coherent q := by
  cases hmove with
  | connect => rfl
  | listen | ends => trivial
  | stay | peerCloses | close | closeToo | bothClose | closeAcked => exact hp

namespace TcpSocket

variable {d : TcpSocket} {seg : Segment}

section

variable (d : TcpSocket)

theorem move_over : Move d.phase (.unconnected, d.wasConnected) := .ends d.state d.wasConnected

theorem move_handleAck : Move d.phase d.handleAck.after.phase := by
  rw [handleAck]
  cases hstate : d.state with
  | lastAck | closing => exact d.move_over
  | finWait1 =>
    rw [phase, hstate]
    exact .closeAcked d.wasConnected
  | unconnected | listen | connecting | connected | closeWait | finWait2 => exact .stay d.phase

theorem move_handleFin (hasAck : Bool) : Move d.phase (d.handleFin hasAck).after.phase := by
  rw [handleFin]
  cases hstate : d.state with
  | connected =>
    rw [phase, hstate]
    exact .peerCloses d.wasConnected
  | finWait1 =>
    cases hasAck with
    | true => exact d.move_over
    | false =>
      rw [phase, hstate]
      exact .bothClose d.wasConnected
  | finWait2 => exact d.move_over
  | unconnected | listen | connecting | closing | closeWait | lastAck => exact .stay d.phase

theorem phase_putToRxQueue (payload : List Byte) : (d.putToRxQueue payload).phase = d.phase := by
  rw [putToRxQueue]
  split_ifs <;> rfl

theorem move_receive (hsynack : (seg.flags.syn && seg.flags.ack) = false) :
    Move d.phase (d.receive seg).after.phase := by
  rw [receive, if_neg (by rw [hsynack]; exact false_ne_true)]
  split_ifs
  · show Move _ (putToRxQueue _ _).phase
    rw [phase_putToRxQueue]
    exact .stay d.phase
  · exact d.move_handleFin seg.flags.ack
  · exact d.move_over
  · exact d.move_handleAck
  · exact .stay d.phase

theorem phase_receive_synack (hsynack : (seg.flags.syn && seg.flags.ack) = true) :
    (d.receive seg).after.phase = (.connected, true) := by
  rw [receive, if_pos hsynack]
  rfl

theorem move_leave (route : Bool) : Move d.phase (d.leave route).phase := by
  rw [phase, leave]
  cases hstate : d.state with
  | closeWait => exact .closeToo d.wasConnected
  | connected => exact .close d.wasConnected
  | unconnected | listen | connecting | closing | lastAck | finWait1 | finWait2 => exact .stay _

theorem move_shut (rd wr route : Bool) : Move d.phase (d.shut rd wr route).phase := by
  cases wr with
  | false => cases rd <;> exact .stay _
  | true => cases rd <;> exact move_leave _ route

theorem move_closed (route : Bool) : Move d.phase (d.closed route).phase := by
  rw [closed]
  split_ifs
  · exact d.move_over
  · exact move_leave _ route

end

end TcpSocket

namespace Tcp

variable {siphash : BitVec 32 → BitVec 32 → BitVec 32 → BitVec 32 → BitVec 32} {s t : Tcp} {d : TcpSocket} {op : TcpOp}
  {seg : Segment} {j k : Nat}

theorem phase_eq_of_conn {d' : TcpSocket} (hconn : d.conn = d'.conn) : d.phase = d'.phase :=
  show d.conn.phase = d'.conn.phase by rw [hconn]

theorem move_set (hmove : Move (s.socks k).phase d.phase) (j : Nat) :
    Move (s.socks j).phase ((s.set k d).socks j).phase := by
  rw [set_socks]
  split_ifs with hj
  · rw [hj]
    exact hmove
  · exact .stay _

theorem phase_set (hphase : d.phase = (s.socks k).phase) (j : Nat) :
    ((s.set k d).socks j).phase = (s.socks j).phase := by
  rw [set_socks]
  split_ifs with hj
  · rw [hj, hphase]
  · rfl

theorem move_connect (s : Tcp) (k : Nat) (addr : BitVec 32) (port : BitVec 16) (rand : BitVec 32) (route : Bool)
    (j : Nat) : Move (s.socks j).phase ((s.connect k addr port rand route).2.socks j).phase := by
  obtain ⟨-, hsame⟩ | ⟨p, hwas, -, hconnect⟩ := s.connect_cases k addr port rand route
  · rw [hsame]
    exact .stay _
  · rw [hconnect]
    refine move_set ?_ j
    rw [TcpSocket.phase, TcpSocket.dial, hwas]
    exact .connect _

theorem phase_acceptDone (hj : j ∈ s.made) {i new : Nat} (hnew : new ∉ s.made) :
    ((s.acceptDone i new).socks j).phase = (s.socks j).phase := by
  have hcreate (d : TcpSocket) : (s.create new d).socks j = s.socks j :=
    update_of_ne (ne_of_mem_of_not_mem hj hnew) ..
  rw [acceptDone]
  split
  · rfl
  · rename_i l request hrequest
    have hset := phase_set
      (d := { (s.create new (s.childOf l request)).socks l with
        children := ((s.create new (s.childOf l request)).socks l).children ++ [new] }) rfl j
    rw [hcreate] at hset
    exact hset

theorem move_call (hpossible : s.Possible op) (hj : j ∈ s.made) :
    Move (s.socks j).phase ((s.call siphash op).socks j).phase ∨
    ∃ seg time route, op = .segment seg time route ∧ s.target seg = some j ∧ seg.flags.syn = true ∧
      seg.flags.ack = true ∧ ((s.call siphash op).socks j).phase = (.connected, true) := by
  cases op with
  | socket k =>
    left
    rw [call, create]
    dsimp only
    rw [update_of_ne (ne_of_mem_of_not_mem hj hpossible)]
    exact .stay _
  | bind k port =>
    left
    rw [call, bind]
    split_ifs
    · exact .stay _
    · refine move_set ?_ j
      exact .stay _
  | listen k backlog => exact .inl (move_set (.listen _ _) j)
  | connect k addr port rand route => exact .inl (s.move_connect k addr port rand route j)
  | acceptTake k =>
    left
    rw [call, acceptTake]
    split
    · exact .stay _
    · refine move_set ?_ j
      exact .stay _
  | acceptDone i new =>
    left
    rw [call, phase_acceptDone hj hpossible.2]
    exact .stay _
  | segment seg time route =>
    have hconn := conn_handle siphash s seg time route j
    by_cases htarget : s.target seg = some j
    · rw [if_pos htarget] at hconn
      rw [call, phase_eq_of_conn hconn]
      cases hsynack : seg.flags.syn && seg.flags.ack with
      | true =>
        rw [and_eq_true] at hsynack
        exact .inr ⟨seg, time, route, rfl, htarget, hsynack.1, hsynack.2, TcpSocket.phase_receive_synack _ (by
          rw [hsynack.1, hsynack.2]; rfl)⟩
      | false => exact .inl (TcpSocket.move_receive _ hsynack)
    · left
      rw [if_neg htarget] at hconn
      rw [call, phase_eq_of_conn hconn]
      exact .stay _
  | send k msg route =>
    left
    rw [call, sendto]
    split_ifs
    · exact .stay _
    · exact .stay _
    · exact .stay _
    · exact .stay _
    · refine move_set ?_ j
      exact .stay _
    · exact .stay _
  | recv k len dontwait =>
    left
    obtain ⟨queue, hrecv⟩ := (s.socks k).recvfrom_eq len dontwait
    rw [call, hrecv]
    refine move_set ?_ j
    exact .stay _
  | shutdown k rd wr route =>
    rw [call, shutdown_eq]
    exact .inl (move_set ((s.socks k).move_shut rd wr route) j)
  | close k route =>
    rw [call, close_eq]
    exact .inl (move_set ((s.socks k).move_closed route) j)

def connectionOf (s : Tcp) (seg : Segment) : Option Nat :=
  (s.bindings seg.dstPort).bind fun k =>
    if (s.socks k).isListener then s.listenerGet k seg.srcIp seg.srcPort else some k

theorem target_eq_connectionOf (hsyn : seg.isSyn = false) : s.target seg = s.connectionOf seg := by
  simp only [target, connectionOf, hsyn, Bool.not_false, Bool.and_true, Bool.false_eq_true, if_false]

theorem target_eq_none (hsyn : seg.isSyn = true) : s.target seg = none := by
  simp only [target, hsyn, Bool.not_true, Bool.and_false, Bool.false_eq_true, if_false, if_true,
    Option.bind_eq_none_iff,
    implies_true]

theorem connectionOf_of_target (htarget : s.target seg = some j) : seg.isSyn = false ∧ s.connectionOf seg = some j := by
  cases hsyn : seg.isSyn with
  | true =>
    rw [target_eq_none hsyn] at htarget
    cases htarget
  | false => exact ⟨rfl, (target_eq_connectionOf hsyn).symm.trans htarget⟩

/-- A SYN|ACK arrives only where one is expected or was received, and FIN not along with PSH or SYN. -/
def Legal (s : Tcp) : TcpOp → Prop
  | .segment seg _ _ => ∀ j ∈ s.connectionOf seg,
      (seg.flags.syn = true ∧ seg.flags.ack = true →
        (s.socks j).state = .connecting ∨ (s.socks j).state = .connected) ∧
      (seg.flags.fin = true ∧ (s.socks j).state = .connected → seg.flags.psh = false ∧ seg.flags.syn = false)
  | _ => True

instance decidableLegal (s : Tcp) (op : TcpOp) : Decidable (s.Legal op) := by
  refine op.casesOn ?_ ?_ ?_ ?_ ?_ ?_ ?_ ?_ ?_ ?_ ?_ <;> intros <;> (unfold Legal; infer_instance)

/-- A segment connects only a socket that is connecting, and a FIN takes its connection out of the connected
state. -/
def Obeys (s t : Tcp) (seg : Segment) : Prop :=
  (∀ j, (t.socks j).state = .connected → (s.socks j).state = .connecting ∨ (s.socks j).state = .connected) ∧
  ∀ j ∈ s.connectionOf seg, seg.flags.fin = true → (s.socks j).state = .connected → (t.socks j).state ≠ .connected

variable (siphash) (s) in
theorem phase_handle (seg : Segment)
    (time : Nat) (route : Bool) (j : Nat) :
    ((s.handle siphash seg time route).socks j).phase =
      if s.target seg = some j then ((s.socks j).receive seg).after.phase else (s.socks j).phase := by
  have hconn := conn_handle siphash s seg time route j
  split_ifs with htarget
  · rw [if_pos htarget] at hconn
    exact phase_eq_of_conn hconn
  · rw [if_neg htarget] at hconn
    exact phase_eq_of_conn hconn

theorem syn_eq_false (hsyn : seg.isSyn = false) (hsynack : (seg.flags.syn && seg.flags.ack) = false) :
    seg.flags.syn = false := by
  rw [Segment.isSyn] at hsyn
  cases hack : seg.flags.ack with
  | true => rwa [hack, Bool.and_true] at hsynack
  | false => rwa [hack, Bool.not_false, Bool.and_true] at hsyn

variable (siphash) (s) in
theorem obeys_iff_legal (seg : Segment)
    (time : Nat) (route : Bool) :
    s.Obeys (s.handle siphash seg time route) seg ↔ s.Legal (.segment seg time route) := by
  have hphase := phase_handle siphash s seg time route
  constructor
  · intro hobeys j hj
    constructor
    · intro hsynack
      have hsyn : seg.isSyn = false := by rw [Segment.isSyn, hsynack.1, hsynack.2]; rfl
      have hafter := hphase j
      rw [if_pos ((target_eq_connectionOf hsyn).trans hj),
        TcpSocket.phase_receive_synack _ (by rw [hsynack.1, hsynack.2]; rfl)] at hafter
      exact hobeys.1 j (congrArg fst hafter)
    · intro hfin
      -- otherwise the state is the same afterwards
      by_contra hflags
      refine hobeys.2 j hj hfin.1 hfin.2 ?_
      have hafter := hphase j
      cases hsyn : seg.isSyn with
      | true =>
        rw [target_eq_none hsyn] at hafter
        exact (congrArg fst hafter).trans hfin.2
      | false =>
        rw [if_pos ((target_eq_connectionOf hsyn).trans hj)] at hafter
        refine (congrArg fst hafter).trans ?_
        cases hsynack : seg.flags.syn && seg.flags.ack with
        | true => rw [TcpSocket.phase_receive_synack _ hsynack]
        | false =>
          have hnosyn := syn_eq_false hsyn hsynack
          have hpsh : seg.flags.psh = true := by
            rw [← not_eq_false]
            exact fun h => hflags ⟨h, hnosyn⟩
          rw [TcpSocket.receive, if_neg (by rw [hsynack]; exact false_ne_true), if_pos hpsh]
          show (TcpSocket.phase (TcpSocket.putToRxQueue _ _)).1 = _
          rw [TcpSocket.phase_putToRxQueue]
          exact hfin.2
  · intro hlegal
    constructor
    · intro j hconnected
      have hafter := hphase j
      split_ifs at hafter with htarget
      · obtain ⟨hsyn, hconnection⟩ := connectionOf_of_target htarget
        cases hsynack : seg.flags.syn && seg.flags.ack with
        | true =>
          rw [and_eq_true] at hsynack
          exact (hlegal j hconnection).1 hsynack
        | false =>
          have hmove := TcpSocket.move_receive (s.socks j) hsynack
          rw [← hafter] at hmove
          have hsame := hmove.of_connected hconnected
          exact .inr ((congrArg fst hsame).trans hconnected)
      · exact .inr ((congrArg fst hafter).symm.trans hconnected)
    · intro j hj hfin hstate hconnected
      obtain ⟨hpsh, hsyn⟩ := (hlegal j hj).2 ⟨hfin, hstate⟩
      have hnosyn : seg.isSyn = false := by rw [Segment.isSyn, hsyn]; rfl
      have hafter := hphase j
      rw [if_pos ((target_eq_connectionOf hnosyn).trans hj), TcpSocket.receive, hsyn, hpsh, hfin] at hafter
      simp only [Bool.false_and, TcpSocket.handleFin, hstate] at hafter
      have hclosed : ((s.handle siphash seg time route).socks j).state = .closeWait := congrArg fst hafter
      rw [hclosed] at hconnected
      cases hconnected

theorem step_eq_some : s.step siphash op = some t ↔ s.Possible op ∧ s.call siphash op = t := by
  rw [step]
  split_ifs with hpossible
  · exact ⟨fun h => ⟨hpossible, Option.some.inj h⟩, fun h => congrArg some h.2⟩
  · exact ⟨nofun, fun h => absurd h.1 hpossible⟩

theorem move_step (hstep : s.step siphash op = some t) (hlegal : s.Legal op) (hj : j ∈ s.made) :
    Move (s.socks j).phase (t.socks j).phase ∨
    ((s.socks j).state = .connecting ∨ (s.socks j).state = .connected) ∧ (t.socks j).phase = (.connected, true) := by
  obtain ⟨hpossible, rfl⟩ := step_eq_some.mp hstep
  obtain hmove | ⟨seg, time, route, rfl, htarget, hsyn, hack, hphase⟩ := move_call hpossible hj
  · exact .inl hmove
  · exact .inr ⟨(hlegal j (connectionOf_of_target htarget).2).1 ⟨hsyn, hack⟩, hphase⟩

variable (siphash) in
theorem phase_created (hpossible : s.Possible op) (hj : j ∈ s.createdBy op) :
    ((s.call siphash op).socks j).phase = (.unconnected, false) ∨
    ((s.call siphash op).socks j).phase = (.connected, true) ∧ ∃ i, op = .acceptDone i j := by
  cases op with
  | socket k =>
    obtain rfl := mem_singleton.mp hj
    left
    rw [call, create]
    dsimp only
    rw [update_self]
    rfl
  | acceptDone i new =>
    rw [createdBy, if_pos hpossible.1] at hj
    obtain rfl := mem_singleton.mp hj
    refine .inr ⟨?_, i, rfl⟩
    rw [call, acceptDone]
    cases hrequest : s.accepting[i]? with
    | none =>
      rw [List.getElem?_eq_none_iff] at hrequest
      exact absurd hpossible.1 (not_lt.mpr hrequest)
    | some request =>
      have hset := phase_set
        (d := { (s.create j (s.childOf request.1 request.2)).socks request.1 with
          children := ((s.create j (s.childOf request.1 request.2)).socks request.1).children ++ [j] }) rfl j
      refine hset.trans ?_
      rw [create]
      dsimp only
      rw [update_self]
      rfl
  | _ => cases hj

section

variable (hrun : Run (step siphash) Legal s ops t)
include hrun

theorem coherent_of_run (hs : ∀ j ∈ s.made, Coherent (s.socks j).phase) : ∀ j ∈ t.made, Coherent (t.socks j).phase := by
  refine hrun.invariant (fun s => ∀ j ∈ s.made, Coherent (s.socks j).phase) (fun s op t hs hlegal hstep j hj => ?_) hs
  obtain ⟨hpossible, rfl⟩ := step_eq_some.mp hstep
  rw [made_call, mem_union] at hj
  obtain hj | hj := hj
  · obtain hmove | ⟨-, hphase⟩ := move_step hstep hlegal hj
    · exact hmove.coherent (hs j hj)
    · rw [hphase]
      rfl
  · obtain hphase | ⟨hphase, -⟩ := phase_created siphash hpossible hj
    · rw [hphase]
      trivial
    · rw [hphase]
      rfl

theorem was_connected_of_run (hj : j ∈ s.made)
    (hwas : (s.socks j).wasConnected = true) : j ∈ t.made ∧ (t.socks j).wasConnected = true := by
  refine hrun.invariant (fun s => j ∈ s.made ∧ (s.socks j).wasConnected = true) (fun s op t hs hlegal hstep => ?_)
    ⟨hj, hwas⟩
  obtain ⟨-, rfl⟩ := step_eq_some.mp hstep
  refine ⟨mem_made_call hs.1, ?_⟩
  obtain hmove | ⟨-, hphase⟩ := move_step hstep hlegal hs.1
  · exact hmove.was_eq.trans hs.2
  · exact congrArg snd hphase

theorem not_connected_of_run (hj : j ∈ s.made)
    (hwas : (s.socks j).wasConnected = true)
    (hstate : (s.socks j).state ≠ .connecting ∧ (s.socks j).state ≠ .connected) : (t.socks j).state ≠ .connected := by
  have hinv : j ∈ t.made ∧ (t.socks j).wasConnected = true ∧ (t.socks j).state ≠ .connecting ∧
      (t.socks j).state ≠ .connected := by
    refine hrun.invariant (fun s => j ∈ s.made ∧ (s.socks j).wasConnected = true ∧ (s.socks j).state ≠ .connecting ∧
      (s.socks j).state ≠ .connected) (fun s op t hs hlegal hstep => ?_) ⟨hj, hwas, hstate⟩
    obtain ⟨hj, hwas, hconnecting, hconnected⟩ := hs
    obtain ⟨-, rfl⟩ := step_eq_some.mp hstep
    refine ⟨mem_made_call hj, ?_⟩
    obtain hmove | ⟨hstate, -⟩ := move_step hstep hlegal hj
    · refine ⟨hmove.was_eq.trans hwas, fun h => ?_, fun h => ?_⟩
      · obtain hsame | hnever := hmove.of_connecting h
        · exact hconnecting ((congrArg fst hsame).trans h)
        · exact false_ne_true (hnever.symm.trans hwas)
      · exact hconnected ((congrArg fst (hmove.of_connected h)).trans h)
    · exact absurd hstate (not_or.mpr ⟨hconnecting, hconnected⟩)
  exact hinv.2.2.2

end

def Leaving (state : SockState) : Prop :=
  state = .closeWait ∨ state = .lastAck ∨ state = .finWait1 ∨ state = .finWait2 ∨ state = .closing

theorem was_of_leaving (hcoherent : Coherent p) (hleaving : Leaving p.1) : p.2 = true := by
  obtain ⟨state, was⟩ := p
  obtain rfl | rfl | rfl | rfl | rfl := hleaving
  all_goals exact hcoherent

theorem ne_of_leaving {state : SockState} (hleaving : Leaving state) : state ≠ .connecting ∧ state ≠ .connected := by
  obtain rfl | rfl | rfl | rfl | rfl := hleaving
  all_goals exact ⟨nofun, nofun⟩

/-- If all segments are legal, a socket gets connected only from connecting or by accept, and not again. The segments
handled so are exactly the legal ones. -/
theorem tcp_states {ops : List TcpOp} (hrun : Run (step siphash) Legal start ops s) :
    (∀ op t, s.Legal op → s.step siphash op = some t → ∀ j ∈ t.made, (t.socks j).state = .connected →
      (s.socks j).state = .connecting ∨ (s.socks j).state = .connected ∨ ∃ i, op = .acceptDone i j) ∧
    (∀ j ∈ s.made, Leaving (s.socks j).state → ∀ ops' t, Run (step siphash) Legal s ops' t →
      (t.socks j).state ≠ .connected) ∧
    (∀ j ∈ s.made, (s.socks j).state = .connected → ∀ ops₁ u, Run (step siphash) Legal s ops₁ u →
      (u.socks j).state ≠ .connected → ∀ ops₂ t, Run (step siphash) Legal u ops₂ t → (t.socks j).state ≠ .connected) ∧
    ∀ seg time route, s.Obeys (s.handle siphash seg time route) seg ↔ s.Legal (.segment seg time route) := by
  have hcoherent := coherent_of_run hrun nofun
  refine ⟨fun op t hlegal hstep j hj hconnected => ?_, fun j hj hleaving ops' t hrest => ?_, ?_,
    fun seg time route => obeys_iff_legal siphash s seg time route⟩
  · obtain ⟨hpossible, rfl⟩ := step_eq_some.mp hstep
    rw [made_call, mem_union] at hj
    obtain hj | hj := hj
    · obtain hmove | ⟨hstate, -⟩ := move_step hstep hlegal hj
      · exact .inr (.inl ((congrArg fst (hmove.of_connected hconnected)).trans hconnected))
      · exact hstate.imp_right .inl
    · obtain hphase | ⟨-, hop⟩ := phase_created siphash hpossible hj
      · have hstate := congrArg fst hphase
        cases hstate.symm.trans hconnected
      · exact .inr (.inr hop)
  · exact not_connected_of_run hrest hj (was_of_leaving (hcoherent j hj) hleaving) (ne_of_leaving hleaving)
  · intro j hj hconnected ops₁ u hrun₁ hleft ops₂ t hrun₂
    have hwas : (s.socks j).wasConnected = true := by
      have hj' := hcoherent j hj
      rwa [Coherent, TcpSocket.phase, hconnected] at hj'
    obtain ⟨hju, hwasu⟩ := was_connected_of_run hrun₁ hj hwas
    refine not_connected_of_run hrun₂ hju hwasu ⟨fun hconnecting => ?_, hleft⟩
    have hu := coherent_of_run hrun₁ hcoherent j hju
    rw [TcpSocket.phase, hconnecting] at hu
    exact false_ne_true (hu.symm.trans hwasu)

/-- A client connects, the peer closes, and the client closes: the connection is over for good. -/
theorem tcp_states_client :
    ∃ s, Run (step fun _ _ _ _ => 0) Legal start [.socket 0, .connect 0 1 80 100 true,
        .segment ⟨1, 2, 80, 49152, 500, 101, { syn := true, ack := true }, []⟩ 0 true,
        .segment ⟨1, 2, 80, 49152, 501, 101, { fin := true, ack := true }, []⟩ 0 true, .close 0 true] s ∧
      (s.socks 0).state = .lastAck ∧
      ∀ ops t, Run (step fun _ _ _ _ => 0) Legal s ops t → (t.socks 0).state ≠ .connected := by
  refine exists_run_of_replay_imp (fun s => 0 ∈ s.made ∧ (s.socks 0).state = .lastAck) ?_ fun s hrun ⟨hmade, hstate⟩ =>
    ⟨hstate, (tcp_states hrun).2.1 0 hmade (.inr (.inl hstate))⟩
  decide

/-- A SYN|ACK after a shutdown connects the socket once more, and a FIN with PSH leaves the connection as it is. -/
theorem synack_reconnects :
    (∃ s t, Run (step fun _ _ _ _ => 0) (fun _ _ => True) start [.socket 0, .connect 0 1 80 100 true,
        .segment ⟨1, 2, 80, 49152, 500, 101, { syn := true, ack := true }, []⟩ 0 true, .shutdown 0 false true true] s ∧
      (s.socks 0).state = .finWait1 ∧
      s.step (fun _ _ _ _ => 0) (.segment ⟨1, 2, 80, 49152, 500, 101, { syn := true, ack := true }, []⟩ 0 true) =
      some t ∧
      (t.socks 0).state = .connected) ∧
    ∃ s t, Run (step fun _ _ _ _ => 0) (fun _ _ => True) start [.socket 0, .connect 0 1 80 100 true,
        .segment ⟨1, 2, 80, 49152, 500, 101, { syn := true, ack := true }, []⟩ 0 true] s ∧
      (s.socks 0).state = .connected ∧
      s.step (fun _ _ _ _ => 0) (.segment ⟨1, 2, 80, 49152, 501, 101, { fin := true, psh := true, ack := true }, [7]⟩ 0
        true) = some t ∧ (t.socks 0).state = .connected := by
  simp only [exists_and_left]
  constructor
  · exact exists_run_of_replay_imp (fun s => (s.socks 0).state = .finWait1 ∧
      ((s.handle (fun _ _ _ _ => 0) ⟨1, 2, 80, 49152,
      500, 101, { syn := true, ack := true }, []⟩ 0 true).socks 0).state = .connected) (by decide)
      fun s _ ⟨hstate, hafter⟩ => ⟨hstate, _, rfl, hafter⟩
  · exact exists_run_of_replay_imp (fun s => (s.socks 0).state = .connected ∧
      ((s.handle (fun _ _ _ _ => 0) ⟨1, 2, 80, 49152,
      501, 101, { fin := true, psh := true, ack := true }, [7]⟩ 0 true).socks 0).state = .connected) (by decide)
      fun s _ ⟨hstate, hafter⟩ => ⟨hstate, _, rfl, hafter⟩

end Tcp

end Kairax.Net
