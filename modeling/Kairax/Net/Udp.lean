import Kairax.Net.Tcp

/-!
# UDP

Bind enters a socket into the table of ports without a look at what is there, and close gives back the entry that the
last port points at. As long as a socket is bound once and to a port that is free, the table, the ports and the
references agree.
-/

namespace Kairax.Net

open Lib Ipc Finset Function

/-- `INADDR_BROADCAST` -/
def broadcastAddr : BitVec 32 := 0xffffffff

/-- A datagram that has passed the checks of its length and its checksum. -/
structure Datagram where
  srcIp : BitVec 32
  srcPort : BitVec 16
  dstPort : BitVec 16
  payload : List Byte
  deriving DecidableEq

/-- `struct udp4_socket_data` with the references of its `struct socket` and the peer of a connected one. -/
structure UdpSocket where
  port : BitVec 16
  peer : Option (BitVec 32 × BitVec 16)
  allowBroadcast : Bool
  rxQueue : List Datagram
  refs : Nat

namespace UdpSocket

/-- What `new_socket` and `sock_udp4_create` make. -/
def new : UdpSocket := ⟨0, none, false, [], 1⟩

def accepts (d : UdpSocket) (dgram : Datagram) : Bool :=
  d.peer.all fun peer => dgram.srcPort == peer.2 && dgram.srcIp == peer.1

/-- The checks of `sock_udp4_sendto` before the port is looked at. An address given is of the right family and length,
or not. -/
def destination (d : UdpSocket) (dest : Option (Option (BitVec 32))) : Except Int (BitVec 32) :=
  let addr := match dest with
    | none => d.peer.map Prod.fst
    | some addr => addr
  match addr with
  | none => .error (-einval)
  | some addr => if addr = broadcastAddr ∧ d.allowBroadcast = false then .error (-eacces) else .ok addr

end UdpSocket

/-- All sockets, those with an open file, and `udp4_bindings`. The sockets that have been bound are recorded as
well. -/
structure Udp where
  socks : Nat → UdpSocket
  made : Finset Nat
  opened : Finset Nat
  bound : Finset Nat
  bindings : BitVec 16 → Option Nat

namespace Udp

def start : Udp := ⟨fun _ => .new, ∅, ∅, ∅, fun _ => none⟩

def set (s : Udp) (k : Nat) (d : UdpSocket) : Udp := { s with socks := update s.socks k d }

def create (s : Udp) (k : Nat) : Udp := { s.set k .new with made := insert k s.made, opened := insert k s.opened }

/-- The port and the entry of the table are set, and the socket is acquired. -/
def enter (s : Udp) (k : Nat) (port : BitVec 16) : Udp :=
  { s.set k { s.socks k with port, refs := (s.socks k).refs + 1 } with
    bindings := update s.bindings port (some k), bound := insert k s.bound }

/-- `sock_udp4_bind`, with the flag that family and length of the address are right. -/
def bind (s : Udp) (k : Nat) (inet : Bool) (port : BitVec 16) : Int × Udp :=
  if inet then (0, s.enter k port) else (-einval, s)

/-- The search of `udp_ip4_alloc_dynamic_port`. -/
def dynamicPort (s : Udp) : Option (BitVec 16) :=
  ((List.range' 49152 16384).map (BitVec.ofNat 16)).find? fun port => (s.bindings port).isNone

/-- `sock_udp4_sendto` up to the transfer, whose result is given for the case that there is a route. The transfer is
left out: it copies the datagram into a buffer of 4096 bytes, which one of more than 4054 bytes overruns. -/
def sendto (s : Udp) (k : Nat) (dest : Option (Option (BitVec 32))) (route : Bool) (sent : Int) : Int × Udp :=
  match (s.socks k).destination dest with
  | .error rc => (rc, s)
  | .ok _ =>
    if (s.socks k).port = 0 then
      match s.dynamicPort with
      | none => (-eaddrnotavail, s)
      | some port => (if route then sent else -enetunreach, s.enter k port)
    else (if route then sent else -enetunreach, s)

/-- The end of `udp_ip4_handle`. -/
def handle (s : Udp) (dgram : Datagram) : Udp :=
  match s.bindings dgram.dstPort with
  | none => s
  | some k =>
    if (s.socks k).accepts dgram then s.set k { s.socks k with rxQueue := (s.socks k).rxQueue ++ [dgram] } else s

/-- `sock_udp4_close`, and `free_socket` of `socket_close` behind it. -/
def close (s : Udp) (k : Nat) : Udp :=
  if s.bindings (s.socks k).port = some k then
    { s.set k { s.socks k with rxQueue := [], refs := (s.socks k).refs - 1 - 1 } with
      bindings := update s.bindings (s.socks k).port none, opened := s.opened.erase k }
  else { s.set k { s.socks k with rxQueue := [], refs := (s.socks k).refs - 1 } with opened := s.opened.erase k }

end Udp

inductive UdpOp
  | socket (k : Nat)
  | bind (k : Nat) (inet : Bool) (port : BitVec 16)
  | connect (k : Nat) (addr : BitVec 32) (port : BitVec 16)
  | setBroadcast (k : Nat) (allow : Bool)
  | send (k : Nat) (dest : Option (Option (BitVec 32))) (route : Bool) (sent : Int)
  | datagram (dgram : Datagram)
  | recv (k : Nat)
  | close (k : Nat)

namespace Udp

/-- Calls are made through files that are open, and sockets are made where there was none. -/
def Possible (s : Udp) : UdpOp → Prop
  | .socket k => k ∉ s.made
  | .bind k _ _ => k ∈ s.opened
  | .connect k _ _ => k ∈ s.opened
  | .setBroadcast k _ => k ∈ s.opened
  | .send k _ _ _ => k ∈ s.opened
  | .datagram _ => True
  | .recv k => k ∈ s.opened
  | .close k => k ∈ s.opened

instance decidablePossible (s : Udp) (op : UdpOp) : Decidable (s.Possible op) := by
  cases op <;> (unfold Possible; infer_instance)

def call (s : Udp) : UdpOp → Udp
  | .socket k => s.create k
  | .bind k inet port => (s.bind k inet port).2
  | .connect k addr port => s.set k { s.socks k with peer := some (addr, port) }
  | .setBroadcast k allow => s.set k { s.socks k with allowBroadcast := allow }
  | .send k dest route sent => (s.sendto k dest route sent).2
  | .datagram dgram => s.handle dgram
  | .recv k => s.set k { s.socks k with rxQueue := (s.socks k).rxQueue.tail }
  | .close k => s.close k

def step (s : Udp) (op : UdpOp) : Option Udp := if s.Possible op then some (s.call op) else none

/-- A socket is bound once and to a port that is free. A socket that has been bound to port 0 does not send. -/
def Tidy (s : Udp) : UdpOp → Prop
  | .bind k inet port => inet = true → s.bindings port = none ∧ k ∉ s.bound
  | .send k dest _ _ => (s.socks k).port = 0 → ((s.socks k).destination dest).isOk = true → k ∉ s.bound
  | _ => True

instance decidableTidy (s : Udp) (op : UdpOp) : Decidable (s.Tidy op) := by
  cases op <;> (unfold Tidy; infer_instance)

def held (s : Udp) (k : Nat) : Nat := if k ∈ s.opened then if k ∈ s.bound then 2 else 1 else 0

structure Ports (s : Udp) : Prop where
  opened : s.opened ⊆ s.made
  bound : s.bound ⊆ s.made
  entry : ∀ p k, s.bindings p = some k → (s.socks k).port = p ∧ k ∈ s.opened ∧ k ∈ s.bound
  serves : ∀ k ∈ s.opened, k ∈ s.bound → s.bindings (s.socks k).port = some k
  refs : ∀ k ∈ s.made, (s.socks k).refs = s.held k

theorem ports_start : Ports start :=
  ⟨Finset.Subset.refl _, Finset.Subset.refl _, nofun, fun _ h => absurd h (notMem_empty _),
    fun _ h => absurd h (notMem_empty _)⟩

namespace Ports

variable {s : Udp} {k : Nat}

section

variable (hports : s.Ports)
include hports

theorem update {d : UdpSocket} (hport : d.port = (s.socks k).port) (hrefs : d.refs = (s.socks k).refs) :
    (s.set k d).Ports := by
  have hsame (j : Nat) : ((s.set k d).socks j).port = (s.socks j).port ∧ ((s.set k d).socks j).refs =
      (s.socks j).refs := by
    rw [set]
    dsimp only
    by_cases hj : j = k
    · rw [hj, update_self]
      exact ⟨hport, hrefs⟩
    · rw [update_of_ne hj]
      exact ⟨rfl, rfl⟩
  constructor
  · exact hports.opened
  · exact hports.bound
  · intro p j hentry
    rw [(hsame j).1]
    exact hports.entry p j hentry
  · intro j hopened hbound
    rw [(hsame j).1]
    exact hports.serves j hopened hbound
  · intro j hmade
    rw [(hsame j).2]
    exact hports.refs j hmade

theorem socket (hnew : k ∉ s.made) : (s.create k).Ports := by
  have hne {j : Nat} (hj : j ∈ s.made) : j ≠ k := ne_of_mem_of_not_mem hj hnew
  have hunbound : k ∉ s.bound := fun h => hnew (hports.bound h)
  constructor
  · exact insert_subset_insert k hports.opened
  · exact hports.bound.trans (subset_insert k _)
  · intro p j hentry
    obtain ⟨hport, hopened, hbound⟩ := hports.entry p j hentry
    dsimp only [create, set]
    rw [update_of_ne (hne (hports.opened hopened))]
    exact ⟨hport, mem_insert_of_mem hopened, hbound⟩
  · intro j hopened hbound
    have hj := hne (hports.bound hbound)
    dsimp only [create, set]
    rw [update_of_ne hj]
    exact hports.serves j (mem_of_mem_insert_of_ne hopened hj) hbound
  · intro j hmade
    dsimp only [create, set, held]
    by_cases hj : j = k
    · rw [hj, update_self, if_pos (mem_insert_self ..), if_neg hunbound]
      rfl
    · have hrefs := hports.refs j (mem_of_mem_insert_of_ne hmade hj)
      rw [update_of_ne hj, hrefs, held]
      simp only [mem_insert, hj, false_or]

theorem enter (hopened : k ∈ s.opened) (hnew : k ∉ s.bound) {port : BitVec 16}
    (hfree : s.bindings port = none) : (s.enter k port).Ports := by
  constructor
  · exact hports.opened
  · exact insert_subset (hports.opened hopened) hports.bound
  · intro p j hentry
    dsimp only [Udp.enter, set] at hentry ⊢
    by_cases hp : p = port
    · rw [hp, update_self] at hentry
      cases hentry
      rw [update_self]
      exact ⟨hp.symm, hopened, mem_insert_self ..⟩
    · rw [update_of_ne hp] at hentry
      obtain ⟨hport, hopened', hbound⟩ := hports.entry p j hentry
      rw [update_of_ne (ne_of_mem_of_not_mem hbound hnew)]
      exact ⟨hport, hopened', mem_insert_of_mem hbound⟩
  · intro j hopened' hbound
    dsimp only [Udp.enter, set] at hbound ⊢
    by_cases hj : j = k
    · rw [hj, update_self, update_self]
    · have hserves := hports.serves j hopened' (mem_of_mem_insert_of_ne hbound hj)
      rw [update_of_ne hj, update_of_ne, hserves]
      intro hport
      rw [hport, hfree] at hserves
      cases hserves
  · intro j hmade
    have hrefs := hports.refs j hmade
    dsimp only [Udp.enter, set, held] at hrefs ⊢
    by_cases hj : j = k
    · rw [hj, if_pos hopened, if_neg hnew] at hrefs
      rw [hj, update_self, if_pos hopened, if_pos (mem_insert_self ..)]
      rw [hrefs]
    · rw [update_of_ne hj, hrefs]
      simp only [mem_insert, hj, false_or]

theorem send (hopened : k ∈ s.opened) {dest : Option (Option (BitVec 32))} {route : Bool} {sent : Int}
    (htidy : s.Tidy (.send k dest route sent)) : (s.sendto k dest route sent).2.Ports := by
  rw [sendto]
  cases hdest : (s.socks k).destination dest with
  | error rc => exact hports
  | ok addr =>
    by_cases hzero : (s.socks k).port = 0
    · rw [if_pos hzero]
      cases hport : s.dynamicPort with
      | none => exact hports
      | some port =>
        have hfree : (s.bindings port).isNone = true :=
          List.find?_some (p := fun port => (s.bindings port).isNone) hport
        refine hports.enter hopened (htidy hzero ?_) (Option.isNone_iff_eq_none.mp hfree)
        rw [hdest]
        rfl
    · rw [if_neg hzero]
      exact hports

theorem handle (dgram : Datagram) : (s.handle dgram).Ports := by
  rw [Udp.handle]
  split
  · exact hports
  · split_ifs
    · exact hports.update rfl rfl
    · exact hports

theorem leave {d : UdpSocket} (hrefs : d.refs = 0) {bindings : BitVec 16 → Option Nat}
    (hbindings : ∀ p, bindings p = if s.bindings p = some k then none else s.bindings p) :
    ({ s.set k d with bindings, opened := s.opened.erase k } : Udp).Ports := by
  constructor
  · exact (erase_subset ..).trans hports.opened
  · exact hports.bound
  · intro p j hentry
    dsimp only [set] at hentry ⊢
    rw [hbindings, ite_eq_iff] at hentry
    obtain ⟨-, hnone⟩ | ⟨hne, hentry⟩ := hentry
    · cases hnone
    have hj : j ≠ k := by
      rintro rfl
      exact hne hentry
    obtain ⟨hport, hopened, hbound⟩ := hports.entry p j hentry
    rw [update_of_ne hj]
    exact ⟨hport, mem_erase_of_ne_of_mem hj hopened, hbound⟩
  · intro j hopened hbound
    dsimp only [set] at hopened ⊢
    obtain ⟨hj, hopened⟩ := mem_erase.mp hopened
    have hserves := hports.serves j hopened hbound
    rw [update_of_ne hj, hbindings, hserves, if_neg]
    exact fun h => hj (Option.some.inj h)
  · intro j hmade
    dsimp only [set, held]
    by_cases hj : j = k
    · rw [hj, update_self, hrefs, if_neg (notMem_erase k _)]
    · have hold := hports.refs j hmade
      rw [update_of_ne hj, hold, held]
      simp only [mem_erase, ne_eq, hj, not_false_eq_true, true_and]

theorem close (hopened : k ∈ s.opened) : (s.close k).Ports := by
  have hrefs := hports.refs k (hports.opened hopened)
  have hentry (p : BitVec 16) (hp : s.bindings p = some k) : (s.socks k).port = p := (hports.entry p k hp).1
  rw [held, if_pos hopened] at hrefs
  rw [Udp.close]
  by_cases hbound : s.bindings (s.socks k).port = some k
  · rw [if_pos (hports.entry _ k hbound).2.2] at hrefs
    rw [if_pos hbound]
    refine hports.leave (by rw [hrefs]) fun p => ?_
    by_cases hp : p = (s.socks k).port
    · rw [hp, update_self, if_pos hbound]
    · rw [update_of_ne hp, if_neg fun h => hp (hentry p h).symm]
  · rw [if_neg fun h => hbound (hports.serves k hopened h)] at hrefs
    rw [if_neg hbound]
    refine hports.leave (by rw [hrefs]) fun p => (if_neg fun hp => ?_).symm
    obtain rfl := hentry p hp
    exact hbound hp

theorem call {op : UdpOp} (hpossible : s.Possible op) (htidy : s.Tidy op) : (s.call op).Ports := by
  cases op with
  | socket k => exact hports.socket hpossible
  | bind k inet port =>
    cases inet with
    | false => exact hports
    | true =>
      obtain ⟨hfree, hnew⟩ := htidy rfl
      exact hports.enter hpossible hnew hfree
  | connect k addr port | setBroadcast k allow => exact hports.update rfl rfl
  | send k dest route sent => exact hports.send hpossible htidy
  | datagram dgram => exact hports.handle dgram
  | recv k => exact hports.update rfl rfl
  | close k => exact hports.close hpossible

end

end Ports

/-- In every run in which a socket is bound once, and to a free port, an entry is an open socket with this port, a bound
socket gets the datagrams for its port while open, and a closed socket has no reference left. -/
theorem udp_ports {ops : List UdpOp} {s : Udp} (hrun : Run step Tidy start ops s) :
    (∀ p k, s.bindings p = some k → (s.socks k).port = p ∧ k ∈ s.opened) ∧
      (∀ k ∈ s.opened, k ∈ s.bound → ∀ dgram, dgram.dstPort = (s.socks k).port → (s.socks k).accepts dgram = true →
        ((s.handle dgram).socks k).rxQueue = (s.socks k).rxQueue ++ [dgram]) ∧
      ∀ k ∈ s.made, k ∉ s.opened → (s.socks k).refs = 0 := by
  have hports : s.Ports := by
    refine hrun.invariant Ports (fun s op t hports htidy hstep => ?_) ports_start
    rw [step] at hstep
    split_ifs at hstep with hpossible
    cases hstep
    exact hports.call hpossible htidy
  refine ⟨fun p k hentry => ?_, fun k hopened hbound dgram hport haccepts => ?_, fun k hmade hclosed => ?_⟩
  · obtain ⟨hport, hopened, -⟩ := hports.entry p k hentry
    exact ⟨hport, hopened⟩
  · rw [handle, hport, hports.serves k hopened hbound]
    dsimp only
    rw [if_pos haccepts, set]
    dsimp only
    rw [update_self]
  · rw [hports.refs k hmade, held, if_neg hclosed]

theorem udp_ports_pair :
    ∃ s, Run step Tidy start [.socket 0, .socket 1, .bind 0 true 80, .send 1 (some (some 1)) true 5, .close 0] s ∧
      (s.bindings 49152 = some 1 ∧ (s.socks 1).port = 49152 ∧ 1 ∈ s.opened) ∧
      ((s.handle ⟨7, 7, 49152, []⟩).socks 1).rxQueue = [⟨7, 7, 49152, []⟩] ∧ (s.socks 0).refs = 0 := by
  obtain ⟨s, hrun, hentry, hopened, hbound, haccepts, hqueue, hmade, hclosed⟩ :
      ∃ s, Run step Tidy start [.socket 0, .socket 1, .bind 0 true 80, .send 1 (some (some 1)) true 5, .close 0] s ∧
        s.bindings 49152 = some 1 ∧ 1 ∈ s.opened ∧ 1 ∈ s.bound ∧ (s.socks 1).accepts ⟨7, 7, 49152, []⟩ = true ∧
        (s.socks 1).rxQueue = [] ∧ 0 ∈ s.made ∧ 0 ∉ s.opened := by
    apply exists_run_of_replay
    decide
  obtain ⟨hentries, hserves, hreleased⟩ := udp_ports hrun
  obtain ⟨hport, -⟩ := hentries 49152 1 hentry
  refine ⟨s, hrun, ⟨hentry, hport, hopened⟩, ?_, hreleased 0 hmade hclosed⟩
  rw [hserves 1 hopened hbound _ hport.symm haccepts, hqueue]
  rfl

/-- A second socket takes the port of the first, which gets no datagrams any more and keeps a reference when closed. -/
theorem bind_takes_port :
    (∃ s, Run step (fun _ _ => True) start [.socket 0, .socket 1, .bind 0 true 80, .bind 1 true 80] s ∧
      0 ∈ s.opened ∧ 0 ∈ s.bound ∧ (s.socks 0).port = 80 ∧ (s.socks 0).accepts ⟨7, 7, 80, []⟩ = true ∧
      ((s.handle ⟨7, 7, 80, []⟩).socks 0).rxQueue = []) ∧
    ∃ s, Run step (fun _ _ => True) start [.socket 0, .socket 1, .bind 0 true 80, .bind 1 true 80, .close 0] s ∧
      0 ∈ s.made ∧ 0 ∉ s.opened ∧ (s.socks 0).refs = 1 := by
  constructor
  · apply exists_run_of_replay
    decide
  · apply exists_run_of_replay
    decide

end Udp

end Kairax.Net
