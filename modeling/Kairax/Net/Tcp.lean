import Kairax.Ipc.Socket
import Kairax.Lib.Run
import Mathlib.Data.Finset.Insert

/-!
# TCP

The sockets of `tcp.c`, the table of ports, and the handler of incoming segments. A segment goes to the socket that is
bound to its port, or, if that one listens, to the child with the address of the peer. Connections to a listener are
made without state, with a cookie. The handler tests the flags in a fixed order and compares no numbers.
-/

namespace Kairax.Net

open Lib Ipc List Function

structure Flags where
  fin : Bool := false
  syn : Bool := false
  rst : Bool := false
  psh : Bool := false
  ack : Bool := false
  deriving DecidableEq, Repr

/-- An incoming segment with a right checksum. Addresses, ports and numbers are in the byte order of the host. -/
structure Segment where
  srcIp : BitVec 32
  dstIp : BitVec 32
  srcPort : BitVec 16
  dstPort : BitVec 16
  sn : BitVec 32
  ack : BitVec 32
  flags : Flags
  payload : List Byte
  deriving DecidableEq

def Segment.isSyn (seg : Segment) : Bool := seg.flags.syn && !seg.flags.ack

/-- An outgoing segment, with the socket from whose data the header was filled. -/
structure Sent where
  owner : Option Nat
  dstIp : BitVec 32
  srcPort : BitVec 16
  dstPort : BitVec 16
  sn : BitVec 32
  ack : BitVec 32
  flags : Flags
  payload : List Byte
  deriving DecidableEq

/-- `struct tcp_connection_request` -/
structure Request where
  sn : BitVec 32
  ack : BitVec 32
  addr : BitVec 32
  port : BitVec 16
  deriving DecidableEq

/-- `struct tcp4_socket_data` with the state of its `struct socket`. The address and the port are those of the
peer. -/
structure TcpSocket where
  state : SockState
  srcPort : BitVec 16
  boundPort : BitVec 16
  addr : BitVec 32
  port : BitVec 16
  sn : BitVec 32
  ack : BitVec 32
  wasConnected : Bool
  isListener : Bool
  isRst : Bool
  shutRd : Bool
  shutWr : Bool
  backlogSz : Nat
  acceptQueue : List Request
  children : List Nat
  listener : Option Nat
  rxQueue : List Buffer
  deriving DecidableEq

/-- What a received segment does to a socket: its data, whether an ACK is sent, and whether the socket is
destroyed. -/
structure Outcome where
  data : TcpSocket
  acks : Bool
  destroys : Bool

namespace TcpSocket

/-- `new_socket` and `sock_tcp4_create` -/
def new : TcpSocket :=
  ⟨.unconnected, 0, 0, 0, 0, 0, 0, false, false, false, false, false, 0, [], [], none, []⟩

/-- The header that is filled from the data of socket `k`. -/
def header (d : TcpSocket) (k : Nat) (flags : Flags) (payload : List Byte) : Sent :=
  ⟨some k, d.addr, d.srcPort, d.port, d.sn, d.ack, flags, payload⟩

/-- `tcp_ip4_handle_ack` -/
def handleAck (d : TcpSocket) : Outcome :=
  match d.state with
  | .lastAck => ⟨d, false, true⟩
  | .closing => ⟨d, false, true⟩
  | .finWait1 => ⟨{ d with state := .finWait2 }, false, false⟩
  | _ => ⟨d, false, false⟩

/-- `tcp_ip4_handle_fin` -/
def handleFin (d : TcpSocket) (hasAck : Bool) : Outcome :=
  match d.state with
  | .connected => ⟨{ d with state := .closeWait, shutRd := true, ack := d.ack + 1 }, true, false⟩
  | .finWait1 =>
    if hasAck then ⟨{ d with ack := d.ack + 1 }, true, true⟩
    else ⟨{ d with state := .closing, ack := d.ack + 1 }, true, false⟩
  | .finWait2 => ⟨{ d with ack := d.ack + 1 }, true, true⟩
  | _ => ⟨d, false, false⟩

/-- `tcp_ip4_put_to_rx_queue` -/
def putToRxQueue (d : TcpSocket) (payload : List Byte) : TcpSocket :=
  if d.shutRd then d else { d with rxQueue := d.rxQueue ++ [⟨payload, 0⟩] }

/-- The second half of `tcp_ip4_handle`, for a segment that is not a SYN. -/
def receive (d : TcpSocket) (seg : Segment) : Outcome :=
  if seg.flags.syn && seg.flags.ack then
    ⟨{ d with ack := seg.sn + 1, sn := d.sn + 1, state := .connected, wasConnected := true }, true, false⟩
  else if seg.flags.psh then
    ⟨putToRxQueue { d with ack := seg.sn + BitVec.ofNat 32 seg.payload.length } seg.payload, true, false⟩
  else if seg.flags.fin then d.handleFin seg.flags.ack
  else if seg.flags.rst then ⟨{ d with state := .unconnected, isRst := true, rxQueue := [] }, false, false⟩
  else if seg.flags.ack then d.handleAck
  else ⟨d, false, false⟩

end TcpSocket

inductive Received
  | code (rc : Int)
  | bytes (data : List Byte)
  | sleeps

/-- `sock_tcp4_recvfrom`, from its beginning or after it has been woken. -/
def TcpSocket.recvfrom (d : TcpSocket) (len : Nat) (dontwait : Bool) : Received × TcpSocket :=
  if d.wasConnected = false then (.code (-enotconn), d)
  else if len = 0 then
    if d.state ≠ .connected then (.code (-enotconn), d)
    else if d.isRst then (.code (-econnreset), d) else (.code 0, d)
  else
    match d.rxQueue with
    | [] =>
      if dontwait then (.code (-eagain), d)
      else if d.shutRd then (.code 0, d)
      else if d.isRst then (.code (-econnreset), d)
      else if d.state ≠ .connected then (.code 0, d)
      else (.sleeps, d)
    | buffer :: queue =>
      let n := min len (buffer.data.length - buffer.offset)
      (.bytes ((buffer.data.drop buffer.offset).take n), { d with
        rxQueue :=
          if buffer.data.length - (buffer.offset + n) = 0 then queue
          else { buffer with offset := buffer.offset + n } :: queue })

/-- The sockets, those made and those open, `tcp4_bindings`, the requests taken by accept, and what has been sent. -/
structure Tcp where
  socks : Nat → TcpSocket
  made : Finset Nat
  opened : Finset Nat
  bindings : BitVec 16 → Option Nat
  accepting : List (Nat × Request)
  out : List Sent

def Tcp.start : Tcp := ⟨fun _ => .new, ∅, ∅, fun _ => none, [], []⟩

namespace Tcp

def set (s : Tcp) (k : Nat) (d : TcpSocket) : Tcp := { s with socks := update s.socks k d }

def emit (s : Tcp) (route : Bool) (o : Sent) : Tcp := if route then { s with out := s.out ++ [o] } else s

/-- `tcp_ip4_ack` -/
def ackOut (s : Tcp) (k : Nat) (route : Bool) : Tcp := s.emit route ((s.socks k).header k { ack := true } [])

/-- `tcp_ip4_fin`. The number is only counted up if there is a route. -/
def finOut (s : Tcp) (k : Nat) (route : Bool) : Tcp :=
  if route then
    (s.emit true ((s.socks k).header k { fin := true, ack := true } [])).set k
      { s.socks k with sn := (s.socks k).sn + 1 }
  else s

/-- `tcp_ip4_err_rst` -/
def errRst (s : Tcp) (seg : Segment) (route : Bool) : Tcp :=
  s.emit route ⟨none, seg.srcIp, seg.dstPort, seg.srcPort, 0, seg.sn, { rst := true, ack := true }, []⟩

/-- `tcp_ip4_unbind_sock` -/
def unbindSock (s : Tcp) (k : Nat) : Tcp :=
  if s.bindings (s.socks k).boundPort = some k then
    { s with bindings := update s.bindings (s.socks k).boundPort none }
  else s

/-- `tcp_ip4_listener_remove` -/
def listenerRemove (s : Tcp) (l k : Nat) : Tcp :=
  let children := (s.socks l).children.erase k
  let s := s.set l { s.socks l with children := children }
  if (s.socks l).state = .unconnected ∧ children.length = 0 then s.unbindSock l else s

/-- `tcp_ip4_destroy` -/
def destroy (s : Tcp) (k : Nat) : Tcp :=
  let s := s.set k { s.socks k with state := .unconnected }
  match (s.socks k).listener with
  | some l => s.listenerRemove l k
  | none => s.unbindSock k

def answer (s : Tcp) (k : Nat) (seg : Segment) (route : Bool) : Tcp :=
  let r := (s.socks k).receive seg
  let s := s.set k r.data
  if r.acks then s.ackOut k route else s

def deliver (s : Tcp) (k : Nat) (seg : Segment) (route : Bool) : Tcp :=
  if ((s.socks k).receive seg).destroys then (s.answer k seg route).destroy k else s.answer k seg route

/-- `tcp_ip4_listener_get` -/
def listenerGet (s : Tcp) (l : Nat) (addr : BitVec 32) (port : BitVec 16) : Option Nat :=
  (s.socks l).children.find? fun k => decide ((s.socks k).port = port ∧ (s.socks k).addr = addr)

/-- `tcp_ip4_make_syn_cookie`, with the time in seconds. The number of the client is not used. -/
def makeSynCookie (siphash : BitVec 32 → BitVec 32 → BitVec 32 → BitVec 32 → BitVec 32) (seg : Segment) (time : Nat) :
    BitVec 32 :=
  siphash seg.srcIp seg.dstIp (seg.srcPort ++ seg.dstPort) (BitVec.ofNat 32 (time / 64))

section Handler

variable (siphash : BitVec 32 → BitVec 32 → BitVec 32 → BitVec 32 → BitVec 32)

/-- `tcp_ip4_handle_syn` -/
def handleSyn (s : Tcp) (seg : Segment) (time : Nat) (route : Bool) : Tcp :=
  s.emit route ⟨none, seg.srcIp, seg.dstPort, seg.srcPort, makeSynCookie siphash seg time, seg.sn + 1,
    { syn := true, ack := true }, []⟩

def requestOf (seg : Segment) : Request := ⟨seg.ack - 1, seg.sn, seg.srcIp, seg.srcPort⟩

def enqueue (s : Tcp) (l : Nat) (request : Request) : Tcp :=
  s.set l { s.socks l with acceptQueue := (s.socks l).acceptQueue ++ [request] }

/-- `tcp_ip4_listener_handle_ack`, undefined where it returns false. -/
def listenerHandleAck (s : Tcp) (l : Nat) (seg : Segment) (time : Nat) : Option Tcp :=
  if makeSynCookie siphash seg time = seg.ack - 1 then
    if (s.socks l).backlogSz ≤ (s.socks l).acceptQueue.length then none else some (s.enqueue l (requestOf seg))
  else none

/-- `tcp_ip4_handle` for a segment that has passed the test of its checksum. -/
def handle (s : Tcp) (seg : Segment) (time : Nat) (route : Bool) : Tcp :=
  match s.bindings seg.dstPort with
  | none => s.errRst seg route
  | some k =>
    if (s.socks k).isListener && !seg.isSyn then
      match s.listenerGet k seg.srcIp seg.srcPort with
      | some child => s.deliver child seg route
      | none =>
        if seg.flags.ack then (s.listenerHandleAck siphash k seg time).getD (s.errRst seg route)
        else s.errRst seg route
    else if seg.isSyn then
      if (s.socks k).state = .listen then s.handleSyn siphash seg time route else s.errRst seg route
    else s.deliver k seg route

end Handler

def create (s : Tcp) (k : Nat) (d : TcpSocket) : Tcp :=
  { s with socks := update s.socks k d, made := insert k s.made, opened := insert k s.opened }

/-- `sock_tcp4_bind`. The port also becomes the port of the peer. -/
def bind (s : Tcp) (k : Nat) (port : BitVec 16) : Int × Tcp :=
  if s.bindings port ≠ none then (-eaddrinuse, s)
  else (0, { s.set k { s.socks k with port := port, boundPort := port } with
    bindings := update s.bindings port (some k) })

/-- `sock_tcp4_listen` -/
def listen (s : Tcp) (k backlog : Nat) : Tcp :=
  s.set k { s.socks k with
    backlogSz := backlog
    isListener := true
    state := .listen
    srcPort := (s.socks k).boundPort }

/-- The port that `tcp_ip4_alloc_dynamic_port` finds. -/
def freePort (s : Tcp) : Option (BitVec 16) :=
  ((range' 49152 16384).map (BitVec.ofNat 16)).find? fun port => decide (s.bindings port = none)

/-- `sock_tcp4_connect` up to where it waits, with the random number that it draws. -/
def connect (s : Tcp) (k : Nat) (addr : BitVec 32) (port : BitVec 16) (rand : BitVec 32) (route : Bool) :
    Option Int × Tcp :=
  if (s.socks k).wasConnected then (some (-eisconn), s)
  else
    match s.freePort with
    | none => (some (-eaddrnotavail), s)
    | some p =>
      let d := { s.socks k with srcPort := p, boundPort := p, addr := addr, port := port, state := .connecting }
      let s := { s with bindings := update s.bindings p (some k) }
      if route then
        let d := { d with sn := rand, ack := 0 }
        (none, (s.set k d).emit true (d.header k { syn := true } []))
      else (some (-enetunreach), s.set k d)

/-- The first half of `sock_tcp4_accept`: a request is taken from the queue. -/
def acceptTake (s : Tcp) (k : Nat) : Tcp :=
  match (s.socks k).acceptQueue with
  | [] => s
  | request :: queue =>
    { s.set k { s.socks k with acceptQueue := queue } with accepting := s.accepting ++ [(k, request)] }

/-- The socket that `sock_tcp4_accept` makes. -/
def childOf (s : Tcp) (l : Nat) (request : Request) : TcpSocket :=
  { TcpSocket.new with
    addr := request.addr
    port := request.port
    srcPort := (s.socks l).boundPort
    boundPort := request.port
    sn := request.sn
    ack := request.ack
    listener := some l
    state := .connected
    wasConnected := true }

/-- The second half of `sock_tcp4_accept`: the new socket becomes a child of the listener. -/
def acceptDone (s : Tcp) (i new : Nat) : Tcp :=
  match s.accepting[i]? with
  | none => s
  | some (l, request) =>
    let s := s.create new (s.childOf l request)
    { s.set l { s.socks l with children := (s.socks l).children ++ [new] } with
      accepting := s.accepting.eraseIdx i }

/-- What the headers of TCP, IPv4 and Ethernet leave of the 1024 bytes that `sock_tcp4_sendto` allocates. -/
def maxMessage : Nat := 1024 - 20 - 20 - 14

/-- The message is put into the buffer of `sock_tcp4_sendto` and does not fit: what is in front of it is
overwritten. -/
def Overruns (d : TcpSocket) (msg : List Byte) (route : Bool) : Prop :=
  d.state = .connected ∧ d.isRst = false ∧ d.shutWr = false ∧ route = true ∧ maxMessage < msg.length

instance decidableOverruns (d : TcpSocket) (msg : List Byte) (route : Bool) : Decidable (Overruns d msg route) :=
  inferInstanceAs (Decidable (_ ∧ _ ∧ _ ∧ _ ∧ _))

/-- `sock_tcp4_sendto` with a message that fits -/
def sendto (s : Tcp) (k : Nat) (msg : List Byte) (route : Bool) : Int × Tcp :=
  let d := s.socks k
  if d.state ≠ .connected then (-enotconn, s)
  else if d.isRst then (-econnreset, s)
  else if d.shutWr then (-epipe, s)
  else if msg.length = 0 then (0, s)
  else if route then
    (0, (s.emit true (d.header k { psh := true, ack := true } msg)).set k
      { d with sn := d.sn + BitVec.ofNat 32 msg.length })
  else (-enetunreach, s)

/-- `sock_tcp4_shutdown_sequense` -/
def shutdownSequence (s : Tcp) (k : Nat) (route : Bool) : Tcp :=
  match (s.socks k).state with
  | .closeWait => (s.set k { s.socks k with state := .lastAck }).finOut k route
  | .connected => (s.set k { s.socks k with state := .finWait1 }).finOut k route
  | .connecting => (s.unbindSock k).finOut k route
  | _ => s

/-- `sock_tcp4_shutdown` -/
def shutdown (s : Tcp) (k : Nat) (rd wr : Bool) (route : Bool) : Tcp :=
  let s := if rd then s.set k { s.socks k with shutRd := true } else s
  if wr then
    let s := s.shutdownSequence k route
    s.set k { s.socks k with shutWr := true }
  else s

/-- `sock_tcp4_close` -/
def close (s : Tcp) (k : Nat) (route : Bool) : Tcp :=
  if (s.socks k).isListener then
    let s := s.set k { s.socks k with state := .unconnected, acceptQueue := [] }
    if (s.socks k).children.length = 0 then s.unbindSock k else s
  else (s.set k { s.socks k with shutRd := true, shutWr := true, rxQueue := [] }).shutdownSequence k route

end Tcp

inductive TcpOp
  | socket (k : Nat)
  | bind (k : Nat) (port : BitVec 16)
  | listen (k backlog : Nat)
  | connect (k : Nat) (addr : BitVec 32) (port : BitVec 16) (rand : BitVec 32) (route : Bool)
  | acceptTake (k : Nat)
  | acceptDone (i new : Nat)
  | segment (seg : Segment) (time : Nat) (route : Bool)
  | send (k : Nat) (msg : List Byte) (route : Bool)
  | recv (k len : Nat) (dontwait : Bool)
  | shutdown (k : Nat) (rd wr route : Bool)
  | close (k : Nat) (route : Bool)

namespace Tcp

/-- Calls are made through files that are open, and sockets are made where there was none. A message that overruns its
buffer is a fault. -/
def Possible (s : Tcp) : TcpOp → Prop
  | .socket k => k ∉ s.made
  | .bind k _ => k ∈ s.opened
  | .listen k _ => k ∈ s.opened
  | .connect k _ _ _ _ => k ∈ s.opened
  | .acceptTake k => k ∈ s.opened
  | .acceptDone i new => i < s.accepting.length ∧ new ∉ s.made
  | .segment _ _ _ => True
  | .send k msg route => k ∈ s.opened ∧ ¬ Overruns (s.socks k) msg route
  | .recv k _ _ => k ∈ s.opened
  | .shutdown k _ _ _ => k ∈ s.opened
  | .close k _ => k ∈ s.opened

instance decidablePossible (s : Tcp) (op : TcpOp) : Decidable (s.Possible op) := by
  cases op <;> (unfold Possible; infer_instance)

variable (siphash : BitVec 32 → BitVec 32 → BitVec 32 → BitVec 32 → BitVec 32)

/-- What a call or a segment leaves behind. A close also closes the file. -/
def call (s : Tcp) : TcpOp → Tcp
  | .socket k => s.create k .new
  | .bind k port => (s.bind k port).2
  | .listen k backlog => s.listen k backlog
  | .connect k addr port rand route => (s.connect k addr port rand route).2
  | .acceptTake k => s.acceptTake k
  | .acceptDone i new => s.acceptDone i new
  | .segment seg time route => s.handle siphash seg time route
  | .send k msg route => (s.sendto k msg route).2
  | .recv k len dontwait => s.set k ((s.socks k).recvfrom len dontwait).2
  | .shutdown k rd wr route => s.shutdown k rd wr route
  | .close k route => { s.close k route with opened := s.opened.erase k }

def step (s : Tcp) (op : TcpOp) : Option Tcp := if s.Possible op then some (s.call siphash op) else none

end Tcp

/-- The data of a connection, without the queue and the children of a listener. -/
def TcpSocket.conn (d : TcpSocket) : TcpSocket := { d with acceptQueue := [], children := [] }

def Outcome.after (r : Outcome) : TcpSocket := if r.destroys then { r.data with state := .unconnected } else r.data

def TcpSocket.sendsFin (d : TcpSocket) : Bool :=
  match d.state with
  | .closeWait => true
  | .connected => true
  | .connecting => true
  | _ => false

def TcpSocket.leave (d : TcpSocket) (route : Bool) : TcpSocket :=
  { d with
    state := match d.state with
      | .closeWait => .lastAck
      | .connected => .finWait1
      | state => state
    sn := if d.sendsFin ∧ route then d.sn + 1 else d.sn }

def TcpSocket.shut (d : TcpSocket) (rd wr route : Bool) : TcpSocket :=
  let d := if rd then { d with shutRd := true } else d
  if wr then { d.leave route with shutWr := true } else d

def TcpSocket.closed (d : TcpSocket) (route : Bool) : TcpSocket :=
  if d.isListener then { d with state := .unconnected, acceptQueue := [] }
  else leave { d with shutRd := true, shutWr := true, rxQueue := [] } route

def TcpSocket.dial (d : TcpSocket) (p : BitVec 16) (addr : BitVec 32) (port : BitVec 16) (rand : BitVec 32)
    (route : Bool) : TcpSocket :=
  { d with
    srcPort := p
    boundPort := p
    addr := addr
    port := port
    state := .connecting
    sn := if route then rand else d.sn
    ack := if route then 0 else d.ack }

theorem TcpSocket.recvfrom_eq (d : TcpSocket) (len : Nat) (dontwait : Bool) :
    ∃ queue, (d.recvfrom len dontwait).2 = { d with rxQueue := queue } := by
  rw [recvfrom]
  cases d.rxQueue with
  | nil | cons buffer queue => split_ifs <;> exact ⟨_, rfl⟩

theorem TcpSocket.handleFin_eq (d : TcpSocket) (hasAck : Bool) :
    ∃ state ack shutRd, (d.handleFin hasAck).data = { d with state := state, ack := ack, shutRd := shutRd } := by
  rw [handleFin]
  split
  · exact ⟨_, _, _, rfl⟩
  · split_ifs <;> exact ⟨_, _, _, rfl⟩
  · exact ⟨_, _, _, rfl⟩
  · exact ⟨_, _, _, rfl⟩

theorem TcpSocket.handleAck_eq (d : TcpSocket) : ∃ state, (d.handleAck).data = { d with state := state } := by
  rw [handleAck]
  split <;> exact ⟨_, rfl⟩

theorem TcpSocket.receive_eq (d : TcpSocket) (seg : Segment) :
    ∃ state sn ack was isRst shutRd queue, (d.receive seg).data = { d with
      state := state
      sn := sn
      ack := ack
      wasConnected := was || d.wasConnected
      isRst := isRst
      shutRd := shutRd
      rxQueue := queue } := by
  rw [receive]
  split_ifs
  · exact ⟨_, _, _, true, _, _, _, rfl⟩
  · rw [putToRxQueue]
    split_ifs <;> exact ⟨_, _, _, false, _, _, _, rfl⟩
  · obtain ⟨state, ack, shutRd, hdata⟩ := d.handleFin_eq seg.flags.ack
    exact ⟨state, _, ack, false, _, shutRd, _, hdata⟩
  · exact ⟨_, _, _, false, _, _, _, rfl⟩
  · obtain ⟨state, hdata⟩ := d.handleAck_eq
    exact ⟨state, _, _, false, _, _, _, hdata⟩
  · exact ⟨_, _, _, false, _, _, _, rfl⟩

theorem TcpSocket.leave_eq_self {d : TcpSocket} {route : Bool} (hquiet : d.sendsFin = false) : d.leave route = d := by
  obtain ⟨state⟩ := d
  cases state with
  | closeWait | connected | connecting => cases hquiet
  | unconnected | listen | closing | lastAck | finWait1 | finWait2 =>
    simp only [leave, hquiet, Bool.false_eq_true, false_and, if_false]

namespace Tcp

variable {siphash : BitVec 32 → BitVec 32 → BitVec 32 → BitVec 32 → BitVec 32}

section Frames

variable {s : Tcp} {d : TcpSocket} {j k l : Nat} {seg : Segment} {route : Bool}

section

variable (s : Tcp)

theorem set_socks (k : Nat) (d : TcpSocket) (j : Nat) :
    (s.set k d).socks j = if j = k then d else s.socks j := update_apply ..

theorem emit_eq (route : Bool) (o : Sent) : s.emit route o = { s with out := s.out ++ if route then [o] else [] } := by
  cases route with
  | true => rfl
  | false =>
    rw [if_neg Bool.false_ne_true, append_nil]
    rfl

theorem unbindSock_eq (k : Nat) : s.unbindSock k = { s with bindings := (s.unbindSock k).bindings } := by
  rw [unbindSock]
  split_ifs
  · rfl
  · rfl

theorem conn_listenerRemove (l k j : Nat) : ((s.listenerRemove l k).socks j).conn = (s.socks j).conn := by
  have hset : ((s.set l { s.socks l with children := (s.socks l).children.erase k }).socks j).conn =
      (s.socks j).conn := by
    rw [set_socks]
    split_ifs with hj
    · rw [hj]
      rfl
    · rfl
  rw [listenerRemove]
  split_ifs
  · rw [unbindSock_eq]
    exact hset
  · exact hset

theorem out_listenerRemove (l k : Nat) : (s.listenerRemove l k).out = s.out := by
  rw [listenerRemove]
  split_ifs
  · rw [unbindSock_eq]
    rfl
  · rfl

theorem conn_destroy (k j : Nat) :
    ((s.destroy k).socks j).conn = if j = k then { (s.socks k).conn with state := .unconnected }
    else (s.socks j).conn := by
  have hset : ((s.set k { s.socks k with state := .unconnected }).socks j).conn =
      if j = k then { (s.socks k).conn with state := .unconnected } else (s.socks j).conn := by
    rw [set_socks]
    split_ifs <;> rfl
  rw [destroy]
  split
  · rw [conn_listenerRemove, hset]
  · rw [unbindSock_eq]
    exact hset

theorem out_destroy (k : Nat) : (s.destroy k).out = s.out := by
  rw [destroy]
  split
  · rw [out_listenerRemove]
    rfl
  · rw [unbindSock_eq]
    rfl

section

variable (k : Nat) (seg : Segment) (route : Bool)

theorem answer_eq :
    s.answer k seg route = { s with
      socks := update s.socks k ((s.socks k).receive seg).data
      out := s.out ++ if ((s.socks k).receive seg).acks ∧ route then
        [((s.socks k).receive seg).data.header k { ack := true } []] else [] } := by
  have hself : (s.set k ((s.socks k).receive seg).data).socks k = ((s.socks k).receive seg).data := update_self ..
  rw [answer]
  cases hacks : ((s.socks k).receive seg).acks with
  | true =>
    simp only [ackOut, emit_eq, hself, true_and]
    rfl
  | false =>
    simp only [Bool.false_eq_true, if_false, false_and, append_nil]
    rfl

theorem conn_deliver (j : Nat) :
    ((s.deliver k seg route).socks j).conn =
      if j = k then ((s.socks k).receive seg).after.conn else (s.socks j).conn := by
  have hsocks : (s.answer k seg route).socks = update s.socks k ((s.socks k).receive seg).data := by
    rw [answer_eq]
  rw [deliver, Outcome.after]
  cases hdestroys : ((s.socks k).receive seg).destroys with
  | true =>
    simp only [if_true]
    rw [conn_destroy, hsocks, update_self, update_apply]
    split_ifs <;> rfl
  | false =>
    simp only [Bool.false_eq_true, if_false]
    rw [hsocks, update_apply]
    split_ifs <;> rfl

theorem out_deliver :
    (s.deliver k seg route).out = s.out ++
      if ((s.socks k).receive seg).acks ∧ route then [((s.socks k).receive seg).data.header k { ack := true } []]
      else [] := by
  have hout := congrArg Tcp.out (answer_eq s k seg route)
  rw [deliver]
  cases ((s.socks k).receive seg).destroys with
  | true => rw [if_pos rfl, out_destroy, hout]
  | false => rw [if_neg Bool.false_ne_true, hout]

end

theorem finOut_eq (k : Nat) (route : Bool) :
    s.finOut k route = { s with
      socks := update s.socks k { s.socks k with sn := if route then (s.socks k).sn + 1 else (s.socks k).sn }
      out := s.out ++ if route then [(s.socks k).header k { fin := true, ack := true } []] else [] } := by
  cases route with
  | true => rfl
  | false =>
    simp only [finOut, Bool.false_eq_true, if_false, append_nil]
    rw [update_eq_self]

theorem shutdownSequence_eq (k : Nat) (route : Bool) :
    s.shutdownSequence k route = { s with
      socks := update s.socks k ((s.socks k).leave route)
      bindings := if (s.socks k).state = .connecting then (s.unbindSock k).bindings else s.bindings
      out := s.out ++ if (s.socks k).sendsFin ∧ route then
        [(s.socks k).header k { fin := true, ack := true } []] else [] } := by
  rw [shutdownSequence]
  cases hstate : (s.socks k).state with
  | closeWait | connected =>
    simp only [finOut_eq, set, update_self, update_idem, TcpSocket.leave, TcpSocket.sendsFin, hstate,
      true_and]
    rfl
  | connecting =>
    rw [unbindSock_eq]
    simp only [finOut_eq, TcpSocket.leave, TcpSocket.sendsFin, hstate, true_and, if_true]
  | unconnected | listen | closing | lastAck | finWait1 | finWait2 =>
    have hquiet : (s.socks k).sendsFin = false := by rw [TcpSocket.sendsFin, hstate]
    simp only [TcpSocket.leave_eq_self hquiet, hquiet, update_eq_self, reduceCtorEq, Bool.false_eq_true,
      false_and, if_false, append_nil]

theorem unbindSock_update (hport : d.boundPort = (s.socks k).boundPort) :
    unbindSock { s with socks := update s.socks k d } k =
      { s with socks := update s.socks k d, bindings := (s.unbindSock k).bindings } := by
  simp only [unbindSock, update_self, hport]
  split_ifs <;> rfl

theorem shutdown_eq (k : Nat) (rd wr route : Bool) :
    s.shutdown k rd wr route = { s with
      socks := update s.socks k ((s.socks k).shut rd wr route)
      bindings := if wr ∧ (s.socks k).state = .connecting then (s.unbindSock k).bindings else s.bindings
      out := s.out ++ if wr ∧ (s.socks k).sendsFin ∧ route then
        [(s.socks k).header k { fin := true, ack := true } []] else [] } := by
  cases wr with
  | false => cases rd <;> simp [shutdown, TcpSocket.shut, set]
  | true =>
    cases rd with
    | false => simp [shutdown, shutdownSequence_eq, TcpSocket.shut, set]
    | true =>
      simp [shutdown, shutdownSequence_eq, unbindSock_update, TcpSocket.shut, set]
      rfl

theorem close_eq (k : Nat) (route : Bool) :
    s.close k route = { s with
      socks := update s.socks k ((s.socks k).closed route)
      bindings :=
        if (if (s.socks k).isListener then (s.socks k).children = [] else (s.socks k).state = .connecting) then
        (s.unbindSock k).bindings else s.bindings
      out := s.out ++ if (s.socks k).isListener = false ∧ (s.socks k).sendsFin ∧ route then
        [(s.socks k).header k { fin := true, ack := true } []] else [] } := by
  cases hlistener : (s.socks k).isListener with
  | true =>
    by_cases hchildren : (s.socks k).children = []
    · simp [close, hlistener, hchildren, unbindSock_update, TcpSocket.closed, set]
    · simp [close, hlistener, hchildren, TcpSocket.closed, set]
  | false =>
    simp [close, hlistener, shutdownSequence_eq, unbindSock_update, TcpSocket.closed, set]
    rfl

theorem connect_cases (k : Nat) (addr : BitVec 32) (port : BitVec 16) (rand : BitVec 32) (route : Bool) :
    (s.connect k addr port rand route).1 ≠ none ∧ (s.connect k addr port rand route).2 = s ∨
    ∃ p, (s.socks k).wasConnected = false ∧ s.freePort = some p ∧
      (s.connect k addr port rand route).2 = { s with
        socks := update s.socks k ((s.socks k).dial p addr port rand route)
        bindings := update s.bindings p (some k)
        out := s.out ++ if route then
          [((s.socks k).dial p addr port rand route).header k { syn := true } []] else [] } := by
  rw [connect]
  cases hwas : (s.socks k).wasConnected with
  | true => exact .inl ⟨nofun, rfl⟩
  | false =>
    cases hport : s.freePort with
    | none => exact .inl ⟨nofun, rfl⟩
    | some p =>
      refine .inr ⟨p, rfl, rfl, ?_⟩
      cases route with
      | true => rfl
      | false => simp only [Bool.false_eq_true, if_false, append_nil, TcpSocket.dial, set]

end

def target (s : Tcp) (seg : Segment) : Option Nat :=
  (s.bindings seg.dstPort).bind fun k =>
    if (s.socks k).isListener && !seg.isSyn then s.listenerGet k seg.srcIp seg.srcPort
    else if seg.isSyn then none else some k

variable (siphash) (s) in
theorem handle_cases (seg : Segment)
    (time : Nat) (route : Bool) :
    (∃ o : Sent, o.owner = none ∧ s.target seg = none ∧ s.handle siphash seg time route = s.emit route o) ∨
    (∃ l, s.bindings seg.dstPort = some l ∧ (s.socks l).isListener = true ∧ seg.flags.ack = true ∧
      s.listenerGet l seg.srcIp seg.srcPort = none ∧ s.target seg = none ∧
      makeSynCookie siphash seg time = seg.ack - 1 ∧ (s.socks l).acceptQueue.length < (s.socks l).backlogSz ∧
      s.handle siphash seg time route = s.enqueue l (requestOf seg)) ∨
    (∃ k, s.target seg = some k ∧ seg.isSyn = false ∧ s.handle siphash seg time route = s.deliver k seg route) := by
  rw [handle, target]
  cases hbound : s.bindings seg.dstPort with
  | none => exact .inl ⟨_, rfl, rfl, rfl⟩
  | some k =>
    rw [Option.bind_some]
    dsimp only
    by_cases hlistener : ((s.socks k).isListener && !seg.isSyn) = true
    · rw [if_pos hlistener, if_pos hlistener]
      rw [Bool.and_eq_true, Bool.not_eq_true'] at hlistener
      cases hchild : s.listenerGet k seg.srcIp seg.srcPort with
      | some child => exact .inr (.inr ⟨child, rfl, hlistener.2, rfl⟩)
      | none =>
        rw [listenerHandleAck]
        split_ifs with hack hcookie hfull
        · exact .inl ⟨_, rfl, rfl, rfl⟩
        · exact .inr (.inl ⟨k, rfl, hlistener.1, hack, hchild, rfl, hcookie, not_le.mp hfull, rfl⟩)
        · exact .inl ⟨_, rfl, rfl, rfl⟩
        · exact .inl ⟨_, rfl, rfl, rfl⟩
    · rw [if_neg hlistener, if_neg hlistener]
      cases hsyn : seg.isSyn with
      | true =>
        rw [if_pos rfl, if_pos rfl]
        split_ifs
        · exact .inl ⟨_, rfl, rfl, rfl⟩
        · exact .inl ⟨_, rfl, rfl, rfl⟩
      | false => exact .inr (.inr ⟨k, rfl, rfl, rfl⟩)

theorem handle_of_target {time : Nat} (htarget : s.target seg = some k) :
    s.handle siphash seg time route = s.deliver k seg route := by
  obtain ⟨o, -, hnone, -⟩ | ⟨l, -, -, -, -, hnone, -, -, -⟩ | ⟨k', hk', -, hhandle⟩ :=
    handle_cases siphash s seg time route
  · cases hnone.symm.trans htarget
  · cases hnone.symm.trans htarget
  · cases hk'.symm.trans htarget
    exact hhandle

theorem conn_enqueue (s : Tcp) (l : Nat) (request : Request) (j : Nat) :
    ((s.enqueue l request).socks j).conn = (s.socks j).conn := by
  rw [enqueue, set_socks]
  split_ifs with hj
  · rw [hj]
    rfl
  · rfl

variable (siphash) (s) in
theorem conn_handle (seg : Segment)
    (time : Nat) (route : Bool) (j : Nat) :
    ((s.handle siphash seg time route).socks j).conn =
      if s.target seg = some j then ((s.socks j).receive seg).after.conn else (s.socks j).conn := by
  obtain ⟨o, -, htarget, hhandle⟩ | ⟨l, -, -, -, -, htarget, -, -, hhandle⟩ | ⟨k, htarget, -, hhandle⟩ :=
    handle_cases siphash s seg time route
  · rw [hhandle, htarget, emit_eq]
    simp only [reduceCtorEq, if_false]
  · rw [hhandle, htarget, conn_enqueue]
    simp only [reduceCtorEq, if_false]
  · rw [hhandle, htarget, conn_deliver]
    by_cases hj : j = k
    · rw [if_pos hj, if_pos (congrArg some hj.symm), hj]
    · rw [if_neg hj, if_neg fun h => hj (Option.some.inj h).symm]

/-- The sockets that were made, those that are open, and the calls of accept. -/
def files (s : Tcp) : Finset Nat × Finset Nat × List (Nat × Request) := (s.made, s.opened, s.accepting)

theorem files_unbindSock (s : Tcp) (k : Nat) : (s.unbindSock k).files = s.files := by
  rw [unbindSock_eq]
  rfl

theorem files_listenerRemove (s : Tcp) (l k : Nat) : (s.listenerRemove l k).files = s.files := by
  rw [listenerRemove]
  split_ifs
  · rw [files_unbindSock]
    rfl
  · rfl

theorem files_destroy (s : Tcp) (k : Nat) : (s.destroy k).files = s.files := by
  rw [destroy]
  split
  · rw [files_listenerRemove]
    rfl
  · rw [files_unbindSock]
    rfl

theorem files_deliver (s : Tcp) (k : Nat) (seg : Segment) (route : Bool) : (s.deliver k seg route).files = s.files := by
  have hanswer : (s.answer k seg route).files = s.files := by
    rw [answer_eq]
    rfl
  rw [deliver]
  split_ifs
  · rw [files_destroy, hanswer]
  · exact hanswer

variable (siphash) (s) in
theorem files_handle (seg : Segment)
    (time : Nat) (route : Bool) : (s.handle siphash seg time route).files = s.files := by
  obtain ⟨o, -, -, hhandle⟩ | ⟨l, -, -, -, -, -, -, -, hhandle⟩ | ⟨k, -, -, hhandle⟩ :=
    handle_cases siphash s seg time route
  · rw [hhandle, emit_eq]
    rfl
  · rw [hhandle]
    rfl
  · rw [hhandle, files_deliver]

theorem files_shutdown (s : Tcp) (k : Nat) (rd wr route : Bool) : (s.shutdown k rd wr route).files = s.files := by
  rw [shutdown_eq]
  rfl

theorem files_close (s : Tcp) (k : Nat) (route : Bool) : (s.close k route).files = s.files := by
  rw [close_eq]
  rfl

def createdBy (s : Tcp) : TcpOp → Finset Nat
  | .socket k => {k}
  | .acceptDone i new => if i < s.accepting.length then {new} else ∅
  | _ => ∅

variable (siphash) (s) in
theorem created_call (op : TcpOp) :
    (s.call siphash op).made = s.made ∪ s.createdBy op ∧
      (s.call siphash op).opened = match op with
        | .close k _ => s.opened.erase k
        | op => s.opened ∪ s.createdBy op := by
  have hnone {t : Tcp} (hmade : t.made = s.made) (hopened : t.opened = s.opened) :
      t.made = s.made ∪ ∅ ∧ t.opened = s.opened ∪ ∅ := by
    rw [Finset.union_empty, Finset.union_empty]
    exact ⟨hmade, hopened⟩
  have hfiles {t : Tcp} (heq : t.files = s.files) : t.made = s.made ∪ ∅ ∧ t.opened = s.opened ∪ ∅ :=
    hnone (congrArg Prod.fst heq) (congrArg (·.2.1) heq)
  have hinsert (k : Nat) (A : Finset Nat) : insert k A = A ∪ {k} := by rw [Finset.insert_eq, Finset.union_comm]
  cases op with
  | socket k => exact ⟨hinsert k s.made, hinsert k s.opened⟩
  | bind k port =>
    rw [call, bind]
    split_ifs <;> exact hnone rfl rfl
  | listen k backlog => exact hnone rfl rfl
  | connect k addr port rand route =>
    rw [call]
    obtain ⟨-, hsame⟩ | ⟨p, -, -, hconnect⟩ := s.connect_cases k addr port rand route
    · rw [hsame]
      exact hnone rfl rfl
    · rw [hconnect]
      exact hnone rfl rfl
  | acceptTake k =>
    rw [call, acceptTake]
    split <;> exact hnone rfl rfl
  | acceptDone i new =>
    dsimp only
    rw [createdBy, call, acceptDone]
    cases hrequest : s.accepting[i]? with
    | none =>
      rw [List.getElem?_eq_none_iff] at hrequest
      rw [if_neg (not_lt.mpr hrequest)]
      exact hnone rfl rfl
    | some request =>
      obtain ⟨hi, -⟩ := List.getElem?_eq_some_iff.mp hrequest
      rw [if_pos hi]
      exact ⟨hinsert new s.made, hinsert new s.opened⟩
  | segment seg time route => exact hfiles (files_handle siphash s seg time route)
  | send k msg route =>
    rw [call, sendto]
    split_ifs <;> exact hnone rfl rfl
  | recv k len dontwait => exact hnone rfl rfl
  | shutdown k rd wr route => exact hfiles (s.files_shutdown k rd wr route)
  | close k route => exact ⟨(hfiles (s.files_close k route)).1, rfl⟩

variable (siphash) (s) in
theorem made_call (op : TcpOp) :
    (s.call siphash op).made = s.made ∪ s.createdBy op :=
  (created_call siphash s op).1

theorem mem_made_call {op : TcpOp} (hj : j ∈ s.made) : j ∈ (s.call siphash op).made := by
  rw [made_call]
  exact Finset.mem_union_left _ hj

variable (siphash) (s) in
theorem opened_call (op : TcpOp) :
    (s.call siphash op).opened = match op with
      | .close k _ => s.opened.erase k
      | op => s.opened ∪ s.createdBy op :=
  (created_call siphash s op).2

theorem opened_subset_made_call {op : TcpOp} (hopened : s.opened ⊆ s.made) :
    (s.call siphash op).opened ⊆ (s.call siphash op).made := by
  rw [made_call, opened_call]
  split
  · exact (Finset.erase_subset ..).trans (hopened.trans Finset.subset_union_left)
  · exact Finset.union_subset_union_left hopened

end Frames

end Tcp

end Kairax.Net
