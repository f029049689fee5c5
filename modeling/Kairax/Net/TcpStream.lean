import Kairax.Net.TcpNumbers

/-!
# The bytes that are received

The network delivers the segments of a stream in any order, and some more than once. The handler puts the data of
every segment with PSH into the queue and acknowledges its end. What is handed out is a part of the stream as long as
these arrive in order, each once.
-/

namespace Kairax.Net

open Lib Ipc List Function
open BitVec (ofNat)

/-- A connection: its socket, both addresses and ports, the bytes of the peer and the number of the first. -/
structure Connection where
  sock : Nat
  addr : BitVec 32
  port : BitVec 16
  ip : BitVec 32
  localPort : BitVec 16
  stream : List Byte
  base : BitVec 32

namespace Connection

/-- The segment with the bytes of the stream from `off` on. -/
def segment (c : Connection) (off len : Nat) (flags : Flags) (ack : BitVec 32) : Segment :=
  ⟨c.addr, c.ip, c.port, c.localPort, c.base + ofNat 32 off, ack, flags, (c.stream.drop off).take len⟩

def Reaches (c : Connection) (s : Tcp) : Prop :=
  s.bindings c.localPort = some c.sock ∧ (s.socks c.sock).isListener = false ∨
  ∃ l, s.bindings c.localPort = some l ∧ (s.socks l).isListener = true ∧ s.listenerGet l c.addr c.port = some c.sock

/-- A connection that has been established, before any data has arrived. -/
structure Established (c : Connection) (s : Tcp) : Prop where
  reaches : c.Reaches s
  state : (s.socks c.sock).state = .connected
  queue : (s.socks c.sock).rxQueue = []
  ack : (s.socks c.sock).ack = c.base

end Connection

/-- The system, the bytes handed out, the parts of the stream that have arrived, and the bytes with PSH among them. -/
structure Reading where
  tcp : Tcp
  handed : List Byte
  arrived : List (Nat × Nat)
  next : Nat

inductive ReadOp
  | data (off len : Nat) (flags : Flags) (ack : BitVec 32) (time : Nat) (route : Bool)
  | recv (len : Nat) (dontwait : Bool)
  | send (msg : List Byte) (route : Bool)
  | shutRd

def Received.toBytes : Received → List Byte
  | .bytes data => data
  | _ => []

variable {arrived : List (Nat × Nat)} {d : TcpSocket} {ack : BitVec 32} {flags : Flags} {len : Nat}

namespace Reading

def start (s : Tcp) : Reading := ⟨s, [], [], 0⟩

variable (siphash : BitVec 32 → BitVec 32 → BitVec 32 → BitVec 32 → BitVec 32) (c : Connection)

/-- A segment of the peer arrives, or a call is made on the socket. A segment with data is neither a SYN nor a
RST. -/
def step (r : Reading) : ReadOp → Option Reading
  | .data off len flags ack time route =>
    if off + len ≤ c.stream.length ∧ flags.syn = false ∧ flags.rst = false then
      some ⟨r.tcp.handle siphash (c.segment off len flags ack) time route, r.handed, r.arrived ++ [(off, len)],
        if flags.psh then r.next + len else r.next⟩
    else none
  | .recv len dontwait =>
    let result := (r.tcp.socks c.sock).recvfrom len dontwait
    some { r with tcp := r.tcp.set c.sock result.2, handed := r.handed ++ result.1.toBytes }
  | .send msg route =>
    if Tcp.Overruns (r.tcp.socks c.sock) msg route then none
    else some { r with tcp := (r.tcp.sendto c.sock msg route).2 }
  | .shutRd => some { r with tcp := r.tcp.shutdown c.sock true false false }

/-- A segment with PSH begins where the one before it ended, and a segment without it does not carry FIN. -/
def InOrder (r : Reading) : ReadOp → Prop
  | .data off _ flags _ _ _ => if flags.psh then off = r.next else flags.fin = false
  | _ => True

instance decidableInOrder (r : Reading) (op : ReadOp) : Decidable (r.InOrder op) := by
  cases op <;> (unfold InOrder; infer_instance)

/-- The first `n` bytes of the stream have arrived. -/
def Covered (arrived : List (Nat × Nat)) (n : Nat) : Prop :=
  ∀ i < n, ∃ part ∈ arrived, part.1 ≤ i ∧ i < part.1 + part.2

theorem Covered.append {n : Nat} (hcovered : Covered arrived n) (part : Nat × Nat) : Covered (arrived ++ [part]) n := by
  intro i hi
  obtain ⟨part', hmem, hin⟩ := hcovered i hi
  exact ⟨part', mem_append_left _ hmem, hin⟩

theorem Covered.extend {n : Nat} (hcovered : Covered arrived n) (len : Nat) :
    Covered (arrived ++ [(n, len)]) (n + len) := by
  intro i hi
  by_cases hold : i < n
  · exact hcovered.append (n, len) i hold
  · exact ⟨(n, len), mem_append_right _ (mem_singleton_self _), not_lt.mp hold, hi⟩

end Reading

theorem TcpSocket.recvfrom_unread (d : TcpSocket) (len : Nat) (dontwait : Bool) :
    (d.recvfrom len dontwait).1.toBytes ++ unread (d.recvfrom len dontwait).2.rxQueue = unread d.rxQueue := by
  rw [recvfrom]
  cases hqueue : d.rxQueue with
  | nil => split_ifs <;> rw [hqueue] <;> rfl
  | cons buffer queue =>
    by_cases hwas : d.wasConnected = false
    · rw [if_pos hwas, hqueue]
      rfl
    by_cases hlen : len = 0
    · split_ifs <;> rw [hqueue] <;> rfl
    · rw [if_neg hwas, if_neg hlen]
      exact unread_take buffer queue _

theorem TcpSocket.receive_data (d : TcpSocket) (seg : Segment) (hstate : d.state = .connected)
    (hsyn : seg.flags.syn = false) (hrst : seg.flags.rst = false)
    (hfin : seg.flags.psh = false → seg.flags.fin = false) :
    (d.receive seg).destroys = false ∧ (d.receive seg).acks = seg.flags.psh ∧ (d.receive seg).data =
      if seg.flags.psh then putToRxQueue { d with ack := seg.sn + ofNat 32 seg.payload.length } seg.payload
      else d := by
  rw [receive, hsyn, Bool.false_and]
  cases hpsh : seg.flags.psh with
  | true => exact ⟨rfl, rfl, rfl⟩
  | false =>
    rw [hfin hpsh, hrst]
    simp only [Bool.false_eq_true, if_false]
    split_ifs
    · rw [handleAck, hstate]
      exact ⟨rfl, rfl, rfl⟩
    · exact ⟨rfl, rfl, rfl⟩

namespace Connection

variable {c : Connection} {s t : Tcp}

theorem Reaches.congr (hreaches : c.Reaches s) (hbindings : t.bindings = s.bindings)
    (hsocks : ∀ x, (t.socks x).isListener = (s.socks x).isListener ∧ (t.socks x).children = (s.socks x).children ∧
      (t.socks x).addr = (s.socks x).addr ∧ (t.socks x).port = (s.socks x).port) : c.Reaches t := by
  have hget (l : Nat) : t.listenerGet l c.addr c.port = s.listenerGet l c.addr c.port := by
    rw [Tcp.listenerGet, Tcp.listenerGet, (hsocks l).2.1]
    simp only [(hsocks _).2.2.1, (hsocks _).2.2.2]
  obtain ⟨hbound, hlistener⟩ | ⟨l, hbound, hlistener, hchild⟩ := hreaches
  · exact .inl ⟨by rw [hbindings, hbound], by rw [(hsocks _).1, hlistener]⟩
  · exact .inr ⟨l, by rw [hbindings, hbound], by rw [(hsocks l).1, hlistener], by rw [hget, hchild]⟩

theorem Reaches.update (hreaches : c.Reaches s) (hsocks : t.socks = update s.socks c.sock d)
    (hbindings : t.bindings = s.bindings) (hlistener : d.isListener = (s.socks c.sock).isListener)
    (hchildren : d.children = (s.socks c.sock).children) (haddr : d.addr = (s.socks c.sock).addr)
    (hport : d.port = (s.socks c.sock).port) : c.Reaches t := by
  refine hreaches.congr hbindings fun x => ?_
  rw [hsocks, update_apply]
  split_ifs with hx
  · rw [hx]
    exact ⟨hlistener, hchildren, haddr, hport⟩
  · exact ⟨rfl, rfl, rfl, rfl⟩

theorem Reaches.target (hreaches : c.Reaches s) {off : Nat} (hsyn : flags.syn = false) :
    s.target (c.segment off len flags ack) = some c.sock := by
  have hnosyn : (c.segment off len flags ack).isSyn = false := by
    show (flags.syn && !flags.ack) = false
    rw [hsyn]
    rfl
  rw [Tcp.target_eq_connectionOf hnosyn, Tcp.connectionOf]
  obtain ⟨hbound, hlistener⟩ | ⟨l, hbound, hlistener, hchild⟩ := hreaches
  · rw [show (c.segment off len flags ack).dstPort = c.localPort from rfl, hbound, Option.bind_some, hlistener]
    rfl
  · rw [show (c.segment off len flags ack).dstPort = c.localPort from rfl, hbound, Option.bind_some, hlistener]
    exact hchild

end Connection

namespace Reading

/-- The socket has acknowledged only what had arrived. The segments `before` are older. -/
def Acked (c : Connection) (before : List Sent) (arrived : List (Nat × Nat)) (s : Tcp) : Prop :=
  ∃ segs, s.sentBy c.sock = before ++ segs ∧
    ∀ o ∈ segs, ∃ m ≤ c.stream.length, Covered arrived m ∧ o.ack = c.base + ofNat 32 m

/-- What holds while the segments arrive in order. -/
structure Flowing (c : Connection) (before : List Sent) (r : Reading) : Prop where
  reaches : c.Reaches r.tcp
  state : (r.tcp.socks c.sock).state = .connected
  ack : (r.tcp.socks c.sock).ack = c.base + ofNat 32 r.next
  bound : r.next ≤ c.stream.length
  queue : ∃ m ≤ r.next, r.handed ++ unread (r.tcp.socks c.sock).rxQueue = c.stream.take m ∧
    ((r.tcp.socks c.sock).shutRd = false → m = r.next)
  covered : Covered r.arrived r.next
  acks : Acked c before r.arrived r.tcp

variable {siphash : BitVec 32 → BitVec 32 → BitVec 32 → BitVec 32 → BitVec 32} {c : Connection} {before : List Sent}
  {r r' : Reading} {s t : Tcp}

theorem Flowing.start (hestablished : c.Established s) : Flowing c (s.sentBy c.sock) (start s) := by
  refine ⟨hestablished.reaches, hestablished.state, ?_, Nat.zero_le _, ⟨0, le_refl 0, ?_, fun _ => rfl⟩, nofun,
    [], (append_nil _).symm, nofun⟩
  · exact hestablished.ack.trans (BitVec.add_zero _).symm
  · show [] ++ unread (s.socks c.sock).rxQueue = _
    rw [hestablished.queue]
    rfl

theorem Acked.concat (hacked : Acked c before arrived s) {o : Sent} (hout : t.out = s.out ++ [o]) {m : Nat}
    (hm : m ≤ c.stream.length) (hcovered : Covered arrived m) (ho : o.ack = c.base + ofNat 32 m) :
    Acked c before arrived t := by
  obtain ⟨segs, hsent, hacks⟩ := hacked
  rw [Acked, Tcp.sentBy_concat hout, hsent, List.append_assoc]
  refine ⟨_, rfl, fun o' ho' => ?_⟩
  obtain hmem | hmem := List.mem_append.mp ho'
  · exact hacks o' hmem
  · split_ifs at hmem with howner
    · obtain rfl := List.mem_singleton.mp hmem
      exact ⟨m, hm, hcovered, ho⟩
    · cases hmem

theorem Acked.append (hacked : Acked c before arrived s) (part : Nat × Nat) : Acked c before (arrived ++ [part]) s := by
  obtain ⟨segs, hsent, hacks⟩ := hacked
  refine ⟨segs, hsent, fun o ho => ?_⟩
  obtain ⟨m, hm, hcovered, hack⟩ := hacks o ho
  exact ⟨m, hm, hcovered.append part, hack⟩

section

variable (hflowing : r.Flowing c before)
include hflowing

theorem Flowing.update {handed : List Byte}
    (hsocks : t.socks = update r.tcp.socks c.sock d) (hbindings : t.bindings = r.tcp.bindings)
    (hconn : { d with rxQueue := [], sn := 0, shutRd := true } =
      { r.tcp.socks c.sock with rxQueue := [], sn := 0, shutRd := true })
    (hshut : d.shutRd = false → (r.tcp.socks c.sock).shutRd = false)
    (hqueue : handed ++ unread d.rxQueue = r.handed ++ unread (r.tcp.socks c.sock).rxQueue)
    (hacks : Acked c before r.arrived t) : Flowing c before { r with tcp := t, handed := handed } := by
  have hself : t.socks c.sock = d := by rw [hsocks, update_self]
  obtain ⟨m, hm, hold, hall⟩ := hflowing.queue
  refine ⟨?_, ?_, ?_, hflowing.bound, ⟨m, hm, ?_, ?_⟩, hflowing.covered, hacks⟩
  · exact hflowing.reaches.update hsocks hbindings (congrArg (·.isListener) hconn) (congrArg (·.children) hconn)
      (congrArg (·.addr) hconn) (congrArg (·.port) hconn)
  · rw [hself]
    exact (congrArg (·.state) hconn).trans hflowing.state
  · rw [hself]
    exact (congrArg (·.ack) hconn).trans hflowing.ack
  · rw [hself, hqueue]
    exact hold
  · rw [hself]
    exact fun h => hall (hshut h)

theorem Flowing.recv (len : Nat) (dontwait : Bool) :
    Flowing c before { r with
      tcp := r.tcp.set c.sock ((r.tcp.socks c.sock).recvfrom len dontwait).2
      handed := r.handed ++ ((r.tcp.socks c.sock).recvfrom len dontwait).1.toBytes } := by
  obtain ⟨queue, hrecv⟩ := (r.tcp.socks c.sock).recvfrom_eq len dontwait
  refine hflowing.update rfl rfl ?_ ?_ ?_ hflowing.acks
  · rw [hrecv]
  · rw [hrecv]
    exact fun h => h
  · rw [List.append_assoc, TcpSocket.recvfrom_unread]

theorem Flowing.send (msg : List Byte) (route : Bool) :
    Flowing c before { r with tcp := (r.tcp.sendto c.sock msg route).2 } := by
  rw [Tcp.sendto]
  split_ifs
  · exact hflowing
  · exact hflowing
  · exact hflowing
  · exact hflowing
  · exact hflowing.update rfl rfl rfl (fun h => h) rfl
      (hflowing.acks.concat rfl hflowing.bound hflowing.covered hflowing.ack)
  · exact hflowing

theorem Flowing.shutRd : Flowing c before { r with tcp := r.tcp.shutdown c.sock true false false } :=
  hflowing.update (t := r.tcp.set c.sock { r.tcp.socks c.sock with shutRd := true }) rfl rfl rfl nofun rfl hflowing.acks

end

variable (siphash) in
theorem Flowing.handle_data (hflowing : r.Flowing c before) (off len : Nat) (ack : BitVec 32) (time : Nat)
    (route : Bool) (hsyn : flags.syn = false) (hrst : flags.rst = false)
    (hfin : flags.psh = false → flags.fin = false) :
    ∃ d, d = (if flags.psh then TcpSocket.putToRxQueue { r.tcp.socks c.sock with
        ack := c.base + ofNat 32 off + ofNat 32 ((c.stream.drop off).take len).length }
        ((c.stream.drop off).take len) else r.tcp.socks c.sock) ∧
      r.tcp.handle siphash (c.segment off len flags ack) time route = { r.tcp with
        socks := Function.update r.tcp.socks c.sock d
        out := r.tcp.out ++ if flags.psh = true ∧ route = true then [d.header c.sock { ack := true } []] else [] } := by
  obtain ⟨hdestroys, hacks, hdata⟩ :=
    (r.tcp.socks c.sock).receive_data (c.segment off len flags ack) hflowing.state hsyn hrst hfin
  refine ⟨_, hdata, ?_⟩
  rw [Tcp.handle_of_target (hflowing.reaches.target hsyn), Tcp.deliver, hdestroys,
    Tcp.answer_eq, hacks]
  rfl

theorem Flowing.skip (hflowing : r.Flowing c before) (part : Nat × Nat) :
    Flowing c before { r with arrived := r.arrived ++ [part] } :=
  { hflowing with covered := hflowing.covered.append part, acks := hflowing.acks.append part }

theorem putToRxQueue_eq (d : TcpSocket) (payload : List Byte) :
    d.putToRxQueue payload = { d with rxQueue := if d.shutRd then d.rxQueue else d.rxQueue ++ [⟨payload, 0⟩] } := by
  rw [TcpSocket.putToRxQueue]
  split_ifs <;> rfl

theorem Flowing.take (hflowing : r.Flowing c before) (hin : r.next + len ≤ c.stream.length)
    (hd : d = TcpSocket.putToRxQueue { r.tcp.socks c.sock with
        ack := c.base + ofNat 32 r.next + ofNat 32 len } ((c.stream.drop r.next).take len))
    (hsocks : t.socks = Function.update r.tcp.socks c.sock d) (hbindings : t.bindings = r.tcp.bindings)
    (hout : t.out = r.tcp.out ∨ t.out = r.tcp.out ++ [d.header c.sock { ack := true } []]) :
    Flowing c before ⟨t, r.handed, r.arrived ++ [(r.next, len)], r.next + len⟩ := by
  have hself : t.socks c.sock = d := by rw [hsocks, Function.update_self]
  have hcovered := hflowing.covered.extend len
  have hack : d.ack = c.base + ofNat 32 (r.next + len) := by
    rw [hd, putToRxQueue_eq, BitVec.ofNat_add, ← BitVec.add_assoc]
  rw [putToRxQueue_eq] at hd
  obtain ⟨m, hm, hqueue, hall⟩ := hflowing.queue
  refine ⟨?_, ?_, ?_, hin, ?_, hcovered, ?_⟩
  · exact hflowing.reaches.update hsocks hbindings (by rw [hd]) (by rw [hd]) (by rw [hd]) (by rw [hd])
  · rw [hself, hd]
    exact hflowing.state
  · rw [hself, hack]
  · rw [hself, hd]
    cases hshut : (r.tcp.socks c.sock).shutRd with
    | true => exact ⟨m, Nat.le_add_right_of_le hm, hqueue, nofun⟩
    | false =>
      obtain rfl := hall hshut
      refine ⟨r.next + len, le_rfl, ?_, fun _ => rfl⟩
      rw [if_neg Bool.false_ne_true, unread_concat, ← List.append_assoc, hqueue, List.take_add]
  · obtain hsame | hsent := hout
    · obtain ⟨segs, hold, hacks⟩ := hflowing.acks.append (r.next, len)
      exact ⟨segs, (Tcp.sentBy_of_out_eq hsame).trans hold, hacks⟩
    · exact (hflowing.acks.append (r.next, len)).concat hsent hin hcovered hack

theorem Flowing.data (hflowing : r.Flowing c before) {off : Nat} {time : Nat} {route : Bool}
    (hin : off + len ≤ c.stream.length) (hsyn : flags.syn = false) (hrst : flags.rst = false)
    (horder : if flags.psh then off = r.next else flags.fin = false) :
    Flowing c before ⟨r.tcp.handle siphash (c.segment off len flags ack) time route, r.handed,
      r.arrived ++ [(off, len)], if flags.psh then r.next + len else r.next⟩ := by
  cases hpsh : flags.psh with
  | false =>
    rw [hpsh] at horder
    obtain ⟨d, hd, hhandle⟩ := hflowing.handle_data siphash off len ack time route hsyn hrst fun _ => horder
    rw [hpsh, if_neg Bool.false_ne_true] at hd
    rw [hpsh, hd, update_eq_self] at hhandle
    simp only [Bool.false_eq_true, false_and, if_false, append_nil] at hhandle
    rw [hhandle]
    exact hflowing.skip (off, len)
  | true =>
    rw [hpsh] at horder
    subst horder
    obtain ⟨d, hd, hhandle⟩ := hflowing.handle_data siphash r.next len ack time route hsyn hrst
      fun h => absurd (hpsh.symm.trans h) nofun
    rw [hpsh, length_take, length_drop, min_eq_left (by omega)] at hd
    rw [hhandle]
    refine hflowing.take hin hd rfl rfl ?_
    split_ifs
    · exact .inr rfl
    · exact .inl (append_nil _)

theorem Flowing.step (hflowing : r.Flowing c before) {op : ReadOp} (horder : r.InOrder op)
    (hstep : r.step siphash c op = some r') : r'.Flowing c before := by
  cases op with
  | data off len flags ack time route =>
    rw [Reading.step] at hstep
    by_cases hdata : off + len ≤ c.stream.length ∧ flags.syn = false ∧ flags.rst = false
    · rw [if_pos hdata] at hstep
      cases hstep
      exact hflowing.data hdata.1 hdata.2.1 hdata.2.2 horder
    · rw [if_neg hdata] at hstep
      exact nomatch hstep
  | recv len dontwait =>
    cases hstep
    exact hflowing.recv len dontwait
  | send msg route =>
    rw [Reading.step] at hstep
    split_ifs at hstep
    cases hstep
    exact hflowing.send msg route
  | shutRd =>
    cases hstep
    exact hflowing.shutRd

/-- As long as the segments with PSH arrive in order, a prefix of the stream is handed out, and every acknowledgement is
the number after a prefix that has arrived. -/
theorem tcp_receive_order {ops : List ReadOp} (hestablished : c.Established s)
    (hrun : Run (Reading.step siphash c) InOrder (Reading.start s) ops r) :
    r.handed <+: c.stream ∧ ∃ segs, r.tcp.sentBy c.sock = s.sentBy c.sock ++ segs ∧
      ∀ o ∈ segs, ∃ m ≤ c.stream.length, Covered r.arrived m ∧ o.ack = c.base + ofNat 32 m := by
  have hflowing := hrun.invariant (Flowing c (s.sentBy c.sock)) (fun _ _ _ hr horder hstep => hr.step horder hstep)
    (.start hestablished)
  refine ⟨?_, hflowing.acks⟩
  obtain ⟨m, -, hqueue, -⟩ := hflowing.queue
  exact (prefix_append _ _).trans (hqueue ▸ take_prefix m c.stream)

def client : Tcp :=
  ((Tcp.start.create 0 .new).connect 0 1 80 100 true).2.handle (fun _ _ _ _ => 0)
    ⟨1, 2, 80, 49152, 500, 101, { syn := true, ack := true }, []⟩ 0 true

def twoBytes : Connection := ⟨0, 1, 80, 2, 49152, [10, 11], 501⟩

theorem twoBytes_established : twoBytes.Established client :=
  ⟨.inl ⟨by decide, by decide⟩, by decide, by decide, by decide⟩

/-- The two bytes arrive one after the other and are handed out. -/
theorem tcp_receive_order_two :
    ∃ r, Run (Reading.step (fun _ _ _ _ => 0) twoBytes) InOrder (Reading.start client)
        [.data 0 1 { psh := true, ack := true } 101 0 true, .recv 5 true,
          .data 1 1 { psh := true, ack := true } 101 0 true, .recv 5 true] r ∧
      r.handed = [10, 11] ∧ r.handed <+: twoBytes.stream ∧
      ∃ segs, r.tcp.sentBy 0 = client.sentBy 0 ++ segs ∧
        ∀ o ∈ segs, ∃ m ≤ 2, Covered r.arrived m ∧ o.ack = 501 + ofNat 32 m := by
  refine exists_run_of_replay_imp (fun r => r.handed = [10, 11]) (by decide) fun r hrun hhanded => ?_
  exact ⟨hhanded, tcp_receive_order twoBytes_established hrun⟩

/-- The second byte arrives first: it is handed out as the first one, and both are acknowledged. -/
theorem second_byte_handed_first : twoBytes.Established client ∧
    ∃ r, Run (Reading.step (fun _ _ _ _ => 0) twoBytes) (fun _ _ => True) (Reading.start client)
        [.data 1 1 { psh := true, ack := true } 101 0 true, .recv 5 true] r ∧
      r.arrived = [(1, 1)] ∧ r.handed = [11] ∧ twoBytes.stream = [10, 11] ∧
      (r.tcp.sentBy 0).map Sent.ack = (client.sentBy 0).map Sent.ack ++ [501 + 2] := by
  refine ⟨twoBytes_established, exists_run_of_replay ?_⟩
  decide

end Reading

end Kairax.Net
