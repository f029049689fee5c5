import Kairax.Net.Tcp

/-!
# Incoming frames

The way of a frame from `eth_handle_frame` to the handlers of TCP, UDP and ICMP and to the raw sockets. The code
checks no size, so the model stops with a fault where a header or a range leaves the buffer, where a difference of
sizes is negative, and where the table of protocols is indexed behind its end.
-/

namespace Kairax.Net

open Lib List

inductive Fault
  | outside (o len : Nat)
  | wraps (a b : Nat)
  | table (i : Nat)
  deriving DecidableEq

/-- The number in `n` bytes, in the byte order of the network. -/
def be (bytes : List Byte) (o n : Nat) : Nat := ((bytes.drop o).take n).foldl (fun x b => 256 * x + b.toNat) 0

def sizeSub (a b : Nat) : Except Fault Nat := if b ≤ a then .ok (a - b) else .error (.wraps a b)

/-- `struct net_buffer`. Pointers are offsets into the buffer. -/
structure NetBuffer where
  bytes : List Byte
  cursor : Nat
  curLen : Nat
  netwHeader : Nat
  transpHeader : Nat
  payload : Nat
  netwPacketSize : Nat
  payloadSize : Nat

namespace NetBuffer

/-- `new_net_buffer` -/
def new (frame : List Byte) : NetBuffer := ⟨frame, 0, frame.length, 0, 0, 0, 0, 0⟩

def inside (nb : NetBuffer) (o len : Nat) : Except Fault Unit :=
  if o + len ≤ nb.bytes.length then .ok () else .error (.outside o len)

/-- `net_buffer_shift` -/
def shift (nb : NetBuffer) (offset : Nat) : Except Fault NetBuffer :=
  (sizeSub nb.curLen offset).map fun curLen => { nb with cursor := nb.cursor + offset, curLen := curLen }

def clear (nb : NetBuffer) (o len : Nat) : NetBuffer :=
  { nb with bytes := nb.bytes.mapIdx fun i b => if o ≤ i ∧ i < o + len then 0 else b }

def range (nb : NetBuffer) (o len : Nat) : List Byte := (nb.bytes.drop o).take len

def field (nb : NetBuffer) (o n : Nat) : Nat := be nb.bytes o n

end NetBuffer

/-- The 16-bit words in the byte order of the network. An odd byte is the upper half of the last one. -/
def wordsBE : List Byte → List Nat
  | a :: b :: rest => (256 * a.toNat + b.toNat) :: wordsBE rest
  | [a] => [256 * a.toNat]
  | [] => []

def wordsLE : List Byte → List Nat
  | a :: b :: rest => (a.toNat + 256 * b.toNat) :: wordsLE rest
  | [a] => [a.toNat]
  | [] => []

def foldCarry (sum : Nat) : Nat := sum / 65536 + sum % 65536

/-- `tcp_ip4_calc_checksum`, over the words of the pseudo header, the header and the payload. -/
def tcpIp4CalcChecksum (prot : List Nat) (header payload : List Byte) : Nat :=
  65535 - (prot ++ wordsBE header ++ wordsBE payload).foldl (fun sum w => foldCarry (sum + w)) 0

/-- `udp4_calc_checksum`. Two rounds of its last loop are enough for a 32-bit sum. -/
def udp4CalcChecksum (addrs header payload : List Byte) : Nat :=
  let sum := (wordsLE addrs).sum + 0x1100 + (wordsLE header).sum + (wordsLE payload).sum +
    ((8 + payload.length) % 256 * 256 + (8 + payload.length) / 256 % 256)
  65535 - foldCarry (foldCarry sum) % 65536

inductive Receiver
  | tcp (seg : Segment)
  | udp (port : Nat)
  | ping (id sequence : Nat)
  | raw (protocol : Nat)
  | packet (type : Nat)
  deriving DecidableEq

/-- A part of the buffer that is queued, or that an answer is made from. -/
structure Delivery where
  receiver : Receiver
  start : Nat
  size : Nat
  deriving DecidableEq

/-- The address of the interface, the bound UDP sockets with their peers, and the protocols of raw and packet sockets.
-/
structure Receivers where
  mac : Nat
  udp : Nat → Option (Option (Nat × Nat))
  raw : List Nat
  packets : List Nat

abbrev Handled := Except Fault (List Delivery × NetBuffer)

def flagsOf (hlenFlags : Nat) : Flags :=
  ⟨hlenFlags.testBit 0, hlenFlags.testBit 1, hlenFlags.testBit 2, hlenFlags.testBit 3, hlenFlags.testBit 4⟩

def segmentOf (nb : NetBuffer) : Segment where
  srcIp := BitVec.ofNat 32 (nb.field (nb.netwHeader + 12) 4)
  dstIp := BitVec.ofNat 32 (nb.field (nb.netwHeader + 16) 4)
  srcPort := BitVec.ofNat 16 (nb.field nb.transpHeader 2)
  dstPort := BitVec.ofNat 16 (nb.field (nb.transpHeader + 2) 2)
  sn := BitVec.ofNat 32 (nb.field (nb.transpHeader + 4) 4)
  ack := BitVec.ofNat 32 (nb.field (nb.transpHeader + 8) 4)
  flags := flagsOf (nb.field (nb.transpHeader + 12) 2)
  payload := nb.range nb.payload nb.payloadSize

/-- The checksum that a TCP segment should have, with its own field set to zero. -/
def expectedChecksum (nb : NetBuffer) (headerSize : Nat) : Nat :=
  tcpIp4CalcChecksum (wordsBE (nb.range (nb.netwHeader + 12) 8) ++ [6, nb.netwPacketSize % 65536])
    (nb.range nb.transpHeader headerSize) (nb.range nb.payload nb.payloadSize)

/-- The beginning of `tcp_ip4_handle`: the size of the header, and the buffer with the payload. -/
def tcpPayload (nb : NetBuffer) : Except Fault (Nat × NetBuffer) := do
  nb.inside nb.transpHeader 20
  let headerSize := nb.field (nb.transpHeader + 12) 2 / 4096 % 16 * 4
  let nb ← nb.shift headerSize
  let payloadSize ← sizeSub nb.netwPacketSize headerSize
  nb.inside nb.transpHeader headerSize
  nb.inside (nb.transpHeader + headerSize) payloadSize
  return (headerSize, { nb with payload := nb.transpHeader + headerSize, payloadSize := payloadSize })

/-- The test of the checksum in `tcp_ip4_handle`. The field is not restored. -/
def tcpVerify (headerSize : Nat) (nb : NetBuffer) : List Delivery × NetBuffer :=
  let origChecksum := nb.field (nb.transpHeader + 16) 2
  let nb := nb.clear (nb.transpHeader + 16) 2
  if expectedChecksum nb headerSize ≠ origChecksum then ([], nb)
  else ([⟨.tcp (segmentOf nb), nb.payload, nb.payloadSize⟩], nb)

/-- `tcp_ip4_handle` up to where a segment goes to the sockets. -/
def tcpIp4Handle (nb : NetBuffer) : Handled := (tcpPayload nb).map fun r => tcpVerify r.1 r.2

/-- The socket that a datagram is queued for. A connected one takes datagrams of its peer only. -/
def udpReceives (env : Receivers) (nb : NetBuffer) : Bool :=
  match env.udp (nb.field (nb.transpHeader + 2) 2) with
  | none => false
  | some none => true
  | some (some (port, addr)) =>
    nb.field nb.transpHeader 2 == port && nb.field (nb.netwHeader + 12) 4 == addr

/-- The beginning of `udp_ip4_handle`: the buffer with the payload. -/
def udpPayload (nb : NetBuffer) : Except Fault NetBuffer := do
  nb.inside nb.transpHeader 8
  let payloadSize ← sizeSub (nb.field (nb.transpHeader + 4) 2) 8
  let nb ← nb.shift 8
  nb.inside (nb.transpHeader + 8) payloadSize
  return { nb with payload := nb.transpHeader + 8, payloadSize := payloadSize }

/-- The rest of `udp_ip4_handle`. A checksum of zero is not tested. -/
def udpQueue (env : Receivers) (nb : NetBuffer) : List Delivery :=
  if nb.field (nb.transpHeader + 6) 2 ≠ 0 ∧ udp4CalcChecksum (nb.range (nb.netwHeader + 12) 8)
      (nb.range nb.transpHeader 8) (nb.range nb.payload nb.payloadSize) ≠ 0 then []
  else if udpReceives env nb then [⟨.udp (nb.field (nb.transpHeader + 2) 2), nb.payload, nb.payloadSize⟩]
  else []

/-- `udp_ip4_handle` -/
def udpIp4Handle (env : Receivers) (nb : NetBuffer) : Handled := (udpPayload nb).map fun nb => (udpQueue env nb, nb)

/-- `icmp_ip4_handle_ping` answers an echo request. -/
def pingAnswer (nb : NetBuffer) : List Delivery :=
  if nb.field nb.transpHeader 1 = 8 then
    [⟨.ping (nb.field (nb.transpHeader + 4) 2) (nb.field (nb.transpHeader + 6) 2), nb.transpHeader, 8⟩]
  else []

/-- `icmp_ip4_handle`. A wrong checksum is only reported, and only an echo request is read beyond the type. -/
def icmpIp4Handle (nb : NetBuffer) : Handled := do
  nb.inside nb.transpHeader nb.netwPacketSize
  nb.inside nb.transpHeader (if nb.field nb.transpHeader 1 = 8 then 8 else 1)
  return (pingAnswer nb, nb)

/-- `IPV4_MAX_PROTOCOLS` -/
def maxProtocols : Nat := 20

/-- The entries of `protocols`. -/
def protocolHandler (env : Receivers) (protocol : Nat) (nb : NetBuffer) : Handled :=
  if protocol < maxProtocols then
    match protocol with
    | 6 => tcpIp4Handle nb
    | 17 => udpIp4Handle env nb
    | 1 => icmpIp4Handle nb
    | _ => .ok ([], nb)
  else .error (.table protocol)

/-- `raw4_accept_packet` -/
def raw4AcceptPacket (env : Receivers) (protocol : Nat) (nb : NetBuffer) : List Delivery :=
  (env.raw.filter (· = protocol)).map fun p => ⟨.raw p, nb.transpHeader, nb.netwPacketSize⟩

/-- The beginning of `ip4_handle_packet`. A wrong checksum is only reported. -/
def ip4Packet (nb : NetBuffer) : Except Fault NetBuffer := do
  nb.inside nb.cursor 20
  let headerSize := nb.field nb.cursor 1 % 16 * 4
  let shifted ← nb.shift headerSize
  let size ← sizeSub (nb.field (nb.cursor + 2) 2) headerSize
  nb.inside nb.cursor headerSize
  nb.inside shifted.cursor size
  return { shifted with netwHeader := nb.cursor, transpHeader := shifted.cursor, netwPacketSize := size }

/-- `ip4_handle_packet` -/
def ip4HandlePacket (env : Receivers) (nb : NetBuffer) : Handled := do
  let nb ← ip4Packet nb
  let protocol := nb.field (nb.netwHeader + 9) 1
  (protocolHandler env protocol nb).map fun r => (r.1 ++ raw4AcceptPacket env protocol r.2, r.2)

/-- `packet_raw_accept_packet`. A packet socket gets the whole buffer. -/
def packetRawAcceptPacket (env : Receivers) (type : Nat) (nb : NetBuffer) : List Delivery :=
  (env.packets.filter (· = type)).map fun t => ⟨.packet t, 0, nb.bytes.length⟩

def Addressed (env : Receivers) (frame : List Byte) : Prop := be frame 0 6 = env.mac ∨ be frame 0 6 = 2 ^ 48 - 1

instance decidableAddressed (env : Receivers) (frame : List Byte) : Decidable (Addressed env frame) := by
  unfold Addressed
  infer_instance

/-- `eth_handle_frame` -/
def ethHandleFrame (env : Receivers) (frame : List Byte) : Except Fault (List Delivery) := do
  let nb := NetBuffer.new frame
  nb.inside 0 14
  if Addressed env frame then
    let type := nb.field 12 2
    let nb ← nb.shift 14
    let handled := if type = 0x0800 then ip4HandlePacket env nb else .ok ([], nb)
    handled.map fun r => r.1 ++ packetRawAcceptPacket env type r.2
  else .ok []

/-- The sizes in the header of a TCP segment at `transp` fit into a packet of the given size. -/
def TcpFits (frame : List Byte) (transp size : Nat) : Prop :=
  transp + 20 ≤ frame.length ∧ be frame (transp + 12) 2 / 4096 % 16 * 4 ≤ size

def UdpFits (frame : List Byte) (transp : Nat) : Prop :=
  transp + 8 ≤ frame.length ∧ 8 ≤ be frame (transp + 4) 2 ∧ transp + be frame (transp + 4) 2 ≤ frame.length

def IcmpFits (frame : List Byte) (transp : Nat) : Prop :=
  transp + (if be frame transp 1 = 8 then 8 else 1) ≤ frame.length

def TransportFits (frame : List Byte) (protocol transp size : Nat) : Prop :=
  (protocol = 6 → TcpFits frame transp size) ∧ (protocol = 17 → UdpFits frame transp) ∧
    (protocol = 1 → IcmpFits frame transp)

/-- The total length holds the header and ends in the frame, and the protocol is one of the table. -/
def Ip4Fits (frame : List Byte) : Prop :=
  34 ≤ frame.length ∧ be frame 14 1 % 16 * 4 ≤ be frame 16 2 ∧ 14 + be frame 16 2 ≤ frame.length ∧
    be frame 23 1 < maxProtocols ∧
    TransportFits frame (be frame 23 1) (14 + be frame 14 1 % 16 * 4) (be frame 16 2 - be frame 14 1 % 16 * 4)

def FrameFits (env : Receivers) (frame : List Byte) : Prop :=
  14 ≤ frame.length ∧ (Addressed env frame → be frame 12 2 = 0x0800 → Ip4Fits frame)

theorem bind_eq_ok {α β : Type} {x : Except Fault α} {f : α → Except Fault β} {r : β} :
    (x >>= f) = .ok r ↔ ∃ a, x = .ok a ∧ f a = .ok r := by
  cases x with
  | error e => exact ⟨nofun, fun ⟨_, h, _⟩ => nomatch h⟩
  | ok a => exact ⟨fun h => ⟨a, rfl, h⟩, fun ⟨_, ha, h⟩ => Except.ok.inj ha ▸ h⟩

/-- A call that succeeds exactly if `P` holds, and then with a result for which `Q` holds. -/
structure Parses {α : Type} (x : Except Fault α) (P : Prop) (Q : α → Prop) : Prop where
  ok : P → ∃ a, x = .ok a ∧ Q a
  fits : ∀ a, x = .ok a → P

section Parses

variable {α β : Type} {x : Except Fault α} {P P' : Prop} {Q : α → Prop} {R : β → Prop} (hx : Parses x P Q)

theorem parses_ok {a : α} (hP : P) (ha : Q a) : Parses (.ok a) P Q := ⟨fun _ => ⟨a, rfl, ha⟩, fun _ _ => hP⟩

include hx

theorem Parses.result {a : α} (ha : x = .ok a) : Q a := by
  obtain ⟨b, hb, hQ⟩ := hx.ok (hx.fits a ha)
  cases ha.symm.trans hb
  exact hQ

theorem Parses.congr (hP : P ↔ P') : Parses x P' Q := ⟨fun h => hx.ok (hP.mpr h), fun a ha => hP.mp (hx.fits a ha)⟩

theorem Parses.bind {f : α → Except Fault β} (hf : ∀ a, Q a → Parses (f a) P' R) : Parses (x >>= f) (P ∧ P') R where
  ok hPP' := by
    obtain ⟨a, ha, hQ⟩ := hx.ok hPP'.1
    obtain ⟨b, hb, hR⟩ := (hf a hQ).ok hPP'.2
    exact ⟨b, bind_eq_ok.mpr ⟨a, ha, hb⟩, hR⟩
  fits b hb := by
    obtain ⟨a, ha, hb⟩ := bind_eq_ok.mp hb
    exact ⟨hx.fits a ha, (hf a (hx.result ha)).fits b hb⟩

theorem Parses.map {f : α → β} (hf : ∀ a, Q a → R (f a)) : Parses (x.map f) P R :=
  (hx.bind fun a ha => parses_ok trivial (hf a ha)).congr (and_iff_left trivial)

end Parses

theorem sizeSub_eq_ok {a b c : Nat} : sizeSub a b = .ok c ↔ b ≤ a ∧ c = a - b := by
  rw [sizeSub]
  split_ifs with h
  · exact ⟨fun hc => ⟨h, (Except.ok.inj hc).symm⟩, fun hc => congrArg _ hc.2.symm⟩
  · exact ⟨nofun, fun hc => absurd hc.1 h⟩

namespace NetBuffer

variable {nb nb' : NetBuffer} {o len : Nat}

theorem inside_eq_ok {u : Unit} : nb.inside o len = .ok u ↔ o + len ≤ nb.bytes.length := by
  rw [inside]
  split_ifs with h
  · exact ⟨fun _ => h, fun _ => rfl⟩
  · exact ⟨nofun, fun h' => absurd h' h⟩

theorem shift_eq_ok : nb.shift o = .ok nb' ↔
    o ≤ nb.curLen ∧ nb' = { nb with cursor := nb.cursor + o, curLen := nb.curLen - o } := by
  rw [shift, sizeSub]
  split_ifs with h
  · exact ⟨fun hc => ⟨h, (Except.ok.inj hc).symm⟩, fun hc => congrArg _ hc.2.symm⟩
  · exact ⟨nofun, fun hc => absurd hc.1 h⟩

/-- The buffer is at the header of a transport protocol, and the packet ends in it. -/
structure AtTransport (nb : NetBuffer) : Prop where
  cursor : nb.cursor = nb.transpHeader
  rest : nb.curLen = nb.bytes.length - nb.cursor
  packet : nb.transpHeader + nb.netwPacketSize ≤ nb.bytes.length

/-- What a handler leaves behind: all of it lies in the buffer, and the packet is still where it was. -/
structure Kept (nb : NetBuffer) (r : List Delivery × NetBuffer) : Prop where
  length : r.2.bytes.length = nb.bytes.length
  transp : r.2.transpHeader = nb.transpHeader
  size : r.2.netwPacketSize = nb.netwPacketSize
  inside : ∀ d ∈ r.1, d.start + d.size ≤ nb.bytes.length

end NetBuffer

open NetBuffer

variable {r : List Delivery × NetBuffer} {frame : List Byte} {out : List Delivery}

section Handlers

variable {env : Receivers} {nb nb' : NetBuffer} {out : List Delivery}

/-- The payload that a handler has found lies in the buffer, and the packet is where it was. -/
def Payload (nb nb' : NetBuffer) : Prop :=
  nb'.bytes = nb.bytes ∧ nb'.transpHeader = nb.transpHeader ∧ nb'.netwPacketSize = nb.netwPacketSize ∧
    nb'.payload + nb'.payloadSize ≤ nb.bytes.length

variable (hat : nb.AtTransport)

include hat

theorem tcpPayload_parses :
    Parses (tcpPayload nb) (TcpFits nb.bytes nb.transpHeader nb.netwPacketSize) fun r => Payload nb r.2 where
  ok := by
    rintro ⟨hheader, hsize⟩
    have hrest := hat.rest
    have hcursor := hat.cursor
    have hpacket := hat.packet
    have hfield : nb.field (nb.transpHeader + 12) 2 = be nb.bytes (nb.transpHeader + 12) 2 := rfl
    simp only [tcpPayload, bind_eq_ok, inside_eq_ok, shift_eq_ok, sizeSub_eq_ok]
    refine ⟨_, ⟨(), hheader, _, ⟨?_, rfl⟩, _, ⟨hsize, rfl⟩, (), ?_, (), ?_, rfl⟩, rfl, rfl, rfl, ?_⟩
    · omega
    all_goals
      dsimp only
      omega
  fits r hr := by
    simp only [tcpPayload, bind_eq_ok, inside_eq_ok, shift_eq_ok, sizeSub_eq_ok] at hr
    obtain ⟨-, hheader, _, ⟨-, rfl⟩, _, ⟨hsize, -⟩, -⟩ := hr
    exact ⟨hheader, hsize⟩

theorem tcpIp4Handle_parses :
    Parses (tcpIp4Handle nb) (TcpFits nb.bytes nb.transpHeader nb.netwPacketSize) nb.Kept := by
  refine (tcpPayload_parses hat).map ?_
  rintro ⟨headerSize, nb'⟩ ⟨hbytes, htransp, hsize, hinside⟩
  have hlength : (nb'.clear (nb'.transpHeader + 16) 2).bytes.length = nb.bytes.length := by
    rw [clear, length_mapIdx, hbytes]
  dsimp only [tcpVerify]
  split_ifs
  · exact ⟨hlength, htransp, hsize, nofun⟩
  · refine ⟨hlength, htransp, hsize, fun d hd => ?_⟩
    rw [mem_singleton.mp hd]
    exact hinside

theorem udpPayload_parses : Parses (udpPayload nb) (UdpFits nb.bytes nb.transpHeader) (Payload nb) := by
  have hfield : nb.field (nb.transpHeader + 4) 2 = be nb.bytes (nb.transpHeader + 4) 2 := rfl
  refine ⟨?_, fun nb' hr => ?_⟩
  · rintro ⟨hheader, hsize, hend⟩
    have hrest := hat.rest
    have hcursor := hat.cursor
    simp only [udpPayload, bind_eq_ok, inside_eq_ok, shift_eq_ok, sizeSub_eq_ok]
    refine ⟨_, ⟨(), hheader, _, ⟨hsize, rfl⟩, _, ⟨?_, rfl⟩, (), ?_, rfl⟩, rfl, rfl, rfl, ?_⟩
    · omega
    all_goals
      dsimp only
      omega
  · simp only [udpPayload, bind_eq_ok, inside_eq_ok, shift_eq_ok, sizeSub_eq_ok] at hr
    obtain ⟨-, hheader, _, ⟨hsize, rfl⟩, _, ⟨-, rfl⟩, -, hrange, -⟩ := hr
    dsimp only at hrange
    exact ⟨hheader, hsize, by omega⟩

theorem udpIp4Handle_parses : Parses (udpIp4Handle env nb) (UdpFits nb.bytes nb.transpHeader) nb.Kept := by
  refine (udpPayload_parses hat).map ?_
  rintro nb' ⟨hbytes, htransp, hsize, hinside⟩
  refine ⟨congrArg length hbytes, htransp, hsize, fun d hd => ?_⟩
  dsimp only [udpQueue] at hd
  split_ifs at hd
  · cases hd
  · rw [mem_singleton.mp hd]
    exact hinside
  · cases hd

theorem icmpIp4Handle_parses : Parses (icmpIp4Handle nb) (IcmpFits nb.bytes nb.transpHeader) nb.Kept := by
  refine ⟨fun hheader => ?_, fun r hr => ?_⟩
  · simp only [icmpIp4Handle, bind_eq_ok, inside_eq_ok]
    refine ⟨_, ⟨(), hat.packet, (), hheader, rfl⟩, rfl, rfl, rfl, fun d hd => ?_⟩
    dsimp only [pingAnswer] at hd
    split_ifs at hd with hecho
    · rw [mem_singleton.mp hd]
      rwa [IcmpFits, if_pos (show be nb.bytes nb.transpHeader 1 = 8 from hecho)] at hheader
    · cases hd
  · simp only [icmpIp4Handle, bind_eq_ok, inside_eq_ok] at hr
    obtain ⟨-, -, -, hheader, -⟩ := hr
    exact hheader

theorem protocolHandler_parses (protocol : Nat) :
    Parses (protocolHandler env protocol nb) (protocol < maxProtocols ∧
      TransportFits nb.bytes protocol nb.transpHeader nb.netwPacketSize) nb.Kept := by
  unfold protocolHandler
  split_ifs with hprotocol
  · rw [and_iff_right hprotocol]
    split
    · exact (tcpIp4Handle_parses hat).congr ⟨fun h => ⟨fun _ => h, nofun, nofun⟩, fun h => h.1 rfl⟩
    · exact (udpIp4Handle_parses hat).congr ⟨fun h => ⟨nofun, fun _ => h, nofun⟩, fun h => h.2.1 rfl⟩
    · exact (icmpIp4Handle_parses hat).congr ⟨fun h => ⟨nofun, nofun, fun _ => h⟩, fun h => h.2.2 rfl⟩
    · rename_i htcp hudp hicmp
      exact parses_ok ⟨fun h => absurd h htcp, fun h => absurd h hudp, fun h => absurd h hicmp⟩ ⟨rfl, rfl, rfl, nofun⟩
  · exact ⟨fun h => absurd h.1 hprotocol, nofun⟩

omit hat

theorem ip4Packet_parses (hrest : nb.curLen = nb.bytes.length - nb.cursor) : Parses (ip4Packet nb)
    (nb.cursor + 20 ≤ nb.bytes.length ∧ be nb.bytes nb.cursor 1 % 16 * 4 ≤ be nb.bytes (nb.cursor + 2) 2 ∧
      nb.cursor + be nb.bytes (nb.cursor + 2) 2 ≤ nb.bytes.length)
    fun nb' => nb'.AtTransport ∧ nb'.bytes = nb.bytes ∧ nb'.netwHeader = nb.cursor ∧
      nb'.transpHeader = nb.cursor + be nb.bytes nb.cursor 1 % 16 * 4 ∧
      nb'.netwPacketSize = be nb.bytes (nb.cursor + 2) 2 - be nb.bytes nb.cursor 1 % 16 * 4 := by
  have hihl : nb.field nb.cursor 1 = be nb.bytes nb.cursor 1 := rfl
  have htotal : nb.field (nb.cursor + 2) 2 = be nb.bytes (nb.cursor + 2) 2 := rfl
  refine ⟨?_, fun nb' hr => ?_⟩
  · rintro ⟨hheader, hsize, hend⟩
    simp only [ip4Packet, bind_eq_ok, inside_eq_ok, shift_eq_ok, sizeSub_eq_ok]
    refine ⟨_, ⟨(), hheader, _, ⟨?_, rfl⟩, _, ⟨hsize, rfl⟩, (), ?_, (), ?_, rfl⟩, ⟨rfl, ?_, ?_⟩, rfl, rfl, rfl, rfl⟩
    · omega
    · omega
    all_goals
      dsimp only
      omega
  · simp only [ip4Packet, bind_eq_ok, inside_eq_ok, shift_eq_ok, sizeSub_eq_ok] at hr
    obtain ⟨-, hheader, _, ⟨-, rfl⟩, _, ⟨hsize, rfl⟩, -, -, -, hrange, -⟩ := hr
    dsimp only at hrange
    exact ⟨hheader, hsize, by omega⟩

def behindEth (frame : List Byte) : NetBuffer := { NetBuffer.new frame with cursor := 14, curLen := frame.length - 14 }

/-- What was queued lies in the frame. -/
def Inside (frame : List Byte) (r : List Delivery × NetBuffer) : Prop :=
  r.2.bytes.length = frame.length ∧ ∀ d ∈ r.1, d.start + d.size ≤ frame.length

theorem ip4HandlePacket_parses (frame : List Byte) :
    Parses (ip4HandlePacket env (behindEth frame)) (Ip4Fits frame) (Inside frame) := by
  refine ((ip4Packet_parses rfl).bind fun nb hnb => ?_).congr (by rw [and_assoc, and_assoc]; rfl)
  obtain ⟨hat, hbytes, hnetw, htransp, hsize⟩ := hnb
  have hlength : nb.bytes.length = frame.length := congrArg length hbytes
  refine ((protocolHandler_parses hat _).congr ?_).map fun r hkept => ⟨hkept.length.trans hlength, fun d hd => ?_⟩
  · rw [field, hbytes, hnetw, htransp, hsize]
    rfl
  rw [← hlength]
  obtain hd | hd := mem_append.mp hd
  · exact hkept.inside d hd
  · obtain ⟨p, -, rfl⟩ := mem_map.mp hd
    rw [hkept.transp, hkept.size]
    exact hat.packet

theorem ethHandleFrame_parses (env : Receivers) (frame : List Byte) :
    Parses (ethHandleFrame env frame) (FrameFits env frame) fun out => ∀ d ∈ out, d.start + d.size ≤ frame.length := by
  by_cases hlength : 14 ≤ frame.length
  · have hinside : (NetBuffer.new frame).inside 0 14 = .ok () := by
      rw [inside_eq_ok, zero_add]
      exact hlength
    have hshift : (NetBuffer.new frame).shift 14 = .ok (behindEth frame) := shift_eq_ok.mpr ⟨hlength, rfl⟩
    rw [ethHandleFrame, FrameFits, and_iff_right hlength]
    rw [hinside, hshift]
    by_cases haddressed : Addressed env frame
    · rw [if_pos haddressed]
      have hhandled : Parses (if be frame 12 2 = 0x0800 then ip4HandlePacket env (behindEth frame)
          else .ok ([], behindEth frame)) (Addressed env frame → be frame 12 2 = 0x0800 →
          Ip4Fits frame) (Inside frame) := by
        split_ifs with htype
        · exact (ip4HandlePacket_parses frame).congr ⟨fun h _ _ => h, fun h => h haddressed htype⟩
        · exact parses_ok (fun _ h => absurd h htype) ⟨rfl, nofun⟩
      refine hhandled.map fun r hr d hd => ?_
      obtain hd | hd := mem_append.mp hd
      · exact hr.2 d hd
      · obtain ⟨t, -, rfl⟩ := mem_map.mp hd
        rw [hr.1, zero_add]
    · rw [if_neg haddressed]
      exact parses_ok (fun h => absurd h haddressed) nofun
  · refine ⟨fun h => absurd h.1 hlength, fun out hok => ?_⟩
    obtain ⟨_, hinside, -⟩ := bind_eq_ok.mp hok
    exact absurd (zero_add 14 ▸ inside_eq_ok.mp hinside) hlength

/-- A frame is parsed inside the buffer exactly if its sizes fit, and what is delivered lies in the buffer. -/
theorem frame_parsed_inside (env : Receivers) (frame : List Byte) :
    ((∃ out, ethHandleFrame env frame = .ok out) ↔ FrameFits env frame) ∧
    ∀ out, ethHandleFrame env frame = .ok out → ∀ d ∈ out, d.start + d.size ≤ frame.length := by
  have hparses := ethHandleFrame_parses env frame
  refine ⟨⟨?_, fun hfits => ?_⟩, fun _ => hparses.result⟩
  · rintro ⟨out, hok⟩
    exact hparses.fits out hok
  · obtain ⟨out, hok, -⟩ := hparses.ok hfits
    exact ⟨out, hok⟩

/-- The Ethernet and IPv4 headers of a broadcast with a total length and a protocol. -/
def broadcast (total protocol : Byte) : List Byte :=
  List.replicate 12 0xff ++ [0x08, 0x00, 0x45, 0, 0, total, 0, 0, 0, 0, 64, protocol, 0, 0, 127, 0, 0, 1, 127, 0, 0, 1]

/-- A protocol behind the table, a total length below the header or behind the frame, or a datagram below its header. -/
theorem frame_leaves_buffer : ethHandleFrame ⟨1, fun _ => none, [], []⟩ (broadcast 20 200) = .error (.table 200) ∧
    ethHandleFrame ⟨1, fun _ => none, [], []⟩ (broadcast 10 6) = .error (.wraps 10 20) ∧
    ethHandleFrame ⟨1, fun _ => none, [], []⟩ (broadcast 100 1) = .error (.outside 34 80) ∧
    ethHandleFrame ⟨1, fun _ => none, [], []⟩ (broadcast 28 17 ++ [0, 53, 0, 53, 0, 4, 0, 0]) =
      .error (.wraps 4 8) := by
  decide

end Handlers

end Kairax.Net
