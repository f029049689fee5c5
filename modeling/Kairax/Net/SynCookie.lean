import Kairax.Net.Tcp
import Kairax.Word

/-!
# The cookie of a handshake

The hash behind the cookies of `tcp.c`, and the acknowledgements a listener takes. The period of 64 seconds is part of
what is hashed, and the listener tries only the period in which the acknowledgement arrives.
-/

namespace Kairax.Net

/-- `struct siphash_key` -/
structure SiphashKey where
  key0 : Word
  key1 : Word

/-- The variables `v0` to `v3` of `siphash_2u64`. -/
structure SipState where
  v0 : Word
  v1 : Word
  v2 : Word
  v3 : Word

namespace SipState

/-- `SIPHASH_PERMUTATION` -/
def permute (s : SipState) : SipState :=
  let a := s.v0 + s.v1
  let b := s.v1.rotateLeft 13 ^^^ a
  let a := a.rotateLeft 32
  let c := s.v2 + s.v3
  let d := s.v3.rotateLeft 16 ^^^ c
  let a := a + d
  let d := d.rotateLeft 21 ^^^ a
  let c := c + b
  let b := b.rotateLeft 17 ^^^ c
  ⟨a, b, c.rotateLeft 32, d⟩

/-- One word of the input, with the two permutations between its two places. -/
def absorb (s : SipState) (w : Word) : SipState :=
  let s := { s with v3 := s.v3 ^^^ w }.permute.permute
  { s with v0 := s.v0 ^^^ w }

end SipState

def siphash2u64 (first second : Word) (key : SiphashKey) : Word :=
  let s : SipState := ⟨0x736f6d6570736575 ^^^ key.key0, 0x646f72616e646f6d ^^^ key.key1,
    0x6c7967656e657261 ^^^ key.key0, 0x7465646279746573 ^^^ key.key1⟩
  let s := ((s.absorb first).absorb second).absorb (16 <<< 56)
  let s := { s with v2 := s.v2 ^^^ 0xff }.permute.permute.permute.permute
  (s.v0 ^^^ s.v1) ^^^ (s.v2 ^^^ s.v3)

def siphash4u32 (a b c d : BitVec 32) (key : SiphashKey) : Word := siphash2u64 (b ++ a) (d ++ c) key

def htons (p : BitVec 16) : BitVec 16 := p.extractLsb' 0 8 ++ p.extractLsb' 8 8

def htonl (a : BitVec 32) : BitVec 32 := htons (a.extractLsb' 0 16) ++ htons (a.extractLsb' 16 16)

/-- The hash of `tcp_ip4_make_syn_cookie`. The headers hold addresses and ports in the byte order of the network. -/
def cookieHash (key : SiphashKey) (saddr destaddr ports t : BitVec 32) : BitVec 32 :=
  (siphash4u32 (htonl saddr) (htonl destaddr) (htons (ports.extractLsb' 16 16) ++ htons (ports.extractLsb' 0 16)) t
    key).setWidth 32

/-- The last segment of a handshake: it comes from the client of `syn` and acknowledges the `reply` it got. -/
structure Segment.Completes (seg syn : Segment) (reply : Sent) : Prop where
  srcIp : seg.srcIp = syn.srcIp
  dstIp : seg.dstIp = syn.dstIp
  srcPort : seg.srcPort = syn.srcPort
  dstPort : seg.dstPort = syn.dstPort
  sn : seg.sn = syn.sn + 1
  ack : seg.ack = reply.sn + 1

namespace Tcp

variable {siphash : BitVec 32 → BitVec 32 → BitVec 32 → BitVec 32 → BitVec 32} {s : Tcp} {l time : Nat}
  {seg syn : Segment} {reply : Sent}

theorem listenerHandleAck_eq_none (hack : seg.ack ≠ makeSynCookie siphash seg time + 1) :
    s.listenerHandleAck siphash l seg time = none :=
  if_neg fun heq => hack (by rw [heq, BitVec.sub_add_cancel])

theorem listenerHandleAck_of_room (hroom : (s.socks l).acceptQueue.length < (s.socks l).backlogSz)
    (hack : seg.ack = makeSynCookie siphash seg time + 1) :
    s.listenerHandleAck siphash l seg time = some (s.enqueue l (requestOf seg)) := by
  rw [listenerHandleAck, if_pos (by rw [hack, BitVec.add_sub_cancel]), if_neg hroom.not_ge]

theorem makeSynCookie_congr (hseg : seg.Completes syn reply) :
    makeSynCookie siphash seg time = makeSynCookie siphash syn time := by
  rw [makeSynCookie, hseg.srcIp, hseg.dstIp, hseg.srcPort, hseg.dstPort, makeSynCookie]

theorem sn_of_handleSyn {s₀ : Tcp} (hreply : (s₀.handleSyn siphash syn time true).out = s₀.out ++ [reply]) :
    reply.sn = makeSynCookie siphash syn time := by
  have heq := List.append_cancel_left hreply
  exact congrArg Sent.sn (List.head_eq_of_cons_eq heq).symm

/-- A listener with room takes the end of a handshake just if the cookies of the two times agree, as they do within one
period, and it takes nothing that does not acknowledge the cookie of its own time. -/
theorem listener_takes_iff (key : SiphashKey) (s₀ s : Tcp) (l : Nat) (syn seg : Segment) (reply : Sent) (t t' : Nat)
    (hroom : (s.socks l).acceptQueue.length < (s.socks l).backlogSz)
    (hreply : (s₀.handleSyn (cookieHash key) syn t true).out = s₀.out ++ [reply]) (hseg : seg.Completes syn reply) :
    (s.listenerHandleAck (cookieHash key) l seg t' = some (s.enqueue l (requestOf seg)) ↔
      makeSynCookie (cookieHash key) syn t = makeSynCookie (cookieHash key) syn t') ∧
    (t / 64 = t' / 64 → makeSynCookie (cookieHash key) syn t = makeSynCookie (cookieHash key) syn t') ∧
    ∀ other time, other.ack ≠ makeSynCookie (cookieHash key) other time + 1 →
      s.listenerHandleAck (cookieHash key) l other time = none := by
  have hack : seg.ack = makeSynCookie (cookieHash key) syn t + 1 := by rw [hseg.ack, sn_of_handleSyn hreply]
  have hcookie : makeSynCookie (cookieHash key) seg t' = makeSynCookie (cookieHash key) syn t' :=
    makeSynCookie_congr hseg
  refine ⟨⟨fun hsome => ?_, fun heq => ?_⟩, fun hperiod => ?_, fun other time => listenerHandleAck_eq_none⟩
  · by_contra hne
    rw [listenerHandleAck_eq_none] at hsome
    · cases hsome
    · rw [hack, hcookie]
      exact fun heq => hne (add_right_cancel heq)
  · exact listenerHandleAck_of_room hroom (by rw [hack, hcookie, heq])
  · rw [makeSynCookie, hperiod, makeSynCookie]

/-- A listener with one place in its queue, and a client that opens a handshake. -/
def listening : Tcp :=
  { start with socks := fun _ => { TcpSocket.new with state := .listen, isListener := true, backlogSz := 1 } }

def opening : Segment := ⟨0x0a000002, 0x0a000001, 0x8000, 0x0050, 7, 0, { syn := true }, []⟩

/-- The answer to `opening` at the given time, with the key zero, and the end of the handshake. -/
def openingReply (time : Nat) : Sent :=
  ⟨none, 0x0a000002, 0x0050, 0x8000, makeSynCookie (cookieHash ⟨0, 0⟩) opening time, 8, { syn := true, ack := true },
    []⟩

def closing (time : Nat) : Segment :=
  { opening with sn := 8, ack := (openingReply time).sn + 1, flags := { ack := true } }

theorem closing_completes (time : Nat) : (closing time).Completes opening (openingReply time) :=
  ⟨rfl, rfl, rfl, rfl, rfl, rfl⟩

theorem listener_takes_in_period :
    listening.listenerHandleAck (cookieHash ⟨0, 0⟩) 0 (closing 1) 63 =
      some (listening.enqueue 0 (requestOf (closing 1))) := by
  have htakes := listener_takes_iff ⟨0, 0⟩ listening listening 0 opening (closing 1) (openingReply 1) 1 63
    (by decide) rfl
    (closing_completes 1)
  exact htakes.1.mpr (htakes.2.1 rfl)

/-- One second later the next period has begun, and the same acknowledgement is refused. -/
theorem listener_refuses_next_period : (listening.socks 0).acceptQueue.length < (listening.socks 0).backlogSz ∧
    (listening.handleSyn (cookieHash ⟨0, 0⟩) opening 63 true).out = listening.out ++ [openingReply 63] ∧
    (closing 63).Completes opening (openingReply 63) ∧
    listening.listenerHandleAck (cookieHash ⟨0, 0⟩) 0 (closing 63) 64 = none :=
  ⟨by decide, rfl, closing_completes 63, listenerHandleAck_eq_none (by decide)⟩

end Tcp

end Kairax.Net
