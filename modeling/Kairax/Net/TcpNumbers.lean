import Kairax.Net.TcpState

/-!
# Sequence numbers

The number of a client is drawn at random for the SYN and counted up when the SYN|ACK arrives, and then with every
byte sent and with the FIN. That of an accepted connection is taken from the cookie, and the SYN|ACK is not counted.
-/

namespace Kairax.Net

open Lib Ipc List Option Function

def Sent.advance (o : Sent) : Nat := o.payload.length + if o.flags.fin then 1 else 0

/-- The first segment has a given number, and each other that number plus all that was sent before it. -/
def NumberedFrom (first : BitVec 32) (segs : List Sent) : Prop :=
  ∀ i o, segs[i]? = some o → o.sn = first + BitVec.ofNat 32 ((segs.take i).map Sent.advance).sum

def numberAfter (first : BitVec 32) (segs : List Sent) : BitVec 32 :=
  first + BitVec.ofNat 32 (segs.map Sent.advance).sum

theorem NumberedFrom.nil (first : BitVec 32) : NumberedFrom first [] := nofun

theorem numberAfter_concat (first : BitVec 32) (segs : List Sent) (o : Sent) :
    numberAfter first (segs ++ [o]) = numberAfter first segs + BitVec.ofNat 32 o.advance := by
  rw [numberAfter, numberAfter, map_append, sum_append, map_singleton, sum_singleton, BitVec.ofNat_add,
    BitVec.add_assoc]

theorem NumberedFrom.concat {first : BitVec 32} {segs : List Sent} {o : Sent} (hsegs : NumberedFrom first segs)
    (ho : o.sn = numberAfter first segs) : NumberedFrom first (segs ++ [o]) := by
  intro i o' hi
  by_cases hlast : i < segs.length
  · rw [List.getElem?_append_left hlast] at hi
    rw [List.take_append_of_le_length hlast.le]
    exact hsegs i o' hi
  · obtain ⟨hlt, -⟩ := List.getElem?_eq_some_iff.mp hi
    rw [List.length_append, List.length_singleton] at hlt
    obtain rfl : i = segs.length := by omega
    rw [List.getElem?_concat_length] at hi
    cases hi
    rw [List.take_left']
    · exact ho
    · rfl

namespace Tcp

def sentBy (s : Tcp) (j : Nat) : List Sent := s.out.filter fun o => decide (o.owner = some j)

/-- Socket `j` sends at most one segment, with its number, and counts it. -/
def Counted (s t : Tcp) (j : Nat) (segs : List Sent) : Prop :=
  t.sentBy j = s.sentBy j ++ segs ∧
    (segs = [] ∧ (t.socks j).sn = (s.socks j).sn ∨
      ∃ o, segs = [o] ∧ o.sn = (s.socks j).sn ∧ (t.socks j).sn = (s.socks j).sn + BitVec.ofNat 32 o.advance)

section Counted

variable {siphash : BitVec 32 → BitVec 32 → BitVec 32 → BitVec 32 → BitVec 32} {s t u : Tcp} {d : TcpSocket}
  {op : TcpOp}
  {seg : Segment} {j k : Nat} {segs : List Sent} {o : Sent}

theorem sentBy_of_out_eq (hout : t.out = s.out) : t.sentBy j = s.sentBy j := by
  rw [sentBy, sentBy, hout]

theorem sentBy_concat (hout : t.out = s.out ++ [o]) :
    t.sentBy j = s.sentBy j ++ if o.owner = some j then [o] else [] := by
  rw [sentBy, hout, filter_append, filter_singleton]
  split_ifs with howner
  · rw [decide_eq_true howner]
    rfl
  · rw [decide_eq_false howner]
    rfl

theorem Counted.quiet (hout : t.out = s.out) (hsn : (t.socks j).sn = (s.socks j).sn) : Counted s t j [] :=
  ⟨by rw [sentBy_of_out_eq hout, append_nil], .inl ⟨rfl, hsn⟩⟩

theorem sn_set (hsn : d.sn = (s.socks k).sn) (j : Nat) : ((s.set k d).socks j).sn = (s.socks j).sn := by
  rw [set_socks]
  split_ifs with hj
  · rw [hj, hsn]
  · rfl

theorem Counted.other (hout : t.out = s.out ++ [o]) (howner : o.owner ≠ some j)
    (hsn : (t.socks j).sn = (s.socks j).sn) : Counted s t j [] := by
  refine ⟨?_, .inl ⟨rfl, hsn⟩⟩
  rw [sentBy_concat hout, if_neg howner]

theorem Counted.one (hout : t.out = s.out ++ [o]) (howner : o.owner = some j) (ho : o.sn = (s.socks j).sn)
    (hsn : (t.socks j).sn = (s.socks j).sn + BitVec.ofNat 32 o.advance) : Counted s t j [o] := by
  refine ⟨?_, .inr ⟨o, rfl, ho, hsn⟩⟩
  rw [sentBy_concat hout, if_pos howner]

theorem exists_counted {c P : Prop} [Decidable c] (hout : t.out = s.out ++ if c then [o] else [])
    (howner : o.owner = some k) (ho : o.sn = (s.socks k).sn) (hsocks : t.socks = update s.socks k d)
    (hsn : d.sn = if c then (s.socks k).sn + BitVec.ofNat 32 o.advance else (s.socks k).sn) (hP : c → P) (j : Nat) :
    ∃ segs, Counted s t j segs ∧ (segs ≠ [] → j = k ∧ P) := by
  have hself : (t.socks k).sn = d.sn := by rw [hsocks, update_self]
  have hother (hj : j ≠ k) : (t.socks j).sn = (s.socks j).sn := by rw [hsocks, update_of_ne hj]
  by_cases hc : c
  · rw [if_pos hc] at hout hsn
    by_cases hj : j = k
    · subst hj
      exact ⟨_, .one hout howner ho (hself.trans hsn), fun _ => ⟨rfl, hP hc⟩⟩
    · refine ⟨[], .other hout ?_ (hother hj), fun h => absurd rfl h⟩
      rw [howner]
      exact fun h => hj (some.inj h).symm
  · rw [if_neg hc] at hsn
    rw [if_neg hc, append_nil] at hout
    refine ⟨[], .quiet hout ?_, fun h => absurd rfl h⟩
    by_cases hj : j = k
    · rw [hj, hself, hsn]
    · exact hother hj

theorem sn_of_conn {d d' : TcpSocket} (hconn : d.conn = d'.conn) : d.sn = d'.sn :=
  show d.conn.sn = d'.conn.sn by rw [hconn]

theorem counted_shutdown (s : Tcp) (k : Nat) (rd wr route : Bool) (j : Nat) :
    ∃ segs, Counted s (s.shutdown k rd wr route) j segs ∧
      (segs ≠ [] → j = k ∧ wr = true ∧ (s.socks k).sendsFin = true) := by
  rw [shutdown_eq]
  refine exists_counted rfl rfl rfl rfl ?_ (fun h => ⟨h.1, h.2.1⟩) j
  cases wr with
  | false => cases rd <;> rfl
  | true =>
    simp only [true_and]
    cases rd <;> rfl

theorem counted_close (s : Tcp) (k : Nat) (route : Bool) (j : Nat) :
    ∃ segs, Counted s (s.close k route) j segs ∧ (segs ≠ [] → j = k ∧ (s.socks k).sendsFin = true) := by
  rw [close_eq]
  refine exists_counted rfl rfl rfl rfl ?_ (·.2.1) j
  rw [TcpSocket.closed]
  cases (s.socks k).isListener with
  | true => rfl
  | false =>
    simp only [true_and]
    rfl

def Linked (state : SockState) : Prop :=
  state = .connected ∨ state = .closeWait ∨ state = .finWait1 ∨ state = .finWait2

theorem handleFin_number (d : TcpSocket) (hasAck : Bool) :
    (d.handleFin hasAck).data.sn = d.sn ∧ ((d.handleFin hasAck).acks = true → Linked d.state) := by
  rw [TcpSocket.handleFin]
  cases hstate : d.state with
  | connected => exact ⟨rfl, fun _ => .inl rfl⟩
  | finWait1 =>
    cases hasAck with
    | true | false => exact ⟨rfl, fun _ => .inr (.inr (.inl rfl))⟩
  | finWait2 => exact ⟨rfl, fun _ => .inr (.inr (.inr rfl))⟩
  | unconnected | listen | connecting | closing | closeWait | lastAck =>
    exact ⟨rfl, fun h => absurd h Bool.false_ne_true⟩

theorem handleAck_number (d : TcpSocket) : d.handleAck.data.sn = d.sn ∧ d.handleAck.acks = false := by
  rw [TcpSocket.handleAck]
  cases d.state <;> exact ⟨rfl, rfl⟩

theorem receive_number (d : TcpSocket) (hsynack : (seg.flags.syn && seg.flags.ack) = false) :
    (d.receive seg).data.sn = d.sn ∧
      ((d.receive seg).acks = true → seg.flags.psh = true ∨ Linked d.state) := by
  rw [TcpSocket.receive, if_neg (by rw [hsynack]; exact Bool.false_ne_true)]
  split_ifs with hpsh hfin hrst hack
  · refine ⟨?_, fun _ => .inl hpsh⟩
    rw [TcpSocket.putToRxQueue]
    split_ifs <;> rfl
  · obtain ⟨hsn, hacks⟩ := handleFin_number d seg.flags.ack
    exact ⟨hsn, fun h => .inr (hacks h)⟩
  · exact ⟨rfl, False.elim⟩
  · obtain ⟨hsn, hacks⟩ := handleAck_number d
    exact ⟨hsn, fun h => absurd (hacks.symm.trans h) Bool.false_ne_true⟩
  · exact ⟨rfl, False.elim⟩

theorem sn_after (r : Outcome) : r.after.sn = r.data.sn := by
  rw [Outcome.after]
  split_ifs <;> rfl

theorem counted_deliver_other (s : Tcp) (route : Bool) (hne : j ≠ k) : Counted s (s.deliver k seg route) j [] := by
  have hconn := conn_deliver s k seg route j
  have hout := out_deliver s k seg route
  rw [if_neg hne] at hconn
  split_ifs at hout
  · exact Counted.other hout (fun h => hne (some.inj h).symm) (sn_of_conn hconn)
  · rw [append_nil] at hout
    exact Counted.quiet hout (sn_of_conn hconn)

theorem counted_deliver_self (s : Tcp) (k : Nat) (route : Bool) (hsynack : (seg.flags.syn && seg.flags.ack) = false) :
    ∃ segs, Counted s (s.deliver k seg route) k segs ∧
      (segs ≠ [] → seg.flags.psh = true ∨ Linked (s.socks k).state) := by
  have hconn := conn_deliver s k seg route k
  have hout := out_deliver s k seg route
  obtain ⟨hsn, hacks⟩ := receive_number (s.socks k) hsynack
  rw [if_pos rfl] at hconn
  have hsame : ((s.deliver k seg route).socks k).sn = (s.socks k).sn := by rw [sn_of_conn hconn, sn_after, hsn]
  split_ifs at hout with hsends
  · refine ⟨_, Counted.one hout rfl hsn ?_, fun _ => hacks hsends.1⟩
    rw [hsame]
    exact (BitVec.add_zero _).symm
  · rw [append_nil] at hout
    exact ⟨[], Counted.quiet hout hsame, fun h => absurd rfl h⟩

theorem counted_sendto (s : Tcp) (k : Nat) (msg : List Byte) (route : Bool) (j : Nat) :
    ∃ segs, Counted s (s.sendto k msg route).2 j segs ∧ (segs ≠ [] → j = k ∧ (s.socks k).state = .connected) := by
  have hsame : ∃ segs, Counted s s j segs ∧ (segs ≠ [] → j = k ∧ (s.socks k).state = .connected) :=
    ⟨[], .quiet rfl rfl, fun h => absurd rfl h⟩
  rw [sendto]
  split_ifs with hstate
  · exact hsame
  · exact hsame
  · exact hsame
  · exact hsame
  · rw [not_not] at hstate
    exact exists_counted (c := True) rfl rfl rfl rfl rfl (fun _ => hstate) j
  · exact hsame

/-- What socket `j` can send in a step. -/
def Busy (s : Tcp) (j : Nat) (op : TcpOp) : Prop :=
  (∃ seg time route, op = .segment seg time route ∧ s.target seg = some j ∧ seg.flags.psh = true) ∨
  Linked (s.socks j).state ∨
  (s.socks j).state = .connecting ∧ ((∃ rd route, op = .shutdown j rd true route) ∨ ∃ route, op = .close j route)

theorem linked_or_connecting (hfin : d.sendsFin = true) : Linked d.state ∨ d.state = .connecting := by
  rw [TcpSocket.sendsFin] at hfin
  cases hstate : d.state with
  | closeWait => exact .inl (.inr (.inl rfl))
  | connected => exact .inl (.inl rfl)
  | connecting => exact .inr rfl
  | unconnected | listen | closing | lastAck | finWait1 | finWait2 =>
    rw [hstate] at hfin
    cases hfin

variable (siphash) in
theorem counted_call (hpossible : s.Possible op) (hj : j ∈ s.made)
    (hconnect : ∀ addr port rand route, op = .connect j addr port rand route → (s.socks j).wasConnected = true)
    (hsynack : ∀ seg time route, op = .segment seg time route → s.target seg = some j →
      (seg.flags.syn && seg.flags.ack) = false) :
    ∃ segs, Counted s (s.call siphash op) j segs ∧ (segs ≠ [] → s.Busy j op) := by
  have hquiet {t : Tcp} (hout : t.out = s.out) (hsn : (t.socks j).sn = (s.socks j).sn) :
      ∃ segs, Counted s t j segs ∧ (segs ≠ [] → s.Busy j op) := ⟨[], .quiet hout hsn, fun h => absurd rfl h⟩
  cases op with
  | socket k =>
    refine hquiet rfl ?_
    rw [call, create]
    dsimp only
    rw [update_of_ne (ne_of_mem_of_not_mem hj hpossible)]
  | bind k port =>
    rw [call, bind]
    split_ifs
    · exact hquiet rfl rfl
    · refine hquiet rfl (sn_set (s := s) (k := k) ?_ j)
      rfl
  | listen k backlog =>
    refine hquiet rfl (sn_set ?_ j)
    rfl
  | connect k addr port rand route =>
    obtain ⟨-, hsame⟩ | ⟨p, hwas, -, hdial⟩ := s.connect_cases k addr port rand route
    · rw [call, hsame]
      exact hquiet rfl rfl
    · have hne : j ≠ k := by
        rintro rfl
        exact Bool.false_ne_true (hwas.symm.trans (hconnect _ _ _ _ rfl))
      have hsn : ((s.connect k addr port rand route).2.socks j).sn = (s.socks j).sn := by
        rw [hdial]
        dsimp only
        rw [update_of_ne hne]
      rw [call]
      cases route with
      | true =>
        refine ⟨[], Counted.other (congrArg Tcp.out hdial) ?_ hsn, fun h => absurd rfl h⟩
        exact fun h => hne (some.inj h).symm
      | false => exact hquiet ((congrArg Tcp.out hdial).trans (append_nil _)) hsn
  | acceptTake k =>
    rw [call, acceptTake]
    split
    · exact hquiet rfl rfl
    · refine hquiet rfl (sn_set (s := s) ?_ j)
      rfl
  | acceptDone i new =>
    have hcreate (d : TcpSocket) : (s.create new d).socks j = s.socks j :=
      update_of_ne (ne_of_mem_of_not_mem hj hpossible.2) ..
    rw [call, acceptDone]
    split
    · exact hquiet rfl rfl
    · rename_i l request _
      refine hquiet rfl ((sn_set (s := s.create new (s.childOf l request)) ?_ j).trans ?_)
      · rfl
      · rw [hcreate]
  | segment seg time route =>
    rw [call]
    obtain ⟨o, howner, -, hhandle⟩ | ⟨l, -, -, -, -, -, -, -, hhandle⟩ | ⟨k, htarget, -, hhandle⟩ :=
      handle_cases siphash s seg time route
    · rw [hhandle, emit_eq]
      cases route with
      | true =>
        refine ⟨[], Counted.other rfl ?_ rfl, fun h => absurd rfl h⟩
        rw [howner]
        exact (some_ne_none j).symm
      | false => exact hquiet (append_nil _) rfl
    · rw [hhandle]
      refine hquiet rfl (sn_set ?_ j)
      rfl
    · rw [hhandle]
      by_cases hk : j = k
      · subst hk
        obtain ⟨segs, hcounted, hsegs⟩ := counted_deliver_self s j route (hsynack seg time route rfl htarget)
        refine ⟨segs, hcounted, fun h => ?_⟩
        exact (hsegs h).imp (fun hpsh => ⟨seg, time, route, rfl, htarget, hpsh⟩) .inl
      · exact ⟨[], counted_deliver_other s route hk, fun h => absurd rfl h⟩
  | send k msg route =>
    obtain ⟨segs, hcounted, hsegs⟩ := counted_sendto s k msg route j
    refine ⟨segs, hcounted, fun h => ?_⟩
    obtain ⟨rfl, hstate⟩ := hsegs h
    exact .inr (.inl (.inl hstate))
  | recv k len dontwait =>
    obtain ⟨queue, hrecv⟩ := (s.socks k).recvfrom_eq len dontwait
    rw [call, hrecv]
    refine hquiet rfl (sn_set ?_ j)
    rfl
  | shutdown k rd wr route =>
    obtain ⟨segs, hcounted, hsegs⟩ := counted_shutdown s k rd wr route j
    refine ⟨segs, hcounted, fun h => ?_⟩
    obtain ⟨rfl, rfl, hfin⟩ := hsegs h
    obtain hlinked | hconnecting := linked_or_connecting hfin
    · exact .inr (.inl hlinked)
    · exact .inr (.inr ⟨hconnecting, .inl ⟨rd, route, rfl⟩⟩)
  | close k route =>
    obtain ⟨segs, hcounted, hsegs⟩ := counted_close s k route j
    refine ⟨segs, hcounted, fun h => ?_⟩
    obtain ⟨rfl, hfin⟩ := hsegs h
    obtain hlinked | hconnecting := linked_or_connecting hfin
    · exact .inr (.inl hlinked)
    · exact .inr (.inr ⟨hconnecting, .inr ⟨route, rfl⟩⟩)

end Counted

/-- A SYN|ACK reaches the socket only once, data only after it, and the socket is neither shut down nor closed while it
is connecting. A socket that was never connected does not connect again. Messages fit into the buffer of a segment. -/
def Orderly (k : Nat) (s : Tcp) : TcpOp → Prop
  | .segment seg _ _ => s.target seg = some k →
      if seg.flags.syn && seg.flags.ack then (s.socks k).wasConnected = false
      else seg.flags.psh = true → (s.socks k).wasConnected = true
  | .shutdown j _ wr _ => j = k ∧ wr = true → (s.socks k).state ≠ .connecting
  | .close j _ => j = k → (s.socks k).state ≠ .connecting
  | .connect j _ _ _ _ => j = k → (s.socks k).wasConnected = true
  | .send _ msg _ => msg.length ≤ maxMessage
  | _ => True

instance decidableOrderly (k : Nat) (s : Tcp) (op : TcpOp) : Decidable (Orderly k s op) := by
  refine op.casesOn ?_ ?_ ?_ ?_ ?_ ?_ ?_ ?_ ?_ ?_ ?_ <;> intros <;> (unfold Orderly; infer_instance)

/-- The numbers of a connection whose first segment is to have the number `first`. The segments `before` are older. -/
structure Tallied (k : Nat) (first : BitVec 32) (before : List Sent) (s : Tcp) : Prop where
  made : k ∈ s.made
  coherent : Coherent (s.socks k).phase
  numbers : ∃ segs, s.sentBy k = before ++ segs ∧
    if (s.socks k).wasConnected then NumberedFrom first segs ∧ (s.socks k).sn = numberAfter first segs
    else segs = [] ∧ (s.socks k).sn + 1 = first

section Tallied

variable {siphash : BitVec 32 → BitVec 32 → BitVec 32 → BitVec 32 → BitVec 32} {s t : Tcp} {op : TcpOp}
  {k : Nat} {first : BitVec 32} {before : List Sent}

theorem was_of_linked {p : SockState × Bool} (hcoherent : Coherent p) (hlinked : Linked p.1) : p.2 = true := by
  obtain ⟨state, was⟩ := p
  obtain rfl | rfl | rfl | rfl := hlinked
  all_goals exact hcoherent

theorem not_busy (hcoherent : Coherent (s.socks k).phase) (horderly : Orderly k s op)
    (hwas : (s.socks k).wasConnected = false) (hsynack : ∀ seg time route, op = .segment seg time route →
      s.target seg = some k → (seg.flags.syn && seg.flags.ack) = false) : ¬ s.Busy k op := by
  rintro (⟨seg, time, route, rfl, htarget, hpsh⟩ | hlinked | ⟨hconnecting, ⟨rd, route, rfl⟩ | ⟨route, rfl⟩⟩)
  · have hdata := horderly htarget
    rw [if_neg (by rw [hsynack seg time route rfl htarget]; exact Bool.false_ne_true)] at hdata
    exact Bool.false_ne_true (hwas.symm.trans (hdata hpsh))
  · exact Bool.false_ne_true (hwas.symm.trans (was_of_linked hcoherent hlinked))
  · exact horderly ⟨rfl, rfl⟩ hconnecting
  · exact horderly rfl hconnecting

variable (htallied : Tallied k first before s)

include htallied

theorem Tallied.synack {seg : Segment} {time : Nat} {route : Bool}
    (htarget : s.target seg = some k) (hsynack : (seg.flags.syn && seg.flags.ack) = true)
    (hwas : (s.socks k).wasConnected = false) : Tallied k first before (s.handle siphash seg time route) := by
  have hphase := phase_handle siphash s seg time route k
  have hconn := conn_handle siphash s seg time route k
  rw [if_pos htarget] at hphase hconn
  rw [TcpSocket.phase_receive_synack _ hsynack] at hphase
  obtain ⟨segs, hsent, hnumbers⟩ := htallied.numbers
  rw [hwas] at hnumbers
  obtain ⟨rfl, hfirst⟩ := hnumbers
  have hreceive : ((s.socks k).receive seg).acks = true ∧ ((s.socks k).receive seg).data.sn = first := by
    rw [TcpSocket.receive, if_pos hsynack]
    exact ⟨rfl, hfirst⟩
  have hsn : ((s.handle siphash seg time route).socks k).sn = first := by
    rw [sn_of_conn hconn, sn_after, hreceive.2]
  have hout : (s.handle siphash seg time route).out = s.out ++
      if route then [((s.socks k).receive seg).data.header k { ack := true } []] else [] := by
    rw [handle_of_target htarget, out_deliver, hreceive.1]
    simp only [true_and]
  refine ⟨?_, ?_, ?_⟩
  · rw [show (s.handle siphash seg time route).made = s.made from congrArg Prod.fst (files_handle ..)]
    exact htallied.made
  · rw [hphase]
    rfl
  · rw [show ((s.handle siphash seg time route).socks k).wasConnected = true from congrArg Prod.snd hphase, hsn]
    cases route with
    | true =>
      refine ⟨[((s.socks k).receive seg).data.header k { ack := true } []], ?_, ?_, ?_⟩
      · have howner : (((s.socks k).receive seg).data.header k { ack := true } []).owner = some k := rfl
        rw [sentBy_concat hout, if_pos howner, hsent, append_nil]
      · refine (NumberedFrom.nil first).concat (o := ((s.socks k).receive seg).data.header k { ack := true } []) ?_
        refine hreceive.2.trans ?_
        exact (BitVec.add_zero first).symm
      · exact (BitVec.add_zero first).symm
    | false =>
      refine ⟨[], ?_, .nil first, (BitVec.add_zero first).symm⟩
      rw [sentBy_of_out_eq (hout.trans (append_nil _)), hsent]

theorem Tallied.step (horderly : Orderly k s op) (hstep : s.step siphash op = some t) : Tallied k first before t := by
  obtain ⟨hpossible, rfl⟩ := step_eq_some.mp hstep
  by_cases hsynack : ∃ seg time route, op = .segment seg time route ∧ s.target seg = some k ∧
      (seg.flags.syn && seg.flags.ack) = true
  · obtain ⟨seg, time, route, rfl, htarget, hflags⟩ := hsynack
    have hwas := horderly htarget
    rw [if_pos hflags] at hwas
    exact htallied.synack htarget hflags hwas
  · have hother : ∀ seg time route, op = .segment seg time route → s.target seg = some k →
        (seg.flags.syn && seg.flags.ack) = false := by
      intro seg time route hop htarget
      rw [← Bool.not_eq_true]
      exact fun hflags => hsynack ⟨seg, time, route, hop, htarget, hflags⟩
    have hmove : Move (s.socks k).phase ((s.call siphash op).socks k).phase := by
      obtain hmove | ⟨seg, time, route, hop, htarget, hsyn, hack, -⟩ := move_call hpossible htallied.made
      · exact hmove
      · refine absurd ⟨seg, time, route, hop, htarget, ?_⟩ hsynack
        rw [hsyn, hack]
        rfl
    obtain ⟨segs', ⟨hsent', hnumbers'⟩, hbusy⟩ := counted_call siphash hpossible htallied.made
      (by rintro addr port rand route rfl; exact horderly rfl) hother
    obtain ⟨segs, hsent, hnumbers⟩ := htallied.numbers
    have hwas : ((s.call siphash op).socks k).wasConnected = (s.socks k).wasConnected := hmove.was_eq
    refine ⟨mem_made_call htallied.made, hmove.coherent htallied.coherent, segs ++ segs', ?_, ?_⟩
    · rw [hsent', hsent, append_assoc]
    · rw [hwas]
      split_ifs at hnumbers ⊢ with h
      · obtain ⟨hsegs, hsn⟩ := hnumbers
        obtain ⟨rfl, hsn'⟩ | ⟨o, rfl, ho, hsn'⟩ := hnumbers'
        · rw [append_nil, hsn']
          exact ⟨hsegs, hsn⟩
        · rw [hsn', numberAfter_concat, ← hsn]
          exact ⟨hsegs.concat (ho.trans hsn), rfl⟩
      · have hempty : segs' = [] := by
          by_contra hne
          exact not_busy htallied.coherent horderly (Bool.not_eq_true _ ▸ h) hother (hbusy hne)
        rw [hempty, append_nil]
        refine ⟨hnumbers.1, ?_⟩
        obtain ⟨-, hsn'⟩ | ⟨o, ho, -⟩ := hnumbers'
        · rw [hsn']
          exact hnumbers.2
        · rw [ho] at hempty
          cases hempty

theorem Tallied.of_run {ops : List TcpOp}
    (hrun : Run (Tcp.step siphash) (Orderly k) s ops t) : Tallied k first before t :=
  hrun.invariant (Tallied k first before) (fun _ _ _ hs horderly hstep => hs.step horderly hstep) htallied

omit htallied

end Tallied

end Tcp

end Kairax.Net
