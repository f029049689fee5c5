import Kairax.Net.TcpKept
import Mathlib.Data.List.Perm.Basic

/-!
# The accept queue of a listener

A segment that acknowledges the cookie becomes a request in the accept queue, unless there is a child with the address
and port of its sender. Whether such a request is already there is not looked at.
-/

namespace Kairax.Net

open Lib Ipc List Finset Prod Function

def Request.peer (request : Request) : BitVec 32 × BitVec 16 := (request.addr, request.port)

def TcpSocket.peer (d : TcpSocket) : BitVec 32 × BitVec 16 := (d.addr, d.port)

variable {i new : Nat}

namespace Tcp

/-- The peers of the requests that accept has taken from a listener and not yet made a socket for. -/
def inHand (s : Tcp) (l : Nat) : List (BitVec 32 × BitVec 16) :=
  (s.accepting.filter fun p => p.1 = l).map fun p => p.2.peer

def waiting (s : Tcp) (l : Nat) : List (BitVec 32 × BitVec 16) :=
  (s.socks l).acceptQueue.map Request.peer ++ s.inHand l

def childPeers (s : Tcp) (l : Nat) : List (BitVec 32 × BitVec 16) := (s.socks l).children.map fun k => (s.socks k).peer

def entries (s : Tcp) (l : Nat) : List (BitVec 32 × BitVec 16) :=
  (s.socks l).acceptQueue.map Request.peer ++ s.childPeers l

section Guard

variable (siphash : BitVec 32 → BitVec 32 → BitVec 32 → BitVec 32 → BitVec 32)

/-- No segment acknowledges the cookie of a peer that already waits, the backlog is not made smaller than the queue, and
a child is not bound to another port. -/
def Fresh (s : Tcp) : TcpOp → Prop
  | .segment seg time _ => ∀ l ∈ s.bindings seg.dstPort, (s.socks l).isListener = true → seg.flags.ack = true →
      makeSynCookie siphash seg time = seg.ack - 1 → (seg.srcIp, seg.srcPort) ∉ s.waiting l
  | .listen k backlog => (s.socks k).acceptQueue.length ≤ backlog
  | .bind k _ => (s.socks k).listener = none
  | _ => True

instance decidableFresh (s : Tcp) (op : TcpOp) : Decidable (s.Fresh siphash op) := by
  refine op.casesOn ?_ ?_ ?_ ?_ ?_ ?_ ?_ ?_ ?_ ?_ ?_ <;> intros <;> (unfold Fresh; infer_instance)

end Guard

def card (s : Tcp) (k : Nat) : (BitVec 32 × BitVec 16) × Option Nat × Bool :=
  ((s.socks k).peer, (s.socks k).listener, (s.socks k).wasConnected)

def Accepted (s : Tcp) (k : Nat) : Prop :=
  k ∈ s.made ∧ (s.socks k).listener ≠ none ∧ (s.socks k).wasConnected = true

/-- Queues and lists of children only get shorter. -/
structure Shrinks (s t : Tcp) : Prop where
  made : s.made ⊆ t.made
  accepting : t.accepting = s.accepting
  card : ∀ k, s.Accepted k → t.card k = s.card k
  queue : ∀ l, (t.socks l).acceptQueue.Sublist (s.socks l).acceptQueue
  children : ∀ l, (t.socks l).children.Sublist (s.socks l).children
  backlog : ∀ l, (t.socks l).backlogSz = (s.socks l).backlogSz ∨
    (t.socks l).acceptQueue.length ≤ (t.socks l).backlogSz

variable {s t u : Tcp} {k l : Nat} {d : TcpSocket} {request : Request}

theorem Accepted.of_card (haccepted : s.Accepted k) (hmade : s.made ⊆ t.made) (hcard : t.card k = s.card k) :
    t.Accepted k := by
  have hlistener : (t.socks k).listener = (s.socks k).listener := congrArg (·.2.1) hcard
  have hwas : (t.socks k).wasConnected = (s.socks k).wasConnected := congrArg (·.2.2) hcard
  refine ⟨hmade haccepted.1, ?_, ?_⟩
  · rw [hlistener]
    exact haccepted.2.1
  · rw [hwas]
    exact haccepted.2.2

theorem Shrinks.of_update (hmade : s.made ⊆ t.made) (haccepting : t.accepting = s.accepting)
    (hsocks : t.socks = update s.socks k d) (hqueue : d.acceptQueue.Sublist (s.socks k).acceptQueue)
    (hchildren : d.children.Sublist (s.socks k).children)
    (hbacklog : d.backlogSz = (s.socks k).backlogSz ∨ d.acceptQueue.length ≤ d.backlogSz)
    (hcard : s.Accepted k → d.peer = (s.socks k).peer ∧ d.listener = (s.socks k).listener ∧ d.wasConnected = true) :
    Shrinks s t := by
  have hself : t.socks k = d := by rw [hsocks, update_self]
  have hother (j : Nat) (hj : j ≠ k) : t.socks j = s.socks j := by rw [hsocks, update_of_ne hj]
  refine ⟨hmade, haccepting, fun j hj => ?_, fun j => ?_, fun j => ?_, fun j => ?_⟩
  all_goals by_cases hjk : j = k
  · subst hjk
    obtain ⟨hpeer, hlistener, hwas⟩ := hcard hj
    rw [Tcp.card, Tcp.card, hself, hpeer, hlistener, hwas, hj.2.2]
  · rw [Tcp.card, Tcp.card, hother j hjk]
  · rw [hjk, hself]
    exact hqueue
  · rw [hother j hjk]
  · rw [hjk, hself]
    exact hchildren
  · rw [hother j hjk]
  · rw [hjk, hself]
    exact hbacklog
  · rw [hother j hjk]
    exact .inl rfl

theorem Lighter.shrinks (hlighter : Lighter s t) : Shrinks s t := by
  refine ⟨?_, congrArg (·.2.2) hlighter.files, fun k hk => ?_, hlighter.queue, hlighter.children, fun l => .inl ?_⟩
  · exact (congrArg fst hlighter.files).symm.subset
  · have hpeer : (t.socks k).peer = (s.socks k).peer := (congrArg TcpSocket.peer (hlighter.fixed k) :)
    rw [Tcp.card, Tcp.card, hpeer, hlighter.listener, hlighter.was k hk.2.2, hk.2.2]
  · exact (congrArg TcpSocket.backlogSz (hlighter.fixed l) :)

theorem shrinks_connect (s : Tcp) (k : Nat) (addr : BitVec 32) (port : BitVec 16) (rand : BitVec 32) (route : Bool) :
    Shrinks s (s.connect k addr port rand route).2 := by
  obtain ⟨-, hsame⟩ | ⟨p, hwas, -, hconnect⟩ := s.connect_cases k addr port rand route
  · rw [hsame]
    exact (lighter_refl s).shrinks
  · rw [hconnect]
    exact .of_update subset_rfl rfl rfl (.refl _) (.refl _) (.inl rfl)
      fun hk => absurd (hwas.symm.trans hk.2.2) Bool.false_ne_true

theorem shrinks_bind (s : Tcp) (port : BitVec 16) (hlistener : (s.socks k).listener = none) :
    Shrinks s (s.bind k port).2 := by
  rw [bind]
  split_ifs
  · exact (lighter_refl s).shrinks
  · exact .of_update subset_rfl rfl rfl (.refl _) (.refl _) (.inl rfl)
      fun hk => absurd hlistener hk.2.1

/-- A peer waits or is the peer of a child, but only once. -/
structure Single (s : Tcp) : Prop where
  listeners : ∀ p ∈ s.accepting, p.1 ∈ s.made
  children : ∀ l, ∀ k ∈ (s.socks l).children, s.Accepted k
  once : ∀ l, (s.waiting l ++ s.childPeers l).Nodup
  backlog : ∀ l, (s.socks l).acceptQueue.length ≤ (s.socks l).backlogSz

theorem single_start : Single start := ⟨nofun, nofun, fun _ => nodup_nil, fun _ => le_rfl⟩

theorem Single.shrinks (hsingle : s.Single) (hshrinks : Shrinks s t) : t.Single := by
  refine ⟨fun p hp => ?_, fun l k hk => ?_, fun l => ?_, fun l => ?_⟩
  · rw [hshrinks.accepting] at hp
    exact hshrinks.made (hsingle.listeners p hp)
  · have haccepted := hsingle.children l k ((hshrinks.children l).subset hk)
    exact haccepted.of_card hshrinks.made (hshrinks.card k haccepted)
  · have hpeers : t.childPeers l = (t.socks l).children.map fun k => (s.socks k).peer := by
      refine map_congr_left fun k hk => ?_
      exact congrArg fst (hshrinks.card k (hsingle.children l k ((hshrinks.children l).subset hk)))
    refine (hsingle.once l).sublist ?_
    rw [waiting, waiting, inHand, hshrinks.accepting, hpeers]
    exact (((hshrinks.queue l).map _).append_right _).append ((hshrinks.children l).map _)
  · obtain hsame | hle := hshrinks.backlog l
    · rw [hsame]
      exact (hshrinks.queue l).length_le.trans (hsingle.backlog l)
    · exact hle

theorem Single.change (hsingle : s.Single) {accepting : List (Nat × Request)}
    (haccepting : ∀ p ∈ accepting, p.1 ∈ s.made) (ht : t = { s.set l d with accepting := accepting })
    (hcard : (d.peer, d.listener, d.wasConnected) = s.card l) (hchildren : ∀ k ∈ d.children, s.Accepted k)
    (hother : ∀ j ≠ l, (t.inHand j).Perm (s.inHand j))
    (honce : (t.waiting l ++ d.children.map fun k => (s.socks k).peer).Nodup)
    (hbacklog : d.acceptQueue.length ≤ d.backlogSz) : t.Single := by
  have hmade : t.made = s.made := by rw [ht]; rfl
  have hself : t.socks l = d := by rw [ht]; exact update_self ..
  have hsock (j : Nat) (hj : j ≠ l) : t.socks j = s.socks j := by rw [ht]; exact update_of_ne hj ..
  have hcards (k : Nat) : t.card k = s.card k := by
    by_cases hk : k = l
    · rw [hk, card, hself, hcard]
    · rw [card, card, hsock k hk]
  have haccepted (k : Nat) (hk : s.Accepted k) : t.Accepted k := hk.of_card hmade.symm.subset (hcards k)
  have hpeers (ks : List Nat) : (ks.map fun k => (t.socks k).peer) = ks.map fun k => (s.socks k).peer :=
    map_congr_left fun k _ => congrArg fst (hcards k)
  refine ⟨by rw [ht]; exact haccepting, fun j k hk => ?_, fun j => ?_, fun j => ?_⟩
  all_goals by_cases hj : j = l
  · rw [hj, hself] at hk
    exact haccepted k (hchildren k hk)
  · rw [hsock j hj] at hk
    exact haccepted k (hsingle.children j k hk)
  · rw [hj, childPeers, hself, hpeers]
    exact honce
  · rw [waiting, childPeers, hsock j hj, hpeers]
    exact (((hother j hj).append_left _).append_right _).nodup_iff.mpr (hsingle.once j)
  · rw [hj, hself]
    exact hbacklog
  · rw [hsock j hj]
    exact hsingle.backlog j

theorem Single.enqueue (hsingle : s.Single) (hnew : request.peer ∉ s.waiting l) (hchild : request.peer ∉ s.childPeers l)
    (hroom : (s.socks l).acceptQueue.length < (s.socks l).backlogSz) : (s.enqueue l request).Single := by
  refine hsingle.change hsingle.listeners rfl rfl (hsingle.children l) (fun _ _ => .refl _)
    ?_ ?_
  · have hwaiting : (s.enqueue l request).waiting l =
        (s.socks l).acceptQueue.map Request.peer ++ [request.peer] ++ s.inHand l := by
      rw [waiting, Tcp.enqueue, set_socks, if_pos rfl, map_append]
      rfl
    have hperm : (s.enqueue l request).waiting l ++ s.childPeers l |>.Perm
        (request.peer :: (s.waiting l ++ s.childPeers l)) := by
      rw [hwaiting, waiting, append_assoc, append_assoc, append_assoc]
      exact perm_middle
    refine hperm.nodup_iff.mpr ?_
    rw [nodup_cons, mem_append]
    exact ⟨fun h => h.elim hnew hchild, hsingle.once l⟩
  · rw [length_append]
    exact hroom

theorem inHand_concat (haccepting : t.accepting = s.accepting ++ [(k, request)]) (j : Nat) :
    t.inHand j = s.inHand j ++ if k = j then [request.peer] else [] := by
  rw [inHand, haccepting, List.filter_append, List.map_append, List.filter_singleton]
  by_cases hj : k = j
  · simp only [hj]
    rfl
  · simp only [hj]
    rfl

theorem Single.acceptTake (hsingle : s.Single) (hk : k ∈ s.made) : (s.acceptTake k).Single := by
  obtain ⟨t, ht⟩ : ∃ t, t = s.acceptTake k := ⟨_, rfl⟩
  rw [← ht]
  rw [Tcp.acceptTake] at ht
  cases hqueue : (s.socks k).acceptQueue with
  | nil =>
    rw [hqueue] at ht
    rw [ht]
    exact hsingle
  | cons request queue =>
    rw [hqueue] at ht
    have hinHand := inHand_concat (t := t) (by rw [ht])
    refine hsingle.change ?_ ht rfl (hsingle.children k) (fun j hj => ?_) ?_ ?_
    · intro p hp
      obtain hold | hnew := mem_append.mp hp
      · exact hsingle.listeners p hold
      · rw [List.mem_singleton.mp hnew]
        exact hk
    · rw [hinHand, if_neg (Ne.symm hj), append_nil]
    · have hself : (t.socks k).acceptQueue = queue := by
        rw [ht]
        rw [set_socks, if_pos rfl]
      have honce := hsingle.once k
      rw [waiting, hqueue] at honce
      rw [waiting, hself, hinHand, if_pos rfl, ← append_assoc]
      have hmoved : (request.peer :: (queue.map Request.peer ++ s.inHand k)).Perm
          (queue.map Request.peer ++ s.inHand k ++ [request.peer]) := (perm_append_singleton _ _).symm
      exact ((hmoved.append_right _).nodup_iff).mp honce
    · have hbacklog := hsingle.backlog k
      rw [hqueue] at hbacklog
      exact Nat.le_of_succ_le hbacklog

theorem inHand_eraseIdx (hi : s.accepting[i]? = some (l, request)) (haccepting : t.accepting = s.accepting.eraseIdx i)
    (j : Nat) : (s.inHand j).Perm (t.inHand j ++ if l = j then [request.peer] else []) := by
  obtain ⟨hlt, hget⟩ := List.getElem?_eq_some_iff.mp hi
  have hperm : s.accepting.Perm (t.accepting ++ [(l, request)]) := by
    rw [haccepting, ← hget]
    exact (List.getElem_cons_eraseIdx_perm hlt).symm.trans (List.perm_append_singleton _ _).symm
  have hconcat := inHand_concat (t := { t with accepting := t.accepting ++ [(l, request)] }) rfl j
  rw [← hconcat]
  exact (hperm.filter _).map _

theorem Single.acceptDone (hsingle : s.Single) (hi : i < s.accepting.length) (hnew : new ∉ s.made) :
    (s.acceptDone i new).Single := by
  obtain ⟨⟨l, request⟩, hrequest⟩ : ∃ p, s.accepting[i]? = some p := ⟨_, getElem?_eq_getElem hi⟩
  obtain ⟨u, hu⟩ : ∃ u, u = s.create new (s.childOf l request) := ⟨_, rfl⟩
  have hcreate : u.Single := by
    rw [hu]
    exact hsingle.shrinks (.of_update (subset_insert new s.made) rfl rfl (nil_sublist _) (nil_sublist _)
      (.inr le_rfl) fun hk => absurd hk.1 hnew)
  have hself : u.socks new = s.childOf l request := by rw [hu]; exact update_self ..
  have hchild : u.Accepted new := by
    rw [Accepted, hself, hu]
    exact ⟨mem_insert_self .., nofun, rfl⟩
  obtain ⟨t, ht⟩ : ∃ t, t = { u.set l { u.socks l with children := (u.socks l).children ++ [new] } with
    accepting := u.accepting.eraseIdx i } := ⟨_, rfl⟩
  have hinHand := inHand_eraseIdx (s := u) (t := t) (by rw [hu]; exact hrequest) (by rw [ht])
  rw [Tcp.acceptDone, hrequest]
  dsimp only
  rw [← hu, ← ht]
  refine hcreate.change (fun p hp => hcreate.listeners p (mem_of_mem_eraseIdx hp)) ht rfl (fun k hk => ?_)
    (fun j hj => ?_) ?_ (hcreate.backlog l)
  · obtain hk | hk := mem_append.mp hk
    · exact hcreate.children l k hk
    · rwa [List.mem_singleton.mp hk]
  · have hhand := hinHand j
    rw [if_neg (Ne.symm hj), append_nil] at hhand
    exact hhand.symm
  · have honce := hcreate.once l
    have hhand := hinHand l
    rw [if_pos rfl] at hhand
    have hqueue : (t.socks l).acceptQueue = (u.socks l).acceptQueue := by
      rw [ht]
      rw [set_socks, if_pos rfl]
    rw [waiting, hqueue, List.map_append, List.map_singleton, hself, ← append_assoc]
    rw [waiting, ((hhand.append_left _).append_right _).nodup_iff] at honce
    refine (List.Perm.nodup_iff ?_).mp honce
    rw [append_assoc, append_assoc, append_assoc, append_assoc]
    exact (perm_append_comm.append_left _).append_left _

variable {siphash : BitVec 32 → BitVec 32 → BitVec 32 → BitVec 32 → BitVec 32} {op : TcpOp}

theorem Single.handle (hsingle : s.Single) {seg : Segment} {time : Nat} {route : Bool}
    (hfresh : s.Fresh siphash (.segment seg time route)) : (s.handle siphash seg time route).Single := by
  obtain ⟨o, -, -, hhandle⟩ | ⟨l, hbound, hlistener, hack, hchild, -, hcookie, hroom, hhandle⟩ | ⟨k, -, -, hhandle⟩ :=
    handle_cases siphash s seg time route
  · rw [hhandle]
    exact hsingle.shrinks (lighter_emit s route o).shrinks
  · rw [hhandle]
    refine hsingle.enqueue (hfresh l hbound hlistener hack hcookie) (fun hmem => ?_) hroom
    -- a child with this peer would have been found
    obtain ⟨k, hk, hpeer⟩ := mem_map.mp hmem
    rw [listenerGet, find?_eq_none] at hchild
    refine hchild k hk (decide_eq_true ?_)
    exact ⟨congrArg snd hpeer, congrArg fst hpeer⟩
  · rw [hhandle]
    exact hsingle.shrinks (lighter_deliver s k seg route).shrinks

theorem Single.call (hsingle : s.Single) (hopened : s.opened ⊆ s.made) (hpossible : s.Possible op)
    (hfresh : s.Fresh siphash op) : (s.call siphash op).Single := by
  cases op with
  | socket k =>
    refine hsingle.shrinks (.of_update (subset_insert k s.made) rfl rfl (nil_sublist _)
      (nil_sublist _) (.inr le_rfl) fun hk => absurd hk.1 hpossible)
  | bind k port => exact hsingle.shrinks (shrinks_bind s port hfresh)
  | listen k backlog =>
    exact hsingle.shrinks (.of_update subset_rfl rfl rfl (.refl _)
      (.refl _) (.inr hfresh) fun hk => ⟨rfl, rfl, hk.2.2⟩)
  | connect k addr port rand route => exact hsingle.shrinks (shrinks_connect s k addr port rand route)
  | acceptTake k => exact hsingle.acceptTake (hopened hpossible)
  | acceptDone i new => exact hsingle.acceptDone hpossible.1 hpossible.2
  | segment seg time route => exact hsingle.handle hfresh
  | send k msg route => exact hsingle.shrinks (lighter_sendto s k msg route).shrinks
  | recv k len dontwait => exact hsingle.shrinks (lighter_recvfrom s k len dontwait).shrinks
  | shutdown k rd wr route => exact hsingle.shrinks (lighter_shutdown s k rd wr route).shrinks
  | close k route => exact hsingle.shrinks { (lighter_close s k route).shrinks with }

/-- The accept queue and the children of a listener never hold two entries of one peer, and the queue is not longer than
the backlog. -/
theorem one_entry_per_peer {ops : List TcpOp} (hrun : Run (step siphash) (Fresh siphash) start ops s) (l : Nat) :
    (s.entries l).Nodup ∧ (s.socks l).acceptQueue.length ≤ (s.socks l).backlogSz := by
  have hinv := hrun.invariant (fun s => s.Single ∧ s.opened ⊆ s.made) (fun s op t hs hfresh hstep => ?_)
    ⟨single_start, Finset.Subset.refl _⟩
  · refine ⟨(hinv.1.once l).sublist ?_, hinv.1.backlog l⟩
    exact (sublist_append_left _ _).append_right _
  · rw [step] at hstep
    split_ifs at hstep with hpossible
    cases hstep
    exact ⟨hs.1.call hs.2 hpossible hfresh, opened_subset_made_call hs.2⟩

/-- A client is accepted, and another one waits. -/
theorem one_entry_per_peer_two :
    ∃ s, Run (step fun _ _ _ _ => 1000) (Fresh fun _ _ _ _ => 1000) start [.socket 0, .bind 0 80, .listen 0 5,
        .segment ⟨1, 2, 4000, 80, 500, 0, { syn := true }, []⟩ 0 true,
        .segment ⟨1, 2, 4000, 80, 501, 1001, { ack := true }, []⟩ 0 true, .acceptTake 0,
        .segment ⟨3, 2, 4000, 80, 801, 1001, { ack := true }, []⟩ 0 true, .acceptDone 0 1,
        .segment ⟨1, 2, 4000, 80, 501, 1001, { ack := true }, []⟩ 0 true] s ∧
      s.entries 0 = [(3, 4000), (1, 4000)] ∧ (s.entries 0).Nodup ∧
      (s.socks 0).acceptQueue.length ≤ (s.socks 0).backlogSz := by
  refine exists_run_of_replay_imp (fun s => s.entries 0 = [(3, 4000), (1, 4000)]) ?_ fun s hrun hentries =>
    ⟨hentries, one_entry_per_peer hrun 0⟩
  decide

/-- The ACK of a handshake arrives twice: there are two requests, and then two children, of one peer. -/
theorem repeated_ack_requests_twice :
    (∃ s, Run (step fun _ _ _ _ => 1000) (fun _ _ => True) start [.socket 0, .bind 0 80, .listen 0 5,
        .segment ⟨1, 2, 4000, 80, 500, 0, { syn := true }, []⟩ 0 true,
        .segment ⟨1, 2, 4000, 80, 501, 1001, { ack := true }, []⟩ 0 true,
        .segment ⟨1, 2, 4000, 80, 501, 1001, { ack := true }, []⟩ 0 true] s ∧
      (s.socks 0).acceptQueue.map Request.peer = [(1, 4000), (1, 4000)]) ∧
    ∃ s, Run (step fun _ _ _ _ => 1000) (fun _ _ => True) start [.socket 0, .bind 0 80, .listen 0 5,
        .segment ⟨1, 2, 4000, 80, 500, 0, { syn := true }, []⟩ 0 true,
        .segment ⟨1, 2, 4000, 80, 501, 1001, { ack := true }, []⟩ 0 true, .acceptTake 0,
        .segment ⟨1, 2, 4000, 80, 501, 1001, { ack := true }, []⟩ 0 true, .acceptDone 0 1, .acceptTake 0,
        .acceptDone 0 2] s ∧
      s.childPeers 0 = [(1, 4000), (1, 4000)] ∧ (s.socks 1).state = .connected ∧ (s.socks 2).state = .connected := by
  constructor
  · apply exists_run_of_replay
    decide
  · apply exists_run_of_replay
    decide

end Tcp

end Kairax.Net
