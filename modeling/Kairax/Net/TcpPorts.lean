import Kairax.Net.TcpKept

/-!
# The table of ports

A port is claimed by bind and by connect, and is given back through `bound_port`, which remembers only the last one.
As long as a socket claims no second port, and is reset only while it is open and closed only with a connection, the
table and `bound_port` agree.
-/

namespace Kairax.Net

open Lib Ipc List Finset Function Bool

def Segment.resets (seg : Segment) : Bool :=
  seg.flags.rst && !(seg.flags.syn && seg.flags.ack) && !seg.flags.psh && !seg.flags.fin

variable {accepting : List (Nat × Request)} {port : BitVec 16} {route : Bool}

namespace Tcp

/-- The port in `bound_port` belongs to the socket. -/
def Occupies (s : Tcp) (k : Nat) : Prop := s.bindings (s.socks k).boundPort = some k

instance decidableOccupies (s : Tcp) (k : Nat) : Decidable (s.Occupies k) := by
  unfold Occupies
  infer_instance

def Released (s : Tcp) (k : Nat) : Prop := (∀ p, s.bindings p ≠ some k) ∧ ∀ l, k ∉ (s.socks l).children

/-- Only a socket without a port is bound or connected. An accepted socket is neither bound nor made a listener. A
socket that is closed has a connection, or occupies nothing, and is not reset afterwards. -/
def Tidy (s : Tcp) : TcpOp → Prop
  | .bind k port => s.bindings port = none → ¬s.Occupies k ∧ (s.socks k).listener = none
  | .listen k _ => (s.socks k).listener = none
  | .connect k _ _ _ _ => (s.socks k).wasConnected = false → ¬s.Occupies k
  | .segment seg _ _ => seg.resets = true → ∀ k ∈ s.target seg, k ∈ s.opened
  | .close k _ => (s.socks k).isListener = true ∨ (s.socks k).state ≠ .unconnected ∨
      ¬s.Occupies k ∧ ∀ l ∈ (s.socks k).listener, k ∉ (s.socks l).children
  | _ => True

instance decidableTidy (s : Tcp) (op : TcpOp) : Decidable (s.Tidy op) := by
  refine op.casesOn ?_ ?_ ?_ ?_ ?_ ?_ ?_ ?_ ?_ ?_ ?_ <;> intros <;> (unfold Tidy; infer_instance)

/-- The table and the lists of children in a tidy system. -/
structure Ports (s : Tcp) : Prop where
  bound : ∀ p k, s.bindings p = some k → k ∈ s.made ∧ (s.socks k).boundPort = p
  child : ∀ l k, k ∈ (s.socks l).children → k ∈ s.made ∧ (s.socks k).listener = some l
  once : ∀ l, (s.socks l).children.Nodup
  accepted : ∀ k l, (s.socks k).listener = some l → (s.socks k).wasConnected = true ∧ (s.socks k).isListener = false ∧
    l ∈ s.made ∧ (s.socks l).isListener = true ∧ ∀ p, s.bindings p ≠ some k
  requests : ∀ l, (s.socks l).acceptQueue ≠ [] → (s.socks l).isListener = true
  accepting : ∀ q ∈ s.accepting, q.1 ∈ s.made ∧ (s.socks q.1).isListener = true
  released : ∀ k ∈ s.made, k ∉ s.opened → (s.socks k).state = .unconnected → (s.socks k).children = [] → s.Released k

theorem ports_start : Ports start :=
  ⟨nofun, nofun, fun _ => nodup_nil, nofun, fun _ h => absurd rfl h, nofun, nofun⟩

namespace Ports

variable {s t : Tcp} {j k l : Nat} {d : TcpSocket} {request : Request}

variable (hports : s.Ports)

include hports

theorem free (hfree : ¬s.Occupies k) (p : BitVec 16) : s.bindings p ≠ some k := by
  intro hbound
  obtain ⟨-, rfl⟩ := hports.bound p k hbound
  exact hfree hbound

theorem alone (hlistener : (s.socks k).listener = none) (l : Nat) : k ∉ (s.socks l).children := by
  intro hchild
  cases hlistener.symm.trans (hports.child l k hchild).2

theorem listener_eq_none (hlistener : (s.socks k).isListener = true) : (s.socks k).listener = none := by
  cases hof : (s.socks k).listener with
  | none => rfl
  | some l => exact absurd ((hports.accepted k l hof).2.1.symm.trans hlistener) false_ne_true

omit hports

theorem released_of_lighter (hlighter : Lighter s t) (hreleased : s.Released k) : t.Released k :=
  ⟨fun p hbound => hreleased.1 p (hlighter.bindings p k hbound),
    fun l hchild => hreleased.2 l ((hlighter.children l).subset hchild)⟩

include hports

theorem lighter (hlighter : Lighter s t)
    (hreleased : ∀ k ∈ s.made, k ∉ s.opened → (t.socks k).state = .unconnected → (t.socks k).children = [] →
      (s.socks k).state = .unconnected ∧ (s.socks k).children = [] ∨ t.Released k) : t.Ports := by
  have hmade : t.made = s.made := congrArg Prod.fst hlighter.files
  have hopened : t.opened = s.opened := congrArg (·.2.1) hlighter.files
  have haccepting : t.accepting = s.accepting := congrArg (·.2.2) hlighter.files
  constructor
  · intro p k hbound
    rw [hmade, hlighter.boundPort]
    exact hports.bound p k (hlighter.bindings p k hbound)
  · intro l k hchild
    rw [hmade, hlighter.listener]
    exact hports.child l k ((hlighter.children l).subset hchild)
  · exact fun l => (hports.once l).sublist (hlighter.children l)
  · intro k l hlistener
    rw [hlighter.listener] at hlistener
    obtain ⟨hwas, hplain, hl, hisListener, hfree⟩ := hports.accepted k l hlistener
    rw [hlighter.isListener, hlighter.isListener, hmade]
    exact ⟨hlighter.was k hwas, hplain, hl, hisListener, fun p hbound => hfree p (hlighter.bindings p k hbound)⟩
  · intro l hqueue
    rw [hlighter.isListener]
    exact hports.requests l fun hempty => hqueue (sublist_nil.mp (hempty ▸ hlighter.queue l))
  · intro q hq
    rw [haccepting] at hq
    rw [hmade, hlighter.isListener]
    exact hports.accepting q hq
  · intro k hk hclosed hstate hchildren
    rw [hmade] at hk
    rw [hopened] at hclosed
    obtain ⟨hstate, hchildren⟩ | hreleased := hreleased k hk hclosed hstate hchildren
    · exact released_of_lighter hlighter (hports.released k hk hclosed hstate hchildren)
    · exact hreleased

theorem lighter_of_opened (hlighter : Lighter s t) (hk : k ∈ s.opened)
    (hother : ∀ j ≠ k, t.socks j = s.socks j) : t.Ports := by
  refine hports.lighter hlighter fun j _ hclosed hstate hchildren => .inl ?_
  rw [hother j fun h => hclosed (h ▸ hk)] at hstate hchildren
  exact ⟨hstate, hchildren⟩

omit hports

theorem unbindSock_free (hbound : ∀ p, s.bindings p = some k → (s.socks k).boundPort = p) (p : BitVec 16) :
    (s.unbindSock k).bindings p ≠ some k := by
  rw [bindings_unbindSock]
  split_ifs with hp
  · exact nofun
  · exact fun h => hp ⟨(hbound p h).symm, h⟩

theorem socks_listenerRemove (s : Tcp) (l k : Nat) :
    (s.listenerRemove l k).socks = update s.socks l { s.socks l with children := (s.socks l).children.erase k } := by
  rw [listenerRemove]
  split_ifs
  · rw [socks_unbindSock]
    rfl
  · rfl

theorem listenerRemove_free (hbound : ∀ p, s.bindings p = some l → (s.socks l).boundPort = p)
    (hstate : (s.socks l).state = .unconnected) (hchildren : (s.socks l).children.erase k = []) (p : BitVec 16) :
    (s.listenerRemove l k).bindings p ≠ some l := by
  have hself : (s.set l { s.socks l with children := (s.socks l).children.erase k }).socks l =
      { s.socks l with children := (s.socks l).children.erase k } := update_self ..
  rw [listenerRemove]
  rw [hself, hchildren, if_pos ⟨hstate, rfl⟩]
  refine unbindSock_free (fun p hp => ?_) p
  rw [set_socks, if_pos rfl]
  exact hbound p hp

include hports

theorem destroy_plain (hlistener : (s.socks k).listener = none) : (s.destroy k).Ports := by
  have hlighter := lighter_destroy s k
  have hself : (s.set k { s.socks k with state := .unconnected }).socks k =
      { s.socks k with state := .unconnected } := update_self ..
  have hdestroy : s.destroy k = (s.set k { s.socks k with state := .unconnected }).unbindSock k := by
    rw [Tcp.destroy]
    rw [hself, hlistener]
  refine hports.lighter hlighter fun j _ _ hstate hchildren => ?_
  by_cases hj : j = k
  · refine .inr ⟨?_, fun l hchild => hports.alone (hj ▸ hlistener) l ((hlighter.children l).subset hchild)⟩
    rw [hj, hdestroy]
    refine unbindSock_free fun p hp => ?_
    rw [hself]
    exact (hports.bound p k hp).2
  · rw [hdestroy, socks_unbindSock, set_socks, if_neg hj] at hstate hchildren
    exact .inl ⟨hstate, hchildren⟩

theorem destroy_child (hlistener : (s.socks k).listener = some l) : (s.destroy k).Ports := by
  have hlighter := lighter_destroy s k
  obtain ⟨-, hplain, -, hisListener, hfree⟩ := hports.accepted k l hlistener
  have hne : l ≠ k := by
    rintro rfl
    exact false_ne_true (hplain.symm.trans hisListener)
  obtain ⟨s₁, hs₁⟩ : ∃ s₁, s₁ = s.set k { s.socks k with state := .unconnected } := ⟨_, rfl⟩
  have hl : s₁.socks l = s.socks l := by rw [hs₁, set_socks, if_neg hne]
  have hdestroy : s.destroy k = s₁.listenerRemove l k := by
    have hself : (s.set k { s.socks k with state := .unconnected }).socks k =
        { s.socks k with state := .unconnected } := update_self ..
    rw [Tcp.destroy, hs₁]
    rw [hself, hlistener]
  have hsocks : (s.destroy k).socks = update s₁.socks l
      { s.socks l with children := (s.socks l).children.erase k } := by
    rw [hdestroy, socks_listenerRemove, hl]
  have hself : ((s.destroy k).socks l) = { s.socks l with children := (s.socks l).children.erase k } := by
    rw [hsocks, update_self]
  refine hports.lighter hlighter fun j _ _ hstate hchildren => ?_
  by_cases hj : j = k
  · rw [hj]
    refine .inr ⟨fun p hbound => hfree p (hlighter.bindings p k hbound), fun l' hchild => ?_⟩
    obtain rfl := Option.some.inj (hlistener.symm.trans (hports.child l' k ((hlighter.children l').subset hchild)).2)
    rw [hself] at hchild
    exact (hports.once l).not_mem_erase hchild
  by_cases hjl : j = l
  · rw [hjl] at hstate hchildren ⊢
    rw [hself] at hstate hchildren
    refine .inr ⟨?_, fun l' hchild => ?_⟩
    · rw [hdestroy]
      refine listenerRemove_free (fun p hp => ?_) (by rw [hl]; exact hstate) (by rw [hl]; exact hchildren)
      rw [hl]
      rw [hs₁] at hp
      exact (hports.bound p l hp).2
    · exact hports.alone (hports.listener_eq_none hisListener) l' ((hlighter.children l').subset hchild)
  · rw [hsocks, update_of_ne hjl, hs₁, set_socks, if_neg hj] at hstate hchildren
    exact .inl ⟨hstate, hchildren⟩

theorem destroy (k : Nat) : (s.destroy k).Ports := by
  cases hlistener : (s.socks k).listener with
  | none => exact hports.destroy_plain hlistener
  | some l => exact hports.destroy_child hlistener

omit hports

theorem receive_unconnected (d : TcpSocket) (seg : Segment) (hstate : (d.receive seg).data.state = .unconnected) :
    d.state = .unconnected ∨ seg.resets = true := by
  rw [TcpSocket.receive] at hstate
  split_ifs at hstate with hsynack hpsh hfin hrst hack
  · rw [TcpSocket.putToRxQueue] at hstate
    split_ifs at hstate <;> exact .inl hstate
  · rw [TcpSocket.handleFin] at hstate
    split at hstate
    · cases hstate
    · split_ifs at hstate
      exact .inl hstate
    · exact .inl hstate
    · exact .inl hstate
  · right
    rw [not_eq_true] at hsynack hpsh hfin
    rw [Segment.resets, hrst, hsynack, hpsh, hfin]
    rfl
  · rw [TcpSocket.handleAck] at hstate
    split at hstate
    · exact .inl hstate
    · exact .inl hstate
    · cases hstate
    · exact .inl hstate
  · exact .inl hstate

section

variable (hports : s.Ports)
include hports

theorem deliver {seg : Segment} (route : Bool) (hreset : seg.resets = true → k ∈ s.opened) :
    (s.deliver k seg route).Ports := by
  have hanswer : (s.answer k seg route).Ports := by
    refine hports.lighter (lighter_answer s k seg route) fun j _ hclosed hstate hchildren => .inl ?_
    obtain ⟨_, _, _, _, _, _, _, hdata⟩ := (s.socks k).receive_eq seg
    rw [answer_eq] at hstate hchildren
    dsimp only at hstate hchildren
    rw [update_apply] at hstate hchildren
    split_ifs at hstate hchildren with hj
    · subst hj
      rw [hdata] at hchildren
      exact ⟨(receive_unconnected _ seg hstate).resolve_right fun h => hclosed (hreset h), hchildren⟩
    · exact ⟨hstate, hchildren⟩
  rw [Tcp.deliver]
  split_ifs
  · exact hanswer.destroy k
  · exact hanswer

theorem shutdown (hk : k ∈ s.opened) (rd wr route : Bool) : (s.shutdown k rd wr route).Ports := by
  refine hports.lighter_of_opened (lighter_shutdown s k rd wr route) hk fun j hj => ?_
  rw [shutdown_eq]
  exact update_of_ne hj ..

theorem shut (hreleased : (s.socks k).state = .unconnected → (s.socks k).children = [] → s.Released k) :
    Ports { s with opened := s.opened.erase k } := by
  refine { hports with released := ?_ }
  intro j hj hclosed hstate hchildren
  by_cases hjk : j = k
  · subst hjk
    exact hreleased hstate hchildren
  · exact hports.released j hj (fun h => hclosed (mem_erase.mpr ⟨hjk, h⟩)) hstate hchildren

end

theorem state_of_leave (d : TcpSocket) (route : Bool) (hstate : (d.leave route).state = .unconnected) :
    d.state = .unconnected := by
  rw [TcpSocket.leave] at hstate
  split at hstate
  · cases hstate
  · cases hstate
  · exact hstate

include hports

theorem close (hk : k ∈ s.opened) (htidy : s.Tidy (.close k route)) :
    Ports { s.close k route with opened := s.opened.erase k } := by
  have hlighter := lighter_close s k route
  have hopened : (s.close k route).opened = s.opened := congrArg (·.2.1) hlighter.files
  have hsocks : (s.close k route).socks = Function.update s.socks k ((s.socks k).closed route) := by rw [close_eq]
  rw [← hopened]
  refine shut (hports.lighter_of_opened hlighter hk fun j hj => by rw [hsocks, update_of_ne hj])
    fun hstate hchildren => ?_
  rw [hsocks, update_self, TcpSocket.closed] at hstate hchildren
  cases hlistener : (s.socks k).isListener with
  | true =>
    rw [if_pos hlistener] at hchildren
    refine ⟨fun p => ?_, fun l hchild => ?_⟩
    · rw [close_eq]
      rw [if_pos (by rwa [if_pos hlistener])]
      exact unbindSock_free (fun p hp => (hports.bound p k hp).2) p
    · exact hports.alone (hports.listener_eq_none hlistener) l ((hlighter.children l).subset hchild)
  | false =>
    rw [if_neg (hlistener ▸ false_ne_true)] at hstate
    rw [Tidy, hlistener, show (s.socks k).state = .unconnected from state_of_leave _ route hstate] at htidy
    refine released_of_lighter hlighter ?_
    obtain h | h | ⟨hfree, hchild⟩ := htidy
    · cases h
    · exact absurd rfl h
    · refine ⟨hports.free hfree, fun l hl => ?_⟩
      exact hchild l (hports.child l k hl).2 hl

omit hports

section

variable (hports : s.Ports)
include hports

theorem update (hmade : t.made = insert k s.made) (hopened : s.opened ⊆ t.opened)
    (hsocks : t.socks = update s.socks k d) (hbindings : ∀ p j, j ≠ k → t.bindings p = some j → s.bindings p = some j)
    (hbound : ∀ p, t.bindings p = some k → d.boundPort = p) (honce : d.children.Nodup)
    (hchildren : ∀ j ∈ d.children, j ∈ (s.socks k).children ∨
      j ∈ s.opened ∧ j ∈ s.made ∧ j ≠ k ∧ (s.socks j).listener = some k)
    (hchild : ∀ l, k ∈ (s.socks l).children → d.listener = some l)
    (hlistener : ∀ l, d.listener = some l → d.wasConnected = true ∧ d.isListener = false ∧ l ∈ s.made ∧
      (s.socks l).isListener = true ∧ ∀ p, t.bindings p ≠ some k)
    (hlistens : k ∈ s.made → (s.socks k).isListener = true → d.isListener = true)
    (hqueue : d.acceptQueue ≠ [] → d.isListener = true)
    (haccepting : ∀ q ∈ t.accepting, q ∈ s.accepting ∨ q.1 = k ∧ d.isListener = true)
    (hreleased : k ∉ t.opened → d.state = .unconnected → d.children = [] → t.Released k) : t.Ports := by
  have hself : t.socks k = d := by rw [hsocks, update_self]
  have hother (j : Nat) (hj : j ≠ k) : t.socks j = s.socks j := by rw [hsocks, update_of_ne hj]
  have hlisten (l : Nat) (hl : l ∈ s.made) (hisListener : (s.socks l).isListener = true) :
      (t.socks l).isListener = true := by
    by_cases hlk : l = k
    · rw [hlk, hself]
      exact hlistens (hlk ▸ hl) (hlk ▸ hisListener)
    · rw [hother l hlk, hisListener]
  have hmem {j : Nat} (hj : j ∈ s.made) : j ∈ t.made := by
    rw [hmade]
    exact mem_insert_of_mem hj
  have holder (l j : Nat) (hj : j ∈ (t.socks l).children) : j ∈ (s.socks l).children ∨
      j ∈ s.opened ∧ j ∈ s.made ∧ j ≠ k ∧ (s.socks j).listener = some l := by
    by_cases hl : l = k
    · subst hl
      rw [hself] at hj
      exact hchildren j hj
    · rw [hother l hl] at hj
      exact .inl hj
  constructor
  · intro p j hj
    by_cases hjk : j = k
    · subst hjk
      rw [hmade, hself]
      exact ⟨mem_insert_self .., hbound p hj⟩
    · obtain ⟨hjmade, hport⟩ := hports.bound p j (hbindings p j hjk hj)
      rw [hother j hjk]
      exact ⟨hmem hjmade, hport⟩
  · intro l j hj
    obtain hold | ⟨-, hjmade, hjk, hof⟩ := holder l j hj
    · obtain ⟨hjmade, hof⟩ := hports.child l j hold
      refine ⟨hmem hjmade, ?_⟩
      by_cases hjk : j = k
      · subst hjk
        rw [hself]
        exact hchild l hold
      · rw [hother j hjk, hof]
    · rw [hother j hjk]
      exact ⟨hmem hjmade, hof⟩
  · intro l
    by_cases hl : l = k
    · rwa [hl, hself]
    · rw [hother l hl]
      exact hports.once l
  · intro j l hof
    by_cases hjk : j = k
    · subst hjk
      rw [hself] at hof ⊢
      obtain ⟨hwas, hplain, hl, hisListener, hfree⟩ := hlistener l hof
      exact ⟨hwas, hplain, hmem hl, hlisten l hl hisListener, hfree⟩
    · rw [hother j hjk] at hof ⊢
      obtain ⟨hwas, hplain, hl, hisListener, hfree⟩ := hports.accepted j l hof
      exact ⟨hwas, hplain, hmem hl, hlisten l hl hisListener, fun p hp => hfree p (hbindings p j hjk hp)⟩
  · intro l hl
    by_cases hlk : l = k
    · rw [hlk, hself] at hl ⊢
      exact hqueue hl
    · rw [hother l hlk] at hl ⊢
      exact hports.requests l hl
  · intro q hq
    obtain hold | ⟨hqk, hisListener⟩ := haccepting q hq
    · obtain ⟨hq, hisListener⟩ := hports.accepting q hold
      exact ⟨hmem hq, hlisten q.1 hq hisListener⟩
    · rw [hqk, hself, hmade]
      exact ⟨mem_insert_self .., hisListener⟩
  · intro j hj hclosed hstate hnone
    by_cases hjk : j = k
    · subst hjk
      rw [hself] at hstate hnone
      exact hreleased hclosed hstate hnone
    · rw [hother j hjk] at hstate hnone
      rw [hmade] at hj
      obtain ⟨hfree, hchildless⟩ := hports.released j (mem_of_mem_insert_of_ne hj hjk)
        (fun h => hclosed (hopened h)) hstate hnone
      refine ⟨fun p hp => hfree p (hbindings p j hjk hp), fun l hl => ?_⟩
      exact (holder l j hl).elim (hchildless l) fun h => hclosed (hopened h.1)

theorem socket (hnew : k ∉ s.made) : (s.create k .new).Ports := by
  refine hports.update rfl (subset_insert k s.opened) rfl (fun _ _ _ => id) (fun p hp => ?_)
    nodup_nil nofun (fun l hl => ?_) nofun (fun h => absurd h hnew) (fun h => absurd rfl h) (fun _ => .inl) fun h => ?_
  · exact absurd (hports.bound p k hp).1 hnew
  · exact absurd (hports.child l k hl).1 hnew
  · exact absurd (mem_insert_self k s.opened) h

theorem update_plain (hk : k ∈ s.made) (hfiles : (t.made, t.opened) = (s.made, s.opened))
    (hsocks : t.socks = Function.update s.socks k d) (hlistener : (s.socks k).listener = none) (hd : d.listener = none)
    (hbindings : ∀ p j, j ≠ k → t.bindings p = some j → s.bindings p = some j)
    (hbound : ∀ p, t.bindings p = some k → d.boundPort = p) (hchildren : d.children = (s.socks k).children)
    (hlistens : (s.socks k).isListener = true → d.isListener = true) (hqueue : d.acceptQueue ≠ [] → d.isListener = true)
    (haccepting : ∀ q ∈ t.accepting, q ∈ s.accepting ∨ q.1 = k ∧ d.isListener = true)
    (hreleased : k ∉ s.opened → d.state = .unconnected → d.children = [] → t.Released k) : t.Ports := by
  obtain ⟨hmade, hopened⟩ := Prod.mk.inj hfiles
  refine hports.update (hmade.trans (insert_eq_of_mem hk).symm) hopened.symm.subset hsocks hbindings hbound
    (hchildren ▸ hports.once k) (fun _ hj => .inl (hchildren ▸ hj)) (fun l hl => absurd hl (hports.alone hlistener l))
    (fun l hl => ?_)
    (fun _ => hlistens) hqueue haccepting (hopened ▸ hreleased)
  cases hd.symm.trans hl

variable (hk : k ∈ s.opened) (hmade : k ∈ s.made)

include hk hmade

theorem claim (hfree : ¬s.Occupies k)
    (hlistener : (s.socks k).listener = none) (hd : d.listener = none) (hchildren : d.children = (s.socks k).children)
    (hlistens : d.isListener = (s.socks k).isListener) (hqueue : d.acceptQueue = (s.socks k).acceptQueue)
    (out : List Sent) :
    Ports { s with
      socks := Function.update s.socks k d
      bindings := Function.update s.bindings d.boundPort (some k)
      out := out } := by
  refine hports.update_plain hmade rfl rfl hlistener hd (fun p j hj hp => ?_) (fun p hp => ?_) hchildren
    hlistens.trans (fun h => ?_) (fun _ => .inl) (absurd hk)
  · dsimp only at hp
    rw [update_apply] at hp
    split_ifs at hp
    · exact absurd (Option.some.inj hp).symm hj
    · exact hp
  · dsimp only at hp
    rw [update_apply] at hp
    split_ifs at hp with hport
    · exact hport.symm
    · exact absurd hp (hports.free hfree p)
  · rw [hlistens]
    exact hports.requests k (hqueue ▸ h)

theorem bind (htidy : s.Tidy (.bind k port)) : (s.bind k port).2.Ports := by
  rw [Tcp.bind]
  split_ifs with htaken
  · exact hports
  · obtain ⟨hfree, hlistener⟩ := htidy (not_not.mp htaken)
    have hclaim := hports.claim (d := { s.socks k with port := port, boundPort := port }) hk hmade hfree hlistener
      hlistener rfl rfl rfl s.out
    exact hclaim

theorem connect {addr : BitVec 32} {rand : BitVec 32}
    (htidy : s.Tidy (.connect k addr port rand route)) : (s.connect k addr port rand route).2.Ports := by
  obtain ⟨-, hsame⟩ | ⟨p, hwas, -, hconnect⟩ := s.connect_cases k addr port rand route
  · rw [hsame]
    exact hports
  · have hlistener : (s.socks k).listener = none := by
      cases hof : (s.socks k).listener with
      | none => rfl
      | some l => exact absurd (hwas.symm.trans (hports.accepted k l hof).1) false_ne_true
    rw [hconnect]
    exact hports.claim (d := (s.socks k).dial p addr port rand route) hk hmade (htidy hwas) hlistener hlistener rfl rfl
      rfl _

omit hk hmade

theorem listen (backlog : Nat) (hk : k ∈ s.opened) (hmade : k ∈ s.made)
    (hlistener : (s.socks k).listener = none) : (s.listen k backlog).Ports :=
  hports.update_plain (k := k) hmade rfl rfl hlistener hlistener (fun _ _ _ => id) (fun p hp => (hports.bound p k hp).2)
    rfl (fun _ => rfl) (fun _ => rfl) (fun _ => .inl) (absurd hk)

theorem wait {queue : List Request} (hmade : l ∈ s.made) (hlistener : (s.socks l).isListener = true)
    (haccepting : ∀ q ∈ accepting, q ∈ s.accepting ∨ q.1 = l) :
    Ports { s.set l { s.socks l with acceptQueue := queue } with accepting := accepting } := by
  have hplain := hports.listener_eq_none hlistener
  refine hports.update_plain hmade rfl rfl hplain hplain (fun _ _ _ => id)
    (fun p hp => (hports.bound p l hp).2) rfl id (fun _ => hlistener) (fun q hq => ?_)
    fun hclosed hstate hchildren => ?_
  · exact (haccepting q hq).imp_right fun h => ⟨h, hlistener⟩
  · obtain ⟨hfree, hchild⟩ := hports.released l hmade hclosed hstate hchildren
    refine ⟨hfree, fun l' hl' => hchild l' ?_⟩
    rw [set_socks] at hl'
    split_ifs at hl' with h
    · exact h ▸ hl'
    · exact hl'

theorem acceptTake (hmade : k ∈ s.made) : (s.acceptTake k).Ports := by
  rw [Tcp.acceptTake]
  cases hqueue : (s.socks k).acceptQueue with
  | nil => exact hports
  | cons request queue =>
    have hlistener := hports.requests k (by rw [hqueue]; exact cons_ne_nil _ _)
    refine hports.wait hmade hlistener fun q hq => ?_
    obtain hold | hnew := mem_append.mp hq
    · exact .inl hold
    · rw [List.mem_singleton.mp hnew]
      exact .inr rfl

include hk hmade in
theorem adopt (hlistener : (s.socks k).listener = some l)
    (hnew : k ∉ (s.socks l).children) (haccepting : accepting ⊆ s.accepting) :
    Ports { s.set l { s.socks l with children := (s.socks l).children ++ [k] } with accepting := accepting } := by
  obtain ⟨-, hplain, hl, hisListener, -⟩ := hports.accepted k l hlistener
  have hne : k ≠ l := by
    rintro rfl
    exact false_ne_true (hplain.symm.trans hisListener)
  refine hports.update (insert_eq_of_mem hl).symm subset_rfl rfl (fun _ _ _ => id)
    (fun p hp => (hports.bound p l hp).2) (concat_eq_append ▸ (hports.once l).concat hnew) (fun j hj => ?_)
    (fun l' hl' => (hports.child l' l hl').2) (fun l' hl' => ?_) (fun _ => id) (hports.requests l)
    (fun q hq => .inl (haccepting hq)) fun _ _ hnone => absurd hnone (by simp)
  · obtain hold | hj := mem_append.mp hj
    · exact .inl hold
    · rw [List.mem_singleton.mp hj]
      exact .inr ⟨hk, hmade, hne, hlistener⟩
  · cases (hports.listener_eq_none hisListener).symm.trans hl'

theorem acceptDone {i new : Nat} (hi : i < s.accepting.length) (hnew : new ∉ s.made) : (s.acceptDone i new).Ports := by
  obtain ⟨⟨l, request⟩, hrequest⟩ : ∃ q, s.accepting[i]? = some q := ⟨_, getElem?_eq_getElem hi⟩
  obtain ⟨hl, hlistener⟩ := hports.accepting (l, request) (mem_of_getElem? hrequest)
  have hne : l ≠ new := ne_of_mem_of_not_mem hl hnew
  have hcreate : (s.create new (s.childOf l request)).Ports := by
    refine hports.update rfl (subset_insert new s.opened) rfl (fun _ _ _ => id)
      (fun p hp => absurd (hports.bound p new hp).1 hnew) nodup_nil nofun
      (fun l' hl' => absurd (hports.child l' new hl').1 hnew) (fun l' hl' => ?_) (fun h => absurd h hnew)
      (fun h => absurd rfl h) (fun _ => .inl) (absurd (mem_insert_self new s.opened))
    cases hl'
    exact ⟨rfl, rfl, hl, hlistener, fun p hp => hnew (hports.bound p new hp).1⟩
  have hself : (s.create new (s.childOf l request)).socks new = s.childOf l request := update_self ..
  have hother : (s.create new (s.childOf l request)).socks l = s.socks l := update_of_ne hne ..
  rw [Tcp.acceptDone, hrequest]
  refine hcreate.adopt (mem_insert_self ..) (mem_insert_self ..) ?_ ?_ eraseIdx_subset
  · rw [hself]
    rfl
  · rw [hother]
    exact fun h => hnew (hports.child l new h).1

end

variable {siphash : BitVec 32 → BitVec 32 → BitVec 32 → BitVec 32 → BitVec 32} {op : TcpOp}

include hports

theorem handle {seg : Segment} {time : Nat} (htidy : s.Tidy (.segment seg time route)) :
    (s.handle siphash seg time route).Ports := by
  obtain ⟨o, -, -, hhandle⟩ | ⟨l, hbound, hlistener, -, -, -, -, -, hhandle⟩ | ⟨k, htarget, -, hhandle⟩ :=
    handle_cases siphash s seg time route
  · rw [hhandle, emit_eq]
    exact { hports with }
  · rw [hhandle]
    exact hports.wait (hports.bound _ l hbound).1 hlistener fun _ => .inl
  · rw [hhandle]
    exact hports.deliver route fun hreset => htidy hreset k htarget

theorem call (hopened : s.opened ⊆ s.made) (hpossible : s.Possible op) (htidy : s.Tidy op) :
    (s.call siphash op).Ports := by
  cases op with
  | socket k => exact hports.socket hpossible
  | bind k port => exact hports.bind hpossible (hopened hpossible) htidy
  | listen k backlog => exact hports.listen backlog hpossible (hopened hpossible) htidy
  | connect k addr port rand route => exact hports.connect hpossible (hopened hpossible) htidy
  | acceptTake k => exact hports.acceptTake (hopened hpossible)
  | acceptDone i new => exact hports.acceptDone hpossible.1 hpossible.2
  | segment seg time route => exact hports.handle htidy
  | send k msg route =>
    obtain ⟨sn, out, hsend⟩ := s.sendto_eq k msg route
    refine hports.lighter_of_opened (lighter_sendto s k msg route) hpossible.1 fun j hj => ?_
    rw [Tcp.call, hsend]
    exact update_of_ne hj ..
  | recv k len dontwait =>
    exact hports.lighter_of_opened (lighter_recvfrom s k len dontwait) hpossible fun j hj => update_of_ne hj ..
  | shutdown k rd wr route => exact hports.shutdown hpossible rd wr route
  | close k route => exact hports.close hpossible htidy

end Ports

/-- A port of the table is the `bound_port` of its socket, and nothing refers to a closed socket without connection and
children. -/
theorem port_table {siphash : BitVec 32 → BitVec 32 → BitVec 32 → BitVec 32 → BitVec 32} {s : Tcp} {ops : List TcpOp}
    (hrun : Run (step siphash) Tidy start ops s) :
    (∀ p k, s.bindings p = some k → (s.socks k).boundPort = p) ∧
    (∀ p q k, s.bindings p = some k → s.bindings q = some k → p = q) ∧
    ∀ k ∈ s.made, k ∉ s.opened → (s.socks k).state = .unconnected → (s.socks k).children = [] →
      (∀ p, s.bindings p ≠ some k) ∧ ∀ l, k ∉ (s.socks l).children := by
  have hinv := hrun.invariant (fun s => s.Ports ∧ s.opened ⊆ s.made) (fun s op t hs htidy hstep => ?_)
    ⟨ports_start, Finset.Subset.refl _⟩
  · refine ⟨fun p k hp => (hinv.1.bound p k hp).2, fun p q k hp hq => ?_, hinv.1.released⟩
    exact (hinv.1.bound p k hp).2.symm.trans (hinv.1.bound q k hq).2
  · rw [step] at hstep
    split_ifs at hstep with hpossible
    cases hstep
    exact ⟨hs.1.call hs.2 hpossible htidy, opened_subset_made_call hs.2⟩

/-- A client connects from port 49152 and closes, and the peer closes: the port is free again. -/
theorem port_table_client :
    ∃ s, Run (step fun _ _ _ _ => 0) Tidy start [.socket 0, .connect 0 1 80 100 true,
        .segment ⟨1, 2, 80, 49152, 500, 101, { syn := true, ack := true }, []⟩ 0 true, .close 0 true,
        .segment ⟨1, 2, 80, 49152, 501, 102, { ack := true }, []⟩ 0 true,
        .segment ⟨1, 2, 80, 49152, 501, 102, { fin := true, ack := true }, []⟩ 0 true] s ∧
      (s.socks 0).boundPort = 49152 ∧ (∀ p, s.bindings p ≠ some 0) ∧ ∀ l, 0 ∉ (s.socks l).children := by
  refine exists_run_of_replay_imp (fun s => (s.socks 0).boundPort = 49152 ∧ 0 ∈ s.made ∧ 0 ∉ s.opened ∧
    (s.socks 0).state = .unconnected ∧ (s.socks 0).children = []) ?_
    fun s hrun ⟨hport, hmade, hclosed, hstate, hchildren⟩ =>
    ⟨hport, (port_table hrun).2.2 0 hmade hclosed hstate hchildren⟩
  decide +kernel

/-- A socket that is bound and connects has two ports. A client that is reset and closed keeps its port. -/
theorem closed_socket_keeps_port :
    (∃ s, Run (step fun _ _ _ _ => 0) (fun _ _ => True) start [.socket 0, .bind 0 80, .connect 0 1 80 100 true] s ∧
      s.bindings 80 = some 0 ∧ s.bindings 49152 = some 0 ∧ (s.socks 0).boundPort = 49152) ∧
    ∃ s, Run (step fun _ _ _ _ => 0) (fun _ _ => True) start [.socket 0, .connect 0 1 80 100 true,
        .segment ⟨1, 2, 80, 49152, 500, 101, { syn := true, ack := true }, []⟩ 0 true,
        .segment ⟨1, 2, 80, 49152, 501, 101, { rst := true }, []⟩ 0 true, .close 0 true] s ∧
      0 ∈ s.made ∧ 0 ∉ s.opened ∧ (s.socks 0).state = .unconnected ∧ (s.socks 0).children = [] ∧
      s.bindings 49152 = some 0 := by
  constructor
  · apply exists_run_of_replay
    decide
  · apply exists_run_of_replay
    decide

end Tcp

end Kairax.Net
