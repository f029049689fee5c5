import Kairax.Net.Tcp

/-!
# What the calls keep

Most of the calls and the handler of segments change a connection and its numbers, and otherwise only let go of
something: a port, a child, a request that waits. What they keep is said here once for all of them.
-/

namespace Kairax.Net

open Lib Ipc Function

/-- The part of a socket that only bind, listen, connect and accept write. -/
def TcpSocket.fixed (d : TcpSocket) : TcpSocket :=
  { d with
    state := .unconnected
    sn := 0
    ack := 0
    wasConnected := false
    isRst := false
    shutRd := false
    shutWr := false
    acceptQueue := []
    children := []
    rxQueue := [] }

namespace Tcp

structure Lighter (s t : Tcp) : Prop where
  files : t.files = s.files
  bindings : ∀ p k, t.bindings p = some k → s.bindings p = some k
  fixed : ∀ k, (t.socks k).fixed = (s.socks k).fixed
  was : ∀ k, (s.socks k).wasConnected = true → (t.socks k).wasConnected = true
  queue : ∀ l, (t.socks l).acceptQueue.Sublist (s.socks l).acceptQueue
  children : ∀ l, (t.socks l).children.Sublist (s.socks l).children

variable {s t u : Tcp} {k l : Nat} {d : TcpSocket}

theorem Lighter.trans (hst : Lighter s t) (htu : Lighter t u) : Lighter s u :=
  ⟨htu.files.trans hst.files, fun p k hk => hst.bindings p k (htu.bindings p k hk),
    fun k => (htu.fixed k).trans (hst.fixed k), fun k hk => htu.was k (hst.was k hk),
    fun l => (htu.queue l).trans (hst.queue l), fun l => (htu.children l).trans (hst.children l)⟩

theorem Lighter.listener (hlighter : Lighter s t) (k : Nat) : (t.socks k).listener = (s.socks k).listener :=
  (congrArg TcpSocket.listener (hlighter.fixed k) :)

theorem Lighter.isListener (hlighter : Lighter s t) (k : Nat) : (t.socks k).isListener = (s.socks k).isListener :=
  (congrArg TcpSocket.isListener (hlighter.fixed k) :)

theorem Lighter.boundPort (hlighter : Lighter s t) (k : Nat) : (t.socks k).boundPort = (s.socks k).boundPort :=
  (congrArg TcpSocket.boundPort (hlighter.fixed k) :)

theorem Lighter.of_update (hfiles : t.files = s.files)
    (hbindings : ∀ p k, t.bindings p = some k → s.bindings p = some k)
    (hsocks : t.socks = update s.socks k d) (hfixed : d.fixed = (s.socks k).fixed)
    (hwas : (s.socks k).wasConnected = true → d.wasConnected = true)
    (hqueue : d.acceptQueue.Sublist (s.socks k).acceptQueue) (hchildren : d.children.Sublist (s.socks k).children) :
    Lighter s t := by
  have hself : t.socks k = d := by rw [hsocks, update_self]
  have hother (j : Nat) (hj : j ≠ k) : t.socks j = s.socks j := by rw [hsocks, update_of_ne hj]
  refine ⟨hfiles, hbindings, fun j => ?_, fun j => ?_, fun j => ?_, fun j => ?_⟩
  all_goals by_cases hj : j = k
  · rw [hj, hself, hfixed]
  · rw [hother j hj]
  · rw [hj, hself]
    exact hwas
  · rw [hother j hj]
    exact id
  · rw [hj, hself]
    exact hqueue
  · rw [hother j hj]
  · rw [hj, hself]
    exact hchildren
  · rw [hother j hj]

theorem lighter_set (s : Tcp) (hfixed : d.fixed = (s.socks k).fixed)
    (hwas : (s.socks k).wasConnected = true → d.wasConnected = true)
    (hqueue : d.acceptQueue.Sublist (s.socks k).acceptQueue) (hchildren : d.children.Sublist (s.socks k).children) :
    Lighter s (s.set k d) :=
  .of_update rfl (fun _ _ => id) rfl hfixed hwas hqueue hchildren

theorem lighter_set_conn (s : Tcp) (hfixed : d.fixed = (s.socks k).fixed)
    (hwas : d.wasConnected = (s.socks k).wasConnected) (hqueue : d.acceptQueue = (s.socks k).acceptQueue)
    (hchildren : d.children = (s.socks k).children) : Lighter s (s.set k d) :=
  lighter_set s hfixed hwas.trans (hqueue ▸ List.Sublist.refl _) (hchildren ▸ List.Sublist.refl _)

theorem lighter_refl (s : Tcp) : Lighter s s :=
  ⟨rfl, fun _ _ => id, fun _ => rfl, fun _ => id, fun _ => .refl _, fun _ => .refl _⟩

theorem bindings_unbindSock (s : Tcp) (k : Nat) (p : BitVec 16) :
    (s.unbindSock k).bindings p = if p = (s.socks k).boundPort ∧ s.bindings p = some k then none else s.bindings p := by
  rw [unbindSock]
  by_cases hbound : s.bindings (s.socks k).boundPort = some k
  · rw [if_pos hbound]
    dsimp only
    rw [update_apply]
    by_cases hp : p = (s.socks k).boundPort
    · rw [if_pos hp, if_pos ⟨hp, hp ▸ hbound⟩]
    · rw [if_neg hp, if_neg fun h => hp h.1]
  · have hfree : ¬(p = (s.socks k).boundPort ∧ s.bindings p = some k) := fun h => hbound (h.1 ▸ h.2)
    rw [if_neg hbound, if_neg hfree]

theorem bindings_of_unbindSock {p : BitVec 16} {j : Nat} (hbound : (s.unbindSock k).bindings p = some j) :
    s.bindings p = some j := by
  rw [bindings_unbindSock] at hbound
  split_ifs at hbound
  exact hbound

theorem bindings_of_ite {c : Prop} [Decidable c] {p : BitVec 16} {j : Nat}
    (hbound : (if c then (s.unbindSock k).bindings else s.bindings) p = some j) : s.bindings p = some j := by
  split_ifs at hbound
  · exact bindings_of_unbindSock hbound
  · exact hbound

theorem socks_unbindSock (s : Tcp) (k : Nat) : (s.unbindSock k).socks = s.socks := by rw [unbindSock_eq]

theorem lighter_unbindSock (s : Tcp) (k : Nat) : Lighter s (s.unbindSock k) := by
  have hlighter := lighter_refl s
  rw [unbindSock_eq]
  exact { hlighter with files := rfl, bindings := fun _ _ => bindings_of_unbindSock }

theorem lighter_emit (s : Tcp) (route : Bool) (o : Sent) : Lighter s (s.emit route o) := by
  have hlighter := lighter_refl s
  rw [emit_eq]
  exact { hlighter with files := rfl }

theorem lighter_listenerRemove (s : Tcp) (l k : Nat) : Lighter s (s.listenerRemove l k) := by
  have hset : Lighter s (s.set l { s.socks l with children := (s.socks l).children.erase k }) :=
    lighter_set s rfl id (.refl _) List.erase_sublist
  rw [listenerRemove]
  split_ifs
  · exact hset.trans (lighter_unbindSock _ l)
  · exact hset

section

variable (s : Tcp) (k : Nat)

theorem lighter_destroy : Lighter s (s.destroy k) := by
  have hset : Lighter s (s.set k { s.socks k with state := .unconnected }) := lighter_set_conn s rfl rfl rfl rfl
  rw [destroy]
  split
  · exact hset.trans (lighter_listenerRemove _ _ k)
  · exact hset.trans (lighter_unbindSock _ k)

theorem lighter_answer (seg : Segment) (route : Bool) : Lighter s (s.answer k seg route) := by
  obtain ⟨_, _, _, was, _, _, _, hdata⟩ := (s.socks k).receive_eq seg
  rw [answer_eq, hdata]
  refine .of_update rfl (fun _ _ => id) rfl rfl (fun hwas => ?_) (.refl _) (.refl _)
  rw [hwas, Bool.or_true]

theorem lighter_deliver (seg : Segment) (route : Bool) : Lighter s (s.deliver k seg route) := by
  rw [deliver]
  split_ifs
  · exact (lighter_answer s k seg route).trans (lighter_destroy _ k)
  · exact lighter_answer s k seg route

theorem lighter_shutdown (rd wr route : Bool) : Lighter s (s.shutdown k rd wr route) := by
  have hdata : ∃ state sn shutRd shutWr, (s.socks k).shut rd wr route =
      { s.socks k with state := state, sn := sn, shutRd := shutRd, shutWr := shutWr } := by
    cases rd <;> cases wr <;> exact ⟨_, _, _, _, rfl⟩
  obtain ⟨_, _, _, _, hdata⟩ := hdata
  rw [shutdown_eq, hdata]
  exact .of_update rfl (fun _ _ => bindings_of_ite) rfl rfl id (.refl _) (.refl _)

theorem lighter_close (route : Bool) : Lighter s (s.close k route) := by
  have hdata : ∃ state sn shutRd shutWr acceptQueue rxQueue, (s.socks k).closed route = { s.socks k with
      state := state, sn := sn, shutRd := shutRd, shutWr := shutWr, acceptQueue := acceptQueue, rxQueue := rxQueue } ∧
      acceptQueue.Sublist (s.socks k).acceptQueue := by
    rw [TcpSocket.closed]
    split_ifs
    · exact ⟨_, _, _, _, _, _, rfl, List.nil_sublist _⟩
    · exact ⟨_, _, _, _, _, _, rfl, List.Sublist.refl _⟩
  obtain ⟨_, _, _, _, _, _, hdata, hqueue⟩ := hdata
  rw [close_eq, hdata]
  exact .of_update rfl (fun _ _ => bindings_of_ite) rfl rfl id hqueue (.refl _)

theorem sendto_eq (msg : List Byte) (route : Bool) :
    ∃ sn out, (s.sendto k msg route).2 = { s.set k { s.socks k with sn := sn } with out := out } := by
  have hsame : s = { s.set k { s.socks k with sn := (s.socks k).sn } with out := s.out } := by
    rw [set, update_eq_self]
  rw [sendto]
  split_ifs
  · exact ⟨_, _, hsame⟩
  · exact ⟨_, _, hsame⟩
  · exact ⟨_, _, hsame⟩
  · exact ⟨_, _, hsame⟩
  · exact ⟨_, _, rfl⟩
  · exact ⟨_, _, hsame⟩

theorem lighter_sendto (msg : List Byte) (route : Bool) : Lighter s (s.sendto k msg route).2 := by
  obtain ⟨sn, out, hsend⟩ := s.sendto_eq k msg route
  rw [hsend]
  exact .of_update rfl (fun _ _ => id) rfl rfl id (.refl _) (.refl _)

end

theorem lighter_recvfrom (s : Tcp) (k len : Nat) (dontwait : Bool) :
    Lighter s (s.set k ((s.socks k).recvfrom len dontwait).2) := by
  obtain ⟨queue, hdata⟩ := (s.socks k).recvfrom_eq len dontwait
  rw [hdata]
  exact lighter_set_conn s rfl rfl rfl rfl

end Tcp

end Kairax.Net
