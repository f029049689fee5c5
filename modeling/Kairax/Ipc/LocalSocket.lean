import Kairax.Ipc.Socket
import Kairax.Lib.RefCount
import Kairax.Lib.Run
import Mathlib.Algebra.BigOperators.Group.Finset.Basic

/-!
# Local sockets

The sockets of the family `AF_LOCAL`. A reference is held by the inode of the socket, by each inode that it is bound
to, by each entry for it in a backlog, and by each socket that has it as its peer.
-/

namespace Kairax.Ipc

open Lib Function

abbrev Bucket := Buffer

/-- `struct local_socket` with the type and the state of its `struct socket`. `ops` is the type that
`local_sock_create` was given; `type` is 0 for a socket that `sock_local_accept` made, as only `socket_init` sets it. -/
structure LocalSocket where
  type : Option SockType
  ops : SockType
  state : SockState
  boundInode : Option Nat
  backlogSz : Nat
  backlog : List Nat
  rxQueue : List Bucket
  rxAvailable : Nat
  peer : Option Nat
  connectionAccepted : Bool
  peerDisconnected : Bool
  deriving DecidableEq

/-- `new_socket` and `new_local_socket` -/
def LocalSocket.new (type : SockType) : LocalSocket :=
  ⟨some type, type, .unconnected, none, 0, [], [], 0, none, false, false⟩

/-- The counters of the sockets and their data, those made and those open, and the socket behind each inode. -/
structure Locals where
  cells : Nat → Cell
  socks : Nat → LocalSocket
  made : Finset Nat
  opened : Finset Nat
  files : Finset Nat
  inodes : Nat → Option Nat

def Locals.start : Locals := ⟨fun _ => .fresh, fun _ => .new .stream, ∅, ∅, ∅, fun _ => none⟩

namespace Locals

def deref (s : Locals) (k : Nat) : Option LocalSocket :=
  match s.cells k with
  | .live _ => some (s.socks k)
  | _ => none

def set (s : Locals) (k : Nat) (d : LocalSocket) : Locals := { s with socks := update s.socks k d }

/-- `acquire_socket` -/
def acquire (s : Locals) (k : Nat) : Option Locals := (Lib.acquire s.cells k).map fun cells => { s with cells := cells }

/-- `free_socket` -/
def release (s : Locals) (k : Nat) : Option Locals := (Lib.release s.cells k).map fun cells => { s with cells := cells }

/-- `new_socket` with the data that the socket gets. Its own inode has the first reference. -/
def make (s : Locals) (k : Nat) (d : LocalSocket) : Option Locals :=
  acquire { s with
    cells := create s.cells k
    socks := update s.socks k d
    made := insert k s.made
    opened := insert k s.opened } k

/-- `sock_local_bind` to a path. The file is made, so its inode is new; a path that is there already is
refused. -/
def bind (s : Locals) (k i : Nat) : Option Locals :=
  if i ∈ s.files then some s
  else (s.acquire k).bind fun s => (s.deref k).map fun d =>
    { s.set k { d with boundInode := some i } with
      files := insert i s.files
      inodes := update s.inodes i (some k) }

/-- `sock_local_listen` -/
def listen (s : Locals) (k backlog : Nat) : Option Locals :=
  (s.deref k).map fun d =>
    if d.state ≠ .unconnected then s else s.set k { d with backlogSz := backlog, state := .listen }

/-- `socket_local_append_to_backlog` -/
def appendToBacklog (s : Locals) (server k : Nat) : Option Locals :=
  (s.deref server).bind fun d =>
    if d.backlog.length < d.backlogSz then
      (s.acquire k).map fun s => s.set server { d with backlog := d.backlog ++ [k] }
    else some s

/-- `sock_local_connect` up to where it sleeps. The state is not changed: line 239 compares. -/
def connect (s : Locals) (k i : Nat) : Option Locals :=
  (s.deref k).bind fun d =>
    if d.state ≠ .unconnected then some s
    else
      let s := s.set k { d with connectionAccepted := false }
      match s.inodes i with
      | none => some s
      | some server => (s.deref server).bind fun d =>
        if d.state ≠ .listen then some s else s.appendToBacklog server k

/-- The rest of `sock_local_connect`. -/
def connected (s : Locals) (k : Nat) : Option Locals :=
  (s.deref k).map fun d => if d.connectionAccepted then s.set k { d with state := .connected } else s

/-- The rest of `sock_local_accept`, with the client that was taken from the queue. -/
def acceptClient (s : Locals) (client new : Nat) (type : SockType) : Option Locals :=
  (s.deref client).bind fun _ =>
    (s.make new { LocalSocket.new type with type := none, peer := some client, state := .connected }).bind fun s =>
      (s.acquire client).bind fun s => (s.acquire new).bind fun s =>
        (s.deref client).bind fun c =>
          release (s.set client { c with peer := some new, connectionAccepted := true }) client

/-- `sock_local_accept` with the socket that it makes. Where the type of the listener is not set `local_sock_create`
fails, and the data of the new socket is written through NULL. -/
def accept (s : Locals) (k new : Nat) : Option Locals :=
  (s.deref k).bind fun d =>
    match d.backlog with
    | [] => some s
    | client :: backlog => d.type.bind fun type =>
      (s.set k { d with backlog := backlog }).acceptClient client new type

/-- `sock_local_connect_dgram` -/
def connectDgram (s : Locals) (k i : Nat) : Option Locals :=
  (s.deref k).bind fun d =>
    match s.inodes i with
    | none => some s
    | some peer => (s.deref peer).bind fun p =>
      if p.type ≠ some .dgram then some s
      else if some peer = d.peer then some (s.set k { d with state := .connected })
      else (s.acquire peer).bind fun s =>
        let s := s.set k { d with peer := some peer, state := .connected }
        (releaseSlot s.cells d.peer).map fun cells => { s with cells := cells }

/-- `socket_pair` -/
def pair (s : Locals) (k₁ k₂ : Nat) (type : SockType) : Option Locals :=
  (s.make k₁ (.new type)).bind fun s => (s.make k₂ (.new type)).bind fun s =>
    let s := s.set k₁ { LocalSocket.new type with peer := some k₂, state := .connected }
    (s.acquire k₂).bind fun s =>
      let s := s.set k₂ { LocalSocket.new type with peer := some k₁, state := .connected }
      s.acquire k₁

/-- The beginning of `sock_local_close`: the peer is cut off, and then written to. -/
def disconnect (s : Locals) (k : Nat) (d : LocalSocket) : Option Locals :=
  match d.peer with
  | none => some s
  | some peer => (s.deref peer).bind fun _ =>
    (release (s.set k { d with peer := none }) peer).bind fun s => (s.deref peer).bind fun p =>
      release (s.set peer { p with peerDisconnected := true, peer := none, state := .unconnected }) k

def unbind (s : Locals) (boundInode : Option Nat) : Option Locals :=
  match boundInode with
  | none => some s
  | some i => (s.inodes i).bind fun k => (s.release k).map fun s =>
    { s with inodes := update s.inodes i none }

/-- `sock_local_close`. The queue of connections is only looked at if the socket still listens. -/
def closeLocal (s : Locals) (k : Nat) : Option Locals :=
  (s.deref k).bind fun d => (s.disconnect k d).bind fun s =>
    (s.unbind d.boundInode).bind fun s => (s.deref k).bind fun d =>
      let backlog := if d.state = .listen then d.backlog else []
      (backlog.foldlM release (s.set k { d with
        rxQueue := []
        backlog := if d.state = .listen then [] else d.backlog
        state := .unconnected }))

/-- `socket_close` -/
def close (s : Locals) (k : Nat) : Option Locals :=
  (s.closeLocal k).bind fun s => release { s with opened := s.opened.erase k } k

end Locals

inductive LocalOp
  | socket (k : Nat) (type : SockType)
  | bind (k i : Nat)
  | listen (k backlog : Nat)
  | connect (k i : Nat)
  | connected (k : Nat)
  | accept (k new : Nat)
  | pair (k₁ k₂ : Nat) (type : SockType)
  | close (k : Nat)

namespace Locals

/-- Calls are made through files that are open, and sockets are made where there was none. -/
def Possible (s : Locals) : LocalOp → Prop
  | .socket k _ => k ∉ s.made
  | .bind k _ => k ∈ s.opened
  | .listen k _ => k ∈ s.opened
  | .connect k _ => k ∈ s.opened
  | .connected k => k ∈ s.opened
  | .accept k new => k ∈ s.opened ∧ new ∉ s.made
  | .pair k₁ k₂ _ => k₁ ∉ s.made ∧ k₂ ∉ s.made ∧ k₁ ≠ k₂
  | .close k => k ∈ s.opened

instance decidablePossible (s : Locals) (op : LocalOp) : Decidable (s.Possible op) := by
  cases op <;> (unfold Possible; infer_instance)

/-- The functions that the socket was given. Only stream sockets listen and accept. -/
def call (s : Locals) : LocalOp → Option Locals
  | .socket k type => s.make k (.new type)
  | .bind k i => s.bind k i
  | .listen k backlog => if (s.socks k).ops = .stream then s.listen k backlog else some s
  | .connect k i => if (s.socks k).ops = .stream then s.connect k i else s.connectDgram k i
  | .connected k => if (s.socks k).ops = .stream then s.connected k else some s
  | .accept k new => if (s.socks k).ops = .stream then s.accept k new else some s
  | .pair k₁ k₂ type => s.pair k₁ k₂ type
  | .close k => s.close k

def step (s : Locals) (op : LocalOp) : Option Locals := if s.Possible op then s.call op else none

end Locals

end Kairax.Ipc
