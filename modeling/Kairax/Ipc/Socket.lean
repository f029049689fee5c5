import Kairax.Errors
import Kairax.Lib.Bytes

/-!
# Sockets

What the sockets of all families have in common.
-/

namespace Kairax.Ipc

inductive SockState
  | unconnected
  | listen
  | connecting
  | connected
  | closing
  | closeWait
  | lastAck
  | finWait1
  | finWait2
  deriving DecidableEq, Repr

inductive SockType
  | stream
  | dgram
  | raw
  deriving DecidableEq, Repr

end Kairax.Ipc
