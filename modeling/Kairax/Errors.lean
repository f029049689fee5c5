import Mathlib.Data.Int.Notation

/-!
# Error numbers

The numbers of `errors.h` that the modelled functions return, most of them negated.
-/

namespace Kairax

def enoent : Int := 2
def eintr : Int := 4
def eio : Int := 5
def enxio : Int := 6
def e2big : Int := 7
def errorArgsBufferBig : Int := 7
def errorBadExecFormat : Int := 8
def errorBadFd : Int := 9
def eagain : Int := 11
def enomem : Int := 12
def eacces : Int := 13
def efault : Int := 14
def eexist : Int := 17
def errorAlreadyExists : Int := 17
def errorNotADirectory : Int := 20
def errorIsDirectory : Int := 21
def einval : Int := 22
def errorTooManyOpenFiles : Int := 24
def enospc : Int := 28
def epipe : Int := 32
def eaddrinuse : Int := 98
def eaddrnotavail : Int := 99
def econnreset : Int := 104
def eisconn : Int := 106
def enotconn : Int := 107
def enetunreach : Int := 113

end Kairax
