import TftpHpa.Lib.Transition
import TftpHpa.Io.Basic

/-! Parameters and results of the transfer engine (`common/tftp-xfer.h`). The
engine is a coroutine: it runs from one callback to the next, and the outcome of
the callback, which is all it learns of its environment, is the label of the step. -/

namespace TftpHpa

/-- `enum tftp_xfer_status`. -/
inductive XferStatus where
  | ok | sendError | recvError | readError | writeError | badData | sizeExceeded | peerError
  deriving DecidableEq, Repr

/-- `struct tftp_xfer_result`. -/
structure XferResult where
  status : XferStatus
  error : ℤ := 0
  bytes : UInt64
  packet : Option Packet := none
  lastBlock : UInt16 := 0
  deriving DecidableEq

/-- The negotiated parameters of `struct tftp_xfer`. -/
structure Xfer where
  blocksize : ℕ
  windowsize : ℕ
  maxBytes : UInt64 := 0xffffffffffffffff
  rollover : UInt16 := 0
  resendOack : Bool := false

/-- `if (!errno) errno = EIO`. -/
def orEio (e : ℤ) : ℤ := if e = 0 then EIO else e

end TftpHpa
