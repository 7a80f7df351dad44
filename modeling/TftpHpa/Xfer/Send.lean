import TftpHpa.Xfer.Basic
import TftpHpa.Io.Reader

/-! `tftp_xfer_send` over the reading ring. The program counter names the callback
the engine calls next; `siglongjmp` from a timed-out `recv` leads back to the
`retry_enter` after the `sigsetjmp` of the current window. -/

namespace TftpHpa

open TftpIo (ReaderThread)

/-- The callback `tftp_xfer_send` is about to call. -/
inductive SendPc where
  | readWindow
  | retryEnter (restarted : Bool)
  | send (n : ℕ)
  | recv
  | release
  | done (result : XferResult)
  deriving DecidableEq

structure SendState where
  io : TftpIo
  thread : ReaderThread
  /-- The number the next new packet is stamped with. -/
  block : UInt16 := 1
  bytes : UInt64 := 0
  packetCount : ℕ := 0
  final : Bool := false
  pc : SendPc := .readWindow

/-- What a callback of the sender was called with and what it returned. -/
inductive SendLabel where
  | thread
  | window (count : ℕ) (final : Bool)
  | windowFailed (error : ℤ)
  | entered (restarted : Bool)
  | sent (p : Packet)
  | sendFailed (p : Packet) (error : ℤ)
  | received (p : Packet)
  | recvFailed (error : ℤ)
  | timeout
  | released

namespace SendState

/-- `finish`. -/
def finish (s : SendState) (status : XferStatus) (error : ℤ) (packet : Option Packet := none) :
    SendState :=
  { s with pc := .done { status, error, packet, bytes := s.bytes } }

/-- The packet `send` is called with for packet `n` of the window. -/
def packetAt (s : SendState) (n : ℕ) : Option Packet :=
  match s.io.readPacket n, s.io.readLength n with
  | some dp, some size => some (dp.bytes size)
  | _, _ => none

end SendState

/-- Stamp the headers of packets `n`, ..., `n + k - 1`; `none` when `read_packet` fails. -/
def stampWindow (x : Xfer) : ℕ → ℕ → TftpIo → UInt16 → Option (TftpIo × UInt16)
  | 0, _, io, block => some (io, block)
  | k + 1, n, io, block =>
    match io.readPacket n with
    | none => none
    | some _ =>
      stampWindow x k (n + 1) (io.writeHeader n Opcode.data.code block) (nextBlock block x.rollover)

/-- The `resend_window` loop at packet `n`: check the packet and send it, or wait
for an ACK after the last one. -/
def sendFrom (x : Xfer) (s : SendState) (n : ℕ) : SendState :=
  if n < s.packetCount then
    match s.io.readPacket n, s.io.readLength n with
    | some _, some size =>
      if size < 4 ∨ x.blocksize + 4 < size then s.finish .readError EIO else { s with pc := .send n }
    | _, _ => s.finish .readError EINVAL
  else { s with pc := .recv }

/-- To show something of the state from which packet `n` is sent. -/
theorem sendFrom_rule {P : SendState → Prop} {x : Xfer} {s : SendState} {n : ℕ}
    (hread : n < s.packetCount → ∀ e, P (s.finish .readError e))
    (hsend : n < s.packetCount → P { s with pc := .send n }) (hrecv : P { s with pc := .recv }) :
    P (sendFrom x s n) := by
  unfold sendFrom
  split_ifs with hn
  · split
    · split_ifs
      · exact hread hn _
      · exact hsend hn
    · exact hread hn _
  · exact hrecv

/-- Look for a block number among packets `n`, ..., `n + k - 1`. -/
def scanAck (io : TftpIo) (block : UInt16) : ℕ → ℕ → Except ℤ (Option ℕ)
  | 0, _ => .ok none
  | k + 1, n =>
    match io.readPacket n with
    | none => .error EINVAL
    | some dp => if block = dp.block then .ok (some n) else scanAck io block k (n + 1)

/-- `bytes` after adding the data lengths of packets `n`, ..., `n + k - 1`. -/
def addLengths (io : TftpIo) : ℕ → ℕ → UInt64 → UInt64
  | 0, _, bytes => bytes
  | k + 1, n, bytes =>
    let length : ℤ := match io.readLength n with
      | some length => length
      | none => -1
    addLengths io k (n + 1) (bytes + UInt64.ofInt (length - 4))

/-- A datagram while waiting for the ACK of the window. -/
def sendReceived (x : Xfer) (s : SendState) (p : Packet) : SendState :=
  if p.length < 4 then s
  else if p.opcode = Opcode.error.code then s.finish .peerError 0 (some p)
  else
    match s.io.readPacket (s.packetCount - 1) with
    | none => s.finish .readError EINVAL
    | some dp =>
      if p.opcode = Opcode.ack.code ∧ p.block = dp.block then
        { s with bytes := addLengths s.io s.packetCount 0 s.bytes, pc := .release }
      else if p.opcode = Opcode.oack.code ∧ x.resendOack then sendFrom x s 0
      else if p.opcode = Opcode.ack.code then
        -- an ACK within the window confirms a prefix: only the rest is sent again
        match scanAck s.io p.block (s.packetCount - 1) 0 with
        | .error e => s.finish .readError e
        | .ok (some n) => sendFrom x s (n + 1)
        | .ok none => s
      else s

/-- To show something of the state after a datagram. -/
theorem sendReceived_rule {P : SendState → Prop} {x : Xfer} {s : SendState} {p : Packet} (hignore : P s)
    (herror : P (s.finish .peerError 0 (some p))) (hread : ∀ e, P (s.finish .readError e))
    (hacked : P { s with bytes := addLengths s.io s.packetCount 0 s.bytes, pc := .release })
    (hagain : ∀ n, P (sendFrom x s n)) : P (sendReceived x s p) := by
  unfold sendReceived
  by_cases hshort : p.length < 4
  · rwa [if_pos hshort]
  rw [if_neg hshort]
  by_cases herr : p.opcode = Opcode.error.code
  · rwa [if_pos herr]
  rw [if_neg herr]
  split
  · exact hread _
  · split_ifs
    · exact hacked
    · exact hagain 0
    · split
      · exact hread _
      · exact hagain _
      · exact hignore
    · exact hignore

/-- A window has been handed out: stamp it and enter its retry loop. -/
def sendWindow (x : Xfer) (s : SendState) (io : TftpIo) (count : ℕ) (final : Bool) : SendState :=
  let s := { s with io, packetCount := count, final }
  if count = 0 ∨ x.windowsize < count then s.finish .readError EIO
  else
    match stampWindow x count 0 io s.block with
    | none => s.finish .readError EINVAL
    | some (io, block) => { s with io, block, pc := .retryEnter false }

/-- To show something of the state in which a window has been handed out. -/
theorem sendWindow_rule {P : SendState → Prop} {x : Xfer} {s : SendState} {io : TftpIo} {count : ℕ} {final : Bool}
    (hread : ∀ e, P ({ s with io, packetCount := count, final }.finish .readError e))
    (henter : count ≤ x.windowsize → ∀ io block,
      P { s with io, packetCount := count, final, block, pc := .retryEnter false }) :
    P (sendWindow x s io count final) := by
  unfold sendWindow
  dsimp only
  split_ifs with hcount
  · exact hread _
  · split
    · exact hread _
    · exact henter (by omega) _ _

/-- `tftp_xfer_send`, from one callback to the next. -/
def sendStep (x : Xfer) (s : SendState) : SendLabel → Option SendState
  | .thread => (s.io.readerThread s.thread).map fun r => { s with io := r.1, thread := r.2 }
  | .window count final =>
    match s.pc, s.io.readWindow with
    | .readWindow, some (.ok r, io) => if r = (count, final) then sendWindow x s io count final else none
    | _, _ => none
  | .windowFailed e =>
    match s.pc, s.io.readWindow with
    | .readWindow, some (.error e', io) =>
      if e = e' then some ({ s with io }.finish .readError (orEio e)) else none
    | _, _ => none
  | .entered restarted =>
    match s.pc with
    | .retryEnter r => if r = restarted then some (sendFrom x s 0) else none
    | _ => none
  | .sent p =>
    match s.pc with
    | .send n => if s.packetAt n = some p then some (sendFrom x s (n + 1)) else none
    | _ => none
  | .sendFailed p e =>
    match s.pc with
    | .send n => if s.packetAt n = some p then some (s.finish .sendError e) else none
    | _ => none
  | .received p =>
    match s.pc with
    | .recv => some (sendReceived x s p)
    | _ => none
  | .recvFailed e =>
    match s.pc with
    | .recv => some (s.finish .recvError e)
    | _ => none
  | .timeout =>
    match s.pc with
    | .recv => some { s with pc := .retryEnter true }
    | _ => none
  | .released =>
    match s.pc with
    | .release =>
      let s := { s with io := s.io.readRelease }
      some (if s.final then s.finish .ok 0 else { s with pc := .readWindow })
    | _ => none

/-- What a step sends. -/
def SendLabel.sends : SendLabel → Option Packet
  | .sent p => some p
  | _ => none

/-- The state in which `tftp_xfer_send` is called. -/
def sendInit (io : TftpIo) : SendState := { io, thread := ReaderThread.start io.threaded }

end TftpHpa
