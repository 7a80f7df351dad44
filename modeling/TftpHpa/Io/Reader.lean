import TftpHpa.Io.Netascii
import TftpHpa.Lib.RingIndex

/-! The reading side of the ring (`common/tftp-io.c`): the window operations the
send engine calls and the optional reader thread that fills slots ahead of it. The
thread's locked sections and its unlocked read are separate steps, so that the
engine's calls may fall between any two of them. -/

namespace TftpHpa.TftpIo

/-- The slot of packet `n` of the window, `(io->head + n) % io->slots`. -/
def slot (io : TftpIo) (n : ℕ) : ℕ := (io.head + n) % io.slots

/-- Account for a packet of `length` data bytes read into the tail slot. -/
def enqueue (io : TftpIo) (length : ℕ) : TftpIo :=
  { io with
    lengths := Function.update io.lengths io.tail (length + 4)
    tail := io.ioNext io.tail
    count := io.count + 1
    eof := io.eof || length ≠ io.blocksize }

/-! ### Window operations -/

/-- The unthreaded loop of `tftp_io_read_window`. Every round adds a packet or
stops, so `window - count` rounds are enough. -/
def fillWindow : ℕ → TftpIo → TftpIo
  | 0, io => io
  | k + 1, io =>
    if io.count < io.window ∧ io.eof = false ∧ io.error = 0 then
      match io.opsReadPacket io.tail with
      | (none, io) => io.ioError EIO
      | (some length, io) => fillWindow k (io.enqueue length)
    else io

/-- The end of `tftp_io_read_window`: fail, or hold a window and return its size
and whether it is the final one. -/
def takeWindow (io : TftpIo) : Except ℤ (ℕ × Bool) × TftpIo :=
  if io.error ≠ 0 then (.error io.error, io)
  else
    let held := if io.count < io.window then io.count else io.window
    (.ok (held, io.eof && held = io.count), { io with held := held })

/-- `tftp_io_read_window`; the outer `none` is a wait for the reader thread. -/
def readWindow (io : TftpIo) : Option (Except ℤ (ℕ × Bool) × TftpIo) :=
  if io.threaded then
    if io.count < io.window ∧ io.eof = false ∧ io.error = 0 then none else some io.takeWindow
  else some (fillWindow (io.window - io.count) io).takeWindow

/-- `tftp_io_read_packet`; `none` is `NULL` with `EINVAL`. -/
def readPacket (io : TftpIo) (n : ℕ) : Option Tftphdr :=
  if n < io.held then some (io.packets (io.slot n)) else none

/-- `tftp_io_read_length`; `none` is -1 with `EINVAL`. -/
def readLength (io : TftpIo) (n : ℕ) : Option ℕ :=
  if n < io.held then some (io.lengths (io.slot n)) else none

/-- Store the header fields through the pointer `tftp_io_read_packet` returned. -/
def writeHeader (io : TftpIo) (n : ℕ) (opcode block : UInt16) : TftpIo :=
  let dp := { io.packets (io.slot n) with opcode := opcode, block := block }
  { io with packets := Function.update io.packets (io.slot n) dp }

/-- The loop of `tftp_io_read_release`. -/
def releaseLoop : ℕ → TftpIo → TftpIo
  | 0, io => io
  | k + 1, io => releaseLoop k
      { io with head := io.ioNext io.head, count := io.count - 1, held := io.held - 1 }

/-- `tftp_io_read_release`. -/
def readRelease (io : TftpIo) : TftpIo := releaseLoop io.held io

/-! ### The reader thread -/

/-- Where `reader_thread` stands: before its first locked section, reading into a
slot without the lock, before its second locked section, or gone. -/
inductive ReaderThread where
  | locking
  | reading (slot : ℕ)
  | storing (length : Option ℕ)
  | exited
  deriving DecidableEq, Repr

/-- One section of `reader_thread`; `none` when it waits or is gone. -/
def readerThread (io : TftpIo) : ReaderThread → Option (TftpIo × ReaderThread)
  | .locking =>
    if io.count = io.slots ∧ io.stopped = false then none
    else if io.stopped then some (io, .exited)
    else some (io, .reading io.tail)
  | .reading n => some ((io.opsReadPacket n).2, .storing (io.opsReadPacket n).1)
  | .storing none => some (io.ioError EIO, .exited)
  | .storing (some length) =>
    let io := io.enqueue length
    some (io, if io.eof || io.stopped then .exited else .locking)
  | .exited => none

/-- The thread `io_start` creates, if any. -/
def ReaderThread.start (threaded : Bool) : ReaderThread := if threaded then .locking else .exited

end TftpHpa.TftpIo
