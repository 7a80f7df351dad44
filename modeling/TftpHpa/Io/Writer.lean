import TftpHpa.Io.Reader

/-! The writing side of the ring (`common/tftp-io.c`): a slot is reserved, filled by the
receive engine and published, and the writer thread or `write_drain` puts the
published slots into the file in order. As on the reading side the thread's locked
sections and its unlocked write are separate steps. -/

namespace TftpHpa.TftpIo

/-- Assign to `io->states[n]`. -/
def setState (io : TftpIo) (n : ℕ) (st : SlotState) : TftpIo :=
  { io with states := Function.update io.states n st }

/-! ### Operations of the engine -/

/-- `tftp_io_writer_reserve`; the outer `none` is a wait for the writer thread. -/
def writeReserve (io : TftpIo) : Option (Except ℤ Unit × TftpIo) :=
  if io.states io.tail ≠ .empty ∧ io.error = 0 then
    if io.threaded then none else some (.error EIO, io)
  else if io.error ≠ 0 then some (.error io.error, io)
  else some (.ok (), io.setState io.tail .reserved)

/-- Copy a datagram to the reserved slot, through the pointer `write_reserve` returned. -/
def copyPacket (io : TftpIo) (p : Packet) : TftpIo :=
  let dp := { io.packets io.tail with opcode := p.opcode, block := p.block }
  { io with packets := Function.update io.packets io.tail (dp.store p.payload) }

/-- `tftp_io_write_publish`. -/
def writePublish (io : TftpIo) (length : ℕ) : Except ℤ Unit × TftpIo :=
  if io.blocksize < length then (.error EINVAL, io)
  else if io.states io.tail ≠ .reserved then (.error EIO, io)
  else (.ok (), { io.setState io.tail .ready with
    lengths := Function.update io.lengths io.tail length
    tail := io.ioNext io.tail
    count := io.count + 1 })

/-- The head slot has been written. -/
def dequeue (io : TftpIo) : TftpIo :=
  { io.setState io.head .empty with head := io.ioNext io.head, count := io.count - 1 }

/-- The unthreaded loop of `tftp_io_write_drain`. Every round takes a packet off the
ring or stops, so `count` rounds are enough. -/
def drainLoop : ℕ → TftpIo → TftpIo
  | 0, io => io
  | k + 1, io =>
    if io.count ≠ 0 ∧ io.error = 0 then
      if io.states io.head ≠ .ready then io.ioError EIO
      else
        let io := io.setState io.head .writing
        match io.opsWritePacket (io.packets io.head) (io.lengths io.head) with
        | (none, io) => io.ioError EIO
        | (some _, io) => drainLoop k io.dequeue
    else io

/-- The end of `tftp_io_write_drain`; `flush` is the error of `fflush_unlocked`, if any. -/
def flushDrained (io : TftpIo) (flush : Option ℤ) : Except ℤ Unit × TftpIo :=
  if io.error ≠ 0 then (.error io.error, io)
  else match flush with
    | none => (.ok (), io)
    | some e =>
      let e := if e = 0 then EIO else e
      (.error e, io.ioError e)

/-- `tftp_io_write_drain`; the outer `none` is a wait for the writer thread. -/
def writeDrain (io : TftpIo) (flush : Option ℤ) : Option (Except ℤ Unit × TftpIo) :=
  if io.threaded then
    if io.count ≠ 0 ∧ io.error = 0 then none else some (io.flushDrained flush)
  else some ((drainLoop io.count io).flushDrained flush)

/-- `tftp_io_write_finish`; what is left to be written may fail, and so may the flush
after it. -/
def writeFinish (io : TftpIo) (flush : Option ℤ) : Except ℤ Unit × TftpIo :=
  match io.opsWriteFinish true, flush with
  | (true, io), none => (.ok (), io)
  | (true, io), some e => (.error (io.ioError e).error, io.ioError e)
  | (false, io), _ => (.error (io.ioError EIO).error, io.ioError EIO)

/-! ### The writer thread -/

/-- Where `writer_thread` stands: before its first locked section, writing a slot
without the lock, before the locked section after it, or gone. -/
inductive WriterThread where
  | locking
  | writing (slot length : ℕ)
  | storing (written : Bool)
  | exited
  deriving DecidableEq, Repr

/-- One section of `writer_thread`; `none` when it waits or is gone. -/
def writerThread (io : TftpIo) : WriterThread → Option (TftpIo × WriterThread)
  | .locking =>
    if io.states io.head ≠ .ready ∧ io.stopped = false ∧ io.error = 0 then none
    else if io.stopped ∨ io.error ≠ 0 then some (io, .exited)
    else some (io.setState io.head .writing, .writing io.head (io.lengths io.head))
  | .writing n length =>
    let written := io.opsWritePacket (io.packets n) length
    some (written.2, .storing (written.1 = some length))
  | .storing false => some (io.ioError EIO, .exited)
  | .storing true => some (io.dequeue, .locking)
  | .exited => none

/-- The thread `io_start` creates, if any. -/
def WriterThread.start (threaded : Bool) : WriterThread := if threaded then .locking else .exited

end TftpHpa.TftpIo
