import TftpHpa.Wire.Packet

/-! The file side of a transfer (`struct tftp_io` in `common/tftp-io.c`): a stdio
stream, a ring of packet slots, and the octet and netascii conversions that fill a
slot from the stream or write one out. The ring operations themselves are in
`Io.Reader` and `Io.Writer`. -/

namespace TftpHpa

/-- `errno` values the adapter sets itself. -/
def EIO : ℤ := 5
def EINVAL : ℤ := 22

/-- A stdio stream. On the input side the bytes still to be read, and whether the
stream then ends in a read error; on the output side the bytes written so far, and
how many more are accepted before a write error (`none`: any number). -/
structure File where
  rest : Bytes
  readError : Bool := false
  written : Bytes := []
  room : Option ℕ := none

namespace File

/-- `putc_unlocked`; `none` is `EOF`. -/
def putc (f : File) (c : UInt8) : Option File :=
  match f.room with
  | none => some { f with written := f.written ++ [c] }
  | some 0 => none
  | some (n + 1) => some { f with written := f.written ++ [c], room := some n }

/-- `fwrite_unlocked`: the number of bytes accepted and the stream. -/
def fwrite (f : File) (data : Bytes) : ℕ × File :=
  match f.room with
  | none => (data.length, { f with written := f.written ++ data })
  | some n => (min data.length n,
      { f with written := f.written ++ data.take n, room := some (n - data.length) })

end File

/-- `struct tftphdr`, the header fields in host order. -/
structure Tftphdr where
  opcode : UInt16 := 0
  block : UInt16 := 0
  data : Bytes := []

/-- The first `size` bytes of a packet in memory. -/
def Tftphdr.bytes (dp : Tftphdr) (size : ℕ) : Packet :=
  (htons dp.opcode ++ htons dp.block ++ dp.data).take size

/-- Store bytes at the start of `th_data`; what lies beyond them stays. -/
def Tftphdr.store (dp : Tftphdr) (data : Bytes) : Tftphdr :=
  { dp with data := data ++ dp.data.drop data.length }

inductive SlotState where
  | empty | reserved | ready | writing
  deriving DecidableEq, Repr

structure TftpIo where
  file : File
  /-- `ops`: netascii when set, octet otherwise. -/
  convert : Bool
  packets : ℕ → Tftphdr := fun _ => {}
  lengths : ℕ → ℕ := fun _ => 0
  states : ℕ → SlotState := fun _ => .empty
  slots : ℕ
  window : ℕ
  blocksize : ℕ
  head : ℕ := 0
  tail : ℕ := 0
  count : ℕ := 0
  held : ℕ := 0
  error : ℤ := 0
  eof : Bool := false
  stopped : Bool := false
  threaded : Bool
  newline : Bool := false
  prevchar : ℤ := -1
  writeCr : Bool := false

namespace TftpIo

/-- The bytes a slot occupies: header and data, rounded down to even with one to spare. -/
def packetsize (blocksize : ℕ) : ℕ := (blocksize + 5) / 2 * 2

theorem le_packetsize (blocksize : ℕ) : blocksize + 4 ≤ packetsize blocksize := by
  unfold packetsize
  omega

inductive IoDirection where
  | read | write
  deriving DecidableEq, Repr

/-- The adapter `io_start` sets up once its arguments are accepted. -/
def init (file : File) (convert : Bool) (slots window blocksize : ℕ) (threaded : Bool) : TftpIo :=
  { file, convert, slots, window, blocksize, threaded }

/-- `io_start`; `none` is `NULL` with `EINVAL`. -/
def ioStart (file : File) (convert : Bool) (slots window blocksize : ℕ) (direction : IoDirection)
    (threaded : Bool) : Option TftpIo :=
  if slots = 0 ∨ blocksize = 0 ∨ (direction = .read ∧ slots < window) then none
  else some (init file convert slots window blocksize threaded)

/-- `tftp_io_reader_start`. -/
def readerStart (file : File) (convert : Bool) (window slots blocksize : ℕ) (threaded : Bool) :
    Option TftpIo :=
  ioStart file convert slots window blocksize .read threaded

/-- `tftp_io_writer_start`. -/
def writerStart (file : File) (convert : Bool) (slots blocksize : ℕ) (threaded : Bool) :
    Option TftpIo :=
  ioStart file convert slots 0 blocksize .write threaded

/-- `io_next`. -/
def ioNext (io : TftpIo) (n : ℕ) : ℕ := if n + 1 = io.slots then 0 else n + 1

/-- `io_error`: the first error is kept. -/
def ioError (io : TftpIo) (error : ℤ) : TftpIo :=
  let error := if error = 0 then EIO else error
  if io.error = 0 then { io with error := error } else io

theorem ioError_eq (io : TftpIo) (error : ℤ) :
    ∃ e, e ≠ 0 ∧ io.ioError error = { io with error := e } := by
  by_cases h : io.error = 0
  · refine ⟨if error = 0 then EIO else error, ?_, by simp [ioError, h]⟩
    split_ifs with he
    · decide
    · exact he
  · exact ⟨io.error, h, by simp [ioError, h]⟩

/-! ### Reading packets -/

/-- `octet_read_packet` into slot `n`; `none` is a read error. -/
def octetReadPacket (io : TftpIo) (n : ℕ) : Option ℕ × TftpIo :=
  let data := io.file.rest.take io.blocksize
  let io := { io with
    file := { io.file with rest := io.file.rest.drop io.blocksize }
    packets := Function.update io.packets n ((io.packets n).store data) }
  (if data.length < io.blocksize ∧ io.file.readError then none else some data.length, io)

/-- The state the netascii reader carries from byte to byte: a pending second
byte, the character it belongs to, and the bytes of the file still to come. -/
structure NetasciiIn where
  newline : Bool
  prevchar : ℤ
  rest : Bytes

/-- The loop of `netascii_read_packet`, for `i` more bytes: the bytes stored
before it ends, by having filled the packet or at the end of the file. -/
def netasciiReadLoop : ℕ → NetasciiIn → Bytes × NetasciiIn
  | 0, st => ([], st)
  | i + 1, st =>
    if st.newline then
      let c : UInt8 := if st.prevchar = 10 then 10 else 0
      let (out, st) := netasciiReadLoop i { st with newline := false }
      (c :: out, st)
    else
      match st.rest with
      | [] => ([], st)
      | c :: rest =>
        if c = 10 ∨ c = 13 then
          let (out, st) := netasciiReadLoop i ⟨true, c.toNat, rest⟩
          (13 :: out, st)
        else
          let (out, st) := netasciiReadLoop i { st with rest := rest }
          (c :: out, st)

/-- `netascii_read_packet` into slot `n`. The loop only stops early at the end of
the file, where `ferror` decides. -/
def netasciiReadPacket (io : TftpIo) (n : ℕ) : Option ℕ × TftpIo :=
  let (data, st) := netasciiReadLoop io.blocksize ⟨io.newline, io.prevchar, io.file.rest⟩
  let io := { io with
    file := { io.file with rest := st.rest }
    newline := st.newline
    prevchar := st.prevchar
    packets := Function.update io.packets n ((io.packets n).store data) }
  (if data.length < io.blocksize ∧ io.file.readError then none else some data.length, io)

/-- `io->ops->read_packet`. -/
def opsReadPacket (io : TftpIo) (n : ℕ) : Option ℕ × TftpIo :=
  if io.convert then io.netasciiReadPacket n else io.octetReadPacket n

/-! ### Writing packets -/

/-- `octet_write_packet`; `none` is -1. -/
def octetWritePacket (io : TftpIo) (dp : Tftphdr) (count : ℕ) : Option ℕ × TftpIo :=
  let (n, file) := io.file.fwrite (dp.data.take count)
  (if n = count then some count else none, { io with file := file })

/-- The loop of `netascii_write_packet` over the remaining bytes of a packet;
`false` when a `putc` fails. -/
def netasciiWriteLoop : Bytes → Bool → File → Bool × Bool × File
  | [], writeCr, file => (true, writeCr, file)
  | c :: rest, true, file =>
    if c = 10 ∨ c = 0 then
      -- CR LF is a newline and CR NUL a carriage return
      match file.putc (if c = 10 then 10 else 13) with
      | none => (false, false, file)
      | some file => netasciiWriteLoop rest false file
    else
      match file.putc 13 with
      | none => (false, true, file)
      | some file =>
        match file.putc c with
        | none => (false, false, file)
        | some file => netasciiWriteLoop rest false file
  | c :: rest, false, file =>
    if c = 13 then netasciiWriteLoop rest true file
    else
      match file.putc c with
      | none => (false, false, file)
      | some file => netasciiWriteLoop rest false file

/-- `netascii_write_packet`. -/
def netasciiWritePacket (io : TftpIo) (dp : Tftphdr) (count : ℕ) : Option ℕ × TftpIo :=
  let (ok, writeCr, file) := netasciiWriteLoop (dp.data.take count) io.writeCr io.file
  (if ok then some count else none, { io with writeCr := writeCr, file := file })

/-- `io->ops->write_packet`. -/
def opsWritePacket (io : TftpIo) (dp : Tftphdr) (count : ℕ) : Option ℕ × TftpIo :=
  if io.convert then io.netasciiWritePacket dp count else io.octetWritePacket dp count

/-- `octet_write_finish`; `flushed` is the outcome of `fflush_unlocked`. -/
def octetWriteFinish (io : TftpIo) (flushed : Bool) : Bool × TftpIo := (flushed, io)

/-- `netascii_write_finish`: a carriage return at the end of the data stands for itself. -/
def netasciiWriteFinish (io : TftpIo) (flushed : Bool) : Bool × TftpIo :=
  if io.writeCr then
    match io.file.putc 13 with
    | none => (false, io)
    | some file => (flushed, { io with file := file, writeCr := false })
  else (flushed, io)

/-- `io->ops->write_finish`. -/
def opsWriteFinish (io : TftpIo) (flushed : Bool) : Bool × TftpIo :=
  if io.convert then io.netasciiWriteFinish flushed else io.octetWriteFinish flushed

end TftpIo

end TftpHpa
