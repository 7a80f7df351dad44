import TftpHpa.Daemon.Nak
import TftpHpa.Xfer.Send

/-! A worker of the server sending a file (`tftp_sendfile` in `tftpd/tftpd.c`). An OACK is sent
until ACK 0 comes back; then the file is read ahead and `tftp_xfer_send` takes over. -/

namespace TftpHpa

/-- What `tftp_sendfile` is called with, and what it finds in the static variables. `file` is
the stream `validate_access` has opened. -/
structure SendfileArgs where
  request : AcceptedRequest
  pthread : Bool
  file : File
  strerror : ℤ → Bytes

namespace SendfileArgs

def xfer (a : SendfileArgs) : Xfer where
  blocksize := a.request.daemon.segsize
  windowsize := a.request.daemon.windowsize
  rollover := a.request.daemon.rolloverVal

/-- `tftp_io_reader_start`, with the slots `io_ring_slots` gives. -/
def readerStart (a : SendfileArgs) (slots : ℕ) : Option TftpIo :=
  TftpIo.readerStart a.file a.request.format.convert a.request.daemon.windowsize slots a.request.daemon.segsize
    a.pthread

end SendfileArgs

/-- Where `tftp_sendfile` stands: before the OACK is sent, waiting for its ACK, before
`tftp_io_reader_start`, in the engine, before an ERROR is sent. A worker that has ended did so
with the status of the transfer, or without one when there was no transfer, when it was killed
or left through `exit` in `timer`. -/
inductive SendfilePc where
  | oack (oack : Packet)
  | waiting (oack : Packet)
  | start
  | sending (s : SendState)
  | nak (error : ℤ) (status : Option XferStatus)
  | ended (status : Option XferStatus)

/-- The static `timeout` is part of the state. -/
structure Sendfile where
  pc : SendfilePc
  timeout : ℕ

inductive SendfileLabel where
  | sent (p : Packet)
  | sendFailed
  | reply (p : Packet)
  | recvFailed
  | start (pthreadError : Option ℤ)
  | step (l : SendLabel)
  | timeout
  | finish

/-- A datagram while the OACK waits for its ACK. -/
def oackReply (oack p : Packet) : SendfilePc :=
  if p.length < 2 then .waiting oack
  else if p.opcode = Opcode.error.code then .ended none
  else if 4 ≤ p.length ∧ p.opcode = Opcode.ack.code then
    if p.block = 0 then .start else .oack oack
  else .waiting oack

namespace Sendfile

/-- `timer`; it jumps to `pc` unless it exits. -/
def timer (d : Daemon) (s : Sendfile) (pc : SendfilePc) : Sendfile :=
  let timeout := s.timeout * 2
  { pc := if d.maxtimeout ≤ timeout then .ended none else pc, timeout }

/-- The static `timeout` after a step of the engine. -/
def engineTimeout (d : Daemon) (timeout : ℕ) : SendLabel → ℕ
  | .entered false => d.rexmtval
  | _ => timeout

/-- `tftp_sendfile`. -/
def step (a : SendfileArgs) (s : Sendfile) : SendfileLabel → Option Sendfile
  | .sent p =>
    match s.pc with
    | .oack oack => if p = oack then some { s with pc := .waiting oack } else none
    | .nak error status => if p = TftpHpa.nak a.strerror error none then some { s with pc := .ended status } else none
    | _ => none
  | .sendFailed =>
    match s.pc with
    | .oack _ => some { s with pc := .ended none }
    | .nak _ status => some { s with pc := .ended status }
    | _ => none
  | .reply p =>
    match s.pc with
    | .waiting oack => some { s with pc := oackReply oack p }
    | _ => none
  | .recvFailed =>
    match s.pc with
    | .waiting _ => some { s with pc := .ended none }
    | _ => none
  | .start pthreadError =>
    match s.pc with
    | .start =>
      match ioRingSlots a.pthread a.request.daemon with
      | none => some { s with pc := .ended none }
      | some slots =>
        match a.readerStart slots, if a.pthread then pthreadError else none with
        | some io, none => some { s with pc := .sending (sendInit io) }
        | some _, some e => some { s with pc := .nak (-e) none }
        | none, _ => some { s with pc := .nak (-EINVAL) none }
    | _ => none
  | .step l =>
    match s.pc, l with
    | _, .timeout => none
    | .sending x, l =>
      (sendStep a.xfer x l).map fun x' =>
        { pc := .sending x', timeout := engineTimeout a.request.daemon s.timeout l }
    | _, _ => none
  | .timeout =>
    match s.pc with
    | .waiting oack => some (s.timer a.request.daemon (.oack oack))
    | .sending x => (sendStep a.xfer x .timeout).map fun x' => s.timer a.request.daemon (.sending x')
    | _ => none
  | .finish =>
    match s.pc with
    | .sending { pc := .done result, .. } =>
      let status := result.status
      some { s with pc := if status = .readError then .nak (-result.error) (some status) else .ended (some status) }
    | _ => none

/-- The steps of `tftp_sendfile`, one by one. -/
inductive Move (a : SendfileArgs) (s : Sendfile) : SendfileLabel → Sendfile → Prop where
  | oack {oack : Packet} (hpc : s.pc = .oack oack) : Move a s (.sent oack) { s with pc := .waiting oack }
  | nak {error : ℤ} {status : Option XferStatus} (hpc : s.pc = .nak error status) :
    Move a s (.sent (TftpHpa.nak a.strerror error none)) { s with pc := .ended status }
  | oackFailed {oack : Packet} (hpc : s.pc = .oack oack) : Move a s .sendFailed { s with pc := .ended none }
  | nakFailed {error : ℤ} {status : Option XferStatus} (hpc : s.pc = .nak error status) :
    Move a s .sendFailed { s with pc := .ended status }
  | reply {oack : Packet} (p : Packet) (hpc : s.pc = .waiting oack) :
    Move a s (.reply p) { s with pc := oackReply oack p }
  | recvFailed {oack : Packet} (hpc : s.pc = .waiting oack) : Move a s .recvFailed { s with pc := .ended none }
  | divides (e : Option ℤ) (hpc : s.pc = .start) (hslots : ioRingSlots a.pthread a.request.daemon = none) :
    Move a s (.start e) { s with pc := .ended none }
  | start (e : Option ℤ) {slots : ℕ} {io : TftpIo} (hpc : s.pc = .start)
    (hslots : ioRingSlots a.pthread a.request.daemon = some slots) (hio : a.readerStart slots = some io) :
    Move a s (.start e) { s with pc := .sending (sendInit io) }
  | startFailed (e : Option ℤ) (error : ℤ) (hpc : s.pc = .start) : Move a s (.start e) { s with pc := .nak error none }
  | engine {l : SendLabel} {x x' : SendState} (hpc : s.pc = .sending x) (hl : l ≠ .timeout)
    (hx : sendStep a.xfer x l = some x') :
    Move a s (.step l) ⟨.sending x', engineTimeout a.request.daemon s.timeout l⟩
  | exits (hmax : a.request.daemon.maxtimeout ≤ s.timeout * 2) : Move a s .timeout ⟨.ended none, s.timeout * 2⟩
  | oackAgain {oack : Packet} (hpc : s.pc = .waiting oack) (hmax : ¬ a.request.daemon.maxtimeout ≤ s.timeout * 2) :
    Move a s .timeout ⟨.oack oack, s.timeout * 2⟩
  | windowAgain {x x' : SendState} (hpc : s.pc = .sending x) (hx : sendStep a.xfer x .timeout = some x')
    (hmax : ¬ a.request.daemon.maxtimeout ≤ s.timeout * 2) : Move a s .timeout ⟨.sending x', s.timeout * 2⟩
  | readError {x : SendState} {result : XferResult} (hpc : s.pc = .sending x) (hdone : x.pc = .done result)
    (hread : result.status = .readError) :
    Move a s .finish { s with pc := .nak (-result.error) (some result.status) }
  | finish {x : SendState} {result : XferResult} (hpc : s.pc = .sending x) (hdone : x.pc = .done result)
    (hread : result.status ≠ .readError) : Move a s .finish { s with pc := .ended (some result.status) }

theorem move_of_step {a : SendfileArgs} {s s' : Sendfile} {l : SendfileLabel} (hs : s.step a l = some s') :
    Move a s l s' := by
  cases l with
  | sent p =>
    simp only [step] at hs
    split at hs
    · next hpc =>
      simp only [Option.ite_none_right_eq_some, Option.some.injEq] at hs
      obtain ⟨rfl, rfl⟩ := hs
      exact .oack hpc
    · next hpc =>
      simp only [Option.ite_none_right_eq_some, Option.some.injEq] at hs
      obtain ⟨rfl, rfl⟩ := hs
      exact .nak hpc
    · cases hs
  | sendFailed =>
    simp only [step] at hs
    split at hs
    · next hpc =>
      cases hs
      exact .oackFailed hpc
    · next hpc =>
      cases hs
      exact .nakFailed hpc
    · cases hs
  | reply p =>
    simp only [step] at hs
    split at hs
    · next hpc =>
      cases hs
      exact .reply p hpc
    · cases hs
  | recvFailed =>
    simp only [step] at hs
    split at hs
    · next hpc =>
      cases hs
      exact .recvFailed hpc
    · cases hs
  | start e =>
    simp only [step] at hs
    split at hs
    · next hpc =>
      split at hs
      · next hslots =>
        cases hs
        exact .divides e hpc hslots
      · next slots hslots =>
        split at hs
        · next io hio _ =>
          cases hs
          exact .start e hpc hslots hio
        · cases hs
          exact .startFailed e _ hpc
        · cases hs
          exact .startFailed e _ hpc
    · cases hs
  | step l =>
    simp only [step] at hs
    split at hs
    · cases hs
    · next x hpc hl =>
      obtain ⟨x', hx, rfl⟩ := Option.map_eq_some_iff.mp hs
      exact .engine hpc hl hx
    · cases hs
  | timeout =>
    simp only [step] at hs
    split at hs
    · next hpc =>
      cases hs
      simp only [timer]
      split_ifs with hmax
      · exact .exits hmax
      · exact .oackAgain hpc hmax
    · next x hpc =>
      obtain ⟨x', hx, rfl⟩ := Option.map_eq_some_iff.mp hs
      simp only [timer]
      split_ifs with hmax
      · exact .exits hmax
      · exact .windowAgain hpc hx hmax
    · cases hs
  | finish =>
    simp only [step] at hs
    split at hs
    · next hpc =>
      cases hs
      split_ifs with hread
      · exact .readError hpc rfl hread
      · exact .finish hpc rfl hread
    · cases hs

end Sendfile

/-- The worker when `tftp_sendfile` is called. -/
def SendfileArgs.init (a : SendfileArgs) : Sendfile :=
  match a.request.oack with
  | some oack => { pc := .oack oack, timeout := a.request.daemon.rexmtval }
  | none => { pc := .start, timeout := a.request.daemon.timeout }

/-- What a step sends. -/
def SendfileLabel.sends : SendfileLabel → Option Packet
  | .sent p => some p
  | .step l => l.sends
  | _ => none

/-- Whether a step receives a datagram. -/
def SendfileLabel.receives : SendfileLabel → Bool
  | .reply _ | .step (.received _) => true
  | _ => false

/-- How a worker takes a datagram: the OACK loop has four bytes for it, and the engine asks for
the length of the whole. -/
def Sendfile.input (s : Sendfile) (p : Packet) : SendfileLabel :=
  match s.pc with
  | .sending _ => .step (.received p)
  | _ => .reply (p.take 4)

end TftpHpa
