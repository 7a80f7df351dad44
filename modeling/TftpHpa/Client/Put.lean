import TftpHpa.Client.Download
import TftpHpa.Xfer.Send

/-! The client sending a file (`tftp_sendfile` in `tftp/tftp.c`). The request is sent until it
is answered, by an OACK or by ACK 0, and then `tftp_xfer_send` takes over. -/

namespace TftpHpa

/-- What `tftp_sendfile` works with once `makerequest` has been called. -/
structure PutArgs where
  request : Packet
  optreq : Optreq
  convert : Bool
  rexmtval : ℕ
  maxtimeout : ℕ
  file : File

/-- The parameters of the transfer. `resend_oack` is set from the size of the window. -/
def Optreq.putXfer (optack : Optreq) : Xfer where
  blocksize := optack.blksize
  windowsize := optack.window
  resendOack := optack.window ≠ 0

/-- What becomes of a datagram while the client waits for the answer to its request. -/
inductive PutAnswer where
  | ignored
  | refused
  | begins (optack : Optreq)

/-- The loop around `wait_for_reply`. -/
def putAnswer (optreq : Optreq) (p : Packet) : PutAnswer :=
  if p.length < 2 then .ignored
  else if p.opcode = Opcode.error.code then .refused
  else if p.opcode = Opcode.oack.code then
    match parseOack optreq p with
    | none => .refused
    | some optack => .begins optack
  else if 4 ≤ p.length ∧ p.opcode = Opcode.ack.code ∧ p.block = 0 then
    -- a server that knows no options
    .begins optreqInit
  else .ignored

/-- Where `tftp_sendfile` stands: before `sendto`, in `client_recv_time`, in the engine, or on
its way out. -/
inductive PutPc where
  | request
  | waiting
  | sending (optack : Optreq) (x : SendState)
  | ended

/-- The static `timeout` is part of the state. -/
structure Put where
  pc : PutPc := .request
  timeout : ℕ

inductive PutLabel where
  | sent (p : Packet)
  | sendFailed
  | reply (p : Packet)
  | recvFailed
  | step (l : SendLabel)
  | timeout
  | nak (p : Packet)

namespace Put

/-- `timer`; it jumps to `pc` unless it gives up. -/
def timer (a : PutArgs) (s : Put) (pc : PutPc) : Put :=
  let timeout := s.timeout * 2
  { pc := if a.maxtimeout < timeout then .ended else pc, timeout }

/-- The transfer is over, or has never begun. -/
def leaving (s : Put) : Bool :=
  match s.pc with
  | .ended => true
  | .sending _ x =>
    match x.pc with
    | .done _ => true
    | _ => false
  | _ => false

/-- `tftp_sendfile`. Which of the ways out sends an ERROR packet is left open. -/
def step (a : PutArgs) (s : Put) : PutLabel → Option Put
  | .sent p =>
    match s.pc with
    | .request => if p = a.request then some { s with pc := .waiting } else none
    | _ => none
  | .sendFailed =>
    match s.pc with
    | .request => some { s with pc := .ended }
    | _ => none
  | .reply p =>
    match s.pc with
    | .waiting =>
      match putAnswer a.optreq p with
      | .ignored => some s
      | .refused => some { s with pc := .ended }
      | .begins optack =>
        match TftpIo.readerStart a.file a.convert optack.window optack.window optack.blksize false with
        | none => some { s with pc := .ended }
        | some io => some { s with pc := .sending optack (sendInit io) }
    | _ => none
  | .recvFailed =>
    match s.pc with
    | .waiting => some { s with pc := .ended }
    | _ => none
  | .step l =>
    match s.pc, l with
    | _, .timeout => none
    | .sending optack x, l =>
      (sendStep optack.putXfer x l).map fun x' =>
        { pc := .sending optack x'
          timeout := match l with
            | .entered false => a.rexmtval
            | _ => s.timeout }
    | _, _ => none
  | .timeout =>
    match s.pc with
    | .waiting => some (s.timer a .request)
    | .sending optack x => (sendStep optack.putXfer x .timeout).map fun x' => s.timer a (.sending optack x')
    | _ => none
  | .nak p => if s.leaving ∧ p.opcode = Opcode.error.code then some s else none

/-- A step of the engine inside the client. -/
theorem step_step {a : PutArgs} {s s' : Put} {l : SendLabel} (hs : s.step a (.step l) = some s') :
    ∃ optack x x', s.pc = .sending optack x ∧ sendStep optack.putXfer x l = some x' ∧ s'.pc = .sending optack x' := by
  simp only [step] at hs
  split at hs
  · cases hs
  · next optack x hpc _ =>
    obtain ⟨x', hx, rfl⟩ := Option.map_eq_some_iff.mp hs
    exact ⟨optack, x, x', hpc, hx, rfl⟩
  · cases hs

/-- How the client takes a datagram: `client_recv_time` cuts it to the one buffer there is. -/
def input (s : Put) (p : Packet) : PutLabel :=
  match s.pc with
  | .sending _ _ => .step (.received (p.take TFTP_REPLY_MAX_PACKET_SIZE))
  | _ => .reply (p.take TFTP_REPLY_MAX_PACKET_SIZE)

end Put

def PutArgs.init (a : PutArgs) : Put := { timeout := a.rexmtval }

/-- What a step sends. -/
def PutLabel.sends : PutLabel → Option Packet
  | .sent p | .nak p => some p
  | .step l => l.sends
  | _ => none

/-- Whether a step receives a datagram. -/
def PutLabel.receives : PutLabel → Bool
  | .reply _ | .step (.received _) => true
  | _ => false

end TftpHpa
