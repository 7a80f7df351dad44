import TftpHpa.Lib.Channel
import TftpHpa.Xfer.SendTrace
import TftpHpa.Xfer.RecvTrace

/-! A sender and a receiver joined by two channels. What one engine sends is
appended to the channel, what the other receives is taken from it; everything else
the engines do is local. The receiver is started at some point, either on its own
or, as a client does that was answered with DATA at once, with the first block
taken from the channel. -/

namespace TftpHpa

open Channel (Discipline receive)

/-- What is fixed for a transfer: the parameters both sides agreed on, the size of the
receiver's buffer and the reply it starts with. -/
structure Session where
  x : Xfer
  inputSize : ℕ
  initialReply : Option Packet := none

structure World where
  sender : SendState
  receiver : Option (RecvArgs × RecvState) := none
  data : List Packet := []
  acks : List Packet := []

/-- The callback the receiver is about to call, once it runs. -/
def World.recvPc (w : World) : Option RecvPc := w.receiver.map fun ar => ar.2.pc

theorem World.recvPc_eq_some {w : World} {pc : RecvPc} :
    w.recvPc = some pc ↔ ∃ args r, w.receiver = some (args, r) ∧ r.pc = pc := by
  simp [recvPc]

inductive NetLabel where
  | sender (l : SendLabel)
  | receiver (l : RecvLabel)
  | start (initialPacket : Option Packet)
  | loseData (n : ℕ)
  | loseAck (n : ℕ)

/-- The effect of a sender step on the channels. -/
def senderStep (d : Discipline) (c : Session) (w : World) (l : SendLabel) : Option World :=
  (sendStep c.x w.sender l).bind fun sender =>
    match l with
    | .sent p => some { w with sender, data := w.data ++ [p] }
    | .received p => (receive d w.acks p).map fun acks => { w with sender, acks }
    | _ => some { w with sender }

/-- The effect of a receiver step on the channels. -/
def receiverStep (d : Discipline) (c : Session) (w : World) (l : RecvLabel) : Option World :=
  w.receiver.bind fun (a, r) => (recvStep c.x a r l).bind fun r =>
    match l with
    | .sent p => some { w with receiver := some (a, r), acks := w.acks ++ [p] }
    | .received p => (receive d w.data p).map fun data => { w with receiver := some (a, r), data }
    | _ => some { w with receiver := some (a, r) }

/-- `tftp_xfer_recv` is called. -/
def Session.startWith (c : Session) (initialPacket : Option Packet) : RecvArgs × RecvState :=
  let a := { inputSize := c.inputSize, initialReply := c.initialReply, initialPacket }
  (a, recvInit c.x a)

def netStep (d : Discipline) (c : Session) (w : World) : NetLabel → Option World
  | .sender l => senderStep d c w l
  | .receiver l => receiverStep d c w l
  | .start initialPacket =>
    match w.receiver, initialPacket with
    | some _, _ => none
    | none, none => some { w with receiver := some (c.startWith none) }
    | none, some p =>
      if p.opcode = Opcode.data.code ∧ p.block = 1 then
        (receive d w.data p).map fun data => { w with receiver := some (c.startWith (some p)), data }
      else none
  | .loseData n => some { w with data := w.data.eraseIdx n }
  | .loseAck n => some { w with acks := w.acks.eraseIdx n }

section
variable {d : Discipline} {c : Session} {w w' : World}

theorem netStep_receiver_eq {l : SendLabel}
    (hs : netStep d c w (.sender l) = some w') : w'.receiver = w.receiver := by
  obtain ⟨s', -, hw'⟩ := Option.bind_eq_some_iff.mp hs
  cases l with
  | received p =>
    obtain ⟨acks, -, rfl⟩ := Option.map_eq_some_iff.mp hw'
    rfl
  | _ =>
    obtain rfl := Option.some.inj hw'
    rfl

theorem netStep_sender_eq {l : NetLabel} (hl : ∀ m, l ≠ .sender m)
    (hs : netStep d c w l = some w') : w'.sender = w.sender := by
  cases l with
  | sender m => exact absurd rfl (hl m)
  | receiver m =>
    obtain ⟨⟨args, r⟩, -, hs⟩ := Option.bind_eq_some_iff.mp hs
    obtain ⟨r', -, hw'⟩ := Option.bind_eq_some_iff.mp hs
    cases m with
    | received p =>
      obtain ⟨data, -, rfl⟩ := Option.map_eq_some_iff.mp hw'
      rfl
    | _ =>
      obtain rfl := Option.some.inj hw'
      rfl
  | start p =>
    cases hr : w.receiver with
    | some ar => simp [netStep, hr] at hs
    | none =>
      cases p with
      | none =>
        simp only [netStep, hr, Option.some.injEq] at hs
        rw [← hs]
      | some p =>
        simp only [netStep, hr, Option.ite_none_right_eq_some, Option.map_eq_some_iff] at hs
        obtain ⟨-, data, -, rfl⟩ := hs
        rfl
  | loseData n =>
    obtain rfl := Option.some.inj hs
    rfl
  | loseAck n =>
    obtain rfl := Option.some.inj hs
    rfl

end

/-- The sender's and the receiver's part of a trace. -/
def sendTrace (t : List NetLabel) : List SendLabel :=
  t.filterMap fun
    | .sender l => some l
    | _ => none

def recvTrace (t : List NetLabel) : List RecvLabel :=
  t.filterMap fun
    | .receiver l => some l
    | _ => none

@[simp] theorem sendTrace_concat (t : List NetLabel) (l : NetLabel) :
    sendTrace (t ++ [l]) = sendTrace t ++ match l with
      | .sender l => [l]
      | _ => [] := by
  cases l <;> simp [sendTrace]

@[simp] theorem recvTrace_concat (t : List NetLabel) (l : NetLabel) :
    recvTrace (t ++ [l]) = recvTrace t ++ match l with
      | .receiver l => [l]
      | _ => [] := by
  cases l <;> simp [recvTrace]

/-- A callback fails for a reason of its own. -/
def SendLabel.failing : SendLabel → Bool
  | .windowFailed _ | .sendFailed _ _ | .recvFailed _ => true
  | _ => false

def RecvLabel.failing : RecvLabel → Bool
  | .reserveFailed _ | .sendFailed _ _ | .recvFailed _ | .publishFailed _ _ | .drainFailed _
  | .finishFailed _ => true
  | _ => false

def NetLabel.failing : NetLabel → Bool
  | .sender l => l.failing
  | .receiver l => l.failing
  | _ => false

/-- Nothing is lost. -/
def NetLabel.losing : NetLabel → Bool
  | .loseData _ | .loseAck _ => true
  | _ => false

end TftpHpa
