import TftpHpa.Xfer.Basic

/-! `tftp_xfer_recv`. The file side is only seen through the outcomes of the
callbacks `write_reserve`, `write_publish`, `write_drain` and `write_finish`, so the
machine runs against any adapter, working or failing. -/

namespace TftpHpa

/-- The callback `tftp_xfer_recv` is about to call. -/
inductive RecvPc where
  | reserve
  | retryEnter (restarted : Bool)
  | reply
  | recv
  | recover
  | publish (p : Packet)
  | drain (final : Bool)
  | finish
  | ack (final : Bool)
  | done (result : XferResult)
  deriving DecidableEq

/-- The arguments of `tftp_xfer_recv` besides the parameters. -/
structure RecvArgs where
  inputSize : ℕ
  initialReply : Option Packet := none
  initialPacket : Option Packet := none

structure RecvState where
  block : UInt16 := 1
  lastReceived : UInt16 := 0
  lastAcked : UInt16 := 0
  bytes : UInt64 := 0
  packetsInWindow : ℕ := 0
  replyPending : Bool := false
  packetPending : Bool := false
  pc : RecvPc := .reserve

/-- What a callback of the receiver was called with and what it returned. -/
inductive RecvLabel where
  | reserved
  | reserveFailed (error : ℤ)
  | entered (restarted : Bool)
  | sent (p : Packet)
  | sendFailed (p : Packet) (error : ℤ)
  | received (p : Packet)
  | recvFailed (error : ℤ)
  | timeout
  | published (p : Packet)
  | publishFailed (p : Packet) (error : ℤ)
  | drained
  | drainFailed (error : ℤ)
  | finished
  | finishFailed (error : ℤ)

namespace RecvState

/-- `finish`. -/
def finish (s : RecvState) (status : XferStatus) (error : ℤ) (packet : Option Packet := none)
    (lastBlock : UInt16 := 0) : RecvState :=
  { s with pc := .done { status, error, packet, lastBlock, bytes := s.bytes } }

/-- What is sent on entering the loop: the initial reply as long as no block has
come in, afterwards the ACK of the last window. -/
def replyPacket (s : RecvState) (a : RecvArgs) : Packet :=
  match s.replyPending, a.initialReply with
  | true, some reply => reply
  | _, _ => ackPacket s.lastAcked

end RecvState

/-- A block with the expected number: check its size, then copy it to the reserved
slot and publish it. -/
def recvAccept (x : Xfer) (s : RecvState) (p : Packet) : RecvState :=
  let s := { s with replyPending := false }
  if x.blocksize < p.length - 4 then s.finish .badData 0
  else if (x.maxBytes - s.bytes).toNat < p.length - 4 then s.finish .sizeExceeded 0
  else { s with pc := .publish p }

/-- To show something of the state after such a block. -/
theorem recvAccept_rule {P : RecvState → Prop} {x : Xfer} {s : RecvState} {p : Packet}
    (hlong : P ({ s with replyPending := false }.finish .badData 0))
    (hlimit : P ({ s with replyPending := false }.finish .sizeExceeded 0))
    (hpublish : p.length - 4 ≤ x.blocksize → p.length - 4 ≤ (x.maxBytes - s.bytes).toNat →
      P { s with replyPending := false, pc := .publish p }) : P (recvAccept x s p) := by
  simp only [recvAccept]
  split_ifs with hl hm
  · exact hlong
  · exact hlimit
  · exact hpublish (Nat.le_of_not_lt hl) (Nat.le_of_not_lt hm)

theorem recvAccept_pc (x : Xfer) (s : RecvState) (p : Packet) :
    (∃ q, (recvAccept x s p).pc = .publish q) ∨ ∃ res, (recvAccept x s p).pc = .done res :=
  recvAccept_rule (P := fun r => (∃ q, r.pc = .publish q) ∨ ∃ res, r.pc = .done res) (.inr ⟨_, rfl⟩)
    (.inr ⟨_, rfl⟩) fun _ _ => .inl ⟨p, rfl⟩

/-- After the reply: take the packet the request exchange already received, or wait. -/
def recvWait (x : Xfer) (a : RecvArgs) (s : RecvState) : RecvState :=
  match s.packetPending, a.initialPacket with
  | true, some p => recvAccept x { s with packetPending := false } p
  | _, _ => { s with pc := .recv }

theorem recvWait_of_not_pending (x : Xfer) (a : RecvArgs) {s : RecvState} (h : s.packetPending = false) :
    recvWait x a s = { s with pc := .recv } := by
  simp [recvWait, h]

theorem recvWait_of_pending (x : Xfer) {a : RecvArgs} {s : RecvState} (h : s.packetPending = true) {p : Packet}
    (hp : a.initialPacket = some p) : recvWait x a s = recvAccept x { s with packetPending := false } p := by
  simp [recvWait, h, hp]

/-- A datagram while waiting. -/
def recvReceived (x : Xfer) (s : RecvState) (p : Packet) : RecvState :=
  if p.length < 4 then s
  else if p.opcode = Opcode.error.code then s.finish .peerError 0 (some p)
  else if p.opcode ≠ Opcode.data.code then s
  else if p.block = s.block then recvAccept x s p
  else { s with pc := .recover }

/-- To show something of the state after a datagram. -/
theorem recvReceived_rule {P : RecvState → Prop} {x : Xfer} {s : RecvState} {p : Packet} (hignore : P s)
    (herror : P (s.finish .peerError 0 (some p)))
    (haccept : 4 ≤ p.length → p.opcode = Opcode.data.code → p.block = s.block → P (recvAccept x s p))
    (hrecover : P { s with pc := .recover }) : P (recvReceived x s p) := by
  unfold recvReceived
  split_ifs with hshort herr hop hblk
  · exact hignore
  · exact herror
  · exact hignore
  · exact haccept (Nat.le_of_not_lt hshort) (not_not.mp hop) hblk
  · exact hrecover

/-- The packet has been published: account for it and decide whether it ends a window. -/
def recvPublished (x : Xfer) (s : RecvState) (p : Packet) : RecvState :=
  let final : Bool := p.length - 4 ≠ x.blocksize
  let s := { s with
    bytes := s.bytes + UInt64.ofNat (p.length - 4)
    packetsInWindow := s.packetsInWindow + 1
    lastReceived := p.block
    block := nextBlock s.block x.rollover }
  if final ∨ s.packetsInWindow = x.windowsize then
    { s with lastAcked := p.block, packetsInWindow := 0, pc := .drain final }
  else { s with pc := .reserve }

/-- `tftp_xfer_recv`, from one callback to the next. -/
def recvStep (x : Xfer) (a : RecvArgs) (s : RecvState) : RecvLabel → Option RecvState
  | .reserved =>
    match s.pc with
    | .reserve => some { s with pc := .retryEnter false }
    | _ => none
  | .reserveFailed e =>
    match s.pc with
    | .reserve => some (s.finish .writeError (orEio e))
    | _ => none
  | .entered restarted =>
    match s.pc with
    | .retryEnter r =>
      if r = restarted then
        some (if s.replyPending || r then { s with pc := .reply } else recvWait x a s)
      else none
    | _ => none
  | .sent p =>
    match s.pc with
    | .reply => if p = s.replyPacket a then some (recvWait x a s) else none
    | .recover => if p = ackPacket s.lastReceived then some { s with pc := .recv } else none
    | .ack final =>
      if p = ackPacket s.lastAcked then
        some (if final then s.finish .ok 0 none s.lastAcked else { s with pc := .reserve })
      else none
    | _ => none
  | .sendFailed p e =>
    match s.pc with
    | .reply => if p = s.replyPacket a then some (s.finish .sendError e) else none
    -- the outcome of a recovery ACK is ignored
    | .recover => if p = ackPacket s.lastReceived then some { s with pc := .recv } else none
    | .ack _ => if p = ackPacket s.lastAcked then some (s.finish .sendError e) else none
    | _ => none
  | .received p =>
    match s.pc with
    | .recv => some (recvReceived x s p)
    | _ => none
  | .recvFailed e =>
    match s.pc with
    | .recv => some (s.finish .recvError e)
    | _ => none
  | .timeout =>
    match s.pc with
    | .recv => some { s with pc := .retryEnter true }
    | _ => none
  | .published p =>
    match s.pc with
    | .publish q => if p = q then some (recvPublished x s p) else none
    | _ => none
  | .publishFailed p e =>
    match s.pc with
    | .publish q => if p = q then some (s.finish .writeError (orEio e)) else none
    | _ => none
  | .drained =>
    match s.pc with
    | .drain final => some { s with pc := if final then .finish else .ack false }
    | _ => none
  | .drainFailed e =>
    match s.pc with
    | .drain _ => some (s.finish .writeError (orEio e))
    | _ => none
  | .finished =>
    match s.pc with
    | .finish => some { s with pc := .ack true }
    | _ => none
  | .finishFailed e =>
    match s.pc with
    | .finish => some (s.finish .writeError (orEio e))
    | _ => none

/-- What a step sends. -/
def RecvLabel.sends : RecvLabel → Option Packet
  | .sent p => some p
  | _ => none

/-- The state in which `tftp_xfer_recv` calls back for the first time. -/
def recvInit (x : Xfer) (a : RecvArgs) : RecvState :=
  let pending (p : Option Packet) : Bool := p.any fun p => 4 ≤ p.length
  let s : RecvState :=
    { replyPending := pending a.initialReply, packetPending := pending a.initialPacket }
  if a.inputSize < x.blocksize + 4 then s.finish .writeError EINVAL else s

/-- The steps of the receiver, one by one. -/
inductive RecvMove (x : Xfer) (a : RecvArgs) (s : RecvState) : RecvLabel → RecvState → Prop where
  | reserved (hpc : s.pc = .reserve) : RecvMove x a s .reserved { s with pc := .retryEnter false }
  | reserveFailed (hpc : s.pc = .reserve) (e : ℤ) :
    RecvMove x a s (.reserveFailed e) (s.finish .writeError (orEio e))
  | entered (r : Bool) (hpc : s.pc = .retryEnter r) :
    RecvMove x a s (.entered r) (if s.replyPending || r then { s with pc := .reply } else recvWait x a s)
  | replied (hpc : s.pc = .reply) : RecvMove x a s (.sent (s.replyPacket a)) (recvWait x a s)
  | recovered (hpc : s.pc = .recover) :
    RecvMove x a s (.sent (ackPacket s.lastReceived)) { s with pc := .recv }
  | acked (final : Bool) (hpc : s.pc = .ack final) :
    RecvMove x a s (.sent (ackPacket s.lastAcked))
      (if final then s.finish .ok 0 none s.lastAcked else { s with pc := .reserve })
  | replyFailed (hpc : s.pc = .reply) (e : ℤ) :
    RecvMove x a s (.sendFailed (s.replyPacket a) e) (s.finish .sendError e)
  | recoveryFailed (hpc : s.pc = .recover) (e : ℤ) :
    RecvMove x a s (.sendFailed (ackPacket s.lastReceived) e) { s with pc := .recv }
  | ackFailed (final : Bool) (hpc : s.pc = .ack final) (e : ℤ) :
    RecvMove x a s (.sendFailed (ackPacket s.lastAcked) e) (s.finish .sendError e)
  | received (hpc : s.pc = .recv) (p : Packet) : RecvMove x a s (.received p) (recvReceived x s p)
  | recvFailed (hpc : s.pc = .recv) (e : ℤ) : RecvMove x a s (.recvFailed e) (s.finish .recvError e)
  | timeout (hpc : s.pc = .recv) : RecvMove x a s .timeout { s with pc := .retryEnter true }
  | published (p : Packet) (hpc : s.pc = .publish p) : RecvMove x a s (.published p) (recvPublished x s p)
  | publishFailed (p : Packet) (hpc : s.pc = .publish p) (e : ℤ) :
    RecvMove x a s (.publishFailed p e) (s.finish .writeError (orEio e))
  | drained (final : Bool) (hpc : s.pc = .drain final) :
    RecvMove x a s .drained { s with pc := if final then .finish else .ack false }
  | drainFailed (final : Bool) (hpc : s.pc = .drain final) (e : ℤ) :
    RecvMove x a s (.drainFailed e) (s.finish .writeError (orEio e))
  | finished (hpc : s.pc = .finish) : RecvMove x a s .finished { s with pc := .ack true }
  | finishFailed (hpc : s.pc = .finish) (e : ℤ) :
    RecvMove x a s (.finishFailed e) (s.finish .writeError (orEio e))

theorem RecvMove.step {x : Xfer} {a : RecvArgs} {s s' : RecvState} {l : RecvLabel} (h : RecvMove x a s l s') :
    recvStep x a s l = some s' := by
  cases h <;> simp [recvStep, *]

theorem recvMove_of_step {x : Xfer} {a : RecvArgs} {s s' : RecvState} {l : RecvLabel}
    (h : recvStep x a s l = some s') : RecvMove x a s l s' := by
  cases l with
  | reserved =>
    cases hpc : s.pc with
    | reserve =>
      simp only [recvStep, hpc, Option.some.injEq] at h
      subst h
      exact .reserved hpc
    | _ => simp [recvStep, hpc] at h
  | reserveFailed e =>
    cases hpc : s.pc with
    | reserve =>
      simp only [recvStep, hpc, Option.some.injEq] at h
      subst h
      exact .reserveFailed hpc e
    | _ => simp [recvStep, hpc] at h
  | entered restarted =>
    cases hpc : s.pc with
    | retryEnter r =>
      simp only [recvStep, hpc, Option.ite_none_right_eq_some, Option.some.injEq] at h
      obtain ⟨rfl, rfl⟩ := h
      exact .entered _ hpc
    | _ => simp [recvStep, hpc] at h
  | sent p =>
    cases hpc : s.pc with
    | reply =>
      simp only [recvStep, hpc, Option.ite_none_right_eq_some, Option.some.injEq] at h
      obtain ⟨rfl, rfl⟩ := h
      exact .replied hpc
    | recover =>
      simp only [recvStep, hpc, Option.ite_none_right_eq_some, Option.some.injEq] at h
      obtain ⟨rfl, rfl⟩ := h
      exact .recovered hpc
    | ack final =>
      simp only [recvStep, hpc, Option.ite_none_right_eq_some, Option.some.injEq] at h
      obtain ⟨rfl, rfl⟩ := h
      exact .acked final hpc
    | _ => simp [recvStep, hpc] at h
  | sendFailed p e =>
    cases hpc : s.pc with
    | reply =>
      simp only [recvStep, hpc, Option.ite_none_right_eq_some, Option.some.injEq] at h
      obtain ⟨rfl, rfl⟩ := h
      exact .replyFailed hpc e
    | recover =>
      simp only [recvStep, hpc, Option.ite_none_right_eq_some, Option.some.injEq] at h
      obtain ⟨rfl, rfl⟩ := h
      exact .recoveryFailed hpc e
    | ack final =>
      simp only [recvStep, hpc, Option.ite_none_right_eq_some, Option.some.injEq] at h
      obtain ⟨rfl, rfl⟩ := h
      exact .ackFailed final hpc e
    | _ => simp [recvStep, hpc] at h
  | received p =>
    cases hpc : s.pc with
    | recv =>
      simp only [recvStep, hpc, Option.some.injEq] at h
      subst h
      exact .received hpc p
    | _ => simp [recvStep, hpc] at h
  | recvFailed e =>
    cases hpc : s.pc with
    | recv =>
      simp only [recvStep, hpc, Option.some.injEq] at h
      subst h
      exact .recvFailed hpc e
    | _ => simp [recvStep, hpc] at h
  | timeout =>
    cases hpc : s.pc with
    | recv =>
      simp only [recvStep, hpc, Option.some.injEq] at h
      subst h
      exact .timeout hpc
    | _ => simp [recvStep, hpc] at h
  | published p =>
    cases hpc : s.pc with
    | publish q =>
      simp only [recvStep, hpc, Option.ite_none_right_eq_some, Option.some.injEq] at h
      obtain ⟨rfl, rfl⟩ := h
      exact .published _ hpc
    | _ => simp [recvStep, hpc] at h
  | publishFailed p e =>
    cases hpc : s.pc with
    | publish q =>
      simp only [recvStep, hpc, Option.ite_none_right_eq_some, Option.some.injEq] at h
      obtain ⟨rfl, rfl⟩ := h
      exact .publishFailed _ hpc e
    | _ => simp [recvStep, hpc] at h
  | drained =>
    cases hpc : s.pc with
    | drain final =>
      simp only [recvStep, hpc, Option.some.injEq] at h
      subst h
      exact .drained final hpc
    | _ => simp [recvStep, hpc] at h
  | drainFailed e =>
    cases hpc : s.pc with
    | drain final =>
      simp only [recvStep, hpc, Option.some.injEq] at h
      subst h
      exact .drainFailed final hpc e
    | _ => simp [recvStep, hpc] at h
  | finished =>
    cases hpc : s.pc with
    | finish =>
      simp only [recvStep, hpc, Option.some.injEq] at h
      subst h
      exact .finished hpc
    | _ => simp [recvStep, hpc] at h
  | finishFailed e =>
    cases hpc : s.pc with
    | finish =>
      simp only [recvStep, hpc, Option.some.injEq] at h
      subst h
      exact .finishFailed hpc e
    | _ => simp [recvStep, hpc] at h

end TftpHpa
