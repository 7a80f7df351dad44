import TftpHpa.Io.WriterRing
import TftpHpa.Xfer.RecvTrace

/-! `tftp_xfer_recv` over the writing ring. The callbacks for the file now have the
outcomes the ring gives them, and the writer thread works between any two steps of
the engine. -/

namespace TftpHpa

open TftpIo (WriterThread WriterInv Resting converted)

structure Receiving where
  recv : RecvState
  io : TftpIo
  thread : WriterThread

/-- A step of the engine, with the error of the `fflush` it makes if any, or a section
of the writer thread. -/
inductive ReceivingLabel where
  | engine (l : RecvLabel) (flush : Option ℤ)
  | thread

/-- What a callback does to the ring; none of it if the ring gives another outcome. -/
def TftpIo.callback (io : TftpIo) (flush : Option ℤ) : RecvLabel → Option TftpIo
  | .reserved =>
    match io.writeReserve with
    | some (.ok _, io) => some io
    | _ => none
  | .reserveFailed e =>
    match io.writeReserve with
    | some (.error e', io) => if e = e' then some io else none
    | _ => none
  | .published p =>
    match (io.copyPacket p).writePublish p.payload.length with
    | (.ok _, io) => some io
    | _ => none
  | .publishFailed p e =>
    match (io.copyPacket p).writePublish p.payload.length with
    | (.error e', io) => if e = e' then some io else none
    | _ => none
  | .drained =>
    match io.writeDrain flush with
    | some (.ok _, io) => some io
    | _ => none
  | .drainFailed e =>
    match io.writeDrain flush with
    | some (.error e', io) => if e = e' then some io else none
    | _ => none
  | .finished =>
    match io.writeFinish flush with
    | (.ok _, io) => some io
    | _ => none
  | .finishFailed e =>
    match io.writeFinish flush with
    | (.error e', io) => if e = e' then some io else none
    | _ => none
  | _ => some io

namespace Receiving

/-- The transfer with its ring and its thread. -/
def step (x : Xfer) (a : RecvArgs) (s : Receiving) : ReceivingLabel → Option Receiving
  | .engine l flush =>
    match s.io.callback flush l, recvStep x a s.recv l with
    | some io, some recv => some { s with recv, io }
    | _, _ => none
  | .thread => (s.io.writerThread s.thread).map fun (io, thread) => { s with io, thread }

/-- A step of the transfer is one of the engine, or leaves the engine alone. -/
theorem step_recv {x : Xfer} {a : RecvArgs} {s s' : Receiving} {l : ReceivingLabel}
    (hs : s.step x a l = some s') :
    (∃ e flush, l = .engine e flush ∧ recvStep x a s.recv e = some s'.recv) ∨ l = .thread ∧ s'.recv = s.recv := by
  cases l with
  | engine e flush =>
    simp only [step] at hs
    split at hs
    · next io recv hio hrecv =>
      cases hs
      exact .inl ⟨e, flush, rfl, hrecv⟩
    · cases hs
  | thread =>
    obtain ⟨⟨io, th⟩, -, rfl⟩ := Option.map_eq_some_iff.mp hs
    exact .inr ⟨rfl, rfl⟩

end Receiving

/-- The payload a step publishes. -/
def ReceivingLabel.payload : ReceivingLabel → List Bytes
  | .engine (.published p) _ => [p.payload]
  | _ => []

/-- Where the engine can be while the file is still being written, or when it has given up. -/
def RecvPc.Unfinished (pc : RecvPc) : Prop :=
  pc ≠ .finish ∧ pc ≠ .ack true ∧ ∀ r, pc = .done r → r.status ≠ .ok

theorem unfinished_finish (s : RecvState) {status : XferStatus} (h : status ≠ .ok) (error : ℤ)
    (packet : Option Packet) (lastBlock : UInt16) : (s.finish status error packet lastBlock).pc.Unfinished := by
  refine ⟨by simp [RecvState.finish], by simp [RecvState.finish], fun r hr => ?_⟩
  cases hr
  exact h

theorem unfinished_recvInit (x : Xfer) (a : RecvArgs) : (recvInit x a).pc.Unfinished := by
  simp only [recvInit]
  split_ifs
  · exact unfinished_finish _ (by decide) _ _ _
  · exact ⟨by simp, by simp, by simp⟩

theorem unfinished_recvAccept (x : Xfer) (s : RecvState) (p : Packet) : (recvAccept x s p).pc.Unfinished := by
  refine recvAccept_rule (P := fun r => r.pc.Unfinished) ?_ ?_ fun _ _ => ?_
  · exact unfinished_finish _ (by decide) _ _ _
  · exact unfinished_finish _ (by decide) _ _ _
  · exact ⟨by simp, by simp, by simp⟩

theorem unfinished_recvWait (x : Xfer) (a : RecvArgs) (s : RecvState) : (recvWait x a s).pc.Unfinished := by
  unfold recvWait
  split
  · exact unfinished_recvAccept _ _ _
  · exact ⟨by simp, by simp, by simp⟩

theorem unfinished_recvReceived (x : Xfer) {s : RecvState} (hs : s.pc.Unfinished) (p : Packet) :
    (recvReceived x s p).pc.Unfinished := by
  refine recvReceived_rule (P := fun r => r.pc.Unfinished) hs ?_ (fun _ _ _ => unfinished_recvAccept _ _ _) ?_
  · exact unfinished_finish _ (by decide) _ _ _
  · exact ⟨by simp, by simp, by simp⟩

theorem unfinished_recvPublished (x : Xfer) (s : RecvState) (p : Packet) :
    (recvPublished x s p).pc.Unfinished := by
  simp only [recvPublished]
  split_ifs
  · exact ⟨by simp, by simp, by simp⟩
  · exact ⟨by simp, by simp, by simp⟩

/-- The engine has brought the file to its end. -/
def RecvPc.Finished (pc : RecvPc) : Prop := pc = .ack true ∨ ∃ r, pc = .done r ∧ r.status = .ok

theorem RecvPc.Unfinished.not_finished {pc : RecvPc} (h : pc.Unfinished) : ¬ pc.Finished := by
  rintro (rfl | ⟨r, rfl, hok⟩)
  · exact h.2.1 rfl
  · exact h.2.2 r rfl hok

/-- The engine finishes with `write_finish`, and the ACK of the last block changes nothing. -/
theorem RecvMove.finished_cases {x : Xfer} {a : RecvArgs} {s s' : RecvState} {l : RecvLabel}
    (h : RecvMove x a s l s') (hf : s'.pc.Finished) : l = .finished ∨ s.pc.Finished ∧ ∃ p, l = .sent p := by
  cases h with
  | finished hpc => exact .inl rfl
  | acked final hpc =>
    cases final with
    | true => exact .inr ⟨.inl hpc, _, rfl⟩
    | false => exact absurd hf (by simp [RecvPc.Finished])
  | entered r hpc =>
    refine absurd hf (RecvPc.Unfinished.not_finished ?_)
    split_ifs
    · exact ⟨by simp, by simp, by simp⟩
    · exact unfinished_recvWait _ _ _
  | replied hpc => exact absurd hf (unfinished_recvWait _ _ _).not_finished
  | received hpc p =>
    exact absurd hf (unfinished_recvReceived x ⟨by simp [hpc], by simp [hpc], by simp [hpc]⟩ p).not_finished
  | published p hpc => exact absurd hf (unfinished_recvPublished _ _ _).not_finished
  | drained final hpc => exact absurd hf (by cases final <;> simp [RecvPc.Finished])
  | reserved hpc | recovered hpc | recoveryFailed hpc e | timeout hpc =>
    exact absurd hf (by simp [RecvPc.Finished])
  | reserveFailed hpc e | replyFailed hpc e | recvFailed hpc e | finishFailed hpc e
  | ackFailed v hpc e | publishFailed v hpc e | drainFailed v hpc e =>
    exact absurd hf (unfinished_finish _ (by decide) _ _ _).not_finished

/-- The file is complete and the thread has nothing left to do. -/
def Complete (convert : Bool) (ps : List Bytes) (io : TftpIo) (th : WriterThread) : Prop :=
  io.file.written = converted convert false ps.flatten ∧ Resting io th

theorem Complete.thread {convert : Bool} {ps : List Bytes} {io io' : TftpIo} {th th' : WriterThread}
    (h : Complete convert ps io th) (hs : io.writerThread th = some (io', th')) : Complete convert ps io' th' := by
  obtain ⟨rfl, hrest⟩ := h.2.thread hs
  exact ⟨h.1, hrest⟩

namespace Receiving

/-- The ring while the transfer runs, and the file once it is complete; when the engine has
given up neither matters. -/
def Phase (convert : Bool) (ps : List Bytes) (io : TftpIo) (th : WriterThread) : RecvPc → Prop
  | .done r => r.status = .ok → Complete convert ps io th
  | .ack true => Complete convert ps io th
  | .finish => WriterInv convert ps io th ∧ io.error = 0 ∧ io.count = 0
  | _ => WriterInv convert ps io th

def Inv (convert : Bool) (ps : List Bytes) (s : Receiving) : Prop := Phase convert ps s.io s.thread s.recv.pc

variable {x : Xfer} {a : RecvArgs} {convert : Bool} {ps : List Bytes} {s s' : Receiving}

theorem Inv.of_writer (h : WriterInv convert ps s.io s.thread) (hpc : s.recv.pc.Unfinished) : Inv convert ps s := by
  unfold Inv
  obtain ⟨h₁, h₂, h₃⟩ := hpc
  cases hp : s.recv.pc with
  | done r => exact fun hok => absurd hok (h₃ r hp)
  | finish => exact absurd hp h₁
  | ack final =>
    cases final with
    | true => exact absurd hp h₂
    | false => exact h
  | _ => exact h

theorem Inv.thread (h : Inv convert ps s) {io : TftpIo} {th : WriterThread}
    (hs : s.io.writerThread s.thread = some (io, th)) : Inv convert ps { s with io, thread := th } := by
  unfold Inv at h ⊢
  cases hp : s.recv.pc with
  | done r => exact fun hok => Complete.thread ((hp ▸ h) hok) hs
  | finish =>
    rw [hp] at h
    obtain ⟨hw, herror, hcount⟩ := h
    obtain ⟨-, hq, hth⟩ := hw.written herror hcount
    obtain ⟨rfl, -⟩ := Resting.thread ⟨hth, hq.head_not_ready⟩ hs
    exact ⟨hw.thread hs, herror, hcount⟩
  | ack final =>
    rw [hp] at h
    cases final with
    | true => exact Complete.thread h hs
    | false => exact WriterInv.thread h hs
  | _ =>
    rw [hp] at h
    exact WriterInv.thread h hs

theorem Inv.give_up {status : XferStatus} (hst : status ≠ .ok) (r : RecvState) (error : ℤ) (packet : Option Packet)
    (lastBlock : UInt16) (io : TftpIo) (th : WriterThread) :
    Inv convert ps ⟨r.finish status error packet lastBlock, io, th⟩ := fun hok => absurd hok hst

theorem Inv.engine (h : Inv convert ps s) {l : RecvLabel} {flush : Option ℤ} {io : TftpIo} {recv : RecvState}
    (hio : s.io.callback flush l = some io) (hrecv : recvStep x a s.recv l = some recv) :
    Inv convert (ps ++ (ReceivingLabel.engine l flush).payload) { s with recv, io } := by
  cases recvMove_of_step hrecv with
  | reserved hpc =>
    rw [Inv, hpc] at h
    simp only [TftpIo.callback] at hio
    split at hio
    · rename_i hres
      obtain rfl := Option.some.inj hio
      simp only [ReceivingLabel.payload, List.append_nil]
      exact .of_writer (h.reserve hres) ⟨by simp, by simp, by simp⟩
    · cases hio
  | reserveFailed hpc e => exact .give_up (by decide) _ _ _ _ _ _
  | entered r hpc =>
    rw [Inv, hpc] at h
    obtain rfl := Option.some.inj hio
    simp only [ReceivingLabel.payload, List.append_nil]
    refine .of_writer h ?_
    split_ifs
    · exact ⟨by simp, by simp, by simp⟩
    · exact unfinished_recvWait _ _ _
  | replied hpc =>
    rw [Inv, hpc] at h
    obtain rfl := Option.some.inj hio
    simp only [ReceivingLabel.payload, List.append_nil]
    exact .of_writer h (unfinished_recvWait _ _ _)
  | recovered hpc =>
    rw [Inv, hpc] at h
    obtain rfl := Option.some.inj hio
    simp only [ReceivingLabel.payload, List.append_nil]
    exact .of_writer h ⟨by simp, by simp, by simp⟩
  | acked final hpc =>
    obtain rfl := Option.some.inj hio
    simp only [ReceivingLabel.payload, List.append_nil]
    cases final with
    | true =>
      rw [Inv, hpc] at h
      exact fun _ => h
    | false =>
      rw [Inv, hpc] at h
      exact .of_writer h ⟨by simp, by simp, by simp⟩
  | replyFailed hpc e => exact .give_up (by decide) _ _ _ _ _ _
  | recoveryFailed hpc e =>
    rw [Inv, hpc] at h
    obtain rfl := Option.some.inj hio
    simp only [ReceivingLabel.payload, List.append_nil]
    exact .of_writer h ⟨by simp, by simp, by simp⟩
  | ackFailed final hpc e => exact .give_up (by decide) _ _ _ _ _ _
  | received hpc p =>
    rw [Inv, hpc] at h
    obtain rfl := Option.some.inj hio
    simp only [ReceivingLabel.payload, List.append_nil]
    exact .of_writer h (unfinished_recvReceived x ⟨by simp [hpc], by simp [hpc], by simp [hpc]⟩ p)
  | recvFailed hpc e => exact .give_up (by decide) _ _ _ _ _ _
  | timeout hpc =>
    rw [Inv, hpc] at h
    obtain rfl := Option.some.inj hio
    simp only [ReceivingLabel.payload, List.append_nil]
    exact .of_writer h ⟨by simp, by simp, by simp⟩
  | published p hpc =>
    rw [Inv, hpc] at h
    simp only [TftpIo.callback] at hio
    split at hio
    · rename_i hpub
      obtain rfl := Option.some.inj hio
      exact .of_writer (h.publish hpub) (unfinished_recvPublished _ _ _)
    · cases hio
  | publishFailed p hpc e => exact .give_up (by decide) _ _ _ _ _ _
  | drained final hpc =>
    rw [Inv, hpc] at h
    simp only [TftpIo.callback] at hio
    split at hio
    · rename_i hdrain
      obtain rfl := Option.some.inj hio
      simp only [ReceivingLabel.payload, List.append_nil]
      cases final with
      | true => exact h.drained hdrain
      | false => exact .of_writer (h.drained hdrain).1 ⟨by simp, by simp, by simp⟩
    · cases hio
  | drainFailed final hpc e => exact .give_up (by decide) _ _ _ _ _ _
  | finished hpc =>
    rw [Inv, hpc] at h
    simp only [TftpIo.callback] at hio
    split at hio
    · rename_i hfin
      obtain rfl := Option.some.inj hio
      simp only [ReceivingLabel.payload, List.append_nil]
      exact h.1.finished h.2.1 h.2.2 hfin
    · cases hio
  | finishFailed hpc e => exact .give_up (by decide) _ _ _ _ _ _

theorem Inv.complete (h : Inv convert ps s) (hf : s.recv.pc.Finished) : Complete convert ps s.io s.thread := by
  unfold Inv at h
  rcases hf with hp | ⟨r, hp, hok⟩
  · rwa [hp] at h
  · rw [hp] at h
    exact h hok

theorem Inv.step (h : Inv convert ps s) {l : ReceivingLabel} (hs : s.step x a l = some s') :
    Inv convert (ps ++ l.payload) s' := by
  cases l with
  | engine l flush =>
    simp only [Receiving.step] at hs
    split at hs
    · rename_i io recv hio hrecv
      obtain rfl := Option.some.inj hs
      exact h.engine hio hrecv
    · cases hs
  | thread =>
    obtain ⟨⟨io, th⟩, hth, rfl⟩ := Option.map_eq_some_iff.mp hs
    simp only [ReceivingLabel.payload, List.append_nil]
    exact h.thread hth

/-- A step that leaves the engine finished is `write_finish`, or leaves the file alone. -/
theorem Inv.step_finished (h : Inv convert ps s) {l : ReceivingLabel} (hs : s.step x a l = some s')
    (hf : s'.recv.pc.Finished) :
    (∃ flush, l = .engine .finished flush) ∨ s.recv.pc.Finished ∧ s'.io.file = s.io.file := by
  cases l with
  | engine l flush =>
    simp only [Receiving.step] at hs
    split at hs
    · rename_i io recv hio hrecv
      obtain rfl := Option.some.inj hs
      rcases (recvMove_of_step hrecv).finished_cases hf with rfl | ⟨hbefore, p, rfl⟩
      · exact .inl ⟨flush, rfl⟩
      · obtain rfl := Option.some.inj hio
        exact .inr ⟨hbefore, rfl⟩
    · cases hs
  | thread =>
    obtain ⟨⟨io, th⟩, hth, rfl⟩ := Option.map_eq_some_iff.mp hs
    obtain ⟨rfl, -⟩ := (h.complete hf).2.thread hth
    exact .inr ⟨hf, rfl⟩

end Receiving

end TftpHpa
