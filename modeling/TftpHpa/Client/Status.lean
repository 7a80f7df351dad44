import TftpHpa.Client.Download
import TftpHpa.Client.Files
import TftpHpa.Client.Put

/-! What `tftp_sendfile` and `tftp_recvfile` of the client return. Both start from success and only
look for the failures they know of. For the sender this is enough; the receiver would also take a
transfer for a success that has exceeded its limit, but has none. -/

namespace TftpHpa

namespace Sysexits

def EX_PROTOCOL : ℕ := 76

end Sysexits

/-- What `tftp_sendfile` makes of the end of its transfer. -/
def sendfileStatus : XferStatus → ℕ
  | .readError | .sendError | .recvError => Sysexits.EX_OSERR
  | .peerError => Sysexits.EX_PROTOCOL
  | _ => 0

/-- What `tftp_recvfile` makes of it. -/
def recvfileStatus : XferStatus → ℕ
  | .badData | .peerError => Sysexits.EX_PROTOCOL
  | .writeError | .sendError | .recvError => Sysexits.EX_OSERR
  | _ => 0

/-! ### The sender -/

/-- An end that is taken for success is one. -/
def SendPc.Reports : SendPc → Prop
  | .done res => sendfileStatus res.status = 0 → res.status = .ok
  | _ => True

section Send

variable {x : Xfer} {s s' : SendState} {l : SendLabel}

/-- A failure the sender knows of. -/
theorem SendState.finish_reports (s : SendState) {status : XferStatus} (h : sendfileStatus status ≠ 0) (e : ℤ)
    (q : Option Packet) : (s.finish status e q).pc.Reports := fun hzero => absurd hzero h

theorem sendFrom_reports (x : Xfer) (s : SendState) (n : ℕ) : (sendFrom x s n).pc.Reports :=
  sendFrom_rule (P := fun s => s.pc.Reports) (fun _ e => s.finish_reports (by decide) e none) (fun _ => trivial) trivial

theorem sendReceived_reports (h : s.pc.Reports) (p : Packet) : (sendReceived x s p).pc.Reports :=
  sendReceived_rule (P := fun s => s.pc.Reports) h (s.finish_reports (by decide) 0 _)
    (fun e => s.finish_reports (by decide) e none) trivial fun n => sendFrom_reports x s n

theorem sendWindow_reports (x : Xfer) (s : SendState) (io : TftpIo) (count : ℕ) (final : Bool) :
    (sendWindow x s io count final).pc.Reports :=
  sendWindow_rule (P := fun s => s.pc.Reports) (fun e => SendState.finish_reports _ (by decide) e none)
    fun _ _ _ => trivial

theorem sendStep_reports (hs : sendStep x s l = some s') (h : s.pc.Reports) : s'.pc.Reports := by
  cases l with
  | thread =>
    obtain ⟨r, -, rfl⟩ := Option.map_eq_some_iff.mp hs
    exact h
  | window count final =>
    simp only [sendStep] at hs
    split at hs
    · split_ifs at hs
      obtain rfl := Option.some.inj hs
      exact sendWindow_reports ..
    · cases hs
  | windowFailed | sendFailed =>
    simp only [sendStep] at hs
    split at hs
    · split_ifs at hs
      obtain rfl := Option.some.inj hs
      apply SendState.finish_reports
      decide
    · cases hs
  | entered | sent =>
    simp only [sendStep] at hs
    split at hs
    · split_ifs at hs
      obtain rfl := Option.some.inj hs
      exact sendFrom_reports ..
    · cases hs
  | received p =>
    simp only [sendStep] at hs
    split at hs
    · obtain rfl := Option.some.inj hs
      exact sendReceived_reports h p
    · cases hs
  | recvFailed e =>
    simp only [sendStep] at hs
    split at hs
    · obtain rfl := Option.some.inj hs
      apply SendState.finish_reports
      decide
    · cases hs
  | timeout =>
    simp only [sendStep] at hs
    split at hs
    · obtain rfl := Option.some.inj hs
      trivial
    · cases hs
  | released =>
    simp only [sendStep] at hs
    split at hs
    · obtain rfl := Option.some.inj hs
      split
      · exact fun _ => rfl
      · trivial
    · cases hs

end Send

def PutPc.Reports : PutPc → Prop
  | .sending _ x => x.pc.Reports
  | _ => True

/-- What the client takes for success is one. -/
theorem Put.step_reports {a : PutArgs} {s s' : Put} {l : PutLabel} (h : s.pc.Reports) (hs : s.step a l = some s') :
    s'.pc.Reports := by
  have htimer : ∀ pc : PutPc, pc.Reports → (s.timer a pc).pc.Reports := by
    intro pc hpc
    unfold Put.timer
    dsimp only
    split
    exacts [trivial, hpc]
  cases l with
  | sent | sendFailed | recvFailed =>
    simp only [Put.step] at hs
    split at hs <;> try split_ifs at hs
    all_goals cases hs
    all_goals trivial
  | reply p =>
    simp only [Put.step] at hs
    split at hs
    · split at hs
      · cases hs
        exact h
      · cases hs
        trivial
      · split at hs
        all_goals
          cases hs
          trivial
    · cases hs
  | step l =>
    obtain ⟨optack, x, x', hpc, hx, hpc'⟩ := Put.step_step hs
    rw [hpc] at h
    rw [hpc']
    exact sendStep_reports hx h
  | timeout =>
    simp only [Put.step] at hs
    split at hs
    · cases hs
      exact htimer _ trivial
    · next optack x hpc =>
      obtain ⟨x', hx, rfl⟩ := Option.map_eq_some_iff.mp hs
      rw [hpc] at h
      exact htimer _ (sendStep_reports hx h)
    · cases hs
  | nak p =>
    simp only [Put.step, Option.ite_none_right_eq_some, Option.some.injEq] at hs
    obtain ⟨-, rfl⟩ := hs
    exact h

/-! ### The receiver -/

def RecvPc.Reports : RecvPc → Prop
  | .done res => recvfileStatus res.status = 0 → res.status = .ok ∨ res.status = .sizeExceeded
  | _ => True

section Recv

variable {x : Xfer} {a : RecvArgs} {s s' : RecvState} {l : RecvLabel}

theorem recvAccept_reports (x : Xfer) (s : RecvState) (p : Packet) : (recvAccept x s p).pc.Reports :=
  recvAccept_rule (P := fun s => s.pc.Reports) (fun h => by cases h) (fun _ => .inr rfl) fun _ _ => trivial

theorem recvWait_reports (x : Xfer) (a : RecvArgs) (s : RecvState) : (recvWait x a s).pc.Reports := by
  unfold recvWait
  split
  · exact recvAccept_reports ..
  · trivial

theorem recvStep_reports (hs : recvStep x a s l = some s') (h : s.pc.Reports) : s'.pc.Reports := by
  cases recvMove_of_step hs with
  | reserved | recovered | recoveryFailed | timeout | finished => trivial
  | reserveFailed | replyFailed | ackFailed | recvFailed | publishFailed | drainFailed | finishFailed =>
    intro h
    cases h
  | entered r =>
    split
    · trivial
    · exact recvWait_reports ..
  | replied => exact recvWait_reports ..
  | acked final =>
    split
    · exact fun _ => .inl rfl
    · trivial
  | received hpc p =>
    exact recvReceived_rule (P := fun s => s.pc.Reports) h (fun h => by cases h)
      (fun _ _ _ => recvAccept_reports ..) trivial
  | published p =>
    unfold recvPublished
    dsimp only
    split <;> trivial
  | drained final => cases final <;> trivial

theorem recvInit_reports (x : Xfer) (a : RecvArgs) : (recvInit x a).pc.Reports := by
  unfold recvInit
  dsimp only
  split
  · intro h
    cases h
  · trivial

end Recv

def DownloadPc.Reports : DownloadPc → Prop
  | .receiving _ _ y => y.recv.pc.Reports
  | _ => True

/-- What the client takes for success is one, or more than it can count. -/
theorem Download.step_reports {a : DownloadArgs} {s s' : Download} {l : DownloadLabel} (h : s.pc.Reports)
    (hs : s.step a l = some s') : s'.pc.Reports := by
  have hengine : ∀ {optack : Optreq} {args : RecvArgs} {y y' : Receiving} {l : ReceivingLabel},
      s.pc = .receiving optack args y → y.step optack.xfer args l = some y' → y'.recv.pc.Reports := by
    intro optack args y y' l hpc hy
    rw [hpc] at h
    rcases Receiving.step_recv hy with ⟨e, flush, -, he⟩ | ⟨-, heq⟩
    · exact recvStep_reports he h
    · rw [heq]
      exact h
  cases l with
  | sent | sendFailed | recvFailed =>
    simp only [Download.step] at hs
    split at hs <;> try split_ifs at hs
    all_goals cases hs
    all_goals trivial
  | reply p =>
    simp only [Download.step] at hs
    split at hs
    · split at hs
      · cases hs
        exact h
      · cases hs
        trivial
      · split at hs
        · cases hs
          trivial
        · cases hs
          exact recvInit_reports ..
    · cases hs
  | step l =>
    obtain ⟨optack, args, y, y', hpc, hy, hpc'⟩ := Download.step_step hs
    rw [hpc']
    exact hengine hpc hy
  | timeout =>
    have htimer : ∀ pc : DownloadPc, pc.Reports → (s.timer a pc).pc.Reports := by
      intro pc hpc
      unfold Download.timer
      dsimp only
      split
      exacts [trivial, hpc]
    simp only [Download.step] at hs
    split at hs
    · cases hs
      exact htimer _ trivial
    · next optack args y hpc =>
      obtain ⟨y', hy, rfl⟩ := Option.map_eq_some_iff.mp hs
      exact htimer _ (hengine hpc hy)
    · cases hs

end TftpHpa
