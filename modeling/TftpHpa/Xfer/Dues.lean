import TftpHpa.Xfer.Recv
import TftpHpa.Xfer.Send

/-! How much an engine can still send before the next datagram comes in. A window, or an ACK, is
sent once and again after every timeout: `full` times in all, of which `left` are left when the
timer has run out before. -/

namespace TftpHpa

/-! ### The sender -/

/-- Whether a step receives a datagram. -/
def SendLabel.receives : SendLabel → Bool
  | .received _ => true
  | _ => false

/-- How often the window will be sent after a step: `retry_enter` starts anew. -/
def SendLabel.left (full left : ℕ) : SendLabel → ℕ
  | .entered false => full
  | _ => left

namespace SendState

/-- The window is no larger than agreed, and within it the sender stands. -/
def Fits (x : Xfer) (s : SendState) : Prop :=
  match s.pc with
  | .retryEnter _ | .recv => s.packetCount ≤ x.windowsize
  | .send n => n < s.packetCount ∧ s.packetCount ≤ x.windowsize
  | _ => True

/-- What the sender can still send; after a read error its caller sends an ERROR packet. -/
def dues (x : Xfer) (full left : ℕ) (s : SendState) : ℕ :=
  match s.pc with
  | .readWindow | .release => full * x.windowsize
  | .retryEnter false => full * s.packetCount
  | .retryEnter true => left * s.packetCount
  | .send n => (s.packetCount - n) + (left - 1) * s.packetCount
  | .recv => (left - 1) * s.packetCount
  | .done result => if result.status = .readError then 1 else 0

end SendState

section
variable {x : Xfer} {full left : ℕ} {s s' : SendState}

theorem dues_finish_le (x : Xfer) (full left : ℕ) (s : SendState) (status : XferStatus) (e : ℤ) (p : Option Packet) :
    (s.finish status e p).dues x full left ≤ 1 := by
  simp only [SendState.finish, SendState.dues]
  split_ifs <;> omega

theorem dues_sendFrom (full left : ℕ) (hcount : s.packetCount ≤ x.windowsize) (n : ℕ) : (sendFrom x s n).Fits x ∧
    (sendFrom x s n).dues x full left ≤ (s.packetCount - n) + (left - 1) * s.packetCount := by
  refine sendFrom_rule (P := fun r => r.Fits x ∧
    r.dues x full left ≤ (s.packetCount - n) + (left - 1) * s.packetCount) (fun hn e => ?_) (fun hn => ?_) ?_
  · exact ⟨trivial, (dues_finish_le x full left s _ _ _).trans (by omega)⟩
  · exact ⟨⟨hn, hcount⟩, le_rfl⟩
  · exact ⟨hcount, Nat.le_add_left _ _⟩

/-- A datagram brings at most a new window. -/
theorem dues_sendReceived (left : ℕ) (hfull : 1 ≤ full) (hwin : 1 ≤ x.windowsize) (hpc : s.pc = .recv) (h : s.Fits x)
    (p : Packet) : (sendReceived x s p).Fits x ∧
      (sendReceived x s p).dues x full left ≤ s.dues x full left + full * x.windowsize := by
  have hcount : s.packetCount ≤ x.windowsize := by
    rw [SendState.Fits, hpc] at h
    exact h
  have hdues : s.dues x full left = (left - 1) * s.packetCount := by rw [SendState.dues, hpc]
  have hpos : 1 * x.windowsize ≤ full * x.windowsize := Nat.mul_le_mul_right _ hfull
  have hfinish : ∀ status e q, (s.finish status e q).Fits x ∧
      (s.finish status e q).dues x full left ≤ s.dues x full left + full * x.windowsize :=
    fun status e q => ⟨trivial, (dues_finish_le x full left s status e q).trans (by omega)⟩
  refine sendReceived_rule (P := fun r => r.Fits x ∧ r.dues x full left ≤ s.dues x full left + full * x.windowsize)
    ⟨h, Nat.le_add_right _ _⟩ (hfinish _ _ _) (fun e => hfinish _ e _) ⟨trivial, Nat.le_add_left _ _⟩ fun n => ?_
  obtain ⟨hfits, hle⟩ := dues_sendFrom full left hcount n
  exact ⟨hfits, by omega⟩

theorem dues_sendWindow (s : SendState) (left : ℕ) (hfull : 1 ≤ full) (hwin : 1 ≤ x.windowsize) (io : TftpIo)
    (count : ℕ) (final : Bool) : (sendWindow x s io count final).Fits x ∧
      (sendWindow x s io count final).dues x full left ≤ full * x.windowsize := by
  have hpos : 1 ≤ full * x.windowsize := Nat.mul_pos hfull hwin
  refine sendWindow_rule (P := fun r => r.Fits x ∧ r.dues x full left ≤ full * x.windowsize) (fun e => ?_)
    fun hle io block => ?_
  · exact ⟨trivial, (dues_finish_le x full left _ _ _ _).trans hpos⟩
  · exact ⟨hle, Nat.mul_le_mul_left full hle⟩

/-- The window now, and then what is left of it anyway. -/
theorem add_pred_mul (hleft : 1 ≤ left) (c : ℕ) : c + (left - 1) * c = left * c := by
  obtain ⟨k, rfl⟩ := Nat.exists_eq_add_of_le hleft
  rw [Nat.add_sub_cancel_left, Nat.add_mul, Nat.one_mul]

/-- A packet that is sent is paid for, and only a datagram gives the sender more to send. -/
theorem dues_sendStep (hfull : 1 ≤ full) (hleft : 1 ≤ left) (hwin : 1 ≤ x.windowsize) (h : s.Fits x) {l : SendLabel}
    (hl : l ≠ .timeout) (hs : sendStep x s l = some s') : s'.Fits x ∧
      l.sends.isSome.toNat + s'.dues x full (l.left full left) ≤
        s.dues x full left + l.receives.toNat * (full * x.windowsize) := by
  have hpos : 1 ≤ full * x.windowsize := Nat.mul_pos hfull hwin
  cases l with
  | thread =>
    obtain ⟨r, -, rfl⟩ := Option.map_eq_some_iff.mp hs
    exact ⟨h, by simp [SendLabel.sends, SendLabel.left, SendState.dues]⟩
  | window count final =>
    simp only [sendStep] at hs
    split at hs
    · next r io hpc hio =>
      split_ifs at hs
      obtain rfl := Option.some.inj hs
      obtain ⟨hfits, hle⟩ := dues_sendWindow s left hfull hwin io count final
      have hbefore : s.dues x full left = full * x.windowsize := by rw [SendState.dues, hpc]
      exact ⟨hfits, by simpa [SendLabel.sends, SendLabel.left, SendLabel.receives, hbefore] using hle⟩
    · cases hs
  | windowFailed e =>
    simp only [sendStep] at hs
    split at hs
    · next e' io hpc hio =>
      split_ifs at hs
      obtain rfl := Option.some.inj hs
      have hle := dues_finish_le x full left { s with io } .readError (orEio e) none
      have hbefore : s.dues x full left = full * x.windowsize := by rw [SendState.dues, hpc]
      exact ⟨trivial, by simpa [SendLabel.sends, SendLabel.left, SendLabel.receives, hbefore] using hle.trans hpos⟩
    · cases hs
  | entered restarted =>
    simp only [sendStep] at hs
    split at hs
    · next r hpc =>
      split_ifs at hs with hr
      subst hr
      obtain rfl := Option.some.inj hs
      rw [SendState.Fits, hpc] at h
      have hnew : (SendLabel.entered r).left full left * s.packetCount = s.dues x full left := by
        cases r <;> simp [SendLabel.left, SendState.dues, hpc]
      have hone : 1 ≤ (SendLabel.entered r).left full left := by
        cases r <;> simpa [SendLabel.left]
      obtain ⟨hfits, hle⟩ := dues_sendFrom full ((SendLabel.entered r).left full left) h 0
      rw [Nat.sub_zero, add_pred_mul hone, hnew] at hle
      exact ⟨hfits, by simpa [SendLabel.sends] using hle.trans (Nat.le_add_right _ _)⟩
    · cases hs
  | sent p =>
    simp only [sendStep] at hs
    split at hs
    · next n hpc =>
      split_ifs at hs
      obtain rfl := Option.some.inj hs
      rw [SendState.Fits, hpc] at h
      obtain ⟨hfits, hle⟩ := dues_sendFrom full left h.2 (n + 1)
      have hbefore : s.dues x full left = (s.packetCount - n) + (left - 1) * s.packetCount := by
        rw [SendState.dues, hpc]
      have hn := h.1
      refine ⟨hfits, ?_⟩
      simp only [SendLabel.sends, SendLabel.left, Option.isSome_some, Bool.toNat_true]
      omega
    · cases hs
  | sendFailed p e =>
    simp only [sendStep] at hs
    split at hs
    · split_ifs at hs
      obtain rfl := Option.some.inj hs
      exact ⟨trivial, by simp [SendLabel.sends, SendState.dues, SendState.finish]⟩
    · cases hs
  | received p =>
    simp only [sendStep] at hs
    split at hs
    · next hpc =>
      obtain rfl := Option.some.inj hs
      obtain ⟨hfits, hle⟩ := dues_sendReceived left hfull hwin hpc h p
      exact ⟨hfits, by simpa [SendLabel.sends, SendLabel.receives, SendLabel.left] using hle⟩
    · cases hs
  | recvFailed e =>
    simp only [sendStep] at hs
    split at hs
    · obtain rfl := Option.some.inj hs
      exact ⟨trivial, by simp [SendLabel.sends, SendState.dues, SendState.finish]⟩
    · cases hs
  | timeout => exact absurd rfl hl
  | released =>
    simp only [sendStep] at hs
    split at hs
    · next hpc =>
      obtain rfl := Option.some.inj hs
      split_ifs
      · exact ⟨trivial, by simp [SendLabel.sends, SendState.dues, SendState.finish]⟩
      · exact ⟨trivial, by simp [SendLabel.sends, SendState.dues, hpc]⟩
    · cases hs

/-- A timeout costs a try. -/
theorem dues_sendTimeout (full left : ℕ) (h : s.Fits x) (hs : sendStep x s .timeout = some s') :
    s'.Fits x ∧ s'.dues x full left = s.dues x full (left + 1) := by
  simp only [sendStep] at hs
  split at hs
  · next hpc =>
    obtain rfl := Option.some.inj hs
    rw [SendState.Fits, hpc] at h
    exact ⟨h, by simp [SendState.dues, hpc]⟩
  · cases hs

end

/-! ### The receiver -/

/-- Whether a step receives a datagram. -/
def RecvLabel.receives : RecvLabel → Bool
  | .received _ => true
  | _ => false

/-- How often the reply will be sent after a step. -/
def RecvLabel.left (full left : ℕ) : RecvLabel → ℕ
  | .entered false => full
  | _ => left

/-- Whether the server sends an ERROR packet when an upload ends like this. -/
def XferStatus.naks : XferStatus → Bool
  | .badData | .sizeExceeded | .writeError => true
  | _ => false

namespace RecvState

/-- No packet is waiting to be taken, and with the first block the initial reply has gone. -/
def Opened (s : RecvState) : Prop :=
  s.packetPending = false ∧
    match s.pc with
    | .publish _ | .drain _ | .finish | .ack _ => s.replyPending = false
    | _ => True

/-- What the receiver can still send, with the ERROR packet of its caller. -/
def dues (full left : ℕ) (s : RecvState) : ℕ :=
  match s.pc with
  | .reserve | .retryEnter false => if s.replyPending then full else full - 1
  | .retryEnter true | .reply | .recover => left
  | .recv => left - 1
  | .publish _ | .drain _ | .finish | .ack _ => full
  | .done result => result.status.naks.toNat

end RecvState

section
variable {x : Xfer} {a : RecvArgs} {full left : ℕ} {s s' : RecvState}

theorem dues_recvFinish_le (full left : ℕ) (s : RecvState) (status : XferStatus) (e : ℤ) (p : Option Packet)
    (last : UInt16) : (s.finish status e p last).dues full left ≤ 1 := Bool.toNat_le _

theorem dues_recvReceived (x : Xfer) (left : ℕ) (hfull : 1 ≤ full) (h : s.Opened) (hpc : s.pc = .recv) (p : Packet) :
    (recvReceived x s p).Opened ∧ (recvReceived x s p).dues full left ≤ s.dues full left + full := by
  have hbefore : s.dues full left = left - 1 := by rw [RecvState.dues, hpc]
  have hdone : ∀ (r : RecvState) status e q last, r.packetPending = false → (r.finish status e q last).Opened ∧
      (r.finish status e q last).dues full left ≤ s.dues full left + full := fun r status e q last hr =>
    ⟨⟨hr, trivial⟩, (dues_recvFinish_le full left r status e q last).trans (by omega)⟩
  refine recvReceived_rule (P := fun r => r.Opened ∧ r.dues full left ≤ s.dues full left + full)
    ⟨h, Nat.le_add_right _ _⟩ (hdone s _ _ _ _ h.1) (fun _ _ _ => ?_) ⟨⟨h.1, trivial⟩, ?_⟩
  · exact recvAccept_rule (P := fun r => r.Opened ∧ r.dues full left ≤ s.dues full left + full)
      (hdone _ _ _ _ _ h.1) (hdone _ _ _ _ _ h.1) fun _ _ => ⟨⟨h.1, rfl⟩, Nat.le_add_left _ _⟩
  · rw [hbefore]
    simp only [RecvState.dues]
    omega

theorem dues_recvPublished (x : Xfer) (full left : ℕ) (h : s.Opened) {q : Packet} (hpc : s.pc = .publish q)
    (p : Packet) : (recvPublished x s p).Opened ∧ (recvPublished x s p).dues full left ≤ full := by
  obtain ⟨hpacket, hreply⟩ := h
  rw [hpc] at hreply
  unfold recvPublished
  dsimp only
  split_ifs
  · exact ⟨⟨hpacket, hreply⟩, le_rfl⟩
  · exact ⟨⟨hpacket, trivial⟩, by simp [RecvState.dues, hreply]⟩

/-- A packet that is sent is paid for, and only a datagram gives the receiver more to send. -/
theorem dues_recvStep (hfull : 2 ≤ full) (hleft : 1 ≤ left) (h : s.Opened) {l : RecvLabel} (hl : l ≠ .timeout)
    (hs : recvStep x a s l = some s') : s'.Opened ∧
      l.sends.isSome.toNat + s'.dues full (l.left full left) ≤ s.dues full left + l.receives.toNat * full := by
  have hreply := h.2
  cases recvMove_of_step hs with
  | reserved hpc =>
    exact ⟨⟨h.1, trivial⟩, by simp [RecvLabel.sends, RecvState.dues, hpc]⟩
  | entered r hpc =>
    split_ifs with hpending
    · refine ⟨⟨h.1, trivial⟩, ?_⟩
      cases r with
      | true => simp [RecvLabel.sends, RecvLabel.left, RecvState.dues, hpc]
      | false =>
        rw [Bool.or_false] at hpending
        simp [RecvLabel.sends, RecvLabel.left, RecvState.dues, hpc, hpending]
    · rw [recvWait_of_not_pending x a h.1]
      refine ⟨⟨h.1, trivial⟩, ?_⟩
      cases r with
      | true => simp at hpending
      | false =>
        rw [Bool.or_false] at hpending
        simp [RecvLabel.sends, RecvLabel.left, RecvState.dues, hpc, hpending]
  | replied hpc =>
    rw [recvWait_of_not_pending x a h.1]
    refine ⟨⟨h.1, trivial⟩, ?_⟩
    simp only [RecvLabel.sends, RecvLabel.left, RecvState.dues, hpc, Option.isSome_some, Bool.toNat_true]
    omega
  | recovered hpc =>
    refine ⟨⟨h.1, trivial⟩, ?_⟩
    simp only [RecvLabel.sends, RecvLabel.left, RecvState.dues, hpc, Option.isSome_some, Bool.toNat_true]
    omega
  | recoveryFailed hpc e =>
    refine ⟨⟨h.1, trivial⟩, ?_⟩
    simp only [RecvLabel.sends, RecvLabel.left, RecvState.dues, hpc, Option.isSome_none, Bool.toNat_false]
    omega
  | acked final hpc =>
    rw [hpc] at hreply
    split_ifs
    · exact ⟨⟨h.1, trivial⟩, by simp [RecvLabel.sends, RecvState.dues, RecvState.finish, XferStatus.naks, hpc]; omega⟩
    · exact ⟨⟨h.1, trivial⟩, by simp [RecvLabel.sends, RecvState.dues, hpc, hreply]; omega⟩
  | received hpc p =>
    obtain ⟨hopened, hle⟩ := dues_recvReceived x left (Nat.le_of_succ_le hfull) h hpc p
    exact ⟨hopened, by simpa [RecvLabel.sends, RecvLabel.left, RecvLabel.receives] using hle⟩
  | timeout hpc => exact absurd rfl hl
  | published p hpc =>
    obtain ⟨hopened, hle⟩ := dues_recvPublished x full left h hpc p
    have hbefore : s.dues full left = full := by rw [RecvState.dues, hpc]
    exact ⟨hopened, by simpa [RecvLabel.sends, RecvLabel.left, RecvLabel.receives, hbefore] using hle⟩
  | drained final hpc =>
    rw [hpc] at hreply
    cases final with
    | true => exact ⟨⟨h.1, hreply⟩, by simp [RecvLabel.sends, RecvState.dues, hpc]⟩
    | false => exact ⟨⟨h.1, hreply⟩, by simp [RecvLabel.sends, RecvState.dues, hpc]⟩
  | finished hpc =>
    rw [hpc] at hreply
    exact ⟨⟨h.1, hreply⟩, by simp [RecvLabel.sends, RecvState.dues, hpc]⟩
  | replyFailed hpc e | ackFailed final hpc e | recvFailed hpc e =>
    exact ⟨⟨h.1, trivial⟩, by simp [RecvLabel.sends, RecvState.dues, RecvState.finish, XferStatus.naks]⟩
  | reserveFailed hpc e =>
    refine ⟨⟨h.1, trivial⟩, ?_⟩
    simp only [RecvLabel.sends, RecvState.dues, RecvState.finish, XferStatus.naks, hpc, Option.isSome_none,
      Bool.toNat_false, Bool.toNat_true]
    split_ifs <;> omega
  | finishFailed hpc e | publishFailed v hpc e | drainFailed v hpc e =>
    refine ⟨⟨h.1, trivial⟩, ?_⟩
    simp only [RecvLabel.sends, RecvState.dues, RecvState.finish, XferStatus.naks, hpc, Option.isSome_none,
      Bool.toNat_false, Bool.toNat_true]
    omega

/-- A timeout costs a try. -/
theorem dues_recvTimeout (full left : ℕ) (h : s.Opened) (hs : recvStep x a s .timeout = some s') :
    s'.Opened ∧ s'.dues full left = s.dues full (left + 1) := by
  cases recvMove_of_step hs with
  | timeout hpc => exact ⟨⟨h.1, trivial⟩, by simp [RecvState.dues, hpc]⟩

end

end TftpHpa
