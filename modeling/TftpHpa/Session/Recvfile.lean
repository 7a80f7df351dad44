import TftpHpa.Session.Upload

/-! A worker of the server receiving a file, with the ERROR packet it sends when the transfer fails.
In the session of an upload it was left open when a worker sends one; here it is as in
`tftp_recvfile`, and every run is one of the worker there. -/

namespace TftpHpa

/-- The ERROR packet after a transfer, if there is one. -/
def uploadNak (strerror : ℤ → Bytes) (result : XferResult) : Option Packet :=
  match result.status with
  | .badData => some (nak strerror ErrorCode.badOp.code (some (cstr "data packet too large")))
  | .sizeExceeded => some (nak strerror ErrorCode.access.code (some (cstr "upload exceeds maximum size")))
  | .writeError => some (nak strerror (-result.error) none)
  | _ => none

/-- The worker refuses, or runs, or is about to send an ERROR packet, or has sent it, or is about
to acknowledge the last block once more. -/
inductive Recvfile where
  | refusing (p : Packet)
  | refused
  | running (s : Upload) (last : UInt16)
  | telling (s : Upload) (last : UInt16) (p : Packet)
  | told (s : Upload) (last : UInt16)
  | replying (s : Upload) (last : UInt16)

inductive RecvfileLabel where
  | run (l : UploadLabel)
  /-- `tftp_io_writer_start` has failed with this error. -/
  | startFailed (error : ℤ)
  | dally (p : Packet)
  | sent (p : Packet)
  | sendFailed

def RecvfileLabel.sends : RecvfileLabel → Option Packet
  | .run l => l.sends
  | .sent p => some p
  | _ => none

/-- Whether a step receives a datagram. -/
def UploadLabel.receives : UploadLabel → Bool
  | .step (.engine (.received _) _) => true
  | _ => false

def RecvfileLabel.receives : RecvfileLabel → Bool
  | .run l => l.receives
  | .dally _ => true
  | _ => false

/-- What goes on while the engine is not running. -/
def UploadLabel.background : UploadLabel → Bool
  | .step .thread | .spill _ => true
  | _ => false

/-- The block `daemon_xfer_dally` will look for. -/
def Upload.lastBlock (s : Upload) (last : UInt16) : UInt16 :=
  match s.pc with
  | .stopping result _ _ => result.lastBlock
  | _ => last

namespace Recvfile

/-- The worker after a step of its transfer. -/
def ran (strerror : ℤ → Bytes) (s : Upload) (last : UInt16) : Recvfile :=
  match s.pc with
  | .receiving { recv := { pc := .done result, .. }, .. } =>
    match uploadNak strerror result with
    | some p => telling s last p
    | none => running s last
  | _ => running s (s.lastBlock last)

/-- `tftp_recvfile`. -/
def step (b : UploadArgs) (strerror : ℤ → Bytes) : Recvfile → RecvfileLabel → Option Recvfile
  | refusing p, .sent q => if q = p then some refused else none
  | refusing _, .sendFailed => some refused
  | running s last, .run l =>
    (s.step b l).bind fun s' =>
      match l, s'.pc with
      | .start _, .ended (some _) => none
      | _, _ => some (ran strerror s' last)
  | running s last, .startFailed e =>
    (s.step b (.start true)).bind fun s' =>
      match s'.pc with
      | .ended (some _) => some (telling s' last (nak strerror (-e) none))
      | _ => none
  | running s last, .dally p =>
    match s.pc with
    | .dally =>
      if 4 ≤ p.length ∧ p.opcode = Opcode.data.code ∧ p.block = last then some (replying s last)
      else (s.step b .dally).map fun s' => running s' last
    | _ => none
  | telling s last p, .sent q => if q = p then some (told s last) else none
  | telling s last _, .sendFailed => some (told s last)
  | telling s last p, .run l =>
    if l.background then (s.step b l).map fun s' => telling s' (s'.lastBlock last) p else none
  | told s last, .run l => (s.step b l).map fun s' => told s' (s'.lastBlock last)
  | replying s last, .sent q =>
    if q = ackPacket last then (s.step b .dally).map fun s' => running s' last else none
  | replying s last, .sendFailed => (s.step b .dally).map fun s' => running s' last
  | _, _ => none

/-- The same worker in the session of an upload. -/
def writeWorker (b : UploadArgs) : Recvfile → WriteWorker
  | refusing p => .refusing p
  | refused => .refused
  | running s last | told s last => .receiving b s last
  | telling s last _ => .receiving b s last
  | replying s last => .replying b s last

/-- The transfer is over when there is an ERROR packet to be sent, or when it has been sent. -/
def Tells : Recvfile → Prop
  | telling s _ p => s.leaving = true ∧ p.opcode = Opcode.error.code
  | told s _ => s.leaving = true
  | _ => True

end Recvfile

theorem opcode_uploadNak {strerror : ℤ → Bytes} {result : XferResult} {p : Packet}
    (h : uploadNak strerror result = some p) : p.opcode = Opcode.error.code := by
  unfold uploadNak at h
  split at h
  · exact Option.some.inj h ▸ opcode_nak _ _ _
  · exact Option.some.inj h ▸ opcode_nak _ _ _
  · exact Option.some.inj h ▸ opcode_nak _ _ _
  · cases h

/-- A transfer that is over stays so, and does not send anything. -/
theorem Upload.leaving_step {b : UploadArgs} {s s' : Upload} {l : UploadLabel} (h : s.leaving = true)
    (hs : s.step b l = some s') : s'.leaving = true ∧ l.sends = none := by
  cases hpc : s.pc with
  | start => simp [Upload.leaving, hpc] at h
  | receiving x =>
    simp only [Upload.leaving, hpc] at h
    split at h
    · next result hdone =>
      have hstuck : ∀ e flush, x.step b.xfer b.recvArgs (.engine e flush) = none := by
        intro e flush
        simp only [Receiving.step, recvStep_of_done hdone]
        split <;> simp_all
      cases l with
      | step l =>
        cases l with
        | engine e flush => simp [Upload.step, hpc, hstuck] at hs
        | thread =>
          simp only [Upload.step, hpc] at hs
          obtain ⟨x', hx, hmoved⟩ := Option.bind_eq_some_iff.mp hs
          obtain ⟨⟨io, th⟩, -, rfl⟩ := Option.map_eq_some_iff.mp hx
          obtain rfl := Option.some.inj hmoved
          exact ⟨by simp [Upload.leaving, hdone], rfl⟩
      | timeout => simp [Upload.step, hpc, hstuck] at hs
      | spill n =>
        simp only [Upload.step, hpc, Option.ite_none_right_eq_some, Option.some.injEq] at hs
        obtain ⟨-, rfl⟩ := hs
        exact ⟨by simp [Upload.leaving, hdone], rfl⟩
      | stop =>
        simp only [Upload.step] at hs
        split at hs
        · obtain rfl := Option.some.inj hs
          exact ⟨rfl, rfl⟩
        · cases hs
      | _ => simp [Upload.step, hpc] at hs
    · cases h
  | stopping result io thread =>
    cases l with
    | step l =>
      cases l with
      | engine e flush => simp [Upload.step, hpc] at hs
      | thread =>
        simp only [Upload.step, hpc] at hs
        obtain ⟨r, -, rfl⟩ := Option.map_eq_some_iff.mp hs
        exact ⟨rfl, rfl⟩
    | spill n =>
      simp only [Upload.step, hpc, Option.ite_none_right_eq_some, Option.some.injEq] at hs
      obtain ⟨-, rfl⟩ := hs
      exact ⟨by simp [Upload.leaving], rfl⟩
    | close closed =>
      simp only [Upload.step] at hs
      split at hs
      · split at hs <;>
        · obtain rfl := Option.some.inj hs
          exact ⟨rfl, rfl⟩
      · cases hs
    | _ => simp [Upload.step, hpc] at hs
  | dally =>
    cases l with
    | dally =>
      simp only [Upload.step, hpc, Option.some.injEq] at hs
      subst hs
      exact ⟨rfl, rfl⟩
    | _ => simp [Upload.step, hpc] at hs
  | ended status => cases l <;> simp [Upload.step, hpc] at hs

/-- The session's labels say the same about what is received. -/
theorem receives_writeLabel (l : UploadLabel) : (WriteLabel.run l).receives = l.receives := by
  cases l with
  | step l =>
    cases l with
    | engine e flush => cases e <;> rfl
    | thread => rfl
  | _ => rfl

namespace Recvfile

variable {b : UploadArgs} {strerror : ℤ → Bytes} {w w' : Recvfile} {l : RecvfileLabel}

theorem tells_ran (strerror : ℤ → Bytes) (s : Upload) (last : UInt16) : (ran strerror s last).Tells := by
  unfold ran
  split
  · next hpc =>
    split
    · next p hp => exact ⟨by simp [Upload.leaving, hpc], opcode_uploadNak hp⟩
    · trivial
  · trivial

theorem writeWorker_ran (s : Upload) (last : UInt16) :
    (ran strerror s last).writeWorker b = .receiving b s (s.lastBlock last) := by
  unfold ran
  split
  · next hpc => split <;> simp [writeWorker, Upload.lastBlock, hpc]
  · rfl

/-- A step of the session's worker, when the transfer makes one. -/
theorem writeStep_run {s s' : Upload} {l : UploadLabel} (hs : s.step b l = some s') (last : UInt16) :
    WriteWorker.step (.receiving b s last) (.run l) = some (.receiving b s' (s'.lastBlock last)) := by
  simp only [WriteWorker.step, hs, Option.map_some]
  rfl

/-- The steps of the worker, one by one. -/
inductive Move (b : UploadArgs) (strerror : ℤ → Bytes) : Recvfile → RecvfileLabel → Recvfile → Prop where
  | refused (p : Packet) : Move b strerror (refusing p) (.sent p) refused
  | refusalFailed (p : Packet) : Move b strerror (refusing p) .sendFailed refused
  | ran {s s' : Upload} {l : UploadLabel} (last : UInt16) (hs : s.step b l = some s')
      (hstart : ∀ e status, l = .start e → s'.pc ≠ .ended (some status)) :
    Move b strerror (running s last) (.run l) (ran strerror s' last)
  | startFailed {s s' : Upload} (last : UInt16) (e : ℤ) {status : XferStatus} (hs : s.step b (.start true) = some s')
      (hpc : s'.pc = .ended (some status)) :
    Move b strerror (running s last) (.startFailed e) (telling s' last (nak strerror (-e) none))
  | again {s : Upload} {last : UInt16} {p : Packet} (hpc : s.pc = .dally)
      (hp : 4 ≤ p.length ∧ p.opcode = Opcode.data.code ∧ p.block = last) :
    Move b strerror (running s last) (.dally p) (replying s last)
  | dallied {s s' : Upload} {last : UInt16} {p : Packet} (hpc : s.pc = .dally)
      (hp : ¬ (4 ≤ p.length ∧ p.opcode = Opcode.data.code ∧ p.block = last)) (hs : s.step b .dally = some s') :
    Move b strerror (running s last) (.dally p) (running s' last)
  | told (s : Upload) (last : UInt16) (p : Packet) : Move b strerror (telling s last p) (.sent p) (told s last)
  | tellingFailed (s : Upload) (last : UInt16) (p : Packet) :
    Move b strerror (telling s last p) .sendFailed (told s last)
  | waits {s s' : Upload} {l : UploadLabel} (last : UInt16) (p : Packet) (hl : l.background = true)
      (hs : s.step b l = some s') :
    Move b strerror (telling s last p) (.run l) (telling s' (s'.lastBlock last) p)
  | leaves {s s' : Upload} {l : UploadLabel} (last : UInt16) (hs : s.step b l = some s') :
    Move b strerror (told s last) (.run l) (told s' (s'.lastBlock last))
  | replied {s s' : Upload} (last : UInt16) (hs : s.step b .dally = some s') :
    Move b strerror (replying s last) (.sent (ackPacket last)) (running s' last)
  | replyFailed {s s' : Upload} (last : UInt16) (hs : s.step b .dally = some s') :
    Move b strerror (replying s last) .sendFailed (running s' last)

theorem move_of_step (hs : w.step b strerror l = some w') : Move b strerror w l w' := by
  cases w with
  | refusing p =>
    cases l with
    | sent q =>
      simp only [step, Option.ite_none_right_eq_some, Option.some.injEq] at hs
      obtain ⟨rfl, rfl⟩ := hs
      exact .refused q
    | sendFailed =>
      obtain rfl := Option.some.inj hs
      exact .refusalFailed p
    | _ => cases hs
  | refused => cases hs
  | running s last =>
    cases l with
    | run l =>
      obtain ⟨s', hs', hs⟩ := Option.bind_eq_some_iff.mp hs
      split at hs
      · cases hs
      · next hstart =>
        obtain rfl := Option.some.inj hs
        exact .ran last hs' fun e status he hpc => hstart e status he hpc
    | startFailed e =>
      obtain ⟨s', hs', hs⟩ := Option.bind_eq_some_iff.mp hs
      split at hs
      · next status hpc =>
        obtain rfl := Option.some.inj hs
        exact .startFailed last e hs' hpc
      · cases hs
    | dally p =>
      simp only [step] at hs
      split at hs
      · next hpc =>
        split_ifs at hs with hp
        · obtain rfl := Option.some.inj hs
          exact .again hpc hp
        · obtain ⟨s', hs', rfl⟩ := Option.map_eq_some_iff.mp hs
          exact .dallied hpc hp hs'
      · cases hs
    | _ => cases hs
  | telling s last p =>
    cases l with
    | run l =>
      simp only [step, Option.ite_none_right_eq_some] at hs
      obtain ⟨hl, hs⟩ := hs
      obtain ⟨s', hs', rfl⟩ := Option.map_eq_some_iff.mp hs
      exact .waits last p hl hs'
    | sent q =>
      simp only [step, Option.ite_none_right_eq_some, Option.some.injEq] at hs
      obtain ⟨rfl, rfl⟩ := hs
      exact .told s last q
    | sendFailed =>
      obtain rfl := Option.some.inj hs
      exact .tellingFailed s last p
    | _ => cases hs
  | told s last =>
    cases l with
    | run l =>
      obtain ⟨s', hs', rfl⟩ := Option.map_eq_some_iff.mp hs
      exact .leaves last hs'
    | _ => cases hs
  | replying s last =>
    cases l with
    | sent q =>
      simp only [step, Option.ite_none_right_eq_some] at hs
      obtain ⟨rfl, hs⟩ := hs
      obtain ⟨s', hs', rfl⟩ := Option.map_eq_some_iff.mp hs
      exact .replied last hs'
    | sendFailed =>
      obtain ⟨s', hs', rfl⟩ := Option.map_eq_some_iff.mp hs
      exact .replyFailed last hs'
    | _ => cases hs

theorem Tells.step (h : w.Tells) (hs : w.step b strerror l = some w') : w'.Tells := by
  cases move_of_step hs with
  | ran last hs' hstart => exact tells_ran _ _ _
  | startFailed last e hs' hpc => exact ⟨by simp [Upload.leaving, hpc], opcode_nak _ _ _⟩
  | told s last p => exact h.1
  | tellingFailed s last p => exact h.1
  | waits last p hl hs' => exact ⟨(Upload.leaving_step h.1 hs').1, h.2⟩
  | leaves last hs' => exact (Upload.leaving_step h hs').1
  | _ => trivial

/-- A step of the worker is one of the session's worker that sends and receives the same, or it is
an ERROR packet that could not be sent. -/
theorem step_writeWorker (h : w.Tells) (hs : w.step b strerror l = some w') :
    (w'.writeWorker b = w.writeWorker b ∧ l.sends = none ∧ l.receives = false) ∨
      ∃ l', WriteWorker.step (w.writeWorker b) l' = some (w'.writeWorker b) ∧ l'.sends = l.sends ∧
        l'.receives = l.receives := by
  cases move_of_step hs with
  | refused p => exact .inr ⟨.sent p, by simp [WriteWorker.step, writeWorker], rfl, rfl⟩
  | refusalFailed p => exact .inr ⟨.sendFailed, rfl, rfl, rfl⟩
  | @ran s s' l last hs' hstart =>
    refine .inr ⟨.run l, ?_, rfl, receives_writeLabel l⟩
    rw [writeWorker_ran]
    exact writeStep_run hs' last
  | startFailed last e hs' hpc =>
    refine .inr ⟨.run (.start true), ?_, rfl, rfl⟩
    rw [writeWorker, writeWorker, writeStep_run hs' last]
    simp only [Upload.lastBlock, hpc]
  | @again s last p hpc hp => exact .inr ⟨.dally p, by simp [WriteWorker.step, writeWorker, hpc, hp], rfl, rfl⟩
  | @dallied s s' last p hpc hp hs' =>
    refine .inr ⟨.dally p, ?_, rfl, rfl⟩
    simp only [WriteWorker.step, writeWorker, hpc, if_neg hp, hs', Option.map_some]
  | told s last p => exact .inr ⟨.nak p, by simp [WriteWorker.step, writeWorker, h.1, h.2], rfl, rfl⟩
  | tellingFailed s last p => exact .inl ⟨rfl, rfl, rfl⟩
  | @waits s s' l last p hl hs' => exact .inr ⟨.run l, writeStep_run hs' last, rfl, receives_writeLabel l⟩
  | @leaves s s' l last hs' => exact .inr ⟨.run l, writeStep_run hs' last, rfl, receives_writeLabel l⟩
  | replied last hs' => exact .inr ⟨.sent (ackPacket last), by simp [WriteWorker.step, writeWorker, hs'], rfl, rfl⟩
  | replyFailed last hs' => exact .inr ⟨.sendFailed, by simp [WriteWorker.step, writeWorker, hs'], rfl, rfl⟩

/-- Every run of the worker is a run of the session's worker. -/
theorem run_writeWorker (h : w.Tells) {t : List RecvfileLabel}
    (hrun : Transition.run (Recvfile.step b strerror) w t = some w') :
    ∃ t', Transition.run WriteWorker.step (w.writeWorker b) t' = some (w'.writeWorker b) ∧
      t'.filterMap WriteLabel.sends = t.filterMap RecvfileLabel.sends ∧
      t'.countP WriteLabel.receives = t.countP RecvfileLabel.receives := by
  have hinv := Transition.run_invariant (fun t v => v.Tells ∧ ∃ t',
      Transition.run WriteWorker.step (w.writeWorker b) t' = some (v.writeWorker b) ∧
      t'.filterMap WriteLabel.sends = t.filterMap RecvfileLabel.sends ∧
      t'.countP WriteLabel.receives = t.countP RecvfileLabel.receives) ⟨h, [], rfl, rfl, rfl⟩ ?_ hrun
  · exact hinv.2
  · rintro t v l v' ⟨htells, t', hrun', hsends, hreceives⟩ hs
    refine ⟨htells.step hs, ?_⟩
    rcases step_writeWorker htells hs with ⟨heq, hnone, hfalse⟩ | ⟨l', hstep, hsame, hsame'⟩
    · refine ⟨t', heq ▸ hrun', ?_, ?_⟩
      · simp [hsends, hnone]
      · simp [hreceives, hfalse]
    · refine ⟨t' ++ [l'], Transition.run_concat_eq_some.mpr ⟨_, hrun', hstep⟩, ?_, ?_⟩
      · simp [hsends, List.filterMap_cons, hsame]
      · simp [hreceives, List.countP_singleton, hsame']

end Recvfile

end TftpHpa
