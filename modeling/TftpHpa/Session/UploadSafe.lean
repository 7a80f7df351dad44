import TftpHpa.Session.Upload

/-! What the workers of an upload have written. A client that has not begun is served by none of
them, and the one it then listens to has written the whole file when either side succeeds. -/

namespace TftpHpa

open Channel (Discipline receive)
open Peers (Line)
open Transition (run)

/-! ### Workers with nothing to receive -/

/-- A worker that sends nothing but ERROR packets: it refuses the request, or it has no block size
to write with. -/
def WriteWorker.Mute : WriteWorker → Prop
  | refusing p => p.opcode = Opcode.error.code
  | refused => True
  | receiving b s _ => b.request.daemon.segsize = 0 ∧
    match s.pc with
    | .start | .ended none | .ended (some .writeError) => True
    | _ => False
  | replying _ _ _ => False

/-- The client has not called the engine. -/
def PutPc.Idle : PutPc → Prop
  | .sending _ _ => False
  | _ => True

theorem WriteWorker.Mute.step {v v' : WriteWorker} (h : v.Mute) {l : WriteLabel} (hs : v.step l = some v') :
    v'.Mute ∧ ∀ p, l.sends = some p → p.opcode = Opcode.error.code := by
  cases v with
  | refused => cases hs
  | replying b s last => cases h
  | refusing q =>
    cases l with
    | sent p =>
      simp only [WriteWorker.step, Option.ite_none_right_eq_some] at hs
      obtain ⟨rfl, hs⟩ := hs
      cases hs
      exact ⟨trivial, fun p hp => Option.some.inj hp ▸ h⟩
    | sendFailed =>
      cases hs
      exact ⟨trivial, fun p hp => by cases hp⟩
    | _ => cases hs
  | receiving b s last =>
    cases l with
    | nak p =>
      simp only [WriteWorker.step, Option.ite_none_right_eq_some, Option.some.injEq] at hs
      obtain ⟨⟨-, hp⟩, rfl⟩ := hs
      exact ⟨h, fun q hq => Option.some.inj hq ▸ hp⟩
    | run l =>
      obtain ⟨s', hs', rfl⟩ := Option.map_eq_some_iff.mp hs
      obtain ⟨hseg, hpc⟩ := h
      split at hpc
      · next hp =>
        cases l with
        | start e =>
          refine ⟨⟨hseg, ?_⟩, fun p hp => by cases hp⟩
          simp only [Upload.step, hp] at hs'
          split at hs'
          · cases hs'
            trivial
          · have hnone : ∀ slots, b.writerStart slots = none := fun slots => by
              rw [UploadArgs.writerStart, TftpIo.writerStart, TftpIo.ioStart, if_pos (.inr (.inl hseg))]
            simp only [hnone, Option.some.injEq] at hs'
            cases hs'
            trivial
        | _ => simp [Upload.step, hp] at hs'
      · next hp => cases l <;> simp [Upload.step, hp] at hs'
      · next hp => cases l <;> simp [Upload.step, hp] at hs'
      · cases hpc
    | dally p =>
      obtain ⟨hseg, hpc⟩ := h
      split at hpc
      · next hp => simp [WriteWorker.step, hp] at hs
      · next hp => simp [WriteWorker.step, hp] at hs
      · next hp => simp [WriteWorker.step, hp] at hs
      · cases hpc
    | _ => cases hs

/-- Such a worker waits for nothing. -/
theorem WriteWorker.Mute.deaf {v : WriteWorker} (h : v.Mute) (p : Packet) : v.step (v.input p) = none := by
  cases v with
  | refused => rfl
  | refusing q => rfl
  | replying b s last => cases h
  | receiving b s last =>
    obtain ⟨pc, timeout, disk⟩ := s
    obtain ⟨-, hpc⟩ := h
    cases pc with
    | start | ended status => rfl
    | _ => cases hpc

namespace PutPc.Idle

variable {a : PutArgs} {c c' : Put}

/-- Without an answer the client repeats its request. -/
theorem move (h : c.pc.Idle) {l : PutLabel} (hl : l.receives = false) (hs : c.step a l = some c') :
    c'.pc.Idle ∧ ∀ p, l.sends = some p → p = a.request ∨ p.opcode = Opcode.error.code := by
  cases l with
  | reply p => cases hl
  | nak p =>
    simp only [Put.step, Option.ite_none_right_eq_some, Option.some.injEq] at hs
    obtain ⟨⟨-, hp⟩, rfl⟩ := hs
    exact ⟨h, fun q hq => .inr (Option.some.inj hq ▸ hp)⟩
  | sent p =>
    simp only [Put.step] at hs
    split at hs
    · split_ifs at hs with hp
      cases hs
      exact ⟨trivial, fun q hq => .inl (Option.some.inj hq ▸ hp)⟩
    · cases hs
  | step l =>
    obtain ⟨optack, x, x', hpc, -⟩ := Put.step_step hs
    rw [hpc] at h
    cases h
  | sendFailed | recvFailed =>
    simp only [Put.step] at hs
    split at hs
    · cases hs
      exact ⟨trivial, fun q hq => by cases hq⟩
    · cases hs
  | timeout =>
    simp only [Put.step] at hs
    split at hs
    · cases hs
      refine ⟨?_, fun q hq => by cases hq⟩
      simp only [Put.timer]
      split_ifs <;> trivial
    · next hpc =>
      rw [hpc] at h
      cases h
    · cases hs

/-- An ERROR packet ends the call. -/
theorem hears (h : c.pc.Idle) {m : Packet} (hm : m.opcode = Opcode.error.code)
    (hs : c.step a (c.input m) = some c') : c'.pc.Idle := by
  cases hpc : c.pc with
  | sending optack x =>
    rw [hpc] at h
    cases h
  | waiting =>
    simp only [Put.input, hpc, Put.step, putAnswer, opcode_take (show 2 ≤ TFTP_REPLY_MAX_PACKET_SIZE by decide), hm,
      if_true] at hs
    split_ifs at hs with hshort
    · cases hs
      exact h
    · cases hs
      trivial
  | _ =>
    simp only [Put.input, hpc, Put.step] at hs
    cases hs

end PutPc.Idle

/-! ### The worker -/

/-- A step of a worker is one of its transfer, or sends an ERROR packet, or is the last one of
`daemon_xfer_dally`. -/
theorem WriteWorker.step_upload {v v' : WriteWorker} {l : WriteLabel} {b : UploadArgs} {s : Upload}
    (hv : v.upload = some (b, s)) (hs : v.step l = some v') : ∃ s', v'.upload = some (b, s') ∧
      ((∃ m, l = .run m ∧ s.step b m = some s') ∨ (∃ p, l = .nak p ∧ p.opcode = Opcode.error.code ∧ s' = s) ∨
        s.pc = .dally ∧ (s' = s ∨ s.step b .dally = some s')) := by
  have hpc : ∀ {s' : Upload}, s.step b .dally = some s' → s.pc = .dally := by
    intro s' hs'
    simp only [Upload.step] at hs'
    split at hs'
    · assumption
    · cases hs'
  cases v with
  | refusing p | refused => cases hv
  | receiving b' s₀ last =>
    cases hv
    cases l with
    | run m =>
      obtain ⟨s', hs', rfl⟩ := Option.map_eq_some_iff.mp hs
      exact ⟨s', rfl, .inl ⟨m, rfl, hs'⟩⟩
    | nak p =>
      simp only [WriteWorker.step, Option.ite_none_right_eq_some, Option.some.injEq] at hs
      obtain ⟨⟨-, hp⟩, rfl⟩ := hs
      exact ⟨s, rfl, .inr (.inl ⟨p, rfl, hp, rfl⟩)⟩
    | dally p =>
      simp only [WriteWorker.step] at hs
      split at hs
      · next hd =>
        split_ifs at hs
        · cases hs
          exact ⟨s, rfl, .inr (.inr ⟨hd, .inl rfl⟩)⟩
        · obtain ⟨s', hs', rfl⟩ := Option.map_eq_some_iff.mp hs
          exact ⟨s', rfl, .inr (.inr ⟨hd, .inr hs'⟩)⟩
      · cases hs
    | _ => cases hs
  | replying b' s₀ last =>
    cases hv
    cases l with
    | sent q =>
      simp only [WriteWorker.step, Option.ite_none_right_eq_some] at hs
      obtain ⟨s', hs', rfl⟩ := Option.map_eq_some_iff.mp hs.2
      exact ⟨s', rfl, .inr (.inr ⟨hpc hs', .inr hs'⟩)⟩
    | sendFailed =>
      obtain ⟨s', hs', rfl⟩ := Option.map_eq_some_iff.mp hs
      exact ⟨s', rfl, .inr (.inr ⟨hpc hs', .inr hs'⟩)⟩
    | _ => cases hs

section
variable {d : Discipline} {b : UploadArgs} {io : TftpIo} {pc : PutPc} {s : Upload} {up up' down : List Packet}
  {ps : List Bytes} {w : World} {optreq : Optreq} {v v' : WriteWorker} {l : WriteLabel}

theorem Stores.not_dally (h : Stores d b io pc s up down ps w) : s.pc ≠ .dally := by
  intro hpc
  have hworker := h.worker
  rw [hpc] at hworker
  cases hworker

theorem Stores.worker_moves (h : Stores d b io pc s up down ps w) (hterms : Terms optreq b.request)
    (hv : v.upload = some (b, s)) (hl : l.receives = false) (hs : v.step l = some v') :
    ∃ s', v'.upload = some (b, s') ∧ ((∃ ps' w', Stores d b io pc s' up (down ++ l.sends.toList) ps' w') ∨
      s.Succeeded ∧ ∃ m, s.step b m = some s') := by
  obtain ⟨s', hv', ⟨m, rfl, hs'⟩ | ⟨p, rfl, hp, rfl⟩ | ⟨hpc, -⟩⟩ := WriteWorker.step_upload hv hs
  · refine ⟨s', hv', ?_⟩
    have hin : ∀ p flush, m ≠ .step (.engine (.received p) flush) := by
      rintro p flush rfl
      cases hl
    rcases h.move hterms hin hs' with h' | hsucc
    · exact .inl h'
    · exact .inr ⟨hsucc, m, hs'⟩
  · exact ⟨s', hv', .inl ⟨ps, w, h.tells hp⟩⟩
  · exact absurd hpc h.not_dally

theorem Stores.worker_hears (h : Stores d b io pc s up down ps w) (hv : v.upload = some (b, s)) {m : Packet}
    (hm : receive d up m = some up') (hs : v.step (v.input m) = some v') :
    ∃ s', v'.upload = some (b, s') ∧ ∃ w', Stores d b io pc s' up' down ps w' := by
  obtain ⟨s', hv', ⟨e, hl, hs'⟩ | ⟨p, hl, -⟩ | ⟨hpc, -⟩⟩ := WriteWorker.step_upload hv hs
  · refine ⟨s', hv', ?_⟩
    unfold WriteWorker.input at hl
    split at hl
    · next b' y timeout disk last =>
      cases hl
      cases hv
      exact h.hears hm rfl hs'
    · cases hl
  · unfold WriteWorker.input at hl
    split at hl <;> cases hl
  · exact absurd hpc h.not_dally

/-- The file stays as it is. -/
theorem Upload.Stored.worker_step {convert : Bool} (h : s.Stored convert ps) (hv : v.upload = some (b, s))
    (hs : v.step l = some v') : ∃ s', v'.upload = some (b, s') ∧ s'.Stored convert ps := by
  obtain ⟨s', hv', ⟨m, -, hs'⟩ | ⟨p, -, -, rfl⟩ | ⟨-, rfl | hs'⟩⟩ := WriteWorker.step_upload hv hs
  · exact ⟨s', hv', h.step hs'⟩
  · exact ⟨s', hv', h⟩
  · exact ⟨s', hv', h⟩
  · exact ⟨s', hv', h.step hs'⟩

end

/-! ### The session -/

/-- A worker that can work with what the client offers. -/
structure TakesUpload (a : PutArgs) (b : UploadArgs) : Prop where
  terms : Terms a.optreq b.request
  convert_eq : b.request.format.convert = a.convert
  segsize_ne : b.request.daemon.segsize ≠ 0

/-- A worker that nobody has sent anything to. -/
def Awaits (d : Discipline) (a : PutArgs) (line : Line WriteWorker Packet) : Prop :=
  line.up = [] ∧ ((line.worker.Mute ∧ ∀ p ∈ line.down, p.opcode = Opcode.error.code) ∨
    ∃ b s, line.worker.upload = some (b, s) ∧ TakesUpload a b ∧
      ∃ ps w, Stores d b (a.reader b) .waiting s [] line.down ps w)

/-- A client and the worker it listens to: the one has nothing to listen for, or the other has the
file, or they are at it. -/
def Feeds (d : Discipline) (a : PutArgs) (pc : PutPc) (line : Line WriteWorker Packet) : Prop :=
  (line.worker.Mute ∧ pc.Idle ∧ ∀ p ∈ line.down, p.opcode = Opcode.error.code) ∨
    ∃ b s, line.worker.upload = some (b, s) ∧ TakesUpload a b ∧ (Numbered d b.session a.stream →
      (∃ ps, s.Stored a.convert ps ∧ ps.flatten = a.stream) ∨
        ∃ ps w, Stores d b (a.reader b) pc s line.up line.down ps w)

/-- A size that `fstat` gives can be announced. -/
theorem sendTsize_le {mode : Bytes} {st : Option FileStat} (h : ∀ s, st = some s → s.size ≤ OFF_T_MAX) :
    sendTsize mode st ≤ OFF_T_MAX := by
  unfold sendTsize
  split
  · decide
  · next s =>
    dsimp only
    split_ifs
    · exact_mod_cast h s rfl
    · decide

namespace Awaits

variable {d : Discipline} {a : PutArgs} {c c' : Put} {line line' : Line WriteWorker Packet}

theorem worker (h : Awaits d a line) {l : WriteLabel} (hs : line.move (uploadSystem a).worker l = some line') :
    Awaits d a line' := by
  simp only [Line.move, Option.ite_none_left_eq_some] at hs
  obtain ⟨hl, hs⟩ := hs
  obtain ⟨v, hv, rfl⟩ := Option.map_eq_some_iff.mp hs
  obtain ⟨hup, ⟨hmute, hdown⟩ | ⟨b, s, hw, hb, ps, w, hstores⟩⟩ := h
  · obtain ⟨hmute', hsent⟩ := hmute.step hv
    refine ⟨hup, .inl ⟨hmute', fun p hp => ?_⟩⟩
    rcases List.mem_append.mp hp with hp | hp
    · exact hdown p hp
    · exact hsent p (Option.mem_toList.mp hp)
  · obtain ⟨s', hw', ⟨ps', w', hstores'⟩ | ⟨hsucc, -⟩⟩ :=
      hstores.worker_moves hb.terms hw (Bool.eq_false_of_not_eq_true hl) hv
    · exact ⟨hup, .inr ⟨b, s', hw', hb, ps', w', hstores'⟩⟩
    · exact absurd hsucc (hstores.not_succeeded trivial)

theorem losesDown (n : ℕ) (h : Awaits d a line) : Awaits d a (line.loseDown n) := by
  have hsub := List.eraseIdx_sublist line.down n
  obtain ⟨hup, ⟨hmute, hdown⟩ | ⟨b, s, hw, hb, ps, w, hstores⟩⟩ := h
  · exact ⟨hup, .inl ⟨hmute, fun p hp => hdown p (hsub.subset hp)⟩⟩
  · obtain ⟨w', hstores', -⟩ := hstores.lessDown hsub (Channel.filter_eraseIdx _ _ n)
    exact ⟨hup, .inr ⟨b, s, hw, hb, ps, w', hstores'⟩⟩

theorem losesUp (n : ℕ) (h : Awaits d a line) : Awaits d a (line.loseUp n) := by
  obtain ⟨hup, h⟩ := h
  exact ⟨by rw [Line.loseUp, hup]; rfl, h⟩

/-- A worker says nothing so short that the client would not look at it. -/
theorem settles (h : Awaits d a line) {m : Packet} (hm : m ∈ line.down) : 2 ≤ m.length := by
  apply two_le_length_of_opcode
  obtain ⟨-, ⟨-, hdown⟩ | ⟨b, s, -, hb, ps, w, hstores⟩⟩ := h
  · rw [hdown m hm]
    decide
  · rcases hstores.down_cases m hm with ⟨n, rfl⟩ | ho | herr
    · rw [opcode_ackPacket]
      decide
    · rw [(hb.terms.oack m ho).1]
      decide
    · rw [herr]
      decide

/-- The client gets its first answer. -/
theorem meets (h : Awaits d a line) (hpc : c.pc = .waiting) {m : Packet} {down : List Packet}
    (hm : receive d line.down m = some down) (hs : c.step a (c.input m) = some c') :
    Feeds d a c'.pc { line with down } := by
  have hsub := Channel.sublist_of_receive hm
  obtain ⟨hup, ⟨hmute, hdown⟩ | ⟨b, s, hw, hb, ps, w, hstores⟩⟩ := h
  · have hidle : c.pc.Idle := by
      rw [hpc]
      trivial
    exact .inl ⟨hmute, hidle.hears (hdown m (Channel.mem_of_receive hm)) hs, fun p hp => hdown p (hsub.subset hp)⟩
  · rw [← hup, ← hpc] at hstores
    obtain ⟨w', hstores'⟩ := hstores.client_hears hb.terms hb.segsize_ne hm hs
    exact .inr ⟨b, s, hw, hb, fun _ => .inr ⟨ps, w', hstores'⟩⟩

/-- A worker that has just been started. -/
theorem start {cc : ClientConfig} {peer : Socket} {st : Option FileStat} {name : Bytes} {pf : Format}
    (ha : a.Puts cc peer st name pf) {env : WriteEnv} {v : WriteWorker} (hs : env.start a.request = some v) :
    Awaits d a { worker := v } := by
  refine ⟨rfl, ?_⟩
  simp only [WriteEnv.start, Option.ite_none_right_eq_some] at hs
  obtain ⟨-, hs⟩ := hs
  split at hs
  · next r hr =>
    obtain rfl := Option.some.inj hs
    set b : UploadArgs := ⟨r, env.pthread, env.cancreate, env.room⟩ with hb
    rcases Bool.eq_false_or_eq_true env.config.rejectAllOptions with hc | hc
    · exact .inl ⟨⟨(tftp_rejectAll hc hr).2, trivial⟩, fun p hp => by cases hp⟩
    · obtain ⟨hterms, hformat⟩ := Terms.of_request hc (sendTsize_le ha.size_le) ha.zero_notMem ha.request_eq hr
      have hseg : r.daemon.segsize ≠ 0 := by
        obtain ⟨args, file, -, -, -, -, hn⟩ := tftp_eq_ok hr
        have hneg := (negotiateOptions_negotiated hc env.peer (.start env.config args.opts file)).1
        rw [hn] at hneg
        exact (lt_of_lt_of_le (by decide) hneg.segsize_ge).ne'
      refine .inr ⟨b, b.init, rfl, ⟨hterms, by rw [ha.convert_eq, ← hformat], hseg⟩, [], _, .init d b.session _, rfl,
        rfl, ⟨rfl, rfl⟩, fun p hp => (by cases hp), fun _ => ⟨fun p hp => (by cases hp), fun p hp => (by cases hp),
        fun args r hr => (by cases hr)⟩⟩
  · next error msg _ =>
    obtain rfl := Option.some.inj hs
    exact .inl ⟨opcode_nak _ _ _, fun p hp => by cases hp⟩
  · cases hs

end Awaits

namespace Feeds

variable {d : Discipline} {a : PutArgs} {pc : PutPc} {c c' : Put} {line line' : Line WriteWorker Packet}

theorem worker (h : Feeds d a pc line) {l : WriteLabel} (hs : line.move (uploadSystem a).worker l = some line') :
    Feeds d a pc line' := by
  simp only [Line.move, Option.ite_none_left_eq_some] at hs
  obtain ⟨hl, hs⟩ := hs
  obtain ⟨v, hv, rfl⟩ := Option.map_eq_some_iff.mp hs
  rcases h with ⟨hmute, hidle, hdown⟩ | ⟨b, s, hw, hb, h⟩
  · obtain ⟨hmute', hsent⟩ := hmute.step hv
    refine .inl ⟨hmute', hidle, fun p hp => ?_⟩
    rcases List.mem_append.mp hp with hp | hp
    · exact hdown p hp
    · exact hsent p (Option.mem_toList.mp hp)
  · obtain ⟨s', hw', -⟩ := WriteWorker.step_upload hw hv
    refine .inr ⟨b, s', hw', hb, fun hnum => ?_⟩
    rcases h hnum with ⟨ps, hstored, hps⟩ | ⟨ps, w, hstores⟩
    · obtain ⟨s'', hw'', hstored'⟩ := hstored.worker_step hw hv
      cases hw'.symm.trans hw''
      exact .inl ⟨ps, hstored', hps⟩
    · obtain ⟨s'', hw'', hcase⟩ := hstores.worker_moves hb.terms hw (Bool.eq_false_of_not_eq_true hl) hv
      cases hw'.symm.trans hw''
      rcases hcase with ⟨ps', w', hstores'⟩ | ⟨hsucc, m, hm⟩
      · exact .inr ⟨ps', w', hstores'⟩
      · obtain ⟨hstored, hps⟩ := hstores.stored hb.terms hb.convert_eq hb.segsize_ne hnum hsucc
        exact .inl ⟨ps, hstored.step hm, hps⟩

theorem hears (h : Feeds d a pc line) {m : Packet} (hs : line.hear d (uploadSystem a).worker m = some line') :
    Feeds d a pc line' := by
  obtain ⟨up, hup, hs⟩ := Option.bind_eq_some_iff.mp hs
  obtain ⟨v, hv, rfl⟩ := Option.map_eq_some_iff.mp hs
  rcases h with ⟨hmute, -, -⟩ | ⟨b, s, hw, hb, h⟩
  · rw [show (uploadSystem a).worker.step line.worker ((uploadSystem a).worker.input line.worker m) = none from
      hmute.deaf m] at hv
    cases hv
  · obtain ⟨s', hw', -⟩ := WriteWorker.step_upload hw hv
    refine .inr ⟨b, s', hw', hb, fun hnum => ?_⟩
    rcases h hnum with ⟨ps, hstored, hps⟩ | ⟨ps, w, hstores⟩
    · obtain ⟨s'', hw'', hstored'⟩ := hstored.worker_step hw hv
      cases hw'.symm.trans hw''
      exact .inl ⟨ps, hstored', hps⟩
    · obtain ⟨s'', hw'', w', hstores'⟩ := hstores.worker_hears hw hup hv
      cases hw'.symm.trans hw''
      exact .inr ⟨ps, w', hstores'⟩

/-- To show that a step keeps the session: it keeps a client without a transfer, and it keeps what
the engines have in common. -/
theorem keep {pc' : PutPc} (h : Feeds d a pc line) (hw : line'.worker = line.worker)
    (hidle : pc.Idle → (∀ p ∈ line.down, p.opcode = Opcode.error.code) →
      pc'.Idle ∧ ∀ p ∈ line'.down, p.opcode = Opcode.error.code)
    (hstores : ∀ b s ps w, TakesUpload a b → Stores d b (a.reader b) pc s line.up line.down ps w →
      ∃ w', Stores d b (a.reader b) pc' s line'.up line'.down ps w') : Feeds d a pc' line' := by
  rcases h with ⟨hmute, hi, hdown⟩ | ⟨b, s, hb, haccepts, h⟩
  · obtain ⟨hi', hdown'⟩ := hidle hi hdown
    exact .inl ⟨hw ▸ hmute, hi', hdown'⟩
  · refine .inr ⟨b, s, hw ▸ hb, haccepts, fun hnum => ?_⟩
    rcases h hnum with hstored | ⟨ps, w, hst⟩
    · exact .inl hstored
    · obtain ⟨w', hst'⟩ := hstores b s ps w haccepts hst
      exact .inr ⟨ps, w', hst'⟩

theorem losesDown (n : ℕ) (h : Feeds d a pc line) : Feeds d a pc (line.loseDown n) := by
  have hsub := List.eraseIdx_sublist line.down n
  refine h.keep rfl (fun hi hdown => ⟨hi, fun p hp => hdown p (hsub.subset hp)⟩) fun b s ps w _ hst => ?_
  obtain ⟨w', hst', -⟩ := hst.lessDown hsub (Channel.filter_eraseIdx _ _ n)
  exact ⟨w', hst'⟩

theorem losesUp (n : ℕ) (h : Feeds d a pc line) : Feeds d a pc (line.loseUp n) :=
  h.keep rfl (fun hi hdown => ⟨hi, hdown⟩) fun _ _ _ _ _ hst =>
    hst.lessUp (List.eraseIdx_sublist line.up n) (Channel.filter_eraseIdx _ _ n)

theorem client_move (h : Feeds d a c.pc line) (hreq : a.request.isData = false) {l : PutLabel}
    (hl : l.receives = false) (hs : c.step a l = some c') : Feeds d a c'.pc (line.tell l.sends) :=
  h.keep rfl (fun hi hdown => ⟨(hi.move hl hs).1, hdown⟩) fun _ _ _ _ hb hst =>
    hst.client_move hb.terms hb.segsize_ne hreq hl hs

theorem client_hears (h : Feeds d a c.pc line) {m : Packet} {down : List Packet}
    (hm : receive d line.down m = some down) (hs : c.step a (c.input m) = some c') :
    Feeds d a c'.pc { line with down } := by
  have hsub := Channel.sublist_of_receive hm
  refine h.keep rfl (fun hi hdown => ?_) fun b s ps w hb hst => hst.client_hears hb.terms hb.segsize_ne hm hs
  exact ⟨hi.hears (hdown m (Channel.mem_of_receive hm)) hs, fun p hp => hdown p (hsub.subset hp)⟩

end Feeds

/-- The request is no block of a file. -/
theorem PutArgs.Puts.opcode_eq {a : PutArgs} {c : ClientConfig} {peer : Socket} {st : Option FileStat} {name : Bytes}
    {pf : Format} (ha : a.Puts c peer st name pf) : a.request.opcode = Opcode.wrq.code := by
  have hreq := ha.request_eq
  simp only [tftpSendfile, makerequest] at hreq
  split_ifs at hreq
  rw [← (Prod.mk.inj (Option.some.inj hreq)).1]
  exact ntohs_htons Opcode.wrq.code

theorem uploadSystem_keeps (d : Discipline) {a : PutArgs} {c : ClientConfig} {peer : Socket} {st : Option FileStat}
    {name : Bytes} {pf : Format} (ha : a.Puts c peer st name pf) :
    Peers.Keeps d (uploadSystem a) (fun c => c.pc.Idle) (fun p => p = a.request ∨ p.opcode = Opcode.error.code)
      (Awaits d a) (fun c line => Feeds d a c.pc line) where
  start := by
    rintro p env v (rfl | herr) hs
    · exact .start ha hs
    · simp only [uploadSystem, WriteEnv.start, herr, Opcode.code_inj, reduceCtorEq, if_false] at hs
  alone := fun h hs => h.worker hs
  aloneHears := by
    rintro line line' m ⟨hup, -⟩ hs
    obtain ⟨up, hm, -⟩ := Option.bind_eq_some_iff.mp hs
    rw [hup] at hm
    cases Channel.mem_of_receive hm
  aloneLosesDown := fun n h => h.losesDown n
  aloneLosesUp := fun n h => h.losesUp n
  asks := fun h hl hs => h.move hl hs
  passes := fun _ h hm hsettles _ => absurd (h.settles (Channel.mem_of_receive hm)) (of_decide_eq_false hsettles)
  meets := by
    rintro c c' line m down hidle h hm - hs
    -- a client without a peer hears nothing unless it waits for an answer
    have hpc : c.pc = .waiting := by
      cases hpc : c.pc with
      | waiting => rfl
      | sending optack x =>
        rw [hpc] at hidle
        cases hidle
      | _ =>
        simp only [uploadSystem, Put.input, hpc, Put.step] at hs
        cases hs
    exact h.meets hpc hm hs
  client := fun h hl hs => h.client_move (by rw [Packet.isData, ha.opcode_eq]; decide) hl hs
  deliver := fun h hm hs => h.client_hears hm hs
  worker := fun h hs => h.worker hs
  hears := fun h hs => h.hears hs
  losesDown := fun n h => h.losesDown n
  losesUp := fun n h => h.losesUp n

/-- The call of the client has succeeded. -/
def Put.Done (s : Put) : Prop := ∃ optack x res, s.pc = .sending optack x ∧ x.pc = .done res ∧ res.status = .ok

/-- The transfer of worker `k`. -/
def Peers.World.upload (w : Peers.World Put WriteWorker Packet) (k : ℕ) : Option (UploadArgs × Upload) :=
  (w.worker k).bind WriteWorker.upload

/-- Whatever the network does to requests, blocks and replies and however many workers the copies of
the request have started: when the client succeeds the worker it is connected to has written the
whole file, byte for byte in either mode, and a worker only ends with success if it is that one and
has written it. Blocks have to be told apart by their numbers, and no `connect` may fail. -/
theorem upload_written {d : Discipline} {a : PutArgs} {c : ClientConfig} {peer : Socket} {st : Option FileStat}
    {name : Bytes} {pf : Format} (ha : a.Puts c peer st name pf)
    {t : List (Peers.Label PutLabel WriteLabel Packet WriteEnv)} {w : Peers.World Put WriteWorker Packet}
    (hrun : run ((uploadSystem a).step d) { client := a.init } t = some w)
    (hconnects : ∀ l ∈ t, l.fails = false)
    (hnum : ∀ j b s, w.upload j = some (b, s) → Numbered d b.session a.stream) :
    (w.client.Done → ∃ k b s, w.addr = some k ∧ w.upload k = some (b, s) ∧ s.disk = some a.file.rest) ∧
    ∀ j b s, w.upload j = some (b, s) → s.pc = .ended (some .ok) → w.addr = some j ∧ s.disk = some a.file.rest := by
  have hinv := Peers.Inv.of_run (uploadSystem_keeps d ha) (c := a.init) trivial hconnects hrun
  have hdisk : ∀ {s : Upload} {ps : List Bytes}, s.Stored a.convert ps → ps.flatten = a.stream →
      s.disk = some a.file.rest := by
    intro s ps hstored hps
    rw [hstored.1, hps, PutArgs.stream, converted_stream]
  have hupload : ∀ {j line b s}, w.lines[j]? = some line → line.worker.upload = some (b, s) →
      w.upload j = some (b, s) := fun hj hw =>
    Option.bind_eq_some_iff.mpr ⟨_, Peers.World.worker_eq_some.mpr ⟨_, hj, rfl⟩, hw⟩
  constructor
  · rintro ⟨optack, x, res, hpc, hdone, hok⟩
    rcases hinv.peer with ⟨-, -, hidle⟩ | ⟨-, k, line, haddr, hk, hfeeds⟩
    · rw [hpc] at hidle
      cases hidle
    · rcases hfeeds with ⟨-, hidle, -⟩ | ⟨b, s, hw, hb, h⟩
      · rw [hpc] at hidle
        cases hidle
      · have hn := hnum k b s (hupload hk hw)
        refine ⟨k, b, s, haddr, hupload hk hw, ?_⟩
        rcases h hn with ⟨ps, hstored, hps⟩ | ⟨ps, w', hstores⟩
        · exact hdisk hstored hps
        · rw [hpc] at hstores
          have hsucc := hstores.worker_done hb.terms hb.segsize_ne hn hdone hok
          obtain ⟨hstored, hps⟩ := hstores.stored hb.terms hb.convert_eq hb.segsize_ne hn hsucc
          exact hdisk hstored hps
  · intro j b s hj hended
    obtain ⟨v, hv, hw⟩ := Option.bind_eq_some_iff.mp hj
    obtain ⟨line, hline, rfl⟩ := Peers.World.worker_eq_some.mp hv
    have hmute : ¬ line.worker.Mute := by
      intro hmute
      cases hv : line.worker with
      | receiving b' s' last =>
        rw [hv] at hmute hw
        cases hw
        have hpc := hmute.2
        rw [hended] at hpc
        cases hpc
      | replying b' s' last =>
        rw [hv] at hmute
        cases hmute
      | _ =>
        rw [hv] at hw
        cases hw
    -- the invariant of the session says more than the worker's success allows
    have hstores : ∀ {b' pc up down ps w'}, ¬ Stores d b' (a.reader b') pc s up down ps w' := by
      intro b' pc up down ps w' hst
      have hworker := hst.worker
      rw [hended] at hworker
      exact hworker.1 rfl
    by_cases haddr : w.addr = some j
    · refine ⟨haddr, ?_⟩
      rcases hinv.peer with ⟨hnone, -⟩ | ⟨-, k, line', haddr', hk, hfeeds⟩
      · cases hnone.symm.trans haddr
      · cases haddr.symm.trans haddr'
        cases hline.symm.trans hk
        rcases hfeeds with ⟨hm, -⟩ | ⟨b', s', hw', -, h⟩
        · exact absurd hm hmute
        · cases hw.symm.trans hw'
          rcases h (hnum j b s hj) with ⟨ps, hstored, hps⟩ | ⟨ps, w', hst⟩
          · exact hdisk hstored hps
          · exact absurd hst hstores
    · obtain ⟨-, ⟨hm, -⟩ | ⟨b', s', hw', -, ps, w', hst⟩⟩ := hinv.others j line hline haddr
      · exact absurd hm hmute
      · cases hw.symm.trans hw'
        exact absurd hst hstores

/-- The client offering a one-byte file, without options. -/
def putAs (name : Bytes) : PutArgs where
  request := htons Opcode.wrq.code ++ name ++ [0] ++ cstr "octet" ++ [0]
  optreq := optreqInit
  convert := false
  rexmtval := 1000000
  maxtimeout := 63000000
  file := { rest := [65] }

def putFoo : PutArgs := putAs (cstr "foo")

/-- A server that takes uploads. -/
def takeFoo : WriteEnv where
  config := {}
  peer := { family := .inet, mtu := none }
  handlers := .empty
  pthread := false
  cancreate := true
  room := none
  strerror := fun _ => []

end TftpHpa
