import TftpHpa.Session.Download

/-! A download is safe. What a client and the worker it listens to have in common is an
invariant of the session, and nobody hears the other workers. -/

namespace TftpHpa

open Channel (Discipline receive)
open Peers (Line)
open Transition (run)

/-! ### Workers with nothing to send -/

/-- A worker that sends nothing but an ERROR packet: it refuses the request, or it cannot read
the file. -/
def ReadWorker.Mute : ReadWorker → Prop
  | refusing p => p.opcode = Opcode.error.code
  | refused => True
  | sending b f => b.reader = none ∧
    match f.pc with
    | .start | .nak _ none | .ended none => True
    | _ => False

/-- The client has not called the receiver. -/
def DownloadPc.Idle : DownloadPc → Prop
  | .receiving _ _ _ => False
  | _ => True

theorem ReadWorker.Mute.step {v v' : ReadWorker} (h : v.Mute) {l : SendfileLabel} (hs : v.step l = some v') :
    v'.Mute ∧ ∀ p, l.sends = some p → p.opcode = Opcode.error.code := by
  cases v with
  | refused => cases hs
  | refusing q =>
    cases l with
    | sent p =>
      simp only [ReadWorker.step, Option.ite_none_right_eq_some] at hs
      obtain ⟨rfl, hs⟩ := hs
      cases hs
      exact ⟨trivial, fun p hp => Option.some.inj hp ▸ h⟩
    | sendFailed =>
      cases hs
      exact ⟨trivial, fun p hp => by cases hp⟩
    | _ => cases hs
  | sending b f =>
    obtain ⟨f', hf, rfl⟩ := Option.map_eq_some_iff.mp hs
    obtain ⟨hb, hpc⟩ := h
    have hstart : ∀ slots, ioRingSlots b.pthread b.request.daemon = some slots → b.readerStart slots = none := by
      intro slots hslots
      rwa [SendfileArgs.reader, hslots] at hb
    split at hpc
    · next hp =>
      cases l with
      | start e =>
        simp only [Sendfile.step, hp] at hf
        refine ⟨⟨hb, ?_⟩, fun p hp => by cases hp⟩
        split at hf
        · cases hf
          trivial
        · next slots hslots =>
          rw [hstart slots hslots] at hf
          cases hf
          trivial
      | step l => cases l <;> simp [Sendfile.step, hp] at hf
      | _ => simp [Sendfile.step, hp] at hf
    · next e hp =>
      cases l with
      | sent p =>
        simp only [Sendfile.step, hp, Option.ite_none_right_eq_some] at hf
        obtain ⟨rfl, hf⟩ := hf
        cases hf
        exact ⟨⟨hb, trivial⟩, fun q hq => Option.some.inj hq ▸ opcode_nak _ _ _⟩
      | sendFailed =>
        simp only [Sendfile.step, hp] at hf
        cases hf
        exact ⟨⟨hb, trivial⟩, fun q hq => by cases hq⟩
      | step l => cases l <;> simp [Sendfile.step, hp] at hf
      | _ => simp [Sendfile.step, hp] at hf
    · next hp =>
      cases l with
      | step l => cases l <;> simp [Sendfile.step, hp] at hf
      | _ => simp [Sendfile.step, hp] at hf
    · cases hpc

/-- Such a worker waits for no answer. -/
theorem ReadWorker.Mute.deaf {v : ReadWorker} (h : v.Mute) (p : Packet) : v.step (v.input p) = none := by
  cases v with
  | refused => rfl
  | refusing q => rfl
  | sending b f =>
    obtain ⟨-, hpc⟩ := h
    split at hpc
    · next hp => simp [ReadWorker.step, ReadWorker.input, Sendfile.input, Sendfile.step, hp]
    · next hp => simp [ReadWorker.step, ReadWorker.input, Sendfile.input, Sendfile.step, hp]
    · next hp => simp [ReadWorker.step, ReadWorker.input, Sendfile.input, Sendfile.step, hp]
    · cases hpc

namespace DownloadPc.Idle

variable {a : DownloadArgs} {c c' : Download}

/-- Without an answer the client repeats its request. -/
theorem move (h : c.pc.Idle) {l : GetLabel} (hl : l.receives = false) (hs : c.get a l = some c') :
    c'.pc.Idle ∧ ∀ p, l.sends = some p → p = a.request ∨ p.opcode = Opcode.error.code := by
  cases l with
  | nak p =>
    simp only [Download.get, Option.ite_none_right_eq_some, Option.some.injEq] at hs
    obtain ⟨⟨-, hp⟩, rfl⟩ := hs
    exact ⟨h, fun q hq => .inr (Option.some.inj hq ▸ hp)⟩
  | run l =>
    cases l with
    | reply p => cases hl
    | sent p =>
      simp only [Download.get, Download.step] at hs
      split at hs
      · split_ifs at hs with hp
        cases hs
        exact ⟨trivial, fun q hq => .inl (Option.some.inj hq ▸ hp)⟩
      · cases hs
    | step l =>
      obtain ⟨optack, args, y, y', hpc, -⟩ := Download.step_step hs
      rw [hpc] at h
      cases h
    | sendFailed | recvFailed =>
      simp only [Download.get, Download.step] at hs
      split at hs
      · cases hs
        exact ⟨trivial, fun q hq => by cases hq⟩
      · cases hs
    | timeout =>
      simp only [Download.get, Download.step] at hs
      split at hs
      · cases hs
        refine ⟨?_, fun q hq => by cases hq⟩
        simp only [Download.timer]
        split_ifs <;> trivial
      · next hpc =>
        rw [hpc] at h
        cases h
      · cases hs

/-- An ERROR packet ends the call. -/
theorem hears (h : c.pc.Idle) {m : Packet} (hm : m.opcode = Opcode.error.code)
    (hs : c.get a (c.input m) = some c') : c'.pc.Idle := by
  cases hpc : c.pc with
  | receiving optack args y =>
    rw [hpc] at h
    cases h
  | waiting =>
    simp only [Download.get, Download.input, hpc, Download.step, answer,
      opcode_take (show 2 ≤ TFTP_REPLY_MAX_PACKET_SIZE by decide), hm, if_true] at hs
    split_ifs at hs with hshort
    · cases hs
      exact h
    · cases hs
      trivial
  | _ =>
    simp only [Download.get, Download.input, hpc, Download.step] at hs
    cases hs

end DownloadPc.Idle

/-! ### The session -/

/-- A client and a worker it listens to, or might still listen to. -/
def Attends (d : Discipline) (a : DownloadArgs) (pc : DownloadPc) (line : Line ReadWorker Packet) : Prop :=
  (line.worker.Mute ∧ pc.Idle ∧ ∀ p ∈ line.down, p.opcode = Opcode.error.code) ∨
    ∃ b f io, line.worker = .sending b f ∧ b.reader = some io ∧ Terms a.optreq b.request ∧
      b.request.format.convert = a.convert ∧
      ∃ ps w, Served d b io a.convert pc f.pc line.up line.down ps w

namespace Attends

variable {d : Discipline} {a : DownloadArgs} {pc : DownloadPc} {c c' : Download} {line line' : Line ReadWorker Packet}

theorem worker (h : Attends d a pc line) {l : SendfileLabel}
    (hs : line.move (downloadSystem a).worker l = some line') : Attends d a pc line' ∧ line'.up = line.up := by
  simp only [Line.move, Option.ite_none_left_eq_some] at hs
  obtain ⟨hl, hs⟩ := hs
  obtain ⟨v, hv, rfl⟩ := Option.map_eq_some_iff.mp hs
  refine ⟨?_, rfl⟩
  rcases h with ⟨hmute, hidle, hdown⟩ | ⟨b, f, io, hw, hio, hterms, hconv, ps, w, hserved⟩
  · obtain ⟨hmute', hsent⟩ := hmute.step hv
    refine .inl ⟨hmute', hidle, fun p hp => ?_⟩
    rcases List.mem_append.mp hp with hp | hp
    · exact hdown p hp
    · exact hsent p (Option.mem_toList.mp hp)
  · rw [hw] at hv
    obtain ⟨f', hf, rfl⟩ := Option.map_eq_some_iff.mp hv
    obtain ⟨w', hserved'⟩ := hserved.move hterms hio (Bool.eq_false_of_not_eq_true hl) hf
    exact .inr ⟨b, f', io, rfl, hio, hterms, hconv, ps, w', hserved'⟩

theorem hears (h : Attends d a pc line) {m : Packet}
    (hs : line.hear d (downloadSystem a).worker m = some line') : Attends d a pc line' := by
  obtain ⟨up, hup, hs⟩ := Option.bind_eq_some_iff.mp hs
  obtain ⟨v, hv, rfl⟩ := Option.map_eq_some_iff.mp hs
  rcases h with ⟨hmute, -, -⟩ | ⟨b, f, io, hw, hio, hterms, hconv, ps, w, hserved⟩
  · rw [show (downloadSystem a).worker.step line.worker ((downloadSystem a).worker.input line.worker m) = none from
      hmute.deaf m] at hv
    cases hv
  · rw [hw] at hv
    obtain ⟨f', hf, rfl⟩ := Option.map_eq_some_iff.mp hv
    obtain ⟨w', hserved'⟩ := hserved.hears hup hf
    exact .inr ⟨b, f', io, rfl, hio, hterms, hconv, ps, w', hserved'⟩

theorem losesDown (n : ℕ) (h : Attends d a pc line) : Attends d a pc (line.loseDown n) := by
  have hsub := List.eraseIdx_sublist line.down n
  rcases h with ⟨hmute, hidle, hdown⟩ | ⟨b, f, io, hw, hio, hterms, hconv, ps, w, hserved⟩
  · exact .inl ⟨hmute, hidle, fun p hp => hdown p (hsub.subset hp)⟩
  · obtain ⟨w', hserved'⟩ := hserved.lessDown hsub (Channel.filter_eraseIdx _ _ n)
    exact .inr ⟨b, f, io, hw, hio, hterms, hconv, ps, w', hserved'⟩

theorem losesUp (n : ℕ) (h : Attends d a pc line) : Attends d a pc (line.loseUp n) := by
  rcases h with hmute | ⟨b, f, io, hw, hio, hterms, hconv, ps, w, hserved⟩
  · exact .inl hmute
  · obtain ⟨w', hserved', -⟩ := hserved.lessUp (Channel.filter_eraseIdx _ _ n)
    exact .inr ⟨b, f, io, hw, hio, hterms, hconv, ps, w', hserved'⟩

theorem client_move (h : Attends d a c.pc line) (hreq : a.request.isReply = false) {l : GetLabel}
    (hl : l.receives = false) (hs : c.get a l = some c') : Attends d a c'.pc (line.tell l.sends) := by
  rcases h with ⟨hmute, hidle, hdown⟩ | ⟨b, f, io, hw, hio, hterms, hconv, ps, w, hserved⟩
  · exact .inl ⟨hmute, (hidle.move hl hs).1, hdown⟩
  · obtain ⟨ps', w', hserved'⟩ := hserved.client_move hreq hl hs
    exact .inr ⟨b, f, io, hw, hio, hterms, hconv, ps', w', hserved'⟩

theorem client_hears (h : Attends d a c.pc line) {m : Packet} {down : List Packet}
    (hm : receive d line.down m = some down) (hs : c.get a (c.input m) = some c') :
    Attends d a c'.pc { line with down } := by
  rcases h with ⟨hmute, hidle, hdown⟩ | ⟨b, f, io, hw, hio, hterms, hconv, ps, w, hserved⟩
  · have hsub := Channel.sublist_of_receive hm
    exact .inl ⟨hmute, hidle.hears (hdown m (Channel.mem_of_receive hm)) hs, fun p hp => hdown p (hsub.subset hp)⟩
  · obtain ⟨ps', w', hserved'⟩ := hserved.client_hears hterms hm hs
    exact .inr ⟨b, f, io, hw, hio, hterms, hconv, ps', w', hserved'⟩

/-- A worker says nothing so short that the client would not look at it. -/
theorem settles (h : Attends d a pc line) {m : Packet} (hm : m ∈ line.down) : 2 ≤ m.length := by
  apply two_le_length_of_opcode
  rcases h with ⟨-, -, hdown⟩ | ⟨b, f, io, -, -, hterms, -, ps, w, hserved⟩
  · rw [hdown m hm]
    decide
  · rcases hserved.down_cases m hm with ⟨i, rfl⟩ | ho | herr
    · rw [blockPacket, opcode_dataPacket]
      decide
    · rw [(hterms.oack m ho).1]
      decide
    · rw [herr]
      decide

/-- A worker that has just been started. -/
theorem start {cc : ClientConfig} {peer : Socket} {name : Bytes} {pf : Format} (ha : a.Gets cc peer name pf)
    {env : ReadEnv} {v : ReadWorker} (hs : env.start a.request = some v) : Attends d a .waiting { worker := v } := by
  simp only [ReadEnv.start, Option.ite_none_right_eq_some] at hs
  obtain ⟨-, hs⟩ := hs
  split at hs
  · next r hr =>
    obtain rfl := Option.some.inj hs
    set b : SendfileArgs := ⟨r, env.pthread, env.file, env.strerror⟩ with hb
    rcases Bool.eq_false_or_eq_true env.config.rejectAllOptions with hc | hc
    · -- without a block size the file cannot be read
      obtain ⟨hoack, hseg⟩ := tftp_rejectAll hc hr
      refine .inl ⟨⟨?_, ?_⟩, trivial, fun p hp => by cases hp⟩
      · exact b.reader_eq_none hseg
      · rw [SendfileArgs.init, show b.request.oack = none from hoack]
        trivial
    · obtain ⟨hterms, hformat⟩ := Terms.of_request hc (by decide) ha.zero_notMem ha.request_eq hr
      have hseg : r.daemon.segsize ≠ 0 := by
        obtain ⟨args, file, -, -, -, -, hn⟩ := tftp_eq_ok hr
        have hneg := (negotiateOptions_negotiated hc env.peer (.start env.config args.opts file)).1
        rw [hn] at hneg
        exact (lt_of_lt_of_le (by decide) hneg.segsize_ge).ne'
      obtain ⟨io, hio⟩ := b.exists_reader hseg hterms.windowsize_pos
      refine .inr ⟨b, b.init, io, rfl, hio, hterms, by rw [ha.convert_eq, ← hformat], [], _, .init d b.session io,
        ?_, ⟨rfl, rfl⟩, fun p hp => (by cases hp), ?_, fun _ => ⟨rfl, fun ho => ⟨rfl, ?_⟩⟩⟩
      · unfold SendfileArgs.init
        split <;> rfl
      · intro p hp
        unfold SendfileArgs.init at hp
        split at hp
        · next ho => rcases hp with hp | hp <;> cases hp; exact ho
        · rcases hp with hp | hp <;> cases hp
      · unfold SendfileArgs.init
        split
        · rfl
        · next hnone => exact absurd hnone ho
  · next error msg _ =>
    obtain rfl := Option.some.inj hs
    exact .inl ⟨opcode_nak _ _ _, trivial, fun p hp => by cases hp⟩
  · cases hs

end Attends

/-- The request is no reply, and no other datagram starts a worker. -/
theorem DownloadArgs.Gets.opcode_eq {a : DownloadArgs} {c : ClientConfig} {peer : Socket} {name : Bytes} {pf : Format}
    (ha : a.Gets c peer name pf) : a.request.opcode = Opcode.rrq.code := by
  have hreq := ha.request_eq
  simp only [tftpRecvfile, makerequest] at hreq
  split_ifs at hreq
  rw [← (Prod.mk.inj (Option.some.inj hreq)).1]
  exact ntohs_htons Opcode.rrq.code

theorem downloadSystem_keeps (d : Discipline) {a : DownloadArgs} {c : ClientConfig} {peer : Socket} {name : Bytes}
    {pf : Format} (ha : a.Gets c peer name pf) :
    Peers.Keeps d (downloadSystem a) (fun c => c.pc.Idle)
      (fun p => p = a.request ∨ p.opcode = Opcode.error.code)
      (fun line => Attends d a .waiting line ∧ line.up = []) (fun c line => Attends d a c.pc line) where
  start := by
    rintro p env v (rfl | herr) hs
    · exact ⟨.start ha hs, rfl⟩
    · simp only [downloadSystem, ReadEnv.start, herr, Opcode.code_inj, reduceCtorEq, if_false] at hs
  alone := fun ⟨h, hup⟩ hs => ⟨(h.worker hs).1, (h.worker hs).2.trans hup⟩
  aloneHears := by
    rintro line line' m ⟨-, hup⟩ hs
    obtain ⟨up, hm, -⟩ := Option.bind_eq_some_iff.mp hs
    rw [hup] at hm
    cases Channel.mem_of_receive hm
  aloneLosesDown := fun n ⟨h, hup⟩ => ⟨h.losesDown n, hup⟩
  aloneLosesUp := fun n ⟨h, hup⟩ => ⟨h.losesUp n, by rw [Line.loseUp, hup]; rfl⟩
  asks := fun h hl hs => h.move hl hs
  passes := fun _ ⟨h, _⟩ hm hsettles _ =>
    absurd (h.settles (Channel.mem_of_receive hm)) (of_decide_eq_false hsettles)
  meets := by
    rintro c c' line m down hidle ⟨h, -⟩ hm - hs
    -- a client without a peer hears nothing unless it waits for an answer
    have hpc : c.pc = .waiting := by
      cases hpc : c.pc with
      | waiting => rfl
      | receiving optack args y =>
        rw [hpc] at hidle
        cases hidle
      | _ =>
        simp only [downloadSystem, Download.get, Download.input, hpc, Download.step] at hs
        cases hs
    exact (hpc ▸ h : Attends d a c.pc line).client_hears hm hs
  client := fun h hl hs => h.client_move (by rw [Packet.isReply, ha.opcode_eq]; decide) hl hs
  deliver := fun h hm hs => h.client_hears hm hs
  worker := fun h hs => (h.worker hs).1
  hears := fun h hs => h.hears hs
  losesDown := fun n h => h.losesDown n
  losesUp := fun n h => h.losesUp n

/-- The call of the client has succeeded, with this in the file. -/
def Download.Has (s : Download) (content : Bytes) : Prop :=
  ∃ optack args y res, s.pc = .receiving optack args y ∧ y.recv.pc = .done res ∧ res.status = .ok ∧
    y.io.file.written = content

namespace Served

variable {d : Discipline} {b : SendfileArgs} {io : TftpIo} {convert : Bool} {pc : DownloadPc} {s : SendfilePc}
  {up down : List Packet} {ps : List Bytes} {w : World} {optreq : Optreq}

theorem opensWell (b : SendfileArgs) : b.session.OpensWell := by
  intro p hp
  obtain ⟨-, -, rfl⟩ := Option.map_eq_some_iff.mp hp
  exact .inl rfl

/-- What the client has written when it succeeds is what the worker has read. -/
theorem complete {optack : Optreq} {args : RecvArgs} {y : Receiving}
    (h : Served d b io b.request.format.convert (.receiving optack args y) s up down ps w)
    (hterms : Terms optreq b.request) (hio : b.reader = some io) (hnum : Numbered d b.session b.stream)
    {res : XferResult} (hpc : y.recv.pc = .done res) (hok : res.status = .ok) :
    y.io.file.written = b.file.rest := by
  obtain ⟨slots, -, hstart⟩ := b.reader_eq_some hio
  obtain ⟨-, -, ⟨r, hrec, hst⟩, hinv⟩ := h.client
  have hsafe := h.mirror.safe (opensWell b) hterms.windowsize_pos hstart hnum
  have hpos := (Session.ok_of_start (c := b.session) hstart hterms.windowsize_pos (opensWell b)).blocksize_pos
  rcases hst with rfl | ⟨-, r', hpc', hne⟩
  · have hps := hsafe.2.1 args _ res hrec hpc hok
    rw [(hinv.complete (.inr ⟨res, hpc, hok⟩)).1, hps, Blocks.flatten_blocks hpos]
    exact converted_stream b.file b.request.format.convert
  · cases hpc.symm.trans hpc'
    exact absurd hok hne

/-- A worker that has succeeded has a client that has succeeded. -/
theorem client_done (h : Served d b io convert pc (.ended (some .ok)) up down ps w)
    (hterms : Terms optreq b.request) (hio : b.reader = some io) (hnum : Numbered d b.session b.stream) :
    ∃ optack args y res, pc = .receiving optack args y ∧ y.recv.pc = .done res ∧ res.status = .ok := by
  obtain ⟨slots, -, hstart⟩ := b.reader_eq_some hio
  obtain ⟨res, hpc, hok⟩ := h.worker rfl
  obtain ⟨args, r, res', hrec, hpc', hok'⟩ :=
    (h.mirror.safe (opensWell b) hterms.windowsize_pos hstart hnum).2.2 res hpc hok
  have hclient := h.client
  cases pc with
  | request | waiting =>
    rw [hclient.1] at hrec
    cases hrec
  | ended => exact absurd hok' (hclient args r res' hrec hpc')
  | receiving optack args' y =>
    obtain ⟨-, -, ⟨r', hrec', hst⟩, -⟩ := hclient
    obtain ⟨-, rfl⟩ := Prod.mk.inj (Option.some.inj (hrec'.symm.trans hrec))
    exact ⟨optack, args', y, res', rfl, hst.done_ok hpc' hok' ▸ hpc', hok'⟩

end Served

/-- A client that succeeds has the file of the worker it is connected to. -/
theorem download_received {d : Discipline} {a : DownloadArgs} {c : ClientConfig} {peer : Socket} {name : Bytes}
    {pf : Format} (ha : a.Gets c peer name pf) {t : List (Peers.Label GetLabel SendfileLabel Packet ReadEnv)}
    {w : Peers.World Download ReadWorker Packet}
    (hrun : run ((downloadSystem a).step d) { client := a.init } t = some w)
    (hconnects : ∀ l ∈ t, l.fails = false)
    (hnum : ∀ j b f, w.worker j = some (.sending b f) → Numbered d b.session b.stream) {content : Bytes}
    (hhas : w.client.Has content) :
    ∃ k b f, w.addr = some k ∧ w.worker k = some (.sending b f) ∧ content = b.file.rest := by
  have hinv := Peers.Inv.of_run (downloadSystem_keeps d ha) (c := a.init) trivial hconnects hrun
  obtain ⟨optack, args, y, res, hpc, hdone, hok, rfl⟩ := hhas
  rcases hinv.peer with ⟨-, -, hidle⟩ | ⟨-, k, line, haddr, hk, hattends⟩
  · rw [hpc] at hidle
    cases hidle
  · rcases hattends with ⟨-, hidle, -⟩ | ⟨b, f, io, hw, hio, hterms, hconv, ps, w', hserved⟩
    · rw [hpc] at hidle
      cases hidle
    · have hworker := Peers.World.worker_eq_some.mpr ⟨line, hk, hw⟩
      rw [hpc, ← hconv] at hserved
      exact ⟨k, b, f, haddr, hworker, hserved.complete hterms hio (hnum k b f hworker) hdone hok⟩

/-- Downloads are safe, whatever the network does to requests, blocks and replies and however
many workers the copies of the request have started: a client that succeeds has the file of the
worker it is connected to, byte for byte in either mode, and a worker only succeeds if it is
that one and the client has succeeded. Blocks have to be told apart by their numbers, and no
`connect` may fail. -/
theorem download_safe {d : Discipline} {a : DownloadArgs} {c : ClientConfig} {peer : Socket} {name : Bytes}
    {pf : Format} (ha : a.Gets c peer name pf) {t : List (Peers.Label GetLabel SendfileLabel Packet ReadEnv)}
    {w : Peers.World Download ReadWorker Packet}
    (hrun : run ((downloadSystem a).step d) { client := a.init } t = some w)
    (hconnects : ∀ l ∈ t, l.fails = false)
    (hnum : ∀ j b f, w.worker j = some (.sending b f) → Numbered d b.session b.stream) :
    (∀ content, w.client.Has content →
      ∃ k b f, w.addr = some k ∧ w.worker k = some (.sending b f) ∧ content = b.file.rest) ∧
    ∀ j b f, w.worker j = some (.sending b f) → f.pc = .ended (some .ok) →
      w.addr = some j ∧ w.client.Has b.file.rest := by
  have hinv := Peers.Inv.of_run (downloadSystem_keeps d ha) (c := a.init) trivial hconnects hrun
  constructor
  · exact fun content hhas => download_received ha hrun hconnects hnum hhas
  · intro j b f hworker hended
    obtain ⟨line, hj, hw⟩ := Peers.World.worker_eq_some.mp hworker
    -- no worker succeeds that has not been heard by a client with its receiver running
    have hdone : ∀ pc, Attends d a pc line → ∃ optack args y res, pc = .receiving optack args y ∧
        y.recv.pc = .done res ∧ res.status = .ok ∧ y.io.file.written = b.file.rest := by
      rintro pc (⟨hmute, -, -⟩ | ⟨b', f', io, hw', hio, hterms, hconv, ps, w', hserved⟩)
      · rw [hw] at hmute
        have hpc := hmute.2
        rw [hended] at hpc
        cases hpc
      · cases hw.symm.trans hw'
        rw [hended, ← hconv] at hserved
        obtain ⟨optack, args, y, res, rfl, hdone, hok⟩ := hserved.client_done hterms hio (hnum j b f hworker)
        exact ⟨optack, args, y, res, rfl, hdone, hok, hserved.complete hterms hio (hnum j b f hworker) hdone hok⟩
    by_cases haddr : w.addr = some j
    · refine ⟨haddr, ?_⟩
      rcases hinv.peer with ⟨hnone, -⟩ | ⟨-, k, line', haddr', hk, hattends⟩
      · cases hnone.symm.trans haddr
      · cases haddr.symm.trans haddr'
        cases hj.symm.trans hk
        exact hdone _ hattends
    · obtain ⟨optack, args, y, res, hpc, -⟩ := hdone _ (hinv.others j line hj haddr).1
      cases hpc

/-- A server with the one-byte file. -/
def serveFoo : ReadEnv where
  config := {}
  peer := { family := .inet, mtu := none }
  handlers := .empty
  pthread := false
  file := { rest := [65] }
  strerror := fun _ => []

/-- The request is repeated and starts two workers; the first is heard and sends a file of one byte. -/
def fetchFoo : List (Peers.Label GetLabel SendfileLabel Packet ReadEnv) :=
  [.client (.run (.sent readFoo)), .client (.run .timeout), .client (.run (.sent readFoo)), .accept readFoo serveFoo,
    .accept readFoo serveFoo, .worker 0 (.start none), .worker 0 (.step (.window 1 true)),
    .worker 0 (.step (.entered false)), .worker 0 (.step (.sent (dataPacket 1 [65]))), .worker 1 (.start none),
    .deliver 0 true (dataPacket 1 [65]), .client (.run (.step (.engine .reserved none))),
    .client (.run (.step (.engine (.entered false) none))),
    .client (.run (.step (.engine (.published (dataPacket 1 [65])) none))),
    .client (.run (.step (.engine .drained none))), .client (.run (.step (.engine .finished none))),
    .client (.run (.step (.engine (.sent (ackPacket 1)) none))), .hear 0 (ackPacket 1),
    .worker 0 (.step .released), .worker 0 .finish]

/-- Few enough blocks for their numbers not to wrap. -/
def ReadWorker.fewBlocks : ReadWorker → Bool
  | sending b _ => Blocks.blockCount b.session.x.blocksize b.stream ≤ 65535
  | _ => true

theorem fewBlocks_of_sending {w : Peers.World Download ReadWorker Packet}
    (h : (w.lines.all fun line => line.worker.fewBlocks) = true) {j : ℕ} {b : SendfileArgs} {f : Sendfile}
    (hj : w.worker j = some (.sending b f)) : Blocks.blockCount b.session.x.blocksize b.stream ≤ 65535 := by
  obtain ⟨line, hline, hworker⟩ := Peers.World.worker_eq_some.mp hj
  have hall := List.all_eq_true.mp h line (List.mem_of_getElem? hline)
  rw [hworker] at hall
  exact of_decide_eq_true hall

/-- The worker has succeeded with a file of this content. -/
def ReadWorker.hasSent (content : Bytes) : ReadWorker → Bool
  | sending b ⟨.ended (some .ok), _⟩ => b.file.rest = content
  | _ => false

theorem download_safe_foo : ∃ w, run ((downloadSystem downloadFoo).step .unordered) { client := downloadFoo.init }
    fetchFoo = some w ∧ w.addr = some 0 ∧ w.client.Has [65] := by
  have hget : downloadFoo.Gets { noOptions := true } {} (cstr "foo") .octet := ⟨rfl, by decide, rfl⟩
  have hwhole : (run ((downloadSystem downloadFoo).step .unordered) { client := downloadFoo.init } fetchFoo).any
      (fun w => (w.lines.all fun line => line.worker.fewBlocks) && (w.worker 0).any (·.hasSent [65])) = true := by
    decide +kernel
  obtain ⟨w, hrun, hw⟩ := (Option.any_eq_true _ _).mp hwhole
  obtain ⟨hfew, hsent⟩ := Bool.and_eq_true_iff.mp hw
  obtain ⟨v, hv, hsent⟩ := (Option.any_eq_true _ _).mp hsent
  refine ⟨w, hrun, ?_⟩
  unfold ReadWorker.hasSent at hsent
  split at hsent
  · next b timeout =>
    rw [← of_decide_eq_true hsent]
    exact (download_safe hget hrun (by decide) fun j b f hj => .inl (fewBlocks_of_sending hfew hj)).2 0 b _ hv rfl
  · cases hsent

end TftpHpa
