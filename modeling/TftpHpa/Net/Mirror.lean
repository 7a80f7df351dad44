import TftpHpa.Io.Writing
import TftpHpa.Net.Safety

/-! The engines inside a session. Between a client and a worker there is more on the wire
than the engines exchange: requests, OACKs and ERROR packets, and any of them may be lost on
one that is not waiting for it. What the engines do all the while is a run of the two alone,
over channels that carry the DATA packets and the replies to them: the mirror. -/

namespace TftpHpa

open Blocks (blocks blockCount)
open Channel (Discipline receive)
open Transition (Reaches run)

def Packet.isData (p : Packet) : Bool := p.opcode = Opcode.data.code

/-- An ACK, or an OACK in the place of one. -/
def Packet.isReply (p : Packet) : Bool := p.opcode = Opcode.ack.code ∨ p.opcode = Opcode.oack.code

theorem isData_blockPacket (x : Xfer) (xs : Bytes) (i : ℕ) : Packet.isData (blockPacket x xs i) = true := by
  rw [Packet.isData, blockPacket, opcode_dataPacket]
  exact decide_eq_true rfl

theorem isReply_ackPacket (block : UInt16) : Packet.isReply (ackPacket block) = true := by
  rw [Packet.isReply, opcode_ackPacket]
  exact decide_eq_true (.inl rfl)

/-- What has an opcode is at least that long. -/
theorem two_le_length_of_opcode {p : Packet} (h : p.opcode ≠ 0) : 2 ≤ p.length := by
  match p, h with
  | [], h => exact absurd rfl h
  | [_], h => exact absurd rfl h
  | _ :: _ :: _, _ => simp

/-- An ERROR packet is none of those the engines exchange. -/
theorem not_data_of_error {p : Packet} (h : p.opcode = Opcode.error.code) : p.isData = false := by
  rw [Packet.isData, h]
  decide

theorem not_reply_of_error {p : Packet} (h : p.opcode = Opcode.error.code) : p.isReply = false := by
  rw [Packet.isReply, h]
  decide

theorem not_data_of_oack {p : Packet} (h : p.opcode = Opcode.oack.code) : p.isData = false := by
  rw [Packet.isData, h]
  decide

/-! ### Engines that have given up -/

/-- The engine has ended without success. -/
def SendState.Dead (s : SendState) : Prop := ∃ r, s.pc = .done r ∧ r.status ≠ .ok

def RecvState.Dead (s : RecvState) : Prop := ∃ r, s.pc = .done r ∧ r.status ≠ .ok

/-- Two engines are in the same state or have both given up, for whatever reason. -/
def SendState.Stands (s s' : SendState) : Prop := s = s' ∨ s.Dead ∧ s'.Dead

def RecvState.Stands (s s' : RecvState) : Prop := s = s' ∨ s.Dead ∧ s'.Dead

theorem SendState.dead_finish (s : SendState) {status : XferStatus} (h : status ≠ .ok) (error : ℤ)
    (packet : Option Packet) : (s.finish status error packet).Dead := ⟨_, rfl, h⟩

theorem RecvState.dead_finish (s : RecvState) {status : XferStatus} (h : status ≠ .ok) (error : ℤ)
    (packet : Option Packet) (lastBlock : UInt16) : (s.finish status error packet lastBlock).Dead := ⟨_, rfl, h⟩

/-- Where one has succeeded, so has the other. -/
theorem SendState.Stands.done_ok {s s' : SendState} (h : s.Stands s') {r : XferResult} (hpc : s'.pc = .done r)
    (hok : r.status = .ok) : s.pc = .done r := by
  rcases h with rfl | ⟨-, r', hpc', hne⟩
  · exact hpc
  · cases hpc.symm.trans hpc'
    exact absurd hok hne

theorem RecvState.Stands.done_ok {s s' : RecvState} (h : s.Stands s') {r : XferResult} (hpc : s.pc = .done r)
    (hok : r.status = .ok) : s = s' := by
  rcases h with rfl | ⟨⟨r', hpc', hne⟩, -⟩
  · rfl
  · cases hpc.symm.trans hpc'
    exact absurd hok hne

/-- After the end only the reader thread moves. -/
theorem sendStep_of_done {x : Xfer} {s s' : SendState} {l : SendLabel} {r : XferResult} (hpc : s.pc = .done r)
    (hs : sendStep x s l = some s') : l = .thread ∧ s'.pc = s.pc := by
  cases l with
  | thread =>
    obtain ⟨r, -, rfl⟩ := Option.map_eq_some_iff.mp hs
    exact ⟨rfl, rfl⟩
  | _ => simp [sendStep, hpc] at hs

theorem recvStep_of_done {x : Xfer} {a : RecvArgs} {s : RecvState} {r : XferResult} (hpc : s.pc = .done r)
    (l : RecvLabel) : recvStep x a s l = none := by
  cases l <;> simp [recvStep, hpc]

/-- What is neither an ACK nor an OACK is ignored by the sender, or ends it. -/
theorem sendReceived_of_not_reply (x : Xfer) (s : SendState) {p : Packet} (hp : p.isReply = false) :
    sendReceived x s p = s ∨ (sendReceived x s p).Dead := by
  simp only [Packet.isReply, decide_eq_false_iff_not, not_or] at hp
  simp only [sendReceived, hp.1, hp.2, false_and, if_false]
  split_ifs
  · exact .inl rfl
  · exact .inr (s.dead_finish (by decide) _ _)
  · split
    · exact .inr (s.dead_finish (by decide) _ _)
    · exact .inl rfl

/-- What is not DATA is ignored by the receiver, or ends it. -/
theorem recvReceived_of_not_data (x : Xfer) (s : RecvState) {p : Packet} (hp : p.isData = false) :
    recvReceived x s p = s ∨ (recvReceived x s p).Dead := by
  rw [Packet.isData, decide_eq_false_iff_not] at hp
  unfold recvReceived
  split_ifs
  · exact .inl rfl
  · exact .inr (s.dead_finish (by decide) _ _ _)
  · exact .inl rfl

/-- The receiver sends ACKs and its opening reply. -/
theorem isReply_of_sent {x : Xfer} {a : RecvArgs} (ha : ∀ q, a.initialReply = some q → q.isReply = true)
    {s s' : RecvState} {p : Packet} (hs : recvStep x a s (.sent p) = some s') : p.isReply = true := by
  have hreply : (s.replyPacket a).isReply = true := by
    unfold RecvState.replyPacket
    split
    · next reply _ hr => exact ha reply hr
    · exact isReply_ackPacket _
  simp only [recvStep] at hs
  split at hs
  · exact (Option.ite_none_right_eq_some.mp hs).1 ▸ hreply
  · exact (Option.ite_none_right_eq_some.mp hs).1 ▸ isReply_ackPacket _
  · exact (Option.ite_none_right_eq_some.mp hs).1 ▸ isReply_ackPacket _
  · cases hs

/-- The sender sends blocks of the file. -/
theorem SendRefines.sent {x : Xfer} {xs : Bytes} {s s' : SendState} {sd : Sending} (h : SendRefines x xs s sd)
    {p : Packet} (hs : sendStep x s (.sent p) = some s') : ∃ i, p = blockPacket x xs i := by
  obtain ⟨sd', hsd, -⟩ := h.step hs
  cases Sending.move_of_step hsd with
  | sent n hpc => exact ⟨_, rfl⟩

section
variable {d : Discipline} {c : Session} {w : World}

/-- What a step of an engine does to the channels, unless it takes something from them. -/
theorem netStep_sender {l : SendLabel} {s' : SendState} (hl : ∀ p, l ≠ .received p)
    (hs : sendStep c.x w.sender l = some s') :
    netStep d c w (.sender l) = some { w with sender := s', data := w.data ++ l.sends.toList } := by
  cases l with
  | received p => exact absurd rfl (hl p)
  | _ => simp [netStep, senderStep, hs, SendLabel.sends]

theorem netStep_receiver {args : RecvArgs} {r r' : RecvState} {l : RecvLabel} (hw : w.receiver = some (args, r))
    (hl : ∀ p, l ≠ .received p) (hs : recvStep c.x args r l = some r') :
    netStep d c w (.receiver l) =
      some { w with receiver := some (args, r'), acks := w.acks ++ l.sends.toList } := by
  cases l with
  | received p => exact absurd rfl (hl p)
  | _ => simp [netStep, receiverStep, hw, hs, RecvLabel.sends]

end

/-! ### The mirror -/

/-- The payloads a step of the engines publishes. -/
def NetLabel.payloads : NetLabel → List Bytes
  | .receiver l => (published [l]).map Packet.payload
  | _ => []

/-- A run of the engines from the beginning of the file. `data` and `acks` are what is in
flight in the session, `ps` is what has been published. -/
structure Mirror (d : Discipline) (c : Session) (io : TftpIo) (data acks : List Packet) (ps : List Bytes)
    (w : World) : Prop where
  run : ∃ t, run (netStep d c) { sender := sendInit io } t = some w ∧
    (published (recvTrace t)).map Packet.payload = ps
  data_eq : w.data = data.filter Packet.isData
  acks_eq : w.acks = acks.filter Packet.isReply

namespace Mirror

variable {d : Discipline} {c : Session} {io : TftpIo} {data data' acks acks' : List Packet} {ps : List Bytes}
  {w w' : World}

theorem init (d : Discipline) (c : Session) (io : TftpIo) : Mirror d c io [] [] [] { sender := sendInit io } :=
  ⟨⟨[], rfl, rfl⟩, rfl, rfl⟩

theorem step (h : Mirror d c io data acks ps w) {l : NetLabel} (hs : netStep d c w l = some w')
    (hdata : w'.data = data'.filter Packet.isData) (hacks : w'.acks = acks'.filter Packet.isReply) :
    Mirror d c io data' acks' (ps ++ l.payloads) w' := by
  obtain ⟨t, hrun, rfl⟩ := h.run
  refine ⟨⟨t ++ [l], Transition.run_concat_eq_some.mpr ⟨w, hrun, hs⟩, ?_⟩, hdata, hacks⟩
  cases l <;> simp [NetLabel.payloads]

/-- A step that publishes nothing. -/
theorem quiet (h : Mirror d c io data acks ps w) {l : NetLabel} (hl : l.payloads = [])
    (hs : netStep d c w l = some w') (hdata : w'.data = data'.filter Packet.isData)
    (hacks : w'.acks = acks'.filter Packet.isReply) : Mirror d c io data' acks' ps w' := by
  have hstep := h.step hs hdata hacks
  rwa [hl, List.append_nil] at hstep

/-! Messages the engines do not see -/

theorem passes_data (h : Mirror d c io data acks ps w) {p : Packet} (hp : p.isData = false) :
    Mirror d c io (data ++ [p]) acks ps w :=
  ⟨h.run, by rw [h.data_eq, List.filter_append, List.filter_singleton, hp]; simp, h.acks_eq⟩

theorem passes_ack (h : Mirror d c io data acks ps w) {p : Packet} (hp : p.isReply = false) :
    Mirror d c io data (acks ++ [p]) ps w :=
  ⟨h.run, h.data_eq, by rw [h.acks_eq, List.filter_append, List.filter_singleton, hp]; simp⟩

theorem loses_data (h : Mirror d c io data acks ps w)
    (hn : ∃ n, data'.filter Packet.isData = (data.filter Packet.isData).eraseIdx n) :
    ∃ w', Mirror d c io data' acks ps w' ∧ w'.sender = w.sender ∧ w'.receiver = w.receiver := by
  obtain ⟨n, hn⟩ := hn
  refine ⟨_, h.quiet (l := .loseData n) rfl rfl ?_ h.acks_eq, rfl, rfl⟩
  rw [hn, h.data_eq]

theorem loses_ack (h : Mirror d c io data acks ps w)
    (hn : ∃ n, acks'.filter Packet.isReply = (acks.filter Packet.isReply).eraseIdx n) :
    ∃ w', Mirror d c io data acks' ps w' ∧ w'.sender = w.sender ∧ w'.receiver = w.receiver := by
  obtain ⟨n, hn⟩ := hn
  refine ⟨_, h.quiet (l := .loseAck n) rfl rfl h.data_eq ?_, rfl, rfl⟩
  rw [hn, h.acks_eq]

/-! Steps of the sender -/

/-- The sender makes a step of its own. -/
theorem sender (h : Mirror d c io data acks ps w) {s s' : SendState} (hst : w.sender.Stands s) {l : SendLabel}
    (hl : ∀ p, l ≠ .received p) (hdata : ∀ p, l.sends = some p → p.isData = true)
    (hs : sendStep c.x s l = some s') :
    ∃ w', Mirror d c io (data ++ l.sends.toList) acks ps w' ∧ w'.sender.Stands s' ∧ w'.receiver = w.receiver := by
  rcases hst with rfl | ⟨hdead, r, hpc, hne⟩
  · refine ⟨_, h.quiet (l := .sender l) rfl (netStep_sender hl hs) ?_ h.acks_eq, .inl rfl, rfl⟩
    rw [List.filter_append, h.data_eq, List.filter_eq_self.mpr fun p hp => hdata p (Option.mem_toList.mp hp)]
  · obtain ⟨rfl, hpc'⟩ := sendStep_of_done hpc hs
    refine ⟨w, ?_, .inr ⟨hdead, r, hpc'.trans hpc, hne⟩, rfl⟩
    rwa [show SendLabel.thread.sends = none from rfl, Option.toList_none, List.append_nil]

/-- The sender gets a message, of which `p` is in its buffer. -/
theorem sender_hears (h : Mirror d c io data acks ps w) {s s' : SendState} (hst : w.sender.Stands s) {m p : Packet}
    (hp : m.isReply = true → p = m) (hq : m.isReply = false → p.isReply = false)
    (hm : receive d acks m = some acks') (hs : sendStep c.x s (.received p) = some s') :
    ∃ w', Mirror d c io data acks' ps w' ∧ w'.sender.Stands s' ∧ w'.receiver = w.receiver := by
  rcases hst with rfl | ⟨-, r, hpc, -⟩
  · cases hreply : m.isReply with
    | true =>
      obtain rfl := hp hreply
      refine ⟨{ w with sender := s', acks := acks'.filter Packet.isReply },
        h.quiet (l := .sender (.received p)) rfl ?_ h.data_eq rfl, .inl rfl, rfl⟩
      have hrecv := Channel.receive_filter hreply hm
      rw [← h.acks_eq] at hrecv
      simp only [netStep, senderStep, hs, Option.bind_some, hrecv, Option.map_some]
    | false =>
      obtain ⟨w₁, h₁, hsend, hrec⟩ := h.loses_ack (Channel.filter_of_receive _ hm)
      simp only [sendStep] at hs
      split at hs
      · next hpc =>
        obtain rfl := Option.some.inj hs
        rcases sendReceived_of_not_reply c.x w.sender (hq hreply) with heq | hdead
        · exact ⟨w₁, h₁, .inl (hsend.trans heq.symm), hrec⟩
        · refine ⟨{ w₁ with sender := w₁.sender.finish .recvError 0 },
            h₁.quiet (l := .sender (.recvFailed 0)) rfl ?_ h₁.data_eq h₁.acks_eq,
            .inr ⟨SendState.dead_finish _ (by decide) _ _, hdead⟩, hrec⟩
          simp only [netStep, senderStep, sendStep, hsend, hpc, Option.bind_some]
      · cases hs
  · cases (sendStep_of_done hpc hs).1

/-! Steps of the receiver -/

/-- The receiver is called. -/
theorem start (h : Mirror d c io data acks ps w) (hw : w.receiver = none) :
    Mirror d c io data acks ps { w with receiver := some (c.startWith none) } := by
  refine h.quiet (l := .start none) rfl ?_ h.data_eq h.acks_eq
  simp only [netStep, hw]

/-- The receiver is called with the first block. -/
theorem start_with (h : Mirror d c io data acks ps w) (hw : w.receiver = none) {m : Packet} (hm : m.isData = true)
    (hblock : m.block = 1) (hrecv : receive d data m = some data') :
    ∃ w', Mirror d c io data' acks ps w' ∧ w'.receiver = some (c.startWith (some m)) ∧ w'.sender = w.sender := by
  refine ⟨{ w with receiver := some (c.startWith (some m)), data := data'.filter Packet.isData },
    h.quiet (l := .start (some m)) rfl ?_ rfl h.acks_eq, rfl, rfl⟩
  have hdata := Channel.receive_filter hm hrecv
  rw [← h.data_eq] at hdata
  simp only [netStep, hw]
  rw [if_pos ⟨of_decide_eq_true hm, hblock⟩, hdata, Option.map_some]

/-- The receiver makes a step of its own. -/
theorem receiver (h : Mirror d c io data acks ps w) {args : RecvArgs} {r₀ r r' : RecvState}
    (hw : w.receiver = some (args, r₀)) (hst : r₀.Stands r) {l : RecvLabel} (hl : ∀ p, l ≠ .received p)
    (ha : ∀ q, args.initialReply = some q → q.isReply = true) (hs : recvStep c.x args r l = some r') :
    ∃ w', Mirror d c io data (acks ++ l.sends.toList) (ps ++ (published [l]).map Packet.payload) w' ∧
      w'.receiver = some (args, r') ∧ w'.sender = w.sender := by
  rcases hst with rfl | ⟨-, res, hpc, -⟩
  · refine ⟨_, h.step (l := .receiver l) (netStep_receiver hw hl hs) h.data_eq ?_, rfl, rfl⟩
    have hreply : ∀ p ∈ l.sends.toList, p.isReply = true := by
      intro p hp
      cases l with
      | sent q =>
        obtain rfl := Option.some.inj (Option.mem_toList.mp hp)
        exact isReply_of_sent ha hs
      | _ => cases Option.mem_toList.mp hp
    rw [List.filter_append, h.acks_eq, List.filter_eq_self.mpr hreply]
  · rw [recvStep_of_done hpc] at hs
    cases hs

/-- The receiver gets a message, of which `p` is in its buffer. -/
theorem receiver_hears (h : Mirror d c io data acks ps w) {args : RecvArgs} {r₀ r r' : RecvState}
    (hw : w.receiver = some (args, r₀)) (hst : r₀.Stands r) {m p : Packet} (hp : m.isData = true → p = m)
    (hq : m.isData = false → p.isData = false) (hm : receive d data m = some data')
    (hs : recvStep c.x args r (.received p) = some r') :
    ∃ w' r₁, Mirror d c io data' acks ps w' ∧ w'.receiver = some (args, r₁) ∧ r₁.Stands r' ∧
      w'.sender = w.sender := by
  rcases hst with rfl | ⟨-, res, hpc, -⟩
  · cases hdata : m.isData with
    | true =>
      obtain rfl := hp hdata
      refine ⟨{ w with receiver := some (args, r'), data := data'.filter Packet.isData }, r',
        h.quiet (l := .receiver (.received p)) rfl ?_ rfl h.acks_eq, rfl, .inl rfl, rfl⟩
      have hrecv := Channel.receive_filter hdata hm
      rw [← h.data_eq] at hrecv
      simp only [netStep, receiverStep, hw, hs, Option.bind_some, hrecv, Option.map_some]
    | false =>
      obtain ⟨w₁, h₁, hsend, hrec⟩ := h.loses_data (Channel.filter_of_receive _ hm)
      simp only [recvStep] at hs
      split at hs
      · next hpc =>
        obtain rfl := Option.some.inj hs
        rcases recvReceived_of_not_data c.x r₀ (hq hdata) with heq | hdead
        · exact ⟨w₁, r₀, h₁, hrec.trans hw, .inl heq.symm, hsend⟩
        · refine ⟨{ w₁ with receiver := some (args, r₀.finish .recvError 0) }, _,
            h₁.quiet (l := .receiver (.recvFailed 0)) rfl ?_ h₁.data_eq h₁.acks_eq, rfl,
            .inr ⟨RecvState.dead_finish _ (by decide) _ _ _, hdead⟩, hsend⟩
          simp only [netStep, receiverStep, recvStep, hrec, hw, hpc, Option.bind_some]
      · cases hs
  · rw [recvStep_of_done hpc] at hs
    cases hs

end Mirror

/-! ### Safety -/

/-- Writing a file as it is sent gives the file. -/
theorem converted_stream (file : File) (convert : Bool) :
    TftpIo.converted convert false (file.stream convert) = file.rest := by
  cases convert with
  | false => rfl
  | true => exact Netascii.decode_encode file.rest

/-- Block numbers tell blocks apart: they do not wrap, or the channels keep the order and what
is in flight is near what is expected. -/
def Numbered (d : Discipline) (c : Session) (xs : Bytes) : Prop :=
  blockCount c.x.blocksize xs ≤ 65535 ∨
    d = .fifo ∧ c.x.windowsize ≤ 32768 ∧ (c.x.rollover = 0 ∨ c.x.rollover = 1)

namespace Mirror

variable {d : Discipline} {c : Session} {io : TftpIo} {data acks : List Packet} {ps : List Bytes} {w : World}
  {file : File} {convert threaded : Bool} {slots : ℕ}

theorem refines (h : Mirror d c io data acks ps w) (hw : 0 < c.x.windowsize)
    (hio : TftpIo.readerStart file convert c.x.windowsize slots c.x.blocksize threaded = some io) :
    ∃ sd, SendRefines c.x (file.stream convert) w.sender sd := by
  obtain ⟨t, hrun, -⟩ := h.run
  refine Transition.run_invariant (fun _ (w : World) => ∃ sd, SendRefines c.x (file.stream convert) w.sender sd)
    ⟨_, sendRefines_init hw hio⟩ (fun t w l w' ⟨sd, hsd⟩ hs => ?_) hrun
  by_cases hl : ∃ m, l = .sender m
  · obtain ⟨m, rfl⟩ := hl
    obtain ⟨s', hstep, hw'⟩ := Option.bind_eq_some_iff.mp hs
    obtain ⟨sd', -, hsd'⟩ := hsd.step hstep
    refine ⟨sd', ?_⟩
    cases m with
    | received p =>
      obtain ⟨acks, -, rfl⟩ := Option.map_eq_some_iff.mp hw'
      exact hsd'
    | _ =>
      obtain rfl := Option.some.inj hw'
      exact hsd'
  · rw [netStep_sender_eq (fun m hm => hl ⟨m, hm⟩) hs]
    exact ⟨sd, hsd⟩

/-- What has been published is part of the file; it is the whole when the receiver has
succeeded, and the sender succeeds only after it. -/
theorem safe (h : Mirror d c io data acks ps w) (hreply : c.OpensWell) (hw : 0 < c.x.windowsize)
    (hio : TftpIo.readerStart file convert c.x.windowsize slots c.x.blocksize threaded = some io)
    (hnum : Numbered d c (file.stream convert)) :
    ps <+: blocks c.x.blocksize (file.stream convert) ∧
      (∀ args r res, w.receiver = some (args, r) → r.pc = .done res → res.status = .ok →
        ps = blocks c.x.blocksize (file.stream convert)) ∧
      (∀ res, w.sender.pc = .done res → res.status = .ok → ∃ args r res', w.receiver = some (args, r) ∧
        r.pc = .done res' ∧ res'.status = .ok) := by
  obtain ⟨t, hrun, rfl⟩ := h.run
  have hc := Session.ok_of_start hio hw hreply
  have hpos := Blocks.blockCount_pos c.x.blocksize (file.stream convert)
  have hid : ∀ a, Reaches (indexStep d c (file.stream convert)) (fun _ => True) {} a →
      Identifies c (file.stream convert) a := by
    intro a ha
    rcases hnum with hcount | ⟨rfl, hwin, hroll⟩
    · exact identifies_of_count_le hcount (.of_reaches hpos ha)
    · exact identifies_of_lag hwin hroll (.of_reaches hpos ha) (.of_reaches hpos hw ha)
  obtain ⟨a, ha, hrel, -⟩ := Rel.of_run hc (Rel.init hw hio) hid hrun
  have hsafe := hrel.safe hc (.of_reaches hpos ha)
  refine ⟨hsafe.published_prefix, hsafe.receiver_ok, fun res hpc hok => ?_⟩
  obtain ⟨-, -, -, args, r, res', hr, hpc', hok', -⟩ := hsafe.sender_ok res hpc hok
  exact ⟨args, r, res', hr, hpc', hok'⟩

end Mirror

end TftpHpa
