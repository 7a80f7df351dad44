import TftpHpa.Client.Download
import TftpHpa.Client.Sent
import TftpHpa.Client.Terms
import TftpHpa.Daemon.Sendfile
import TftpHpa.Lib.Peers
import TftpHpa.Net.Mirror

/-! A download from the request to the file: the client in `tftp_recvfile` and the workers that
the copies of its request start at the server, each in `tftp_sendfile` with a port of its own.
The client connects to the first that answers. -/

namespace TftpHpa

open Channel (Discipline receive)
open Peers (System)

/-! ### The client -/

/-- A step of `tftp_recvfile`, or an ERROR packet on the way out of it. -/
inductive GetLabel where
  | run (l : DownloadLabel)
  | nak (p : Packet)

namespace Download

/-- The transfer is over, or has never begun. -/
def leaving (s : Download) : Bool :=
  match s.pc with
  | .ended => true
  | .receiving _ _ x =>
    match x.recv.pc with
    | .done _ => true
    | _ => false
  | _ => false

/-- `tftp_recvfile` with its ERROR packets. Which of the ways out sends one is left open. -/
def get (a : DownloadArgs) (s : Download) : GetLabel → Option Download
  | .run l => s.step a l
  | .nak p => if s.leaving ∧ p.opcode = Opcode.error.code then some s else none

/-- How the client takes a datagram: `client_recv_time` cuts it to the buffer. -/
def input (s : Download) (p : Packet) : GetLabel :=
  match s.pc with
  | .receiving _ args _ => .run (.step (.engine (.received (p.take args.inputSize)) none))
  | _ => .run (.reply (p.take TFTP_REPLY_MAX_PACKET_SIZE))

end Download

def GetLabel.sends : GetLabel → Option Packet
  | .run (.sent p) | .nak p => some p
  | .run (.step (.engine l _)) => l.sends
  | _ => none

def GetLabel.receives : GetLabel → Bool
  | .run (.reply _) | .run (.step (.engine (.received _) _)) => true
  | _ => false

/-! ### The server -/

/-- A worker for a read request: it refuses, or sends the file. -/
inductive ReadWorker where
  | refusing (p : Packet)
  | refused
  | sending (a : SendfileArgs) (s : Sendfile)

namespace ReadWorker

def step : ReadWorker → SendfileLabel → Option ReadWorker
  | refusing p, .sent q => if q = p then some refused else none
  | refusing _, .sendFailed => some refused
  | sending a s, l => (s.step a l).map (sending a)
  | _, _ => none

def input (w : ReadWorker) (p : Packet) : SendfileLabel :=
  match w with
  | sending _ s => s.input p
  | _ => .reply p

end ReadWorker

/-- What a request finds at the server when it arrives. -/
structure ReadEnv where
  config : DaemonConfig
  peer : Socket
  handlers : Handlers
  pthread : Bool
  file : File
  strerror : ℤ → Bytes

/-- The worker that is started for a datagram; one that is not a read request is none of these. -/
def ReadEnv.start (p : Packet) (env : ReadEnv) : Option ReadWorker :=
  if p.opcode = Opcode.rrq.code then
    match tftp env.config env.peer env.handlers p with
    | .ok request =>
      let a : SendfileArgs := ⟨request, env.pthread, env.file, env.strerror⟩
      some (.sending a a.init)
    | .error (.nak error msg) => some (.refusing (nak env.strerror error msg))
    | .error (.exit _) => none
  else none

/-- A client that downloads a file, and the server. -/
def downloadSystem (a : DownloadArgs) : System Download GetLabel ReadWorker SendfileLabel Packet ReadEnv where
  client := { step := Download.get a, sends := GetLabel.sends, input := Download.input, isInput := GetLabel.receives }
  worker :=
    { step := ReadWorker.step, sends := SendfileLabel.sends, input := ReadWorker.input,
      isInput := SendfileLabel.receives }
  start := ReadEnv.start
  settles p := 2 ≤ p.length

/-- The client asks for the file `name` in one of the two modes. -/
structure DownloadArgs.Gets (a : DownloadArgs) (c : ClientConfig) (peer : Socket) (name : Bytes) (pf : Format) :
    Prop where
  request_eq : tftpRecvfile c peer name pf.mode = some (a.request, a.optreq)
  zero_notMem : (0 : UInt8) ∉ name
  convert_eq : a.convert = pf.convert

/-! ### The engines of a download -/

namespace SendfileArgs

/-- What the two engines agree on. -/
def session (b : SendfileArgs) : Session where
  x := b.xfer
  inputSize := b.request.daemon.segsize + 5
  initialReply := b.request.oack.map fun _ => ackPacket 0

/-- The ring the worker reads the file through. -/
def reader (b : SendfileArgs) : Option TftpIo := (ioRingSlots b.pthread b.request.daemon).bind b.readerStart

/-- What is sent. -/
def stream (b : SendfileArgs) : Bytes := b.file.stream b.request.format.convert

end SendfileArgs

/-- The worker has got past the OACK. -/
def SendfilePc.begun : SendfilePc → Bool
  | .start | .sending _ => true
  | _ => false

/-- Where the worker stands, next to the sender of the mirror. -/
def SendfilePc.Follows (io : TftpIo) (w : World) : SendfilePc → Prop
  | .oack _ | .waiting _ | .start => w.sender = sendInit io
  | .sending s => w.sender.Stands s
  | .nak _ status | .ended status => status = some .ok → ∃ res, w.sender.pc = .done res ∧ res.status = .ok

/-- Where the client stands, next to the receiver of the mirror. -/
def DownloadPc.Follows (b : SendfileArgs) (convert : Bool) (ps : List Bytes) (w : World) : DownloadPc → Prop
  | .request | .waiting => w.receiver = none ∧ ps = []
  | .receiving optack args x => optack.xfer = b.xfer ∧ (∃ p, args = (b.session.startWith p).1) ∧
      (∃ r, w.receiver = some (args, r) ∧ r.Stands x.recv) ∧ x.Inv convert ps
  | .ended => ∀ args r res, w.receiver = some (args, r) → r.pc = .done res → res.status ≠ .ok

/-- Only the engine counts. -/
theorem SendfilePc.Follows.congr {io : TftpIo} {w w' : World} {s : SendfilePc} (h : s.Follows io w)
    (hw : w'.sender = w.sender) : s.Follows io w' := by
  cases s <;> simp only [SendfilePc.Follows, hw] at h ⊢ <;> exact h

theorem DownloadPc.Follows.congr {b : SendfileArgs} {convert : Bool} {ps : List Bytes} {w w' : World} {pc : DownloadPc}
    (h : pc.Follows b convert ps w) (hw : w'.receiver = w.receiver) : pc.Follows b convert ps w' := by
  cases pc <;> simp only [DownloadPc.Follows, hw] at h ⊢ <;> exact h

/-- A client and the worker it talks to. Until the client has called the receiver it sends no
ACK, and a worker with an OACK does not get past it. -/
structure Served (d : Discipline) (b : SendfileArgs) (io : TftpIo) (convert : Bool) (pc : DownloadPc)
    (s : SendfilePc) (up down : List Packet) (ps : List Bytes) (w : World) : Prop where
  mirror : Mirror d b.session io down up ps w
  worker : s.Follows io w
  client : pc.Follows b convert ps w
  down_cases : ∀ p ∈ down, (∃ i, p = blockPacket b.xfer b.stream i) ∨ b.request.oack = some p ∨
    p.opcode = Opcode.error.code
  oack_eq : ∀ p, s = .oack p ∨ s = .waiting p → b.request.oack = some p
  idle : w.receiver = none → w.acks = [] ∧ (b.request.oack ≠ none → w.data = [] ∧ s.begun = false)

theorem SendfileArgs.reader_eq_some {b : SendfileArgs} {io : TftpIo} (h : b.reader = some io) :
    ∃ slots, ioRingSlots b.pthread b.request.daemon = some slots ∧ b.readerStart slots = some io :=
  Option.bind_eq_some_iff.mp h

theorem SendfileArgs.reader_eq_none {b : SendfileArgs} (h : b.request.daemon.segsize = 0) : b.reader = none := by
  rw [reader, Option.bind_eq_none_iff]
  intro slots _
  rw [readerStart, TftpIo.readerStart, TftpIo.ioStart, if_pos (.inr (.inl h))]

theorem SendfileArgs.exists_reader {b : SendfileArgs} (hseg : b.request.daemon.segsize ≠ 0)
    (hwin : 1 ≤ b.request.daemon.windowsize) : ∃ io, b.reader = some io := by
  obtain ⟨slots, hslots, hle⟩ := le_ioRingSlots b.pthread hseg
  refine ⟨.init b.file b.request.format.convert slots b.request.daemon.windowsize b.request.daemon.segsize b.pthread,
    Option.bind_eq_some_iff.mpr ⟨slots, hslots, ?_⟩⟩
  rw [readerStart, TftpIo.readerStart, TftpIo.ioStart, if_neg]
  rintro (h | h | ⟨-, h⟩) <;> omega

namespace Served

variable {d : Discipline} {b : SendfileArgs} {io : TftpIo} {convert : Bool} {pc pc' : DownloadPc}
  {s s' : SendfilePc} {x : SendState} {up up' down down' : List Packet} {ps ps' : List Bytes} {w w' : World}
  {optreq : Optreq}

/-- The worker goes on without the engine. -/
theorem goto (h : Served d b io convert pc s up down ps w) (s' : SendfilePc) (hs : s'.Follows io w)
    (ho : ∀ p, s' = .oack p ∨ s' = .waiting p → b.request.oack = some p)
    (hb : s'.begun = true → s.begun = true) : Served d b io convert pc s' up down ps w := by
  refine ⟨h.mirror, hs, h.client, h.down_cases, ho, fun hr => ⟨(h.idle hr).1, fun hoack => ?_⟩⟩
  obtain ⟨hdata, hbegun⟩ := (h.idle hr).2 hoack
  refine ⟨hdata, ?_⟩
  cases hs' : s'.begun with
  | false => rfl
  | true => exact absurd (hb hs') (by simp [hbegun])

/-- The worker goes from sending the OACK to waiting for its ACK, or back. -/
theorem goto_oack {oack : Packet} (h : Served d b io convert pc s up down ps w)
    (hs : s = .oack oack ∨ s = .waiting oack) :
    Served d b io convert pc (.oack oack) up down ps w ∧ Served d b io convert pc (.waiting oack) up down ps w := by
  have ho := h.oack_eq oack hs
  have hw : w.sender = sendInit io := by
    rcases hs with rfl | rfl
    · exact h.worker
    · exact h.worker
  constructor
  · exact h.goto _ hw (fun q hq => by rcases hq with hq | hq <;> cases hq; exact ho) (by simp [SendfilePc.begun])
  · exact h.goto _ hw (fun q hq => by rcases hq with hq | hq <;> cases hq; exact ho) (by simp [SendfilePc.begun])

/-- The worker leaves without having finished. -/
theorem leave (h : Served d b io convert pc s up down ps w) {status : Option XferStatus} (hst : status ≠ some .ok) :
    Served d b io convert pc (.ended status) up down ps w :=
  h.goto _ (fun hok => absurd hok hst) (by simp) (by simp [SendfilePc.begun])

/-- The worker sends something that is not for the engine of the client. -/
theorem tells (h : Served d b io convert pc s up down ps w) {p : Packet} (hp : p.isData = false)
    (hcase : b.request.oack = some p ∨ p.opcode = Opcode.error.code) :
    Served d b io convert pc s up (down ++ [p]) ps w := by
  refine ⟨h.mirror.passes_data hp, h.worker, h.client, fun q hq => ?_, h.oack_eq, h.idle⟩
  rcases List.mem_append.mp hq with hq | hq
  · exact h.down_cases q hq
  · exact .inr (List.mem_singleton.mp hq ▸ hcase)

/-- What is in flight to the client gets less. -/
theorem lessDown (h : Served d b io convert pc s up down ps w) (hsub : down'.Sublist down)
    (hn : ∃ n, down'.filter Packet.isData = (down.filter Packet.isData).eraseIdx n) :
    ∃ w, Served d b io convert pc s up down' ps w := by
  obtain ⟨w', hm, hsend, hrec⟩ := h.mirror.loses_data hn
  refine ⟨w', hm, h.worker.congr hsend, h.client.congr hrec, fun p hp => h.down_cases p (hsub.subset hp),
    h.oack_eq, fun hr => ?_⟩
  obtain ⟨hacks, hoack⟩ := h.idle (hrec ▸ hr)
  refine ⟨by rw [hm.acks_eq, ← h.mirror.acks_eq, hacks], fun ho => ⟨?_, (hoack ho).2⟩⟩
  obtain ⟨n, hn⟩ := hn
  rw [hm.data_eq, hn, ← h.mirror.data_eq, (hoack ho).1]
  rfl

/-- What is in flight to the worker gets less. -/
theorem lessUp (h : Served d b io convert pc s up down ps w)
    (hn : ∃ n, up'.filter Packet.isReply = (up.filter Packet.isReply).eraseIdx n) :
    ∃ w', Served d b io convert pc s up' down ps w' ∧ w'.receiver = w.receiver := by
  obtain ⟨w', hm, hsend, hrec⟩ := h.mirror.loses_ack hn
  refine ⟨w', ⟨hm, h.worker.congr hsend, h.client.congr hrec, h.down_cases, h.oack_eq, fun hr => ?_⟩, hrec⟩
  obtain ⟨hacks, hoack⟩ := h.idle (hrec ▸ hr)
  obtain ⟨n, hn⟩ := hn
  refine ⟨?_, fun ho => ⟨?_, (hoack ho).2⟩⟩
  · rw [hm.acks_eq, hn, ← h.mirror.acks_eq, hacks]
    rfl
  · rw [hm.data_eq, ← h.mirror.data_eq, (hoack ho).1]

/-! The worker -/

/-- A step of the engine of the worker. -/
theorem engine (h : Served d b io convert pc (.sending x) up down ps w) (hterms : Terms optreq b.request)
    (hio : b.reader = some io) {x' : SendState} {l : SendLabel} (hl : ∀ p, l ≠ .received p)
    (hs : sendStep b.xfer x l = some x') :
    ∃ w', Served d b io convert pc (.sending x') up (down ++ l.sends.toList) ps w' := by
  obtain ⟨slots, -, hstart⟩ := b.reader_eq_some hio
  obtain ⟨sd, hsd⟩ := h.mirror.refines hterms.windowsize_pos hstart
  have hblock : ∀ p, l.sends = some p → ∃ i, p = blockPacket b.xfer b.stream i := by
    intro p hp
    cases l with
    | sent q =>
      obtain rfl := Option.some.inj hp
      rcases h.worker with heq | ⟨-, r, hpc, -⟩
      · exact hsd.sent (heq ▸ hs)
      · cases (sendStep_of_done hpc hs).1
    | _ => cases hp
  have hdata : ∀ p, l.sends = some p → p.isData = true := fun p hp => by
    obtain ⟨i, rfl⟩ := hblock p hp
    exact isData_blockPacket _ _ _
  obtain ⟨w', hm, hst, hrec⟩ := h.mirror.sender h.worker hl hdata hs
  refine ⟨w', hm, hst, h.client.congr hrec, fun p hp => ?_, by simp, fun hr => ?_⟩
  · rcases List.mem_append.mp hp with hp | hp
    · exact h.down_cases p hp
    · exact .inl (hblock p (Option.mem_toList.mp hp))
  · obtain ⟨hacks, hoack⟩ := h.idle (hrec ▸ hr)
    refine ⟨by rw [hm.acks_eq, ← h.mirror.acks_eq, hacks], fun ho => ?_⟩
    cases (hoack ho).2

/-- The worker makes a step of its own. -/
theorem move {f f' : Sendfile} (h : Served d b io convert pc f.pc up down ps w) (hterms : Terms optreq b.request)
    (hio : b.reader = some io) {l : SendfileLabel} (hl : l.receives = false) (hs : f.step b l = some f') :
    ∃ w', Served d b io convert pc f'.pc up (down ++ l.sends.toList) ps w' := by
  have hquiet : ∀ {w' pc'}, Served d b io convert pc pc' up down ps w' →
      ∃ w', Served d b io convert pc pc' up (down ++ none.toList) ps w' := by
    intro w' pc' h'
    rw [Option.toList_none, List.append_nil]
    exact ⟨w', h'⟩
  cases Sendfile.move_of_step hs with
  | @oack oack hpc =>
    rw [hpc] at h
    have ho := h.oack_eq oack (.inl rfl)
    exact ⟨w, (h.goto_oack (.inl rfl)).2.tells (not_data_of_oack (hterms.oack oack ho).1) (.inl ho)⟩
  | @nak error status hpc =>
    rw [hpc] at h
    have herr := opcode_nak b.strerror error none
    exact ⟨w, (h.goto (.ended status) h.worker (by simp) (by simp [SendfilePc.begun])).tells
      (not_data_of_error herr) (.inr herr)⟩
  | oackFailed | recvFailed | divides | exits => exact hquiet (h.leave (by simp))
  | @nakFailed error status hpc =>
    rw [hpc] at h
    exact hquiet (h.goto (.ended status) h.worker (by simp) (by simp [SendfilePc.begun]))
  | reply => cases hl
  | @start e slots' io' hpc hslots' hio' =>
    obtain ⟨slots, hslots, hstart⟩ := b.reader_eq_some hio
    obtain rfl := Option.some.inj (hslots.symm.trans hslots')
    obtain rfl := Option.some.inj (hstart.symm.trans hio')
    rw [hpc] at h
    exact hquiet (h.goto (.sending (sendInit io)) (.inl h.worker) (by simp) (fun _ => rfl))
  | startFailed e error hpc =>
    rw [hpc] at h
    exact hquiet (h.goto (.nak _ none) (by simp [SendfilePc.Follows]) (by simp) (by simp [SendfilePc.begun]))
  | engine hpc _ hx =>
    rw [hpc] at h
    exact h.engine hterms hio (fun p hp => by subst hp; cases hl) hx
  | oackAgain hpc =>
    rw [hpc] at h
    exact hquiet (h.goto_oack (.inr rfl)).1
  | windowAgain hpc hx =>
    rw [hpc] at h
    exact h.engine hterms hio (by simp) hx
  | readError hpc hdone hread =>
    rw [hpc] at h
    exact hquiet (h.goto (.nak _ _) (by simp [SendfilePc.Follows, hread]) (by simp) (by simp [SendfilePc.begun]))
  | @finish x result hpc hdone =>
    rw [hpc] at h
    refine hquiet (h.goto (.ended _) (fun hok => ?_) (by simp) (by simp [SendfilePc.begun]))
    exact ⟨result, SendState.Stands.done_ok h.worker hdone (Option.some.inj hok), Option.some.inj hok⟩

/-- A message reaches the worker. -/
theorem hears {f f' : Sendfile} (h : Served d b io convert pc f.pc up down ps w) {m : Packet}
    (hm : receive d up m = some up') (hs : f.step b (f.input m) = some f') :
    ∃ w', Served d b io convert pc f'.pc up' down ps w' := by
  cases hpc : f.pc with
  | sending x =>
    simp only [Sendfile.input, hpc, Sendfile.step] at hs
    obtain ⟨x', hx, rfl⟩ := Option.map_eq_some_iff.mp hs
    rw [hpc] at h
    obtain ⟨w', hm', hst, hrec⟩ := h.mirror.sender_hears h.worker (fun _ => rfl) (fun hq => hq) hm hx
    refine ⟨w', hm', hst, h.client.congr hrec, h.down_cases, by simp, fun hr => ?_⟩
    obtain ⟨hacks, hoack⟩ := h.idle (hrec ▸ hr)
    refine ⟨?_, fun ho => by cases (hoack ho).2⟩
    have hsub := (Channel.sublist_of_receive hm).filter Packet.isReply
    rw [← h.mirror.acks_eq, hacks] at hsub
    rw [hm'.acks_eq, List.sublist_nil.mp hsub]
  | waiting oack =>
    simp only [Sendfile.input, hpc, Sendfile.step, Option.some.injEq] at hs
    subst hs
    rw [hpc] at h
    obtain ⟨w', h', hrec⟩ := h.lessUp (Channel.filter_of_receive _ hm)
    refine ⟨w', ?_⟩
    dsimp only
    unfold oackReply
    split_ifs with hshort herror hack hblock
    · exact h'
    · exact h'.leave (by simp)
    · -- the ACK is one of the receiver, which therefore runs
      have hreply : m.isReply = true := by
        rw [opcode_take (by decide)] at hack
        exact decide_eq_true (.inl hack.2)
      have hmem : m ∈ w.acks := by
        rw [h.mirror.acks_eq]
        exact List.mem_filter.mpr ⟨Channel.mem_of_receive hm, hreply⟩
      refine ⟨h'.mirror, h'.worker, h'.client, h'.down_cases, by simp, fun hr => ?_⟩
      rw [(h.idle (hrec ▸ hr)).1] at hmem
      cases hmem
    · exact (h'.goto_oack (.inr rfl)).1
    · exact h'
  | _ =>
    simp only [Sendfile.input, hpc, Sendfile.step] at hs
    cases hs

/-! The client -/

variable {optack : Optreq} {args : RecvArgs} {y y' : Receiving}

/-- A step of the engine of the client. -/
theorem receiver (h : Served d b io convert (.receiving optack args y) s up down ps w) {l : RecvLabel}
    {flush : Option ℤ} (hl : ∀ p, l ≠ .received p) (hs : y.step optack.xfer args (.engine l flush) = some y') :
    ∃ ps' w', Served d b io convert (.receiving optack args y') s (up ++ l.sends.toList) down ps' w' := by
  obtain ⟨hx, ⟨p, hargs⟩, ⟨r, hrec, hst⟩, hinv⟩ := h.client
  rcases Receiving.step_recv hs with ⟨e, fl, heq, hr⟩ | ⟨heq, -⟩
  · cases heq
    have ha : ∀ q, args.initialReply = some q → q.isReply = true := by
      intro q hq
      rw [hargs] at hq
      obtain ⟨-, -, rfl⟩ := Option.map_eq_some_iff.mp hq
      exact isReply_ackPacket 0
    rw [hx] at hr
    obtain ⟨w', hm, hrec', hsend⟩ := h.mirror.receiver hrec hst hl ha hr
    have hpay : (ReceivingLabel.engine l flush).payload = (published [l]).map Packet.payload := by cases l <;> rfl
    refine ⟨_, w', hm, h.worker.congr hsend, ⟨hx, ⟨p, hargs⟩, ⟨_, hrec', .inl rfl⟩, hpay ▸ hinv.step hs⟩,
      h.down_cases, h.oack_eq, fun hnone => ?_⟩
    rw [hrec'] at hnone
    cases hnone
  · cases heq

/-- The client makes a step of its own. -/
theorem client_move {a : DownloadArgs} {c c' : Download} (h : Served d b io a.convert c.pc s up down ps w)
    (hreq : a.request.isReply = false) {l : GetLabel} (hl : l.receives = false) (hs : c.get a l = some c') :
    ∃ ps' w', Served d b io a.convert c'.pc s (up ++ l.sends.toList) down ps' w' := by
  cases l with
  | nak p =>
    simp only [Download.get, Option.ite_none_right_eq_some, Option.some.injEq] at hs
    obtain ⟨⟨-, hp⟩, rfl⟩ := hs
    exact ⟨ps, w, { h with mirror := h.mirror.passes_ack (not_reply_of_error hp) }⟩
  | run l =>
    cases l with
    | reply p => cases hl
    | sent p =>
      simp only [Download.get, Download.step] at hs
      split at hs
      · next hpc =>
        split_ifs at hs with hp
        cases hs
        rw [hpc] at h
        exact ⟨ps, w, { h with mirror := h.mirror.passes_ack (hp ▸ hreq), client := h.client }⟩
      · cases hs
    | sendFailed =>
      simp only [Download.get, Download.step] at hs
      simp only [GetLabel.sends, Option.toList_none, List.append_nil]
      split at hs
      · next hpc =>
        cases hs
        rw [hpc] at h
        exact ⟨ps, w, { h with client := fun _ _ _ hr => by rw [h.client.1] at hr; cases hr }⟩
      · cases hs
    | recvFailed =>
      simp only [Download.get, Download.step] at hs
      simp only [GetLabel.sends, Option.toList_none, List.append_nil]
      split at hs
      · next hpc =>
        cases hs
        rw [hpc] at h
        exact ⟨ps, w, { h with client := fun _ _ _ hr => by rw [h.client.1] at hr; cases hr }⟩
      · cases hs
    | step l =>
      obtain ⟨optack, args, y, y', hpc, hy, hpc'⟩ := Download.step_step hs
      rw [hpc] at h
      rw [hpc']
      cases l with
      | engine l flush => exact h.receiver (fun p hp => by subst hp; cases hl) hy
      | thread =>
        obtain ⟨hx, hargs, hrec, hinv⟩ := h.client
        rcases Receiving.step_recv hy with ⟨e, fl, heq, -⟩ | ⟨-, heq⟩
        · cases heq
        · have hinv' := hinv.step hy
          simp only [ReceivingLabel.payload, List.append_nil] at hinv'
          simp only [GetLabel.sends, Option.toList_none, List.append_nil]
          exact ⟨ps, w, { h with client := ⟨hx, hargs, heq.symm ▸ hrec, hinv'⟩ }⟩
    | timeout =>
      simp only [Download.get, Download.step] at hs
      simp only [GetLabel.sends, Option.toList_none, List.append_nil]
      split at hs
      · next hpc =>
        cases hs
        rw [hpc] at h
        refine ⟨ps, w, ?_⟩
        simp only [Download.timer]
        split_ifs
        · exact { h with client := fun _ _ _ hr => by rw [h.client.1] at hr; cases hr }
        · exact { h with client := h.client }
      · next optack args y hpc =>
        obtain ⟨y', hy, rfl⟩ := Option.map_eq_some_iff.mp hs
        rw [hpc] at h
        obtain ⟨ps', w', h'⟩ := h.receiver (by simp) hy
        simp only [RecvLabel.sends, Option.toList_none, List.append_nil] at h'
        refine ⟨ps', w', ?_⟩
        simp only [Download.timer]
        split_ifs
        · refine { h' with client := fun args r res hr hres => ?_ }
          -- the engine has just been told of the timeout, so it is not done
          obtain ⟨-, -, ⟨r', hrec, hst⟩, -⟩ := h'.client
          obtain ⟨-, rfl⟩ := Prod.mk.inj (Option.some.inj (hrec.symm.trans hr))
          intro hok
          obtain rfl := hst.done_ok hres hok
          rcases Receiving.step_recv hy with ⟨e, fl, heq, hrs⟩ | ⟨heq, -⟩
          · cases heq
            generalize y'.recv = r at hrs hres
            cases recvMove_of_step hrs with
            | timeout hpc => cases hres
          · cases heq
        · exact h'
      · cases hs

/-- A block of the file fits any buffer that is made for blocks. -/
theorem take_block (h : Served d b io convert pc s up down ps w) (hterms : Terms optreq b.request) {m : Packet}
    (hm : m ∈ down) (hdata : m.isData = true) {n : ℕ} (hn : b.request.daemon.segsize + 4 ≤ n) : m.take n = m := by
  rcases h.down_cases m hm with ⟨i, rfl⟩ | ho | herr
  · have hlen := Blocks.block_length_le b.xfer.blocksize b.stream (i - 1)
    refine List.take_of_length_le ?_
    rw [blockPacket_length]
    exact le_trans (Nat.add_le_add_right hlen 4) hn
  · rw [not_data_of_oack (hterms.oack m ho).1] at hdata
    cases hdata
  · rw [not_data_of_error herr] at hdata
    cases hdata

/-- What a client makes of the first answer it does not ignore: it works with the server's sizes,
and it has an OACK, or the first block of a server without one. -/
theorem answer_begins (h : Served d b io convert .waiting s up down ps w) (hterms : Terms optreq b.request)
    {m : Packet} (hm : m ∈ down) (hans : answer optreq (m.take TFTP_REPLY_MAX_PACKET_SIZE) = .begins optack args) :
    optack.xfer = b.xfer ∧ ((m.isData = false ∧ args = (b.session.startWith none).1) ∨
      (m.isData = true ∧ m.block = 1 ∧ args = (b.session.startWith (some m)).1)) := by
  have hxfer : ∀ o : Optreq, o.blksize = b.request.daemon.segsize → o.window = b.request.daemon.windowsize →
      o.xfer = b.xfer := by
    intro o hblk hwin
    simp only [Optreq.xfer, SendfileArgs.xfer, hblk, hwin, hterms.rollover]
  rcases h.down_cases m hm with ⟨i, hi⟩ | ho | herr
  · have hdata : m.isData = true := hi ▸ isData_blockPacket _ _ _
    -- a worker with an OACK has sent no block yet
    have hnone : b.request.oack = none := by
      by_contra ho
      have hmem : m ∈ w.data := by
        rw [h.mirror.data_eq]
        exact List.mem_filter.mpr ⟨hm, hdata⟩
      rw [((h.idle h.client.1).2 ho).1] at hmem
      cases hmem
    obtain ⟨hseg, hwin⟩ := hterms.plain hnone
    rw [h.take_block hterms hm hdata (by rw [hseg]; exact le_max_right _ _)] at hans
    have hop : m.opcode = Opcode.data.code := of_decide_eq_true hdata
    simp only [answer, hop, Opcode.code_inj, reduceCtorEq, if_false, true_and] at hans
    split_ifs at hans with hshort hfirst
    cases hans
    refine ⟨hxfer optreqInit hseg.symm hwin.symm, .inr ⟨hdata, hfirst.2, ?_⟩⟩
    simp only [Session.startWith, SendfileArgs.session, hnone, hseg, Option.map_none]
  · obtain ⟨hop, hlen, optack', hparse, hblk, hwin⟩ := hterms.oack m ho
    have hfits : m.length ≤ TFTP_REPLY_MAX_PACKET_SIZE := hlen.trans (le_max_left _ _)
    rw [List.take_of_length_le hfits] at hans
    simp only [answer, hop, Opcode.code_inj, reduceCtorEq, if_false, if_true, hparse] at hans
    split_ifs at hans with hshort
    cases hans
    refine ⟨hxfer optack hblk hwin, .inl ⟨not_data_of_oack hop, ?_⟩⟩
    simp only [Session.startWith, SendfileArgs.session, ho, hblk, Option.map_some]
  · simp only [answer, opcode_take (show 2 ≤ TFTP_REPLY_MAX_PACKET_SIZE by decide), herr, if_true] at hans
    split_ifs at hans

/-- A message reaches the client. -/
theorem client_hears {a : DownloadArgs} {c c' : Download} (h : Served d b io a.convert c.pc s up down ps w)
    (hterms : Terms a.optreq b.request) {m : Packet} (hm : receive d down m = some down')
    (hs : c.get a (c.input m) = some c') :
    ∃ ps' w', Served d b io a.convert c'.pc s up down' ps' w' := by
  have hmem := Channel.mem_of_receive hm
  have hsub := Channel.sublist_of_receive hm
  cases hpc : c.pc with
  | receiving optack args y =>
    rw [Download.input, hpc] at hs
    obtain ⟨optack', args', y₀, y', hpc₀, hy, hpc'⟩ := Download.step_step hs
    cases hpc.symm.trans hpc₀
    rw [hpc] at h
    rw [hpc']
    obtain ⟨hx, ⟨q, hargs⟩, ⟨r, hrec, hst⟩, hinv⟩ := h.client
    have hsize : args.inputSize = b.request.daemon.segsize + 5 := by rw [hargs]; rfl
    rcases Receiving.step_recv hy with ⟨e, fl, heq, hr⟩ | ⟨heq, -⟩
    · cases heq
      rw [hx] at hr
      obtain ⟨w', r₁, hm', hrec', hst', hsend⟩ := h.mirror.receiver_hears hrec hst
        (fun hdata => h.take_block hterms hmem hdata (by omega))
        (fun hdata => by rwa [Packet.isData, opcode_take (by omega)]) hm hr
      have hinv' := hinv.step hy
      simp only [ReceivingLabel.payload, List.append_nil] at hinv'
      refine ⟨ps, w', hm', h.worker.congr hsend, ⟨hx, ⟨q, hargs⟩, ⟨r₁, hrec', hst'⟩, hinv'⟩,
        fun p hp => h.down_cases p (hsub.subset hp), h.oack_eq, fun hnone => ?_⟩
      rw [hrec'] at hnone
      cases hnone
    · cases heq
  | waiting =>
    obtain ⟨w', h'⟩ := h.lessDown hsub (Channel.filter_of_receive _ hm)
    rw [hpc] at h h'
    have hended : ∃ ps' w', Served d b io a.convert .ended s up down' ps' w' :=
      ⟨ps, w', { h' with client := fun _ _ _ hr => by rw [h'.client.1] at hr; cases hr }⟩
    simp only [Download.get, Download.input, hpc, Download.step] at hs
    split at hs
    · cases hs
      exact ⟨ps, w', hpc ▸ h'⟩
    · cases hs
      exact hended
    · next optack args hans =>
      split at hs
      · cases hs
        exact hended
      · next io' hio' =>
        cases hs
        obtain ⟨hx, hcase⟩ := h.answer_begins hterms hmem hans
        simp only [TftpIo.writerStart, TftpIo.ioStart, Option.ite_none_left_eq_some, Option.some.injEq] at hio'
        obtain ⟨hargs', rfl⟩ := hio'
        have hinv : Receiving.Inv a.convert ps ⟨recvInit optack.xfer args,
            .init { rest := [], room := a.room } a.convert optack.window 0 optack.blksize false, .start false⟩ := by
          rw [h.client.2]
          exact .of_writer (.start rfl (by omega) _ _ _) (unfinished_recvInit _ _)
        rcases hcase with ⟨hdata, hargs⟩ | ⟨hdata, hblock, hargs⟩
        · refine ⟨ps, _, h'.mirror.start h'.client.1, h'.worker.congr rfl, ⟨hx, ⟨none, hargs⟩, ⟨_, ?_, .inl rfl⟩, hinv⟩,
            h'.down_cases, h'.oack_eq, fun hnone => by cases hnone⟩
          rw [hx, hargs]
          rfl
        · obtain ⟨w₁, hm₁, hrec₁, hsend₁⟩ := h.mirror.start_with h.client.1 hdata hblock hm
          refine ⟨ps, w₁, hm₁, h.worker.congr hsend₁, ⟨hx, ⟨some m, hargs⟩, ⟨_, ?_, .inl rfl⟩, hinv⟩, h'.down_cases,
            h'.oack_eq, fun hnone => ?_⟩
          · rw [hrec₁, hx, hargs]
            rfl
          · rw [hrec₁] at hnone
            cases hnone
  | _ =>
    simp only [Download.get, Download.input, hpc, Download.step] at hs
    cases hs

end Served

end TftpHpa
