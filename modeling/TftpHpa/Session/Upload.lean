import TftpHpa.Client.Put
import TftpHpa.Client.Sent
import TftpHpa.Client.Terms
import TftpHpa.Daemon.Nak
import TftpHpa.Lib.Peers
import TftpHpa.Net.Mirror

/-! An upload from the request to the file on disk: the client in `tftp_sendfile` and the
workers that the copies of its request start at the server, each in `tftp_recvfile` with a port
of its own. Until the last block has been acknowledged the engines are followed by their run
alone; from then on the file is complete, whatever the client and the network still do. -/

namespace TftpHpa

open Channel (Discipline receive)
open Peers (System)
open TftpIo (converted)

/-! ### The server -/

/-- What a step sends. -/
def UploadLabel.sends : UploadLabel → Option Packet
  | .step (.engine l _) => l.sends
  | _ => none

/-- The transfer is over. -/
def Upload.leaving (s : Upload) : Bool :=
  match s.pc with
  | .start => false
  | .receiving x =>
    match x.recv.pc with
    | .done _ => true
    | _ => false
  | _ => true

/-- A worker for a write request: it refuses, or receives the file, or has seen the block `last`
once more in `daemon_xfer_dally` and is about to acknowledge it. -/
inductive WriteWorker where
  | refusing (p : Packet)
  | refused
  | receiving (b : UploadArgs) (s : Upload) (last : UInt16)
  | replying (b : UploadArgs) (s : Upload) (last : UInt16)

inductive WriteLabel where
  | run (l : UploadLabel)
  | dally (p : Packet)
  | sent (p : Packet)
  | sendFailed
  | nak (p : Packet)

def WriteLabel.sends : WriteLabel → Option Packet
  | .run l => l.sends
  | .sent p | .nak p => some p
  | _ => none

def WriteLabel.receives : WriteLabel → Bool
  | .run (.step (.engine (.received _) _)) | .dally _ => true
  | _ => false

namespace WriteWorker

/-- `tftp_recvfile` with its ERROR packets and with the datagram `daemon_xfer_dally` waits for.
Which of the ways out sends an ERROR packet is left open. -/
def step : WriteWorker → WriteLabel → Option WriteWorker
  | refusing p, .sent q => if q = p then some refused else none
  | refusing _, .sendFailed => some refused
  | receiving b s last, .run l =>
    (s.step b l).map fun s' =>
      receiving b s' (match s'.pc with
        | .stopping result _ _ => result.lastBlock
        | _ => last)
  | receiving b s last, .dally p =>
    match s.pc with
    | .dally =>
      if 4 ≤ p.length ∧ p.opcode = Opcode.data.code ∧ p.block = last then some (replying b s last)
      else (s.step b .dally).map fun s' => receiving b s' last
    | _ => none
  | receiving b s last, .nak p =>
    if s.leaving ∧ p.opcode = Opcode.error.code then some (receiving b s last) else none
  | replying b s last, .sent q =>
    if q = ackPacket last then (s.step b .dally).map fun s' => receiving b s' last else none
  | replying b s last, .sendFailed => (s.step b .dally).map fun s' => receiving b s' last
  | _, _ => none

/-- A worker asks for the length of the whole datagram, and its buffer has room for a block. -/
def input (v : WriteWorker) (p : Packet) : WriteLabel :=
  match v with
  | receiving _ { pc := .receiving _, .. } _ => .run (.step (.engine (.received p) none))
  | _ => .dally p

/-- The transfer a worker is in. -/
def upload : WriteWorker → Option (UploadArgs × Upload)
  | receiving b s _ | replying b s _ => some (b, s)
  | _ => none

end WriteWorker

/-- What a request finds at the server when it arrives. -/
structure WriteEnv where
  config : DaemonConfig
  peer : Socket
  handlers : Handlers
  pthread : Bool
  cancreate : Bool
  room : Option ℕ
  strerror : ℤ → Bytes

/-- The worker that is started for a datagram; one that is not a write request is none of these. -/
def WriteEnv.start (p : Packet) (env : WriteEnv) : Option WriteWorker :=
  if p.opcode = Opcode.wrq.code then
    match tftp env.config env.peer env.handlers p with
    | .ok request =>
      let b : UploadArgs := ⟨request, env.pthread, env.cancreate, env.room⟩
      some (.receiving b b.init 0)
    | .error (.nak error msg) => some (.refusing (nak env.strerror error msg))
    | .error (.exit _) => none
  else none

/-- A client that uploads a file, and the workers of the server. What a worker has on disk here is
what it has put into its file itself. -/
def uploadSystem (a : PutArgs) : System Put PutLabel WriteWorker WriteLabel Packet WriteEnv where
  client := { step := Put.step a, sends := PutLabel.sends, input := Put.input, isInput := PutLabel.receives }
  worker :=
    { step := WriteWorker.step, sends := WriteLabel.sends, input := WriteWorker.input, isInput := WriteLabel.receives }
  start := WriteEnv.start
  settles p := 2 ≤ p.length

/-- The client offers the file `name` in one of the two modes; `st` is what `fstat` says. -/
structure PutArgs.Puts (a : PutArgs) (c : ClientConfig) (peer : Socket) (st : Option FileStat) (name : Bytes)
    (pf : Format) : Prop where
  request_eq : tftpSendfile c peer st name pf.mode = some (a.request, a.optreq)
  size_le : ∀ s, st = some s → s.size ≤ OFF_T_MAX
  zero_notMem : (0 : UInt8) ∉ name
  convert_eq : a.convert = pf.convert

/-! ### The file on disk -/

/-- The engine of the worker has succeeded. -/
def Upload.Succeeded (s : Upload) : Prop :=
  ∃ y res, s.pc = .receiving y ∧ y.recv.pc = .done res ∧ res.status = .ok

/-- The file is complete and nothing will touch it any more. -/
def Upload.Stored (convert : Bool) (ps : List Bytes) (s : Upload) : Prop :=
  s.disk = some (converted convert false ps.flatten) ∧
    match s.pc with
    | .start => False
    | .receiving y => (∃ res, y.recv.pc = .done res ∧ res.status = .ok) ∧ Complete convert ps y.io y.thread
    | .stopping result io thread => result.status = .ok ∧ Complete convert ps io thread
    | .dally => True
    | .ended status => status = some .ok

theorem Upload.Stored.step {b : UploadArgs} {convert : Bool} {ps : List Bytes} {s s' : Upload}
    (h : s.Stored convert ps) {l : UploadLabel} (hs : s.step b l = some s') : s'.Stored convert ps := by
  obtain ⟨hdisk, hpc⟩ := h
  cases hp : s.pc with
  | start =>
    rw [hp] at hpc
    cases hpc
  | ended status => cases l <;> simp [Upload.step, hp] at hs
  | dally =>
    cases l with
    | dally =>
      simp only [Upload.step, hp, Option.some.injEq] at hs
      subst hs
      exact ⟨hdisk, rfl⟩
    | _ => simp [Upload.step, hp] at hs
  | receiving y =>
    rw [hp] at hpc
    obtain ⟨⟨res, hres, hok⟩, hcomplete⟩ := hpc
    have hstuck : ∀ e flush, y.step b.xfer b.recvArgs (.engine e flush) = none := by
      intro e flush
      simp only [Receiving.step, recvStep_of_done hres]
      split <;> simp_all
    cases l with
    | step l =>
      cases l with
      | engine e flush => simp [Upload.step, hp, hstuck] at hs
      | thread =>
        simp only [Upload.step, hp] at hs
        obtain ⟨y', hy, hs⟩ := Option.bind_eq_some_iff.mp hs
        obtain ⟨⟨io, th⟩, hth, rfl⟩ := Option.map_eq_some_iff.mp hy
        obtain rfl := Option.some.inj hs
        exact ⟨hdisk, ⟨res, hres, hok⟩, hcomplete.thread hth⟩
    | timeout => simp [Upload.step, hp, hstuck] at hs
    | spill n =>
      simp only [Upload.step, hp, Option.ite_none_right_eq_some, Option.some.injEq] at hs
      obtain ⟨hn, rfl⟩ := hs
      rw [hdisk] at hn
      refine ⟨?_, ⟨res, hres, hok⟩, hcomplete⟩
      dsimp only
      rw [hcomplete.1]
      exact Upload.spill_written hn
    | stop =>
      obtain ⟨⟨block, lr, la, bytes, n, rp, pp, pc⟩, io, thread⟩ := y
      obtain rfl : pc = .done res := hres
      simp only [Upload.step, hp, Option.some.injEq] at hs
      subst hs
      exact ⟨hdisk, hok, Upload.complete_stop hcomplete⟩
    | _ => simp [Upload.step, hp] at hs
  | stopping result io thread =>
    rw [hp] at hpc
    obtain ⟨hok, hcomplete⟩ := hpc
    cases l with
    | step l =>
      cases l with
      | engine e flush => simp [Upload.step, hp] at hs
      | thread =>
        simp only [Upload.step, hp] at hs
        obtain ⟨⟨io, th⟩, hth, rfl⟩ := Option.map_eq_some_iff.mp hs
        exact ⟨hdisk, hok, hcomplete.thread hth⟩
    | spill n =>
      simp only [Upload.step, hp, Option.ite_none_right_eq_some, Option.some.injEq] at hs
      obtain ⟨hn, rfl⟩ := hs
      rw [hdisk] at hn
      refine ⟨?_, hok, hcomplete⟩
      dsimp only
      rw [hcomplete.1]
      exact Upload.spill_written hn
    | close closed =>
      cases thread with
      | exited =>
        simp only [Upload.step, hp, hok, if_true, Option.some.injEq] at hs
        subst hs
        refine ⟨?_, trivial⟩
        dsimp only
        rw [hdisk, hcomplete.1, ite_self]
      | _ => simp [Upload.step, hp] at hs
    | _ => simp [Upload.step, hp] at hs

/-! ### The engines of an upload -/

/-- The limit of an upload is the receiver's affair. -/
theorem stampWindow_maxBytes (x : Xfer) (max : UInt64) (k n : ℕ) (io : TftpIo) (block : UInt16) :
    stampWindow { x with maxBytes := max } k n io block = stampWindow x k n io block := by
  induction k generalizing n io block with
  | zero => rfl
  | succ k ih =>
    simp only [stampWindow, ih]

theorem sendStep_maxBytes (x : Xfer) (max : UInt64) (s : SendState) (l : SendLabel) :
    sendStep { x with maxBytes := max } s l = sendStep x s l := by
  cases l with
  | window count final =>
    simp only [sendStep, sendWindow, stampWindow_maxBytes]
  | _ => rfl

/-- Whether windows are sent again after an OACK is the sender's. -/
theorem recvStep_resendOack (x : Xfer) (resend : Bool) (a : RecvArgs) (s : RecvState) (l : RecvLabel) :
    recvStep { x with resendOack := resend } a s l = recvStep x a s l := by
  cases l <;> rfl

namespace UploadArgs

/-- What the worker answers the request with. -/
def reply (b : UploadArgs) : Packet := b.request.oack.getD (ackPacket 0)

/-- What the two engines agree on. -/
def session (b : UploadArgs) : Session where
  x := { b.xfer with resendOack := true }
  inputSize := b.request.daemon.segsize + 4
  initialReply := some b.reply

end UploadArgs

/-- The ring the client reads the file through once it knows the sizes of the worker. -/
def PutArgs.reader (a : PutArgs) (b : UploadArgs) : TftpIo :=
  .init a.file a.convert b.request.daemon.windowsize b.request.daemon.windowsize b.request.daemon.segsize false

/-- What is sent. -/
def PutArgs.stream (a : PutArgs) : Bytes := a.file.stream a.convert

theorem PutArgs.readerStart_eq (a : PutArgs) {b : UploadArgs} (hseg : b.request.daemon.segsize ≠ 0)
    (hwin : 1 ≤ b.request.daemon.windowsize) : TftpIo.readerStart a.file a.convert b.request.daemon.windowsize
      b.request.daemon.windowsize b.request.daemon.segsize false = some (a.reader b) := by
  rw [TftpIo.readerStart, TftpIo.ioStart, if_neg]
  · rfl
  · rintro (h | h | ⟨-, h⟩) <;> omega

/-- No block has come in: the receiver sends nothing but the opening reply. -/
def RecvState.Opening (s : RecvState) : Prop :=
  match s.pc with
  | .reserve | .retryEnter _ | .reply | .recv => s.replyPending = true ∧ s.packetPending = false
  | .done res => res.status ≠ .ok
  | _ => False

/-- The client has not called the engine, and still may. -/
def PutPc.Asking : PutPc → Prop
  | .request | .waiting => True
  | _ => False

/-- Where the client stands, next to the sender of the mirror. -/
def PutPc.Follows (b : UploadArgs) (io : TftpIo) (w : World) : PutPc → Prop
  | .request | .waiting => w.sender = sendInit io
  | .sending optack x => optack.blksize = b.request.daemon.segsize ∧ optack.window = b.request.daemon.windowsize ∧
      w.sender.Stands x
  | .ended => ∀ res, w.sender.pc = .done res → res.status ≠ .ok

/-- The receiver has not succeeded. -/
def World.Unreceived (w : World) : Prop :=
  ∀ args r res, w.receiver = some (args, r) → r.pc = .done res → res.status ≠ .ok

/-- Where the worker stands, next to the receiver of the mirror. It does not get beyond the engine
with success. -/
def UploadPc.Follows (b : UploadArgs) (w : World) : UploadPc → Prop
  | .start => w.receiver = none
  | .receiving y => ∃ r, w.receiver = some (b.recvArgs, r) ∧ r.Stands y.recv
  | .stopping result _ _ => result.status ≠ .ok ∧ w.Unreceived
  | .dally => False
  | .ended status => status ≠ some .ok ∧ w.Unreceived

/-- What is on disk, as long as the worker has not left the engine. -/
def UploadPc.Keeps (b : UploadArgs) (ps : List Bytes) (disk : Option Bytes) : UploadPc → Prop
  | .start => ps = [] ∧ disk = some []
  | .receiving y => Upload.Phase b ps disk (.receiving y)
  | _ => True

/-- A client and the worker it talks to, up to the last ACK. -/
structure Stores (d : Discipline) (b : UploadArgs) (io : TftpIo) (pc : PutPc) (s : Upload) (up down : List Packet)
    (ps : List Bytes) (w : World) : Prop where
  mirror : Mirror d b.session io up down ps w
  client : pc.Follows b io w
  worker : s.pc.Follows b w
  disk : s.pc.Keeps b ps s.disk
  down_cases : ∀ p ∈ down, (∃ n, p = ackPacket n) ∨ b.request.oack = some p ∨ p.opcode = Opcode.error.code
  opening : pc.Asking → (∀ p ∈ up, p.isData = false) ∧ (∀ p ∈ down, p = b.reply ∨ p.opcode = Opcode.error.code) ∧
    ∀ args r, w.receiver = some (args, r) → r.Opening

/-! ### The opening -/

namespace RecvState.Opening

variable {x : Xfer} {args : RecvArgs} {r r' : RecvState}

theorem of_dead (h : r.Dead) : r.Opening := by
  obtain ⟨res, hpc, hne⟩ := h
  rw [Opening, hpc]
  exact hne

/-- As long as no block comes in, only the opening reply goes out. -/
theorem step (h : r.Opening) {reply : Packet} (hreply : args.initialReply = some reply) {l : RecvLabel}
    (hl : ∀ p, l = .received p → p.isData = false) (hs : recvStep x args r l = some r') :
    r'.Opening ∧ ∀ p, l.sends = some p → p = reply := by
  have hwait : ∀ s : RecvState, s.replyPending = true → s.packetPending = false → (recvWait x args s).Opening := by
    intro s hr hp
    rw [recvWait_of_not_pending x args hp]
    exact ⟨hr, hp⟩
  have hdead : ∀ (status : XferStatus) (e : ℤ), status ≠ .ok → (r.finish status e).Opening := fun _ _ hne =>
    of_dead (dead_finish _ hne _ _ _)
  unfold Opening at h
  cases recvMove_of_step hs with
  | reserved hpc =>
    rw [hpc] at h
    exact ⟨h, by simp [RecvLabel.sends]⟩
  | entered restarted hpc =>
    rw [hpc] at h
    refine ⟨?_, by simp [RecvLabel.sends]⟩
    rw [if_pos (by simp [h.1])]
    exact h
  | replied hpc =>
    rw [hpc] at h
    refine ⟨hwait r h.1 h.2, fun p hp => ?_⟩
    rw [← Option.some.inj hp, replyPacket, h.1, hreply]
  | received hpc p =>
    refine ⟨?_, by simp [RecvLabel.sends]⟩
    rcases recvReceived_of_not_data x r (hl p rfl) with heq | hdead
    · rw [heq, Opening]
      exact h
    · exact of_dead hdead
  | timeout hpc =>
    rw [hpc] at h
    exact ⟨h, by simp [RecvLabel.sends]⟩
  | reserveFailed hpc e | replyFailed hpc e | recvFailed hpc e =>
    exact ⟨hdead _ _ (by decide), by simp [RecvLabel.sends]⟩
  | recovered hpc | recoveryFailed hpc e | finished hpc | finishFailed hpc e
  | acked v hpc | ackFailed v hpc e | published v hpc | publishFailed v hpc e | drained v hpc
  | drainFailed v hpc e =>
    rw [hpc] at h
    cases h

end RecvState.Opening

namespace UploadArgs

variable {b : UploadArgs} {optreq : Optreq}

theorem initialReply_eq (b : UploadArgs) : b.recvArgs.initialReply = some b.reply := rfl

theorem isReply_reply (hterms : Terms optreq b.request) : b.reply.isReply = true := by
  unfold reply
  cases ho : b.request.oack with
  | none => exact isReply_ackPacket 0
  | some oack =>
    rw [Option.getD_some, Packet.isReply, (hterms.oack oack ho).1]
    decide

theorem four_le_reply (hterms : Terms optreq b.request) : 4 ≤ b.reply.length := by
  unfold reply
  cases ho : b.request.oack with
  | none => decide
  | some oack => exact hterms.oack_long oack ho

theorem opening_init (hlong : 4 ≤ b.reply.length) : (b.session.startWith none).2.Opening := by
  have hpending : (some b.reply).any (fun p => decide (4 ≤ p.length)) = true := by simpa using hlong
  simp only [Session.startWith, recvInit, session, xfer, lt_irrefl, if_false, RecvState.Opening]
  exact ⟨hpending, rfl⟩

/-- A worker sends ACKs and its opening reply. -/
theorem sends_cases {x : Xfer} {r r' : RecvState} {l : RecvLabel} (hs : recvStep x b.recvArgs r l = some r')
    {p : Packet} (hp : l.sends = some p) : (∃ n, p = ackPacket n) ∨ b.request.oack = some p := by
  have hreply : (∃ n, r.replyPacket b.recvArgs = ackPacket n) ∨
      b.request.oack = some (r.replyPacket b.recvArgs) := by
    unfold RecvState.replyPacket
    split
    · next q _ hq =>
      obtain rfl := Option.some.inj hq
      cases ho : b.request.oack with
      | none => exact .inl ⟨0, rfl⟩
      | some oack => exact .inr rfl
    · exact .inl ⟨_, rfl⟩
  cases recvMove_of_step hs with
  | replied hpc => exact Option.some.inj hp ▸ hreply
  | recovered hpc => exact .inl ⟨_, (Option.some.inj hp).symm⟩
  | acked final hpc => exact .inl ⟨_, (Option.some.inj hp).symm⟩
  | _ => cases hp

end UploadArgs

/-! ### Steps -/

/-- Only the engine counts. -/
theorem PutPc.Follows.congr {b : UploadArgs} {io : TftpIo} {w w' : World} {pc : PutPc} (h : pc.Follows b io w)
    (hw : w'.sender = w.sender) : pc.Follows b io w' := by
  cases pc <;> simp only [PutPc.Follows, hw] at h ⊢ <;> exact h

theorem UploadPc.Follows.congr {b : UploadArgs} {w w' : World} {pc : UploadPc} (h : pc.Follows b w)
    (hw : w'.receiver = w.receiver) : pc.Follows b w' := by
  cases pc <;> simp only [UploadPc.Follows, World.Unreceived, hw] at h ⊢ <;> exact h

namespace Stores

variable {d : Discipline} {b : UploadArgs} {io : TftpIo} {pc pc' : PutPc} {s s' : Upload} {y y' : Receiving}
  {up up' down down' : List Packet} {ps ps' : List Bytes} {w w' : World} {optreq : Optreq}

/-- What is in flight to the client gets less. -/
theorem lessDown (h : Stores d b io pc s up down ps w) (hsub : down'.Sublist down)
    (hn : ∃ n, down'.filter Packet.isReply = (down.filter Packet.isReply).eraseIdx n) :
    ∃ w', Stores d b io pc s up down' ps w' ∧ w'.sender = w.sender := by
  obtain ⟨w', hm, hsend, hrec⟩ := h.mirror.loses_ack hn
  refine ⟨w', ⟨hm, h.client.congr hsend, h.worker.congr hrec, h.disk, fun p hp => h.down_cases p (hsub.subset hp),
    fun hask => ?_⟩, hsend⟩
  obtain ⟨hup, hdown, hopen⟩ := h.opening hask
  exact ⟨hup, fun p hp => hdown p (hsub.subset hp), fun args r hr => hopen args r (hrec ▸ hr)⟩

/-- What is in flight to the worker gets less. -/
theorem lessUp (h : Stores d b io pc s up down ps w) (hsub : up'.Sublist up)
    (hn : ∃ n, up'.filter Packet.isData = (up.filter Packet.isData).eraseIdx n) :
    ∃ w', Stores d b io pc s up' down ps w' := by
  obtain ⟨w', hm, hsend, hrec⟩ := h.mirror.loses_data hn
  refine ⟨w', hm, h.client.congr hsend, h.worker.congr hrec, h.disk, h.down_cases, fun hask => ?_⟩
  obtain ⟨hup, hdown, hopen⟩ := h.opening hask
  exact ⟨fun p hp => hup p (hsub.subset hp), hdown, fun args r hr => hopen args r (hrec ▸ hr)⟩

/-- The worker sends an ERROR packet. -/
theorem tells (h : Stores d b io pc s up down ps w) {p : Packet} (hp : p.opcode = Opcode.error.code) :
    Stores d b io pc s up (down ++ [p]) ps w := by
  refine { h with mirror := h.mirror.passes_ack (not_reply_of_error hp), down_cases := ?_, opening := ?_ }
  · intro q hq
    rcases List.mem_append.mp hq with hq | hq
    · exact h.down_cases q hq
    · exact .inr (.inr (List.mem_singleton.mp hq ▸ hp))
  · intro hask
    obtain ⟨hup, hdown, hopen⟩ := h.opening hask
    refine ⟨hup, fun q hq => ?_, hopen⟩
    rcases List.mem_append.mp hq with hq | hq
    · exact hdown q hq
    · exact .inr (List.mem_singleton.mp hq ▸ hp)

/-! The worker -/

/-- Nothing has been received by a worker that has not succeeded. -/
theorem unreceived {r : RecvState} (hrec : w.receiver = some (b.recvArgs, r)) (hst : r.Stands y.recv)
    (hy : ∀ res, y.recv.pc = .done res → res.status ≠ .ok) : w.Unreceived := by
  intro args r' res hr hpc hok
  obtain ⟨-, rfl⟩ := Prod.mk.inj (Option.some.inj (hrec.symm.trans hr))
  exact hy res (hst.done_ok hpc hok ▸ hpc) hok

/-- A step of the engine of the worker. -/
theorem engine (h : Stores d b io pc s up down ps w) (hpc : s.pc = .receiving y) {l : RecvLabel} {flush : Option ℤ}
    (hl : ∀ p, l ≠ .received p) (hs : y.step b.xfer b.recvArgs (.engine l flush) = some y')
    (hpc' : s'.pc = .receiving y')
    (hphase : Upload.Phase b (ps ++ (ReceivingLabel.engine l flush).payload) s'.disk (.receiving y'))
    (hterms : Terms optreq b.request) :
    ∃ ps' w', Stores d b io pc s' up (down ++ l.sends.toList) ps' w' ∧
      w'.receiver = some (b.recvArgs, y'.recv) := by
  have hworker := h.worker
  rw [hpc] at hworker
  obtain ⟨r, hrec, hst⟩ := hworker
  rcases Receiving.step_recv hs with ⟨e, fl, heq, hr⟩ | ⟨heq, -⟩
  · cases heq
    rw [← recvStep_resendOack b.xfer true] at hr
    have ha : ∀ q, b.recvArgs.initialReply = some q → q.isReply = true := fun q hq =>
      Option.some.inj hq ▸ UploadArgs.isReply_reply hterms
    have hcases := fun p => UploadArgs.sends_cases hr (p := p)
    obtain ⟨w', hm, hrec', hsend⟩ := h.mirror.receiver hrec hst hl ha hr
    have hpay : (ReceivingLabel.engine l flush).payload = (published [l]).map Packet.payload := by cases l <;> rfl
    refine ⟨_, w', ⟨hm, h.client.congr hsend, ?_, ?_, fun p hp => ?_, fun hask => ?_⟩, hrec'⟩
    · rw [hpc']
      exact ⟨_, hrec', .inl rfl⟩
    · rw [hpc', ← hpay]
      exact hphase
    · rcases List.mem_append.mp hp with hp | hp
      · exact h.down_cases p hp
      · rcases hcases p (Option.mem_toList.mp hp) with hack | ho
        · exact .inl hack
        · exact .inr (.inl ho)
    · obtain ⟨hup, hdown, hopen⟩ := h.opening hask
      have hopening : r.Opening := hopen _ _ hrec
      rcases hst with rfl | ⟨-, res, hdone, -⟩
      · obtain ⟨hopen', hsends⟩ := hopening.step b.initialReply_eq (fun p hp => absurd hp (hl p)) hr
        refine ⟨hup, fun p hp => ?_, fun args r' hr' => ?_⟩
        · rcases List.mem_append.mp hp with hp | hp
          · exact hdown p hp
          · exact .inl (hsends p (Option.mem_toList.mp hp))
        · obtain ⟨-, rfl⟩ := Prod.mk.inj (Option.some.inj (hrec'.symm.trans hr'))
          exact hopen'
      · rw [recvStep_of_done hdone] at hr
        cases hr
  · cases heq

/-- `tftp_io_writer_start`, and the engine is called. -/
theorem starts (h : Stores d b io pc s up down ps w) (hterms : Terms optreq b.request) (hpc : s.pc = .start)
    {e : Bool} (hs : s.step b (.start e) = some s') : ∃ w', Stores d b io pc s' up down ps w' := by
  have hworker := h.worker
  have hdisk := h.disk
  rw [hpc] at hworker hdisk
  have hnone : w.Unreceived := fun args r res hr => by
    rw [show w.receiver = none from hworker] at hr
    cases hr
  simp only [Upload.step, hpc] at hs
  split at hs
  · cases hs
    exact ⟨w, { h with worker := ⟨by simp, hnone⟩, disk := trivial }⟩
  · split at hs
    · next io' _ hio' _ =>
      cases hs
      obtain ⟨hpos, rfl⟩ := Upload.writerStart_eq_some hio'
      have hunfinished := unfinished_recvInit b.xfer b.recvArgs
      refine ⟨_, h.mirror.start hworker, h.client.congr rfl, ⟨_, rfl, .inl rfl⟩, ?_, h.down_cases,
        fun hask => ⟨(h.opening hask).1, (h.opening hask).2.1, fun args r hr => ?_⟩⟩
      · rw [hdisk.1]
        exact ⟨.of_writer (.start rfl hpos _ _ _) hunfinished, fun hf => absurd hf hunfinished.not_finished⟩
      · cases hr
        exact UploadArgs.opening_init (UploadArgs.four_le_reply hterms)
    · cases hs
      exact ⟨w, { h with worker := ⟨by simp, hnone⟩, disk := trivial }⟩

/-- The timer goes off. -/
theorem times_out (h : Stores d b io pc s up down ps w) (hterms : Terms optreq b.request) (hpc : s.pc = .receiving y)
    (hs : s.step b .timeout = some s') : ∃ ps' w', Stores d b io pc s' up down ps' w' := by
  have hdisk := h.disk
  rw [hpc] at hdisk
  simp only [Upload.step, hpc] at hs
  obtain ⟨y', hy, rfl⟩ := Option.map_eq_some_iff.mp hs
  have hretry : y'.recv.pc = .retryEnter true := by
    rcases Receiving.step_recv hy with ⟨e, fl, heq, hr⟩ | ⟨heq, -⟩
    · cases heq
      generalize y'.recv = r' at hr
      cases recvMove_of_step hr with
      | timeout hpc => rfl
    · cases heq
  have hpc' : ({ s with pc := .receiving y' } : Upload).pc = .receiving y' := rfl
  obtain ⟨ps', w', h', hrec'⟩ := h.engine hpc (by simp) hy hpc'
    ⟨hdisk.1.step hy, fun hf => by simp [RecvPc.Finished, hretry] at hf⟩ hterms
  simp only [RecvLabel.sends, Option.toList_none, List.append_nil] at h'
  refine ⟨ps', w', ?_⟩
  unfold Upload.timer
  dsimp only
  split_ifs
  · refine { h' with worker := ⟨by simp, ?_⟩, disk := trivial }
    exact unreceived hrec' (.inl rfl) fun res hres => by simp [hretry] at hres
  · exact { h' with worker := h'.worker, disk := h'.disk }

/-- The engine returns. -/
theorem stops (h : Stores d b io pc s up down ps w) (hpc : s.pc = .receiving y) (hs : s.step b .stop = some s') :
    Stores d b io pc s' up down ps w ∨ s.Succeeded := by
  have hworker := h.worker
  rw [hpc] at hworker
  obtain ⟨r, hrec, hst⟩ := hworker
  simp only [Upload.step, hpc] at hs
  split at hs
  · next result io' thread heq =>
    cases heq
    cases hs
    by_cases hok : result.status = .ok
    · exact .inr ⟨_, _, hpc, rfl, hok⟩
    · refine .inl { h with worker := ⟨hok, unreceived hrec hst fun res hres => ?_⟩, disk := trivial }
      cases hres
      exact hok
  · cases hs

/-- A worker that has failed cleans up. -/
theorem cleans_up (h : Stores d b io pc s up down ps w) {result : XferResult} {io' : TftpIo}
    {thread : TftpIo.WriterThread} (hpc : s.pc = .stopping result io' thread) {l : UploadLabel}
    (hs : s.step b l = some s') : Stores d b io pc s' up (down ++ l.sends.toList) ps w := by
  have hworker := h.worker
  rw [hpc] at hworker
  cases l with
  | step l =>
    cases l with
    | engine e flush => simp [Upload.step, hpc] at hs
    | thread =>
      simp only [Upload.step, hpc] at hs
      obtain ⟨⟨io'', th⟩, -, rfl⟩ := Option.map_eq_some_iff.mp hs
      simp only [UploadLabel.sends, Option.toList_none, List.append_nil]
      exact { h with worker := hworker, disk := trivial }
  | spill n =>
    simp only [Upload.step, hpc, Option.ite_none_right_eq_some, Option.some.injEq] at hs
    obtain ⟨-, rfl⟩ := hs
    simp only [UploadLabel.sends, Option.toList_none, List.append_nil]
    exact { h with worker := hworker, disk := trivial }
  | close closed =>
    cases thread with
    | exited =>
      simp only [Upload.step, hpc, if_neg hworker.1, Option.some.injEq] at hs
      subst hs
      simp only [UploadLabel.sends, Option.toList_none, List.append_nil]
      exact { h with worker := ⟨fun heq => hworker.1 (Option.some.inj heq), hworker.2⟩, disk := trivial }
    | _ => simp [Upload.step, hpc] at hs
  | _ => simp [Upload.step, hpc] at hs

/-- The worker makes a step of its own. It leaves the engine with success only if that has
succeeded. -/
theorem move (h : Stores d b io pc s up down ps w) (hterms : Terms optreq b.request) {l : UploadLabel}
    (hl : ∀ p flush, l ≠ .step (.engine (.received p) flush)) (hs : s.step b l = some s') :
    (∃ ps' w', Stores d b io pc s' up (down ++ l.sends.toList) ps' w') ∨ s.Succeeded := by
  have hworker := h.worker
  have hdisk := h.disk
  cases hpc : s.pc with
  | dally =>
    rw [hpc] at hworker
    cases hworker
  | ended status => cases l <;> simp [Upload.step, hpc] at hs
  | stopping result io' thread => exact .inl ⟨ps, w, h.cleans_up hpc hs⟩
  | start =>
    cases l with
    | start e =>
      obtain ⟨w', h'⟩ := h.starts hterms hpc hs
      simp only [UploadLabel.sends, Option.toList_none, List.append_nil]
      exact .inl ⟨ps, w', h'⟩
    | _ => simp [Upload.step, hpc] at hs
  | receiving y =>
    rw [hpc] at hworker hdisk
    obtain ⟨r, hrec, hst⟩ := hworker
    have hinv : Upload.Inv b ps s := by
      rw [Upload.Inv, hpc]
      exact hdisk
    cases l with
    | step l =>
      have hinv' := hinv.step hs
      simp only [Upload.step, hpc] at hs
      obtain ⟨y', hy, hmoved⟩ := Option.bind_eq_some_iff.mp hs
      have hpc' := (Upload.moved_cases hmoved).1
      rw [Upload.Inv, hpc'] at hinv'
      cases l with
      | engine e flush =>
        obtain ⟨ps', w', h', -⟩ := h.engine hpc (fun p hp => hl p flush (by rw [hp])) hy hpc' hinv' hterms
        exact .inl ⟨ps', w', h'⟩
      | thread =>
        simp only [UploadLabel.sends, Option.toList_none, List.append_nil]
        rcases Receiving.step_recv hy with ⟨e, fl, heq, -⟩ | ⟨-, heq⟩
        · cases heq
        · simp only [ReceivingLabel.payload, List.append_nil] at hinv'
          refine .inl ⟨ps, w, { h with worker := ?_, disk := ?_ }⟩
          · rw [hpc']
            exact ⟨r, hrec, heq.symm ▸ hst⟩
          · rw [hpc']
            exact hinv'
    | timeout =>
      simp only [UploadLabel.sends, Option.toList_none, List.append_nil]
      exact .inl (h.times_out hterms hpc hs)
    | spill n =>
      simp only [UploadLabel.sends, Option.toList_none, List.append_nil]
      have hinv' := hinv.spill hs
      simp only [Upload.step, hpc, Option.ite_none_right_eq_some, Option.some.injEq] at hs
      obtain ⟨-, rfl⟩ := hs
      exact .inl ⟨ps, w, { h with worker := ⟨r, hrec, hst⟩, disk := hinv' }⟩
    | stop =>
      simp only [UploadLabel.sends, Option.toList_none, List.append_nil]
      rcases h.stops hpc hs with h' | hsucc
      · exact .inl ⟨ps, w, h'⟩
      · exact .inr hsucc
    | _ => simp [Upload.step, hpc] at hs

/-- A message reaches the worker. -/
theorem hears (h : Stores d b io pc s up down ps w) {m : Packet} (hm : receive d up m = some up')
    (hpc : s.pc = .receiving y) (hs : s.step b (.step (.engine (.received m) none)) = some s') :
    ∃ w', Stores d b io pc s' up' down ps w' := by
  have hworker := h.worker
  have hdisk := h.disk
  rw [hpc] at hworker hdisk
  obtain ⟨r, hrec, hst⟩ := hworker
  have hinv : Upload.Inv b ps s := by
    rw [Upload.Inv, hpc]
    exact hdisk
  have hinv' := hinv.step hs
  simp only [Upload.step, hpc] at hs
  obtain ⟨y', hy, hmoved⟩ := Option.bind_eq_some_iff.mp hs
  have hpc' := (Upload.moved_cases hmoved).1
  simp only [Upload.Inv, hpc', ReceivingLabel.payload, List.append_nil] at hinv'
  rcases Receiving.step_recv hy with ⟨e, fl, heq, hr⟩ | ⟨heq, -⟩
  · cases heq
    rw [← recvStep_resendOack b.xfer true] at hr
    obtain ⟨w', r₁, hm', hrec', hst', hsend⟩ := h.mirror.receiver_hears hrec hst (fun _ => rfl) (fun hd => hd) hm hr
    refine ⟨w', hm', h.client.congr hsend, ?_, ?_, h.down_cases, fun hask => ?_⟩
    · rw [hpc']
      exact ⟨r₁, hrec', hst'⟩
    · rw [hpc']
      exact hinv'
    · obtain ⟨hup, hdown, hopen⟩ := h.opening hask
      refine ⟨fun p hp => hup p ((Channel.sublist_of_receive hm).subset hp), hdown, fun args r' hr' => ?_⟩
      obtain ⟨-, rfl⟩ := Prod.mk.inj (Option.some.inj (hrec'.symm.trans hr'))
      rcases hst' with rfl | ⟨hdead, -⟩
      · rcases hst with rfl | ⟨-, res, hdone, -⟩
        · refine ((hopen _ _ hrec).step b.initialReply_eq (fun p hp => ?_) hr).1
          cases hp
          exact hup m (Channel.mem_of_receive hm)
        · rw [recvStep_of_done hdone] at hr
          cases hr
      · exact .of_dead hdead
  · cases heq

/-! The client -/

/-- The engines of both sides work with the same parameters. -/
theorem putXfer_eq {optack : Optreq} (hterms : Terms optreq b.request)
    (hblk : optack.blksize = b.request.daemon.segsize) (hwin : optack.window = b.request.daemon.windowsize) :
    optack.putXfer = { b.session.x with maxBytes := 0xffffffffffffffff } := by
  have hpos : optack.window ≠ 0 := by
    rw [hwin]
    exact Nat.ne_of_gt hterms.windowsize_pos
  simp only [Optreq.putXfer, UploadArgs.session, UploadArgs.xfer, hblk, hwin, hterms.rollover]
  simpa [hwin] using hpos

variable {a : PutArgs} {c c' : Put}

/-- A step of the engine of the client. -/
theorem sender {optack : Optreq} {x x' : SendState} (h : Stores d b (a.reader b) (.sending optack x) s up down ps w)
    (hterms : Terms optreq b.request) (hseg : b.request.daemon.segsize ≠ 0) {l : SendLabel}
    (hl : ∀ p, l ≠ .received p) (hs : sendStep optack.putXfer x l = some x') :
    ∃ w', Stores d b (a.reader b) (.sending optack x') s (up ++ l.sends.toList) down ps w' := by
  obtain ⟨hblk, hwin, hst⟩ := h.client
  rw [putXfer_eq hterms hblk hwin, sendStep_maxBytes] at hs
  obtain ⟨sd, hsd⟩ := h.mirror.refines hterms.windowsize_pos (a.readerStart_eq hseg hterms.windowsize_pos)
  have hdata : ∀ p, l.sends = some p → p.isData = true := by
    intro p hp
    cases l with
    | sent q =>
      obtain rfl := Option.some.inj hp
      rcases hst with heq | ⟨-, r, hpc, -⟩
      · obtain ⟨i, rfl⟩ := hsd.sent (heq ▸ hs)
        exact isData_blockPacket _ _ _
      · cases (sendStep_of_done hpc hs).1
    | _ => cases hp
  obtain ⟨w', hm, hst', hrec⟩ := h.mirror.sender hst hl hdata hs
  exact ⟨w', hm, ⟨hblk, hwin, hst'⟩, h.worker.congr hrec, h.disk, h.down_cases, fun hask => hask.elim⟩

/-- The client gives up before it has called the engine. -/
theorem gives_up (h : Stores d b io pc s up down ps w) (hask : pc.Asking) : Stores d b io .ended s up down ps w := by
  refine { h with client := fun res hres => ?_, opening := fun hask => hask.elim }
  have hclient := h.client
  cases pc with
  | request | waiting =>
    rw [show w.sender = sendInit io from hclient] at hres
    cases hres
  | _ => cases hask

/-- The client sends something that is not for the engine of the worker. -/
theorem client_tells (h : Stores d b io pc s up down ps w) {p : Packet} (hp : p.isData = false) :
    Stores d b io pc s (up ++ [p]) down ps w := by
  refine { h with mirror := h.mirror.passes_data hp, opening := fun hask => ?_ }
  obtain ⟨hup, hdown, hopen⟩ := h.opening hask
  refine ⟨fun q hq => ?_, hdown, hopen⟩
  rcases List.mem_append.mp hq with hq | hq
  · exact hup q hq
  · exact List.mem_singleton.mp hq ▸ hp

/-- The client makes a step of its own. -/
theorem client_move (h : Stores d b (a.reader b) c.pc s up down ps w) (hterms : Terms optreq b.request)
    (hseg : b.request.daemon.segsize ≠ 0) (hreq : a.request.isData = false) {l : PutLabel} (hl : l.receives = false)
    (hs : c.step a l = some c') :
    ∃ w', Stores d b (a.reader b) c'.pc s (up ++ l.sends.toList) down ps w' := by
  cases l with
  | reply p => cases hl
  | nak p =>
    simp only [Put.step, Option.ite_none_right_eq_some, Option.some.injEq] at hs
    obtain ⟨⟨-, hp⟩, rfl⟩ := hs
    exact ⟨w, h.client_tells (not_data_of_error hp)⟩
  | sent p =>
    simp only [Put.step] at hs
    split at hs
    · next hpc =>
      split_ifs at hs with hp
      cases hs
      rw [hpc] at h
      have h' : Stores d b (a.reader b) .waiting s up down ps w :=
        { h with client := h.client, opening := fun _ => h.opening trivial }
      exact ⟨w, h'.client_tells (hp ▸ hreq)⟩
    · cases hs
  | sendFailed | recvFailed =>
    simp only [Put.step] at hs
    simp only [PutLabel.sends, Option.toList_none, List.append_nil]
    split at hs
    · next hpc =>
      cases hs
      rw [hpc] at h
      exact ⟨w, h.gives_up trivial⟩
    · cases hs
  | step l =>
    obtain ⟨optack, x, x', hpc, hx, hpc'⟩ := Put.step_step hs
    rw [hpc] at h
    rw [hpc']
    exact h.sender hterms hseg (fun p hp => by subst hp; cases hl) hx
  | timeout =>
    simp only [Put.step] at hs
    simp only [PutLabel.sends, Option.toList_none, List.append_nil]
    split at hs
    · next hpc =>
      cases hs
      rw [hpc] at h
      refine ⟨w, ?_⟩
      simp only [Put.timer]
      split_ifs
      · exact h.gives_up trivial
      · exact { h with client := h.client, opening := fun _ => h.opening trivial }
    · next optack x hpc =>
      obtain ⟨x', hx, rfl⟩ := Option.map_eq_some_iff.mp hs
      rw [hpc] at h
      obtain ⟨w', h'⟩ := h.sender hterms hseg (by simp) hx
      simp only [SendLabel.sends, Option.toList_none, List.append_nil] at h'
      refine ⟨w', ?_⟩
      simp only [Put.timer]
      split_ifs
      · refine { h' with client := fun res hres hok => ?_, opening := fun hask => hask.elim }
        -- the engine has just been told of the timeout, so it is not done
        have hretry : x'.pc = .retryEnter true := by
          simp only [sendStep] at hx
          split at hx
          · cases hx
            rfl
          · cases hx
        obtain ⟨-, -, heq | ⟨-, res', hdone, -⟩⟩ := h'.client
        · rw [heq, hretry] at hres
          cases hres
        · rw [hretry] at hdone
          cases hdone
      · exact h'
    · cases hs

/-- A reply fits the buffer of the client. -/
theorem take_reply (h : Stores d b io pc s up down ps w) (hterms : Terms optreq b.request) {m : Packet} (hm : m ∈ down)
    (hreply : m.isReply = true) : m.take TFTP_REPLY_MAX_PACKET_SIZE = m := by
  rcases h.down_cases m hm with ⟨n, rfl⟩ | ho | herr
  · rfl
  · exact List.take_of_length_le ((hterms.oack m ho).2.1.trans (le_max_left _ _))
  · rw [not_reply_of_error herr] at hreply
    cases hreply

/-- What a client makes of the answer that lets it begin: it works with the sizes of the worker. -/
theorem answer_begins (h : Stores d b io .waiting s up down ps w) (hterms : Terms optreq b.request) {m : Packet}
    (hm : m ∈ down) {optack : Optreq}
    (hans : putAnswer optreq (m.take TFTP_REPLY_MAX_PACKET_SIZE) = .begins optack) :
    optack.blksize = b.request.daemon.segsize ∧ optack.window = b.request.daemon.windowsize := by
  rcases (h.opening trivial).2.1 m hm with rfl | herr
  · rw [h.take_reply hterms hm (UploadArgs.isReply_reply hterms)] at hans
    unfold UploadArgs.reply at hans
    cases ho : b.request.oack with
    | none =>
      simp only [putAnswer, ho, Option.getD_none, opcode_ackPacket, Opcode.code_inj, reduceCtorEq, if_false] at hans
      split_ifs at hans
      cases hans
      obtain ⟨hseg, hwin⟩ := hterms.plain ho
      exact ⟨hseg.symm, hwin.symm⟩
    | some oack =>
      obtain ⟨hop, -, optack', hparse, hblk, hwin⟩ := hterms.oack oack ho
      simp only [putAnswer, ho, Option.getD_some, hop, Opcode.code_inj, reduceCtorEq, if_false, if_true, hparse] at hans
      split_ifs at hans
      cases hans
      exact ⟨hblk, hwin⟩
  · simp only [putAnswer, opcode_take (show 2 ≤ TFTP_REPLY_MAX_PACKET_SIZE by decide), herr, if_true] at hans
    split_ifs at hans

/-- A message reaches the client. -/
theorem client_hears (h : Stores d b (a.reader b) c.pc s up down ps w) (hterms : Terms a.optreq b.request)
    (hseg : b.request.daemon.segsize ≠ 0) {m : Packet} (hm : receive d down m = some down')
    (hs : c.step a (c.input m) = some c') : ∃ w', Stores d b (a.reader b) c'.pc s up down' ps w' := by
  have hmem := Channel.mem_of_receive hm
  have hsub := Channel.sublist_of_receive hm
  cases hpc : c.pc with
  | sending optack x =>
    rw [Put.input, hpc] at hs
    obtain ⟨optack', x₀, x', hpc₀, hx, hpc'⟩ := Put.step_step hs
    cases hpc.symm.trans hpc₀
    rw [hpc] at h
    rw [hpc']
    obtain ⟨hblk, hwin, hst⟩ := h.client
    rw [putXfer_eq hterms hblk hwin, sendStep_maxBytes] at hx
    obtain ⟨w', hm', hst', hrec⟩ := h.mirror.sender_hears hst (fun hreply => h.take_reply hterms hmem hreply)
      (fun hreply => by rwa [Packet.isReply, opcode_take (by decide)]) hm hx
    exact ⟨w', hm', ⟨hblk, hwin, hst'⟩, h.worker.congr hrec, h.disk,
      fun p hp => h.down_cases p (hsub.subset hp), fun hask => hask.elim⟩
  | waiting =>
    rw [hpc] at h
    obtain ⟨w', h', -⟩ := h.lessDown hsub (Channel.filter_of_receive _ hm)
    simp only [Put.input, hpc, Put.step] at hs
    split at hs
    · cases hs
      exact ⟨w', hpc ▸ h'⟩
    · cases hs
      exact ⟨w', h'.gives_up trivial⟩
    · next optack hans =>
      obtain ⟨hblk, hwin⟩ := h.answer_begins hterms hmem hans
      rw [hblk, hwin, a.readerStart_eq hseg hterms.windowsize_pos] at hs
      cases hs
      exact ⟨w', { h' with client := ⟨hblk, hwin, .inl h'.client⟩, opening := fun hask => hask.elim }⟩
  | _ =>
    simp only [Put.input, hpc, Put.step] at hs
    cases hs

/-! The end -/

theorem opensWell (hterms : Terms optreq b.request) : b.session.OpensWell := by
  intro p hp
  obtain rfl := Option.some.inj hp
  unfold UploadArgs.reply
  cases ho : b.request.oack with
  | none => exact .inl rfl
  | some oack => exact .inr (hterms.oack oack ho).1

/-- Once the engine of the worker has succeeded, the file is complete. -/
theorem stored (h : Stores d b (a.reader b) pc s up down ps w) (hterms : Terms optreq b.request)
    (hconv : b.request.format.convert = a.convert) (hseg : b.request.daemon.segsize ≠ 0)
    (hnum : Numbered d b.session a.stream) (hsucc : s.Succeeded) : s.Stored a.convert ps ∧ ps.flatten = a.stream := by
  obtain ⟨y, res, hpc, hdone, hok⟩ := hsucc
  have hworker := h.worker
  have hdisk := h.disk
  rw [hpc] at hworker hdisk
  obtain ⟨r, hrec, hst⟩ := hworker
  have hstart := a.readerStart_eq hseg hterms.windowsize_pos
  have hsafe := h.mirror.safe (opensWell hterms) hterms.windowsize_pos hstart hnum
  have hpos := (Session.ok_of_start (c := b.session) hstart hterms.windowsize_pos (opensWell hterms)).blocksize_pos
  rcases hst with rfl | ⟨-, res', hdone', hne⟩
  · have hps := hsafe.2.1 _ _ res hrec hdone hok
    have hfinished : y.recv.pc.Finished := .inr ⟨res, hdone, hok⟩
    have hcomplete := hdisk.1.complete hfinished
    rw [hconv] at hcomplete
    refine ⟨⟨?_, ?_⟩, by rw [hps, Blocks.flatten_blocks hpos]; rfl⟩
    · rw [hdisk.2 hfinished, hcomplete.1]
    · rw [hpc]
      exact ⟨⟨res, hdone, hok⟩, hcomplete⟩
  · cases hdone.symm.trans hdone'
    exact absurd hok hne

/-- A client succeeds only after the engine of the worker. -/
theorem worker_done {optack : Optreq} {x : SendState} (h : Stores d b (a.reader b) (.sending optack x) s up down ps w)
    (hterms : Terms optreq b.request) (hseg : b.request.daemon.segsize ≠ 0) (hnum : Numbered d b.session a.stream)
    {res : XferResult} (hdone : x.pc = .done res) (hok : res.status = .ok) : s.Succeeded := by
  have hstart := a.readerStart_eq hseg hterms.windowsize_pos
  obtain ⟨-, -, hst⟩ := h.client
  obtain ⟨args, r, res', hrec, hdone', hok'⟩ :=
    (h.mirror.safe (opensWell hterms) hterms.windowsize_pos hstart hnum).2.2 res (hst.done_ok hdone hok) hok
  have hworker := h.worker
  cases hpc : s.pc with
  | start =>
    rw [hpc] at hworker
    rw [show w.receiver = none from hworker] at hrec
    cases hrec
  | dally =>
    rw [hpc] at hworker
    cases hworker
  | receiving y =>
    rw [hpc] at hworker
    obtain ⟨r', hrec', hst'⟩ := hworker
    obtain ⟨-, rfl⟩ := Prod.mk.inj (Option.some.inj (hrec'.symm.trans hrec))
    exact ⟨y, res', hpc, hst'.done_ok hdone' hok' ▸ hdone', hok'⟩
  | stopping result io' thread =>
    rw [hpc] at hworker
    exact absurd hok' (hworker.2 args r res' hrec hdone')
  | ended status =>
    rw [hpc] at hworker
    exact absurd hok' (hworker.2 args r res' hrec hdone')

/-- A worker whose client has not begun has not succeeded. -/
theorem not_succeeded (h : Stores d b io pc s up down ps w) (hask : pc.Asking) : ¬ s.Succeeded := by
  rintro ⟨y, res, hpc, hdone, hok⟩
  have hworker := h.worker
  rw [hpc] at hworker
  obtain ⟨r, hrec, hst⟩ := hworker
  have hopen := (h.opening hask).2.2 _ r hrec
  rcases hst with rfl | ⟨-, res', hdone', hne⟩
  · rw [RecvState.Opening, hdone] at hopen
    exact hopen hok
  · cases hdone.symm.trans hdone'
    exact hne hok

end Stores

end TftpHpa
