import TftpHpa.Daemon.Request
import TftpHpa.Xfer.Receiving

/-! A worker of the server receiving an upload (`tftp_recvfile`), from the file that
`validate_access` has opened and truncated to the end of the process. The file on disk
lags behind the stream by what stdio still buffers: that part goes out when stdio sees
fit, at a successful `fflush`, and at `exit`; an `fflush` that fails loses it. -/

namespace TftpHpa

open Transition
open TftpIo (WriterThread WriterInv Resting converted)

/-- What `tftp_recvfile` is called with, and what it finds in the static variables. `room`
is how much may be written before a write error. -/
structure UploadArgs where
  request : AcceptedRequest
  pthread : Bool
  cancreate : Bool
  room : Option ℕ := none

namespace UploadArgs

def xfer (a : UploadArgs) : Xfer where
  blocksize := a.request.daemon.segsize
  windowsize := a.request.daemon.windowsize
  maxBytes := UInt64.ofNat a.request.uploadLimit
  rollover := a.request.daemon.rolloverVal

def recvArgs (a : UploadArgs) : RecvArgs where
  inputSize := a.request.daemon.segsize + 4
  initialReply := some (a.request.oack.getD (ackPacket 0))

/-- `tftp_io_writer_start`, with the slots `io_ring_slots` gives. -/
def writerStart (a : UploadArgs) (slots : ℕ) : Option TftpIo :=
  TftpIo.writerStart { rest := [], room := a.room } a.request.format.convert slots a.request.daemon.segsize a.pthread

end UploadArgs

/-- Where `tftp_recvfile` stands: before `tftp_io_writer_start`, in the engine, in
`tftp_io_stop`, in `daemon_xfer_dally`. A worker that has ended did so with the status of
the transfer, or without one when it was killed or left through `exit` in `timer`. -/
inductive UploadPc where
  | start
  | receiving (x : Receiving)
  | stopping (result : XferResult) (io : TftpIo) (thread : WriterThread)
  | dally
  | ended (status : Option XferStatus)

/-- The static `timeout` and the file on disk, `none` once it is removed. -/
structure Upload where
  pc : UploadPc := .start
  timeout : ℕ
  disk : Option Bytes := some []

inductive UploadLabel where
  | start (pthreadError : Bool)
  | step (l : ReceivingLabel)
  | timeout
  | spill (n : ℕ)
  | stop
  | close (closed : Bool)
  | dally

/-- `discard_upload`: what becomes of the file. -/
def discardUpload (cancreate : Bool) : Option Bytes := if cancreate then none else some []

/-- `tftp_io_stop` up to the join. -/
def TftpIo.stop (io : TftpIo) : TftpIo := if io.threaded then { io with stopped := true } else io

namespace Upload

/-- The engine or the thread has made a step: `daemon_xfer_retry_enter` sets `timeout`, and
a drain or finish that succeeds has flushed the stream. -/
def moved (d : Daemon) (s : Upload) (x : Receiving) : ReceivingLabel → Option Upload
  | .engine .timeout _ => none
  | .engine (.entered false) _ => some { s with pc := .receiving x, timeout := d.rexmtval }
  | .engine .drained _ | .engine .finished _ =>
    some { s with pc := .receiving x, disk := some x.io.file.written }
  | _ => some { s with pc := .receiving x }

/-- `timer`, with the engine at the state `x'` its `siglongjmp` leads to. -/
def timer (d : Daemon) (s : Upload) (x x' : Receiving) : Upload :=
  let timeout := s.timeout * 2
  if d.maxtimeout ≤ timeout then { pc := .ended none, timeout, disk := some x.io.file.written }
  else { s with pc := .receiving x', timeout }

/-- `tftp_recvfile`. -/
def step (a : UploadArgs) (s : Upload) : UploadLabel → Option Upload
  | .start pthreadError =>
    match s.pc with
    | .start =>
      match ioRingSlots a.pthread a.request.daemon with
      | none => some { s with pc := .ended none }
      | some slots =>
        match a.writerStart slots, a.pthread && pthreadError with
        | some io, false =>
          some { s with pc := .receiving ⟨recvInit a.xfer a.recvArgs, io, .start a.pthread⟩ }
        | _, _ => some { s with pc := .ended (some .writeError), disk := discardUpload a.cancreate }
    | _ => none
  | .step l =>
    match s.pc with
    | .receiving x => (x.step a.xfer a.recvArgs l).bind fun x' => s.moved a.request.daemon x' l
    | .stopping result io thread =>
      match l with
      | .thread => (io.writerThread thread).map fun (io, thread) => { s with pc := .stopping result io thread }
      | _ => none
    | _ => none
  | .timeout =>
    match s.pc with
    | .receiving x =>
      (x.step a.xfer a.recvArgs (.engine .timeout none)).map fun x' => s.timer a.request.daemon x x'
    | _ => none
  | .spill n =>
    match s.pc with
    | .receiving { io, .. } | .stopping _ io _ =>
      if (s.disk.getD []).length ≤ n then some { s with disk := some (io.file.written.take n) } else none
    | _ => none
  | .stop =>
    match s.pc with
    | .receiving { recv := { pc := .done result, .. }, io, thread } =>
      some { s with pc := .stopping result io.stop thread }
    | _ => none
  | .close closed =>
    match s.pc with
    | .stopping result io .exited =>
      if result.status = .ok then
        -- an error of `fclose` is logged and nothing else
        some { s with pc := .dally, disk := if closed then some io.file.written else s.disk }
      else some { s with pc := .ended (some result.status), disk := discardUpload a.cancreate }
    | _ => none
  | .dally =>
    match s.pc with
    | .dally => some { s with pc := .ended (some .ok) }
    | _ => none

end Upload

def UploadArgs.init (a : UploadArgs) : Upload := { timeout := a.request.daemon.timeout }

/-- The payload a step publishes. -/
def UploadLabel.payload : UploadLabel → List Bytes
  | .step l => l.payload
  | _ => []

/-! ### What a worker leaves behind -/

namespace Upload

/-- The transfer is complete and so is the file, or the file is gone, or empty. -/
def Clean (a : UploadArgs) (ps : List Bytes) (disk : Option Bytes) (status : Option XferStatus) : Prop :=
  (status = some .ok ∧ disk = some (converted a.request.format.convert false ps.flatten)) ∨
    (a.cancreate = true ∧ disk = none) ∨ (a.cancreate = false ∧ disk = some [])

def Phase (a : UploadArgs) (ps : List Bytes) (disk : Option Bytes) : UploadPc → Prop
  | .start => ps = [] ∧ disk = some []
  | .receiving x => x.Inv a.request.format.convert ps ∧ (x.recv.pc.Finished → disk = some x.io.file.written)
  | .stopping result io thread => result.status = .ok →
      Complete a.request.format.convert ps io thread ∧ disk = some io.file.written
  | .dally => disk = some (converted a.request.format.convert false ps.flatten)
  | .ended status => Clean a ps disk status

def Inv (a : UploadArgs) (ps : List Bytes) (s : Upload) : Prop := Phase a ps s.disk s.pc

variable {a : UploadArgs} {ps : List Bytes} {s s' : Upload}

theorem clean_discardUpload (status : Option XferStatus) : Clean a ps (discardUpload a.cancreate) status := by
  cases hc : a.cancreate with
  | true => exact .inr (.inl ⟨hc, rfl⟩)
  | false => exact .inr (.inr ⟨hc, rfl⟩)

/-- The worker is killed before it has written anything. Only an empty file is left, which is
what `discard_upload` would have left without `--create`. -/
def Survives (a : UploadArgs) : Prop :=
  ioRingSlots a.pthread a.request.daemon = none → a.cancreate = false

theorem writerStart_eq_some {slots : ℕ} {io : TftpIo} (h : a.writerStart slots = some io) : 0 < slots ∧
    io = .init { rest := [], room := a.room } a.request.format.convert slots 0 a.request.daemon.segsize a.pthread := by
  simp only [UploadArgs.writerStart, TftpIo.writerStart, TftpIo.ioStart] at h
  split at h
  · cases h
  · rename_i hargs
    exact ⟨Nat.pos_of_ne_zero fun h0 => hargs (.inl h0), (Option.some.inj h).symm⟩

theorem Inv.start (h : Inv a ps s) (ha : Survives a) {pthreadError : Bool}
    (hs : s.step a (.start pthreadError) = some s') : Inv a ps s' := by
  simp only [step] at hs
  split at hs
  · rename_i hpc
    rw [Inv, hpc] at h
    obtain ⟨rfl, hdisk⟩ := h
    split at hs
    · rename_i hslots
      obtain rfl := Option.some.inj hs
      exact .inr (.inr ⟨ha hslots, hdisk⟩)
    · rename_i slots hslots
      split at hs
      · rename_i io hio _
        obtain rfl := Option.some.inj hs
        obtain ⟨hpos, rfl⟩ := writerStart_eq_some hio
        have hunfinished := unfinished_recvInit a.xfer a.recvArgs
        refine ⟨.of_writer (.start rfl hpos _ _ _) hunfinished, fun hf => ?_⟩
        exact absurd hf hunfinished.not_finished
      · obtain rfl := Option.some.inj hs
        exact clean_discardUpload _
  · cases hs

theorem moved_cases {d : Daemon} {x : Receiving} {l : ReceivingLabel} (hs : s.moved d x l = some s') :
    s'.pc = .receiving x ∧ (s'.disk = some x.io.file.written ∨
      s'.disk = s.disk ∧ ∀ flush, l ≠ .engine .finished flush) := by
  unfold moved at hs
  split at hs
  · cases hs
  · obtain rfl := Option.some.inj hs
    exact ⟨rfl, .inr ⟨rfl, by simp⟩⟩
  · obtain rfl := Option.some.inj hs
    exact ⟨rfl, .inl rfl⟩
  · obtain rfl := Option.some.inj hs
    exact ⟨rfl, .inl rfl⟩
  · rename_i hfin
    obtain rfl := Option.some.inj hs
    exact ⟨rfl, .inr ⟨rfl, hfin⟩⟩

theorem Inv.step (h : Inv a ps s) {l : ReceivingLabel} (hs : s.step a (.step l) = some s') :
    Inv a (ps ++ l.payload) s' := by
  simp only [Upload.step] at hs
  split at hs
  · rename_i x hpc
    rw [Inv, hpc] at h
    obtain ⟨x', hx, hmoved⟩ := Option.bind_eq_some_iff.mp hs
    obtain ⟨hpc', hdisk⟩ := moved_cases hmoved
    rw [Inv, hpc']
    refine ⟨h.1.step hx, fun hf => ?_⟩
    rcases hdisk with hdisk | ⟨hdisk, hfin⟩
    · exact hdisk
    · rcases h.1.step_finished hx hf with ⟨flush, rfl⟩ | ⟨hf, hfile⟩
      · exact absurd rfl (hfin flush)
      · rw [hdisk, hfile, h.2 hf]
  · rename_i result io thread hpc
    rw [Inv, hpc] at h
    split at hs
    · obtain ⟨⟨io', thread'⟩, hth, rfl⟩ := Option.map_eq_some_iff.mp hs
      simp only [ReceivingLabel.payload, List.append_nil]
      intro hok
      obtain ⟨hcomplete, hdisk⟩ := h hok
      obtain ⟨rfl, -⟩ := hcomplete.2.thread hth
      exact ⟨hcomplete.thread hth, hdisk⟩
    · cases hs
  · cases hs

/-- A timeout that does not make `timer` give up. -/
theorem Inv.timeout (h : Inv a ps s) (hlt : 2 * s.timeout < a.request.daemon.maxtimeout)
    (hs : s.step a .timeout = some s') : Inv a ps s' := by
  simp only [Upload.step] at hs
  split at hs
  · rename_i x hpc
    rw [Inv, hpc] at h
    obtain ⟨x', hx, rfl⟩ := Option.map_eq_some_iff.mp hs
    rw [timer, if_neg (by omega)]
    have hinv := h.1.step hx
    simp only [ReceivingLabel.payload, List.append_nil] at hinv
    refine ⟨hinv, fun hf => ?_⟩
    rcases h.1.step_finished hx hf with ⟨flush, hl⟩ | ⟨hf, hfile⟩
    · cases hl
    · rw [hfile]
      exact h.2 hf
  · cases hs

/-- Once everything is on disk there is nothing left for stdio to write. -/
theorem spill_written {written : Bytes} {n : ℕ} (hn : ((some written).getD []).length ≤ n) :
    some (written.take n) = some written := by
  rw [List.take_of_length_le (show written.length ≤ n from hn)]

theorem Inv.spill (h : Inv a ps s) {n : ℕ} (hs : s.step a (.spill n) = some s') : Inv a ps s' := by
  simp only [Upload.step] at hs
  split at hs
  · rename_i recv io thread hpc
    rw [Inv, hpc] at h
    split_ifs at hs with hn
    obtain rfl := Option.some.inj hs
    rw [Inv, show ({ s with disk := some (io.file.written.take n) } : Upload).pc = _ from hpc]
    refine ⟨h.1, fun hf => spill_written ?_⟩
    rwa [← h.2 hf]
  · rename_i result io thread hpc
    rw [Inv, hpc] at h
    split_ifs at hs with hn
    obtain rfl := Option.some.inj hs
    rw [Inv, show ({ s with disk := some (io.file.written.take n) } : Upload).pc = _ from hpc]
    refine fun hok => ⟨(h hok).1, spill_written ?_⟩
    rwa [← (h hok).2]
  · cases hs

theorem complete_stop {convert : Bool} {io : TftpIo} {th : WriterThread} (h : Complete convert ps io th) :
    Complete convert ps io.stop th := by
  unfold TftpIo.stop
  split_ifs
  · exact h
  · exact h

theorem stop_file (io : TftpIo) : io.stop.file = io.file := by
  unfold TftpIo.stop
  split_ifs
  · rfl
  · rfl

theorem Inv.stop (h : Inv a ps s) (hs : s.step a .stop = some s') : Inv a ps s' := by
  simp only [Upload.step] at hs
  split at hs
  · rename_i hpc
    rw [Inv, hpc] at h
    obtain rfl := Option.some.inj hs
    intro hok
    exact ⟨complete_stop (h.1 hok), by rw [stop_file]; exact h.2 (.inr ⟨_, rfl, hok⟩)⟩
  · cases hs

theorem Inv.close (h : Inv a ps s) {closed : Bool} (hs : s.step a (.close closed) = some s') : Inv a ps s' := by
  simp only [Upload.step] at hs
  split at hs
  · rename_i result io hpc
    rw [Inv, hpc] at h
    split at hs
    · rename_i hok
      obtain rfl := Option.some.inj hs
      obtain ⟨hcomplete, hdisk⟩ := h hok
      change (if closed then some io.file.written else s.disk) = _
      rw [hdisk, ite_self, hcomplete.1]
    · obtain rfl := Option.some.inj hs
      exact clean_discardUpload _
  · cases hs

theorem Inv.dally (h : Inv a ps s) (hs : s.step a .dally = some s') : Inv a ps s' := by
  simp only [Upload.step] at hs
  split at hs
  · rename_i hpc
    rw [Inv, hpc] at h
    obtain rfl := Option.some.inj hs
    exact .inl ⟨rfl, h⟩
  · cases hs

/-- The timer does not reach its limit. -/
def Patient (a : UploadArgs) (s : Upload) (l : UploadLabel) : Prop :=
  l = .timeout → 2 * s.timeout < a.request.daemon.maxtimeout

theorem Inv.label (ha : Survives a) (h : Inv a ps s) {l : UploadLabel} (hl : Patient a s l)
    (hs : s.step a l = some s') : Inv a (ps ++ l.payload) s' := by
  cases l with
  | step l => exact h.step hs
  | _ =>
    simp only [UploadLabel.payload, List.append_nil]
    first
    | exact h.start ha hs
    | exact h.timeout (hl rfl) hs
    | exact h.spill hs
    | exact h.stop hs
    | exact h.close hs
    | exact h.dally hs

end Upload

/-- The server survives `io_ring_slots` unless it rejects all options, and then only an empty
file is left behind. -/
theorem survives_of_tftp {c : DaemonConfig} {peer : Socket} {h : Handlers} {tp : Packet} {a : UploadArgs}
    (hr : tftp c peer h tp = .ok a.request)
    (hreject : c.rejectAllOptions = true → a.pthread = true → a.cancreate = false) : Upload.Survives a := by
  intro hslots
  cases hp : a.pthread with
  | false =>
    rw [hp] at hslots
    cases hslots
  | true =>
    rcases Bool.eq_false_or_eq_true c.rejectAllOptions with hc | hc
    · exact hreject hc hp
    · obtain ⟨args, file, -, -, -, -, hn⟩ := tftp_eq_ok hr
      have hd := (negotiateOptions_negotiated hc peer (.start c args.opts file)).1
      rw [hn] at hd
      obtain ⟨n, hn, -⟩ := (hd.usable a.pthread).slots
      rw [hn] at hslots
      cases hslots

/-- An upload that ends leaves the whole file or nothing, as long as the client is never so
long silent that `timer` exits. -/
theorem upload_clean_of_patient {c : DaemonConfig} {peer : Socket} {h : Handlers} {tp : Packet} {a : UploadArgs}
    (hr : tftp c peer h tp = .ok a.request)
    (hreject : c.rejectAllOptions = true → a.pthread = true → a.cancreate = false)
    {t : List UploadLabel} {s : Upload} (hrun : run (Upload.step a) a.init t = some s)
    (hpatient : Along (Upload.step a) (Upload.Patient a) a.init t) {status : Option XferStatus}
    (hend : s.pc = .ended status) : Upload.Clean a (t.flatMap UploadLabel.payload) s.disk status := by
  have hinit : Upload.Inv a (([] : List UploadLabel).flatMap UploadLabel.payload) a.init := ⟨rfl, rfl⟩
  have hinv := run_invariant_along (fun t s => Upload.Inv a (t.flatMap UploadLabel.payload) s)
    (fun t s l s' hi hl hs => ?_) hinit hpatient hrun
  · rw [Upload.Inv, hend] at hinv
    exact hinv
  · rw [List.flatMap_append, List.flatMap_singleton]
    exact hi.label (survives_of_tftp hr hreject) hl hs

/-- A request to write the file `foo` in blocks of eight bytes. -/
def writeFoo : Packet :=
  htons Opcode.wrq.code ++ cstr "foo" ++ [0] ++ cstr "octet" ++ [0] ++ cstr "blksize" ++ [0] ++ cstr "8" ++ [0]

/-- The worker's first steps, up to the reply to the request. -/
def uploadBegins (reply : Packet) : List UploadLabel :=
  [.start false, .step (.engine .reserved none), .step (.engine (.entered false) none),
    .step (.engine (.sent reply) none)]

/-- One block arrives and is acknowledged, and then nothing more: the sixth timeout in a row
ends the worker in `timer`. -/
def uploadAbandoned (reply : Packet) : List UploadLabel :=
  let block := dataPacket 1 (cstr "abcdefgh")
  uploadBegins reply ++ [.step (.engine (.received block) none), .step (.engine (.published block) none),
    .step (.engine .drained none), .step (.engine (.sent (ackPacket 1)) none), .step (.engine .reserved none),
    .step (.engine (.entered false) none)] ++
  (List.replicate 5 [.timeout, .step (.engine (.entered true) none),
    .step (.engine (.sent (ackPacket 1)) none)]).flatten ++ [.timeout]

/-- With or without `--create`, a client that stops sending leaves a partial file behind. -/
theorem silent_client_leaves_file : ∃ r, tftp {} { family := .inet, mtu := none } .empty writeFoo = .ok r ∧
    ∀ cancreate, ∃ s, run (Upload.step ⟨r, false, cancreate, none⟩) (UploadArgs.init ⟨r, false, cancreate, none⟩)
        (uploadAbandoned (r.oack.getD [])) = some s ∧
      s.pc = .ended none ∧ s.disk = some (cstr "abcdefgh") ∧ ¬ Upload.Clean ⟨r, false, cancreate, none⟩
        ((uploadAbandoned (r.oack.getD [])).flatMap UploadLabel.payload) s.disk none := by
  have hpartial (a : UploadArgs) (ps : List Bytes) : ¬ Upload.Clean a ps (some (cstr "abcdefgh")) none := by
    rintro (⟨h, -⟩ | ⟨-, h⟩ | ⟨-, h⟩) <;> cases h
  refine ⟨_, rfl, fun cancreate => ?_⟩
  cases cancreate with
  | true => exact ⟨_, rfl, rfl, rfl, hpartial _ _⟩
  | false => exact ⟨_, rfl, rfl, rfl, hpartial _ _⟩

/-- A timeout and a network error before the first block. -/
def uploadFails (reply : Packet) : List UploadLabel :=
  uploadBegins reply ++ [.timeout, .step (.engine (.entered true) none), .step (.engine (.sent reply) none),
    .step (.engine (.recvFailed 111) none), .stop, .close true]

theorem upload_clean_of_patient_foo : ∃ r, tftp {} { family := .inet, mtu := none } .empty writeFoo = .ok r ∧
    ∃ s, run (Upload.step ⟨r, false, true, none⟩) (UploadArgs.init ⟨r, false, true, none⟩)
        (uploadFails (r.oack.getD [])) = some s ∧
      Upload.Clean ⟨r, false, true, none⟩ ((uploadFails (r.oack.getD [])).flatMap UploadLabel.payload) s.disk
        (some .recvError) := by
  obtain ⟨r, hr⟩ : ∃ r, tftp {} { family := .inet, mtu := none } .empty writeFoo = .ok r := ⟨_, rfl⟩
  refine ⟨r, hr, ?_⟩
  obtain rfl := Except.ok.inj hr
  refine ⟨_, rfl, upload_clean_of_patient (a := ⟨_, false, true, none⟩) hr (fun h => nomatch h)
    (t := uploadFails _) rfl ?_ rfl⟩
  have hquiet {a : UploadArgs} {s : Upload} {l : UploadLabel} (hl : l ≠ .timeout) : Upload.Patient a s l :=
    fun h => absurd h hl
  refine .cons (hquiet nofun) rfl (.cons (hquiet nofun) rfl (.cons (hquiet nofun) rfl ?_))
  refine .cons (hquiet nofun) rfl (.cons (fun _ => ?_) rfl (.cons (hquiet nofun) rfl ?_))
  · decide
  · exact .cons (hquiet nofun) rfl (.cons (hquiet nofun) rfl (.cons (hquiet nofun) rfl
      (.cons (hquiet nofun) rfl trivial)))

end TftpHpa
