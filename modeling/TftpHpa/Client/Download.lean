import TftpHpa.Client.RoundTrip
import TftpHpa.Daemon.Upload
import TftpHpa.Xfer.Oversize

/-! The client receiving a file (`tftp_recvfile` in `tftp/tftp.c`). The request is sent until
it is answered, by an OACK or right away by the first block, and then `tftp_xfer_recv` takes
over, with the first block in hand if there is one. -/

namespace TftpHpa

open Transition Datagram

/-- The size of the buffer for the answer to the request. -/
def TFTP_REPLY_MAX_PACKET_SIZE : ℕ := max (TFTP_OPTION_SPACE + 2) (SEGSIZE + 4)

/-- What `tftp_recvfile` works with once `makerequest` has been called. `room` is how much may
be written before a write error. -/
structure DownloadArgs where
  request : Packet
  optreq : Optreq
  convert : Bool
  rexmtval : ℕ
  maxtimeout : ℕ
  room : Option ℕ := none

/-- The parameters of the transfer. -/
def Optreq.xfer (optack : Optreq) : Xfer where
  blocksize := optack.blksize
  windowsize := optack.window

/-- What becomes of a datagram while the client waits for the answer to its request. -/
inductive Answer where
  | ignored
  | refused
  | begins (optack : Optreq) (args : RecvArgs)

/-- The loop around `wait_for_reply`. -/
def answer (optreq : Optreq) (p : Packet) : Answer :=
  if p.length < 2 then .ignored
  else if p.opcode = Opcode.error.code then .refused
  else if p.opcode = Opcode.oack.code then
    match parseOack optreq p with
    | none => .refused
    | some optack => .begins optack { inputSize := optack.blksize + 5, initialReply := some (ackPacket 0) }
  else if p.opcode = Opcode.data.code ∧ 4 ≤ p.length ∧ p.block = 1 then
    -- the peer ignored or rejected the options
    .begins optreqInit { inputSize := optreqInit.blksize + 5, initialPacket := some p }
  else .ignored

/-- Where `tftp_recvfile` stands: before `sendto`, in `client_recv_time`, in the engine with
what it was called with, or on its way out. -/
inductive DownloadPc where
  | request
  | waiting
  | receiving (optack : Optreq) (args : RecvArgs) (x : Receiving)
  | ended

/-- The static `timeout` is part of the state. -/
structure Download where
  pc : DownloadPc := .request
  timeout : ℕ

inductive DownloadLabel where
  | sent (p : Packet)
  | sendFailed
  | reply (p : Packet)
  | recvFailed
  | step (l : ReceivingLabel)
  | timeout

namespace Download

/-- `timer`; it jumps to `pc` unless it gives up. -/
def timer (a : DownloadArgs) (s : Download) (pc : DownloadPc) : Download :=
  let timeout := s.timeout * 2
  { pc := if a.maxtimeout < timeout then .ended else pc, timeout }

/-- `tftp_recvfile`. -/
def step (a : DownloadArgs) (s : Download) : DownloadLabel → Option Download
  | .sent p =>
    match s.pc with
    | .request => if p = a.request then some { s with pc := .waiting } else none
    | _ => none
  | .sendFailed =>
    match s.pc with
    | .request => some { s with pc := .ended }
    | _ => none
  | .reply p =>
    match s.pc with
    | .waiting =>
      match answer a.optreq p with
      | .ignored => some s
      | .refused => some { s with pc := .ended }
      | .begins optack args =>
        match TftpIo.writerStart { rest := [], room := a.room } a.convert optack.window optack.blksize false with
        | none => some { s with pc := .ended }
        | some io => some { s with pc := .receiving optack args ⟨recvInit optack.xfer args, io, .start false⟩ }
    | _ => none
  | .recvFailed =>
    match s.pc with
    | .waiting => some { s with pc := .ended }
    | _ => none
  | .step l =>
    match s.pc, l with
    | _, .engine .timeout _ => none
    | .receiving optack args x, l =>
      (x.step optack.xfer args l).map fun x' =>
        { pc := .receiving optack args x'
          timeout := match l with
            | .engine (.entered false) _ => a.rexmtval
            | _ => s.timeout }
    | _, _ => none
  | .timeout =>
    match s.pc with
    | .waiting => some (s.timer a .request)
    | .receiving optack args x =>
      (x.step optack.xfer args (.engine .timeout none)).map fun x' => s.timer a (.receiving optack args x')
    | _ => none

/-- The receive calls: `client_recv_time` passes no flags. -/
def takes (s : Download) : DownloadLabel → Option (Input UInt8)
  | .reply p => some ⟨false, TFTP_REPLY_MAX_PACKET_SIZE, p⟩
  | .step l =>
    match s.pc with
    | .receiving _ args x => x.takes false args l
    | _ => none
  | _ => none

end Download

def DownloadArgs.init (a : DownloadArgs) : Download := { timeout := a.rexmtval }

/-- The payload a step publishes. -/
def DownloadLabel.payload : DownloadLabel → List Bytes
  | .step l => l.payload
  | _ => []

/-! ### What is published -/

/-- The first block, when it comes as the answer to the request, fits the buffer. -/
def ShortAnswer (l : FedLabel DownloadLabel UInt8) : Prop :=
  ∀ d p, l = .datagram d (.reply p) → Packet.opcode d = Opcode.data.code → Packet.block d = 1 →
    (Packet.payload d).length ≤ SEGSIZE

/-- What an answer that begins the transfer says about its arguments. -/
theorem answer_begins {optreq optack : Optreq} {args : RecvArgs} {p : Packet}
    (h : answer optreq p = .begins optack args) :
    args.inputSize = optack.blksize + 5 ∧ ∀ q, args.initialPacket = some q →
      q = p ∧ p.opcode = Opcode.data.code ∧ p.block = 1 := by
  unfold answer at h
  split_ifs at h with hshort herror hoack hdata
  · split at h
    · cases h
    · cases h
      exact ⟨rfl, fun q hq => by cases hq⟩
  · cases h
    refine ⟨rfl, fun q hq => ?_⟩
    cases hq
    exact ⟨rfl, hdata.1, hdata.2.2⟩

namespace Download

variable {a : DownloadArgs} {ds : List Packet} {ps : List Bytes} {s s' : Download}

/-- Behind the client's transfer there are whole datagrams. -/
def Accounted (ds : List Packet) (ps : List Bytes) : DownloadPc → Prop
  | .request | .waiting => ps = []
  | .receiving optack args x => args.inputSize = optack.blksize + 5 ∧ Whole optack.xfer args ds ps x.recv
  | .ended => True

theorem accounted_timer {pc : DownloadPc} (h : Accounted ds ps pc) : Accounted ds ps (s.timer a pc).pc := by
  unfold timer
  dsimp only
  split_ifs
  · trivial
  · exact h

/-- A step of the engine inside the client. -/
theorem step_step {l : ReceivingLabel} (hs : s.step a (.step l) = some s') :
    ∃ optack args x x', s.pc = .receiving optack args x ∧ x.step optack.xfer args l = some x' ∧
      s'.pc = .receiving optack args x' := by
  simp only [step] at hs
  split at hs
  · cases hs
  · next optack args x hpc _ =>
    obtain ⟨x', hx, rfl⟩ := Option.map_eq_some_iff.mp hs
    exact ⟨optack, args, x, x', hpc, hx, rfl⟩
  · cases hs

theorem Accounted.engine (h : Accounted ds ps s.pc) {l : FedLabel ReceivingLabel UInt8} {optack : Optreq}
    {args : RecvArgs} {x x' : Receiving} (hpc : s.pc = .receiving optack args x)
    (hs : fed (Receiving.step optack.xfer args) (Receiving.takes false args) x l = some x') :
    Accounted (ds ++ l.datagrams) (ps ++ l.label.payload) (.receiving optack args x') := by
  rw [hpc] at h
  obtain ⟨hsize, hwhole⟩ := h
  have hdet : Detects false args.inputSize (optack.xfer.blocksize + 4) := by
    rw [hsize]
    exact .inl (Nat.lt_succ_self _)
  exact ⟨hsize, hwhole.fed hdet hs⟩

/-- The answer to the request. -/
theorem Accounted.reply (h : Accounted ds ps s.pc) {d p : Packet}
    (hshort : d.opcode = Opcode.data.code → d.block = 1 → d.payload.length ≤ SEGSIZE)
    (hd : Delivers false TFTP_REPLY_MAX_PACKET_SIZE d p) (hs : s.step a (.reply p) = some s') :
    Accounted (ds ++ [d]) ps s'.pc := by
  simp only [step] at hs
  split at hs
  · next hpc =>
    rw [hpc] at h
    split at hs
    · cases hs
      rw [hpc]
      exact h
    · cases hs
      trivial
    · next optack args hans =>
      split at hs
      · cases hs
        trivial
      · cases hs
        obtain ⟨hsize, hinit⟩ := answer_begins hans
        refine ⟨hsize, ?_⟩
        rw [show ps = [] from h]
        refine whole_init fun q hq _ => ?_
        obtain ⟨rfl, hop, hblk⟩ := hinit q hq
        have hpay := hshort ((opcode_of_delivers hd (by decide)).symm.trans hop)
          ((block_of_delivers hd (by decide)).symm.trans hblk)
        have hlen := payload_length d
        have hfits : d.length ≤ TFTP_REPLY_MAX_PACKET_SIZE := by
          have : SEGSIZE + 4 ≤ TFTP_REPLY_MAX_PACKET_SIZE := le_max_right _ _
          omega
        rw [hd.eq_of_le_size hfits]
        exact List.mem_append_right _ List.mem_cons_self
  · cases hs

/-- A label that neither answers the request nor is one of the engine. -/
theorem Accounted.silent (h : Accounted ds ps s.pc) {l : DownloadLabel} (hs : s.step a l = some s')
    (hreply : ∀ p, l ≠ .reply p) (hstep : ∀ e, l ≠ .step e) : Accounted ds ps s'.pc := by
  cases l with
  | reply p => exact absurd rfl (hreply p)
  | step e => exact absurd rfl (hstep e)
  | sent p =>
    simp only [step] at hs
    split at hs
    · next hpc =>
      rw [hpc] at h
      split_ifs at hs
      cases hs
      exact h
    · cases hs
  | sendFailed | recvFailed =>
    simp only [step] at hs
    split at hs
    · cases hs
      trivial
    · cases hs
  | timeout =>
    simp only [step] at hs
    split at hs
    · next hpc =>
      rw [hpc] at h
      cases hs
      exact accounted_timer h
    · next optack args x hpc =>
      obtain ⟨x', hx, rfl⟩ := Option.map_eq_some_iff.mp hs
      have hmoved := h.engine (l := .other (.engine .timeout none)) hpc (fed_other.mpr ⟨rfl, hx⟩)
      simp only [FedLabel.datagrams, FedLabel.label, ReceivingLabel.payload, List.append_nil] at hmoved
      exact accounted_timer hmoved
    · cases hs

theorem Accounted.fed (h : Accounted ds ps s.pc) {l : FedLabel DownloadLabel UInt8} (hl : ShortAnswer l)
    (hs : Datagram.fed (Download.step a) takes s l = some s') :
    Accounted (ds ++ l.datagrams) (ps ++ l.label.payload) s'.pc := by
  cases l with
  | datagram d l =>
    obtain ⟨i, hi, hd, hstep⟩ := fed_datagram.mp hs
    cases l with
    | reply p =>
      cases hi
      simp only [FedLabel.datagrams, FedLabel.label, DownloadLabel.payload, List.append_nil]
      exact h.reply (fun hop hblk => hl d p rfl hop hblk) hd hstep
    | step l =>
      obtain ⟨optack, args, x, x', hpc, hx, hpc'⟩ := step_step hstep
      simp only [takes, hpc] at hi
      rw [hpc']
      exact h.engine (l := .datagram d l) hpc (fed_datagram.mpr ⟨i, hi, hd, hx⟩)
    | _ => cases hi
  | other l =>
    obtain ⟨hnone, hstep⟩ := fed_other.mp hs
    cases l with
    | reply p => cases hnone
    | step l =>
      obtain ⟨optack, args, x, x', hpc, hx, hpc'⟩ := step_step hstep
      simp only [takes, hpc] at hnone
      rw [hpc']
      exact h.engine (l := .other l) hpc (fed_other.mpr ⟨hnone, hx⟩)
    | _ =>
      simp only [FedLabel.datagrams, FedLabel.label, DownloadLabel.payload, List.append_nil]
      exact h.silent hstep (by simp) (by simp)

theorem Accounted.of_run {t : List (FedLabel DownloadLabel UInt8)} (hshort : ∀ l ∈ t, ShortAnswer l)
    (hrun : run (Datagram.fed (Download.step a) takes) a.init t = some s) :
    Accounted (t.flatMap FedLabel.datagrams) ((t.map FedLabel.label).flatMap DownloadLabel.payload) s.pc := by
  have hinit : Accounted (([] : List (FedLabel DownloadLabel UInt8)).flatMap FedLabel.datagrams)
      ((([] : List (FedLabel DownloadLabel UInt8)).map FedLabel.label).flatMap DownloadLabel.payload) a.init.pc := rfl
  refine run_invariant_along (C := fun _ l => ShortAnswer l)
    (fun t (s : Download) =>
      Accounted (t.flatMap FedLabel.datagrams) ((t.map FedLabel.label).flatMap DownloadLabel.payload) s.pc)
    (fun t s l s' h hl hs => ?_) hinit (.of_forall fun l hl _ => hshort l hl) hrun
  simp only [List.map_append, List.map_singleton, List.flatMap_append, List.flatMap_singleton]
  exact h.fed hl hs

end Download

/-- What the server and the client publish are payloads of whole datagrams, none longer than a
block, and a longer one ends the transfer if it is the expected block. For the client this
takes a first block of at most 512 bytes when it comes as the answer to the request. -/
theorem long_data_never_published (a : UploadArgs) (c : DownloadArgs) :
    (∀ (io : TftpIo) (th : TftpIo.WriterThread) (t : List (FedLabel ReceivingLabel UInt8)) (s : Receiving),
      run (fed (Receiving.step a.xfer a.recvArgs) (Receiving.takes true a.recvArgs))
        ⟨recvInit a.xfer a.recvArgs, io, th⟩ t = some s →
      ((t.map FedLabel.label).flatMap ReceivingLabel.payload).Sublist
        (wholeBlocks a.request.daemon.segsize (t.flatMap FedLabel.datagrams)) ∧
      s.RejectsLong true a.xfer a.recvArgs) ∧
    ∀ (t : List (FedLabel DownloadLabel UInt8)) (s : Download),
      run (fed (Download.step c) Download.takes) c.init t = some s → (∀ l ∈ t, ShortAnswer l) →
      ∀ optack args x, s.pc = .receiving optack args x →
        ((t.map FedLabel.label).flatMap DownloadLabel.payload).Sublist
          (wholeBlocks optack.blksize (t.flatMap FedLabel.datagrams)) ∧
        x.RejectsLong false optack.xfer args := by
  refine ⟨fun io th t s hrun => ?_, fun t s hrun hshort optack args x hpc => ?_⟩
  · have hdet : Detects true a.recvArgs.inputSize (a.xfer.blocksize + 4) := .inr ⟨rfl, le_rfl⟩
    have hwhole := whole_of_run rfl hdet hrun
    exact ⟨(List.sublist_append_left _ _).trans hwhole.sublist, s.rejectsLong hdet⟩
  · have hacc := Download.Accounted.of_run hshort hrun
    rw [hpc] at hacc
    obtain ⟨hsize, hwhole⟩ := hacc
    have hdet : Detects false args.inputSize (optack.xfer.blocksize + 4) := by
      rw [hsize]
      exact .inl (Nat.lt_succ_self _)
    exact ⟨(List.sublist_append_left _ _).trans hwhole.sublist, x.rejectsLong hdet⟩

/-- The client asking for the file `foo` without options. -/
def downloadFoo : DownloadArgs where
  request := readFoo
  optreq := optreqInit
  convert := false
  rexmtval := 1000000
  maxtimeout := 63000000

/-- The request is answered with the datagram `d`, of which `p` is delivered and published. -/
def answeredWith (d p : Packet) : List (FedLabel DownloadLabel UInt8) :=
  [.other (.sent readFoo), .datagram d (.reply p), .other (.step (.engine .reserved none)),
    .other (.step (.engine (.entered false) none)), .other (.step (.engine (.published p) none))]

/-- The server gets a block of eight bytes and writes it. -/
def storesEight (reply : Packet) : List (FedLabel ReceivingLabel UInt8) :=
  let block := dataPacket 1 (cstr "abcdefgh")
  [.other (.engine .reserved none), .other (.engine (.entered false) none), .other (.engine (.sent reply) none),
    .datagram block (.engine (.received block) none), .other (.engine (.published block) none)]

theorem long_data_never_published_foo :
    (∃ r io s, tftp {} { family := .inet, mtu := none } .empty writeFoo = .ok r ∧
      UploadArgs.writerStart ⟨r, false, true, none⟩ 2 = some io ∧
      run (fed (Receiving.step (UploadArgs.xfer ⟨r, false, true, none⟩) (UploadArgs.recvArgs ⟨r, false, true, none⟩))
          (Receiving.takes true (UploadArgs.recvArgs ⟨r, false, true, none⟩)))
        ⟨recvInit (UploadArgs.xfer ⟨r, false, true, none⟩) (UploadArgs.recvArgs ⟨r, false, true, none⟩), io,
          .start false⟩ (storesEight (r.oack.getD [])) = some s ∧
      [cstr "abcdefgh"].Sublist (wholeBlocks r.daemon.segsize [dataPacket 1 (cstr "abcdefgh")])) ∧
    ∃ s, run (fed (Download.step downloadFoo) Download.takes) downloadFoo.init
        (answeredWith (dataPacket 1 (cstr "abc")) (dataPacket 1 (cstr "abc"))) = some s ∧
      [cstr "abc"].Sublist (wholeBlocks SEGSIZE [dataPacket 1 (cstr "abc")]) := by
  obtain ⟨r, hr⟩ : ∃ r, tftp {} { family := .inet, mtu := none } .empty writeFoo = .ok r := ⟨_, rfl⟩
  obtain ⟨hserver, hclient⟩ := long_data_never_published ⟨r, false, true, none⟩ downloadFoo
  constructor
  · obtain ⟨io, hio⟩ : ∃ io, UploadArgs.writerStart ⟨r, false, true, none⟩ 2 = some io := by
      obtain rfl := Except.ok.inj hr
      exact ⟨_, rfl⟩
    specialize hserver io (.start false) (storesEight (r.oack.getD []))
    obtain rfl := Except.ok.inj hr
    obtain rfl := Option.some.inj hio
    exact ⟨_, _, _, hr, rfl, rfl, (hserver _ rfl).1⟩
  · refine ⟨_, rfl, (hclient (answeredWith (dataPacket 1 (cstr "abc")) (dataPacket 1 (cstr "abc"))) _ rfl ?_
      _ _ _ rfl).1⟩
    intro l hl d p h _ _
    simp only [answeredWith, List.mem_cons, h, List.not_mem_nil, or_false, reduceCtorEq, false_or,
      FedLabel.datagram.injEq] at hl
    rw [hl.1]
    decide

/-- A first block of 513 bytes that answers the request is published without its last byte. -/
theorem long_answer_truncated :
    (∃ s, run (fed (Download.step downloadFoo) Download.takes) downloadFoo.init
        (answeredWith (dataPacket 1 (List.replicate 513 97)) (dataPacket 1 (List.replicate 512 97))) = some s) ∧
      ¬ (((answeredWith (dataPacket 1 (List.replicate 513 97)) (dataPacket 1 (List.replicate 512 97))).map
        FedLabel.label).flatMap DownloadLabel.payload).Sublist
          (wholeBlocks SEGSIZE [dataPacket 1 (List.replicate 513 97)]) := by
  constructor
  · exact Option.isSome_iff_exists.mp (by decide +kernel)
  · decide +kernel

end TftpHpa
