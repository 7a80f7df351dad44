import TftpHpa.Client.Copies
import TftpHpa.Client.Status
import TftpHpa.Session.DownloadSafe
import TftpHpa.Session.Shared

/-! The commands of the client, down to the datagrams. To a command a transfer is one call of the
system. Here a call that returns success is a whole session of `tftp_sendfile` or `tftp_recvfile` with
a server, and what holds of sessions becomes what the commands have done when they report success. -/

namespace TftpHpa

open Channel (Discipline)
open Transition (run)

/-! ### Sessions -/

/-- The call has come to the end of its transfer, and this is the status. -/
def Put.Returns (s : Put) (status : ℕ) : Prop :=
  ∃ optack x res, s.pc = .sending optack x ∧ x.pc = .done res ∧ sendfileStatus res.status = status

/-- The same, with what is in the file. `TFTP_XFER_SIZE_EXCEEDED` is not among the ends: the client
has no limit, so that this takes more bytes than can be counted. -/
def Download.Returns (s : Download) (content : Bytes) (status : ℕ) : Prop :=
  ∃ optack args y res, s.pc = .receiving optack args y ∧ y.recv.pc = .done res ∧ res.status ≠ .sizeExceeded ∧
    recvfileStatus res.status = status ∧ y.io.file.written = content

/-- When `tftp_sendfile` returns 0, its transfer has succeeded. -/
theorem Put.Returns.done {d : Discipline} {a : PutArgs} {t : List (Peers.Label PutLabel WriteLabel Packet WriteEnv)}
    {w : Peers.World Put WriteWorker Packet} (hrun : run ((uploadSystem a).step d) { client := a.init } t = some w)
    (h : w.client.Returns 0) : w.client.Done := by
  obtain ⟨optack, x, res, hpc, hdone, hstatus⟩ := h
  have hreports : w.client.pc.Reports := Peers.System.client_invariant (fun s : Put => s.pc.Reports) (c := a.init)
    trivial (fun _ _ _ h hs => Put.step_reports h hs) hrun
  rw [hpc, PutPc.Reports, hdone] at hreports
  exact ⟨optack, x, res, hpc, hdone, hreports hstatus⟩

/-- When `tftp_recvfile` returns 0, so has its transfer. -/
theorem Download.Returns.has {d : Discipline} {a : DownloadArgs}
    {t : List (Peers.Label GetLabel SendfileLabel Packet ReadEnv)} {w : Peers.World Download ReadWorker Packet}
    (hrun : run ((downloadSystem a).step d) { client := a.init } t = some w) {content : Bytes}
    (h : w.client.Returns content 0) : w.client.Has content := by
  obtain ⟨optack, args, y, res, hpc, hdone, hlimit, hstatus, hwritten⟩ := h
  have hreports : w.client.pc.Reports := by
    refine Peers.System.client_invariant (fun s : Download => s.pc.Reports) (c := a.init) trivial
      (fun s e s' h hs => ?_) hrun
    cases e with
    | run l => exact Download.step_reports h hs
    | nak p =>
      simp only [downloadSystem, Download.get, Option.ite_none_right_eq_some, Option.some.injEq] at hs
      exact hs.2 ▸ h
  rw [hpc, DownloadPc.Reports, hdone] at hreports
  exact ⟨optack, args, y, res, hpc, hdone, (hreports hstatus).resolve_right hlimit, hwritten⟩

/-- A run in which `tftp_sendfile` has sent a file with this content to `name` and returned success,
at a server whose files are shared. -/
structure SendSession (Loc : Type) [DecidableEq Loc] (name : Bytes) (pf : Format) (content : Bytes) where
  discipline : Discipline
  args : PutArgs
  config : ClientConfig
  peer : Socket
  stat : Option FileStat
  puts : args.Puts config peer stat name pf
  file_eq : args.file.rest = content
  options : AccessOptions
  umask : BitVec 9
  locate : Bytes → Loc
  disk : Disk Loc
  trace : List (SharedLabel Loc)
  shared : Shared Loc
  run_eq : run (Shared.step discipline args options umask locate) (Shared.init args disk) trace = some shared
  connects : ∀ l ∈ trace, l.fails = false
  numbered : ∀ i b u, shared.net.upload i = some (b, u) → Numbered discipline b.session args.stream
  returns : shared.net.client.Returns 0

/-- A run in which `tftp_recvfile` has received this content from `name` and returned success. -/
structure RecvSession (name : Bytes) (pf : Format) (content : Bytes) where
  discipline : Discipline
  args : DownloadArgs
  config : ClientConfig
  peer : Socket
  gets : args.Gets config peer name pf
  trace : List (Peers.Label GetLabel SendfileLabel Packet ReadEnv)
  world : Peers.World Download ReadWorker Packet
  run_eq : run ((downloadSystem args).step discipline) { client := args.init } trace = some world
  connects : ∀ l ∈ trace, l.fails = false
  numbered : ∀ j b f, world.worker j = some (.sending b f) → Numbered discipline b.session b.stream
  returns : world.client.Returns content 0

section

variable {Loc : Type} [DecidableEq Loc] {name content : Bytes} {pf : Format}

/-- The peer has put the content where the name led. -/
def SendSession.Stored (p : SendSession Loc name pf content) : Prop :=
  ∃ i, p.shared.net.addr = some i ∧
    p.shared.Stored p.discipline p.args p.options p.umask p.locate p.disk p.trace i content

theorem SendSession.stored (p : SendSession Loc name pf content) : p.Stored := by
  obtain ⟨i, b, u, haddr, hi, hdisk⟩ := (Shared.written_of_run p.puts p.run_eq p.connects p.numbered).1
    (p.returns.done (Shared.run_net p.run_eq))
  rw [p.file_eq] at hdisk
  exact ⟨i, haddr, Shared.stored_of_upload p.run_eq hi hdisk⟩

/-- The content is that of the file which the peer has opened. -/
def RecvSession.Copied (p : RecvSession name pf content) : Prop :=
  ∃ k b f, p.world.addr = some k ∧ p.world.worker k = some (.sending b f) ∧ b.file.rest = content

theorem RecvSession.copied (p : RecvSession name pf content) : p.Copied := by
  obtain ⟨k, b, f, haddr, hk, hcontent⟩ :=
    download_received p.gets p.run_eq p.connects p.numbered (p.returns.has p.run_eq)
  exact ⟨k, b, f, haddr, hk, hcontent.symm⟩

end

/-! ### Commands -/

variable {α : Type} {w : ClientSystem α} {c c' : Client α}

/-- The transfers that return success are sessions. `content` says what is in a local file after some
calls. -/
structure ClientSystem.Plays (w : ClientSystem α) (Loc : Type) [DecidableEq Loc]
    (content : List (Call α) → Bytes → Bytes) : Prop where
  send : ∀ calls addr file name mode, w.transfer calls .send addr file name mode = .returned 0 →
    ∃ pf : Format, mode = some pf.mode ∧ Nonempty (SendSession Loc name pf (content calls file))
  recv : ∀ calls addr file name mode, w.transfer calls .recv addr file name mode = .returned 0 →
    ∃ pf : Format, mode = some pf.mode ∧ Nonempty (RecvSession name pf
      (content (calls ++ [.transfer .recv (some addr) file name mode (.returned 0)]) file))

/-- A call that is in the log has been made. -/
theorem Client.Sound.transferred (h : c.Sound w) {way : Way} {serv : Option α} {file name : Bytes}
    {mode : Option Bytes} (hmem : .transfer way serv file name mode (.returned 0) ∈ c.calls) :
    ∃ before after addr, serv = some addr ∧
      c.calls = before ++ .transfer way serv file name mode (.returned 0) :: after ∧
      w.transfer before way addr file name mode = .returned 0 := by
  obtain ⟨before, after, hcalls⟩ := List.append_of_mem hmem
  have hresult := (h.directed before after way serv file name mode _ hcalls).result_eq
  cases serv with
  | none => cases hresult
  | some addr => exact ⟨before, after, addr, rfl, hcalls, hresult.symm⟩

/-- The file of a call is stored. -/
theorem ClientSystem.Plays.sent {Loc : Type} [DecidableEq Loc] {content : List (Call α) → Bytes → Bytes}
    (hplays : w.Plays Loc content) (h : c.Sound w) {serv : Option α} {file name : Bytes} {mode : Option Bytes}
    (hmem : .transfer .send serv file name mode (.returned 0) ∈ c.calls) :
    ∃ calls pf, calls <+: c.calls ∧ ∃ p : SendSession Loc name pf (content calls file), p.Stored := by
  obtain ⟨before, after, addr, rfl, hcalls, hresult⟩ := h.transferred hmem
  obtain ⟨pf, -, ⟨p⟩⟩ := hplays.send before addr file name mode hresult
  exact ⟨before, pf, ⟨_, hcalls.symm⟩, p, p.stored⟩

/-- The file of a call is a copy. -/
theorem ClientSystem.Plays.received {Loc : Type} [DecidableEq Loc] {content : List (Call α) → Bytes → Bytes}
    (hplays : w.Plays Loc content) (h : c.Sound w) {serv : Option α} {file name : Bytes} {mode : Option Bytes}
    (hmem : .transfer .recv serv file name mode (.returned 0) ∈ c.calls) :
    ∃ calls pf, calls <+: c.calls ∧ ∃ p : RecvSession name pf (content calls file), p.Copied := by
  obtain ⟨before, after, addr, rfl, hcalls, hresult⟩ := h.transferred hmem
  obtain ⟨pf, -, ⟨p⟩⟩ := hplays.recv before addr file name mode hresult
  exact ⟨_, pf, ⟨after, by rw [hcalls, List.append_assoc]; rfl⟩, p, p.copied⟩

theorem exists_sent_of_mem {serv : Option α} {targ arg : Bytes} {args : List Bytes} {blocks : List (List (Call α))}
    (h : List.Forall₂ (Sent serv targ) args blocks) (harg : arg ∈ args) :
    ∃ calls ∈ blocks, Sent serv targ arg calls := by
  induction h with
  | nil => cases harg
  | cons hsent _ ih =>
    rcases List.mem_cons.mp harg with rfl | harg
    · exact ⟨_, List.mem_cons_self, hsent⟩
    · obtain ⟨calls, hcalls, hsent⟩ := ih harg
      exact ⟨calls, List.mem_cons_of_mem _ hcalls, hsent⟩

theorem FetchedAll.exists_fetched {literal : Bool} {localDirectory : Option Bytes} {serv : Option α} {arg : Bytes}
    {args : List Bytes} {blocks : List (List (Call α))} (h : FetchedAll literal localDirectory serv args blocks)
    (harg : arg ∈ args) : ∃ serv', ∃ calls ∈ blocks, Fetched literal localDirectory serv' arg calls := by
  induction h with
  | nil => cases harg
  | cons hfetched _ ih =>
    rcases List.mem_cons.mp harg with rfl | harg
    · exact ⟨_, _, List.mem_cons_self, hfetched⟩
    · obtain ⟨serv', calls, hcalls, hfetched⟩ := ih harg
      exact ⟨serv', calls, List.mem_cons_of_mem _ hcalls, hfetched⟩

/-- Without failure a file has been fetched. -/
theorem Fetched.transfer_mem {literal : Bool} {localDirectory : Option Bytes} {serv : Option α} {arg : Bytes}
    {calls : List (Call α)} (h : Fetched literal localDirectory serv arg calls) (hok : firstFailure calls = 0)
    (hjump : ∀ call ∈ calls, call.jump = none) :
    ∃ addr mode, .transfer .recv (some addr) (localName localDirectory (tail (sourceName literal arg)).2)
      (tail (sourceName literal arg)).1 mode (.returned 0) ∈ calls := by
  cases h with
  | plain hnone hcalls =>
    rw [sourceName, hnone]
    obtain ⟨addr, mode, -, rfl⟩ := hcalls.eq_of_ok hok hjump
    exact ⟨addr, mode, by simp⟩
  | unresolved => cases hok
  | @resolved host src _ calls hsome hcalls =>
    rw [sourceName, hsome]
    obtain ⟨addr, mode, -, rfl⟩ := hcalls.eq_of_ok (@firstFailure_append_eq_zero _ [_] _ hok).2
      (List.forall_mem_cons.mp hjump).2
    exact ⟨addr, mode, by simp⟩

/-- When a command succeeds, so does every part of it. -/
theorem Ended.ok_of_subset {calls part : List (Call α)} {rest : List Bytes} (h : Ended c 0 calls rest (.ok (c', 0)))
    (hpart : part ⊆ calls) : firstFailure part = 0 ∧ (∀ call ∈ part, call.jump = none) ∧ part ⊆ c'.calls := by
  obtain ⟨-, hext, hjump, hstatus⟩ := h.of_ok
  refine ⟨firstFailure_eq_zero_iff.mpr fun call hcall => firstFailure_eq_zero_iff.mp hstatus.symm call (hpart hcall),
    fun call hcall => hjump call (hpart hcall), ?_⟩
  rw [hext.calls_eq]
  exact fun call hcall => List.mem_append_right _ (hpart hcall)

section

variable {Loc : Type} [DecidableEq Loc] {content : List (Call α) → Bytes → Bytes} {config : ClientConfig}
  {literal : Bool} {lines : List (Bytes × Option Bytes)} {argv : List Bytes}

/-- A system in which a file of one byte can be sent to `d/foo` and fetched from `foo`. -/
def oneByteSystem : ClientSystem ℕ where
  getaddrinfo _ host _ := if host = cstr "good" then .ok 1 else .error .other
  opens _ _ _ := true
  transfer _ way _ _ name mode :=
    if name = (if way = .send then cstr "d/foo" else cstr "foo") ∧ mode = some Format.octet.mode then .returned 0
    else .returned Sysexits.EX_PROTOCOL

/-- Whether the call has returned success with this in the file. -/
def Download.fetched (content : Bytes) (s : Download) : Bool :=
  match s.pc with
  | .receiving _ _ ⟨{ pc := .done { status := .ok, .. }, .. }, io, _⟩ => io.file.written = content
  | _ => false

theorem sendSession_foo : Nonempty (SendSession Unit (cstr "d/foo") .octet [65]) := by
  have hwhole : (run (Shared.step .unordered (putAs (cstr "d/foo")) { cancreate := true, dirs := [] } 0 fun _ => ())
      (Shared.init (putAs (cstr "d/foo")) fooDisk) (sendFoo (putAs (cstr "d/foo")))).any (fun x =>
        (x.net.lines.all fun line => line.worker.fewBlocks (putAs (cstr "d/foo"))) && x.net.client.done) = true := by
    decide +kernel
  obtain ⟨x, hrun, hx⟩ := (Option.any_eq_true _ _).mp hwhole
  obtain ⟨hfew, hdone⟩ := Bool.and_eq_true_iff.mp hx
  refine ⟨⟨_, _, { noOptions := true }, {}, none, ⟨rfl, fun s hs => (by cases hs), by decide, rfl⟩, rfl, _, _, _, _, _,
    x, hrun, by decide, fun j b u hj => .inl (fewBlocks_of_upload hfew hj), ?_⟩⟩
  unfold Put.done at hdone
  split at hdone
  · next hpc => exact ⟨_, _, _, hpc, rfl, rfl⟩
  · cases hdone

theorem recvSession_foo : Nonempty (RecvSession (cstr "foo") .octet [65]) := by
  have hwhole : (run ((downloadSystem downloadFoo).step .unordered) { client := downloadFoo.init } fetchFoo).any
      (fun w => (w.lines.all fun line => line.worker.fewBlocks) && w.client.fetched [65]) = true := by
    decide +kernel
  obtain ⟨x, hrun, hx⟩ := (Option.any_eq_true _ _).mp hwhole
  obtain ⟨hfew, hfetched⟩ := Bool.and_eq_true_iff.mp hx
  refine ⟨⟨_, _, { noOptions := true }, {}, ⟨rfl, by decide, rfl⟩, _, x, hrun, by decide,
    fun j b f hj => .inl (fewBlocks_of_sending hfew hj), ?_⟩⟩
  unfold Download.fetched at hfetched
  split at hfetched
  · next hpc => exact ⟨_, _, _, _, hpc, rfl, XferStatus.noConfusion, rfl, of_decide_eq_true hfetched⟩
  · cases hfetched

/-- It plays its transfers out. -/
theorem oneByteSystem_plays : oneByteSystem.Plays Unit fun _ _ => [65] where
  send calls addr file name mode h := by
    simp only [oneByteSystem, if_true, ite_eq_left_iff] at h
    obtain ⟨rfl, rfl⟩ := not_imp_comm.mp h (by decide)
    exact ⟨.octet, rfl, sendSession_foo⟩
  recv calls addr file name mode h := by
    simp only [oneByteSystem, reduceCtorEq, if_false, ite_eq_left_iff] at h
    obtain ⟨rfl, rfl⟩ := not_imp_comm.mp h (by decide)
    exact ⟨.octet, rfl, recvSession_foo⟩

end

end TftpHpa
