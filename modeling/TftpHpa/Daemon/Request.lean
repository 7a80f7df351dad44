import TftpHpa.Daemon.Negotiate

/-! A request as the server takes it (`tftp`): the strings of the datagram are read one
by one, file name, mode and pairs of options, then the name is mapped, the file
opened and the options negotiated. What the mapping and the opening do is a matter
of the two function pointers of the transfer mode. -/

namespace TftpHpa

/-- The entries of `formats`. -/
inductive Format where
  | netascii | octet
  deriving DecidableEq

namespace Format

def all : List Format := [netascii, octet]

def mode : Format → Bytes
  | netascii => cstr "netascii"
  | octet => cstr "octet"

/-- `f_convert`. -/
def convert : Format → Bool
  | netascii => true
  | octet => false

end Format

/-- How a request can end without a transfer: with an ERROR packet or silently. -/
inductive Refusal where
  | nak (error : ℤ) (msg : Option Bytes)
  | exit (status : ℤ)

/-- `nak` with a TFTP error and a text. -/
def Refusal.text (error : ErrorCode) (msg : String) : Refusal := .nak error.code (some (cstr msg))

/-- What opening a file leaves in the static variable `tsize`. -/
structure OpenedFile where
  tsizeMode : TsizeMode
  size : ℕ
  size_le : size ≤ OFF_T_MAX

/-- `f_rewrite` and `f_validate`. The mapping may open the file on its own. -/
structure Handlers where
  rewrite : Format → Bytes → UInt16 → AddressFamily → Except (Option Bytes) (Bytes × Option OpenedFile)
  validate : Bytes → UInt16 → Format → Except Refusal OpenedFile

/-! ### The strings of a request -/

/-- What has been read of the request. -/
structure RequestArgs where
  argn : ℕ := 0
  filename : Bytes := []
  format : Option Format := none
  opt : Bytes := []
  opts : OptionTable

/-- The next string of the request is complete. -/
def RequestArgs.argument (r : RequestArgs) (s : Bytes) : Except Refusal RequestArgs :=
  let argn := r.argn + 1
  if argn = 1 then .ok { r with argn, filename := s }
  else if argn = 2 then
    match Format.all.find? fun f => asciiStrcaseeq f.mode s with
    | none => .error (.text .badOp "unknown mode")
    | some f => .ok { r with argn, format := some f }
  else if argn &&& 1 = 1 then .ok { r with argn, opt := s }
  else .ok { r with argn, opts := parseOption r.opts r.opt s }

/-- The loop over the request, `cur` being what has been read of the current string.
It ends at the end of the datagram or at an empty string. -/
def scanArgs (r : RequestArgs) (cur : Bytes) : Bytes → Except Refusal RequestArgs
  | [] => if cur = [] then .ok r else .error (.text .badOp "request not null-terminated")
  | c :: rest =>
    if c = 0 then
      if cur = [] then .ok r
      else match r.argument cur with
        | .error e => .error e
        | .ok r => scanArgs r [] rest
    else scanArgs r (cur ++ [c]) rest

theorem scanArgs_string {s : Bytes} (hs : (0 : UInt8) ∉ s) (r : RequestArgs) (cur rest : Bytes)
    (hne : cur ++ s ≠ []) :
    scanArgs r cur (s ++ 0 :: rest) = (r.argument (cur ++ s)).bind fun r => scanArgs r [] rest := by
  induction s generalizing cur with
  | nil =>
    rw [List.append_nil] at hne ⊢
    rw [List.nil_append, scanArgs, if_pos rfl, if_neg hne]
    cases r.argument cur <;> rfl
  | cons c s ih =>
    rw [List.mem_cons, not_or] at hs
    have hcons : cur ++ c :: s = (cur ++ [c]) ++ s := by simp
    rw [List.cons_append, scanArgs, if_neg (Ne.symm hs.1), hcons]
    exact ih hs.2 (cur ++ [c]) (hcons ▸ hne)

/-! ### The request -/

/-- A request that has been accepted, with what the transfer is started with. -/
structure AcceptedRequest where
  format : Format
  filename : Bytes
  uploadLimit : ℕ
  daemon : Daemon
  oack : Option Packet

/-- The limit for an upload: the configured one, or the size the client announces. -/
def uploadLimit (c : DaemonConfig) (isRead : Bool) (opts : OptionTable) : Except Refusal ℕ :=
  if isRead then .ok 0
  else match optRequested opts .tsize with
    | none => .ok c.maxUpload
    | some ts =>
      if c.maxUpload < ts.uint then .error (.text .access "upload exceeds maximum size") else .ok ts.uint

/-- Map the name and open the file. -/
def Handlers.openFile (h : Handlers) (pf : Format) (origfilename : Bytes) (opcode : UInt16) (af : AddressFamily) :
    Except Refusal OpenedFile :=
  match h.rewrite pf origfilename opcode af with
  | .error msg => .error (.nak ErrorCode.access.code msg)
  | .ok (_, some file) => .ok file
  | .ok (filename, none) => h.validate filename opcode pf

/-- The static variables when the options are negotiated. -/
def Daemon.start (c : DaemonConfig) (opts : OptionTable) (file : OpenedFile) : Daemon where
  opts := opts
  tsizeMode := file.tsizeMode
  tsizeSize := file.size
  timeout := c.xopt.rexmtval
  rexmtval := c.xopt.rexmtval
  maxtimeout := c.xopt.rexmtval * TIMEOUT_LIMIT

/-- `tftp`, up to the start of the transfer. -/
def tftp (c : DaemonConfig) (peer : Socket) (h : Handlers) (tp : Packet) : Except Refusal AcceptedRequest := do
  let isRead : Bool := tp.opcode = Opcode.rrq.code
  if c.readonly && !isRead then throw (.text .access "server is readonly")
  let args ← scanArgs { opts := c.optionTable } [] (tp.drop 2)
  match args.format with
  | none => throw (.text .badOp "missing mode")
  | some pf =>
    let limit ← uploadLimit c isRead args.opts
    let file ← h.openFile pf args.filename tp.opcode peer.family
    let (daemon, oack) := negotiateOptions c peer (.start c args.opts file)
    return { format := pf, filename := args.filename, uploadLimit := limit, daemon, oack }

/-- What an accepted request went through. -/
theorem tftp_eq_ok {c : DaemonConfig} {peer : Socket} {h : Handlers} {tp : Packet} {r : AcceptedRequest}
    (hr : tftp c peer h tp = .ok r) :
    ∃ (args : RequestArgs) (file : OpenedFile),
      scanArgs { opts := c.optionTable } [] (tp.drop 2) = .ok args ∧
      args.format = some r.format ∧
      uploadLimit c (tp.opcode = Opcode.rrq.code) args.opts = .ok r.uploadLimit ∧
      h.openFile r.format args.filename tp.opcode peer.family = .ok file ∧
      negotiateOptions c peer (.start c args.opts file) = (r.daemon, r.oack) := by
  simp only [tftp, bind, Except.bind, pure, Except.pure, throw, throwThe, MonadExceptOf.throw] at hr
  split at hr
  · cases hr
  · split at hr
    · cases hr
    · rename_i args hargs
      split at hr
      · cases hr
      · rename_i pf hpf
        split at hr
        · cases hr
        · rename_i limit hlimit
          split at hr
          · cases hr
          · rename_i file hfile
            obtain rfl := Except.ok.inj hr
            exact ⟨args, file, hargs, hpf, hlimit, hfile, rfl⟩

/-! ### The sizes a transfer starts with -/

/-- What the transfer relies on. -/
structure Daemon.Usable (pthread : Bool) (d : Daemon) : Prop where
  segsize_ge : MIN_SEGSIZE ≤ d.segsize
  segsize_le : d.segsize ≤ MAX_SEGSIZE
  windowsize_pos : 1 ≤ d.windowsize
  windowsize_le : d.windowsize ≤ 32768
  slots : ∃ n, ioRingSlots pthread d = some n ∧ d.windowsize ≤ n ∧ 0 < n
  segsize_default : optGranted (d.opts .blksize) = false → optGranted (d.opts .blksize2) = false →
    d.segsize = SEGSIZE
  windowsize_default : optGranted (d.opts .windowsize) = false → d.windowsize = 1

/-- There is a slot for each packet of the window. -/
theorem le_ioRingSlots {d : Daemon} (pthread : Bool) (hs : d.segsize ≠ 0) :
    ∃ n, ioRingSlots pthread d = some n ∧ d.windowsize ≤ n := by
  cases pthread with
  | true => exact ⟨_, by rw [ioRingSlots, if_pos rfl, if_neg hs], by omega⟩
  | false => exact ⟨_, rfl, le_rfl⟩

theorem Negotiated.usable {d d' : Daemon} (h : Negotiated d d') (pthread : Bool) : d'.Usable pthread where
  segsize_ge := h.segsize_ge
  segsize_le := h.segsize_le
  windowsize_pos := h.windowsize_pos
  windowsize_le := h.windowsize_le
  slots := by
    obtain ⟨n, hn, hle⟩ := le_ioRingSlots (d := d') pthread (lt_of_lt_of_le (by decide) h.segsize_ge).ne'
    exact ⟨n, hn, hle, h.windowsize_pos.trans hle⟩
  segsize_default := h.segsize_default
  windowsize_default := h.windowsize_default

/-- A transfer is started with usable sizes unless the server rejects all options: then
negotiation returns before it has set even the defaults. -/
theorem usable_iff_not_rejectAll {c : DaemonConfig} {peer : Socket} {h : Handlers} {tp : Packet}
    {r : AcceptedRequest} (pthread : Bool) (hr : tftp c peer h tp = .ok r) :
    r.daemon.Usable pthread ↔ c.rejectAllOptions = false := by
  obtain ⟨args, file, -, -, -, -, hn⟩ := tftp_eq_ok hr
  constructor
  · intro hu
    cases hc : c.rejectAllOptions with
    | false => rfl
    | true =>
      have hd : r.daemon = .start c args.opts file := by
        rw [negotiateOptions, if_pos hc] at hn
        exact (congrArg Prod.fst hn).symm
      exact absurd hu.windowsize_pos (by rw [hd]; exact Nat.not_succ_le_zero 0)
  · intro hc
    have hd := (negotiateOptions_negotiated hc peer (.start c args.opts file)).1
    rw [hn] at hd
    exact hd.usable pthread

/-- A server without files of its own: every name is taken for an empty file. -/
def Handlers.empty : Handlers where
  rewrite _ filename _ _ := .ok (filename, none)
  validate _ _ _ := .ok { tsizeMode := .read, size := 0, size_le := by decide }

/-- A read request for the file `foo`. -/
def readFoo : Packet := htons Opcode.rrq.code ++ cstr "foo" ++ [0] ++ cstr "octet" ++ [0]

/-- With `--reject-all` both sizes stay zero, and `io_ring_slots` divides by zero. -/
theorem rejectAll_divides_by_zero :
    ∃ r, tftp { rejectAllOptions := true } { family := .inet, mtu := none } .empty readFoo = .ok r ∧
      r.daemon.segsize = 0 ∧ r.daemon.windowsize = 0 ∧ ioRingSlots true r.daemon = none ∧
      ¬ r.daemon.Usable true := by
  refine ⟨_, rfl, rfl, rfl, rfl, ?_⟩
  intro hu
  exact absurd hu.windowsize_pos (by decide)

/-- Without it the same request is answered with the default sizes. -/
theorem usable_iff_not_rejectAll_foo :
    ∃ r, tftp {} { family := .inet, mtu := none } .empty readFoo = .ok r ∧ r.daemon.Usable true := by
  obtain ⟨r, hr⟩ : ∃ r, tftp {} { family := .inet, mtu := none } .empty readFoo = .ok r := ⟨_, rfl⟩
  exact ⟨r, hr, (usable_iff_not_rejectAll true hr).mpr rfl⟩

end TftpHpa
