import TftpHpa.Client.Request

/-! The settings of the client (`tftp/main.c`): the options of the command line and the
commands that change them. -/

namespace TftpHpa

def EX_USAGE : ℕ := 64

/-! ### Transfer modes -/

/-- The entries of `modes`, with the one that ends the table. -/
inductive Mode where
  | netascii | ascii | octet | binary | image | sentinel
  deriving DecidableEq

namespace Mode

def modes : List Mode := [netascii, ascii, octet, binary, image, sentinel]

/-- `m_name`. -/
def name : Mode → Option Bytes
  | netascii => some (cstr "netascii")
  | ascii => some (cstr "ascii")
  | octet => some (cstr "octet")
  | binary => some (cstr "binary")
  | image => some (cstr "image")
  | sentinel => none

/-- `m_mode`. -/
def mode : Mode → Option Bytes
  | netascii | ascii => some (cstr "netascii")
  | octet | binary | image => some (cstr "octet")
  | sentinel => none

/-- The entry where the search for a name ends: one with this name, or the one without a
name, so that the table is never left. -/
def lookup (arg : Bytes) : Mode := (modes.find? fun p => p.name.all (· = arg)).getD sentinel

end Mode

/-! ### Settings -/

/-- The fields of `copt` that requests depend on, and `xopt`. -/
structure ClientConfig where
  mode : Mode := .octet
  tsize : Bool := true
  noOptions : Bool := false
  xopt : CommonOptions := .clientDefault

/-- `settftpmode`, where nothing stands for `NULL`. -/
def settftpmode (c : ClientConfig) (newmode : Option Mode) : ClientConfig × ℕ :=
  match newmode with
  | none => (c, EX_USAGE)
  | some mode => ({ c with mode }, 0)

/-- The command line options that change them. -/
inductive ClientArg where
  | binary | ascii | noTsize | noOptions
  | mode (arg : Bytes)
  | blocksize (arg : Bytes)
  | windowsize (arg : Bytes)

/-- One option of the command line; `.error` is the status that `main` exits with. -/
def ClientConfig.set (c : ClientConfig) : ClientArg → Except ℕ ClientConfig
  | .binary => .ok (settftpmode c (some .octet)).1
  | .ascii => .ok (settftpmode c (some .netascii)).1
  | .noTsize => .ok { c with tsize := false }
  | .noOptions => .ok { c with noOptions := true }
  | .mode arg =>
    let (c, status) := settftpmode c (some (Mode.lookup arg))
    if status ≠ 0 then .error EX_USAGE else .ok c
  | .blocksize arg =>
    match c.xopt.setBlksize MIN_SEGSIZE arg with
    | none => .error EX_USAGE
    | some xopt => .ok { c with xopt }
  | .windowsize arg =>
    match c.xopt.setWindowsize 1 arg with
    | none => .error EX_USAGE
    | some xopt => .ok { c with xopt }

/-! ### Commands -/

def MARGVSIZE : ℕ := 20

/-- `makeargv`. -/
def makeargv (str : Bytes) : List Bytes := ((str.splitOnP isspace).filter (· ≠ [])).take (MARGVSIZE - 1)

/-- The line with the arguments that are missing; nothing is the end of the input, where
`getmoreargs` exits. -/
def getmoreargs (start : Bytes) (argv : List Bytes) (reply : Option Bytes) : Option (List Bytes) :=
  if argv.length < 2 then reply.map fun line => makeargv (start ++ line) else some argv

/-- `modecmd`: the new settings and the status. -/
def modecmd (c : ClientConfig) (argv : List Bytes) : ClientConfig × ℕ :=
  if argv.length < 2 then (c, 0)
  else if argv.length = 2 then
    let (c, status) := settftpmode c (some (Mode.lookup (argv.getD 1 [])))
    if status = 0 then (c, 0) else (c, EX_USAGE)
  else (c, EX_USAGE)

def setbinary (c : ClientConfig) : ClientConfig × ℕ := settftpmode c (some .octet)

def setascii (c : ClientConfig) : ClientConfig × ℕ := settftpmode c (some .netascii)

def settsize (c : ClientConfig) : ClientConfig × ℕ := ({ c with tsize := !c.tsize }, 0)

def setoptions (c : ClientConfig) : ClientConfig × ℕ := ({ c with noOptions := !c.noOptions }, 0)

/-- What `setblocksize` and `setwindowsize` do with their argument. -/
def setXopt (c : ClientConfig) (argv : List Bytes) (parse : Bytes → Option CommonOptions) : ClientConfig × ℕ :=
  if argv.length ≠ 2 then (c, EX_USAGE)
  else match parse (argv.getD 1 []) with
    | none => (c, EX_USAGE)
    | some xopt => ({ c with xopt }, 0)

def setblocksize (c : ClientConfig) (argv : List Bytes) (reply : Option Bytes) : Option (ClientConfig × ℕ) :=
  (getmoreargs (cstr "blocksize ") argv reply).map fun argv => setXopt c argv (c.xopt.setBlksize MIN_SEGSIZE)

def setwindowsize (c : ClientConfig) (argv : List Bytes) (reply : Option Bytes) : Option (ClientConfig × ℕ) :=
  (getmoreargs (cstr "windowsize ") argv reply).map fun argv => setXopt c argv (c.xopt.setWindowsize 1)

/-- The functions of the command table. -/
inductive Handler where
  | setpeer | modecmd | put | mput | get | mget | quit | setverbose | settrace | setliteral | status | setbinary
  | setascii | setblocksize | setrexmt | settimeout | settsize | setwindowsize | setoptions | help
  deriving DecidableEq

/-- `cmdtab`. -/
def cmdtab : List (Bytes × Handler) :=
  [(cstr "c[onnect]", .setpeer), (cstr "m[ode]", .modecmd), (cstr "p[ut]", .put), (cstr "mp[ut]", .mput),
    (cstr "g[et]", .get), (cstr "mg[et]", .mget), (cstr "q[uit]", .quit), (cstr "v[erbose]", .setverbose),
    (cstr "tr[ace]", .settrace), (cstr "l[iteral]", .setliteral), (cstr "st[atus]", .status),
    (cstr "b[inary]", .setbinary), (cstr "a[scii]", .setascii), (cstr "bl[ocksize]", .setblocksize),
    (cstr "r[exmt]", .setrexmt), (cstr "ti[meout]", .settimeout), (cstr "tsi[ze]", .settsize),
    (cstr "win[dowsize]", .setwindowsize), (cstr "opt[ions]", .setoptions), (cstr "?", .help), (cstr "h[elp]", .help)]

/-- The loop of `getcmd` over the characters of an entry: whether it is the command, and how many
characters have been found in it. What stands in brackets may be left out, from anywhere on. The
client never sets a locale, so that `tolower` is that of ASCII. -/
def getcmdScan : Bytes → Bytes → Bool → ℕ → Bool × ℕ
  | p, [], _, metric => (p = [], metric)
  | p, q :: qs, ok, metric =>
    if q = 93 then (p = [], metric)
    else if q = 91 then getcmdScan p qs true metric
    else match p with
      | [] => (ok, metric)
      | c :: p => if asciiTolower c ≠ q then (false, metric) else getcmdScan p qs ok (metric + 1)

/-- The loop over the table; an error is the suggestion. -/
def getcmdLoop (name : Bytes) :
    Bytes × Handler → ℤ → List (Bytes × Handler) → Except (Bytes × Handler) (Bytes × Handler)
  | best, _, [] => .error best
  | best, bestMetric, cmd :: cmds =>
    let (ok, metric) := getcmdScan name cmd.1 false 0
    if ok then .ok cmd
    else if bestMetric < metric then getcmdLoop name cmd metric cmds
    else getcmdLoop name best bestMetric cmds

/-- `getcmd` with a given table. -/
def getcmdIn (table : List (Bytes × Handler)) (name : Bytes) : Except (Bytes × Handler) (Bytes × Handler) :=
  getcmdLoop name (table.headD ([], .help)) (-1) table

/-- The command that `getcmd` finds. -/
def getcmd (name : Bytes) : Option Handler := (getcmdIn cmdtab name).toOption.map Prod.snd

/-- A command with its arguments; nothing if the client exits. Those without a case do not
change the settings. -/
def ClientConfig.handle (c : ClientConfig) (argv : List Bytes) (reply : Option Bytes) : Handler → Option ClientConfig
  | .modecmd => some (TftpHpa.modecmd c argv).1
  | .setbinary => some (TftpHpa.setbinary c).1
  | .setascii => some (TftpHpa.setascii c).1
  | .settsize => some (TftpHpa.settsize c).1
  | .setoptions => some (TftpHpa.setoptions c).1
  | .setblocksize => (TftpHpa.setblocksize c argv reply).map Prod.fst
  | .setwindowsize => (TftpHpa.setwindowsize c argv reply).map Prod.fst
  | .quit => none
  | _ => some c

/-- What a user enters: an option of the command line, or a line with a command and the answer
to the question for its arguments. -/
inductive ClientInput where
  | option (arg : ClientArg)
  | command (line : Bytes) (reply : Option Bytes)

/-- The command that a line stands for, if it is one. -/
def commandOf (line : Bytes) : Option Handler := (makeargv line).head?.bind getcmd

/-- The settings after an input, unless the client has exited. -/
def ClientConfig.input (c : ClientConfig) : ClientInput → Option ClientConfig
  | .option arg => (c.set arg).toOption
  | .command line reply =>
    match commandOf line with
    | none => some c
    | some h => c.handle (makeargv line) reply h

/-- The settings after all of them. -/
def ClientConfig.run (c : ClientConfig) (is : List ClientInput) : Option ClientConfig := is.foldlM ClientConfig.input c

/-! ### What an input does -/

namespace ClientInput

/-- The name of a mode that an input asks for. -/
def modeName : ClientInput → Option Bytes
  | option (.mode name) => some name
  | option _ => none
  | command line _ =>
    if commandOf line = some .modecmd ∧ (makeargv line).length = 2 then (makeargv line)[1]? else none

/-- Whether the `tsize` option is on after an input. -/
def tsizeAfter (on : Bool) : ClientInput → Bool
  | option .noTsize => false
  | option _ => on
  | command line _ => if commandOf line = some .settsize then !on else on

/-- Whether options are disabled after an input. -/
def noOptionsAfter (off : Bool) : ClientInput → Bool
  | option .noOptions => true
  | option _ => off
  | command line _ => if commandOf line = some .setoptions then !off else off

end ClientInput

theorem setXopt_fst (c : ClientConfig) (argv : List Bytes) (parse : Bytes → Option CommonOptions) :
    ∃ xopt, (setXopt c argv parse).1 = { c with xopt } := by
  unfold setXopt
  split_ifs
  · exact ⟨c.xopt, rfl⟩
  · cases parse (argv.getD 1 []) with
    | none => exact ⟨c.xopt, rfl⟩
    | some xopt => exact ⟨xopt, rfl⟩

section

variable {c c' : ClientConfig} {i : ClientInput}

/-- A mode that is asked for by name is set, whatever the search has found. -/
theorem modecmd_eq {argv : List Bytes} {name : Bytes} (hlen : argv.length = 2) (harg : argv[1]? = some name) :
    modecmd c argv = ({ c with mode := Mode.lookup name }, 0) := by
  have hget : argv.getD 1 [] = name := by rw [List.getD_eq_getElem?_getD, harg, Option.getD_some]
  rw [modecmd, if_neg (by omega), if_pos hlen, hget]
  rfl

theorem modecmd_fst_of_length {argv : List Bytes} (hlen : argv.length ≠ 2) : (modecmd c argv).1 = c := by
  rw [modecmd, if_neg hlen]
  split_ifs <;> rfl

theorem ClientConfig.input_modeName {name : Bytes} (h : i.modeName = some name) :
    c.input i = some { c with mode := Mode.lookup name } := by
  cases i with
  | option arg =>
    cases arg with
    | mode arg =>
      obtain rfl := Option.some.inj h
      rfl
    | _ => cases h
  | command line reply =>
    simp only [ClientInput.modeName] at h
    split_ifs at h with hmode
    simp only [input, hmode.1, handle, modecmd_eq hmode.2 h]

/-- An option with a size changes nothing else. -/
theorem ClientConfig.eq_of_parsed {parsed : Option CommonOptions}
    (hi : Except.toOption (match parsed with
      | none => .error EX_USAGE
      | some xopt => .ok { c with xopt }) = some c') : ∃ xopt, c' = { c with xopt } := by
  cases parsed with
  | none => cases hi
  | some xopt => exact ⟨xopt, (Option.some.inj hi).symm⟩

/-- What an input does to the settings, apart from the sizes. -/
theorem ClientConfig.input_eq (hi : c.input i = some c') :
    c'.tsize = i.tsizeAfter c.tsize ∧ c'.noOptions = i.noOptionsAfter c.noOptions ∧
      (i.modeName = none → c'.mode = c.mode ∨ c'.mode = .octet ∨ c'.mode = .netascii) := by
  cases i with
  | option arg =>
    simp only [input] at hi
    cases arg with
    | binary =>
      obtain rfl := Option.some.inj hi
      exact ⟨rfl, rfl, fun _ => .inr (.inl rfl)⟩
    | ascii =>
      obtain rfl := Option.some.inj hi
      exact ⟨rfl, rfl, fun _ => .inr (.inr rfl)⟩
    | noTsize | noOptions =>
      obtain rfl := Option.some.inj hi
      exact ⟨rfl, rfl, fun _ => .inl rfl⟩
    | mode arg =>
      obtain rfl := Option.some.inj hi
      exact ⟨rfl, rfl, fun h => by cases h⟩
    | blocksize arg | windowsize arg =>
      obtain ⟨xopt, rfl⟩ := eq_of_parsed hi
      exact ⟨rfl, rfl, fun _ => .inl rfl⟩
  | command line reply =>
    simp only [input] at hi
    cases hcmd : commandOf line with
    | none =>
      rw [hcmd] at hi
      obtain rfl := Option.some.inj hi
      simp [ClientInput.tsizeAfter, ClientInput.noOptionsAfter, hcmd]
    | some h =>
      rw [hcmd] at hi
      simp only [ClientInput.tsizeAfter, ClientInput.noOptionsAfter, hcmd, Option.some.injEq]
      cases h with
      | modecmd =>
        obtain rfl := Option.some.inj hi
        by_cases hlen : (makeargv line).length = 2
        · have harg : (makeargv line)[1]? = some (makeargv line)[1] := List.getElem?_eq_getElem (by omega)
          rw [modecmd_eq hlen harg]
          refine ⟨rfl, rfl, fun h => ?_⟩
          rw [ClientInput.modeName, if_pos ⟨hcmd, hlen⟩, harg] at h
          cases h
        · rw [modecmd_fst_of_length hlen]
          exact ⟨rfl, rfl, fun _ => .inl rfl⟩
      | setbinary =>
        obtain rfl := Option.some.inj hi
        exact ⟨rfl, rfl, fun _ => .inr (.inl rfl)⟩
      | setascii =>
        obtain rfl := Option.some.inj hi
        exact ⟨rfl, rfl, fun _ => .inr (.inr rfl)⟩
      | setblocksize | setwindowsize =>
        obtain ⟨r, hr, rfl⟩ := Option.map_eq_some_iff.mp hi
        obtain ⟨argv, -, rfl⟩ := Option.map_eq_some_iff.mp hr
        obtain ⟨xopt, hxopt⟩ := setXopt_fst c argv _
        rw [hxopt]
        exact ⟨rfl, rfl, fun _ => .inl rfl⟩
      | quit => cases hi
      | _ =>
        obtain rfl := Option.some.inj hi
        exact ⟨rfl, rfl, fun _ => .inl rfl⟩

end

/-! ### The mode is a real one -/

/-- The name is one of the table. -/
def Mode.Known (name : Bytes) : Prop := ∃ m ∈ Mode.modes, m.name = some name

/-- An input is reported as wrong and nothing is changed. -/
def ClientConfig.Refuses (c : ClientConfig) : ClientInput → Prop
  | .option arg => c.set arg = .error EX_USAGE
  | .command line _ => modecmd c (makeargv line) = (c, EX_USAGE)

/-- What should hold of the mode when there is an input. -/
structure ClientConfig.KeepsMode (c : ClientConfig) (i : ClientInput) : Prop where
  real : ∀ c', c.input i = some c' → c'.mode ≠ .sentinel
  unknown : ∀ name, i.modeName = some name → ¬ Mode.Known name → c.Refuses i

/-- The settings that each input meets. -/
def ClientConfig.meets (c : ClientConfig) : List ClientInput → List (ClientConfig × ClientInput)
  | [] => []
  | i :: is => (c, i) :: (match c.input i with
    | none => []
    | some c' => c'.meets is)

theorem Mode.lookup_ne_sentinel {name : Bytes} : lookup name ≠ sentinel ↔ Known name := by
  constructor
  · intro h
    cases hfind : modes.find? fun p => p.name.all (· = name) with
    | none => exact absurd (show lookup name = sentinel by rw [lookup, hfind]; rfl) h
    | some m =>
      have hm : lookup name = m := by rw [lookup, hfind]; rfl
      rw [hm] at h
      refine ⟨m, List.mem_of_find?_eq_some hfind, ?_⟩
      have hname := List.find?_some hfind
      cases m with
      | sentinel => exact absurd rfl h
      | _ => exact congrArg some (of_decide_eq_true hname)
  · rintro ⟨m, -, hm⟩
    cases m with
    | sentinel => cases hm
    | _ =>
      obtain rfl := Option.some.inj hm
      decide

/-- A name is never refused. -/
theorem ClientConfig.not_refuses {c : ClientConfig} {i : ClientInput} {name : Bytes} (h : i.modeName = some name) :
    ¬ c.Refuses i := by
  cases i with
  | option arg =>
    cases arg with
    | mode arg => exact fun hr => by cases hr
    | _ => cases h
  | command line reply =>
    simp only [ClientInput.modeName] at h
    split_ifs at h with hmode
    rw [Refuses, modecmd_eq hmode.2 h]
    exact fun hr => absurd (congrArg Prod.snd hr) (show (0 : ℕ) ≠ EX_USAGE by decide)

/-- As long as no unknown mode is asked for the mode is a real one. -/
theorem ClientConfig.keepsMode_of_known {c : ClientConfig} (hc : c.mode ≠ .sentinel) {i : ClientInput}
    (hknown : ∀ name, i.modeName = some name → Mode.Known name) : c.KeepsMode i where
  real c' hi := by
    cases hname : i.modeName with
    | none =>
      rcases (input_eq hi).2.2 hname with h | h | h
      · rw [h]
        exact hc
      · rw [h]
        decide
      · rw [h]
        decide
    | some name =>
      rw [input_modeName hname, Option.some.injEq] at hi
      rw [← hi]
      exact Mode.lookup_ne_sentinel.mpr (hknown name hname)
  unknown name hname hunknown := absurd (hknown name hname) hunknown

theorem ClientConfig.known_of_keepsMode {c : ClientConfig} {i : ClientInput} (h : c.KeepsMode i) {name : Bytes}
    (hname : i.modeName = some name) : Mode.Known name := by
  by_contra hunknown
  exact not_refuses hname (h.unknown name hname hunknown)

theorem ClientConfig.meets_iff {c : ClientConfig} (hc : c.mode ≠ .sentinel) (is : List ClientInput) :
    (∀ p ∈ c.meets is, p.1.KeepsMode p.2) ↔ ∀ p ∈ c.meets is, ∀ name, p.2.modeName = some name → Mode.Known name := by
  constructor
  · exact fun h p hp name hname => known_of_keepsMode (h p hp) hname
  · intro h
    induction is generalizing c with
    | nil => simp [meets]
    | cons i is ih =>
      rw [meets, List.forall_mem_cons] at h ⊢
      have hkeeps : c.KeepsMode i := keepsMode_of_known hc h.1
      refine ⟨hkeeps, ?_⟩
      cases hi : c.input i with
      | none => simp
      | some c' =>
        rw [hi] at h
        exact ih (hkeeps.real c' hi) h.2

/-- From the defaults on the mode is always a real one, and unknown modes are refused,
exactly when no unknown mode is asked for. -/
theorem mode_kept_iff (is : List ClientInput) :
    (∀ p ∈ ClientConfig.meets {} is, p.1.KeepsMode p.2) ↔
      ∀ p ∈ ClientConfig.meets {} is, ∀ name, p.2.modeName = some name → Mode.Known name :=
  ClientConfig.meets_iff (by decide) is

/-- With `-m foo`, and with `mode foo`, the mode is the end of the table. -/
theorem unknown_mode_set :
    ClientConfig.set {} (.mode (cstr "foo")) = .ok { mode := .sentinel } ∧
      commandOf (cstr "mode foo") = some .modecmd ∧
      modecmd {} (makeargv (cstr "mode foo")) = ({ mode := .sentinel }, 0) := by
  refine ⟨rfl, ?_, ?_⟩
  · decide +kernel
  · rfl

end TftpHpa
