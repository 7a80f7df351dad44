import TftpHpa.Common.Options

/-! The server's settings and its table of protocol options: what a request asks for,
what is configured to be refused and what is granted. -/

namespace TftpHpa

/-! ### Protocol options -/

/-- `enum protocol_option_enum`. -/
inductive ProtocolOption where
  | blksize | blksize2 | cookie | rollover | timeout | tsize | utimeout | windowsize
  deriving DecidableEq, Repr

inductive Otype where
  | uint | str
  deriving DecidableEq

namespace ProtocolOption

/-- The order of the table. -/
def all : List ProtocolOption := [blksize, blksize2, cookie, rollover, timeout, tsize, utimeout, windowsize]

def name : ProtocolOption → Bytes
  | blksize => cstr "blksize"
  | blksize2 => cstr "blksize2"
  | cookie => cstr "cookie"
  | rollover => cstr "rollover"
  | timeout => cstr "timeout"
  | tsize => cstr "tsize"
  | utimeout => cstr "utimeout"
  | windowsize => cstr "windowsize"

/-- The size of the name with its NUL. -/
def nsize (o : ProtocolOption) : ℕ := o.name.length + 1

def otype : ProtocolOption → Otype
  | cookie => .str
  | _ => .uint

/-- The option a name stands for, in any case. -/
def ofName (s : Bytes) : Option ProtocolOption := all.find? fun o => asciiStrcaseeq o.name s

theorem mem_all (o : ProtocolOption) : o ∈ all := by
  cases o <;> decide

theorem zero_notMem_name (o : ProtocolOption) : (0 : UInt8) ∉ o.name := by
  cases o <;> decide

theorem name_ne_nil (o : ProtocolOption) : o.name ≠ [] := by
  cases o <;> decide

theorem ofName_name (o : ProtocolOption) : ofName o.name = some o := by
  cases o <;> decide

theorem name_injective : Function.Injective name := by
  intro a b h
  have hof := congrArg ofName h
  rwa [ofName_name, ofName_name, Option.some_inj] at hof

theorem name_eq_map (o : ProtocolOption) : o.name.map asciiTolower = o.name := by
  cases o <;> decide

theorem asciiStrcaseeq_name (o : ProtocolOption) {s : Bytes} (hs : (0 : UInt8) ∉ s) :
    asciiStrcaseeq o.name s = true ↔ s.map asciiTolower = o.name := by
  rw [asciiStrcaseeq_iff o.zero_notMem_name hs (by cases o <;> decide), name_eq_map, eq_comm]

/-- Names are looked up without regard to case. -/
theorem ofName_eq_some {s : Bytes} (hs : (0 : UInt8) ∉ s) {o : ProtocolOption} :
    ofName s = some o ↔ s.map asciiTolower = o.name := by
  have hsound : ∀ o', ofName s = some o' → s.map asciiTolower = o'.name := fun o' h =>
    (o'.asciiStrcaseeq_name hs).mp (List.find?_some (p := fun o : ProtocolOption => asciiStrcaseeq o.name s) h)
  constructor
  · exact hsound o
  · intro h
    have hsome : (ofName s).isSome = true :=
      List.find?_isSome.mpr ⟨o, o.mem_all, (o.asciiStrcaseeq_name hs).mpr h⟩
    obtain ⟨o', ho'⟩ := Option.isSome_iff_exists.mp hsome
    rw [ho', name_injective ((hsound o' ho').symm.trans h)]

end ProtocolOption

/-- `struct daemon_protocol_option`, with the three flags spelled out. -/
structure DaemonProtocolOption where
  refuse : Bool := false
  req : Bool := false
  ack : Bool := false
  clientName : Bytes := []
  uint : ℕ := 0
  str : Bytes := []
  dsize : ℕ := 0

abbrev OptionTable := ProtocolOption → DaemonProtocolOption

/-- `opt_requested`. -/
def optRequested (t : OptionTable) (o : ProtocolOption) : Option DaemonProtocolOption :=
  if (t o).req ∧ (t o).refuse = false then some (t o) else none

theorem optRequested_eq_some {t : OptionTable} {o : ProtocolOption} {po : DaemonProtocolOption} :
    optRequested t o = some po ↔ ((t o).req = true ∧ (t o).refuse = false) ∧ t o = po := by
  rw [optRequested, Option.ite_none_right_eq_some, Option.some.injEq]

theorem eq_of_optRequested {t : OptionTable} {o : ProtocolOption} {po : DaemonProtocolOption}
    (h : optRequested t o = some po) : po = t o := (optRequested_eq_some.mp h).2.symm

/-- `opt_granted`. -/
def optGranted (po : DaemonProtocolOption) : Bool := po.ack && po.req && !po.refuse

/-- `parse_option`. The client's spelling of the name is kept even when its value is
not a number. -/
def parseOption (t : OptionTable) (opt val : Bytes) : OptionTable :=
  if opt = [] ∨ val = [] then t
  else match ProtocolOption.ofName opt with
    | none => t
    | some o =>
      let po := { t o with clientName := opt }
      let saved := { po with str := val, dsize := (val.length + 1) % 2 ^ 16, req := true }
      match o.otype with
      | .str => Function.update t o saved
      | .uint =>
        let v := strtoumax val
        if asciiIsdigit (val.headD 0) = false ∨ v.rest ≠ [] ∨ v.erange then Function.update t o po
        else Function.update t o { saved with uint := v.value }

/-! ### What is recorded of a list of pairs -/

namespace ProtocolOption

/-- Whether a pair is about the option, in any case. -/
def names (o : ProtocolOption) (p : Bytes × Bytes) : Bool := p.1.map asciiTolower = o.name

/-- A value the server takes: a text, or a number of digits only that fits `uintmax_t`. -/
def valid (o : ProtocolOption) (val : Bytes) : Bool :=
  match o.otype with
  | .str => true
  | .uint => val.all Decimal.isDigit && Decimal.value val ≤ uintmaxMax

def records (o : ProtocolOption) (p : Bytes × Bytes) : Bool := o.names p && o.valid p.2

end ProtocolOption

/-- The option after a pair with a valid value. -/
def DaemonProtocolOption.saved (po : DaemonProtocolOption) (o : ProtocolOption) (p : Bytes × Bytes) :
    DaemonProtocolOption :=
  { po with
    req := true
    clientName := p.1
    uint := match o.otype with
      | .uint => Decimal.value p.2
      | .str => po.uint
    str := p.2
    dsize := (p.2.length + 1) % 2 ^ 16 }

/-- A number that starts with a digit is read up to its last digit. -/
theorem strtoumax_of_digit {c : UInt8} (cs : Bytes) (hc : Decimal.isDigit c = true) :
    (strtoumax (c :: cs)).rest = (c :: cs).dropWhile Decimal.isDigit ∧
      ((strtoumax (c :: cs)).erange = true ↔ uintmaxMax < Decimal.value ((c :: cs).takeWhile Decimal.isDigit)) ∧
      ((strtoumax (c :: cs)).erange = false →
        (strtoumax (c :: cs)).value = Decimal.value ((c :: cs).takeWhile Decimal.isDigit)) := by
  obtain ⟨hspace, hplus, hminus⟩ := plain_of_isDigit hc
  have hbody : (c :: cs).dropWhile isspace = c :: cs := List.dropWhile_cons_of_neg (by simp [hspace])
  have hne : (c :: cs).takeWhile Decimal.isDigit ≠ [] := by simp [hc]
  simp only [strtoumax, hbody, List.headD_cons, hplus, hminus, or_self, if_false, hne, decide_false,
    Bool.false_eq_true]
  split_ifs with hmax <;> simp [hmax]

/-- Digits are read to the end, and their number is the result unless it is too large. -/
theorem strtoumax_of_digits {s : Bytes} (hne : s ≠ []) (hdig : s.all Decimal.isDigit = true) :
    (strtoumax s).rest = [] ∧ ((strtoumax s).erange = true ↔ uintmaxMax < Decimal.value s) ∧
      ((strtoumax s).erange = false → (strtoumax s).value = Decimal.value s) := by
  rw [List.all_eq_true] at hdig
  obtain ⟨c, cs, rfl⟩ := List.exists_cons_of_ne_nil hne
  have hread := strtoumax_of_digit cs (hdig c (by simp))
  rwa [List.dropWhile_eq_nil_iff.mpr hdig, List.takeWhile_eq_self_iff.mpr hdig] at hread

/-- `strtoumax` takes the whole of a value, without an error, if it is valid. -/
theorem accepted_iff_valid {o : ProtocolOption} (ho : o.otype = .uint) {val : Bytes} (hne : val ≠ []) :
    (asciiIsdigit (val.headD 0) = false ∨ (strtoumax val).rest ≠ [] ∨ (strtoumax val).erange = true) ↔
      o.valid val = false := by
  have hvalid : o.valid val = (val.all Decimal.isDigit && Decimal.value val ≤ uintmaxMax) := by
    rw [ProtocolOption.valid, ho]
  rw [hvalid]
  by_cases hall : val.all Decimal.isDigit = true
  · obtain ⟨hrest, herange, -⟩ := strtoumax_of_digits hne hall
    have hhead : asciiIsdigit (val.headD 0) = true := by
      obtain ⟨c, cs, rfl⟩ := List.exists_cons_of_ne_nil hne
      exact List.all_eq_true.mp hall c (by simp)
    rw [hrest, herange, hhead, hall]
    simp
  · rw [Bool.not_eq_true] at hall
    rw [hall, Bool.false_and]
    refine iff_of_true ?_ rfl
    obtain ⟨c, cs, rfl⟩ := List.exists_cons_of_ne_nil hne
    cases hc : asciiIsdigit c with
    | false => exact .inl hc
    | true =>
      refine .inr (.inl ?_)
      rw [(strtoumax_of_digit cs hc).1]
      intro hdrop
      rw [List.all_eq_true.mpr (List.dropWhile_eq_nil_iff.mp hdrop)] at hall
      cases hall

theorem strtoumax_of_valid {o : ProtocolOption} (ho : o.otype = .uint) {val : Bytes} (hne : val ≠ [])
    (h : o.valid val = true) : (strtoumax val).value = Decimal.value val := by
  have haccept := mt (accepted_iff_valid ho hne).mp (by simp [h])
  push Not at haccept
  rw [ProtocolOption.valid, ho] at h
  exact (strtoumax_of_digits hne (Bool.and_eq_true_iff.mp h).1).2.2 (by simpa using haccept.2.2)

/-- `parse_option` on an option of the table: a valid value is saved, and of another
only the name. -/
theorem parseOption_apply (t : OptionTable) {p : Bytes × Bytes} (hname : (0 : UInt8) ∉ p.1) (hne : p.1 ≠ [])
    (hval : p.2 ≠ []) (o : ProtocolOption) :
    parseOption t p.1 p.2 o =
      if o.records p then (t o).saved o p
      else if o.names p then { t o with clientName := p.1 } else t o := by
  rw [parseOption, if_neg (by simp [hne, hval])]
  cases hof : ProtocolOption.ofName p.1 with
  | none =>
    have hnot : o.names p = false := by
      cases hn : o.names p with
      | false => rfl
      | true =>
        rw [(ProtocolOption.ofName_eq_some hname).mpr (of_decide_eq_true hn)] at hof
        cases hof
    simp [ProtocolOption.records, hnot]
  | some o' =>
    have hnames' : o'.names p = true := decide_eq_true ((ProtocolOption.ofName_eq_some hname).mp hof)
    by_cases ho : o = o'
    · subst ho
      cases htype : o.otype with
      | str => simp [ProtocolOption.records, hnames', ProtocolOption.valid, htype, DaemonProtocolOption.saved]
      | uint =>
        simp only [accepted_iff_valid htype hval]
        cases hv : o.valid p.2 with
        | false => simp [ProtocolOption.records, hnames', hv, htype]
        | true =>
          simp [ProtocolOption.records, hnames', hv, DaemonProtocolOption.saved, htype,
            strtoumax_of_valid htype hval hv]
    · have hnot : o.names p = false := by
        cases hn : o.names p with
        | false => rfl
        | true => exact absurd (ProtocolOption.name_injective
            ((of_decide_eq_true hn).symm.trans (of_decide_eq_true hnames'))) ho
      simp only [ProtocolOption.records, hnot, Bool.false_and, Bool.false_eq_true, if_false]
      cases o'.otype with
      | str => simp [Function.update_of_ne ho]
      | uint =>
        dsimp only
        split_ifs <;> simp [Function.update_of_ne ho]

/-- The table after a list of pairs: of each option the last valid value, and the name
as the last pair about it spells it. -/
def OptionTable.recorded (t : OptionTable) (ps : List (Bytes × Bytes)) : OptionTable := fun o =>
  { (ps.filter o.records).getLast?.elim (t o) ((t o).saved o) with
    clientName := (ps.filter o.names).getLast?.elim (t o).clientName Prod.fst }

theorem foldl_parseOption (t : OptionTable) {ps : List (Bytes × Bytes)}
    (hps : ∀ p ∈ ps, (0 : UInt8) ∉ p.1 ∧ p.1 ≠ [] ∧ p.2 ≠ []) :
    ps.foldl (fun t p => parseOption t p.1 p.2) t = t.recorded ps := by
  induction ps using List.reverseRecOn with
  | nil => rfl
  | append_singleton ps p ih =>
    obtain ⟨hname, hne, hval⟩ := hps p (by simp)
    rw [List.foldl_append, List.foldl_cons, List.foldl_nil, ih fun q hq => hps q (by simp [hq])]
    funext o
    rw [parseOption_apply _ hname hne hval]
    cases hn : o.names p with
    | false => simp [OptionTable.recorded, ProtocolOption.records, hn]
    | true =>
      cases hr : o.records p with
      | false => simp [OptionTable.recorded, hn, hr]
      | true =>
        simp only [OptionTable.recorded, List.filter_append, List.filter_cons, hn, hr, if_true, List.filter_nil,
          List.getLast?_append, List.getLast?_singleton, Option.some_or, Option.elim_some]
        -- what an earlier value has left is overwritten, or never changes
        cases (ps.filter o.records).getLast? with
        | none => rfl
        | some q => cases htype : o.otype <;> simp [DaemonProtocolOption.saved, htype]

/-! ### Settings -/

def OFF_T_MAX : ℕ := 2 ^ 63 - 1

/-- The settings a request is answered with: `dopt`, `xopt` and the refused options. -/
structure DaemonConfig where
  xopt : CommonOptions := .daemonDefault
  maxWindowbytes : ℕ := MAX_WINDOWBYTES
  rejectAllOptions : Bool := false
  refused : ProtocolOption → Bool := fun _ => false
  readonly : Bool := false
  maxUpload : ℕ := OFF_T_MAX

/-- The command line options behind them. -/
inductive DaemonArg where
  | blocksize (arg : Bytes)
  | windowsize (arg : Bytes)
  | windowBytes (arg : Bytes)
  | retransmit (arg : Bytes)
  | refuse (arg : Bytes)
  | rejectAll
  | readonly
  | maxUpload (arg : Bytes)

namespace DaemonConfig

/-- One command line option; the server does not start with a bad value. -/
def set (c : DaemonConfig) : DaemonArg → Option DaemonConfig
  | .blocksize arg => (c.xopt.setBlksize SEGSIZE arg).map fun xopt => { c with xopt }
  | .windowsize arg => (c.xopt.setWindowsize 0 arg).map fun xopt => { c with xopt }
  | .windowBytes arg => (parseUint arg 0 OFF_T_MAX).map fun maxWindowbytes => { c with maxWindowbytes }
  | .retransmit arg => (c.xopt.setRexmtval arg).map fun xopt => { c with xopt }
  | .refuse arg => (ProtocolOption.all.find? fun o => asciiStrcaseeq arg o.name).map fun o =>
      { c with refused := Function.update c.refused o true }
  | .rejectAll => some { c with rejectAllOptions := true }
  | .readonly => some { c with readonly := true }
  | .maxUpload arg => (parseUint arg 0 OFF_T_MAX).map fun maxUpload => { c with maxUpload }

/-- The whole command line; without room for uploads the server is read-only. -/
def ofArgs (args : List DaemonArg) : Option DaemonConfig :=
  (args.foldlM set {}).map fun c => { c with readonly := c.readonly || c.maxUpload == 0 }

/-- The option table before a request is read. -/
def optionTable (c : DaemonConfig) : OptionTable := fun o => { refuse := c.refused o }

end DaemonConfig

end TftpHpa
