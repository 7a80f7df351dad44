import TftpHpa.Client.Settings
import TftpHpa.Lib.Terminated

/-! The requests that are made with the settings of the client (`tftp_recvfile` and
`tftp_sendfile`), and which options they have. -/

namespace TftpHpa

open Terminated (split split_join join join_cons pairs unpair pairs_unpair notMem_of_mem_unpair)

/-! ### Requests -/

/-- What `fstat` tells about a file. -/
structure FileStat where
  regular : Bool
  size : ℕ

/-- A file to be read from the server, or to be sent to it. -/
inductive Transfer where
  | get (name : Bytes)
  | put (name : Bytes) (st : Option FileStat)

/-- The request of `tftp_recvfile`. -/
def tftpRecvfile (c : ClientConfig) (peer : Socket) (name mode : Bytes) : Option (Packet × Optreq) :=
  makerequest c.noOptions c.xopt peer { optreqInit with tsize := 0 } Opcode.rrq.code name mode

/-- The size that `tftp_sendfile` announces, or -1. -/
def sendTsize (mode : Bytes) (st : Option FileStat) : ℤ :=
  let convert : Bool := mode = cstr "netascii"
  match st with
  | none => -1
  | some st => if !convert && st.regular then st.size else -1

/-- The request of `tftp_sendfile`. -/
def tftpSendfile (c : ClientConfig) (peer : Socket) (st : Option FileStat) (name mode : Bytes) :
    Option (Packet × Optreq) :=
  makerequest c.noOptions c.xopt peer { optreqInit with tsize := sendTsize mode st } Opcode.wrq.code name mode

namespace Transfer

def name : Transfer → Bytes
  | get name => name
  | put name _ => name

/-- The request of a transfer. Without a mode there is none: `strcmp` is called with `NULL`. -/
def request (t : Transfer) (c : ClientConfig) (peer : Socket) : Option (Packet × Optreq) :=
  match c.mode.mode with
  | none => none
  | some mode => match t with
    | get name => tftpRecvfile c peer name mode
    | put name st => tftpSendfile c peer st name mode

/-- The size is known: of a file to be read the server tells it. -/
def SizeKnown (c : ClientConfig) : Transfer → Prop
  | get _ => True
  | put _ st => c.mode.mode ≠ some (cstr "netascii") ∧ ∃ s, st = some s ∧ s.regular = true

end Transfer

/-! ### Options of a request -/

/-- The options of a request with their values: the strings behind the name and the mode. -/
def Packet.requestOptions (tp : Packet) : List (Bytes × Bytes) := pairs (((split 0 (tp.drop 2)).getD []).drop 2)

/-- The request has an option. -/
def Packet.Asks (tp : Packet) (o : ProtocolOption) : Prop := o.name ∈ tp.requestOptions.map Prod.fst

/-- A request is what the settings say. -/
structure Reflects (noOptions tsize : Bool) (x : CommonOptions) (peer : Socket) (sizeKnown : Prop) (tp : Packet) :
    Prop where
  disabled : noOptions = true → tp.requestOptions = []
  blksize : noOptions = false → (tp.Asks .blksize ↔ tftpMaxBlksize x peer ≠ 512)
  windowsize : noOptions = false → (tp.Asks .windowsize ↔ 1 < x.maxWindowsize)
  tsize : noOptions = false → tp.Asks .tsize → tsize = true ∧ sizeKnown

theorem flatMap_optionText (ps : List (ProtocolOption × ℕ)) :
    ps.flatMap optionText = join 0 (unpair (ps.map fun p => (p.1.name, Decimal.numeral p.2))) := by
  induction ps with
  | nil => rfl
  | cons p ps ih =>
    rw [List.flatMap_cons, ih]
    simp [optionText, join, unpair]

/-- The options of a request are those that `makerequest` has put there. -/
theorem requestOptions_makerequest {noOptions : Bool} {x : CommonOptions} {peer : Socket} {optreq optreq' : Optreq}
    {op : UInt16} {name mode : Bytes} {pkt : Packet} (hname : (0 : UInt8) ∉ name) (hmode : (0 : UInt8) ∉ mode)
    (h : makerequest noOptions x peer optreq op name mode = some (pkt, optreq')) :
    pkt.requestOptions = (setOptions noOptions x peer optreq).2.map fun p => (p.1.name, Decimal.numeral p.2) := by
  simp only [makerequest] at h
  split_ifs at h
  obtain ⟨rfl, -⟩ := Prod.mk.inj (Option.some.inj h)
  generalize (setOptions noOptions x peer optreq).2 = sent
  set ps := sent.map fun p => (p.1.name, Decimal.numeral p.2) with hps
  have hbody : (htons op ++ (name ++ 0 :: (mode ++ 0 :: sent.flatMap optionText))).drop 2 =
      join 0 (name :: mode :: unpair ps) := by
    rw [flatMap_optionText, join_cons, join_cons]
    rfl
  have hpairs : ∀ p ∈ ps, (0 : UInt8) ∉ p.1 ∧ (0 : UInt8) ∉ p.2 := by
    intro p hp
    obtain ⟨q, -, rfl⟩ := List.mem_map.mp (hps ▸ hp)
    exact ⟨q.1.zero_notMem_name, zero_notMem_numeral q.2⟩
  have hstrings : ∀ s ∈ name :: mode :: unpair ps, (0 : UInt8) ∉ s := by
    rw [List.forall_mem_cons, List.forall_mem_cons]
    exact ⟨hname, hmode, notMem_of_mem_unpair hpairs⟩
  rw [Packet.requestOptions, hbody, split_join hstrings, Option.getD_some]
  exact pairs_unpair ps

/-- An option is in the request exactly when it has been wanted. -/
theorem asks_iff {noOptions : Bool} {x : CommonOptions} {peer : Socket} {optreq optreq' : Optreq}
    {op : UInt16} {name mode : Bytes} {pkt : Packet} (hname : (0 : UInt8) ∉ name) (hmode : (0 : UInt8) ∉ mode)
    (h : makerequest noOptions x peer optreq op name mode = some (pkt, optreq')) (o : ProtocolOption) :
    pkt.Asks o ↔ o ∈ (setOptions noOptions x peer optreq).2.map Prod.fst := by
  rw [Packet.Asks, requestOptions_makerequest hname hmode h, List.map_map]
  constructor
  · intro ho
    obtain ⟨p, hp, hpo⟩ := List.mem_map.mp ho
    exact List.mem_map.mpr ⟨p, hp, ProtocolOption.name_injective hpo⟩
  · intro ho
    obtain ⟨p, hp, rfl⟩ := List.mem_map.mp ho
    exact List.mem_map.mpr ⟨p, hp, rfl⟩

theorem wants_iff (optreq : Optreq) :
    (.blksize ∈ optreq.wants.map Prod.fst ↔ optreq.blksize ≠ SEGSIZE) ∧
      (.windowsize ∈ optreq.wants.map Prod.fst ↔ 1 < optreq.window) ∧
      (.tsize ∈ optreq.wants.map Prod.fst ↔ 0 ≤ optreq.tsize) := by
  simp only [Optreq.wants]
  refine ⟨?_, ?_, ?_⟩ <;> split_ifs <;> simp_all

/-- The code never looks at the `tsize` setting. -/
theorem reflects_iff {c : ClientConfig} {peer : Socket} {optreq optreq' : Optreq} {op : UInt16} {name mode : Bytes}
    {pkt : Packet} (hname : (0 : UInt8) ∉ name) (hmode : (0 : UInt8) ∉ mode)
    (h : makerequest c.noOptions c.xopt peer optreq op name mode = some (pkt, optreq')) {sizeKnown : Prop}
    (hsize : 0 ≤ optreq.tsize ↔ sizeKnown) :
    Reflects c.noOptions c.tsize c.xopt peer sizeKnown pkt ↔ c.noOptions = true ∨ c.tsize = true ∨ ¬ sizeKnown := by
  have hoptions := requestOptions_makerequest hname hmode h
  have hasks := asks_iff hname hmode h
  cases hno : c.noOptions with
  | true =>
    rw [hno] at hoptions
    refine iff_of_true ⟨fun _ => hoptions, ?_, ?_, ?_⟩ (.inl rfl)
    all_goals exact fun h => by cases h
  | false =>
    rw [hno] at hasks
    obtain ⟨hblk, hwin, htsize⟩ :=
      wants_iff { optreq with blksize := tftpMaxBlksize c.xopt peer, window := c.xopt.maxWindowsize }
    have hasksTsize : pkt.Asks .tsize ↔ sizeKnown := (hasks .tsize).trans (htsize.trans hsize)
    constructor
    · intro hr
      by_cases hknown : sizeKnown
      · exact .inr (.inl (hr.tsize rfl (hasksTsize.mpr hknown)).1)
      · exact .inr (.inr hknown)
    · intro hor
      refine ⟨(fun h => by cases h), fun _ => (hasks .blksize).trans hblk, fun _ => (hasks .windowsize).trans hwin,
        fun _ hask => ?_⟩
      have hknown := hasksTsize.mp hask
      rcases hor with hor | hor | hor
      · cases hor
      · exact ⟨hor, hknown⟩
      · exact absurd hknown hor

theorem zero_notMem_mode {m : Mode} {mode : Bytes} (h : m.mode = some mode) : (0 : UInt8) ∉ mode := by
  cases m with
  | sentinel => cases h
  | _ =>
    obtain rfl := Option.some.inj h
    decide

theorem sendTsize_nonneg {mode : Bytes} {st : Option FileStat} :
    0 ≤ sendTsize mode st ↔ mode ≠ cstr "netascii" ∧ ∃ s, st = some s ∧ s.regular = true := by
  cases st with
  | none => simp [sendTsize]
  | some s =>
    by_cases hmode : mode = cstr "netascii"
    · simp [sendTsize, hmode]
    · cases hs : s.regular <;> simp [sendTsize, hmode, hs]

/-- The two toggles after a run. -/
theorem run_toggles {c c' : ClientConfig} {is : List ClientInput} (h : c.run is = some c') :
    c'.tsize = is.foldl ClientInput.tsizeAfter c.tsize ∧
      c'.noOptions = is.foldl ClientInput.noOptionsAfter c.noOptions := by
  induction is generalizing c with
  | nil =>
    obtain rfl := Option.some.inj h
    exact ⟨rfl, rfl⟩
  | cons i is ih =>
    rw [ClientConfig.run, List.foldlM_cons] at h
    obtain ⟨d, hd, hrest⟩ := Option.bind_eq_some_iff.mp h
    obtain ⟨htsize, hno, -⟩ := ClientConfig.input_eq hd
    rw [List.foldl_cons, List.foldl_cons, ← htsize, ← hno]
    exact ih hrest

/-- A request reflects what has been entered exactly when options are disabled, the `tsize`
option is on or the size is not known. -/
theorem request_reflects_iff {is : List ClientInput} {c : ClientConfig} (hrun : ClientConfig.run {} is = some c)
    (peer : Socket) {t : Transfer} (hname : (0 : UInt8) ∉ t.name) {pkt : Packet} {optreq : Optreq}
    (hreq : t.request c peer = some (pkt, optreq)) :
    Reflects (is.foldl ClientInput.noOptionsAfter false) (is.foldl ClientInput.tsizeAfter true) c.xopt peer
        (t.SizeKnown c) pkt ↔
      is.foldl ClientInput.noOptionsAfter false = true ∨ is.foldl ClientInput.tsizeAfter true = true ∨
        ¬ t.SizeKnown c := by
  obtain ⟨htsize, hno⟩ := run_toggles hrun
  rw [← htsize, ← hno]
  rw [Transfer.request] at hreq
  cases hmode : c.mode.mode with
  | none =>
    rw [hmode] at hreq
    cases hreq
  | some mode =>
    rw [hmode] at hreq
    have h0 := zero_notMem_mode hmode
    cases t with
    | get name => exact reflects_iff hname h0 hreq (iff_of_true le_rfl trivial)
    | put name st =>
      refine reflects_iff hname h0 hreq (sendTsize_nonneg.trans ?_)
      simp [Transfer.SizeKnown, hmode]

/-- Sizes are set, and both toggles are used. -/
def toggled : List ClientInput :=
  [.option (.blocksize (cstr "1024")), .command (cstr "windowsize") (some (cstr "4")), .command (cstr "tsize") none,
    .command (cstr "options") none]

/-- With options disabled the request has none; when they are enabled again, it has `tsize`, which is off. -/
theorem request_reflects_iff_toggled :
    (∃ c pkt optreq, ClientConfig.run {} toggled = some c ∧ c.xopt.blksize = 1024 ∧ c.xopt.maxWindowsize = 4 ∧
      Transfer.request (.get (cstr "foo")) c {} = some (pkt, optreq) ∧
      Reflects true false c.xopt {} ((Transfer.get (cstr "foo")).SizeKnown c) pkt) ∧
    ∃ c pkt optreq, ClientConfig.run {} (toggled ++ [.command (cstr "opt") none]) = some c ∧
      Transfer.request (.get (cstr "foo")) c {} = some (pkt, optreq) ∧
      ¬ Reflects false false c.xopt {} ((Transfer.get (cstr "foo")).SizeKnown c) pkt := by
  have hname : (0 : UInt8) ∉ (Transfer.get (cstr "foo")).name := by decide
  have hrun : ClientConfig.run {} toggled = some _ := rfl
  have hrun' : ClientConfig.run {} (toggled ++ [.command (cstr "opt") none]) = some _ := rfl
  refine ⟨⟨_, _, _, hrun, rfl, rfl, rfl, (request_reflects_iff hrun {} hname rfl).mpr (.inl rfl)⟩,
    _, _, _, hrun', rfl, fun h => ?_⟩
  rcases (request_reflects_iff hrun' {} hname rfl).mp h with h | h | h
  · cases h
  · cases h
  · exact h trivial

/-- With `-T` a read request has the `tsize` option all the same. -/
theorem request_tsize_sent : ∃ c pkt optreq, ClientConfig.run {} [.option .noTsize] = some c ∧ c.tsize = false ∧
    Transfer.request (.get (cstr "foo")) c {} = some (pkt, optreq) ∧ pkt.Asks .tsize :=
  ⟨_, _, _, rfl, rfl, rfl, by unfold Packet.Asks; decide +kernel⟩

end TftpHpa
