import TftpHpa.Client.Agree
import TftpHpa.Daemon.Oack

/-! A request survives the way from the client's `makerequest` to the server's parser: the
options fit the buffer they are printed to, the datagram fits the buffer it is
received in, and what is read there is what was to be said. -/

namespace TftpHpa

/-! ### The option buffer -/

/-- `DIGIT_SPACE(uintmax_t)`. -/
def DIGIT_SPACE : ℕ := (8 * 5 + 1) >>> 1

/-- `OPT_SPACE`. -/
def optSpace (o : ProtocolOption) : ℕ := o.nsize + DIGIT_SPACE + 1

/-- `TFTP_OPTION_SPACE`, the size of `optionbuf`. -/
def TFTP_OPTION_SPACE : ℕ := optSpace .blksize + optSpace .windowsize + optSpace .tsize

/-- Append an option to `optionbuf`: the name by `mempcpy`, the number by `snprintf`.
Nothing stands for a copy past the end of the buffer or a number cut short. -/
def putOption (optionbuf : Bytes) (p : ProtocolOption × ℕ) : Option Bytes :=
  if TFTP_OPTION_SPACE < optionbuf.length + p.1.nsize then none
  else
    let optionbuf := optionbuf ++ (p.1.name ++ [0])
    if TFTP_OPTION_SPACE < optionbuf.length + ((Decimal.numeral p.2).length + 1) then none
    else some (optionbuf ++ (Decimal.numeral p.2 ++ [0]))

/-- A `uintmax_t` has no more digits than are provided for. -/
theorem length_numeral_le {n : ℕ} (h : n < 2 ^ 64) : (Decimal.numeral n).length ≤ DIGIT_SPACE := by
  rw [Decimal.numeral, List.length_map]
  exact Nat.toDigits_length 10 n 20 (by decide) (h.trans (by decide))

theorem length_optionText {p : ProtocolOption × ℕ} (h : p.2 < 2 ^ 64) : (optionText p).length ≤ optSpace p.1 := by
  have hdigits := length_numeral_le h
  simp only [optionText, optSpace, ProtocolOption.nsize, List.length_append, List.length_cons, List.length_nil]
  omega

theorem putOption_eq {buf : Bytes} {p : ProtocolOption × ℕ}
    (h : buf.length + (optionText p).length ≤ TFTP_OPTION_SPACE) :
    putOption buf p = some (buf ++ optionText p) := by
  simp only [optionText, List.length_append, List.length_cons, List.length_nil] at h
  rw [putOption, if_neg (by rw [ProtocolOption.nsize]; omega), if_neg (by simp; omega)]
  simp [optionText]

/-- Options that fit the buffer together are appended one after the other. -/
theorem foldlM_putOption {ps : List (ProtocolOption × ℕ)} {buf : Bytes}
    (h : buf.length + (ps.flatMap optionText).length ≤ TFTP_OPTION_SPACE) :
    ps.foldlM putOption buf = some (buf ++ ps.flatMap optionText) := by
  induction ps generalizing buf with
  | nil => simp
  | cons p ps ih =>
    rw [List.flatMap_cons, List.length_append] at h
    rw [List.foldlM_cons, putOption_eq (by omega), List.flatMap_cons, ← List.append_assoc]
    exact ih (by rw [List.length_append]; omega)

theorem length_ite_optionText {q : Prop} [Decidable q] {p : ProtocolOption × ℕ} (h : q → p.2 < 2 ^ 64) :
    ((if q then [p] else []).flatMap optionText).length ≤ optSpace p.1 := by
  split_ifs with hq
  · simpa using length_optionText (h hq)
  · simp

theorem length_wants_le {optreq : Optreq} (hblk : optreq.blksize ≤ MAX_SEGSIZE)
    (hwin : optreq.window ≤ MAX_MAX_WINDOWSIZE) (htsize : optreq.tsize ≤ OFF_T_MAX) :
    (optreq.wants.flatMap optionText).length ≤ TFTP_OPTION_SPACE := by
  have h₁ := length_ite_optionText (q := optreq.blksize ≠ SEGSIZE) (p := (.blksize, optreq.blksize))
    fun _ => lt_of_le_of_lt hblk (by decide)
  have h₂ := length_ite_optionText (q := 1 < optreq.window) (p := (.windowsize, optreq.window))
    fun _ => lt_of_le_of_lt hwin (by decide)
  have h₃ := length_ite_optionText (q := 0 ≤ optreq.tsize) (p := (.tsize, optreq.tsize.toNat)) fun _ => by
    unfold OFF_T_MAX at htsize
    dsimp only
    omega
  rw [Optreq.wants, List.flatMap_append, List.flatMap_append, List.length_append, List.length_append]
  exact Nat.add_le_add (Nat.add_le_add h₁ h₂) h₃

section

variable (noOptions : Bool) (x : CommonOptions) (peer : Socket) {optreq : Optreq}

/-- `optionbuf` is large enough. -/
theorem optionbuf_fits (htsize : optreq.tsize ≤ OFF_T_MAX) :
    (setOptions noOptions x peer optreq).2.foldlM putOption [] =
      some ((setOptions noOptions x peer optreq).2.flatMap optionText) := by
  rw [foldlM_putOption, List.nil_append]
  rw [List.length_nil, Nat.zero_add]
  cases noOptions with
  | true => exact Nat.zero_le _
  | false => exact length_wants_le (tftpMaxBlksize_bounds x peer).2 x.windowsize_le htsize

/-- What is sent is what is remembered. -/
theorem setOptions_sent {o : ProtocolOption} {n : ℕ} (h : (o, n) ∈ (setOptions noOptions x peer optreq).2) :
    (o = .blksize ∧ n = (setOptions noOptions x peer optreq).1.blksize) ∨
      (o = .windowsize ∧ n = (setOptions noOptions x peer optreq).1.window) ∨
      (o = .tsize ∧ (n : ℤ) = (setOptions noOptions x peer optreq).1.tsize) := by
  cases noOptions with
  | true => cases h
  | false =>
    simp only [setOptions, Optreq.wants, Bool.false_eq_true, if_false, List.mem_append] at h ⊢
    rcases h with (h | h) | h
    · split_ifs at h
      · exact .inl (Prod.mk.inj (List.mem_singleton.mp h))
      · cases h
    · split_ifs at h with h1
      · rw [if_pos h1]
        exact .inr (.inl (Prod.mk.inj (List.mem_singleton.mp h)))
      · cases h
    · split_ifs at h with h0
      · obtain ⟨rfl, rfl⟩ := Prod.mk.inj (List.mem_singleton.mp h)
        exact .inr (.inr ⟨rfl, Int.toNat_of_nonneg h0⟩)
      · cases h

end

/-! ### The datagram -/

/-- The server reads the strings the client has written. -/
theorem scanArgs_written {name : Bytes} (hne : name ≠ []) (hname : (0 : UInt8) ∉ name) (f : Format)
    {ps : List (ProtocolOption × ℕ)} (hps : ∀ p ∈ ps, p.1.otype = .uint ∧ p.2 < 2 ^ 64) (t : OptionTable) :
    ∃ r, scanArgs { opts := t } [] (name ++ 0 :: (f.mode ++ 0 :: ps.flatMap optionText)) = .ok r ∧
      r.filename = name ∧ r.format = some f ∧ r.opts = ps.foldl OptionTable.ask t := by
  have hfirst : ({ opts := t } : RequestArgs).argument name = .ok { argn := 1, filename := name, opts := t } := rfl
  have hsecond : ({ argn := 1, filename := name, opts := t } : RequestArgs).argument f.mode =
      .ok { argn := 2, filename := name, format := some f, opts := t } := by
    cases f <;> rfl
  obtain ⟨argn, opt, hrest⟩ := scanArgs_options hps { argn := 2, filename := name, format := some f, opts := t }
    (le_refl 2) (Nat.mod_self 2)
  refine ⟨{ argn, filename := name, format := some f, opt, opts := ps.foldl OptionTable.ask t }, ?_, rfl, rfl, rfl⟩
  rw [scanArgs_string hname _ _ _ (by simpa using hne), List.nil_append, hfirst]
  change scanArgs _ [] (f.mode ++ _) = _
  rw [scanArgs_string (by cases f <;> decide) _ _ _ (by cases f <;> decide), List.nil_append, hsecond]
  exact hrest

/-- The datagram with these strings is the request with these options. -/
theorem parseRequest_written (request : UInt16) {name : Bytes} (hne : name ≠ []) (hname : (0 : UInt8) ∉ name)
    (f : Format) {ps : List (ProtocolOption × ℕ)} (hps : ∀ p ∈ ps, p.1.otype = .uint ∧ p.2 < 2 ^ 64)
    (t : OptionTable) :
    parseRequest t (htons request ++ (name ++ 0 :: (f.mode ++ 0 :: ps.flatMap optionText))) =
      some (.ok ⟨request, name, f, ps.foldl OptionTable.ask t⟩) := by
  obtain ⟨r, hr, hfile, hformat, hopts⟩ := scanArgs_written hne hname f hps t
  set pkt := htons request ++ (name ++ 0 :: (f.mode ++ 0 :: ps.flatMap optionText)) with hpkt
  have hop : Packet.opcode pkt = request := ntohs_htons request
  have hbody : pkt.drop 2 = name ++ 0 :: (f.mode ++ 0 :: ps.flatMap optionText) := rfl
  rw [parseRequest_eq _ (by simp [hpkt]), hbody, hr, hop]
  change some (r.request request) = _
  rw [RequestArgs.request, hformat, hfile, hopts]

/-- The server's table has the options the client remembers, with their numbers, and
nothing else. -/
theorem setOptions_recorded (noOptions : Bool) (x : CommonOptions) (client : Socket) {optreq₀ : Optreq}
    (htsize : optreq₀.tsize ≤ OFF_T_MAX) (c : DaemonConfig) {optreq : Optreq} {sent : List (ProtocolOption × ℕ)}
    (hset : setOptions noOptions x client optreq₀ = (optreq, sent)) {t : OptionTable}
    (ht : t = sent.foldl OptionTable.ask c.optionTable) :
    (∀ o, (t o).req = true ↔ optreq.options o = true) ∧
      (optreq.options .blksize = true → (t .blksize).uint = optreq.blksize) ∧
      (optreq.options .windowsize = true → (t .windowsize).uint = optreq.window) ∧
      (optreq.options .tsize = true → ((t .tsize).uint : ℤ) = optreq.tsize) := by
  have hasks := setOptions_asks noOptions x client htsize
  have hsent (o : ProtocolOption) (n : ℕ) (h : (o, n) ∈ (setOptions noOptions x client optreq₀).2) :=
    setOptions_sent noOptions x client h
  rw [hset] at hasks hsent
  dsimp only at hasks hsent
  obtain ⟨hother, hmem⟩ := foldl_ask hasks.nodup c.optionTable
  rw [← ht] at hother hmem
  have hvalue : ∀ o, optreq.options o = true → ∃ n, (o, n) ∈ sent ∧ (t o).req = true ∧ (t o).uint = n := by
    intro o ho
    obtain ⟨⟨o, n⟩, hp, rfl⟩ := List.mem_map.mp ((hasks.options o).mp ho)
    exact ⟨n, hp, by rw [hmem _ hp]; rfl, by rw [hmem _ hp]; rfl⟩
  refine ⟨fun o => ⟨fun hreq => ?_, fun ho => ?_⟩, fun ho => ?_, fun ho => ?_, fun ho => ?_⟩
  · rw [hasks.options]
    by_contra hnot
    have hfalse := congrArg DaemonProtocolOption.req (hother o hnot)
    exact absurd (hreq.symm.trans hfalse) (by simp [DaemonConfig.optionTable])
  · obtain ⟨n, -, hreq, -⟩ := hvalue o ho
    exact hreq
  · obtain ⟨n, hp, -, hn⟩ := hvalue _ ho
    rcases hsent _ n hp with ⟨-, he⟩ | ⟨he, -⟩ | ⟨he, -⟩
    · exact hn.trans he
    · cases he
    · cases he
  · obtain ⟨n, hp, -, hn⟩ := hvalue _ ho
    rcases hsent _ n hp with ⟨he, -⟩ | ⟨-, he⟩ | ⟨he, -⟩
    · cases he
    · exact hn.trans he
    · cases he
  · obtain ⟨n, hp, -, hn⟩ := hvalue _ ho
    rcases hsent _ n hp with ⟨he, -⟩ | ⟨he, -⟩ | ⟨-, he⟩
    · cases he
    · cases he
    · exact (congrArg Nat.cast hn).trans he

/-- A request round trip. The options fit `optionbuf`; the request is made unless name,
mode and options exceed `MAX_SEGSIZE`; it then fits the server's buffer, and the server
reads the same opcode, name and mode and those options that the client remembers, with
the numbers it remembers. -/
theorem request_roundtrip (noOptions : Bool) (x : CommonOptions) (client : Socket) {optreq₀ : Optreq}
    (htsize : optreq₀.tsize ≤ OFF_T_MAX) (request : UInt16) {name : Bytes} (hne : name ≠ [])
    (hname : (0 : UInt8) ∉ name) (f : Format) (c : DaemonConfig) :
    (setOptions noOptions x client optreq₀).2.foldlM putOption [] =
        some ((setOptions noOptions x client optreq₀).2.flatMap optionText) ∧
    (makerequest noOptions x client optreq₀ request name f.mode = none ↔
      MAX_SEGSIZE < (name.length + 1) + (f.mode.length + 1) +
        ((setOptions noOptions x client optreq₀).2.flatMap optionText).length) ∧
    ∀ pkt optreq, makerequest noOptions x client optreq₀ request name f.mode = some (pkt, optreq) →
      pkt.length ≤ PKTSIZE ∧ ∃ p, parseRequest c.optionTable pkt = some (.ok p) ∧ p.opcode = request ∧
        p.filename = name ∧ p.format = f ∧ (∀ o, (p.opts o).req = true ↔ optreq.options o = true) ∧
        (optreq.options .blksize = true → (p.opts .blksize).uint = optreq.blksize) ∧
        (optreq.options .windowsize = true → (p.opts .windowsize).uint = optreq.window) ∧
        (optreq.options .tsize = true → ((p.opts .tsize).uint : ℤ) = optreq.tsize) := by
  refine ⟨optionbuf_fits noOptions x client htsize, ?_, fun pkt optreq hreq => ?_⟩
  · simp only [makerequest]
    split_ifs with hlen
    · exact iff_of_true rfl hlen
    · exact iff_of_false (by simp) hlen
  simp only [makerequest] at hreq
  split_ifs at hreq with hlen
  obtain ⟨rfl, rfl⟩ := Prod.mk.inj (Option.some.inj hreq)
  have hasks := setOptions_asks noOptions x client htsize
  have hlimits := setOptions_limits noOptions x client optreq₀
  have hparse := parseRequest_written request hne hname f (hasks.uint hlimits.1 hlimits.2) c.optionTable
  obtain ⟨hoptions, hvalues⟩ := setOptions_recorded noOptions x client htsize c rfl rfl
  refine ⟨?_, _, hparse, rfl, rfl, rfl, hoptions, hvalues⟩
  simp only [PKTSIZE, List.length_append, List.length_cons, htons_length]
  omega

/-- The request of a client with its defaults. -/
theorem request_roundtrip_foo :
    ∃ optreq p, makerequest false .clientDefault {} { optreqInit with tsize := 0 } Opcode.rrq.code (cstr "foo")
        Format.octet.mode = some (requestFoo, optreq) ∧ requestFoo.length ≤ PKTSIZE ∧
      parseRequest ({} : DaemonConfig).optionTable requestFoo = some (.ok p) ∧ p.filename = cstr "foo" ∧
      (p.opts .windowsize).uint = optreq.window := by
  obtain ⟨optreq, hreq, hoption⟩ : ∃ optreq, makerequest false .clientDefault {} { optreqInit with tsize := 0 }
      Opcode.rrq.code (cstr "foo") Format.octet.mode = some (requestFoo, optreq) ∧
      optreq.options .windowsize = true := ⟨_, rfl, by decide⟩
  have htsize : ({ optreqInit with tsize := 0 } : Optreq).tsize ≤ OFF_T_MAX := by decide
  have hne : cstr "foo" ≠ [] := by decide
  obtain ⟨-, -, h⟩ := request_roundtrip false .clientDefault {} htsize Opcode.rrq.code hne (by decide) .octet {}
  obtain ⟨hlen, p, hp, -, hname, -, -, -, hwindow, -⟩ := h _ _ hreq
  exact ⟨optreq, p, hreq, hlen, hp, hname, hwindow hoption⟩

end TftpHpa
