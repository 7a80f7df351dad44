import TftpHpa.Daemon.Parser

/-! The OACK says what the server does: it carries the granted options in the client's own
spelling, each once, and the value of each is the parameter the transfer uses. -/

namespace TftpHpa

open Terminated

/-! ### The values granted -/

theorem ackIf_opts (d : Daemon) (b : Bool) (o : ProtocolOption) :
    (d.ackIf b o).opts o = { d.opts o with ack := b || (d.opts o).ack } := by
  cases b <;> simp [Daemon.ackIf, Daemon.ack]

theorem ackValueIf_opts (d : Daemon) (b : Bool) (o : ProtocolOption) (v : ℕ) :
    (d.ackValueIf b o v).opts o =
      { d.opts o with ack := b || (d.opts o).ack, uint := if b then v else (d.opts o).uint } := by
  cases b <;> simp [Daemon.ackValueIf, Daemon.ackValue]

/-- A granted `blksize2` is the block size in use. -/
theorem negotiateBlksize_granted2 {m : ℕ} {d : Daemon} (hack : (d.opts .blksize2).ack = false)
    (hg : optGranted ((negotiateBlksize m d).opts .blksize2) = true) :
    ((negotiateBlksize m d).opts .blksize2).uint = (negotiateBlksize m d).segsize := by
  simp only [negotiateBlksize] at hg ⊢
  set two := acceptBlksize2 m (optRequested d.opts .blksize2)
  set one := acceptBlksize m (two.getD 0) (optRequested d.opts .blksize)
  have hkeep := fun b => (Negotiates.ackValueIf d b .blksize one.2).opts_eq .blksize2 (by decide)
  rw [ackValueIf_opts, hkeep] at hg ⊢
  cases hblk2 : two.isSome && decide (one.2 ≠ 0) && decide (one.2 &&& (one.2 - 1) = 0) with
  | false =>
    rw [hblk2] at hg
    simp [optGranted, hack] at hg
  | true => simp

/-- A granted timeout is the one in use, in seconds or in microseconds. -/
theorem negotiateTimeout_granted (d : Daemon) :
    ((d.opts .timeout).ack = false → optGranted ((negotiateTimeout d).opts .timeout) = true →
      ((negotiateTimeout d).opts .timeout).uint * USEC_PER_SEC = (negotiateTimeout d).rexmtval) ∧
    ((d.opts .utimeout).ack = false → optGranted ((negotiateTimeout d).opts .utimeout) = true →
      ((negotiateTimeout d).opts .utimeout).uint = (negotiateTimeout d).rexmtval) := by
  simp only [negotiateTimeout]
  set tos := (optRequested d.opts .timeout).filter fun po =>
    MIN_TIMEOUT_SEC ≤ po.uint ∧ po.uint ≤ MAX_TIMEOUT_SEC with htos
  set tou := (optRequested d.opts .utimeout).filter fun po => MIN_TIMEOUT ≤ po.uint ∧ po.uint ≤ MAX_TIMEOUT with htou
  set tosUs := tos.elim 0 fun po => po.uint * USEC_PER_SEC with htosUs
  set us := tou.elim tosUs fun po => po.uint with hus
  have hopts : ∀ {d' : Daemon}, (if us = 0 then d' else
      { d' with rexmtval := us, timeout := us, maxtimeout := us * TIMEOUT_LIMIT }).opts = d'.opts := by
    intro d'
    split_ifs <;> rfl
  have hrexmt : ∀ {d' : Daemon}, us ≠ 0 → (if us = 0 then d' else
      { d' with rexmtval := us, timeout := us, maxtimeout := us * TIMEOUT_LIMIT }).rexmtval = us := by
    intro d' h
    rw [if_neg h]
  rw [hopts]
  refine ⟨fun hack hg => ?_, fun hack hg => ?_⟩
  · rw [(Negotiates.ackIf _ _ .utimeout).opts_eq .timeout (by decide), ackIf_opts] at hg ⊢
    simp only [optGranted, hack, Bool.or_false, Bool.and_eq_true, decide_eq_true_eq] at hg
    obtain ⟨po, hpo⟩ := Option.isSome_iff_exists.mp hg.1.1.1
    obtain ⟨hreq, hrange⟩ := Option.filter_eq_some_iff.mp (htos.symm.trans hpo)
    obtain rfl := eq_of_optRequested hreq
    rw [decide_eq_true_eq] at hrange
    have hvalue : us = (d.opts .timeout).uint * USEC_PER_SEC := by
      rw [← hg.1.1.2, htosUs, hpo, Option.elim_some]
    have hpos : us ≠ 0 := by
      have h1 : 1 ≤ (d.opts .timeout).uint := hrange.1
      rw [hvalue, USEC_PER_SEC]
      omega
    rw [hrexmt hpos, hvalue]
  · rw [ackIf_opts, (Negotiates.ackIf _ _ .timeout).opts_eq .utimeout (by decide)] at hg ⊢
    simp only [optGranted, hack, Bool.or_false, Bool.and_eq_true] at hg
    obtain ⟨po, hpo⟩ := Option.isSome_iff_exists.mp hg.1.1
    obtain ⟨hreq, hrange⟩ := Option.filter_eq_some_iff.mp (htou.symm.trans hpo)
    obtain rfl := eq_of_optRequested hreq
    rw [decide_eq_true_eq] at hrange
    have hvalue : us = (d.opts .utimeout).uint := by
      rw [hus, hpo, Option.elim_some]
    have hpos : us ≠ 0 := by
      have hmin : 10000 ≤ (d.opts .utimeout).uint := hrange.1
      omega
    rw [hrexmt hpos, hvalue]

theorem negotiateRollover_granted {d : Daemon} (hack : (d.opts .rollover).ack = false)
    (hg : optGranted ((negotiateRollover d).opts .rollover) = true) :
    ((negotiateRollover d).opts .rollover).uint = (negotiateRollover d).rolloverVal.toNat := by
  have hnone : optGranted (d.opts .rollover) = false := by simp [optGranted, hack]
  unfold negotiateRollover at hg ⊢
  split at hg
  · exact absurd hg (by simp [hnone])
  · rename_i ro hro
    obtain rfl := eq_of_optRequested hro
    split_ifs at hg ⊢ with h1
    · simp [Daemon.ack]
      omega
    · exact absurd hg (by simp [hnone])

theorem negotiateCookie_granted {d : Daemon} (hack : (d.opts .cookie).ack = false)
    (hg : optGranted ((negotiateCookie d).opts .cookie) = true) :
    ((negotiateCookie d).opts .cookie).str = (d.opts .cookie).str ∧
      ((negotiateCookie d).opts .cookie).dsize = (d.opts .cookie).dsize := by
  have hnone : optGranted (d.opts .cookie) = false := by simp [optGranted, hack]
  unfold negotiateCookie at hg ⊢
  split at hg
  · exact absurd hg (by simp [hnone])
  · split_ifs at hg ⊢
    · simp [Daemon.ack]
    · exact absurd hg (by simp [hnone])

/-- What each granted option says about the transfer. A text is the one asked for. -/
structure InEffect (d d' : Daemon) : Prop where
  blksize : optGranted (d'.opts .blksize) = true → (d'.opts .blksize).uint = d'.segsize
  blksize2 : optGranted (d'.opts .blksize2) = true → (d'.opts .blksize2).uint = d'.segsize
  windowsize : optGranted (d'.opts .windowsize) = true → (d'.opts .windowsize).uint = d'.windowsize
  timeout : optGranted (d'.opts .timeout) = true → (d'.opts .timeout).uint * USEC_PER_SEC = d'.rexmtval
  utimeout : optGranted (d'.opts .utimeout) = true → (d'.opts .utimeout).uint = d'.rexmtval
  rollover : optGranted (d'.opts .rollover) = true → (d'.opts .rollover).uint = d'.rolloverVal.toNat
  tsize : optGranted (d'.opts .tsize) = true → (d'.opts .tsize).uint = d'.tsizeSize
  cookie : optGranted (d'.opts .cookie) = true →
    (d'.opts .cookie).str = (d.opts .cookie).str ∧ (d'.opts .cookie).dsize = (d.opts .cookie).dsize

/-- After the timeouts neither they nor the sizes change. -/
theorem negotiateRollover_rexmtval (d : Daemon) : (negotiateRollover d).rexmtval = d.rexmtval := by
  unfold negotiateRollover
  split
  · rfl
  · split_ifs <;> rfl

theorem negotiateCookie_values (d : Daemon) :
    (negotiateCookie d).rexmtval = d.rexmtval ∧ (negotiateCookie d).rolloverVal = d.rolloverVal := by
  unfold negotiateCookie
  split
  · exact ⟨rfl, rfl⟩
  · split_ifs <;> exact ⟨rfl, rfl⟩

theorem InEffect.of_stages {c : DaemonConfig} {m : ℕ} {d d₁ d₂ d₃ d₄ d₅ d₆ : Daemon}
    (hd₁ : d₁ = negotiateBlksize m d) (hd₂ : d₂ = negotiateWindowsize c d₁) (hd₃ : d₃ = negotiateTsize d₂)
    (hd₄ : d₄ = negotiateTimeout d₃) (hd₅ : d₅ = negotiateRollover d₄) (hd₆ : d₆ = negotiateCookie d₅)
    (hack : ∀ o, (d.opts o).ack = false) (h : Negotiated d d₆) : InEffect d d₆ := by
  have n₁ := hd₁ ▸ negotiates_blksize m d
  have n₂ := hd₂ ▸ negotiates_windowsize c d₁
  have n₃ := hd₃ ▸ negotiates_tsize d₂
  have n₄ := hd₄ ▸ negotiates_timeout d₃
  have n₅ := hd₅ ▸ negotiates_rollover d₄
  have n₆ := hd₆ ▸ negotiates_cookie d₅
  -- the options of a stage are as asked for before it, and do not change after it
  have before := (n₁.trans n₂).trans n₃
  have after := n₅.trans n₆
  have hvalues := hd₆ ▸ negotiateCookie_values d₅
  have hrexmt : d₆.rexmtval = d₄.rexmtval := hvalues.1.trans (hd₅ ▸ negotiateRollover_rexmtval d₄)
  have htimeout := hd₄ ▸ negotiateTimeout_granted d₃
  have hseg : d₆.segsize = d₁.segsize := by
    rw [hd₆, hd₅, hd₄, hd₃, hd₂]
    exact (sameSizes_negotiateRest _).segsize.trans
      ((negotiateTsize_sizes _).1.trans (negotiateWindowsize_sizes c d₁).1)
  exact {
    blksize := fun hg => (h.blksize (hack _) hg).1
    blksize2 := fun hg => by
      rw [(((n₂.trans n₃).trans n₄).trans after).opts_eq _ (by decide)] at hg ⊢
      rw [hseg]
      subst hd₁
      exact negotiateBlksize_granted2 (hack _) hg
    windowsize := fun hg => (h.window (hack _) hg).1
    timeout := fun hg => by
      rw [after.opts_eq _ (by decide)] at hg ⊢
      rw [hrexmt]
      exact htimeout.1 (before.opts_eq .timeout (by decide) ▸ hack _) hg
    utimeout := fun hg => by
      rw [after.opts_eq _ (by decide)] at hg ⊢
      rw [hrexmt]
      exact htimeout.2 (before.opts_eq .utimeout (by decide) ▸ hack _) hg
    rollover := fun hg => by
      rw [n₆.opts_eq _ (by decide)] at hg ⊢
      rw [hvalues.2]
      subst hd₅
      exact negotiateRollover_granted ((before.trans n₄).opts_eq .rollover (by decide) ▸ hack _) hg
    tsize := fun hg => (h.tsize (hack _) hg).1
    cookie := fun hg => by
      have hcookie := ((before.trans n₄).trans n₅).opts_eq .cookie (by decide)
      rw [← hcookie]
      subst hd₆
      exact negotiateCookie_granted (hcookie ▸ hack _) hg }

/-- What the negotiation has granted is in effect. -/
theorem negotiateOptions_inEffect {c : DaemonConfig} (hc : c.rejectAllOptions = false) (peer : Socket) {d : Daemon}
    (hack : ∀ o, (d.opts o).ack = false) : InEffect d (negotiateOptions c peer d).1 := by
  have hn := (negotiateOptions_negotiated hc peer d).1
  rw [negotiateOptions, if_neg (by simp [hc])] at hn ⊢
  exact .of_stages rfl rfl rfl rfl rfl rfl hack hn

theorem negotiates_options (c : DaemonConfig) (peer : Socket) (d : Daemon) :
    Negotiates ProtocolOption.all d (negotiateOptions c peer d).1 := by
  unfold negotiateOptions
  split_ifs
  · exact .of_opts_eq rfl
  · have hall := ((((negotiates_blksize (tftpMaxBlksize c.xopt peer) d).trans (negotiates_windowsize c _)).trans
      (negotiates_tsize _)).trans (negotiates_timeout _)).trans (negotiates_rollover _) |>.trans (negotiates_cookie _)
    exact { hall with opts_eq := fun o ho => absurd o.mem_all ho }

/-! ### The text of the OACK -/

/-- The options granted, in the order of the table. -/
def granted (t : OptionTable) : List ProtocolOption := ProtocolOption.all.filter fun o => optGranted (t o)

theorem mem_granted {t : OptionTable} {o : ProtocolOption} : o ∈ granted t ↔ optGranted (t o) = true := by
  simp [granted, o.mem_all]

theorem nodup_granted (t : OptionTable) : (granted t).Nodup := List.Nodup.filter _ (by decide)

/-- The name and the value of a granted option. -/
def oackPair (t : OptionTable) (o : ProtocolOption) : Bytes × Bytes := ((t o).clientName, (oackValue o (t o)).1)

/-- The size `build_oack` allocates, without the opcode. -/
def oackBufsize (t : OptionTable) : ℕ := (ProtocolOption.all.map fun o =>
  if optGranted (t o) then o.nsize + (oackValue o (t o)).2 else 0).sum

/-- What `build_oack` relies on: the client's spelling has the length of the name, and a
text its recorded size. -/
structure Spelled (t : OptionTable) : Prop where
  name : ∀ o, optGranted (t o) = true → (t o).clientName.length = o.name.length
  text : ∀ o, optGranted (t o) = true → o.otype = .str → (t o).dsize = (t o).str.length + 1

namespace Spelled

variable {t : OptionTable}

theorem value_size (h : Spelled t) {o : ProtocolOption} (hg : optGranted (t o) = true) :
    (oackValue o (t o)).2 = (oackValue o (t o)).1.length + 1 := by
  have htext := h.text o hg
  cases ho : o.otype <;> simp only [oackValue, ho]
  exact htext ho

theorem oackEntry_eq (h : Spelled t) {o : ProtocolOption} (hg : optGranted (t o) = true) :
    oackEntry t o = join 0 (unpair [oackPair t o]) := by
  rw [oackEntry, if_pos hg, h.value_size hg, ProtocolOption.nsize, ← h.name o hg,
    List.take_of_length_le (by simp), List.take_of_length_le (by simp)]
  simp [join, unpair, oackPair]

theorem entries_eq (h : Spelled t) (os : List ProtocolOption) :
    os.flatMap (oackEntry t) = join 0 (unpair ((os.filter fun o => optGranted (t o)).map (oackPair t))) := by
  induction os with
  | nil => rfl
  | cons o os ih =>
    rw [List.flatMap_cons, ih, List.filter_cons]
    cases hg : optGranted (t o) with
    | false => simp [oackEntry, hg]
    | true =>
      rw [h.oackEntry_eq hg]
      simp [join, unpair]

/-- The copies fill what the sizes add up to. -/
theorem entries_length (h : Spelled t) (os : List ProtocolOption) : (os.flatMap (oackEntry t)).length =
    (os.map fun o => if optGranted (t o) then o.nsize + (oackValue o (t o)).2 else 0).sum := by
  rw [List.length_flatMap]
  refine congrArg List.sum (List.map_congr_left fun o _ => ?_)
  cases hg : optGranted (t o) with
  | false => simp [oackEntry, hg]
  | true =>
    rw [h.oackEntry_eq hg, if_pos rfl, h.value_size hg, ProtocolOption.nsize, ← h.name o hg]
    simp [join, unpair, oackPair]
    omega

/-- `build_oack` makes the text of the granted options and fills the buffer it has
allocated. -/
theorem buildOack_eq (h : Spelled t) :
    (buildOack t = none ↔ granted t = []) ∧ ∀ pkt, buildOack t = some pkt →
      pkt = htons Opcode.oack.code ++ join 0 (unpair ((granted t).map (oackPair t))) ∧
      pkt.length = oackBufsize t + 2 := by
  have hdef : buildOack t = if oackBufsize t = 0 then none
      else some (htons Opcode.oack.code ++ ProtocolOption.all.flatMap (oackEntry t)) := rfl
  have hzero : oackBufsize t = 0 ↔ granted t = [] := by
    simp only [oackBufsize, List.sum_eq_zero_iff, List.forall_mem_map, granted, List.filter_eq_nil_iff]
    refine forall₂_congr fun o _ => ?_
    cases optGranted (t o) <;> simp [ProtocolOption.nsize]
  rw [hdef]
  refine ⟨by rw [← hzero]; simp, fun pkt hpkt => ?_⟩
  split_ifs at hpkt
  obtain rfl := Option.some.inj hpkt
  refine ⟨by rw [h.entries_eq]; rfl, ?_⟩
  rw [List.length_append, htons_length, h.entries_length, Nat.add_comm]
  rfl

end Spelled

/-! ### Request and answer -/

/-- What the client's pairs leave of an option that was asked for. -/
theorem recorded_of_req {c : DaemonConfig} {sent : List (Bytes × Bytes)} {o : ProtocolOption}
    (h : (c.optionTable.recorded sent o).req = true) :
    ∃ p q, (sent.filter o.records).getLast? = some p ∧ (sent.filter o.names).getLast? = some q ∧
      (c.optionTable.recorded sent o).str = p.2 ∧
      (c.optionTable.recorded sent o).dsize = (p.2.length + 1) % 2 ^ 16 ∧
      (c.optionTable.recorded sent o).clientName = q.1 := by
  cases hp : (sent.filter o.records).getLast? with
  | none =>
    simp only [OptionTable.recorded, hp] at h
    cases h
  | some p =>
    have hmem := List.mem_filter.mp (List.mem_of_getLast? hp)
    have hnames : p ∈ sent.filter o.names :=
      List.mem_filter.mpr ⟨hmem.1, (Bool.and_eq_true_iff.mp hmem.2).1⟩
    obtain ⟨q, hq⟩ : ∃ q, (sent.filter o.names).getLast? = some q :=
      ⟨_, List.getLast?_eq_some_getLast (List.ne_nil_of_mem hnames)⟩
    refine ⟨p, q, rfl, hq, ?_⟩
    simp only [OptionTable.recorded, hp, hq]
    exact ⟨rfl, rfl, rfl⟩

theorem recorded_ack (c : DaemonConfig) (sent : List (Bytes × Bytes)) (o : ProtocolOption) :
    (c.optionTable.recorded sent o).ack = false ∧ (c.optionTable.recorded sent o).refuse = c.refused o := by
  simp only [OptionTable.recorded]
  cases (sent.filter o.records).getLast? <;> exact ⟨rfl, rfl⟩

/-- The value `v` of option `o` in an OACK says what the server does; a cookie is the one
the client has sent last. -/
def Daemon.Does (d : Daemon) (sent : List (Bytes × Bytes)) (o : ProtocolOption) (v : Bytes) : Prop :=
  match o with
  | .blksize | .blksize2 => v = Decimal.numeral d.segsize
  | .windowsize => v = Decimal.numeral d.windowsize
  | .timeout => ∃ sec, v = Decimal.numeral sec ∧ sec * 1000000 = d.rexmtval
  | .utimeout => v = Decimal.numeral d.rexmtval
  | .rollover => v = Decimal.numeral d.rolloverVal.toNat
  | .tsize => v = Decimal.numeral d.tsizeSize
  | .cookie => ∃ p, (sent.filter ProtocolOption.cookie.records).getLast? = some p ∧ v = p.2

section

variable {c : DaemonConfig} {d d' : Daemon} {sent : List (Bytes × Bytes)} {o : ProtocolOption}

/-- What is granted was asked for and is not refused. -/
theorem Negotiates.of_granted {os : List ProtocolOption} (hn : Negotiates os d d')
    (hd : d.opts = c.optionTable.recorded sent) (hg : optGranted (d'.opts o) = true) :
    (c.optionTable.recorded sent o).req = true ∧ c.refused o = false := by
  simp only [optGranted, Bool.and_eq_true, Bool.not_eq_true', hn.req_eq, hn.refuse_eq, hd] at hg
  exact ⟨hg.1.2, (recorded_ack c sent o).2 ▸ hg.2⟩

theorem InEffect.does (h : InEffect d d') (hn : Negotiates ProtocolOption.all d d')
    (hd : d.opts = c.optionTable.recorded sent) (hg : optGranted (d'.opts o) = true) :
    d'.Does sent o (oackPair d'.opts o).2 := by
  cases o with
  | blksize => exact congrArg Decimal.numeral (h.blksize hg)
  | blksize2 => exact congrArg Decimal.numeral (h.blksize2 hg)
  | windowsize => exact congrArg Decimal.numeral (h.windowsize hg)
  | timeout => exact ⟨_, rfl, h.timeout hg⟩
  | utimeout => exact congrArg Decimal.numeral (h.utimeout hg)
  | rollover => exact congrArg Decimal.numeral (h.rollover hg)
  | tsize => exact congrArg Decimal.numeral (h.tsize hg)
  | cookie =>
    obtain ⟨p, -, hp, -, hstr, -, -⟩ := recorded_of_req (hn.of_granted hd hg).1
    exact ⟨p, hp, (h.cookie hg).1.trans (hd ▸ hstr)⟩

theorem InEffect.spelled (h : InEffect d d') (hn : Negotiates ProtocolOption.all d d')
    (hd : d.opts = c.optionTable.recorded sent) (hsent : ∀ p ∈ sent, p.2.length + 1 < 2 ^ 16) :
    Spelled d'.opts where
  name o hg := by
    obtain ⟨-, q, -, hq, -, -, hname⟩ := recorded_of_req (hn.of_granted hd hg).1
    have hnames := of_decide_eq_true (List.mem_filter.mp (List.mem_of_getLast? hq)).2
    rw [hn.clientName_eq, hd, hname, ← hnames, List.length_map]
  text o hg ho := by
    cases o with
    | cookie =>
      obtain ⟨p, -, hp, -, hstr, hdsize, -⟩ := recorded_of_req (hn.of_granted hd hg).1
      have hlt := hsent p (List.mem_filter.mp (List.mem_of_getLast? hp)).1
      rw [(h.cookie hg).1, (h.cookie hg).2, hd, hstr, hdsize, Nat.mod_eq_of_lt hlt]
    | _ => cases ho

/-- Neither a name nor a value has a NUL in it. -/
theorem InEffect.zero_notMem (h : InEffect d d') (hn : Negotiates ProtocolOption.all d d')
    (hd : d.opts = c.optionTable.recorded sent) (hsent : ∀ p ∈ sent, (0 : UInt8) ∉ p.1 ∧ (0 : UInt8) ∉ p.2)
    (hg : optGranted (d'.opts o) = true) :
    (0 : UInt8) ∉ (oackPair d'.opts o).1 ∧ (0 : UInt8) ∉ (oackPair d'.opts o).2 := by
  obtain ⟨p, q, hp, hq, hstr, -, hname⟩ := recorded_of_req (hn.of_granted hd hg).1
  constructor
  · rw [oackPair, hn.clientName_eq, hd, hname]
    exact (hsent q (List.mem_filter.mp (List.mem_of_getLast? hq)).1).1
  · cases o with
    | cookie =>
      have hcookie : (oackPair d'.opts .cookie).2 = p.2 := (h.cookie hg).1.trans (hd ▸ hstr)
      rw [hcookie]
      exact (hsent p (List.mem_filter.mp (List.mem_of_getLast? hp)).1).2
    | _ => exact zero_notMem_numeral _

end

/-- The receive buffer of the server. -/
def PKTSIZE : ℕ := MAX_SEGSIZE + 4

/-- An accepted request is answered from the pairs that stand in it. -/
theorem tftp_negotiates {c : DaemonConfig} {peer : Socket} {h : Handlers} {tp : Packet} {r : AcceptedRequest}
    (hr : tftp c peer h tp = .ok r) :
    ∃ name mode more rest file, Cut 0 (tp.drop 2) (name :: mode :: more) rest ∧
      negotiateOptions c peer (.start c (c.optionTable.recorded (pairs more)) file) = (r.daemon, r.oack) := by
  obtain ⟨args, file, hscan, hpf, -, -, hn⟩ := tftp_eq_ok hr
  obtain ⟨name, mode, more, rest, hcut, -, -, hopts⟩ := scanArgs_accepted hscan hpf
  exact ⟨name, mode, more, rest, file, hcut, hopts ▸ hn⟩

section

variable {c : DaemonConfig} {peer : Socket} {tp : Packet} {name mode rest : Bytes} {more : List Bytes}
  {file : OpenedFile} {d' : Daemon} {oack : Option Packet}

/-- The strings of a datagram that fits the buffer have no NUL in them and fit 16 bits. -/
theorem sent_of_cut (hlen : tp.length ≤ PKTSIZE) (hcut : Cut 0 (tp.drop 2) (name :: mode :: more) rest) :
    ∀ p ∈ pairs more, ((0 : UInt8) ∉ p.1 ∧ (0 : UInt8) ∉ p.2) ∧ p.2.length + 1 < 2 ^ 16 := by
  intro p hp
  obtain ⟨h₁, h₂⟩ := mem_of_mem_pairs hp
  refine ⟨⟨(hcut.string p.1 (by simp [h₁])).2, (hcut.string p.2 (by simp [h₂])).2⟩, ?_⟩
  have hjoin := length_lt_join (z := 0) (show p.2 ∈ name :: mode :: more by simp [h₂])
  have hdrop := congrArg List.length hcut.eq
  rw [List.length_drop, List.length_append] at hdrop
  unfold PKTSIZE MAX_SEGSIZE at hlen
  omega

/-- The answer as a text: nothing, or the pairs of the granted options. -/
theorem oack_text (hlen : tp.length ≤ PKTSIZE) (hcut : Cut 0 (tp.drop 2) (name :: mode :: more) rest)
    (hn : negotiateOptions c peer (.start c (c.optionTable.recorded (pairs more)) file) = (d', oack)) :
    (oack = none ↔ granted d'.opts = []) ∧ ∀ pkt, oack = some pkt →
      pkt.opcode = Opcode.oack.code ∧ pkt.length = oackBufsize d'.opts + 2 ∧
      splitPairs 0 (pkt.drop 2) = some ((granted d'.opts).map (oackPair d'.opts)) ∧
      ∀ o ∈ granted d'.opts, d'.Does (pairs more) o (oackPair d'.opts o).2 := by
  have hsent := sent_of_cut hlen hcut
  have hneg := negotiates_options c peer (.start c (c.optionTable.recorded (pairs more)) file)
  have hack : ∀ o, ((Daemon.start c (c.optionTable.recorded (pairs more)) file).opts o).ack = false := fun o =>
    (recorded_ack c _ o).1
  cases hc : c.rejectAllOptions with
  | true =>
    rw [negotiateOptions, if_pos hc] at hn
    obtain ⟨rfl, rfl⟩ := Prod.mk.inj hn
    refine ⟨⟨fun _ => ?_, fun _ => rfl⟩, fun pkt hpkt => by cases hpkt⟩
    refine List.filter_eq_nil_iff.mpr fun o _ => ?_
    simp [optGranted, hack o]
  | false =>
    have heffect := negotiateOptions_inEffect hc peer hack
    have hoack := (negotiateOptions_negotiated hc peer
      (.start c (c.optionTable.recorded (pairs more)) file)).2
    rw [hn] at hneg heffect hoack
    dsimp only at hneg heffect hoack
    obtain ⟨hnone, hsome⟩ := (heffect.spelled hneg rfl fun p hp => (hsent p hp).2).buildOack_eq
    rw [← hoack] at hnone hsome
    refine ⟨hnone, fun pkt hpkt => ?_⟩
    obtain ⟨htext, hbuf⟩ := hsome pkt hpkt
    have hop : pkt.opcode = Opcode.oack.code := htext ▸ ntohs_htons Opcode.oack.code
    have hbody : pkt.drop 2 = join 0 (unpair ((granted d'.opts).map (oackPair d'.opts))) := htext ▸ rfl
    refine ⟨hop, hbuf, ?_, fun o ho => heffect.does hneg rfl (mem_granted.mp ho)⟩
    rw [hbody]
    refine splitPairs_join fun p hp => ?_
    obtain ⟨o, ho, rfl⟩ := List.mem_map.mp hp
    exact heffect.zero_notMem hneg rfl (fun p hp => (hsent p hp).1) (mem_granted.mp ho)

end

/-- The OACK describes what the server does. It is there unless nothing is granted, fills
the buffer allocated for it and reads as the granted options, each once: options the
client has asked for with a valid value and the server does not refuse, in the
client's spelling, with the values in effect. -/
theorem oack_describes {c : DaemonConfig} {peer : Socket} {h : Handlers} {tp : Packet} {r : AcceptedRequest}
    (hlen : tp.length ≤ PKTSIZE) (hr : tftp c peer h tp = .ok r) :
    (r.oack = none ↔ ∀ o, optGranted (r.daemon.opts o) = false) ∧
    ∃ name mode more rest, Cut 0 (tp.drop 2) (name :: mode :: more) rest ∧ ∀ pkt, r.oack = some pkt →
      pkt.opcode = Opcode.oack.code ∧ pkt.length = oackBufsize r.daemon.opts + 2 ∧
      splitPairs 0 (pkt.drop 2) = some ((granted r.daemon.opts).map (oackPair r.daemon.opts)) ∧
      (granted r.daemon.opts).Nodup ∧ (∀ o, o ∈ granted r.daemon.opts ↔ optGranted (r.daemon.opts o) = true) ∧
      ∀ o ∈ granted r.daemon.opts, c.refused o = false ∧
        (∃ p ∈ pairs more, o.records p = true) ∧
        (∃ p ∈ pairs more, o.names p = true ∧ (oackPair r.daemon.opts o).1 = p.1) ∧
        r.daemon.Does (pairs more) o (oackPair r.daemon.opts o).2 := by
  obtain ⟨name, mode, more, rest, file, hcut, hn⟩ := tftp_negotiates hr
  obtain ⟨hnone, hsome⟩ := oack_text hlen hcut hn
  have hneg := negotiates_options c peer (.start c (c.optionTable.recorded (pairs more)) file)
  rw [hn] at hneg
  refine ⟨?_, name, mode, more, rest, hcut, fun pkt hpkt => ?_⟩
  · rw [hnone, List.eq_nil_iff_forall_not_mem]
    exact forall_congr' fun o => by rw [mem_granted, Bool.not_eq_true]
  · obtain ⟨hop, hbuf, hsplit, hdoes⟩ := hsome pkt hpkt
    refine ⟨hop, hbuf, hsplit, nodup_granted _, fun o => mem_granted, fun o ho => ?_⟩
    obtain ⟨hreq, hrefuse⟩ := hneg.of_granted rfl (mem_granted.mp ho)
    obtain ⟨p, q, hp, hq, -, -, hname⟩ := recorded_of_req hreq
    obtain ⟨hpmem, hprec⟩ := List.mem_filter.mp (List.mem_of_getLast? hp)
    obtain ⟨hqmem, hqname⟩ := List.mem_filter.mp (List.mem_of_getLast? hq)
    exact ⟨hrefuse, ⟨p, hpmem, hprec⟩, ⟨q, hqmem, hqname, (hneg.clientName_eq o).trans hname⟩, hdoes o ho⟩

/-- A request for the file `foo` in blocks of 1024 bytes. -/
def readFooBlksize : Packet := readFoo ++ cstr "BlkSize" ++ [0] ++ cstr "1024" ++ [0]

/-- The answer to it has one option, spelled as in the request. -/
theorem oack_describes_foo :
    readFooBlksize.length ≤ PKTSIZE ∧ ∃ r pkt, tftp {} {} .empty readFooBlksize = .ok r ∧ r.oack = some pkt ∧
      splitPairs 0 (pkt.drop 2) = some [(cstr "BlkSize", Decimal.numeral 1024)] := by
  obtain ⟨r, pkt, hr, hpkt, hgranted⟩ : ∃ r pkt, tftp {} {} .empty readFooBlksize = .ok r ∧ r.oack = some pkt ∧
      (granted r.daemon.opts).map (oackPair r.daemon.opts) = [(cstr "BlkSize", Decimal.numeral 1024)] :=
    ⟨_, _, rfl, rfl, rfl⟩
  obtain ⟨-, name, mode, more, rest, -, hoack⟩ := oack_describes (by decide) hr
  exact ⟨by decide, r, pkt, hr, hpkt, hgranted ▸ (hoack pkt hpkt).2.2.1⟩

end TftpHpa
