import TftpHpa.Client.Request
import TftpHpa.Daemon.Request

/-! Client and server agree on what they have negotiated. The two meet in a list of
options with their values: the request is the text of one such list and the server
reads that list, the OACK is the text of another and the client reads that one. -/

namespace TftpHpa

/-! ### The request as the server reads it -/

/-- An option as it is noted when a number is asked for. -/
def DaemonProtocolOption.asked (po : DaemonProtocolOption) (p : ProtocolOption × ℕ) : DaemonProtocolOption :=
  { po with
    req := true
    clientName := p.1.name
    uint := p.2
    str := Decimal.numeral p.2
    dsize := ((Decimal.numeral p.2).length + 1) % 2 ^ 16 }

def OptionTable.ask (t : OptionTable) (p : ProtocolOption × ℕ) : OptionTable :=
  Function.update t p.1 ((t p.1).asked p)

theorem parseOption_numeral (t : OptionTable) {o : ProtocolOption} (ho : o.otype = .uint) {n : ℕ}
    (hn : n < 2 ^ 64) : parseOption t o.name (Decimal.numeral n) = OptionTable.ask t (o, n) := by
  obtain ⟨c, cs, hc⟩ := List.exists_cons_of_ne_nil (Decimal.numeral_ne_nil n)
  have hdigit : asciiIsdigit ((Decimal.numeral n).headD 0) = true := by
    rw [hc, List.headD_cons]
    exact Decimal.isDigit_of_mem_numeral (n := n) (by simp [hc])
  rw [parseOption, if_neg (by simp [o.name_ne_nil, Decimal.numeral_ne_nil])]
  simp only [o.ofName_name, ho, strtoumax_numeral hn, hdigit]
  rfl

/-- The server notes the options of a list one after the other. -/
theorem scanArgs_options {ps : List (ProtocolOption × ℕ)} (hps : ∀ p ∈ ps, p.1.otype = .uint ∧ p.2 < 2 ^ 64)
    (r : RequestArgs) (h2 : 2 ≤ r.argn) (heven : r.argn % 2 = 0) :
    ∃ argn opt, scanArgs r [] (ps.flatMap optionText) =
      .ok { r with argn, opt, opts := ps.foldl OptionTable.ask r.opts } := by
  induction ps generalizing r with
  | nil => exact ⟨r.argn, r.opt, rfl⟩
  | cons p ps ih =>
    obtain ⟨ho, hn⟩ := hps p (by simp)
    have hname : r.argument p.1.name = .ok { r with argn := r.argn + 1, opt := p.1.name } := by
      rw [RequestArgs.argument, if_neg (by omega), if_neg (by omega), if_pos (by rw [Nat.and_one_is_mod]; omega)]
    have hvalue : ({ r with argn := r.argn + 1, opt := p.1.name } : RequestArgs).argument (Decimal.numeral p.2) =
        .ok { r with argn := r.argn + 2, opt := p.1.name, opts := OptionTable.ask r.opts p } := by
      rw [RequestArgs.argument, if_neg (by simp), if_neg (by simp; omega),
        if_neg (by rw [Nat.and_one_is_mod]; simp; omega), parseOption_numeral r.opts ho hn]
    obtain ⟨argn, opt, hrest⟩ := ih (fun q hq => hps q (by simp [hq]))
      { r with argn := r.argn + 2, opt := p.1.name, opts := OptionTable.ask r.opts p } (by simp) (by simp; omega)
    refine ⟨argn, opt, ?_⟩
    rw [List.flatMap_cons, optionText, List.append_assoc, List.cons_append, List.append_assoc,
      scanArgs_string p.1.zero_notMem_name _ _ _ (by simp [p.1.name_ne_nil]), List.nil_append, hname]
    change scanArgs _ [] _ = _
    rw [List.singleton_append, scanArgs_string (zero_notMem_numeral _) _ _ _ (by simp [Decimal.numeral_ne_nil]),
      List.nil_append, hvalue]
    exact hrest

/-- A request that gets past the mode has noted the options it was made with. -/
theorem scanArgs_request {name mode : Bytes} (hname : (0 : UInt8) ∉ name) (hmode : (0 : UInt8) ∉ mode)
    {ps : List (ProtocolOption × ℕ)} (hps : ∀ p ∈ ps, p.1.otype = .uint ∧ p.2 < 2 ^ 64) {t : OptionTable}
    {args : RequestArgs} {pf : Format}
    (h : scanArgs { opts := t } [] (name ++ 0 :: (mode ++ 0 :: ps.flatMap optionText)) = .ok args)
    (hpf : args.format = some pf) : args.opts = ps.foldl OptionTable.ask t := by
  by_cases hn : name = []
  · subst hn
    cases h
    cases hpf
  have hfirst : ({ opts := t } : RequestArgs).argument name = .ok { argn := 1, filename := name, opts := t } := rfl
  rw [scanArgs_string hname _ _ _ (by simp [hn]), List.nil_append, hfirst] at h
  change scanArgs _ [] (mode ++ _) = _ at h
  by_cases hm : mode = []
  · subst hm
    cases h
    cases hpf
  rw [scanArgs_string hmode _ _ _ (by simp [hm]), List.nil_append, RequestArgs.argument,
    if_neg (show ¬ 1 + 1 = 1 by decide), if_pos rfl] at h
  split at h
  · cases h
  · rename_i f _
    obtain ⟨argn, opt, hr'⟩ := scanArgs_options hps { argn := 2, filename := name, format := some f, opts := t }
      (le_refl 2) (Nat.mod_self 2)
    change scanArgs _ [] (ps.flatMap optionText) = _ at h
    rw [hr'] at h
    obtain rfl := Except.ok.inj h
    rfl

/-! ### What was asked for -/

/-- The server's table after a list of options: those in the list are noted, the others
are as before. -/
theorem foldl_ask {ps : List (ProtocolOption × ℕ)} (hnodup : (ps.map Prod.fst).Nodup) (t : OptionTable) :
    (∀ o, o ∉ ps.map Prod.fst → ps.foldl OptionTable.ask t o = t o) ∧
      ∀ p ∈ ps, ps.foldl OptionTable.ask t p.1 = (t p.1).asked p := by
  induction ps generalizing t with
  | nil => simp
  | cons q ps ih =>
    rw [List.map_cons, List.nodup_cons] at hnodup
    obtain ⟨hother, hmem⟩ := ih hnodup.2 (OptionTable.ask t q)
    have hne : ∀ o, o ≠ q.1 → OptionTable.ask t q o = t o := fun o ho => Function.update_of_ne ho _ _
    constructor
    · intro o ho
      rw [List.map_cons, List.mem_cons, not_or] at ho
      rw [List.foldl_cons, hother o ho.2, hne o ho.1]
    · intro p hp
      rw [List.foldl_cons]
      rcases List.mem_cons.mp hp with rfl | hp
      · rw [hother _ hnodup.1]
        exact Function.update_self _ _ _
      · rw [hmem p hp, hne]
        rintro he
        exact hnodup.1 (he ▸ List.mem_map_of_mem hp)

/-- What a client has asked for: each option once, with the limit it keeps for the
answer. -/
structure Asks (optreq : Optreq) (sent : List (ProtocolOption × ℕ)) : Prop where
  nodup : (sent.map Prod.fst).Nodup
  options : ∀ o, optreq.options o = true ↔ o ∈ sent.map Prod.fst
  value : ∀ p ∈ sent, p = (.blksize, optreq.blksize) ∨ p = (.windowsize, optreq.window) ∨
    (p.1 = .tsize ∧ p.2 ≤ OFF_T_MAX)

theorem Asks.uint {optreq : Optreq} {sent : List (ProtocolOption × ℕ)} (h : Asks optreq sent) 
    (hblk : optreq.blksize ≤ MAX_SEGSIZE) (hwin : optreq.window ≤ MAX_MAX_WINDOWSIZE) :
    ∀ p ∈ sent, p.1.otype = .uint ∧ p.2 < 2 ^ 64 := by
  intro p hp
  rcases h.value p hp with rfl | rfl | ⟨h₁, h₂⟩
  · exact ⟨rfl, lt_of_le_of_lt hblk (by decide)⟩
  · exact ⟨rfl, lt_of_le_of_lt hwin (by decide)⟩
  · exact ⟨h₁ ▸ rfl, lt_of_le_of_lt h₂ (by decide)⟩

theorem Optreq.nodup_wants (optreq : Optreq) : (optreq.wants.map Prod.fst).Nodup := by
  unfold wants
  split_ifs <;> simp

theorem setOptions_asks (noOptions : Bool) (x : CommonOptions) (peer : Socket) {optreq : Optreq}
    (htsize : optreq.tsize ≤ OFF_T_MAX) :
    Asks (setOptions noOptions x peer optreq).1 (setOptions noOptions x peer optreq).2 := by
  cases noOptions with
  | true => exact ⟨List.nodup_nil, fun o => by simp [setOptions, optreqInit], fun p hp => by cases hp⟩
  | false =>
    refine ⟨?_, fun o => ?_, fun p hp => ?_⟩
    · exact Optreq.nodup_wants _
    · simp only [setOptions, Bool.false_eq_true, if_false, decide_eq_true_eq]
    · simp only [setOptions, Optreq.wants, Bool.false_eq_true, if_false, List.mem_append] at hp ⊢
      rcases hp with (hp | hp) | hp
      · split_ifs at hp
        · exact .inl (List.mem_singleton.mp hp)
        · cases hp
      · split_ifs at hp with h1
        · rw [if_pos h1]
          exact .inr (.inl (List.mem_singleton.mp hp))
        · cases hp
      · split_ifs at hp with h0
        · rw [List.mem_singleton.mp hp]
          exact .inr (.inr ⟨rfl, by dsimp only; omega⟩)
        · cases hp

theorem setOptions_limits (noOptions : Bool) (x : CommonOptions) (peer : Socket) (optreq : Optreq) :
    (setOptions noOptions x peer optreq).1.blksize ≤ MAX_SEGSIZE ∧
      (setOptions noOptions x peer optreq).1.window ≤ MAX_MAX_WINDOWSIZE := by
  cases noOptions with
  | true =>
    change optreqInit.blksize ≤ _ ∧ optreqInit.window ≤ _
    decide
  | false =>
    refine ⟨(tftpMaxBlksize_bounds x peer).2, ?_⟩
    simp only [setOptions, Bool.false_eq_true, if_false]
    split_ifs
    · exact x.windowsize_le
    · decide

/-! ### The answer as the client reads it -/

/-- The options the server grants, with their values. -/
def grant (t : OptionTable) (o : ProtocolOption) : List (ProtocolOption × ℕ) :=
  if optGranted (t o) then [(o, (t o).uint)] else []

def grants (t : OptionTable) : List (ProtocolOption × ℕ) := ProtocolOption.all.flatMap (grant t)

/-- The OACK is the text of what is granted, if that is all numbers and the client has
written the names as the server does. -/
theorem buildOack_eq {t : OptionTable}
    (h : ∀ o, optGranted (t o) = true → o.otype = .uint ∧ (t o).clientName = o.name) :
    buildOack t = if grants t = [] then none
      else some (htons Opcode.oack.code ++ (grants t).flatMap optionText) := by
  have htext : ProtocolOption.all.flatMap (oackEntry t) = (grants t).flatMap optionText := by
    rw [grants, List.flatMap_assoc]
    refine congrArg (List.flatMap · _) (funext fun o => ?_)
    unfold oackEntry grant
    split_ifs with hg
    · obtain ⟨ho, hname⟩ := h o hg
      rw [hname, oackValue, ho, List.take_of_length_le (by simp [ProtocolOption.nsize]),
        List.take_of_length_le (by simp)]
      simp [optionText]
    · rfl
  have hsize : (ProtocolOption.all.map fun o =>
      if optGranted (t o) then o.nsize + (oackValue o (t o)).2 else 0).sum = 0 ↔ grants t = [] := by
    simp only [List.sum_eq_zero_iff, List.forall_mem_map, grants, List.flatMap_eq_nil_iff]
    refine forall₂_congr fun o _ => ?_
    unfold grant
    split_ifs <;> simp [ProtocolOption.nsize]
  simp only [buildOack, htext, hsize]

/-- The client takes a list of options one after the other. -/
def ackOptions (optreq optack : Optreq) (ps : List (ProtocolOption × ℕ)) : Option Optreq :=
  ps.foldlM (fun optack p => ackOption optreq optack p.1.name p.2) optack

theorem parseOackOptions_flatMap {ps : List (ProtocolOption × ℕ)} (hps : ∀ p ∈ ps, p.2 < 2 ^ 64)
    (optreq optack : Optreq) :
    parseOackOptions optreq optack (ps.flatMap optionText) = ackOptions optreq optack ps := by
  induction ps generalizing optack with
  | nil => exact parseOackOptions_nil optreq optack
  | cons p ps ih =>
    rw [List.flatMap_cons, parseOackOptions_optionText _ _ _ (hps p (by simp)), ackOptions, List.foldlM_cons]
    exact Option.bind_congr fun optack' _ => ih (fun q hq => hps q (by simp [hq])) optack'

theorem flatMap_optionText_ne_nil {ps : List (ProtocolOption × ℕ)} (h : ps ≠ []) :
    ps.flatMap optionText ≠ [] := by
  obtain ⟨p, ps, rfl⟩ := List.exists_cons_of_ne_nil h
  simp [optionText]

theorem parseOack_htons {text : Bytes} (h : text ≠ []) (optreq : Optreq) :
    parseOack optreq (htons Opcode.oack.code ++ text) = parseOackOptions optreq optreqInit text := by
  have hop : Packet.opcode (htons Opcode.oack.code ++ text) = Opcode.oack.code := ntohs_htons Opcode.oack.code
  rw [parseOack, if_neg (by simp [hop, h])]
  rfl

theorem ackOption_blksize {optreq optack : Optreq} {v : ℕ} (hreq : optreq.options .blksize = true)
    (hack : optack.options .blksize = false) (h₁ : MIN_SEGSIZE ≤ v) (h₂ : v ≤ optreq.blksize) :
    ackOption optreq optack ProtocolOption.blksize.name v =
      some { optack with blksize := v, options := Function.update optack.options .blksize true } := by
  rw [ackOption, if_pos (by decide), if_neg (by simp [hreq, hack]; omega)]

theorem ackOption_windowsize {optreq optack : Optreq} {v : ℕ} (hreq : optreq.options .windowsize = true)
    (hack : optack.options .windowsize = false) (h₁ : 1 ≤ v) (h₂ : v ≤ optreq.window) :
    ackOption optreq optack ProtocolOption.windowsize.name v =
      some { optack with window := v, options := Function.update optack.options .windowsize true } := by
  rw [ackOption, if_neg (by decide), if_pos (by decide), if_neg (by simp [hreq, hack]; omega)]

theorem ackOption_tsize {optreq optack : Optreq} {v : ℕ} (hreq : optreq.options .tsize = true)
    (hack : optack.options .tsize = false) (hv : v ≤ OFF_T_MAX) :
    ackOption optreq optack ProtocolOption.tsize.name v =
      some { optack with tsize := v, options := fun o => o = .tsize } := by
  rw [ackOption, if_neg (by decide), if_neg (by decide), if_pos (by decide), if_neg (by simp [hreq, hack]),
    offOfUintmax, if_pos hv]

/-! ### Agreement -/

section
variable {optreq : Optreq} {sent : List (ProtocolOption × ℕ)} {c : DaemonConfig} {d d' : Daemon}

/-- What the server grants is what the client has asked for. -/
theorem Asks.of_granted (h : Asks optreq sent) (hd : d.opts = sent.foldl OptionTable.ask c.optionTable)
    (hn : Negotiated d d') {o : ProtocolOption} (hg : optGranted (d'.opts o) = true) :
    ∃ n, (o, n) ∈ sent ∧ d.opts o = (c.optionTable o).asked (o, n) := by
  obtain ⟨hother, hmem⟩ := foldl_ask h.nodup c.optionTable
  have hreq : (d.opts o).req = true := by
    rw [← hn.req_eq]
    simp only [optGranted, Bool.and_eq_true] at hg
    exact hg.1.2
  by_cases ho : o ∈ sent.map Prod.fst
  · obtain ⟨⟨o, n⟩, hp, rfl⟩ := List.mem_map.mp ho
    exact ⟨n, hp, hd ▸ hmem _ hp⟩
  · rw [hd, hother o ho] at hreq
    cases hreq

theorem Asks.oack (h : Asks optreq sent) (hd : d.opts = sent.foldl OptionTable.ask c.optionTable)
    (hn : Negotiated d d') (hsent : ∀ p ∈ sent, p.1.otype = .uint ∧ p.2 < 2 ^ 64) :
    buildOack d'.opts = if grants d'.opts = [] then none
      else some (htons Opcode.oack.code ++ (grants d'.opts).flatMap optionText) := by
  refine buildOack_eq fun o hg => ?_
  obtain ⟨n, hp, ho⟩ := h.of_granted hd hn hg
  exact ⟨(hsent _ hp).1, by rw [hn.clientName_eq, ho]; rfl⟩

theorem Asks.not_granted (h : Asks optreq sent) (hd : d.opts = sent.foldl OptionTable.ask c.optionTable)
    (hn : Negotiated d d') {o : ProtocolOption} (hb : o ≠ .blksize) (hw : o ≠ .windowsize) (ht : o ≠ .tsize) :
    optGranted (d'.opts o) = false := by
  cases hg : optGranted (d'.opts o) with
  | false => rfl
  | true =>
    obtain ⟨n, hp, -⟩ := h.of_granted hd hn hg
    rcases h.value _ hp with he | he | ⟨he, -⟩
    · exact absurd (congrArg Prod.fst he) hb
    · exact absurd (congrArg Prod.fst he) hw
    · exact absurd he ht

theorem Asks.grants_eq (h : Asks optreq sent) (hd : d.opts = sent.foldl OptionTable.ask c.optionTable)
    (hn : Negotiated d d') :
    grants d'.opts = grant d'.opts .blksize ++ grant d'.opts .tsize ++ grant d'.opts .windowsize := by
  have hno : ∀ o, o ≠ .blksize → o ≠ .windowsize → o ≠ .tsize → grant d'.opts o = [] := fun o hb hw ht => by
    rw [grant, h.not_granted hd hn hb hw ht]
    rfl
  simp only [grants, ProtocolOption.all, List.flatMap_cons, List.flatMap_nil,
    hno .blksize2 (by decide) (by decide) (by decide), hno .cookie (by decide) (by decide) (by decide),
    hno .rollover (by decide) (by decide) (by decide), hno .timeout (by decide) (by decide) (by decide),
    hno .utimeout (by decide) (by decide) (by decide), List.nil_append, List.append_nil, List.append_assoc]

/-- A granted option is one the client waits for, and the server's limit was the value
asked for. -/
theorem Asks.waits (h : Asks optreq sent) (hd : d.opts = sent.foldl OptionTable.ask c.optionTable)
    (hn : Negotiated d d') {o : ProtocolOption} (hg : optGranted (d'.opts o) = true) :
    optreq.options o = true ∧ (d.opts o).ack = false ∧ (o, (d.opts o).uint) ∈ sent := by
  obtain ⟨n, hp, ho⟩ := h.of_granted hd hn hg
  rw [ho]
  exact ⟨(h.options o).mpr (List.mem_map_of_mem (f := Prod.fst) hp), rfl, hp⟩

theorem Asks.ack_blksize (h : Asks optreq sent) (hd : d.opts = sent.foldl OptionTable.ask c.optionTable)
    (hn : Negotiated d d') :
    ∃ a, ackOptions optreq optreqInit (grant d'.opts .blksize) = some a ∧ a.blksize = d'.segsize ∧
      a.window = 1 ∧ a.tsize = -1 ∧ a.options .tsize = false ∧ a.options .windowsize = false := by
  cases hg : optGranted (d'.opts .blksize) with
  | false =>
    have hseg := hn.segsize_default hg (h.not_granted hd hn (by decide) (by decide) (by decide))
    exact ⟨optreqInit, by rw [grant, hg]; rfl, hseg.symm, rfl, rfl, rfl, rfl⟩
  | true =>
    obtain ⟨hopt, hack, hmem⟩ := h.waits hd hn hg
    obtain ⟨huint, hle⟩ := hn.blksize hack hg
    have hlimit : d'.segsize ≤ optreq.blksize := by
      rcases h.value _ hmem with he | he | ⟨he, -⟩
      · exact hle.trans_eq (congrArg Prod.snd he)
      · cases congrArg Prod.fst he
      · cases he
    refine ⟨{ optreqInit with
      blksize := d'.segsize, options := Function.update optreqInit.options .blksize true },
      ?_, rfl, rfl, rfl, rfl, rfl⟩
    rw [grant, hg, if_pos rfl, huint, ackOptions, List.foldlM_cons,
      ackOption_blksize hopt rfl hn.segsize_ge hlimit]
    rfl

theorem Asks.tsize_le (h : Asks optreq sent) (hd : d.opts = sent.foldl OptionTable.ask c.optionTable)
    (hn : Negotiated d d') (hsize : d.tsizeSize ≤ OFF_T_MAX) (hg : optGranted (d'.opts .tsize) = true) :
    (d'.opts .tsize).uint = d'.tsizeSize ∧ d'.tsizeSize ≤ OFF_T_MAX := by
  obtain ⟨-, hack, hmem⟩ := h.waits hd hn hg
  obtain ⟨huint, he | he⟩ := hn.tsize hack hg
  · exact ⟨huint, he ▸ hsize⟩
  · rcases h.value _ hmem with hv | hv | ⟨-, hv⟩
    · cases congrArg Prod.fst hv
    · cases congrArg Prod.fst hv
    · exact ⟨huint, he ▸ hv⟩

theorem Asks.ack_tsize (h : Asks optreq sent) (hd : d.opts = sent.foldl OptionTable.ask c.optionTable)
    (hn : Negotiated d d') (hsize : d.tsizeSize ≤ OFF_T_MAX) {a : Optreq} (hts : a.options .tsize = false)
    (hws : a.options .windowsize = false) (htsize : a.tsize = -1) :
    ∃ a', ackOptions optreq a (grant d'.opts .tsize) = some a' ∧ a'.blksize = a.blksize ∧ a'.window = a.window ∧
      a'.options .windowsize = false ∧
      a'.tsize = if optGranted (d'.opts .tsize) then (d'.tsizeSize : ℤ) else -1 := by
  cases hg : optGranted (d'.opts .tsize) with
  | false => exact ⟨a, by rw [grant, hg]; rfl, rfl, rfl, hws, htsize⟩
  | true =>
    obtain ⟨huint, hle⟩ := h.tsize_le hd hn hsize hg
    have hopt := (h.waits hd hn hg).1
    refine ⟨{ a with tsize := d'.tsizeSize, options := fun o => o = .tsize }, ?_, rfl, rfl, rfl, rfl⟩
    rw [grant, hg, if_pos rfl, huint, ackOptions, List.foldlM_cons, ackOption_tsize hopt hts hle]
    rfl

theorem Asks.ack_windowsize (h : Asks optreq sent) (hd : d.opts = sent.foldl OptionTable.ask c.optionTable)
    (hn : Negotiated d d') {a : Optreq} (hws : a.options .windowsize = false) (hwin : a.window = 1) :
    ∃ a', ackOptions optreq a (grant d'.opts .windowsize) = some a' ∧ a'.blksize = a.blksize ∧
      a'.window = d'.windowsize ∧ a'.tsize = a.tsize := by
  cases hg : optGranted (d'.opts .windowsize) with
  | false => exact ⟨a, by rw [grant, hg]; rfl, rfl, hwin.trans (hn.windowsize_default hg).symm, rfl⟩
  | true =>
    obtain ⟨hopt, hack, hmem⟩ := h.waits hd hn hg
    obtain ⟨huint, hle⟩ := hn.window hack hg
    have hlimit : d'.windowsize ≤ optreq.window := by
      rcases h.value _ hmem with he | he | ⟨he, -⟩
      · cases congrArg Prod.fst he
      · exact hle.trans_eq (congrArg Prod.snd he)
      · cases he
    refine ⟨{ a with window := d'.windowsize, options := Function.update a.options .windowsize true },
      ?_, rfl, rfl, rfl⟩
    rw [grant, hg, if_pos rfl, huint, ackOptions, List.foldlM_cons,
      ackOption_windowsize hopt hws hn.windowsize_pos hlimit]
    rfl

/-- The client takes over the server's sizes. -/
theorem Asks.agree (h : Asks optreq sent) (hd : d.opts = sent.foldl OptionTable.ask c.optionTable)
    (hn : Negotiated d d') (hsize : d.tsizeSize ≤ OFF_T_MAX) :
    ∃ optack, ackOptions optreq optreqInit (grants d'.opts) = some optack ∧
      optack.blksize = d'.segsize ∧ optack.window = d'.windowsize ∧
      optack.tsize = if optGranted (d'.opts .tsize) then (d'.tsizeSize : ℤ) else -1 := by
  obtain ⟨a₁, hf₁, hb₁, hw₁, ht₁, hot₁, how₁⟩ := h.ack_blksize hd hn
  obtain ⟨a₂, hf₂, hb₂, hw₂, how₂, ht₂⟩ := h.ack_tsize hd hn hsize hot₁ how₁ ht₁
  obtain ⟨a₃, hf₃, hb₃, hw₃, ht₃⟩ := h.ack_windowsize hd hn how₂ (hw₂.trans hw₁)
  refine ⟨a₃, ?_, (hb₃.trans hb₂).trans hb₁, hw₃, ht₃.trans ht₂⟩
  rw [ackOptions] at hf₁ hf₂ hf₃ ⊢
  rw [h.grants_eq hd hn, List.foldlM_append, List.foldlM_append, hf₁]
  simp only [Option.bind_eq_bind, Option.bind_some, hf₂, hf₃]

theorem Asks.grants_lt (h : Asks optreq sent) (hd : d.opts = sent.foldl OptionTable.ask c.optionTable)
    (hn : Negotiated d d') (hsize : d.tsizeSize ≤ OFF_T_MAX) : ∀ p ∈ grants d'.opts, p.2 < 2 ^ 64 := by
  have hgrant : ∀ o p, p ∈ grant d'.opts o → optGranted (d'.opts o) = true ∧ p.2 = (d'.opts o).uint := by
    intro o p hp
    unfold grant at hp
    split_ifs at hp with hg
    · exact ⟨hg, by rw [List.mem_singleton.mp hp]⟩
    · cases hp
  intro p hp
  rw [h.grants_eq hd hn, List.mem_append, List.mem_append] at hp
  rcases hp with (hp | hp) | hp
  · obtain ⟨hg, hv⟩ := hgrant _ p hp
    rw [hv, (hn.blksize (h.waits hd hn hg).2.1 hg).1]
    exact lt_of_le_of_lt hn.segsize_le (by decide)
  · obtain ⟨hg, hv⟩ := hgrant _ p hp
    obtain ⟨huint, hle⟩ := h.tsize_le hd hn hsize hg
    rw [hv, huint]
    exact lt_of_le_of_lt hle (by decide)
  · obtain ⟨hg, hv⟩ := hgrant _ p hp
    rw [hv, (hn.window (h.waits hd hn hg).2.1 hg).1]
    exact lt_of_le_of_lt hn.windowsize_le (by decide)

end

/-- Client and server agree: whatever the settings of the two, an OACK is one the client
accepts and gives it the server's block and window size and the size of the file, and
without an OACK both work with the defaults. -/
theorem client_server_agree {c : DaemonConfig} (hc : c.rejectAllOptions = false) (x : CommonOptions)
    (noOptions : Bool) (client server : Socket) (h : Handlers) {optreq₀ optreq : Optreq}
    (htsize : optreq₀.tsize ≤ OFF_T_MAX) (request : UInt16) {name mode : Bytes} (hname : (0 : UInt8) ∉ name)
    (hmode : (0 : UInt8) ∉ mode) {pkt : Packet} {r : AcceptedRequest}
    (hreq : makerequest noOptions x client optreq₀ request name mode = some (pkt, optreq))
    (hr : tftp c server h pkt = .ok r) :
    match r.oack with
    | some oack => ∃ optack, parseOack optreq oack = some optack ∧ optack.blksize = r.daemon.segsize ∧
        optack.window = r.daemon.windowsize ∧
        optack.tsize = if optGranted (r.daemon.opts .tsize) then (r.daemon.tsizeSize : ℤ) else -1
    | none => r.daemon.segsize = 512 ∧ r.daemon.windowsize = 1 ∧ optreqInit.blksize = r.daemon.segsize ∧
        optreqInit.window = r.daemon.windowsize := by
  -- what is sent, and what the server makes of it
  have hasks := setOptions_asks noOptions x client htsize
  have hlimits := setOptions_limits noOptions x client optreq₀
  simp only [makerequest] at hreq
  split_ifs at hreq
  obtain ⟨rfl, rfl⟩ := Prod.mk.inj (Option.some.inj hreq)
  set sent := (setOptions noOptions x client optreq₀).2
  set optreq := (setOptions noOptions x client optreq₀).1
  have hsent := hasks.uint hlimits.1 hlimits.2
  obtain ⟨args, file, hscan, hpf, -, -, hn⟩ := tftp_eq_ok hr
  have hopts := scanArgs_request hname hmode hsent hscan hpf
  obtain ⟨hneg, hoack⟩ := negotiateOptions_negotiated hc server (.start c args.opts file)
  rw [hn] at hneg hoack
  dsimp only at hneg hoack
  obtain ⟨optack, hack, hblk, hwin, hts⟩ := hasks.agree hopts hneg file.size_le
  have htext := hasks.oack hopts hneg hsent
  rw [← hoack] at htext
  by_cases hg : grants r.daemon.opts = []
  · rw [hg] at hack
    obtain rfl : optreqInit = optack := Option.some.inj hack
    rw [if_pos hg] at htext
    rw [htext]
    exact ⟨hblk.symm, hwin.symm, hblk, hwin⟩
  · rw [if_neg hg] at htext
    rw [htext]
    refine ⟨optack, ?_, hblk, hwin, hts⟩
    rw [parseOack_htons (flatMap_optionText_ne_nil hg), parseOackOptions_flatMap
      (hasks.grants_lt hopts hneg file.size_le), hack]

/-- The request of a client with its defaults. -/
def requestFoo : Packet := htons Opcode.rrq.code ++ (cstr "foo" ++ 0 :: (cstr "octet" ++ 0 ::
  [(ProtocolOption.blksize, 1468), (.windowsize, 64), (.tsize, 0)].flatMap optionText))

/-- Two programs with their defaults agree over a request for the file `foo`. -/
theorem client_server_agree_foo :
    ∃ optreq r oack optack,
      makerequest false .clientDefault {} { optreqInit with tsize := 0 } Opcode.rrq.code (cstr "foo") (cstr "octet") =
        some (requestFoo, optreq) ∧
      tftp {} {} .empty requestFoo = .ok r ∧ r.oack = some oack ∧ parseOack optreq oack = some optack ∧
      optack.blksize = r.daemon.segsize ∧ optack.window = r.daemon.windowsize := by
  obtain ⟨optreq, hreq⟩ : ∃ optreq, makerequest false .clientDefault {} { optreqInit with tsize := 0 }
      Opcode.rrq.code (cstr "foo") (cstr "octet") = some (requestFoo, optreq) := ⟨_, rfl⟩
  obtain ⟨r, hr, hsome⟩ : ∃ r, tftp {} {} .empty requestFoo = .ok r ∧ r.oack.isSome = true := ⟨_, rfl, by decide⟩
  obtain ⟨oack, hoack⟩ := Option.isSome_iff_exists.mp hsome
  have hagree := client_server_agree rfl .clientDefault false {} {} .empty (by decide) Opcode.rrq.code (by decide)
    (by decide) hreq hr
  rw [hoack] at hagree
  obtain ⟨optack, hack, hblk, hwin, -⟩ := hagree
  exact ⟨optreq, r, oack, optack, hreq, hr, hoack, hack, hblk, hwin⟩

end TftpHpa
