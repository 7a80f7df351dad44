import TftpHpa.Daemon.Oack

/-! What the server grants next to what the client has asked for and what the
administrator has allowed: the window, and the block size when it is asked for twice. -/

namespace TftpHpa

open Terminated

/-! ### The window -/

/-- The window `negotiate_windowsize` computes, in the widths of the source: `window` is
an `unsigned int`, the product is one of `uintmax_t`. -/
def windowWord (maxWindowsize maxWindowbytes segsize uint : ℕ) : ℕ :=
  let window := (if maxWindowsize < uint then maxWindowsize else uint) % 2 ^ 32
  if maxWindowbytes < window * segsize % 2 ^ 64 then maxWindowbytes / segsize % 2 ^ 32 else window

/-- `negotiate_windowsize` in those widths. -/
def negotiateWindowsizeWord (c : DaemonConfig) (d : Daemon) : Daemon :=
  match optRequested d.opts .windowsize with
  | none => { d with windowsize := 1 }
  | some ws =>
    if 1 < ws.uint then
      let window := windowWord c.xopt.maxWindowsize c.maxWindowbytes d.segsize ws.uint
      if 1 < window then { d.ackValue .windowsize window with windowsize := window }
      else { d with windowsize := 1 }
    else { d with windowsize := 1 }

theorem windowForPackets_eq_min (maxWindowsize uint : ℕ) :
    (if maxWindowsize < uint then maxWindowsize else uint) = min uint maxWindowsize :=
  (min_def_lt maxWindowsize uint).symm.trans (min_comm maxWindowsize uint)

/-- Both limits at once. -/
theorem windowForBytes_eq_min {segsize : ℕ} (hseg : 0 < segsize) (bytes window : ℕ) :
    (if bytes < window * segsize then bytes / segsize else window) = min window (bytes / segsize) := by
  split_ifs with h
  · exact (min_eq_right ((Nat.div_lt_iff_lt_mul hseg).mpr h).le).symm
  · exact (min_eq_left ((Nat.le_div_iff_mul_le hseg).mpr (Nat.not_lt.mp h))).symm

/-- Nothing is truncated on the way. -/
theorem windowWord_eq {m segsize : ℕ} (hm : m ≤ MAX_MAX_WINDOWSIZE) (hseg : 0 < segsize) (hseg' : segsize < 2 ^ 32)
    (b w : ℕ) : windowWord m b segsize w = min (min w m) (b / segsize) := by
  have hle : min w m ≤ 32768 := (min_le_right w m).trans hm
  have hprod : min w m * segsize < 2 ^ 64 := by
    calc min w m * segsize ≤ 32768 * segsize := Nat.mul_le_mul_right _ hle
      _ < 2 ^ 64 := by omega
  simp only [windowWord, windowForPackets_eq_min]
  rw [Nat.mod_eq_of_lt (show min w m < 2 ^ 32 by omega), Nat.mod_eq_of_lt hprod, ← windowForBytes_eq_min hseg]
  split_ifs with hb
  · have hquot : b / segsize < min w m := (Nat.div_lt_iff_lt_mul hseg).mpr hb
    exact Nat.mod_eq_of_lt (by omega)
  · rfl

/-- The model of the negotiation uses exact numbers and is right to do so. -/
theorem negotiateWindowsizeWord_eq (c : DaemonConfig) {d : Daemon} (hseg : 0 < d.segsize)
    (hseg' : d.segsize < 2 ^ 32) : negotiateWindowsizeWord c d = negotiateWindowsize c d := by
  unfold negotiateWindowsizeWord negotiateWindowsize
  cases optRequested d.opts .windowsize with
  | none => rfl
  | some ws =>
    simp only [windowWord_eq c.xopt.windowsize_le hseg hseg', windowForBytes_eq_min hseg, windowForPackets_eq_min]

/-- The window in use, and when it is granted. -/
theorem negotiateWindowsize_eq {c : DaemonConfig} {d : Daemon} {ws : DaemonProtocolOption}
    (hws : optRequested d.opts .windowsize = some ws) (hack : ws.ack = false) (hseg : 0 < d.segsize) {k : ℕ}
    (hk : k = min (min ws.uint c.xopt.maxWindowsize) (c.maxWindowbytes / d.segsize)) :
    (negotiateWindowsize c d).windowsize = (if 2 ≤ k then k else 1) ∧
      (optGranted ((negotiateWindowsize c d).opts .windowsize) = true ↔ 2 ≤ k) ∧
      (2 ≤ k → ((negotiateWindowsize c d).opts .windowsize).uint = k) := by
  obtain ⟨hreq, rfl⟩ := optRequested_eq_some.mp hws
  simp only [negotiateWindowsize, hws, windowForPackets_eq_min, windowForBytes_eq_min hseg, ← hk]
  by_cases h2 : 2 ≤ k
  · rw [if_pos (show 1 < (d.opts .windowsize).uint by omega), if_pos (show 1 < k by omega), if_pos h2]
    simp [Daemon.ackValue, optGranted, hreq, h2]
  · have hlock : ∀ p : Prop, [Decidable p] → (if p then (if 1 < k then
        { d.ackValue .windowsize k with windowsize := k } else { d with windowsize := 1 })
        else { d with windowsize := 1 }) = { d with windowsize := 1 } := by
      intro p _
      rw [if_neg (show ¬ 1 < k by omega), ite_self]
    rw [hlock, if_neg h2]
    simp [optGranted, hack, h2]

/-- The window as it is documented: no more than the client asks for, the window limit
and, unless that is zero, the limit in bytes; below two packets it is not granted. -/
def WindowAsDocumented (c : DaemonConfig) (segsize w : ℕ) (d' : Daemon) : Prop :=
  let k := if c.maxWindowbytes = 0 then min w c.xopt.maxWindowsize
    else min (min w c.xopt.maxWindowsize) (c.maxWindowbytes / segsize)
  d'.windowsize = (if 2 ≤ k then k else 1) ∧ (optGranted (d'.opts .windowsize) = true ↔ 2 ≤ k) ∧
    (2 ≤ k → (d'.opts .windowsize).uint = k)

/-- The window is as documented unless the limit in bytes is zero: no packet fits that, and
what is meant to disable the limit disables windows. -/
theorem window_as_documented_iff {c : DaemonConfig} {d : Daemon} {ws : DaemonProtocolOption}
    (hws : optRequested d.opts .windowsize = some ws) (hack : ws.ack = false) (hseg : 0 < d.segsize)
    (hseg' : d.segsize < 2 ^ 32) :
    WindowAsDocumented c d.segsize ws.uint (negotiateWindowsizeWord c d) ↔
      (c.maxWindowbytes ≠ 0 ∨ min ws.uint c.xopt.maxWindowsize < 2) := by
  rw [negotiateWindowsizeWord_eq c hseg hseg', WindowAsDocumented]
  obtain ⟨hwin, hgrant, hvalue⟩ := negotiateWindowsize_eq (c := c) hws hack hseg rfl
  by_cases hb : c.maxWindowbytes = 0
  · have hzero : min (min ws.uint c.xopt.maxWindowsize) (c.maxWindowbytes / d.segsize) = 0 := by
      rw [hb, Nat.zero_div, min_eq_right (Nat.zero_le _)]
    rw [hzero, if_neg (by decide)] at hwin
    rw [hzero] at hgrant
    rw [if_pos hb, hwin, hgrant]
    constructor
    · rintro ⟨-, h, -⟩
      exact .inr (by omega)
    · rintro (h | h)
      · exact absurd hb h
      · exact ⟨by rw [if_neg (by omega)], by omega, fun h2 => by omega⟩
  · rw [if_neg hb]
    exact ⟨fun _ => .inl hb, fun _ => ⟨hwin, hgrant, hvalue⟩⟩

/-- A request for the file `foo` in windows of four packets. -/
def readFooWindow : Packet := readFoo ++ cstr "windowsize" ++ [0] ++ cstr "4" ++ [0]

/-- The server when it comes to the window of that request. -/
def daemonAtWindow (c : DaemonConfig) : Daemon :=
  { opts := c.optionTable.recorded [(cstr "windowsize", cstr "4")], segsize := 512, timeout := c.xopt.rexmtval,
    rexmtval := c.xopt.rexmtval, maxtimeout := c.xopt.rexmtval * TIMEOUT_LIMIT }

/-- With `--window-bytes 0` the request is answered without a window. -/
theorem zero_window_bytes_lockstep :
    ∃ c, DaemonConfig.ofArgs [.windowBytes (cstr "0")] = some c ∧
      ¬ WindowAsDocumented c 512 4 (negotiateWindowsizeWord c (daemonAtWindow c)) ∧
      ∃ r, tftp c {} .empty readFooWindow = .ok r ∧ r.daemon.windowsize = 1 ∧ r.oack = none := by
  refine ⟨_, rfl, ?_, _, rfl, rfl, rfl⟩
  rintro ⟨hwindow, -⟩
  exact absurd hwindow (by decide)

/-- With the default limit it gets the window it asks for. -/
theorem window_as_documented_iff_four :
    WindowAsDocumented {} 512 4 (negotiateWindowsizeWord {} (daemonAtWindow {})) ∧
      (negotiateWindowsizeWord {} (daemonAtWindow {})).windowsize = 4 :=
  ⟨(window_as_documented_iff (c := {}) (d := daemonAtWindow {}) rfl rfl (by decide) (by decide)).mpr
    (.inl (by decide)), by decide⟩

/-! ### Block sizes -/

section

variable {m : ℕ} {d : Daemon}

theorem acceptBlksize2_eq_some {b : ℕ} {po : Option DaemonProtocolOption} (h : acceptBlksize2 m po = some b) :
    ∃ blk2, po = some blk2 ∧ MIN_SEGSIZE ≤ blk2.uint ∧ b ≤ blk2.uint := by
  cases po with
  | none => cases h
  | some blk2 =>
    simp only [acceptBlksize2] at h
    split_ifs at h with hmin hmax
    · obtain rfl := Option.some.inj h
      exact ⟨blk2, rfl, Nat.not_lt.mp hmin, (roundDownPowerOf2_le _).trans hmax.le⟩
    · obtain rfl := Option.some.inj h
      exact ⟨blk2, rfl, Nat.not_lt.mp hmin, roundDownPowerOf2_le _⟩

/-- A `blksize` that stands sets the block size to its own value, cut to the maximum. -/
theorem acceptBlksize_eq (b : ℕ) (po : Option DaemonProtocolOption) :
    (acceptBlksize m b po).2 = b ∨ ∃ blk, po = some blk ∧ (acceptBlksize m b po).2 = min blk.uint m := by
  cases po with
  | none => exact .inl rfl
  | some blk =>
    simp only [acceptBlksize]
    split_ifs with hmin hmax hlt
    · exact .inl rfl
    · exact .inr ⟨blk, rfl, (min_eq_right hmax.le).symm⟩
    · exact .inl rfl
    · exact .inr ⟨blk, rfl, (min_eq_left (Nat.not_lt.mp hmax)).symm⟩

/-- A granted `blksize` is within bounds and no larger than what was asked for. -/
theorem negotiateBlksize_blksize (hm : MIN_SEGSIZE ≤ m) (hack : (d.opts .blksize).ack = false)
    (hg : optGranted ((negotiateBlksize m d).opts .blksize) = true) {v : ℕ}
    (hv : v = ((negotiateBlksize m d).opts .blksize).uint) :
    v ≤ (d.opts .blksize).uint ∧ v ≤ m ∧ MIN_SEGSIZE ≤ v := by
  obtain ⟨hseg, hle⟩ := negotiateBlksize_granted hack hg
  refine ⟨hv ▸ hseg ▸ hle, ?_⟩
  simp only [negotiateBlksize] at hg hv
  set two := acceptBlksize2 m (optRequested d.opts .blksize2)
  set one := acceptBlksize m (two.getD 0) (optRequested d.opts .blksize)
  have hkeep := fun b b' => (Negotiates.ackValueIf (d.ackValueIf b .blksize one.2) b' .blksize2 one.2).opts_eq
    .blksize (by decide)
  rw [hkeep, ackValueIf_opts] at hg hv
  cases hblk : one.1 && decide (one.2 ≠ 0) with
  | false =>
    rw [hblk] at hg
    simp [optGranted, hack] at hg
  | true =>
    rw [hblk] at hv
    obtain rfl : v = one.2 := hv
    rw [Bool.and_eq_true] at hblk
    rcases acceptBlksize_cases hm (two.getD 0) (optRequested d.opts .blksize) with he | ⟨-, -, h₁, h₂⟩
    · exact absurd (hblk.1.symm.trans (congrArg Prod.fst he)) (by simp)
    · exact ⟨h₂, h₁⟩

/-- A granted `blksize2` is a power of two within bounds, and no larger than what was asked
for unless `blksize` has set it. -/
theorem negotiateBlksize_blksize2 (hm : MIN_SEGSIZE ≤ m) (hack : (d.opts .blksize2).ack = false)
    (hg : optGranted ((negotiateBlksize m d).opts .blksize2) = true) {v : ℕ}
    (hv : v = ((negotiateBlksize m d).opts .blksize2).uint) :
    MIN_SEGSIZE ≤ v ∧ v ≤ m ∧ (∃ k, v = 2 ^ k) ∧ ∃ blk2, optRequested d.opts .blksize2 = some blk2 ∧
      MIN_SEGSIZE ≤ blk2.uint ∧
      (v ≤ blk2.uint ∨ ∃ blk, optRequested d.opts .blksize = some blk ∧ v = min blk.uint m) := by
  simp only [negotiateBlksize] at hg hv
  set two := acceptBlksize2 m (optRequested d.opts .blksize2) with htwo
  set one := acceptBlksize m (two.getD 0) (optRequested d.opts .blksize) with hone
  have hkeep := fun b => (Negotiates.ackValueIf d b .blksize one.2).opts_eq .blksize2 (by decide)
  rw [ackValueIf_opts, hkeep] at hg hv
  cases hblk2 : two.isSome && decide (one.2 ≠ 0) && decide (one.2 &&& (one.2 - 1) = 0) with
  | false =>
    rw [hblk2] at hg
    simp [optGranted, hack] at hg
  | true =>
    rw [hblk2] at hv
    obtain rfl : v = one.2 := hv
    simp only [Bool.and_eq_true, decide_eq_true_eq] at hblk2
    obtain ⟨⟨hsome, hne⟩, hpow⟩ := hblk2
    obtain ⟨b, hb⟩ := Option.isSome_iff_exists.mp hsome
    obtain ⟨blk2, hreq2, hmin, hle⟩ := acceptBlksize2_eq_some (htwo ▸ hb)
    have hbounds : MIN_SEGSIZE ≤ one.2 ∧ one.2 ≤ m := by
      rcases acceptBlksize_cases hm (two.getD 0) (optRequested d.opts .blksize) with he | ⟨-, -, h₁, h₂⟩
      · rw [hone, he, hb]
        exact acceptBlksize2_bounds hm (htwo ▸ hb)
      · exact ⟨h₁, h₂⟩
    refine ⟨hbounds.1, hbounds.2, eq_two_pow_of_and_pred hne hpow, blk2, hreq2, hmin, ?_⟩
    rcases acceptBlksize_eq (m := m) (two.getD 0) (optRequested d.opts .blksize) with he | ⟨blk, hblk, he⟩
    · left
      rw [hone, he, hb]
      exact hle
    · exact .inr ⟨blk, hblk, he⟩

/-- `blksize` and `blksize2` both stand in the request, and the first one asks for a larger
block, which comes to a power of two. -/
def Undercut (m : ℕ) (t : OptionTable) : Prop :=
  ∃ blk blk2, optRequested t .blksize = some blk ∧ optRequested t .blksize2 = some blk2 ∧
    MIN_SEGSIZE ≤ blk2.uint ∧ blk2.uint < min blk.uint m ∧ ∃ k, min blk.uint m = 2 ^ k

/-- Then `blksize2` is granted with the value of `blksize`. -/
theorem negotiateBlksize_of_undercut {blk blk2 : DaemonProtocolOption} {k : ℕ}
    (hreq : optRequested d.opts .blksize = some blk) (hreq2 : optRequested d.opts .blksize2 = some blk2)
    (hmin : MIN_SEGSIZE ≤ blk2.uint) (hlt : blk2.uint < min blk.uint m) (hpow : min blk.uint m = 2 ^ k) :
    optGranted ((negotiateBlksize m d).opts .blksize2) = true ∧
      ((negotiateBlksize m d).opts .blksize2).uint = min blk.uint m := by
  obtain ⟨b, hb⟩ : ∃ b, acceptBlksize2 m (optRequested d.opts .blksize2) = some b := by
    rw [hreq2]
    exact ⟨_, if_neg (Nat.not_lt.mpr hmin)⟩
  obtain ⟨blk2', hreq2', -, hle⟩ := acceptBlksize2_eq_some hb
  obtain rfl : blk2 = blk2' := Option.some.inj (hreq2.symm.trans hreq2')
  have hone : (acceptBlksize m b (optRequested d.opts .blksize)).2 = min blk.uint m := by
    have h8 : ¬ blk.uint < MIN_SEGSIZE := by omega
    rw [hreq, acceptBlksize, if_neg h8]
    split_ifs with hmax hrej
    · exact (min_eq_right hmax.le).symm
    · omega
    · exact (min_eq_left (Nat.not_lt.mp hmax)).symm
  have hne : min blk.uint m ≠ 0 := by omega
  have hand : min blk.uint m &&& (min blk.uint m - 1) = 0 := by rw [hpow, two_pow_and_pred]
  have hkeep := fun b' => (Negotiates.ackValueIf d b' .blksize (min blk.uint m)).opts_eq .blksize2 (by decide)
  have hreq' := (optRequested_eq_some.mp hreq2).1
  simp only [negotiateBlksize, hb, Option.getD_some, hone, hand]
  rw [ackValueIf_opts, hkeep]
  generalize min blk.uint m = v at hne ⊢
  simp [optGranted, hreq', hne]

end

/-- The options of the first two stages are left alone by the others. -/
theorem negotiateOptions_opts {c : DaemonConfig} (hc : c.rejectAllOptions = false) (peer : Socket) (d : Daemon) :
    (∀ o, o = .blksize ∨ o = .blksize2 →
      (negotiateOptions c peer d).1.opts o = (negotiateBlksize (tftpMaxBlksize c.xopt peer) d).opts o) ∧
    (negotiateOptions c peer d).1.opts .windowsize =
      (negotiateWindowsize c (negotiateBlksize (tftpMaxBlksize c.xopt peer) d)).opts .windowsize := by
  rw [(negotiateOptions_eq hc peer d).1]
  set d₁ := negotiateBlksize (tftpMaxBlksize c.xopt peer) d
  have n₂ := negotiates_windowsize c d₁
  have n₃ := (negotiates_tsize (negotiateWindowsize c d₁)).trans (negotiates_rest _)
  refine ⟨?_, n₃.opts_eq _ (by decide)⟩
  rintro o (rfl | rfl)
  · exact (n₂.trans n₃).opts_eq _ (by decide)
  · exact (n₂.trans n₃).opts_eq _ (by decide)

/-- A granted window is within the limits. -/
theorem negotiateOptions_window {c : DaemonConfig} (hc : c.rejectAllOptions = false) (peer : Socket) {d : Daemon}
    (hack : (d.opts .windowsize).ack = false)
    (hg : optGranted ((negotiateOptions c peer d).1.opts .windowsize) = true) :
    ((negotiateOptions c peer d).1.opts .windowsize).uint ≤ (d.opts .windowsize).uint ∧
      ((negotiateOptions c peer d).1.opts .windowsize).uint ≤ c.xopt.maxWindowsize := by
  rw [(negotiateOptions_opts hc peer d).2] at hg ⊢
  set d₁ := negotiateBlksize (tftpMaxBlksize c.xopt peer) d with hd₁
  have hasked : d₁.opts .windowsize = d.opts .windowsize :=
    (negotiates_blksize (tftpMaxBlksize c.xopt peer) d).opts_eq _ (by decide)
  have n₂ := negotiates_windowsize c d₁
  have hreq : optRequested d₁.opts .windowsize = some (d₁.opts .windowsize) := by
    have hreq := hg
    simp only [optGranted, Bool.and_eq_true, Bool.not_eq_true', n₂.req_eq, n₂.refuse_eq] at hreq
    exact optRequested_eq_some.mpr ⟨⟨hreq.1.2, hreq.2⟩, rfl⟩
  have hseg : 0 < d₁.segsize := by
    rcases negotiateBlksize_cases (tftpMaxBlksize_bounds c.xopt peer).1 d with h | ⟨h, -⟩
    · rw [hd₁, h]
      decide
    · exact lt_of_lt_of_le (by decide) h
  obtain ⟨-, hgrant, hvalue⟩ := negotiateWindowsize_eq (c := c) hreq (hasked ▸ hack) hseg rfl
  rw [hvalue (hgrant.mp hg), hasked]
  omega

/-! ### Grants -/

/-- The OACK has the option `o` with the number `v` in it. -/
def AcceptedRequest.Grants (r : AcceptedRequest) (o : ProtocolOption) (v : ℕ) : Prop :=
  ∃ pkt ps p, r.oack = some pkt ∧ splitPairs 0 (pkt.drop 2) = some ps ∧ p ∈ ps ∧ o.names p = true ∧
    p.2 = Decimal.numeral v

section

variable {c : DaemonConfig} {peer : Socket} {tp : Packet} {name mode rest : Bytes} {more : List Bytes}
  {file : OpenedFile} {r : AcceptedRequest} {o : ProtocolOption}

theorem oackPair_names
    (hn : negotiateOptions c peer (.start c (c.optionTable.recorded (pairs more)) file) = (r.daemon, r.oack))
    (hg : optGranted (r.daemon.opts o) = true) : o.names (oackPair r.daemon.opts o) = true := by
  have hneg := negotiates_options c peer (.start c (c.optionTable.recorded (pairs more)) file)
  rw [hn] at hneg
  obtain ⟨-, q, -, hq, -, -, hname⟩ := recorded_of_req (hneg.of_granted rfl hg).1
  have hnames := (List.mem_filter.mp (List.mem_of_getLast? hq)).2
  have hclient : (oackPair r.daemon.opts o).1 = q.1 := (hneg.clientName_eq o).trans hname
  rw [ProtocolOption.names, hclient]
  exact hnames

/-- What the OACK says is what the option table says. -/
theorem grants_iff (ho : o.otype = .uint) (hlen : tp.length ≤ PKTSIZE)
    (hcut : Cut 0 (tp.drop 2) (name :: mode :: more) rest)
    (hn : negotiateOptions c peer (.start c (c.optionTable.recorded (pairs more)) file) = (r.daemon, r.oack))
    (v : ℕ) : r.Grants o v ↔ optGranted (r.daemon.opts o) = true ∧ (r.daemon.opts o).uint = v := by
  obtain ⟨hnone, hsome⟩ := oack_text hlen hcut hn
  have hvalue : (oackPair r.daemon.opts o).2 = Decimal.numeral (r.daemon.opts o).uint := by
    rw [oackPair, oackValue, ho]
  constructor
  · rintro ⟨pkt, ps, p, hpkt, hps, hp, hnames, hv⟩
    rw [(hsome pkt hpkt).2.2.1] at hps
    obtain rfl := Option.some.inj hps
    obtain ⟨o', ho', rfl⟩ := List.mem_map.mp hp
    have hg' := mem_granted.mp ho'
    obtain rfl : o = o' := ProtocolOption.name_injective
      ((of_decide_eq_true hnames).symm.trans (of_decide_eq_true (oackPair_names hn hg')))
    refine ⟨hg', ?_⟩
    rw [← Decimal.value_numeral (r.daemon.opts o).uint, ← hvalue, hv, Decimal.value_numeral]
  · rintro ⟨hg, rfl⟩
    obtain ⟨pkt, hpkt⟩ : ∃ pkt, r.oack = some pkt := by
      refine Option.ne_none_iff_exists'.mp fun h => ?_
      exact absurd (mem_granted.mpr hg) (by rw [hnone.mp h]; simp)
    exact ⟨pkt, _, _, hpkt, (hsome pkt hpkt).2.2.1, List.mem_map_of_mem (mem_granted.mpr hg),
      oackPair_names hn hg, hvalue⟩

/-- With `--reject-all` there is no OACK. -/
theorem not_grants (hc : c.rejectAllOptions = true) {d : Daemon}
    (hn : negotiateOptions c peer d = (r.daemon, r.oack)) (o : ProtocolOption) (v : ℕ) : ¬ r.Grants o v := by
  have hoack : r.oack = none := by
    rw [negotiateOptions, if_pos hc] at hn
    exact (congrArg Prod.snd hn).symm
  rintro ⟨pkt, ps, p, hpkt, -⟩
  rw [hoack] at hpkt
  cases hpkt

end

/-- No option is granted with more than the client has asked for in it, or more than the
server allows. -/
structure WithinLimits (asked : OptionTable) (maxBlksize maxWindowsize : ℕ) (r : AcceptedRequest) : Prop where
  blksize : ∀ v, r.Grants .blksize v → v ≤ (asked .blksize).uint ∧ v ≤ maxBlksize ∧ 8 ≤ v ∧ v ≤ 65464
  blksize2 : ∀ v, r.Grants .blksize2 v → v ≤ (asked .blksize2).uint ∧ v ≤ maxBlksize ∧ 8 ≤ v ∧ v ≤ 65464 ∧
    ∃ k, v = 2 ^ k
  windowsize : ∀ v, r.Grants .windowsize v → v ≤ (asked .windowsize).uint ∧ v ≤ maxWindowsize

/-- Grants stay within the request, except that `blksize2` can be granted with the larger
value of `blksize`. -/
theorem within_limits_iff {c : DaemonConfig} {peer : Socket} {h : Handlers} {tp : Packet} {r : AcceptedRequest}
    (hlen : tp.length ≤ PKTSIZE) (hr : tftp c peer h tp = .ok r) :
    ∃ name mode more rest, Cut 0 (tp.drop 2) (name :: mode :: more) rest ∧
      (WithinLimits (c.optionTable.recorded (pairs more)) (tftpMaxBlksize c.xopt peer) c.xopt.maxWindowsize r ↔
        c.rejectAllOptions = true ∨
          ¬ Undercut (tftpMaxBlksize c.xopt peer) (c.optionTable.recorded (pairs more))) := by
  obtain ⟨name, mode, more, rest, file, hcut, hn⟩ := tftp_negotiates hr
  refine ⟨name, mode, more, rest, hcut, ?_⟩
  have hgrants := fun o (ho : o.otype = .uint) v => grants_iff (o := o) ho hlen hcut hn v
  have hack := fun o => (recorded_ack c (pairs more) o).1
  obtain ⟨hm, hm'⟩ := tftpMaxBlksize_bounds c.xopt peer
  set asked := c.optionTable.recorded (pairs more)
  cases hc : c.rejectAllOptions with
  | true =>
    have hno := not_grants hc hn
    exact iff_of_true ⟨fun v hv => absurd hv (hno _ v), fun v hv => absurd hv (hno _ v),
      fun v hv => absurd hv (hno _ v)⟩ (.inl rfl)
  | false =>
    obtain ⟨hblk, hwin⟩ := negotiateOptions_opts hc peer (.start c asked file)
    have hwindow := negotiateOptions_window hc peer (d := .start c asked file) (hack .windowsize)
    rw [hn] at hblk hwin hwindow
    dsimp only at hblk hwin hwindow
    rw [or_iff_right (by decide)]
    constructor
    · rintro hwithin ⟨blk, blk2, hreq, hreq2, hmin, hlt, k, hpow⟩
      obtain ⟨hg, hv⟩ := negotiateBlksize_of_undercut (d := .start c asked file) hreq hreq2 hmin hlt hpow
      rw [← hblk _ (.inr rfl)] at hg hv
      have hle := (hwithin.blksize2 _ ((hgrants .blksize2 rfl _).mpr ⟨hg, rfl⟩)).1
      rw [hv] at hle
      obtain rfl := eq_of_optRequested hreq2
      omega
    · intro hnot
      refine ⟨fun v hv => ?_, fun v hv => ?_, fun v hv => ?_⟩
      · obtain ⟨hg, rfl⟩ := (hgrants .blksize rfl v).mp hv
        rw [hblk _ (.inl rfl)] at hg ⊢
        obtain ⟨h₁, h₂, h₃⟩ := negotiateBlksize_blksize hm (hack .blksize) hg rfl
        exact ⟨h₁, h₂, h₃, h₂.trans hm'⟩
      · obtain ⟨hg, rfl⟩ := (hgrants .blksize2 rfl v).mp hv
        rw [hblk _ (.inr rfl)] at hg ⊢
        obtain ⟨h₁, h₂, ⟨k, hk⟩, blk2, hreq2, hmin, hcases⟩ := negotiateBlksize_blksize2 hm (hack .blksize2) hg rfl
        obtain rfl := eq_of_optRequested hreq2
        refine ⟨?_, h₂, h₁, h₂.trans hm', k, hk⟩
        rcases hcases with hle | ⟨blk, hreq, hv⟩
        · exact hle
        · by_contra hlt
          exact hnot ⟨blk, _, hreq, hreq2, hmin, hv ▸ Nat.not_le.mp hlt, k, hv ▸ hk⟩
      · obtain ⟨hg, rfl⟩ := (hgrants .windowsize rfl v).mp hv
        exact hwindow hg

/-- A request that asks for blocks of 1024 bytes, or of 512 if it has to be a power of
two. -/
def readFooTwice : Packet :=
  readFoo ++ cstr "blksize" ++ [0] ++ cstr "1024" ++ [0] ++ cstr "blksize2" ++ [0] ++ cstr "512" ++ [0]

def askedTwice : List (Bytes × Bytes) := [(cstr "blksize", cstr "1024"), (cstr "blksize2", cstr "512")]

/-- The answer grants `blksize2` with 1024. -/
theorem blksize2_exceeds_request :
    ∃ r, tftp {} {} .empty readFooTwice = .ok r ∧ r.Grants .blksize2 1024 ∧
      (({} : DaemonConfig).optionTable.recorded askedTwice .blksize2).uint = 512 ∧
      ¬ WithinLimits (({} : DaemonConfig).optionTable.recorded askedTwice) 65464 256 r := by
  obtain ⟨r, hr⟩ : ∃ r, tftp {} {} .empty readFooTwice = .ok r := ⟨_, rfl⟩
  obtain ⟨name, mode, more, rest, file, hcut, hn⟩ := tftp_negotiates hr
  have hcut' : Cut 0 (readFooTwice.drop 2) [cstr "foo", cstr "octet", cstr "blksize", cstr "1024",
    cstr "blksize2", cstr "512"] [] := ⟨rfl, by decide, by decide⟩
  obtain ⟨hss, rfl⟩ := hcut.unique hcut'
  cases hss
  have hasked : MIN_SEGSIZE ≤ (({} : DaemonConfig).optionTable.recorded askedTwice .blksize2).uint ∧
      (({} : DaemonConfig).optionTable.recorded askedTwice .blksize2).uint <
        min (({} : DaemonConfig).optionTable.recorded askedTwice .blksize).uint 65464 ∧
      min (({} : DaemonConfig).optionTable.recorded askedTwice .blksize).uint 65464 = 2 ^ 10 := by decide
  obtain ⟨hg, hv⟩ := negotiateBlksize_of_undercut
    (d := .start {} (({} : DaemonConfig).optionTable.recorded askedTwice) file) rfl rfl hasked.1 hasked.2.1 hasked.2.2
  have hopts := (negotiateOptions_opts (c := {}) rfl {}
    (.start {} (({} : DaemonConfig).optionTable.recorded askedTwice) file)).1 .blksize2 (.inr rfl)
  rw [show negotiateOptions {} {} (.start {} (({} : DaemonConfig).optionTable.recorded askedTwice) file) =
    (r.daemon, r.oack) from hn] at hopts
  have hgrants : r.Grants .blksize2 1024 := (grants_iff rfl (by decide) hcut hn 1024).mpr
    ⟨(congrArg optGranted hopts).trans hg, (congrArg DaemonProtocolOption.uint hopts).trans hv⟩
  refine ⟨r, hr, hgrants, rfl, fun hwithin => ?_⟩
  exact absurd (hwithin.blksize2 1024 hgrants).1 (by decide)

/-- A request with `blksize` alone is answered within its limits. -/
theorem within_limits_iff_foo :
    readFooBlksize.length ≤ PKTSIZE ∧ ∃ r, tftp {} {} .empty readFooBlksize = .ok r ∧
      ∃ asked, WithinLimits asked 65464 256 r := by
  obtain ⟨r, hr⟩ : ∃ r, tftp {} {} .empty readFooBlksize = .ok r := ⟨_, rfl⟩
  obtain ⟨name, mode, more, rest, hcut, hiff⟩ := within_limits_iff (by decide) hr
  have hcut' : Cut 0 (readFooBlksize.drop 2) [cstr "foo", cstr "octet", cstr "BlkSize", cstr "1024"] [] :=
    ⟨rfl, by decide, by decide⟩
  obtain ⟨hss, rfl⟩ := hcut.unique hcut'
  cases hss
  refine ⟨by decide, r, hr, _, hiff.mpr (.inr ?_)⟩
  rintro ⟨blk, blk2, -, hreq2, -⟩
  cases hreq2

end TftpHpa
