import TftpHpa.Client.RoundTrip
import TftpHpa.Lib.Backoff

/-! What the server has settled on when it answers a request: how often it will repeat itself, and
how long its answer is. Neither can be made large by the options of the request. -/

namespace TftpHpa

open Terminated (pairs)

/-! ### Times -/

/-- The retransmission timer: whatever the client has asked for, it runs out after `TRIES` times. -/
structure Daemon.Timed (d : Daemon) : Prop where
  rexmtval_ge : MIN_TIMEOUT ≤ d.rexmtval
  rexmtval_le : d.rexmtval ≤ MAX_TIMEOUT
  maxtimeout_eq : d.maxtimeout = d.rexmtval * TIMEOUT_LIMIT
  timeout_eq : d.timeout = d.rexmtval

theorem Daemon.Timed.rexmtval_pos {d : Daemon} (h : d.Timed) : 0 < d.rexmtval :=
  lt_of_lt_of_le (by decide) h.rexmtval_ge

theorem Daemon.Timed.tries_eq {d : Daemon} (h : d.Timed) : Backoff.tries d.maxtimeout d.rexmtval = TRIES := by
  rw [h.maxtimeout_eq]
  exact Backoff.tries_first h.rexmtval_pos (n := TRIES) (by decide)

/-- None of the times changes. -/
structure SameTimes (d d' : Daemon) : Prop where
  rexmtval : d'.rexmtval = d.rexmtval
  maxtimeout : d'.maxtimeout = d.maxtimeout
  timeout : d'.timeout = d.timeout

namespace SameTimes

theorem trans {d d' d'' : Daemon} (h : SameTimes d d') (k : SameTimes d' d'') : SameTimes d d'' :=
  ⟨k.1.trans h.1, k.2.trans h.2, k.3.trans h.3⟩

theorem timed {d d' : Daemon} (h : SameTimes d d') (hd : d.Timed) : d'.Timed := by
  obtain ⟨hrexmt, hmax, htimeout⟩ := h
  exact ⟨hrexmt ▸ hd.1, hrexmt ▸ hd.2, hmax.trans (hrexmt ▸ hd.3), (htimeout.trans hd.4).trans hrexmt.symm⟩

theorem ackIf (d : Daemon) (b : Bool) (o : ProtocolOption) : SameTimes d (d.ackIf b o) := by
  cases b <;> exact ⟨rfl, rfl, rfl⟩

theorem ackValueIf (d : Daemon) (b : Bool) (o : ProtocolOption) (v : ℕ) : SameTimes d (d.ackValueIf b o v) := by
  cases b <;> exact ⟨rfl, rfl, rfl⟩

theorem negotiateBlksize (m : ℕ) (d : Daemon) : SameTimes d (negotiateBlksize m d) :=
  ((ackValueIf d _ _ _).trans (ackValueIf _ _ _ _)).trans ⟨rfl, rfl, rfl⟩

theorem negotiateWindowsize (c : DaemonConfig) (d : Daemon) : SameTimes d (negotiateWindowsize c d) := by
  unfold TftpHpa.negotiateWindowsize
  split
  · exact ⟨rfl, rfl, rfl⟩
  · dsimp only
    split_ifs <;> exact ⟨rfl, rfl, rfl⟩

theorem negotiateTsize (d : Daemon) : SameTimes d (negotiateTsize d) := by
  unfold TftpHpa.negotiateTsize
  split
  · exact ⟨rfl, rfl, rfl⟩
  · split
    · exact ⟨rfl, rfl, rfl⟩
    · split_ifs <;> exact ⟨rfl, rfl, rfl⟩
    · exact ⟨rfl, rfl, rfl⟩

theorem negotiateRollover (d : Daemon) : SameTimes d (negotiateRollover d) := by
  unfold TftpHpa.negotiateRollover
  split
  · exact ⟨rfl, rfl, rfl⟩
  · split_ifs <;> exact ⟨rfl, rfl, rfl⟩

theorem negotiateCookie (d : Daemon) : SameTimes d (negotiateCookie d) := by
  unfold TftpHpa.negotiateCookie
  split
  · exact ⟨rfl, rfl, rfl⟩
  · split_ifs <;> exact ⟨rfl, rfl, rfl⟩

end SameTimes

/-- The times that may be asked for are in range. -/
theorem timed_negotiateTimeout {d : Daemon} (hd : d.Timed) : (negotiateTimeout d).Timed := by
  unfold negotiateTimeout
  set tos := (optRequested d.opts .timeout).filter fun po => MIN_TIMEOUT_SEC ≤ po.uint ∧ po.uint ≤ MAX_TIMEOUT_SEC
    with htos
  set tou := (optRequested d.opts .utimeout).filter fun po => MIN_TIMEOUT ≤ po.uint ∧ po.uint ≤ MAX_TIMEOUT with htou
  dsimp only
  set us := tou.elim (tos.elim 0 fun po => po.uint * USEC_PER_SEC) fun po => po.uint with hus
  have hsame := (SameTimes.ackIf d (tos.isSome && (tos.elim 0 fun po => po.uint * USEC_PER_SEC) = us) .timeout).trans
    (.ackIf _ tou.isSome .utimeout)
  have hrange : us ≠ 0 → MIN_TIMEOUT ≤ us ∧ us ≤ MAX_TIMEOUT := by
    intro hne
    cases hou : tou with
    | some po =>
      rw [hus, hou]
      have hp := (Option.filter_eq_some_iff.mp (htou.symm.trans hou)).2
      simpa using hp
    | none =>
      rw [hou, Option.elim_none] at hus
      cases hos : tos with
      | none =>
        rw [hos] at hus
        exact absurd hus hne
      | some po =>
        rw [hos, Option.elim_some] at hus
        have hp := (Option.filter_eq_some_iff.mp (htos.symm.trans hos)).2
        rw [decide_eq_true_eq] at hp
        simp only [hus, MIN_TIMEOUT_SEC, MAX_TIMEOUT_SEC, MIN_TIMEOUT, MAX_TIMEOUT, USEC_PER_SEC] at hp ⊢
        omega
  split_ifs with h0
  · exact hsame.timed hd
  · exact ⟨(hrange h0).1, (hrange h0).2, rfl, rfl⟩

theorem timed_negotiateOptions (c : DaemonConfig) (peer : Socket) {d : Daemon} (hd : d.Timed) :
    (negotiateOptions c peer d).1.Timed := by
  unfold negotiateOptions
  split_ifs
  · exact hd
  · have hsizes := ((SameTimes.negotiateBlksize (tftpMaxBlksize c.xopt peer) d).trans (.negotiateWindowsize c _)).trans
      (.negotiateTsize _)
    exact ((SameTimes.negotiateRollover _).trans (.negotiateCookie _)).timed (timed_negotiateTimeout (hsizes.timed hd))

/-! ### The length of the OACK -/

/-- The longest an option can be in an OACK: a cookie is repeated, a number has 20 digits at most. -/
def oackSpace (o : ProtocolOption) : ℕ :=
  match o.otype with
  | .uint => optSpace o
  | .str => o.nsize + (TFTP_MAX_COOKIE + 1)

/-- The longest OACK. -/
def OACK_MAX : ℕ := 2 + (ProtocolOption.all.map oackSpace).sum

/-- The values of the granted options are not longer than that. -/
def OptionTable.Short (t : OptionTable) : Prop := ∀ o, optGranted (t o) = true →
  match o.otype with
  | .uint => (t o).uint < 2 ^ 64
  | .str => (t o).dsize ≤ TFTP_MAX_COOKIE + 1

theorem length_oackEntry_le {t : OptionTable} (h : t.Short) (o : ProtocolOption) :
    (oackEntry t o).length ≤ oackSpace o := by
  unfold oackEntry
  split_ifs with hg
  · have hname : (((t o).clientName ++ [0]).take o.nsize).length ≤ o.nsize := List.length_take_le _ _
    have hshort := h o hg
    rw [List.length_append]
    unfold oackSpace
    split
    · next ho =>
      rw [ho] at hshort
      have hdigits := length_numeral_le hshort
      have hvalue : (((oackValue o (t o)).1 ++ [0]).take (oackValue o (t o)).2).length ≤ DIGIT_SPACE + 1 := by
        refine (List.length_take_le' _ _).trans ?_
        simp only [oackValue, ho, List.length_append, List.length_singleton]
        omega
      unfold optSpace
      omega
    · next ho =>
      rw [ho] at hshort
      have hvalue : (((oackValue o (t o)).1 ++ [0]).take (oackValue o (t o)).2).length ≤ (t o).dsize := by
        refine (List.length_take_le _ _).trans ?_
        simp [oackValue, ho]
      omega
  · exact Nat.zero_le _

theorem length_buildOack_le {t : OptionTable} (h : t.Short) {pkt : Packet} (hp : buildOack t = some pkt) :
    pkt.length ≤ OACK_MAX := by
  unfold buildOack at hp
  dsimp only at hp
  split_ifs at hp
  obtain rfl := Option.some.inj hp
  rw [List.length_append, htons_length, List.length_flatMap, OACK_MAX]
  exact Nat.add_le_add_left (List.sum_le_sum fun o _ => length_oackEntry_le h o) 2

theorem granted_of_buildOack_none {t : OptionTable} (h : buildOack t = none) (o : ProtocolOption) :
    optGranted (t o) = false := by
  unfold buildOack at h
  dsimp only at h
  split_ifs at h with hsum
  have hzero := List.sum_eq_zero_iff.mp hsum _ (List.mem_map_of_mem o.mem_all)
  cases hg : optGranted (t o) with
  | false => rfl
  | true => simp [hg, ProtocolOption.nsize] at hzero

/-- A cookie that is granted is not too long. -/
theorem dsize_of_negotiateCookie {d : Daemon} (hack : (d.opts .cookie).ack = false)
    (hg : optGranted ((negotiateCookie d).opts .cookie) = true) :
    ((negotiateCookie d).opts .cookie).dsize ≤ TFTP_MAX_COOKIE + 1 := by
  have hnone : optGranted (d.opts .cookie) = false := by simp [optGranted, hack]
  unfold negotiateCookie at hg ⊢
  split at hg
  · exact absurd hg (by simp [hnone])
  · next po hpo =>
    obtain rfl := eq_of_optRequested hpo
    split_ifs at hg ⊢ with hsize
    · simpa [Daemon.ack] using hsize
    · exact absurd hg (by simp [hnone])

/-- A number the client has sent fits `uintmax_t`. -/
theorem recorded_uint_lt (c : DaemonConfig) (sent : List (Bytes × Bytes)) (o : ProtocolOption) :
    (c.optionTable.recorded sent o).uint < 2 ^ 64 := by
  simp only [OptionTable.recorded]
  cases hp : (sent.filter o.records).getLast? with
  | none => exact Nat.two_pow_pos 64
  | some p =>
    have hrec := (List.mem_filter.mp (List.mem_of_getLast? hp)).2
    simp only [ProtocolOption.records, Bool.and_eq_true] at hrec
    simp only [Option.elim_some, DaemonProtocolOption.saved]
    have hvalid := hrec.2
    unfold ProtocolOption.valid at hvalid
    split
    · next ho =>
      simp only [ho, Bool.and_eq_true] at hvalid
      exact Nat.lt_succ_of_le (of_decide_eq_true hvalid.2)
    · exact Nat.two_pow_pos 64

/-- What the options that are granted say is short. -/
theorem InEffect.short {c : DaemonConfig} {sent : List (Bytes × Bytes)} {d d' : Daemon} (h : InEffect d d')
    (hn : Negotiated d d') (hd : d.opts = c.optionTable.recorded sent) (ht : d'.Timed)
    (hsize : d.tsizeSize ≤ OFF_T_MAX)
    (hcookie : optGranted (d'.opts .cookie) = true → (d'.opts .cookie).dsize ≤ TFTP_MAX_COOKIE + 1) :
    d'.opts.Short := by
  have hseg : d'.segsize < 2 ^ 64 := lt_of_le_of_lt hn.segsize_le (by decide)
  have htime : d'.rexmtval < 2 ^ 64 := lt_of_le_of_lt ht.rexmtval_le (by decide)
  intro o hg
  cases o with
  | blksize => exact (h.blksize hg).trans_lt hseg
  | blksize2 => exact (h.blksize2 hg).trans_lt hseg
  | cookie => exact hcookie hg
  | rollover => exact (h.rollover hg).trans_lt ((UInt16.toNat_lt _).trans (by decide))
  | timeout =>
    have hle : (d'.opts .timeout).uint ≤ d'.rexmtval := by
      rw [← h.timeout hg]
      exact Nat.le_mul_of_pos_right _ (by decide)
    exact hle.trans_lt htime
  | utimeout => exact (h.utimeout hg).trans_lt htime
  | windowsize => exact (h.windowsize hg).trans_lt (lt_of_le_of_lt hn.windowsize_le (by decide))
  | tsize =>
    have hack : (d.opts .tsize).ack = false := by
      rw [hd]
      exact (recorded_ack c sent .tsize).1
    obtain ⟨heq, hfrom⟩ := hn.tsize hack hg
    refine heq.trans_lt ?_
    rcases hfrom with hfile | hclient
    · exact hfile.trans_lt (hsize.trans_lt (by decide))
    · rw [hclient, hd]
      exact recorded_uint_lt c sent .tsize

/-! ### Accepted requests -/

/-- What holds of every request that has been accepted. -/
structure AcceptedRequest.Settled (r : AcceptedRequest) : Prop where
  timed : r.daemon.Timed
  window : r.daemon.segsize = 0 ∨ 1 ≤ r.daemon.windowsize
  oack_le : ∀ oack, r.oack = some oack → oack.length ≤ OACK_MAX
  plain : r.oack = none → r.daemon.windowsize ≤ 1 ∧ r.daemon.segsize ≤ SEGSIZE

theorem tftp_settled {c : DaemonConfig} {peer : Socket} {h : Handlers} {tp : Packet} {r : AcceptedRequest}
    (hr : tftp c peer h tp = .ok r) : r.Settled := by
  obtain ⟨name, mode, more, rest, file, -, hn⟩ := tftp_negotiates hr
  set d := Daemon.start c (c.optionTable.recorded (pairs more)) file
  have hack : ∀ o, (d.opts o).ack = false := fun o => (recorded_ack c _ o).1
  have htimed := timed_negotiateOptions c peer (d := d) ⟨c.xopt.rexmtval_ge, c.xopt.rexmtval_le, rfl, rfl⟩
  cases hc : c.rejectAllOptions with
  | true =>
    rw [hn] at htimed
    rw [negotiateOptions, if_pos hc] at hn
    obtain ⟨hd, ho⟩ := Prod.mk.inj hn
    refine ⟨htimed, .inl (by rw [← hd]; rfl), fun oack h => ?_, fun _ => ?_⟩
    · cases ho.trans h
    · rw [← hd]
      exact ⟨Nat.zero_le 1, Nat.zero_le SEGSIZE⟩
  | false =>
    obtain ⟨hneg, hoack⟩ := negotiateOptions_negotiated hc peer d
    have heffect := negotiateOptions_inEffect hc peer hack
    have hcookie : optGranted ((negotiateOptions c peer d).1.opts .cookie) = true →
        ((negotiateOptions c peer d).1.opts .cookie).dsize ≤ TFTP_MAX_COOKIE + 1 := by
      rw [negotiateOptions, if_neg (by simp [hc])]
      refine dsize_of_negotiateCookie ?_
      have hbefore := ((((negotiates_blksize (tftpMaxBlksize c.xopt peer) d).trans (negotiates_windowsize c _)).trans
        (negotiates_tsize _)).trans (negotiates_timeout _)).trans (negotiates_rollover _)
      rw [hbefore.opts_eq .cookie (by decide)]
      exact hack .cookie
    have hshort := heffect.short hneg rfl htimed file.size_le hcookie
    rw [hn] at hneg hoack htimed hshort
    dsimp only at hneg hoack htimed hshort
    refine ⟨htimed, .inr hneg.windowsize_pos, fun oack h => length_buildOack_le hshort (hoack.symm.trans h),
      fun h => ?_⟩
    have hnone := granted_of_buildOack_none (hoack.symm.trans h)
    exact ⟨(hneg.windowsize_default (hnone _)).le, (hneg.segsize_default (hnone _) (hnone _)).le⟩

end TftpHpa
