import TftpHpa.Client.RoundTrip

/-! What the two sides work with once the server has accepted a request: the client knows it
from the OACK, or from there being none. -/

namespace TftpHpa

/-- The sizes the client takes over are the server's, and the OACK fits its buffer. -/
structure Terms (optreq : Optreq) (r : AcceptedRequest) : Prop where
  rollover : r.daemon.rolloverVal = 0
  windowsize_pos : 1 ≤ r.daemon.windowsize
  windowsize_le : r.daemon.windowsize ≤ 32768
  oack : ∀ oack, r.oack = some oack → oack.opcode = Opcode.oack.code ∧ oack.length ≤ TFTP_OPTION_SPACE + 2 ∧
    ∃ optack, parseOack optreq oack = some optack ∧ optack.blksize = r.daemon.segsize ∧
      optack.window = r.daemon.windowsize
  oack_long : ∀ oack, r.oack = some oack → 4 ≤ oack.length
  plain : r.oack = none → r.daemon.segsize = optreqInit.blksize ∧ r.daemon.windowsize = optreqInit.window

/-- Without the option there is no rollover. -/
theorem negotiateOptions_rollover {c : DaemonConfig} (hc : c.rejectAllOptions = false) (peer : Socket) {d : Daemon}
    (hreq : (d.opts .rollover).req = false) : (negotiateOptions c peer d).1.rolloverVal = 0 := by
  rw [negotiateOptions, if_neg (by simp [hc])]
  dsimp only
  have hbefore := (((negotiates_blksize (tftpMaxBlksize c.xopt peer) d).trans (negotiates_windowsize c _)).trans
    (negotiates_tsize _)).trans (negotiates_timeout _)
  rw [(negotiateCookie_values _).2, negotiateRollover, optRequested, hbefore.opts_eq .rollover (by decide), hreq]
  rfl

theorem length_grant_le {t : OptionTable} {o : ProtocolOption} (h : ∀ p ∈ grant t o, p.2 < 2 ^ 64) :
    ((grant t o).flatMap optionText).length ≤ optSpace o := by
  unfold grant at h ⊢
  split_ifs at h ⊢
  · simpa using length_optionText (h _ (List.mem_singleton_self _))
  · exact Nat.zero_le _

theorem length_flatMap_optionText {ps : List (ProtocolOption × ℕ)} (h : ps ≠ []) :
    2 ≤ (ps.flatMap optionText).length := by
  obtain ⟨p, ps, rfl⟩ := List.exists_cons_of_ne_nil h
  simp only [List.flatMap_cons, optionText, List.length_append, List.length_cons, List.length_nil]
  omega

/-- The OACK needs no more room than the options of the request. -/
theorem Asks.length_grants_le {optreq : Optreq} {sent : List (ProtocolOption × ℕ)} {c : DaemonConfig}
    {d d' : Daemon} (h : Asks optreq sent) (hd : d.opts = sent.foldl OptionTable.ask c.optionTable)
    (hn : Negotiated d d') (hsize : d.tsizeSize ≤ OFF_T_MAX) :
    ((grants d'.opts).flatMap optionText).length ≤ TFTP_OPTION_SPACE := by
  have hlt := h.grants_lt hd hn hsize
  rw [h.grants_eq hd hn] at hlt ⊢
  have hblk := length_grant_le fun p hp => hlt p (List.mem_append_left _ (List.mem_append_left _ hp))
  have htsize := length_grant_le fun p hp => hlt p (List.mem_append_left _ (List.mem_append_right _ hp))
  have hwin := length_grant_le fun p hp => hlt p (List.mem_append_right _ hp)
  simp only [List.flatMap_append, List.length_append, TFTP_OPTION_SPACE]
  omega

/-- A request that was made by the client and accepted by the server. -/
theorem Terms.of_request {c : DaemonConfig} (hc : c.rejectAllOptions = false) {x : CommonOptions}
    {noOptions : Bool} {client server : Socket} {h : Handlers} {optreq₀ optreq : Optreq}
    (htsize : optreq₀.tsize ≤ OFF_T_MAX) {request : UInt16} {name : Bytes} (hname : (0 : UInt8) ∉ name) {pf : Format}
    {pkt : Packet} {r : AcceptedRequest}
    (hreq : makerequest noOptions x client optreq₀ request name pf.mode = some (pkt, optreq))
    (hr : tftp c server h pkt = .ok r) : Terms optreq r ∧ r.format = pf := by
  have hasks := setOptions_asks noOptions x client htsize
  have hlimits := setOptions_limits noOptions x client optreq₀
  simp only [makerequest] at hreq
  split_ifs at hreq
  obtain ⟨rfl, rfl⟩ := Prod.mk.inj (Option.some.inj hreq)
  set sent := (setOptions noOptions x client optreq₀).2
  set optreq := (setOptions noOptions x client optreq₀).1
  obtain ⟨args, file, hscan, hpf, -, -, hn⟩ := tftp_eq_ok hr
  -- the server reads the strings of the request
  have hne : name ≠ [] := by
    rintro rfl
    cases hscan
    cases hpf
  have hsent := hasks.uint hlimits.1 hlimits.2
  obtain ⟨args', hscan', -, hformat, hopts⟩ := scanArgs_written hne hname pf hsent c.optionTable
  obtain rfl := Except.ok.inj (hscan'.symm.trans hscan)
  obtain ⟨hneg, hoack⟩ := negotiateOptions_negotiated hc server (.start c args'.opts file)
  have hroll : ((Daemon.start c args'.opts file).opts .rollover).req = false := by
    change (args'.opts .rollover).req = false
    rw [hopts, (foldl_ask hasks.nodup c.optionTable).1 .rollover]
    · rfl
    · intro hmem
      obtain ⟨p, hp, hp1⟩ := List.mem_map.mp hmem
      rcases hasks.value p hp with rfl | rfl | ⟨h1, -⟩
      · cases hp1
      · cases hp1
      · cases h1.symm.trans hp1
  have hrollover := negotiateOptions_rollover hc server hroll
  rw [hn] at hneg hoack hrollover
  dsimp only at hneg hoack hrollover
  obtain ⟨optack, hack, hblk, hwin, -⟩ := hasks.agree hopts hneg file.size_le
  have htext := hasks.oack hopts hneg hsent
  rw [← hoack] at htext
  refine ⟨⟨hrollover, hneg.windowsize_pos, hneg.windowsize_le, fun oack ho => ?_, fun oack ho => ?_, fun ho => ?_⟩,
    Option.some.inj (hpf.symm.trans hformat)⟩
  · rw [ho] at htext
    split_ifs at htext with hg
    obtain rfl := Option.some.inj htext
    refine ⟨ntohs_htons Opcode.oack.code, ?_, optack, ?_, hblk, hwin⟩
    · have hlen := hasks.length_grants_le hopts hneg file.size_le
      rw [List.length_append, htons_length]
      omega
    · rw [parseOack_htons (flatMap_optionText_ne_nil hg), parseOackOptions_flatMap
        (hasks.grants_lt hopts hneg file.size_le), hack]
  · rw [ho] at htext
    split_ifs at htext with hg
    obtain rfl := Option.some.inj htext
    have hlen := length_flatMap_optionText hg
    rw [List.length_append, htons_length]
    omega
  · rw [ho] at htext
    split_ifs at htext with hg
    rw [hg] at hack
    obtain rfl : optreqInit = optack := Option.some.inj hack
    exact ⟨hblk.symm, hwin.symm⟩

/-- A server that rejects all options sends no OACK and has no block size. -/
theorem tftp_rejectAll {c : DaemonConfig} (hc : c.rejectAllOptions = true) {peer : Socket} {h : Handlers}
    {tp : Packet} {r : AcceptedRequest} (hr : tftp c peer h tp = .ok r) : r.oack = none ∧ r.daemon.segsize = 0 := by
  obtain ⟨args, file, -, -, -, -, hn⟩ := tftp_eq_ok hr
  rw [negotiateOptions, if_pos hc] at hn
  obtain ⟨hd, ho⟩ := Prod.mk.inj hn
  exact ⟨ho.symm, by rw [← hd]; rfl⟩

end TftpHpa
