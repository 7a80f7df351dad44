import TftpHpa.Daemon.Upload

/-! How much an upload may write. `tftp` takes the limit from `--max-upload` or from the
size the client announces, and the engine subtracts what it has written from it before
every block. The packets published in a run of the worker are those of a run of the
engine, whose books never exceed the limit. -/

namespace TftpHpa

open Transition

/-! ### The limit -/

namespace DaemonConfig

theorem set_maxUpload_le {c c' : DaemonConfig} (h : c.maxUpload ≤ OFF_T_MAX) {arg : DaemonArg}
    (hs : c.set arg = some c') : c'.maxUpload ≤ OFF_T_MAX := by
  cases arg with
  | maxUpload arg =>
    obtain ⟨v, hv, rfl⟩ := Option.map_eq_some_iff.mp hs
    exact (parseUint_bounds hv).2
  | rejectAll | readonly =>
    cases hs
    exact h
  | _ =>
    obtain ⟨v, -, rfl⟩ := Option.map_eq_some_iff.mp hs
    exact h

theorem maxUpload_le {args : List DaemonArg} {c : DaemonConfig} (h : ofArgs args = some c) :
    c.maxUpload ≤ OFF_T_MAX := by
  have hfold : ∀ {c c' : DaemonConfig}, c.maxUpload ≤ OFF_T_MAX → args.foldlM set c = some c' →
      c'.maxUpload ≤ OFF_T_MAX := by
    clear h c
    induction args with
    | nil =>
      intro c c' hc hs
      cases hs
      exact hc
    | cons arg args ih =>
      intro c c' hc hs
      rw [List.foldlM_cons] at hs
      obtain ⟨c₁, hset, hrest⟩ := Option.bind_eq_some_iff.mp hs
      exact ih (set_maxUpload_le hc hset) hrest
  obtain ⟨c₁, hc₁, rfl⟩ := Option.map_eq_some_iff.mp h
  have hle : c₁.maxUpload ≤ OFF_T_MAX := hfold le_rfl hc₁
  exact hle

end DaemonConfig

/-- The size the client announces, unless the option is refused. -/
def acceptedTsize (c : DaemonConfig) (tp : Packet) : Option ℕ :=
  match scanArgs { opts := c.optionTable } [] (tp.drop 2) with
  | .ok args => (optRequested args.opts .tsize).map fun ts => ts.uint
  | .error _ => none

/-- The smaller of `--max-upload` and the size announced. -/
def sizeLimit (maxUpload : ℕ) : Option ℕ → ℕ
  | none => maxUpload
  | some tsize => min maxUpload tsize

theorem sizeLimit_le (maxUpload : ℕ) (tsize : Option ℕ) : sizeLimit maxUpload tsize ≤ maxUpload := by
  cases tsize with
  | none => exact le_rfl
  | some n => exact min_le_left _ _

section
variable {c : DaemonConfig} {peer : Socket} {tp : Packet}

/-- A size above the limit is refused whatever the mapping and the opening of the file would
have said. -/
theorem tftp_tsize_refused (hw : tp.opcode ≠ Opcode.rrq.code) {n : ℕ} (hn : acceptedTsize c tp = some n)
    (hlt : c.maxUpload < n) : ∃ refusal, ∀ h, tftp c peer h tp = .error refusal := by
  unfold acceptedTsize at hn
  split at hn
  · next args hargs =>
    obtain ⟨ts, hts, rfl⟩ := Option.map_eq_some_iff.mp hn
    simp only [tftp, bind, Except.bind, pure, Except.pure, throw, throwThe, MonadExceptOf.throw, hargs, hw,
      decide_false, Bool.not_false, Bool.and_true]
    cases c.readonly with
    | true => exact ⟨_, fun h => rfl⟩
    | false =>
      cases args.format with
      | none => exact ⟨_, fun h => rfl⟩
      | some pf =>
        refine ⟨.text .access "upload exceeds maximum size", fun h => ?_⟩
        simp [uploadLimit, hts, hlt]
  · cases hn

theorem uploadLimit_eq {h : Handlers} {r : AcceptedRequest} (hw : tp.opcode ≠ Opcode.rrq.code)
    (hr : tftp c peer h tp = .ok r) : r.uploadLimit = sizeLimit c.maxUpload (acceptedTsize c tp) := by
  obtain ⟨args, file, hargs, -, hlimit, -, -⟩ := tftp_eq_ok hr
  simp only [acceptedTsize, hargs]
  simp only [uploadLimit, hw, decide_false, Bool.false_eq_true, if_false] at hlimit
  split at hlimit
  · next hnone =>
    rw [hnone]
    exact (Except.ok.inj hlimit).symm
  · next ts hts =>
    rw [hts]
    split_ifs at hlimit with hlt
    rw [Option.map_some, sizeLimit, min_eq_right (Nat.not_lt.mp hlt)]
    exact (Except.ok.inj hlimit).symm

end

/-! ### What is published -/

theorem length_flatten_payload (ps : List Packet) : (ps.map Packet.payload).flatten.length = payloadBytes ps := by
  rw [List.length_flatten, List.map_map]
  rfl

theorem payload_published (e : RecvLabel) (flush : Option ℤ) :
    (published [e]).map Packet.payload = (ReceivingLabel.engine e flush).payload := by
  cases e <;> rfl

/-- The engine does not publish more than the limit, so it never subtracts more from it. -/
theorem RecvInv.bytes_le {x : Xfer} {a : RecvArgs} {u : List RecvLabel} {s : RecvState} (h : RecvInv x a u s) :
    s.bytes ≤ x.maxBytes := by
  rw [UInt64.le_iff_toNat_le, h.accounts.bytes_eq]
  exact h.accounts.bytes_le

/-- The expected block, when it would exceed the limit; its size is looked at first. -/
theorem RecvInv.recvReceived_exceeds {x : Xfer} {a : RecvArgs} {u : List RecvLabel} {s : RecvState}
    (h : RecvInv x a u s) {p : Packet} (hlen : 4 ≤ p.length) (hop : p.opcode = Opcode.data.code)
    (hblk : p.block = s.block) (hover : x.maxBytes.toNat < payloadBytes (published u) + p.payload.length) :
    ∃ r, (recvReceived x s p).pc = .done r ∧
      r.status = if x.blocksize < p.payload.length then .badData else .sizeExceeded := by
  have hle := h.bytes_le
  rw [payload_length] at hover ⊢
  have hroom : (x.maxBytes - s.bytes).toNat < p.length - 4 := by
    rw [UInt64.toNat_sub_of_le _ _ hle, h.accounts.bytes_eq]
    have := h.accounts.bytes_le
    omega
  rw [recvReceived, if_neg (Nat.not_lt.mpr hlen), hop, if_neg (by decide), if_neg (not_not.mpr rfl), if_pos hblk,
    recvAccept]
  dsimp only
  split_ifs
  · exact ⟨_, rfl, rfl⟩
  · exact ⟨_, rfl, rfl⟩

/-- The worker is done with the engine. -/
def UploadPc.Left : UploadPc → Prop
  | .start | .receiving _ => False
  | _ => True

theorem recvStep_done {x : Xfer} {a : RecvArgs} {s : RecvState} {r : XferResult} (h : s.pc = .done r) (l : RecvLabel) :
    recvStep x a s l = none := by
  cases l <;> simp [recvStep, h]

namespace Upload

variable {a : UploadArgs} {ps : List Bytes} {s s' : Upload} {pc pc' : UploadPc}

/-- Where a step of the worker leads, with the payload it publishes. -/
inductive PcMove (a : UploadArgs) : UploadPc → List Bytes → UploadPc → Prop where
  | begins (io : TftpIo) : PcMove a .start [] (.receiving ⟨recvInit a.xfer a.recvArgs, io, .start a.pthread⟩)
  | receives {x x' : Receiving} {l : ReceivingLabel} (hs : x.step a.xfer a.recvArgs l = some x') :
    PcMove a (.receiving x) l.payload (.receiving x')
  | stays (pc : UploadPc) : PcMove a pc [] pc
  | leaves (pc : UploadPc) {pc' : UploadPc} (hpc' : pc'.Left) : PcMove a pc [] pc'

theorem pcMove_of_step {l : UploadLabel} (hs : s.step a l = some s') : PcMove a s.pc l.payload s'.pc := by
  cases l with
  | start pthreadError =>
    simp only [Upload.step] at hs
    split at hs
    · next hpc =>
      rw [hpc]
      split at hs
      · cases hs
        exact .leaves _ trivial
      · split at hs
        · cases hs
          exact .begins _
        · cases hs
          exact .leaves _ trivial
    · cases hs
  | step l =>
    simp only [Upload.step] at hs
    split at hs
    · next x hpc =>
      obtain ⟨x', hx, hmoved⟩ := Option.bind_eq_some_iff.mp hs
      rw [hpc, (moved_cases hmoved).1]
      exact .receives hx
    · split at hs
      · obtain ⟨⟨io', thread'⟩, -, rfl⟩ := Option.map_eq_some_iff.mp hs
        exact .leaves _ trivial
      · cases hs
    · cases hs
  | timeout =>
    simp only [Upload.step] at hs
    split at hs
    · next x hpc =>
      obtain ⟨x', hx, rfl⟩ := Option.map_eq_some_iff.mp hs
      rw [timer, hpc]
      split
      · exact .leaves _ trivial
      · exact .receives hx
    · cases hs
  | spill n =>
    simp only [Upload.step] at hs
    split at hs
    · split_ifs at hs
      cases hs
      exact .stays _
    · split_ifs at hs
      cases hs
      exact .stays _
    · cases hs
  | stop =>
    simp only [Upload.step] at hs
    split at hs
    · cases hs
      exact .leaves _ trivial
    · cases hs
  | close closed =>
    simp only [Upload.step] at hs
    split at hs
    · split at hs
      · cases hs
        exact .leaves _ trivial
      · cases hs
        exact .leaves _ trivial
    · cases hs
  | dally =>
    simp only [Upload.step] at hs
    split at hs
    · cases hs
      exact .leaves _ trivial
    · cases hs

/-- Behind the worker there is a run of the engine that has published the same payloads. -/
def Accounted (a : UploadArgs) (ps : List Bytes) : UploadPc → Prop
  | .start => ps = []
  | .receiving x => ∃ u, RecvInv a.xfer a.recvArgs u x.recv ∧ (published u).map Packet.payload = ps
  | _ => ps.flatten.length ≤ a.xfer.maxBytes.toNat

theorem Accounted.length_le (h : Accounted a ps pc) : ps.flatten.length ≤ a.xfer.maxBytes.toNat := by
  unfold Accounted at h
  split at h
  · rw [h]
    exact Nat.zero_le _
  · obtain ⟨u, hinv, rfl⟩ := h
    rw [length_flatten_payload]
    exact hinv.accounts.bytes_le
  · exact h

theorem accounted_left (h : ps.flatten.length ≤ a.xfer.maxBytes.toNat) (hpc : pc.Left) : Accounted a ps pc := by
  cases pc with
  | start | receiving x => exact absurd hpc id
  | _ => exact h

theorem Accounted.move (h : Accounted a ps pc) {qs : List Bytes} (hs : PcMove a pc qs pc') :
    Accounted a (ps ++ qs) pc' := by
  cases hs with
  | begins io => exact ⟨[], .init _ _, by rw [show ps = [] from h]; rfl⟩
  | stays => rwa [List.append_nil]
  | leaves _ hpc' =>
    rw [List.append_nil]
    exact accounted_left h.length_le hpc'
  | @receives x x' l hs =>
    obtain ⟨u, hinv, rfl⟩ := h
    rcases Receiving.step_recv hs with ⟨e, flush, rfl, hrecv⟩ | ⟨rfl, hrecv⟩
    · refine ⟨u ++ [e], hinv.step (fun p hp => by cases hp) hrecv, ?_⟩
      rw [published_append, List.map_append, payload_published e flush]
    · exact ⟨u, hrecv ▸ hinv, by simp [ReceivingLabel.payload]⟩

theorem Accounted.of_run {t : List UploadLabel} (hrun : run (Upload.step a) a.init t = some s) :
    Accounted a (t.flatMap UploadLabel.payload) s.pc := by
  have hinit : Accounted a (([] : List UploadLabel).flatMap UploadLabel.payload) a.init.pc := rfl
  refine run_invariant (fun t s => Accounted a (t.flatMap UploadLabel.payload) s.pc) hinit
    (fun t s l s' h hs => ?_) hrun
  rw [List.flatMap_append, List.flatMap_singleton]
  exact h.move (pcMove_of_step hs)

/-- The engine has returned. -/
def Over : UploadPc → Prop
  | .start => False
  | .receiving x => ∃ r, x.recv.pc = .done r
  | _ => True

theorem Over.move (h : Over pc) {qs : List Bytes} (hs : PcMove a pc qs pc') : Over pc' ∧ qs = [] := by
  cases hs with
  | begins io => exact absurd h id
  | stays => exact ⟨h, rfl⟩
  | leaves _ hpc' =>
    refine ⟨?_, rfl⟩
    cases pc' with
    | start | receiving x => exact absurd hpc' id
    | _ => trivial
  | @receives x x' l hs =>
    obtain ⟨r, hr⟩ := h
    rcases Receiving.step_recv hs with ⟨e, flush, rfl, hrecv⟩ | ⟨rfl, hrecv⟩
    · exact absurd hrecv (by simp [recvStep_done hr])
    · exact ⟨⟨r, hrecv ▸ hr⟩, rfl⟩

/-- Nothing is published after the engine has returned. -/
theorem Over.run (h : Over s.pc) {t : List UploadLabel} (hrun : Transition.run (Upload.step a) s t = some s') :
    t.flatMap UploadLabel.payload = [] := by
  have hinv := run_invariant (fun t s => Over s.pc ∧ t.flatMap UploadLabel.payload = []) ⟨h, rfl⟩
    (fun t s l s' hi hs => ?_) hrun
  · exact hinv.2
  · obtain ⟨hover, hnil⟩ := hi.1.move (pcMove_of_step hs)
    rw [List.flatMap_append, List.flatMap_singleton, hi.2, hnil]
    exact ⟨hover, rfl⟩

end Upload

theorem toNat_maxBytes {args : List DaemonArg} {c : DaemonConfig} (hc : DaemonConfig.ofArgs args = some c)
    {peer : Socket} {h : Handlers} {tp : Packet} {a : UploadArgs} (hw : tp.opcode ≠ Opcode.rrq.code)
    (hr : tftp c peer h tp = .ok a.request) :
    a.xfer.maxBytes.toNat = sizeLimit c.maxUpload (acceptedTsize c tp) := by
  have hle : a.request.uploadLimit ≤ OFF_T_MAX := by
    rw [uploadLimit_eq hw hr]
    exact (sizeLimit_le _ _).trans (DaemonConfig.maxUpload_le hc)
  have hlt : a.request.uploadLimit < 2 ^ 64 := lt_of_le_of_lt hle (by decide)
  rw [← uploadLimit_eq hw hr]
  exact UInt64.toNat_ofNat_of_lt' hlt

/-- An upload stays below `--max-upload` and below the size the client has announced, which
itself is refused above `--max-upload` before the file is opened. The expected block that
would exceed the limit ends the transfer and is not published, nor is anything after it. -/
theorem upload_within_limit {args : List DaemonArg} {c : DaemonConfig} (hc : DaemonConfig.ofArgs args = some c)
    (peer : Socket) {tp : Packet} (hw : tp.opcode = Opcode.wrq.code) :
    (∀ n, acceptedTsize c tp = some n → c.maxUpload < n → ∃ refusal, ∀ h, tftp c peer h tp = .error refusal) ∧
    ∀ (h : Handlers) (a : UploadArgs), tftp c peer h tp = .ok a.request → ∀ t s,
      run (Upload.step a) a.init t = some s →
      (t.flatMap UploadLabel.payload).flatten.length ≤ sizeLimit c.maxUpload (acceptedTsize c tp) ∧
      ∀ x, s.pc = .receiving x → x.recv.bytes ≤ a.xfer.maxBytes ∧
        ∀ p flush, x.recv.pc = .recv → 4 ≤ p.length → p.opcode = Opcode.data.code → p.block = x.recv.block →
          sizeLimit c.maxUpload (acceptedTsize c tp) <
            (t.flatMap UploadLabel.payload).flatten.length + p.payload.length →
          ∃ s' x' r, s.step a (.step (.engine (.received p) flush)) = some s' ∧ s'.pc = .receiving x' ∧
            x'.recv.pc = .done r ∧
            r.status = (if a.xfer.blocksize < p.payload.length then .badData else .sizeExceeded) ∧
            ∀ u s'', run (Upload.step a) s' u = some s'' → u.flatMap UploadLabel.payload = [] := by
  have hw' : tp.opcode ≠ Opcode.rrq.code := by
    rw [hw]
    decide
  refine ⟨fun n hn hlt => tftp_tsize_refused hw' hn hlt, fun h a hr t s hrun => ?_⟩
  have hacc := Upload.Accounted.of_run hrun
  rw [← toNat_maxBytes hc hw' hr]
  refine ⟨hacc.length_le, fun x hpc => ?_⟩
  rw [hpc] at hacc
  obtain ⟨u, hinv, hu⟩ := hacc
  refine ⟨hinv.bytes_le, fun p flush hrecv hlen hop hblk hover => ?_⟩
  rw [← hu, length_flatten_payload] at hover
  obtain ⟨r, hdone, hstatus⟩ := hinv.recvReceived_exceeds hlen hop hblk hover
  have hstep : s.step a (.step (.engine (.received p) flush)) =
      some { s with pc := .receiving { x with recv := recvReceived a.xfer x.recv p } } := by
    simp only [Upload.step, hpc, Receiving.step, TftpIo.callback, recvStep, hrecv]
    rfl
  have hover : Upload.Over (.receiving { x with recv := recvReceived a.xfer x.recv p }) := ⟨r, hdone⟩
  exact ⟨_, _, r, hstep, rfl, hdone, hstatus, fun u s'' hu => Upload.Over.run hover hu⟩

/-- A request to write ten bytes in blocks of eight. -/
def writeTen : Packet := writeFoo ++ cstr "tsize" ++ [0] ++ cstr "10" ++ [0]

/-- The first block is written and the worker waits for the second. -/
def uploadEight (reply : Packet) : List UploadLabel :=
  let block := dataPacket 1 (cstr "abcdefgh")
  uploadBegins reply ++ [.step (.engine (.received block) none), .step (.engine (.published block) none),
    .step (.engine .drained none), .step (.engine (.sent (ackPacket 1)) none), .step (.engine .reserved none),
    .step (.engine (.entered false) none)]

theorem upload_within_limit_ten :
    ∃ c r s, DaemonConfig.ofArgs [.maxUpload (cstr "100")] = some c ∧
      tftp c { family := .inet, mtu := none } .empty writeTen = .ok r ∧
      run (Upload.step ⟨r, false, true, none⟩) (UploadArgs.init ⟨r, false, true, none⟩)
        (uploadEight (r.oack.getD [])) = some s ∧
      sizeLimit c.maxUpload (acceptedTsize c writeTen) = 10 ∧
      ((uploadEight (r.oack.getD [])).flatMap UploadLabel.payload).flatten.length ≤
        sizeLimit c.maxUpload (acceptedTsize c writeTen) := by
  obtain ⟨c, hc⟩ : ∃ c, DaemonConfig.ofArgs [.maxUpload (cstr "100")] = some c := ⟨_, rfl⟩
  obtain ⟨r, hr⟩ : ∃ r, tftp c { family := .inet, mtu := none } .empty writeTen = .ok r := by
    obtain rfl := Option.some.inj hc
    exact ⟨_, rfl⟩
  refine ⟨c, r, ?_⟩
  have hw : writeTen.opcode = Opcode.wrq.code := rfl
  have hlimit := (upload_within_limit hc { family := .inet, mtu := none } hw).2 .empty ⟨r, false, true, none⟩ hr
    (uploadEight (r.oack.getD []))
  obtain rfl := Option.some.inj hc
  obtain rfl := Except.ok.inj hr
  exact ⟨_, rfl, rfl, rfl, rfl, (hlimit _ rfl).1⟩

/-- A block of eleven bytes exceeds the limit and the block size, and the engine says the latter. -/
theorem long_block_is_bad_data :
    ∃ r s x result, tftp {} { family := .inet, mtu := none } .empty writeTen = .ok r ∧
      run (Upload.step ⟨r, false, true, none⟩) (UploadArgs.init ⟨r, false, true, none⟩)
        (uploadBegins (r.oack.getD []) ++ [.step (.engine (.received (dataPacket 1 (cstr "abcdefghijk"))) none)]) =
          some s ∧
      sizeLimit OFF_T_MAX (acceptedTsize {} writeTen) < (cstr "abcdefghijk").length ∧
      s.pc = .receiving x ∧ x.recv.pc = .done result ∧ result.status = .badData :=
  ⟨_, _, _, _, rfl, rfl, by decide, rfl, rfl, rfl⟩

end TftpHpa
