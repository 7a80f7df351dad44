import TftpHpa.Xfer.Recv
import TftpHpa.Lib.Window

/-! The receiver against an arbitrary peer. Whatever datagrams come in and whichever
callbacks fail, what has been published so far determines the engine's variables:
the expected number, the counts, and the last window whose data was drained and
acknowledged. -/

namespace TftpHpa

open Window (boundary)

/-- The packets published along a trace. -/
def published (t : List RecvLabel) : List Packet :=
  t.filterMap fun
    | .published p => some p
    | _ => none

@[simp] theorem published_nil : published [] = [] := rfl

@[simp] theorem published_append (t u : List RecvLabel) : published (t ++ u) = published t ++ published u :=
  List.filterMap_append

theorem published_append_of_nil {u : List RecvLabel} (t : List RecvLabel) (h : published u = []) :
    published (t ++ u) = published t := by
  rw [published_append, h, List.append_nil]

/-- With `j` packets published the data was drained and the ACK for it sent. -/
def BoundaryAcked (t : List RecvLabel) (j : ℕ) : Prop :=
  ∃ u q v, t = u ++ .drained :: .sent q :: v ∧ (published u).length = j

theorem BoundaryAcked.append {t : List RecvLabel} {j : ℕ} (h : BoundaryAcked t j) (u : List RecvLabel) :
    BoundaryAcked (t ++ u) j := by
  obtain ⟨v, q, w, rfl, hj⟩ := h
  exact ⟨v, q, w ++ u, by simp, hj⟩

/-- The sum of the published payload lengths. -/
def payloadBytes (ps : List Packet) : ℕ := (ps.map fun p => p.payload.length).sum

theorem payloadBytes_concat (ps : List Packet) (p : Packet) :
    payloadBytes (ps ++ [p]) = payloadBytes ps + (p.length - 4) := by
  simp [payloadBytes, Packet.payload]

/-! ### The invariant -/

/-- The published packets and what the engine has noted of them. -/
structure Accounts (x : Xfer) (ps : List Packet) (block lastReceived : UInt16) (bytes : UInt64) : Prop where
  block_eq : block = blockNumber x.rollover (ps.length + 1)
  lastReceived_eq : lastReceived = blockNumber x.rollover ps.length
  bytes_eq : bytes.toNat = payloadBytes ps
  bytes_le : payloadBytes ps ≤ x.maxBytes.toNat
  number_eq : ∀ i p, ps[i]? = some p →
    p.opcode = Opcode.data.code ∧ p.block = blockNumber x.rollover (i + 1)
  fits : ∀ p ∈ ps, 4 ≤ p.length ∧ p.length ≤ x.blocksize + 4
  full : ∀ p ∈ ps.dropLast, p.length = x.blocksize + 4

/-- No short packet yet: the window is counted from the last multiple of its size,
which has been drained and acknowledged. -/
structure Open (x : Xfer) (t : List RecvLabel) (packetsInWindow : ℕ) (lastAcked : UInt16) : Prop where
  full : ∀ p ∈ published t, p.length = x.blocksize + 4
  inWindow : packetsInWindow = (published t).length % x.windowsize
  lastAcked_eq : lastAcked = blockNumber x.rollover (boundary x.windowsize (published t).length)
  acked : 0 < boundary x.windowsize (published t).length →
    BoundaryAcked t (boundary x.windowsize (published t).length)

/-- The last packet ended a window, or the file when `final`; `tail` has happened since. -/
def Closing (x : Xfer) (t : List RecvLabel) (s : RecvState) (final : Bool) (tail : List RecvLabel) : Prop :=
  ∃ u p, t = u ++ .published p :: tail ∧ final = decide (p.length - 4 ≠ x.blocksize) ∧
    s.packetsInWindow = 0 ∧ s.lastAcked = blockNumber x.rollover (published t).length ∧
    (final = false → (published t).length % x.windowsize = 0) ∧
    (0 < boundary x.windowsize (published u).length →
      BoundaryAcked t (boundary x.windowsize (published u).length))

/-- An accepted packet: the expected block, of a size that fits. -/
structure Accepted (x : Xfer) (ps : List Packet) (p : Packet) : Prop where
  opcode_eq : p.opcode = Opcode.data.code
  block_eq : p.block = blockNumber x.rollover (ps.length + 1)
  length_ge : 4 ≤ p.length
  length_le : p.length ≤ x.blocksize + 4
  bytes_le : payloadBytes ps + (p.length - 4) ≤ x.maxBytes.toNat

/-- What holds in addition, by program counter. -/
def RecvState.Phase (x : Xfer) (t : List RecvLabel) (s : RecvState) : Prop :=
  match s.pc with
  | .reserve | .retryEnter _ | .reply => Open x t s.packetsInWindow s.lastAcked
  | .recv | .recover => Open x t s.packetsInWindow s.lastAcked ∧ s.packetPending = false
  | .publish p => Open x t s.packetsInWindow s.lastAcked ∧ s.packetPending = false ∧
      s.replyPending = false ∧ Accepted x (published t) p
  | .drain final => Closing x t s final []
  | .finish => Closing x t s true [.drained]
  | .ack final => Closing x t s final (if final then [.drained, .finished] else [.drained])
  | .done r => r.bytes = s.bytes ∧ (r.status = .ok → Closing x t s true
      [.drained, .finished, .sent (ackPacket (blockNumber x.rollover (published t).length))])

structure RecvInv (x : Xfer) (a : RecvArgs) (t : List RecvLabel) (s : RecvState) : Prop where
  accounts : Accounts x (published t) s.block s.lastReceived s.bytes
  replyPending : s.replyPending = true → published t = []
  packetPending : s.packetPending = true → published t = [] ∧
    ∃ p, a.initialPacket = some p ∧ 4 ≤ p.length
  phase : s.Phase x t

variable {x : Xfer} {a : RecvArgs} {t : List RecvLabel} {s s' : RecvState} {l : RecvLabel}

theorem Open.concat {k : ℕ} {n : UInt16} (h : Open x t k n) {t' : List RecvLabel}
    (ht : published t' = []) : Open x (t ++ t') k n := by
  have hp := published_append_of_nil t ht
  exact ⟨hp ▸ h.full, hp ▸ h.inWindow, hp ▸ h.lastAcked_eq, fun h0 => by
    rw [hp] at h0 ⊢
    exact (h.acked h0).append t'⟩

theorem Closing.concat {final : Bool} {tail : List RecvLabel} (h : Closing x t s final tail) (ht : published [l] = [])
    {pc : RecvPc} : Closing x (t ++ [l]) { s with pc } final (tail ++ [l]) := by
  obtain ⟨u, p, rfl, hfin, hin, hack, hmod, hprev⟩ := h
  have hp := published_append_of_nil (u ++ .published p :: tail) ht
  exact ⟨u, p, by simp, hfin, hin, hp ▸ hack, hp ▸ hmod, fun h0 => (hprev h0).append [l]⟩

/-- The books after a packet has been published. -/
theorem Accounts.publish {ps : List Packet} {block lastReceived : UInt16} {bytes : UInt64}
    (h : Accounts x ps block lastReceived bytes) (hfull : ∀ p ∈ ps, p.length = x.blocksize + 4) {p : Packet}
    (hp : Accepted x ps p) :
    Accounts x (ps ++ [p]) (nextBlock block x.rollover) p.block (bytes + UInt64.ofNat (p.length - 4)) where
  block_eq := by rw [h.block_eq, ← blockNumber_succ, List.length_append, List.length_singleton]
  lastReceived_eq := by rw [hp.block_eq, List.length_append, List.length_singleton]
  bytes_eq := by
    have hb := hp.bytes_le
    have hx := x.maxBytes.toNat_lt
    rw [payloadBytes_concat, UInt64.toNat_add, UInt64.toNat_ofNat', h.bytes_eq]
    omega
  bytes_le := by rw [payloadBytes_concat]; exact hp.bytes_le
  number_eq i q hq := by
    rcases Nat.lt_or_ge i ps.length with hi | hi
    · rw [List.getElem?_append_left hi] at hq
      exact h.number_eq i q hq
    · rw [List.getElem?_append_right hi] at hq
      obtain ⟨h0, rfl⟩ := List.getElem?_eq_some_iff.mp hq
      have hi' : i = ps.length := by
        simp only [List.length_singleton] at h0
        omega
      subst hi'
      simpa using ⟨hp.opcode_eq, hp.block_eq⟩
  fits q hq := by
    rcases List.mem_append.mp hq with hq | hq
    · exact h.fits q hq
    · rw [List.mem_singleton.mp hq]
      exact ⟨hp.length_ge, hp.length_le⟩
  full q hq := by
    rw [List.dropLast_concat] at hq
    exact hfull q hq

namespace RecvInv

/-- A step that publishes nothing and only moves on. -/
theorem goto (h : RecvInv x a t s) {t' : List RecvLabel} (ht : published t' = []) {pc : RecvPc}
    (hphase : RecvState.Phase x (t ++ t') { s with pc }) : RecvInv x a (t ++ t') { s with pc } := by
  have hp := published_append_of_nil t ht
  exact ⟨hp ▸ h.accounts, hp ▸ h.replyPending, hp ▸ h.packetPending, hphase⟩

theorem stay (h : RecvInv x a t s) {t' : List RecvLabel} (ht : published t' = [])
    (hphase : s.Phase x (t ++ t')) : RecvInv x a (t ++ t') s := by
  have hp := published_append_of_nil t ht
  exact ⟨hp ▸ h.accounts, hp ▸ h.replyPending, hp ▸ h.packetPending, hphase⟩

theorem finish (h : RecvInv x a t s) {t' : List RecvLabel} (ht : published t' = []) {status : XferStatus}
    (hst : status ≠ .ok) (error : ℤ) (packet : Option Packet) (lastBlock : UInt16) :
    RecvInv x a (t ++ t') (s.finish status error packet lastBlock) :=
  h.goto ht ⟨rfl, fun hok => absurd hok hst⟩

/-- A packet with the expected number is refused for its size or about to be published. -/
theorem accept (h : RecvInv x a t s) (hopen : Open x t s.packetsInWindow s.lastAcked)
    (hpp : s.packetPending = false) {p : Packet} (hop : p.opcode = Opcode.data.code)
    (hblk : p.block = s.block) (hlen : 4 ≤ p.length) : RecvInv x a t (recvAccept x s p) := by
  have hacc := h.accounts
  refine recvAccept_rule ?_ ?_ fun hfits hmax => ?_
  · exact ⟨hacc, fun hf => Bool.noConfusion hf, h.packetPending, rfl, fun hok => XferStatus.noConfusion hok⟩
  · exact ⟨hacc, fun hf => Bool.noConfusion hf, h.packetPending, rfl, fun hok => XferStatus.noConfusion hok⟩
  · refine ⟨hacc, fun hf => Bool.noConfusion hf, h.packetPending, hopen, hpp, rfl, hop, ?_, hlen, by omega, ?_⟩
    · rw [hblk]
      exact hacc.block_eq
    · have hle : s.bytes ≤ x.maxBytes := by
        rw [UInt64.le_iff_toNat_le, hacc.bytes_eq]
        exact hacc.bytes_le
      rw [UInt64.toNat_sub_of_le _ _ hle, hacc.bytes_eq] at hmax
      have := hacc.bytes_le
      omega

/-- After the reply the engine takes the packet it was given, or waits. -/
theorem wait (hinit : ∀ p, a.initialPacket = some p → p.opcode = Opcode.data.code ∧ p.block = 1)
    (h : RecvInv x a t s) (hopen : Open x t s.packetsInWindow s.lastAcked) :
    RecvInv x a t (recvWait x a s) := by
  cases hpp : s.packetPending with
  | false =>
    rw [recvWait_of_not_pending x a hpp]
    exact ⟨h.accounts, h.replyPending, fun hf => Bool.noConfusion (hpp.symm.trans hf), hopen, hpp⟩
  | true =>
    obtain ⟨hnil, p, hp, hlen⟩ := h.packetPending hpp
    obtain ⟨hop, hblk⟩ := hinit p hp
    rw [recvWait_of_pending x hpp hp]
    have hone : s.block = 1 := by
      rw [h.accounts.block_eq, hnil]
      exact blockNumber_one _
    have h' : RecvInv x a t { s with packetPending := false, pc := .reply } :=
      ⟨h.accounts, h.replyPending, fun hf => Bool.noConfusion hf, hopen⟩
    exact h'.accept hopen rfl hop (hblk.trans hone.symm) hlen

/-- A published packet either ends a window or leaves it open. -/
theorem publish (h : RecvInv x a t s) (hopen : Open x t s.packetsInWindow s.lastAcked)
    (hpp : s.packetPending = false) (hrp : s.replyPending = false) {p : Packet}
    (hp : Accepted x (published t) p) : RecvInv x a (t ++ [.published p]) (recvPublished x s p) := by
  have hpub : published (t ++ [.published p]) = published t ++ [p] := by simp [published]
  have hlen : (published (t ++ [.published p])).length = (published t).length + 1 := by simp [hpub]
  have hacc : Accounts x (published (t ++ [.published p])) (nextBlock s.block x.rollover) p.block
      (s.bytes + UInt64.ofNat (p.length - 4)) := hpub ▸ h.accounts.publish hopen.full hp
  have hin := hopen.inWindow
  have hge := hp.length_ge
  simp only [recvPublished]
  split_ifs with hend
  · refine ⟨hacc, fun hf => by simp [hrp] at hf, fun hf => by simp [hpp] at hf, t, p, rfl, rfl, rfl, ?_, ?_,
      fun h0 => (hopen.acked h0).append _⟩
    · rw [hlen, hp.block_eq]
    · intro hfin
      rw [hfin, hin] at hend
      rw [hlen]
      exact Window.succ_mod_of_eq (hend.resolve_left Bool.false_ne_true)
  · rw [not_or, hin, decide_eq_true_eq, not_not] at hend
    obtain ⟨hfull, hne⟩ := hend
    refine ⟨hacc, fun hf => by simp [hrp] at hf, fun hf => by simp [hpp] at hf, ?_, ?_, ?_, ?_⟩
    · intro q hq
      rcases List.mem_append.mp (hpub ▸ hq) with hq | hq
      · exact hopen.full q hq
      · rw [List.mem_singleton.mp hq]
        omega
    · rw [hlen, Window.succ_mod_of_ne hne, hin]
    · rw [hlen, Window.boundary_succ_of_ne hne]
      exact hopen.lastAcked_eq
    · rw [hlen, Window.boundary_succ_of_ne hne]
      exact fun h0 => (hopen.acked h0).append _

theorem received (h : RecvInv x a t s) (hopen : Open x t s.packetsInWindow s.lastAcked)
    (hpp : s.packetPending = false) (hpc : s.pc = .recv) (p : Packet) :
    RecvInv x a (t ++ [.received p]) (recvReceived x s p) := by
  have hnil : published [.received p] = [] := rfl
  have h' : RecvInv x a (t ++ [.received p]) s :=
    h.stay hnil (by simp only [RecvState.Phase, hpc]; exact ⟨hopen.concat hnil, hpp⟩)
  refine recvReceived_rule h' (h.finish hnil (by decide) _ _ _) (fun hlen hop hblk => ?_) ?_
  · exact h'.accept (hopen.concat hnil) hpp hop hblk hlen
  · exact h.goto hnil ⟨hopen.concat hnil, hpp⟩

/-- After the ACK of a window the next one is open. -/
theorem reopen (h : RecvInv x a t s) (hc : Closing x t s false [.drained]) (q : Packet) :
    Open x (t ++ [.sent q]) s.packetsInWindow s.lastAcked := by
  obtain ⟨u, p, rfl, hfin, hin, hack, hmod, -⟩ := hc
  have hpub : published (u ++ .published p :: [.drained]) = published u ++ [p] := by simp [published]
  have hp := (published_append_of_nil (u := [.sent q]) _ rfl).trans hpub
  have hb := Window.boundary_of_mod_eq_zero (hmod rfl)
  have hfull := h.accounts.full
  have hge := h.accounts.fits p (by simp [hpub])
  rw [hpub] at hmod hb hack hfull
  refine ⟨fun r hr => ?_, by rw [hp, hmod rfl, hin], by rw [hp, hb, hack], fun _ => ?_⟩
  · rw [hp] at hr
    rcases List.mem_append.mp hr with hr | hr
    · exact hfull r (by rwa [List.dropLast_concat])
    · rw [List.mem_singleton.mp hr]
      have := of_decide_eq_false hfin.symm
      omega
  · rw [hp, hb]
    exact ⟨u ++ [.published p], q, [], by simp, by simp [published]⟩

/-- Every step keeps the invariant. -/
theorem step (hinit : ∀ p, a.initialPacket = some p → p.opcode = Opcode.data.code ∧ p.block = 1)
    (h : RecvInv x a t s) (hs : recvStep x a s l = some s') : RecvInv x a (t ++ [l]) s' := by
  have hph := h.phase
  cases recvMove_of_step hs with
  | reserved hpc =>
    simp only [RecvState.Phase, hpc] at hph
    exact h.goto rfl (hph.concat rfl)
  | reserveFailed hpc e => exact h.finish rfl (by decide) _ _ _
  | entered r hpc =>
    simp only [RecvState.Phase, hpc] at hph
    split_ifs with hreply
    · exact h.goto rfl (hph.concat rfl)
    · refine wait hinit (h.stay rfl ?_) (hph.concat rfl)
      simp only [RecvState.Phase, hpc]
      exact hph.concat rfl
  | replied hpc =>
    simp only [RecvState.Phase, hpc] at hph
    refine wait hinit (h.stay rfl ?_) (hph.concat rfl)
    simp only [RecvState.Phase, hpc]
    exact hph.concat rfl
  | recovered hpc =>
    simp only [RecvState.Phase, hpc] at hph
    exact h.goto rfl ⟨hph.1.concat rfl, hph.2⟩
  | acked final hpc =>
    simp only [RecvState.Phase, hpc] at hph
    cases final with
    | true =>
      refine h.goto rfl ⟨rfl, fun _ => ?_⟩
      have hack : s.lastAcked = blockNumber x.rollover (published t).length := by
        obtain ⟨-, -, -, -, -, hack, -, -⟩ := hph
        exact hack
      rw [published_append_of_nil t rfl, ← hack]
      exact hph.concat rfl
    | false => exact h.goto rfl (h.reopen hph _)
  | replyFailed hpc e => exact h.finish rfl (by decide) _ _ _
  | recoveryFailed hpc e =>
    simp only [RecvState.Phase, hpc] at hph
    exact h.goto rfl ⟨hph.1.concat rfl, hph.2⟩
  | ackFailed final hpc e => exact h.finish rfl (by decide) _ _ _
  | received hpc p =>
    simp only [RecvState.Phase, hpc] at hph
    exact h.received hph.1 hph.2 hpc p
  | recvFailed hpc e => exact h.finish rfl (by decide) _ _ _
  | timeout hpc =>
    simp only [RecvState.Phase, hpc] at hph
    exact h.goto rfl (hph.1.concat rfl)
  | published p hpc =>
    simp only [RecvState.Phase, hpc] at hph
    obtain ⟨hopen, hpp, hrp, hacc⟩ := hph
    exact h.publish hopen hpp hrp hacc
  | publishFailed p hpc e => exact h.finish rfl (by decide) _ _ _
  | drained final hpc =>
    simp only [RecvState.Phase, hpc] at hph
    cases final with
    | true => exact h.goto rfl (hph.concat rfl)
    | false => exact h.goto rfl (hph.concat rfl)
  | drainFailed final hpc e => exact h.finish rfl (by decide) _ _ _
  | finished hpc =>
    simp only [RecvState.Phase, hpc] at hph
    exact h.goto rfl (hph.concat rfl)
  | finishFailed hpc e => exact h.finish rfl (by decide) _ _ _

theorem init (x : Xfer) (a : RecvArgs) : RecvInv x a [] (recvInit x a) := by
  have hacc : Accounts x [] 1 0 0 :=
    ⟨(blockNumber_one _).symm, rfl, rfl, Nat.zero_le _, by simp, by simp, by simp⟩
  have hpend : (a.initialPacket.any fun p => 4 ≤ p.length) = true →
      published [] = [] ∧ ∃ p, a.initialPacket = some p ∧ 4 ≤ p.length := by
    cases a.initialPacket with
    | none => exact fun hf => Bool.noConfusion hf
    | some p => exact fun hlen => ⟨rfl, p, rfl, of_decide_eq_true hlen⟩
  simp only [recvInit]
  split_ifs with hsize
  · exact ⟨hacc, fun _ => rfl, hpend, rfl, fun hok => XferStatus.noConfusion hok⟩
  · exact ⟨hacc, fun _ => rfl, hpend, by simp, by simp, by simp, by simp⟩

theorem of_run (hinit : ∀ p, a.initialPacket = some p → p.opcode = Opcode.data.code ∧ p.block = 1)
    (hrun : Transition.run (recvStep x a) (recvInit x a) t = some s) : RecvInv x a t s :=
  Transition.run_invariant (RecvInv x a) (.init x a) (fun _ _ _ _ h hs => h.step hinit hs) hrun

end RecvInv

/-- Windows that are not the last end at multiples of the window size. -/
theorem dvd_of_boundaryAcked (hinit : ∀ p, a.initialPacket = some p → p.opcode = Opcode.data.code ∧ p.block = 1)
    (hrun : Transition.run (recvStep x a) (recvInit x a) t = some s) {j : ℕ} (h : BoundaryAcked t j) :
    x.windowsize ∣ j := by
  obtain ⟨u, q, v, rfl, rfl⟩ := h
  rw [show u ++ .drained :: .sent q :: v = u ++ [.drained] ++ .sent q :: v by simp] at hrun
  obtain ⟨s₁, hu, hrest⟩ := Transition.run_append_eq_some.mp hrun
  obtain ⟨s₀, hu₀, hdrain⟩ := Transition.run_concat_eq_some.mp hu
  obtain ⟨s₂, hsent, -⟩ := Option.bind_eq_some_iff.mp hrest
  have hph := (RecvInv.of_run hinit hu₀).phase
  cases recvMove_of_step hdrain with
  | drained final hpc =>
    -- what is sent right after the drain is the ACK of a window that is not final
    cases final with
    | true => simp [recvStep] at hsent
    | false =>
      simp only [RecvState.Phase, hpc] at hph
      obtain ⟨-, -, -, -, -, -, hmod, -⟩ := hph
      exact Nat.dvd_of_mod_eq_zero (hmod rfl)

/-! ### What is acknowledged -/

/-- Packet `j` of those published ends a window or the file. -/
def WindowEnd (x : Xfer) (ps : List Packet) (j : ℕ) : Prop :=
  0 < j ∧ (j % x.windowsize = 0 ∨ ∃ p, ps[j - 1]? = some p ∧ p.payload.length ≠ x.blocksize)

def LastWindowEnd (x : Xfer) (ps : List Packet) (j : ℕ) : Prop :=
  WindowEnd x ps j ∧ j ≤ ps.length ∧ ∀ i, j < i → i ≤ ps.length → ¬ WindowEnd x ps i

/-- With `j` packets published the data was drained and, after a short one, finished. -/
def Settled (x : Xfer) (t : List RecvLabel) (j : ℕ) : Prop :=
  ∃ u v, t = u ++ .drained :: v ∧ (published u).length = j ∧
    ((∃ p, (published u)[j - 1]? = some p ∧ p.payload.length ≠ x.blocksize) → ∃ w, v = .finished :: w)

/-- An ACK the engine may send with the trace so far. -/
def Ackable (x : Xfer) (t : List RecvLabel) (j : ℕ) : Prop :=
  (j = 0 ∨ j = (published t).length ∨ LastWindowEnd x (published t) j) ∧
    (WindowEnd x (published t) j → Settled x t j)

section
variable {k : ℕ} {n : UInt16}

theorem Open.not_short (h : Open x t k n) {i : ℕ} {p : Packet} (hp : (published t)[i]? = some p) :
    p.payload.length = x.blocksize := by
  have := h.full p (List.mem_of_getElem? hp)
  simp only [Packet.payload, List.length_drop]
  omega

theorem Open.settled (h : Open x t k n) {j : ℕ} (hd : BoundaryAcked t j) : Settled x t j := by
  obtain ⟨u, q, v, rfl, hj⟩ := hd
  refine ⟨u, .sent q :: v, rfl, hj, fun ⟨p, hp, hshort⟩ => absurd (h.not_short (i := j - 1) ?_) hshort⟩
  have hlt := (List.getElem?_eq_some_iff.mp hp).1
  rw [published_append, List.getElem?_append_left hlt, hp]

/-- As long as no short packet has come, windows end at multiples of their size. -/
theorem Open.windowEnd_iff (h : Open x t k n) (j : ℕ) :
    WindowEnd x (published t) j ↔ 0 < j ∧ j % x.windowsize = 0 := by
  constructor
  · rintro ⟨hpos, hmod | ⟨p, hp, hshort⟩⟩
    · exact ⟨hpos, hmod⟩
    · exact absurd (h.not_short hp) hshort
  · exact fun ⟨hpos, hmod⟩ => ⟨hpos, .inl hmod⟩

theorem Open.ackable_boundary (h : Open x t k n) :
    Ackable x t (boundary x.windowsize (published t).length) := by
  set b := boundary x.windowsize (published t).length with hb
  refine ⟨?_, fun hend => h.settled (h.acked hend.1)⟩
  rcases Nat.eq_zero_or_pos b with h0 | hpos
  · exact .inl h0
  · refine .inr (.inr ⟨(h.windowEnd_iff b).mpr ⟨hpos, Nat.mul_mod_right _ _⟩, Window.boundary_le _ _, ?_⟩)
    intro i hi hle hend
    have hdvd := Nat.dvd_of_mod_eq_zero ((h.windowEnd_iff i).mp hend).2
    have := Window.le_boundary_of_dvd hdvd hle
    omega

theorem Open.ackable_length (h : Open x t k n) : Ackable x t (published t).length := by
  refine ⟨.inr (.inl rfl), fun hend => h.settled ?_⟩
  obtain ⟨hpos, hmod⟩ := (h.windowEnd_iff _).mp hend
  have hb := Window.boundary_of_mod_eq_zero hmod
  have hd := h.acked
  rw [hb] at hd
  exact hd hpos

theorem Closing.ackable {final : Bool}
    (h : Closing x t s final (if final then [.drained, .finished] else [.drained])) :
    Ackable x t (published t).length := by
  obtain ⟨u, p, rfl, hfin, -⟩ := h
  refine ⟨.inr (.inl rfl), fun _ => ?_⟩
  have hpub : published (u ++ RecvLabel.published p :: (if final then [.drained, .finished] else [.drained])) =
      published (u ++ [RecvLabel.published p]) := by
    cases final <;> simp [published]
  rw [hpub]
  cases final with
  | true => exact ⟨u ++ [RecvLabel.published p], [.finished], by simp, rfl, fun _ => ⟨[], rfl⟩⟩
  | false =>
    refine ⟨u ++ [RecvLabel.published p], [], by simp, rfl, fun ⟨q, hq, hshort⟩ => absurd ?_ hshort⟩
    have hqp : q = p := by simpa [published] using hq.symm
    have := of_decide_eq_false hfin.symm
    simp only [hqp, Packet.payload, List.length_drop]
    exact not_not.mp this

end

/-- The packet the engine is about to send. -/
def RecvState.sending (s : RecvState) (a : RecvArgs) : Option Packet :=
  match s.pc with
  | .reply => some (s.replyPacket a)
  | .recover => some (ackPacket s.lastReceived)
  | .ack _ => some (ackPacket s.lastAcked)
  | _ => none

theorem recvStep_sends {p : Packet} (hs : recvStep x a s (.sent p) = some s' ∨
    ∃ e, recvStep x a s (.sendFailed p e) = some s') : s.sending a = some p := by
  rcases hs with hs | ⟨e, hs⟩
  · cases recvMove_of_step hs <;> simp only [RecvState.sending, *]
  · cases recvMove_of_step hs <;> simp only [RecvState.sending, *]

theorem RecvInv.sends (h : RecvInv x a t s) {p : Packet} (hp : s.sending a = some p) :
    (a.initialReply = some p ∧ published t = []) ∨
      ∃ j, p = ackPacket (blockNumber x.rollover j) ∧ Ackable x t j := by
  have hph := h.phase
  cases hpc : s.pc <;> simp only [RecvState.sending, RecvState.Phase, hpc, Option.some.injEq] at hp hph <;>
    try cases hp
  · -- the initial reply as long as it is pending, then the last window's ACK
    by_cases hreply : s.replyPending = true ∧ ∃ r, a.initialReply = some r
    · obtain ⟨hpend, r, hr⟩ := hreply
      have hreply : s.replyPacket a = r := by simp only [RecvState.replyPacket, hpend, hr]
      exact .inl ⟨by rw [hreply, hr], h.replyPending hpend⟩
    · have hack : s.replyPacket a = ackPacket s.lastAcked := by
        unfold RecvState.replyPacket
        split
        · rename_i r hpend hr
          exact absurd ⟨hpend, r, hr⟩ hreply
        · rfl
      exact .inr ⟨_, by rw [hack, hph.lastAcked_eq], hph.ackable_boundary⟩
  · exact .inr ⟨_, by rw [h.accounts.lastReceived_eq], hph.1.ackable_length⟩
  · have hack := hph.ackable
    obtain ⟨-, -, -, -, -, hlast, -, -⟩ := hph
    exact .inr ⟨_, by rw [hlast], hack⟩

/-- A short packet that is published, drained, finished and acknowledged is the end. -/
theorem run_short_done {p q : Packet} (hshort : p.length - 4 ≠ x.blocksize)
    (hrun : Transition.run (recvStep x a) s [.published p, .drained, .finished, .sent q] = some s') :
    ∃ r, s'.pc = .done r ∧ r.status = .ok := by
  obtain ⟨s₁, h₁, hrun⟩ := Option.bind_eq_some_iff.mp hrun
  have hpc₁ : s₁.pc = .drain true := by
    cases recvMove_of_step h₁ with
    | published _ hpc => simp [recvPublished, hshort]
  simp only [Transition.run_cons, recvStep, hpc₁, Option.bind_some, if_true, Transition.run_nil,
    Option.bind_eq_some_iff, Option.ite_none_right_eq_some, Option.some.injEq] at hrun
  obtain ⟨s₂, ⟨-, rfl⟩, rfl⟩ := hrun
  exact ⟨_, rfl, rfl⟩

/-- The receiver against an arbitrary peer. Packets are published in the order of
their numbers, all of them full but the last, and fit the slot they are copied to;
what is sent is the initial reply before any of them, or an ACK of nothing, of the
last packet or of the last window, and the end of a window only after its data was
drained (and finished, when it is the end of the file); success is exactly a short
packet published, drained, finished and acknowledged; and the result counts the
published bytes. -/
theorem recv_against_any_peer (x : Xfer) (a : RecvArgs)
    (hinit : ∀ p, a.initialPacket = some p → p.opcode = Opcode.data.code ∧ p.block = 1)
    {t : List RecvLabel} {s : RecvState}
    (hrun : Transition.run (recvStep x a) (recvInit x a) t = some s) :
    (∀ i p, (published t)[i]? = some p →
      p.opcode = Opcode.data.code ∧ p.block = blockNumber x.rollover (i + 1)) ∧
    (∀ p ∈ published t, p.payload.length ≤ x.blocksize) ∧
    (∀ p ∈ (published t).dropLast, p.payload.length = x.blocksize) ∧
    (∀ p, (.published p ∈ t ∨ ∃ e, .publishFailed p e ∈ t) →
      p.length ≤ TftpIo.packetsize x.blocksize) ∧
    (∀ u p v, (t = u ++ .sent p :: v ∨ ∃ e, t = u ++ .sendFailed p e :: v) →
      (a.initialReply = some p ∧ published u = []) ∨
        ∃ j, p = ackPacket (blockNumber x.rollover j) ∧
          (j = 0 ∨ j = (published u).length ∨ LastWindowEnd x (published u) j) ∧
          (WindowEnd x (published u) j → Settled x u j)) ∧
    ((∃ r, s.pc = .done r ∧ r.status = .ok) ↔
      ∃ u p, t = u ++ [.published p, .drained, .finished,
          .sent (ackPacket (blockNumber x.rollover (published t).length))] ∧
        p.payload.length ≠ x.blocksize) ∧
    (∀ r, s.pc = .done r → r.bytes.toNat = payloadBytes (published t)) := by
  have hinv := RecvInv.of_run hinit hrun
  have hsplit : ∀ u l v, t = u ++ l :: v → ∃ s₁ s₂, RecvInv x a u s₁ ∧ recvStep x a s₁ l = some s₂ := by
    intro u l v ht
    rw [ht] at hrun
    obtain ⟨s₁, hu, hrest⟩ := Transition.run_append_eq_some.mp hrun
    obtain ⟨s₂, hl, -⟩ := Option.bind_eq_some_iff.mp hrest
    exact ⟨s₁, s₂, .of_run hinit hu, hl⟩
  have hacc := hinv.accounts
  refine ⟨hacc.number_eq, fun p hp => ?_, fun p hp => ?_, fun p hp => ?_, fun u p v ht => ?_, ?_,
    fun r hr => ?_⟩
  · have := hacc.fits p hp
    simp only [Packet.payload, List.length_drop]
    omega
  · have := hacc.full p hp
    simp only [Packet.payload, List.length_drop]
    omega
  · refine le_trans ?_ (TftpIo.le_packetsize x.blocksize)
    rcases hp with hp | ⟨e, hp⟩
    · exact (hacc.fits p (List.mem_filterMap.mpr ⟨_, hp, rfl⟩)).2
    · obtain ⟨u, v, ht⟩ := List.append_of_mem hp
      obtain ⟨s₁, s₂, h₁, hs⟩ := hsplit u _ v ht
      have hph := h₁.phase
      cases recvMove_of_step hs with
      | publishFailed _ hpc _ =>
        simp only [RecvState.Phase, hpc] at hph
        exact hph.2.2.2.length_le
  · rcases ht with ht | ⟨e, ht⟩
    · obtain ⟨s₁, s₂, h₁, hs⟩ := hsplit u _ v ht
      exact h₁.sends (recvStep_sends (.inl hs))
    · obtain ⟨s₁, s₂, h₁, hs⟩ := hsplit u _ v ht
      exact h₁.sends (recvStep_sends (.inr ⟨e, hs⟩))
  · constructor
    · rintro ⟨r, hpc, hok⟩
      have hph := hinv.phase
      simp only [RecvState.Phase, hpc] at hph
      obtain ⟨u, p, ht, hshort, -⟩ := hph.2 hok
      exact ⟨u, p, ht, by simpa [Packet.payload] using of_decide_eq_true hshort.symm⟩
    · rintro ⟨u, p, ht, hshort⟩
      generalize ackPacket (blockNumber x.rollover (published t).length) = q at ht
      rw [ht] at hrun
      obtain ⟨s₁, -, hend⟩ := Transition.run_append_eq_some.mp hrun
      exact run_short_done (by simpa [Packet.payload] using hshort) hend
  · have hph := hinv.phase
    simp only [RecvState.Phase, hr] at hph
    rw [hph.1, hacc.bytes_eq]

/-- Two blocks of eight bytes and less. Something else comes first, the first block is followed by a
copy of itself, and the ACK is repeated after a timeout. -/
def recvTwoBlocks : List RecvLabel :=
  let first := dataPacket 1 (List.replicate 8 65)
  let second := dataPacket 2 [66]
  [.reserved, .entered false, .received [0], .received (ackPacket 1), .received second, .sent (ackPacket 0),
    .received first, .published first, .drained, .sent (ackPacket 1), .reserved, .entered false, .received first,
    .sent (ackPacket 1), .timeout, .entered true, .sent (ackPacket 1), .received second, .published second, .drained,
    .finished, .sent (ackPacket 2)]

/-- The receiver succeeds with both. -/
theorem recv_against_any_peer_two_blocks :
    ∃ s r, Transition.run (recvStep { blocksize := 8, windowsize := 1, rollover := 1 } { inputSize := 12 })
        (recvInit { blocksize := 8, windowsize := 1, rollover := 1 } { inputSize := 12 }) recvTwoBlocks = some s ∧
      s.pc = .done r ∧ r.status = .ok ∧ r.bytes.toNat = 9 := by
  have hrun : Transition.run (recvStep { blocksize := 8, windowsize := 1, rollover := 1 } { inputSize := 12 })
      (recvInit { blocksize := 8, windowsize := 1, rollover := 1 } { inputSize := 12 }) recvTwoBlocks = some _ := rfl
  obtain ⟨-, -, -, -, -, hok, hbytes⟩ := recv_against_any_peer _ _ (by simp) hrun
  obtain ⟨r, hr, hstatus⟩ := hok.mpr ⟨recvTwoBlocks.take 18, dataPacket 2 [66], rfl, by decide⟩
  exact ⟨_, r, hrun, hr, hstatus, hbytes r hr⟩

end TftpHpa
