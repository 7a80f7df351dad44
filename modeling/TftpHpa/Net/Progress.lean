import TftpHpa.Net.Safety

/-! No transfer gets stuck. Over lossy FIFO channels the windows of the two engines
stay aligned, and as long as the receiver runs there is a way to the end: the
receiver settles what it has, the sender times out and sends its window again, and
either the next block arrives or the acknowledgement of the whole window does. -/

namespace TftpHpa

open Blocks (blockCount)
open Transition (Reaches run)
open Sending (width)
open Window (boundary)

/-- No callback fails and nothing is lost. -/
def NetLabel.Quiet (l : NetLabel) : Prop := l.failing = false ∧ l.losing = false

/-- What a session needs to succeed with the stream `xs`. -/
structure Session.Fits (c : Session) (xs : Bytes) : Prop extends c.Ok where
  windowsize_le : c.x.windowsize ≤ 32768
  rollover_eq : c.x.rollover = 0 ∨ c.x.rollover = 1
  maxBytes_ge : xs.length ≤ c.x.maxBytes.toNat
  inputSize_ge : c.x.blocksize + 4 ≤ c.inputSize

/-- A state that was reached without a failure, and where it stands in the protocol. -/
structure Sound (c : Session) (xs : Bytes) (w : World) (a : Indices) : Prop where
  reaches : Reaches (indexStep .fifo c xs) (fun _ => True) {} a
  rel : ∃ t, ¬ Failed t ∧ Rel c xs t w a
  readError : w.sender.io.file.readError = false

/-- From `w` there is a way to `w'`, which stands at `a`. -/
def Leads (c : Session) (xs : Bytes) (w w' : World) (a : Indices) : Prop :=
  Reaches (netStep .fifo c) NetLabel.Quiet w w' ∧ Sound c xs w' a

variable {c : Session} {xs : Bytes} {t : List NetLabel} {w w' : World} {a a' : Indices}

theorem Leads.after {w₁ : World} (h : Leads c xs w₁ w' a) (hr : Reaches (netStep .fifo c) NetLabel.Quiet w w₁) :
    Leads c xs w w' a :=
  ⟨hr.trans h.1, h.2⟩

namespace Sound

theorem inv (h : Sound c xs w a) : IndexInv c xs a := .of_reaches (Blocks.blockCount_pos _ _) h.reaches

theorem identifies (hc : c.Fits xs) (h : Sound c xs w a) : Identifies c xs a :=
  identifies_of_lag hc.windowsize_le hc.rollover_eq h.inv
    (.of_reaches (Blocks.blockCount_pos _ _) hc.windowsize_pos h.reaches)

theorem next (h : Sound c xs w a) (hf : ¬ Failed t) (ht : Rel c xs t w a) {l : NetLabel} (hl : l.Quiet)
    (hs : netStep .fifo c w l = some w') (hstep : a' = a ∨ ∃ e, indexStep .fifo c xs a e = some a')
    (ht' : Rel c xs (t ++ [l]) w' a') : Leads c xs w w' a' := by
  refine ⟨.single hl hs, ?_, ⟨t ++ [l], ?_, ht'⟩, (ht.readError_eq hs).trans h.readError⟩
  · rcases hstep with rfl | ⟨e, he⟩
    · exact h.reaches
    · exact h.reaches.trans (.single trivial he)
  · rintro ⟨m, hm, hfail⟩
    rcases List.mem_append.mp hm with hm | hm
    · exact hf ⟨m, hm, hfail⟩
    · rw [List.mem_singleton.mp hm, hl.1] at hfail
      cases hfail

/-! ### The sender -/

/-- Unless it holds the whole window's ACK, an unfinished sender sends or waits. -/
theorem sender_pc (h : Sound c xs w a) (hb : a.base < blockCount c.x.blocksize xs) :
    (w.sender.pc = .release ∧ a.acked = true) ∨
      (a.acked = false ∧ (w.sender.pc = .readWindow ∨ (∃ r, w.sender.pc = .retryEnter r) ∨
        (∃ n, w.sender.pc = .send n ∧ n < width c.x xs a.base) ∨ w.sender.pc = .recv)) := by
  obtain ⟨t, hf, ht⟩ := h.rel
  obtain ⟨sd, href, hsd⟩ := ht.sender
  have hph := hsd.phase
  have htr := hsd.trace.phase
  rw [href.pc_eq]
  cases hpc : sd.pc <;> simp only [hpc] at hph htr
  case release => exact .inl ⟨rfl, hph⟩
  case done =>
    rcases hph with ⟨-, hend⟩ | ⟨-, hfail⟩
    · omega
    · exact absurd hfail hf
  case send n => exact .inr ⟨hph, .inr (.inr (.inl ⟨n, rfl, hsd.base_eq ▸ htr.2.2⟩))⟩
  all_goals simp [hph]

theorem send_one (hc : c.Fits xs) (h : Sound c xs w a) {n : ℕ} (hpc : w.sender.pc = .send n) :
    ∃ w', Leads c xs w w' { a with data := a.data ++ [a.base + n + 1] } ∧
      w'.sender.pc = (if n + 1 < width c.x xs a.base then .send (n + 1) else .recv) ∧
      w'.receiver = w.receiver := by
  obtain ⟨t, hf, ht⟩ := h.rel
  obtain ⟨sd, href, hsd⟩ := ht.sender
  have hstep : sd.step c.x xs (.sent (blockPacket c.x xs (sd.base + n + 1))) =
      some (sd.sendFrom c.x xs (n + 1)) := by
    simp [Sending.step, href.pc_eq.symm.trans hpc]
  obtain ⟨s', hs', -⟩ := href.enabled rfl hstep
  have hs : netStep .fifo c w (.sender (.sent (blockPacket c.x xs (sd.base + n + 1)))) =
      some { w with sender := s', data := w.data ++ [blockPacket c.x xs (sd.base + n + 1)] } := by
    simp [netStep, senderStep, hs']
  obtain ⟨m, -, hm, hpc', ha, ht'⟩ := ht.sender_sent hc.toOk hs
  obtain rfl : n = m := by
    rw [hpc] at hm
    exact SendPc.send.inj hm
  exact ⟨_, h.next hf ht ⟨rfl, rfl⟩ hs (.inr ⟨_, ha⟩) ht', hpc', rfl⟩

/-- From packet `n` on, the rest of the window goes out before the sender waits. -/
theorem send_rest (hc : c.Fits xs) (h : Sound c xs w a) {n : ℕ} (hpc : w.sender.pc = .send n)
    (hn : n < width c.x xs a.base) :
    ∃ w' data, Leads c xs w w' { a with data } ∧ w'.sender.pc = .recv ∧ w'.receiver = w.receiver ∧
      a.data ⊆ data ∧ ∀ i, a.base + n < i → i ≤ a.base + width c.x xs a.base → i ∈ data := by
  obtain ⟨k, hk⟩ := Nat.exists_eq_add_of_lt hn
  induction k generalizing w a n with
  | zero =>
    obtain ⟨w', hw', hpc', hr⟩ := h.send_one hc hpc
    rw [if_neg (by omega)] at hpc'
    refine ⟨w', _, hw', hpc', hr, List.subset_append_left _ _, fun i hi hi' => ?_⟩
    rw [show i = a.base + n + 1 by omega]
    simp
  | succ k ih =>
    obtain ⟨w₁, hw₁, hpc₁, hr₁⟩ := h.send_one hc hpc
    rw [if_pos (by omega)] at hpc₁
    obtain ⟨w', data, hw', hpc', hr', hsub, hall⟩ :=
      ih hw₁.2 hpc₁ (by show n + 1 < width c.x xs a.base; omega)
        (by show width c.x xs a.base = n + 1 + k + 1; omega)
    refine ⟨w', data, hw'.after hw₁.1, hpc', hr'.trans hr₁,
      fun i hi => hsub (List.mem_append_left _ hi), fun i hi hi' => ?_⟩
    by_cases he : i = a.base + n + 1
    · exact hsub (by simp [he])
    · exact hall i (by show a.base + (n + 1) < i; omega) hi'

/-- A step of the sender that leaves the channels alone. -/
theorem sender_local (hc : c.Fits xs) (h : Sound c xs w a) {l : SendLabel} {s' : SendState}
    (hs : sendStep c.x w.sender l = some s') (hf : l.failing = false)
    (hl : l ≠ .released ∧ (∀ p, l ≠ .sent p) ∧ ∀ p, l ≠ .received p) :
    Leads c xs w { w with sender := s' } a := by
  obtain ⟨t, hfail, ht⟩ := h.rel
  have hs' : netStep .fifo c w (.sender l) = some { w with sender := s' } := by
    cases l <;> first | exact absurd rfl (hl.2.1 _) | exact absurd rfl (hl.2.2 _) |
      simp [netStep, senderStep, hs]
  exact h.next hfail ht (l := .sender l) ⟨hf, rfl⟩ hs' (.inl rfl) (ht.sender_local hc.toOk hs' hl)

theorem sender_entered (hc : c.Fits xs) (h : Sound c xs w a) (hb : a.base < blockCount c.x.blocksize xs)
    {r : Bool} (hpc : w.sender.pc = .retryEnter r) :
    ∃ w', Leads c xs w w' a ∧ w'.sender.pc = .send 0 ∧ w'.receiver = w.receiver := by
  obtain ⟨t, -, ht⟩ := h.rel
  obtain ⟨sd, href, hsd⟩ := ht.sender
  have hstep : sd.step c.x xs (.entered r) = some (sd.sendFrom c.x xs 0) := by
    simp [Sending.step, href.pc_eq.symm.trans hpc]
  obtain ⟨s', hs', href'⟩ := href.enabled rfl hstep
  refine ⟨_, h.sender_local hc hs' rfl ⟨by simp, by simp, by simp⟩, ?_, rfl⟩
  rw [href'.pc_eq, Sending.sendFrom, hsd.base_eq]
  exact if_pos (Sending.width_pos hc.windowsize_pos hb)

/-- The reader thread fills the window. -/
theorem sender_window (hc : c.Fits xs) (h : Sound c xs w a) (hpc : w.sender.pc = .readWindow) :
    ∃ w', Leads c xs w w' a ∧ w'.sender.pc = .retryEnter false ∧ w'.receiver = w.receiver := by
  obtain ⟨t, -, ht⟩ := h.rel
  obtain ⟨sd, href, -⟩ := ht.sender
  obtain ⟨s', ⟨ls, hls, hrun⟩, href'⟩ := href.reaches_window (href.pc_eq.symm.trans hpc)
    (href.readError_eq.symm.trans h.readError)
  have hpc' : s'.pc = .retryEnter false := href'.pc_eq
  clear href href' ht hpc
  suffices hleads : Leads c xs w { w with sender := s' } a from ⟨_, hleads, hpc', rfl⟩
  induction ls generalizing w with
  | nil =>
    obtain rfl := Option.some.inj hrun
    exact ⟨.refl _, h⟩
  | cons l ls ih =>
    obtain ⟨s₁, hs₁, hrun⟩ := Option.bind_eq_some_iff.mp hrun
    have hw₁ : Leads c xs w { w with sender := s₁ } a := by
      refine h.sender_local hc hs₁ ?_ ?_ <;> rcases hls l (by simp) with rfl | ⟨k, f, rfl⟩ <;>
        first | rfl | exact ⟨by simp, by simp, by simp⟩
    exact (ih hw₁.2 (fun m hm => hls m (by simp [hm])) hrun).after hw₁.1

/-- A sender without the ACK of its window comes to wait for it. -/
theorem sender_wait (hc : c.Fits xs) (h : Sound c xs w a) (hb : a.base < blockCount c.x.blocksize xs)
    (hacked : a.acked = false) :
    ∃ w' data, Leads c xs w w' { a with data } ∧ w'.sender.pc = .recv ∧ w'.receiver = w.receiver := by
  have hentered : ∀ {w}, Sound c xs w a → (∃ r, w.sender.pc = .retryEnter r) →
      ∃ w' data, Leads c xs w w' { a with data } ∧ w'.sender.pc = .recv ∧ w'.receiver = w.receiver := by
    rintro w h ⟨r, hpc⟩
    obtain ⟨w₁, hw₁, hpc₁, hr₁⟩ := h.sender_entered hc hb hpc
    obtain ⟨w', data, hw', hpc', hr', -⟩ :=
      hw₁.2.send_rest hc hpc₁ (Sending.width_pos hc.windowsize_pos hb)
    exact ⟨w', data, hw'.after hw₁.1, hpc', hr'.trans hr₁⟩
  rcases h.sender_pc hb with ⟨-, hf⟩ | ⟨-, hpc | hpc | ⟨n, hpc, hn⟩ | hpc⟩
  · simp [hacked] at hf
  · obtain ⟨w₁, hw₁, hpc₁, hr₁⟩ := h.sender_window hc hpc
    obtain ⟨w', data, hw', hpc', hr'⟩ := hentered hw₁.2 ⟨_, hpc₁⟩
    exact ⟨w', data, hw'.after hw₁.1, hpc', hr'.trans hr₁⟩
  · exact hentered h hpc
  · obtain ⟨w', data, hw', hpc', hr', -⟩ := h.send_rest hc hpc hn
    exact ⟨w', data, hw', hpc', hr'⟩
  · exact ⟨w, a.data, ⟨.refl _, h⟩, hpc, rfl⟩

/-- A timeout sends the whole window again. -/
theorem sender_resend (hc : c.Fits xs) (h : Sound c xs w a) (hb : a.base < blockCount c.x.blocksize xs)
    (hacked : a.acked = false) :
    ∃ w' data, Leads c xs w w' { a with data } ∧ w'.sender.pc = .recv ∧ w'.receiver = w.receiver ∧
      ∀ i, a.base < i → i ≤ a.base + width c.x xs a.base → i ∈ data := by
  obtain ⟨w₁, data₁, hw₁, hpc₁, hr₁⟩ := h.sender_wait hc hb hacked
  have hs : sendStep c.x w₁.sender .timeout = some { w₁.sender with pc := .retryEnter true } := by
    simp [sendStep, hpc₁]
  have hw₂ := hw₁.2.sender_local hc hs rfl ⟨by simp, by simp, by simp⟩
  obtain ⟨w₃, hw₃, hpc₃, hr₃⟩ := hw₂.2.sender_entered hc hb rfl
  obtain ⟨w', data, hw', hpc', hr', -, hall⟩ :=
    hw₃.2.send_rest hc hpc₃ (Sending.width_pos hc.windowsize_pos hb)
  exact ⟨w', data, ((hw'.after hw₃.1).after hw₂.1).after hw₁.1, hpc', hr'.trans (hr₃.trans hr₁), hall⟩

theorem sender_released (hc : c.Fits xs) (h : Sound c xs w a) (hpc : w.sender.pc = .release) :
    ∃ w', Leads c xs w w' { a with base := a.base + width c.x xs a.base, acked := false } ∧
      w'.receiver = w.receiver := by
  obtain ⟨t, hf, ht⟩ := h.rel
  obtain ⟨sd, href, -⟩ := ht.sender
  obtain ⟨sd', s', hs', -, -⟩ := href.released (href.pc_eq.symm.trans hpc)
  have hs : netStep .fifo c w (.sender .released) = some { w with sender := s' } := by
    simp [netStep, senderStep, hs']
  obtain ⟨ha, ht'⟩ := ht.sender_released hc.toOk hs
  exact ⟨_, h.next hf ht ⟨rfl, rfl⟩ hs (.inr ⟨_, ha⟩) ht', rfl⟩

/-- With the ACK of the whole window in its channel the sender comes to the next one. -/
theorem sender_advance (hc : c.Fits xs) (h : Sound c xs w a) (hb : a.base < blockCount c.x.blocksize xs)
    (hmem : a.acked = false → a.base + width c.x xs a.base ∈ a.acks) :
    ∃ w' a', Leads c xs w w' a' ∧ a'.base = a.base + width c.x xs a.base ∧ a'.recvd = a.recvd ∧
      a'.closed = a.closed ∧ w'.receiver = w.receiver := by
  rcases h.sender_pc hb with ⟨hpc, -⟩ | ⟨hacked, -⟩
  · obtain ⟨w', hw', hr'⟩ := h.sender_released hc hpc
    exact ⟨w', _, hw', rfl, rfl, rfl, hr'⟩
  replace hmem := hmem hacked
  -- ACKs before it are taken one by one, with the waiting in between
  generalize hacks : a.acks = acks at hmem
  induction acks generalizing w a with
  | nil => cases hmem
  | cons j acks ih =>
    obtain ⟨w₁, data, hw₁, hpc₁, hr₁⟩ := h.sender_wait hc hb hacked
    obtain ⟨t, hf, ht⟩ := hw₁.2.rel
    have hidx := ht.acks
    simp only [hacks] at hidx
    cases hq : w₁.acks with
    | nil => simp [hq] at hidx
    | cons q qs =>
      have hs : netStep .fifo c w₁ (.sender (.received q)) =
          some { w₁ with sender := sendReceived c.x w₁.sender q, acks := qs } := by
        simp [netStep, senderStep, sendStep, hpc₁, hq, Channel.receive]
      obtain ⟨j', acks', -, hj', ha, ht'⟩ := ht.sender_received hc.toOk (hw₁.2.identifies hc) hs
      obtain ⟨rfl, rfl⟩ : j = j' ∧ acks = acks' := by
        have := Channel.receive_fifo.mp hj'
        simpa [hacks] using this
      have hw₂ := hw₁.2.next hf ht ⟨rfl, rfl⟩ hs (.inr ⟨_, ha⟩) ht'
      have hw₂' := hw₂.after hw₁.1
      rcases hw₂.2.sender_pc hb with ⟨hpc₂, -⟩ | ⟨hacked₂, -⟩
      · obtain ⟨w', hw', hr'⟩ := hw₂.2.sender_released hc hpc₂
        exact ⟨w', _, hw'.after hw₂'.1, rfl, rfl, rfl, hr'.trans hr₁⟩
      · have hne : j ≠ a.base + width c.x xs a.base := of_decide_eq_false hacked₂
        obtain ⟨w', a', hw', hbase, hrecvd, hcl, hr'⟩ := ih hw₂.2 hb hacked₂ rfl
          ((List.mem_cons.mp hmem).resolve_left fun he => hne he.symm)
        exact ⟨w', a', hw'.after hw₂'.1, hbase, hrecvd, hcl, hr'.trans hr₁⟩

/-! ### The receiver -/

end Sound

/-- How far the receiver is from taking or waiting for data. -/
def RecvPc.rank : RecvPc → ℕ
  | .drain _ => 6
  | .finish => 5
  | .ack _ => 4
  | .reserve => 3
  | .retryEnter _ => 2
  | .reply | .recover => 1
  | .recv | .publish _ | .done _ => 0

theorem recvWait_rank (x : Xfer) (args : RecvArgs) (r : RecvState) : (recvWait x args r).pc.rank = 0 := by
  unfold recvWait
  split
  · rename_i p _ _
    rcases recvAccept_pc x { r with packetPending := false } p with ⟨q, hq⟩ | ⟨res, hq⟩ <;> rw [hq] <;> rfl
  · rfl

/-- The receiver has moved on without storing anything; if it has ended, with an ACK. -/
structure Settles (a a' : Indices) : Prop where
  base_eq : a'.base = a.base
  recvd_eq : a'.recvd = a.recvd
  acked : a'.closed = true → a'.recvd ∈ a'.acks

theorem Settles.refl (hcl : a.closed = false) : Settles a a :=
  ⟨rfl, rfl, fun hf => by simp [hcl] at hf⟩

namespace Sound

variable {args : RecvArgs} {r r' : RecvState}

/-- A receiver that has ended has succeeded. -/
theorem closed_iff (hc : c.Fits xs) (h : Sound c xs w a) :
    a.closed = true ↔ ∃ res, w.recvPc = some (.done res) := by
  obtain ⟨t, hf, ht⟩ := h.rel
  constructor
  · intro hcl
    obtain ⟨args, r, res, hr, -, hpc, -⟩ := ht.receiver_of_closed hcl
    exact ⟨res, World.recvPc_eq_some.mpr ⟨args, r, hr, hpc⟩⟩
  · rintro ⟨res, hres⟩
    obtain ⟨args, r, hr, hpc⟩ := World.recvPc_eq_some.mp hres
    have hrec := ht.receiver
    rw [hr] at hrec
    have hph := hrec.phase
    simp only [ReceiverPhase, hpc] at hph
    have hmax := hc.maxBytes_ge
    have hin := hc.inputSize_ge
    rcases hph with ⟨-, hcl⟩ | ⟨-, -, hfail | hbig | hsmall⟩
    · exact hcl
    · exact absurd hfail hf
    · omega
    · omega

theorem receiver_local (h : Sound c xs w a) (hr : w.receiver = some (args, r)) {l : RecvLabel}
    (hs : recvStep c.x args r l = some r') (hf : l.failing = false)
    (hl : (∀ p, l ≠ .sent p) ∧ (∀ p, l ≠ .received p) ∧ ∀ p, l ≠ .published p) :
    Leads c xs w { w with receiver := some (args, r') } a := by
  obtain ⟨t, hfail, ht⟩ := h.rel
  have hs' : netStep .fifo c w (.receiver l) = some { w with receiver := some (args, r') } := by
    cases l <;> first | exact absurd rfl (hl.1 _) | exact absurd rfl (hl.2.1 _) |
      simp [netStep, receiverStep, hr, hs]
  exact h.next hfail ht (l := .receiver l) ⟨hf, rfl⟩ hs' (.inl rfl) (ht.receiver_local hs' hl)

theorem receiver_sent (hc : c.Fits xs) (h : Sound c xs w a) (hcl : a.closed = false)
    (hr : w.receiver = some (args, r)) {p : Packet} (hs : recvStep c.x args r (.sent p) = some r') :
    ∃ a', Leads c xs w { w with receiver := some (args, r'), acks := w.acks ++ [p] } a' ∧ Settles a a' ∧
      (r.pc = .recover → a'.data = a.data ∧ a'.closed = false ∧ a'.recvd ∈ a'.acks) := by
  obtain ⟨t, hfail, ht⟩ := h.rel
  have hs' : netStep .fifo c w (.receiver (.sent p)) =
      some { w with receiver := some (args, r'), acks := w.acks ++ [p] } := by
    simp [netStep, receiverStep, hr, hs]
  by_cases hpc : ∃ final, r.pc = .ack final
  · obtain ⟨final, hpc⟩ := hpc
    obtain ⟨ha, ht'⟩ := ht.receiver_sent_boundary hc.toOk h.inv hs' hr hpc
    exact ⟨_, h.next hfail ht ⟨rfl, rfl⟩ hs' (.inr ⟨_, ha⟩) ht', ⟨rfl, rfl, fun _ => by simp⟩,
      fun hf => by simp [hpc] at hf⟩
  · obtain ⟨j, hj, ha, ht'⟩ := ht.receiver_sent_open hc.toOk h.inv hs' hr fun final hf => hpc ⟨final, hf⟩
    exact ⟨_, h.next hfail ht ⟨rfl, rfl⟩ hs' (.inr ⟨_, ha⟩) ht',
      ⟨rfl, rfl, fun hf => by simp [hcl] at hf⟩, fun hf => ⟨rfl, hcl, by simp [hj hf]⟩⟩

/-- One step towards the next data, or towards the end. -/
theorem receiver_advance (hc : c.Fits xs) (h : Sound c xs w a) (hcl : a.closed = false)
    {pc : RecvPc} (hpc : w.recvPc = some pc) (hrank : 0 < pc.rank) :
    ∃ w' a' pc', Leads c xs w w' a' ∧ w'.recvPc = some pc' ∧ pc'.rank < pc.rank ∧ Settles a a' := by
  obtain ⟨args, r, hr, rfl⟩ := World.recvPc_eq_some.mp hpc
  have hmove : ∀ {l r'}, RecvMove c.x args r l r' → l.failing = false →
      ((∀ p, l ≠ .sent p) ∧ (∀ p, l ≠ .received p) ∧ ∀ p, l ≠ .published p) → r'.pc.rank < r.pc.rank →
      ∃ w' a' pc', Leads c xs w w' a' ∧ w'.recvPc = some pc' ∧ pc'.rank < r.pc.rank ∧ Settles a a' :=
    fun hm hf hl hlt => ⟨_, a, _, h.receiver_local hr hm.step hf hl, rfl, hlt, .refl hcl⟩
  have hsend : ∀ {p r'}, RecvMove c.x args r (.sent p) r' → r'.pc.rank < r.pc.rank →
      ∃ w' a' pc', Leads c xs w w' a' ∧ w'.recvPc = some pc' ∧ pc'.rank < r.pc.rank ∧ Settles a a' := by
    intro p r' hm hlt
    obtain ⟨a', hw', hset, -⟩ := h.receiver_sent hc hcl hr hm.step
    exact ⟨_, a', _, hw', rfl, hlt, hset⟩
  have hwait : (recvWait c.x args r).pc.rank < r.pc.rank := by
    rw [recvWait_rank]
    exact hrank
  cases hrpc : r.pc with
  | reserve =>
    exact hrpc ▸ hmove (.reserved hrpc) rfl ⟨by simp, by simp, by simp⟩ (by simp [hrpc, RecvPc.rank])
  | retryEnter b =>
    refine hrpc ▸ hmove (.entered b hrpc) rfl ⟨by simp, by simp, by simp⟩ ?_
    split_ifs
    · simp [hrpc, RecvPc.rank]
    · exact hwait
  | reply => exact hrpc ▸ hsend (.replied hrpc) hwait
  | recover => exact hrpc ▸ hsend (.recovered hrpc) (by simp [hrpc, RecvPc.rank])
  | drain final =>
    refine hrpc ▸ hmove (.drained final hrpc) rfl ⟨by simp, by simp, by simp⟩ ?_
    cases final <;> simp [hrpc, RecvPc.rank]
  | finish => exact hrpc ▸ hmove (.finished hrpc) rfl ⟨by simp, by simp, by simp⟩ (by simp [hrpc, RecvPc.rank])
  | ack final =>
    refine hrpc ▸ hsend (.acked final hrpc) ?_
    cases final <;> simp [hrpc, RecvPc.rank, RecvState.finish]
  | recv | publish p | done res => simp [hrpc, RecvPc.rank] at hrank

/-- The receiver comes to take data, to wait for it, or to its end. -/
theorem receiver_settle (hc : c.Fits xs) (h : Sound c xs w a) (hcl : a.closed = false)
    (hrun : w.recvPc ≠ none) :
    ∃ w' a' pc, Leads c xs w w' a' ∧ w'.recvPc = some pc ∧ pc.rank = 0 ∧ Settles a a' := by
  obtain ⟨pc₀, hpc₀⟩ := Option.ne_none_iff_exists'.mp hrun
  obtain ⟨-, w', hr, ⟨a', pc, hsound, hpc, -, hset⟩, pc', hpc', h0⟩ :=
    Reaches.progress (netStep .fifo c) (P := NetLabel.Quiet)
      (fun n w => ∃ a' pc, Sound c xs w a' ∧ w.recvPc = some pc ∧ pc.rank = n ∧ Settles a a')
      (fun w => ∃ pc, w.recvPc = some pc ∧ pc.rank = 0)
      (fun n w ⟨a₁, pc, hsound, hpc, hn, hset⟩ hg => by
        have hpos : 0 < pc.rank := Nat.pos_of_ne_zero fun h0 => hg ⟨pc, hpc, h0⟩
        have hcl₁ : a₁.closed = false := by
          rw [← Bool.not_eq_true, hsound.closed_iff hc]
          rintro ⟨res, hres⟩
          rw [hpc] at hres
          simp [Option.some.inj hres, RecvPc.rank] at hpos
        obtain ⟨w₂, a₂, pc₂, hw₂, hpc₂, hlt, hset₂⟩ := hsound.receiver_advance hc hcl₁ hpc hpos
        refine ⟨pc₂.rank, hn ▸ hlt, w₂, hw₂.1, a₂, pc₂, hw₂.2, hpc₂, rfl, ?_⟩
        exact ⟨hset₂.base_eq.trans hset.base_eq, hset₂.recvd_eq.trans hset.recvd_eq, hset₂.acked⟩)
      ⟨a, pc₀, h, hpc₀, rfl, .refl hcl⟩
  obtain rfl : pc = pc' := Option.some.inj (hpc.symm.trans hpc')
  exact ⟨w', a', pc, ⟨hr, hsound⟩, hpc, h0, hset⟩

theorem receiver_publish (hc : c.Fits xs) (h : Sound c xs w a) {p : Packet}
    (hpc : w.recvPc = some (.publish p)) :
    ∃ w' a', Leads c xs w w' a' ∧ w'.recvPc ≠ none ∧ a'.recvd = a.recvd + 1 ∧ a'.base = a.base ∧
      a'.closed = a.closed := by
  obtain ⟨args, r, hr, hrpc⟩ := World.recvPc_eq_some.mp hpc
  obtain ⟨t, hfail, ht⟩ := h.rel
  have hs : netStep .fifo c w (.receiver (.published p)) =
      some { w with receiver := some (args, recvPublished c.x r p) } := by
    simp [netStep, receiverStep, recvStep, hr, hrpc]
  obtain ⟨a', hrecvd, hbase, hcl, ha, ht'⟩ := ht.receiver_published hc.toOk h.inv hs
  exact ⟨_, a', h.next hfail ht ⟨rfl, rfl⟩ hs (.inr ⟨_, ha⟩) ht', by simp [World.recvPc], hrecvd, hbase, hcl⟩

/-- The receiver takes what is first in its channel. -/
theorem receiver_take (hc : c.Fits xs) (h : Sound c xs w a) (hcl : a.closed = false)
    (hpc : w.recvPc = some .recv) {i : ℕ} {data : List ℕ} (hdata : a.data = i :: data) :
    ∃ w', Leads c xs w w' { a with data, accepted := i = a.recvd + 1 } ∧
      (i ≠ a.recvd + 1 → w'.recvPc = some .recover) ∧
      (i = a.recvd + 1 → ∃ p, w'.recvPc = some (.publish p)) := by
  obtain ⟨args, r, hr, hrpc⟩ := World.recvPc_eq_some.mp hpc
  obtain ⟨t, hfail, ht⟩ := h.rel
  have hidx := ht.data
  rw [hdata] at hidx
  cases hq : w.data with
  | nil => simp [hq] at hidx
  | cons q qs =>
    have hs : netStep .fifo c w (.receiver (.received q)) =
        some { w with receiver := some (args, recvReceived c.x r q), data := qs } := by
      simp [netStep, receiverStep, recvStep, hr, hrpc, hq, Channel.receive]
    obtain ⟨i', data', hi', hother, hnext, ha, ht'⟩ :=
      ht.receiver_received hc.toOk h.inv (h.identifies hc) hs
    obtain ⟨rfl, rfl⟩ : i = i' ∧ data = data' := by
      have := Channel.receive_fifo.mp hi'
      simpa [hdata] using this
    have hw' := h.next hfail ht ⟨rfl, rfl⟩ hs (.inr ⟨_, ha⟩) ht'
    refine ⟨_, hw', hother, fun he => (hnext he).resolve_right fun hdone => ?_⟩
    have := (hw'.2.closed_iff hc).mpr hdone
    simp [hcl] at this

/-- Data other than the next block is answered with the ACK of the last one. -/
theorem receiver_skip (hc : c.Fits xs) (h : Sound c xs w a) (hcl : a.closed = false)
    (hpc : w.recvPc = some .recv) {i : ℕ} {data : List ℕ} (hdata : a.data = i :: data) (hi : i ≠ a.recvd + 1) :
    ∃ w' a', Leads c xs w w' a' ∧ w'.recvPc = some .recv ∧ Settles a a' ∧ a'.data = data ∧
      a'.closed = false ∧ a'.recvd ∈ a'.acks := by
  obtain ⟨w₁, hw₁, hother, -⟩ := h.receiver_take hc hcl hpc hdata
  obtain ⟨args, r, hr, hrpc⟩ := World.recvPc_eq_some.mp (hother hi)
  have hs : recvStep c.x args r (.sent (ackPacket r.lastReceived)) = some { r with pc := .recv } := by
    simp [recvStep, hrpc]
  obtain ⟨a', hw', hset, hrec⟩ := hw₁.2.receiver_sent hc hcl hr hs
  obtain ⟨hd, hcl', hmem⟩ := hrec hrpc
  exact ⟨_, a', hw'.after hw₁.1, rfl, ⟨hset.base_eq, hset.recvd_eq, hset.acked⟩, hd, hcl', hmem⟩

/-- With the next block in its channel the receiver comes to store it. -/
theorem receiver_next (hc : c.Fits xs) (h : Sound c xs w a) (hcl : a.closed = false)
    (hpc : w.recvPc = some .recv) (hmem : a.recvd + 1 ∈ a.data) :
    ∃ w' a', Leads c xs w w' a' ∧ w'.recvPc ≠ none ∧ a'.recvd = a.recvd + 1 ∧ a'.base = a.base ∧
      a'.closed = false := by
  generalize hdata : a.data = data at hmem
  induction data generalizing w a with
  | nil => cases hmem
  | cons i data ih =>
    by_cases hi : i = a.recvd + 1
    · obtain ⟨w₁, hw₁, -, hnext⟩ := h.receiver_take hc hcl hpc hdata
      obtain ⟨p, hp⟩ := hnext hi
      obtain ⟨w', a', hw', hrun, hrecvd, hbase, hcl'⟩ := hw₁.2.receiver_publish hc hp
      exact ⟨w', a', hw'.after hw₁.1, hrun, hrecvd, hbase, hcl'.trans hcl⟩
    · obtain ⟨w₁, a₁, hw₁, hpc₁, hset, hd₁, hcl₁, -⟩ := h.receiver_skip hc hcl hpc hdata hi
      have hmem₁ : a₁.recvd + 1 ∈ data := by
        rw [hset.recvd_eq]
        exact (List.mem_cons.mp hmem).resolve_left fun he => hi he.symm
      obtain ⟨w', a', hw', hrun, hrecvd, hbase, hcl'⟩ := ih hw₁.2 hcl₁ hpc₁ hd₁ hmem₁
      exact ⟨w', a', hw'.after hw₁.1, hrun, by rw [hrecvd, hset.recvd_eq], hbase.trans hset.base_eq, hcl'⟩

/-! ### Rounds -/

theorem recvd_lt_of_recv (h : Sound c xs w a) (hcl : a.closed = false) (hpc : w.recvPc = some .recv) :
    a.base ≤ a.recvd ∧ a.recvd < blockCount c.x.blocksize xs := by
  obtain ⟨t, -, ht⟩ := h.rel
  obtain ⟨args, r, hr, hrpc⟩ := World.recvPc_eq_some.mp hpc
  have hrec := ht.receiver
  rw [hr] at hrec
  have hph := hrec.phase
  simp only [ReceiverPhase, hrpc] at hph
  refine ⟨le_trans h.inv.base_le_ackable a.ackable_le, lt_of_le_of_ne h.inv.recvd_le_count fun he => ?_⟩
  simp [h.inv.closed_of he hph.2.1] at hcl

/-- A waiting receiver and a sender without the ACK of its window: once the window has
been sent again, either the next block is on its way or an ACK of the whole. -/
theorem round_of_recv (hc : c.Fits xs) (h : Sound c xs w a) (hcl : a.closed = false)
    (hpc : w.recvPc = some .recv) (hacked : a.acked = false) :
    ∃ w' a', Leads c xs w w' a' ∧ w'.recvPc ≠ none ∧ a'.closed = false ∧
      a.base + a.recvd < a'.base + a'.recvd := by
  obtain ⟨hle, hlt⟩ := h.recvd_lt_of_recv hcl hpc
  have hb := lt_of_le_of_lt hle hlt
  have hwpos := Sending.width_pos hc.windowsize_pos hb
  obtain ⟨w₁, data, hw₁, -, hrec₁, hall⟩ := h.sender_resend hc hb hacked
  have hpc₁ : w₁.recvPc = some .recv := by rwa [World.recvPc, hrec₁]
  by_cases hin : a.recvd < a.base + width c.x xs a.base
  · obtain ⟨w', a', hw', hrun, hrecvd, hbase, hcl'⟩ :=
      hw₁.2.receiver_next hc hcl hpc₁ (hall _ (Nat.lt_succ_of_le hle) hin)
    exact ⟨w', a', hw'.after hw₁.1, hrun, hcl', by rw [hrecvd, hbase]; exact Nat.lt_succ_self _⟩
  · have hup : a.recvd = a.base + width c.x xs a.base := le_antisymm h.inv.recvd_le (Nat.not_lt.mp hin)
    -- all that is in flight is old
    cases hd : data with
    | nil =>
      have := hall (a.base + 1) (by omega) (by omega)
      simp [hd] at this
    | cons i rest =>
      have hi : i ≠ a.recvd + 1 := by
        have hi := (hw₁.2.inv.data_le i (by simp [hd])).2
        change i ≤ a.base + width c.x xs a.base at hi
        omega
      obtain ⟨w₂, a₂, hw₂, hpc₂, hset, -, hcl₂, hmem⟩ :=
        hw₁.2.receiver_skip hc hcl hpc₁ hd hi
      have hbase₂ : a₂.base = a.base := hset.base_eq
      have hrecvd₂ : a₂.recvd = a.recvd := hset.recvd_eq
      have hmem' : a₂.base + width c.x xs a₂.base ∈ a₂.acks := by
        rw [hbase₂, ← hup, ← hrecvd₂]
        exact hmem
      obtain ⟨w', a', hw', hbase, hrecvd, hcl', hrec'⟩ :=
        hw₂.2.sender_advance hc (hbase₂ ▸ hb) fun _ => hmem'
      refine ⟨w', a', (hw'.after hw₂.1).after hw₁.1, ?_, hcl'.trans hcl₂, ?_⟩
      · rw [World.recvPc, hrec', ← World.recvPc, hpc₂]
        simp
      · rw [hbase, hrecvd, hbase₂, hrecvd₂]
        omega

/-- From every running state one side gets on, or the receiver ends. -/
theorem round (hc : c.Fits xs) (h : Sound c xs w a) (hrun : w.recvPc ≠ none) (hcl : a.closed = false) :
    ∃ w' a', Leads c xs w w' a' ∧ w'.recvPc ≠ none ∧
      (a'.closed = true → blockCount c.x.blocksize xs ∈ a'.acks) ∧
      a.base + a.recvd < a'.base + a'.recvd + (if a'.closed then 1 else 0) := by
  obtain ⟨w₁, a₁, pc, hw₁, hpc, hrank, hset⟩ := h.receiver_settle hc hcl hrun
  rw [← hset.base_eq, ← hset.recvd_eq]
  cases hcl₁ : a₁.closed with
  | true =>
    refine ⟨w₁, a₁, hw₁, by simp [hpc], fun _ => ?_, by simp [hcl₁]⟩
    rw [← (hw₁.2.inv.closed_eq hcl₁).1]
    exact hset.acked hcl₁
  | false =>
    -- neither side has ended after such a round
    suffices hnext : ∃ w' a', Leads c xs w₁ w' a' ∧ w'.recvPc ≠ none ∧ a'.closed = false ∧
        a₁.base + a₁.recvd < a'.base + a'.recvd by
      obtain ⟨w', a', hw', hrun', hcl', hlt⟩ := hnext
      exact ⟨w', a', hw'.after hw₁.1, hrun', by simp [hcl'], by simpa [hcl'] using hlt⟩
    cases pc with
    | publish p =>
      obtain ⟨w', a', hw', hrun', hrecvd, hbase, hcl'⟩ := hw₁.2.receiver_publish hc hpc
      exact ⟨w', a', hw', hrun', hcl'.trans hcl₁, by rw [hrecvd, hbase]; omega⟩
    | recv =>
      cases hacked : a₁.acked with
      | false => exact hw₁.2.round_of_recv hc hcl₁ hpc hacked
      | true =>
        obtain ⟨hle, hlt⟩ := hw₁.2.recvd_lt_of_recv hcl₁ hpc
        have hwpos := Sending.width_pos hc.windowsize_pos (lt_of_le_of_lt hle hlt)
        obtain ⟨w', a', hw', hbase, hrecvd, hcl', hrec⟩ :=
          hw₁.2.sender_advance hc (lt_of_le_of_lt hle hlt) fun hf => by simp [hacked] at hf
        refine ⟨w', a', hw', ?_, hcl'.trans hcl₁, by rw [hrecvd, hbase]; omega⟩
        rw [World.recvPc, hrec, ← World.recvPc, hpc]
        simp
    | done res => simp [(hw₁.2.closed_iff hc).mpr ⟨res, hpc⟩] at hcl₁
    | _ => simp [RecvPc.rank] at hrank

/-- The receiver comes to its end, with the last ACK in the channel. -/
theorem receiver_finish (hc : c.Fits xs) (h : Sound c xs w a) (hrun : w.recvPc ≠ none)
    (hcl : a.closed = false) :
    ∃ w' a', Leads c xs w w' a' ∧ a'.closed = true ∧ blockCount c.x.blocksize xs ∈ a'.acks := by
  have hbound : ∀ {w a}, Sound c xs w a → a.base + a.recvd ≤ 2 * blockCount c.x.blocksize xs := by
    intro w a h
    have := h.inv.base_le
    have := h.inv.recvd_le_count
    omega
  have h₀ := hbound h
  obtain ⟨-, w', hr, ⟨a', hsound, -, hlast, -⟩, hdone⟩ :=
    Reaches.progress (netStep .fifo c) (P := NetLabel.Quiet)
      (fun n w => ∃ a, Sound c xs w a ∧ w.recvPc ≠ none ∧
        (a.closed = true → blockCount c.x.blocksize xs ∈ a.acks) ∧
        n + (a.base + a.recvd + if a.closed then 1 else 0) = 2 * blockCount c.x.blocksize xs + 1)
      (fun w => ∃ res, w.recvPc = some (.done res))
      (fun n w ⟨a, hsound, hrun, _, hn⟩ hg => by
        have hcl : a.closed = false := by
          rw [← Bool.not_eq_true, hsound.closed_iff hc]
          exact hg
        obtain ⟨w', a', hw', hrun', hlast', hlt⟩ := hsound.round hc hrun hcl
        have hle := hbound hw'.2
        simp only [hcl, Bool.false_eq_true, if_false] at hn
        exact ⟨2 * blockCount c.x.blocksize xs + 1 - (a'.base + a'.recvd + if a'.closed then 1 else 0),
          by split_ifs at hlt ⊢ <;> omega, w', hw'.1, a', hw'.2, hrun', hlast',
          by split_ifs <;> omega⟩)
      (n := 2 * blockCount c.x.blocksize xs + 1 - (a.base + a.recvd))
      ⟨a, h, hrun, by simp [hcl], by simp only [hcl, Bool.false_eq_true, if_false]; omega⟩
  have hcl' := (hsound.closed_iff hc).mpr hdone
  exact ⟨w', a', ⟨hr, hsound⟩, hcl', hlast hcl'⟩

/-- After the receiver the sender ends. -/
theorem sender_finish (hc : c.Fits xs) (h : Sound c xs w a) (hcl : a.closed = true)
    (hlast : blockCount c.x.blocksize xs ∈ a.acks) :
    ∃ w' a', Leads c xs w w' a' ∧ a'.base = blockCount c.x.blocksize xs ∧ a'.closed = true := by
  have hrecvd := (h.inv.closed_eq hcl).1
  have hup := h.inv.recvd_le
  have hend := WindowProtocol.base_add_width_le (W := c.x.windowsize) h.inv.base_le
  rcases h.inv.base_le.lt_or_eq with hlt | heq
  · have hN : a.base + width c.x xs a.base = blockCount c.x.blocksize xs :=
      le_antisymm hend (hrecvd ▸ hup)
    obtain ⟨w', a', hw', hbase, -, hcl', -⟩ := h.sender_advance hc hlt fun _ => hN.symm ▸ hlast
    exact ⟨w', a', hw', hbase.trans hN, hcl'.trans hcl⟩
  · exact ⟨w, a, ⟨.refl _, h⟩, heq, hcl⟩

end Sound

/-- Both engines have returned success. -/
def World.Succeeded (w : World) : Prop :=
  (∃ res, w.sender.pc = .done res ∧ res.status = .ok) ∧
    ∃ args r res, w.receiver = some (args, r) ∧ r.pc = .done res ∧ res.status = .ok

namespace Sound

theorem succeeded (h : Sound c xs w a) (hb : a.base = blockCount c.x.blocksize xs) (hcl : a.closed = true) :
    w.Succeeded := by
  obtain ⟨t, hf, ht⟩ := h.rel
  obtain ⟨sd, href, hsd⟩ := ht.sender
  have hph := hsd.phase
  have htr := hsd.trace.phase
  obtain ⟨args, r, res, hr, -, hpc, hok⟩ := ht.receiver_of_closed hcl
  refine ⟨?_, args, r, res, hr, hpc, hok⟩
  rw [href.pc_eq]
  have hbase := hsd.base_eq
  cases hpc' : sd.pc <;> simp only [hpc'] at hph htr
  case done res' => exact ⟨res', rfl, (hph.resolve_right fun hfail => hf hfail.2).1⟩
  all_goals exact absurd (htr.1) (by omega)

/-- From every state in which the receiver has not ended there is a way to success. -/
theorem leads_to_success (hc : c.Fits xs) (h : Sound c xs w a) (hcl : a.closed = false) :
    ∃ w', Reaches (netStep .fifo c) NetLabel.Quiet w w' ∧ w'.Succeeded := by
  have hstart : ∃ w₁ a₁, Leads c xs w w₁ a₁ ∧ w₁.recvPc ≠ none ∧ a₁.closed = false := by
    cases hr : w.receiver with
    | some ar => exact ⟨w, a, ⟨.refl _, h⟩, by simp [World.recvPc, hr], hcl⟩
    | none =>
      obtain ⟨t, hf, ht⟩ := h.rel
      have hs : netStep .fifo c w (.start none) = some { w with receiver := some (c.startWith none) } := by
        simp [netStep, hr]
      exact ⟨_, a, h.next hf ht ⟨rfl, rfl⟩ hs (.inl rfl) (ht.start_none hs), by simp [World.recvPc], hcl⟩
  obtain ⟨w₁, a₁, hw₁, hrun, hcl₁⟩ := hstart
  obtain ⟨w₂, a₂, hw₂, hcl₂, hlast⟩ := hw₁.2.receiver_finish hc hrun hcl₁
  obtain ⟨w₃, a₃, hw₃, hb₃, hcl₃⟩ := hw₂.2.sender_finish hc hcl₂ hlast
  exact ⟨w₃, (hw₁.1.trans hw₂.1).trans hw₃.1, hw₃.2.succeeded hb₃ hcl₃⟩

end Sound

/-! ### Alignment -/

/-- The windows of the two engines begin at multiples of their size, and what the
receiver has published since it last acknowledged one lies in the sender's. -/
structure WindowsAligned (c : Session) (xs : Bytes) (t : List NetLabel) : Prop where
  base_dvd : c.x.windowsize ∣ (traceWindow (sendTrace t)).1
  boundary_dvd : ∀ j, BoundaryAcked (recvTrace t) j → c.x.windowsize ∣ j
  inside : ∀ i, 0 < i → i ≤ (published (recvTrace t)).length →
    (∀ j, BoundaryAcked (recvTrace t) j → j < i) →
    (traceWindow (sendTrace t)).1 < i ∧
      i ≤ (traceWindow (sendTrace t)).1 + width c.x xs (traceWindow (sendTrace t)).1

/-- The receiver's part of a run is a run of the receiver. -/
theorem recvTrace_run {d : Channel.Discipline} {w₀ : World} (h₀ : w₀.receiver = none)
    (hrun : run (netStep d c) w₀ t = some w) :
    match w.receiver with
    | none => recvTrace t = []
    | some (args, r) => run (recvStep c.x args) (recvInit c.x args) (recvTrace t) = some r := by
  refine Transition.run_invariant (fun t w => match w.receiver with
    | none => recvTrace t = []
    | some (args, r) => run (recvStep c.x args) (recvInit c.x args) (recvTrace t) = some r)
    (by simp [h₀, recvTrace]) (fun t w l w' h hs => ?_) hrun
  cases l with
  | sender l =>
    rw [netStep_receiver_eq hs, recvTrace_concat, List.append_nil]
    exact h
  | receiver l =>
    obtain ⟨⟨args, r⟩, hr, hs⟩ := Option.bind_eq_some_iff.mp hs
    obtain ⟨r', hstep, hw'⟩ := Option.bind_eq_some_iff.mp hs
    have hrec : w'.receiver = some (args, r') := by
      cases l with
      | received p =>
        obtain ⟨data, -, rfl⟩ := Option.map_eq_some_iff.mp hw'
        rfl
      | _ =>
        obtain rfl := Option.some.inj hw'
        rfl
    rw [hr] at h
    rw [hrec, recvTrace_concat]
    exact Transition.run_concat_eq_some.mpr ⟨r, h, hstep⟩
  | start p =>
    cases hr : w.receiver with
    | some ar => simp [netStep, hr] at hs
    | none =>
      rw [hr] at h
      have hrec : w'.receiver = some (c.startWith p) := by
        cases p with
        | none =>
          simp only [netStep, hr, Option.some.injEq] at hs
          rw [← hs]
        | some p =>
          simp only [netStep, hr, Option.ite_none_right_eq_some, Option.map_eq_some_iff] at hs
          obtain ⟨-, data, -, rfl⟩ := hs
          rfl
      rw [hrec, recvTrace_concat, List.append_nil, h]
      rfl
  | loseData n =>
    obtain rfl := Option.some.inj hs
    rw [recvTrace_concat, List.append_nil]
    exact h
  | loseAck n =>
    obtain rfl := Option.some.inj hs
    rw [recvTrace_concat, List.append_nil]
    exact h

/-- The last boundary of what may be acknowledged has been. -/
theorem ReceiverRel.boundaryAcked {args : RecvArgs} {r : RecvState} (h : ReceiverRel c xs t args r a)
    (hopen : ∀ res, r.pc ≠ .done res) (hpos : 0 < boundary c.x.windowsize a.ackable) :
    BoundaryAcked (recvTrace t) (boundary c.x.windowsize a.ackable) := by
  have hph := h.phase
  have hinv := h.inv.phase
  have hlen := h.length_published
  have hclosing : ∀ {final tail}, published tail = [] → a.settling = true →
      Closing c.x (recvTrace t) r final tail →
      BoundaryAcked (recvTrace t) (boundary c.x.windowsize a.ackable) := by
    rintro final tail htail hset ⟨u, p, ht, -, -, -, -, hprev⟩
    have hu : a.ackable = (published u).length := by
      rw [ht, show u ++ .published p :: tail = u ++ [.published p] ++ tail by simp,
        published_append_of_nil _ htail] at hlen
      simp [WindowProtocol.State.ackable, hset, ← hlen, published]
    rw [hu] at hpos ⊢
    exact hprev hpos
  have hwindow : ∀ {k n}, a.settling = false → Open c.x (recvTrace t) k n →
      BoundaryAcked (recvTrace t) (boundary c.x.windowsize a.ackable) := by
    intro k n hset ho
    have hacked := ho.acked
    have hk : a.ackable = a.recvd := by simp [WindowProtocol.State.ackable, hset]
    rw [hlen] at hacked
    rw [hk] at hpos ⊢
    exact hacked hpos
  cases hpc : r.pc with
  | reserve | retryEnter b | reply =>
    simp only [ReceiverPhase, RecvState.Phase, hpc] at hph hinv
    exact hwindow hph.2.1 hinv
  | recv | recover | publish p =>
    simp only [ReceiverPhase, RecvState.Phase, hpc] at hph hinv
    exact hwindow hph.2.1 hinv.1
  | drain final | finish =>
    simp only [ReceiverPhase, RecvState.Phase, hpc] at hph hinv
    exact hclosing rfl hph.2.1 hinv
  | ack final =>
    simp only [ReceiverPhase, RecvState.Phase, hpc] at hph hinv
    exact hclosing (by cases final <;> rfl) hph.2.1 hinv
  | done res => exact absurd hpc (hopen res)

theorem Rel.aligned (hI : IndexInv c xs a) (h : Rel c xs t w a) (hcl : a.closed = false)
    (hopen : ∀ res, w.recvPc ≠ some (.done res)) {w₀ : World} (h₀ : w₀.receiver = none)
    {d : Channel.Discipline} (hrun : run (netStep d c) w₀ t = some w) : WindowsAligned c xs t := by
  obtain ⟨sd, href, hsd⟩ := h.sender
  have hbase : (traceWindow (sendTrace t)).1 = a.base := hsd.trace.base_eq.trans hsd.base_eq
  have hlt : a.base < blockCount c.x.blocksize xs := by
    refine lt_of_le_of_ne hI.base_le fun he => ?_
    simp [(hI.closed_of_base he).1] at hcl
  have hdvd := hI.base_dvd hlt
  have hbd := Window.le_boundary_of_dvd hdvd hI.base_le_ackable
  have hrec := h.receiver
  have hrt := recvTrace_run h₀ hrun
  cases hr : w.receiver with
  | none =>
    rw [hr] at hrt
    refine ⟨hbase ▸ hdvd, ?_, ?_⟩
    · rintro j ⟨u, q, v, ht, -⟩
      simp [hrt] at ht
    · intro i hi hi'
      simp only [hrt, published_nil, List.length_nil] at hi'
      omega
  | some ar =>
    obtain ⟨args, r⟩ := ar
    rw [hr] at hrec hrt
    refine ⟨hbase ▸ hdvd, fun j hj => dvd_of_boundaryAcked hrec.initial hrt hj, fun i hi hi' hlast => ?_⟩
    rw [hrec.length_published] at hi'
    rw [hbase]
    refine ⟨lt_of_le_of_lt hbd ?_, le_trans hi' hI.recvd_le⟩
    rcases Nat.eq_zero_or_pos (boundary c.x.windowsize a.ackable) with h0 | hpos
    · omega
    · refine hlast _ (hrec.boundaryAcked (fun res hres => hopen res ?_) hpos)
      exact World.recvPc_eq_some.mpr ⟨args, r, hr, hres⟩

/-! ### No transfer gets stuck -/

/-- Over lossy FIFO channels, as long as the receiver has not returned, the windows
are aligned and some continuation lets both engines return success. -/
theorem transfer_never_stuck (c : Session) (hw : 1 ≤ c.x.windowsize) (hw' : c.x.windowsize ≤ 32768)
    (hr : c.x.rollover = 0 ∨ c.x.rollover = 1) (hreply : c.OpensWell)
    (hin : c.x.blocksize + 4 ≤ c.inputSize) (file : File) (hgood : file.readError = false)
    (convert threaded : Bool) (slots : ℕ) {io : TftpIo}
    (hio : TftpIo.readerStart file convert c.x.windowsize slots c.x.blocksize threaded = some io)
    (hmax : (file.stream convert).length ≤ c.x.maxBytes.toNat) {t : List NetLabel} {w : World}
    (hrun : run (netStep .fifo c) { sender := sendInit io } t = some w)
    (hfail : ∀ l ∈ t, l.failing = false) (hopen : ∀ res, w.recvPc ≠ some (.done res)) :
    WindowsAligned c (file.stream convert) t ∧
      ∃ w', Reaches (netStep .fifo c) NetLabel.Quiet w w' ∧ w'.Succeeded := by
  have hc := Session.ok_of_start hio hw hreply
  have hfits : c.Fits (file.stream convert) := ⟨hc, hw', hr, hmax, hin⟩
  have hpos := Blocks.blockCount_pos c.x.blocksize (file.stream convert)
  obtain ⟨a, ha, h, hread⟩ := Rel.of_run hc (Rel.init hw hio)
    (fun a ha => identifies_of_lag hw' hr (.of_reaches hpos ha) (.of_reaches hpos hw ha)) hrun
  have hnf : ¬ Failed t := fun ⟨l, hl, hf⟩ => by simp [hfail l hl] at hf
  have hio' : io.file.readError = file.readError := (sendRefines_init hw hio).readError_eq
  have hsound : Sound c (file.stream convert) w a := ⟨ha, ⟨t, hnf, h⟩, hread.trans (hio'.trans hgood)⟩
  have hcl : a.closed = false := by
    rw [← Bool.not_eq_true, hsound.closed_iff hfits]
    exact fun ⟨res, hres⟩ => hopen res hres
  exact ⟨h.aligned hsound.inv hcl hopen rfl hrun, hsound.leads_to_success hfits hcl⟩

/-- The first packet of a transfer of one byte is lost. -/
theorem transfer_never_stuck_one_byte :
    ∃ io w, TftpIo.readerStart { rest := [65] } false 4 4 512 false = some io ∧
      run (netStep .fifo { x := { blocksize := 512, windowsize := 4, rollover := 1 }, inputSize := 516 })
        { sender := sendInit io }
        [.start none, .sender (.window 1 true), .sender (.entered false), .sender (.sent (dataPacket 1 [65])),
          .loseData 0] = some w ∧
      ∃ w', Reaches (netStep .fifo
        { x := { blocksize := 512, windowsize := 4, rollover := 1 }, inputSize := 516 })
        NetLabel.Quiet w w' ∧ w'.Succeeded :=
  ⟨_, _, rfl, rfl, (transfer_never_stuck
    { x := { blocksize := 512, windowsize := 4, rollover := 1 }, inputSize := 516 } (by decide) (by decide)
    (.inr rfl) (fun _ h => by cases h) (by decide) { rest := [65] } rfl false false 4 rfl (by decide)
    (t := [.start none, .sender (.window 1 true), .sender (.entered false),
      .sender (.sent (dataPacket 1 [65])), .loseData 0])
    rfl (by simp [NetLabel.failing, SendLabel.failing]) (by simp [World.recvPc, Session.startWith, recvInit])).2⟩

end TftpHpa
