import TftpHpa.Net.Refine

/-! The simulation, label by label: each step of the composed engines leaves the
protocol where it is or is one of its events. -/

namespace TftpHpa

open Blocks (block blockCount)
open Channel (Discipline receive)
open Window (boundary)
open Sending (width)

/-- The protocol a session runs: its blocks, its window and its channels. -/
abbrev indexStep (d : Discipline) (c : Session) (xs : Bytes) :
    Indices → WindowProtocol.Event → Option Indices :=
  WindowProtocol.step d (blockCount c.x.blocksize xs) c.x.windowsize

abbrev IndexInv (c : Session) (xs : Bytes) (a : Indices) : Prop :=
  WindowProtocol.Inv (blockCount c.x.blocksize xs) c.x.windowsize a

/-- What every session is assumed to satisfy. -/
structure Session.Ok (c : Session) : Prop where
  blocksize_pos : 0 < c.x.blocksize
  windowsize_pos : 0 < c.x.windowsize
  opensWell : c.OpensWell

variable {d : Discipline} {c : Session} {xs : Bytes} {t : List NetLabel} {w w' : World} {a a' : Indices}

theorem IndexInv.recvd_le_count (h : IndexInv c xs a) : a.recvd ≤ blockCount c.x.blocksize xs :=
  le_trans h.recvd_le (WindowProtocol.base_add_width_le h.base_le)

/-! ### Frames -/

theorem SenderRel.frame {sd : Sending} (h : SenderRel c.x xs t sd a) {l : NetLabel}
    (hl : ∀ m, l ≠ .sender m) (hb : a'.base = a.base) (ha : a'.acked = a.acked) :
    SenderRel c.x xs (t ++ [l]) sd a' := by
  have htr : sendTrace (t ++ [l]) = sendTrace t := by
    cases l <;> first | exact absurd rfl (hl _) | simp
  have hph := h.phase
  refine ⟨by rw [htr]; exact h.trace, by rw [hb]; exact h.base_eq, ?_⟩
  rw [ha, hb]
  cases hpc : sd.pc <;> simp only [hpc] at hph ⊢ <;> try exact hph
  exact hph.imp_right fun hf => ⟨hf.1, hf.2.concat _⟩

theorem ReceiverStands.frame {rec : Option (RecvArgs × RecvState)} (h : ReceiverStands c xs t a rec)
    {l : NetLabel} (hl : ∀ m, l ≠ .receiver m) (hr : a'.recvd = a.recvd) (ha : a'.accepted = a.accepted)
    (hs : a'.settling = a.settling) (hc : a'.closed = a.closed) : ReceiverStands c xs (t ++ [l]) a' rec := by
  have htr : recvTrace (t ++ [l]) = recvTrace t := by
    cases l <;> first | exact absurd rfl (hl _) | simp
  match rec, h with
  | none, h => exact ⟨htr.trans h.1, hr.trans h.2.1, ha.trans h.2.2.1, hs.trans h.2.2.2.1, hc.trans h.2.2.2.2⟩
  | some (args, r), h =>
    have hph := h.phase
    refine ⟨h.reply_eq, h.first_eq, by rw [htr]; exact h.inv, by rw [htr, hr]; exact h.published_eq, ?_⟩
    simp only [ReceiverPhase, hr, ha, hs, hc] at hph ⊢
    cases hpc : r.pc <;> simp only [hpc] at hph ⊢ <;> try exact hph
    exact hph.imp_right fun hf => ⟨hf.1, hf.2.1, hf.2.2.imp_left fun hf => hf.concat _⟩

namespace Rel

/-! ### Sender steps -/

theorem sender_local (hc : c.Ok) (h : Rel c xs t w a) {l : SendLabel}
    (hs : netStep d c w (.sender l) = some w')
    (hl : l ≠ .released ∧ (∀ p, l ≠ .sent p) ∧ ∀ p, l ≠ .received p) :
    Rel c xs (t ++ [.sender l]) w' a := by
  obtain ⟨sd, href, hsd⟩ := h.sender
  obtain ⟨s', hstep, hw'⟩ := Option.bind_eq_some_iff.mp hs
  obtain ⟨sd', hsd', href'⟩ := href.step hstep
  have heq : { w with sender := s' } = w' := by
    cases l <;> first | exact Option.some.inj hw' | exact absurd rfl (hl.2.1 _) |
      exact absurd rfl (hl.2.2 _)
  subst heq
  exact ⟨⟨sd', href', hsd.local_step hc.windowsize_pos hsd' hl⟩,
    h.receiver.frame (by simp) rfl rfl rfl rfl, h.data, h.acks⟩

theorem sender_sent (hc : c.Ok) (h : Rel c xs t w a) {p : Packet}
    (hs : netStep d c w (.sender (.sent p)) = some w') :
    ∃ n < width c.x xs a.base, w.sender.pc = .send n ∧
      w'.sender.pc = (if n + 1 < width c.x xs a.base then .send (n + 1) else .recv) ∧
      indexStep d c xs a (.send (a.base + n + 1)) = some { a with data := a.data ++ [a.base + n + 1] } ∧
      Rel c xs (t ++ [.sender (.sent p)]) w' { a with data := a.data ++ [a.base + n + 1] } := by
  obtain ⟨sd, href, hsd⟩ := h.sender
  obtain ⟨s', hstep, hw'⟩ := Option.bind_eq_some_iff.mp hs
  obtain ⟨sd', hsd', href'⟩ := href.step hstep
  obtain ⟨n, hn, hpc, hpc', hp, hacked, hsd''⟩ := hsd.sent hc.windowsize_pos hsd'
  obtain rfl := Option.some.inj hw'
  refine ⟨n, hn, href.pc_eq.trans hpc, href'.pc_eq.trans hpc', ?_, ⟨sd', href', ?_⟩,
    h.receiver.frame (by simp) rfl rfl rfl rfl, ?_, h.acks⟩
  · simp only [indexStep, WindowProtocol.step]
    rw [if_pos ⟨hacked, by omega, by simp only [WindowProtocol.width, width] at hn ⊢; omega⟩]
  · exact ⟨hsd''.trace, hsd''.base_eq, hsd''.phase⟩
  · exact List.rel_append h.data (.cons hp .nil)

theorem sender_received (hc : c.Ok) (hid : Identifies c xs a) (h : Rel c xs t w a) {p : Packet}
    (hs : netStep d c w (.sender (.received p)) = some w') :
    ∃ j acks, AckOf c j p ∧ receive d a.acks j = some acks ∧
      indexStep d c xs a (.recvAck j) =
        some { a with acks, acked := j = a.base + width c.x xs a.base } ∧
      Rel c xs (t ++ [.sender (.received p)]) w'
        { a with acks, acked := j = a.base + width c.x xs a.base } := by
  obtain ⟨sd, href, hsd⟩ := h.sender
  obtain ⟨s', hstep, hw'⟩ := Option.bind_eq_some_iff.mp hs
  obtain ⟨sd', hsd', href'⟩ := href.step hstep
  obtain ⟨acks', hrecv, rfl⟩ := Option.map_eq_some_iff.mp hw'
  obtain ⟨j, acks, hj, hp, hacks⟩ := Channel.receive_forall₂ h.acks hrecv
  obtain ⟨hacked, hlt, hsd''⟩ :=
    hsd.received hc.windowsize_pos hc.opensWell hid (Channel.mem_of_receive hj) hp hsd'
  refine ⟨j, acks, hp, hj, ?_, ⟨sd', href', hsd'' acks⟩, h.receiver.frame (by simp) rfl rfl rfl rfl,
    h.data, hacks⟩
  simp only [indexStep, WindowProtocol.step]
  rw [if_pos ⟨hacked, hlt⟩, hj]
  rfl

theorem sender_released (hc : c.Ok) (h : Rel c xs t w a) (hs : netStep d c w (.sender .released) = some w') :
    indexStep d c xs a .advance =
        some { a with base := a.base + width c.x xs a.base, acked := false } ∧
      Rel c xs (t ++ [.sender .released]) w'
        { a with base := a.base + width c.x xs a.base, acked := false } := by
  obtain ⟨sd, href, hsd⟩ := h.sender
  obtain ⟨s', hstep, hw'⟩ := Option.bind_eq_some_iff.mp hs
  obtain ⟨sd', hsd', href'⟩ := href.step hstep
  obtain rfl := Option.some.inj hw'
  obtain ⟨hacked, hsd''⟩ := hsd.released hc.windowsize_pos hsd'
  refine ⟨?_, ⟨sd', href', hsd''⟩, h.receiver.frame (by simp) rfl rfl rfl rfl, h.data, h.acks⟩
  simp only [indexStep, WindowProtocol.step]
  rw [if_pos hacked]
  rfl

/-! ### Receiver steps -/

theorem receiver_local (h : Rel c xs t w a) {l : RecvLabel}
    (hs : netStep d c w (.receiver l) = some w')
    (hl : (∀ p, l ≠ .sent p) ∧ (∀ p, l ≠ .received p) ∧ ∀ p, l ≠ .published p) :
    Rel c xs (t ++ [.receiver l]) w' a := by
  obtain ⟨⟨args, r⟩, hr, hs⟩ := Option.bind_eq_some_iff.mp hs
  obtain ⟨r', hstep, hw'⟩ := Option.bind_eq_some_iff.mp hs
  have hrec := h.receiver
  rw [hr] at hrec
  obtain ⟨sd, href, hsd⟩ := h.sender
  have heq : { w with receiver := some (args, r') } = w' := by
    cases l <;> first | exact Option.some.inj hw' | exact absurd rfl (hl.1 _) |
      exact absurd rfl (hl.2.1 _)
  subst heq
  exact ⟨⟨sd, href, hsd.frame (by simp) rfl rfl⟩, ReceiverRel.local_step hrec hstep hl, h.data, h.acks⟩

/-- An ACK of the last block, the last boundary or nothing, within a window. -/
theorem receiver_sent_open (hc : c.Ok) (hI : IndexInv c xs a) (h : Rel c xs t w a) {p : Packet}
    (hs : netStep d c w (.receiver (.sent p)) = some w') {args : RecvArgs} {r : RecvState}
    (hr : w.receiver = some (args, r)) (hpc : ∀ final, r.pc ≠ .ack final) :
    ∃ j, (r.pc = .recover → j = a.recvd) ∧
      indexStep d c xs a (.ack j) = some { a with acks := a.acks ++ [j] } ∧
      Rel c xs (t ++ [.receiver (.sent p)]) w' { a with acks := a.acks ++ [j] } := by
  obtain ⟨⟨args', r₁⟩, hr', hs⟩ := Option.bind_eq_some_iff.mp hs
  obtain ⟨rfl, rfl⟩ : args = args' ∧ r = r₁ := by
    rw [hr] at hr'
    simpa using hr'
  obtain ⟨r', hstep, hw'⟩ := Option.bind_eq_some_iff.mp hs
  obtain rfl := Option.some.inj hw'
  have hrec := h.receiver
  rw [hr] at hrec
  obtain ⟨sd, href, hsd⟩ := h.sender
  obtain ⟨hset, hlt, ⟨j, hj, hlo, hhi, hrecover⟩, -⟩ :=
    ReceiverRel.sent_open hc.blocksize_pos hrec hI.recvd_le_count hstep hpc []
  obtain ⟨-, -, -, hrec'⟩ :=
    ReceiverRel.sent_open hc.blocksize_pos hrec hI.recvd_le_count hstep hpc (a.acks ++ [j])
  refine ⟨j, hrecover, ?_, ⟨sd, href, hsd.frame (by simp) rfl rfl⟩, hrec', h.data,
    List.rel_append h.acks (.cons hj .nil)⟩
  simp only [indexStep, WindowProtocol.step]
  rw [if_pos ⟨hset, hlt, hlo, hhi⟩]

/-- The ACK of a whole window or of the file. -/
theorem receiver_sent_boundary (hc : c.Ok) (hI : IndexInv c xs a) (h : Rel c xs t w a) {p : Packet}
    (hs : netStep d c w (.receiver (.sent p)) = some w') {args : RecvArgs} {r : RecvState} {final : Bool}
    (hr : w.receiver = some (args, r)) (hpc : r.pc = .ack final) :
    indexStep d c xs a .settle =
        some { a with
          acks := a.acks ++ [a.recvd], settling := false
          closed := a.recvd = blockCount c.x.blocksize xs } ∧
      Rel c xs (t ++ [.receiver (.sent p)]) w' { a with
        acks := a.acks ++ [a.recvd], settling := false
        closed := a.recvd = blockCount c.x.blocksize xs } := by
  obtain ⟨⟨args', r₁⟩, hr', hs⟩ := Option.bind_eq_some_iff.mp hs
  obtain ⟨rfl, rfl⟩ : args = args' ∧ r = r₁ := by
    rw [hr] at hr'
    simpa using hr'
  obtain ⟨r', hstep, hw'⟩ := Option.bind_eq_some_iff.mp hs
  obtain rfl := Option.some.inj hw'
  have hrec := h.receiver
  rw [hr] at hrec
  obtain ⟨sd, href, hsd⟩ := h.sender
  obtain ⟨hset, hj, hrec'⟩ :=
    ReceiverRel.sent_boundary hc.blocksize_pos hrec hI.recvd_le_count hstep hpc (a.acks ++ [a.recvd])
  refine ⟨?_, ⟨sd, href, hsd.frame (by simp) rfl rfl⟩, hrec', h.data, List.rel_append h.acks (.cons hj .nil)⟩
  simp only [indexStep, WindowProtocol.step]
  rw [if_pos hset]

theorem receiver_received (hc : c.Ok) (hI : IndexInv c xs a) (hid : Identifies c xs a)
    (h : Rel c xs t w a) {p : Packet} (hs : netStep d c w (.receiver (.received p)) = some w') :
    ∃ i data, receive d a.data i = some data ∧
      (i ≠ a.recvd + 1 → w'.recvPc = some .recover) ∧
      (i = a.recvd + 1 → (∃ p, w'.recvPc = some (.publish p)) ∨ ∃ res, w'.recvPc = some (.done res)) ∧
      indexStep d c xs a (.recvData i) = some { a with data, accepted := i = a.recvd + 1 } ∧
      Rel c xs (t ++ [.receiver (.received p)]) w' { a with data, accepted := i = a.recvd + 1 } := by
  obtain ⟨⟨args, r⟩, hr, hs⟩ := Option.bind_eq_some_iff.mp hs
  obtain ⟨r', hstep, hw'⟩ := Option.bind_eq_some_iff.mp hs
  obtain ⟨data', hrecv, rfl⟩ := Option.map_eq_some_iff.mp hw'
  have hrec := h.receiver
  rw [hr] at hrec
  obtain ⟨sd, href, hsd⟩ := h.sender
  obtain ⟨i, data, hi, rfl, hdata⟩ := Channel.receive_forall₂ h.data hrecv
  obtain ⟨hacc, hlt, hother, hnext, hrec'⟩ := ReceiverRel.received hc.blocksize_pos hid hrec hI.recvd_le_count
    (Channel.mem_of_receive hi) hstep data
  refine ⟨i, data, hi, fun he => congrArg some (hother he), fun he => ?_, ?_,
    ⟨sd, href, hsd.frame (by simp) rfl rfl⟩, hrec', hdata, h.acks⟩
  · exact (hnext he).imp (fun ⟨q, hq⟩ => ⟨q, congrArg some hq⟩) fun ⟨res, hres⟩ => ⟨res, congrArg some hres⟩
  simp only [indexStep, WindowProtocol.step]
  rw [if_pos ⟨hacc, hlt⟩, hi]
  rfl

theorem receiver_published (hc : c.Ok) (hI : IndexInv c xs a) (h : Rel c xs t w a) {p : Packet}
    (hs : netStep d c w (.receiver (.published p)) = some w') :
    ∃ a', a'.recvd = a.recvd + 1 ∧ a'.base = a.base ∧ a'.closed = a.closed ∧
      indexStep d c xs a .store = some a' ∧
      Rel c xs (t ++ [.receiver (.published p)]) w' a' := by
  obtain ⟨⟨args, r⟩, hr, hs⟩ := Option.bind_eq_some_iff.mp hs
  obtain ⟨r', hstep, hw'⟩ := Option.bind_eq_some_iff.mp hs
  obtain rfl := Option.some.inj hw'
  have hrec := h.receiver
  rw [hr] at hrec
  obtain ⟨sd, href, hsd⟩ := h.sender
  obtain ⟨hacc, hset, hrec'⟩ := ReceiverRel.stored hc.blocksize_pos hrec hI.recvd_le_count hstep
  refine ⟨{ a with recvd := a.recvd + 1, accepted := false, settling := _ }, rfl, rfl, rfl, ?_,
    ⟨sd, href, hsd.frame (by simp) rfl rfl⟩, hrec', h.data, h.acks⟩
  simp only [indexStep, WindowProtocol.step]
  rw [if_pos ⟨hacc, hset⟩]

/-! ### Start and loss -/

/-- The receiver as it is called, with or without a first packet. -/
theorem startWith (hl : recvTrace t = []) (hr : a.recvd = 0) (hset : a.settling = false)
    (hcl : a.closed = false) {p : Option Packet} (hp : ∀ q, p = some q → q = blockPacket c.x xs 1)
    (hacc : a.accepted = p.isSome) : ReceiverStands c xs t a (some (c.startWith p)) := by
  refine ⟨rfl, hp, by rw [hl]; exact RecvInv.init _ _, by rw [hl, hr]; rfl, ?_⟩
  simp only [recvInit]
  split_ifs with hsize
  · exact .inr ⟨by simp, hcl, .inr (.inr hsize)⟩
  · refine ⟨?_, hset, hcl⟩
    cases p with
    | none => exact hacc
    | some q => simp [hacc, hp q rfl]

theorem start_none (h : Rel c xs t w a) (hs : netStep d c w (.start none) = some w') :
    Rel c xs (t ++ [.start none]) w' a := by
  cases hr : w.receiver with
  | some rec => simp [netStep, hr] at hs
  | none =>
    simp only [netStep, hr, Option.some.injEq] at hs
    subst hs
    obtain ⟨sd, href, hsd⟩ := h.sender
    have hrec := h.receiver
    rw [hr] at hrec
    obtain ⟨hl, h0, hacc, hset, hcl⟩ := hrec
    exact ⟨⟨sd, href, hsd.frame (by simp) rfl rfl⟩,
      startWith (by simpa using hl) h0 hset hcl (by simp) hacc, h.data, h.acks⟩

theorem start_some (hid : Identifies c xs a) (h : Rel c xs t w a) {p : Packet}
    (hs : netStep d c w (.start (some p)) = some w') :
    ∃ data, indexStep d c xs a (.recvData 1) = some { a with data, accepted := true } ∧
      Rel c xs (t ++ [.start (some p)]) w' { a with data, accepted := true } := by
  cases hr : w.receiver with
  | some rec => simp [netStep, hr] at hs
  | none =>
    simp only [netStep, hr, Option.ite_none_right_eq_some, Option.map_eq_some_iff] at hs
    obtain ⟨⟨-, hblk⟩, data', hrecv, rfl⟩ := hs
    obtain ⟨sd, href, hsd⟩ := h.sender
    have hrec := h.receiver
    rw [hr] at hrec
    obtain ⟨hl, h0, hacc, hset, hcl⟩ := hrec
    obtain ⟨i, data, hi, rfl, hdata⟩ := Channel.receive_forall₂ h.data hrecv
    have hpos := Blocks.blockCount_pos c.x.blocksize xs
    -- a packet numbered 1 is the first block: nothing has been accepted yet
    obtain rfl : i = 1 := by
      have hone := hid.data (by omega) i (Channel.mem_of_receive hi)
      rw [h0, zero_add, blockNumber_one] at hone
      exact hone ((block_dataPacket _ _).symm.trans hblk)
    refine ⟨data, ?_, ⟨sd, href, hsd.frame (by simp) rfl rfl⟩, ?_, hdata, h.acks⟩
    · simp only [indexStep, WindowProtocol.step]
      rw [if_pos ⟨hacc, by omega⟩, hi]
      simp [h0]
    · refine startWith (a := { a with data, accepted := true }) ?_ h0 hset hcl
        (fun q hq => (Option.some.inj hq).symm) rfl
      simpa using hl

theorem loseData (h : Rel c xs t w a) (n : ℕ) :
    Rel c xs (t ++ [.loseData n]) { w with data := w.data.eraseIdx n }
      { a with data := a.data.eraseIdx n } := by
  obtain ⟨sd, href, hsd⟩ := h.sender
  exact ⟨⟨sd, href, hsd.frame (by simp) rfl rfl⟩, h.receiver.frame (by simp) rfl rfl rfl rfl,
    Channel.forall₂_eraseIdx h.data n, h.acks⟩

theorem loseAck (h : Rel c xs t w a) (n : ℕ) :
    Rel c xs (t ++ [.loseAck n]) { w with acks := w.acks.eraseIdx n }
      { a with acks := a.acks.eraseIdx n } := by
  obtain ⟨sd, href, hsd⟩ := h.sender
  exact ⟨⟨sd, href, hsd.frame (by simp) rfl rfl⟩, h.receiver.frame (by simp) rfl rfl rfl rfl, h.data,
    Channel.forall₂_eraseIdx h.acks n⟩

/-! ### All steps -/

/-- Whether the file has a read error does not change. -/
theorem readError_eq {l : NetLabel} (h : Rel c xs t w a)
    (hs : netStep d c w l = some w') : w'.sender.io.file.readError = w.sender.io.file.readError := by
  cases l with
  | sender l =>
    obtain ⟨sd, href, -⟩ := h.sender
    obtain ⟨s', hstep, hw'⟩ := Option.bind_eq_some_iff.mp hs
    obtain ⟨sd', hsd, href'⟩ := href.step hstep
    have hw : w'.sender = s' := by
      cases l with
      | received p =>
        obtain ⟨acks, -, rfl⟩ := Option.map_eq_some_iff.mp hw'
        rfl
      | _ =>
        obtain rfl := Option.some.inj hw'
        rfl
    rw [hw, href'.readError_eq, href.readError_eq]
    exact Sending.step_readError hsd
  | _ => rw [netStep_sender_eq (by simp) hs]

/-- Every step of the composed engines is at most one event of the protocol. -/
theorem step (hc : c.Ok) (hI : IndexInv c xs a) (hid : Identifies c xs a) (h : Rel c xs t w a)
    {l : NetLabel} (hs : netStep d c w l = some w') :
    ∃ a', (a' = a ∨ ∃ e, indexStep d c xs a e = some a') ∧ Rel c xs (t ++ [l]) w' a' := by
  cases l with
  | sender l =>
    cases l with
    | sent p =>
      obtain ⟨n, -, -, -, ha, hr⟩ := h.sender_sent hc hs
      exact ⟨_, .inr ⟨_, ha⟩, hr⟩
    | received p =>
      obtain ⟨j, acks, -, -, ha, hr⟩ := h.sender_received hc hid hs
      exact ⟨_, .inr ⟨_, ha⟩, hr⟩
    | released =>
      obtain ⟨ha, hr⟩ := h.sender_released hc hs
      exact ⟨_, .inr ⟨_, ha⟩, hr⟩
    | _ => exact ⟨a, .inl rfl, h.sender_local hc hs ⟨by simp, by simp, by simp⟩⟩
  | receiver l =>
    cases l with
    | sent p =>
      obtain ⟨⟨args, r⟩, hrec, -⟩ := Option.bind_eq_some_iff.mp hs
      by_cases hpc : ∃ final, r.pc = .ack final
      · obtain ⟨final, hpc⟩ := hpc
        obtain ⟨ha, hr⟩ := h.receiver_sent_boundary hc hI hs hrec hpc
        exact ⟨_, .inr ⟨_, ha⟩, hr⟩
      · obtain ⟨j, -, ha, hr⟩ := h.receiver_sent_open hc hI hs hrec fun final hf => hpc ⟨final, hf⟩
        exact ⟨_, .inr ⟨_, ha⟩, hr⟩
    | received p =>
      obtain ⟨i, data, -, -, -, ha, hr⟩ := h.receiver_received hc hI hid hs
      exact ⟨_, .inr ⟨_, ha⟩, hr⟩
    | published p =>
      obtain ⟨a', -, -, -, ha, hr⟩ := h.receiver_published hc hI hs
      exact ⟨a', .inr ⟨_, ha⟩, hr⟩
    | _ => exact ⟨a, .inl rfl, h.receiver_local hs ⟨by simp, by simp, by simp⟩⟩
  | start p =>
    cases p with
    | none => exact ⟨a, .inl rfl, h.start_none hs⟩
    | some p =>
      obtain ⟨data, ha, hr⟩ := h.start_some hid hs
      exact ⟨_, .inr ⟨_, ha⟩, hr⟩
  | loseData n =>
    obtain rfl := Option.some.inj hs
    exact ⟨_, .inr ⟨.loseData n, rfl⟩, h.loseData n⟩
  | loseAck n =>
    obtain rfl := Option.some.inj hs
    exact ⟨_, .inr ⟨.loseAck n, rfl⟩, h.loseAck n⟩

end Rel

end TftpHpa
