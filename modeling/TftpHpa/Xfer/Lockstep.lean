import TftpHpa.Xfer.Recv
import TftpHpa.Xfer.SendTrace

/-! Lockstep. With a window of one block a sender that answered every ACK would double the
traffic for each duplicate that turns up. This one lets a block go out once, and once more for
each timeout, whatever it receives; and the receiver sends at most one packet for each that
reaches it. -/

namespace TftpHpa

open Transition
open Blocks (blockCount)

/-! ### The sender -/

def SendLabel.isTimeout : SendLabel → Bool
  | .timeout => true
  | _ => false

/-- The packets sent along a trace. -/
def sentPackets (t : List SendLabel) : List Packet :=
  t.filterMap fun
    | .sent p => some p
    | _ => none

/-- What happened while each of the released blocks was current, and what has happened since. -/
def perBlock (t : List SendLabel) : List (List SendLabel) × List SendLabel :=
  t.foldl (fun b l => match l with
    | .released => (b.1 ++ [b.2], [])
    | l => (b.1, b.2 ++ [l])) ([], [])

theorem perBlock_released (t : List SendLabel) :
    perBlock (t ++ [.released]) = ((perBlock t).1 ++ [(perBlock t).2], []) := by
  rw [perBlock, List.foldl_append]
  rfl

theorem perBlock_concat (t : List SendLabel) {l : SendLabel} (hl : l ≠ .released) :
    perBlock (t ++ [l]) = ((perBlock t).1, (perBlock t).2 ++ [l]) := by
  rw [perBlock, List.foldl_append]
  cases l with
  | released => exact absurd rfl hl
  | _ => rfl

/-- The packet `q`, and no other, has gone out `k` times more often than there were timeouts. -/
def Transmits (q : Packet) (k : ℕ) (t : List SendLabel) : Prop :=
  sentPackets t = List.replicate (t.countP SendLabel.isTimeout + k) q

namespace Transmits

variable {q : Packet} {k : ℕ} {t : List SendLabel}

theorem other (h : Transmits q k t) {l : SendLabel} (hsent : ∀ p, l ≠ .sent p) (htimeout : l ≠ .timeout) :
    Transmits q k (t ++ [l]) := by
  have hnil : sentPackets [l] = [] := by
    cases l with
    | sent p => exact absurd rfl (hsent p)
    | _ => rfl
  have hzero : [l].countP SendLabel.isTimeout = 0 := by
    cases l with
    | timeout => exact absurd rfl htimeout
    | _ => rfl
  rw [Transmits, sentPackets, List.filterMap_append, List.countP_append, hzero]
  exact (congrArg₂ _ h hnil).trans (List.append_nil _)

theorem sent (h : Transmits q k t) : Transmits q (k + 1) (t ++ [.sent q]) := by
  rw [Transmits, sentPackets, List.filterMap_append, List.countP_append]
  change sentPackets t ++ [q] = List.replicate (t.countP SendLabel.isTimeout + 0 + (k + 1)) q
  rw [h, Nat.add_zero, ← Nat.add_assoc, List.replicate_succ']

theorem timeout (h : Transmits q (k + 1) t) : Transmits q k (t ++ [.timeout]) := by
  rw [Transmits, sentPackets, List.filterMap_append, List.countP_append]
  change sentPackets t ++ [] = List.replicate (t.countP SendLabel.isTimeout + 1 + k) q
  rw [h, List.append_nil, Nat.add_assoc, Nat.add_comm 1 k]

end Transmits

variable {x : Xfer} {xs : Bytes} {t : List SendLabel} {a a' : Sending} {l : SendLabel}

namespace Sending

/-- A datagram never makes a sender in lockstep send. -/
theorem received_lockstep (hr : x.resendOack = false) (hwidth : width x xs a.base = 1) (p : Packet) :
    a.received x xs p = a ∨ a.received x xs p = a.finish x xs .peerError 0 (some p) ∨
      a.received x xs p = { a with pc := .release } := by
  unfold received
  split_ifs with hshort herror hack hoack hack'
  · exact .inl rfl
  · exact .inr (.inl rfl)
  · exact .inr (.inr rfl)
  · rw [hr] at hoack
    exact absurd hoack.2 Bool.false_ne_true
  · rw [hwidth]
    exact .inl rfl
  · exact .inl rfl

/-- How often the current block has gone out, by what the engine does next. Only a failed call
of `send` ends the transfer with a transmission missing. -/
def OnItsWay (q : Packet) (u : List SendLabel) : SendPc → Prop
  | .readWindow | .retryEnter _ | .send _ => Transmits q 0 u
  | .recv | .release => Transmits q 1 u
  | .done r => Transmits q (if r.status = .recvError ∨ r.status = .peerError then 1 else 0) u

theorem OnItsWay.other {q : Packet} {u : List SendLabel} {pc : SendPc} (h : OnItsWay q u pc)
    (hsent : ∀ p, l ≠ .sent p) (htimeout : l ≠ .timeout) : OnItsWay q (u ++ [l]) pc := by
  cases pc <;> exact Transmits.other h hsent htimeout

/-- Every released block went out once and once more for each timeout. -/
structure InLockstep (x : Xfer) (xs : Bytes) (t : List SendLabel) (a : Sending) : Prop where
  base_eq : (perBlock t).1.length = a.base
  released : ∀ i u, (perBlock t).1[i]? = some u → Transmits (blockPacket x xs (i + 1)) 1 u
  current : OnItsWay (blockPacket x xs (a.base + 1)) (perBlock t).2 a.pc

theorem width_lockstep (hw : x.windowsize = 1) {base : ℕ} (hb : base < blockCount x.blocksize xs) :
    width x xs base = 1 := by
  unfold width
  omega

namespace InLockstep

theorem init (x : Xfer) (xs : Bytes) (readError : Bool) : InLockstep x xs [] { readError } :=
  ⟨rfl, fun i u hu => by simp [perBlock] at hu, rfl⟩

/-- A label that belongs to the current block. -/
theorem goto (h : InLockstep x xs t a) (hl : l ≠ .released) {pc : SendPc}
    (hcurrent : OnItsWay (blockPacket x xs (a.base + 1)) ((perBlock t).2 ++ [l]) pc) :
    InLockstep x xs (t ++ [l]) { a with pc } := by
  have ht := perBlock_concat t hl
  exact ⟨by rw [ht]; exact h.base_eq, by rw [ht]; exact h.released, by rw [ht]; exact hcurrent⟩

theorem stay (h : InLockstep x xs t a) (hl : l ≠ .released)
    (hcurrent : OnItsWay (blockPacket x xs (a.base + 1)) ((perBlock t).2 ++ [l]) a.pc) :
    InLockstep x xs (t ++ [l]) a := h.goto hl hcurrent

theorem step (hw : x.windowsize = 1) (hr : x.resendOack = false) (h : InLockstep x xs t a)
    (htrace : TraceInv x xs t a) (hs : a.step x xs l = some a') : InLockstep x xs (t ++ [l]) a' := by
  have hph := htrace.phase
  have hcur := h.current
  cases move_of_step hs with
  | thread => exact h.stay (by simp) (hcur.other (by simp) (by simp))
  | window hpc =>
    rw [hpc] at hcur
    exact h.goto (by simp) (Transmits.other hcur (by simp) (by simp))
  | windowFailed hpc hbad e =>
    rw [hpc] at hcur
    exact h.goto (by simp) (Transmits.other hcur (by simp) (by simp))
  | entered r hpc =>
    rw [hpc] at hcur hph
    rw [Sending.sendFrom, width_lockstep hw hph.1, if_pos Nat.one_pos]
    exact h.goto (by simp) (Transmits.other hcur (by simp) (by simp))
  | sent n hpc =>
    rw [hpc] at hcur hph
    obtain ⟨hb, -, hn⟩ := hph
    rw [width_lockstep hw hb] at hn
    obtain rfl : n = 0 := by omega
    rw [Sending.sendFrom, width_lockstep hw hb, if_neg (by simp)]
    exact h.goto (by simp) (Transmits.sent hcur)
  | sendFailed n hpc e =>
    rw [hpc] at hcur
    exact h.goto (by simp) (Transmits.other hcur (by simp) (by simp))
  | received hpc p =>
    rw [hpc] at hcur hph
    have hother : Transmits (blockPacket x xs (a.base + 1)) 1 ((perBlock t).2 ++ [.received p]) :=
      Transmits.other hcur (by simp) (by simp)
    rcases received_lockstep hr (width_lockstep hw hph.1) p with he | he | he
    · rw [he]
      exact h.stay (by simp) (by rw [hpc]; exact hother)
    · rw [he]
      exact h.goto (by simp) hother
    · rw [he]
      exact h.goto (by simp) hother
  | recvFailed hpc e =>
    rw [hpc] at hcur
    exact h.goto (by simp) (Transmits.other hcur (by simp) (by simp))
  | timeout hpc =>
    rw [hpc] at hcur
    exact h.goto (by simp) (Transmits.timeout hcur)
  | released hpc =>
    rw [hpc] at hcur hph
    have hlength : (perBlock (t ++ [.released])).1.length = a.base + width x xs a.base := by
      rw [perBlock_released, List.length_append, h.base_eq, width_lockstep hw hph.1]
      rfl
    have hreleased : ∀ i u, (perBlock (t ++ [.released])).1[i]? = some u →
        Transmits (blockPacket x xs (i + 1)) 1 u := by
      intro i u hu
      rw [perBlock_released] at hu
      rcases Nat.lt_or_ge i (perBlock t).1.length with hi | hi
      · rw [List.getElem?_append_left hi] at hu
        exact h.released i u hu
      · rw [List.getElem?_append_right hi, List.getElem?_singleton] at hu
        split_ifs at hu with h0
        cases hu
        rw [show i = a.base by have := h.base_eq; omega]
        exact hcur
    have hempty : ∀ q, Transmits q 0 (perBlock (t ++ [.released])).2 := fun q => by
      rw [perBlock_released]
      rfl
    split_ifs with hend
    · exact ⟨hlength, hreleased, hempty _⟩
    · exact ⟨hlength, hreleased, hempty _⟩

end InLockstep

end Sending

/-- Every run of the engine in lockstep. -/
theorem send_run_lockstep (hw : x.windowsize = 1) (hr : x.resendOack = false) {file : File}
    {convert threaded : Bool} {slots : ℕ} {io : TftpIo}
    (hio : TftpIo.readerStart file convert x.windowsize slots x.blocksize threaded = some io) {s : SendState}
    (hrun : run (sendStep x) (sendInit io) t = some s) :
    ∃ b, s.pc = b.pc ∧ Sending.InLockstep x (file.stream convert) t b := by
  obtain ⟨b, href, -, hlock⟩ := run_invariant
    (fun t s => ∃ b, SendRefines x (file.stream convert) s b ∧ Sending.TraceInv x (file.stream convert) t b ∧
      Sending.InLockstep x (file.stream convert) t b)
    ⟨_, sendRefines_init hw.ge hio, .init _ _ _, .init _ _ _⟩
    (fun t s l s' ⟨b, href, htrace, hlock⟩ hs => by
      obtain ⟨b', hb, href'⟩ := href.step hs
      exact ⟨b', href', htrace.step hw.ge hb, hlock.step hw hr htrace hb⟩) hrun
  exact ⟨b, href.pc_eq, hlock⟩

/-! ### The receiver -/

/-- A call of `send`. -/
def RecvLabel.isSend : RecvLabel → Bool
  | .sent _ | .sendFailed _ _ => true
  | _ => false

/-- What ends a wait: a datagram or a timeout. -/
def RecvLabel.wakes : RecvLabel → Bool
  | .received _ | .timeout => true
  | _ => false

namespace RecvState

/-- How many packets may still be sent before the next wait is over. -/
def credit (s : RecvState) : ℕ :=
  match s.pc with
  | .reserve | .retryEnter false => s.replyPending.toNat + s.packetPending.toNat
  | .retryEnter true | .reply => 1 + s.packetPending.toNat
  | .recv | .done _ => 0
  | .recover | .publish _ | .drain _ | .finish | .ack _ => 1

/-- The packet it was given is taken before the first wait, and nothing is pending once a block
has been accepted. -/
structure Tidy (a : RecvArgs) (s : RecvState) : Prop where
  packet : s.packetPending = true → ∃ p, a.initialPacket = some p
  taken : match s.pc with
    | .recv | .recover => s.packetPending = false
    | .publish _ | .drain _ | .finish | .ack _ => s.replyPending = false ∧ s.packetPending = false
    | _ => True

end RecvState

open RecvState (Tidy)

section
variable {x : Xfer} {a : RecvArgs} {s s' : RecvState}

theorem tidy_init (x : Xfer) (a : RecvArgs) : Tidy a (recvInit x a) := by
  have hpacket : (recvInit x a).packetPending = true → ∃ p, a.initialPacket = some p := fun hp => by
    have hany : (recvInit x a).packetPending = a.initialPacket.any fun p => 4 ≤ p.length := by
      unfold recvInit
      dsimp only
      split_ifs
      · rfl
      · rfl
    rw [hany, Option.any_eq_true] at hp
    obtain ⟨p, hinit, -⟩ := hp
    exact ⟨p, hinit⟩
  refine ⟨hpacket, ?_⟩
  unfold recvInit
  dsimp only
  split_ifs
  · trivial
  · trivial

theorem credit_recvAccept (hpp : s.packetPending = false) (p : Packet) :
    Tidy a (recvAccept x s p) ∧ (recvAccept x s p).credit ≤ 1 := by
  have hpacket : s.packetPending = true → ∃ p, a.initialPacket = some p := fun hp => by simp [hpp] at hp
  refine recvAccept_rule (P := fun r => Tidy a r ∧ r.credit ≤ 1) ?_ ?_ fun _ _ => ?_
  · exact ⟨⟨hpacket, trivial⟩, Nat.zero_le 1⟩
  · exact ⟨⟨hpacket, trivial⟩, Nat.zero_le 1⟩
  · exact ⟨⟨hpacket, rfl, hpp⟩, le_rfl⟩

theorem credit_recvWait (h : Tidy a s) :
    Tidy a (recvWait x a s) ∧ (recvWait x a s).credit ≤ s.packetPending.toNat := by
  cases hpp : s.packetPending with
  | false =>
    rw [recvWait_of_not_pending x a hpp]
    exact ⟨⟨h.packet, hpp⟩, le_rfl⟩
  | true =>
    obtain ⟨p, hinit⟩ := h.packet hpp
    rw [recvWait_of_pending x hpp hinit]
    exact credit_recvAccept rfl p

theorem credit_recvReceived (hpc : s.pc = .recv) (h : Tidy a s) (p : Packet) :
    Tidy a (recvReceived x s p) ∧ (recvReceived x s p).credit ≤ 1 := by
  have hpp := h.taken
  rw [hpc] at hpp
  have hstay : s.credit ≤ 1 := by simp [RecvState.credit, hpc]
  refine recvReceived_rule (P := fun r => Tidy a r ∧ r.credit ≤ 1) ⟨h, hstay⟩ ?_
    (fun _ _ _ => credit_recvAccept hpp p) ?_
  · exact ⟨⟨h.packet, trivial⟩, Nat.zero_le 1⟩
  · exact ⟨⟨h.packet, hpp⟩, le_rfl⟩

theorem credit_recvPublished (hrp : s.replyPending = false) (hpp : s.packetPending = false) (p : Packet) :
    Tidy a (recvPublished x s p) ∧ (recvPublished x s p).credit ≤ 1 := by
  have hpacket : s.packetPending = true → ∃ p, a.initialPacket = some p := fun hp => by simp [hpp] at hp
  unfold recvPublished
  dsimp only
  split_ifs
  · exact ⟨⟨hpacket, hrp, hpp⟩, le_rfl⟩
  · exact ⟨⟨hpacket, trivial⟩, by simp [RecvState.credit, hrp, hpp]⟩

/-- A step that sends uses up credit, and only what ends a wait gives some. -/
theorem credit_step (h : Tidy a s) {l : RecvLabel} (hs : recvStep x a s l = some s') :
    Tidy a s' ∧ l.isSend.toNat + s'.credit ≤ s.credit + l.wakes.toNat := by
  have htaken := h.taken
  cases recvMove_of_step hs with
  | reserved hpc => exact ⟨⟨h.packet, trivial⟩, by simp [RecvState.credit, RecvLabel.isSend, hpc]⟩
  | entered r hpc =>
    split_ifs with hreply
    · refine ⟨⟨h.packet, trivial⟩, ?_⟩
      cases r with
      | true => simp [RecvState.credit, RecvLabel.isSend, hpc]
      | false =>
        rw [Bool.or_false] at hreply
        simp [RecvState.credit, RecvLabel.isSend, hpc, hreply]
    · obtain ⟨htidy, hcredit⟩ := credit_recvWait (x := x) h
      refine ⟨htidy, ?_⟩
      cases r with
      | true => simp at hreply
      | false =>
        simp only [RecvState.credit, RecvLabel.isSend, RecvLabel.wakes, hpc, Bool.toNat_false] at hcredit ⊢
        omega
  | replied hpc =>
    obtain ⟨htidy, hcredit⟩ := credit_recvWait (x := x) h
    have hbefore : s.credit = 1 + s.packetPending.toNat := by simp [RecvState.credit, hpc]
    simp only [RecvLabel.isSend, RecvLabel.wakes, hbefore, Bool.toNat_true, Bool.toNat_false]
    exact ⟨htidy, by omega⟩
  | recovered hpc | recoveryFailed hpc e =>
    rw [hpc] at htaken
    exact ⟨⟨h.packet, htaken⟩, by simp [RecvState.credit, RecvLabel.isSend, hpc]⟩
  | acked final hpc =>
    rw [hpc] at htaken
    split_ifs
    · exact ⟨⟨h.packet, trivial⟩, by simp [RecvState.credit, RecvState.finish, RecvLabel.isSend, hpc]⟩
    · exact ⟨⟨h.packet, trivial⟩, by simp [RecvState.credit, RecvLabel.isSend, hpc, htaken.1, htaken.2]⟩
  | received hpc p =>
    obtain ⟨htidy, hcredit⟩ := credit_recvReceived (x := x) hpc h p
    simp only [RecvLabel.isSend, RecvLabel.wakes, Bool.toNat_true, Bool.toNat_false]
    exact ⟨htidy, by omega⟩
  | timeout hpc =>
    rw [hpc] at htaken
    exact ⟨⟨h.packet, trivial⟩, by simp [RecvState.credit, RecvLabel.isSend, RecvLabel.wakes, htaken]⟩
  | published p hpc =>
    rw [hpc] at htaken
    obtain ⟨htidy, hcredit⟩ := credit_recvPublished (x := x) (a := a) htaken.1 htaken.2 p
    have hbefore : s.credit = 1 := by simp [RecvState.credit, hpc]
    simp only [RecvLabel.isSend, hbefore, Bool.toNat_false]
    exact ⟨htidy, by omega⟩
  | drained final hpc =>
    rw [hpc] at htaken
    cases final with
    | true => exact ⟨⟨h.packet, htaken⟩, by simp [RecvState.credit, RecvLabel.isSend, hpc]⟩
    | false => exact ⟨⟨h.packet, htaken⟩, by simp [RecvState.credit, RecvLabel.isSend, hpc]⟩
  | finished hpc =>
    rw [hpc] at htaken
    exact ⟨⟨h.packet, htaken⟩, by simp [RecvState.credit, RecvLabel.isSend, hpc]⟩
  | replyFailed hpc e | ackFailed final hpc e =>
    exact ⟨⟨h.packet, trivial⟩, by simp [RecvState.credit, RecvState.finish, RecvLabel.isSend, RecvLabel.wakes, hpc]⟩
  | reserveFailed hpc e | recvFailed hpc e | finishFailed hpc e | publishFailed v hpc e | drainFailed v hpc e =>
    exact ⟨⟨h.packet, trivial⟩, by simp [RecvState.credit, RecvState.finish, RecvLabel.isSend]⟩

theorem credit_run (h : Tidy a s) {t : List RecvLabel} (hrun : run (recvStep x a) s t = some s') :
    t.countP RecvLabel.isSend ≤ s.credit + t.countP RecvLabel.wakes := by
  have hle := run_credit (I := Tidy a) RecvState.credit RecvLabel.isSend RecvLabel.wakes
    (fun _ _ _ htidy hs => credit_step htidy hs) h hrun
  omega

theorem tidy_run (h : Tidy a s) {t : List RecvLabel} (hrun : run (recvStep x a) s t = some s') : Tidy a s' :=
  run_invariant (fun _ s => Tidy a s) h (fun _ _ _ _ htidy hs => (credit_step htidy hs).1) hrun

theorem credit_recvInit (x : Xfer) (a : RecvArgs) :
    (recvInit x a).credit ≤ a.initialPacket.isSome.toNat + a.initialReply.isSome.toNat := by
  have hany : ∀ o : Option Packet, (o.any fun p => 4 ≤ p.length).toNat ≤ o.isSome.toNat := fun o => by
    cases o with
    | none => exact le_rfl
    | some p => exact Bool.toNat_le _
  unfold recvInit
  dsimp only
  split_ifs
  · exact Nat.zero_le _
  · have hpacket := hany a.initialPacket
    have hreply := hany a.initialReply
    simp only [RecvState.credit]
    omega

end

/-- In lockstep every block goes out exactly once and once more for each timeout while it is
current, whatever is received; and the receiver calls `send` at most once for each datagram,
the one it was given included, and each timeout, besides the first sending of its reply. -/
theorem no_sorcerers_apprentice (x : Xfer) (hw : x.windowsize = 1) (hr : x.resendOack = false) :
    (∀ (file : File) (convert threaded : Bool) (slots : ℕ) (io : TftpIo),
      TftpIo.readerStart file convert x.windowsize slots x.blocksize threaded = some io → ∀ t s,
      run (sendStep x) (sendInit io) t = some s →
      (∀ i u, (perBlock t).1[i]? = some u → Transmits (blockPacket x (file.stream convert) (i + 1)) 1 u) ∧
      Sending.OnItsWay (blockPacket x (file.stream convert) ((perBlock t).1.length + 1)) (perBlock t).2 s.pc) ∧
    ∀ (a : RecvArgs) t s, run (recvStep x a) (recvInit x a) t = some s →
      t.countP RecvLabel.isSend ≤
        t.countP RecvLabel.wakes + a.initialPacket.isSome.toNat + a.initialReply.isSome.toNat ∧
      (s.pc = .recv → ∀ u s', run (recvStep x a) s u = some s' →
        u.countP RecvLabel.isSend ≤ u.countP RecvLabel.wakes) := by
  refine ⟨fun file convert threaded slots io hio t s hrun => ?_, fun a t s hrun => ⟨?_, fun hpc u s' hu => ?_⟩⟩
  · obtain ⟨b, hpc, hlock⟩ := send_run_lockstep hw hr hio hrun
    rw [hpc, hlock.base_eq]
    exact ⟨hlock.released, hlock.current⟩
  · have hle := credit_run (tidy_init x a) hrun
    have hinit := credit_recvInit x a
    omega
  · have hle := credit_run (tidy_run (tidy_init x a) hrun) hu
    rw [show s.credit = 0 by simp [RecvState.credit, hpc]] at hle
    omega

/-- The ACK of another block and a second ACK change nothing, and the timeout counts once. -/
def lockstepTrace : List SendLabel :=
  [.window 1 true, .entered false, .sent (dataPacket 1 [97]), .received (ackPacket 0), .received (ackPacket 0),
    .timeout, .entered true, .sent (dataPacket 1 [97]), .received (ackPacket 7)]

theorem no_sorcerers_apprentice_one_byte :
    ∃ io s, TftpIo.readerStart { rest := [97] } false 1 2 8 false = some io ∧
      run (sendStep { blocksize := 8, windowsize := 1 }) (sendInit io) lockstepTrace = some s ∧
      Transmits (blockPacket { blocksize := 8, windowsize := 1 } [97] 1) 1 lockstepTrace := by
  refine ⟨_, _, rfl, rfl, ?_⟩
  exact ((no_sorcerers_apprentice { blocksize := 8, windowsize := 1 } rfl rfl).1 { rest := [97] } false false 2 _ rfl
    lockstepTrace _ rfl).2

end TftpHpa
