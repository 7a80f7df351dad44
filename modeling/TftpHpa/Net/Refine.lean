import TftpHpa.Net.Basic
import TftpHpa.Lib.WindowProtocol

/-! The composed engines refine windowed transfer with unbounded indices. Every packet
in a channel stands for an index, every step of an engine is a step of the protocol
or none, and the 16-bit numbers lead each engine to the decision the indices call
for, provided the numbers of what is in flight identify it (`Identifies`). -/

namespace TftpHpa

open Blocks (block blockCount)
open Channel (Discipline receive)
open Window (boundary)
open Sending (width)

abbrev Indices := WindowProtocol.State

/-- An ACK of block `j`, or the opening reply in the place of that of block zero. -/
def AckOf (c : Session) (j : ℕ) (p : Packet) : Prop :=
  p = ackPacket (blockNumber c.x.rollover j) ∨ j = 0 ∧ c.initialReply = some p

/-- Some callback failed. -/
def Failed (t : List NetLabel) : Prop := ∃ l ∈ t, l.failing = true

theorem Failed.concat {t : List NetLabel} (h : Failed t) (l : NetLabel) : Failed (t ++ [l]) := by
  obtain ⟨m, hm, hf⟩ := h
  exact ⟨m, List.mem_append_left _ hm, hf⟩

theorem failed_concat_of {t : List NetLabel} {l : NetLabel} (h : l.failing = true) : Failed (t ++ [l]) :=
  ⟨l, by simp, h⟩

/-- The sender stands at the window of the protocol. -/
structure SenderRel (x : Xfer) (xs : Bytes) (t : List NetLabel) (sd : Sending) (a : Indices) : Prop where
  trace : sd.TraceInv x xs (sendTrace t)
  base_eq : sd.base = a.base
  phase : match sd.pc with
    | .readWindow | .retryEnter _ | .recv | .send _ => a.acked = false
    | .release => a.acked = true
    | .done r => (r.status = .ok ∧ a.base = blockCount x.blocksize xs) ∨ (r.status ≠ .ok ∧ Failed t)

/-- Why a receiver may end without success. -/
def Excuse (c : Session) (xs : Bytes) (t : List NetLabel) : Prop :=
  Failed t ∨ c.x.maxBytes.toNat < xs.length ∨ c.inputSize < c.x.blocksize + 4

/-- Where the receiver stands in the protocol, by program counter. -/
def ReceiverPhase (c : Session) (xs : Bytes) (t : List NetLabel) (r : RecvState) (a : Indices) : Prop :=
  match r.pc with
  | .reserve | .retryEnter _ | .reply =>
    a.accepted = r.packetPending ∧ a.settling = false ∧ a.closed = false
  | .recv | .recover => a.accepted = false ∧ a.settling = false ∧ a.closed = false
  | .publish p => a.accepted = true ∧ a.settling = false ∧ a.closed = false ∧
      p = blockPacket c.x xs (a.recvd + 1)
  | .drain _ | .finish | .ack _ => a.accepted = false ∧ a.settling = true ∧ a.closed = false
  | .done res => (res.status = .ok ∧ a.closed = true) ∨
      (res.status ≠ .ok ∧ a.closed = false ∧ Excuse c xs t)

/-- The receiver has published the blocks the protocol has stored. -/
structure ReceiverRel (c : Session) (xs : Bytes) (t : List NetLabel) (args : RecvArgs) (r : RecvState)
    (a : Indices) : Prop where
  reply_eq : args.initialReply = c.initialReply
  first_eq : ∀ p, args.initialPacket = some p → p = blockPacket c.x xs 1
  inv : RecvInv c.x args (recvTrace t) r
  published_eq : published (recvTrace t) = (List.range a.recvd).map fun i => blockPacket c.x xs (i + 1)
  phase : ReceiverPhase c xs t r a

/-- Before the receiver is called nothing has been stored. -/
def ReceiverStands (c : Session) (xs : Bytes) (t : List NetLabel) (a : Indices) :
    Option (RecvArgs × RecvState) → Prop
  | none => recvTrace t = [] ∧ a.recvd = 0 ∧ a.accepted = false ∧ a.settling = false ∧ a.closed = false
  | some (args, r) => ReceiverRel c xs t args r a

structure Rel (c : Session) (xs : Bytes) (t : List NetLabel) (w : World) (a : Indices) : Prop where
  sender : ∃ sd, SendRefines c.x xs w.sender sd ∧ SenderRel c.x xs t sd a
  receiver : ReceiverStands c xs t a w.receiver
  data : List.Forall₂ (fun i p => p = blockPacket c.x xs i) a.data w.data
  acks : List.Forall₂ (AckOf c) a.acks w.acks

/-- The numbers identify what is in flight: data against the block that is expected,
ACKs against the blocks of the window. -/
structure Identifies (c : Session) (xs : Bytes) (a : Indices) : Prop where
  data : a.recvd < blockCount c.x.blocksize xs → ∀ i ∈ a.data,
    blockNumber c.x.rollover i = blockNumber c.x.rollover (a.recvd + 1) → i = a.recvd + 1
  acks : a.base < blockCount c.x.blocksize xs → ∀ j ∈ a.acks, ∀ k, a.base < k →
    k ≤ a.base + width c.x xs a.base →
    blockNumber c.x.rollover j = blockNumber c.x.rollover k → j = k

variable {c : Session} {xs : Bytes} {t : List NetLabel} {sd sd' : Sending} {a : Indices}

/-- The opening reply is an ACK of zero or an OACK. -/
def Session.OpensWell (c : Session) : Prop :=
  ∀ p, c.initialReply = some p → p = ackPacket 0 ∨ p.opcode = Opcode.oack.code

theorem AckOf.opcode_eq (hreply : c.OpensWell) {j : ℕ} {p : Packet} (h : AckOf c j p) :
    p.opcode = Opcode.ack.code ∨ p.opcode = Opcode.oack.code := by
  rcases h with rfl | ⟨-, hr⟩
  · exact .inl (opcode_ackPacket _)
  · rcases hreply p hr with rfl | hop
    · exact .inl (opcode_ackPacket _)
    · exact .inr hop

theorem AckOf.block_eq (hreply : c.OpensWell) {j : ℕ} {p : Packet} (h : AckOf c j p)
    (hop : p.opcode = Opcode.ack.code) : p.block = blockNumber c.x.rollover j := by
  rcases h with rfl | ⟨rfl, hr⟩
  · exact block_ackPacket _
  · rcases hreply p hr with rfl | hop'
    · exact block_ackPacket _
    · simp [hop] at hop'

/-! ### The sender -/

namespace SenderRel

theorem sendFrom {t : List NetLabel} {n : ℕ} (htr : (sd.sendFrom c.x xs n).TraceInv c.x xs (sendTrace t))
    (hb : sd.base = a.base) (hacked : a.acked = false) : SenderRel c.x xs t (sd.sendFrom c.x xs n) a := by
  refine ⟨htr, hb, ?_⟩
  simp only [Sending.sendFrom]
  split_ifs <;> exact hacked

/-- A step of the sender that neither sends, receives nor releases. -/
theorem local_step (hw : 0 < c.x.windowsize) (h : SenderRel c.x xs t sd a) {l : SendLabel}
    (hs : sd.step c.x xs l = some sd')
    (hl : l ≠ .released ∧ (∀ p, l ≠ .sent p) ∧ ∀ p, l ≠ .received p) :
    SenderRel c.x xs (t ++ [.sender l]) sd' a := by
  have htr : sd'.TraceInv c.x xs (sendTrace (t ++ [.sender l])) := by
    rw [sendTrace_concat]
    exact h.trace.step hw hs
  have hph := h.phase
  have hb := h.base_eq
  cases Sending.move_of_step hs with
  | thread =>
    refine ⟨htr, hb, ?_⟩
    cases hpc : sd.pc <;> simp only [hpc] at hph ⊢ <;> try exact hph
    exact hph.imp_right fun hf => ⟨hf.1, hf.2.concat _⟩
  | window hpc =>
    simp only [hpc] at hph
    exact ⟨htr, hb, hph⟩
  | windowFailed hpc hbad e => exact ⟨htr, hb, .inr ⟨by simp, failed_concat_of rfl⟩⟩
  | entered r hpc =>
    simp only [hpc] at hph
    exact .sendFrom htr hb hph
  | sent n hpc => exact absurd rfl (hl.2.1 _)
  | sendFailed n hpc e => exact ⟨htr, hb, .inr ⟨by simp, failed_concat_of rfl⟩⟩
  | received hpc p => exact absurd rfl (hl.2.2 p)
  | recvFailed hpc e => exact ⟨htr, hb, .inr ⟨by simp, failed_concat_of rfl⟩⟩
  | timeout hpc =>
    simp only [hpc] at hph
    exact ⟨htr, hb, hph⟩
  | released hpc => exact absurd rfl hl.1

/-- Packet `n` of the window is the block after `base + n` others. -/
theorem sent (hw : 0 < c.x.windowsize) (h : SenderRel c.x xs t sd a) {p : Packet}
    (hs : sd.step c.x xs (.sent p) = some sd') :
    ∃ n < width c.x xs a.base, sd.pc = .send n ∧
      sd'.pc = (if n + 1 < width c.x xs a.base then .send (n + 1) else .recv) ∧
      p = blockPacket c.x xs (a.base + n + 1) ∧ a.acked = false ∧
      SenderRel c.x xs (t ++ [.sender (.sent p)]) sd' a := by
  have htr : sd'.TraceInv c.x xs (sendTrace (t ++ [.sender (.sent p)])) := by
    rw [sendTrace_concat]
    exact h.trace.step hw hs
  have hph := h.phase
  have hold := h.trace.phase
  cases Sending.move_of_step hs with
  | sent n hpc =>
    simp only [hpc] at hph hold
    rw [h.base_eq] at hold htr ⊢
    exact ⟨n, hold.2.2, hpc, by simp only [Sending.sendFrom, h.base_eq], rfl, hph,
      .sendFrom htr h.base_eq hph⟩

theorem received (hw : 0 < c.x.windowsize) (hreply : c.OpensWell) (hid : Identifies c xs a)
    (h : SenderRel c.x xs t sd a) {p : Packet} {j : ℕ} (hj : j ∈ a.acks) (hp : AckOf c j p)
    (hs : sd.step c.x xs (.received p) = some sd') :
    a.acked = false ∧ a.base < blockCount c.x.blocksize xs ∧ ∀ acks,
      SenderRel c.x xs (t ++ [.sender (.received p)]) sd'
        { a with acks, acked := j = a.base + width c.x xs a.base } := by
  have htr : sd'.TraceInv c.x xs (sendTrace (t ++ [.sender (.received p)])) := by
    rw [sendTrace_concat]
    exact h.trace.step hw hs
  have hph := h.phase
  have hold := h.trace.phase
  cases Sending.move_of_step hs with
  | received hpc p =>
    simp only [hpc] at hph hold
    rw [h.base_eq] at hold
    have hpos := Sending.width_pos (x := c.x) hw hold.1
    refine ⟨hph, hold.1, fun acks => ?_⟩
    have hne : sd.received c.x xs p ≠ { sd with pc := .release } → j ≠ a.base + width c.x xs a.base := by
      rintro hrel rfl
      rcases hp with rfl | ⟨h0, -⟩
      · exact hrel (by rw [← h.base_eq, Sending.received_last])
      · omega
    rcases sd.received_cases c.x xs p with
      he | ⟨hop, he⟩ | ⟨hop, hblk, he⟩ | ⟨hop, he⟩ | ⟨n, hn, hop, hblk, he⟩
    · have hj' := hne (by rw [he]; intro hf; rw [hf] at hpc; cases hpc)
      rw [he] at htr ⊢
      exact ⟨htr, h.base_eq, by simp only [hpc]; exact decide_eq_false hj'⟩
    · -- neither an ACK nor the opening reply is an ERROR
      rcases hp.opcode_eq hreply with hop' | hop' <;> simp [hop] at hop'
    · rw [hp.block_eq hreply hop, h.base_eq] at hblk
      have hj' := hid.acks hold.1 j hj _ (by omega) le_rfl hblk
      rw [he] at htr ⊢
      exact ⟨htr, h.base_eq, decide_eq_true hj'⟩
    · have hj' := hne (by rw [he]; simp)
      rw [he] at htr ⊢
      exact ⟨htr, h.base_eq, decide_eq_false hj'⟩
    · have hj' := hne (by rw [he]; simp)
      rw [he] at htr ⊢
      exact ⟨htr, h.base_eq, decide_eq_false hj'⟩

theorem released (hw : 0 < c.x.windowsize) (h : SenderRel c.x xs t sd a)
    (hs : sd.step c.x xs .released = some sd') :
    a.acked = true ∧ SenderRel c.x xs (t ++ [.sender .released]) sd'
      { a with base := a.base + width c.x xs a.base, acked := false } := by
  have htr : sd'.TraceInv c.x xs (sendTrace (t ++ [.sender .released])) := by
    rw [sendTrace_concat]
    exact h.trace.step hw hs
  have hph := h.phase
  cases Sending.move_of_step hs with
  | released hpc =>
    simp only [hpc] at hph
    refine ⟨hph, htr, ?_, ?_⟩
    · split_ifs <;> exact congrArg (fun b => b + width c.x xs b) h.base_eq
    · rw [h.base_eq]
      split_ifs with hend
      · exact .inl ⟨rfl, hend⟩
      · rfl

end SenderRel

/-! ### The receiver -/

@[simp] theorem blockPacket_length (x : Xfer) (xs : Bytes) (i : ℕ) :
    (blockPacket x xs i).length = (block x.blocksize xs (i - 1)).length + 4 := by
  simp [blockPacket]

/-- The published bytes are those of the first blocks. -/
theorem payloadBytes_blocks (x : Xfer) (xs : Bytes) (n : ℕ) :
    payloadBytes ((List.range n).map fun i => blockPacket x xs (i + 1)) = min (n * x.blocksize) xs.length := by
  rw [← Blocks.sum_block_length, payloadBytes, List.map_map, List.map_map]
  rfl

variable {args : RecvArgs} {r r' : RecvState}

namespace ReceiverRel

theorem length_published (h : ReceiverRel c xs t args r a) : (published (recvTrace t)).length = a.recvd := by
  rw [h.published_eq, List.length_map, List.length_range]

theorem initial (h : ReceiverRel c xs t args r a) :
    ∀ p, args.initialPacket = some p → p.opcode = Opcode.data.code ∧ p.block = 1 := by
  intro p hp
  rw [h.first_eq p hp]
  exact ⟨opcode_dataPacket _ _, (block_dataPacket _ _).trans (blockNumber_one _)⟩

/-- The packet of a block is short when the block is the last. -/
theorem short_iff (hbs : 0 < c.x.blocksize) {n : ℕ} (hn : n < blockCount c.x.blocksize xs) :
    (blockPacket c.x xs (n + 1)).length - 4 ≠ c.x.blocksize ↔ n + 1 = blockCount c.x.blocksize xs := by
  rw [blockPacket_length, Nat.add_sub_cancel, Nat.add_sub_cancel]
  exact Blocks.block_short_iff hbs xs hn

/-- As long as the receiver is open, blocks are missing. -/
theorem lt_of_open (hbs : 0 < c.x.blocksize) (h : ReceiverRel c xs t args r a)
    (hle : a.recvd ≤ blockCount c.x.blocksize xs) {k : ℕ} {n : UInt16} (ho : Open c.x (recvTrace t) k n) :
    a.recvd < blockCount c.x.blocksize xs := by
  refine lt_of_le_of_ne hle fun he => ?_
  have hpos := Blocks.blockCount_pos c.x.blocksize xs
  have hlast : blockPacket c.x xs (a.recvd - 1 + 1) ∈ published (recvTrace t) := by
    rw [h.published_eq]
    exact List.mem_map.mpr ⟨a.recvd - 1, List.mem_range.mpr (by omega), rfl⟩
  have hfull := ho.full _ hlast
  have hshort : (blockPacket c.x xs (a.recvd - 1 + 1)).length - 4 ≠ c.x.blocksize :=
    (short_iff hbs (by omega)).mpr (by omega)
  exact hshort (by omega)

/-- A window that is closed ends the file exactly when all blocks are there. -/
theorem final_iff (hbs : 0 < c.x.blocksize) (h : ReceiverRel c xs t args r a)
    (hle : a.recvd ≤ blockCount c.x.blocksize xs) {final : Bool} {tail : List RecvLabel}
    (hc : Closing c.x (recvTrace t) r final tail) (htail : published tail = []) :
    0 < a.recvd ∧ (final = true ↔ a.recvd = blockCount c.x.blocksize xs) := by
  obtain ⟨u, p, ht, hfin, -⟩ := hc
  have hpub : published (recvTrace t) = published u ++ [p] := by
    rw [ht, show u ++ .published p :: tail = u ++ [.published p] ++ tail by simp,
      published_append_of_nil _ htail]
    simp [published]
  have hlen := h.length_published
  rw [hpub, List.length_append, List.length_singleton] at hlen
  have hp : p = blockPacket c.x xs (a.recvd - 1 + 1) := by
    have hget := congrArg (fun l => l[a.recvd - 1]?) (hpub.symm.trans h.published_eq)
    rw [List.getElem?_append_right (by omega), List.getElem?_map, List.getElem?_range (by omega)] at hget
    simpa [show a.recvd - 1 - (published u).length = 0 by omega] using hget
  refine ⟨by omega, ?_⟩
  rw [hfin, decide_eq_true_eq, hp, short_iff hbs (by omega)]
  omega

/-- The next block is about to be published, unless it goes beyond the limit. -/
theorem accept (h : ReceiverRel c xs t args r a) (hbytes : r'.bytes = r.bytes) {p : Packet}
    (hp : p = blockPacket c.x xs (a.recvd + 1)) (hset : a.settling = false) (hcl : a.closed = false)
    (t' : List NetLabel) (data : List ℕ) :
    ReceiverPhase c xs t' (recvAccept c.x r' p) { a with data, accepted := true } := by
  have hlen := Blocks.block_length_le c.x.blocksize xs a.recvd
  have hpl : p.length - 4 = (block c.x.blocksize xs a.recvd).length := by simp [hp]
  simp only [recvAccept, hpl]
  rw [if_neg (by omega)]
  split_ifs with hmax
  · -- the bytes so far and this block are more than the limit, and all from the file
    refine .inr ⟨by simp, hcl, .inr (.inl ?_)⟩
    have hacc := h.inv.accounts
    have hle : r.bytes ≤ c.x.maxBytes := by
      rw [UInt64.le_iff_toNat_le, hacc.bytes_eq]
      exact hacc.bytes_le
    rw [hbytes, UInt64.toNat_sub_of_le _ _ hle, hacc.bytes_eq, h.published_eq, payloadBytes_blocks,
      Blocks.block_length] at hmax
    omega
  · exact ⟨rfl, hset, hcl, hp⟩

theorem wait (h : ReceiverRel c xs t args r a) (hpend : a.accepted = r.packetPending)
    (hset : a.settling = false) (hcl : a.closed = false) (t' : List NetLabel) :
    ReceiverPhase c xs t' (recvWait c.x args r) a := by
  cases hpp : r.packetPending with
  | false =>
    have hwait : recvWait c.x args r = { r with pc := .recv } := by simp only [recvWait, hpp]
    rw [hwait]
    exact ⟨by rw [hpend, hpp], hset, hcl⟩
  | true =>
    obtain ⟨hnil, p, hp, -⟩ := h.inv.packetPending hpp
    have hzero : a.recvd = 0 := by rw [← h.length_published, hnil, List.length_nil]
    have hwait : recvWait c.x args r = recvAccept c.x { r with packetPending := false } p := by
      simp only [recvWait, hpp, hp]
    have hfirst : p = blockPacket c.x xs (a.recvd + 1) := by
      rw [hzero]
      exact h.first_eq p hp
    have h' := h.accept (show { r with packetPending := false }.bytes = r.bytes from rfl) hfirst hset hcl t' a.data
    have hsame : { a with accepted := true } = a := by rw [← hpp, ← hpend]
    rw [hwait]
    rwa [hsame] at h'

/-- The relation along a step that stores nothing. -/
theorem keep (h : ReceiverRel c xs t args r a) {l : RecvLabel} (hs : recvStep c.x args r l = some r')
    (hl : published [l] = []) {a' : Indices} (ha : a'.recvd = a.recvd)
    (hphase : ReceiverPhase c xs (t ++ [.receiver l]) r' a') :
    ReceiverRel c xs (t ++ [.receiver l]) args r' a' := by
  refine ⟨h.reply_eq, h.first_eq, ?_, ?_, hphase⟩
  · rw [recvTrace_concat]
    exact h.inv.step h.initial hs
  · rw [recvTrace_concat, published_append_of_nil _ hl, ha]
    exact h.published_eq

/-- A step of the receiver that neither sends, receives nor publishes. -/
theorem local_step (h : ReceiverRel c xs t args r a) {l : RecvLabel}
    (hs : recvStep c.x args r l = some r')
    (hl : (∀ p, l ≠ .sent p) ∧ (∀ p, l ≠ .received p) ∧ ∀ p, l ≠ .published p) :
    ReceiverRel c xs (t ++ [.receiver l]) args r' a := by
  have hph := h.phase
  have hbad : ∀ {status error packet last}, status ≠ .ok → a.closed = false → l.failing = true →
      ReceiverPhase c xs (t ++ [.receiver l]) (r.finish status error packet last) a :=
    fun hst hcl hf => .inr ⟨hst, hcl, .inl (failed_concat_of hf)⟩
  refine h.keep hs (by cases l <;> first | rfl | exact absurd rfl (hl.2.2 _)) rfl ?_
  cases recvMove_of_step hs with
  | replied hpc => exact absurd rfl (hl.1 _)
  | recovered hpc => exact absurd rfl (hl.1 _)
  | acked final hpc => exact absurd rfl (hl.1 _)
  | received hpc p => exact absurd rfl (hl.2.1 p)
  | published p hpc => exact absurd rfl (hl.2.2 p)
  | reserved hpc =>
    simp only [ReceiverPhase, hpc] at hph
    exact hph
  | entered b hpc =>
    simp only [ReceiverPhase, hpc] at hph
    split_ifs with hreply
    · exact hph
    · exact h.wait hph.1 hph.2.1 hph.2.2 _
  | recoveryFailed hpc e =>
    simp only [ReceiverPhase, hpc] at hph
    exact hph
  | timeout hpc =>
    have hinv := h.inv.phase
    simp only [ReceiverPhase, RecvState.Phase, hpc] at hph hinv
    exact ⟨hph.1.trans hinv.2.symm, hph.2⟩
  | drained final hpc =>
    simp only [ReceiverPhase, hpc] at hph
    cases final <;> exact hph
  | finished hpc =>
    simp only [ReceiverPhase, hpc] at hph
    exact hph
  | publishFailed p hpc e =>
    simp only [ReceiverPhase, hpc] at hph
    exact hbad (by decide) hph.2.2.1 rfl
  | reserveFailed hpc e | replyFailed hpc e | ackFailed final hpc e | recvFailed hpc e
  | drainFailed final hpc e | finishFailed hpc e =>
    simp only [ReceiverPhase, hpc] at hph
    exact hbad (by decide) hph.2.2 rfl

/-- Before the end of a window the receiver acknowledges its last boundary or its
last block. -/
theorem sent_open (hbs : 0 < c.x.blocksize) (h : ReceiverRel c xs t args r a)
    (hle : a.recvd ≤ blockCount c.x.blocksize xs) {p : Packet}
    (hs : recvStep c.x args r (.sent p) = some r') (hpc : ∀ final, r.pc ≠ .ack final) (acks : List ℕ) :
    a.settling = false ∧ a.recvd < blockCount c.x.blocksize xs ∧
      (∃ j, AckOf c j p ∧ boundary c.x.windowsize a.recvd ≤ j ∧ j ≤ a.recvd ∧
        (r.pc = .recover → j = a.recvd)) ∧
      ReceiverRel c xs (t ++ [.receiver (.sent p)]) args r' { a with acks } := by
  have hph := h.phase
  have hinv := h.inv.phase
  have hlen := h.length_published
  cases recvMove_of_step hs with
  | replied hr =>
    simp only [ReceiverPhase, RecvState.Phase, hr] at hph hinv
    refine ⟨hph.2.1, h.lt_of_open hbs hle hinv, ?_, h.keep hs rfl rfl (h.wait hph.1 hph.2.1 hph.2.2 _)⟩
    by_cases hreply : r.replyPending = true ∧ ∃ q, args.initialReply = some q
    · obtain ⟨hpend, q, hq⟩ := hreply
      have hnil := h.inv.replyPending hpend
      rw [hnil, List.length_nil] at hlen
      refine ⟨0, .inr ⟨rfl, ?_⟩, by simp [← hlen], Nat.zero_le _, fun hf => by simp [hr] at hf⟩
      rw [← h.reply_eq, hq, RecvState.replyPacket, hpend, hq]
    · refine ⟨_, .inl ?_, le_rfl, Window.boundary_le _ _, fun hf => by simp [hr] at hf⟩
      rw [← hlen, ← hinv.lastAcked_eq, RecvState.replyPacket]
      split
      · rename_i q hpend hq
        exact absurd ⟨hpend, q, hq⟩ hreply
      · rfl
  | recovered hr =>
    simp only [ReceiverPhase, RecvState.Phase, hr] at hph hinv
    refine ⟨hph.2.1, h.lt_of_open hbs hle hinv.1,
      ⟨a.recvd, .inl ?_, Window.boundary_le _ _, le_rfl, fun _ => rfl⟩, h.keep hs rfl rfl hph⟩
    rw [h.inv.accounts.lastReceived_eq, hlen]
  | acked final hr => exact absurd hr (hpc final)

/-- The end of a window is acknowledged as such, and the end of the file ends it all. -/
theorem sent_boundary (hbs : 0 < c.x.blocksize) (h : ReceiverRel c xs t args r a)
    (hle : a.recvd ≤ blockCount c.x.blocksize xs) {p : Packet} {final : Bool}
    (hs : recvStep c.x args r (.sent p) = some r') (hpc : r.pc = .ack final) (acks : List ℕ) :
    a.settling = true ∧ AckOf c a.recvd p ∧
      ReceiverRel c xs (t ++ [.receiver (.sent p)]) args r'
        { a with acks, settling := false, closed := a.recvd = blockCount c.x.blocksize xs } := by
  have hph := h.phase
  have hinv := h.inv.phase
  have hpend := h.inv.packetPending
  have hlen := h.length_published
  cases recvMove_of_step hs with
  | replied hr => simp [hpc] at hr
  | recovered hr => simp [hpc] at hr
  | acked final hr =>
    simp only [ReceiverPhase, RecvState.Phase, hr] at hph hinv
    obtain ⟨hpos, hfin⟩ := h.final_iff hbs hle hinv (by cases final <;> rfl)
    refine ⟨hph.2.1, .inl ?_, h.keep hs rfl rfl ?_⟩
    · obtain ⟨-, -, -, -, -, hack, -, -⟩ := hinv
      rw [hack, hlen]
    · cases final with
      | true => exact .inl ⟨rfl, decide_eq_true (hfin.mp rfl)⟩
      | false =>
        refine ⟨hph.1.trans ?_, rfl, decide_eq_false fun he => Bool.noConfusion (hfin.mpr he)⟩
        -- the pending packet was taken before the first block
        symm
        rw [← Bool.not_eq_true]
        intro hpp
        have := (hpend hpp).1
        rw [this, List.length_nil] at hlen
        omega

theorem received (hbs : 0 < c.x.blocksize) (hid : Identifies c xs a) (h : ReceiverRel c xs t args r a)
    (hle : a.recvd ≤ blockCount c.x.blocksize xs) {i : ℕ} (hi : i ∈ a.data)
    (hs : recvStep c.x args r (.received (blockPacket c.x xs i)) = some r') (data : List ℕ) :
    a.accepted = false ∧ a.recvd < blockCount c.x.blocksize xs ∧
      (i ≠ a.recvd + 1 → r'.pc = .recover) ∧
      (i = a.recvd + 1 → (∃ p, r'.pc = .publish p) ∨ ∃ res, r'.pc = .done res) ∧
      ReceiverRel c xs (t ++ [.receiver (.received (blockPacket c.x xs i))]) args r'
        { a with data, accepted := i = a.recvd + 1 } := by
  have hph := h.phase
  have hinv := h.inv.phase
  cases recvMove_of_step hs with
  | received hpc p =>
    simp only [ReceiverPhase, RecvState.Phase, hpc] at hph hinv
    have hlt := h.lt_of_open hbs hle hinv.1
    have hkeep := h.keep hs rfl (show { a with data, accepted := i = a.recvd + 1 }.recvd = a.recvd from rfl)
    have hblock : r.block = blockNumber c.x.rollover (a.recvd + 1) := by
      rw [h.inv.accounts.block_eq, h.length_published]
    have hnum : (blockPacket c.x xs i).block = blockNumber c.x.rollover i := block_dataPacket _ _
    have hop : (blockPacket c.x xs i).opcode = Opcode.data.code := opcode_dataPacket _ _
    rw [recvReceived, if_neg (by simp), hop, if_neg (by simp), if_neg (by simp), hnum, hblock] at hkeep ⊢
    refine ⟨hph.1, hlt, ?_⟩
    by_cases he : i = a.recvd + 1
    · subst he
      rw [if_pos rfl, decide_eq_true rfl] at hkeep ⊢
      exact ⟨absurd rfl, fun _ => recvAccept_pc _ _ _, hkeep (h.accept rfl rfl hph.2.1 hph.2.2 _ _)⟩
    · rw [if_neg fun hn => he (hid.data hlt i hi hn)] at hkeep ⊢
      exact ⟨fun _ => rfl, fun hf => absurd hf he, hkeep ⟨decide_eq_false he, hph.2⟩⟩

theorem stored (hbs : 0 < c.x.blocksize) (h : ReceiverRel c xs t args r a)
    (hle : a.recvd ≤ blockCount c.x.blocksize xs) {p : Packet}
    (hs : recvStep c.x args r (.published p) = some r') :
    a.accepted = true ∧ a.settling = false ∧ ReceiverRel c xs (t ++ [.receiver (.published p)]) args r'
      { a with
        recvd := a.recvd + 1, accepted := false
        settling := (a.recvd + 1) % c.x.windowsize = 0 ∨ a.recvd + 1 = blockCount c.x.blocksize xs } := by
  have hph := h.phase
  have hinv := h.inv.phase
  cases recvMove_of_step hs with
  | published _ hpc =>
    simp only [ReceiverPhase, RecvState.Phase, hpc] at hph hinv
    obtain ⟨hacc, hset, hcl, hp⟩ := hph
    obtain ⟨hopen, hpp, -, -⟩ := hinv
    have hlt := h.lt_of_open hbs hle hopen
    have hinv' := h.inv.step h.initial hs
    refine ⟨hacc, hset, h.reply_eq, h.first_eq, by rw [recvTrace_concat]; exact hinv', ?_, ?_⟩
    · rw [recvTrace_concat, published_append, h.published_eq, List.range_succ, List.map_append, hp]
      rfl
    · have hshort := short_iff (c := c) hbs hlt
      rw [← hp] at hshort
      have hin := hopen.inWindow
      rw [h.length_published] at hin
      have hmod : a.recvd % c.x.windowsize + 1 = c.x.windowsize ↔ (a.recvd + 1) % c.x.windowsize = 0 := by
        refine ⟨Window.succ_mod_of_eq, fun h0 => ?_⟩
        by_contra hne
        rw [Window.succ_mod_of_ne hne] at h0
        omega
      simp only [recvPublished, decide_eq_true_eq, hshort, hin, hmod]
      by_cases hend : a.recvd + 1 = blockCount c.x.blocksize xs ∨ (a.recvd + 1) % c.x.windowsize = 0
      · rw [if_pos hend]
        exact ⟨rfl, decide_eq_true hend.symm, hcl⟩
      · rw [if_neg hend]
        exact ⟨hpp.symm, decide_eq_false fun hf => hend hf.symm, hcl⟩

end ReceiverRel

end TftpHpa
