import TftpHpa.Lib.Datagram
import TftpHpa.Xfer.Receiving

/-! Datagrams longer than a block. `tftp_xfer_recv` only knows what its receive call leaves
in the buffer; if that tells a full block from a longer datagram, everything published is
the payload of a whole datagram. -/

namespace TftpHpa

open Transition Datagram

theorem opcode_take {n : ℕ} (hn : 2 ≤ n) (p : Packet) : Packet.opcode (p.take n) = p.opcode := by
  obtain ⟨k, rfl⟩ := Nat.exists_eq_add_of_le' hn
  match p with
  | [] | [_] | _ :: _ :: _ => rfl

theorem block_take {n : ℕ} (hn : 4 ≤ n) (p : Packet) : Packet.block (p.take n) = p.block := by
  obtain ⟨k, rfl⟩ := Nat.exists_eq_add_of_le' hn
  match p with
  | [] | [_] | [_, _] | [_, _, _] | _ :: _ :: _ :: _ :: _ => rfl

theorem opcode_of_delivers {msgTrunc : Bool} {size : ℕ} {d p : Packet} (h : Delivers msgTrunc size d p)
    (hsize : 2 ≤ size) : p.opcode = d.opcode := by
  rw [← opcode_take hsize p, h.take_eq, opcode_take hsize d]

theorem block_of_delivers {msgTrunc : Bool} {size : ℕ} {d p : Packet} (h : Delivers msgTrunc size d p)
    (hsize : 4 ≤ size) : p.block = d.block := by
  rw [← block_take hsize p, h.take_eq, block_take hsize d]

/-- The payloads of the datagrams that are no longer than a block. -/
def wholeBlocks (blocksize : ℕ) (ds : List Packet) : List Bytes :=
  (ds.filter fun d => d.payload.length ≤ blocksize).map Packet.payload

theorem wholeBlocks_append (blocksize : ℕ) (ds es : List Packet) :
    wholeBlocks blocksize (ds ++ es) = wholeBlocks blocksize ds ++ wholeBlocks blocksize es := by
  rw [wholeBlocks, List.filter_append, List.map_append]
  rfl

theorem payload_mem_wholeBlocks {blocksize : ℕ} {ds : List Packet} {p : Packet} (hp : p ∈ ds)
    (hlen : p.payload.length ≤ blocksize) : p.payload ∈ wholeBlocks blocksize ds :=
  List.mem_map_of_mem (List.mem_filter.mpr ⟨hp, decide_eq_true hlen⟩)

/-- The payload about to be published. -/
def RecvPc.pending : RecvPc → List Bytes
  | .publish p => [p.payload]
  | _ => []

/-- Where the engine can be before it takes the packet it was given. -/
def RecvPc.Early : RecvPc → Prop
  | .reserve | .retryEnter _ | .reply | .done _ => True
  | _ => False

/-- Of the datagrams `ds` the payloads `ps` have been published. -/
structure Whole (x : Xfer) (a : RecvArgs) (ds : List Packet) (ps : List Bytes) (s : RecvState) : Prop where
  sublist : (ps ++ s.pc.pending).Sublist (wholeBlocks x.blocksize ds)
  initial : s.packetPending = true → s.pc.Early ∧ ps = [] ∧
    ∃ p, a.initialPacket = some p ∧ (p.payload.length ≤ x.blocksize → p ∈ ds)

namespace Whole

variable {x : Xfer} {a : RecvArgs} {ds : List Packet} {ps : List Bytes} {s s' : RecvState}

theorem not_pending (h : Whole x a ds ps s) (hpc : ¬ s.pc.Early) : s.packetPending = false := by
  by_contra hp
  exact hpc (h.initial (Bool.eq_true_of_not_eq_false hp)).1

/-- A step that publishes nothing and only moves on. -/
theorem goto (h : Whole x a ds ps s) {pc : RecvPc} (hpc : pc.pending = [])
    (hearly : s.packetPending = true → pc.Early) : Whole x a ds ps { s with pc } := by
  refine ⟨?_, fun hp => ⟨hearly hp, (h.initial hp).2⟩⟩
  rw [hpc, List.append_nil]
  exact (List.sublist_append_left _ _).trans h.sublist

theorem finish (h : Whole x a ds ps s) (status : XferStatus) (error : ℤ) (packet : Option Packet)
    (lastBlock : UInt16) : Whole x a ds ps (s.finish status error packet lastBlock) :=
  h.goto rfl fun _ => trivial

theorem accept (h : Whole x a ds ps s) (hpp : s.packetPending = false) {p : Packet}
    (hp : p.payload.length ≤ x.blocksize → (ps ++ [p.payload]).Sublist (wholeBlocks x.blocksize ds)) :
    Whole x a ds ps (recvAccept x s p) := by
  have h' : Whole x a ds ps { s with replyPending := false } := ⟨h.sublist, h.initial⟩
  refine recvAccept_rule (h'.finish _ _ _ _) (h'.finish _ _ _ _) fun hfits _ => ?_
  rw [← payload_length] at hfits
  exact ⟨hp hfits, fun hf => by simp [hpp] at hf⟩

theorem wait (h : Whole x a ds ps s) : Whole x a ds ps (recvWait x a s) := by
  cases hpp : s.packetPending with
  | false =>
    rw [recvWait_of_not_pending x a hpp]
    exact h.goto rfl fun hf => by simp [hpp] at hf
  | true =>
    obtain ⟨-, hnil, p, hinit, hin⟩ := h.initial hpp
    have h' : Whole x a ds ps { s with packetPending := false } := ⟨h.sublist, fun hf => Bool.noConfusion hf⟩
    rw [recvWait_of_pending x hpp hinit]
    refine h'.accept rfl fun hlen => ?_
    rw [hnil, List.nil_append, List.singleton_sublist]
    exact payload_mem_wholeBlocks (hin hlen) hlen

theorem grow (h : Whole x a ds ps s) (es : List Packet) : Whole x a (ds ++ es) ps s := by
  refine ⟨?_, fun hp => ?_⟩
  · rw [wholeBlocks_append]
    exact h.sublist.trans (List.sublist_append_left _ _)
  · obtain ⟨hearly, hnil, p, hinit, hin⟩ := h.initial hp
    exact ⟨hearly, hnil, p, hinit, fun hlen => List.mem_append_left es (hin hlen)⟩

/-- A datagram is ignored, ends the transfer, or is about to be published as a whole. -/
theorem received (h : Whole x a ds ps s) {msgTrunc : Bool}
    (hdet : Detects msgTrunc a.inputSize (x.blocksize + 4)) {d p : Packet}
    (hd : Delivers msgTrunc a.inputSize d p) (hs : recvStep x a s (.received p) = some s') :
    Whole x a (ds ++ [d]) ps s' := by
  cases recvMove_of_step hs with
  | received hpc _ =>
    have hpp : s.packetPending = false := h.not_pending (by rw [hpc]; exact id)
    have hgrow := h.grow [d]
    refine recvReceived_rule hgrow (hgrow.finish _ _ _ _) (fun _ _ _ => hgrow.accept hpp fun hlen => ?_) ?_
    · have hpay := payload_length p
      obtain rfl := hd.eq_of_length_le hdet (by omega)
      have hsub : ps.Sublist (wholeBlocks x.blocksize ds) := (List.sublist_append_left _ _).trans h.sublist
      rw [wholeBlocks_append]
      exact hsub.append (List.singleton_sublist.mpr (payload_mem_wholeBlocks List.mem_cons_self hlen))
    · exact hgrow.goto rfl fun hf => by simp [hpp] at hf

theorem published (h : Whole x a ds ps s) {p : Packet} (hpc : s.pc = .publish p) :
    Whole x a ds (ps ++ [p.payload]) (recvPublished x s p) := by
  have hpp : s.packetPending = false := h.not_pending (by rw [hpc]; exact id)
  have hsub : (ps ++ [p.payload] ++ []).Sublist (wholeBlocks x.blocksize ds) := by
    have hpending := h.sublist
    rw [hpc] at hpending
    rwa [List.append_nil]
  unfold recvPublished
  dsimp only
  split_ifs
  · exact ⟨hsub, fun hf => by simp [hpp] at hf⟩
  · exact ⟨hsub, fun hf => by simp [hpp] at hf⟩

/-- Every step but a receive. -/
theorem other (h : Whole x a ds ps s) {l : RecvLabel} (hl : ∀ p, l ≠ .received p) (hs : recvStep x a s l = some s')
    (flush : Option ℤ) : Whole x a ds (ps ++ (ReceivingLabel.engine l flush).payload) s' := by
  cases recvMove_of_step hs with
  | received hpc p => exact absurd rfl (hl p)
  | published p hpc => exact h.published hpc
  | reserved hpc | timeout hpc =>
    simp only [ReceivingLabel.payload, List.append_nil]
    exact h.goto rfl fun _ => trivial
  | entered r hpc =>
    simp only [ReceivingLabel.payload, List.append_nil]
    split_ifs
    · exact h.goto rfl fun _ => trivial
    · exact h.wait
  | replied hpc =>
    simp only [ReceivingLabel.payload, List.append_nil]
    exact h.wait
  | recovered hpc | recoveryFailed hpc e | finished hpc =>
    have hpp : s.packetPending = false := h.not_pending (by rw [hpc]; exact id)
    simp only [ReceivingLabel.payload, List.append_nil]
    exact h.goto rfl fun hf => by simp [hpp] at hf
  | drained final hpc =>
    have hpp : s.packetPending = false := h.not_pending (by rw [hpc]; exact id)
    simp only [ReceivingLabel.payload, List.append_nil]
    exact h.goto (by cases final <;> rfl) fun hf => by simp [hpp] at hf
  | acked final hpc =>
    simp only [ReceivingLabel.payload, List.append_nil]
    split_ifs
    · exact h.finish _ _ _ _
    · exact h.goto rfl fun _ => trivial
  | reserveFailed hpc e | replyFailed hpc e | recvFailed hpc e | finishFailed hpc e | ackFailed v hpc e
  | publishFailed v hpc e | drainFailed v hpc e =>
    simp only [ReceivingLabel.payload, List.append_nil]
    exact h.finish _ _ _ _

end Whole

/-! ### The transfer and its datagrams -/

/-- The receive call of the transfer. -/
def Receiving.takes (msgTrunc : Bool) (a : RecvArgs) (_ : Receiving) : ReceivingLabel → Option (Input UInt8)
  | .engine (.received p) _ => some ⟨msgTrunc, a.inputSize, p⟩
  | _ => none

theorem Receiving.takes_eq_some {msgTrunc : Bool} {a : RecvArgs} {s : Receiving} {l : ReceivingLabel}
    {i : Input UInt8} (h : takes msgTrunc a s l = some i) :
    ∃ p flush, l = .engine (.received p) flush ∧ i = ⟨msgTrunc, a.inputSize, p⟩ := by
  unfold takes at h
  split at h
  · next p flush =>
    cases h
    exact ⟨p, flush, rfl, rfl⟩
  · cases h

section
variable {x : Xfer} {a : RecvArgs} {msgTrunc : Bool} {ds : List Packet} {ps : List Bytes} {s s' : Receiving}

theorem whole_init (hin : ∀ p, a.initialPacket = some p → p.payload.length ≤ x.blocksize → p ∈ ds) :
    Whole x a ds [] (recvInit x a) := by
  have hstart (reply : Bool) {pending : Bool} (hp : pending = true → ∃ p, a.initialPacket = some p) :
      Whole x a ds [] { replyPending := reply, packetPending := pending } := by
    refine ⟨List.nil_sublist _, fun hpending => ⟨trivial, rfl, ?_⟩⟩
    obtain ⟨p, hinit⟩ := hp hpending
    exact ⟨p, hinit, hin p hinit⟩
  have hany : (a.initialPacket.any fun p => 4 ≤ p.length) = true → ∃ p, a.initialPacket = some p := fun hp => by
    obtain ⟨p, hinit, -⟩ := (Option.any_eq_true _ _).mp hp
    exact ⟨p, hinit⟩
  unfold recvInit
  dsimp only
  split_ifs
  · exact (hstart _ hany).finish _ _ _ _
  · exact hstart _ hany

theorem Whole.fed (h : Whole x a ds ps s.recv) (hdet : Detects msgTrunc a.inputSize (x.blocksize + 4))
    {l : FedLabel ReceivingLabel UInt8}
    (hs : Datagram.fed (Receiving.step x a) (Receiving.takes msgTrunc a) s l = some s') :
    Whole x a (ds ++ l.datagrams) (ps ++ l.label.payload) s'.recv := by
  cases l with
  | datagram d l =>
    obtain ⟨i, hi, hd, hstep⟩ := fed_datagram.mp hs
    obtain ⟨p, flush, rfl, rfl⟩ := Receiving.takes_eq_some hi
    rcases Receiving.step_recv hstep with ⟨e, flush', hl, hrecv⟩ | ⟨hl, -⟩
    · cases hl
      simp only [FedLabel.datagrams, FedLabel.label, ReceivingLabel.payload, List.append_nil]
      exact h.received hdet hd hrecv
    · cases hl
  | other l =>
    obtain ⟨hnone, hstep⟩ := fed_other.mp hs
    simp only [FedLabel.datagrams, FedLabel.label, List.append_nil]
    rcases Receiving.step_recv hstep with ⟨e, flush, rfl, hrecv⟩ | ⟨rfl, hrecv⟩
    · refine h.other (fun p hp => ?_) hrecv flush
      rw [hp] at hnone
      cases hnone
    · simp only [ReceivingLabel.payload, List.append_nil]
      exact hrecv ▸ h

theorem whole_of_run {x : Xfer} {a : RecvArgs} (ha : a.initialPacket = none) {msgTrunc : Bool}
    (hdet : Detects msgTrunc a.inputSize (x.blocksize + 4)) {io : TftpIo} {th : TftpIo.WriterThread}
    {t : List (FedLabel ReceivingLabel UInt8)} {s : Receiving}
    (hrun : run (fed (Receiving.step x a) (Receiving.takes msgTrunc a)) ⟨recvInit x a, io, th⟩ t = some s) :
    Whole x a (t.flatMap FedLabel.datagrams) ((t.map FedLabel.label).flatMap ReceivingLabel.payload) s.recv := by
  have hinit : Whole x a [] [] (Receiving.mk (recvInit x a) io th).recv := whole_init fun p hp _ => by simp [ha] at hp
  refine run_invariant (fun t (s : Receiving) =>
      Whole x a (t.flatMap FedLabel.datagrams) ((t.map FedLabel.label).flatMap ReceivingLabel.payload) s.recv) hinit
    (fun t s l s' h hs => ?_) hrun
  simp only [List.map_append, List.map_singleton, List.flatMap_append, List.flatMap_singleton]
  exact h.fed hdet hs

theorem recvReceived_oversize (hdet : Detects msgTrunc a.inputSize (x.blocksize + 4)) {d p : Packet}
    (hd : Delivers msgTrunc a.inputSize d p) (hop : d.opcode = Opcode.data.code)
    (hlong : x.blocksize < d.payload.length) (r : RecvState) :
    (d.block = r.block → ∃ result, (recvReceived x r p).pc = .done result ∧ result.status = .badData) ∧
      (d.block ≠ r.block → (recvReceived x r p).pc = .recover) := by
  have hsize : x.blocksize + 4 ≤ a.inputSize := hdet.elim Nat.le_of_lt And.right
  have hpay := payload_length d
  have hlen := hd.length_lt hdet (n := x.blocksize + 4) (by omega)
  rw [recvReceived, if_neg (by omega), opcode_of_delivers hd (by omega), hop, if_neg (by decide),
    if_neg (not_not.mpr rfl), block_of_delivers hd (by omega)]
  refine ⟨fun hblk => ?_, fun hblk => ?_⟩
  · rw [if_pos hblk, recvAccept, if_pos (by omega)]
    exact ⟨_, rfl, rfl⟩
  · rw [if_neg hblk]

end

/-- A DATA packet too long for a block ends the transfer, or is treated like any block that is
not expected. -/
def Receiving.RejectsLong (msgTrunc : Bool) (x : Xfer) (a : RecvArgs) (s : Receiving) : Prop :=
  s.recv.pc = .recv → ∀ (d p : Packet) (flush : Option ℤ), Delivers msgTrunc a.inputSize d p →
    d.opcode = Opcode.data.code → x.blocksize < d.payload.length →
    ∃ s', s.step x a (.engine (.received p) flush) = some s' ∧
      (d.block = s.recv.block → ∃ result, s'.recv.pc = .done result ∧ result.status = .badData) ∧
      (d.block ≠ s.recv.block → s'.recv.pc = .recover)

theorem Receiving.rejectsLong {msgTrunc : Bool} {x : Xfer} {a : RecvArgs}
    (hdet : Detects msgTrunc a.inputSize (x.blocksize + 4)) (s : Receiving) : s.RejectsLong msgTrunc x a := by
  intro hpc d p flush hd hop hlong
  have hstep : s.step x a (.engine (.received p) flush) = some { s with recv := recvReceived x s.recv p } := by
    simp only [Receiving.step, TftpIo.callback, recvStep, hpc]
  exact ⟨_, hstep, recvReceived_oversize hdet hd hop hlong s.recv⟩

end TftpHpa
