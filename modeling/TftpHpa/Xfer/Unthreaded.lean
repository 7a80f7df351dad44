import TftpHpa.Io.Writing
import TftpHpa.Xfer.Receiving

/-! `tftp_xfer_recv` over the writing ring without a thread. Nobody but the engine empties
the ring, and it does so at the end of a window; that the slots last until then is a
matter of the engine's window counter and the ring's own counter staying in step. -/

namespace TftpHpa

open Transition
open Netascii (decode)

namespace TftpIo

/-- Each time `tftp_io_write_drain` gets to its test, the slot at the head is ready. -/
def DrainReady : ℕ → TftpIo → Prop
  | 0, _ => True
  | k + 1, io =>
    io.count ≠ 0 ∧ io.error = 0 → io.states io.head = .ready ∧
      ∀ n io', (io.setState io.head .writing).opsWritePacket (io.packets io.head) (io.lengths io.head) = (some n, io') →
        DrainReady k io'.dequeue

theorem SlotStates.withFile {busy reserved : Bool} {io : TftpIo} (h : SlotStates busy reserved io) (file : File)
    (writeCr : Bool) : SlotStates busy reserved { io with file := file, writeCr := writeCr } :=
  ⟨h.busy_pos, h.reserved_lt, h.used, h.free⟩

/-- The ring between two calls of the engine, which has the tail reserved or not. -/
structure Unthreaded (slots blocksize : ℕ) (reserved : Bool) (io : TftpIo) : Prop where
  threaded_eq : io.threaded = false
  slots_eq : io.slots = slots
  blocksize_eq : io.blocksize = blocksize
  error_eq : io.error = 0
  states : SlotStates false reserved io

namespace Unthreaded

variable {queue : List Bytes} {slots blocksize : ℕ} {reserved : Bool} {io : TftpIo}

theorem init (file : File) (convert : Bool) (slots blocksize : ℕ) :
    Unthreaded slots blocksize false (TftpIo.init file convert slots 0 blocksize false) :=
  ⟨rfl, rfl, rfl, rfl, by simp, by simp, by simp [TftpIo.init], by simp [TftpIo.init]⟩

theorem head_ready (h : Unthreaded slots blocksize reserved io) (hq : Queued queue io) (hpos : 0 < io.count) :
    io.states io.head = .ready := by
  rw [← hq.slot_zero, h.states.used 0 hpos]
  rfl

theorem tail_empty (h : Unthreaded slots blocksize false io) (hq : Queued queue io) (hroom : io.count < slots) :
    io.states io.tail = .empty := by
  rw [hq.tail_eq, h.states.free io.count (h.slots_eq ▸ hroom) le_rfl]
  rfl

theorem tail_reserved (h : Unthreaded slots blocksize true io) (hq : Queued queue io) :
    io.states io.tail = .reserved := by
  rw [hq.tail_eq, h.states.free io.count (h.states.reserved_lt rfl) le_rfl]
  exact if_pos ⟨rfl, rfl⟩

theorem writeReserve_eq (h : Unthreaded slots blocksize false io) (hq : Queued queue io) (hroom : io.count < slots) :
    io.writeReserve = some (.ok (), io.setState io.tail .reserved) := by
  have hempty := h.tail_empty hq hroom
  rw [writeReserve, if_neg fun hbusy => hbusy.1 hempty, if_neg (not_not.mpr h.error_eq)]

theorem reserve (h : Unthreaded slots blocksize false io) (hq : Queued queue io) (hroom : io.count < slots) :
    Unthreaded slots blocksize true (io.setState io.tail .reserved) :=
  ⟨h.threaded_eq, h.slots_eq, h.blocksize_eq, h.error_eq, h.states.reserve hq (h.slots_eq ▸ hroom)⟩

theorem copyPacket (h : Unthreaded slots blocksize reserved io) (p : Packet) :
    Unthreaded slots blocksize reserved (io.copyPacket p) :=
  ⟨h.threaded_eq, h.slots_eq, h.blocksize_eq, h.error_eq, h.states.busy_pos, h.states.reserved_lt, h.states.used,
    h.states.free⟩

theorem writePublish_eq (h : Unthreaded slots blocksize true io) (hq : Queued queue io) {length : ℕ}
    (hlength : length ≤ blocksize) :
    io.writePublish length = (.ok (), { io.setState io.tail .ready with
      lengths := Function.update io.lengths io.tail length
      tail := io.ioNext io.tail
      count := io.count + 1 }) := by
  have hshort : ¬ io.blocksize < length := by
    rw [h.blocksize_eq]
    omega
  rw [writePublish, if_neg hshort, if_neg (not_not.mpr (h.tail_reserved hq))]

theorem publish (h : Unthreaded slots blocksize true io) (hq : Queued queue io) (length : ℕ) :
    Unthreaded slots blocksize false { io.setState io.tail .ready with
      lengths := Function.update io.lengths io.tail length
      tail := io.ioNext io.tail
      count := io.count + 1 } :=
  ⟨h.threaded_eq, h.slots_eq, h.blocksize_eq, h.error_eq, h.states.publish hq length⟩

/-- The loop finds every slot ready, and unless writing fails the ring stays as it should. -/
theorem drainLoop (h : Unthreaded slots blocksize reserved io) (hq : Queued queue io) (k : ℕ) :
    DrainReady k io ∧ ((drainLoop k io).error = 0 → Unthreaded slots blocksize reserved (drainLoop k io)) := by
  induction k generalizing io queue with
  | zero => exact ⟨trivial, fun _ => h⟩
  | succ k ih =>
    by_cases hmore : io.count ≠ 0 ∧ io.error = 0
    · have hpos : 0 < io.count := Nat.pos_of_ne_zero hmore.1
      have hready := h.head_ready hq hpos
      obtain ⟨d, rest, rfl⟩ := List.exists_cons_of_ne_nil (hq.ne_nil_of_ready hready)
      obtain ⟨file, cr, hframe⟩ := (io.setState io.head .writing).opsWritePacket_frame (io.packets io.head)
        (io.lengths io.head)
      -- after the write the head slot leaves the queue
      have hnext : ∀ n io', (io.setState io.head .writing).opsWritePacket (io.packets io.head) (io.lengths io.head) =
          (some n, io') → Unthreaded slots blocksize reserved io'.dequeue ∧ Queued rest io'.dequeue := by
        intro n io' hio'
        obtain rfl : io' = _ := (congrArg Prod.snd hio').symm.trans hframe
        have hq' := (hq.writing hready).withFile file cr
        have hstates := ((h.states.writing hq hpos).withFile file cr).dequeue hq'
        exact ⟨⟨h.threaded_eq, h.slots_eq, h.blocksize_eq, h.error_eq, hstates⟩, hq'.dequeue⟩
      refine ⟨fun _ => ⟨hready, fun n io' hio' => ?_⟩, fun herror => ?_⟩
      · obtain ⟨h', hq'⟩ := hnext n io' hio'
        exact (ih h' hq').1
      · rw [TftpIo.drainLoop, if_pos hmore, if_neg (not_not.mpr hready)] at herror ⊢
        dsimp only at herror ⊢
        split at herror
        · next io₁ _ =>
          obtain ⟨e, he, hio⟩ := io₁.ioError_eq EIO
          rw [hio] at herror
          exact absurd herror he
        · next n io₁ hio₁ =>
          obtain ⟨h', hq'⟩ := hnext n io₁ hio₁
          exact (ih h' hq').2 herror
    · refine ⟨fun hm => absurd hm hmore, fun _ => ?_⟩
      rw [TftpIo.drainLoop, if_neg hmore]
      exact h

theorem drained (h : Unthreaded slots blocksize reserved io) (hq : Queued queue io) {flush : Option ℤ} {io' : TftpIo}
    (hs : io.writeDrain flush = some (.ok (), io')) : Unthreaded slots blocksize reserved io' := by
  rw [writeDrain, if_neg (by simp [h.threaded_eq]), Option.some.injEq] at hs
  unfold flushDrained at hs
  split_ifs at hs with herror
  · cases hs
  · cases flush <;> cases hs
    exact (h.drainLoop hq _).2 (not_not.mp herror)

end Unthreaded

end TftpIo

open TftpIo (Unthreaded Queued WriterInv)

/-! ### The engine and the ring -/

/-- The window has room for one more packet, and the ring holds the packets of the window. -/
structure Windowed (x : Xfer) (slots : ℕ) (reserved : Bool) (io : TftpIo) (packetsInWindow : ℕ) : Prop where
  ring : Unthreaded slots x.blocksize reserved io
  count_eq : io.count = packetsInWindow
  room : packetsInWindow < x.windowsize

theorem Windowed.count_lt {x : Xfer} {slots : ℕ} {reserved : Bool} {io : TftpIo} {n : ℕ}
    (h : Windowed x slots reserved io n) (hslots : x.windowsize ≤ slots) : io.count < slots := by
  rw [h.count_eq]
  exact lt_of_lt_of_le h.room hslots

/-- The ring by what the engine is about to do. -/
def RoomAt (x : Xfer) (slots : ℕ) (io : TftpIo) (r : RecvState) : Prop :=
  match r.pc with
  | .reserve | .ack false => Windowed x slots false io r.packetsInWindow
  | .retryEnter _ | .reply | .recv | .recover => Windowed x slots true io r.packetsInWindow
  | .publish p => Windowed x slots true io r.packetsInWindow ∧ p.payload.length ≤ x.blocksize
  | .drain _ => Unthreaded slots x.blocksize false io ∧ r.packetsInWindow = 0
  | .finish | .ack true | .done _ => True

namespace RoomAt

variable {x : Xfer} {a : RecvArgs} {slots : ℕ} {io : TftpIo} {r : RecvState}

theorem recvAccept (h : Windowed x slots true io r.packetsInWindow) (p : Packet) :
    RoomAt x slots io (recvAccept x r p) := by
  refine recvAccept_rule trivial trivial fun hfits _ => ⟨h, ?_⟩
  rw [payload_length]
  exact hfits

theorem recvWait (h : Windowed x slots true io r.packetsInWindow) : RoomAt x slots io (recvWait x a r) := by
  unfold TftpHpa.recvWait
  split
  · exact recvAccept (r := { r with packetPending := false }) h _
  · exact h

theorem recvReceived (h : Windowed x slots true io r.packetsInWindow) (hpc : r.pc = .recv) (p : Packet) :
    RoomAt x slots io (recvReceived x r p) := by
  have hstay : RoomAt x slots io r := by
    rw [RoomAt, hpc]
    exact h
  exact recvReceived_rule hstay trivial (fun _ _ _ => recvAccept h p) h

/-- With the slot published the window ends or has room for another packet. -/
theorem recvPublished {queue : List Bytes} (hq : Queued queue io) (h : Windowed x slots true io r.packetsInWindow)
    (p : Packet) (length : ℕ) :
    RoomAt x slots { io.setState io.tail .ready with
      lengths := Function.update io.lengths io.tail length
      tail := io.ioNext io.tail
      count := io.count + 1 } (recvPublished x r p) := by
  have hring := h.ring.publish hq length
  have hroom := h.room
  unfold TftpHpa.recvPublished
  dsimp only
  split_ifs with hend
  · exact ⟨hring, rfl⟩
  · rw [not_or] at hend
    refine ⟨hring, congrArg (· + 1) h.count_eq, ?_⟩
    change r.packetsInWindow + 1 < x.windowsize
    omega

end RoomAt

namespace Receiving

variable {x : Xfer} {a : RecvArgs} {convert : Bool} {ps : List Bytes} {slots : ℕ} {s s' : Receiving}

theorem Inv.queued (h : Inv convert ps s) (hpc : s.recv.pc = .reserve ∨ (∃ p, s.recv.pc = .publish p) ∨
    ∃ final, s.recv.pc = .drain final) : ∃ queue, Queued queue s.io := by
  obtain hpc | ⟨p, hpc⟩ | ⟨final, hpc⟩ := hpc
  all_goals
    rw [Inv, hpc] at h
    obtain ⟨-, -, out, queue, -, hq, -⟩ := h
    exact ⟨queue, hq⟩

theorem roomAt_engine (hW : 1 ≤ x.windowsize) (hslots : x.windowsize ≤ slots) (h : RoomAt x slots s.io s.recv)
    (hinv : Inv convert ps s) {l : RecvLabel} {flush : Option ℤ} {io : TftpIo} {recv : RecvState}
    (hio : s.io.callback flush l = some io) (hrecv : recvStep x a s.recv l = some recv) :
    RoomAt x slots io recv := by
  cases recvMove_of_step hrecv with
  | reserved hpc =>
    obtain ⟨queue, hq⟩ := hinv.queued (.inl hpc)
    rw [RoomAt, hpc] at h
    have hroom := h.count_lt hslots
    rw [TftpIo.callback, h.ring.writeReserve_eq hq hroom] at hio
    cases hio
    exact ⟨h.ring.reserve hq hroom, h.count_eq, h.room⟩
  | entered r hpc =>
    rw [RoomAt, hpc] at h
    cases hio
    split_ifs
    · exact h
    · exact RoomAt.recvWait h
  | replied hpc =>
    rw [RoomAt, hpc] at h
    cases hio
    exact RoomAt.recvWait h
  | recovered hpc | recoveryFailed hpc e | timeout hpc =>
    rw [RoomAt, hpc] at h
    cases hio
    exact h
  | received hpc p =>
    rw [RoomAt, hpc] at h
    cases hio
    exact RoomAt.recvReceived h hpc p
  | acked final hpc =>
    cases hio
    cases final with
    | true => trivial
    | false =>
      rw [RoomAt, hpc] at h
      exact h
  | published p hpc =>
    obtain ⟨queue, hq⟩ := hinv.queued (.inr (.inl ⟨p, hpc⟩))
    rw [RoomAt, hpc] at h
    obtain ⟨hwin, hlength⟩ := h
    have hq' := hq.copyPacket (hwin.ring.states.reserved_lt rfl) p
    rw [TftpIo.callback, (hwin.ring.copyPacket p).writePublish_eq hq' hlength] at hio
    cases hio
    exact RoomAt.recvPublished hq' ⟨hwin.ring.copyPacket p, hwin.count_eq, hwin.room⟩ p _
  | drained final hpc =>
    obtain ⟨queue, hq⟩ := hinv.queued (.inr (.inr ⟨final, hpc⟩))
    rw [Inv, hpc] at hinv
    rw [RoomAt, hpc] at h
    obtain ⟨hring, hzero⟩ := h
    simp only [TftpIo.callback] at hio
    split at hio
    · next hdrain =>
      cases hio
      have hcount := (WriterInv.drained hinv hdrain).2.2
      cases final with
      | true => trivial
      | false => exact ⟨hring.drained hq hdrain, hcount.trans hzero.symm, hzero.trans_lt hW⟩
    · cases hio
  | finished hpc => trivial
  | reserveFailed hpc e | replyFailed hpc e | recvFailed hpc e | finishFailed hpc e | ackFailed v hpc e
  | publishFailed v hpc e | drainFailed v hpc e => trivial

/-- The transfer starts, with a stream that nothing has been written to. -/
def startUnthreaded (x : Xfer) (a : RecvArgs) (file : File) (convert : Bool) (slots : ℕ) : Receiving where
  recv := recvInit x a
  io := .init { file with written := [] } convert slots 0 x.blocksize false
  thread := .start false

/-- The invariant of a run after the payloads `ps`. -/
structure InStep (x : Xfer) (slots : ℕ) (convert : Bool) (ps : List Bytes) (s : Receiving) : Prop where
  inv : Inv convert ps s
  exited : s.thread = .exited
  roomAt : RoomAt x slots s.io s.recv

theorem inStep_init (hW : 1 ≤ x.windowsize) (hslots : x.windowsize ≤ slots) (file : File) :
    InStep x slots convert [] (startUnthreaded x a file convert slots) := by
  refine ⟨.of_writer (.start rfl (by omega) _ _ _) (unfinished_recvInit x a), rfl, ?_⟩
  unfold startUnthreaded RoomAt recvInit
  dsimp only
  split_ifs
  · trivial
  · exact ⟨.init _ _ _ _, rfl, hW⟩

theorem InStep.step (hW : 1 ≤ x.windowsize) (hslots : x.windowsize ≤ slots) (h : InStep x slots convert ps s)
    {l : ReceivingLabel} (hs : s.step x a l = some s') : InStep x slots convert (ps ++ l.payload) s' := by
  have hinv := h.inv.step hs
  cases l with
  | engine l flush =>
    simp only [Receiving.step] at hs
    split at hs
    · next io recv hio hrecv =>
      obtain rfl := Option.some.inj hs
      exact ⟨hinv, h.exited, roomAt_engine hW hslots h.roomAt h.inv hio hrecv⟩
    · cases hs
  | thread =>
    rw [Receiving.step, h.exited] at hs
    cases hs

theorem InStep.of_run (hW : 1 ≤ x.windowsize) (hslots : x.windowsize ≤ slots) {file : File} {t : List ReceivingLabel}
    (hrun : run (Receiving.step x a) (startUnthreaded x a file convert slots) t = some s) :
    InStep x slots convert (t.flatMap ReceivingLabel.payload) s := by
  refine run_invariant (fun t s => InStep x slots convert (t.flatMap ReceivingLabel.payload) s)
    (inStep_init hW hslots file) (fun t s l s' h hs => ?_) hrun
  rw [List.flatMap_append, List.flatMap_singleton]
  exact h.step hW hslots hs

theorem InStep.reserve (h : InStep x slots convert ps s) (hslots : x.windowsize ≤ slots) (hpc : s.recv.pc = .reserve) :
    s.io.states s.io.tail = .empty ∧ ∃ io, s.io.writeReserve = some (.ok (), io) := by
  obtain ⟨queue, hq⟩ := h.inv.queued (.inl hpc)
  have hwin := h.roomAt
  rw [RoomAt, hpc] at hwin
  have hroom := hwin.count_lt hslots
  exact ⟨hwin.ring.tail_empty hq hroom, _, hwin.ring.writeReserve_eq hq hroom⟩

theorem InStep.publish (h : InStep x slots convert ps s) {p : Packet} (hpc : s.recv.pc = .publish p) :
    s.io.states s.io.tail = .reserved ∧
      ∃ io, (s.io.copyPacket p).writePublish p.payload.length = (.ok (), io) := by
  obtain ⟨queue, hq⟩ := h.inv.queued (.inr (.inl ⟨p, hpc⟩))
  have hwin := h.roomAt
  rw [RoomAt, hpc] at hwin
  obtain ⟨⟨hring, -, -⟩, hlength⟩ := hwin
  have hq' := hq.copyPacket (hring.states.reserved_lt rfl) p
  exact ⟨hring.tail_reserved hq, _, (hring.copyPacket p).writePublish_eq hq' hlength⟩

theorem InStep.drain (h : InStep x slots convert ps s) {final : Bool} (hpc : s.recv.pc = .drain final) :
    TftpIo.DrainReady s.io.count s.io := by
  obtain ⟨queue, hq⟩ := h.inv.queued (.inr (.inr ⟨final, hpc⟩))
  have hring := h.roomAt
  rw [RoomAt, hpc] at hring
  exact (hring.1.drainLoop hq _).1

/-- What a drain leaves in the file. -/
theorem Inv.drained (h : Inv convert ps s) {flush : Option ℤ} (hs : s.step x a (.engine .drained flush) = some s') :
    s'.io.convert = convert ∧ s'.io.Written ps.flatten := by
  simp only [Receiving.step] at hs
  split at hs
  · next io recv hio hrecv =>
    obtain rfl := Option.some.inj hs
    cases recvMove_of_step hrecv with
    | drained final hpc =>
      rw [Inv, hpc] at h
      simp only [TftpIo.callback] at hio
      split at hio
      · next hdrain =>
        cases hio
        obtain ⟨hw, herror, hcount⟩ := WriterInv.drained h hdrain
        exact ⟨hw.convert_eq, (hw.written herror hcount).1⟩
      · cases hio
  · cases hs

end Receiving

theorem written_octet {io : TftpIo} {data : Bytes} (h : io.Written data) (hconv : io.convert = false) :
    io.file.written = data := by
  simpa [TftpIo.converted, hconv] using (h []).symm

theorem written_netascii {io : TftpIo} {data : Bytes} (h : io.Written data) (hconv : io.convert = true) :
    io.file.written ++ (if io.writeCr then [13] else []) = decode false data := by
  have hall := h []
  rw [List.append_nil, TftpIo.converted, TftpIo.converted, hconv, if_pos rfl, if_pos rfl] at hall
  rw [hall]
  cases io.writeCr <;> rfl

/-- In a run over the unthreaded ring with a slot for each packet of a window, a slot is empty
when it is reserved, reserved when it is published and ready when it is written. A drain that
succeeds leaves everything published in the file; in netascii a CR at the end may be held back. -/
theorem unthreaded_ring_in_step (x : Xfer) (a : RecvArgs) (file : File) (convert : Bool) {slots : ℕ}
    (hW : 1 ≤ x.windowsize) (hslots : x.windowsize ≤ slots) {t : List ReceivingLabel} {s : Receiving}
    (hrun : run (Receiving.step x a) (.startUnthreaded x a file convert slots) t = some s) :
    (s.recv.pc = .reserve →
      s.io.states s.io.tail = .empty ∧ ∃ io, s.io.writeReserve = some (.ok (), io)) ∧
    (∀ p, s.recv.pc = .publish p →
      s.io.states s.io.tail = .reserved ∧
        ∃ io, (s.io.copyPacket p).writePublish p.payload.length = (.ok (), io)) ∧
    (∀ final, s.recv.pc = .drain final → TftpIo.DrainReady s.io.count s.io) ∧
    ∀ u flush, t = u ++ [.engine .drained flush] →
      (convert = false → s.io.file.written = (t.flatMap ReceivingLabel.payload).flatten) ∧
      (convert = true → s.io.file.written ++ (if s.io.writeCr then [13] else []) =
        decode false (t.flatMap ReceivingLabel.payload).flatten) := by
  have h := Receiving.InStep.of_run hW hslots hrun
  refine ⟨h.reserve hslots, fun p => h.publish, fun final => h.drain, ?_⟩
  rintro u flush rfl
  obtain ⟨m, hm, hlast⟩ := run_concat_eq_some.mp hrun
  obtain ⟨hconv, hw⟩ := (Receiving.InStep.of_run hW hslots hm).inv.drained hlast
  simp only [List.flatMap_append, List.flatMap_singleton, ReceivingLabel.payload, List.append_nil]
  exact ⟨fun hc => written_octet hw (hconv.trans hc), fun hc => written_netascii hw (hconv.trans hc)⟩

/-- The block with number `n` arrives and is published. -/
def takesBlock (n : UInt16) (data : Bytes) : List ReceivingLabel :=
  [.engine .reserved none, .engine (.entered false) none, .engine (.received (dataPacket n data)) none,
    .engine (.published (dataPacket n data)) none]

/-- Two blocks of two bytes, and the end of their window. -/
def takesTwo : List ReceivingLabel := takesBlock 1 [97, 98] ++ takesBlock 2 [99, 100] ++ [.engine .drained none]

theorem unthreaded_ring_in_step_full :
    ∃ s, run (Receiving.step { blocksize := 2, windowsize := 2 } { inputSize := 6 })
        (.startUnthreaded { blocksize := 2, windowsize := 2 } { inputSize := 6 } { rest := [] } false 2)
        takesTwo = some s ∧
      s.io.file.written = [97, 98, 99, 100] :=
  ⟨_, rfl, ((unthreaded_ring_in_step { blocksize := 2, windowsize := 2 } { inputSize := 6 } { rest := [] } false
    (by decide) le_rfl (t := takesTwo) rfl).2.2.2 _ none rfl).1 rfl⟩

/-- A block that ends in a CR, and the end of its window. -/
def takesCr : List ReceivingLabel := takesBlock 1 [97, 13] ++ [.engine .drained none]

/-- In netascii the CR waits for the byte after it, also when the ring is drained. -/
theorem drain_holds_back_cr :
    ∃ s, run (Receiving.step { blocksize := 2, windowsize := 1 } { inputSize := 6 })
        (.startUnthreaded { blocksize := 2, windowsize := 1 } { inputSize := 6 } { rest := [] } true 1)
        takesCr = some s ∧
      (takesCr.flatMap ReceivingLabel.payload).flatten = [97, 13] ∧ s.io.file.written = [97] :=
  ⟨_, rfl, rfl, rfl⟩

end TftpHpa
