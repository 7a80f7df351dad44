import TftpHpa.Xfer.Send
import TftpHpa.Io.ReaderRing

/-! The sender as its peer sees it. `Sending` replaces the ring, the reader thread
and the stamped headers by the stream of blocks itself: all that is left is how many
blocks have been released and which callback comes next. `tftp_xfer_send` over the
ring refines it step by step, for any behaviour of the peer and of the thread. -/

namespace TftpHpa

open Blocks (block blockCount)
open TftpIo (ReaderInv ReaderThread SameWindow)

/-- The packet of block `i` of the stream, blocks being counted from one. -/
def blockPacket (x : Xfer) (xs : Bytes) (i : ℕ) : Packet :=
  dataPacket (blockNumber x.rollover i) (block x.blocksize xs (i - 1))

/-- The sender without its ring: whether the file has a read error, the number of
released blocks and the next callback. -/
structure Sending where
  readError : Bool
  base : ℕ := 0
  pc : SendPc := .readWindow

namespace Sending

/-- The size of the window that starts after `base` blocks. -/
def width (x : Xfer) (xs : Bytes) (base : ℕ) : ℕ :=
  min x.windowsize (blockCount x.blocksize xs - base)

/-- The data bytes in the first `n` blocks, as the engine counts them. -/
def bytesOf (x : Xfer) (xs : Bytes) (n : ℕ) : UInt64 := UInt64.ofNat (xs.take (n * x.blocksize)).length

section
variable (x : Xfer) (xs : Bytes)

def finish (a : Sending) (status : XferStatus) (error : ℤ) (packet : Option Packet := none) : Sending :=
  { a with pc := .done { status, error, packet, bytes := bytesOf x xs a.base } }

/-- Send packet `n` of the window, or wait after the last one. -/
def sendFrom (a : Sending) (n : ℕ) : Sending :=
  { a with pc := if n < width x xs a.base then .send n else .recv }

/-- A datagram while waiting: an ACK counts by the block of the window it names. -/
def received (a : Sending) (p : Packet) : Sending :=
  if p.length < 4 then a
  else if p.opcode = Opcode.error.code then a.finish x xs .peerError 0 (some p)
  else if p.opcode = Opcode.ack.code ∧ p.block = blockNumber x.rollover (a.base + width x xs a.base) then
    { a with pc := .release }
  else if p.opcode = Opcode.oack.code ∧ x.resendOack then { a with pc := .send 0 }
  else if p.opcode = Opcode.ack.code then
    match (List.range (width x xs a.base - 1)).find?
        fun n => p.block = blockNumber x.rollover (a.base + n + 1) with
    | some n => { a with pc := .send (n + 1) }
    | none => a
  else a

def step (a : Sending) : SendLabel → Option Sending
  | .thread => some a
  | .window count final =>
    match a.pc with
    | .readWindow =>
      if count = width x xs a.base ∧
          final = decide (a.base + width x xs a.base = blockCount x.blocksize xs) then
        some { a with pc := .retryEnter false }
      else none
    | _ => none
  | .windowFailed e =>
    match a.pc with
    | .readWindow => if a.readError then some (a.finish x xs .readError (orEio e)) else none
    | _ => none
  | .entered restarted =>
    match a.pc with
    | .retryEnter r => if r = restarted then some (a.sendFrom x xs 0) else none
    | _ => none
  | .sent p =>
    match a.pc with
    | .send n => if p = blockPacket x xs (a.base + n + 1) then some (a.sendFrom x xs (n + 1)) else none
    | _ => none
  | .sendFailed p e =>
    match a.pc with
    | .send n => if p = blockPacket x xs (a.base + n + 1) then some (a.finish x xs .sendError e) else none
    | _ => none
  | .received p =>
    match a.pc with
    | .recv => some (a.received x xs p)
    | _ => none
  | .recvFailed e =>
    match a.pc with
    | .recv => some (a.finish x xs .recvError e)
    | _ => none
  | .timeout =>
    match a.pc with
    | .recv => some { a with pc := .retryEnter true }
    | _ => none
  | .released =>
    match a.pc with
    | .release =>
      let a' := { a with base := a.base + width x xs a.base }
      some (if a'.base = blockCount x.blocksize xs then a'.finish x xs .ok 0
        else { a' with pc := .readWindow })
    | _ => none

/-- The steps of the sender, one by one. -/
inductive Move (a : Sending) : SendLabel → Sending → Prop where
  | thread : Move a .thread a
  | window (hpc : a.pc = .readWindow) :
    Move a (.window (width x xs a.base)
      (decide (a.base + width x xs a.base = blockCount x.blocksize xs))) { a with pc := .retryEnter false }
  | windowFailed (hpc : a.pc = .readWindow) (hbad : a.readError = true) (e : ℤ) :
    Move a (.windowFailed e) (a.finish x xs .readError (orEio e))
  | entered (r : Bool) (hpc : a.pc = .retryEnter r) : Move a (.entered r) (a.sendFrom x xs 0)
  | sent (n : ℕ) (hpc : a.pc = .send n) :
    Move a (.sent (blockPacket x xs (a.base + n + 1))) (a.sendFrom x xs (n + 1))
  | sendFailed (n : ℕ) (hpc : a.pc = .send n) (e : ℤ) :
    Move a (.sendFailed (blockPacket x xs (a.base + n + 1)) e) (a.finish x xs .sendError e)
  | received (hpc : a.pc = .recv) (p : Packet) : Move a (.received p) (a.received x xs p)
  | recvFailed (hpc : a.pc = .recv) (e : ℤ) : Move a (.recvFailed e) (a.finish x xs .recvError e)
  | timeout (hpc : a.pc = .recv) : Move a .timeout { a with pc := .retryEnter true }
  | released (hpc : a.pc = .release) :
    Move a .released
      (if a.base + width x xs a.base = blockCount x.blocksize xs then
        { a with base := a.base + width x xs a.base }.finish x xs .ok 0
      else { a with base := a.base + width x xs a.base, pc := .readWindow })

variable {x xs}

theorem move_of_step {a a' : Sending} {l : SendLabel} (h : a.step x xs l = some a') : Move x xs a l a' := by
  cases l with
  | thread =>
    obtain rfl := Option.some.inj h
    exact .thread
  | window count final =>
    cases hpc : a.pc with
    | readWindow =>
      simp only [step, hpc, Option.ite_none_right_eq_some, Option.some.injEq] at h
      obtain ⟨⟨rfl, rfl⟩, rfl⟩ := h
      exact .window hpc
    | _ => simp [step, hpc] at h
  | windowFailed e =>
    cases hpc : a.pc with
    | readWindow =>
      simp only [step, hpc, Option.ite_none_right_eq_some, Option.some.injEq] at h
      obtain ⟨hbad, rfl⟩ := h
      exact .windowFailed hpc hbad e
    | _ => simp [step, hpc] at h
  | entered restarted =>
    cases hpc : a.pc with
    | retryEnter r =>
      simp only [step, hpc, Option.ite_none_right_eq_some, Option.some.injEq] at h
      obtain ⟨rfl, rfl⟩ := h
      exact .entered _ hpc
    | _ => simp [step, hpc] at h
  | sent p =>
    cases hpc : a.pc with
    | send n =>
      simp only [step, hpc, Option.ite_none_right_eq_some, Option.some.injEq] at h
      obtain ⟨rfl, rfl⟩ := h
      exact .sent _ hpc
    | _ => simp [step, hpc] at h
  | sendFailed p e =>
    cases hpc : a.pc with
    | send n =>
      simp only [step, hpc, Option.ite_none_right_eq_some, Option.some.injEq] at h
      obtain ⟨rfl, rfl⟩ := h
      exact .sendFailed _ hpc e
    | _ => simp [step, hpc] at h
  | received p =>
    cases hpc : a.pc with
    | recv =>
      simp only [step, hpc, Option.some.injEq] at h
      subst h
      exact .received hpc p
    | _ => simp [step, hpc] at h
  | recvFailed e =>
    cases hpc : a.pc with
    | recv =>
      simp only [step, hpc, Option.some.injEq] at h
      subst h
      exact .recvFailed hpc e
    | _ => simp [step, hpc] at h
  | timeout =>
    cases hpc : a.pc with
    | recv =>
      simp only [step, hpc, Option.some.injEq] at h
      subst h
      exact .timeout hpc
    | _ => simp [step, hpc] at h
  | released =>
    cases hpc : a.pc with
    | release =>
      simp only [step, hpc, Option.some.injEq] at h
      subst h
      exact .released hpc
    | _ => simp [step, hpc] at h

/-- From packet `n` on, the rest of the window goes out before the sender waits. -/
theorem run_sends {a : Sending} {n : ℕ} (k : ℕ) (hpc : a.pc = .send n) (hk : n + k + 1 = width x xs a.base) :
    Transition.run (step x xs) a
      ((List.range' n (k + 1)).map fun m => .sent (blockPacket x xs (a.base + m + 1))) =
        some { a with pc := .recv } := by
  induction k generalizing a n with
  | zero => simp [step, hpc, sendFrom, ← hk]
  | succ k ih =>
    have hs : step x xs a (.sent (blockPacket x xs (a.base + n + 1))) = some { a with pc := .send (n + 1) } := by
      simp [step, hpc, sendFrom, show n + 1 < width x xs a.base by omega]
    rw [List.range'_succ, List.map_cons, Transition.run_cons, hs]
    exact ih (a := { a with pc := .send (n + 1) }) rfl (by show n + 1 + k + 1 = width x xs a.base; omega)

/-- The ACK of the last block releases the window. -/
theorem received_last (a : Sending) :
    a.received x xs (ackPacket (blockNumber x.rollover (a.base + width x xs a.base))) =
      { a with pc := .release } := by
  simp [received]

variable (x xs) in
/-- What a datagram can do to a waiting sender. -/
theorem received_cases (a : Sending) (p : Packet) :
    a.received x xs p = a ∨
    (p.opcode = Opcode.error.code ∧ a.received x xs p = a.finish x xs .peerError 0 (some p)) ∨
    (p.opcode = Opcode.ack.code ∧ p.block = blockNumber x.rollover (a.base + width x xs a.base) ∧
      a.received x xs p = { a with pc := .release }) ∨
    (p.opcode = Opcode.oack.code ∧ a.received x xs p = { a with pc := .send 0 }) ∨
    ∃ n, n + 1 < width x xs a.base ∧ p.opcode = Opcode.ack.code ∧
      p.block = blockNumber x.rollover (a.base + n + 1) ∧
      a.received x xs p = { a with pc := .send (n + 1) } := by
  unfold received
  split_ifs with h4 herr hack hoack hack'
  · exact .inl rfl
  · exact .inr (.inl ⟨herr, rfl⟩)
  · exact .inr (.inr (.inl ⟨hack.1, hack.2, rfl⟩))
  · exact .inr (.inr (.inr (.inl ⟨hoack.1, rfl⟩)))
  · cases hf : (List.range (width x xs a.base - 1)).find?
        fun n => p.block = blockNumber x.rollover (a.base + n + 1) with
    | none => exact .inl rfl
    | some n =>
      have hn := List.mem_range.mp (List.mem_of_find?_eq_some hf)
      have hp := List.find?_some hf
      exact .inr (.inr (.inr (.inr ⟨n, by omega, hack', of_decide_eq_true hp, rfl⟩)))
  · exact .inl rfl

theorem step_readError {a a' : Sending} {l : SendLabel} (h : a.step x xs l = some a') :
    a'.readError = a.readError := by
  cases move_of_step h with
  | received hpc p =>
    rcases a.received_cases x xs p with he | ⟨-, he⟩ | ⟨-, -, he⟩ | ⟨-, he⟩ | ⟨n, -, -, -, he⟩ <;>
      simp [he, finish]
  | released hpc => split_ifs <;> rfl
  | _ => rfl

end

end Sending

/-! ### The window in the ring -/

/-- The engine holds the window after `base` with its headers stamped. -/
structure HoldsWindow (x : Xfer) (xs : Bytes) (base : ℕ) (s : SendState) : Prop where
  held_eq : s.io.held = Sending.width x xs base
  count_eq : s.packetCount = Sending.width x xs base
  width_pos : 0 < Sending.width x xs base
  final_iff : s.final = true ↔ base + Sending.width x xs base = blockCount x.blocksize xs
  block_eq : s.block = blockNumber x.rollover (base + Sending.width x xs base + 1)
  stamped : ∀ n < Sending.width x xs base, ∃ dp, s.io.readPacket n = some dp ∧
    dp.opcode = Opcode.data.code ∧ dp.block = blockNumber x.rollover (base + n + 1)

/-- Labels of the reader thread and of `read_window`. -/
def SendLabel.ofRing : SendLabel → Bool
  | .thread | .window _ _ | .windowFailed _ => true
  | _ => false

/-- What holds in addition, by program counter. -/
def SendState.Phase (x : Xfer) (xs : Bytes) (base : ℕ) (s : SendState) : Prop :=
  match s.pc with
  | .readWindow => base < blockCount x.blocksize xs ∧ s.block = blockNumber x.rollover (base + 1) ∧
      s.bytes = Sending.bytesOf x xs base
  | .retryEnter _ | .recv => HoldsWindow x xs base s ∧ s.bytes = Sending.bytesOf x xs base
  | .send n => HoldsWindow x xs base s ∧ s.bytes = Sending.bytesOf x xs base ∧
      n < Sending.width x xs base
  | .release => HoldsWindow x xs base s ∧
      s.bytes = Sending.bytesOf x xs (base + Sending.width x xs base)
  | .done _ => True

/-- The sender over the ring stands where the sender over the stream stands. -/
structure SendRefines (x : Xfer) (xs : Bytes) (s : SendState) (a : Sending) : Prop where
  reader : ReaderInv xs a.base s.io s.thread
  blocksize_eq : s.io.blocksize = x.blocksize
  window_eq : s.io.window = x.windowsize
  readError_eq : s.io.file.readError = a.readError
  pc_eq : s.pc = a.pc
  phase : s.Phase x xs a.base

variable {x : Xfer} {xs : Bytes} {base : ℕ} {s : SendState} {a : Sending}

private theorem uint64_ofInt_natCast (n : ℕ) : UInt64.ofInt n = UInt64.ofNat n := by
  apply UInt64.toNat_inj.mp
  rw [UInt64.ofInt, UInt64.toNat_ofNat', UInt64.toNat_ofNat']
  omega

namespace HoldsWindow

/-- The reader thread and the program counter do not show in the window. -/
theorem congr (h : HoldsWindow x xs base s) {io : TftpIo} (hio : SameWindow s.io io)
    {thread : ReaderThread} {bytes : UInt64} {pc : SendPc} :
    HoldsWindow x xs base { s with io, thread, bytes, pc } where
  held_eq := hio.held_eq.trans h.held_eq
  count_eq := h.count_eq
  width_pos := h.width_pos
  final_iff := h.final_iff
  block_eq := h.block_eq
  stamped n hn := by
    obtain ⟨dp, hdp, hh⟩ := h.stamped n hn
    exact ⟨dp, (hio.readPacket_eq n).trans hdp, hh⟩

theorem readLength (h : HoldsWindow x xs base s) (hr : ReaderInv xs base s.io s.thread)
    (hbs : s.io.blocksize = x.blocksize) {n : ℕ} (hn : n < Sending.width x xs base) :
    s.io.readLength n = some ((block x.blocksize xs (base + n)).length + 4) := by
  have hheld : n < s.io.held := by rw [h.held_eq]; exact hn
  rw [TftpIo.readLength, if_pos hheld, hr.lengths_eq n (lt_of_lt_of_le hheld hr.held_le), hbs]

/-- What `send` is called with is the packet of the block, however often it is sent. -/
theorem packetAt (h : HoldsWindow x xs base s) (hr : ReaderInv xs base s.io s.thread)
    (hbs : s.io.blocksize = x.blocksize) {n : ℕ} (hn : n < Sending.width x xs base) :
    s.packetAt n = some (blockPacket x xs (base + n + 1)) := by
  obtain ⟨dp, hdp, hop, hblk⟩ := h.stamped n hn
  have hheld : n < s.io.held := by rw [h.held_eq]; exact hn
  have hdata := hr.data_eq n (lt_of_lt_of_le hheld hr.held_le)
  have hslot : s.io.packets (s.io.slot n) = dp := by
    rw [TftpIo.readPacket, if_pos hheld] at hdp
    exact Option.some.inj hdp
  rw [hslot, hbs] at hdata
  rw [SendState.packetAt, hdp, h.readLength hr hbs hn]
  simp only [Tftphdr.bytes, hop, hblk, blockPacket, dataPacket, header, Nat.add_sub_cancel]
  rw [List.take_append, List.take_of_length_le (by simp), ← hdata]
  simp [hdata]

theorem sendFrom_eq (h : HoldsWindow x xs base s) (hr : ReaderInv xs base s.io s.thread)
    (hbs : s.io.blocksize = x.blocksize) (n : ℕ) :
    sendFrom x s n = { s with pc := if n < Sending.width x xs base then .send n else .recv } := by
  by_cases hn : n < Sending.width x xs base
  · obtain ⟨dp, hdp, -⟩ := h.stamped n hn
    have hlen := Blocks.block_length_le x.blocksize xs (base + n)
    rw [sendFrom, h.count_eq, if_pos hn, if_pos hn, hdp, h.readLength hr hbs hn]
    exact if_neg (by omega)
  · rw [sendFrom, h.count_eq, if_neg hn, if_neg hn]

theorem scanAck_eq (h : HoldsWindow x xs base s) (number : UInt16) (k n : ℕ)
    (hk : n + k ≤ Sending.width x xs base) :
    scanAck s.io number k n =
      .ok ((List.range' n k).find? fun n => number = blockNumber x.rollover (base + n + 1)) := by
  induction k generalizing n with
  | zero => rfl
  | succ k ih =>
    obtain ⟨dp, hdp, -, hblk⟩ := h.stamped n (by omega)
    rw [scanAck, hdp, List.range'_succ, List.find?_cons]
    by_cases he : number = blockNumber x.rollover (base + n + 1)
    · simp [hblk, he]
    · simp [hblk, he, ih (n + 1) (by omega)]

theorem addLengths_eq (h : HoldsWindow x xs base s) (hr : ReaderInv xs base s.io s.thread)
    (hbs : s.io.blocksize = x.blocksize) (k n : ℕ) (hk : n + k ≤ Sending.width x xs base) :
    addLengths s.io k n (Sending.bytesOf x xs (base + n)) = Sending.bytesOf x xs (base + n + k) := by
  induction k generalizing n with
  | zero => rfl
  | succ k ih =>
    have hsum : Sending.bytesOf x xs (base + n) +
        UInt64.ofInt (((block x.blocksize xs (base + n)).length + 4 : ℕ) - 4 : ℤ) =
          Sending.bytesOf x xs (base + (n + 1)) := by
      rw [Sending.bytesOf, Sending.bytesOf, ← Nat.add_assoc, Blocks.take_succ_mul, List.length_append,
        UInt64.ofNat_add]
      congr 1
      rw [show (((block x.blocksize xs (base + n)).length + 4 : ℕ) - 4 : ℤ) =
        ((block x.blocksize xs (base + n)).length : ℤ) by omega]
      exact uint64_ofInt_natCast _
    rw [addLengths, h.readLength hr hbs (by omega)]
    simp only [hsum]
    rw [ih (n + 1) (by omega)]
    congr 1
    omega

end HoldsWindow

/-! ### Stamping -/

/-- Stamping the headers from packet `n` on. -/
theorem stampWindow_eq (k n : ℕ) {io : TftpIo} {thread : ReaderThread} (hr : ReaderInv xs base io thread)
    (hk : n + k = io.held)
    (hdone : ∀ m < n, ∃ dp, io.readPacket m = some dp ∧ dp.opcode = Opcode.data.code ∧
      dp.block = blockNumber x.rollover (base + m + 1)) :
    ∃ io', stampWindow x k n io (blockNumber x.rollover (base + n + 1)) =
        some (io', blockNumber x.rollover (base + io.held + 1)) ∧
      ReaderInv xs base io' thread ∧ io'.held = io.held ∧ io'.blocksize = io.blocksize ∧
      io'.window = io.window ∧ io'.file.readError = io.file.readError ∧
      ∀ m < io.held, ∃ dp, io'.readPacket m = some dp ∧ dp.opcode = Opcode.data.code ∧
        dp.block = blockNumber x.rollover (base + m + 1) := by
  induction k generalizing n io with
  | zero =>
    obtain rfl : n = io.held := hk
    exact ⟨io, rfl, hr, rfl, rfl, rfl, rfl, hdone⟩
  | succ k ih =>
    have hn : n < io.held := by omega
    have hread : io.readPacket n = some (io.packets (io.slot n)) := by rw [TftpIo.readPacket, if_pos hn]
    rw [stampWindow, hread, ← blockNumber_succ]
    set io₁ := io.writeHeader n Opcode.data.code (blockNumber x.rollover (base + n + 1)) with hio₁
    have hdone₁ : ∀ m < n + 1, ∃ dp, io₁.readPacket m = some dp ∧ dp.opcode = Opcode.data.code ∧
        dp.block = blockNumber x.rollover (base + m + 1) := by
      intro m hm
      by_cases he : m = n
      · subst he
        exact ⟨_, TftpIo.readPacket_writeHeader_self hn _ _, rfl, rfl⟩
      · rw [hio₁, hr.readPacket_writeHeader_of_ne hn he]
        exact hdone m (by omega)
    exact ih (n + 1) (hr.writeHeader n _ _) (by show n + 1 + k = io.held; omega) hdone₁

/-! ### The refinement -/

namespace SendRefines

/-- A step that only moves the program counter. -/
theorem goto (h : SendRefines x xs s a) {pc : SendPc} {bytes : UInt64}
    (hphase : SendState.Phase x xs a.base { s with pc, bytes }) :
    SendRefines x xs { s with pc, bytes } { a with pc } :=
  ⟨h.reader, h.blocksize_eq, h.window_eq, h.readError_eq, rfl, hphase⟩

theorem finish (h : SendRefines x xs s a) (hbytes : s.bytes = Sending.bytesOf x xs a.base)
    (status : XferStatus) (error : ℤ) (packet : Option Packet) :
    SendRefines x xs (s.finish status error packet) (a.finish x xs status error packet) := by
  rw [SendState.finish, Sending.finish, ← hbytes]
  exact h.goto trivial

theorem sendFrom (h : SendRefines x xs s a) (hw : HoldsWindow x xs a.base s)
    (hbytes : s.bytes = Sending.bytesOf x xs a.base) (n : ℕ) :
    SendRefines x xs (TftpHpa.sendFrom x s n) (a.sendFrom x xs n) := by
  rw [hw.sendFrom_eq h.reader h.blocksize_eq, Sending.sendFrom]
  refine h.goto ?_
  by_cases hn : n < Sending.width x xs a.base
  · simp only [if_pos hn]
    exact ⟨hw.congr (.refl _), hbytes, hn⟩
  · simp only [if_neg hn]
    exact ⟨hw.congr (.refl _), hbytes⟩

theorem received (h : SendRefines x xs s a) (hpc : a.pc = .recv) (p : Packet) :
    SendRefines x xs (sendReceived x s p) (a.received x xs p) := by
  have hph := h.phase
  rw [SendState.Phase, h.pc_eq, hpc] at hph
  obtain ⟨hw, hbytes⟩ := hph
  have hpos := hw.width_pos
  obtain ⟨dp, hdp, -, hblk⟩ := hw.stamped (Sending.width x xs a.base - 1) (by omega)
  have hlast : a.base + (Sending.width x xs a.base - 1) + 1 = a.base + Sending.width x xs a.base := by omega
  rw [hlast] at hblk
  rw [sendReceived, Sending.received, hw.count_eq, hdp]
  simp only [hblk]
  split_ifs with h4 herr hack hoack hack'
  · exact h
  · exact h.finish hbytes _ _ _
  · -- the window is acknowledged
    have hsum := hw.addLengths_eq h.reader h.blocksize_eq (Sending.width x xs a.base) 0 (by omega)
    rw [Nat.add_zero, ← hbytes] at hsum
    rw [← hw.count_eq]
    refine h.goto ⟨hw.congr (.refl _), ?_⟩
    rw [hw.count_eq]
    exact hsum
  · have hs := h.sendFrom hw hbytes 0
    rwa [Sending.sendFrom, if_pos hpos] at hs
  · rw [hw.scanAck_eq _ _ _ (by omega), ← List.range_eq_range']
    cases hfind : (List.range (Sending.width x xs a.base - 1)).find?
        fun n => p.block = blockNumber x.rollover (a.base + n + 1) with
    | none => exact h
    | some n =>
      have hn := List.mem_range.mp (List.mem_of_find?_eq_some hfind)
      have hs := h.sendFrom hw hbytes (n + 1)
      rwa [Sending.sendFrom, if_pos (by omega)] at hs
  · exact h

/-- A new window is stamped and sent from its start. -/
theorem window (h : SendRefines x xs s a) (hpc : a.pc = .readWindow) {count : ℕ} {final : Bool}
    {io : TftpIo} (hread : s.io.readWindow = some (.ok (count, final), io)) :
    count = Sending.width x xs a.base ∧
      final = decide (a.base + Sending.width x xs a.base = blockCount x.blocksize xs) ∧
      SendRefines x xs (sendWindow x s io count final) { a with pc := .retryEnter false } := by
  have hph := h.phase
  rw [SendState.Phase, h.pc_eq, hpc] at hph
  obtain ⟨hlt, hblock, hbytes⟩ := hph
  obtain ⟨hinv, hwin, hbs, hbad, hres⟩ := h.reader.readWindow (by rw [h.blocksize_eq]; exact hlt) hread
  rw [h.blocksize_eq, h.window_eq] at hres
  obtain ⟨k, f, hok, hheld, hk, hpos, hfin⟩ := hres.resolve_left fun ⟨e, he, _⟩ => by cases he
  obtain ⟨rfl, rfl⟩ : count = k ∧ final = f := by
    simpa using hok
  change count = Sending.width x xs a.base at hk
  have hle : count ≤ x.windowsize := by rw [hk]; exact min_le_left _ _
  refine ⟨hk, by rw [← hk, Bool.eq_iff_iff, decide_eq_true_eq]; exact hfin, ?_⟩
  obtain ⟨io', hstamp, hinv', hheld', hbs', hwin', hbad', hall⟩ :=
    stampWindow_eq (x := x) count 0 hinv (by omega) (fun m hm => absurd hm (Nat.not_lt_zero m))
  rw [hheld] at hstamp hheld' hall
  rw [sendWindow]
  simp only [hblock]
  rw [if_neg (by omega)]
  rw [Nat.add_zero] at hstamp
  simp only [hstamp]
  refine ⟨hinv', by rw [hbs', hbs, h.blocksize_eq], by rw [hwin', hwin, h.window_eq],
    by rw [hbad', hbad, h.readError_eq], rfl, ?_, hbytes⟩
  rw [hk] at hheld' hpos hfin hall
  exact ⟨hheld', hk, hpos, hfin, by rw [hk], hall⟩

theorem released (h : SendRefines x xs s a) (hpc : a.pc = .release) :
    ∃ a' s', sendStep x s .released = some s' ∧ a.step x xs .released = some a' ∧
      SendRefines x xs s' a' := by
  have hph := h.phase
  rw [SendState.Phase, h.pc_eq, hpc] at hph
  obtain ⟨hw, hbytes⟩ := hph
  obtain ⟨hinv, hheld, hwin, hbs, hbad⟩ := h.reader.readRelease
  rw [hw.held_eq] at hinv
  have hfin := hw.final_iff
  have hcount : a.base + Sending.width x xs a.base ≤ blockCount x.blocksize xs := by
    have := hw.width_pos
    simp only [Sending.width] at this ⊢
    omega
  simp only [sendStep, h.pc_eq, hpc, Sending.step]
  refine ⟨_, _, rfl, rfl, ?_⟩
  by_cases hf : a.base + Sending.width x xs a.base = blockCount x.blocksize xs
  · rw [if_pos (hfin.mpr hf), if_pos hf, SendState.finish, Sending.finish]
    exact ⟨hinv, hbs.trans h.blocksize_eq, hwin.trans h.window_eq, hbad.trans h.readError_eq,
      by simp [hbytes], trivial⟩
  · rw [if_neg (fun hh => hf (hfin.mp hh)), if_neg hf]
    exact ⟨hinv, hbs.trans h.blocksize_eq, hwin.trans h.window_eq, hbad.trans h.readError_eq, rfl,
      lt_of_le_of_ne hcount hf, hw.block_eq, hbytes⟩

/-- Every step of the engine over the ring is the same step over the stream. -/
theorem step (h : SendRefines x xs s a) {l : SendLabel} {s' : SendState}
    (hs : sendStep x s l = some s') : ∃ a', a.step x xs l = some a' ∧ SendRefines x xs s' a' := by
  have hph := h.phase
  simp only [SendState.Phase, h.pc_eq] at hph
  cases l with
  | thread =>
    obtain ⟨⟨io, thread⟩, hr, rfl⟩ := Option.map_eq_some_iff.mp hs
    obtain ⟨hinv, hsame⟩ := h.reader.readerThread hr
    refine ⟨a, rfl, hinv, hsame.blocksize_eq.trans h.blocksize_eq, hsame.window_eq.trans h.window_eq,
      hsame.readError_eq.trans h.readError_eq, h.pc_eq, ?_⟩
    simp only [SendState.Phase, h.pc_eq]
    cases hpc : a.pc <;> simp only [hpc] at hph <;> try exact ⟨hph.1.congr hsame, hph.2⟩
    · exact hph
    · trivial
  | window count final =>
    cases hpc : a.pc with
    | readWindow =>
      simp only [sendStep, h.pc_eq, hpc] at hs
      split at hs
      · rename_i r io hpc' hread
        split_ifs at hs with hr
        obtain rfl := Option.some.inj hs
        subst hr
        obtain ⟨hk, hf, href⟩ := h.window hpc hread
        exact ⟨_, by simp only [Sending.step, hpc]; rw [if_pos ⟨hk, hf⟩], href⟩
      · cases hs
    | _ => simp [sendStep, h.pc_eq, hpc] at hs
  | windowFailed e =>
    cases hpc : a.pc with
    | readWindow =>
      simp only [hpc] at hph
      simp only [sendStep, h.pc_eq, hpc] at hs
      split at hs
      · rename_i e' io hpc' hread
        split_ifs at hs with he
        obtain rfl := Option.some.inj hs
        obtain ⟨hinv, hwin, hbs, hbad, hres⟩ :=
          h.reader.readWindow (by rw [h.blocksize_eq]; exact hph.1) hread
        have herr : a.readError = true := by
          rcases hres with ⟨-, -, hbad⟩ | ⟨k, f, hk, -⟩
          · exact h.readError_eq.symm.trans hbad
          · cases hk
        refine ⟨a.finish x xs .readError (orEio e), by simp only [Sending.step, hpc, herr, if_true], hinv,
          hbs.trans h.blocksize_eq, hwin.trans h.window_eq, hbad.trans h.readError_eq, ?_, trivial⟩
        simp [SendState.finish, Sending.finish, hph.2.2]
      · cases hs
    | _ => simp [sendStep, h.pc_eq, hpc] at hs
  | entered restarted =>
    cases hpc : a.pc with
    | retryEnter r =>
      simp only [hpc] at hph
      simp only [sendStep, h.pc_eq, hpc] at hs
      split_ifs at hs with hr
      obtain rfl := Option.some.inj hs
      exact ⟨_, by simp only [Sending.step, hpc]; rw [if_pos hr], h.sendFrom hph.1 hph.2 0⟩
    | _ => simp [sendStep, h.pc_eq, hpc] at hs
  | sent p =>
    cases hpc : a.pc with
    | send n =>
      simp only [hpc] at hph
      obtain ⟨hw, hbytes, hn⟩ := hph
      simp only [sendStep, h.pc_eq, hpc, hw.packetAt h.reader h.blocksize_eq hn] at hs
      split_ifs at hs with hp
      obtain rfl := Option.some.inj hs
      exact ⟨_, by simp only [Sending.step, hpc]; rw [if_pos (Option.some.inj hp).symm],
        h.sendFrom hw hbytes (n + 1)⟩
    | _ => simp [sendStep, h.pc_eq, hpc] at hs
  | sendFailed p e =>
    cases hpc : a.pc with
    | send n =>
      simp only [hpc] at hph
      obtain ⟨hw, hbytes, hn⟩ := hph
      simp only [sendStep, h.pc_eq, hpc, hw.packetAt h.reader h.blocksize_eq hn] at hs
      split_ifs at hs with hp
      obtain rfl := Option.some.inj hs
      exact ⟨_, by simp only [Sending.step, hpc]; rw [if_pos (Option.some.inj hp).symm],
        h.finish hbytes _ _ _⟩
    | _ => simp [sendStep, h.pc_eq, hpc] at hs
  | received p =>
    cases hpc : a.pc with
    | recv =>
      simp only [sendStep, h.pc_eq, hpc, Option.some.injEq] at hs
      exact ⟨_, by simp only [Sending.step, hpc], hs ▸ h.received hpc p⟩
    | _ => simp [sendStep, h.pc_eq, hpc] at hs
  | recvFailed e =>
    cases hpc : a.pc with
    | recv =>
      simp only [hpc] at hph
      simp only [sendStep, h.pc_eq, hpc, Option.some.injEq] at hs
      exact ⟨_, by simp only [Sending.step, hpc], hs ▸ h.finish hph.2 _ _ _⟩
    | _ => simp [sendStep, h.pc_eq, hpc] at hs
  | timeout =>
    cases hpc : a.pc with
    | recv =>
      simp only [hpc] at hph
      simp only [sendStep, h.pc_eq, hpc, Option.some.injEq] at hs
      refine ⟨_, by simp only [Sending.step, hpc], hs ▸ h.goto ?_⟩
      exact ⟨hph.1.congr (.refl _), hph.2⟩
    | _ => simp [sendStep, h.pc_eq, hpc] at hs
  | released =>
    cases hpc : a.pc with
    | release =>
      obtain ⟨a', s'', hs', ha', href⟩ := h.released hpc
      obtain rfl := Option.some.inj (hs.symm.trans hs')
      exact ⟨a', ha', href⟩
    | _ => simp [sendStep, h.pc_eq, hpc] at hs

/-- What the sender over the stream may do next, the sender over the ring may do,
unless it depends on the ring when it is done. -/
theorem enabled (h : SendRefines x xs s a) {l : SendLabel} (hl : l.ofRing = false) {a' : Sending}
    (ha : a.step x xs l = some a') : ∃ s', sendStep x s l = some s' ∧ SendRefines x xs s' a' := by
  suffices hs : ∃ s', sendStep x s l = some s' by
    obtain ⟨s', hs⟩ := hs
    obtain ⟨a'', ha', href⟩ := h.step hs
    obtain rfl := Option.some.inj (ha.symm.trans ha')
    exact ⟨s', hs, href⟩
  have hph := h.phase
  simp only [SendState.Phase, h.pc_eq] at hph
  cases hp : a.pc with
  | readWindow => cases l <;> simp_all [Sending.step, SendLabel.ofRing]
  | retryEnter r => cases l <;> simp_all [Sending.step, sendStep, h.pc_eq, SendLabel.ofRing]
  | send n =>
    simp only [hp] at hph
    have hpk := hph.1.packetAt h.reader h.blocksize_eq hph.2.2
    cases l <;> simp_all [Sending.step, sendStep, h.pc_eq, SendLabel.ofRing]
  | recv => cases l <;> simp_all [Sending.step, sendStep, h.pc_eq, SendLabel.ofRing]
  | release => cases l <;> simp_all [Sending.step, sendStep, h.pc_eq, SendLabel.ofRing]
  | done r => cases l <;> simp_all [Sending.step, SendLabel.ofRing]

theorem enabled_run (h : SendRefines x xs s a) {t : List SendLabel} (ht : ∀ l ∈ t, l.ofRing = false)
    {a' : Sending} (ha : Transition.run (Sending.step x xs) a t = some a') :
    ∃ s', Transition.run (sendStep x) s t = some s' ∧ SendRefines x xs s' a' := by
  induction t generalizing s a with
  | nil => exact ⟨s, rfl, Option.some.inj ha ▸ h⟩
  | cons l t ih =>
    obtain ⟨a₁, ha₁, ha⟩ := Option.bind_eq_some_iff.mp ha
    obtain ⟨s₁, hs₁, h₁⟩ := h.enabled (ht l (by simp)) ha₁
    obtain ⟨s', hs', h'⟩ := ih h₁ (fun m hm => ht m (by simp [hm])) ha
    exact ⟨s', by simp [hs₁, hs'], h'⟩

/-- On a sound file the thread, if there is one, lets the next window come. -/
theorem reaches_window (h : SendRefines x xs s a) (hpc : a.pc = .readWindow) (hgood : a.readError = false) :
    ∃ s', Transition.Reaches (sendStep x) (fun l => l = .thread ∨ ∃ k f, l = .window k f) s s' ∧
      SendRefines x xs s' { a with pc := .retryEnter false } := by
  obtain ⟨-, s₁, hr, ⟨-, h₁⟩, hready⟩ := Transition.Reaches.progress (sendStep x)
    (P := fun l => l = .thread ∨ ∃ k f, l = .window k f)
    (fun n s => n = TftpIo.threadRank s.io s.thread ∧ SendRefines x xs s a)
    (fun s => s.io.readWindow ≠ none)
    (fun n s ⟨hn, h⟩ hg => by
      obtain ⟨io', th', hth, hlt⟩ :=
        h.reader.readerThread_of_wait (h.readError_eq.trans hgood) (not_not.mp hg)
      have hs : sendStep x s .thread = some { s with io := io', thread := th' } := by
        simp [sendStep, hth]
      obtain ⟨a', ha, href⟩ := h.step hs
      obtain rfl := Option.some.inj ha
      exact ⟨_, hn ▸ hlt, _, .single (.inl rfl) hs, rfl, href⟩) ⟨rfl, h⟩
  obtain ⟨⟨r, io⟩, hread⟩ := Option.ne_none_iff_exists'.mp hready
  have hph := h₁.phase
  rw [SendState.Phase, h₁.pc_eq, hpc] at hph
  obtain ⟨-, -, -, -, hres⟩ := h₁.reader.readWindow (by rw [h₁.blocksize_eq]; exact hph.1) hread
  rcases hres with ⟨e, -, hbad⟩ | ⟨k, f, rfl, -⟩
  · exact absurd hbad (by rw [h₁.readError_eq, hgood]; decide)
  · obtain ⟨-, -, href⟩ := h₁.window hpc hread
    have hs : sendStep x s₁ (.window k f) = some (sendWindow x s₁ io k f) := by
      simp [sendStep, h₁.pc_eq, hpc, hread]
    exact ⟨_, hr.trans (.single (.inr ⟨k, f, rfl⟩) hs), href⟩

end SendRefines

/-- `tftp_xfer_send` starts before the first block of the file. -/
theorem sendRefines_init {file : File} {convert threaded : Bool} {slots : ℕ} {io : TftpIo}
    (hw : 0 < x.windowsize)
    (hio : TftpIo.readerStart file convert x.windowsize slots x.blocksize threaded = some io) :
    SendRefines x (file.stream convert) (sendInit io) { readError := file.readError } := by
  rw [TftpIo.readerStart, TftpIo.ioStart] at hio
  split_ifs at hio with hbad
  obtain rfl := Option.some.inj hio
  simp only [true_and, not_or, not_lt] at hbad
  refine ⟨ReaderInv.init (by omega) hw (by omega) ?_, rfl, rfl, rfl, rfl, ?_⟩
  · cases convert <;> rfl
  · exact ⟨Blocks.blockCount_pos _ _, (blockNumber_one _).symm, by simp [sendInit, Sending.bytesOf]⟩

/-- Every run of the engine over the ring is a run over the stream. -/
theorem SendRefines.run (h : SendRefines x xs s a) {t : List SendLabel} {s' : SendState}
    (hrun : Transition.run (sendStep x) s t = some s') :
    ∃ a', Transition.run (Sending.step x xs) a t = some a' ∧ SendRefines x xs s' a' :=
  Transition.run_invariant (fun t s' => ∃ a', Transition.run (Sending.step x xs) a t = some a' ∧
    SendRefines x xs s' a') ⟨a, rfl, h⟩
    (fun t s₁ l s₂ ⟨a₁, hr, h₁⟩ hs => by
      obtain ⟨a₂, ha, h₂⟩ := h₁.step hs
      exact ⟨a₂, Transition.run_concat_eq_some.mpr ⟨a₁, hr, ha⟩, h₂⟩) hrun

end TftpHpa
