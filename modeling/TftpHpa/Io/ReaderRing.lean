import TftpHpa.Io.Reader

/-! What the reading ring holds. `RingInv xs rel io` says that of the blocks of the
stream `xs` the first `rel` have been released and the next `io.count` are in the
slots from the head on, with their lengths; `ReaderInv` adds what the reader thread
is about to do. Every operation keeps the invariant, and the thread never touches a
slot of the window that the engine holds. -/

namespace TftpHpa.TftpIo

open Blocks (block blockCount)

/-- The ring holds blocks `rel`, `rel + 1`, ... of `xs`. -/
structure RingInv (xs : Bytes) (rel : ℕ) (io : TftpIo) : Prop where
  blocksize_pos : 0 < io.blocksize
  window_pos : 0 < io.window
  window_le : io.window ≤ io.slots
  head_lt : io.head < io.slots
  tail_eq : io.tail = io.slot io.count
  held_le : io.held ≤ io.count
  count_le : io.count ≤ io.slots
  running : io.stopped = false
  total_le : rel + io.count ≤ blockCount io.blocksize xs
  eof_iff : io.eof = true ↔ rel + io.count = blockCount io.blocksize xs
  lengths_eq : ∀ i < io.count, io.lengths (io.slot i) = (block io.blocksize xs (rel + i)).length + 4
  data_eq : ∀ i < io.count, (io.packets (io.slot i)).data.take
    (block io.blocksize xs (rel + i)).length = block io.blocksize xs (rel + i)
  error_of : io.error ≠ 0 → io.file.readError = true

variable {xs : Bytes} {rel : ℕ} {io : TftpIo} {th : ReaderThread}

namespace RingInv

theorem slots_pos (h : RingInv xs rel io) : 0 < io.slots := Nat.lt_of_lt_of_le h.window_pos h.window_le

theorem tail_lt (h : RingInv xs rel io) : io.tail < io.slots := by
  rw [h.tail_eq]
  exact Nat.mod_lt _ h.slots_pos

/-- A slot in use is not the tail slot while there is room. -/
theorem slot_ne_tail (h : RingInv xs rel io) (hroom : io.count < io.slots) {i : ℕ} (hi : i < io.count) :
    io.slot i ≠ io.tail := by
  rw [h.tail_eq]
  exact RingIndex.slot_ne (by omega) hroom (by omega)

theorem eof_false_iff (h : RingInv xs rel io) :
    io.eof = false ↔ rel + io.count < blockCount io.blocksize xs := by
  have := h.eof_iff
  have := h.total_le
  cases he : io.eof with
  | true => simp_all
  | false =>
    simp_all only [Bool.false_eq_true, false_iff, true_iff]
    omega

theorem ioNext_tail (h : RingInv xs rel io) : io.ioNext io.tail = io.slot (io.count + 1) := by
  rw [ioNext, RingIndex.next_eq h.tail_lt, h.tail_eq, slot, slot, RingIndex.mod_succ]

/-- Reading a packet into the tail slot leaves the blocks in the ring alone. -/
theorem opsReadPacket (h : RingInv xs rel io) (hroom : io.count < io.slots) :
    RingInv xs rel (io.opsReadPacket io.tail).2 ∧
      (∀ i < io.count, (io.opsReadPacket io.tail).2.packets (io.slot i) = io.packets (io.slot i)) := by
  obtain ⟨rest, newline, prevchar, hio, -, -⟩ := io.opsReadPacket_spec io.tail
  have hslots : ∀ i < io.count,
      (io.opsReadPacket io.tail).2.packets (io.slot i) = io.packets (io.slot i) := by
    intro i hi
    rw [hio]
    exact Function.update_of_ne (h.slot_ne_tail hroom hi) _ _
  refine ⟨?_, hslots⟩
  constructor
  case data_eq =>
    intro i hi
    have hi' : i < io.count := by rw [hio] at hi; exact hi
    have hs : (io.opsReadPacket io.tail).2.slot i = io.slot i := by rw [hio]; rfl
    rw [hs, hslots i hi', hio]
    exact h.data_eq i hi'
  all_goals rw [hio]
  · exact h.blocksize_pos
  · exact h.window_pos
  · exact h.window_le
  · exact h.head_lt
  · exact h.tail_eq
  · exact h.held_le
  · exact h.count_le
  · exact h.running
  · exact h.total_le
  · exact h.eof_iff
  · exact h.lengths_eq
  · exact h.error_of

/-- Once the tail slot holds the next block it can be accounted for. -/
theorem enqueue (h : RingInv xs rel io) (hroom : io.count < io.slots) (heof : io.eof = false)
    {length : ℕ} (hlen : length = (block io.blocksize xs (rel + io.count)).length)
    (hdata : (io.packets io.tail).data.take length = block io.blocksize xs (rel + io.count)) :
    RingInv xs rel (io.enqueue length) := by
  have hlt := h.eof_false_iff.mp heof
  have hslot : ∀ i, (io.enqueue length).slot i = io.slot i := fun i => rfl
  have hsucc : ∀ {i}, i < (io.enqueue length).count → i ≠ io.count → i < io.count := by
    intro i hi hne
    have : i < io.count + 1 := hi
    omega
  constructor
  case tail_eq => exact h.ioNext_tail
  case held_le => exact Nat.le_succ_of_le h.held_le
  case count_le => exact hroom
  case total_le => exact hlt
  case eof_iff =>
    have hs := Blocks.block_short_iff h.blocksize_pos xs hlt
    simp only [TftpIo.enqueue, heof, Bool.false_or, decide_eq_true_eq, hlen, Nat.add_assoc] at hs ⊢
    exact hs
  case lengths_eq =>
    intro i hi
    rw [hslot]
    by_cases he : i = io.count
    · subst he
      simp only [TftpIo.enqueue, h.tail_eq, Function.update_self, hlen]
    · have hi' := hsucc hi he
      simp only [TftpIo.enqueue, Function.update_of_ne (h.slot_ne_tail hroom hi')]
      exact h.lengths_eq i hi'
  case data_eq =>
    intro i hi
    rw [hslot]
    by_cases he : i = io.count
    · subst he
      rw [h.tail_eq, hlen] at hdata
      exact hdata
    · exact h.data_eq i (hsucc hi he)
  · exact h.blocksize_pos
  · exact h.window_pos
  · exact h.window_le
  · exact h.head_lt
  · exact h.running
  · exact h.error_of

theorem ioError (h : RingInv xs rel io) (hbad : io.file.readError = true) (e : ℤ) :
    RingInv xs rel (io.ioError e) := by
  obtain ⟨e', -, he⟩ := io.ioError_eq e
  rw [he]
  exact { h with error_of := fun _ => hbad }

end RingInv

/-! ### The engine's view -/

/-- The held window looks the same through the operations the engine uses. -/
structure SameWindow (io io' : TftpIo) : Prop where
  held_eq : io'.held = io.held
  window_eq : io'.window = io.window
  blocksize_eq : io'.blocksize = io.blocksize
  threaded_eq : io'.threaded = io.threaded
  readError_eq : io'.file.readError = io.file.readError
  readPacket_eq : ∀ n, io'.readPacket n = io.readPacket n
  readLength_eq : ∀ n, io'.readLength n = io.readLength n

theorem SameWindow.refl (io : TftpIo) : SameWindow io io :=
  ⟨rfl, rfl, rfl, rfl, rfl, fun _ => rfl, fun _ => rfl⟩

theorem sameWindow_opsReadPacket (h : RingInv xs rel io) (hroom : io.count < io.slots) :
    SameWindow io (io.opsReadPacket io.tail).2 := by
  have hp := (h.opsReadPacket hroom).2
  obtain ⟨rest, newline, prevchar, hio, -, -⟩ := io.opsReadPacket_spec io.tail
  have hslot : ∀ i, (io.opsReadPacket io.tail).2.slot i = io.slot i := by rw [hio]; exact fun _ => rfl
  have hheld : (io.opsReadPacket io.tail).2.held = io.held := by rw [hio]
  refine ⟨hheld, by rw [hio], by rw [hio], by rw [hio], by rw [hio], fun n => ?_, fun n => ?_⟩
  · rw [readPacket, readPacket, hheld, hslot]
    split_ifs with hn
    · rw [hp n (Nat.lt_of_lt_of_le hn h.held_le)]
    · rfl
  · rw [readLength, readLength, hheld, hslot, hio]

theorem sameWindow_enqueue (h : RingInv xs rel io) (hroom : io.count < io.slots) (length : ℕ) :
    SameWindow io (io.enqueue length) := by
  refine ⟨rfl, rfl, rfl, rfl, rfl, fun n => rfl, fun n => ?_⟩
  simp only [readLength]
  by_cases hn : n < io.held
  · have hne := h.slot_ne_tail hroom (Nat.lt_of_lt_of_le hn h.held_le)
    rw [if_pos hn, if_pos (by exact hn)]
    exact congrArg some (Function.update_of_ne hne _ _)
  · rw [if_neg hn, if_neg (by exact hn)]

/-! ### The thread -/

/-- What the thread has taken from the stream and where it puts it. -/
def ThreadInv (xs : Bytes) (rel : ℕ) (io : TftpIo) : ReaderThread → Prop
  | .locking => io.threaded = true ∧ io.eof = false ∧ io.error = 0 ∧
      io.remaining = xs.drop ((rel + io.count) * io.blocksize)
  | .reading n => io.threaded = true ∧ io.eof = false ∧ io.error = 0 ∧ n = io.tail ∧
      io.count < io.slots ∧ io.remaining = xs.drop ((rel + io.count) * io.blocksize)
  | .storing none => io.threaded = true ∧ io.file.readError = true
  | .storing (some length) => io.threaded = true ∧ io.eof = false ∧ io.error = 0 ∧
      io.count < io.slots ∧ io.remaining = xs.drop ((rel + io.count + 1) * io.blocksize) ∧
      length = (block io.blocksize xs (rel + io.count)).length ∧
      (io.packets io.tail).data.take length = block io.blocksize xs (rel + io.count)
  | .exited => (io.threaded = true → io.eof = true ∨ io.error ≠ 0) ∧
      (io.threaded = false → io.eof = false → io.error = 0 →
        io.remaining = xs.drop ((rel + io.count) * io.blocksize))

structure ReaderInv (xs : Bytes) (rel : ℕ) (io : TftpIo) (th : ReaderThread) : Prop
    extends RingInv xs rel io where
  thread : ThreadInv xs rel io th

/-- The next block is the front of what remains. -/
theorem block_eq_take_remaining (hrem : io.remaining = xs.drop ((rel + io.count) * io.blocksize)) :
    io.remaining.take io.blocksize = block io.blocksize xs (rel + io.count) := by
  rw [hrem, block]

/-- A successful `read_packet` into the tail slot stores the next block there. -/
theorem opsReadPacket_tail (hrem : io.remaining = xs.drop ((rel + io.count) * io.blocksize)) {length : ℕ}
    (hlen : (io.opsReadPacket io.tail).1 = some length) :
    length = (block io.blocksize xs (rel + io.count)).length ∧
      ((io.opsReadPacket io.tail).2.packets io.tail).data.take length =
        block io.blocksize xs (rel + io.count) ∧
      (io.opsReadPacket io.tail).2.remaining = xs.drop ((rel + io.count + 1) * io.blocksize) := by
  obtain ⟨rest, newline, prevchar, hio, hrem', hres⟩ := io.opsReadPacket_spec io.tail
  rw [block_eq_take_remaining hrem] at hres hio
  rw [hlen] at hres
  have hl : length = (block io.blocksize xs (rel + io.count)).length := by
    split_ifs at hres
    exact Option.some.inj hres
  refine ⟨hl, ?_, ?_⟩
  · rw [hio, hl]
    simp only [Function.update_self, store_data_take]
  · rw [hrem', hrem, List.drop_drop, Nat.add_mul (rel + io.count), one_mul]

theorem opsReadPacket_none (h : (io.opsReadPacket io.tail).1 = none) : io.file.readError = true := by
  obtain ⟨rest, newline, prevchar, -, -, hres⟩ := io.opsReadPacket_spec io.tail
  rw [h] at hres
  split_ifs at hres with hc
  exact hc.2

/-- One section of the thread keeps the invariant and the engine's window. -/
theorem ReaderInv.readerThread (h : ReaderInv xs rel io th) {io' : TftpIo} {th' : ReaderThread}
    (hstep : io.readerThread th = some (io', th')) : ReaderInv xs rel io' th' ∧ SameWindow io io' := by
  cases th with
  | locking =>
    obtain ⟨hthr, heof, herr, hrem⟩ := h.thread
    by_cases hfull : io.count = io.slots
    · simp [TftpIo.readerThread, h.running, hfull] at hstep
    · simp only [TftpIo.readerThread, h.running, hfull, false_and, if_false, Bool.false_eq_true,
        Option.some.injEq, Prod.mk.injEq] at hstep
      obtain ⟨rfl, rfl⟩ := hstep
      have hroom : io.count < io.slots := lt_of_le_of_ne h.count_le hfull
      exact ⟨⟨h.toRingInv, hthr, heof, herr, rfl, hroom, hrem⟩, .refl io⟩
  | reading n =>
    obtain ⟨hthr, heof, herr, rfl, hroom, hrem⟩ := h.thread
    simp only [TftpIo.readerThread, Option.some.injEq, Prod.mk.injEq] at hstep
    obtain ⟨rfl, rfl⟩ := hstep
    have hring := (h.toRingInv.opsReadPacket hroom).1
    have hsame := sameWindow_opsReadPacket h.toRingInv hroom
    refine ⟨⟨hring, ?_⟩, hsame⟩
    obtain ⟨rest, newline, prevchar, hio, -, -⟩ := io.opsReadPacket_spec io.tail
    cases hres : (io.opsReadPacket io.tail).1 with
    | none =>
      exact ⟨by rw [hsame.threaded_eq]; exact hthr,
        by rw [hsame.readError_eq]; exact opsReadPacket_none hres⟩
    | some length =>
      obtain ⟨hl, hd, hr⟩ := opsReadPacket_tail hrem hres
      have hc : (io.opsReadPacket io.tail).2.count = io.count := by rw [hio]
      have hb := hsame.blocksize_eq
      have ht : (io.opsReadPacket io.tail).2.tail = io.tail := by rw [hio]
      simp only [ThreadInv, hc, hb, ht]
      exact ⟨by rw [hio]; exact hthr, by rw [hio]; exact heof, by rw [hio]; exact herr,
        by rw [hio]; exact hroom, hr, hl, hd⟩
  | storing length =>
    cases length with
    | none =>
      obtain ⟨hthr, hbad⟩ := h.thread
      simp only [TftpIo.readerThread, Option.some.injEq, Prod.mk.injEq] at hstep
      obtain ⟨rfl, rfl⟩ := hstep
      have hring := h.toRingInv.ioError hbad EIO
      obtain ⟨e, he, hio⟩ := io.ioError_eq EIO
      rw [hio] at hring ⊢
      refine ⟨⟨hring, fun _ => .inr he, fun hf => ?_⟩, ⟨rfl, rfl, rfl, rfl, rfl, fun _ => rfl, fun _ => rfl⟩⟩
      rw [show io.threaded = false from hf] at hthr
      contradiction
    | some length =>
      obtain ⟨hthr, heof, herr, hroom, hrem, hlen, hdata⟩ := h.thread
      simp only [TftpIo.readerThread, Option.some.injEq, Prod.mk.injEq] at hstep
      obtain ⟨rfl, rfl⟩ := hstep
      refine ⟨⟨h.toRingInv.enqueue hroom heof hlen hdata, ?_⟩, sameWindow_enqueue h.toRingInv hroom length⟩
      have hrun : (io.enqueue length).stopped = false := h.running
      rw [hrun, Bool.or_false]
      cases he : (io.enqueue length).eof with
      | true => exact ⟨fun _ => .inl he, fun hf => absurd hthr (by rw [show io.threaded = false from hf]; decide)⟩
      | false => exact ⟨hthr, he, herr, hrem⟩
  | exited => simp [TftpIo.readerThread] at hstep

/-! ### Window operations -/

theorem SameWindow.trans {io₁ io₂ io₃ : TftpIo} (h : SameWindow io₁ io₂) (k : SameWindow io₂ io₃) :
    SameWindow io₁ io₃ where
  held_eq := k.held_eq.trans h.held_eq
  window_eq := k.window_eq.trans h.window_eq
  blocksize_eq := k.blocksize_eq.trans h.blocksize_eq
  threaded_eq := k.threaded_eq.trans h.threaded_eq
  readError_eq := k.readError_eq.trans h.readError_eq
  readPacket_eq n := (k.readPacket_eq n).trans (h.readPacket_eq n)
  readLength_eq n := (k.readLength_eq n).trans (h.readLength_eq n)

/-- One round of the unthreaded loop: the next block is added, or it is the last one and
could not be read. -/
theorem ReaderInv.readTail (h : ReaderInv xs rel io .exited) (hthr : io.threaded = false)
    (hcount : io.count < io.window) (heof : io.eof = false) (herr : io.error = 0) :
    (∃ io', io.opsReadPacket io.tail = (none, io') ∧ ReaderInv xs rel (io'.ioError EIO) .exited ∧
      SameWindow io (io'.ioError EIO) ∧ (io'.ioError EIO).error ≠ 0 ∧
      rel + io.count + 1 = blockCount io.blocksize xs) ∨
    ∃ length io', io.opsReadPacket io.tail = (some length, io') ∧ ReaderInv xs rel (io'.enqueue length) .exited ∧
      SameWindow io (io'.enqueue length) ∧ (io'.enqueue length).error = 0 ∧
      (io'.enqueue length).count = io.count + 1 := by
  have hroom : io.count < io.slots := Nat.lt_of_lt_of_le hcount h.window_le
  have hrem := h.thread.2 hthr heof herr
  have hring := (h.toRingInv.opsReadPacket hroom).1
  have hsame := sameWindow_opsReadPacket h.toRingInv hroom
  obtain ⟨rest, newline, prevchar, hio, -, hread⟩ := io.opsReadPacket_spec io.tail
  have htail : (io.opsReadPacket io.tail).2.tail = io.tail := by rw [hio]
  have hcnt : (io.opsReadPacket io.tail).2.count = io.count := by rw [hio]
  have hslots : (io.opsReadPacket io.tail).2.slots = io.slots := by rw [hio]
  have herr' : (io.opsReadPacket io.tail).2.error = 0 := by rw [hio]; exact herr
  have hroom' : (io.opsReadPacket io.tail).2.count < (io.opsReadPacket io.tail).2.slots := by
    rw [hcnt, hslots]
    exact hroom
  cases hres : (io.opsReadPacket io.tail).1 with
  | none =>
    have hbad : (io.opsReadPacket io.tail).2.file.readError = true :=
      hsame.readError_eq.trans (opsReadPacket_none hres)
    have hring' := hring.ioError hbad EIO
    obtain ⟨e, he, hioe⟩ := (io.opsReadPacket io.tail).2.ioError_eq EIO
    refine .inl ⟨_, Prod.ext hres rfl, ?_⟩
    rw [hioe] at hring' ⊢
    refine ⟨⟨hring', fun ht => .inr he, fun _ _ h0 => absurd h0 he⟩, ?_, he, ?_⟩
    · exact hsame.trans ⟨rfl, rfl, rfl, rfl, rfl, fun _ => rfl, fun _ => rfl⟩
    · rw [hres, block_eq_take_remaining hrem] at hread
      split_ifs at hread with hshort
      exact (Blocks.block_short_iff h.blocksize_pos xs (h.eof_false_iff.mp heof)).mp hshort.1.ne
  | some length =>
    obtain ⟨hl, hd, hr⟩ := opsReadPacket_tail hrem hres
    have hc' : ((io.opsReadPacket io.tail).2.enqueue length).count = io.count + 1 := by rw [TftpIo.enqueue, hcnt]
    have henq : RingInv xs rel ((io.opsReadPacket io.tail).2.enqueue length) :=
      hring.enqueue hroom' (by rw [hio]; exact heof) (by rw [hsame.blocksize_eq, hcnt]; exact hl)
        (by rw [hsame.blocksize_eq, hcnt, htail]; exact hd)
    have hthr' : ((io.opsReadPacket io.tail).2.enqueue length).threaded = false := hsame.threaded_eq.trans hthr
    refine .inr ⟨length, _, Prod.ext hres rfl, ⟨henq, fun ht => absurd ht (by rw [hthr']; decide), fun _ _ _ => ?_⟩,
      hsame.trans (sameWindow_enqueue hring hroom' length), ?_, hc'⟩
    · have hb' : ((io.opsReadPacket io.tail).2.enqueue length).blocksize = io.blocksize := hsame.blocksize_eq
      rw [hc', hb']
      exact hr
    · exact herr'

/-- The unthreaded loop keeps the invariant. Without an error it ends with a full window
or at the end of the file, and it only fails when there is no full window left. -/
theorem ReaderInv.fillWindow (k : ℕ) (h : ReaderInv xs rel io .exited) (hthr : io.threaded = false)
    (hk : io.window - io.count ≤ k) :
    ReaderInv xs rel (fillWindow k io) .exited ∧ SameWindow io (fillWindow k io) ∧
      ((TftpIo.fillWindow k io).error = 0 →
        (TftpIo.fillWindow k io).window ≤ (TftpIo.fillWindow k io).count ∨
          (TftpIo.fillWindow k io).eof = true) ∧
      (io.error = 0 → (TftpIo.fillWindow k io).error ≠ 0 → blockCount io.blocksize xs ≤ rel + io.window) := by
  induction k generalizing io with
  | zero => exact ⟨h, .refl io, fun _ => .inl (by simp only [TftpIo.fillWindow]; omega), fun h0 h1 => absurd h0 h1⟩
  | succ k ih =>
    by_cases hgo : io.count < io.window ∧ io.eof = false ∧ io.error = 0
    · obtain ⟨hcount, heof, herr⟩ := hgo
      rw [TftpIo.fillWindow, if_pos ⟨hcount, heof, herr⟩]
      rcases h.readTail hthr hcount heof herr with
        ⟨io', hread, hinv, hsame, herr', hlast⟩ | ⟨length, io', hread, hinv, hsame, herr', hcnt⟩
      · rw [hread]
        exact ⟨hinv, hsame, fun h0 => absurd h0 herr', fun _ _ => by omega⟩
      · rw [hread]
        obtain ⟨h₁, h₂, h₃, h₄⟩ := ih hinv (hsame.threaded_eq.trans hthr) (by rw [hsame.window_eq, hcnt]; omega)
        rw [hsame.blocksize_eq, hsame.window_eq] at h₄
        exact ⟨h₁, hsame.trans h₂, h₃, fun _ => h₄ herr'⟩
    · rw [TftpIo.fillWindow, if_neg hgo]
      refine ⟨h, .refl io, fun h0 => ?_, fun h0 h1 => absurd h0 h1⟩
      by_contra hcon
      rw [not_or, not_le, Bool.not_eq_true] at hcon
      exact hgo ⟨hcon.1, hcon.2, h0⟩

/-- A thread other than a finished one means the adapter is threaded. -/
theorem ReaderInv.exited_of_unthreaded (h : ReaderInv xs rel io th) (hthr : io.threaded = false) :
    th = .exited := by
  have ht := h.thread
  cases th with
  | exited => rfl
  | locking => exact absurd ht.1 (by rw [hthr]; decide)
  | reading n => exact absurd ht.1 (by rw [hthr]; decide)
  | storing length => cases length <;> exact absurd ht.1 (by rw [hthr]; decide)

/-- Holding more of the ring changes nothing in it. -/
theorem ReaderInv.hold (h : ReaderInv xs rel io th) {k : ℕ} (hk : k ≤ io.count) :
    ReaderInv xs rel { io with held := k } th := by
  refine ⟨{ h.toRingInv with held_le := hk }, ?_⟩
  have ht := h.thread
  cases th with
  | storing length => cases length <;> exact ht
  | _ => exact ht

theorem takeWindow_frame (io : TftpIo) : io.takeWindow.2.window = io.window ∧
    io.takeWindow.2.blocksize = io.blocksize ∧
    io.takeWindow.2.file.readError = io.file.readError := by
  unfold TftpIo.takeWindow
  split_ifs <;> exact ⟨rfl, rfl, rfl⟩

/-- A window that is handed out is as large as the file and the window size
allow, and final when it reaches the last block. -/
theorem ReaderInv.takeWindow (h : ReaderInv xs rel io th) (hrel : rel < blockCount io.blocksize xs)
    (hfull : io.error = 0 → io.window ≤ io.count ∨ io.eof = true) :
    ReaderInv xs rel io.takeWindow.2 th ∧
      ((∃ e, io.takeWindow.1 = .error e ∧ io.file.readError = true) ∨
        ∃ k final, io.takeWindow.1 = .ok (k, final) ∧ io.takeWindow.2.held = k ∧
          k = min io.window (blockCount io.blocksize xs - rel) ∧ 0 < k ∧
          (final = true ↔ rel + k = blockCount io.blocksize xs)) := by
  by_cases herr : io.error = 0
  · have htot := h.total_le
    have hwin := h.window_pos
    rw [TftpIo.takeWindow, if_neg (not_not.mpr herr)]
    set k := if io.count < io.window then io.count else io.window with hkdef
    have hk : k = min io.window (blockCount io.blocksize xs - rel) := by
      by_cases hc : io.count < io.window
      · -- a short window is the rest of the file
        have heof : io.eof = true := (hfull herr).resolve_left (by omega)
        have := h.eof_iff.mp heof
        rw [hkdef, if_pos hc]
        omega
      · rw [hkdef, if_neg hc]
        omega
    have hkle : k ≤ io.count := by rw [hkdef]; split_ifs <;> omega
    refine ⟨h.hold hkle, .inr ⟨k, _, rfl, rfl, hk, by omega, ?_⟩⟩
    rw [Bool.and_eq_true, decide_eq_true_eq]
    constructor
    · rintro ⟨heof, hkc⟩
      rw [hkc]
      exact h.eof_iff.mp heof
    · intro he
      have hkc : k = io.count := by omega
      exact ⟨h.eof_iff.mpr (by omega), hkc⟩
  · rw [TftpIo.takeWindow, if_pos herr]
    exact ⟨h, .inl ⟨io.error, rfl, h.error_of herr⟩⟩

/-- `tftp_io_read_window` hands out a window of a ring that is full enough, after
filling it itself when there is no thread. -/
theorem ReaderInv.readWindow_eq (h : ReaderInv xs rel io th) {r : Except ℤ (ℕ × Bool) × TftpIo}
    (hr : io.readWindow = some r) :
    ∃ io₁, ReaderInv xs rel io₁ th ∧ SameWindow io io₁ ∧ io₁.takeWindow = r ∧
      (io₁.error = 0 → io₁.window ≤ io₁.count ∨ io₁.eof = true) := by
  cases hthr : io.threaded with
  | true =>
    simp only [TftpIo.readWindow, hthr, if_true] at hr
    split_ifs at hr with hwait
    refine ⟨io, h, .refl io, Option.some.inj hr, fun h0 => ?_⟩
    by_contra hcon
    rw [not_or, not_le, Bool.not_eq_true] at hcon
    exact hwait ⟨hcon.1, hcon.2, h0⟩
  | false =>
    obtain rfl := h.exited_of_unthreaded hthr
    obtain ⟨hfill, hsame, hfull, -⟩ := h.fillWindow (io.window - io.count) hthr le_rfl
    simp only [TftpIo.readWindow, hthr, Bool.false_eq_true, if_false, Option.some.injEq] at hr
    exact ⟨_, hfill, hsame, hr, hfull⟩

theorem ReaderInv.readWindow (h : ReaderInv xs rel io th) (hrel : rel < blockCount io.blocksize xs)
    {r : Except ℤ (ℕ × Bool)} {io' : TftpIo} (hr : io.readWindow = some (r, io')) :
    ReaderInv xs rel io' th ∧ io'.window = io.window ∧ io'.blocksize = io.blocksize ∧
      io'.file.readError = io.file.readError ∧
      ((∃ e, r = .error e ∧ io.file.readError = true) ∨
        ∃ k final, r = .ok (k, final) ∧ io'.held = k ∧
          k = min io.window (blockCount io.blocksize xs - rel) ∧ 0 < k ∧
          (final = true ↔ rel + k = blockCount io.blocksize xs)) := by
  obtain ⟨io₁, h₁, hsame, htake, hfull⟩ := h.readWindow_eq hr
  have hb := hsame.blocksize_eq
  obtain ⟨hinv, hres⟩ := h₁.takeWindow (by rw [hb]; exact hrel) hfull
  obtain ⟨hfw, hfb, hfe⟩ := io₁.takeWindow_frame
  rw [htake, hsame.readError_eq, hsame.window_eq, hb] at hres
  rw [htake] at hinv hfw hfb hfe
  exact ⟨hinv, hfw.trans hsame.window_eq, hfb.trans hb, hfe.trans hsame.readError_eq, hres⟩

/-! ### Headers -/

theorem writeHeader_data (io : TftpIo) (n : ℕ) (opcode block : UInt16) (k : ℕ) :
    ((io.writeHeader n opcode block).packets k).data = (io.packets k).data := by
  by_cases hk : k = io.slot n
  · subst hk
    simp [writeHeader]
  · simp [writeHeader, Function.update_of_ne hk]

theorem ReaderInv.writeHeader (h : ReaderInv xs rel io th) (n : ℕ) (opcode block : UInt16) :
    ReaderInv xs rel (io.writeHeader n opcode block) th := by
  have hdata := io.writeHeader_data n opcode block
  refine ⟨{ h.toRingInv with data_eq := fun i hi => ?_ }, ?_⟩
  · rw [hdata]
    exact h.data_eq i hi
  · have ht := h.thread
    cases th with
    | storing length =>
      cases length with
      | none => exact ht
      | some length =>
        simp only [ThreadInv, hdata]
        exact ht
    | _ => exact ht

theorem readPacket_writeHeader_self {n : ℕ} (hn : n < io.held) (opcode block : UInt16) :
    (io.writeHeader n opcode block).readPacket n =
      some { io.packets (io.slot n) with opcode := opcode, block := block } := by
  have hs : (io.writeHeader n opcode block).slot n = io.slot n := rfl
  rw [readPacket, if_pos (show n < (io.writeHeader n opcode block).held from hn), hs]
  simp [TftpIo.writeHeader]

theorem RingInv.readPacket_writeHeader_of_ne (h : RingInv xs rel io) {n m : ℕ} (hn : n < io.held)
    (hne : m ≠ n) (opcode block : UInt16) :
    (io.writeHeader n opcode block).readPacket m = io.readPacket m := by
  have hh := h.held_le
  have hc := h.count_le
  have hs : (io.writeHeader n opcode block).slot m = io.slot m := rfl
  have hheld : (io.writeHeader n opcode block).held = io.held := rfl
  rw [readPacket, readPacket, hheld, hs]
  split_ifs with hm
  · have : io.slot m ≠ io.slot n := RingIndex.slot_ne (by omega) (by omega) hne
    simp [TftpIo.writeHeader, Function.update_of_ne this]
  · rfl

/-! ### Release -/

theorem releaseLoop_eq (k : ℕ) (io : TftpIo) (hhead : io.head < io.slots) :
    releaseLoop k io = { io with head := io.slot k, count := io.count - k, held := io.held - k } := by
  induction k generalizing io with
  | zero => simp [releaseLoop, slot, Nat.mod_eq_of_lt hhead]
  | succ k ih =>
    have hnext : io.ioNext io.head = (io.head + 1) % io.slots := RingIndex.next_eq hhead
    have hlt : (io.head + 1) % io.slots < io.slots := Nat.mod_lt _ (by omega)
    rw [releaseLoop, hnext, ih _ hlt]
    simp only [slot, RingIndex.mod_add, Nat.sub_sub, Nat.add_comm 1 k]

theorem readRelease_eq (hhead : io.head < io.slots) : io.readRelease =
    { io with head := io.slot io.held, count := io.count - io.held, held := 0 } := by
  rw [readRelease, releaseLoop_eq _ _ hhead, Nat.sub_self]

/-- `tftp_io_read_release` passes the held window on to the released blocks. -/
theorem ReaderInv.readRelease (h : ReaderInv xs rel io th) :
    ReaderInv xs (rel + io.held) io.readRelease th ∧ io.readRelease.held = 0 ∧
      io.readRelease.window = io.window ∧ io.readRelease.blocksize = io.blocksize ∧
      io.readRelease.file.readError = io.file.readError := by
  have heq := readRelease_eq h.head_lt
  have hheld := h.held_le
  have hcount := h.count_le
  have hsum : rel + io.held + (io.count - io.held) = rel + io.count := by omega
  have hslot : ∀ i, io.readRelease.slot i = io.slot (io.held + i) := by
    intro i
    rw [heq]
    exact RingIndex.mod_add _ _ _ _
  have hcnt : io.readRelease.count = io.count - io.held := by rw [heq]
  have hbs : io.readRelease.blocksize = io.blocksize := by rw [heq]
  refine ⟨⟨?_, ?_⟩, by rw [heq], by rw [heq], hbs, by rw [heq]⟩
  · constructor
    case tail_eq =>
      rw [hslot, hcnt, Nat.add_sub_cancel' hheld, heq]
      exact h.tail_eq
    case lengths_eq =>
      intro i hi
      rw [hcnt] at hi
      rw [hslot, hbs, heq, Nat.add_assoc]
      exact h.lengths_eq (io.held + i) (by omega)
    case data_eq =>
      intro i hi
      rw [hcnt] at hi
      rw [hslot, hbs, heq, Nat.add_assoc]
      exact h.data_eq (io.held + i) (by omega)
    all_goals rw [heq]
    · exact h.blocksize_pos
    · exact h.window_pos
    · exact h.window_le
    · exact Nat.mod_lt _ h.slots_pos
    · exact Nat.zero_le _
    · show io.count - io.held ≤ io.slots
      omega
    · exact h.running
    · show rel + io.held + (io.count - io.held) ≤ _
      rw [hsum]
      exact h.total_le
    · show _ ↔ rel + io.held + (io.count - io.held) = _
      rw [hsum]
      exact h.eof_iff
    · exact h.error_of
  · have ht := h.thread
    rw [heq]
    cases th with
    | storing length =>
      cases length with
      | none => exact ht
      | some length =>
        simp only [ThreadInv, hsum] at ht ⊢
        exact ⟨ht.1, ht.2.1, ht.2.2.1, by omega, ht.2.2.2.2⟩
    | reading n =>
      simp only [ThreadInv, hsum] at ht ⊢
      exact ⟨ht.1, ht.2.1, ht.2.2.1, ht.2.2.2.1, by omega, ht.2.2.2.2.2⟩
    | locking =>
      simp only [ThreadInv, hsum] at ht ⊢
      exact ht
    | exited =>
      simp only [ThreadInv, hsum] at ht ⊢
      exact ht

/-! ### Progress of the thread -/

/-- How far the thread is from having filled the ring. -/
def threadRank (io : TftpIo) (th : ReaderThread) : ℕ :=
  3 * (io.slots - io.count) + match th with
    | .locking => 2
    | .reading _ => 1
    | _ => 0

/-- While `tftp_io_read_window` waits, the thread does not. -/
theorem ReaderInv.readerThread_enabled (h : ReaderInv xs rel io th) (hwait : io.readWindow = none) :
    ∃ r, io.readerThread th = some r := by
  simp only [TftpIo.readWindow] at hwait
  split_ifs at hwait with hthr hc
  obtain ⟨hcount, heof, herr⟩ := hc
  cases th with
  | locking =>
    have hroom : io.count < io.slots := Nat.lt_of_lt_of_le hcount h.window_le
    exact ⟨(io, .reading io.tail), by simp [TftpIo.readerThread, h.running, hroom.ne]⟩
  | reading n => exact ⟨_, rfl⟩
  | storing length => cases length <;> exact ⟨_, rfl⟩
  | exited =>
    rcases h.thread.1 hthr with he | he
    · exact absurd he (by rw [heof]; decide)
    · exact absurd herr he

/-- On a sound file every section of the thread brings it nearer to that. -/
theorem ReaderInv.threadRank_lt (h : ReaderInv xs rel io th) (hgood : io.file.readError = false) {io' : TftpIo}
    {th' : ReaderThread} (hstep : io.readerThread th = some (io', th')) : threadRank io' th' < threadRank io th := by
  cases th with
  | locking =>
    simp only [TftpIo.readerThread, h.running, Bool.false_eq_true, if_false] at hstep
    split_ifs at hstep
    obtain ⟨rfl, rfl⟩ := Prod.mk.inj (Option.some.inj hstep)
    simp [threadRank]
  | reading n =>
    obtain ⟨rfl, rfl⟩ := Prod.mk.inj (Option.some.inj hstep)
    obtain ⟨rest, newline, prevchar, hio, -, -⟩ := io.opsReadPacket_spec n
    rw [hio]
    simp [threadRank]
  | storing length =>
    cases length with
    | none => exact absurd h.thread.2 (by rw [hgood]; decide)
    | some length =>
      have hroom : io.count < io.slots := h.thread.2.2.2.1
      obtain ⟨rfl, rfl⟩ := Prod.mk.inj (Option.some.inj hstep)
      simp only [threadRank, TftpIo.enqueue]
      split <;> omega
  | exited => cases hstep

/-- While `tftp_io_read_window` waits, a thread on a sound file gets on. -/
theorem ReaderInv.readerThread_of_wait (h : ReaderInv xs rel io th) (hgood : io.file.readError = false)
    (hwait : io.readWindow = none) :
    ∃ io' th', io.readerThread th = some (io', th') ∧ threadRank io' th' < threadRank io th := by
  obtain ⟨⟨io', th'⟩, hstep⟩ := h.readerThread_enabled hwait
  exact ⟨io', th', hstep, h.threadRank_lt hgood hstep⟩

/-- A fresh reader has released nothing of the stream it was opened on. -/
theorem ReaderInv.init {file : File} {convert threaded : Bool} {slots window blocksize : ℕ}
    (hbs : 0 < blocksize) (hw : 0 < window) (hs : window ≤ slots)
    (hxs : (TftpIo.init file convert slots window blocksize threaded).remaining = xs) :
    ReaderInv xs 0 (TftpIo.init file convert slots window blocksize threaded)
      (ReaderThread.start threaded) := by
  have hpos := Blocks.blockCount_pos blocksize xs
  refine ⟨⟨hbs, hw, hs, by exact Nat.lt_of_lt_of_le hw hs, (Nat.zero_mod _).symm, le_rfl,
    Nat.zero_le _, rfl, Nat.zero_le _, ?_, ?_, ?_, fun h => absurd rfl h⟩, ?_⟩
  · simp only [TftpIo.init, Bool.false_eq_true, false_iff]
    omega
  · exact fun i hi => absurd hi (Nat.not_lt_zero i)
  · exact fun i hi => absurd hi (Nat.not_lt_zero i)
  · have hrem : (TftpIo.init file convert slots window blocksize threaded).remaining =
        xs.drop ((0 + 0) * blocksize) := by simpa using hxs
    cases threaded with
    | true => exact ⟨rfl, rfl, rfl, hrem⟩
    | false => exact ⟨fun h => absurd h Bool.false_ne_true, fun _ _ _ => hrem⟩

end TftpHpa.TftpIo
