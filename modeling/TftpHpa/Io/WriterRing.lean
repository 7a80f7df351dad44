import TftpHpa.Io.Writer

/-! What the writing ring holds. Of the payloads published, `out` are in the file and
`queue` are in the slots from the head on; `Queued` ties the slots to the queue,
`Written` the file to the payloads before it, and `WriterInv` adds what the writer
thread is about to do. -/

namespace TftpHpa.TftpIo

open Netascii (decode)

/-! ### The file -/

/-- What a byte stream stands for in the file, in either mode. -/
def converted (convert cr : Bool) (data : Bytes) : Bytes := if convert then decode cr data else data

/-- The bytes `data` have been written: whatever follows, their part of the file is there. -/
def Written (io : TftpIo) (data : Bytes) : Prop :=
  ∀ rest, converted io.convert false (data ++ rest) = io.file.written ++ converted io.convert io.writeCr rest

theorem fwrite_eq {f : File} {data : Bytes} (h : (f.fwrite data).1 = data.length) :
    (f.fwrite data).2.written = f.written ++ data := by
  unfold File.fwrite at h ⊢
  split at h
  · rfl
  · dsimp only at h ⊢
    rw [List.take_of_length_le (by omega)]

/-- `write_packet` only touches the file. -/
theorem opsWritePacket_frame (io : TftpIo) (dp : Tftphdr) (count : ℕ) :
    ∃ file writeCr, (io.opsWritePacket dp count).2 = { io with file := file, writeCr := writeCr } := by
  unfold opsWritePacket
  split_ifs
  · exact ⟨_, _, rfl⟩
  · exact ⟨_, io.writeCr, rfl⟩

/-- If it succeeds, the data of the packet has been written. -/
theorem opsWritePacket_written {io : TftpIo} {dp : Tftphdr} {data d : Bytes} (hd : dp.data.take d.length = d)
    (hw : io.Written data) (h : (io.opsWritePacket dp d.length).1 ≠ none) :
    (io.opsWritePacket dp d.length).2.Written (data ++ d) := by
  intro rest
  have hbefore := hw (d ++ rest)
  cases hc : io.convert with
  | true =>
    simp only [opsWritePacket, hc, if_true, netasciiWritePacket, hd] at h ⊢
    obtain ⟨ok, cr, file, hloop⟩ : ∃ ok cr file, netasciiWriteLoop d io.writeCr io.file = (ok, cr, file) :=
      ⟨_, _, _, rfl⟩
    rw [hloop] at h ⊢
    cases ok with
    | false => exact absurd rfl h
    | true =>
      obtain ⟨out, hout, hdec⟩ := netasciiWriteLoop_ok hloop
      simp only [converted, hc, if_true] at hbefore ⊢
      rw [List.append_assoc, hbefore, hdec, hout, List.append_assoc]
  | false =>
    simp only [opsWritePacket, hc, Bool.false_eq_true, if_false, octetWritePacket, hd] at h ⊢
    split_ifs at h with hn
    · simp only [converted, hc, Bool.false_eq_true, if_false] at hbefore ⊢
      rw [List.append_assoc, hbefore, fwrite_eq hn, List.append_assoc]
    · exact absurd rfl h

/-- `write_finish` brings the file to what the bytes stand for. -/
theorem opsWriteFinish_written {io : TftpIo} {data : Bytes} (hw : io.Written data)
    (h : (io.opsWriteFinish true).1 = true) :
    (io.opsWriteFinish true).2.file.written = converted io.convert false data := by
  have hall := hw []
  rw [List.append_nil] at hall
  rw [hall]
  cases hc : io.convert with
  | true =>
    simp only [opsWriteFinish, hc, if_true, netasciiWriteFinish, converted] at h ⊢
    cases hcr : io.writeCr with
    | true =>
      simp only [hcr, if_true] at h ⊢
      split at h
      · cases h
      · rename_i f hf
        simp only [decode]
        exact putc_eq_some hf
    | false => simp [decode]
  | false => simp [opsWriteFinish, hc, octetWriteFinish, converted]

theorem opsWriteFinish_frame (io : TftpIo) (flushed : Bool) :
    ∃ file writeCr, (io.opsWriteFinish flushed).2 = { io with file := file, writeCr := writeCr } := by
  unfold opsWriteFinish netasciiWriteFinish octetWriteFinish
  split_ifs
  · split
    · exact ⟨io.file, io.writeCr, rfl⟩
    · exact ⟨_, _, rfl⟩
  · exact ⟨io.file, io.writeCr, rfl⟩
  · exact ⟨io.file, io.writeCr, rfl⟩

/-! ### The slots -/

theorem copyPacket_data (io : TftpIo) (p : Packet) :
    ((io.copyPacket p).packets (io.copyPacket p).tail).data.take p.payload.length = p.payload := by
  simp only [copyPacket, Function.update_self, store_data_take]

/-- The slots from the head on hold the payloads of the queue, and only they are in use. -/
structure Queued (queue : List Bytes) (io : TftpIo) : Prop where
  head_lt : io.head < io.slots
  count_eq : io.count = queue.length
  count_le : io.count ≤ io.slots
  tail_eq : io.tail = io.slot io.count
  length_eq : ∀ i d, queue[i]? = some d → io.lengths (io.slot i) = d.length
  data_eq : ∀ i d, queue[i]? = some d → (io.packets (io.slot i)).data.take d.length = d
  used : ∀ i < io.count, io.states (io.slot i) = .ready ∨ io.states (io.slot i) = .writing
  free : ∀ i < io.slots, io.count ≤ i → io.states (io.slot i) = .empty ∨ io.states (io.slot i) = .reserved

namespace Queued

variable {queue : List Bytes} {io : TftpIo}

theorem init (file : File) (convert : Bool) {slots : ℕ} (hslots : 0 < slots) (window blocksize : ℕ) (threaded : Bool) :
    Queued [] (TftpIo.init file convert slots window blocksize threaded) :=
  ⟨hslots, rfl, Nat.zero_le _, by simp [TftpIo.init, slot], by simp, by simp, by simp [TftpIo.init],
    fun i _ _ => .inl rfl⟩

theorem slot_zero (h : Queued queue io) : io.slot 0 = io.head := Nat.mod_eq_of_lt h.head_lt

theorem tail_lt (h : Queued queue io) : io.tail < io.slots := by
  rw [h.tail_eq]
  exact Nat.mod_lt _ (Nat.zero_lt_of_lt h.head_lt)

/-- The tail is only free while there is room. -/
theorem count_lt (h : Queued queue io) (hfree : io.states io.tail ≠ .ready) (hfree' : io.states io.tail ≠ .writing) :
    io.count < io.slots := by
  refine lt_of_le_of_ne h.count_le fun he => ?_
  have htail : io.tail = io.slot 0 := by
    rw [h.tail_eq, he, slot, slot, Nat.add_mod_right, Nat.add_zero]
  have hpos : 0 < io.count := by
    rw [he]
    exact Nat.zero_lt_of_lt h.head_lt
  rw [htail] at hfree hfree'
  rcases h.used 0 hpos with hs | hs
  · exact hfree hs
  · exact hfree' hs

theorem slot_ne_tail (h : Queued queue io) (hroom : io.count < io.slots) {i : ℕ} (hi : i < io.slots)
    (hne : i ≠ io.count) : io.slot i ≠ io.tail := by
  rw [h.tail_eq]
  exact RingIndex.slot_ne hi hroom hne

theorem lt_count (h : Queued queue io) {i : ℕ} {d : Bytes} (hd : queue[i]? = some d) : i < io.count := by
  rw [h.count_eq]
  exact (List.getElem?_eq_some_iff.mp hd).1

/-- If the head slot is ready, something is queued. -/
theorem ne_nil_of_ready (h : Queued queue io) (hready : io.states io.head = .ready) : queue ≠ [] := by
  rintro rfl
  have hfree := h.free 0 (Nat.zero_lt_of_lt h.head_lt) (by simp [h.count_eq])
  rw [h.slot_zero, hready] at hfree
  simp at hfree

theorem head_not_ready (h : Queued [] io) : io.states io.head ≠ .ready := fun hready =>
  h.ne_nil_of_ready hready rfl

/-- Nothing in the ring depends on the file. -/
theorem withFile (h : Queued queue io) (file : File) (writeCr : Bool) :
    Queued queue { io with file := file, writeCr := writeCr } :=
  ⟨h.head_lt, h.count_eq, h.count_le, h.tail_eq, h.length_eq, h.data_eq, h.used, h.free⟩

theorem ioError (h : Queued queue io) (e : ℤ) : Queued queue (io.ioError e) := by
  obtain ⟨e', -, he⟩ := io.ioError_eq e
  rw [he]
  exact ⟨h.head_lt, h.count_eq, h.count_le, h.tail_eq, h.length_eq, h.data_eq, h.used, h.free⟩

/-- Assigning to a state; a slot in use stays in use and a free one stays free. -/
theorem setState (h : Queued queue io) {j : ℕ} (hj : j < io.slots) {st : SlotState}
    (hused : j < io.count → st = .ready ∨ st = .writing)
    (hfree : io.count ≤ j → st = .empty ∨ st = .reserved) : Queued queue (io.setState (io.slot j) st) := by
  have hself : (io.setState (io.slot j) st).states (io.slot j) = st := Function.update_self _ _ _
  have hother : ∀ i < io.slots, i ≠ j → (io.setState (io.slot j) st).states (io.slot i) = io.states (io.slot i) :=
    fun i hi hne => Function.update_of_ne (RingIndex.slot_ne hi hj hne) _ _
  refine ⟨h.head_lt, h.count_eq, h.count_le, h.tail_eq, h.length_eq, h.data_eq, fun i hi => ?_, fun i hi hle => ?_⟩
  · change (io.setState (io.slot j) st).states (io.slot i) = _ ∨ (io.setState (io.slot j) st).states (io.slot i) = _
    by_cases he : i = j
    · rw [he, hself]
      exact hused (he ▸ hi)
    · rw [hother i (lt_of_lt_of_le hi h.count_le) he]
      exact h.used i hi
  · change (io.setState (io.slot j) st).states (io.slot i) = _ ∨ (io.setState (io.slot j) st).states (io.slot i) = _
    by_cases he : i = j
    · rw [he, hself]
      exact hfree (he ▸ hle)
    · rw [hother i hi he]
      exact h.free i hi hle

theorem reserve (h : Queued queue io) (hempty : io.states io.tail = .empty) :
    Queued queue (io.setState io.tail .reserved) := by
  have hroom := h.count_lt (by simp [hempty]) (by simp [hempty])
  rw [h.tail_eq]
  exact h.setState hroom (fun hlt => absurd hlt (lt_irrefl _)) fun _ => .inr rfl

/-- The slot behind the queue can be filled. -/
theorem copyPacket (h : Queued queue io) (hroom : io.count < io.slots) (p : Packet) :
    Queued queue (io.copyPacket p) := by
  refine ⟨h.head_lt, h.count_eq, h.count_le, h.tail_eq, h.length_eq, fun i d hd => ?_, h.used, h.free⟩
  have hi := h.lt_count hd
  change (Function.update io.packets io.tail _ (io.slot i)).data.take d.length = d
  rw [Function.update_of_ne (h.slot_ne_tail hroom (by omega) hi.ne)]
  exact h.data_eq i d hd

/-- A reserved slot, filled and published, is the last of the queue. -/
theorem publish (h : Queued queue io) {d : Bytes} (hres : io.states io.tail = .reserved)
    (hdata : (io.packets io.tail).data.take d.length = d) :
    Queued (queue ++ [d]) { io.setState io.tail .ready with
      lengths := Function.update io.lengths io.tail d.length
      tail := io.ioNext io.tail
      count := io.count + 1 } := by
  have hroom := h.count_lt (by simp [hres]) (by simp [hres])
  have hne : ∀ i < io.slots, i ≠ io.count → io.slot i ≠ io.tail := fun i hi he => h.slot_ne_tail hroom hi he
  have hget : ∀ i c, (queue ++ [d])[i]? = some c → queue[i]? = some c ∧ i < io.count ∨ i = io.count ∧ c = d := by
    intro i c hc
    rcases Nat.lt_or_ge i queue.length with hi | hi
    · rw [List.getElem?_append_left hi] at hc
      exact .inl ⟨hc, h.count_eq ▸ hi⟩
    · rw [List.getElem?_append_right hi, List.getElem?_singleton] at hc
      split_ifs at hc with h0
      exact .inr ⟨by rw [h.count_eq]; omega, (Option.some.inj hc).symm⟩
  refine ⟨h.head_lt, by simp [h.count_eq], hroom, ?_, fun i c hc => ?_, fun i c hc => ?_, fun i hi => ?_,
    fun i hi hle => ?_⟩
  · change io.ioNext io.tail = io.slot (io.count + 1)
    rw [ioNext, RingIndex.next_eq h.tail_lt, h.tail_eq, slot, slot, RingIndex.mod_succ]
  · change Function.update io.lengths io.tail d.length (io.slot i) = c.length
    rcases hget i c hc with ⟨hc, hi⟩ | ⟨rfl, rfl⟩
    · rw [Function.update_of_ne (hne i (by omega) hi.ne)]
      exact h.length_eq i c hc
    · rw [← h.tail_eq, Function.update_self]
  · change (io.packets (io.slot i)).data.take c.length = c
    rcases hget i c hc with ⟨hc, -⟩ | ⟨rfl, rfl⟩
    · exact h.data_eq i c hc
    · rw [← h.tail_eq]
      exact hdata
  · change Function.update io.states io.tail .ready (io.slot i) = _ ∨
      Function.update io.states io.tail .ready (io.slot i) = _
    by_cases he : i = io.count
    · rw [he, ← h.tail_eq, Function.update_self]
      exact .inl rfl
    · have hi' : i < io.count := by
        have : i < io.count + 1 := hi
        omega
      rw [Function.update_of_ne (hne i (by omega) he)]
      exact h.used i hi'
  · change Function.update io.states io.tail .ready (io.slot i) = _ ∨
      Function.update io.states io.tail .ready (io.slot i) = _
    have hle' : io.count + 1 ≤ i := hle
    rw [Function.update_of_ne (hne i hi (by omega))]
    exact h.free i hi (by omega)

theorem dequeue_slot (h : Queued queue io) (i : ℕ) : io.dequeue.slot i = io.slot (i + 1) := by
  change (io.ioNext io.head + i) % io.slots = (io.head + (i + 1)) % io.slots
  rw [ioNext, RingIndex.next_eq h.head_lt, Nat.mod_add_mod, Nat.add_assoc, Nat.add_comm 1 i]

/-- The head slot, once written, leaves the queue. -/
theorem dequeue {d : Bytes} (h : Queued (d :: queue) io) : Queued queue io.dequeue := by
  have hpos : 0 < io.count := by simp [h.count_eq]
  have hslots : 1 ≤ io.slots := by
    have := h.count_le
    omega
  have hnext : io.ioNext io.head = (io.head + 1) % io.slots := RingIndex.next_eq h.head_lt
  have hslot := h.dequeue_slot
  have hstate : ∀ i, i + 1 < io.slots → io.dequeue.states (io.slot (i + 1)) = io.states (io.slot (i + 1)) := by
    intro i hi
    refine Function.update_of_ne ?_ _ _
    rw [← h.slot_zero]
    exact RingIndex.slot_ne hi (by omega) (by omega)
  refine ⟨?_, ?_, ?_, ?_, fun i c hc => ?_, fun i c hc => ?_, fun i hi => ?_, fun i hi hle => ?_⟩
  · change io.ioNext io.head < io.slots
    rw [hnext]
    exact Nat.mod_lt _ hslots
  · change io.count - 1 = queue.length
    simp [h.count_eq]
  · change io.count - 1 ≤ io.slots
    exact (Nat.sub_le _ _).trans h.count_le
  · rw [hslot]
    change io.tail = io.slot (io.count - 1 + 1)
    rw [Nat.sub_add_cancel hpos]
    exact h.tail_eq
  · rw [hslot]
    exact h.length_eq (i + 1) c hc
  · rw [hslot]
    exact h.data_eq (i + 1) c hc
  · have hi' : i < io.count - 1 := hi
    rw [hslot, hstate i (by have := h.count_le; omega)]
    exact h.used (i + 1) (by omega)
  · have hi' : i < io.slots := hi
    have hle' : io.count - 1 ≤ i := hle
    rw [hslot]
    by_cases hlast : i + 1 = io.slots
    · -- the slot behind the last one is the head that has just been emptied
      have hhead : io.slot (i + 1) = io.head := by
        rw [hlast, slot, Nat.add_mod_right, Nat.mod_eq_of_lt h.head_lt]
      rw [hhead]
      exact .inl (Function.update_self _ _ _)
    · rw [hstate i (by omega)]
      exact h.free (i + 1) (by omega) (by omega)

theorem writing (h : Queued queue io) (hready : io.states io.head = .ready) :
    Queued queue (io.setState io.head .writing) := by
  have hpos := List.length_pos_of_ne_nil (h.ne_nil_of_ready hready)
  rw [← h.slot_zero]
  exact h.setState (Nat.zero_lt_of_lt h.head_lt) (fun _ => .inr rfl)
    fun hle => absurd hle (by rw [h.count_eq]; omega)

/-- Writing the head slot leaves the ring as it is, and if it succeeds the payload is in
the file. -/
theorem write_head {d data : Bytes} (h : Queued (d :: queue) io) (hw : io.error = 0 → io.Written data) :
    ∃ file cr, (io.opsWritePacket (io.packets io.head) d.length).2 = { io with file := file, writeCr := cr } ∧
      Queued (d :: queue) { io with file := file, writeCr := cr } ∧
      ((io.opsWritePacket (io.packets io.head) d.length).1 ≠ none → io.error = 0 →
        TftpIo.Written { io with file := file, writeCr := cr } (data ++ d)) := by
  obtain ⟨file, cr, hframe⟩ := io.opsWritePacket_frame (io.packets io.head) d.length
  refine ⟨file, cr, hframe, h.withFile file cr, fun hok he => ?_⟩
  have hdata : (io.packets io.head).data.take d.length = d := by
    rw [← h.slot_zero]
    exact h.data_eq 0 d rfl
  rw [← hframe]
  exact opsWritePacket_written hdata (hw he) hok

end Queued

/-! ### The ring and the thread -/

/-- What has been written, by what the thread is doing. After an error the file does not
matter any more. -/
def WriterThread.Phase (out queue : List Bytes) (io : TftpIo) : WriterThread → Prop
  | .locking | .exited => io.error = 0 → io.Written out.flatten
  | .writing n length => ∃ d rest, queue = d :: rest ∧ n = io.head ∧ length = d.length ∧
      (io.error = 0 → io.Written out.flatten)
  | .storing true => ∃ d rest, queue = d :: rest ∧ (io.error = 0 → io.Written (out ++ [d]).flatten)
  | .storing false => queue ≠ []

/-- The payloads `ps` have been published. -/
structure WriterInv (convert : Bool) (ps : List Bytes) (io : TftpIo) (th : WriterThread) : Prop where
  convert_eq : io.convert = convert
  unthreaded : io.threaded = false → th = .exited
  split : ∃ out queue, ps = out ++ queue ∧ Queued queue io ∧ th.Phase out queue io

/-- The thread has nothing to do but to leave. -/
def Resting (io : TftpIo) (th : WriterThread) : Prop :=
  (th = .locking ∨ th = .exited) ∧ io.states io.head ≠ .ready

theorem Resting.thread {io io' : TftpIo} {th th' : WriterThread} (h : Resting io th)
    (hs : io.writerThread th = some (io', th')) : io' = io ∧ Resting io th' := by
  obtain ⟨rfl | rfl, hready⟩ := h
  · simp only [writerThread] at hs
    split_ifs at hs with hwait hexit
    · cases hs
      exact ⟨rfl, .inr rfl, hready⟩
    · rw [not_or, Bool.not_eq_true, not_not] at hexit
      exact absurd ⟨hready, hexit⟩ hwait
  · cases hs

namespace WriterInv

variable {convert : Bool} {ps : List Bytes} {io io' : TftpIo} {th th' : WriterThread}

theorem start {file : File} (hfile : file.written = []) {slots : ℕ} (hslots : 0 < slots) (window blocksize : ℕ)
    (threaded : Bool) :
    WriterInv convert [] (init file convert slots window blocksize threaded) (.start threaded) := by
  have hw : (init file convert slots window blocksize threaded).Written [] := fun rest => by
    simp [init, hfile]
  refine ⟨rfl, fun h => by simp only [init] at h; simp [WriterThread.start, h], [], [], rfl, ?_, ?_⟩
  · exact .init _ _ hslots _ _ _
  · cases threaded <;> exact fun _ => hw

/-- After an error the file does not count. -/
theorem of_error (hconv : io.convert = convert) {out queue : List Bytes} (hps : ps = out ++ queue)
    (hq : Queued queue io) (e : ℤ) : WriterInv convert ps (io.ioError e) .exited := by
  obtain ⟨e', he, hio⟩ := io.ioError_eq e
  refine ⟨by rw [hio]; exact hconv, fun _ => rfl, out, queue, hps, hq.ioError e, fun h0 => ?_⟩
  rw [hio] at h0
  exact absurd h0 he

/-- The thread keeps the invariant. -/
theorem thread (h : WriterInv convert ps io th) (hs : io.writerThread th = some (io', th')) :
    WriterInv convert ps io' th' := by
  obtain ⟨hconv, hun, out, queue, hps, hq, hphase⟩ := h
  cases th with
  | exited => cases hs
  | locking =>
    simp only [writerThread] at hs
    split_ifs at hs with hwait hexit
    · cases hs
      exact ⟨hconv, fun _ => rfl, out, queue, hps, hq, hphase⟩
    · cases hs
      rw [not_or, Bool.not_eq_true, not_not] at hexit
      have hready : io.states io.head = .ready := by
        by_contra hne
        exact hwait ⟨hne, hexit⟩
      obtain ⟨d, rest, rfl⟩ := List.exists_cons_of_ne_nil (hq.ne_nil_of_ready hready)
      have hlen : io.lengths io.head = d.length := by
        rw [← hq.slot_zero]
        exact hq.length_eq 0 d rfl
      exact ⟨hconv, fun ht => absurd (hun ht) (by simp), out, d :: rest, hps, hq.writing hready, d, rest, rfl, rfl,
        hlen, hphase⟩
  | writing n length =>
    obtain ⟨d, rest, rfl, rfl, rfl, hw⟩ := hphase
    obtain ⟨file, cr, hframe, hq', hw'⟩ := hq.write_head hw
    obtain ⟨rfl, rfl⟩ := Prod.mk.inj (Option.some.inj hs)
    rw [hframe]
    refine ⟨hconv, fun ht => absurd (hun ht) (by simp), out, d :: rest, hps, hq', ?_⟩
    cases hok : decide ((io.opsWritePacket (io.packets io.head) d.length).1 = some d.length) with
    | false => exact List.cons_ne_nil _ _
    | true =>
      refine ⟨d, rest, rfl, fun he => ?_⟩
      rw [List.flatten_append, List.flatten_singleton]
      exact hw' (by simp [of_decide_eq_true hok]) he
  | storing written =>
    cases written with
    | false =>
      obtain ⟨rfl, rfl⟩ := Prod.mk.inj (Option.some.inj hs)
      exact .of_error hconv hps hq EIO
    | true =>
      obtain ⟨d, rest, rfl, hw⟩ := hphase
      obtain ⟨rfl, rfl⟩ := Prod.mk.inj (Option.some.inj hs)
      exact ⟨hconv, fun ht => absurd (hun ht) (by simp), out ++ [d], rest, by simp [hps], hq.dequeue, hw⟩

theorem reserve (h : WriterInv convert ps io th) (hs : io.writeReserve = some (.ok (), io')) :
    WriterInv convert ps io' th := by
  obtain ⟨hconv, hun, out, queue, hps, hq, hphase⟩ := h
  unfold writeReserve at hs
  split_ifs at hs with hbusy hthreaded herror
  · cases hs
  · cases hs
  · cases hs
    have hempty : io.states io.tail = .empty := by
      by_contra hne
      exact hbusy ⟨hne, not_not.mp herror⟩
    refine ⟨hconv, hun, out, queue, hps, hq.reserve hempty, ?_⟩
    cases th with
    | storing written => cases written <;> exact hphase
    | _ => exact hphase

theorem publish (h : WriterInv convert ps io th) {p : Packet}
    (hs : (io.copyPacket p).writePublish p.payload.length = (.ok (), io')) :
    WriterInv convert (ps ++ [p.payload]) io' th := by
  obtain ⟨hconv, hun, out, queue, hps, hq, hphase⟩ := h
  unfold writePublish at hs
  split_ifs at hs with hlen hres
  · cases hs
  · cases hs
  · cases hs
    have hres := not_not.mp hres
    have hroom := hq.count_lt (by rw [show io.states io.tail = .reserved from hres]; decide)
      (by rw [show io.states io.tail = .reserved from hres]; decide)
    refine ⟨hconv, hun, out, queue ++ [p.payload], by simp [hps],
      (hq.copyPacket hroom p).publish hres (copyPacket_data io p), ?_⟩
    cases th with
    | writing n length =>
      obtain ⟨d, rest, rfl, hrest⟩ := hphase
      exact ⟨d, rest ++ [p.payload], rfl, hrest⟩
    | storing written =>
      cases written with
      | true =>
        obtain ⟨d, rest, rfl, hrest⟩ := hphase
        exact ⟨d, rest ++ [p.payload], rfl, hrest⟩
      | false => exact List.append_ne_nil_of_left_ne_nil hphase _
    | _ => exact hphase

/-- With nothing in the ring all that was published has been written. -/
theorem written (h : WriterInv convert ps io th) (herror : io.error = 0) (hcount : io.count = 0) :
    io.Written ps.flatten ∧ Queued [] io ∧ (th = .locking ∨ th = .exited) := by
  obtain ⟨-, -, out, queue, rfl, hq, hphase⟩ := h
  obtain rfl : queue = [] := List.length_eq_zero_iff.mp (hq.count_eq ▸ hcount)
  rw [List.append_nil]
  cases th with
  | locking => exact ⟨hphase herror, hq, .inl rfl⟩
  | exited => exact ⟨hphase herror, hq, .inr rfl⟩
  | writing n length =>
    obtain ⟨d, rest, hd, -⟩ := hphase
    cases hd
  | storing written =>
    cases written with
    | true =>
      obtain ⟨d, rest, hd, -⟩ := hphase
      cases hd
    | false => exact absurd rfl hphase

/-- As many rounds as there are packets empty the ring. -/
theorem drainLoop_count {k : ℕ} (hk : io.count ≤ k) (he : (drainLoop k io).error = 0) :
    (drainLoop k io).count = 0 := by
  have hfail : ∀ (io : TftpIo) (e : ℤ), (io.ioError e).error ≠ 0 := by
    intro io e
    obtain ⟨e', he', hio⟩ := io.ioError_eq e
    rw [hio]
    exact he'
  induction k generalizing io with
  | zero => exact Nat.le_zero.mp hk
  | succ k ih =>
    rw [TftpIo.drainLoop] at he ⊢
    split_ifs at he ⊢ with hmore hready
    · exact absurd he (hfail _ _)
    · dsimp only at he ⊢
      obtain ⟨file, cr, hframe⟩ := (io.setState io.head .writing).opsWritePacket_frame
        (io.packets io.head) (io.lengths io.head)
      split at he
      · exact absurd he (hfail _ _)
      · rename_i n io₁ hwrite
        obtain rfl : io₁ = _ := (congrArg Prod.snd hwrite).symm.trans hframe
        refine ih ?_ he
        change io.count - 1 ≤ k
        omega
    · by_contra hne
      exact hmore ⟨hne, he⟩

/-- The unthreaded loop does with each packet what the thread does. -/
theorem drainLoop (h : WriterInv convert ps io .exited) (k : ℕ) :
    WriterInv convert ps (drainLoop k io) .exited := by
  induction k generalizing io with
  | zero => exact h
  | succ k ih =>
    obtain ⟨hconv, -, out, queue, hps, hq, hphase⟩ := id h
    rw [TftpIo.drainLoop]
    split_ifs with hmore hready
    · exact .of_error hconv hps hq EIO
    · have hq₀ := hq.writing (not_not.mp hready)
      obtain ⟨d, rest, rfl⟩ := List.exists_cons_of_ne_nil (hq.ne_nil_of_ready (not_not.mp hready))
      have hlen : (io.setState io.head .writing).lengths (io.setState io.head .writing).head = d.length := by
        rw [← hq₀.slot_zero]
        exact hq₀.length_eq 0 d rfl
      obtain ⟨file, cr, hframe, hq', hw'⟩ := hq₀.write_head hphase
      dsimp only
      rw [hlen]
      split
      · rename_i io₁ hwrite
        obtain rfl : io₁ = _ := (congrArg Prod.snd hwrite).symm.trans hframe
        refine .of_error ?_ hps hq' EIO
        exact hconv
      · rename_i n io₁ hwrite
        obtain rfl : io₁ = _ := (congrArg Prod.snd hwrite).symm.trans hframe
        refine ih ⟨hconv, fun _ => rfl, out ++ [d], rest, by simp [hps], hq'.dequeue, fun he => ?_⟩
        rw [List.flatten_append, List.flatten_singleton]
        exact hw' (by rw [hwrite]; simp) he
    · exact h

/-- A successful drain leaves nothing in the ring. -/
theorem drained (h : WriterInv convert ps io th) {flush : Option ℤ}
    (hs : io.writeDrain flush = some (.ok (), io')) :
    WriterInv convert ps io' th ∧ io'.error = 0 ∧ io'.count = 0 := by
  have hflush : ∀ io₁ : TftpIo, io₁.flushDrained flush = (.ok (), io') → io₁ = io' ∧ io₁.error = 0 := by
    intro io₁ h₁
    unfold flushDrained at h₁
    split_ifs at h₁ with he
    · cases h₁
    · cases flush <;> cases h₁
      exact ⟨rfl, not_not.mp he⟩
  unfold writeDrain at hs
  split_ifs at hs with hthreaded hwait
  · obtain ⟨rfl, he⟩ := hflush _ (Option.some.inj hs)
    refine ⟨h, he, ?_⟩
    by_contra hne
    exact hwait ⟨hne, he⟩
  · obtain ⟨rfl, he⟩ := hflush _ (Option.some.inj hs)
    obtain rfl := h.unthreaded (Bool.not_eq_true _ ▸ hthreaded)
    exact ⟨h.drainLoop _, he, drainLoop_count le_rfl he⟩

/-- After the final flush the file is what was published. -/
theorem finished (h : WriterInv convert ps io th) (herror : io.error = 0) (hcount : io.count = 0)
    {flush : Option ℤ} (hs : io.writeFinish flush = (.ok (), io')) :
    io'.file.written = converted convert false ps.flatten ∧ Resting io' th := by
  obtain ⟨hw, hq, hth⟩ := h.written herror hcount
  obtain ⟨file, cr, hframe⟩ := io.opsWriteFinish_frame true
  have hok : (io.opsWriteFinish true).1 = true ∧ (io.opsWriteFinish true).2 = io' := by
    unfold writeFinish at hs
    cases hfin : io.opsWriteFinish true with
    | mk ok io₁ =>
      rw [hfin] at hs
      cases ok <;> cases flush <;> cases hs
      exact ⟨rfl, rfl⟩
  rw [← hok.2, ← h.convert_eq]
  refine ⟨opsWriteFinish_written hw hok.1, hth, ?_⟩
  rw [hframe]
  exact hq.head_not_ready

end WriterInv

end TftpHpa.TftpIo
