import TftpHpa.Io.WriterRing
import TftpHpa.Lib.Transition

/-! The writing ring at work. On one side is `writer_thread`, on the other a producer that
reserves a slot, fills it and publishes it, one slot at a time, and waits for the ring to
drain when it sees fit: this is how `tftp_xfer_recv` goes about it. The two take their
steps in any order. The calls of `write_packet` are labels of their own, so that a trace
shows what was published and what was written. -/

namespace TftpHpa

open Transition

/-- Where the producer stands: without a slot, with one, with a packet in it. -/
inductive WritingPc where
  | idle
  | reserved
  | filled (p : Packet)

structure Writing where
  io : TftpIo
  thread : TftpIo.WriterThread
  pc : WritingPc := .idle

inductive WritingLabel where
  | reserve
  | reserveFailed (error : ℤ)
  | fill (p : Packet)
  | publish (p : Packet)
  | publishFailed (p : Packet) (error : ℤ)
  | drained
  | drainFailed (flush : Option ℤ) (error : ℤ)
  | thread
  | write (data : Bytes) (ok : Bool)

namespace Writing

def step (s : Writing) : WritingLabel → Option Writing
  | .reserve =>
    match s.pc, s.io.writeReserve with
    | .idle, some (.ok _, io) => some { s with io, pc := .reserved }
    | _, _ => none
  | .reserveFailed e =>
    match s.pc, s.io.writeReserve with
    | .idle, some (.error e', io) => if e = e' then some { s with io } else none
    | _, _ => none
  | .fill p =>
    match s.pc with
    | .idle => none
    | _ => some { s with io := s.io.copyPacket p, pc := .filled p }
  | .publish p =>
    match s.pc, s.io.writePublish p.payload.length with
    | .filled q, (.ok _, io) => if p = q then some { s with io, pc := .idle } else none
    | _, _ => none
  | .publishFailed p e =>
    match s.pc, s.io.writePublish p.payload.length with
    | .filled q, (.error e', io) => if p = q ∧ e = e' then some { s with io } else none
    | _, _ => none
  | .drained =>
    match s.io.writeDrain none with
    | some (.ok _, io) => some { s with io }
    | _ => none
  | .drainFailed flush e =>
    match s.io.writeDrain flush with
    | some (.error e', io) => if e = e' then some { s with io } else none
    | _ => none
  | .thread =>
    match s.thread with
    | .writing _ _ => none
    | th => (s.io.writerThread th).map fun (io, thread) => { s with io, thread }
  | .write data ok =>
    match s.thread with
    | .writing n length =>
      let written := s.io.opsWritePacket (s.io.packets n) length
      if data = (s.io.packets n).data.take length ∧ ok = decide (written.1 = some length) then
        (s.io.writerThread s.thread).map fun (io, thread) => { s with io, thread }
      else none
    | _ => none

def start (file : File) (convert : Bool) (slots blocksize : ℕ) : Writing where
  io := .init file convert slots 0 blocksize true
  thread := .start true

/-- The payloads published, in order. -/
def published (t : List WritingLabel) : List Bytes :=
  t.filterMap fun
    | .publish p => some p.payload
    | _ => none

/-- What `write_packet` was called with, in order. -/
def written (t : List WritingLabel) : List Bytes :=
  t.filterMap fun
    | .write data _ => some data
    | _ => none

end Writing

/-! ### Slot states -/

namespace TftpIo

/-- The slots in use are ready, except the head while it is being written; the others
are empty, except the tail while it is reserved. -/
structure SlotStates (busy reserved : Bool) (io : TftpIo) : Prop where
  busy_pos : busy = true → 0 < io.count
  reserved_lt : reserved = true → io.count < io.slots
  used : ∀ i < io.count, io.states (io.slot i) = if busy = true ∧ i = 0 then .writing else .ready
  free : ∀ i < io.slots, io.count ≤ i →
    io.states (io.slot i) = if reserved = true ∧ i = io.count then .reserved else .empty

theorem setState_slot (io : TftpIo) {i j : ℕ} (hi : i < io.slots) (hj : j < io.slots) (st : SlotState) :
    (io.setState (io.slot j) st).states (io.slot i) = if i = j then st else io.states (io.slot i) := by
  split_ifs with he
  · rw [he]
    exact Function.update_self _ _ _
  · exact Function.update_of_ne (RingIndex.slot_ne hi hj he) _ _

namespace SlotStates

variable {queue : List Bytes} {busy reserved : Bool} {io : TftpIo}

theorem reserve (h : SlotStates busy false io) (hq : Queued queue io) (hroom : io.count < io.slots) :
    SlotStates busy true (io.setState io.tail .reserved) := by
  rw [hq.tail_eq]
  refine ⟨h.busy_pos, fun _ => hroom, fun i hi => ?_, fun i hi hle => ?_⟩
  · have hi' : i < io.count := hi
    exact (io.setState_slot (by omega) hroom _).trans ((if_neg hi'.ne).trans (h.used i hi))
  · refine (io.setState_slot hi hroom _).trans ?_
    have hfree := h.free i hi hle
    by_cases he : i = io.count
    · simp [he, setState]
    · simpa [he, setState] using hfree

theorem publish (h : SlotStates busy true io) (hq : Queued queue io) (length : ℕ) :
    SlotStates busy false { io.setState io.tail .ready with
      lengths := Function.update io.lengths io.tail length
      tail := io.ioNext io.tail
      count := io.count + 1 } := by
  have hroom := h.reserved_lt rfl
  rw [hq.tail_eq]
  refine ⟨fun _ => Nat.succ_pos _, fun hf => absurd hf (by decide), fun i hi => ?_, fun i hi hle => ?_⟩
  · have hi' : i < io.count + 1 := hi
    refine (io.setState_slot (by omega) hroom _).trans ?_
    by_cases he : i = io.count
    · have hpos := h.busy_pos
      rw [if_pos he, if_neg]
      rintro ⟨hb, h0⟩
      have := hpos hb
      omega
    · rw [if_neg he]
      exact h.used i (by omega)
  · have hle' : io.count + 1 ≤ i := hle
    refine (io.setState_slot hi hroom _).trans ?_
    rw [if_neg (by omega), h.free i hi (by omega), if_neg (fun hc => by omega), if_neg (fun hc => by cases hc.1)]

theorem writing (h : SlotStates false reserved io) (hq : Queued queue io) (hpos : 0 < io.count) :
    SlotStates true reserved (io.setState io.head .writing) := by
  have hslots : 0 < io.slots := Nat.zero_lt_of_lt hq.head_lt
  rw [← hq.slot_zero]
  refine ⟨fun _ => hpos, h.reserved_lt, fun i hi => ?_, fun i hi hle => ?_⟩
  · have hcount := hq.count_le
    have hi' : i < io.count := hi
    refine (io.setState_slot (by omega) hslots _).trans ?_
    by_cases he : i = 0
    · simp [he]
    · rw [if_neg he, h.used i hi, if_neg (fun hc => by cases hc.1), if_neg (fun hc => he hc.2)]
  · have hle' : io.count ≤ i := hle
    refine (io.setState_slot hi hslots _).trans ?_
    rw [if_neg (by omega)]
    exact h.free i hi hle

theorem dequeue {d : Bytes} (h : SlotStates true reserved io) (hq : Queued (d :: queue) io) :
    SlotStates false reserved io.dequeue := by
  have hpos := h.busy_pos rfl
  have hcount := hq.count_le
  have hslots : 0 < io.slots := by omega
  have hslot : ∀ i, io.dequeue.slot i = io.slot (i + 1) := hq.dequeue_slot
  have hstate : ∀ i, i + 1 < io.slots → io.dequeue.states (io.slot (i + 1)) = io.states (io.slot (i + 1)) := by
    intro i hi
    change (io.setState io.head .empty).states (io.slot (i + 1)) = _
    rw [← hq.slot_zero, io.setState_slot hi hslots, if_neg (Nat.succ_ne_zero i)]
  refine ⟨fun hf => absurd hf (by decide), fun hr => ?_, fun i hi => ?_, fun i hi hle => ?_⟩
  · have := h.reserved_lt hr
    change io.count - 1 < io.slots
    omega
  · have hi' : i < io.count - 1 := hi
    rw [hslot, hstate i (by omega), h.used (i + 1) (by omega), if_neg (fun hc => Nat.succ_ne_zero i hc.2),
      if_neg (fun hc => by cases hc.1)]
  · have hi' : i < io.slots := hi
    have hle' : io.count - 1 ≤ i := hle
    rw [hslot]
    change _ = if reserved = true ∧ i = io.count - 1 then _ else _
    by_cases hlast : i + 1 = io.slots
    · -- the slot behind the last one is the head that has just been emptied
      have hhead : io.slot (i + 1) = io.slot 0 := by
        rw [hlast, slot, slot, Nat.add_mod_right, Nat.add_zero]
      rw [hhead, if_neg (fun hc => by have := h.reserved_lt hc.1; omega), hq.slot_zero]
      exact Function.update_self _ _ _
    · rw [hstate i (by omega), h.free (i + 1) (by omega) (by omega)]
      exact if_congr (and_congr_right fun _ => by omega) rfl rfl

end SlotStates

end TftpIo

/-! ### The invariant of a run -/

namespace Writing

open TftpIo (WriterThread Queued SlotStates)

/-- Whether the producer has a slot. -/
def reserves : WritingPc → Bool
  | .idle => false
  | _ => true

/-- The ring while there is no error: `ps` has been published, `ws` handed to `write_packet`,
and the difference is in the slots. -/
def Phase (reserved : Bool) (ps ws : List Bytes) (io : TftpIo) : WriterThread → Prop
  | .locking => ∃ queue, ps = ws ++ queue ∧ Queued queue io ∧ SlotStates false reserved io
  | .writing n length => ∃ d rest, ps = ws ++ d :: rest ∧ Queued (d :: rest) io ∧ SlotStates true reserved io ∧
      n = io.head ∧ length = d.length
  | .storing _ => ∃ out d rest, ws = out ++ [d] ∧ ps = out ++ d :: rest ∧ Queued (d :: rest) io ∧
      SlotStates true reserved io
  | .exited => False

structure Inv (t : List WritingLabel) (s : Writing) : Prop where
  threaded : s.io.threaded = true
  running : s.io.stopped = false
  phase : s.io.error = 0 → Phase (reserves s.pc) (published t) (written t) s.io s.thread
  filled : ∀ p, s.pc = .filled p → (s.io.packets s.io.tail).data.take p.payload.length = p.payload
  halted : s.io.error ≠ 0 → s.thread = .locking ∨ s.thread = .exited
  written_prefix : written t <+: published t
  failed : (∃ data, .write data false ∈ t) → s.thread = .storing false ∨ s.io.error ≠ 0
  drainFailed : (∃ flush e, .drainFailed flush e ∈ t) → s.io.error ≠ 0

variable {t : List WritingLabel} {s s' : Writing} {io io' : TftpIo} {th : WriterThread} {ps ws : List Bytes}
  {r r' : Bool}

/-- A step of the producer adds `more` to the queue and leaves what the thread is doing. -/
theorem Phase.map (h : Phase r ps ws io th) (more : List Bytes) (hhead : io'.head = io.head)
    (hio : ∀ queue busy, Queued queue io → SlotStates busy r io →
      Queued (queue ++ more) io' ∧ SlotStates busy r' io') : Phase r' (ps ++ more) ws io' th := by
  cases th with
  | locking =>
    obtain ⟨queue, rfl, hq, hst⟩ := h
    exact ⟨queue ++ more, List.append_assoc _ _ _, hio _ _ hq hst⟩
  | writing n length =>
    obtain ⟨d, rest, rfl, hq, hst, hn, hlen⟩ := h
    obtain ⟨hq', hst'⟩ := hio _ _ hq hst
    exact ⟨d, rest ++ more, List.append_assoc _ _ _, hq', hst', hn.trans hhead.symm, hlen⟩
  | storing ok =>
    obtain ⟨out, d, rest, hws, rfl, hq, hst⟩ := h
    exact ⟨out, d, rest ++ more, hws, List.append_assoc _ _ _, hio _ _ hq hst⟩
  | exited => exact h

theorem Phase.queued (h : Phase r ps ws io th) : ∃ queue busy, Queued queue io ∧ SlotStates busy r io := by
  cases th with
  | locking =>
    obtain ⟨queue, -, hq, hst⟩ := h
    exact ⟨queue, false, hq, hst⟩
  | writing n length =>
    obtain ⟨d, rest, -, hq, hst, -⟩ := h
    exact ⟨_, true, hq, hst⟩
  | storing ok =>
    obtain ⟨out, d, rest, -, -, hq, hst⟩ := h
    exact ⟨_, true, hq, hst⟩
  | exited => exact h.elim

/-- A label that leaves no mark in what was published, written or has failed. -/
def Silent : WritingLabel → Prop
  | .publish _ | .drainFailed _ _ | .write _ _ => False
  | _ => True

theorem Silent.log {l : WritingLabel} (hl : Silent l) (t : List WritingLabel) :
    published (t ++ [l]) = published t ∧ written (t ++ [l]) = written t := by
  cases l with
  | publish p | drainFailed flush e | write data ok => exact hl.elim
  | _ => simp [published, written]

theorem Inv.silent (h : Inv t s) {l : WritingLabel} (hl : Silent l) (hthreaded : s'.io.threaded = true)
    (hrunning : s'.io.stopped = false)
    (hphase : s'.io.error = 0 → Phase (reserves s'.pc) (published t) (written t) s'.io s'.thread)
    (hfilled : ∀ p, s'.pc = .filled p → (s'.io.packets s'.io.tail).data.take p.payload.length = p.payload)
    (hhalted : s'.io.error ≠ 0 → s'.thread = .locking ∨ s'.thread = .exited)
    (hfailed : s.thread = .storing false ∨ s.io.error ≠ 0 → s'.thread = .storing false ∨ s'.io.error ≠ 0)
    (herror : s.io.error ≠ 0 → s'.io.error ≠ 0) : Inv (t ++ [l]) s' := by
  obtain ⟨hpub, hwr⟩ := hl.log t
  refine ⟨hthreaded, hrunning, by rwa [hpub, hwr], hfilled, hhalted, by rw [hpub, hwr]; exact h.written_prefix, ?_, ?_⟩
  · rintro ⟨data, hmem⟩
    rcases List.mem_append.mp hmem with hmem | hmem
    · exact hfailed (h.failed ⟨data, hmem⟩)
    · rw [← List.mem_singleton.mp hmem] at hl
      exact hl.elim
  · rintro ⟨flush, e, hmem⟩
    rcases List.mem_append.mp hmem with hmem | hmem
    · exact herror (h.drainFailed ⟨flush, e, hmem⟩)
    · rw [← List.mem_singleton.mp hmem] at hl
      exact hl.elim

/-! ### Steps of the producer -/

theorem Inv.reserve (h : Inv t s) (hpc : s.pc = .idle) (hr : s.io.writeReserve = some (.ok (), io)) :
    Inv (t ++ [.reserve]) { s with io, pc := .reserved } := by
  unfold TftpIo.writeReserve at hr
  split_ifs at hr with hbusy hthreaded herror
  · cases hr
  · cases hr
  · have hempty : s.io.states s.io.tail = .empty := by
      by_contra hne
      exact hbusy ⟨hne, not_not.mp herror⟩
    cases hr
    refine h.silent trivial h.threaded h.running (fun h0 => ?_) (fun p hp => by cases hp) h.halted id id
    have hphase := h.phase h0
    rw [hpc] at hphase
    rw [← List.append_nil (published t)]
    refine hphase.map [] rfl fun queue busy hq hst => ?_
    rw [List.append_nil]
    exact ⟨hq.reserve hempty, hst.reserve hq (hq.count_lt (by simp [hempty]) (by simp [hempty]))⟩

theorem reserves_of_ne {pc : WritingPc} (hpc : pc ≠ .idle) : reserves pc = true := by
  cases pc with
  | idle => exact absurd rfl hpc
  | _ => rfl

theorem Inv.fill (h : Inv t s) (hpc : s.pc ≠ .idle) (p : Packet) :
    Inv (t ++ [.fill p]) { s with io := s.io.copyPacket p, pc := .filled p } := by
  refine h.silent trivial h.threaded h.running (fun h0 => ?_) (fun q hq => ?_) h.halted id id
  · have hphase := h.phase h0
    rw [reserves_of_ne hpc] at hphase
    rw [← List.append_nil (published t)]
    refine hphase.map [] rfl fun queue busy hq hst => ?_
    rw [List.append_nil]
    exact ⟨hq.copyPacket (hst.reserved_lt rfl) p, hst.busy_pos, hst.reserved_lt, hst.used, hst.free⟩
  · cases hq
    exact s.io.copyPacket_data p

theorem Inv.publish (h : Inv t s) {p : Packet} (hpc : s.pc = .filled p)
    (hr : s.io.writePublish p.payload.length = (.ok (), io)) :
    Inv (t ++ [.publish p]) { s with io, pc := .idle } := by
  have hlog : published (t ++ [.publish p]) = published t ++ [p.payload] ∧ written (t ++ [.publish p]) = written t := by
    simp [published, written]
  unfold TftpIo.writePublish at hr
  split_ifs at hr with hlen hres
  · cases hr
  · cases hr
  · cases hr
    refine ⟨h.threaded, h.running, fun h0 => ?_, (fun q hq => by cases hq), h.halted, ?_, ?_, ?_⟩
    · have hphase := h.phase h0
      rw [hpc] at hphase
      rw [hlog.1, hlog.2]
      exact hphase.map [p.payload] rfl fun queue busy hq hst =>
        ⟨hq.publish (not_not.mp hres) (h.filled p hpc), hst.publish hq _⟩
    · rw [hlog.1, hlog.2]
      exact h.written_prefix.trans (List.prefix_append _ _)
    · rintro ⟨data, hmem⟩
      exact h.failed ⟨data, by simpa using hmem⟩
    · rintro ⟨flush, e, hmem⟩
      exact h.drainFailed ⟨flush, e, by simpa using hmem⟩

/-- A drain waits for the thread or leaves the ring alone, except for an error of `fflush`. -/
theorem writeDrain_cases (hthreaded : io.threaded = true) {flush : Option ℤ} {res : Except ℤ Unit}
    (hr : io.writeDrain flush = some (res, io')) :
    (res = .ok () ∧ io' = io ∧ io.error = 0 ∧ io.count = 0) ∨
      ∃ e, res = .error e ∧ io'.error ≠ 0 ∧ (io' = io ∨ io.count = 0 ∧ io.error = 0 ∧
        io' = { io with error := io'.error }) := by
  simp only [TftpIo.writeDrain, hthreaded, if_true] at hr
  split_ifs at hr with hwait
  simp only [TftpIo.flushDrained, Option.some.injEq] at hr
  split_ifs at hr with herror
  · cases hr
    exact .inr ⟨_, rfl, herror, .inl rfl⟩
  · have herror := not_not.mp herror
    have hcount : io.count = 0 := by
      by_contra hne
      exact hwait ⟨hne, herror⟩
    cases flush with
    | none =>
      cases hr
      exact .inl ⟨rfl, rfl, herror, hcount⟩
    | some e =>
      cases hr
      obtain ⟨e', he', hio⟩ := io.ioError_eq (if e = 0 then TftpHpa.EIO else e)
      rw [hio]
      exact .inr ⟨_, rfl, he', .inr ⟨hcount, herror, rfl⟩⟩

/-- An empty ring: everything has been written and the thread is waiting. -/
theorem Phase.of_empty (h : Phase r ps ws io th) (hcount : io.count = 0) : th = .locking ∧ ps = ws := by
  cases th with
  | locking =>
    obtain ⟨queue, rfl, hq, -⟩ := h
    rw [List.length_eq_zero_iff.mp (hq.count_eq.symm.trans hcount), List.append_nil]
    exact ⟨rfl, rfl⟩
  | writing n length =>
    obtain ⟨d, rest, -, hq, -⟩ := h
    cases hq.count_eq.symm.trans hcount
  | storing ok =>
    obtain ⟨out, d, rest, -, -, hq, -⟩ := h
    cases hq.count_eq.symm.trans hcount
  | exited => exact h.elim

theorem Inv.drainFailed_step (h : Inv t s) {flush : Option ℤ} {e : ℤ}
    (hr : s.io.writeDrain flush = some (.error e, io)) : Inv (t ++ [.drainFailed flush e]) { s with io } := by
  have hlog : published (t ++ [.drainFailed flush e]) = published t ∧
      written (t ++ [.drainFailed flush e]) = written t := by simp [published, written]
  obtain ⟨hok, -⟩ | ⟨e', -, herror, hio⟩ := writeDrain_cases h.threaded hr
  · cases hok
  · have hframe : io = { s.io with error := io.error } := by
      rcases hio with rfl | ⟨-, -, hio⟩
      · rfl
      · exact hio
    refine ⟨by rw [hframe]; exact h.threaded, by rw [hframe]; exact h.running, fun h0 => absurd h0 herror, ?_, ?_, ?_,
      fun _ => .inr herror, fun _ => herror⟩
    · rw [hframe]
      exact h.filled
    · intro _
      rcases hio with rfl | ⟨hcount, h0, -⟩
      · exact h.halted herror
      · exact .inl ((h.phase h0).of_empty hcount).1
    · rw [hlog.1, hlog.2]
      exact h.written_prefix

/-! ### Steps of the thread -/

theorem Inv.thread (h : Inv t s) (hbusy : ∀ n length, s.thread ≠ .writing n length)
    (hr : s.io.writerThread s.thread = some (io, th)) : Inv (t ++ [.thread]) { s with io, thread := th } := by
  cases hth : s.thread with
  | writing n length => exact absurd hth (hbusy n length)
  | exited =>
    rw [hth] at hr
    cases hr
  | locking =>
    rw [hth] at hr
    simp only [TftpIo.writerThread, h.running, Bool.false_eq_true, true_and, false_or] at hr
    split_ifs at hr with hwait herror
    · cases hr
      exact h.silent trivial h.threaded h.running (fun h0 => absurd h0 herror) h.filled (fun _ => .inr rfl)
        (fun _ => .inr herror) id
    · cases hr
      have herror := not_not.mp herror
      have hready : s.io.states s.io.head = .ready := by
        by_contra hne
        exact hwait ⟨hne, herror⟩
      have hphase := h.phase herror
      rw [hth] at hphase
      obtain ⟨queue, hps, hq, hst⟩ := hphase
      obtain ⟨d, rest, rfl⟩ := List.exists_cons_of_ne_nil (hq.ne_nil_of_ready hready)
      have hlen : s.io.lengths s.io.head = d.length := by
        rw [← hq.slot_zero]
        exact hq.length_eq 0 d rfl
      refine h.silent trivial h.threaded h.running (fun _ => ?_) h.filled (fun h0 => absurd herror h0) (fun hf => ?_) id
      · exact ⟨d, rest, hps, hq.writing hready, hst.writing hq (by simp [hq.count_eq]), rfl, hlen⟩
      · rw [hth] at hf
        exact absurd herror (hf.resolve_left (by simp))
  | storing ok =>
    rw [hth] at hr
    cases ok with
    | false =>
      obtain ⟨rfl, rfl⟩ := Prod.mk.inj (Option.some.inj hr)
      obtain ⟨e, he, hio⟩ := s.io.ioError_eq EIO
      rw [hio]
      exact h.silent trivial h.threaded h.running (fun h0 => absurd h0 he) h.filled (fun _ => .inr rfl)
        (fun _ => .inr he) fun _ => he
    | true =>
      obtain ⟨rfl, rfl⟩ := Prod.mk.inj (Option.some.inj hr)
      refine h.silent trivial h.threaded h.running (fun h0 => ?_) h.filled (fun h0 => .inl rfl) (fun hf => ?_) id
      · have hphase := h.phase h0
        rw [hth] at hphase
        obtain ⟨out, d, rest, hws, hps, hq, hst⟩ := hphase
        refine ⟨rest, ?_, hq.dequeue, hst.dequeue hq⟩
        rw [hps, hws, List.append_assoc, List.singleton_append]
      · rw [hth] at hf
        exact .inr (hf.resolve_left (by simp))

theorem Inv.error_of_writing (h : Inv t s) {n length : ℕ} (hth : s.thread = .writing n length) : s.io.error = 0 := by
  by_contra hne
  rcases h.halted hne with hl | hl
  · cases hth.symm.trans hl
  · cases hth.symm.trans hl

/-- `write_packet` is called with the packet at the head of the queue. -/
theorem Inv.write (h : Inv t s) {n length : ℕ} (hth : s.thread = .writing n length) (ok : Bool) :
    Inv (t ++ [.write ((s.io.packets n).data.take length) ok])
      { s with io := (s.io.opsWritePacket (s.io.packets n) length).2, thread := .storing ok } := by
  have herror := h.error_of_writing hth
  have hphase := h.phase herror
  rw [hth] at hphase
  obtain ⟨d, rest, hps, hq, hst, rfl, rfl⟩ := hphase
  have hdata : (s.io.packets s.io.head).data.take d.length = d := by
    rw [← hq.slot_zero]
    exact hq.data_eq 0 d rfl
  obtain ⟨file, cr, hframe⟩ := s.io.opsWritePacket_frame (s.io.packets s.io.head) d.length
  rw [hdata, hframe]
  have hlog : published (t ++ [.write d ok]) = published t ∧ written (t ++ [.write d ok]) = written t ++ [d] := by
    simp [published, written]
  refine ⟨h.threaded, h.running, fun _ => ?_, h.filled, fun hne => absurd herror hne, ?_, ?_, ?_⟩
  · rw [hlog.1, hlog.2]
    exact ⟨written t, d, rest, rfl, hps, hq.withFile file cr, hst.busy_pos, hst.reserved_lt, hst.used, hst.free⟩
  · rw [hlog.1, hlog.2, hps]
    exact ⟨rest, by simp⟩
  · rintro ⟨data, hmem⟩
    rcases List.mem_append.mp hmem with hmem | hmem
    · rcases h.failed ⟨data, hmem⟩ with hl | hl
      · cases hth.symm.trans hl
      · exact absurd herror hl
    · cases List.mem_singleton.mp hmem
      exact .inl rfl
  · rintro ⟨flush, e, hmem⟩
    exact h.drainFailed ⟨flush, e, by simpa using hmem⟩

/-! ### Runs -/

theorem writeReserve_error (hthreaded : io.threaded = true) {e : ℤ} (hr : io.writeReserve = some (.error e, io')) :
    io' = io ∧ io.error ≠ 0 := by
  unfold TftpIo.writeReserve at hr
  split_ifs at hr with hbusy herror
  · cases hr
    exact ⟨rfl, herror⟩
  · cases hr

theorem writePublish_error {length : ℕ} {e : ℤ} (hr : io.writePublish length = (.error e, io')) : io' = io := by
  unfold TftpIo.writePublish at hr
  split_ifs at hr
  · cases hr
    rfl
  · cases hr
    rfl
  · cases hr

/-- A step that changes nothing. -/
theorem Inv.idle (h : Inv t s) {l : WritingLabel} (hl : Silent l) : Inv (t ++ [l]) s :=
  h.silent hl h.threaded h.running h.phase h.filled h.halted id id

theorem Inv.step (h : Inv t s) {l : WritingLabel} (hs : s.step l = some s') : Inv (t ++ [l]) s' := by
  cases l with
  | reserve =>
    simp only [Writing.step] at hs
    split at hs
    · rename_i hpc hr
      obtain rfl := Option.some.inj hs
      exact h.reserve hpc hr
    · cases hs
  | reserveFailed e =>
    simp only [Writing.step] at hs
    split at hs
    · rename_i hpc hr
      split_ifs at hs
      obtain rfl := Option.some.inj hs
      obtain ⟨rfl, -⟩ := writeReserve_error h.threaded hr
      exact h.idle trivial
    · cases hs
  | fill p =>
    simp only [Writing.step] at hs
    split at hs
    · cases hs
    · rename_i hpc
      obtain rfl := Option.some.inj hs
      exact h.fill hpc p
  | publish p =>
    simp only [Writing.step] at hs
    split at hs
    · rename_i hpc hr
      split_ifs at hs with hp
      obtain rfl := Option.some.inj hs
      exact h.publish (hp ▸ hpc) hr
    · cases hs
  | publishFailed p e =>
    simp only [Writing.step] at hs
    split at hs
    · rename_i hpc hr
      split_ifs at hs
      obtain rfl := Option.some.inj hs
      obtain rfl := writePublish_error hr
      exact h.idle trivial
    · cases hs
  | drained =>
    simp only [Writing.step] at hs
    split at hs
    · rename_i hr
      obtain rfl := Option.some.inj hs
      obtain ⟨-, rfl, -⟩ | ⟨e, he, -⟩ := writeDrain_cases h.threaded hr
      · exact h.idle trivial
      · cases he
    · cases hs
  | drainFailed flush e =>
    simp only [Writing.step] at hs
    split at hs
    · rename_i hr
      split_ifs at hs with he
      obtain rfl := Option.some.inj hs
      exact h.drainFailed_step (he ▸ hr)
    · cases hs
  | thread =>
    simp only [Writing.step] at hs
    split at hs
    · cases hs
    · rename_i hbusy
      obtain ⟨⟨io, th⟩, hr, rfl⟩ := Option.map_eq_some_iff.mp hs
      exact h.thread hbusy hr
  | write data ok =>
    simp only [Writing.step] at hs
    split at hs
    · rename_i n length hth
      split_ifs at hs with hcall
      obtain ⟨rfl, rfl⟩ := hcall
      rw [hth] at hs
      obtain rfl := Option.some.inj hs
      exact h.write hth _
    · cases hs

theorem Inv.of_run {file : File} {convert : Bool} {slots blocksize : ℕ} (hslots : 1 ≤ slots)
    (hrun : run Writing.step (start file convert slots blocksize) t = some s) : Inv t s := by
  refine run_invariant Inv ?_ (fun t s l s' hi hs => hi.step hs) hrun
  refine ⟨rfl, rfl, fun _ => ⟨[], rfl, ?_, ?_⟩, (fun p hp => by cases hp), fun hne => absurd rfl hne, List.prefix_rfl,
    by simp, by simp⟩
  · exact .init _ _ hslots _ _ _
  · exact ⟨by simp, by simp [reserves, start], fun i hi => absurd hi (Nat.not_lt_zero i),
      by simp [reserves, start, TftpIo.init]⟩

/-- Without an error the thread waits only when all that was published has been written. -/
theorem Phase.of_waiting (h : Phase r ps ws io th) (hwait : io.writerThread th = none) : io.count = 0 := by
  cases th with
  | locking =>
    obtain ⟨queue, -, hq, hst⟩ := h
    by_contra hne
    have hready : io.states io.head = .ready := by
      rw [← hq.slot_zero, hst.used 0 (Nat.pos_of_ne_zero hne)]
      rfl
    simp only [TftpIo.writerThread, hready, ne_eq, not_true_eq_false, false_and, if_false] at hwait
    split_ifs at hwait
  | writing n length => cases hwait
  | storing ok => cases ok <;> cases hwait
  | exited => exact h.elim

theorem writePublish_keeps_error {length : ℕ} {res : Except ℤ Unit} (hr : io.writePublish length = (res, io')) :
    io.error = io'.error := by
  unfold TftpIo.writePublish at hr
  split_ifs at hr
  · cases hr
    rfl
  · cases hr
    rfl
  · cases hr
    rfl

theorem writeReserve_of_error (herror : io.error ≠ 0) : io.writeReserve = some (.error io.error, io) := by
  rw [TftpIo.writeReserve, if_neg (fun hc => herror hc.2), if_pos herror]

/-- Once there is an error the producer gets no more slots, and nothing more is written. -/
theorem Inv.step_of_error (h : Inv t s) (herror : s.io.error ≠ 0) {l : WritingLabel} (hs : s.step l = some s') :
    s'.io.error ≠ 0 ∧ l ≠ .reserve ∧ l ≠ .drained ∧ ∀ data ok, l ≠ .write data ok := by
  have hhalted := h.halted herror
  cases l with
  | reserve =>
    simp only [Writing.step, writeReserve_of_error herror] at hs
    split at hs
    · rename_i hr
      cases hr
    · cases hs
  | reserveFailed e =>
    simp only [Writing.step, writeReserve_of_error herror] at hs
    split at hs
    · rename_i hr
      split_ifs at hs
      cases hr
      obtain rfl := Option.some.inj hs
      exact ⟨herror, by simp, by simp, by simp⟩
    · cases hs
  | fill p =>
    simp only [Writing.step] at hs
    split at hs
    · cases hs
    · obtain rfl := Option.some.inj hs
      exact ⟨herror, by simp, by simp, by simp⟩
  | publish p =>
    simp only [Writing.step] at hs
    split at hs
    · rename_i hr
      split_ifs at hs
      obtain rfl := Option.some.inj hs
      exact ⟨writePublish_keeps_error hr ▸ herror, by simp, by simp, by simp⟩
    · cases hs
  | publishFailed p e =>
    simp only [Writing.step] at hs
    split at hs
    · rename_i hr
      split_ifs at hs
      obtain rfl := Option.some.inj hs
      obtain rfl := writePublish_error hr
      exact ⟨herror, by simp, by simp, by simp⟩
    · cases hs
  | drained =>
    simp only [Writing.step] at hs
    split at hs
    · rename_i hr
      obtain ⟨-, -, h0, -⟩ | ⟨e, he, -⟩ := writeDrain_cases h.threaded hr
      · exact absurd h0 herror
      · cases he
    · cases hs
  | drainFailed flush e =>
    simp only [Writing.step] at hs
    split at hs
    · rename_i hr
      split_ifs at hs
      obtain rfl := Option.some.inj hs
      obtain ⟨hok, -⟩ | ⟨e, -, he, -⟩ := writeDrain_cases h.threaded hr
      · cases hok
      · exact ⟨he, by simp, by simp, by simp⟩
    · cases hs
  | thread =>
    simp only [Writing.step] at hs
    rcases hhalted with hth | hth
    · rw [hth] at hs
      simp only [TftpIo.writerThread, h.running, herror, and_false, if_false, ne_eq, not_false_eq_true, or_true,
        if_true, Option.map_some, Option.some.injEq] at hs
      obtain rfl := hs
      exact ⟨herror, by simp, by simp, by simp⟩
    · rw [hth] at hs
      cases hs
  | write data ok =>
    simp only [Writing.step] at hs
    rcases hhalted with hth | hth
    · rw [hth] at hs
      cases hs
    · rw [hth] at hs
      cases hs

/-- A write that has failed but is not yet on record holds up the ring. -/
theorem Inv.step_of_failed (h : Inv t s) (hth : s.thread = .storing false) (herror : s.io.error = 0) {l : WritingLabel}
    (hs : s.step l = some s') : l ≠ .drained ∧ ∀ data ok, l ≠ .write data ok := by
  cases l with
  | drained =>
    simp only [Writing.step] at hs
    split at hs
    · rename_i hr
      obtain ⟨-, -, -, hcount⟩ | ⟨e, he, -⟩ := writeDrain_cases h.threaded hr
      · cases hth.symm.trans ((h.phase herror).of_empty hcount).1
      · cases he
    · cases hs
  | write data ok =>
    simp only [Writing.step, hth] at hs
    cases hs
  | _ => exact ⟨by simp, by simp⟩

end Writing

open Writing (published written)

/-- The threaded writer: whatever the order of the steps, packets are written once each in
the order they were published, out of slots the producer keeps away from; a drain waits
for all of them; an error is the end of it; and one of the two can always go on. -/
theorem threaded_writer_ring {file : File} {convert : Bool} {slots blocksize : ℕ} (hslots : 1 ≤ slots)
    {t : List WritingLabel} {s : Writing}
    (hrun : run Writing.step (Writing.start file convert slots blocksize) t = some s) :
    written t <+: published t ∧
    (s.io.error = 0 → s.io.writerThread s.thread = none → written t = published t) ∧
    (∀ n length, s.thread = .writing n length → s.pc ≠ .idle → n ≠ s.io.tail) ∧
    (∀ u v, t = u ++ .drained :: v → written u = published u ∧ ∀ data, .write data false ∉ u) ∧
    ((∃ data, .write data false ∈ t) → (s.thread = .storing false ∨ s.io.error ≠ 0) ∧
      ∀ l s', s.step l = some s' → l ≠ .drained ∧ ∀ data ok, l ≠ .write data ok) ∧
    ((∃ flush e, .drainFailed flush e ∈ t) → s.io.error ≠ 0) ∧
    (s.io.error ≠ 0 → ∀ l s', s.step l = some s' →
      s'.io.error ≠ 0 ∧ l ≠ .reserve ∧ l ≠ .drained ∧ ∀ data ok, l ≠ .write data ok) ∧
    (s.pc = .idle → s.io.writeReserve = none → (s.io.writerThread s.thread).isSome) ∧
    ∀ flush, s.io.writeDrain flush = none → (s.io.writerThread s.thread).isSome := by
  have hinv := Writing.Inv.of_run hslots hrun
  have hgoes : s.io.error = 0 → s.io.count ≠ 0 → (s.io.writerThread s.thread).isSome := fun h0 hcount =>
    Option.isSome_iff_ne_none.mpr fun hwait => hcount ((hinv.phase h0).of_waiting hwait)
  refine ⟨hinv.written_prefix, fun h0 hwait => ?_, fun n length hth hpc => ?_, fun u v ht => ?_, fun hfail => ?_,
    hinv.drainFailed, fun herror l s' hs => hinv.step_of_error herror hs, fun hpc hwait => ?_, fun flush hwait => ?_⟩
  · exact ((hinv.phase h0).of_empty ((hinv.phase h0).of_waiting hwait)).2.symm
  · have hphase := hinv.phase (hinv.error_of_writing hth)
    rw [hth, Writing.reserves_of_ne hpc] at hphase
    obtain ⟨d, rest, -, hq, hst, rfl, -⟩ := hphase
    have hroom := hst.reserved_lt rfl
    have hpos := hst.busy_pos rfl
    rw [← hq.slot_zero]
    exact hq.slot_ne_tail hroom (by omega) hpos.ne
  · subst ht
    obtain ⟨m, hm, hrest⟩ := run_append_eq_some.mp hrun
    obtain ⟨m', hm', -⟩ := Option.bind_eq_some_iff.mp hrest
    have hu := Writing.Inv.of_run hslots hm
    simp only [Writing.step] at hm'
    split at hm'
    · rename_i hr
      obtain ⟨-, -, h0, hcount⟩ | ⟨e, he, -⟩ := Writing.writeDrain_cases hu.threaded hr
      · obtain ⟨hth, hps⟩ := (hu.phase h0).of_empty hcount
        refine ⟨hps.symm, fun data hmem => ?_⟩
        rcases hu.failed ⟨data, hmem⟩ with hl | hl
        · cases hth.symm.trans hl
        · exact hl h0
      · cases he
    · cases hm'
  · refine ⟨hinv.failed hfail, fun l s' hs => ?_⟩
    by_cases herror : s.io.error = 0
    · exact hinv.step_of_failed ((hinv.failed hfail).resolve_right (not_not.mpr herror)) herror hs
    · exact (hinv.step_of_error herror hs).2.2
  · unfold TftpIo.writeReserve at hwait
    split_ifs at hwait with hbusy
    have hphase := hinv.phase hbusy.2
    rw [hpc] at hphase
    obtain ⟨queue, busy, hq, hst⟩ := hphase.queued
    refine hgoes hbusy.2 fun hcount => hbusy.1 ?_
    -- with nothing in the ring its tail would be empty
    rw [hq.tail_eq, hst.free _ (by rw [hcount]; exact Nat.zero_lt_of_lt hq.head_lt) le_rfl]
    rfl
  · unfold TftpIo.writeDrain at hwait
    split_ifs at hwait with hthreaded hbusy
    exact hgoes hbusy.2 hbusy.1

/-- A packet through a ring of one slot. -/
theorem threaded_writer_ring_one_slot :
    let p := dataPacket 1 [7]
    let t : List WritingLabel := [.reserve, .fill p, .publish p, .thread, .write [7] true, .thread, .drained]
    ∃ s, run Writing.step (Writing.start { rest := [] } false 1 512) t = some s ∧ written t = [[7]] ∧
      written t = published t := by
  intro p t
  obtain ⟨s, hs⟩ : ∃ s, run Writing.step (Writing.start { rest := [] } false 1 512) t = some s := ⟨_, rfl⟩
  obtain ⟨-, -, -, hdrained, -⟩ := threaded_writer_ring le_rfl hs
  exact ⟨s, hs, rfl, (hdrained (t.take 6) [] rfl).1⟩

end TftpHpa
