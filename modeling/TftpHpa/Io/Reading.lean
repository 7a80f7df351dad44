import TftpHpa.Io.ReaderRing
import TftpHpa.Lib.Transition

/-! The reading ring at work. On one side is `reader_thread`, on the other a consumer that
takes a window, looks at its packets, stamps their headers and releases it again, until
it has released the final window or `read_window` has failed: this is how
`tftp_xfer_send` goes about it. The two take their steps in any order. Without the
thread the same consumer fills the ring itself. -/

namespace TftpHpa

open Transition
open Blocks (block blocks blockCount)

namespace TftpIo

/-- The data of packet `n` of the window, as `read_packet` and `read_length` show it. -/
def heldPacket (io : TftpIo) (n : ℕ) : Bytes :=
  ((io.readPacket n).elim [] Tftphdr.data).take ((io.readLength n).getD 0 - 4)

def heldPackets (io : TftpIo) : List Bytes := (List.range io.held).map io.heldPacket

end TftpIo

/-- Where the consumer stands: before `read_window`, with a window in its hands, past the
release of the final window, or after a failure of `read_window`. -/
inductive ReadingPc where
  | idle
  | holding (final : Bool)
  | done
  | failed

structure Reading where
  io : TftpIo
  thread : TftpIo.ReaderThread
  pc : ReadingPc := .idle

inductive ReadingLabel where
  | thread
  | window (packets : List Bytes) (final : Bool)
  | windowFailed (error : ℤ)
  | packet (n : ℕ) (data : Bytes)
  | length (n length : ℕ)
  | header (n : ℕ) (opcode block : UInt16)
  | release

/-- The windows handed out. -/
def Reading.windows (t : List ReadingLabel) : List (List Bytes × Bool) :=
  t.filterMap fun
    | .window packets final => some (packets, final)
    | _ => none

namespace Reading

def step (s : Reading) : ReadingLabel → Option Reading
  | .thread => (s.io.readerThread s.thread).map fun (io, thread) => { s with io, thread }
  | .window packets final =>
    match s.pc, s.io.readWindow with
    | .idle, some (.ok (_, f), io) =>
      if packets = io.heldPackets ∧ final = f then some { s with io, pc := .holding final } else none
    | _, _ => none
  | .windowFailed e =>
    match s.pc, s.io.readWindow with
    | .idle, some (.error e', io) => if e = e' then some { s with io, pc := .failed } else none
    | _, _ => none
  | .packet n data =>
    match s.pc with
    | .holding _ => if n < s.io.held ∧ data = s.io.heldPacket n then some s else none
    | _ => none
  | .length n length =>
    match s.pc with
    | .holding _ => if s.io.readLength n = some length then some s else none
    | _ => none
  | .header n opcode block =>
    match s.pc with
    | .holding _ => if n < s.io.held then some { s with io := s.io.writeHeader n opcode block } else none
    | _ => none
  | .release =>
    match s.pc with
    | .holding final => some { s with io := s.io.readRelease, pc := if final then .done else .idle }
    | _ => none

end Reading

/-- A file and the sizes it is read with. -/
structure ReadSetup where
  file : File
  convert : Bool
  window : ℕ
  blocksize : ℕ
  window_pos : 1 ≤ window
  blocksize_pos : 1 ≤ blocksize

namespace ReadSetup

variable (a : ReadSetup)

def stream : Bytes := a.file.stream a.convert

/-- The packets of the file. -/
def packets : List Bytes := blocks a.blocksize a.stream

/-- Window `j` of the file; the final one reaches the end of the packets. -/
def windowAt (j : ℕ) : List Bytes × Bool :=
  (block a.window a.packets j, decide (a.packets.length ≤ (j + 1) * a.window))

def start (slots : ℕ) (threaded : Bool) : Reading where
  io := .init a.file a.convert slots a.window a.blocksize threaded
  thread := .start threaded

theorem packets_length : a.packets.length = blockCount a.blocksize a.stream := Blocks.blocks_length _ _

end ReadSetup

/-! ### The invariant of a run -/

namespace TftpIo

variable {xs : Bytes} {rel : ℕ} {io io' : TftpIo} {th th' : ReaderThread}

/-- The window in hand is the next blocks of the stream. -/
theorem RingInv.heldPackets_eq (h : RingInv xs rel io) :
    io.heldPackets = (List.range io.held).map fun i => block io.blocksize xs (rel + i) := by
  refine List.map_congr_left fun i hi => ?_
  have hi := List.mem_range.mp hi
  have hcount := Nat.lt_of_lt_of_le hi h.held_le
  simp only [heldPacket, readPacket, readLength, if_pos hi, Option.elim_some, Option.getD_some,
    h.lengths_eq i hcount, Nat.add_sub_cancel]
  exact h.data_eq i hcount

/-- On a file that ends in a read error the reader never sees its end: the short block is
never stored. -/
def Unended (io : TftpIo) (th : ReaderThread) : Prop :=
  io.file.readError = true → io.eof = false ∧ ∀ length, th = .storing (some length) → length = io.blocksize

theorem Unended.readerThread (h : Unended io th) (hstep : io.readerThread th = some (io', th')) :
    Unended io' th' := by
  intro hbad
  cases th with
  | locking =>
    simp only [TftpIo.readerThread] at hstep
    split_ifs at hstep
    · obtain ⟨rfl, rfl⟩ := Prod.mk.inj (Option.some.inj hstep)
      exact ⟨(h hbad).1, by simp⟩
    · obtain ⟨rfl, rfl⟩ := Prod.mk.inj (Option.some.inj hstep)
      exact ⟨(h hbad).1, by simp⟩
  | reading n =>
    obtain ⟨rfl, rfl⟩ := Prod.mk.inj (Option.some.inj hstep)
    obtain ⟨rest, newline, prevchar, hio, -, hread⟩ := io.opsReadPacket_spec n
    rw [hio] at hbad ⊢
    refine ⟨(h hbad).1, fun length hlength => ?_⟩
    rw [ReaderThread.storing.injEq, hread] at hlength
    split_ifs at hlength with hshort
    have hle : (io.remaining.take io.blocksize).length ≤ io.blocksize := List.length_take_le _ _
    have hfull := mt (fun hlt => ⟨hlt, hbad⟩) hshort
    rw [← Option.some.inj hlength]
    exact le_antisymm hle (not_lt.mp hfull)
  | storing length =>
    cases length with
    | none =>
      obtain ⟨rfl, rfl⟩ := Prod.mk.inj (Option.some.inj hstep)
      obtain ⟨e, -, hio⟩ := io.ioError_eq EIO
      rw [hio] at hbad ⊢
      exact ⟨(h hbad).1, by simp⟩
    | some length =>
      obtain ⟨rfl, rfl⟩ := Prod.mk.inj (Option.some.inj hstep)
      obtain ⟨heof, hlength⟩ := h hbad
      refine ⟨?_, fun l hl => ?_⟩
      · simp [enqueue, heof, hlength length rfl]
      · split_ifs at hl
  | exited => cases hstep

theorem takeWindow_eq (io : TftpIo) : ∃ k, io.takeWindow.2 = { io with held := k } := by
  unfold takeWindow
  split
  · exact ⟨io.held, rfl⟩
  · exact ⟨_, rfl⟩

/-- With a thread `read_window` only takes what is there. -/
theorem Unended.readWindow (h : Unended io th) (hthr : io.threaded = true) {r : Except ℤ (ℕ × Bool)}
    (hr : io.readWindow = some (r, io')) : Unended io' th := by
  simp only [TftpIo.readWindow, hthr, if_true] at hr
  split_ifs at hr
  obtain ⟨k, hio⟩ := io.takeWindow_eq
  rw [Option.some.inj hr] at hio
  rw [show io' = _ from hio]
  exact h

theorem ReaderInv.readWindow_threaded_eq (h : ReaderInv xs rel io th) {r : Except ℤ (ℕ × Bool)}
    (hr : io.readWindow = some (r, io')) : io'.threaded = io.threaded := by
  obtain ⟨io₁, -, hsame, htake, -⟩ := h.readWindow_eq hr
  obtain ⟨k, hio⟩ := io₁.takeWindow_eq
  rw [htake] at hio
  rw [show io' = _ from hio]
  exact hsame.threaded_eq

/-- Without a thread `read_window` fails only when there is no full window left. -/
theorem ReaderInv.readWindow_failed (h : ReaderInv xs rel io th) (hthr : io.threaded = false) (herr : io.error = 0)
    {e : ℤ} (hr : io.readWindow = some (.error e, io')) : blockCount io.blocksize xs ≤ rel + io.window := by
  obtain rfl := h.exited_of_unthreaded hthr
  obtain ⟨-, -, -, hfail⟩ := h.fillWindow (io.window - io.count) hthr le_rfl
  simp only [TftpIo.readWindow, hthr, Bool.false_eq_true, if_false, Option.some.injEq, TftpIo.takeWindow] at hr
  split at hr
  · rename_i hbad
    exact hfail herr hbad
  · cases hr

/-- A window is not handed out after an error. -/
theorem ReaderInv.readWindow_ok (h : ReaderInv xs rel io th) {k : ℕ} {final : Bool}
    (hr : io.readWindow = some (.ok (k, final), io')) : io'.error = 0 := by
  obtain ⟨io₁, -, -, htake, -⟩ := h.readWindow_eq hr
  unfold TftpIo.takeWindow at htake
  split at htake
  · cases htake
  · rename_i h0
    obtain ⟨-, rfl⟩ := Prod.mk.inj htake
    exact not_not.mp h0

end TftpIo

namespace Reading

open TftpIo (ReaderInv ReaderThread)

/-- The ring and the consumer after `m` windows. -/
def Phase (a : ReadSetup) (threaded : Bool) (m : ℕ) (io : TftpIo) (th : ReaderThread) : ReadingPc → Prop
  | .idle => m * a.window < a.packets.length ∧ ReaderInv a.stream (m * a.window) io th ∧
      (threaded = false → io.error = 0)
  | .holding final => ∃ j, m = j + 1 ∧ j * a.window < a.packets.length ∧
      ReaderInv a.stream (j * a.window) io th ∧ io.held = min a.window (a.packets.length - j * a.window) ∧
      final = (a.windowAt j).2 ∧ (threaded = false → io.error = 0)
  | .done => a.packets.length ≤ m * a.window ∧ ∃ rel, ReaderInv a.stream rel io th
  | .failed => a.file.readError = true ∧ (threaded = false → a.packets.length ≤ (m + 1) * a.window) ∧
      ∃ rel, ReaderInv a.stream rel io th

structure Inv (a : ReadSetup) (threaded : Bool) (ws : List (List Bytes × Bool)) (s : Reading) : Prop where
  window_eq : s.io.window = a.window
  blocksize_eq : s.io.blocksize = a.blocksize
  threaded_eq : s.io.threaded = threaded
  readError_eq : s.io.file.readError = a.file.readError
  windows_eq : ws = (List.range ws.length).map a.windowAt
  starts : ∀ j < ws.length, j * a.window < a.packets.length
  unended : threaded = true → s.io.Unended s.thread
  open_of_error : threaded = true → a.file.readError = true → ws.length * a.window < a.packets.length
  phase : Phase a threaded ws.length s.io s.thread s.pc

variable {a : ReadSetup} {threaded : Bool} {m : ℕ} {ws : List (List Bytes × Bool)} {s s' : Reading}
  {io io' : TftpIo} {th th' : ReaderThread} {pc : ReadingPc}

theorem Phase.reader (h : Phase a threaded m io th pc) : ∃ rel, ReaderInv a.stream rel io th := by
  cases pc with
  | idle => exact ⟨_, h.2.1⟩
  | holding final =>
    obtain ⟨j, -, -, hr, -⟩ := h
    exact ⟨_, hr⟩
  | done => exact h.2
  | failed => exact h.2.2

/-- A step that keeps the ring and the window in hand keeps the phase. -/
theorem Phase.map (h : Phase a threaded m io th pc)
    (hr : ∀ rel, ReaderInv a.stream rel io th → ReaderInv a.stream rel io' th') (hheld : io'.held = io.held)
    (herr : threaded = false → io'.error = io.error) : Phase a threaded m io' th' pc := by
  cases pc with
  | idle => exact ⟨h.1, hr _ h.2.1, fun ht => (herr ht).trans (h.2.2 ht)⟩
  | holding final =>
    obtain ⟨j, hm, hj, hinv, hk, hfinal, h0⟩ := h
    exact ⟨j, hm, hj, hr _ hinv, hheld.trans hk, hfinal, fun ht => (herr ht).trans (h0 ht)⟩
  | done => exact ⟨h.1, h.2.imp hr⟩
  | failed => exact ⟨h.1, h.2.1, h.2.2.imp hr⟩

theorem Inv.thread (h : Inv a threaded ws s) (hstep : s.io.readerThread s.thread = some (io, th)) :
    Inv a threaded ws { s with io, thread := th } := by
  obtain ⟨rel, hreader⟩ := h.phase.reader
  obtain ⟨-, hsame⟩ := hreader.readerThread hstep
  refine { h with
    window_eq := hsame.window_eq.trans h.window_eq
    blocksize_eq := hsame.blocksize_eq.trans h.blocksize_eq
    threaded_eq := hsame.threaded_eq.trans h.threaded_eq
    readError_eq := hsame.readError_eq.trans h.readError_eq
    unended := fun ht => (h.unended ht).readerThread hstep
    phase := h.phase.map (fun rel hr => (hr.readerThread hstep).1) hsame.held_eq fun ht => ?_ }
  -- without a thread there is no such step
  rw [hreader.exited_of_unthreaded (h.threaded_eq.trans ht)] at hstep
  cases hstep

theorem Inv.header (h : Inv a threaded ws s) (n : ℕ) (opcode block : UInt16) :
    Inv a threaded ws { s with io := s.io.writeHeader n opcode block } :=
  { h with
    unended := h.unended
    phase := h.phase.map (fun _ hr => hr.writeHeader n opcode block) rfl fun _ => rfl }

/-- The window in hand is the next one of the file. -/
theorem heldPackets_eq_windowAt {j : ℕ} (hb : io.blocksize = a.blocksize)
    (hr : ReaderInv a.stream (j * a.window) io th)
    (hk : io.held = min a.window (a.packets.length - j * a.window)) : io.heldPackets = (a.windowAt j).1 := by
  rw [hr.heldPackets_eq, hb, hk, a.packets_length, ReadSetup.windowAt, ReadSetup.packets, Blocks.block_blocks]

theorem final_eq_windowAt {j k : ℕ} {final : Bool} (hk : k = min a.window (a.packets.length - j * a.window))
    (hj : j * a.window < a.packets.length) (hfinal : final = true ↔ j * a.window + k = a.packets.length) :
    final = (a.windowAt j).2 := by
  rw [Bool.eq_iff_iff, hfinal, ReadSetup.windowAt, decide_eq_true_eq, Nat.add_mul, one_mul]
  omega

theorem Inv.window (h : Inv a threaded ws s) (hpc : s.pc = .idle) {k : ℕ} {final : Bool}
    (hr : s.io.readWindow = some (.ok (k, final), io)) :
    Inv a threaded (ws ++ [(io.heldPackets, final)]) { s with io, pc := .holding final } := by
  have hphase := h.phase
  rw [hpc] at hphase
  obtain ⟨hlt, hreader, -⟩ := hphase
  have hrel : ws.length * a.window < blockCount s.io.blocksize a.stream := by
    rw [h.blocksize_eq, ← a.packets_length]
    exact hlt
  obtain ⟨hinv, hw, hb, hbad, ⟨e, he, -⟩ | ⟨k', final', hok, hheld, hk, -, hfinal⟩⟩ := hreader.readWindow hrel hr
  · cases he
  · obtain ⟨rfl, rfl⟩ := Prod.mk.inj (Except.ok.inj hok)
    rw [h.window_eq, h.blocksize_eq, ← a.packets_length] at hk
    rw [h.blocksize_eq, ← a.packets_length] at hfinal
    have hend := final_eq_windowAt hk hlt hfinal
    have hwin : (io.heldPackets, final) = a.windowAt ws.length :=
      Prod.ext (heldPackets_eq_windowAt (hb.trans h.blocksize_eq) hinv (hheld.trans hk)) hend
    have hlen : (ws ++ [(io.heldPackets, final)]).length = ws.length + 1 := List.length_append
    have hunended : threaded = true → io.Unended s.thread :=
      fun ht => (h.unended ht).readWindow (h.threaded_eq.trans ht) hr
    constructor
    case windows_eq =>
      rw [hlen, List.range_succ, List.map_append, ← h.windows_eq, hwin]
      rfl
    case starts =>
      intro j hj
      rw [hlen] at hj
      rcases Nat.lt_succ_iff_lt_or_eq.mp hj with hj | rfl
      · exact h.starts j hj
      · exact hlt
    case unended => exact hunended
    case open_of_error =>
      intro ht hbad'
      have heof := (hunended ht (hbad.trans (h.readError_eq.trans hbad'))).1
      have hcount := hinv.eof_false_iff.mp heof
      have hle := hinv.held_le
      rw [hb, h.blocksize_eq, ← a.packets_length] at hcount
      rw [hlen, Nat.add_mul, one_mul]
      omega
    case phase =>
      rw [hlen]
      exact ⟨ws.length, rfl, hlt, hinv, hheld.trans hk, hend,
        fun _ => hreader.readWindow_ok hr⟩
    · exact hw.trans h.window_eq
    · exact hb.trans h.blocksize_eq
    · exact (hreader.readWindow_threaded_eq hr).trans h.threaded_eq
    · exact hbad.trans h.readError_eq

theorem Inv.windowFailed (h : Inv a threaded ws s) (hpc : s.pc = .idle) {e : ℤ}
    (hr : s.io.readWindow = some (.error e, io)) : Inv a threaded ws { s with io, pc := .failed } := by
  have hphase := h.phase
  rw [hpc] at hphase
  obtain ⟨hlt, hreader, herr⟩ := hphase
  have hrel : ws.length * a.window < blockCount s.io.blocksize a.stream := by
    rw [h.blocksize_eq, ← a.packets_length]
    exact hlt
  obtain ⟨hinv, hw, hb, hbad, ⟨e, -, hfail⟩ | ⟨k', final', hok, -⟩⟩ := hreader.readWindow hrel hr
  · refine { h with
      window_eq := hw.trans h.window_eq
      blocksize_eq := hb.trans h.blocksize_eq
      threaded_eq := (hreader.readWindow_threaded_eq hr).trans h.threaded_eq
      readError_eq := hbad.trans h.readError_eq
      unended := fun ht => (h.unended ht).readWindow (h.threaded_eq.trans ht) hr
      phase := ⟨h.readError_eq.symm.trans hfail, fun ht => ?_, _, hinv⟩ }
    have hle := hreader.readWindow_failed (h.threaded_eq.trans ht) (herr ht) hr
    rw [h.window_eq, h.blocksize_eq, ← a.packets_length] at hle
    rw [Nat.add_mul, one_mul]
    exact hle
  · cases hok

theorem Inv.release (h : Inv a threaded ws s) {final : Bool} (hpc : s.pc = .holding final) :
    Inv a threaded ws { s with io := s.io.readRelease, pc := if final then .done else .idle } := by
  have hphase := h.phase
  rw [hpc] at hphase
  obtain ⟨j, hm, hj, hreader, hheld, hfinal, herr⟩ := hphase
  obtain ⟨hinv, -⟩ := hreader.readRelease
  have heq := TftpIo.readRelease_eq hreader.head_lt
  rw [heq] at hinv ⊢
  refine { h with unended := h.unended, phase := ?_ }
  have hsucc : (j + 1) * a.window = j * a.window + a.window := by rw [Nat.add_mul, one_mul]
  cases final with
  | true =>
    have hend : a.packets.length ≤ (j + 1) * a.window := of_decide_eq_true hfinal.symm
    rw [hm]
    exact ⟨hend, _, hinv⟩
  | false =>
    have hend : ¬ a.packets.length ≤ (j + 1) * a.window := of_decide_eq_false hfinal.symm
    rw [hm]
    refine ⟨by omega, ?_, herr⟩
    rwa [show j * a.window + s.io.held = (j + 1) * a.window by omega] at hinv

theorem Inv.step (h : Inv a threaded ws s) {l : ReadingLabel} (hs : s.step l = some s') :
    Inv a threaded (ws ++ windows [l]) s' := by
  cases l with
  | thread =>
    obtain ⟨⟨io, th⟩, hth, rfl⟩ := Option.map_eq_some_iff.mp hs
    simpa [windows] using h.thread hth
  | window packets final =>
    simp only [Reading.step] at hs
    split at hs
    · rename_i hpc hr
      split_ifs at hs with hw
      obtain ⟨rfl, rfl⟩ := hw
      obtain rfl := Option.some.inj hs
      exact h.window hpc hr
    · cases hs
  | windowFailed e =>
    simp only [Reading.step] at hs
    split at hs
    · rename_i hpc hr
      split_ifs at hs with he
      obtain rfl := Option.some.inj hs
      simpa [windows] using h.windowFailed hpc hr
    · cases hs
  | packet n data =>
    simp only [Reading.step] at hs
    split at hs
    · split_ifs at hs
      obtain rfl := Option.some.inj hs
      simpa [windows] using h
    · cases hs
  | length n length =>
    simp only [Reading.step] at hs
    split at hs
    · split_ifs at hs
      obtain rfl := Option.some.inj hs
      simpa [windows] using h
    · cases hs
  | header n opcode block =>
    simp only [Reading.step] at hs
    split at hs
    · split_ifs at hs
      obtain rfl := Option.some.inj hs
      simpa [windows] using h.header n opcode block
    · cases hs
  | release =>
    simp only [Reading.step] at hs
    split at hs
    · rename_i final hpc
      obtain rfl := Option.some.inj hs
      simpa [windows] using h.release hpc
    · cases hs

theorem Inv.of_run {slots : ℕ} (hslots : a.window ≤ slots) {t : List ReadingLabel}
    (hrun : run Reading.step (a.start slots threaded) t = some s) : Inv a threaded (windows t) s := by
  refine run_invariant (fun t s => Inv a threaded (windows t) s) ?_ (fun t s l s' hi hs => ?_) hrun
  · have hlt : 0 * a.window < a.packets.length := by
      rw [a.packets_length, Nat.zero_mul]
      exact Blocks.blockCount_pos _ _
    refine ⟨rfl, rfl, rfl, rfl, rfl, by simp [windows], fun _ _ => ⟨rfl, ?_⟩, fun _ _ => hlt, hlt, ?_, fun _ => rfl⟩
    · cases threaded <;> simp [ReadSetup.start, ReaderThread.start]
    · rw [show (windows []).length * a.window = 0 from Nat.zero_mul _]
      refine ReaderInv.init a.blocksize_pos a.window_pos hslots ?_
      rw [ReadSetup.stream, File.stream]
      cases a.convert <;> rfl
  · rw [windows, List.filterMap_append]
    exact hi.step hs

/-! ### What the consumer gets -/

theorem windowAt_length (j : ℕ) : (a.windowAt j).1.length = min a.window (a.packets.length - j * a.window) :=
  Blocks.block_length _ _ _

/-- The final window is the one with the short packet. -/
theorem windowAt_final {j : ℕ} (hj : j * a.window < a.packets.length) :
    (a.windowAt j).2 = true ↔ ∃ p ∈ (a.windowAt j).1, p.length < a.blocksize := by
  have hlast : (a.windowAt j).2 = true ↔ a.packets.length ≤ j * a.window + a.window := by
    rw [ReadSetup.windowAt, decide_eq_true_eq, Nat.add_mul, one_mul]
  have hpos := a.window_pos
  rw [hlast, ReadSetup.windowAt, ReadSetup.packets, Blocks.block_blocks, ← ReadSetup.packets, a.packets_length]
  rw [a.packets_length] at hj
  constructor
  · intro hend
    have hshort := (Blocks.block_short_iff (i := blockCount a.blocksize a.stream - 1) a.blocksize_pos a.stream
      (by omega)).mpr (by omega)
    refine ⟨_, List.mem_map_of_mem (List.mem_range.mpr
      (show blockCount a.blocksize a.stream - 1 - j * a.window < _ by omega)), ?_⟩
    rw [Nat.add_sub_cancel' (by omega)]
    exact lt_of_le_of_ne (Blocks.block_length_le _ _ _) hshort
  · rintro ⟨p, hp, hlt⟩
    obtain ⟨i, hi, rfl⟩ := List.mem_map.mp hp
    have hi := List.mem_range.mp hi
    have := (Blocks.block_short_iff a.blocksize_pos a.stream (by omega)).mp hlt.ne
    omega

theorem Inv.window_cases (h : Inv a threaded ws s) {w : List Bytes × Bool} (hw : w ∈ ws) :
    ∃ j < ws.length, w = a.windowAt j ∧ j * a.window < a.packets.length := by
  rw [h.windows_eq] at hw
  obtain ⟨j, hj, rfl⟩ := List.mem_map.mp hw
  have hj := List.mem_range.mp hj
  exact ⟨j, hj, rfl, h.starts j hj⟩

theorem Inv.flatten_prefix (h : Inv a threaded ws s) : (ws.map Prod.fst).flatten <+: a.packets := by
  have hmap : ws.map Prod.fst = (List.range ws.length).map (block a.window a.packets) := by
    conv_lhs => rw [h.windows_eq]
    rw [List.map_map]
    rfl
  rw [hmap, Blocks.flatten_range]
  exact List.take_prefix _ _

/-- The number of windows is all that tells two runs on one file apart. -/
theorem Inv.windows_prefix {threaded' : Bool} {ws' : List (List Bytes × Bool)} (h : Inv a threaded ws s)
    (h' : Inv a threaded' ws' s') (hle : ws.length ≤ ws'.length) : ws <+: ws' := by
  have hr : List.range ws.length = (List.range ws'.length).take ws.length := by
    rw [List.take_range, min_eq_left hle]
  rw [h.windows_eq, h'.windows_eq, hr]
  exact (List.take_prefix _ _).map a.windowAt

/-- A run that is over without a read error has seen all windows. -/
theorem Inv.length_le_of_done {threaded' : Bool} {ws' : List (List Bytes × Bool)} (h : Inv a threaded ws s)
    (h' : Inv a threaded' ws' s') (hdone : s'.pc = .done) : ws.length ≤ ws'.length := by
  have hend := h'.phase
  rw [hdone] at hend
  by_contra hlt
  exact absurd (h.starts ws'.length (not_le.mp hlt)) (not_lt.mpr hend.1)

/-- Nor has a run with a thread seen more than one without, which stops no earlier than it
must. -/
theorem Inv.length_le_of_failed {ws' : List (List Bytes × Bool)} (h : Inv a true ws s) (h' : Inv a false ws' s')
    (hfailed : s'.pc = .failed) : ws.length ≤ ws'.length := by
  have hend := h'.phase
  rw [hfailed] at hend
  have hlt := h.open_of_error rfl hend.1
  exact Nat.lt_succ_iff.mp (lt_of_mul_lt_mul_right (lt_of_lt_of_le hlt (hend.2.1 rfl)) (Nat.zero_le _))

end Reading

open Reading (windows)

/-- The threaded reader: whatever the order of the steps, the consumer gets the packets of
the file, window by window, in slots the thread keeps away from, and the windows are
those it gets without a thread. -/
theorem threaded_reader_windows (a : ReadSetup) {slots : ℕ} (hslots : a.window ≤ slots) {t : List ReadingLabel}
    {s : Reading} (hrun : run Reading.step (a.start slots true) t = some s) :
    (∀ w ∈ windows t, 1 ≤ w.1.length ∧ w.1.length ≤ a.window ∧
      (w.2 = true ↔ ∃ p ∈ w.1, p.length < a.blocksize)) ∧
    ((windows t).map Prod.fst).flatten <+: a.packets ∧
    (∀ n, s.thread = .reading n → ∀ i < s.io.held, s.io.slot i ≠ n) ∧
    (∀ final, s.pc = .holding final → (windows t).getLast? = some (s.io.heldPackets, final)) ∧
    (∀ s', s.step .thread = some s' → ∀ n,
      s'.io.readPacket n = s.io.readPacket n ∧ s'.io.readLength n = s.io.readLength n) ∧
    (s.pc = .idle → s.io.readWindow = none → (s.io.readerThread s.thread).isSome) ∧
    ∀ slots', a.window ≤ slots' → ∀ (u : List ReadingLabel) (s₁ : Reading),
      run Reading.step (a.start slots' false) u = some s₁ → s₁.pc = .done ∨ s₁.pc = .failed →
      windows t <+: windows u ∧
        (a.file.readError = false → s.pc = .done ∨ s.pc = .failed → windows t = windows u) := by
  have hinv := Reading.Inv.of_run hslots hrun
  obtain ⟨rel, hreader⟩ := hinv.phase.reader
  refine ⟨fun w hw => ?_, hinv.flatten_prefix, fun n hn i hi => ?_, fun final hpc => ?_, fun s' hs n => ?_,
    fun _ hwait => ?_, fun slots' hslots' u s₁ hrun₁ hover => ?_⟩
  · obtain ⟨j, -, rfl, hj⟩ := hinv.window_cases hw
    have hpos := a.window_pos
    have hlen := Reading.windowAt_length (a := a) j
    exact ⟨by omega, by omega, Reading.windowAt_final hj⟩
  · have hthread := hreader.thread
    rw [hn] at hthread
    obtain ⟨-, -, -, rfl, hroom, -⟩ := hthread
    exact hreader.slot_ne_tail hroom (Nat.lt_of_lt_of_le hi hreader.held_le)
  · have hphase := hinv.phase
    rw [hpc] at hphase
    obtain ⟨j, hm, -, hr, hheld, hfinal, -⟩ := hphase
    rw [hinv.windows_eq, hm, List.range_succ, List.map_append, hfinal,
      Reading.heldPackets_eq_windowAt hinv.blocksize_eq hr hheld]
    exact List.getLast?_concat
  · obtain ⟨⟨io, th⟩, hth, rfl⟩ := Option.map_eq_some_iff.mp hs
    obtain ⟨-, hsame⟩ := hreader.readerThread hth
    exact ⟨hsame.readPacket_eq n, hsame.readLength_eq n⟩
  · exact Option.isSome_iff_exists.mpr (hreader.readerThread_enabled hwait)
  · have hinv₁ := Reading.Inv.of_run hslots' hrun₁
    have hle : (windows t).length ≤ (windows u).length :=
      hover.elim (hinv.length_le_of_done hinv₁) (hinv.length_le_of_failed hinv₁)
    refine ⟨hinv.windows_prefix hinv₁ hle, fun hgood hdone => ?_⟩
    have hdone : s.pc = .done := hdone.resolve_right fun hfailed => by
      have hbad := hinv.phase
      rw [hfailed] at hbad
      exact absurd hbad.1 (by rw [hgood]; decide)
    exact (hinv.windows_prefix hinv₁ hle).eq_of_length (le_antisymm hle (hinv₁.length_le_of_done hinv hdone))

/-- A file of one byte in blocks of one byte, read through a single slot. -/
def oneByte : ReadSetup where
  file := { rest := [1] }
  convert := false
  window := 1
  blocksize := 1
  window_pos := le_rfl
  blocksize_pos := le_rfl

theorem threaded_reader_windows_one_byte :
    let w : List ReadingLabel := [.window [[1]] false, .packet 0 [1], .header 0 3 1, .length 0 5, .release]
    let e : List ReadingLabel := [.window [[]] true, .release]
    let fill : List ReadingLabel := [.thread, .thread, .thread]
    ∃ s s₁, run Reading.step (oneByte.start 1 true) (fill ++ w ++ fill ++ e) = some s ∧ s.pc = .done ∧
      run Reading.step (oneByte.start 1 false) (w ++ e) = some s₁ ∧ s₁.pc = .done ∧
      windows (fill ++ w ++ fill ++ e) = windows (w ++ e) := by
  intro w e fill
  refine ⟨_, _, rfl, rfl, rfl, rfl, ?_⟩
  obtain ⟨-, -, -, -, -, -, hsame⟩ :=
    threaded_reader_windows oneByte (show oneByte.window ≤ 1 from le_rfl) (t := fill ++ w ++ fill ++ e) rfl
  exact (hsame 1 le_rfl (w ++ e) _ rfl (.inl rfl)).2 rfl (.inl rfl)

end TftpHpa
