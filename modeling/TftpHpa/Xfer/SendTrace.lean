import TftpHpa.Xfer.Sending

/-! What the trace of a sender shows. The window a sender works on can be read off
its trace: the windows handed out and the releases. Against any peer the packets
sent are those of the window's blocks, and a window is only left behind on an ACK
that carries the number of its last block. -/

namespace TftpHpa

open Blocks (block blockCount)

/-- The released blocks and the size of the window that is held. -/
def traceWindow (t : List SendLabel) : ℕ × ℕ :=
  t.foldl (fun w l => match l with
    | .window count _ => (w.1, count)
    | .released => (w.1 + w.2, 0)
    | _ => w) (0, 0)

theorem traceWindow_concat (t : List SendLabel) (l : SendLabel) :
    traceWindow (t ++ [l]) = match l with
      | .window count _ => ((traceWindow t).1, count)
      | .released => ((traceWindow t).1 + (traceWindow t).2, 0)
      | _ => traceWindow t := by
  rw [traceWindow, List.foldl_append]
  rfl

/-- The last thing the engine did was to receive an ACK with the number of the last
block of the window. -/
def AckedWindow (x : Xfer) (t : List SendLabel) : Prop :=
  ∃ u p v, t = u ++ .received p :: v ∧ (∀ l ∈ v, l = .thread) ∧ p.opcode = Opcode.ack.code ∧
    p.block = blockNumber x.rollover ((traceWindow t).1 + (traceWindow t).2)

theorem AckedWindow.thread {x : Xfer} {t : List SendLabel} (h : AckedWindow x t) :
    AckedWindow x (t ++ [.thread]) := by
  obtain ⟨u, p, v, ht, hv, hop, hblk⟩ := h
  refine ⟨u, p, v ++ [.thread], by simp [ht], ?_, hop, by rw [traceWindow_concat]; exact hblk⟩
  intro l hl
  rcases List.mem_append.mp hl with hl | hl
  · exact hv l hl
  · exact List.mem_singleton.mp hl

variable {x : Xfer} {xs : Bytes} {t : List SendLabel} {a a' : Sending} {l : SendLabel}

namespace Sending

/-- The sender works on the window its trace shows. -/
structure TraceInv (x : Xfer) (xs : Bytes) (t : List SendLabel) (a : Sending) : Prop where
  base_eq : (traceWindow t).1 = a.base
  phase : match a.pc with
    | .readWindow => a.base < blockCount x.blocksize xs ∧ (traceWindow t).2 = 0
    | .retryEnter _ | .recv =>
      a.base < blockCount x.blocksize xs ∧ (traceWindow t).2 = width x xs a.base
    | .send n => a.base < blockCount x.blocksize xs ∧ (traceWindow t).2 = width x xs a.base ∧
        n < width x xs a.base
    | .release => a.base < blockCount x.blocksize xs ∧ (traceWindow t).2 = width x xs a.base ∧
        AckedWindow x t
    | .done r => r.status = .ok → r.bytes = bytesOf x xs (blockCount x.blocksize xs) ∧
        ∃ u v, t = u ++ .released :: v ∧ (∀ l ∈ v, l = .thread) ∧
          (traceWindow u).1 + (traceWindow u).2 = blockCount x.blocksize xs ∧ AckedWindow x u

theorem width_pos (hw : 0 < x.windowsize) {base : ℕ} (hb : base < blockCount x.blocksize xs) :
    0 < width x xs base := by
  unfold width
  omega

theorem base_add_width_le {base : ℕ} (hb : base < blockCount x.blocksize xs) :
    base + width x xs base ≤ blockCount x.blocksize xs := by
  unfold width
  omega

theorem TraceInv.init (x : Xfer) (xs : Bytes) (readError : Bool) : TraceInv x xs [] { readError } :=
  ⟨rfl, Blocks.blockCount_pos _ _, rfl⟩

theorem TraceInv.sendFrom (h : TraceInv x xs t a)
    (hb : a.base < blockCount x.blocksize xs) (hcur : (traceWindow t).2 = width x xs a.base)
    {t' : List SendLabel} (ht : traceWindow t' = traceWindow t) (n : ℕ) : TraceInv x xs t' (a.sendFrom x xs n) := by
  refine ⟨by rw [ht]; exact h.base_eq, ?_⟩
  simp only [Sending.sendFrom]
  by_cases hn : n < width x xs a.base
  · simp only [if_pos hn, ht]
    exact ⟨hb, hcur, hn⟩
  · simp only [if_neg hn, ht]
    exact ⟨hb, hcur⟩

theorem TraceInv.finish (h : TraceInv x xs t a) {t' : List SendLabel} (ht : traceWindow t' = traceWindow t)
    {status : XferStatus} (hst : status ≠ .ok) (error : ℤ) (packet : Option Packet) :
    TraceInv x xs t' (a.finish x xs status error packet) :=
  ⟨by rw [ht]; exact h.base_eq, fun hok => absurd hok hst⟩

/-- One step keeps the trace and the sender in agreement. -/
theorem TraceInv.step (hw : 0 < x.windowsize) (h : TraceInv x xs t a)
    (hs : a.step x xs l = some a') : TraceInv x xs (t ++ [l]) a' := by
  have hph := h.phase
  have hbase := h.base_eq
  have ht := traceWindow_concat t l
  cases move_of_step hs with
  | thread =>
    refine ⟨by rw [ht]; exact hbase, ?_⟩
    rw [ht]
    cases hpc : a.pc <;> simp only [hpc] at hph ⊢ <;> try exact hph
    · exact ⟨hph.1, hph.2.1, hph.2.2.thread⟩
    · intro hok
      obtain ⟨hbytes, u, v, htr, hv, hend, hack⟩ := hph hok
      refine ⟨hbytes, u, v ++ [.thread], by simp [htr], ?_, hend, hack⟩
      intro l hl
      rcases List.mem_append.mp hl with hl | hl
      · exact hv l hl
      · exact List.mem_singleton.mp hl
  | window hpc =>
    simp only [hpc] at hph
    exact ⟨by rw [ht]; exact hbase, hph.1, by rw [ht]⟩
  | windowFailed hpc hbad e => exact h.finish ht (by decide) _ _
  | entered r hpc =>
    simp only [hpc] at hph
    exact h.sendFrom hph.1 hph.2 ht 0
  | sent n hpc =>
    simp only [hpc] at hph
    exact h.sendFrom hph.1 hph.2.1 ht _
  | sendFailed n hpc e => exact h.finish ht (by decide) _ _
  | received hpc p =>
    simp only [hpc] at hph
    rcases a.received_cases x xs p with
      he | ⟨-, he⟩ | ⟨hop, hblk, he⟩ | ⟨-, he⟩ | ⟨n, hn, -, -, he⟩ <;> rw [he]
    · exact ⟨by rw [ht]; exact hbase, by rw [ht, hpc]; exact hph⟩
    · exact h.finish ht (by decide) _ _
    · refine ⟨by rw [ht]; exact hbase, hph.1, by rw [ht]; exact hph.2, t, p, [], rfl, by simp, hop, ?_⟩
      rw [ht]
      simpa only [hbase, hph.2] using hblk
    · exact ⟨by rw [ht]; exact hbase, hph.1, by rw [ht]; exact hph.2, width_pos hw hph.1⟩
    · exact ⟨by rw [ht]; exact hbase, hph.1, by rw [ht]; exact hph.2, hn⟩
  | recvFailed hpc e => exact h.finish ht (by decide) _ _
  | timeout hpc =>
    simp only [hpc] at hph
    exact ⟨by rw [ht]; exact hbase, hph.1, by rw [ht]; exact hph.2⟩
  | released hpc =>
    simp only [hpc] at hph
    obtain ⟨hlt, hcur, hack⟩ := hph
    have hle := base_add_width_le (x := x) hlt
    have hsum : (traceWindow t).1 + (traceWindow t).2 = a.base + width x xs a.base := by rw [hbase, hcur]
    split_ifs with hend
    · refine ⟨by rw [ht]; exact hsum, fun _ => ⟨?_, t, [], rfl, by simp, hsum.trans hend, hack⟩⟩
      rw [← hend]
    · exact ⟨by rw [ht]; exact hsum, lt_of_le_of_ne hle hend, by rw [ht]⟩

/-- In a window of at most 32768 blocks the numbers are all different. -/
theorem window_numbers_inj (xs : Bytes) (hw : x.windowsize ≤ 32768)
    (hr : x.rollover = 0 ∨ x.rollover = 1) {base i j : ℕ} (hi : i < width x xs base)
    (hj : j < width x xs base)
    (h : blockNumber x.rollover (base + i + 1) = blockNumber x.rollover (base + j + 1)) : i = j := by
  have hle : width x xs base ≤ x.windowsize := min_le_left _ _
  have := blockNumber_inj_of_lag hr (by omega) (by omega) h
  omega

/-- So an ACK inside the window selects the packet after the one it names. -/
theorem received_partial (hw : x.windowsize ≤ 32768) (hr : x.rollover = 0 ∨ x.rollover = 1) (a : Sending)
    {p : Packet} {n : ℕ} (hlen : 4 ≤ p.length) (hop : p.opcode = Opcode.ack.code)
    (hn : n + 1 < width x xs a.base) (hblk : p.block = blockNumber x.rollover (a.base + n + 1)) :
    a.received x xs p = { a with pc := .send (n + 1) } := by
  have hlast : p.block ≠ blockNumber x.rollover (a.base + width x xs a.base) := by
    intro he
    have hj : a.base + width x xs a.base = a.base + (width x xs a.base - 1) + 1 := by omega
    rw [hj] at he
    have := window_numbers_inj xs hw hr (by omega) (by omega) (hblk.symm.trans he)
    omega
  have hfind : (List.range (width x xs a.base - 1)).find?
      (fun m => p.block = blockNumber x.rollover (a.base + m + 1)) = some n := by
    rw [List.find?_range_eq_some]
    refine ⟨by simpa using hblk, List.mem_range.mpr (by omega), fun j hj => ?_⟩
    simp only [Bool.not_eq_eq_eq_not, Bool.not_true, decide_eq_false_iff_not, hblk]
    intro he
    exact hj.ne (window_numbers_inj xs hw hr (by omega) (by omega) he).symm
  simp [received, hop, hlast, hfind, Nat.not_lt.mpr hlen]

end Sending

theorem Sending.bytesOf_blockCount (hb : 0 < x.blocksize) (xs : Bytes) :
    (Sending.bytesOf x xs (blockCount x.blocksize xs)).toNat = xs.length % 2 ^ 64 := by
  rw [Sending.bytesOf, List.take_of_length_le (Blocks.length_lt_blockCount_mul hb xs).le,
    UInt64.toNat_ofNat']

/-- Every run of the engine is a run over the stream, on the window its trace shows. -/
theorem send_run_refines (hw : 1 ≤ x.windowsize) {file : File} {convert threaded : Bool} {slots : ℕ}
    {io : TftpIo}
    (hio : TftpIo.readerStart file convert x.windowsize slots x.blocksize threaded = some io)
    {t : List SendLabel} {s : SendState} (hrun : Transition.run (sendStep x) (sendInit io) t = some s) :
    ∃ a, SendRefines x (file.stream convert) s a ∧ Sending.TraceInv x (file.stream convert) t a :=
  Transition.run_invariant
    (fun t s => ∃ a, SendRefines x (file.stream convert) s a ∧
      Sending.TraceInv x (file.stream convert) t a)
    ⟨_, sendRefines_init hw hio, .init _ _ _⟩
    (fun t s l s' ⟨a, h, ht⟩ hs => by
      obtain ⟨a', ha, h'⟩ := h.step hs
      exact ⟨a', h', ht.step hw ha⟩) hrun

/-- The sender against an arbitrary peer. Every packet sent, also again, is that of a
block of the window the trace shows; a window is only released after an ACK with
the number of its last block; numbers within a window differ, so that an ACK inside
it makes exactly the blocks after it go out again; and success means that the
window with the last block was acknowledged, with the length of the stream as the
result (the count is a 64-bit one). -/
theorem send_against_any_peer (x : Xfer) (hw : 1 ≤ x.windowsize) (hw' : x.windowsize ≤ 32768)
    (hr : x.rollover = 0 ∨ x.rollover = 1) (file : File) (convert threaded : Bool) (slots : ℕ) {io : TftpIo}
    (hio : TftpIo.readerStart file convert x.windowsize slots x.blocksize threaded = some io)
    {t : List SendLabel} {s : SendState} (hrun : Transition.run (sendStep x) (sendInit io) t = some s) :
    (∀ u p v, (t = u ++ .sent p :: v ∨ ∃ e, t = u ++ .sendFailed p e :: v) →
      ∃ n < (traceWindow u).2, (traceWindow u).1 + n < blockCount x.blocksize (file.stream convert) ∧
        p = blockPacket x (file.stream convert) ((traceWindow u).1 + n + 1)) ∧
    (∀ u v, t = u ++ .released :: v → AckedWindow x u) ∧
    (∀ u count final v, t = u ++ .window count final :: v → ∀ i < count, ∀ j < count,
      blockNumber x.rollover ((traceWindow u).1 + i + 1) =
        blockNumber x.rollover ((traceWindow u).1 + j + 1) → i = j) ∧
    (∀ p n, s.pc = .recv → 4 ≤ p.length → p.opcode = Opcode.ack.code → n + 1 < (traceWindow t).2 →
      p.block = blockNumber x.rollover ((traceWindow t).1 + n + 1) →
      ∃ s', Transition.run (sendStep x) s (.received p ::
          (List.range' (n + 1) ((traceWindow t).2 - (n + 1))).map fun m =>
            .sent (blockPacket x (file.stream convert) ((traceWindow t).1 + m + 1))) = some s' ∧
        s'.pc = .recv) ∧
    (∀ r, s.pc = .done r → r.status = .ok →
      r.bytes.toNat = (file.stream convert).length % 2 ^ 64 ∧
      ∃ u v, t = u ++ .released :: v ∧ (∀ l ∈ v, l = .thread) ∧
        (traceWindow u).1 + (traceWindow u).2 = blockCount x.blocksize (file.stream convert) ∧
        AckedWindow x u) := by
  have hsplit : ∀ u l v, t = u ++ l :: v → ∃ a a', Sending.TraceInv x (file.stream convert) u a ∧
      a.step x (file.stream convert) l = some a' := by
    intro u l v ht
    rw [ht] at hrun
    obtain ⟨m, hu, hrest⟩ := Transition.run_append_eq_some.mp hrun
    obtain ⟨m', hl, -⟩ := Option.bind_eq_some_iff.mp hrest
    obtain ⟨a, href, htr⟩ := send_run_refines hw hio hu
    obtain ⟨a', ha, -⟩ := href.step hl
    exact ⟨a, a', htr, ha⟩
  obtain ⟨a, href, htr⟩ := send_run_refines hw hio hrun
  have hph := htr.phase
  refine ⟨fun u p v ht => ?_, fun u v ht => ?_, fun u k f v ht i hi j hj he => ?_,
    fun p n hpc hlen hop hn hblk => ?_, fun r hpc hok => ?_⟩
  · have hsend : ∃ a n, Sending.TraceInv x (file.stream convert) u a ∧ a.pc = .send n ∧
        p = blockPacket x (file.stream convert) (a.base + n + 1) := by
      rcases ht with ht | ⟨e, ht⟩
      · obtain ⟨a, a', htr, hs⟩ := hsplit u _ v ht
        cases Sending.move_of_step hs with
        | sent n hpc => exact ⟨a, n, htr, hpc, rfl⟩
      · obtain ⟨a, a', htr, hs⟩ := hsplit u _ v ht
        cases Sending.move_of_step hs with
        | sendFailed n hpc e => exact ⟨a, n, htr, hpc, rfl⟩
    obtain ⟨a, n, htr, hpc, hp⟩ := hsend
    have hph := htr.phase
    simp only [hpc] at hph
    have hle := Sending.base_add_width_le (x := x) hph.1
    exact ⟨n, by omega, by rw [htr.base_eq]; omega, by rw [htr.base_eq]; exact hp⟩
  · obtain ⟨a, a', htr, hs⟩ := hsplit u _ v ht
    have hph := htr.phase
    cases Sending.move_of_step hs with
    | released hpc =>
      simp only [hpc] at hph
      exact hph.2.2
  · obtain ⟨a, a', htr, hs⟩ := hsplit u _ v ht
    cases Sending.move_of_step hs with
    | window hpc => exact Sending.window_numbers_inj (file.stream convert) hw' hr hi hj (htr.base_eq ▸ he)
  · have hpc' := href.pc_eq.symm.trans hpc
    simp only [hpc'] at hph
    rw [htr.base_eq] at hblk ⊢
    rw [hph.2] at hn ⊢
    have hrec := Sending.received_partial hw' hr a hlen hop hn hblk
    have hsends := Sending.run_sends (x := x) (a := { a with pc := .send (n + 1) })
      (Sending.width x (file.stream convert) a.base - (n + 1) - 1) rfl
      (by show n + 1 + _ + 1 = Sending.width x (file.stream convert) a.base; omega)
    rw [show Sending.width x (file.stream convert) a.base - (n + 1) - 1 + 1 =
      Sending.width x (file.stream convert) a.base - (n + 1) by omega] at hsends
    have hall : Transition.run (Sending.step x (file.stream convert)) a (.received p ::
        (List.range' (n + 1) (Sending.width x (file.stream convert) a.base - (n + 1))).map fun m =>
          .sent (blockPacket x (file.stream convert) (a.base + m + 1))) = some { a with pc := .recv } := by
      simp only [Transition.run_cons, Sending.step, hpc', Option.bind_some, hrec]
      exact hsends
    obtain ⟨s', hs', href'⟩ := href.enabled_run
      (List.forall_mem_cons.mpr ⟨rfl, List.forall_mem_map.mpr fun _ _ => rfl⟩) hall
    exact ⟨s', hs', href'.pc_eq⟩
  · have hpc' := href.pc_eq.symm.trans hpc
    simp only [hpc'] at hph
    obtain ⟨hbytes, u, v, htuv, hv, hend, hack⟩ := hph hok
    have hbs : 0 < x.blocksize := href.blocksize_eq ▸ href.reader.blocksize_pos
    exact ⟨by rw [hbytes, Sending.bytesOf_blockCount hbs], u, v, htuv, hv, hend, hack⟩

/-- A file of one byte goes out as one window of one short block. -/
theorem send_against_any_peer_one_byte :
    ∃ io s r, TftpIo.readerStart { rest := [65] } false 2 2 512 false = some io ∧
      Transition.run (sendStep { blocksize := 512, windowsize := 2 }) (sendInit io)
        [.window 1 true, .entered false, .sent (dataPacket 1 [65]), .received (ackPacket 1), .released] = some s ∧
      s.pc = .done r ∧ r.status = .ok ∧ r.bytes.toNat = 1 := by
  refine ⟨_, _, _, rfl, rfl, rfl, rfl, ?_⟩
  exact ((send_against_any_peer { blocksize := 512, windowsize := 2 } (by decide) (by decide) (.inl rfl)
    { rest := [65] } false false 2 rfl
    (t := [.window 1 true, .entered false, .sent (dataPacket 1 [65]), .received (ackPacket 1), .released])
    rfl).2.2.2.2 _ rfl rfl).1

end TftpHpa
