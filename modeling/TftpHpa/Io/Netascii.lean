import TftpHpa.Io.Basic
import TftpHpa.Lib.Blocks

/-! Netascii conversion. The encoding of a file replaces LF by CR LF and CR by
CR NUL; the reader hands out this byte stream in packets and keeps a pending second
byte between two of them, the writer keeps a pending CR. Both are shown equal to
functions of the whole stream, so packet boundaries play no part. -/

namespace TftpHpa

namespace Netascii

def encodeByte (c : UInt8) : Bytes :=
  if c = 10 then [13, 10] else if c = 13 then [13, 0] else [c]

/-- The byte stream a file is sent as. -/
def encode (content : Bytes) : Bytes := content.flatMap encodeByte

@[simp] theorem encode_nil : encode [] = [] := rfl

@[simp] theorem encode_cons (c : UInt8) (rest : Bytes) :
    encode (c :: rest) = encodeByte c ++ encode rest := by
  simp [encode]

/-- What a byte stream stands for when it ends here; the flag is a CR that is
still to be interpreted. -/
def decode : Bool → Bytes → Bytes
  | false, [] => []
  | true, [] => [13]
  | true, c :: rest => (if c = 10 then [10] else if c = 0 then [13] else [13, c]) ++ decode false rest
  | false, c :: rest => if c = 13 then decode true rest else c :: decode false rest

theorem decode_encode (content : Bytes) : decode false (encode content) = content := by
  induction content with
  | nil => rfl
  | cons c rest ih =>
    rw [encode_cons, encodeByte]
    split_ifs with h₁ h₂
    · simp [decode, ih, h₁]
    · simp [decode, ih, h₂]
    · simp [decode, ih, h₂]

end Netascii

/-- The byte stream a file is sent as. -/
def File.stream (file : File) (convert : Bool) : Bytes :=
  if convert then Netascii.encode file.rest else file.rest

namespace TftpIo

open Netascii

/-- The bytes a netascii reader still has to hand out. -/
def NetasciiIn.stream (st : NetasciiIn) : Bytes :=
  (if st.newline then [if st.prevchar = 10 then 10 else 0] else []) ++ encode st.rest

@[simp] theorem NetasciiIn.stream_newline (prevchar : ℤ) (rest : Bytes) :
    NetasciiIn.stream ⟨true, prevchar, rest⟩ = (if prevchar = 10 then 10 else 0) :: encode rest := rfl

@[simp] theorem NetasciiIn.stream_char (prevchar : ℤ) (rest : Bytes) :
    NetasciiIn.stream ⟨false, prevchar, rest⟩ = encode rest := rfl

/-- The loop hands out the next `i` bytes of the stream. -/
theorem netasciiReadLoop_spec (i : ℕ) (st : NetasciiIn) :
    (netasciiReadLoop i st).1 = st.stream.take i ∧
      (netasciiReadLoop i st).2.stream = st.stream.drop i := by
  induction i generalizing st with
  | zero => simp [netasciiReadLoop]
  | succ i ih =>
    obtain ⟨newline, prevchar, rest⟩ := st
    cases newline with
    | true =>
      have h := ih ⟨false, prevchar, rest⟩
      simpa [netasciiReadLoop] using h
    | false =>
      cases rest with
      | nil => simp [netasciiReadLoop]
      | cons c rest =>
        by_cases hc : c = 10 ∨ c = 13
        · have h := ih ⟨true, c.toNat, rest⟩
          rcases hc with rfl | rfl <;> simpa [netasciiReadLoop, encodeByte] using h
        · have h := ih ⟨false, prevchar, rest⟩
          have hc' : c ≠ 10 ∧ c ≠ 13 := not_or.mp hc
          simpa [netasciiReadLoop, encodeByte, hc'.1, hc'.2] using h

/-- The bytes still to be sent, in either mode. -/
def remaining (io : TftpIo) : Bytes :=
  if io.convert then NetasciiIn.stream ⟨io.newline, io.prevchar, io.file.rest⟩ else io.file.rest

/-- `read_packet` takes the next block of the stream, stores it in the slot and
touches nothing else of the adapter but its position in the file. -/
theorem opsReadPacket_spec (io : TftpIo) (n : ℕ) :
    ∃ rest newline prevchar,
      (io.opsReadPacket n).2 = { io with
        file := { io.file with rest := rest }
        newline := newline
        prevchar := prevchar
        packets := Function.update io.packets n
          ((io.packets n).store (io.remaining.take io.blocksize)) } ∧
      (io.opsReadPacket n).2.remaining = io.remaining.drop io.blocksize ∧
      (io.opsReadPacket n).1 =
        if (io.remaining.take io.blocksize).length < io.blocksize ∧ io.file.readError then none
        else some (io.remaining.take io.blocksize).length := by
  cases hc : io.convert with
  | true =>
    obtain ⟨h₁, h₂⟩ := netasciiReadLoop_spec io.blocksize ⟨io.newline, io.prevchar, io.file.rest⟩
    set st := (netasciiReadLoop io.blocksize ⟨io.newline, io.prevchar, io.file.rest⟩).2
    refine ⟨st.rest, st.newline, st.prevchar, ?_, ?_, ?_⟩
    · simp only [opsReadPacket, netasciiReadPacket, hc, if_true, remaining, h₁]
      rfl
    · simp only [opsReadPacket, netasciiReadPacket, hc, if_true, remaining]
      exact h₂
    · simp only [opsReadPacket, netasciiReadPacket, hc, if_true, remaining, h₁]
  | false =>
    refine ⟨io.file.rest.drop io.blocksize, io.newline, io.prevchar, ?_, ?_, ?_⟩ <;>
      simp [opsReadPacket, octetReadPacket, hc, remaining]

/-! ### Packets read -/

theorem store_data_take (dp : Tftphdr) (data : Bytes) :
    (dp.store data).data.take data.length = data := by
  simp [Tftphdr.store]

/-- The payloads of `k` successive `netascii_read_packet` calls, up to a failed one. -/
def netasciiPayloads : TftpIo → ℕ → List Bytes
  | _, 0 => []
  | io, k + 1 =>
    match io.netasciiReadPacket 0 with
    | (some length, io) => (io.packets 0).data.take length :: netasciiPayloads io k
    | (none, _) => []

theorem netasciiPayloads_eq (io : TftpIo) (hc : io.convert = true) (he : io.file.readError = false)
    (k : ℕ) :
    netasciiPayloads io k = (List.range k).map (Blocks.block io.blocksize io.remaining) := by
  induction k generalizing io with
  | zero => rfl
  | succ k ih =>
    have hops : io.netasciiReadPacket 0 = io.opsReadPacket 0 := by simp [opsReadPacket, hc]
    obtain ⟨rest, newline, prevchar, hio, hrem, hlen⟩ := io.opsReadPacket_spec 0
    have hnext := ih (io.opsReadPacket 0).2 (by rw [hio]; exact hc) (by rw [hio]; exact he)
    have hbs : (io.opsReadPacket 0).2.blocksize = io.blocksize := by rw [hio]
    have hpkt : (io.opsReadPacket 0).2.packets 0 =
        (io.packets 0).store (io.remaining.take io.blocksize) := by rw [hio]; simp
    rw [he] at hlen
    rw [netasciiPayloads, hops, ← Prod.mk.eta (p := io.opsReadPacket 0), hlen]
    simp only [Bool.false_eq_true, and_false, if_false]
    rw [hnext, hpkt, store_data_take, hbs, hrem, List.range_succ_eq_map, List.map_cons,
      List.map_map]
    congr 1
    · simp [Blocks.block]
    · exact List.map_congr_left fun i _ => Blocks.block_drop _ _ i

/-! ### Packets written -/

theorem putc_eq_some {f f' : File} {c : UInt8} (h : f.putc c = some f') : f'.written = f.written ++ [c] := by
  unfold File.putc at h
  split at h
  · obtain rfl := Option.some.inj h
    rfl
  · cases h
  · obtain rfl := Option.some.inj h
    rfl

/-- A loop that gets to the end has written what the bytes stand for. -/
theorem netasciiWriteLoop_ok {data : Bytes} {cr cr' : Bool} {file file' : File}
    (h : netasciiWriteLoop data cr file = (true, cr', file')) :
    ∃ out, file'.written = file.written ++ out ∧ ∀ rest, decode cr (data ++ rest) = out ++ decode cr' rest := by
  induction data generalizing cr file with
  | nil =>
    cases h
    exact ⟨[], by simp, by simp⟩
  | cons c data ih =>
    cases cr with
    | true =>
      rw [netasciiWriteLoop] at h
      by_cases hc : c = 10 ∨ c = 0
      · rw [if_pos hc] at h
        split at h
        · cases h
        · rename_i f hf
          obtain ⟨out, hout, hdec⟩ := ih h
          refine ⟨(if c = 10 then 10 else 13) :: out, ?_, fun rest => ?_⟩
          · rw [hout, putc_eq_some hf, List.append_assoc, List.singleton_append]
          · rcases hc with rfl | rfl <;> simp [decode, hdec]
      · have hc' : c ≠ 10 ∧ c ≠ 0 := not_or.mp hc
        rw [if_neg hc] at h
        split at h
        · cases h
        · rename_i f hf
          split at h
          · cases h
          · rename_i f' hf'
            obtain ⟨out, hout, hdec⟩ := ih h
            refine ⟨13 :: c :: out, ?_, fun rest => ?_⟩
            · rw [hout, putc_eq_some hf', putc_eq_some hf]
              simp
            · simp [decode, hc'.1, hc'.2, hdec]
    | false =>
      rw [netasciiWriteLoop] at h
      split_ifs at h with hc
      · obtain ⟨out, hout, hdec⟩ := ih h
        exact ⟨out, hout, fun rest => by simp [decode, hc, hdec]⟩
      · split at h
        · cases h
        · rename_i f hf
          obtain ⟨out, hout, hdec⟩ := ih h
          refine ⟨c :: out, ?_, fun rest => ?_⟩
          · rw [hout, putc_eq_some hf, List.append_assoc, List.singleton_append]
          · simp [decode, hc, hdec]

/-- Without a limit on the file the loop gets to the end. -/
theorem netasciiWriteLoop_total (data : Bytes) (cr : Bool) (file : File) (hroom : file.room = none) :
    ∃ cr' out, netasciiWriteLoop data cr file = (true, cr', { file with written := file.written ++ out }) := by
  induction data generalizing cr file with
  | nil => exact ⟨cr, [], by simp [netasciiWriteLoop]⟩
  | cons c data ih =>
    have hput (f : File) (b : UInt8) (hf : f.room = none) :
        f.putc b = some { f with written := f.written ++ [b] } := by
      simp [File.putc, hf]
    have hnext (cr : Bool) (bytes : Bytes) : ∃ cr' out,
        netasciiWriteLoop data cr { file with written := file.written ++ bytes } =
          (true, cr', { file with written := file.written ++ out }) := by
      obtain ⟨cr', out, h⟩ := ih cr { file with written := file.written ++ bytes } hroom
      exact ⟨cr', bytes ++ out, by rw [h, List.append_assoc]⟩
    cases cr with
    | true =>
      rw [netasciiWriteLoop, hput _ _ hroom, hput _ _ hroom]
      by_cases hc : c = 10 ∨ c = 0
      · rw [if_pos hc]
        exact hnext false _
      · have hboth := hput { file with written := file.written ++ [13] } c hroom
        rw [List.append_assoc] at hboth
        rw [if_neg hc]
        dsimp only
        rw [hboth]
        exact hnext false _
    | false =>
      rw [netasciiWriteLoop, hput _ _ hroom]
      split_ifs
      · exact ih true file hroom
      · exact hnext false _

/-- What the writer puts out for some bytes does not depend on what follows them. -/
theorem netasciiWriteLoop_spec (data : Bytes) (cr : Bool) (file : File) (hroom : file.room = none) :
    ∃ cr' out, netasciiWriteLoop data cr file = (true, cr', { file with written := file.written ++ out }) ∧
      ∀ rest, decode cr (data ++ rest) = out ++ decode cr' rest := by
  obtain ⟨cr', out, h⟩ := netasciiWriteLoop_total data cr file hroom
  obtain ⟨out', hout, hdec⟩ := netasciiWriteLoop_ok h
  obtain rfl : out = out' := List.append_cancel_left hout
  exact ⟨cr', out, h, hdec⟩

/-- Successive `netascii_write_packet` calls, each of which must take its whole payload. -/
def netasciiWriteAll : TftpIo → List Bytes → Option TftpIo
  | io, [] => some io
  | io, c :: cs =>
    match io.netasciiWritePacket { data := c } c.length with
    | (some n, io) => if n = c.length then netasciiWriteAll io cs else none
    | (none, _) => none

theorem netasciiWriteAll_spec (chunks : List Bytes) (io : TftpIo) (hroom : io.file.room = none) :
    ∃ cr out, netasciiWriteAll io chunks = some { io with
        writeCr := cr, file := { io.file with written := io.file.written ++ out } } ∧
      ∀ rest, decode io.writeCr (chunks.flatten ++ rest) = out ++ decode cr rest := by
  induction chunks generalizing io with
  | nil => exact ⟨io.writeCr, [], by simp [netasciiWriteAll], by simp⟩
  | cons c cs ih =>
    obtain ⟨cr₁, out₁, h₁, hd₁⟩ := netasciiWriteLoop_spec c io.writeCr io.file hroom
    obtain ⟨cr₂, out₂, h₂, hd₂⟩ := ih { io with
      writeCr := cr₁, file := { io.file with written := io.file.written ++ out₁ } } hroom
    refine ⟨cr₂, out₁ ++ out₂, ?_, fun rest => ?_⟩
    · rw [netasciiWriteAll, netasciiWritePacket, List.take_length, h₁]
      simp only [if_true, h₂, List.append_assoc]
    · rw [List.flatten_cons, List.append_assoc, hd₁, hd₂, List.append_assoc]

/-- Netascii transfer is lossless: for every file and block size the packets read
are full except a last short one and together spell the encoding of the file, and
any regrouping of these bytes, written and finished, restores the file. -/
theorem netascii_lossless (content : Bytes) (slots window blocksize : ℕ) (threaded : Bool)
    (hbs : 1 ≤ blocksize) :
    (∃ ps last, netasciiPayloads (init { rest := content } true slots window blocksize threaded)
        (ps.length + 1) = ps ++ [last] ∧
      (∀ p ∈ ps, p.length = blocksize) ∧ last.length < blocksize ∧
      (ps ++ [last]).flatten = encode content) ∧
    ∀ chunks : List Bytes, chunks.flatten = encode content →
      ∃ io, netasciiWriteAll (init { rest := [] } true slots window blocksize threaded) chunks = some io ∧
        (io.netasciiWriteFinish true).1 = true ∧
        (io.netasciiWriteFinish true).2.file.written = content := by
  constructor
  · set xs := encode content with hxs
    have hrem : (init { rest := content } true slots window blocksize threaded).remaining = xs := rfl
    refine ⟨(List.range (xs.length / blocksize)).map (Blocks.block blocksize xs),
      Blocks.block blocksize xs (xs.length / blocksize), ?_, ?_, ?_, ?_⟩
    · rw [netasciiPayloads_eq _ rfl rfl, hrem]
      simp [List.range_succ, init]
    · intro p hp
      obtain ⟨i, hi, rfl⟩ := List.mem_map.mp hp
      rw [List.mem_range] at hi
      exact Blocks.block_length_of_lt xs (by simp only [Blocks.blockCount]; omega)
    · rw [Blocks.block_length_last hbs xs rfl]
      exact Nat.mod_lt _ hbs
    · have hall : (List.range (xs.length / blocksize)).map (Blocks.block blocksize xs) ++
          [Blocks.block blocksize xs (xs.length / blocksize)] = Blocks.blocks blocksize xs := by
        simp [Blocks.blocks, Blocks.blockCount, List.range_succ]
      rw [hall, Blocks.flatten_blocks hbs]
  · intro chunks hchunks
    obtain ⟨cr, out, h, hd⟩ :=
      netasciiWriteAll_spec chunks (init { rest := [] } true slots window blocksize threaded) rfl
    have hall := hd []
    simp only [List.append_nil, hchunks] at hall
    rw [show (init { rest := [] } true slots window blocksize threaded).writeCr = false from rfl,
      decode_encode] at hall
    refine ⟨_, h, ?_⟩
    -- a CR still pending at the end is written by `netascii_write_finish`
    cases cr <;> simp [netasciiWriteFinish, File.putc, init, hall, decode]

/-- A CR and a LF, cut between the two bytes of each of their codes. -/
theorem netascii_lossless_cut_codes :
    ∃ io, netasciiWriteAll (init { rest := [] } true 1 1 1 false) [[13], [0, 13], [], [10]] = some io ∧
      (io.netasciiWriteFinish true).1 = true ∧
      (io.netasciiWriteFinish true).2.file.written = [13, 10] :=
  (netascii_lossless [13, 10] 1 1 1 false (by decide)).2 [[13], [0, 13], [], [10]] rfl

end TftpIo

end TftpHpa
