import TftpHpa.Net.Simulation

/-! Safety of a transfer. Over channels that lose, duplicate and reorder at will it
holds for files whose block numbers do not wrap; over lossy FIFO channels it holds
for files of any length, since what is in flight is never more than a window away
from what is expected. -/

namespace TftpHpa

open Blocks (block blockCount blocks)
open Channel (Discipline receive)
open Transition (Reaches run)

variable {d : Discipline} {c : Session} {xs : Bytes} {t : List NetLabel} {w : World} {a : Indices}

/-- What holds of a transfer of `xs` at any time: the receiver has published a prefix
of the blocks, the sender has let go of no others, and either side succeeds only
with the whole. -/
structure SafeTransfer (c : Session) (xs : Bytes) (t : List NetLabel) (w : World) : Prop where
  published_prefix : (published (recvTrace t)).map Packet.payload <+: blocks c.x.blocksize xs
  released_le : (traceWindow (sendTrace t)).1 ≤ (published (recvTrace t)).length
  acked_le : w.sender.pc = .release →
    (traceWindow (sendTrace t)).1 + (traceWindow (sendTrace t)).2 ≤ (published (recvTrace t)).length
  receiver_ok : ∀ args r res, w.receiver = some (args, r) → r.pc = .done res → res.status = .ok →
    (published (recvTrace t)).map Packet.payload = blocks c.x.blocksize xs
  sender_ok : ∀ res, w.sender.pc = .done res → res.status = .ok →
    res.bytes.toNat = xs.length ∧
    (published (recvTrace t)).map Packet.payload = blocks c.x.blocksize xs ∧
    (∃ u p q, recvTrace t = u ++ [.published p, .drained, .finished, .sent q]) ∧
    ∃ args r res', w.receiver = some (args, r) ∧ r.pc = .done res' ∧ res'.status = .ok ∧
      res'.bytes.toNat = xs.length

namespace Rel

theorem map_payload {n : ℕ} :
    ((List.range n).map fun i => blockPacket c.x xs (i + 1)).map Packet.payload =
      (List.range n).map (block c.x.blocksize xs) := by
  rw [List.map_map]
  rfl

theorem published_eq (h : Rel c xs t w a) :
    published (recvTrace t) = (List.range a.recvd).map fun i => blockPacket c.x xs (i + 1) := by
  have hrec := h.receiver
  cases hr : w.receiver with
  | none =>
    rw [hr] at hrec
    rw [hrec.1, hrec.2.1]
    rfl
  | some rec =>
    rw [hr] at hrec
    exact hrec.published_eq

/-- A closed protocol means a receiver that has succeeded. -/
theorem receiver_of_closed (h : Rel c xs t w a) (hcl : a.closed = true) :
    ∃ args r res, w.receiver = some (args, r) ∧ RecvInv c.x args (recvTrace t) r ∧ r.pc = .done res ∧
      res.status = .ok := by
  have hrec := h.receiver
  cases hr : w.receiver with
  | none =>
    rw [hr] at hrec
    simp [hrec.2.2.2.2] at hcl
  | some rec =>
    obtain ⟨args, r⟩ := rec
    rw [hr] at hrec
    have hph := hrec.phase
    cases hpc : r.pc <;> simp only [ReceiverPhase, hpc, hcl] at hph <;>
      first | exact absurd hph.2.2 Bool.noConfusion | exact absurd hph.2.2.1 Bool.noConfusion | skip
    rename_i res
    rcases hph with ⟨hok, -⟩ | ⟨-, hf, -⟩
    · exact ⟨args, r, res, rfl, hrec.inv, hpc, hok⟩
    · cases hf

theorem safe (hc : c.Ok) (hI : IndexInv c xs a) (h : Rel c xs t w a) : SafeTransfer c xs t w := by
  have hpub := h.published_eq
  have hle := hI.recvd_le_count
  have hmap : (published (recvTrace t)).map Packet.payload = (List.range a.recvd).map (block c.x.blocksize xs) := by
    rw [hpub, map_payload]
  have hlen : (published (recvTrace t)).length = a.recvd := by rw [hpub, List.length_map, List.length_range]
  have hall : a.recvd = blockCount c.x.blocksize xs →
      (published (recvTrace t)).map Packet.payload = blocks c.x.blocksize xs := by
    intro he
    rw [hmap, he, blocks]
  obtain ⟨sd, href, hsd⟩ := h.sender
  have hack := a.ackable_le
  have hph := hsd.phase
  have htr := hsd.trace
  refine ⟨?_, ?_, fun hpc => ?_, fun args r res hr hpc hok => ?_, fun res hpc hok => ?_⟩
  · rw [hmap]
    exact Blocks.map_block_prefix _ _ hle
  · rw [htr.base_eq, hsd.base_eq, hlen]
    exact le_trans hI.base_le_ackable hack
  · rw [href.pc_eq] at hpc
    have hw := htr.phase
    simp only [hpc] at hph hw
    rw [htr.base_eq, hw.2.1, hsd.base_eq, hlen]
    exact le_trans (hI.acked_le hph) hack
  · have hrec := h.receiver
    rw [hr] at hrec
    have hph := hrec.phase
    simp only [ReceiverPhase, hpc] at hph
    rcases hph with ⟨-, hcl⟩ | ⟨hne, -⟩
    · exact hall (hI.closed_eq hcl).1
    · exact absurd hok hne
  · rw [href.pc_eq] at hpc
    have hdone := htr.phase
    simp only [hpc] at hph hdone
    have hbase : a.base = blockCount c.x.blocksize xs := by
      rcases hph with ⟨-, hb⟩ | ⟨hne, -⟩
      · exact hb
      · exact absurd hok hne
    obtain ⟨hcl, hN⟩ := hI.closed_of_base hbase
    obtain ⟨args, r, res', hr, hinv, hpc', hok'⟩ := h.receiver_of_closed hcl
    have hrph := hinv.phase
    simp only [RecvState.Phase, hpc'] at hrph
    -- what the receiver has counted is the whole file, so the file fits the counter
    have hbytes : payloadBytes (published (recvTrace t)) = xs.length := by
      rw [hpub, payloadBytes_blocks, hN]
      exact min_eq_right (Blocks.length_lt_blockCount_mul hc.blocksize_pos xs).le
    have hlt := lt_of_le_of_lt hinv.accounts.bytes_le c.x.maxBytes.toNat_lt
    rw [hbytes] at hlt
    refine ⟨?_, hall hN, ?_, args, r, res', hr, hpc', hok', ?_⟩
    · rw [(hdone hok).1, Sending.bytesOf_blockCount hc.blocksize_pos, Nat.mod_eq_of_lt hlt]
    · obtain ⟨u, p, htr', -⟩ := hrph.2 hok'
      exact ⟨u, p, _, htr'⟩
    · rw [hrph.1, hinv.accounts.bytes_eq, hbytes]

/-- Before anything has happened. -/
theorem init (hw : 0 < c.x.windowsize) {file : File} {convert threaded : Bool} {slots : ℕ} {io : TftpIo}
    (hio : TftpIo.readerStart file convert c.x.windowsize slots c.x.blocksize threaded = some io) :
    Rel c (file.stream convert) [] { sender := sendInit io } {} :=
  ⟨⟨_, sendRefines_init hw hio, .init _ _ _, rfl, rfl⟩, ⟨rfl, rfl, rfl, rfl, rfl⟩, .nil, .nil⟩

/-- As long as numbers identify, a run of the engines is a run of the protocol. -/
theorem of_run (hc : c.Ok) {w₀ : World} (h₀ : Rel c xs [] w₀ {})
    (hid : ∀ a, Reaches (indexStep d c xs) (fun _ => True) {} a → Identifies c xs a)
    (hrun : run (netStep d c) w₀ t = some w) :
    ∃ a, Reaches (indexStep d c xs) (fun _ => True) {} a ∧ Rel c xs t w a ∧
      w.sender.io.file.readError = w₀.sender.io.file.readError := by
  refine Transition.run_invariant
    (fun t w => ∃ a, Reaches (indexStep d c xs) (fun _ => True) {} a ∧ Rel c xs t w a ∧
      w.sender.io.file.readError = w₀.sender.io.file.readError)
    ⟨{}, .refl _, h₀, rfl⟩ (fun t w l w' ⟨a, ha, h, hread⟩ hs => ?_) hrun
  have hI : IndexInv c xs a := WindowProtocol.Inv.of_reaches (Blocks.blockCount_pos _ _) ha
  obtain ⟨a', hstep, h'⟩ := h.step hc hI (hid a ha) hs
  rcases hstep with rfl | ⟨e, he⟩
  · exact ⟨a', ha, h', (h.readError_eq hs).trans hread⟩
  · exact ⟨a', ha.trans (.single trivial he), h', (h.readError_eq hs).trans hread⟩

end Rel

/-! ### Identification -/

/-- Without a wrap every number stands for one block. -/
theorem identifies_of_count_le (hN : blockCount c.x.blocksize xs ≤ 65535) (hI : IndexInv c xs a) :
    Identifies c xs a := by
  have hle := hI.recvd_le_count
  have hup := WindowProtocol.base_add_width_le (W := c.x.windowsize) hI.base_le
  have hack := a.ackable_le
  refine ⟨fun hlt i hi he => ?_, fun hlt j hj k hk hk' he => ?_⟩
  · have := (hI.data_le i hi).2
    exact blockNumber_inj_of_le (by omega) (by omega) he
  · have := hI.acks_le j hj
    have hk'' : k ≤ blockCount c.x.blocksize xs := le_trans hk' hup
    exact blockNumber_inj_of_le (by omega) (by omega) he

/-- Over FIFO channels what is in flight is too close to what is expected to be
mistaken for it. -/
theorem identifies_of_lag (hw : c.x.windowsize ≤ 32768) (hr : c.x.rollover = 0 ∨ c.x.rollover = 1)
    (hI : IndexInv c xs a)
    (hlag : WindowProtocol.Lag (blockCount c.x.blocksize xs) c.x.windowsize a) : Identifies c xs a := by
  refine ⟨fun hlt i hi he => ?_, fun hlt j hj k hk hk' he => ?_⟩
  · have := hlag.data_near hI hi
    exact blockNumber_inj_of_lag hr (by omega) (by omega) he
  · have := hlag.acks_near hI hlt hj
    have hwidth : Sending.width c.x xs a.base ≤ c.x.windowsize := min_le_left _ _
    exact blockNumber_inj_of_lag hr (by omega) (by omega) he

/-! ### The two safety theorems -/

theorem Session.ok_of_start {file : File} {convert threaded : Bool} {slots : ℕ} {io : TftpIo}
    (hio : TftpIo.readerStart file convert c.x.windowsize slots c.x.blocksize threaded = some io)
    (hw : 1 ≤ c.x.windowsize) (hreply : c.OpensWell) : c.Ok := by
  refine ⟨?_, hw, hreply⟩
  rw [TftpIo.readerStart, TftpIo.ioStart] at hio
  split_ifs at hio with hbad
  omega

/-- Channels that lose, duplicate, delay and reorder: files of up to 65535 blocks. -/
theorem transfer_safe_unordered (c : Session) (hw : 1 ≤ c.x.windowsize) (hreply : c.OpensWell) (file : File)
    (convert threaded : Bool) (slots : ℕ) {io : TftpIo}
    (hio : TftpIo.readerStart file convert c.x.windowsize slots c.x.blocksize threaded = some io)
    (hN : blockCount c.x.blocksize (file.stream convert) ≤ 65535) {t : List NetLabel} {w : World}
    (hrun : run (netStep .unordered c) { sender := sendInit io } t = some w) :
    SafeTransfer c (file.stream convert) t w := by
  have hc := Session.ok_of_start hio hw hreply
  have hpos := Blocks.blockCount_pos c.x.blocksize (file.stream convert)
  obtain ⟨a, ha, h, -⟩ := Rel.of_run hc (Rel.init hw hio)
    (fun a ha => identifies_of_count_le hN (.of_reaches hpos ha)) hrun
  exact h.safe hc (.of_reaches hpos ha)

/-- A transfer of one byte in which DATA 1 arrives twice and is acknowledged twice. -/
theorem transfer_safe_unordered_one_byte :
    ∃ io w, TftpIo.readerStart { rest := [65] } false 4 4 512 false = some io ∧
      run (netStep .unordered { x := { blocksize := 512, windowsize := 4, rollover := 1 }, inputSize := 516 })
        { sender := sendInit io }
        [.start none, .sender (.window 1 true), .sender (.entered false), .sender (.sent (dataPacket 1 [65])),
          .sender .timeout, .sender (.entered true), .sender (.sent (dataPacket 1 [65])),
          .receiver .reserved, .receiver (.entered false), .receiver (.received (dataPacket 1 [65])),
          .receiver (.published (dataPacket 1 [65])), .receiver .drained, .receiver .finished,
          .receiver (.sent (ackPacket 1)), .sender (.received (ackPacket 1)), .sender .released] = some w ∧
      SafeTransfer { x := { blocksize := 512, windowsize := 4, rollover := 1 }, inputSize := 516 } [65]
        [.start none, .sender (.window 1 true), .sender (.entered false), .sender (.sent (dataPacket 1 [65])),
          .sender .timeout, .sender (.entered true), .sender (.sent (dataPacket 1 [65])),
          .receiver .reserved, .receiver (.entered false), .receiver (.received (dataPacket 1 [65])),
          .receiver (.published (dataPacket 1 [65])), .receiver .drained, .receiver .finished,
          .receiver (.sent (ackPacket 1)), .sender (.received (ackPacket 1)), .sender .released] w :=
  ⟨_, _, rfl, rfl, transfer_safe_unordered
    { x := { blocksize := 512, windowsize := 4, rollover := 1 }, inputSize := 516 } (by decide)
    (fun _ h => by cases h) { rest := [65] } false false 4 rfl (by decide) rfl⟩

/-- FIFO channels that lose: files of any length. -/
theorem transfer_safe_fifo (c : Session) (hw : 1 ≤ c.x.windowsize) (hw' : c.x.windowsize ≤ 32768)
    (hr : c.x.rollover = 0 ∨ c.x.rollover = 1) (hreply : c.OpensWell) (file : File) (convert threaded : Bool)
    (slots : ℕ) {io : TftpIo}
    (hio : TftpIo.readerStart file convert c.x.windowsize slots c.x.blocksize threaded = some io)
    {t : List NetLabel} {w : World}
    (hrun : run (netStep .fifo c) { sender := sendInit io } t = some w) :
    SafeTransfer c (file.stream convert) t w := by
  have hc := Session.ok_of_start hio hw hreply
  have hpos := Blocks.blockCount_pos c.x.blocksize (file.stream convert)
  obtain ⟨a, ha, h, -⟩ := Rel.of_run hc (Rel.init hw hio)
    (fun a ha => identifies_of_lag hw' hr (.of_reaches hpos ha) (.of_reaches hpos hw ha)) hrun
  exact h.safe hc (.of_reaches hpos ha)

/-- Blocks of eight bytes in windows of two. -/
def smallBlocks : Session where
  x := { blocksize := 8, windowsize := 2, rollover := 1 }
  inputSize := 12

/-- Three of them. -/
def threeBlockFile : File := { rest := List.replicate 8 65 ++ List.replicate 8 66 ++ [67] }

/-- They are sent. The first block and the ACK of the first window are lost. -/
def sendThreeBlocks : List NetLabel :=
  let first := dataPacket 1 (List.replicate 8 65)
  let second := dataPacket 2 (List.replicate 8 66)
  let third := dataPacket 3 [67]
  [.start none, .sender (.window 2 false), .sender (.entered false), .sender (.sent first), .sender (.sent second),
    .loseData 0, .receiver .reserved, .receiver (.entered false), .receiver (.received second),
    .receiver (.sent (ackPacket 0)), .sender (.received (ackPacket 0)), .sender .timeout, .sender (.entered true),
    .sender (.sent first), .sender (.sent second), .receiver (.received first), .receiver (.published first),
    .receiver .reserved, .receiver (.entered false), .receiver (.received second), .receiver (.published second),
    .receiver .drained, .receiver (.sent (ackPacket 2)), .loseAck 0, .receiver .reserved, .receiver (.entered false),
    .receiver .timeout, .receiver (.entered true), .receiver (.sent (ackPacket 2)), .sender (.received (ackPacket 2)),
    .sender .released, .sender (.window 1 true), .sender (.entered false), .sender (.sent third),
    .receiver (.received third), .receiver (.published third), .receiver .drained, .receiver .finished,
    .receiver (.sent (ackPacket 3)), .sender (.received (ackPacket 3)), .sender .released]

/-- The sender has succeeded. -/
def World.hasSent (w : World) : Bool :=
  match w.sender.pc with
  | .done res => res.status = .ok
  | _ => false

/-- The transfer comes to its end, with all of the file. -/
theorem transfer_safe_fifo_three_blocks :
    ∃ io w res, TftpIo.readerStart threeBlockFile false 2 2 8 false = some io ∧
      run (netStep .fifo smallBlocks) { sender := sendInit io } sendThreeBlocks = some w ∧
      w.sender.pc = .done res ∧ res.status = .ok ∧ res.bytes.toNat = 17 ∧
      (published (recvTrace sendThreeBlocks)).map Packet.payload = blocks 8 threeBlockFile.rest := by
  have hwhole : ((TftpIo.readerStart threeBlockFile false 2 2 8 false).bind fun io =>
      run (netStep .fifo smallBlocks) { sender := sendInit io } sendThreeBlocks).any World.hasSent = true := by
    decide +kernel
  obtain ⟨w, hrun, hw⟩ := (Option.any_eq_true _ _).mp hwhole
  obtain ⟨io, hio, hrun⟩ := Option.bind_eq_some_iff.mp hrun
  have hsafe := transfer_safe_fifo smallBlocks (by decide) (by decide) (.inr rfl) (fun _ h => by cases h)
    threeBlockFile false false 2 hio hrun
  unfold World.hasSent at hw
  split at hw
  · next res hpc =>
    have hok := of_decide_eq_true hw
    obtain ⟨hbytes, hblocks, -⟩ := hsafe.sender_ok res hpc hok
    exact ⟨io, w, res, hio, hrun, hpc, hok, hbytes, hblocks⟩
  · cases hw

end TftpHpa
