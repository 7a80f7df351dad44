import TftpHpa.Lib.SerialNumber

/-! TFTP packets (`common/tftp.h`) and the block numbers of the transfer engine
(`next_block` in `common/tftp-xfer.c`). A datagram is a list of bytes; the two
header fields are in network order, so reading them is `ntohs`. -/

namespace TftpHpa

abbrev Bytes := List UInt8

abbrev Packet := Bytes

/-- `enum tftp_opcode`. -/
inductive Opcode where
  | null | rrq | wrq | data | ack | error | oack
  deriving DecidableEq, Repr

namespace Opcode

def code : Opcode → UInt16
  | null => 0
  | rrq => 1
  | wrq => 2
  | data => 3
  | ack => 4
  | error => 5
  | oack => 6

theorem code_injective : Function.Injective code := by
  intro a b h
  cases a <;> cases b <;> first | rfl | exact absurd h (by decide)

@[simp] theorem code_inj {a b : Opcode} : a.code = b.code ↔ a = b := code_injective.eq_iff

end Opcode

/-- `enum tftp_error`. -/
inductive ErrorCode where
  | undef | notFound | access | noSpace | badOp | badId | exists | noUser | optNeg
  deriving DecidableEq, Repr

/-- The code an ERROR packet carries. -/
def ErrorCode.code : ErrorCode → ℤ
  | .undef => 0
  | .notFound => 1
  | .access => 2
  | .noSpace => 3
  | .badOp => 4
  | .badId => 5
  | .exists => 6
  | .noUser => 7
  | .optNeg => 8

/-- Range of possible block sizes and the default when none is negotiated. -/
def MIN_SEGSIZE : ℕ := 8
def SEGSIZE : ℕ := 512
def MAX_SEGSIZE : ℕ := 65464

/-! ### Header fields -/

/-- The two bytes of a 16-bit field in network order. -/
def htons (v : UInt16) : Bytes := [UInt8.ofNat (v.toNat / 256), UInt8.ofNat (v.toNat % 256)]

def ntohs (hi lo : UInt8) : UInt16 := UInt16.ofNat (hi.toNat * 256 + lo.toNat)

@[simp] theorem htons_length (v : UInt16) : (htons v).length = 2 := rfl

theorem ntohs_htons (v : UInt16) :
    ntohs (UInt8.ofNat (v.toNat / 256)) (UInt8.ofNat (v.toNat % 256)) = v := by
  apply UInt16.toNat_inj.mp
  have := v.toNat_lt
  simp only [ntohs, UInt8.toNat_ofNat', UInt16.toNat_ofNat']
  omega

/-- `ntohs(tp->th_opcode)`. -/
def Packet.opcode : Packet → UInt16
  | b₀ :: b₁ :: _ => ntohs b₀ b₁
  | _ => 0

/-- `ntohs(tp->th_block)`. -/
def Packet.block : Packet → UInt16
  | _ :: _ :: b₂ :: b₃ :: _ => ntohs b₂ b₃
  | _ => 0

/-- `tp->th_data`, up to the received length. -/
def Packet.payload (p : Packet) : Bytes := p.drop 4

theorem payload_length (p : Packet) : p.payload.length = p.length - 4 := List.length_drop

def header (op : Opcode) (block : UInt16) : Bytes := htons op.code ++ htons block

@[simp] theorem header_length (op : Opcode) (block : UInt16) : (header op block).length = 4 := rfl

@[simp] theorem opcode_header (op : Opcode) (block : UInt16) (data : Bytes) :
    Packet.opcode (header op block ++ data) = op.code := ntohs_htons op.code

@[simp] theorem block_header (op : Opcode) (block : UInt16) (data : Bytes) :
    Packet.block (header op block ++ data) = block := ntohs_htons block

@[simp] theorem payload_header (op : Opcode) (block : UInt16) (data : Bytes) :
    Packet.payload (header op block ++ data) = data := rfl

/-- A DATA packet. -/
def dataPacket (block : UInt16) (data : Bytes) : Packet := header .data block ++ data

/-- The four bytes of an ACK. -/
def ackPacket (block : UInt16) : Packet := header .ack block

@[simp] theorem dataPacket_length (block : UInt16) (data : Bytes) :
    (dataPacket block data).length = data.length + 4 := by
  simp [dataPacket, Nat.add_comm]

@[simp] theorem ackPacket_length (block : UInt16) : (ackPacket block).length = 4 := rfl

@[simp] theorem opcode_dataPacket (block : UInt16) (data : Bytes) :
    Packet.opcode (dataPacket block data) = Opcode.data.code := opcode_header _ _ _

@[simp] theorem block_dataPacket (block : UInt16) (data : Bytes) :
    Packet.block (dataPacket block data) = block := block_header _ _ _

@[simp] theorem payload_dataPacket (block : UInt16) (data : Bytes) :
    Packet.payload (dataPacket block data) = data := rfl

@[simp] theorem opcode_ackPacket (block : UInt16) :
    Packet.opcode (ackPacket block) = Opcode.ack.code := opcode_header .ack block []

@[simp] theorem block_ackPacket (block : UInt16) : Packet.block (ackPacket block) = block :=
  block_header .ack block []

/-! ### Block numbers -/

/-- `next_block`: the 16-bit successor, with `rollover` in the place of zero. -/
def nextBlock (block rollover : UInt16) : UInt16 :=
  let block := block + 1
  if block = 0 then rollover else block

/-- The number of block `i`, blocks being counted from one; zero is the number
acknowledged before the first block. -/
def blockNumber (rollover : UInt16) (i : ℕ) : UInt16 := (nextBlock · rollover)^[i] 0

@[simp] theorem blockNumber_zero (rollover : UInt16) : blockNumber rollover 0 = 0 := rfl

theorem blockNumber_succ (rollover : UInt16) (i : ℕ) :
    blockNumber rollover (i + 1) = nextBlock (blockNumber rollover i) rollover := by
  rw [blockNumber, Function.iterate_succ_apply', blockNumber]

@[simp] theorem blockNumber_one (rollover : UInt16) : blockNumber rollover 1 = 1 := by
  rw [blockNumber_succ]
  rfl

theorem toNat_nextBlock (block rollover : UInt16) :
    (nextBlock block rollover).toNat = SerialNumber.next 65535 rollover.toNat block.toNat := by
  have hb := block.toNat_lt
  simp only [nextBlock, SerialNumber.next]
  have h0 : block + 1 = 0 ↔ block.toNat = 65535 := by
    rw [← UInt16.toNat_inj]
    simp only [UInt16.toNat_add, UInt16.reduceToNat]
    omega
  by_cases h : block.toNat = 65535
  · rw [if_pos (h0.mpr h), if_pos h]
  · rw [if_neg (fun hh => h (h0.mp hh)), if_neg h]
    simp only [UInt16.toNat_add, UInt16.reduceToNat]
    omega

theorem toNat_blockNumber (rollover : UInt16) (i : ℕ) :
    (blockNumber rollover i).toNat = SerialNumber.serial 65535 rollover.toNat i := by
  induction i with
  | zero => rfl
  | succ i ih => rw [blockNumber_succ, toNat_nextBlock, ih, SerialNumber.serial_succ]

/-- Within the first 65535 blocks a number identifies its block. -/
theorem blockNumber_inj_of_le {rollover : UInt16} {i j : ℕ} (hi : i ≤ 65535) (hj : j ≤ 65535)
    (h : blockNumber rollover i = blockNumber rollover j) : i = j := by
  have := congrArg UInt16.toNat h
  rwa [toNat_blockNumber, toNat_blockNumber, SerialNumber.serial_of_le hi,
    SerialNumber.serial_of_le hj] at this

/-- With rollover 0 or 1, blocks less than 65535 apart have different numbers. -/
theorem blockNumber_inj_of_lag {rollover : UInt16} (hr : rollover = 0 ∨ rollover = 1) {i j : ℕ}
    (hij : i < j + 65535) (hji : j < i + 65535)
    (h : blockNumber rollover i = blockNumber rollover j) : i = j := by
  have he := congrArg UInt16.toNat h
  rw [toNat_blockNumber, toNat_blockNumber] at he
  have hr' : rollover.toNat ≤ 1 := by rcases hr with rfl | rfl <;> decide
  rcases Nat.le_total i j with hle | hle
  · exact SerialNumber.serial_injOn (by omega) hle (by omega) he
  · exact (SerialNumber.serial_injOn (by omega) hle (by omega) he.symm).symm

end TftpHpa
