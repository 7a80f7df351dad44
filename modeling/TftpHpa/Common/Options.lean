import TftpHpa.Common.Text

/-! The options both programs have: number arguments (`common/parsenum.c`), the block
size setting and the block size it stands for on a given socket
(`tftp_max_blksize`). -/

namespace TftpHpa

/-! ### Number arguments -/

/-- The shift of a unit suffix, given the character where the number ends. -/
def suffixShift (c : UInt8) : Option ℕ :=
  if asciiTolower c = 0 then some 0
  else if asciiTolower c = 107 then some 10
  else if asciiTolower c = 109 then some 20
  else if asciiTolower c = 103 then some 30
  else if asciiTolower c = 116 then some 40
  else if asciiTolower c = 112 then some 50
  else if asciiTolower c = 101 then some 60
  else none

/-- `parse_uint`; nothing stands for `BAD_NUM`. -/
def parseUint (arg : Bytes) (lo hi : ℕ) : Option ℕ :=
  let parsed := strtoumax arg
  let stop := parsed.rest.dropWhile isspace
  if parsed.erange ∨ parsed.rest.length = arg.length then none
  else match suffixShift (stop.headD 0) with
    | none => none
    | some shift =>
      let shifted := parsed.value <<< shift % 2 ^ 64
      if shift ≠ 0 ∧ (shifted >>> shift ≠ parsed.value ∨ stop.tail ≠ []) then none
      else if shifted < lo ∨ hi < shifted then none
      else some shifted

theorem parseUint_bounds {arg : Bytes} {lo hi v : ℕ} (h : parseUint arg lo hi = some v) : lo ≤ v ∧ v ≤ hi := by
  simp only [parseUint] at h
  split_ifs at h
  split at h
  · cases h
  · split_ifs at h with _ hrange
    obtain rfl := Option.some.inj h
    omega

def INT_MAX : ℕ := 2 ^ 31 - 1

/-- `parse_blocksize_arg`: a number, or `mtu` with an optional slack, which is what
a setting that is not positive stands for. -/
def parseBlocksizeArg (str : Bytes) (minimum : ℕ) : Option ℤ :=
  if asciiStrncaseeq str (cstr "mtu") 3 then
    if (str.drop 3).headD 0 = 0 then some 0
    else if (str.drop 3).headD 0 = 45 then (parseUint (str.drop 4) 0 (INT_MAX / 2)).map fun v : ℕ => -(v : ℤ)
    else none
  else (parseUint str minimum MAX_SEGSIZE).map fun v : ℕ => (v : ℤ)

theorem parseBlocksizeArg_bounds {str : Bytes} {minimum : ℕ} {b : ℤ}
    (h : parseBlocksizeArg str minimum = some b) : -(INT_MAX / 2 : ℕ) ≤ b ∧ b ≤ MAX_SEGSIZE := by
  unfold parseBlocksizeArg at h
  split_ifs at h
  · obtain rfl := Option.some.inj h
    exact ⟨by decide, by decide⟩
  · obtain ⟨v, hv, rfl⟩ := Option.map_eq_some_iff.mp h
    have := (parseUint_bounds hv).2
    exact ⟨by omega, by unfold MAX_SEGSIZE; omega⟩
  · obtain ⟨v, hv, rfl⟩ := Option.map_eq_some_iff.mp h
    have := (parseUint_bounds hv).2
    exact ⟨by omega, by omega⟩

/-! ### The settings -/

/-- Limits and default of the timeouts, in microseconds. -/
def USEC_PER_SEC : ℕ := 1000000
def MIN_TIMEOUT_SEC : ℕ := 1
def DEF_TIMEOUT_SEC : ℕ := 1
def MAX_TIMEOUT_SEC : ℕ := 255
def MIN_TIMEOUT : ℕ := 10000
def DEF_TIMEOUT : ℕ := DEF_TIMEOUT_SEC * USEC_PER_SEC
def MAX_TIMEOUT : ℕ := MAX_TIMEOUT_SEC * USEC_PER_SEC

/-- Six attempts, each with twice the timeout of the one before. -/
def TRIES : ℕ := 6
def TIMEOUT_LIMIT : ℕ := (1 <<< TRIES) - 1

/-- The largest window size either program accepts. -/
def MAX_MAX_WINDOWSIZE : ℕ := 32768

/-- The limits of a window of the server, as `configure` defines them unless it is told otherwise. -/
def MAX_WINDOWSIZE : ℕ := 256
def MAX_WINDOWBYTES : ℕ := 4194304

/-- `struct common_options`, as far as negotiation reads it. -/
structure CommonOptions where
  blksize : ℤ
  maxWindowsize : ℕ
  rexmtval : ℕ := DEF_TIMEOUT
  blksize_ge : -(INT_MAX / 2 : ℕ) ≤ blksize
  blksize_le : blksize ≤ MAX_SEGSIZE
  windowsize_pos : 1 ≤ maxWindowsize
  windowsize_le : maxWindowsize ≤ MAX_MAX_WINDOWSIZE
  rexmtval_ge : MIN_TIMEOUT ≤ rexmtval := by decide
  rexmtval_le : rexmtval ≤ MAX_TIMEOUT := by decide

namespace CommonOptions

/-- What the server starts with. -/
def daemonDefault : CommonOptions where
  blksize := MAX_SEGSIZE
  maxWindowsize := MAX_WINDOWSIZE
  blksize_ge := by decide
  blksize_le := le_rfl
  windowsize_pos := by decide
  windowsize_le := by decide

/-- What the client starts with. -/
def clientDefault : CommonOptions where
  blksize := 0
  maxWindowsize := 64
  blksize_ge := by decide
  blksize_le := by decide
  windowsize_pos := by decide
  windowsize_le := by decide

/-- `-B` of the server and the client, which differ in the minimum. -/
def setBlksize (x : CommonOptions) (minimum : ℕ) (str : Bytes) : Option CommonOptions :=
  match h : parseBlocksizeArg str minimum with
  | none => none
  | some b => some { x with
      blksize := b
      blksize_ge := (parseBlocksizeArg_bounds h).1
      blksize_le := (parseBlocksizeArg_bounds h).2 }

/-- `-W` of the server, where zero stands for one, and of the client. -/
def setWindowsize (x : CommonOptions) (minimum : ℕ) (str : Bytes) : Option CommonOptions :=
  match h : parseUint str minimum MAX_MAX_WINDOWSIZE with
  | none => none
  | some v => some { x with
      maxWindowsize := if v = 0 then 1 else v
      windowsize_pos := by split_ifs <;> omega
      windowsize_le := by
        have := (parseUint_bounds h).2
        split_ifs
        · decide
        · exact this }

/-- `-T` of the server. -/
def setRexmtval (x : CommonOptions) (str : Bytes) : Option CommonOptions :=
  match h : parseUint str MIN_TIMEOUT MAX_TIMEOUT with
  | none => none
  | some v => some { x with
      rexmtval := v
      rexmtval_ge := (parseUint_bounds h).1
      rexmtval_le := (parseUint_bounds h).2 }

end CommonOptions

/-! ### Block size and socket -/

inductive AddressFamily where
  | inet | inet6 | other
  deriving DecidableEq

/-- A connected socket: its family and the MTU it reports, if the query works. -/
structure Socket where
  family : AddressFamily := .inet
  mtu : Option ℕ := none

/-- The headers of a packet, up to the data. -/
def AddressFamily.overhead : AddressFamily → ℤ
  | .inet => 20 + 8 + 4
  | .inet6 => 40 + 8 + 4
  | .other => 0

/-- The MTU, or that of Ethernet where it cannot be had. -/
def Socket.mtuOrGuess (s : Socket) : ℤ :=
  match s.family, s.mtu with
  | .inet, some mtu | .inet6, some mtu => mtu
  | _, _ => 1500

/-- `tftp_max_blksize`. -/
def tftpMaxBlksize (x : CommonOptions) (s : Socket) : ℕ :=
  let mtu :=
    if x.blksize ≤ 0 then max (s.mtuOrGuess + (x.blksize - s.family.overhead)) SEGSIZE
    else max x.blksize MIN_SEGSIZE
  (min mtu MAX_SEGSIZE).toNat

theorem tftpMaxBlksize_bounds (x : CommonOptions) (s : Socket) :
    MIN_SEGSIZE ≤ tftpMaxBlksize x s ∧ tftpMaxBlksize x s ≤ MAX_SEGSIZE := by
  simp only [tftpMaxBlksize, MIN_SEGSIZE, SEGSIZE, MAX_SEGSIZE]
  split_ifs <;> omega

end TftpHpa
