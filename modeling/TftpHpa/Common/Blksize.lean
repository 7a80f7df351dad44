import TftpHpa.Common.Caseless
import TftpHpa.Common.Options

/-! The block size for a socket in the integers of the source. `parse_blocksize_arg` keeps a
slack as a negative `int`, and `tftp_max_blksize` subtracts the headers from it and adds the
MTU. Nothing stands for a signed overflow. -/

namespace TftpHpa

/-- The result of a computation with `int`. -/
def intResult (z : ℤ) : Option ℤ := if -2 ^ 31 ≤ z ∧ z < 2 ^ 31 then some z else none

/-- The conversion of a `uintmax_t` to an `int`. -/
def intOfUintmax (v : BitVec 64) : ℤ := (v.setWidth 32).toInt

/-- `parse_blocksize_arg`: what is stored in `xopt.blksize`. -/
def parseBlocksizeInt (str : Bytes) (minimum : ℕ) : Option ℤ :=
  if asciiStrncaseeq str (cstr "mtu") 3 then
    if (str.drop 3).headD 0 = 0 then some 0
    else if (str.drop 3).headD 0 = 45 then
      (parseUint (str.drop 4) 0 (INT_MAX / 2)).map fun v => intOfUintmax (-BitVec.ofNat 64 v)
    else none
  else (parseUint str minimum MAX_SEGSIZE).map fun v => intOfUintmax (BitVec.ofNat 64 v)

/-- `getsockint` for the MTU: a query that fails is minus one. -/
def getsockint (mtu : Option ℕ) : ℤ := (mtu.map Nat.cast).getD (-1)

/-- The headers are subtracted, in the branches of the switch. -/
def AddressFamily.adjust (adjust : ℤ) : AddressFamily → Option ℤ
  | .inet => intResult (adjust - (20 + 8 + 4))
  | .inet6 => intResult (adjust - (40 + 8 + 4))
  | .other => some adjust

/-- The MTU that is found in them. -/
def Socket.foundMtu (s : Socket) : ℤ :=
  match s.family with
  | .inet | .inet6 => getsockint s.mtu
  | .other => -1

/-- `tftp_max_blksize`, before the upper limit. -/
def tftpMtuBlksize (blksize : ℤ) (s : Socket) : Option ℤ :=
  if blksize ≤ 0 then do
    let adjust ← s.family.adjust blksize
    let mtu ← intResult ((if s.foundMtu < 0 then 1500 else s.foundMtu) + adjust)
    some (if mtu < SEGSIZE then SEGSIZE else mtu)
  else some (if blksize < MIN_SEGSIZE then MIN_SEGSIZE else blksize)

/-- `tftp_max_blksize`. -/
def tftpMaxBlksizeInt (blksize : ℤ) (s : Socket) : Option ℤ :=
  (tftpMtuBlksize blksize s).map fun mtu : ℤ => if MAX_SEGSIZE < mtu then MAX_SEGSIZE else mtu

/-! ### The settings -/

theorem intOfUintmax_ofNat {v : ℕ} (hv : v ≤ INT_MAX) : intOfUintmax (BitVec.ofNat 64 v) = v := by
  unfold INT_MAX at hv
  rw [intOfUintmax, BitVec.toInt_setWidth, BitVec.toNat_ofNat, Int.bmod_def]
  omega

theorem intOfUintmax_neg {v : ℕ} (hv : v ≤ INT_MAX) : intOfUintmax (-BitVec.ofNat 64 v) = -v := by
  unfold INT_MAX at hv
  rw [intOfUintmax, BitVec.toInt_setWidth, BitVec.toNat_neg, BitVec.toNat_ofNat, Int.bmod_def]
  omega

/-- The setting is the number that it was in the model without limits. -/
theorem parseBlocksizeInt_eq (str : Bytes) (minimum : ℕ) :
    parseBlocksizeInt str minimum = parseBlocksizeArg str minimum := by
  unfold parseBlocksizeInt parseBlocksizeArg
  split_ifs
  · rfl
  · cases h : parseUint (str.drop 4) 0 (INT_MAX / 2) with
    | none => rfl
    | some v =>
      have := (parseUint_bounds h).2
      rw [Option.map_some, Option.map_some, intOfUintmax_neg (by omega)]
  · rfl
  · cases h : parseUint str minimum MAX_SEGSIZE with
    | none => rfl
    | some v =>
      have := (parseUint_bounds h).2
      rw [Option.map_some, Option.map_some, intOfUintmax_ofNat (this.trans (by decide))]

/-- What an argument of `-B` says: a number, or the slack that is left below the MTU. -/
inductive BlocksizeArg where
  | number (n : ℕ)
  | mtu (slack : ℕ)

/-- How it is written; the numbers are those of `parse_uint`. -/
inductive BlocksizeText (minimum : ℕ) : Bytes → BlocksizeArg → Prop
  | number {str : Bytes} {n : ℕ} (h : parseUint str minimum MAX_SEGSIZE = some n) :
      BlocksizeText minimum str (.number n)
  | mtu {str : Bytes} (h : str.map asciiTolower = cstr "mtu") : BlocksizeText minimum str (.mtu 0)
  | slack {m str : Bytes} {n : ℕ} (hm : m.map asciiTolower = cstr "mtu")
      (h : parseUint str 0 (INT_MAX / 2) = some n) :
      BlocksizeText minimum (m ++ 45 :: str) (.mtu n)

/-- The setting for an argument. -/
def BlocksizeArg.setting : BlocksizeArg → ℤ
  | number n => n
  | mtu slack => -slack

/-- A string that begins with the word. -/
theorem mtu_cases {str : Bytes} (h0 : (0 : UInt8) ∉ str) (h : asciiStrncaseeq str (cstr "mtu") 3 = true) :
    ∃ m rest, str = m ++ rest ∧ m.map asciiTolower = cstr "mtu" := by
  rw [asciiStrncaseeq_iff_take h0 (by decide)] at h
  have hmtu : ((cstr "mtu" ++ [0]).take 3).map asciiTolower = cstr "mtu" := by decide
  rw [hmtu] at h
  have hlen : 3 ≤ str.length := by
    by_contra hshort
    have hz : (0 : UInt8) ∈ (str ++ [0]).take 3 := by
      rw [List.take_of_length_le (by simp; omega)]
      simp
    have : asciiTolower 0 ∈ cstr "mtu" := h ▸ List.mem_map_of_mem hz
    exact absurd this (by decide)
  rw [List.take_append_of_le_length hlen] at h
  exact ⟨_, _, (List.take_append_drop 3 str).symm, h⟩

theorem exists_blocksizeText {str : Bytes} {minimum : ℕ} {b : ℤ} (h0 : (0 : UInt8) ∉ str)
    (h : parseBlocksizeInt str minimum = some b) : ∃ arg, BlocksizeText minimum str arg ∧ b = arg.setting := by
  rw [parseBlocksizeInt_eq, parseBlocksizeArg] at h
  by_cases hmtu : asciiStrncaseeq str (cstr "mtu") 3
  · obtain ⟨m, rest, rfl, hm⟩ := mtu_cases h0 hmtu
    have hlen : m.length = 3 := by
      have := congrArg List.length hm
      rwa [List.length_map] at this
    have hdrop : (m ++ rest).drop 3 = rest := by rw [← hlen, List.drop_left]
    rw [if_pos hmtu, hdrop] at h
    cases rest with
    | nil =>
      rw [List.headD_nil, if_pos rfl] at h
      exact ⟨.mtu 0, .mtu (by rwa [List.append_nil]), (Option.some.inj h).symm⟩
    | cons c rest =>
      have hc : c ≠ 0 := by
        rintro rfl
        exact h0 (by simp)
      have hdrop' : (m ++ c :: rest).drop 4 = rest := by
        rw [show 4 = 3 + 1 from rfl, ← List.drop_drop, hdrop]
        rfl
      rw [List.headD_cons, if_neg hc, hdrop'] at h
      split_ifs at h with hminus
      obtain ⟨v, hv, rfl⟩ := Option.map_eq_some_iff.mp h
      exact ⟨.mtu v, hminus ▸ .slack hm hv, rfl⟩
  · rw [if_neg hmtu] at h
    obtain ⟨v, hv, rfl⟩ := Option.map_eq_some_iff.mp h
    exact ⟨.number v, .number hv, rfl⟩

/-! ### The socket -/

theorem intResult_eq_some {z : ℤ} (hge : -2 ^ 31 ≤ z) (hlt : z < 2 ^ 31) : intResult z = some z :=
  if_pos ⟨hge, hlt⟩

/-- An MTU that is an `int`. -/
def Socket.IntMtu (s : Socket) : Prop := ∀ mtu, s.mtu = some mtu → mtu ≤ INT_MAX

theorem Socket.foundMtu_or_guess (s : Socket) : (if s.foundMtu < 0 then 1500 else s.foundMtu) = s.mtuOrGuess := by
  have hnonneg (mtu : ℕ) : ¬ (mtu : ℤ) < 0 := by omega
  obtain ⟨family, mtu⟩ := s
  cases family <;> cases mtu <;> simp [foundMtu, mtuOrGuess, getsockint, hnonneg]

theorem Socket.mtuOrGuess_bounds {s : Socket} (h : s.IntMtu) : 0 ≤ s.mtuOrGuess ∧ s.mtuOrGuess < 2 ^ 31 := by
  obtain ⟨family, mtu⟩ := s
  cases mtu with
  | none => cases family <;> simp [mtuOrGuess]
  | some mtu =>
    have hle : mtu ≤ INT_MAX := h mtu rfl
    unfold INT_MAX at hle
    cases family <;> simp only [mtuOrGuess] <;> omega

theorem AddressFamily.overhead_bounds (f : AddressFamily) : 0 ≤ f.overhead ∧ f.overhead ≤ 52 := by
  cases f <;> decide

theorem AddressFamily.adjust_eq {b : ℤ} (hge : -2 ^ 30 ≤ b) (hle : b ≤ 0) (f : AddressFamily) :
    f.adjust b = some (b - f.overhead) := by
  cases f with
  | inet => exact intResult_eq_some (by omega) (by omega)
  | inet6 => exact intResult_eq_some (by omega) (by omega)
  | other => rw [adjust, overhead, sub_zero]

/-- No computation leaves the range of `int`. -/
theorem tftpMaxBlksizeInt_eq {b : ℤ} (hge : -(INT_MAX / 2 : ℕ) ≤ b) {s : Socket} (hs : s.IntMtu) :
    tftpMaxBlksizeInt b s = some (min (if b ≤ 0 then max (s.mtuOrGuess + (b - s.family.overhead)) SEGSIZE
      else max b MIN_SEGSIZE) MAX_SEGSIZE) := by
  have hlow : -2 ^ 30 ≤ b := hge.trans' (by decide)
  have hupper (mtu : ℤ) : (if (MAX_SEGSIZE : ℤ) < mtu then (MAX_SEGSIZE : ℤ) else mtu) = min mtu MAX_SEGSIZE := by
    split_ifs <;> omega
  have hlower (mtu : ℤ) (least : ℕ) : (if mtu < least then (least : ℤ) else mtu) = max mtu least := by
    split_ifs <;> omega
  rw [tftpMaxBlksizeInt, tftpMtuBlksize]
  by_cases hb : b ≤ 0
  · have hmtu := s.mtuOrGuess_bounds hs
    have hover := s.family.overhead_bounds
    rw [if_pos hb, if_pos hb, AddressFamily.adjust_eq hlow hb, Option.bind_eq_bind, Option.bind_some,
      s.foundMtu_or_guess, intResult_eq_some (by omega) (by omega), Option.bind_some,
      Option.map_some, hupper, hlower]
  · rw [if_neg hb, if_neg hb, Option.map_some, hupper, hlower]

/-- The model without limits is right for every setting. -/
theorem tftpMaxBlksizeInt_eq_tftpMaxBlksize (x : CommonOptions) {s : Socket} (hs : s.IntMtu) :
    tftpMaxBlksizeInt x.blksize s = some (tftpMaxBlksize x s : ℤ) := by
  rw [tftpMaxBlksizeInt_eq x.blksize_ge hs, tftpMaxBlksize, Int.toNat_of_nonneg]
  simp only [MIN_SEGSIZE, SEGSIZE, MAX_SEGSIZE]
  split_ifs <;> omega

/-- The block size that an argument stands for. -/
def BlocksizeArg.blksize (s : Socket) : BlocksizeArg → ℤ
  | number n => n
  | mtu slack => max 512 (min (s.mtuOrGuess - slack - s.family.overhead) 65464)

/-- Any setting that is accepted gives a block size without overflow: the number itself, or what
is left of the MTU within the limits. -/
theorem blksize_within_limits {str : Bytes} (h0 : (0 : UInt8) ∉ str) {minimum : ℕ}
    (hmin : MIN_SEGSIZE ≤ minimum) {b : ℤ} (h : parseBlocksizeInt str minimum = some b) {s : Socket} (hs : s.IntMtu) :
    ∃ arg, BlocksizeText minimum str arg ∧ tftpMaxBlksizeInt b s = some (arg.blksize s) ∧
      8 ≤ arg.blksize s ∧ arg.blksize s ≤ 65464 ∧ (∀ slack, arg = .mtu slack → 512 ≤ arg.blksize s) := by
  obtain ⟨arg, htext, rfl⟩ := exists_blocksizeText h0 h
  rw [parseBlocksizeInt_eq] at h
  have hge := (parseBlocksizeArg_bounds h).1
  have heq : tftpMaxBlksizeInt arg.setting s = some (arg.blksize s) ∧
      8 ≤ arg.blksize s ∧ arg.blksize s ≤ 65464 := by
    rw [tftpMaxBlksizeInt_eq hge hs, Option.some_inj]
    unfold MIN_SEGSIZE at hmin
    simp only [MIN_SEGSIZE, SEGSIZE, MAX_SEGSIZE]
    cases htext with
    | number hn =>
      have hbounds := parseUint_bounds hn
      unfold MAX_SEGSIZE at hbounds
      simp only [BlocksizeArg.setting, BlocksizeArg.blksize]
      split_ifs <;> omega
    | mtu | slack =>
      simp only [BlocksizeArg.setting, BlocksizeArg.blksize]
      split_ifs <;> omega
  refine ⟨arg, htext, heq.1, heq.2.1, heq.2.2, ?_⟩
  rintro slack rfl
  exact le_max_left _ _

/-- A slack on a socket with a small MTU. -/
theorem blksize_within_limits_slack : ∃ arg, BlocksizeText MIN_SEGSIZE (cstr "MTU-100") arg ∧
    tftpMaxBlksizeInt (-100) { family := .inet6, mtu := some 1280 } =
      some (arg.blksize { family := .inet6, mtu := some 1280 }) ∧
    arg.blksize { family := .inet6, mtu := some 1280 } = 1128 := by
  have hs : Socket.IntMtu { family := .inet6, mtu := some 1280 } := by
    rintro mtu h
    obtain rfl := Option.some.inj h
    decide
  obtain ⟨arg, htext, heq, -⟩ := blksize_within_limits (by decide) le_rfl
    (show parseBlocksizeInt (cstr "MTU-100") MIN_SEGSIZE = some (-100) by decide +kernel) hs
  have hvalue : tftpMaxBlksizeInt (-100) { family := .inet6, mtu := some 1280 } = some 1128 := rfl
  exact ⟨arg, htext, heq, Option.some.inj (heq.symm.trans hvalue)⟩

end TftpHpa
