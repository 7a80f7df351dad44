import TftpHpa.Daemon.Options

/-! Option negotiation in the server (`negotiate_options` and what it calls). The
functions work on the daemon's static variables, which start out as zero; block and
window size are only ever set here. -/

namespace TftpHpa

/-- `enum tsize_mode`. -/
inductive TsizeMode where
  | nak | read | write
  deriving DecidableEq

/-- The static variables negotiation reads and writes. -/
structure Daemon where
  opts : OptionTable
  segsize : ℕ := 0
  windowsize : ℕ := 0
  tsizeMode : TsizeMode := .nak
  tsizeSize : ℕ := 0
  timeout : ℕ
  rexmtval : ℕ
  maxtimeout : ℕ
  rolloverVal : UInt16 := 0

namespace Daemon

/-- Acknowledge an option as it was asked for. -/
def ack (d : Daemon) (o : ProtocolOption) : Daemon :=
  { d with opts := Function.update d.opts o { d.opts o with ack := true } }

/-- Acknowledge an option with a value. -/
def ackValue (d : Daemon) (o : ProtocolOption) (uint : ℕ) : Daemon :=
  { d with opts := Function.update d.opts o { d.opts o with ack := true, uint } }

def ackIf (d : Daemon) (b : Bool) (o : ProtocolOption) : Daemon := if b then d.ack o else d

def ackValueIf (d : Daemon) (b : Bool) (o : ProtocolOption) (uint : ℕ) : Daemon :=
  if b then d.ackValue o uint else d

end Daemon

/-! ### Block size -/

theorem and_pred_lt {b : ℕ} (h : b &&& (b - 1) ≠ 0) : b &&& (b - 1) < b := by
  have hpos : b ≠ 0 := by
    rintro rfl
    exact h rfl
  exact lt_of_le_of_lt Nat.and_le_right (Nat.sub_one_lt hpos)

/-- The loop that clears the lowest bit set until only one is left. -/
def roundDownPowerOf2 (blksize : ℕ) : ℕ :=
  if h : blksize &&& (blksize - 1) = 0 then blksize else roundDownPowerOf2 (blksize &&& (blksize - 1))
termination_by blksize
decreasing_by exact and_pred_lt h

/-- The highest bit of a number is set in the number before it as well, or it is that
bit alone. -/
theorem two_pow_log_le_and_pred {b : ℕ} (hpos : b ≠ 0) (hne : b ≠ 2 ^ Nat.log 2 b) :
    2 ^ Nat.log 2 b ≤ b &&& (b - 1) := by
  have hlog := Nat.pow_log_le_self 2 hpos
  have hlt := Nat.lt_pow_succ_log_self (b := 2) (by decide) b
  have hbit : ∀ n, 2 ^ Nat.log 2 b ≤ n → n < 2 ^ (Nat.log 2 b + 1) → n.testBit (Nat.log 2 b) = true :=
    fun n h₁ h₂ => Nat.testBit_of_two_pow_le_and_two_pow_add_one_gt h₁ h₂
  refine Nat.ge_two_pow_of_testBit ?_
  rw [Nat.testBit_and, hbit b hlog hlt, hbit (b - 1) (by omega) (by omega), Bool.and_self]

theorem two_pow_and_pred (k : ℕ) : 2 ^ k &&& (2 ^ k - 1) = 0 :=
  (Nat.and_two_pow_sub_one_eq_mod _ _).trans (Nat.mod_self _)

/-- The test for a power of two. -/
theorem eq_two_pow_of_and_pred {b : ℕ} (hpos : b ≠ 0) (h : b &&& (b - 1) = 0) : ∃ k, b = 2 ^ k := by
  refine ⟨Nat.log 2 b, ?_⟩
  by_contra hne
  have := two_pow_log_le_and_pred hpos hne
  exact absurd (h ▸ this) (by simp)

/-- The loop never clears the highest bit. -/
theorem le_roundDownPowerOf2 {k b : ℕ} (h : 2 ^ k ≤ b) : 2 ^ k ≤ roundDownPowerOf2 b := by
  induction b using Nat.strong_induction_on with
  | _ b ih =>
    rw [roundDownPowerOf2]
    split_ifs with h0
    · exact h
    · refine ih _ (and_pred_lt h0) ?_
      have hpos : b ≠ 0 := fun hb => h0 (by rw [hb, Nat.zero_and])
      have hk : k ≤ Nat.log 2 b := (Nat.le_log_iff_pow_le (by decide) hpos).mpr h
      have hne : b ≠ 2 ^ Nat.log 2 b := fun hb => h0 (by rw [hb]; exact two_pow_and_pred _)
      exact le_trans (Nat.pow_le_pow_right (by decide) hk) (two_pow_log_le_and_pred hpos hne)

theorem roundDownPowerOf2_le (b : ℕ) : roundDownPowerOf2 b ≤ b := by
  induction b using Nat.strong_induction_on with
  | _ b ih =>
    rw [roundDownPowerOf2]
    split_ifs with h0
    · exact le_rfl
    · exact le_trans (ih _ (and_pred_lt h0)) (and_pred_lt h0).le

/-- What `blksize2` asks for, if it is acceptable at all. -/
def acceptBlksize2 (maxBlksize : ℕ) : Option DaemonProtocolOption → Option ℕ
  | none => none
  | some blk2 =>
    if blk2.uint < MIN_SEGSIZE then none
    else some (roundDownPowerOf2 (if maxBlksize < blk2.uint then maxBlksize else blk2.uint))

/-- Whether `blksize` stands, and the block size then, next to that of `blksize2`. -/
def acceptBlksize (maxBlksize blksize : ℕ) : Option DaemonProtocolOption → Bool × ℕ
  | none => (false, blksize)
  | some blk =>
    if blk.uint < MIN_SEGSIZE then (false, blksize)
    else if maxBlksize < blk.uint then (true, maxBlksize)
    else if blk.uint < blksize then (false, blksize)
    else (true, blk.uint)

/-- `negotiate_blksize`. -/
def negotiateBlksize (maxBlksize : ℕ) (d : Daemon) : Daemon :=
  let two := acceptBlksize2 maxBlksize (optRequested d.opts .blksize2)
  let one := acceptBlksize maxBlksize (two.getD 0) (optRequested d.opts .blksize)
  let blksize := one.2
  let blk := one.1 && blksize ≠ 0
  let blk2 := two.isSome && blksize ≠ 0 && blksize &&& (blksize - 1) = 0
  let d := d.ackValueIf blk .blksize blksize
  let d := d.ackValueIf blk2 .blksize2 blksize
  { d with segsize := if !blk && !blk2 then SEGSIZE else blksize }

/-! ### The other options -/

/-- `negotiate_windowsize`. -/
def negotiateWindowsize (c : DaemonConfig) (d : Daemon) : Daemon :=
  match optRequested d.opts .windowsize with
  | none => { d with windowsize := 1 }
  | some ws =>
    if 1 < ws.uint then
      let window := if c.xopt.maxWindowsize < ws.uint then c.xopt.maxWindowsize else ws.uint
      let window := if c.maxWindowbytes < window * d.segsize then c.maxWindowbytes / d.segsize else window
      if 1 < window then { d.ackValue .windowsize window with windowsize := window }
      else { d with windowsize := 1 }
    else { d with windowsize := 1 }

/-- `negotiate_tsize`. -/
def negotiateTsize (d : Daemon) : Daemon :=
  match optRequested d.opts .tsize with
  | none => d
  | some ts =>
    match d.tsizeMode with
    | .nak => d
    | .read => if ts.uint = 0 then d.ackValue .tsize d.tsizeSize else d
    | .write => { d.ack .tsize with tsizeSize := ts.uint }

/-- `negotiate_timeout`. A valid `utimeout` wins, and `timeout` then stands only if it
says the same. -/
def negotiateTimeout (d : Daemon) : Daemon :=
  let tos := (optRequested d.opts .timeout).filter fun po =>
    MIN_TIMEOUT_SEC ≤ po.uint ∧ po.uint ≤ MAX_TIMEOUT_SEC
  let tou := (optRequested d.opts .utimeout).filter fun po => MIN_TIMEOUT ≤ po.uint ∧ po.uint ≤ MAX_TIMEOUT
  let tosUs := tos.elim 0 fun po => po.uint * USEC_PER_SEC
  let us := tou.elim tosUs fun po => po.uint
  let d := d.ackIf (tos.isSome && tosUs = us) .timeout
  let d := d.ackIf tou.isSome .utimeout
  if us = 0 then d else { d with rexmtval := us, timeout := us, maxtimeout := us * TIMEOUT_LIMIT }

/-- `negotiate_rollover`. -/
def negotiateRollover (d : Daemon) : Daemon :=
  match optRequested d.opts .rollover with
  | none => { d with rolloverVal := 0 }
  | some ro =>
    if ro.uint ≤ 1 then { d.ack .rollover with rolloverVal := UInt16.ofNat ro.uint }
    else { d with rolloverVal := 0 }

def TFTP_MAX_COOKIE : ℕ := 255

/-- `negotiate_cookie`. -/
def negotiateCookie (d : Daemon) : Daemon :=
  match optRequested d.opts .cookie with
  | none => d
  | some po => if po.dsize ≤ TFTP_MAX_COOKIE + 1 then d.ack .cookie else d

/-! ### The OACK -/

/-- The value of a granted option as it is sent: a number is printed anew. -/
def oackValue (o : ProtocolOption) (po : DaemonProtocolOption) : Bytes × ℕ :=
  match o.otype with
  | .uint => (Decimal.numeral po.uint, (Decimal.numeral po.uint).length + 1)
  | .str => (po.str, po.dsize)

/-- The name and the value of a granted option, each with its NUL. -/
def oackEntry (t : OptionTable) (o : ProtocolOption) : Bytes :=
  if optGranted (t o) then
    ((t o).clientName ++ [0]).take o.nsize ++ ((oackValue o (t o)).1 ++ [0]).take (oackValue o (t o)).2
  else []

/-- `build_oack`. -/
def buildOack (t : OptionTable) : Option Packet :=
  let bufsize := (ProtocolOption.all.map fun o =>
    if optGranted (t o) then o.nsize + (oackValue o (t o)).2 else 0).sum
  if bufsize = 0 then none else some (htons Opcode.oack.code ++ ProtocolOption.all.flatMap (oackEntry t))

/-- `negotiate_options`. -/
def negotiateOptions (c : DaemonConfig) (peer : Socket) (d : Daemon) : Daemon × Option Packet :=
  if c.rejectAllOptions then (d, none)
  else
    let d := negotiateBlksize (tftpMaxBlksize c.xopt peer) d
    let d := negotiateWindowsize c d
    let d := negotiateTsize d
    let d := negotiateTimeout d
    let d := negotiateRollover d
    let d := negotiateCookie d
    (d, buildOack d.opts)

/-- `io_ring_slots`, where nothing stands for a division by zero. -/
def ioRingSlots (pthread : Bool) (d : Daemon) : Option ℕ :=
  if pthread then
    if d.segsize = 0 then none
    else some (d.windowsize + max (max ((d.segsize + 256 * 1024 - 1) / d.segsize) d.windowsize) 2)
  else some d.windowsize

/-! ### What each function sets -/

/-- A step of the negotiation: apart from the options `os` it leaves the table alone,
and the request itself stands as it was. -/
structure Negotiates (os : List ProtocolOption) (d d' : Daemon) : Prop where
  opts_eq : ∀ o, o ∉ os → d'.opts o = d.opts o
  req_eq : ∀ o, (d'.opts o).req = (d.opts o).req
  refuse_eq : ∀ o, (d'.opts o).refuse = (d.opts o).refuse
  clientName_eq : ∀ o, (d'.opts o).clientName = (d.opts o).clientName

namespace Negotiates

variable {os os' : List ProtocolOption} {d d' d'' : Daemon}

theorem of_opts_eq (h : d'.opts = d.opts) : Negotiates os d d' := by
  refine ⟨fun o _ => ?_, fun o => ?_, fun o => ?_, fun o => ?_⟩ <;> rw [h]

theorem trans (h : Negotiates os d d') (k : Negotiates os' d' d'') : Negotiates (os ++ os') d d'' where
  opts_eq o ho := by
    rw [List.mem_append, not_or] at ho
    exact (k.opts_eq o ho.2).trans (h.opts_eq o ho.1)
  req_eq o := (k.req_eq o).trans (h.req_eq o)
  refuse_eq o := (k.refuse_eq o).trans (h.refuse_eq o)
  clientName_eq o := (k.clientName_eq o).trans (h.clientName_eq o)

/-- An update of one option that leaves the request alone. -/
theorem update {o : ProtocolOption} {po : DaemonProtocolOption} (ho : o ∈ os)
    (hopts : d'.opts = Function.update d.opts o po) (hreq : po.req = (d.opts o).req)
    (hrefuse : po.refuse = (d.opts o).refuse) (hname : po.clientName = (d.opts o).clientName) : Negotiates os d d' := by
  have hself : d'.opts o = po := by rw [hopts, Function.update_self]
  have hother : ∀ o', o' ≠ o → d'.opts o' = d.opts o' := fun o' h => by rw [hopts, Function.update_of_ne h]
  refine ⟨fun o' ho' => hother o' fun he => ho' (he ▸ ho), fun o' => ?_, fun o' => ?_, fun o' => ?_⟩ <;>
    by_cases he : o' = o
  · rw [he, hself, hreq]
  · rw [hother o' he]
  · rw [he, hself, hrefuse]
  · rw [hother o' he]
  · rw [he, hself, hname]
  · rw [hother o' he]

theorem congr (h : Negotiates os d d') (hopts : d''.opts = d'.opts) : Negotiates os d d'' := by
  refine ⟨fun o ho => ?_, fun o => ?_, fun o => ?_, fun o => ?_⟩ <;> rw [hopts]
  · exact h.opts_eq o ho
  · exact h.req_eq o
  · exact h.refuse_eq o
  · exact h.clientName_eq o

theorem ack (d : Daemon) (o : ProtocolOption) : Negotiates [o] d (d.ack o) :=
  update (by simp) rfl rfl rfl rfl

theorem ackValue (d : Daemon) (o : ProtocolOption) (uint : ℕ) : Negotiates [o] d (d.ackValue o uint) :=
  update (by simp) rfl rfl rfl rfl

theorem ackIf (d : Daemon) (b : Bool) (o : ProtocolOption) : Negotiates [o] d (d.ackIf b o) := by
  cases b
  · exact .of_opts_eq rfl
  · exact .ack d o

theorem ackValueIf (d : Daemon) (b : Bool) (o : ProtocolOption) (uint : ℕ) :
    Negotiates [o] d (d.ackValueIf b o uint) := by
  cases b
  · exact .of_opts_eq rfl
  · exact .ackValue d o uint

end Negotiates

theorem negotiates_blksize (m : ℕ) (d : Daemon) : Negotiates [.blksize, .blksize2] d (negotiateBlksize m d) :=
  ((Negotiates.ackValueIf _ _ _ _).trans (.ackValueIf _ _ _ _)).congr rfl

theorem negotiates_windowsize (c : DaemonConfig) (d : Daemon) :
    Negotiates [.windowsize] d (negotiateWindowsize c d) := by
  unfold negotiateWindowsize
  split
  · exact .of_opts_eq rfl
  · dsimp only
    split_ifs
    all_goals first | exact .of_opts_eq rfl | exact (Negotiates.ackValue d _ _).congr rfl

theorem negotiates_tsize (d : Daemon) : Negotiates [.tsize] d (negotiateTsize d) := by
  unfold negotiateTsize
  split
  · exact .of_opts_eq rfl
  · split
    · exact .of_opts_eq rfl
    · split_ifs
      · exact .ackValue d _ _
      · exact .of_opts_eq rfl
    · exact (Negotiates.ack d _).congr rfl

theorem negotiates_timeout (d : Daemon) : Negotiates [.timeout, .utimeout] d (negotiateTimeout d) := by
  simp only [negotiateTimeout]
  split_ifs
  · exact (Negotiates.ackIf _ _ _).trans (.ackIf _ _ _)
  · exact ((Negotiates.ackIf _ _ _).trans (.ackIf _ _ _)).congr rfl

theorem negotiates_rollover (d : Daemon) : Negotiates [.rollover] d (negotiateRollover d) := by
  unfold negotiateRollover
  split
  · exact .of_opts_eq rfl
  · split_ifs
    · exact (Negotiates.ack d _).congr rfl
    · exact .of_opts_eq rfl

theorem negotiates_cookie (d : Daemon) : Negotiates [.cookie] d (negotiateCookie d) := by
  unfold negotiateCookie
  split
  · exact .of_opts_eq rfl
  · split_ifs
    · exact .ack d _
    · exact .of_opts_eq rfl

/-! ### Block and window size -/

theorem acceptBlksize2_bounds {m b : ℕ} (hm : MIN_SEGSIZE ≤ m) {po : Option DaemonProtocolOption}
    (h : acceptBlksize2 m po = some b) : MIN_SEGSIZE ≤ b ∧ b ≤ m := by
  cases po with
  | none => cases h
  | some blk2 =>
    simp only [acceptBlksize2] at h
    split_ifs at h with hmin hmax
    · obtain rfl := Option.some.inj h
      exact ⟨le_roundDownPowerOf2 (k := 3) hm, roundDownPowerOf2_le m⟩
    · obtain rfl := Option.some.inj h
      exact ⟨le_roundDownPowerOf2 (k := 3) (Nat.not_lt.mp hmin),
        le_trans (roundDownPowerOf2_le _) (Nat.not_lt.mp hmax)⟩

theorem acceptBlksize_cases {m : ℕ} (hm : MIN_SEGSIZE ≤ m) (b : ℕ) (po : Option DaemonProtocolOption) :
    acceptBlksize m b po = (false, b) ∨ ((acceptBlksize m b po).1 = true ∧ po.isSome = true ∧
      MIN_SEGSIZE ≤ (acceptBlksize m b po).2 ∧ (acceptBlksize m b po).2 ≤ m) := by
  cases po with
  | none => exact .inl rfl
  | some blk =>
    simp only [acceptBlksize]
    split_ifs with hmin hmax
    · exact .inl rfl
    · exact .inr ⟨rfl, rfl, hm, le_rfl⟩
    · exact .inl rfl
    · exact .inr ⟨rfl, rfl, Nat.not_lt.mp hmin, Nat.not_lt.mp hmax⟩

/-- A requested option that has been acknowledged is granted. -/
theorem optGranted_of_ack {t : OptionTable} {o : ProtocolOption} {po : DaemonProtocolOption}
    (h : (optRequested t o).isSome = true) (hack : po.ack = true) (hreq : po.req = (t o).req)
    (hrefuse : po.refuse = (t o).refuse) : optGranted po = true := by
  unfold optRequested at h
  split_ifs at h with hr
  · simp [optGranted, hack, hreq, hrefuse, hr]
  · cases h

/-- The block size is the default, or it was granted and is within bounds. -/
theorem negotiateBlksize_cases (hm : MIN_SEGSIZE ≤ m) (d : Daemon) :
    (negotiateBlksize m d).segsize = SEGSIZE ∨
      (MIN_SEGSIZE ≤ (negotiateBlksize m d).segsize ∧ (negotiateBlksize m d).segsize ≤ m ∧
        (optGranted ((negotiateBlksize m d).opts .blksize) = true ∨
          optGranted ((negotiateBlksize m d).opts .blksize2) = true)) := by
  simp only [negotiateBlksize]
  set two := acceptBlksize2 m (optRequested d.opts .blksize2) with htwo
  set one := acceptBlksize m (two.getD 0) (optRequested d.opts .blksize) with hone
  have hcases := acceptBlksize_cases hm (two.getD 0) (optRequested d.opts .blksize)
  rw [← hone] at hcases
  have hbounds : one.2 ≠ 0 → MIN_SEGSIZE ≤ one.2 ∧ one.2 ≤ m := by
    intro h0
    rcases hcases with he | ⟨-, -, h₁, h₂⟩
    · rw [he] at h0 ⊢
      cases ht : two with
      | none => simp [ht] at h0
      | some b => exact acceptBlksize2_bounds hm (htwo ▸ ht)
    · exact ⟨h₁, h₂⟩
  have htwoReq : two.isSome = true → (optRequested d.opts .blksize2).isSome = true := by
    rw [htwo]
    cases optRequested d.opts .blksize2 <;> simp [acceptBlksize2]
  cases hblk : one.1 && decide (one.2 ≠ 0) with
  | true =>
    rw [Bool.and_eq_true, decide_eq_true_eq] at hblk
    have hreq : (optRequested d.opts .blksize).isSome = true := by
      rcases hcases with he | ⟨-, hr, -⟩
      · simp [he] at hblk
      · exact hr
    obtain ⟨h₁, h₂⟩ := hbounds hblk.2
    refine .inr ⟨by simpa using h₁, by simpa using h₂, .inl ?_⟩
    have hkeep := (Negotiates.ackValueIf (d.ackValueIf true .blksize one.2)
      (two.isSome && decide (one.2 ≠ 0) && decide (one.2 &&& (one.2 - 1) = 0)) .blksize2 one.2).opts_eq
      .blksize (by decide)
    rw [hkeep]
    exact optGranted_of_ack hreq (by simp [Daemon.ackValueIf, Daemon.ackValue])
      (by simp [Daemon.ackValueIf, Daemon.ackValue]) (by simp [Daemon.ackValueIf, Daemon.ackValue])
  | false =>
    cases hblk2 : two.isSome && decide (one.2 ≠ 0) && decide (one.2 &&& (one.2 - 1) = 0) with
    | false => exact .inl rfl
    | true =>
      simp only [Bool.and_eq_true, decide_eq_true_eq] at hblk2
      obtain ⟨h₁, h₂⟩ := hbounds hblk2.1.2
      refine .inr ⟨by simpa using h₁, by simpa using h₂, .inr ?_⟩
      exact optGranted_of_ack (htwoReq hblk2.1.1) (by simp [Daemon.ackValueIf, Daemon.ackValue])
        (by simp [Daemon.ackValueIf, Daemon.ackValue]) (by simp [Daemon.ackValueIf, Daemon.ackValue])

/-- The limit in bytes only makes the window smaller. -/
theorem windowForBytes_le (bytes window segsize : ℕ) :
    (if bytes < window * segsize then bytes / segsize else window) ≤ window := by
  split_ifs with h
  · exact Nat.div_le_of_le_mul (by rw [Nat.mul_comm]; exact h.le)
  · exact le_rfl

/-- The window is one packet, or it was granted and is within bounds. -/
theorem negotiateWindowsize_cases (c : DaemonConfig) (d : Daemon) :
    (negotiateWindowsize c d).windowsize = 1 ∨
      (1 < (negotiateWindowsize c d).windowsize ∧
        (negotiateWindowsize c d).windowsize ≤ MAX_MAX_WINDOWSIZE ∧
        optGranted ((negotiateWindowsize c d).opts .windowsize) = true) := by
  have hmax := c.xopt.windowsize_le
  cases hws : optRequested d.opts .windowsize with
  | none => exact .inl (by simp only [negotiateWindowsize, hws])
  | some ws =>
    simp only [negotiateWindowsize, hws]
    set w := if c.xopt.maxWindowsize < ws.uint then c.xopt.maxWindowsize else ws.uint with hw
    have hle : w ≤ c.xopt.maxWindowsize := by
      rw [hw]
      split_ifs <;> omega
    have hle' := windowForBytes_le c.maxWindowbytes w d.segsize
    split_ifs with h1 hbytes h2 h2
    · rw [if_pos hbytes] at hle'
      exact .inr ⟨h2, by show c.maxWindowbytes / d.segsize ≤ _; omega,
        optGranted_of_ack (t := d.opts) (by rw [hws]; rfl) (by simp [Daemon.ackValue])
          (by simp [Daemon.ackValue]) (by simp [Daemon.ackValue])⟩
    · exact .inl rfl
    · exact .inr ⟨h2, by show w ≤ _; omega,
        optGranted_of_ack (t := d.opts) (by rw [hws]; rfl) (by simp [Daemon.ackValue])
          (by simp [Daemon.ackValue]) (by simp [Daemon.ackValue])⟩
    · exact .inl rfl
    · exact .inl rfl

/-! ### Values granted -/

theorem acceptBlksize_le {m b : ℕ} {po : Option DaemonProtocolOption} (h : (acceptBlksize m b po).1 = true) :
    ∃ blk, po = some blk ∧ (acceptBlksize m b po).2 ≤ blk.uint := by
  cases po with
  | none => cases h
  | some blk =>
    refine ⟨blk, rfl, ?_⟩
    simp only [acceptBlksize] at h ⊢
    split_ifs with hmin hmax hlt
    · simp [hmin] at h
    · exact hmax.le
    · simp [hmin, hmax, hlt] at h
    · exact le_rfl

/-- A granted `blksize` is the block size in use, and no larger than what was asked for. -/
theorem negotiateBlksize_granted {m : ℕ} {d : Daemon} (hack : (d.opts .blksize).ack = false)
    (hg : optGranted ((negotiateBlksize m d).opts .blksize) = true) :
    ((negotiateBlksize m d).opts .blksize).uint = (negotiateBlksize m d).segsize ∧
      (negotiateBlksize m d).segsize ≤ (d.opts .blksize).uint := by
  simp only [negotiateBlksize] at hg ⊢
  set two := acceptBlksize2 m (optRequested d.opts .blksize2)
  set one := acceptBlksize m (two.getD 0) (optRequested d.opts .blksize) with hone
  have hkeep := fun b b' => (Negotiates.ackValueIf (d.ackValueIf b .blksize one.2) b' .blksize2 one.2).opts_eq
    .blksize (by decide)
  rw [hkeep] at hg ⊢
  cases hblk : one.1 && decide (one.2 ≠ 0) with
  | false =>
    rw [hblk] at hg
    simp [Daemon.ackValueIf, optGranted, hack] at hg
  | true =>
    rw [Bool.and_eq_true] at hblk
    obtain ⟨blk, hpo, hle⟩ := acceptBlksize_le (hone ▸ hblk.1)
    obtain rfl := eq_of_optRequested hpo
    simp [Daemon.ackValueIf, Daemon.ackValue, hone ▸ hle]

/-- A granted `windowsize` is the window in use, and no larger than what was asked for. -/
theorem negotiateWindowsize_granted {c : DaemonConfig} {d : Daemon} (hack : (d.opts .windowsize).ack = false)
    (hg : optGranted ((negotiateWindowsize c d).opts .windowsize) = true) :
    ((negotiateWindowsize c d).opts .windowsize).uint = (negotiateWindowsize c d).windowsize ∧
      (negotiateWindowsize c d).windowsize ≤ (d.opts .windowsize).uint := by
  have hnone : optGranted (d.opts .windowsize) = false := by simp [optGranted, hack]
  unfold negotiateWindowsize at hg ⊢
  split at hg
  · exact absurd hg (by simp [hnone])
  · rename_i ws hws
    obtain rfl := eq_of_optRequested hws
    have hle : (if c.xopt.maxWindowsize < (d.opts .windowsize).uint then c.xopt.maxWindowsize
        else (d.opts .windowsize).uint) ≤ (d.opts .windowsize).uint := by
      split_ifs with h
      · exact h.le
      · exact le_rfl
    dsimp only at hg ⊢
    set w := if c.xopt.maxWindowsize < (d.opts .windowsize).uint then c.xopt.maxWindowsize
      else (d.opts .windowsize).uint
    have hle' := (windowForBytes_le c.maxWindowbytes w d.segsize).trans hle
    split_ifs at hg hle' ⊢
    · exact ⟨by simp [Daemon.ackValue], hle'⟩
    · exact absurd hg (by simp [hnone])
    · exact ⟨by simp [Daemon.ackValue], hle'⟩
    all_goals exact absurd hg (by simp [hnone])

/-- A granted `tsize` is the size the server keeps, which is that of the file or that
the client has announced. -/
theorem negotiateTsize_granted {d : Daemon} (hack : (d.opts .tsize).ack = false)
    (hg : optGranted ((negotiateTsize d).opts .tsize) = true) :
    ((negotiateTsize d).opts .tsize).uint = (negotiateTsize d).tsizeSize ∧
      ((negotiateTsize d).tsizeSize = d.tsizeSize ∨ (negotiateTsize d).tsizeSize = (d.opts .tsize).uint) := by
  have hnone : optGranted (d.opts .tsize) = false := by simp [optGranted, hack]
  unfold negotiateTsize at hg ⊢
  split at hg
  · exact absurd hg (by simp [hnone])
  · rename_i ts hts
    obtain rfl := eq_of_optRequested hts
    split at hg
    · exact absurd hg (by simp [hnone])
    · split_ifs at hg ⊢
      · exact ⟨by simp [Daemon.ackValue], .inl rfl⟩
      · exact absurd hg (by simp [hnone])
    · exact ⟨by simp [Daemon.ack], .inr rfl⟩

/-! ### The whole negotiation -/

theorem negotiateBlksize_tsizeSize (m : ℕ) (d : Daemon) : (negotiateBlksize m d).tsizeSize = d.tsizeSize := by
  have hif : ∀ (d : Daemon) (b : Bool) (o : ProtocolOption) (v : ℕ), (d.ackValueIf b o v).tsizeSize = d.tsizeSize :=
    fun d b o v => by cases b <;> rfl
  simp only [negotiateBlksize, hif]

theorem negotiateWindowsize_sizes (c : DaemonConfig) (d : Daemon) :
    (negotiateWindowsize c d).segsize = d.segsize ∧ (negotiateWindowsize c d).tsizeSize = d.tsizeSize := by
  unfold negotiateWindowsize
  split
  · exact ⟨rfl, rfl⟩
  · dsimp only
    split_ifs <;> exact ⟨rfl, rfl⟩

theorem negotiateTsize_sizes (d : Daemon) :
    (negotiateTsize d).segsize = d.segsize ∧ (negotiateTsize d).windowsize = d.windowsize := by
  unfold negotiateTsize
  split
  · exact ⟨rfl, rfl⟩
  · split
    · exact ⟨rfl, rfl⟩
    · split_ifs <;> exact ⟨rfl, rfl⟩
    · exact ⟨rfl, rfl⟩

/-- None of the three sizes changes. -/
structure SameSizes (d d' : Daemon) : Prop where
  segsize : d'.segsize = d.segsize
  windowsize : d'.windowsize = d.windowsize
  tsizeSize : d'.tsizeSize = d.tsizeSize

namespace SameSizes

theorem trans {d d' d'' : Daemon} (h : SameSizes d d') (k : SameSizes d' d'') : SameSizes d d'' :=
  ⟨k.1.trans h.1, k.2.trans h.2, k.3.trans h.3⟩

theorem ackIf (d : Daemon) (b : Bool) (o : ProtocolOption) : SameSizes d (d.ackIf b o) := by
  cases b <;> exact ⟨rfl, rfl, rfl⟩

theorem negotiateTimeout (d : Daemon) : SameSizes d (negotiateTimeout d) := by
  simp only [TftpHpa.negotiateTimeout]
  split_ifs
  · exact (ackIf d _ _).trans (ackIf _ _ _)
  · exact ((ackIf d _ _).trans (ackIf _ _ _)).trans ⟨rfl, rfl, rfl⟩

theorem negotiateRollover (d : Daemon) : SameSizes d (negotiateRollover d) := by
  unfold TftpHpa.negotiateRollover
  split
  · exact ⟨rfl, rfl, rfl⟩
  · split_ifs <;> exact ⟨rfl, rfl, rfl⟩

theorem negotiateCookie (d : Daemon) : SameSizes d (negotiateCookie d) := by
  unfold TftpHpa.negotiateCookie
  split
  · exact ⟨rfl, rfl, rfl⟩
  · split_ifs <;> exact ⟨rfl, rfl, rfl⟩

end SameSizes

/-- The options that say nothing about sizes. -/
def negotiateRest (d : Daemon) : Daemon := negotiateCookie (negotiateRollover (negotiateTimeout d))

theorem sameSizes_negotiateRest (d : Daemon) : SameSizes d (negotiateRest d) :=
  ((SameSizes.negotiateTimeout d).trans (.negotiateRollover _)).trans (.negotiateCookie _)

theorem negotiates_rest (d : Daemon) :
    Negotiates ([.timeout, .utimeout] ++ [.rollover] ++ [.cookie]) d (negotiateRest d) :=
  ((negotiates_timeout d).trans (negotiates_rollover _)).trans (negotiates_cookie _)

/-- What the stages of the negotiation come to. -/
structure Negotiated (d d' : Daemon) : Prop where
  segsize_ge : MIN_SEGSIZE ≤ d'.segsize
  segsize_le : d'.segsize ≤ MAX_SEGSIZE
  windowsize_pos : 1 ≤ d'.windowsize
  windowsize_le : d'.windowsize ≤ MAX_MAX_WINDOWSIZE
  segsize_default : optGranted (d'.opts .blksize) = false → optGranted (d'.opts .blksize2) = false →
    d'.segsize = SEGSIZE
  windowsize_default : optGranted (d'.opts .windowsize) = false → d'.windowsize = 1
  blksize : (d.opts .blksize).ack = false → optGranted (d'.opts .blksize) = true →
    (d'.opts .blksize).uint = d'.segsize ∧ d'.segsize ≤ (d.opts .blksize).uint
  window : (d.opts .windowsize).ack = false → optGranted (d'.opts .windowsize) = true →
    (d'.opts .windowsize).uint = d'.windowsize ∧ d'.windowsize ≤ (d.opts .windowsize).uint
  tsize : (d.opts .tsize).ack = false → optGranted (d'.opts .tsize) = true →
    (d'.opts .tsize).uint = d'.tsizeSize ∧ (d'.tsizeSize = d.tsizeSize ∨ d'.tsizeSize = (d.opts .tsize).uint)
  req_eq : ∀ o, (d'.opts o).req = (d.opts o).req
  clientName_eq : ∀ o, (d'.opts o).clientName = (d.opts o).clientName

/-- Four stages, each with its own size: block size, window, file size, and the rest. -/
theorem Negotiated.of_stages {c : DaemonConfig} {m : ℕ} (hm : MIN_SEGSIZE ≤ m) (hm' : m ≤ MAX_SEGSIZE)
    {d d₁ d₂ d₃ : Daemon} (hd₁ : d₁ = negotiateBlksize m d) (hd₂ : d₂ = negotiateWindowsize c d₁)
    (hd₃ : d₃ = negotiateTsize d₂) : Negotiated d (negotiateRest d₃) := by
  have n₁ := hd₁ ▸ negotiates_blksize m d
  have n₂ := hd₂ ▸ negotiates_windowsize c d₁
  have n₃ := hd₃ ▸ negotiates_tsize d₂
  have n₄ := negotiates_rest d₃
  have hall := ((n₁.trans n₂).trans n₃).trans n₄
  have hsizes := hd₃ ▸ negotiateTsize_sizes d₂
  have hrest := sameSizes_negotiateRest d₃
  have hseg : (negotiateRest d₃).segsize = d₁.segsize :=
    (hrest.segsize.trans hsizes.1).trans (hd₂ ▸ (negotiateWindowsize_sizes c d₁).1)
  have hwin : (negotiateRest d₃).windowsize = d₂.windowsize := hrest.windowsize.trans hsizes.2
  -- each option after its own stage
  have hkeep₁ : ∀ o, o = .blksize ∨ o = .blksize2 → (negotiateRest d₃).opts o = d₁.opts o := by
    rintro o (rfl | rfl) <;>
      rw [n₄.opts_eq _ (by decide), n₃.opts_eq _ (by decide), n₂.opts_eq _ (by decide)]
  have hkeep₂ : (negotiateRest d₃).opts .windowsize = d₂.opts .windowsize := by
    rw [n₄.opts_eq _ (by decide), n₃.opts_eq _ (by decide)]
  have hkeep₃ : (negotiateRest d₃).opts .tsize = d₃.opts .tsize := n₄.opts_eq _ (by decide)
  have hblk := hd₁ ▸ negotiateBlksize_cases hm d
  have hws := hd₂ ▸ negotiateWindowsize_cases c d₁
  exact {
    segsize_ge := by
      rcases hblk with h | h
      · rw [hseg, h]
        decide
      · exact hseg ▸ h.1
    segsize_le := by
      rcases hblk with h | h
      · rw [hseg, h]
        decide
      · exact hseg ▸ h.2.1.trans hm'
    windowsize_pos := by
      rcases hws with h | h
      · rw [hwin, h]
      · exact hwin ▸ h.1.le
    windowsize_le := by
      rcases hws with h | h
      · rw [hwin, h]
        decide
      · exact hwin ▸ h.2.1
    segsize_default := fun h₁ h₂ => by
      rw [hkeep₁ _ (by simp)] at h₁ h₂
      rcases hblk with h | ⟨-, -, h | h⟩
      · rw [hseg, h]
      · exact absurd h (by rw [h₁]; decide)
      · exact absurd h (by rw [h₂]; decide)
    windowsize_default := fun h₁ => by
      rw [hkeep₂] at h₁
      rcases hws with h | ⟨-, -, h⟩
      · rw [hwin, h]
      · exact absurd h (by rw [h₁]; decide)
    blksize := fun hack hg => by
      rw [hkeep₁ _ (by simp), hd₁] at hg
      rw [hkeep₁ _ (by simp), hseg, hd₁]
      exact negotiateBlksize_granted hack hg
    window := fun hack hg => by
      rw [hkeep₂, hd₂] at hg
      rw [hkeep₂, hwin, hd₂, ← n₁.opts_eq .windowsize (by decide)]
      exact negotiateWindowsize_granted (by rw [n₁.opts_eq .windowsize (by decide), hack]) hg
    tsize := fun hack hg => by
      have hreq : d₂.opts .tsize = d.opts .tsize :=
        (n₂.opts_eq _ (by decide)).trans (n₁.opts_eq _ (by decide))
      have hsize : d₂.tsizeSize = d.tsizeSize := by
        rw [hd₂, (negotiateWindowsize_sizes c d₁).2, hd₁, negotiateBlksize_tsizeSize]
      rw [hkeep₃, hd₃] at hg
      rw [hkeep₃, hrest.tsizeSize, hd₃, ← hreq, ← hsize]
      exact negotiateTsize_granted (by rw [hreq, hack]) hg
    req_eq := hall.req_eq
    clientName_eq := hall.clientName_eq }

/-- The stages of a negotiation that takes place. -/
theorem negotiateOptions_eq {c : DaemonConfig} (hc : c.rejectAllOptions = false) (peer : Socket) (d : Daemon) :
    (negotiateOptions c peer d).1 =
        negotiateRest (negotiateTsize (negotiateWindowsize c (negotiateBlksize (tftpMaxBlksize c.xopt peer) d))) ∧
      (negotiateOptions c peer d).2 = buildOack (negotiateOptions c peer d).1.opts := by
  rw [negotiateOptions, if_neg (by simp [hc])]
  dsimp only [negotiateRest]
  exact ⟨rfl, rfl⟩

theorem negotiateOptions_negotiated {c : DaemonConfig} (hc : c.rejectAllOptions = false) (peer : Socket)
    (d : Daemon) : Negotiated d (negotiateOptions c peer d).1 ∧
      (negotiateOptions c peer d).2 = buildOack (negotiateOptions c peer d).1.opts := by
  obtain ⟨hm, hm'⟩ := tftpMaxBlksize_bounds c.xopt peer
  obtain ⟨hstages, hoack⟩ := negotiateOptions_eq hc peer d
  refine ⟨?_, hoack⟩
  rw [hstages]
  exact .of_stages hm hm' rfl rfl rfl

end TftpHpa
