import TftpHpa.Client.Request
import TftpHpa.Lib.Probe
import TftpHpa.Lib.RingIndex

/-! What `common/tftpsubs.c` does with a socket: the port it is bound to (`pick_port_bind`)
and the size of its buffers (`tftp_set_socket_buffers`). -/

namespace TftpHpa

/-! ### The port range -/

/-- A port range of the common options, `portrange_from` and `portrange_to`. -/
structure PortRange where
  first : ℕ
  last : ℕ
  first_pos : 0 < first
  first_le : first ≤ last
  last_le : last ≤ 65535

/-- `-R` of the client, with the two numbers of its argument. -/
def clientPortrange (first last : ℕ) : Option PortRange :=
  if h : first = 0 ∨ last < first ∨ 65535 < last then none
  else some { first, last, first_pos := by omega, first_le := by omega, last_le := by omega }

/-- `-R` of the server, which does not take the highest port. -/
def daemonPortrange (first last : ℕ) : Option PortRange :=
  if h : first = 0 ∨ last < first ∨ 65535 ≤ last then none
  else some { first, last, first_pos := by omega, first_le := by omega, last_le := by omega }

namespace PortRange

def Mem (r : PortRange) (port : UInt16) : Prop := r.first ≤ port.toNat ∧ port.toNat ≤ r.last

/-- The number of ports, as the code computes it. -/
def count (r : PortRange) : ℕ := (r.last - r.first) % 65536 + 1

/-- `firstport`. -/
def firstport (r : PortRange) (random : UInt32) : UInt16 := UInt16.ofNat (r.first + random.toNat % r.count)

/-- The step of the loop. -/
def nextport (r : PortRange) (port : UInt16) : UInt16 :=
  let port := port + 1
  if r.last < port.toNat then UInt16.ofNat r.first else port

end PortRange

/-- `pick_port_bind`: the ports that are tried and whether the last one is bound. The result
of `bind` depends on the attempt; without a range the kernel picks the port. -/
def pickPortBind (rounds : ℕ) (range : Option PortRange) (random : UInt32) (bind : ℕ → UInt16 → Bool) :
    Option (List UInt16 × Bool) :=
  match range with
  | some r => Probe.probe r.nextport (r.firstport random) bind rounds (r.firstport random) []
  | none => some ([0], bind 0 0)

/-- What is expected of a choice. -/
structure PortRange.Picks (r : PortRange) (tried : List UInt16) (bound : Bool) : Prop where
  inRange : ∀ port ∈ tried, r.Mem port
  nodup : tried.Nodup
  exhausted : bound = false → ∀ port, r.Mem port → port ∈ tried

namespace PortRange

variable {r : PortRange}

theorem count_eq (r : PortRange) : r.count = r.last - r.first + 1 := by
  have := r.last_le
  rw [count, Nat.mod_eq_of_lt (by omega)]

theorem firstport_toNat (r : PortRange) (random : UInt32) :
    (r.firstport random).toNat = r.first + random.toNat % r.count := by
  have hlt : random.toNat % r.count < r.count := Nat.mod_lt _ (Nat.succ_pos _)
  have := r.count_eq
  have := r.first_le
  have := r.last_le
  rw [firstport, UInt16.toNat_ofNat', Nat.mod_eq_of_lt (by omega)]

theorem firstport_mem (r : PortRange) (random : UInt32) : r.Mem (r.firstport random) := by
  have hlt : random.toNat % r.count < r.count := Nat.mod_lt _ (Nat.succ_pos _)
  have := r.count_eq
  have := r.first_le
  rw [Mem, firstport_toNat]
  omega

/-- Below the highest port the loop goes around the range. -/
theorem nextport_toNat (hlast : r.last < 65535) {i : ℕ} {port : UInt16} (h : port.toNat = r.first + i % r.count) :
    (r.nextport port).toNat = r.first + (i + 1) % r.count := by
  have hlt : i % r.count < r.count := Nat.mod_lt _ (Nat.succ_pos _)
  have hcount := r.count_eq
  have := r.first_le
  have hport : (port + 1).toNat = r.first + (i % r.count + 1) := by
    rw [UInt16.toNat_add, h, UInt16.toNat_one, Nat.mod_eq_of_lt (by omega), Nat.add_assoc]
  rw [nextport, hport, ← Nat.mod_add_mod, ← RingIndex.next_eq hlt]
  by_cases hwrap : i % r.count + 1 = r.count
  · rw [if_pos (by omega), if_pos hwrap, UInt16.toNat_ofNat', Nat.mod_eq_of_lt (by omega), Nat.add_zero]
  · rw [if_neg (by omega), if_neg hwrap, hport]

/-- With it the ports are counted on, around all of them. -/
theorem nextport_of_last (hlast : r.last = 65535) (port : UInt16) : r.nextport port = port + 1 := by
  rw [nextport, if_neg]
  have := (port + 1).toNat_lt
  omega

theorem iterate_nextport (hlast : r.last < 65535) (random : UInt32) (k : ℕ) :
    (r.nextport^[k] (r.firstport random)).toNat = r.first + (random.toNat + k) % r.count := by
  induction k with
  | zero => exact r.firstport_toNat random
  | succ k ih =>
    rw [Function.iterate_succ_apply']
    exact nextport_toNat hlast ih

theorem iterate_nextport_of_last (hlast : r.last = 65535) (random : UInt32) (k : ℕ) :
    (r.nextport^[k] (r.firstport random)).toNat = ((r.firstport random).toNat + k) % 65536 := by
  induction k with
  | zero => exact (Nat.mod_eq_of_lt (UInt16.toNat_lt _)).symm
  | succ k ih =>
    rw [Function.iterate_succ_apply', nextport_of_last hlast, UInt16.toNat_add, ih, UInt16.toNat_one]
    exact RingIndex.mod_succ _ _ _

theorem minimalPeriod_nextport (hlast : r.last < 65535) (random : UInt32) :
    Function.minimalPeriod r.nextport (r.firstport random) = r.count :=
  Probe.minimalPeriod_of_ring (fun _ _ => UInt16.toNat_inj.mp) (iterate_nextport hlast random)

theorem minimalPeriod_nextport_of_last (hlast : r.last = 65535) (random : UInt32) :
    Function.minimalPeriod r.nextport (r.firstport random) = 65536 := by
  have hpos : ∀ k, (r.nextport^[k] (r.firstport random)).toNat = 0 + ((r.firstport random).toNat + k) % 65536 := by
    intro k
    rw [Nat.zero_add, iterate_nextport_of_last hlast]
  exact Probe.minimalPeriod_of_ring (fun _ _ => UInt16.toNat_inj.mp) hpos

theorem minimalPeriod_pos (r : PortRange) (random : UInt32) :
    0 < Function.minimalPeriod r.nextport (r.firstport random) ∧
      Function.minimalPeriod r.nextport (r.firstport random) ≤ 65536 := by
  have := r.count_eq
  have := r.first_pos
  rcases r.last_le.lt_or_eq with hlast | hlast
  · rw [minimalPeriod_nextport hlast]
    omega
  · rw [minimalPeriod_nextport_of_last hlast]
    omega

section

variable {random : UInt32} {bind : ℕ → UInt16 → Bool} {tried : List UInt16} {bound : Bool}

/-- Where the highest port is not in the range, the choice is right. -/
theorem picks_of_lt (hlast : r.last < 65535) (h : Probe.Probed r.nextport (r.firstport random) bind tried bound) :
    r.Picks tried bound where
  inRange port hport := by
    obtain ⟨k, rfl⟩ : ∃ k, port = r.nextport^[k] (r.firstport random) := by
      cases h with
      | found | exhausted =>
        obtain ⟨k, -, hk⟩ := List.mem_iterate.mp hport
        exact ⟨k, hk⟩
    have hlt : (random.toNat + k) % r.count < r.count := Nat.mod_lt _ (Nat.succ_pos _)
    have := r.count_eq
    have := r.first_le
    rw [Mem, iterate_nextport hlast]
    omega
  nodup := h.nodup
  exhausted hbound port hport := by
    cases h with
    | found => cases hbound
    | exhausted =>
      have hcount := r.count_eq
      obtain ⟨hge, hle⟩ := hport
      obtain ⟨k, hk, hoffset⟩ := RingIndex.exists_offset random.toNat (show port.toNat - r.first < r.count by omega)
      rw [minimalPeriod_nextport hlast, List.mem_iterate]
      refine ⟨k, hk, UInt16.toNat_inj.mp ?_⟩
      rw [iterate_nextport hlast, hoffset]
      omega

/-- Otherwise a port has to be bound on the way to the highest one: the next one is zero. -/
theorem picks_iff_of_last (hlast : r.last = 65535)
    (h : Probe.Probed r.nextport (r.firstport random) bind tried bound) :
    r.Picks tried bound ↔ ∃ k, (r.firstport random).toNat + k ≤ 65535 ∧
      bind k (UInt16.ofNat ((r.firstport random).toNat + k)) = true := by
  have hfirst : r.first ≤ (r.firstport random).toNat := (r.firstport_mem random).1
  have hplace {k : ℕ} (hk : (r.firstport random).toNat + k ≤ 65535) :
      r.nextport^[k] (r.firstport random) = UInt16.ofNat ((r.firstport random).toNat + k) := by
    rw [← UInt16.toNat_inj, iterate_nextport_of_last hlast, UInt16.toNat_ofNat']
  have hzero : ∀ n, 65535 < (r.firstport random).toNat + n →
      ¬ ∀ port ∈ List.iterate r.nextport (r.firstport random) (n + 1), r.Mem port := by
    intro n hn hall
    have hwrap := hall _ (List.mem_iterate.mpr ⟨65536 - (r.firstport random).toNat, by omega, rfl⟩)
    have hlt := (r.firstport random).toNat_lt
    rw [Mem, iterate_nextport_of_last hlast, Nat.add_sub_cancel' (by omega), Nat.mod_self] at hwrap
    have := r.first_pos
    omega
  cases h with
  | @found k hk hfree hbefore =>
    constructor
    · intro hpicks
      have hle : (r.firstport random).toNat + k ≤ 65535 := not_lt.mp fun hlt => hzero k hlt hpicks.inRange
      exact ⟨k, hle, hplace hle ▸ hfree⟩
    · rintro ⟨j, hj, hfree'⟩
      have hkj : k ≤ j := by
        by_contra hlt
        rw [← hplace hj, hbefore j (by omega)] at hfree'
        cases hfree'
      refine ⟨fun port hport => ?_, (Probe.Probed.found hk hfree hbefore).nodup, fun hbound => by cases hbound⟩
      obtain ⟨i, hi, rfl⟩ := List.mem_iterate.mp hport
      rw [Mem, iterate_nextport_of_last hlast, Nat.mod_eq_of_lt (by omega)]
      omega
  | exhausted hall =>
    rw [minimalPeriod_nextport_of_last hlast] at hall ⊢
    have := r.first_pos
    refine iff_of_false (fun hpicks => hzero 65535 (by omega) hpicks.inRange) ?_
    rintro ⟨k, hk, hfree⟩
    rw [← hplace hk, hall k (by omega)] at hfree
    cases hfree

end

end PortRange

theorem clientPortrange_eq_some {first last : ℕ} {r : PortRange} (h : clientPortrange first last = some r) :
    r.first = first ∧ r.last = last := by
  rw [clientPortrange] at h
  split_ifs at h
  obtain rfl := Option.some.inj h
  exact ⟨rfl, rfl⟩

theorem daemonPortrange_eq_some {first last : ℕ} {r : PortRange} (h : daemonPortrange first last = some r) :
    r.first = first ∧ r.last = last ∧ last < 65535 := by
  rw [daemonPortrange] at h
  split_ifs at h
  obtain rfl := Option.some.inj h
  exact ⟨rfl, rfl, by omega⟩

/-- What the loop comes to is a matter of the range, the start and the results of `bind`. -/
theorem exists_pickPortBind (r : PortRange) (random : UInt32) (bind : ℕ → UInt16 → Bool) :
    ∃ tried bound, Probe.Probed r.nextport (r.firstport random) bind tried bound ∧
      ∀ rounds, 65536 ≤ rounds → pickPortBind rounds (some r) random bind = some (tried, bound) := by
  obtain ⟨hpos, hle⟩ := r.minimalPeriod_pos random
  obtain ⟨tried, bound, h, hrun⟩ := Probe.probe_probed bind hpos
  exact ⟨tried, bound, h, fun rounds hr => hrun rounds (hle.trans hr)⟩

/-- The server's choice is right: its range does not reach the highest port. -/
theorem daemon_picks {first last : ℕ} {r : PortRange} (hr : daemonPortrange first last = some r) (random : UInt32)
    (bind : ℕ → UInt16 → Bool) :
    ∃ tried bound, (∀ rounds, 65536 ≤ rounds → pickPortBind rounds (some r) random bind = some (tried, bound)) ∧
      r.Picks tried bound := by
  obtain ⟨-, hlast, hlt⟩ := daemonPortrange_eq_some hr
  obtain ⟨tried, bound, h, hrun⟩ := exists_pickPortBind r random bind
  exact ⟨tried, bound, hrun, PortRange.picks_of_lt (hlast.trans_lt hlt) h⟩

/-- A range with the highest port needs a port that can be bound between `firstport` and that
one, other ranges need nothing. -/
theorem pickPortBind_picks_iff {first last : ℕ} {r : PortRange}
    (hr : clientPortrange first last = some r ∨ daemonPortrange first last = some r) (random : UInt32)
    (bind : ℕ → UInt16 → Bool) :
    ∃ tried bound, (∀ rounds, 65536 ≤ rounds → pickPortBind rounds (some r) random bind = some (tried, bound)) ∧
      (r.Picks tried bound ↔ (last = 65535 → ∃ k, (r.firstport random).toNat + k ≤ 65535 ∧
        bind k (UInt16.ofNat ((r.firstport random).toNat + k)) = true)) := by
  obtain ⟨tried, bound, h, hrun⟩ := exists_pickPortBind r random bind
  refine ⟨tried, bound, hrun, ?_⟩
  have hlast : r.last = last := by
    rcases hr with hr | hr
    · exact (clientPortrange_eq_some hr).2
    · exact (daemonPortrange_eq_some hr).2.1
  rw [← hlast]
  rcases r.last_le.lt_or_eq with hlt | heq
  · exact iff_of_true (PortRange.picks_of_lt hlt h) fun h => absurd h hlt.ne
  · rw [PortRange.picks_iff_of_last heq h]
    exact ⟨fun h _ => h, fun h => h heq⟩

/-- Two ports, of which none can be bound. -/
theorem pickPortBind_picks_iff_two :
    ∃ r, clientPortrange 4000 4001 = some r ∧ ∃ tried bound,
      (∀ rounds, 65536 ≤ rounds → pickPortBind rounds (some r) 7 (fun _ _ => false) = some (tried, bound)) ∧
      r.Picks tried bound := by
  obtain ⟨r, hr⟩ : ∃ r, clientPortrange 4000 4001 = some r := ⟨_, rfl⟩
  obtain ⟨tried, bound, hrun, hiff⟩ := pickPortBind_picks_iff (.inl hr) 7 fun _ _ => false
  exact ⟨r, hr, tried, bound, hrun, hiff.mpr (by simp)⟩

/-- From the highest port the client goes on to port zero. -/
theorem pickPortBind_leaves_range :
    ∃ r, clientPortrange 65535 65535 = some r ∧
      pickPortBind 65536 (some r) 0 (fun attempt _ => attempt = 1) = some ([65535, 0], true) ∧ ¬ r.Mem 0 := by
  refine ⟨_, rfl, rfl, ?_⟩
  rintro ⟨h, -⟩
  exact absurd h (by decide)

/-! ### The socket buffers -/

def TFTP_SOCKET_BUFFER_MIN : ℕ := 256 * 1024
def TFTP_SOCKET_BUFFER_MAX : ℕ := 4 * 1024 * 1024
def TFTP_SOCKET_BUFFER_WINDOWS : ℕ := 2
def TFTP_SOCKET_BUFFER_OVERHEAD : ℕ := 256

/-- The socket options `SO_SNDBUF` and `SO_RCVBUF`. -/
inductive SocketBuffer where
  | sndbuf | rcvbuf
  deriving DecidableEq

/-- The buffer that the packets of the file go through. -/
def whichbuf (isSend : Bool) : SocketBuffer := if isSend then .sndbuf else .rcvbuf

/-- `tftp_set_socket_buffers`: the option that is set, if any, and its value. The product is
computed with 64 bits and kept in 32. -/
def tftpSetSocketBuffers (blocksize windowsize : ℕ) (isSend : Bool) : Option (SocketBuffer × ℕ) :=
  let packetsize := blocksize + TFTP_SOCKET_BUFFER_OVERHEAD
  let buffersize := windowsize * packetsize * TFTP_SOCKET_BUFFER_WINDOWS % 2 ^ 64 % 2 ^ 32
  let buffersize := if TFTP_SOCKET_BUFFER_MAX < buffersize then TFTP_SOCKET_BUFFER_MAX else buffersize
  if buffersize ≤ TFTP_SOCKET_BUFFER_MIN then none else some (whichbuf isSend, buffersize)

/-- Two windows of packets. -/
def twoWindows (blocksize windowsize : ℕ) : ℕ := 2 * windowsize * (blocksize + 256)

/-- What is requested for a buffer of a given size. -/
def requestedFor (size : ℕ) (isSend : Bool) : Option (SocketBuffer × ℕ) :=
  if 256 * 1024 < size then some (whichbuf isSend, min size (4 * 1024 * 1024)) else none

/-- The code requests what is left of two windows. -/
theorem tftpSetSocketBuffers_eq (blocksize windowsize : ℕ) (isSend : Bool) :
    tftpSetSocketBuffers blocksize windowsize isSend =
      requestedFor (twoWindows blocksize windowsize % 2 ^ 32) isSend := by
  have hproduct : windowsize * (blocksize + TFTP_SOCKET_BUFFER_OVERHEAD) * TFTP_SOCKET_BUFFER_WINDOWS =
      twoWindows blocksize windowsize := by
    rw [twoWindows, TFTP_SOCKET_BUFFER_OVERHEAD, TFTP_SOCKET_BUFFER_WINDOWS]
    ring
  have hmod (m : ℕ) : m % 2 ^ 64 % 2 ^ 32 = m % 2 ^ 32 := Nat.mod_mod_of_dvd m (by decide)
  simp only [tftpSetSocketBuffers, requestedFor, hproduct, hmod, TFTP_SOCKET_BUFFER_MAX, TFTP_SOCKET_BUFFER_MIN]
  generalize twoWindows blocksize windowsize % 2 ^ 32 = size
  rcases lt_or_ge (4 * 1024 * 1024) size with hmax | hmax
  · rw [if_pos hmax, if_neg (by omega), if_pos (by omega), min_eq_right hmax.le]
  · rw [if_neg (not_lt.mpr hmax), min_eq_left hmax]
    by_cases hmin : size ≤ 256 * 1024
    · rw [if_pos hmin, if_neg (not_lt.mpr hmin)]
    · rw [if_neg hmin, if_pos (not_le.mp hmin)]

/-- Room for two windows, within the limits, is requested exactly when the product fits 32
bits or what is left of it reaches the upper limit. -/
theorem socketBuffers_requested_iff (blocksize windowsize : ℕ) (isSend : Bool) :
    tftpSetSocketBuffers blocksize windowsize isSend = requestedFor (twoWindows blocksize windowsize) isSend ↔
      twoWindows blocksize windowsize < 2 ^ 32 ∨ 4 * 1024 * 1024 ≤ twoWindows blocksize windowsize % 2 ^ 32 := by
  rw [tftpSetSocketBuffers_eq]
  generalize twoWindows blocksize windowsize = size
  rcases lt_or_ge size (2 ^ 32) with hlt | hge
  · rw [Nat.mod_eq_of_lt hlt]
    exact iff_of_true rfl (.inl hlt)
  have hwanted : requestedFor size isSend = some (whichbuf isSend, 4 * 1024 * 1024) := by
    rw [requestedFor, if_pos (by omega), min_eq_right (by omega)]
  rw [hwanted, requestedFor]
  constructor
  · intro h
    split_ifs at h
    exact .inr (min_eq_right_iff.mp (congrArg Prod.snd (Option.some.inj h)))
  · rintro (h | h)
    · omega
    · rw [if_pos (by omega), min_eq_right h]

/-- The common options of a client with `-B 65280 -W 32768`. -/
def largeSizes : CommonOptions := { CommonOptions.clientDefault with
  blksize := 65280
  maxWindowsize := 32768
  blksize_ge := by decide
  blksize_le := by decide
  windowsize_pos := by decide
  windowsize_le := by decide }

/-- What it asks for with a read request. -/
def largeOptreq : Optreq := (setOptions false largeSizes {} { optreqInit with tsize := 0 }).1

/-- A server that grants both sizes. -/
def largeOack : Packet :=
  htons Opcode.oack.code ++ (optionText (.blksize, 65280) ++ optionText (.windowsize, 32768))

/-- Two windows are then 4 GiB, and nothing is left of the product. -/
theorem socketBuffers_not_requested :
    (CommonOptions.clientDefault.setBlksize MIN_SEGSIZE (cstr "65280")).bind (·.setWindowsize 1 (cstr "32768")) =
      some largeSizes ∧
    ∃ optack, parseOack largeOptreq largeOack = some optack ∧
      tftpSetSocketBuffers optack.blksize optack.window false = none ∧
      requestedFor (twoWindows optack.blksize optack.window) false = some (.rcvbuf, 4194304) := by
  obtain ⟨optack, hoptack, hblk, hwin⟩ : ∃ optack,
      ((ackOption largeOptreq optreqInit ProtocolOption.blksize.name 65280).bind fun optack =>
        (ackOption largeOptreq optack ProtocolOption.windowsize.name 32768).bind some) = some optack ∧
      optack.blksize = 65280 ∧ optack.window = 32768 := ⟨_, rfl, rfl, rfl⟩
  have hdrop : largeOack.drop 2 = optionText (.blksize, 65280) ++ (optionText (.windowsize, 32768) ++ []) := rfl
  refine ⟨rfl, optack, ?_, ?_⟩
  · rw [parseOack, if_neg (by decide +kernel), hdrop, parseOackOptions_optionText _ _ _ (by decide)]
    simp only [parseOackOptions_optionText _ _ ProtocolOption.windowsize (show 32768 < 2 ^ 64 by decide),
      parseOackOptions_nil]
    exact hoptack
  · rw [hblk, hwin]
    decide +kernel

end TftpHpa
