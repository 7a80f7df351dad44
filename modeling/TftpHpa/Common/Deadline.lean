import TftpHpa.Common.Options

/-! The time budget of a receive attempt. `tftp_recv_time` waits for a packet in two nested
loops and writes the time that is left back for its caller, which calls it again when it has
discarded a packet. Times are those of `uintmax_t`, and a poll takes an `intmax_t`. -/

namespace TftpHpa.RecvTime

def NSEC_PER_SEC : ℕ := 1000000000
def NSEC_PER_USEC : ℕ := 1000

structure Timespec where
  tvSec : ℕ
  tvNsec : ℕ

/-- `us_to_timespec`. -/
def usToTimespec (us : BitVec 64) : Timespec where
  tvSec := us.toNat / USEC_PER_SEC
  tvNsec := us.toNat % USEC_PER_SEC * NSEC_PER_USEC

/-- `pollset_poll`: the limit that it passes to `ppoll`, which is none for a negative timeout. -/
def pollsetPoll (utimeout : BitVec 64) : Option Timespec :=
  if 0 ≤ utimeout.toInt then some (usToTimespec utimeout) else none

/-- What a poll comes back with. -/
inductive PollResult where
  | ready | timedOut | interrupted | failed

/-- What `recvfrom` comes back with. -/
inductive RecvResult where
  | received (n : ℕ)
  | wouldBlock | interrupted | failed

/-- What `tftp_recv_time` returns. -/
inductive Return where
  | received (n : ℕ)
  | timedOut | failed

/-- One pass through the loops as the system answers it: the poll, the clock after it, and the
receive call, if it comes to that. -/
structure Round where
  poll : PollResult
  clock : BitVec 64
  recv : RecvResult

/-- Where a pass leads: nothing stands for another poll, by the inner loop or the outer one. A
poll that has failed for another reason is followed by `recvfrom` all the same. -/
def Round.outcome (r : Round) : Option Return :=
  match r.poll with
  | .interrupted => none
  | .timedOut => some .timedOut
  | .ready | .failed =>
    match r.recv with
    | .received n => some (.received n)
    | .wouldBlock | .interrupted => none
    | .failed => some .failed

/-- The time that is left after `dt`. -/
def timeoutLeft (timeoutUs dt : BitVec 64) : BitVec 64 := if dt ≥ timeoutUs then 1 else timeoutUs - dt

/-- What a call does: the limits of its polls, the clock readings after them, what is stored in
`*timeout_us_p` after each, and the return value, if it has come to that. -/
structure Trace where
  polls : List (Option Timespec)
  clock : List (BitVec 64)
  stored : List (BitVec 64)
  result : Option Return

/-- The loops of `tftp_recv_time`, with the time that is left. A call that the system has not
answered any further is in a poll. -/
def recvTimeLoop (t0 timeoutUs left : BitVec 64) : List Round → Trace
  | [] => { polls := [pollsetPoll left], clock := [], stored := [], result := none }
  | r :: rounds =>
    let left' := timeoutLeft timeoutUs (r.clock - t0)
    let next : Trace :=
      match r.outcome with
      | none => recvTimeLoop t0 timeoutUs left' rounds
      | some rv => { polls := [], clock := [], stored := [], result := some rv }
    { polls := pollsetPoll left :: next.polls
      clock := r.clock :: next.clock
      stored := left' :: next.stored
      result := next.result }

/-- What the system answers to a call: the clock at its start, and each pass. -/
structure Call where
  t0 : BitVec 64
  rounds : List Round

/-- The clock does not go back, counted from the start of the call. -/
def Call.Monotone (c : Call) : Prop :=
  (c.rounds.map fun r => (r.clock - c.t0).toNat).Pairwise (· ≤ ·)

/-- A call with the budget it finds. -/
structure Attempt where
  call : Call
  budget : BitVec 64

namespace Attempt

/-- `tftp_recv_time`. -/
def tftpRecvTime (a : Attempt) : Trace := recvTimeLoop a.call.t0 a.budget a.budget a.call.rounds

/-- The budget it leaves. -/
def left (a : Attempt) : BitVec 64 := a.tftpRecvTime.stored.getLastD a.budget

/-- The time from its start up to its last poll. -/
def elapsed (a : Attempt) : ℕ := (a.tftpRecvTime.clock.getLastD a.call.t0 - a.call.t0).toNat

end Attempt

/-- Calls that share a budget: the next one is made when the one before has returned. -/
def recvRun (budget : BitVec 64) : List Call → List Attempt
  | [] => []
  | c :: calls =>
    let a : Attempt := ⟨c, budget⟩
    a :: if a.tftpRecvTime.result.isSome then recvRun a.left calls else []

/-! ### The limit of a poll -/

/-- The length of a time in nanoseconds. -/
def Timespec.nsec (ts : Timespec) : ℕ := ts.tvSec * NSEC_PER_SEC + ts.tvNsec

/-- There is a limit, and it is no longer than the budget. -/
def Within (limit : Option Timespec) (budget : BitVec 64) : Prop :=
  ∃ ts ∈ limit, ts.nsec ≤ budget.toNat * NSEC_PER_USEC

theorem usToTimespec_nsec (us : BitVec 64) : (usToTimespec us).nsec = us.toNat * NSEC_PER_USEC := by
  simp only [usToTimespec, Timespec.nsec, USEC_PER_SEC, NSEC_PER_SEC, NSEC_PER_USEC]
  omega

theorem pollsetPoll_within {us : BitVec 64} (h : us.toNat < 2 ^ 63) : Within (pollsetPoll us) us := by
  have hsign : 0 ≤ us.toInt := by
    rw [BitVec.toInt_eq_toNat_cond, if_pos (by omega)]
    exact Int.natCast_nonneg _
  rw [pollsetPoll, if_pos hsign]
  exact ⟨_, rfl, (usToTimespec_nsec us).le⟩

/-! ### One call -/

theorem timeoutLeft_toNat (timeoutUs dt : BitVec 64) :
    (timeoutLeft timeoutUs dt).toNat = max 1 (timeoutUs.toNat - dt.toNat) := by
  unfold timeoutLeft
  split_ifs with h
  · have : timeoutUs.toNat ≤ dt.toNat := h
    rw [show BitVec.toNat (1 : BitVec 64) = 1 from rfl]
    omega
  · bv_omega

section Loop

variable {t0 timeoutUs : BitVec 64}

/-- What is stored depends on the clock alone. -/
theorem recvTimeLoop_stored (left : BitVec 64) (rounds : List Round) :
    (recvTimeLoop t0 timeoutUs left rounds).stored =
      (recvTimeLoop t0 timeoutUs left rounds).clock.map fun clock => timeoutLeft timeoutUs (clock - t0) := by
  induction rounds generalizing left with
  | nil => rfl
  | cons r rounds ih =>
    cases h : r.outcome with
    | none => simp only [recvTimeLoop, h, ih, List.map_cons]
    | some rv => simp only [recvTimeLoop, h, List.map_cons, List.map_nil]

theorem recvTimeLoop_clock (left : BitVec 64) (rounds : List Round) :
    (recvTimeLoop t0 timeoutUs left rounds).clock.Sublist (rounds.map Round.clock) := by
  induction rounds generalizing left with
  | nil => exact List.nil_sublist _
  | cons r rounds ih =>
    cases h : r.outcome with
    | none => simp only [recvTimeLoop, h, List.map_cons, List.cons_sublist_cons, ih]
    | some rv => simp only [recvTimeLoop, h, List.map_cons, List.cons_sublist_cons, List.nil_sublist]

/-- The first poll is made with the time that is left, each later one with what was stored after
the one before it. -/
theorem recvTimeLoop_polls (left : BitVec 64) (rounds : List Round) {i : ℕ} {limit : Option Timespec}
    (h : (recvTimeLoop t0 timeoutUs left rounds).polls[i]? = some limit) :
    ∃ b, (left :: (recvTimeLoop t0 timeoutUs left rounds).stored)[i]? = some b ∧ limit = pollsetPoll b := by
  induction rounds generalizing left i with
  | nil =>
    cases i with
    | zero => exact ⟨left, rfl, (Option.some.inj h).symm⟩
    | succ i => cases h
  | cons r rounds ih =>
    cases i with
    | zero => exact ⟨left, rfl, (Option.some.inj h).symm⟩
    | succ i =>
      cases hr : r.outcome with
      | none =>
        simp only [recvTimeLoop, hr, List.getElem?_cons_succ] at h ⊢
        exact ih _ h
      | some rv =>
        simp only [recvTimeLoop, hr, List.getElem?_cons_succ, List.getElem?_nil, reduceCtorEq] at h

end Loop

namespace Attempt

variable {a : Attempt}

theorem clock_sublist (a : Attempt) : a.tftpRecvTime.clock.Sublist (a.call.rounds.map Round.clock) :=
  recvTimeLoop_clock _ _

theorem left_eq (hbudget : 1 ≤ a.budget.toNat) : a.left.toNat = max 1 (a.budget.toNat - a.elapsed) := by
  have hstored : a.left = a.budget ∧ a.elapsed = 0 ∨
      a.left = timeoutLeft a.budget (a.tftpRecvTime.clock.getLastD a.call.t0 - a.call.t0) := by
    rw [left, tftpRecvTime, recvTimeLoop_stored, elapsed, tftpRecvTime]
    cases hclock : (recvTimeLoop a.call.t0 a.budget a.budget a.call.rounds).clock using List.reverseRecOn with
    | nil => exact .inl ⟨rfl, by simp⟩
    | append_singleton clock last => exact .inr (by simp)
  rcases hstored with ⟨hleft, helapsed⟩ | hleft
  · rw [hleft, helapsed]
    omega
  · rw [hleft, timeoutLeft_toNat, elapsed]

/-- What is stored in a call never increases. -/
theorem isChain_stored (hbudget : 1 ≤ a.budget.toNat) (hmono : a.call.Monotone) :
    ((a.budget :: a.tftpRecvTime.stored).map BitVec.toNat).IsChain (· ≥ ·) := by
  rw [List.map_cons, tftpRecvTime, recvTimeLoop_stored, List.map_map, List.isChain_iff_pairwise,
    List.pairwise_cons]
  constructor
  · intro n hn
    obtain ⟨clock, -, rfl⟩ := List.mem_map.mp hn
    rw [Function.comp_apply, timeoutLeft_toNat]
    omega
  · have hclock : ((a.call.rounds.map Round.clock).map fun clock => (clock - a.call.t0).toNat).Pairwise (· ≤ ·) := by
      rw [List.map_map]
      exact hmono
    have hsub := (a.clock_sublist).map fun clock => (clock - a.call.t0).toNat
    refine List.pairwise_map.mpr ((List.pairwise_map.mp (hclock.sublist hsub)).imp fun {c d} hle => ?_)
    rw [Function.comp_apply, Function.comp_apply, timeoutLeft_toNat, timeoutLeft_toNat]
    omega

/-- Every value that is stored is one that a budget of at least one leaves. -/
theorem stored_bounds (hbudget : 1 ≤ a.budget.toNat) {b : BitVec 64} (hb : b ∈ a.tftpRecvTime.stored) :
    1 ≤ b.toNat ∧ b.toNat ≤ a.budget.toNat := by
  rw [tftpRecvTime, recvTimeLoop_stored] at hb
  obtain ⟨clock, -, rfl⟩ := List.mem_map.mp hb
  rw [timeoutLeft_toNat]
  omega

theorem left_bounds (hbudget : 1 ≤ a.budget.toNat) : 1 ≤ a.left.toNat ∧ a.left.toNat ≤ a.budget.toNat := by
  rw [left_eq hbudget]
  omega

/-- What is in `*timeout_us_p` when a poll is made: the budget at first, then what was stored last. -/
def budgets (a : Attempt) : List (BitVec 64) := a.budget :: a.tftpRecvTime.stored

theorem budgets_lt (hbudget : 1 ≤ a.budget.toNat) (hlt : a.budget.toNat < 2 ^ 63) {b : BitVec 64}
    (hb : b ∈ a.budgets) : b.toNat < 2 ^ 63 := by
  rcases List.mem_cons.mp hb with rfl | hb
  · exact hlt
  · exact (stored_bounds hbudget hb).2.trans_lt hlt

theorem polls_within (hbudget : 1 ≤ a.budget.toNat) (hlt : a.budget.toNat < 2 ^ 63) {i : ℕ} {limit : Option Timespec}
    (h : a.tftpRecvTime.polls[i]? = some limit) : ∃ b, a.budgets[i]? = some b ∧ Within limit b := by
  obtain ⟨b, hb, rfl⟩ := recvTimeLoop_polls _ _ h
  exact ⟨b, hb, pollsetPoll_within (budgets_lt hbudget hlt (List.mem_of_getElem? hb))⟩

end Attempt

/-! ### Calls that share a budget -/

variable {budget : BitVec 64} {calls : List Call}

/-- Every call of a run finds a budget of at least one, which is no larger than the first. -/
theorem recvRun_budget (hbudget : 1 ≤ budget.toNat) :
    ∀ a ∈ recvRun budget calls, 1 ≤ a.budget.toNat ∧ a.budget.toNat ≤ budget.toNat := by
  induction calls generalizing budget with
  | nil => simp [recvRun]
  | cons c calls ih =>
    intro a ha
    have hleft := Attempt.left_bounds (a := ⟨c, budget⟩) hbudget
    rcases List.mem_cons.mp ha with rfl | ha
    · exact ⟨hbudget, le_rfl⟩
    · split_ifs at ha
      · exact ⟨(ih hleft.1 a ha).1, (ih hleft.1 a ha).2.trans hleft.2⟩
      · cases ha

/-- Two parts of a chain, where the second one goes on from the last element of the first. -/
theorem isChain_append_of_getLastD {α : Type*} {R : α → α → Prop} {x : α} {xs ys : List α}
    (hxs : (x :: xs).IsChain R) (hys : (xs.getLastD x :: ys).IsChain R) : (x :: (xs ++ ys)).IsChain R := by
  induction xs generalizing x with
  | nil => exact hys
  | cons z xs ih =>
    rw [List.isChain_cons_cons] at hxs
    exact List.isChain_cons_cons.mpr ⟨hxs.1, ih hxs.2 (by rwa [List.getLastD_cons] at hys)⟩

/-- All that a run stores, one after the other. -/
def stored (budget : BitVec 64) (calls : List Call) : List (BitVec 64) :=
  (recvRun budget calls).flatMap fun a => a.tftpRecvTime.stored

theorem isChain_stored (hbudget : 1 ≤ budget.toNat) (hmono : ∀ c ∈ calls, c.Monotone) :
    ((budget :: stored budget calls).map BitVec.toNat).IsChain (· ≥ ·) := by
  induction calls generalizing budget with
  | nil => exact List.isChain_singleton _
  | cons c calls ih =>
    set a : Attempt := ⟨c, budget⟩ with ha
    have hfirst := a.isChain_stored hbudget (hmono c List.mem_cons_self)
    have hrest := ih (a.left_bounds hbudget).1 fun c' hc' => hmono c' (List.mem_cons_of_mem c hc')
    rw [stored, recvRun, List.flatMap_cons, List.map_cons, List.map_append]
    refine isChain_append_of_getLastD hfirst ?_
    rw [List.getLastD_map]
    split_ifs
    · exact hrest
    · exact List.isChain_singleton _

/-- A receive attempt does not extend its deadline, over any number of calls. If the budget is an
`intmax_t`, every poll is limited by what is then stored. -/
theorem recvRun_deadline (hbudget : 1 ≤ budget.toNat) (hmono : ∀ c ∈ calls, c.Monotone) :
    ((budget :: stored budget calls).map BitVec.toNat).IsChain (· ≥ ·) ∧ 0 ∉ stored budget calls ∧
      ∀ a ∈ recvRun budget calls, a.left.toNat = max 1 (a.budget.toNat - a.elapsed) ∧
        (budget.toNat < 2 ^ 63 → ∀ (i : ℕ) limit, a.tftpRecvTime.polls[i]? = some limit →
          ∃ b, a.budgets[i]? = some b ∧ Within limit b) := by
  refine ⟨isChain_stored hbudget hmono, ?_, ?_⟩
  · intro hzero
    obtain ⟨a, ha, hmem⟩ := List.mem_flatMap.mp hzero
    have := (Attempt.stored_bounds (recvRun_budget hbudget a ha).1 hmem).1
    exact absurd this (by decide)
  · intro a ha
    obtain ⟨hpos, hle⟩ := recvRun_budget hbudget a ha
    exact ⟨Attempt.left_eq hpos, fun hlt i limit => Attempt.polls_within hpos (hle.trans_lt hlt)⟩

/-- A packet that is discarded after two more polls, and a call in which the clock wraps around. -/
def discarded : List Call :=
  [{ t0 := 1000
     rounds := [⟨.interrupted, 1030, .failed⟩, ⟨.ready, 1050, .wouldBlock⟩, ⟨.ready, 1060, .received 1⟩] },
   { t0 := -10
     rounds := [⟨.ready, 5, .received 4⟩] }]

theorem recvRun_deadline_discarded : stored 100 discarded = [70, 50, 40, 25] ∧
    (recvRun 100 discarded).map Attempt.budgets = [[100, 70, 50, 40], [40, 25]] ∧
    ∀ a ∈ recvRun 100 discarded, ∀ (i : ℕ) limit, a.tftpRecvTime.polls[i]? = some limit →
      ∃ b, a.budgets[i]? = some b ∧ Within limit b := by
  have hmono : ∀ c ∈ discarded, c.Monotone := by simp [discarded, Call.Monotone]
  exact ⟨by decide, by decide, fun a ha => ((recvRun_deadline (by decide) hmono).2.2 a ha).2 (by decide)⟩

/-- A budget that is too large for an `intmax_t` becomes a poll without a limit. -/
theorem poll_unlimited : 1 ≤ (BitVec.ofNat 64 (2 ^ 63)).toNat ∧
    (∀ c ∈ [Call.mk 0 [⟨.ready, 5, .received 4⟩]], c.Monotone) ∧
    ¬ ∀ a ∈ recvRun (BitVec.ofNat 64 (2 ^ 63)) [Call.mk 0 [⟨.ready, 5, .received 4⟩]],
      ∀ (i : ℕ) limit, a.tftpRecvTime.polls[i]? = some limit → ∃ b, a.budgets[i]? = some b ∧ Within limit b := by
  refine ⟨by decide, by simp [Call.Monotone], fun h => ?_⟩
  obtain ⟨b, -, ts, hts, -⟩ := h _ List.mem_cons_self 0 none rfl
  cases hts

end TftpHpa.RecvTime
