import Mathlib.Tactic

/-! A retransmission timer that doubles its timeout until that reaches a limit. -/

namespace TftpHpa.Backoff

/-- How often something is sent to somebody who does not answer, the time before `timeout` runs
out included. -/
def tries (limit timeout : ℕ) : ℕ :=
  if 0 < timeout ∧ timeout * 2 < limit then tries limit (timeout * 2) + 1 else 1
termination_by limit - timeout

variable {limit timeout first : ℕ}

theorem tries_pos (limit timeout : ℕ) : 0 < tries limit timeout := by
  unfold tries
  split_ifs <;> omega

/-- Every time the timeout is doubled there is one try less. -/
theorem tries_double (hpos : 0 < timeout) (hlt : timeout * 2 < limit) :
    tries limit (timeout * 2) + 1 = tries limit timeout := by
  rw [tries.eq_1 limit timeout, if_pos ⟨hpos, hlt⟩]

theorem tries_of_le (h : limit ≤ timeout * 2) : tries limit timeout = 1 := by
  rw [tries, if_neg (by omega)]

/-- From `first` on, up to `first * (2 ^ n - 1)`, there are `n` tries. -/
theorem tries_first (hpos : 0 < first) {n : ℕ} (hn : 0 < n) : tries (first * (2 ^ n - 1)) first = n := by
  have hlast : ∀ j k, j + (k + 1) = n → tries (first * (2 ^ n - 1)) (first * 2 ^ j) = k + 1 := by
    intro j k hjk
    induction k generalizing j with
    | zero =>
      refine tries_of_le ?_
      rw [mul_assoc, ← pow_succ, hjk]
      exact Nat.mul_le_mul_left _ (Nat.sub_le _ _)
    | succ k ih =>
      have hpow : 2 ^ j * 2 < 2 ^ n - 1 := by
        have hle : 2 ^ (j + 2) ≤ 2 ^ n := Nat.pow_le_pow_right (by decide) (by omega)
        have hone : 1 ≤ 2 ^ j := Nat.one_le_two_pow
        rw [pow_add] at hle
        omega
      have hlt : first * 2 ^ j * 2 < first * (2 ^ n - 1) := by
        rw [mul_assoc]
        exact Nat.mul_lt_mul_of_pos_left hpow hpos
      rw [← tries_double (by positivity) hlt, mul_assoc, ← pow_succ, ih (j + 1) (by omega)]
  simpa [Nat.sub_add_cancel hn] using hlast 0 (n - 1) (by omega)

end TftpHpa.Backoff
