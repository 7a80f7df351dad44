import Mathlib.Tactic

/-! Wrapping sequence numbers. Counting starts at zero, goes up to `M` and then
continues at `ρ`, so that numbers below `ρ` occur once and the others recur with
period `M + 1 - ρ`. Two positions with the same number are equal or at least one
period apart; this is what makes a window of numbers unambiguous. -/

namespace TftpHpa.SerialNumber

variable {M ρ : ℕ}

/-- The number after `n`. -/
def next (M ρ n : ℕ) : ℕ := if n = M then ρ else n + 1

/-- The number at position `i`. -/
def serial (M ρ i : ℕ) : ℕ := (next M ρ)^[i] 0

@[simp] theorem serial_zero : serial M ρ 0 = 0 := rfl

theorem serial_succ (i : ℕ) : serial M ρ (i + 1) = next M ρ (serial M ρ i) := by
  rw [serial, Function.iterate_succ_apply', serial]

theorem serial_eq (h : ρ ≤ M) (i : ℕ) :
    serial M ρ i = if i < ρ then i else ρ + (i - ρ) % (M + 1 - ρ) := by
  induction i with
  | zero =>
    rcases Nat.eq_zero_or_pos ρ with rfl | hρ
    · simp
    · simp [hρ]
  | succ i ih =>
    rw [serial_succ, ih]
    have hP : 0 < M + 1 - ρ := by omega
    by_cases h1 : i + 1 < ρ
    · rw [if_pos h1, if_pos (by omega), next, if_neg (by omega)]
    · rw [if_neg h1]
      by_cases h2 : i < ρ
      · -- the last position before the cycle
        rw [if_pos h2, next, if_neg (by omega), show i + 1 - ρ = 0 by omega, Nat.zero_mod]
        omega
      · rw [if_neg h2, show i + 1 - ρ = (i - ρ) + 1 by omega]
        have hlt := Nat.mod_lt (i - ρ) hP
        by_cases hw : (i - ρ) % (M + 1 - ρ) = M - ρ
        · rw [next, if_pos (by omega), Nat.add_mod, hw]
          rcases Nat.eq_or_lt_of_le h with rfl | hlt'
          · simp
          · rw [Nat.mod_eq_of_lt (show 1 < M + 1 - ρ by omega),
              show M - ρ + 1 = M + 1 - ρ by omega, Nat.mod_self, add_zero]
        · rw [next, if_neg (by omega), Nat.add_mod, Nat.mod_eq_of_lt (show 1 < M + 1 - ρ by omega),
            Nat.mod_eq_of_lt (show (i - ρ) % (M + 1 - ρ) + 1 < M + 1 - ρ by omega)]
          omega

/-- Before the first wrap a number is its own position. -/
theorem serial_of_le {i : ℕ} (h : i ≤ M) : serial M ρ i = i := by
  induction i with
  | zero => rfl
  | succ i ih => rw [serial_succ, ih (by omega), next, if_neg (by omega)]

/-- Positions less than a period apart have different numbers. -/
theorem serial_injOn (h : ρ ≤ M) {i j : ℕ} (hij : i ≤ j) (hlag : j - i < M + 1 - ρ)
    (he : serial M ρ i = serial M ρ j) : i = j := by
  rw [serial_eq h, serial_eq h] at he
  have hm := Nat.mod_lt (j - ρ) (show 0 < M + 1 - ρ by omega)
  split_ifs at he with hi hj hj
  · exact he
  · omega
  · omega
  · have hd : (j - ρ - (i - ρ)) % (M + 1 - ρ) = 0 := by
      refine Nat.sub_mod_eq_zero_of_mod_eq ?_
      omega
    have := Nat.eq_zero_of_dvd_of_lt (Nat.dvd_of_mod_eq_zero hd) (by omega)
    omega

end TftpHpa.SerialNumber
