import Mathlib.Tactic

/-! Counting in windows of `w`. The boundary of a count is the last multiple of the
window size at or below it, the rest is the count within the window; a window size
of zero means one window without end. -/

namespace TftpHpa.Window

variable {w k b : ℕ}

/-- The last window boundary at or below `k`. -/
def boundary (w k : ℕ) : ℕ := w * (k / w)

theorem boundary_add_mod (w k : ℕ) : boundary w k + k % w = k := Nat.div_add_mod k w

theorem boundary_le (w k : ℕ) : boundary w k ≤ k := Nat.mul_div_le k w

@[simp] theorem boundary_zero (w : ℕ) : boundary w 0 = 0 := by simp [boundary]

theorem boundary_mono (w : ℕ) {j k : ℕ} (h : j ≤ k) : boundary w j ≤ boundary w k :=
  Nat.mul_le_mul_left w (Nat.div_le_div_right h)

theorem boundary_of_mod_eq_zero (h : k % w = 0) : boundary w k = k := by
  have := boundary_add_mod w k
  omega

theorem boundary_of_dvd (h : w ∣ k) : boundary w k = k :=
  boundary_of_mod_eq_zero (Nat.mod_eq_zero_of_dvd h)

/-- A boundary at or below a count is at or below its last boundary. -/
theorem le_boundary_of_dvd (hb : w ∣ b) (h : b ≤ k) : b ≤ boundary w k := by
  rw [← boundary_of_dvd hb]
  exact boundary_mono w h

/-- One more than a full window less one is a boundary. -/
theorem succ_mod_of_eq (h : k % w + 1 = w) : (k + 1) % w = 0 := by
  have hk : k + 1 = w * (k / w + 1) := by
    have := Nat.div_add_mod k w
    rw [Nat.mul_add, mul_one]
    omega
  rw [hk, Nat.mul_mod_right]

/-- Otherwise the window goes on. -/
theorem succ_mod_of_ne (h : k % w + 1 ≠ w) : (k + 1) % w = k % w + 1 := by
  rcases Nat.eq_zero_or_pos w with rfl | hw
  · simp
  · have hlt := Nat.mod_lt k hw
    have hk : k + 1 = k % w + 1 + w * (k / w) := by
      have := Nat.div_add_mod k w
      omega
    rw [hk, Nat.add_mul_mod_self_left, Nat.mod_eq_of_lt (by omega)]

theorem boundary_succ_of_ne (h : k % w + 1 ≠ w) : boundary w (k + 1) = boundary w k := by
  have h₁ := boundary_add_mod w (k + 1)
  have h₂ := boundary_add_mod w k
  rw [succ_mod_of_ne h] at h₁
  omega

end TftpHpa.Window
