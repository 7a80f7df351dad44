import Mathlib.Tactic

/-! Positions in a ring of `c` slots: offset `i` from the head `h` is the slot
`(h + i) % c`, and stepping one slot on wraps from the last slot to zero. -/

namespace TftpHpa.RingIndex

variable {c h i j : ℕ}

/-- Different offsets below the size are different slots. -/
theorem slot_ne (hi : i < c) (hj : j < c) (hne : i ≠ j) : (h + i) % c ≠ (h + j) % c := by
  intro he
  have hij : i ≡ j [MOD c] := Nat.ModEq.add_left_cancel' h he
  rw [Nat.ModEq, Nat.mod_eq_of_lt hi, Nat.mod_eq_of_lt hj] at hij
  exact hne hij

/-- The successor that wraps by comparison is the successor modulo the size. -/
theorem next_eq (h : i < c) : (if i + 1 = c then 0 else i + 1) = (i + 1) % c := by
  split_ifs with he
  · rw [he, Nat.mod_self]
  · rw [Nat.mod_eq_of_lt (by omega)]

theorem mod_succ (h i c : ℕ) : ((h + i) % c + 1) % c = (h + (i + 1)) % c := by
  rw [Nat.mod_add_mod, Nat.add_assoc]

theorem mod_add (h i j c : ℕ) : ((h + i) % c + j) % c = (h + (i + j)) % c := by
  rw [Nat.mod_add_mod, Nat.add_assoc]

/-- Every slot is at some offset. -/
theorem exists_offset (h : ℕ) (hj : j < c) : ∃ i < c, (h + i) % c = j := by
  refine ⟨(j + (c - h % c)) % c, Nat.mod_lt _ (by omega), ?_⟩
  have hsplit : h + (j + (c - h % c)) = j + c * (h / c + 1) := by
    have := Nat.div_add_mod h c
    have := Nat.mod_lt h (Nat.zero_lt_of_lt hj)
    rw [Nat.mul_succ]
    omega
  rw [Nat.add_mod_mod, hsplit, Nat.add_mul_mod_self_left, Nat.mod_eq_of_lt hj]

end TftpHpa.RingIndex
