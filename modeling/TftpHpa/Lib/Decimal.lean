import Mathlib.Tactic

/-! Decimal numerals as ASCII bytes: the digits of a number, most significant first,
and the value of a string of digits. -/

namespace TftpHpa.Decimal

/-- The value of an ASCII digit. -/
def digitVal (c : UInt8) : UInt8 := c - 48

def isDigit (c : UInt8) : Bool := digitVal c ≤ 9

theorem isDigit_iff {c : UInt8} : isDigit c = true ↔ 48 ≤ c.toNat ∧ c.toNat ≤ 57 := by
  have h48 : (48 : UInt8).toNat = 48 := rfl
  have h9 : (9 : UInt8).toNat = 9 := rfl
  have hlt := c.toNat_lt
  rw [isDigit, decide_eq_true_eq, UInt8.le_iff_toNat_le, digitVal, UInt8.toNat_sub]
  omega

/-- The value of a string of digits. -/
def value (ds : List UInt8) : ℕ := ds.foldl (fun v c => 10 * v + (digitVal c).toNat) 0

/-- The digits of a number. -/
def numeral (n : ℕ) : List UInt8 := (Nat.toDigits 10 n).map Char.toUInt8

theorem numeral_ne_nil (n : ℕ) : numeral n ≠ [] := by
  simp [numeral, Nat.toDigits_ne_nil]

theorem toNat_digitVal {c : Char} (h : c.isDigit = true) : (digitVal c.toUInt8).toNat = c.toNat - 48 := by
  simp only [Char.isDigit, Bool.and_eq_true, decide_eq_true_eq, ge_iff_le, UInt32.le_iff_toNat_le] at h
  have h₁ : 48 ≤ c.val.toNat := h.1
  have h₂ : c.val.toNat ≤ 57 := h.2
  have hbyte : c.toUInt8.toNat = c.val.toNat := by
    rw [Char.toUInt8, UInt32.toNat_toUInt8]
    omega
  rw [digitVal, UInt8.toNat_sub_of_le _ _ (by rw [UInt8.le_iff_toNat_le, hbyte]; exact h₁), hbyte]
  rfl

theorem isDigit_of_mem_numeral {n : ℕ} {b : UInt8} (h : b ∈ numeral n) : isDigit b = true := by
  obtain ⟨c, hc, rfl⟩ := List.mem_map.mp h
  have hd := Nat.isDigit_of_mem_toDigits (by decide) le_rfl hc
  have hle : c.toNat ≤ 57 := by
    simp only [Char.isDigit, Bool.and_eq_true, decide_eq_true_eq, UInt32.le_iff_toNat_le] at hd
    exact hd.2
  have hnine : (9 : UInt8).toNat = 9 := rfl
  rw [isDigit, decide_eq_true_eq, UInt8.le_iff_toNat_le, toNat_digitVal hd]
  omega

/-- Reading a numeral gives the number back. -/
@[simp] theorem value_numeral (n : ℕ) : value (numeral n) = n := by
  have hfold : ∀ (l : List Char) (k : ℕ), (∀ c ∈ l, c.isDigit = true) →
      (l.map Char.toUInt8).foldl (fun v c => 10 * v + (digitVal c).toNat) k = Nat.ofDigitChars 10 l k := by
    intro l
    induction l with
    | nil => simp
    | cons c l ih =>
      intro k hl
      rw [List.map_cons, List.foldl_cons, Nat.ofDigitChars_cons, toNat_digitVal (hl c (by simp))]
      exact ih _ fun d hd => hl d (by simp [hd])
  rw [value, numeral, hfold _ _ fun c hc => Nat.isDigit_of_mem_toDigits (by decide) le_rfl hc,
    Nat.ofDigitChars_ten_toDigits]

end TftpHpa.Decimal
