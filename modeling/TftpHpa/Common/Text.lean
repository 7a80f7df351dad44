import Mathlib.Data.List.TakeWhile
import TftpHpa.Lib.Decimal
import TftpHpa.Wire.Packet

/-! Text in requests, options and on the command line. A C string is the list of its
bytes without the NUL at its end; a character read there is the NUL. -/

namespace TftpHpa

/-- The bytes of a string literal. -/
def cstr (s : String) : Bytes := s.toList.map Char.toUInt8

/-- What stands before the first NUL and what follows it. -/
def memchrNul : Bytes → Option (Bytes × Bytes)
  | [] => none
  | c :: rest => if c = 0 then some ([], rest) else (memchrNul rest).map fun p => (c :: p.1, p.2)

theorem memchrNul_eq_some {s t rest : Bytes} (h : memchrNul s = some (t, rest)) :
    (0 : UInt8) ∉ t ∧ s = t ++ 0 :: rest := by
  induction s generalizing t with
  | nil => cases h
  | cons c s ih =>
    rw [memchrNul] at h
    split_ifs at h with hc
    · cases h
      exact ⟨by simp, by simp [hc]⟩
    · obtain ⟨p, hp, he⟩ := Option.map_eq_some_iff.mp h
      cases he
      obtain ⟨h0, rfl⟩ := ih hp
      exact ⟨by simp [h0, Ne.symm hc], rfl⟩

theorem memchrNul_length {s t rest : Bytes} (h : memchrNul s = some (t, rest)) : rest.length < s.length := by
  rw [(memchrNul_eq_some h).2]
  simp
  omega

theorem memchrNul_append {s : Bytes} (hs : (0 : UInt8) ∉ s) (rest : Bytes) :
    memchrNul (s ++ 0 :: rest) = some (s, rest) := by
  induction s with
  | nil => rfl
  | cons c s ih =>
    rw [List.mem_cons, not_or] at hs
    rw [List.cons_append, memchrNul, if_neg (Ne.symm hs.1), ih hs.2]
    rfl

/-! ### Characters -/

/-- `ascii_isdigit`. -/
def asciiIsdigit (c : UInt8) : Bool := Decimal.digitVal c ≤ 9

/-- `ascii_tolower`. -/
def asciiTolower (c : UInt8) : UInt8 := if c - 65 ≤ 90 - 65 then c + (97 - 65) else c

/-- `isspace` in the C locale. -/
def isspace (c : UInt8) : Bool := c = 32 ∨ 9 ≤ c ∧ c ≤ 13

/-- `ascii_strncaseeq`. -/
def asciiStrncaseeq : Bytes → Bytes → ℕ → Bool
  | _, _, 0 => true
  | s1, s2, n + 1 =>
    let c1 := s1.headD 0
    let cx := c1 ^^^ s2.headD 0
    if cx ≠ 0 ∧ (cx ≠ 0x20 ∨ 122 - 97 < (c1 ||| cx) - 97) then false
    else if c1 = 0 then true
    else asciiStrncaseeq s1.tail s2.tail n

/-- `SIZE_MAX` and `UINTMAX_MAX`. -/
def uintmaxMax : ℕ := 2 ^ 64 - 1

/-- `ascii_strcaseeq`. -/
def asciiStrcaseeq (s1 s2 : Bytes) : Bool := asciiStrncaseeq s1 s2 uintmaxMax

example : asciiStrcaseeq (cstr "BlkSize") (cstr "blksize") = true := by decide

/-! ### Ignoring case -/

theorem forall_byte {P : UInt8 → Prop} (h : ∀ n < 256, P (UInt8.ofNat n)) (c : UInt8) : P c := by
  have hc := h c.toNat c.toNat_lt
  rwa [UInt8.ofNat_toNat] at hc

/-- The bit that tells the two cases of a letter apart. -/
theorem asciiTolower_xor (c : UInt8) :
    asciiTolower c = asciiTolower (c ^^^ 0x20) ↔ (c ||| 0x20) - 97 ≤ 122 - 97 :=
  forall_byte (P := fun c => asciiTolower c = asciiTolower (c ^^^ 0x20) ↔ (c ||| 0x20) - 97 ≤ 122 - 97)
    (by decide +kernel) c

theorem asciiTolower_cases (c : UInt8) : asciiTolower c = c ∨ asciiTolower c = c ^^^ 0x20 :=
  forall_byte (P := fun c => asciiTolower c = c ∨ asciiTolower c = c ^^^ 0x20) (by decide +kernel) c

theorem asciiTolower_eq_zero {c : UInt8} : asciiTolower c = 0 ↔ c = 0 :=
  forall_byte (P := fun c => asciiTolower c = 0 ↔ c = 0) (by decide +kernel) c

/-- The test `ascii_strncaseeq` makes on a pair of characters. -/
theorem differ_iff (c1 c2 : UInt8) :
    (c1 ^^^ c2 ≠ 0 ∧ (c1 ^^^ c2 ≠ 0x20 ∨ 122 - 97 < (c1 ||| (c1 ^^^ c2)) - 97)) ↔
      asciiTolower c1 ≠ asciiTolower c2 := by
  have hback : ∀ x : UInt8, c1 ^^^ c2 = x → c2 = c1 ^^^ x := by
    rintro x rfl
    rw [← UInt8.xor_assoc, UInt8.xor_self, UInt8.zero_xor]
  by_cases h0 : c1 ^^^ c2 = 0
  · rw [hback 0 h0, UInt8.xor_zero]
    simp
  by_cases h32 : c1 ^^^ c2 = 0x20
  · have hfold := asciiTolower_xor c1
    rw [← hback 0x20 h32] at hfold
    rw [h32]
    refine Iff.trans ?_ (not_congr hfold).symm
    rw [UInt8.not_le]
    simp
  · refine ⟨fun _ heq => ?_, fun _ => ⟨h0, .inl h32⟩⟩
    rcases asciiTolower_cases c1 with h₁ | h₁ <;> rcases asciiTolower_cases c2 with h₂ | h₂ <;> rw [h₁, h₂] at heq
    · exact h0 (by rw [heq, UInt8.xor_self])
    · exact h32 (by rw [heq, UInt8.xor_comm, ← UInt8.xor_assoc, UInt8.xor_self, UInt8.zero_xor])
    · exact h32 (by rw [← heq, ← UInt8.xor_assoc, UInt8.xor_self, UInt8.zero_xor])
    · have hc := congrArg (· ^^^ 0x20) heq
      simp only [UInt8.xor_assoc, UInt8.xor_self, UInt8.xor_zero] at hc
      exact h0 (by rw [hc, UInt8.xor_self])

theorem asciiStrncaseeq_succ (s1 s2 : Bytes) (n : ℕ) : asciiStrncaseeq s1 s2 (n + 1) =
    (decide (asciiTolower (s1.headD 0) = asciiTolower (s2.headD 0)) &&
      (decide (s1.headD 0 = 0) || asciiStrncaseeq s1.tail s2.tail n)) := by
  have hdiffer := differ_iff (s1.headD 0) (s2.headD 0)
  simp only [asciiStrncaseeq]
  by_cases heq : asciiTolower (s1.headD 0) = asciiTolower (s2.headD 0)
  · rw [if_neg (mt hdiffer.mp (not_not.mpr heq)), decide_eq_true heq, Bool.true_and]
    by_cases h0 : s1.headD 0 = 0
    · rw [if_pos h0, decide_eq_true h0, Bool.true_or]
    · rw [if_neg h0, decide_eq_false h0, Bool.false_or]
  · rw [if_pos (hdiffer.mpr heq), decide_eq_false heq, Bool.false_and]

theorem asciiStrncaseeq_iff {s1 s2 : Bytes} (h1 : 0 ∉ s1) (h2 : 0 ∉ s2) {n : ℕ} (hn : s1.length < n) :
    asciiStrncaseeq s1 s2 n = true ↔ s1.map asciiTolower = s2.map asciiTolower := by
  obtain ⟨n, rfl⟩ : ∃ m, n = m + 1 := ⟨n - 1, by omega⟩
  induction s1 generalizing s2 n with
  | nil =>
    rw [asciiStrncaseeq_succ]
    cases s2 with
    | nil => simp
    | cons b s2 =>
      have hb : asciiTolower b ≠ 0 := fun h => h2 (by simp [asciiTolower_eq_zero.mp h])
      simp [show asciiTolower 0 = 0 from rfl, hb.symm]
  | cons a s1 ih =>
    rw [List.mem_cons, not_or] at h1
    rw [asciiStrncaseeq_succ]
    cases s2 with
    | nil =>
      have ha : asciiTolower a ≠ 0 := fun h => h1.1 (asciiTolower_eq_zero.mp h).symm
      simp [show asciiTolower 0 = 0 from rfl, ha]
    | cons b s2 =>
      rw [List.mem_cons, not_or] at h2
      obtain ⟨n, rfl⟩ : ∃ m, n = m + 1 := ⟨n - 1, by simp at hn; omega⟩
      have hrest := ih h1.2 h2.2 n (by simp at hn; omega)
      simp [Ne.symm h1.1, hrest]

theorem asciiStrncaseeq_comm (s1 s2 : Bytes) (n : ℕ) : asciiStrncaseeq s1 s2 n = asciiStrncaseeq s2 s1 n := by
  induction n generalizing s1 s2 with
  | zero => rfl
  | succ n ih =>
    rw [asciiStrncaseeq_succ, asciiStrncaseeq_succ, ih]
    by_cases h : asciiTolower (s1.headD 0) = asciiTolower (s2.headD 0)
    · have h0 : s1.headD 0 = 0 ↔ s2.headD 0 = 0 := by rw [← asciiTolower_eq_zero, h, asciiTolower_eq_zero]
      simp only [h, h0]
    · rw [decide_eq_false h, decide_eq_false (Ne.symm h), Bool.false_and, Bool.false_and]

/-- `ascii_strcaseeq` compares two strings as if they were in lower case. -/
theorem asciiStrcaseeq_iff {s1 s2 : Bytes} (h1 : 0 ∉ s1) (h2 : 0 ∉ s2) (hn : s1.length < uintmaxMax) :
    asciiStrcaseeq s1 s2 = true ↔ s1.map asciiTolower = s2.map asciiTolower := asciiStrncaseeq_iff h1 h2 hn

/-! ### Numbers -/

/-- What `strtoumax` returns, where it stops and whether it sets `errno`. -/
structure Strtoumax where
  value : ℕ
  rest : Bytes
  erange : Bool := false

/-- `strtoumax` in base ten: white space, a sign, digits. A negative number is
negated in the unsigned type; without digits nothing is consumed. -/
def strtoumax (s : Bytes) : Strtoumax :=
  let body := s.dropWhile isspace
  let neg : Bool := body.headD 0 = 45
  let digits := if body.headD 0 = 43 ∨ body.headD 0 = 45 then body.tail else body
  let ds := digits.takeWhile Decimal.isDigit
  let rest := digits.dropWhile Decimal.isDigit
  if ds = [] then { value := 0, rest := s }
  else if uintmaxMax < Decimal.value ds then { value := uintmaxMax, rest, erange := true }
  else { value := if neg then (2 ^ 64 - Decimal.value ds) % 2 ^ 64 else Decimal.value ds, rest }

theorem strtoumax_rest_le (s : Bytes) : (strtoumax s).rest.length ≤ s.length := by
  have hbody := (List.dropWhile_sublist (l := s) isspace).length_le
  simp only [strtoumax]
  generalize s.dropWhile isspace = body at hbody ⊢
  have hdigits : (if body.headD 0 = 43 ∨ body.headD 0 = 45 then body.tail else body).length ≤ s.length := by
    split_ifs
    · rw [List.length_tail]
      omega
    · exact hbody
  generalize (if body.headD 0 = 43 ∨ body.headD 0 = 45 then body.tail else body) = digits at hdigits ⊢
  have hrest := (List.dropWhile_sublist (l := digits) Decimal.isDigit).length_le
  split_ifs
  · exact le_rfl
  all_goals exact hrest.trans hdigits

/-- A digit is neither white space nor a sign. -/
theorem plain_of_isDigit {c : UInt8} (h : Decimal.isDigit c = true) :
    isspace c = false ∧ c ≠ 43 ∧ c ≠ 45 := by
  rw [Decimal.isDigit_iff] at h
  have h13 : (13 : UInt8).toNat = 13 := rfl
  refine ⟨?_, ?_, ?_⟩
  · simp only [isspace, decide_eq_false_iff_not]
    rintro (rfl | ⟨-, hle⟩)
    · exact absurd h (by decide)
    · rw [UInt8.le_iff_toNat_le] at hle
      omega
  · rintro rfl
    exact absurd h (by decide)
  · rintro rfl
    exact absurd h (by decide)

theorem zero_notMem_numeral (n : ℕ) : (0 : UInt8) ∉ Decimal.numeral n := fun h =>
  absurd (Decimal.isDigit_of_mem_numeral h) (by decide)

/-- A printed number is read back whole. -/
theorem strtoumax_numeral {n : ℕ} (hn : n < 2 ^ 64) :
    strtoumax (Decimal.numeral n) = { value := n, rest := [] } := by
  have hdig : ∀ b ∈ Decimal.numeral n, Decimal.isDigit b = true := fun b hb => Decimal.isDigit_of_mem_numeral hb
  have hall : (Decimal.numeral n).takeWhile Decimal.isDigit = Decimal.numeral n :=
    List.takeWhile_eq_self_iff.mpr hdig
  have hnone : (Decimal.numeral n).dropWhile Decimal.isDigit = [] := List.dropWhile_eq_nil_iff.mpr hdig
  obtain ⟨c, cs, hc⟩ := List.exists_cons_of_ne_nil (Decimal.numeral_ne_nil n)
  have hhead : (Decimal.numeral n).headD 0 = c := by rw [hc, List.headD_cons]
  obtain ⟨hspace, hplus, hminus⟩ := plain_of_isDigit (hdig c (by simp [hc]))
  have hbody : (Decimal.numeral n).dropWhile isspace = Decimal.numeral n := by
    rw [hc, List.dropWhile_cons_of_neg (by simp [hspace])]
  have hmax : ¬ uintmaxMax < n := by
    unfold uintmaxMax
    omega
  simp only [strtoumax, hbody, hhead, hplus, hminus, or_self, if_false, hall, hnone, Decimal.value_numeral,
    Decimal.numeral_ne_nil, hmax, decide_false, Bool.false_eq_true]

end TftpHpa
