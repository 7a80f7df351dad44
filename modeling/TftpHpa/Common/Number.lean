import TftpHpa.Common.Options

/-! The numbers that `parse_uint` accepts. Its grammar is white space, a sign, digits, more
white space and a unit, of which the code leaves the first three to `strtoumax`. -/

namespace TftpHpa

/-! ### The grammar -/

inductive Sign where
  | none | plus | minus
  deriving DecidableEq

namespace Sign

def text : Sign → Bytes
  | none => []
  | plus => cstr "+"
  | minus => cstr "-"

/-- The value of a number of 64 bits with the sign. -/
def value : Sign → ℕ → ℕ
  | minus, d => (2 ^ 64 - d) % 2 ^ 64
  | _, d => d

end Sign

/-- The units, powers of 1024. -/
def units : Bytes := cstr "kmgtpe"

/-- A unit letter in either case, or no unit, and its power. -/
inductive UnitText : Bytes → ℕ → Prop
  | none : UnitText [] 0
  | letter {c : UInt8} {i : ℕ} (h : units[i]? = some (asciiTolower c)) : UnitText [c] (i + 1)

/-- The text of a number with the sign, the digits of `d` and the unit `1024 ^ j`. -/
def NumberText (sign : Sign) (s : Bytes) (d j : ℕ) : Prop :=
  ∃ before digits between unit : Bytes, s = before ++ (sign.text ++ (digits ++ (between ++ unit))) ∧
    (∀ c ∈ before, isspace c = true) ∧ digits ≠ [] ∧ (∀ c ∈ digits, Decimal.isDigit c = true) ∧
    Decimal.value digits = d ∧ (∀ c ∈ between, isspace c = true) ∧ UnitText unit j

/-- The numbers `v` between `lo` and `hi` that `s` should stand for. -/
def InGrammar (s : Bytes) (lo hi v : ℕ) : Prop :=
  ∃ d j, (NumberText .none s d j ∨ NumberText .plus s d j) ∧ v = d * 1024 ^ j ∧ v < 2 ^ 64 ∧ lo ≤ v ∧ v ≤ hi

/-- The numbers `v` that it stands for with a given sign: the sign comes before the unit. -/
def Accepts (sign : Sign) (s : Bytes) (lo hi v : ℕ) : Prop :=
  ∃ d j, NumberText sign s d j ∧ d < 2 ^ 64 ∧ v = sign.value d * 1024 ^ j ∧ v < 2 ^ 64 ∧ lo ≤ v ∧ v ≤ hi

/-! ### What `strtoumax` reads -/

/-- White space, a sign and digits, in front of something that is no digit. -/
structure SignedDigits (sign : Sign) (s digits tail : Bytes) : Prop where
  text : ∃ before : Bytes, (∀ c ∈ before, isspace c = true) ∧ s = before ++ (sign.text ++ (digits ++ tail))
  digits_ne : digits ≠ []
  isDigit : ∀ c ∈ digits, Decimal.isDigit c = true
  tail_head : Decimal.isDigit (tail.headD 0) = false

namespace SignedDigits

variable {sign : Sign} {s digits tail : Bytes}

/-- What is left behind the white space, and what its first character says. -/
theorem body (h : SignedDigits sign s digits tail) :
    s.dropWhile isspace = sign.text ++ (digits ++ tail) ∧ ((s.dropWhile isspace).headD 0 = 45 ↔ sign = .minus) ∧
      ((s.dropWhile isspace).headD 0 = 43 ↔ sign = .plus) := by
  obtain ⟨before, hbefore, rfl⟩ := h.text
  obtain ⟨c, cs, rfl⟩ := List.exists_cons_of_ne_nil h.digits_ne
  obtain ⟨hspace, hplus, hminus⟩ := plain_of_isDigit (h.isDigit c (by simp))
  rw [List.dropWhile_append_of_pos hbefore]
  cases sign with
  | none =>
    have hbody : (Sign.none.text ++ (c :: cs ++ tail)).dropWhile isspace = c :: (cs ++ tail) :=
      List.dropWhile_cons_of_neg (by simp [hspace])
    rw [hbody]
    exact ⟨rfl, iff_of_false hminus (by decide), iff_of_false hplus (by decide)⟩
  | plus =>
    have hbody : (Sign.plus.text ++ (c :: cs ++ tail)).dropWhile isspace = 43 :: (c :: cs ++ tail) :=
      List.dropWhile_cons_of_neg (by decide)
    rw [hbody]
    exact ⟨rfl, iff_of_false (by simp) (by decide), iff_of_true rfl rfl⟩
  | minus =>
    have hbody : (Sign.minus.text ++ (c :: cs ++ tail)).dropWhile isspace = 45 :: (c :: cs ++ tail) :=
      List.dropWhile_cons_of_neg (by decide)
    rw [hbody]
    exact ⟨rfl, iff_of_true rfl rfl, iff_of_false (by simp) (by decide)⟩

theorem strtoumax_eq (h : SignedDigits sign s digits tail) :
    strtoumax s = if uintmaxMax < Decimal.value digits then { value := uintmaxMax, rest := tail, erange := true }
      else { value := sign.value (Decimal.value digits), rest := tail } := by
  obtain ⟨hbody, hminus, hplus⟩ := h.body
  have hdigits : (if (s.dropWhile isspace).headD 0 = 43 ∨ (s.dropWhile isspace).headD 0 = 45
      then (s.dropWhile isspace).tail else s.dropWhile isspace) = digits ++ tail := by
    simp only [hplus, hminus]
    rw [hbody]
    cases sign <;> rfl
  have htail : tail.takeWhile Decimal.isDigit = [] ∧ tail.dropWhile Decimal.isDigit = tail := by
    cases tail with
    | nil => exact ⟨rfl, rfl⟩
    | cons c tail => simp [show Decimal.isDigit c = false from h.tail_head]
  simp only [strtoumax, hdigits, List.takeWhile_append_of_pos h.isDigit, List.dropWhile_append_of_pos h.isDigit, htail,
    List.append_nil, if_neg h.digits_ne]
  simp only [hminus]
  cases sign <;> rfl

theorem length_tail_lt (h : SignedDigits sign s digits tail) : tail.length < s.length := by
  obtain ⟨before, -, rfl⟩ := h.text
  have := List.length_pos_iff.mpr h.digits_ne
  simp only [List.length_append]
  omega

end SignedDigits

theorem headD_dropWhile_isDigit (l : Bytes) : Decimal.isDigit ((l.dropWhile Decimal.isDigit).headD 0) = false := by
  cases hl : l.dropWhile Decimal.isDigit with
  | nil => rfl
  | cons c cs =>
    have hhead := List.head?_dropWhile_not Decimal.isDigit l
    rw [hl] at hhead
    simpa using hhead

/-- A string begins with a number, or `strtoumax` consumes nothing. -/
theorem exists_signedDigits (s : Bytes) :
    strtoumax s = { value := 0, rest := s } ∨ ∃ sign digits tail, SignedDigits sign s digits tail := by
  have hspace : ∀ c ∈ s.takeWhile isspace, isspace c = true := fun c hc => List.mem_takeWhile_imp hc
  have hs : s = s.takeWhile isspace ++ s.dropWhile isspace := List.takeWhile_append_dropWhile.symm
  obtain ⟨sign, hsign⟩ : ∃ sign : Sign, s.dropWhile isspace =
      sign.text ++ (if (s.dropWhile isspace).headD 0 = 43 ∨ (s.dropWhile isspace).headD 0 = 45
        then (s.dropWhile isspace).tail else s.dropWhile isspace) := by
    cases s.dropWhile isspace with
    | nil => exact ⟨.none, rfl⟩
    | cons c body =>
      rw [List.headD_cons, List.tail_cons]
      by_cases hplus : c = 43
      · exact ⟨.plus, by rw [if_pos (.inl hplus), hplus]; rfl⟩
      · by_cases hminus : c = 45
        · exact ⟨.minus, by rw [if_pos (.inr hminus), hminus]; rfl⟩
        · exact ⟨.none, by rw [if_neg (by simp [hplus, hminus])]; rfl⟩
  generalize hdigits : (if (s.dropWhile isspace).headD 0 = 43 ∨ (s.dropWhile isspace).headD 0 = 45
    then (s.dropWhile isspace).tail else s.dropWhile isspace) = digits at hsign
  by_cases hnone : digits.takeWhile Decimal.isDigit = []
  · left
    simp only [strtoumax, hdigits, if_pos hnone]
  · right
    refine ⟨sign, digits.takeWhile Decimal.isDigit, digits.dropWhile Decimal.isDigit,
      ⟨s.takeWhile isspace, hspace, ?_⟩, hnone, fun c hc => List.mem_takeWhile_imp hc, headD_dropWhile_isDigit digits⟩
    rw [List.takeWhile_append_dropWhile, ← hsign, ← hs]

/-! ### Units -/

/-- The `switch` knows the units. -/
theorem suffixShift_eq_some {c : UInt8} (hc : c ≠ 0) {n : ℕ} :
    suffixShift c = some n ↔ ∃ i, n = 10 * (i + 1) ∧ units[i]? = some (asciiTolower c) := by
  rw [suffixShift, if_neg (mt asciiTolower_eq_zero.mp hc)]
  constructor
  · intro h
    split_ifs at h with hk hm hg ht hp he
    all_goals obtain rfl := Option.some.inj h
    · exact ⟨0, rfl, by rw [hk]; rfl⟩
    · exact ⟨1, rfl, by rw [hm]; rfl⟩
    · exact ⟨2, rfl, by rw [hg]; rfl⟩
    · exact ⟨3, rfl, by rw [ht]; rfl⟩
    · exact ⟨4, rfl, by rw [hp]; rfl⟩
    · exact ⟨5, rfl, by rw [he]; rfl⟩
  · rintro ⟨i, rfl, hi⟩
    have hlt : i < 6 := (List.getElem?_eq_some_iff.mp hi).1
    interval_cases i
    all_goals
      rw [← Option.some.inj hi]
      rfl

/-- What stands behind the white space is a unit if the code takes it for one. -/
theorem unitText_iff {stop : Bytes} (h0 : (0 : UInt8) ∉ stop) {n : ℕ} :
    suffixShift (stop.headD 0) = some n ∧ (n ≠ 0 → stop.tail = []) ↔ ∃ j, n = 10 * j ∧ UnitText stop j := by
  cases stop with
  | nil =>
    constructor
    · rintro ⟨h, -⟩
      obtain rfl := Option.some.inj h
      exact ⟨0, rfl, .none⟩
    · rintro ⟨j, rfl, h⟩
      cases h
      exact ⟨rfl, fun _ => rfl⟩
  | cons c rest =>
    have hc : c ≠ 0 := fun h => h0 (by simp [h])
    rw [List.headD_cons, List.tail_cons, suffixShift_eq_some hc]
    constructor
    · rintro ⟨⟨i, rfl, hi⟩, hrest⟩
      obtain rfl := hrest (by omega)
      exact ⟨i + 1, rfl, .letter hi⟩
    · rintro ⟨j, rfl, h⟩
      cases h with
      | letter hi => exact ⟨⟨_, rfl, hi⟩, fun _ => rfl⟩

theorem unit_plain {c : UInt8} (h : asciiTolower c ∈ units) : isspace c = false ∧ Decimal.isDigit c = false :=
  forall_byte (P := fun c => asciiTolower c ∈ units → isspace c = false ∧ Decimal.isDigit c = false)
    (by decide +kernel) c h

section

variable {sign : Sign} {s digits tail unit between : Bytes} {d j : ℕ}

theorem UnitText.dropWhile_isspace (h : UnitText unit j) (hbetween : ∀ c ∈ between, isspace c = true) :
    (between ++ unit).dropWhile isspace = unit := by
  rw [List.dropWhile_append_of_pos hbetween]
  cases h with
  | none => rfl
  | letter hi => exact List.dropWhile_cons_of_neg (by simp [(unit_plain (List.mem_of_getElem? hi)).1])

theorem UnitText.headD_append (h : UnitText unit j) (hbetween : ∀ c ∈ between, isspace c = true) :
    Decimal.isDigit ((between ++ unit).headD 0) = false := by
  cases between with
  | nil =>
    cases h with
    | none => rfl
    | letter hi => exact (unit_plain (List.mem_of_getElem? hi)).2
  | cons c between =>
    by_contra hdigit
    rw [Bool.not_eq_false] at hdigit
    have hspace : isspace c = false := (plain_of_isDigit hdigit).1
    rw [hbetween c (by simp)] at hspace
    cases hspace

theorem NumberText.exists_signedDigits (h : NumberText sign s d j) :
    ∃ digits tail, SignedDigits sign s digits tail ∧ Decimal.value digits = d ∧
      UnitText (tail.dropWhile isspace) j := by
  obtain ⟨before, digits, between, unit, hs, hbefore, hne, hdigits, hd, hbetween, hunit⟩ := h
  refine ⟨digits, between ++ unit, ⟨⟨before, hbefore, hs⟩, hne, hdigits, hunit.headD_append hbetween⟩, hd, ?_⟩
  rwa [hunit.dropWhile_isspace hbetween]

theorem SignedDigits.numberText (h : SignedDigits sign s digits tail) (hunit : UnitText (tail.dropWhile isspace) j) :
    NumberText sign s (Decimal.value digits) j := by
  obtain ⟨before, hbefore, hs⟩ := h.text
  refine ⟨before, digits, tail.takeWhile isspace, tail.dropWhile isspace, ?_, hbefore, h.digits_ne, h.isDigit, rfl,
    fun c hc => List.mem_takeWhile_imp hc, hunit⟩
  rwa [List.takeWhile_append_dropWhile]

end

theorem shiftLeft_unit (p j : ℕ) : p <<< (10 * j) = p * 1024 ^ j := by
  rw [Nat.shiftLeft_eq, pow_mul]
  rfl

/-- The code shifts by the unit and looks whether it can shift back. -/
theorem shift_back {p j : ℕ} : (p <<< (10 * j) % 2 ^ 64) >>> (10 * j) = p ↔ p * 1024 ^ j < 2 ^ 64 := by
  have hpow : 2 ^ (10 * j) = 1024 ^ j := pow_mul 2 10 j
  rw [shiftLeft_unit, Nat.shiftRight_eq_div_pow, hpow]
  constructor
  · intro h
    calc p * 1024 ^ j = p * 1024 ^ j % 2 ^ 64 / 1024 ^ j * 1024 ^ j := by rw [h]
      _ ≤ p * 1024 ^ j % 2 ^ 64 := Nat.div_mul_le_self _ _
      _ < 2 ^ 64 := Nat.mod_lt _ (by decide)
  · intro h
    rw [Nat.mod_eq_of_lt h, Nat.mul_div_cancel _ (by positivity)]

/-! ### What is accepted -/

theorem Sign.value_lt {d : ℕ} (sign : Sign) (h : d < 2 ^ 64) : sign.value d < 2 ^ 64 := by
  cases sign with
  | none | plus => exact h
  | minus => exact Nat.mod_lt _ (by decide)

/-- `parse_uint` behind the number: the unit, and the check of the product. -/
theorem parseUint_of_strtoumax {s tail : Bytes} {p : ℕ} (hread : strtoumax s = { value := p, rest := tail })
    (hlt : tail.length < s.length) (hp : p < 2 ^ 64) (h0 : (0 : UInt8) ∉ tail.dropWhile isspace) {lo hi v : ℕ} :
    parseUint s lo hi = some v ↔ ∃ j, UnitText (tail.dropWhile isspace) j ∧ v = p * 1024 ^ j ∧ v < 2 ^ 64 ∧
      lo ≤ v ∧ v ≤ hi := by
  simp only [parseUint, hread, Bool.false_eq_true, false_or, if_neg hlt.ne]
  constructor
  · intro hv
    split at hv
    · cases hv
    rename_i shift hshift
    split_ifs at hv with hbad hrange
    rw [not_and, not_or, not_not, not_not] at hbad
    obtain ⟨j, rfl, hunit⟩ := (unitText_iff h0).mp ⟨hshift, fun hne => (hbad hne).2⟩
    have hmul : p * 1024 ^ j < 2 ^ 64 := by
      -- without a unit nothing is checked
      rcases Nat.eq_zero_or_pos j with rfl | hj
      · simpa using hp
      · exact shift_back.mp (hbad (by omega)).1
    rw [shiftLeft_unit, Nat.mod_eq_of_lt hmul] at hv hrange
    obtain rfl := Option.some.inj hv
    exact ⟨j, hunit, rfl, hmul, by omega, by omega⟩
  · rintro ⟨j, hunit, rfl, hmul, hlo, hhi⟩
    obtain ⟨hshift, htail⟩ := (unitText_iff h0).mpr ⟨j, rfl, hunit⟩
    have hgood : ¬ (10 * j ≠ 0 ∧
        ((p <<< (10 * j) % 2 ^ 64) >>> (10 * j) ≠ p ∨ (tail.dropWhile isspace).tail ≠ [])) := by
      rintro ⟨hne, hback | htail'⟩
      · exact hback (shift_back.mpr hmul)
      · exact htail' (htail hne)
    rw [hshift]
    simp only [if_neg hgood]
    rw [shiftLeft_unit, Nat.mod_eq_of_lt hmul, if_neg (by omega)]

/-- `parse_uint` on a string that begins with a number. -/
theorem SignedDigits.parseUint_eq {sign : Sign} {s digits tail : Bytes} (h : SignedDigits sign s digits tail)
    (h0 : (0 : UInt8) ∉ s) {lo hi v : ℕ} :
    parseUint s lo hi = some v ↔ Decimal.value digits < 2 ^ 64 ∧ ∃ j, UnitText (tail.dropWhile isspace) j ∧
      v = sign.value (Decimal.value digits) * 1024 ^ j ∧ v < 2 ^ 64 ∧ lo ≤ v ∧ v ≤ hi := by
  have hmax : uintmaxMax < Decimal.value digits ↔ ¬ Decimal.value digits < 2 ^ 64 := by
    unfold uintmaxMax
    omega
  by_cases hvalue : Decimal.value digits < 2 ^ 64
  · have hread : strtoumax s = { value := sign.value (Decimal.value digits), rest := tail } := by
      rw [h.strtoumax_eq, if_neg (by rwa [hmax, not_not])]
    have hstop : (0 : UInt8) ∉ tail.dropWhile isspace := by
      obtain ⟨before, -, rfl⟩ := h.text
      intro hmem
      exact h0 (by simp [(List.dropWhile_sublist isspace).subset hmem])
    rw [parseUint_of_strtoumax hread h.length_tail_lt (sign.value_lt hvalue) hstop]
    exact (and_iff_right hvalue).symm
  · have hnone : parseUint s lo hi = none := by
      simp only [parseUint, h.strtoumax_eq, if_pos (hmax.mpr hvalue), true_or, if_true]
    rw [hnone]
    exact iff_of_false (by simp) fun h => hvalue h.1

/-- What `parse_uint` accepts, with any sign. -/
theorem parseUint_eq_some_iff {s : Bytes} (h0 : (0 : UInt8) ∉ s) {lo hi v : ℕ} :
    parseUint s lo hi = some v ↔ ∃ sign, Accepts sign s lo hi v := by
  constructor
  · intro hv
    rcases exists_signedDigits s with hnone | ⟨sign, digits, tail, h⟩
    · simp only [parseUint, hnone, or_true, if_true] at hv
      cases hv
    obtain ⟨hvalue, j, hunit, hrest⟩ := (h.parseUint_eq h0).mp hv
    exact ⟨sign, _, j, h.numberText hunit, hvalue, hrest⟩
  · rintro ⟨sign, d, j, htext, hvalue, hrest⟩
    obtain ⟨digits, tail, h, rfl, hunit⟩ := htext.exists_signedDigits
    exact (h.parseUint_eq h0).mpr ⟨hvalue, j, hunit, hrest⟩

theorem NumberText.minus_iff {sign : Sign} {s : Bytes} {d j : ℕ} (h : NumberText sign s d j) :
    (s.dropWhile isspace).headD 0 = 45 ↔ sign = .minus := by
  obtain ⟨digits, tail, h, -⟩ := h.exists_signedDigits
  exact h.body.2.1

/-- A number without a minus sign is accepted as the grammar says. -/
theorem inGrammar_iff {s : Bytes} {lo hi v : ℕ} : InGrammar s lo hi v ↔ ∃ sign ≠ .minus, Accepts sign s lo hi v := by
  constructor
  · rintro ⟨d, j, htext, rfl, hmul, hrange⟩
    have hd : d < 2 ^ 64 := (Nat.le_mul_of_pos_right d (by positivity)).trans_lt hmul
    rcases htext with htext | htext
    · exact ⟨.none, by decide, d, j, htext, hd, rfl, hmul, hrange⟩
    · exact ⟨.plus, by decide, d, j, htext, hd, rfl, hmul, hrange⟩
  · rintro ⟨sign, hne, d, j, htext, -, rfl, hmul, hrange⟩
    cases sign with
    | none => exact ⟨d, j, .inl htext, rfl, hmul, hrange⟩
    | plus => exact ⟨d, j, .inr htext, rfl, hmul, hrange⟩
    | minus => exact absurd rfl hne

/-- `parse_uint` accepts the numbers of its grammar, and others exactly when a string with a
minus sign stands for a number in the range after it has been negated in the unsigned type. -/
theorem parseUint_grammar_iff {s : Bytes} (h0 : (0 : UInt8) ∉ s) (lo hi : ℕ) :
    (∀ v, parseUint s lo hi = some v ↔ InGrammar s lo hi v) ↔ ∀ v, ¬ Accepts .minus s lo hi v := by
  constructor
  · intro h v hminus
    obtain ⟨sign, hne, d, j, htext, -⟩ := inGrammar_iff.mp ((h v).mp ((parseUint_eq_some_iff h0).mpr ⟨_, hminus⟩))
    obtain ⟨d', j', htext', -⟩ := hminus
    exact hne (htext.minus_iff.mp (htext'.minus_iff.mpr rfl))
  · intro h v
    rw [parseUint_eq_some_iff h0, inGrammar_iff]
    constructor
    · rintro ⟨sign, hsign⟩
      refine ⟨sign, ?_, hsign⟩
      rintro rfl
      exact h v hsign
    · rintro ⟨sign, -, hsign⟩
      exact ⟨sign, hsign⟩

theorem parseUint_grammar_iff_blank :
    (0 : UInt8) ∉ cstr " +2 K" ∧
      ∀ v, parseUint (cstr " +2 K") 1 4096 = some v ↔ InGrammar (cstr " +2 K") 1 4096 v := by
  refine ⟨by decide, (parseUint_grammar_iff (by decide) 1 4096).mpr ?_⟩
  rintro v ⟨d, j, htext, -⟩
  exact absurd (htext.minus_iff.mpr rfl) (by decide)

/-- A number with a minus sign that is taken for one. -/
theorem parseUint_accepts_minus :
    parseUint (cstr "-18446744073709551615") 1 10 = some 1 ∧
      ∀ v, ¬ InGrammar (cstr "-18446744073709551615") 1 10 v := by
  refine ⟨by decide +kernel, fun v h => ?_⟩
  obtain ⟨sign, hne, d, j, htext, -⟩ := inGrammar_iff.mp h
  exact hne (htext.minus_iff.mp (by decide))

end TftpHpa
