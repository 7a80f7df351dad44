import TftpHpa.Common.Text
import TftpHpa.Lib.Buffer

/-! `ascii_strncaseeq` and `ascii_strcaseeq` on strings in memory. What stands behind a NUL may
not be there at all; nothing stands for a read outside of what is there. -/

namespace TftpHpa

open Buffer (Holds)

/-- `ascii_strncaseeq`, with an offset for the two pointers. -/
def asciiStrncaseeqAt (m1 m2 : Bytes) : ℕ → ℕ → Option Bool
  | _, 0 => some true
  | i, n + 1 =>
    match m1[i]?, m2[i]? with
    | some c1, some c2 =>
      let cx := c1 ^^^ c2
      if cx ≠ 0 ∧ (cx ≠ 0x20 ∨ 122 - 97 < (c1 ||| cx) - 97) then some false
      else if c1 = 0 then some true
      else asciiStrncaseeqAt m1 m2 (i + 1) n
    | _, _ => none

/-- `ascii_strcaseeq`. -/
def asciiStrcaseeqAt (m1 m2 : Bytes) : Option Bool := asciiStrncaseeqAt m1 m2 0 uintmaxMax

/-- A string with its NUL: an object has at most `SIZE_MAX` bytes. -/
structure CString where
  bytes : Bytes
  nul_notMem : (0 : UInt8) ∉ bytes
  length_lt : bytes.length < uintmaxMax

/-- What is in memory, up to the NUL. -/
def CString.mem (s : CString) : Bytes := s.bytes ++ [0]

/-- The same character, or the two cases of one of the letters from A to Z. -/
def SameLetter (c1 c2 : UInt8) : Prop :=
  c1 = c2 ∨ (65 ≤ c1 ∧ c1 ≤ 90) ∧ c2 = c1 + 32 ∨ (65 ≤ c2 ∧ c2 ≤ 90) ∧ c1 = c2 + 32

theorem asciiTolower_eq (c : UInt8) : asciiTolower c = if 65 ≤ c ∧ c ≤ 90 then c + 32 else c :=
  forall_byte (P := fun c => asciiTolower c = if 65 ≤ c ∧ c ≤ 90 then c + 32 else c) (by decide +kernel) c

theorem asciiTolower_eq_iff {c1 c2 : UInt8} : asciiTolower c1 = asciiTolower c2 ↔ SameLetter c1 c2 := by
  rw [asciiTolower_eq, asciiTolower_eq, SameLetter]
  split_ifs <;> simp only [UInt8.le_iff_toNat_le, ← UInt8.toNat_inj, UInt8.toNat_add, UInt8.reduceToNat] at * <;> omega

/-! ### The loop -/

/-- The characters read are those of the strings and the NUL of the shorter one. -/
theorem asciiStrncaseeqAt_eq {m1 m2 s1 s2 : Bytes} {i : ℕ} (h1 : Holds 0 (m1.drop i) s1)
    (h2 : Holds 0 (m2.drop i) s2) (n : ℕ) : asciiStrncaseeqAt m1 m2 i n = some (asciiStrncaseeq s1 s2 n) := by
  induction n generalizing s1 s2 i with
  | zero => rfl
  | succ n ih =>
    have hread1 := h1.head?_eq
    have hread2 := h2.head?_eq
    rw [List.head?_drop] at hread1 hread2
    rw [asciiStrncaseeqAt, hread1, hread2, asciiStrncaseeq]
    dsimp only
    split_ifs with hdiffer h0
    · rfl
    · rfl
    · -- neither string ends here
      rw [differ_iff, not_not] at hdiffer
      have h0' : s2.headD 0 ≠ 0 := by
        rwa [ne_eq, ← asciiTolower_eq_zero, ← hdiffer, asciiTolower_eq_zero]
      obtain ⟨c1, s1, rfl, htail1⟩ := h1.exists_cons h0
      obtain ⟨c2, s2, rfl, htail2⟩ := h2.exists_cons h0'
      rw [List.tail_drop] at htail1 htail2
      exact ih htail1 htail2

/-- For any number of characters, up to and including the first NUL. -/
theorem asciiStrncaseeq_iff_take {s1 s2 : Bytes} (h1 : (0 : UInt8) ∉ s1) (h2 : (0 : UInt8) ∉ s2) (n : ℕ) :
    asciiStrncaseeq s1 s2 n = true ↔
      ((s1 ++ [0]).take n).map asciiTolower = ((s2 ++ [0]).take n).map asciiTolower := by
  induction n generalizing s1 s2 with
  | zero => simp [asciiStrncaseeq]
  | succ n ih =>
    rw [asciiStrncaseeq_succ]
    cases s1 with
    | nil =>
      cases s2 with
      | nil => simp
      | cons b s2 =>
        have hb : asciiTolower b ≠ 0 := fun h => h2 (by simp [asciiTolower_eq_zero.mp h])
        simp [show asciiTolower 0 = 0 from rfl, hb.symm]
    | cons a s1 =>
      rw [List.mem_cons, not_or] at h1
      cases s2 with
      | nil =>
        have ha : asciiTolower a ≠ 0 := fun h => h1.1 (asciiTolower_eq_zero.mp h).symm
        simp [show asciiTolower 0 = 0 from rfl, ha]
      | cons b s2 =>
        rw [List.mem_cons, not_or] at h2
        have hrest := ih h1.2 h2.2
        simp [Ne.symm h1.1, hrest]

theorem forall₂_sameLetter_iff {s1 s2 : Bytes} :
    List.Forall₂ SameLetter s1 s2 ↔ s1.map asciiTolower = s2.map asciiTolower := by
  rw [← List.forall₂_eq_eq_eq, List.forall₂_map_left_iff, List.forall₂_map_right_iff]
  simp only [asciiTolower_eq_iff]

theorem asciiStrncaseeqAt_mem (s1 s2 : CString) (r1 r2 : Bytes) (n : ℕ) :
    asciiStrncaseeqAt (s1.mem ++ r1) (s2.mem ++ r2) 0 n = some (asciiStrncaseeq s1.bytes s2.bytes n) := by
  have hholds (s : CString) (r : Bytes) : Holds 0 ((s.mem ++ r).drop 0) s.bytes := by
    rw [CString.mem, List.drop_zero, List.append_assoc, List.singleton_append]
    exact .mk_append s.nul_notMem r
  exact asciiStrncaseeqAt_eq (hholds s1 r1) (hholds s2 r2) n

theorem asciiStrcaseeqAt_iff (s1 s2 : CString) :
    asciiStrcaseeqAt s1.mem s2.mem = some true ↔ List.Forall₂ SameLetter s1.bytes s2.bytes := by
  have hrun := asciiStrncaseeqAt_mem s1 s2 [] [] uintmaxMax
  rw [List.append_nil, List.append_nil] at hrun
  rw [asciiStrcaseeqAt, hrun, Option.some_inj, forall₂_sameLetter_iff]
  exact asciiStrncaseeq_iff s1.nul_notMem s2.nul_notMem s1.length_lt

/-- `ascii_strncaseeq` compares the first `n` characters as if they were in lower case and reads
nothing behind a NUL; `ascii_strcaseeq` is an equivalence of strings that ignores the case of
the letters from A to Z and nothing else. -/
theorem ascii_strcaseeq_equivalence :
    (∀ (s1 s2 : CString) (r1 r2 : Bytes) (n : ℕ), asciiStrncaseeqAt (s1.mem ++ r1) (s2.mem ++ r2) 0 n =
      some (decide ((s1.mem.take n).map asciiTolower = (s2.mem.take n).map asciiTolower))) ∧
    Equivalence (fun s1 s2 : CString => asciiStrcaseeqAt s1.mem s2.mem = some true) ∧
    ∀ s1 s2 : CString, asciiStrcaseeqAt s1.mem s2.mem = some true ↔ List.Forall₂ SameLetter s1.bytes s2.bytes := by
  refine ⟨fun s1 s2 r1 r2 n => ?_, ?_, asciiStrcaseeqAt_iff⟩
  · rw [asciiStrncaseeqAt_mem, Option.some_inj, Bool.eq_iff_iff,
      asciiStrncaseeq_iff_take s1.nul_notMem s2.nul_notMem, decide_eq_true_iff]
    rfl
  · simp only [asciiStrcaseeqAt_iff, forall₂_sameLetter_iff]
    exact ⟨fun _ => rfl, Eq.symm, Eq.trans⟩

end TftpHpa
