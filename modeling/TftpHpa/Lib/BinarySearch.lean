import Mathlib.Order.Basic
import Mathlib.Data.List.Pairwise
import Mathlib.Tactic

/-! Binary search in the front part of a list, where the elements increase: it finds the
element or the place where it would have to be. -/

namespace TftpHpa.BinarySearch

variable {α : Type*} [LinearOrder α]

/-- The search for `x` between the positions `l` and `h`. Nothing stands for a position outside
the list. -/
def find (xs : List α) (x : α) (l h : ℕ) : Option (Bool × ℕ) :=
  if l < h then
    let i := (l + h) >>> 1
    match xs[i]? with
    | none => none
    | some y =>
      if y < x then find xs x (i + 1) h
      else if y = x then some (true, i)
      else find xs x l i
  else some (false, l)
termination_by h - l
decreasing_by all_goals (simp only [Nat.shiftRight_one]; omega)

/-- What the search comes to: the place of `x`, or the one it separates the others at. -/
structure Located (ys : List α) (x : α) (r : Bool × ℕ) : Prop where
  le : r.2 ≤ ys.length
  found : r.1 = true → x ∈ ys
  missing : r.1 = false → (∀ y ∈ ys.take r.2, y < x) ∧ ∀ y ∈ ys.drop r.2, x < y

variable {xs ys : List α} {x a : α} {i n : ℕ}

/-- Around an element the others are smaller and larger. -/
theorem around (hsorted : ys.Pairwise (· < ·)) (ha : ys[i]? = some a) :
    (∀ y ∈ ys.take (i + 1), y ≤ a) ∧ ∀ y ∈ ys.drop i, a ≤ y := by
  obtain ⟨hi, rfl⟩ := List.getElem?_eq_some_iff.mp ha
  have hdrop : ys.drop i = ys[i] :: ys.drop (i + 1) := List.drop_eq_getElem_cons hi
  rw [← List.take_append_drop i ys, hdrop, List.pairwise_append, List.pairwise_cons] at hsorted
  obtain ⟨-, ⟨hafter, -⟩, hbefore⟩ := hsorted
  constructor
  · intro y hy
    rw [List.take_add_one, List.getElem?_eq_getElem hi, List.mem_append] at hy
    rcases hy with hy | hy
    · exact (hbefore y hy _ List.mem_cons_self).le
    · exact (List.mem_singleton.mp hy).le
  · intro y hy
    rw [hdrop] at hy
    rcases List.mem_cons.mp hy with rfl | hy
    · exact le_rfl
    · exact (hafter y hy).le

/-- The search between `l` and `h` is right if what lies outside is known to be smaller and
larger. -/
theorem find_located {l h : ℕ} (hn : n ≤ xs.length) (hsorted : (xs.take n).Pairwise (· < ·)) (hlh : l ≤ h)
    (hh : h ≤ n) (hlow : ∀ y ∈ (xs.take n).take l, y < x) (hhigh : ∀ y ∈ (xs.take n).drop h, x < y) :
    ∃ r, find xs x l h = some r ∧ Located (xs.take n) x r := by
  have hlen : (xs.take n).length = n := List.length_take_of_le hn
  rw [find]
  by_cases hlt : l < h
  · rw [if_pos hlt, Nat.shiftRight_one]
    have hi : (l + h) / 2 < n := by omega
    have hread : xs[(l + h) / 2]? = some xs[(l + h) / 2] := List.getElem?_eq_getElem (by omega)
    have htake : (xs.take n)[(l + h) / 2]? = some xs[(l + h) / 2] := by rw [List.getElem?_take_of_lt hi, hread]
    obtain ⟨hbefore, hafter⟩ := around hsorted htake
    simp only [hread]
    split_ifs with hless heq
    · exact find_located hn hsorted (by omega) hh (fun y hy => (hbefore y hy).trans_lt hless) hhigh
    · exact ⟨_, rfl, by dsimp only; omega, fun _ => heq ▸ List.mem_of_getElem? htake, fun h => by cases h⟩
    · have hgreater : x < xs[(l + h) / 2] := lt_of_le_of_ne (not_lt.mp hless) (Ne.symm heq)
      exact find_located hn hsorted (by omega) (by omega) hlow fun y hy => hgreater.trans_le (hafter y hy)
  · rw [if_neg hlt]
    obtain rfl : l = h := by omega
    exact ⟨_, rfl, by dsimp only; omega, (fun h => by cases h), fun _ => ⟨hlow, hhigh⟩⟩
termination_by h - l

/-- The search in the whole front part. -/
theorem find_zero_located (hn : n ≤ xs.length) (hsorted : (xs.take n).Pairwise (· < ·)) (x : α) :
    ∃ r, find xs x 0 n = some r ∧ Located (xs.take n) x r := by
  refine find_located hn hsorted (Nat.zero_le n) le_rfl (by simp) ?_
  rw [List.drop_eq_nil_of_le (List.length_take_le n xs)]
  simp

/-- The search finds what is there. -/
theorem Located.found_iff {r : Bool × ℕ} (h : Located ys x r) : r.1 = true ↔ x ∈ ys := by
  refine ⟨h.found, fun hx => ?_⟩
  by_contra hr
  obtain ⟨hlow, hhigh⟩ := h.missing (Bool.not_eq_true _ ▸ hr)
  rw [← List.take_append_drop r.2 ys, List.mem_append] at hx
  rcases hx with hx | hx
  · exact lt_irrefl x (hlow x hx)
  · exact lt_irrefl x (hhigh x hx)

/-- What is not there can be put where the search has ended. -/
theorem Located.pairwise_insert {r : Bool × ℕ} (h : Located ys x r) (hr : r.1 = false)
    (hsorted : ys.Pairwise (· < ·)) : (ys.take r.2 ++ x :: ys.drop r.2).Pairwise (· < ·) := by
  obtain ⟨hlow, hhigh⟩ := h.missing hr
  rw [← List.take_append_drop r.2 ys, List.pairwise_append] at hsorted
  obtain ⟨htake, hdrop, hcross⟩ := hsorted
  refine List.pairwise_append.mpr ⟨htake, List.pairwise_cons.mpr ⟨hhigh, hdrop⟩, fun y hy z hz => ?_⟩
  rcases List.mem_cons.mp hz with rfl | hz
  · exact hlow y hy
  · exact hcross y hy z hz

end TftpHpa.BinarySearch
