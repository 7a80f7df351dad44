import Mathlib.Data.List.Basic
import Mathlib.Tactic

/-! Buffers of a fixed size that are filled from the front, one element after the other, and
strings in them that end in a terminator `z`. -/

namespace TftpHpa.Buffer

variable {α : Type*}

/-- Assign to an element. Nothing stands for an offset outside the buffer. -/
def store (buf : List α) (i : ℕ) (a : α) : Option (List α) := if i < buf.length then some (buf.set i a) else none

/-- Copy to an offset. -/
def copy (buf : List α) (i : ℕ) (xs : List α) : Option (List α) :=
  if i + xs.length ≤ buf.length then some (buf.take i ++ xs ++ buf.drop (i + xs.length)) else none

/-- Make a buffer larger: what is in it stays, and what is new is arbitrary. -/
def grow (fresh : ℕ → α) (buf : List α) (size : ℕ) : List α :=
  buf ++ (List.range (size - buf.length)).map fresh

theorem store_append (written rest : List α) (r a : α) :
    store (written ++ r :: rest) written.length a = some (written ++ a :: rest) := by
  rw [store, if_pos (by simp), List.set_append_right _ _ le_rfl, Nat.sub_self, List.set_cons_zero]

theorem copy_append (written : List α) {rest xs : List α} (h : xs.length ≤ rest.length) :
    copy (written ++ rest) written.length xs = some (written ++ xs ++ rest.drop xs.length) := by
  rw [copy, if_pos (by rw [List.length_append]; omega), List.take_left, ← List.drop_drop, List.drop_left]

theorem length_grow (fresh : ℕ → α) (buf : List α) (size : ℕ) :
    (grow fresh buf size).length = max buf.length size := by
  rw [grow, List.length_append, List.length_map, List.length_range]
  omega

/-- The string at the front, up to the first terminator. Nothing stands for one that does not end
in the buffer. -/
def string [DecidableEq α] (z : α) (buf : List α) : Option (List α) :=
  if z ∈ buf then some (buf.takeWhile (· ≠ z)) else none

/-- The string `s` stands at the front, with its terminator. -/
structure Holds (z : α) (buf s : List α) : Prop where
  notMem : z ∉ s
  exists_eq : ∃ rest, buf = s ++ z :: rest

namespace Holds

variable {z a : α} {buf s : List α}

theorem mk_append (h : z ∉ s) (rest : List α) : Holds z (s ++ z :: rest) s := ⟨h, rest, rfl⟩

theorem eq_cons (h : Holds z buf []) : ∃ rest, buf = z :: rest := h.exists_eq

/-- A pointer to the next character. -/
theorem tail (h : Holds z buf (a :: s)) : a ≠ z ∧ ∃ buf', buf = a :: buf' ∧ Holds z buf' s := by
  obtain ⟨rest, rfl⟩ := h.exists_eq
  have hmem := h.notMem
  rw [List.mem_cons, not_or] at hmem
  exact ⟨Ne.symm hmem.1, _, rfl, mk_append hmem.2 rest⟩

theorem head?_eq (h : Holds z buf s) : buf.head? = some (s.headD z) := by
  obtain ⟨rest, rfl⟩ := h.exists_eq
  cases s <;> rfl

/-- Before the terminator there is a next character. -/
theorem exists_cons (h : Holds z buf s) (hne : s.headD z ≠ z) : ∃ a t, s = a :: t ∧ Holds z buf.tail t := by
  cases s with
  | nil => exact absurd rfl hne
  | cons a t =>
    obtain ⟨-, buf, rfl, htail⟩ := h.tail
    exact ⟨a, t, rfl, htail⟩

theorem length_lt (h : Holds z buf s) : s.length < buf.length := by
  obtain ⟨rest, rfl⟩ := h.exists_eq
  simp

theorem string_eq [DecidableEq α] (h : Holds z buf s) : string z buf = some s := by
  obtain ⟨rest, rfl⟩ := h.exists_eq
  rw [string, if_pos (by simp), List.takeWhile_append_of_pos]
  · simp
  · intro a ha
    exact decide_eq_true fun heq => h.notMem (heq ▸ ha)

end Holds

end TftpHpa.Buffer
