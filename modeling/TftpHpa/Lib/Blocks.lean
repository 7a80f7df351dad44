import Mathlib.Tactic

/-! A list cut into blocks of a fixed size. Every block is full except the last
one, which is strictly shorter and empty when the size divides the length: the
short block marks the end. Blocks are counted from zero. -/

namespace TftpHpa.Blocks

variable {α : Type*} {n : ℕ}

/-- Block `i` of `xs`. -/
def block (n : ℕ) (xs : List α) (i : ℕ) : List α := (xs.drop (i * n)).take n

/-- The number of blocks: all full ones and the short last one. -/
def blockCount (n : ℕ) (xs : List α) : ℕ := xs.length / n + 1

def blocks (n : ℕ) (xs : List α) : List (List α) := (List.range (blockCount n xs)).map (block n xs)

theorem blockCount_pos (n : ℕ) (xs : List α) : 0 < blockCount n xs := Nat.succ_pos _

@[simp] theorem blocks_length (n : ℕ) (xs : List α) : (blocks n xs).length = blockCount n xs := by
  simp [blocks]

theorem map_block_prefix (n : ℕ) (xs : List α) {i : ℕ} (h : i ≤ blockCount n xs) :
    (List.range i).map (block n xs) <+: blocks n xs := by
  have hr : List.range i = (List.range (blockCount n xs)).take i := by rw [List.take_range, min_eq_left h]
  rw [hr, blocks]
  exact (List.take_prefix _ _).map _

theorem block_length (n : ℕ) (xs : List α) (i : ℕ) :
    (block n xs i).length = min n (xs.length - i * n) := by
  simp [block]

theorem block_length_le (n : ℕ) (xs : List α) (i : ℕ) : (block n xs i).length ≤ n := by
  rw [block_length]
  exact min_le_left _ _

/-- A block before the last is full. -/
theorem block_length_of_lt (xs : List α) {i : ℕ} (h : i + 1 < blockCount n xs) :
    (block n xs i).length = n := by
  have hle : (i + 1) * n ≤ xs.length := by
    rw [← Nat.le_div_iff_mul_le (Nat.pos_of_ne_zero (by rintro rfl; simp [blockCount] at h))]
    simp only [blockCount] at h
    omega
  rw [block_length, min_eq_left]
  rw [Nat.add_mul, one_mul] at hle
  omega

/-- The last block is short. -/
theorem block_length_last (hn : 0 < n) (xs : List α) {i : ℕ} (h : i + 1 = blockCount n xs) :
    (block n xs i).length = xs.length % n := by
  have hi : i = xs.length / n := by simp only [blockCount] at h; omega
  have hdm := Nat.div_add_mod' xs.length n
  have hlt := Nat.mod_lt xs.length hn
  rw [block_length, hi]
  omega

theorem block_short_iff (hn : 0 < n) (xs : List α) {i : ℕ} (hi : i < blockCount n xs) :
    (block n xs i).length ≠ n ↔ i + 1 = blockCount n xs := by
  constructor
  · intro h
    by_contra hne
    exact h (block_length_of_lt xs (by omega))
  · intro h
    rw [block_length_last hn xs h]
    exact (Nat.mod_lt _ hn).ne

theorem take_succ_mul (n : ℕ) (xs : List α) (i : ℕ) :
    xs.take ((i + 1) * n) = xs.take (i * n) ++ block n xs i := by
  rw [block, Nat.add_mul, one_mul, List.take_add]

/-- The first `i` blocks make up the first `i * n` elements. -/
theorem flatten_range (n : ℕ) (xs : List α) (i : ℕ) :
    ((List.range i).map (block n xs)).flatten = xs.take (i * n) := by
  induction i with
  | zero => simp
  | succ i ih => rw [List.range_succ, List.map_append, List.flatten_append, ih, take_succ_mul]; simp

theorem length_lt_blockCount_mul (hn : 0 < n) (xs : List α) : xs.length < blockCount n xs * n := by
  rw [blockCount, Nat.add_mul, one_mul]
  have := Nat.div_add_mod' xs.length n
  have := Nat.mod_lt xs.length hn
  omega

@[simp] theorem flatten_blocks (hn : 0 < n) (xs : List α) : (blocks n xs).flatten = xs := by
  rw [blocks, flatten_range, List.take_of_length_le (length_lt_blockCount_mul hn xs).le]

/-- The total length of the first `i` blocks. -/
theorem sum_block_length (n : ℕ) (xs : List α) (i : ℕ) :
    (((List.range i).map (block n xs)).map List.length).sum = min (i * n) xs.length := by
  rw [← List.length_flatten, flatten_range, List.length_take]

/-- The blocks themselves can be cut into groups. -/
theorem block_blocks (n w : ℕ) (xs : List α) (j : ℕ) : block w (blocks n xs) j =
    (List.range (min w (blockCount n xs - j * w))).map fun i => block n xs (j * w + i) := by
  refine List.ext_getElem (by simp [block]) fun i h₁ h₂ => ?_
  simp only [block, blocks, List.getElem_take, List.getElem_drop, List.getElem_map, List.getElem_range]

theorem block_drop (n : ℕ) (xs : List α) (i : ℕ) : block n (xs.drop n) i = block n xs (i + 1) := by
  rw [block, block, List.drop_drop, Nat.add_mul, one_mul, Nat.add_comm]

end TftpHpa.Blocks
