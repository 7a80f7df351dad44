import TftpHpa.Lib.Transition

/-! Cells that are locked for reading or for writing. Processes take locks on cells, a lock is
granted when it clashes with none that another process has, and what is in a cell is changed by
the process that holds it for writing. -/

namespace TftpHpa.Locking

/-- A lock on a cell. -/
structure Hold (κ : Type*) where
  cell : κ
  write : Bool

/-- Whether two locks exclude each other. -/
def Hold.clashes {κ : Type*} [DecidableEq κ] (h h' : Hold κ) : Bool := h.cell = h'.cell && (h.write || h'.write)

theorem Hold.clashes_comm {κ : Type*} [DecidableEq κ] (h h' : Hold κ) : h.clashes h' = h'.clashes h := by
  rw [clashes, clashes, Bool.or_comm, decide_eq_decide.mpr (eq_comm (a := h.cell))]

variable {σ ε κ α : Type*} [DecidableEq κ]

/-- `holds` are the locks of the processes, `value` is what is in the cells there are, and `actor`
is the process that makes a step. -/
structure Disciplined (step : σ → ε → Option σ) (holds : σ → ℕ → Option (Hold κ)) (value : σ → κ → Option α)
    (actor : σ → ε → ℕ) : Prop where
  others {s s' : σ} {l : ε} {j : ℕ} : step s l = some s' → j ≠ actor s l → holds s' j = holds s j
  acquires {s s' : σ} {l : ε} {h : Hold κ} : step s l = some s' → holds s' (actor s l) = some h →
    holds s (actor s l) = some h ∨ ∀ j h', j ≠ actor s l → holds s j = some h' → h.clashes h' = false
  changes {s s' : σ} {l : ε} {c : κ} {v : α} : step s l = some s' → value s c = some v → value s' c ≠ some v →
    holds s (actor s l) = some ⟨c, true⟩

/-- No two processes have locks that clash. -/
def Exclusive (holds : σ → ℕ → Option (Hold κ)) (s : σ) : Prop :=
  ∀ i j h h', i ≠ j → holds s i = some h → holds s j = some h' → h.clashes h' = false

variable {step : σ → ε → Option σ} {holds : σ → ℕ → Option (Hold κ)} {value : σ → κ → Option α} {actor : σ → ε → ℕ}
  {s s' : σ} {l : ε}

namespace Exclusive

theorem of_step (h : Exclusive holds s) (hd : Disciplined step holds value actor) (hs : step s l = some s') :
    Exclusive holds s' := by
  -- the lock of the process that moves, against that of another
  have hmoves : ∀ j g g', j ≠ actor s l → holds s' (actor s l) = some g → holds s' j = some g' →
      g.clashes g' = false := by
    intro j g g' hne hg hg'
    rw [hd.others hs hne] at hg'
    rcases hd.acquires hs hg with hold | hfree
    · exact h _ j g g' hne.symm hold hg'
    · exact hfree j g' hne hg'
  intro i j g g' hij hg hg'
  by_cases hi : i = actor s l
  · subst hi
    exact hmoves j g g' hij.symm hg hg'
  · by_cases hj : j = actor s l
    · subst hj
      rw [Hold.clashes_comm]
      exact hmoves i g' g hi hg' hg
    · rw [hd.others hs hi] at hg
      rw [hd.others hs hj] at hg'
      exact h i j g g' hij hg hg'

/-- Under a lock nobody else changes the cell, and who has it for reading does not either. -/
theorem value_eq (h : Exclusive holds s) (hd : Disciplined step holds value actor)
    (hs : step s l = some s') {i : ℕ} {c : κ} {write : Bool} (hi : holds s i = some ⟨c, write⟩)
    (hne : i ≠ actor s l ∨ write = false) {v : α} (hv : value s c = some v) : value s' c = some v := by
  by_contra hv'
  have hactor := hd.changes hs hv hv'
  by_cases heq : i = actor s l
  · subst heq
    cases hi.symm.trans hactor
    simp at hne
  · have hclash := h i _ _ _ heq hi hactor
    simp [Hold.clashes] at hclash

end Exclusive

end TftpHpa.Locking
