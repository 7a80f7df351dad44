import Mathlib.Tactic

/-! One write after the other to the entries of a map: the last one to an entry counts. -/

namespace TftpHpa.Writes

variable {κ ν : Type*} [DecidableEq κ]

/-- The map after some writes. -/
def writes (f : κ → ν) (ps : List (κ × ν)) : κ → ν := ps.foldl (fun f p => Function.update f p.1 p.2) f

variable {f : κ → ν} {ps : List (κ × ν)} {k : κ}

theorem writes_cons (f : κ → ν) (p : κ × ν) (ps : List (κ × ν)) :
    writes f (p :: ps) = writes (Function.update f p.1 p.2) ps := rfl

theorem writes_append (f : κ → ν) (ps qs : List (κ × ν)) : writes f (ps ++ qs) = writes (writes f ps) qs :=
  List.foldl_append

theorem writes_of_notMem (h : k ∉ ps.map Prod.fst) : writes f ps k = f k := by
  induction ps generalizing f with
  | nil => rfl
  | cons p ps ih =>
    rw [List.map_cons, List.mem_cons, not_or] at h
    rw [writes_cons, ih h.2, Function.update_of_ne h.1]

/-- An entry has what one of the writes has put there. -/
theorem mem_of_writes (h : k ∈ ps.map Prod.fst) : (k, writes f ps k) ∈ ps := by
  induction ps generalizing f with
  | nil => cases h
  | cons p ps ih =>
    rw [writes_cons]
    by_cases hlater : k ∈ ps.map Prod.fst
    · exact List.mem_cons_of_mem p (ih hlater)
    · obtain rfl := (List.mem_cons.mp h).resolve_right hlater
      rw [writes_of_notMem hlater, Function.update_self]
      exact List.mem_cons_self

/-- Every write is still there if and only if no two of them disagree. -/
theorem writes_kept_iff :
    (∀ p ∈ ps, writes f ps p.1 = p.2) ↔ ∀ p ∈ ps, ∀ q ∈ ps, p.1 = q.1 → p.2 = q.2 := by
  constructor
  · intro h p hp q hq heq
    rw [← h p hp, ← h q hq, heq]
  · intro h p hp
    exact h _ (mem_of_writes (List.mem_map_of_mem hp)) p hp rfl

end TftpHpa.Writes
