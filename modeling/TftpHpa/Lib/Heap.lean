import Mathlib.Data.List.ReduceOption
import Mathlib.Tactic

/-! Dynamic memory as far as freeing goes: the blocks that are allocated. To free a block that is
not allocated is an error. -/

namespace TftpHpa

structure Heap where
  next : ℕ := 0
  live : List ℕ := []
  nodup : live.Nodup := by simp
  lt_next : ∀ b ∈ live, b < next := by simp

namespace Heap

/-- A new block. -/
def alloc (h : Heap) : ℕ × Heap :=
  (h.next,
    { next := h.next + 1
      live := h.next :: h.live
      nodup := List.nodup_cons.mpr ⟨fun hb => (h.lt_next _ hb).false, h.nodup⟩
      lt_next := List.forall_mem_cons.mpr
        ⟨h.next.lt_succ_self, fun b hb => (h.lt_next b hb).trans h.next.lt_succ_self⟩ })

/-- Free a block, unless the pointer is null. -/
def free (h : Heap) : Option ℕ → Option Heap
  | none => some h
  | some b =>
    if b ∈ h.live then
      some
        { next := h.next
          live := h.live.erase b
          nodup := h.nodup.erase b
          lt_next := fun c hc => h.lt_next c (List.mem_of_mem_erase hc) }
    else none

/-- Free one after the other. -/
def freeAll (h : Heap) (ps : List (Option ℕ)) : Option Heap := ps.foldlM free h

variable {h h' : Heap} {b : ℕ} {ps : List (Option ℕ)}

theorem freeAll_none (h : Heap) (ps : List (Option ℕ)) : h.freeAll (none :: ps) = h.freeAll ps := rfl

theorem freeAll_some (h : Heap) (b : ℕ) (ps : List (Option ℕ)) :
    h.freeAll (some b :: ps) = (h.free (some b)).bind fun h => h.freeAll ps := rfl

theorem free_some (hb : b ∈ h.live) : ∃ h', h.free (some b) = some h' ∧ h'.live = h.live.erase b :=
  ⟨_, if_pos hb, rfl⟩

/-- Blocks can be freed if they are allocated and none of them comes twice. -/
theorem freeAll_isSome_iff (h : Heap) (ps : List (Option ℕ)) :
    (h.freeAll ps).isSome ↔ ps.reduceOption.Nodup ∧ ∀ b ∈ ps.reduceOption, b ∈ h.live := by
  induction ps generalizing h with
  | nil => simp [freeAll]
  | cons p ps ih =>
    cases p with
    | none => rw [freeAll_none, ih, List.reduceOption_cons_of_none]
    | some b =>
      rw [freeAll_some, List.reduceOption_cons_of_some, List.nodup_cons, List.forall_mem_cons]
      by_cases hb : b ∈ h.live
      · obtain ⟨h', hfree, hlive⟩ := free_some hb
        rw [hfree, Option.bind_some, ih, hlive]
        simp only [h.nodup.mem_erase_iff]
        grind
      · rw [free, if_neg hb]
        simp [hb]

/-- What stays allocated. -/
theorem mem_live_of_freeAll (hfree : h.freeAll ps = some h') :
    b ∈ h'.live ↔ b ∈ h.live ∧ b ∉ ps.reduceOption := by
  induction ps generalizing h with
  | nil =>
    cases hfree
    simp
  | cons p ps ih =>
    cases p with
    | none => rw [List.reduceOption_cons_of_none]; exact ih hfree
    | some c =>
      rw [freeAll_some] at hfree
      obtain ⟨m, hm, hps⟩ := Option.bind_eq_some_iff.mp hfree
      rw [free] at hm
      split_ifs at hm
      cases hm
      rw [ih hps, List.reduceOption_cons_of_some, List.mem_cons, h.nodup.mem_erase_iff]
      tauto

end Heap

end TftpHpa
