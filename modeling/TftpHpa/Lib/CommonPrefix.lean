import Mathlib.Data.List.Infix
import Mathlib.Tactic

/-! The longest common beginning of two lists. -/

namespace TftpHpa

variable {α : Type*} [DecidableEq α]

def commonPrefix : List α → List α → List α
  | a :: as, b :: bs => if a = b then a :: commonPrefix as bs else []
  | _, _ => []

@[simp] theorem commonPrefix_nil_left (bs : List α) : commonPrefix [] bs = [] := by
  cases bs <;> rfl

@[simp] theorem commonPrefix_nil_right (as : List α) : commonPrefix as [] = [] := by
  cases as <;> rfl

theorem commonPrefix_left (as bs : List α) : commonPrefix as bs <+: as := by
  induction as generalizing bs with
  | nil => simp
  | cons a as ih =>
    cases bs with
    | nil => simp
    | cons b bs =>
      rw [commonPrefix]
      split_ifs
      · exact (List.prefix_cons_inj a).mpr (ih bs)
      · exact List.nil_prefix

theorem commonPrefix_right (as bs : List α) : commonPrefix as bs <+: bs := by
  induction as generalizing bs with
  | nil => simp
  | cons a as ih =>
    cases bs with
    | nil => simp
    | cons b bs =>
      rw [commonPrefix]
      split_ifs with h
      · subst h
        exact (List.prefix_cons_inj a).mpr (ih bs)
      · exact List.nil_prefix

theorem length_le_commonPrefix {pre as bs : List α} (ha : pre <+: as) (hb : pre <+: bs) :
    pre.length ≤ (commonPrefix as bs).length := by
  induction pre generalizing as bs with
  | nil => exact Nat.zero_le _
  | cons c pre ih =>
    obtain ⟨as, rfl⟩ := ha
    obtain ⟨bs, rfl⟩ := hb
    have hle := ih (List.prefix_append pre as) (List.prefix_append pre bs)
    rw [List.cons_append, List.cons_append, commonPrefix, if_pos rfl, List.length_cons, List.length_cons]
    omega

theorem commonPrefix_append_append (bs as cs : List α) :
    commonPrefix (bs ++ as) (bs ++ cs) = bs ++ commonPrefix as cs := by
  induction bs with
  | nil => rfl
  | cons b bs ih => rw [List.cons_append, List.cons_append, commonPrefix, if_pos rfl, ih, List.cons_append]

theorem commonPrefix_append_left (bs as : List α) : commonPrefix (bs ++ as) bs = bs := by
  have h := commonPrefix_append_append bs as []
  rwa [List.append_nil, commonPrefix_nil_right, List.append_nil] at h

theorem commonPrefix_append_of_not_prefix {as bs : List α} (h : ¬ bs <+: as) (cs : List α) :
    commonPrefix as (bs ++ cs) = commonPrefix as bs := by
  induction bs generalizing as with
  | nil => exact absurd List.nil_prefix h
  | cons b bs ih =>
    cases as with
    | nil => simp
    | cons a as =>
      rw [List.cons_append, commonPrefix, commonPrefix]
      split_ifs with hab
      · subst hab
        rw [ih fun hpre => h ((List.prefix_cons_inj a).mpr hpre)]
      · rfl

end TftpHpa
