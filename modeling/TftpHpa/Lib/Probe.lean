import Mathlib.Data.List.Iterate
import Mathlib.Dynamics.PeriodicPts.Defs
import Mathlib.Tactic

/-! Probing around a cycle: from `start` the places are tried one after the other, each
given by the one before it, until one is free or the next one would be `start` again. The
places tried are different ones, and a failure means that the whole cycle has been tried. -/

namespace TftpHpa.Probe

open Function

variable {α : Type*} (next : α → α) (start : α) (free : ℕ → α → Bool)

/-- The loop, with the number of the attempt for `free` to depend on. It gives up after
`rounds` attempts with nothing. -/
def probe [DecidableEq α] : ℕ → α → List α → Option (List α × Bool)
  | 0, _, _ => none
  | rounds + 1, place, tried =>
    if free tried.length place then some (tried ++ [place], true)
    else if next place ≠ start then probe rounds (next place) (tried ++ [place])
    else some (tried ++ [place], false)

/-- What the loop comes to. -/
inductive Probed : List α → Bool → Prop
  | found {k : ℕ} (hk : k < minimalPeriod next start) (hfree : free k (next^[k] start) = true)
    (hbefore : ∀ i < k, free i (next^[i] start) = false) : Probed (List.iterate next start (k + 1)) true
  | exhausted (hall : ∀ i < minimalPeriod next start, free i (next^[i] start) = false) :
    Probed (List.iterate next start (minimalPeriod next start)) false

variable {next start free}

theorem iterate_succ_concat (next : α → α) (start : α) (k : ℕ) :
    List.iterate next start (k + 1) = List.iterate next start k ++ [next^[k] start] := by
  rw [List.iterate_add]
  rfl

theorem Probed.nodup {tried : List α} {found : Bool} (h : Probed next start free tried found) : tried.Nodup := by
  have hnodup {k : ℕ} (hk : k ≤ minimalPeriod next start) : (List.iterate next start k).Nodup := by
    rw [← List.range_map_iterate]
    refine (List.nodup_map_iff_inj_on List.nodup_range).mpr fun i hi j hj heq => ?_
    rw [List.mem_range] at hi hj
    exact iterate_injOn_Iio_minimalPeriod (hi.trans_le hk) (hj.trans_le hk) heq
  cases h with
  | found hk => exact hnodup hk
  | exhausted => exact hnodup le_rfl

/-- After `k` failed attempts at least one place of the cycle is left. -/
theorem probe_from [DecidableEq α] {k : ℕ} (hk : k < minimalPeriod next start)
    (hbefore : ∀ i < k, free i (next^[i] start) = false) :
    ∃ tried found, Probed next start free tried found ∧ ∀ rounds, minimalPeriod next start - k ≤ rounds →
      probe next start free rounds (next^[k] start) (List.iterate next start k) = some (tried, found) := by
  have hround {rounds : ℕ} (hr : minimalPeriod next start - k ≤ rounds) : ∃ r, rounds = r + 1 :=
    Nat.exists_eq_succ_of_ne_zero (by omega)
  by_cases hfree : free k (next^[k] start) = true
  · refine ⟨_, _, .found hk hfree hbefore, fun rounds hr => ?_⟩
    obtain ⟨rounds, rfl⟩ := hround hr
    rw [probe, List.length_iterate, if_pos hfree, iterate_succ_concat]
  rw [Bool.not_eq_true] at hfree
  have hbefore' : ∀ i < k + 1, free i (next^[i] start) = false := by
    intro i hi
    rcases Nat.lt_succ_iff_lt_or_eq.mp hi with h | rfl
    · exact hbefore i h
    · exact hfree
  have hnext : next (next^[k] start) = next^[k + 1] start := (iterate_succ_apply' next k start).symm
  by_cases hlast : k + 1 = minimalPeriod next start
  · have hback : next^[k + 1] start = start := by rw [hlast, iterate_minimalPeriod]
    refine ⟨_, _, .exhausted (hlast ▸ hbefore'), fun rounds hr => ?_⟩
    obtain ⟨rounds, rfl⟩ := hround hr
    rw [probe, List.length_iterate, hfree, if_neg Bool.false_ne_true, hnext, if_neg (not_not.mpr hback),
      ← iterate_succ_concat, hlast]
  · have hne : next^[k + 1] start ≠ start :=
      not_isPeriodicPt_of_pos_of_lt_minimalPeriod k.succ_ne_zero (by omega)
    obtain ⟨tried, found, hp, hrun⟩ := probe_from (show k + 1 < minimalPeriod next start by omega) hbefore'
    refine ⟨tried, found, hp, fun rounds hr => ?_⟩
    obtain ⟨rounds, rfl⟩ := hround hr
    rw [probe, List.length_iterate, hfree, if_neg Bool.false_ne_true, hnext, if_pos hne, ← iterate_succ_concat]
    exact hrun rounds (by omega)
termination_by minimalPeriod next start - k

/-- The loop ends after as many attempts as the cycle has places. -/
theorem probe_probed [DecidableEq α] (free : ℕ → α → Bool) (h : 0 < minimalPeriod next start) :
    ∃ tried found, Probed next start free tried found ∧
      ∀ rounds, minimalPeriod next start ≤ rounds → probe next start free rounds start [] = some (tried, found) :=
  probe_from h fun i hi => absurd hi (Nat.not_lt_zero i)

/-- A cycle whose places are numbered around a ring of `n`. -/
theorem minimalPeriod_of_ring {pos : α → ℕ} (hinj : Injective pos) {base off n : ℕ}
    (hpos : ∀ k, pos (next^[k] start) = base + (off + k) % n) : minimalPeriod next start = n := by
  refine Nat.dvd_right_iff_eq.mp fun k => ?_
  have hzero : pos start = base + (off + 0) % n := hpos 0
  rw [← isPeriodicPt_iff_minimalPeriod_dvd, IsPeriodicPt, IsFixedPt, ← hinj.eq_iff, hpos k, hzero,
    Nat.add_left_cancel_iff, ← Nat.modEq_zero_iff_dvd]
  exact ⟨Nat.ModEq.add_left_cancel' off, Nat.ModEq.add_left off⟩

end TftpHpa.Probe
