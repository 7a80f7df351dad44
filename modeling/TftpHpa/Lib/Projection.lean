import TftpHpa.Lib.Transition

/-! Machines that are made of others. Where a step of the whole is a step of a part, or leaves the
part alone, what the part has done in a run is a run of its own. -/

namespace TftpHpa.Transition

variable {σ ε τ δ : Type*} {step : σ → ε → Option σ} {part : τ → δ → Option τ} {label : σ → ε → Option δ} {p : σ → τ}

/-- A step, or none. -/
def stepOpt (part : τ → δ → Option τ) (s : τ) : Option δ → Option τ
  | none => some s
  | some e => part s e

variable (step label) in
/-- What a part has done in a run; `label` is what a step of the whole is to it. -/
def labels : σ → List ε → List δ
  | _, [] => []
  | s, e :: es =>
    (label s e).toList ++
      match step s e with
      | some s' => labels s' es
      | none => []

theorem run_labels (hpart : ∀ s e s', step s e = some s' → stepOpt part (p s) (label s e) = some (p s')) {t : List ε}
    {s s' : σ} (hrun : run step s t = some s') : run part (p s) (labels step label s t) = some (p s') := by
  induction t generalizing s with
  | nil =>
    obtain rfl := Option.some.inj hrun
    rfl
  | cons e t ih =>
    obtain ⟨m, hm, hrest⟩ := Option.bind_eq_some_iff.mp hrun
    have hstep := hpart s e m hm
    rw [labels, hm, run_append]
    cases hl : label s e with
    | none =>
      rw [hl] at hstep
      obtain hp := Option.some.inj hstep
      rw [Option.toList_none, run_nil, Option.bind_some, hp]
      exact ih hrest
    | some l =>
      rw [hl] at hstep
      rw [Option.toList_some, run_cons, show part (p s) l = some (p m) from hstep, Option.bind_some, run_nil,
        Option.bind_some]
      exact ih hrest

theorem forall_mem_labels {P : δ → Prop} {t : List ε} (h : ∀ e ∈ t, ∀ s l, label s e = some l → P l) (s : σ) :
    ∀ l ∈ labels step label s t, P l := by
  induction t generalizing s with
  | nil => simp [labels]
  | cons e t ih =>
    intro l hl
    rcases List.mem_append.mp hl with hl | hl
    · exact h e List.mem_cons_self s l (Option.mem_toList.mp hl)
    · split at hl
      · next s' _ => exact ih (fun f hf => h f (List.mem_cons_of_mem e hf)) s' l hl
      · cases hl

end TftpHpa.Transition
