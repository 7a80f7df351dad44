import Mathlib.Tactic

/-! Partial step functions and their runs. A machine is a function that, given a
state and a label, either refuses the label or returns the next state; the labels
carry everything an observer sees. A trace is the list of labels of a run. The
invariant rules below are the only inductions over runs that the rest of the
development needs. -/

namespace TftpHpa.Transition

variable {σ ε : Type*} {step : σ → ε → Option σ}

/-- The state after a trace, when every step of it is enabled. -/
def run (step : σ → ε → Option σ) : σ → List ε → Option σ
  | s, [] => some s
  | s, e :: es => (step s e).bind fun s' => run step s' es

@[simp] theorem run_nil (s : σ) : run step s [] = some s := rfl

@[simp] theorem run_cons (s : σ) (e : ε) (es : List ε) :
    run step s (e :: es) = (step s e).bind fun s' => run step s' es := rfl

theorem run_append (s : σ) (es fs : List ε) :
    run step s (es ++ fs) = (run step s es).bind fun s' => run step s' fs := by
  induction es generalizing s with
  | nil => simp
  | cons e es ih =>
    simp only [List.cons_append, run_cons, Option.bind_assoc]
    exact congrArg _ (funext ih)

theorem run_concat (s : σ) (es : List ε) (e : ε) :
    run step s (es ++ [e]) = (run step s es).bind fun s' => step s' e := by
  rw [run_append]
  congr 1
  funext s'
  simp

theorem run_concat_eq_some {s s' : σ} {es : List ε} {e : ε} :
    run step s (es ++ [e]) = some s' ↔ ∃ m, run step s es = some m ∧ step m e = some s' := by
  rw [run_concat, Option.bind_eq_some_iff]

theorem run_append_eq_some {s s' : σ} {es fs : List ε} :
    run step s (es ++ fs) = some s' ↔ ∃ m, run step s es = some m ∧ run step m fs = some s' := by
  rw [run_append, Option.bind_eq_some_iff]

/-- What holds of the empty trace and is kept when a trace grows by one enabled
step holds of every trace, together with the state it leads to. -/
theorem run_invariant {s₀ : σ} (I : List ε → σ → Prop) (h₀ : I [] s₀)
    (hstep : ∀ t s e s', I t s → step s e = some s' → I (t ++ [e]) s') :
    ∀ {t : List ε} {s : σ}, run step s₀ t = some s → I t s := by
  intro t
  induction t using List.reverseRecOn with
  | nil =>
    intro s h
    simp only [run_nil, Option.some.injEq] at h
    exact h ▸ h₀
  | append_singleton t e ih =>
    intro s h
    obtain ⟨m, hm, he⟩ := run_concat_eq_some.mp h
    exact hstep t m e s (ih hm) he

/-- Every step of a trace meets a condition in the state it is taken from. -/
def Along (step : σ → ε → Option σ) (C : σ → ε → Prop) : σ → List ε → Prop
  | _, [] => True
  | s, e :: es => C s e ∧ ∀ s', step s e = some s' → Along step C s' es

theorem Along.cons {C : σ → ε → Prop} {s s' : σ} {e : ε} {es : List ε} (hC : C s e) (he : step s e = some s')
    (h : Along step C s' es) : Along step C s (e :: es) := by
  refine ⟨hC, fun s'' hs'' => ?_⟩
  obtain rfl := Option.some.inj (he.symm.trans hs'')
  exact h

theorem Along.of_forall {C : σ → ε → Prop} {s : σ} {es : List ε} (h : ∀ e ∈ es, ∀ s, C s e) :
    Along step C s es := by
  induction es generalizing s with
  | nil => trivial
  | cons e es ih =>
    exact ⟨h e List.mem_cons_self s, fun s' _ => ih fun f hf => h f (List.mem_cons_of_mem e hf)⟩

theorem along_append {C : σ → ε → Prop} {s : σ} {es fs : List ε} :
    Along step C s (es ++ fs) ↔ Along step C s es ∧ ∀ m, run step s es = some m → Along step C m fs := by
  induction es generalizing s with
  | nil => simp [Along]
  | cons e es ih =>
    simp only [List.cons_append, Along, ih, run_cons, Option.bind_eq_some_iff]
    constructor
    · rintro ⟨hC, h⟩
      exact ⟨⟨hC, fun s' hs' => (h s' hs').1⟩, fun m ⟨s', hs', hm⟩ => (h s' hs').2 m hm⟩
    · rintro ⟨⟨hC, h⟩, hm⟩
      exact ⟨hC, fun s' hs' => ⟨h s' hs', fun m hr => hm m ⟨s', hs', hr⟩⟩⟩

/-- The invariant rule for runs whose steps meet a condition. -/
theorem run_invariant_along {C : σ → ε → Prop} (I : List ε → σ → Prop)
    (hstep : ∀ t s e s', I t s → C s e → step s e = some s' → I (t ++ [e]) s') {t₀ t : List ε} {s₀ s : σ}
    (h₀ : I t₀ s₀) (hC : Along step C s₀ t) (hrun : run step s₀ t = some s) : I (t₀ ++ t) s := by
  induction t generalizing t₀ s₀ with
  | nil =>
    rw [run_nil, Option.some.injEq] at hrun
    rw [List.append_nil, ← hrun]
    exact h₀
  | cons e t ih =>
    obtain ⟨m, hm, hrest⟩ := Option.bind_eq_some_iff.mp hrun
    have h₁ := ih (hstep t₀ s₀ e m h₀ hC.1 hm) (hC.2 m hm) hrest
    rwa [List.append_assoc, List.singleton_append] at h₁

/-- What an invariant says about the labels of a run. -/
theorem run_forall {I : σ → Prop} {C Q : ε → Prop}
    (hstep : ∀ s e s', I s → C e → step s e = some s' → I s' ∧ Q e) {t : List ε} {s s' : σ} (h : I s)
    (hC : ∀ e ∈ t, C e) (hrun : run step s t = some s') : ∀ e ∈ t, Q e := by
  induction t generalizing s with
  | nil => simp
  | cons e t ih =>
    obtain ⟨m, hm, hrest⟩ := Option.bind_eq_some_iff.mp hrun
    obtain ⟨hI, hQ⟩ := hstep s e m h (hC e List.mem_cons_self) hm
    exact List.forall_mem_cons.mpr ⟨hQ, ih hI (fun f hf => hC f (List.mem_cons_of_mem e hf)) hrest⟩

/-- A potential that every step of one kind lowers, and every other step raises by at
most `c`, bounds the number of steps of that kind. -/
theorem run_potential {C : σ → ε → Prop} {I : σ → Prop} (p : σ → ℕ) (own : ε → Bool) (c : ℕ)
    (hI : ∀ s e s', I s → C s e → step s e = some s' → I s')
    (hown : ∀ s e s', I s → C s e → step s e = some s' → own e = true → p s' < p s)
    (hother : ∀ s e s', I s → C s e → step s e = some s' → own e = false → p s' ≤ p s + c) {t : List ε}
    {s s' : σ} (h : I s) (hC : Along step C s t) (hrun : run step s t = some s') :
    t.countP own + p s' ≤ p s + c * t.countP (fun e => !own e) := by
  induction t generalizing s with
  | nil =>
    obtain rfl := Option.some.inj hrun
    simp
  | cons e t ih =>
    obtain ⟨m, hm, hrest⟩ := Option.bind_eq_some_iff.mp hrun
    have hle := ih (hI s e m h hC.1 hm) (hC.2 m hm) hrest
    cases he : own e with
    | true =>
      have hlt := hown s e m h hC.1 hm he
      simp only [List.countP_cons, he, Bool.not_true, if_true, Bool.false_eq_true, if_false, Nat.add_zero]
      omega
    | false =>
      have hup := hother s e m h hC.1 hm he
      simp only [List.countP_cons, he, Bool.not_false, if_true, Bool.false_eq_true, if_false, Nat.mul_add]
      omega

/-- Credit that steps of one kind use up and only steps of another kind give, each at most `c`. -/
theorem run_budget {I : σ → Prop} (p : σ → ℕ) (own gives : ε → Bool) (c : ℕ)
    (hstep : ∀ s e s', I s → step s e = some s' → I s' ∧ (own e).toNat + p s' ≤ p s + (gives e).toNat * c)
    {t : List ε} {s s' : σ} (h : I s) (hrun : run step s t = some s') :
    t.countP own + p s' ≤ p s + t.countP gives * c := by
  induction t generalizing s with
  | nil =>
    obtain rfl := Option.some.inj hrun
    simp
  | cons e t ih =>
    obtain ⟨m, hm, hrest⟩ := Option.bind_eq_some_iff.mp hrun
    obtain ⟨hI, hcredit⟩ := hstep s e m h hm
    have hle := ih hI hrest
    have hcount : ∀ f : ε → Bool, (e :: t).countP f = t.countP f + (f e).toNat := fun f => by
      rw [List.countP_cons]
      cases f e <;> rfl
    rw [hcount, hcount, Nat.add_mul]
    omega

/-- Credit that is given one by one. -/
theorem run_credit {I : σ → Prop} (p : σ → ℕ) (own gives : ε → Bool)
    (hstep : ∀ s e s', I s → step s e = some s' → I s' ∧ (own e).toNat + p s' ≤ p s + (gives e).toNat) {t : List ε}
    {s s' : σ} (h : I s) (hrun : run step s t = some s') : t.countP own + p s' ≤ p s + t.countP gives := by
  have hle := run_budget p own gives 1 (by simpa using hstep) h hrun
  omega

/-- A state is reachable when some trace of allowed labels leads to it. -/
def Reaches (step : σ → ε → Option σ) (P : ε → Prop) (s s' : σ) : Prop :=
  ∃ es, (∀ e ∈ es, P e) ∧ run step s es = some s'

theorem Reaches.refl {P : ε → Prop} (s : σ) : Reaches step P s s :=
  ⟨[], by simp, rfl⟩

theorem Reaches.single {P : ε → Prop} {s s' : σ} {e : ε} (hP : P e) (h : step s e = some s') :
    Reaches step P s s' :=
  ⟨[e], by simpa using hP, by simp [h]⟩

theorem Reaches.trans {P : ε → Prop} {s₁ s₂ s₃ : σ} (h : Reaches step P s₁ s₂)
    (k : Reaches step P s₂ s₃) : Reaches step P s₁ s₃ := by
  obtain ⟨es, hes, hr⟩ := h
  obtain ⟨fs, hfs, hr'⟩ := k
  refine ⟨es ++ fs, ?_, run_append_eq_some.mpr ⟨s₂, hr, hr'⟩⟩
  intro e he
  rcases List.mem_append.mp he with h | h
  · exact hes e h
  · exact hfs e h

/-- An invariant of the allowed steps holds in every reachable state. -/
theorem Reaches.invariant {P : ε → Prop} (I : σ → Prop)
    (hstep : ∀ s e s', I s → P e → step s e = some s' → I s') {s s' : σ}
    (h : Reaches step P s s') (hI : I s) : I s' := by
  obtain ⟨es, hes, hr⟩ := h
  induction es generalizing s with
  | nil =>
    simp only [run_nil, Option.some.injEq] at hr
    exact hr ▸ hI
  | cons e es ih =>
    obtain ⟨m, hm, hr⟩ := Option.bind_eq_some_iff.mp hr
    exact ih (hstep s e m hI (hes e (by simp)) hm) (fun f hf => hes f (by simp [hf])) hr

variable (step) in
/-- Progress by a decreasing rank: when from every state short of the goal a state of
smaller rank is reachable, the goal is reachable. -/
theorem Reaches.progress {P : ε → Prop} (I : ℕ → σ → Prop) (goal : σ → Prop)
    (hprog : ∀ n s, I n s → ¬ goal s → ∃ m < n, ∃ s', Reaches step P s s' ∧ I m s') {n : ℕ} {s : σ}
    (hI : I n s) : ∃ m s', Reaches step P s s' ∧ I m s' ∧ goal s' := by
  induction n using Nat.strong_induction_on generalizing s with
  | _ n ih =>
    by_cases hg : goal s
    · exact ⟨n, s, .refl s, hI, hg⟩
    · obtain ⟨m, hlt, s₁, hr, hI₁⟩ := hprog n s hI hg
      obtain ⟨k, s₂, hr₂, hI₂, hg₂⟩ := ih m hlt hI₁
      exact ⟨k, s₂, hr.trans hr₂, hI₂, hg₂⟩

/-- A machine without labels whose rank falls at every step short of the goal gets there
in as many steps as the rank. -/
theorem iterate_progress {f : σ → σ} {I : σ → Prop} (rank : σ → ℕ) (goal : σ → Prop)
    (hstep : ∀ s, I s → ¬ goal s → I (f s) ∧ rank (f s) < rank s) {s : σ} (h : I s) :
    ∃ n ≤ rank s, goal (f^[n] s) := by
  induction hr : rank s using Nat.strong_induction_on generalizing s with
  | _ r ih =>
    by_cases hg : goal s
    · exact ⟨0, Nat.zero_le _, hg⟩
    · obtain ⟨hI, hlt⟩ := hstep s h hg
      obtain ⟨n, hn, hgoal⟩ := ih (rank (f s)) (hr ▸ hlt) hI rfl
      exact ⟨n + 1, by omega, hgoal⟩

end TftpHpa.Transition
