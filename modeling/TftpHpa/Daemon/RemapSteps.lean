import TftpHpa.Daemon.Remap
import TftpHpa.Lib.Transition

/-! `rewrite_string` as the machine it is: one step for each round of the loop over the
rules and of the loop over the matches, with the counter `deadman` tested where the source
tests it. Nothing in the machine makes it stop, jumps and restarts lead anywhere in the
list and rules that are passed over are not counted; that it stops is proved from the
remaining steps and the rest of the list together. -/

namespace TftpHpa

/-- Where `rewrite_string` stands: at the head of the loop over the rules, at the head of the
loop over the matches of a rule, after a `return`, or at the label `dead`. -/
inductive RewritePc (ρ : Type*) where
  | loop (ruleptr : List (Rule ρ)) (current : Bytes)
  | replace (r : Rule ρ) (next : List (Rule ρ)) (current newstr : Bytes) (pmatch : Option RegMatch) (ggoffset : ℕ)
  | returned (result : Remapped)
  | dead

/-- The counter, and for the record how many rules have been tried and how many replacements
have been repeated. -/
structure RewriteState (ρ : Type*) where
  deadman : ℕ
  tried : ℕ := 0
  repeated : ℕ := 0
  pc : RewritePc ρ

/-- What the caller gets. The message set at the start is left at the label `dead`. -/
def RewritePc.result {ρ : Type*} : RewritePc ρ → Option Remapped
  | .loop _ _ | .replace _ _ _ _ _ _ => none
  | .returned result => some result
  | .dead => some remapFailure

namespace RewriteState

variable {ρ : Type*}

def steps (s : RewriteState ρ) : ℕ := s.tried + s.repeated

/-- The test `if (!deadman--) goto dead`, before a rule is tried or a replacement repeated. -/
def countdown (s : RewriteState ρ) (tried repeated : ℕ) (pc : RewritePc ρ) : RewriteState ρ :=
  match s.deadman with
  | 0 => { s with pc := .dead }
  | deadman + 1 => { deadman, tried := s.tried + tried, repeated := s.repeated + repeated, pc }

/-- The same state with more steps left. -/
def extend (d : ℕ) (s : RewriteState ρ) : RewriteState ρ := { s with deadman := s.deadman + d }

end RewriteState

namespace RemapEnv

variable {ρ : Type*} (env : RemapEnv ρ)

/-- The rest of the loop body once the string has been rewritten, up to `ruleptr = next`. -/
def afterRule (rules : List (Rule ρ)) (r : Rule ρ) (next : List (Rule ρ)) (current newstr : Bytes)
    (pmatch : Option RegMatch) : RewritePc ρ :=
  if r.flags .hasfile && !env.validate newstr then .loop next current
  else
    let current := newstr
    let newstr :=
      if r.flags .abort || r.flags .jump then
        ((env.genmatchstring r.pattern current pmatch none).filter fun g => 0 < g.len).map Genmatch.string
      else none
    if r.flags .abort then .returned (.error newstr)
    else if r.flags .exit || r.flags .hasfile then .returned (.ok current)
    else if r.flags .restart then .loop rules current
    else if r.flags .jump then
      match newstr with
      | none => .returned remapFailure
      | some name =>
        match findLabel name rules with
        | none => .returned remapFailure
        | some next => .loop next current
    else .loop next current

/-- What a rule that is tried leads to. -/
def triedRule (rules : List (Rule ρ)) (r : Rule ρ) (next : List (Rule ρ)) (current : Bytes) : RewritePc ρ :=
  match env.ruleMatch r current false with
  | none => .loop next current
  | some pmatch =>
    if r.flags .rewrite then .replace r next current current pmatch 0
    else env.afterRule rules r next current current pmatch

/-- One round of one of the two loops. -/
def rewriteStep (rules : List (Rule ρ)) (s : RewriteState ρ) : RewriteState ρ :=
  match s.pc with
  | .loop [] current => { s with pc := .returned (.ok current) }
  | .loop (r :: next) current =>
    if env.passesOver r then { s with pc := .loop next current }
    else s.countdown 1 0 (env.triedRule rules r next current)
  | .replace r next current newstr pmatch ggoffset =>
    match env.genmatchstring r.pattern newstr pmatch (some ggoffset) with
    | none => { s with pc := .returned remapFailure }
    | some g =>
      if !r.flags .global then { s with pc := env.afterRule rules r next current g.string pmatch }
      else if r.flags .sedg && g.len ≤ g.next then
        { s with pc := env.afterRule rules r next current g.string pmatch }
      else
        let ggoffset := if r.flags .sedg then g.next else 0
        match env.ruleMatch r (g.string.drop ggoffset) (ggoffset ≠ 0) with
        | none => { s with pc := env.afterRule rules r next current g.string none }
        | some pmatch => s.countdown 0 1 (.replace r next current g.string pmatch ggoffset)
  | .returned _ | .dead => s

/-- The state on entry, with `map_steps`. -/
def rewriteStart (mapSteps : ℕ) (rules : List (Rule ρ)) (input : Bytes) : RewriteState ρ :=
  { deadman := mapSteps, pc := .loop rules input }

end RemapEnv

namespace RemapEnv

variable {ρ : Type*} {env : RemapEnv ρ} {rules next : List (Rule ρ)} {r : Rule ρ} {s : RewriteState ρ}
  {current newstr : Bytes} {pmatch : Option RegMatch}

/-! ### One step -/

/-- The place is in the list. -/
def Within (rules : List (Rule ρ)) : RewritePc ρ → Prop
  | .loop ruleptr _ => ruleptr.length ≤ rules.length
  | .replace _ next _ _ _ _ => next.length ≤ rules.length
  | .returned _ | .dead => True

/-- How many rounds a place can still lead to before the next one that is counted. -/
def rank (rules : List (Rule ρ)) : RewritePc ρ → ℕ
  | .loop ruleptr _ => ruleptr.length + 1
  | .replace _ _ _ _ _ _ => rules.length + 2
  | .returned _ | .dead => 0

theorem findLabel_length {name : Bytes} {l : List (Rule ρ)} (h : findLabel name rules = some l) :
    l.length ≤ rules.length := by
  induction rules with
  | nil => cases h
  | cons r rules ih =>
    rw [findLabel] at h
    split at h
    · cases h
      exact le_rfl
    · exact (ih h).trans (Nat.le_succ _)

/-- After a rule the interpreter returns or is back at the head of the loop over the rules. -/
theorem afterRule_rank (hnext : next.length ≤ rules.length) :
    Within rules (env.afterRule rules r next current newstr pmatch) ∧
      rank rules (env.afterRule rules r next current newstr pmatch) ≤ rules.length + 1 := by
  have hloop : ∀ {l : List (Rule ρ)} (c : Bytes), l.length ≤ rules.length →
      Within rules (.loop l c) ∧ rank rules (.loop l c) ≤ rules.length + 1 :=
    fun c hl => ⟨hl, Nat.succ_le_succ hl⟩
  have hret : ∀ result, Within rules (.returned result) ∧ rank rules (.returned result) ≤ rules.length + 1 :=
    fun _ => ⟨trivial, Nat.zero_le _⟩
  unfold afterRule
  split
  · exact hloop _ hnext
  · dsimp only
    split
    · exact hret _
    · split
      · exact hret _
      · split
        · exact hloop _ le_rfl
        · split
          · split
            · exact hret _
            · split
              · exact hret _
              · next hfind => exact hloop _ (findLabel_length hfind)
          · exact hloop _ hnext

theorem triedRule_rank (hnext : next.length ≤ rules.length) :
    Within rules (env.triedRule rules r next current) ∧
      rank rules (env.triedRule rules r next current) ≤ rules.length + 2 := by
  unfold triedRule
  split
  · exact ⟨hnext, Nat.succ_le_succ (hnext.trans (Nat.le_succ _))⟩
  · split
    · exact ⟨hnext, le_rfl⟩
    · exact ⟨(afterRule_rank hnext).1, (afterRule_rank hnext).2.trans (Nat.le_succ _)⟩

/-- The place is in the list, and each counted step has been taken from the counter. -/
structure Counts (mapSteps : ℕ) (rules : List (Rule ρ)) (s : RewriteState ρ) : Prop where
  within : Within rules s.pc
  steps : s.deadman + s.steps = mapSteps

/-- What is left: a whole list for each step of the counter, and the rest of the present one. -/
def remaining (rules : List (Rule ρ)) (s : RewriteState ρ) : ℕ :=
  s.deadman * (rules.length + 2) + rank rules s.pc

/-- A step that is not counted goes on in the list. -/
theorem Counts.move {mapSteps : ℕ} {pc : RewritePc ρ} (h : Counts mapSteps rules s) (hw : Within rules pc)
    (hr : rank rules pc < rank rules s.pc) :
    Counts mapSteps rules { s with pc } ∧ remaining rules { s with pc } < remaining rules s :=
  ⟨⟨hw, h.steps⟩, Nat.add_lt_add_left hr _⟩

/-- A step that is counted may go anywhere in it. -/
theorem Counts.countdown {mapSteps tried repeated : ℕ} {pc : RewritePc ρ} (h : Counts mapSteps rules s)
    (hone : tried + repeated = 1) (hw : Within rules pc) (hr : rank rules pc ≤ rules.length + 2)
    (hpos : 0 < rank rules s.pc) :
    Counts mapSteps rules (s.countdown tried repeated pc) ∧
      remaining rules (s.countdown tried repeated pc) < remaining rules s := by
  have hsteps := h.steps
  unfold RewriteState.countdown
  split
  · exact h.move trivial hpos
  · next d hd =>
    refine ⟨⟨hw, ?_⟩, ?_⟩
    · simp only [RewriteState.steps] at hsteps ⊢
      omega
    · simp only [remaining, hd, Nat.succ_mul]
      omega

/-- Until it is over, each round keeps the count and brings the end nearer. -/
theorem rewriteStep_counts {mapSteps : ℕ} (h : Counts mapSteps rules s) (hgo : s.pc.result = none) :
    Counts mapSteps rules (env.rewriteStep rules s) ∧
      remaining rules (env.rewriteStep rules s) < remaining rules s := by
  have hw := h.within
  unfold rewriteStep
  split
  · next current hpc => exact h.move trivial (by simp [hpc, rank])
  · next r next current hpc =>
    rw [hpc] at hw
    have hnext : next.length ≤ rules.length := (Nat.le_succ _).trans hw
    split
    · exact h.move hnext (by simp [hpc, rank])
    · exact h.countdown rfl (triedRule_rank hnext).1 (triedRule_rank hnext).2 (by simp [hpc, rank])
  · next r next current newstr pmatch ggoffset hpc =>
    rw [hpc] at hw
    have hafter : ∀ newstr pmatch,
        Counts mapSteps rules { s with pc := env.afterRule rules r next current newstr pmatch } ∧
          remaining rules { s with pc := env.afterRule rules r next current newstr pmatch } < remaining rules s := by
      intro newstr pmatch
      refine h.move (afterRule_rank hw).1 ?_
      rw [hpc]
      exact Nat.lt_succ_of_le (afterRule_rank hw).2
    split
    · exact h.move trivial (by simp [hpc, rank])
    · next g _ =>
      split
      · exact hafter _ _
      · split
        · exact hafter _ _
        · dsimp only
          split
          · exact hafter _ _
          · exact h.countdown rfl hw le_rfl (by simp [hpc, rank])
  · next hpc => simp [hpc, RewritePc.result] at hgo
  · next hpc => simp [hpc, RewritePc.result] at hgo

/-! ### What it returns -/

@[simp] theorem remapLoop_done (n : ℕ) (result : Remapped) : env.remapLoop rules n (.done result) = some result := by
  cases n <;> rfl

/-- The same place, with the rules that are passed over left behind. -/
def skipped (env : RemapEnv ρ) (rules : List (Rule ρ)) (s : RewriteState ρ) : Option Remapped :=
  match s.pc with
  | .loop ruleptr current => env.remapLoop rules s.deadman (env.nextrule ruleptr current)
  | .replace r next current newstr pmatch ggoffset =>
    env.remapLoop rules s.deadman (env.replaceStep rules r next current newstr pmatch ggoffset)
  | .returned result => some result
  | .dead => none

theorem skipped_afterRule (s : RewriteState ρ) :
    env.skipped rules { s with pc := env.afterRule rules r next current newstr pmatch } =
      env.remapLoop rules s.deadman (env.finish rules r next current newstr pmatch) := by
  unfold afterRule finish
  split
  · rfl
  · dsimp only
    generalize Option.map Genmatch.string _ = name
    generalize (if (r.flags .abort || r.flags .jump) = true then name else none) = name
    split
    · rw [remapLoop_done]
      rfl
    · split
      · rw [remapLoop_done]
        rfl
      · split
        · rfl
        · split
          · cases name with
            | none =>
              rw [remapLoop_done]
              rfl
            | some name =>
              dsimp only
              cases findLabel name rules with
              | none =>
                rw [remapLoop_done]
                rfl
              | some next => rfl
          · rfl

theorem skipped_triedRule (s : RewriteState ρ) :
    env.skipped rules { s with pc := env.triedRule rules r next current } =
      env.remapLoop rules s.deadman (env.ruleStep rules r next current) := by
  unfold triedRule ruleStep
  cases env.ruleMatch r current false with
  | none => rfl
  | some pmatch =>
    dsimp only
    split
    · rfl
    · exact skipped_afterRule s

/-- A round of the machine is a part of a step of the interpreter. -/
theorem skipped_rewriteStep (s : RewriteState ρ) :
    env.skipped rules (env.rewriteStep rules s) = env.skipped rules s := by
  obtain ⟨deadman, tried, repeated, pc⟩ := s
  cases pc with
  | loop ruleptr current =>
    cases ruleptr with
    | nil => exact (remapLoop_done _ _).symm
    | cons r next =>
      change _ = env.remapLoop rules deadman (env.nextrule (r :: next) current)
      simp only [rewriteStep, nextrule]
      split
      · rfl
      · cases deadman with
        | zero => rfl
        | succ deadman => exact skipped_triedRule { deadman, tried := tried + 1, repeated, pc := .dead }
  | replace r next current newstr pmatch ggoffset =>
    change _ = env.remapLoop rules deadman (env.replaceStep rules r next current newstr pmatch ggoffset)
    simp only [rewriteStep, replaceStep]
    cases env.genmatchstring r.pattern newstr pmatch (some ggoffset) with
    | none => exact (remapLoop_done _ _).symm
    | some g =>
      dsimp only
      split
      · exact skipped_afterRule { deadman, tried, repeated, pc := .dead }
      · split
        · exact skipped_afterRule { deadman, tried, repeated, pc := .dead }
        · cases env.ruleMatch r _ _ with
          | none => exact skipped_afterRule { deadman, tried, repeated, pc := .dead }
          | some pmatch => cases deadman <;> rfl
  | returned result => rfl
  | dead => rfl

/-! ### A larger limit -/

theorem countdown_extend {tried repeated d : ℕ} {pc : RewritePc ρ}
    (h : (s.countdown tried repeated pc).pc ≠ .dead) :
    (s.extend d).countdown tried repeated pc = (s.countdown tried repeated pc).extend d := by
  obtain ⟨deadman, _, _, _⟩ := s
  cases deadman with
  | zero => exact absurd rfl h
  | succ deadman => simp only [RewriteState.countdown, RewriteState.extend, Nat.succ_add]

theorem rewriteStep_extend (d : ℕ) (h : (env.rewriteStep rules s).pc ≠ .dead) :
    env.rewriteStep rules (s.extend d) = (env.rewriteStep rules s).extend d := by
  revert h
  simp only [rewriteStep, show (s.extend d).pc = s.pc from rfl]
  split
  · exact fun _ => rfl
  · split
    · exact fun _ => rfl
    · exact countdown_extend
  · split
    · exact fun _ => rfl
    · split
      · exact fun _ => rfl
      · split
        · exact fun _ => rfl
        · split
          · exact fun _ => rfl
          · exact countdown_extend
  · exact fun _ => rfl
  · exact fun _ => rfl

/-- As long as the counter has not expired it makes no difference how large it was. -/
theorem iterate_extend (d : ℕ) {n : ℕ} (h : ((env.rewriteStep rules)^[n] s).pc ≠ .dead) :
    (env.rewriteStep rules)^[n] (s.extend d) = ((env.rewriteStep rules)^[n] s).extend d := by
  induction n with
  | zero => rfl
  | succ n ih =>
    rw [Function.iterate_succ_apply'] at h ⊢
    rw [Function.iterate_succ_apply']
    have hn : ((env.rewriteStep rules)^[n] s).pc ≠ .dead := by
      intro hdead
      refine h ?_
      rw [rewriteStep, hdead]
      exact hdead
    rw [ih hn, rewriteStep_extend d h]

/-! ### The step limit -/

theorem rewriteStep_of_result {result : Remapped} (h : s.pc.result = some result) : env.rewriteStep rules s = s := by
  obtain ⟨deadman, tried, repeated, pc⟩ := s
  cases pc with
  | loop | replace => cases h
  | returned | dead => rfl

theorem Counts.step {mapSteps : ℕ} (h : Counts mapSteps rules s) :
    Counts mapSteps rules (env.rewriteStep rules s) := by
  cases hres : s.pc.result with
  | none => exact (rewriteStep_counts h hres).1
  | some result => rwa [rewriteStep_of_result hres]

theorem rewriteStart_counts (mapSteps : ℕ) (rules : List (Rule ρ)) (input : Bytes) :
    Counts mapSteps rules (rewriteStart mapSteps rules input) :=
  ⟨le_rfl, rfl⟩

theorem counts_iterate (env : RemapEnv ρ) (mapSteps : ℕ) (rules : List (Rule ρ)) (input : Bytes) (n : ℕ) :
    Counts mapSteps rules ((env.rewriteStep rules)^[n] (rewriteStart mapSteps rules input)) :=
  Function.Iterate.rec (Counts mapSteps rules) (rewriteStart_counts mapSteps rules input) (fun _ h => h.step) n

theorem skipped_iterate (env : RemapEnv ρ) (mapSteps : ℕ) (rules : List (Rule ρ)) (input : Bytes) (n : ℕ) :
    env.skipped rules ((env.rewriteStep rules)^[n] (rewriteStart mapSteps rules input)) =
      env.rewriteString mapSteps rules input :=
  Function.Iterate.rec (fun s => env.skipped rules s = env.rewriteString mapSteps rules input) rfl
    (fun s h => (skipped_rewriteStep s).trans h) n

/-- What has been returned stays so. -/
theorem iterate_of_result {n k : ℕ} {result : Remapped}
    (h : ((env.rewriteStep rules)^[n] s).pc.result = some result) (hle : n ≤ k) :
    (env.rewriteStep rules)^[k] s = (env.rewriteStep rules)^[n] s := by
  obtain ⟨d, rfl⟩ := Nat.exists_eq_add_of_le' hle
  rw [Function.iterate_add_apply, Function.iterate_fixed (rewriteStep_of_result h)]

/-- What it returns is the value of the interpreter, which has none for an expired counter. -/
theorem result_eq {result : Remapped} (h : s.pc.result = some result) :
    result = (env.skipped rules s).getD remapFailure := by
  obtain ⟨deadman, tried, repeated, pc⟩ := s
  cases pc with
  | loop | replace => cases h
  | returned | dead =>
    cases h
    rfl

/-- A run that returns before its counter expires never gets to `dead`. -/
theorem pc_ne_dead {n : ℕ} {result : Remapped} (h : ((env.rewriteStep rules)^[n] s).pc = .returned result) (k : ℕ) :
    ((env.rewriteStep rules)^[k] s).pc ≠ .dead := by
  intro hdead
  rcases le_total n k with hle | hle
  · have hres : ((env.rewriteStep rules)^[n] s).pc.result = some result := by rw [h]; rfl
    rw [iterate_of_result hres hle, h] at hdead
    cases hdead
  · have hres : ((env.rewriteStep rules)^[k] s).pc.result = some remapFailure := by rw [hdead]; rfl
    rw [iterate_of_result hres hle, hdead] at h
    cases h

/-- `rewrite_string` comes to an end whatever the rules do: after at most `map_steps` times
the length of the list rounds, and one list more. It tries rules and repeats replacements at
most `map_steps` times in all. Where that is not enough, that is where it would do so more
often with another limit, it returns `NULL`. -/
theorem rewriteString_stops (env : RemapEnv ρ) (mapSteps : ℕ) (rules : List (Rule ρ)) (input : Bytes) :
    ∃ n ≤ mapSteps * (rules.length + 2) + (rules.length + 1), ∃ result,
      ((env.rewriteStep rules)^[n] (rewriteStart mapSteps rules input)).pc.result = some result ∧
      result = (env.rewriteString mapSteps rules input).getD remapFailure ∧
      (∀ k, ((env.rewriteStep rules)^[k] (rewriteStart mapSteps rules input)).steps ≤ mapSteps) ∧
      ∀ limit k, mapSteps < ((env.rewriteStep rules)^[k] (rewriteStart limit rules input)).steps →
        result = remapFailure := by
  have hsteps : ∀ limit k, ((env.rewriteStep rules)^[k] (rewriteStart limit rules input)).steps ≤ limit := by
    intro limit k
    have hcount := (counts_iterate env limit rules input k).steps
    omega
  obtain ⟨n, hn, hres⟩ : ∃ n ≤ remaining rules (rewriteStart mapSteps rules input),
      ((env.rewriteStep rules)^[n] (rewriteStart mapSteps rules input)).pc.result ≠ none :=
    Transition.iterate_progress (remaining rules) (·.pc.result ≠ none)
      (fun s h hgo => rewriteStep_counts h (not_not.mp hgo)) (rewriteStart_counts mapSteps rules input)
  obtain ⟨result, hresult⟩ := Option.ne_none_iff_exists'.mp hres
  refine ⟨n, hn, result, hresult, ?_, hsteps mapSteps, fun limit k hlt => ?_⟩
  · rw [← skipped_iterate env mapSteps rules input n]
    exact result_eq hresult
  · cases hpc : ((env.rewriteStep rules)^[n] (rewriteStart mapSteps rules input)).pc with
    | loop | replace =>
      rw [hpc] at hresult
      cases hresult
    | dead =>
      rw [hpc] at hresult
      exact (Option.some.inj hresult).symm
    | returned =>
      -- The run with the larger limit is the same run, so that it is within this limit too.
      obtain ⟨d, rfl⟩ := Nat.exists_eq_add_of_le ((hlt.le).trans (hsteps limit k))
      have hext := iterate_extend d (pc_ne_dead hpc k)
      have hstart : rewriteStart (mapSteps + d) rules input = (rewriteStart mapSteps rules input).extend d := rfl
      rw [hstart, hext] at hlt
      exact absurd (hsteps mapSteps k) (Nat.not_le.mpr hlt)

end RemapEnv

end TftpHpa
