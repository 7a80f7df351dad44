import TftpHpa.Daemon.Remap

/-! The rules as the manual describes them, and that `rewrite_string` follows the
description. The manual knows neither offsets nor a step counter: a string is cut into what
lies behind the last replacement and what is still to be searched, and a rule list that
never comes to an end has no result. -/

namespace TftpHpa

/-! ### The manual -/

namespace Manual

variable {ρ : Type*} (env : RemapEnv ρ)

/-- Labels, and rules for the other request type or address family, have no effect. -/
structure Applies (r : Rule ρ) : Prop where
  label : r.flags .label = false
  rrq : r.flags .rrq = true → env.mode = Opcode.rrq.code
  wrq : r.flags .wrq = true → env.mode = Opcode.wrq.code
  ipv4 : r.flags .ipv4 = true → env.af = .inet
  ipv6 : r.flags .ipv6 = true → env.af = .inet6

/-- Replacing the match `m` in `todo`, and what then follows: nothing more, with `g` the same
from the start of the new string, with `gg` the same in what lies after the replacement. The
result `none` is a failed expansion. -/
inductive Replaces (r : Rule ρ) : Bytes → Bytes → RegMatch → Option Bytes → Prop where
  | error {behind todo : Bytes} {m : RegMatch} (he : env.expand r.pattern todo (some m) = none) :
    Replaces r behind todo m none
  | once {behind todo e : Bytes} {m : RegMatch} (he : env.expand r.pattern todo (some m) = some e)
    (hg : r.flags .global = false) :
    Replaces r behind todo m (some (behind ++ todo.take m.so ++ e ++ todo.drop m.eo))
  | lastAll {behind todo e s : Bytes} {m : RegMatch} (he : env.expand r.pattern todo (some m) = some e)
    (hg : r.flags .global = true) (hgg : r.flags .sedg = false)
    (hs : s = behind ++ todo.take m.so ++ e ++ todo.drop m.eo) (hm : env.ruleMatch r s false = none) :
    Replaces r behind todo m (some s)
  | moreAll {behind todo e s : Bytes} {m m' : RegMatch} {result : Option Bytes}
    (he : env.expand r.pattern todo (some m) = some e) (hg : r.flags .global = true)
    (hgg : r.flags .sedg = false) (hs : s = behind ++ todo.take m.so ++ e ++ todo.drop m.eo)
    (hm : env.ruleMatch r s false = some (some m')) (h : Replaces r [] s m' result) :
    Replaces r behind todo m result
  | lastRest {behind todo e behind' todo' : Bytes} {m : RegMatch}
    (he : env.expand r.pattern todo (some m) = some e) (hg : r.flags .global = true)
    (hgg : r.flags .sedg = true) (hb : behind' = behind ++ todo.take m.so ++ e) (ht : todo' = todo.drop m.eo)
    (hm : todo' = [] ∨ env.ruleMatch r todo' (behind' ≠ []) = none) :
    Replaces r behind todo m (some (behind' ++ todo'))
  | moreRest {behind todo e behind' todo' : Bytes} {m m' : RegMatch} {result : Option Bytes}
    (he : env.expand r.pattern todo (some m) = some e) (hg : r.flags .global = true)
    (hgg : r.flags .sedg = true) (hb : behind' = behind ++ todo.take m.so ++ e) (ht : todo' = todo.drop m.eo)
    (hne : todo' ≠ []) (hm : env.ruleMatch r todo' (behind' ≠ []) = some (some m'))
    (h : Replaces r behind' todo' m' result) : Replaces r behind todo m result

/-- The string after a rule that has matched: only `r` changes it. -/
inductive Rewrites (r : Rule ρ) (s : Bytes) : Option RegMatch → Option Bytes → Prop where
  | keep {pmatch : Option RegMatch} (hr : r.flags .rewrite = false) : Rewrites r s pmatch (some s)
  | replace {m : RegMatch} {result : Option Bytes} (hr : r.flags .rewrite = true)
    (h : Replaces env r [] s m result) : Rewrites r s (some m) result

/-- What comes after a rule: the end, or more rules. -/
inductive Next (ρ : Type*) where
  | stop (result : Remapped)
  | go (rest : List (Rule ρ)) (s : Bytes)

/-- What a rule that has matched `s` does next, given the string it leads to. `find` looks
up the label of a jump. -/
inductive Acts (find : Bytes → Option (List (Rule ρ))) (rules : List (Rule ρ)) (r : Rule ρ)
    (rest : List (Rule ρ)) (s : Bytes) (pmatch : Option RegMatch) : Option Bytes → Next ρ → Prop where
  | error : Acts find rules r rest s pmatch none (.stop remapFailure)
  | undone {s' : Bytes} (h : r.flags .hasfile = true) (hv : env.validate s' = false) :
    Acts find rules r rest s pmatch (some s') (.go rest s)
  | file {s' : Bytes} (h : r.flags .hasfile = true) (hv : env.validate s' = true) :
    Acts find rules r rest s pmatch (some s') (.stop (.ok s'))
  | exit {s' : Bytes} (h : r.flags .exit = true) : Acts find rules r rest s pmatch (some s') (.stop (.ok s'))
  | restart {s' : Bytes} (h : r.flags .restart = true) : Acts find rules r rest s pmatch (some s') (.go rules s')
  | abort {s' : Bytes} (h : r.flags .abort = true) :
    Acts find rules r rest s pmatch (some s') (.stop (.error ((env.expand r.pattern s' pmatch).filter (· ≠ []))))
  | jump {s' : Bytes} {rest' : List (Rule ρ)} (h : r.flags .jump = true)
    (hf : (env.expand r.pattern s' pmatch).bind find = some rest') :
    Acts find rules r rest s pmatch (some s') (.go rest' s')
  | lost {s' : Bytes} (h : r.flags .jump = true) (hf : (env.expand r.pattern s' pmatch).bind find = none) :
    Acts find rules r rest s pmatch (some s') (.stop remapFailure)
  | next {s' : Bytes} (h : ∀ f ∈ [RuleFlag.hasfile, .exit, .restart, .abort, .jump], r.flags f = false) :
    Acts find rules r rest s pmatch (some s') (.go rest s')

/-- The rules from the top down. -/
inductive Runs (find : Bytes → Option (List (Rule ρ))) (rules : List (Rule ρ)) :
    List (Rule ρ) → Bytes → Remapped → Prop where
  | done {s : Bytes} : Runs find rules [] s (.ok s)
  | skip {r : Rule ρ} {rest : List (Rule ρ)} {s : Bytes} {result : Remapped} (ha : ¬ Applies env r)
    (h : Runs find rules rest s result) : Runs find rules (r :: rest) s result
  | miss {r : Rule ρ} {rest : List (Rule ρ)} {s : Bytes} {result : Remapped} (ha : Applies env r)
    (hm : env.ruleMatch r s false = none) (h : Runs find rules rest s result) :
    Runs find rules (r :: rest) s result
  | stop {r : Rule ρ} {rest : List (Rule ρ)} {s : Bytes} {pmatch : Option RegMatch} {w : Option Bytes}
    {result : Remapped} (ha : Applies env r) (hm : env.ruleMatch r s false = some pmatch)
    (hw : Rewrites env r s pmatch w) (hn : Acts env find rules r rest s pmatch w (.stop result)) :
    Runs find rules (r :: rest) s result
  | go {r : Rule ρ} {rest rest' : List (Rule ρ)} {s s' : Bytes} {pmatch : Option RegMatch} {w : Option Bytes}
    {result : Remapped} (ha : Applies env r) (hm : env.ruleMatch r s false = some pmatch)
    (hw : Rewrites env r s pmatch w) (hn : Acts env find rules r rest s pmatch w (.go rest' s'))
    (h : Runs find rules rest' s' result) : Runs find rules (r :: rest) s result

/-- The rules from the first label of a name on. -/
def firstLabel (rules : List (Rule ρ)) (name : Bytes) : Option (List (Rule ρ)) :=
  match rules.dropWhile fun r => !(r.flags .label && r.pattern = name) with
  | [] => none
  | rest => some rest

/-- The same, where an empty name is no label. -/
def namedLabel (rules : List (Rule ρ)) (name : Bytes) : Option (List (Rule ρ)) :=
  if name = [] then none else firstLabel rules name

/-- The manual says what a rule does: it does not combine `s` and `j`. -/
def Unambiguous (r : Rule ρ) : Prop := ¬ (r.flags .restart = true ∧ r.flags .jump = true)

instance (r : Rule ρ) : Decidable (Unambiguous r) := instDecidableNot

end Manual

/-! ### The interpreter follows it -/

/-- A flag turns off those it cannot be combined with. -/
theorem Rule.Accepted.off {ρ : Type*} {r : Rule ρ} (hr : r.Accepted) {f g : RuleFlag} (hf : r.flags f = true)
    (hbc : (f, g) ∈ badcombos ∨ (g, f) ∈ badcombos) : r.flags g = false := by
  rcases hbc with hbc | hbc
  · simpa [hf] using hr.combos _ hbc
  · simpa [hf] using hr.combos _ hbc

namespace RemapEnv

open Manual

variable {ρ : Type*} {env : RemapEnv ρ} {rules rest next : List (Rule ρ)} {r : Rule ρ}
  {s current newstr : Bytes} {pmatch : Option RegMatch}

theorem passesOver_eq_false (hr : r.Accepted) : env.passesOver r = false ↔ Applies env r := by
  have hno := hr.noregex
  simp only [passesOver, List.any_cons, List.any_nil, badFlags, Bool.or_false, Bool.or_eq_false_iff,
    Bool.and_true, hno, ne_eq, decide_not]
  constructor
  · rintro ⟨hl, -, h₁, h₂, h₃, h₄⟩
    exact ⟨hl, by simpa using h₁, by simpa using h₂, by simpa using h₃, by simpa using h₄⟩
  · rintro ⟨hl, h₁, h₂, h₃, h₄⟩
    exact ⟨hl, hl, by simpa using h₁, by simpa using h₂, by simpa using h₃, by simpa using h₄⟩

theorem findLabel_eq (name : Bytes) (rules : List (Rule ρ)) : findLabel name rules = firstLabel rules name := by
  induction rules with
  | nil => rfl
  | cons r rules ih =>
    have hsymm : decide (name = r.pattern) = decide (r.pattern = name) := decide_eq_decide.mpr eq_comm
    unfold findLabel firstLabel
    rw [List.dropWhile_cons, hsymm]
    cases r.flags .label && decide (r.pattern = name) with
    | true => rfl
    | false => exact ih

/-- The message of an abort or the label of a jump. -/
theorem matchonly_eq (pattern : Bytes) :
    ((env.genmatchstring pattern s pmatch none).filter fun g => 0 < g.len).map Genmatch.string =
      (env.expand pattern s pmatch).filter (· ≠ []) := by
  cases h : env.expand pattern s pmatch with
  | none => simp [genmatchstring, h]
  | some e => cases e <;> simp [genmatchstring, h, Option.filter]

theorem filter_bind_findLabel (name : Option Bytes) :
    ((name.filter (· ≠ [])).bind fun name => findLabel name rules) = name.bind (namedLabel rules) := by
  cases name with
  | none => rfl
  | some name =>
    by_cases h : name = []
    · subst h
      rfl
    · simp [Option.filter, h, namedLabel, findLabel_eq]

theorem finish_eq : env.finish rules r next current newstr pmatch =
    if r.flags .hasfile && !env.validate newstr then env.nextrule next current
    else if r.flags .abort then .done (.error ((env.expand r.pattern newstr pmatch).filter (· ≠ [])))
    else if r.flags .exit || r.flags .hasfile then .done (.ok newstr)
    else if r.flags .restart then env.nextrule rules newstr
    else if r.flags .jump then
      match (env.expand r.pattern newstr pmatch).bind (namedLabel rules) with
      | none => .done remapFailure
      | some next => env.nextrule next newstr
    else env.nextrule next newstr := by
  unfold finish
  simp only [matchonly_eq]
  split
  · rfl
  · split
    · next ha => simp [ha]
    · split
      · rfl
      · split
        · rfl
        · split
          · next hj =>
            rw [← filter_bind_findLabel]
            simp only [hj, Bool.or_true, if_true]
            cases (env.expand r.pattern newstr pmatch).filter (· ≠ []) with
            | none => rfl
            | some name => cases h : findLabel name rules <;> simp [h]
          · rfl

/-- Where the interpreter goes on. -/
def pcOf (env : RemapEnv ρ) : Next ρ → RemapPc ρ
  | .stop result => .done result
  | .go rest s => env.nextrule rest s

/-- What the interpreter does after a rule is one of the things the manual allows. -/
theorem exists_acts (env : RemapEnv ρ) (rules : List (Rule ρ)) (r : Rule ρ) (next : List (Rule ρ))
    (current newstr : Bytes) (pmatch : Option RegMatch) :
    ∃ nx, Acts env (namedLabel rules) rules r next current pmatch (some newstr) nx ∧
      env.finish rules r next current newstr pmatch = env.pcOf nx := by
  rw [finish_eq]
  split
  · next h =>
    rw [Bool.and_eq_true, Bool.not_eq_true'] at h
    exact ⟨_, .undone h.1 h.2, rfl⟩
  · next hfile =>
    split
    · next h => exact ⟨_, .abort h, rfl⟩
    · next habort =>
      split
      · next h =>
        rw [Bool.or_eq_true] at h
        rcases h with h | h
        · exact ⟨_, .exit h, rfl⟩
        · refine ⟨_, .file h ?_, rfl⟩
          simpa [h] using hfile
      · next hexit =>
        split
        · next h => exact ⟨_, .restart h, rfl⟩
        · next hrestart =>
          split
          · next h =>
            split
            · next hf => exact ⟨_, .lost h hf, rfl⟩
            · next hf => exact ⟨_, .jump h hf, rfl⟩
          · next hjump =>
            refine ⟨_, .next ?_, rfl⟩
            simp_all

/-- A rule that does not combine `s` and `j` leaves it no choice. -/
theorem finish_of_acts (hr : r.Accepted) (hsj : Unambiguous r) {nx : Next ρ}
    (h : Acts env (namedLabel rules) rules r next current pmatch (some newstr) nx) :
    env.finish rules r next current newstr pmatch = env.pcOf nx := by
  rw [finish_eq]
  cases h with
  | undone h hv => simp [h, hv, pcOf]
  | file h hv =>
    have ha : r.flags .abort = false := hr.off h (by decide)
    simp [h, hv, ha, pcOf]
  | exit h =>
    have hf : r.flags .hasfile = false := hr.off h (by decide)
    have ha : r.flags .abort = false := hr.off h (by decide)
    simp [h, hf, ha, pcOf]
  | restart h =>
    have hf : r.flags .hasfile = false := hr.off h (by decide)
    have ha : r.flags .abort = false := hr.off h (by decide)
    have he : r.flags .exit = false := hr.off h (by decide)
    simp [h, hf, ha, he, pcOf]
  | abort h =>
    have hf : r.flags .hasfile = false := hr.off h (by decide)
    simp [h, hf, pcOf]
  | jump h hfind | lost h hfind =>
    have hf : r.flags .hasfile = false := hr.off h (by decide)
    have ha : r.flags .abort = false := hr.off h (by decide)
    have he : r.flags .exit = false := hr.off h (by decide)
    have hs : r.flags .restart = false := Bool.eq_false_iff.mpr fun hs => hsj ⟨hs, h⟩
    simp [h, hf, ha, he, hs, hfind, pcOf]
  | next h => simp_all [pcOf]

/-! ### Replacing -/

/-- `genmatchstring` at the end of what has been done. -/
theorem genmatchstring_append (pattern behind todo : Bytes) (m : RegMatch) :
    env.genmatchstring pattern (behind ++ todo) (some m) (some behind.length) =
      (env.expand pattern todo (some m)).map fun e =>
        ⟨behind ++ todo.take m.so ++ e ++ todo.drop m.eo,
          (behind ++ todo.take m.so ++ e ++ todo.drop m.eo).length, (behind ++ todo.take m.so ++ e).length⟩ := by
  simp only [genmatchstring, List.drop_left, List.take_length_add_append]

theorem ruleMatch_found (hr : r.Accepted) (hrw : r.flags .rewrite = true) {notbol : Bool}
    (h : env.ruleMatch r s notbol = some pmatch) : ∃ m, pmatch = some m := by
  have hinv : r.flags .inverse = false := hr.off hrw (by decide)
  unfold ruleMatch at h
  simp only [hinv, Bool.false_eq_true, if_false] at h
  split at h
  · next m _ => exact ⟨m, (Option.some.inj h).symm⟩
  · cases h
  · cases h
  · cases h

/-- A rule that rewrites has no further use for `pmatch`. -/
theorem finish_pmatch (hr : r.Accepted) (hrw : r.flags .rewrite = true) (pmatch' : Option RegMatch) :
    env.finish rules r next current newstr pmatch = env.finish rules r next current newstr pmatch' := by
  have ha : r.flags .abort = false := hr.off hrw (by decide)
  have hj : r.flags .jump = false := hr.off hrw (by decide)
  simp only [finish_eq, ha, hj, Bool.false_eq_true, if_false]

/-- One round of the loop in the manual's terms. -/
theorem replaceStep_append (hr : r.Accepted) (hrw : r.flags .rewrite = true) (behind todo : Bytes)
    (m : RegMatch) (pmatch : Option RegMatch) :
    env.replaceStep rules r next current (behind ++ todo) (some m) behind.length =
      match env.expand r.pattern todo (some m) with
      | none => .done remapFailure
      | some e =>
        let behind' := behind ++ todo.take m.so ++ e
        let todo' := todo.drop m.eo
        if r.flags .global = false then env.finish rules r next current (behind' ++ todo') pmatch
        else if r.flags .sedg = false then
          match env.ruleMatch r (behind' ++ todo') false with
          | none => env.finish rules r next current (behind' ++ todo') pmatch
          | some pmatch => .replace r next current (behind' ++ todo') pmatch 0
        else if todo' = [] then env.finish rules r next current (behind' ++ todo') pmatch
        else
          match env.ruleMatch r todo' (behind' ≠ []) with
          | none => env.finish rules r next current (behind' ++ todo') pmatch
          | some pmatch => .replace r next current (behind' ++ todo') pmatch behind'.length := by
  unfold replaceStep
  rw [genmatchstring_append]
  cases env.expand r.pattern todo (some m) with
  | none => rfl
  | some e =>
    simp only [Option.map_some]
    generalize behind ++ todo.take m.so ++ e = behind'
    generalize todo.drop m.eo = todo'
    cases r.flags .global with
    | false => exact finish_pmatch hr hrw _
    | true =>
      cases r.flags .sedg with
      | false =>
        simp only [Bool.not_true, Bool.false_and, Bool.false_eq_true, Bool.true_eq_false, if_false, if_true,
          List.drop_zero, ne_eq, not_true_eq_false, decide_false]
        cases env.ruleMatch r (behind' ++ todo') false with
        | none => exact finish_pmatch hr hrw _
        | some pmatch => rfl
      | true =>
        have hlen : (behind' ++ todo').length ≤ behind'.length ↔ todo' = [] := by
          rw [List.length_append, ← List.length_eq_zero_iff]
          omega
        have hne : decide (behind'.length ≠ 0) = decide (behind' ≠ []) := by simp
        simp only [Bool.not_true, Bool.true_and, Bool.false_eq_true, Bool.true_eq_false, if_false, if_true,
          decide_eq_true_eq, hlen, hne, List.drop_left]
        split
        · exact finish_pmatch hr hrw _
        · cases env.ruleMatch r todo' (behind' ≠ []) with
          | none => exact finish_pmatch hr hrw _
          | some pmatch => rfl

/-! ### Soundness -/

/-- What the manual's semantics says after a rule. -/
def Gives (env : RemapEnv ρ) (rules : List (Rule ρ)) : Next ρ → Remapped → Prop
  | .stop result, result' => result = result'
  | .go rest s, result => Runs env (namedLabel rules) rules rest s result

/-- Whatever the interpreter returns within `n` steps is a result in the manual's sense. -/
def SoundFor (env : RemapEnv ρ) (rules : List (Rule ρ)) (n : ℕ) : Prop :=
  ∀ rest s result, rest ⊆ rules → env.remapLoop rules n (env.nextrule rest s) = some result →
    Runs env (namedLabel rules) rules rest s result

theorem firstLabel_subset {name : Bytes} (h : firstLabel rules name = some rest) : rest ⊆ rules := by
  unfold firstLabel at h
  split at h
  · cases h
  · cases h
    exact (List.dropWhile_suffix _).subset

theorem acts_subset {w : Option Bytes} {s' : Bytes}
    (h : Acts env (namedLabel rules) rules r next s pmatch w (.go rest s')) (hnext : next ⊆ rules) :
    rest ⊆ rules := by
  cases h with
  | undone => exact hnext
  | restart => exact List.Subset.refl _
  | jump _ hf =>
    obtain ⟨name, -, hname⟩ := Option.bind_eq_some_iff.mp hf
    unfold namedLabel at hname
    split at hname
    · cases hname
    · exact firstLabel_subset hname
  | next => exact hnext

theorem SoundFor.gives {n : ℕ} (hn : SoundFor env rules n) {w : Option Bytes} {nx : Next ρ} {result : Remapped}
    (hacts : Acts env (namedLabel rules) rules r next s pmatch w nx) (hnext : next ⊆ rules)
    (h : env.remapLoop rules n (env.pcOf nx) = some result) : Gives env rules nx result := by
  cases nx with
  | stop result' =>
    cases n <;> exact Option.some.inj h
  | go rest s' => exact hn rest s' result (acts_subset hacts hnext) h

theorem finish_sound {n : ℕ} (hn : SoundFor env rules n) (hnext : next ⊆ rules) {result : Remapped}
    (h : env.remapLoop rules n (env.finish rules r next current newstr pmatch) = some result) :
    ∃ nx, Acts env (namedLabel rules) rules r next current pmatch (some newstr) nx ∧ Gives env rules nx result := by
  obtain ⟨nx, hacts, hpc⟩ := exists_acts env rules r next current newstr pmatch
  rw [hpc] at h
  exact ⟨nx, hacts, hn.gives hacts hnext h⟩

/-- One round of the replacement loop, when the rounds after it are sound. -/
theorem replaceStep_round (hr : r.Accepted) (hrw : r.flags .rewrite = true) (hnext : next ⊆ rules) {n : ℕ}
    (hn : SoundFor env rules n) {behind todo : Bytes} {m : RegMatch} {result : Remapped}
    (hmore : ∀ behind todo m,
      env.remapLoop rules n (.replace r next current (behind ++ todo) (some m) behind.length) = some result →
        ∃ w nx, Replaces env r behind todo m w ∧ Acts env (namedLabel rules) rules r next current pmatch w nx ∧
          Gives env rules nx result)
    (h : env.remapLoop rules n (env.replaceStep rules r next current (behind ++ todo) (some m) behind.length) =
      some result) :
    ∃ w nx, Replaces env r behind todo m w ∧ Acts env (namedLabel rules) rules r next current pmatch w nx ∧
      Gives env rules nx result := by
  rw [replaceStep_append hr hrw behind todo m pmatch] at h
  cases he : env.expand r.pattern todo (some m) with
  | none =>
    simp only [he] at h
    have hacts : Acts env (namedLabel rules) rules r next current pmatch none (.stop remapFailure) := .error
    exact ⟨none, _, .error he, hacts, hn.gives hacts hnext h⟩
  | some e =>
    simp only [he] at h
    split_ifs at h with hg hgg ht
    · obtain ⟨nx, hacts, hgives⟩ := finish_sound hn hnext h
      exact ⟨_, nx, .once he hg, hacts, hgives⟩
    · rw [Bool.not_eq_false] at hg
      split at h
      · next hm =>
        obtain ⟨nx, hacts, hgives⟩ := finish_sound hn hnext h
        exact ⟨_, nx, .lastAll he hg hgg rfl hm, hacts, hgives⟩
      · next hm =>
        obtain ⟨m', rfl⟩ := ruleMatch_found hr hrw hm
        obtain ⟨w, nx, hw, hacts, hgives⟩ := hmore [] _ m' h
        exact ⟨w, nx, .moreAll he hg hgg rfl hm hw, hacts, hgives⟩
    · rw [Bool.not_eq_false] at hg hgg
      obtain ⟨nx, hacts, hgives⟩ := finish_sound hn hnext h
      exact ⟨_, nx, .lastRest he hg hgg rfl rfl (.inl ht), hacts, hgives⟩
    · rw [Bool.not_eq_false] at hg hgg
      split at h
      · next hm =>
        obtain ⟨nx, hacts, hgives⟩ := finish_sound hn hnext h
        exact ⟨_, nx, .lastRest he hg hgg rfl rfl (.inr hm), hacts, hgives⟩
      · next hm =>
        obtain ⟨m', rfl⟩ := ruleMatch_found hr hrw hm
        obtain ⟨w, nx, hw, hacts, hgives⟩ := hmore _ _ m' h
        exact ⟨w, nx, .moreRest he hg hgg rfl rfl ht hm hw, hacts, hgives⟩

/-- The replacement loop, by induction on the steps it is given. -/
theorem replaceStep_sound (hr : r.Accepted) (hrw : r.flags .rewrite = true) (hnext : next ⊆ rules) {n : ℕ}
    (hn : ∀ k ≤ n, SoundFor env rules k) (pmatch : Option RegMatch) (behind todo : Bytes) (m : RegMatch)
    {result : Remapped}
    (h : env.remapLoop rules n (env.replaceStep rules r next current (behind ++ todo) (some m) behind.length) =
      some result) :
    ∃ w nx, Replaces env r behind todo m w ∧ Acts env (namedLabel rules) rules r next current pmatch w nx ∧
      Gives env rules nx result := by
  induction n generalizing behind todo m with
  | zero => exact replaceStep_round hr hrw hnext (hn 0 le_rfl) (fun _ _ _ h => nomatch h) h
  | succ n ih =>
    refine replaceStep_round hr hrw hnext (hn (n + 1) le_rfl) (fun behind todo m h => ?_) h
    exact ih (fun k hk => hn k (by omega)) behind todo m h

theorem runs_of_gives (ha : Applies env r) (hm : env.ruleMatch r s false = some pmatch) {w : Option Bytes}
    (hw : Rewrites env r s pmatch w) {nx : Next ρ} {result : Remapped}
    (hacts : Acts env (namedLabel rules) rules r rest s pmatch w nx) (h : Gives env rules nx result) :
    Runs env (namedLabel rules) rules (r :: rest) s result := by
  cases nx with
  | stop result' =>
    obtain rfl : result' = result := h
    exact .stop ha hm hw hacts
  | go rest' s' => exact .go ha hm hw hacts h

theorem ruleStep_sound (hr : r.Accepted) (ha : Applies env r) (hrest : rest ⊆ rules) {n : ℕ}
    (hn : ∀ k ≤ n, SoundFor env rules k) {result : Remapped}
    (h : env.remapLoop rules n (env.ruleStep rules r rest s) = some result) :
    Runs env (namedLabel rules) rules (r :: rest) s result := by
  unfold ruleStep at h
  split at h
  · next hm => exact .miss ha hm (hn n le_rfl rest s result hrest h)
  · next pmatch hm =>
    split at h
    · next hrw =>
      obtain ⟨m, rfl⟩ := ruleMatch_found hr hrw hm
      obtain ⟨w, nx, hw, hacts, hg⟩ := replaceStep_sound hr hrw hrest hn (some m) [] s m h
      exact runs_of_gives ha hm (.replace hrw hw) hacts hg
    · next hrw =>
      obtain ⟨nx, hacts, hg⟩ := finish_sound (hn n le_rfl) hrest h
      exact runs_of_gives ha hm (.keep (Bool.eq_false_iff.mpr hrw)) hacts hg

theorem soundFor (hrules : ∀ r ∈ rules, r.Accepted) (n : ℕ) : SoundFor env rules n := by
  induction n using Nat.strong_induction_on with
  | _ n ihn =>
    intro rest
    induction rest with
    | nil =>
      intro s result _ h
      cases n <;> obtain rfl := Option.some.inj h <;> exact .done
    | cons r rest ih =>
      intro s result hsub h
      obtain ⟨hmem, hrest⟩ := List.cons_subset.mp hsub
      have hr := hrules r hmem
      rw [nextrule] at h
      split at h
      · next hover =>
        refine .skip (fun ha => ?_) (ih s result hrest h)
        rw [(passesOver_eq_false hr).mpr ha] at hover
        cases hover
      · next hover =>
        cases n with
        | zero => cases h
        | succ n =>
          have ha : Applies env r := (passesOver_eq_false hr).mp (Bool.eq_false_iff.mpr hover)
          exact ruleStep_sound hr ha hrest (fun k hk => ihn k (by omega)) h

/-! ### Completeness -/

theorem remapLoop_mono {n k : ℕ} {pc : RemapPc ρ} {result : Remapped} (h : env.remapLoop rules n pc = some result)
    (hnk : n ≤ k) : env.remapLoop rules k pc = some result := by
  induction n generalizing k pc with
  | zero =>
    cases pc with
    | done => cases k <;> exact h
    | rule | replace => cases h
  | succ n ih =>
    obtain ⟨k, rfl⟩ : ∃ j, k = j + 1 := ⟨k - 1, by omega⟩
    cases pc with
    | done => exact h
    | rule | replace =>
      rw [remapLoop] at h ⊢
      exact ih h (by omega)

/-- Enough steps lead from here to the result. -/
def Leads (env : RemapEnv ρ) (rules : List (Rule ρ)) (pc : RemapPc ρ) (result : Remapped) : Prop :=
  ∃ n, env.remapLoop rules n pc = some result

theorem leads_done (result : Remapped) : Leads env rules (.done result) result := ⟨0, rfl⟩

theorem Leads.replace {result : Remapped} {ggoffset : ℕ}
    (h : Leads env rules (env.replaceStep rules r next current newstr pmatch ggoffset) result) :
    Leads env rules (.replace r next current newstr pmatch ggoffset) result := by
  obtain ⟨n, hn⟩ := h
  exact ⟨n + 1, hn⟩

theorem Leads.rule {result : Remapped} (h : Leads env rules (env.ruleStep rules r next s) result) :
    Leads env rules (.rule r next s) result := by
  obtain ⟨n, hn⟩ := h
  exact ⟨n + 1, hn⟩

theorem replaceStep_leads (hr : r.Accepted) (hrw : r.flags .rewrite = true)
    (hsj : Unambiguous r) {behind todo : Bytes} {m : RegMatch}
    {w : Option Bytes} {nx : Next ρ} {result : Remapped} (hw : Replaces env r behind todo m w)
    (hacts : Acts env (namedLabel rules) rules r next current pmatch w nx)
    (hnx : Leads env rules (env.pcOf nx) result) :
    Leads env rules (env.replaceStep rules r next current (behind ++ todo) (some m) behind.length) result := by
  induction hw with
  | error he =>
    rw [replaceStep_append hr hrw _ _ _ pmatch]
    cases hacts
    rw [he]
    exact hnx
  | once he hg =>
    rw [replaceStep_append hr hrw _ _ _ pmatch]
    simp only [he, hg, if_true]
    rwa [finish_of_acts hr hsj hacts]
  | lastAll he hg hgg hs hm =>
    subst hs
    rw [replaceStep_append hr hrw _ _ _ pmatch]
    simp only [he, hg, hgg, hm, Bool.true_eq_false, if_false, if_true]
    rwa [finish_of_acts hr hsj hacts]
  | moreAll he hg hgg hs hm h ih =>
    subst hs
    rw [replaceStep_append hr hrw _ _ _ pmatch]
    simp only [he, hg, hgg, hm, Bool.true_eq_false, if_false, if_true]
    exact (ih hacts).replace
  | lastRest he hg hgg hb ht hm =>
    subst hb ht
    rw [replaceStep_append hr hrw _ _ _ pmatch]
    simp only [he, hg, hgg, Bool.true_eq_false, if_false]
    split
    · rwa [finish_of_acts hr hsj hacts]
    · next hne =>
      rw [hm.resolve_left hne]
      dsimp only
      rwa [finish_of_acts hr hsj hacts]
  | moreRest he hg hgg hb ht hne hm h ih =>
    subst hb ht
    rw [replaceStep_append hr hrw _ _ _ pmatch]
    simp only [he, hg, hgg, hm, hne, Bool.true_eq_false, if_false]
    exact (ih hacts).replace

/-- A rule that matches: its replacements, then what follows. -/
theorem rule_leads (hr : r.Accepted) (hsj : Unambiguous r)
    (ha : Applies env r) (hm : env.ruleMatch r s false = some pmatch) {w : Option Bytes}
    (hw : Rewrites env r s pmatch w) {nx : Next ρ} {result : Remapped}
    (hacts : Acts env (namedLabel rules) rules r rest s pmatch w nx)
    (hnx : Leads env rules (env.pcOf nx) result) : Leads env rules (env.nextrule (r :: rest) s) result := by
  rw [nextrule, if_neg (by simp [(passesOver_eq_false hr).mpr ha])]
  refine Leads.rule ?_
  unfold ruleStep
  rw [hm]
  cases hw with
  | keep hrw =>
    simp only [hrw, Bool.false_eq_true, if_false]
    rwa [finish_of_acts hr hsj hacts]
  | replace hrw hw =>
    simp only [hrw, if_true]
    exact replaceStep_leads hr hrw hsj hw hacts hnx

/-- A result in the manual's sense is returned when the step limit allows it. -/
theorem nextrule_leads (hrules : ∀ r ∈ rules, r.Accepted)
    (hsj : ∀ r ∈ rules, Unambiguous r) {result : Remapped}
    (h : Runs env (namedLabel rules) rules rest s result) (hrest : rest ⊆ rules) :
    Leads env rules (env.nextrule rest s) result := by
  induction h with
  | done => exact leads_done _
  | skip ha h ih =>
    obtain ⟨hmem, hrest⟩ := List.cons_subset.mp hrest
    have hover := mt (passesOver_eq_false (hrules _ hmem)).mp ha
    rw [nextrule, if_pos (by simpa using hover)]
    exact ih hrest
  | miss ha hm h ih =>
    obtain ⟨hmem, hrest⟩ := List.cons_subset.mp hrest
    rw [nextrule, if_neg (by simp [(passesOver_eq_false (hrules _ hmem)).mpr ha])]
    refine Leads.rule ?_
    unfold ruleStep
    rw [hm]
    exact ih hrest
  | stop ha hm hw hn =>
    obtain ⟨hmem, -⟩ := List.cons_subset.mp hrest
    exact rule_leads (hrules _ hmem) (hsj _ hmem) ha hm hw hn (leads_done _)
  | go ha hm hw hn h ih =>
    obtain ⟨hmem, hrest⟩ := List.cons_subset.mp hrest
    exact rule_leads (hrules _ hmem) (hsj _ hmem) ha hm hw hn (ih (acts_subset hn hrest))

end RemapEnv

open Manual

/-- What `rewrite_string` returns within its step limit is a result in the manual's sense,
and the only one unless a rule combines `s` and `j`. A result in the manual's sense is
returned under every step limit that is high enough. -/
theorem rewriteString_follows_manual {ρ : Type*} {regcomp : Bytes → Bool → Bool → Option ρ} (env : RemapEnv ρ)
    (rules : List (Rule ρ)) (hrules : ∀ r ∈ rules, ∃ line lineno, parseline regcomp line lineno = .ok (some r))
    (input : Bytes) :
    (∀ mapSteps result, env.rewriteString mapSteps rules input = some result →
      Runs env (namedLabel rules) rules rules input result ∧
        ((∀ r ∈ rules, Unambiguous r) →
          ∀ result', Runs env (namedLabel rules) rules rules input result' → result' = result)) ∧
    ((∀ r ∈ rules, Unambiguous r) → ∀ result, Runs env (namedLabel rules) rules rules input result →
      ∃ n, ∀ mapSteps ≥ n, env.rewriteString mapSteps rules input = some result) := by
  have haccepted : ∀ r ∈ rules, r.Accepted := by
    intro r hr
    obtain ⟨line, lineno, h⟩ := hrules r hr
    exact parseline_accepted h
  have hleads (hsj : ∀ r ∈ rules, Unambiguous r) {result : Remapped}
      (h : Runs env (namedLabel rules) rules rules input result) :=
    RemapEnv.nextrule_leads haccepted hsj h (List.Subset.refl _)
  refine ⟨fun mapSteps result h => ⟨?_, fun hsj result' h' => ?_⟩, fun hsj result h => ?_⟩
  · exact RemapEnv.soundFor haccepted mapSteps rules input result (List.Subset.refl _) h
  · obtain ⟨n, hn⟩ := hleads hsj h'
    have hmax := RemapEnv.remapLoop_mono h (le_max_left mapSteps n)
    have hmax' := RemapEnv.remapLoop_mono hn (le_max_right mapSteps n)
    exact Option.some.inj (hmax'.symm.trans hmax)
  · obtain ⟨n, hn⟩ := hleads hsj h
    exact ⟨n, fun mapSteps hle => RemapEnv.remapLoop_mono hn hle⟩

/-! ### Rules on literal texts -/

/-- `regexec` for a caret and for texts without special characters. -/
def literalRegexec (rx s : Bytes) (notbol : Bool) : Regexec :=
  if rx = cstr "^" then if notbol then .nomatch else .found ⟨0, 0, []⟩
  else
    match (List.range (s.length + 1)).find? fun i => rx.isPrefixOf (s.drop i) with
    | some i => .found ⟨i, i + rx.length, []⟩
    | none => .nomatch

/-- A read request over IPv4 for a file that does not exist, with patterns without escapes. -/
def literalEnv : RemapEnv Bytes where
  regexec := literalRegexec
  expand pattern _ _ := some pattern
  validate _ := false
  mode := Opcode.rrq.code
  af := .inet

def literalRules (lines : List String) : Option (List (Rule Bytes)) :=
  parserulefile (fun rx _ _ => some rx) 0 (lines.map cstr)

theorem rewriteString_follows_manual_foo : ∃ rules, literalRules ["rgg o 0", ":", "e ^"] = some rules ∧
    literalEnv.rewriteString 4096 rules (cstr "foo") = some (.ok (cstr "f00")) ∧
    ∀ result, Runs literalEnv (namedLabel rules) rules rules (cstr "foo") result ↔ result = .ok (cstr "f00") := by
  obtain ⟨rules, hrules⟩ : ∃ rules, literalRules ["rgg o 0", ":", "e ^"] = some rules := ⟨_, rfl⟩
  have hparsed := exists_parseline hrules
  obtain rfl := Option.some.inj hrules
  have h := (rewriteString_follows_manual literalEnv _ hparsed (cstr "foo")).1 4096 (.ok (cstr "f00")) rfl
  refine ⟨_, rfl, rfl, fun result => ⟨h.2 (by decide) result, ?_⟩⟩
  rintro rfl
  exact h.1

/-- A jump to a label whose name is empty fails although there is one. A rule with both `s`
and `j` restarts although it names no label. -/
theorem empty_label_lost :
    (∃ rules, literalRules ["j ^", ":"] = some rules ∧
      literalEnv.rewriteString 4096 rules (cstr "foo") = some remapFailure ∧
      Runs literalEnv (firstLabel rules) rules rules (cstr "foo") (.ok (cstr "foo")) ∧
      ¬ Runs literalEnv (firstLabel rules) rules rules (cstr "foo") remapFailure) ∧
    ∃ rules, literalRules ["e bar", "r foo bar", "sj ^ end"] = some rules ∧
      literalEnv.rewriteString 4096 rules (cstr "foo") = some (.ok (cstr "bar")) ∧
      Runs literalEnv (firstLabel rules) rules rules (cstr "foo") remapFailure := by
  refine ⟨⟨_, rfl, rfl, ?_, ?_⟩, ⟨_, rfl, rfl, ?_⟩⟩
  · refine .go ⟨rfl, nofun, nofun, nofun, nofun⟩ rfl (.keep rfl) (.jump rfl rfl) ?_
    exact .skip (fun ha => nomatch ha.label) .done
  · intro h
    generalize hres : remapFailure = result at h
    cases h with
    | skip ha h => exact ha ⟨rfl, nofun, nofun, nofun, nofun⟩
    | miss ha hm h => cases hm
    | stop ha hm hw hn =>
      cases hw with
      | keep =>
        cases hn with
        | lost _ hf => cases hf
        | file hflag | exit hflag | abort hflag => cases hflag
      | replace hr => cases hr
    | go ha hm hw hn h =>
      cases hw with
      | keep =>
        cases hn with
        | jump _ hf =>
          -- The label is found, and it is the last rule.
          cases hf
          cases h with
          | skip _ h =>
            cases h
            cases hres
          | miss ha | stop ha | go ha => cases ha.label
        | undone hflag | restart hflag => cases hflag
        | next hflags => cases hflags .jump (by decide)
      | replace hr => cases hr
  · refine .miss ⟨rfl, nofun, nofun, nofun, nofun⟩ rfl ?_
    refine .go ⟨rfl, nofun, nofun, nofun, nofun⟩ rfl (.replace rfl (.once rfl rfl)) (.next (by decide)) ?_
    exact .stop ⟨rfl, nofun, nofun, nofun, nofun⟩ rfl (.keep rfl) (.lost rfl rfl)

end TftpHpa
