import TftpHpa.Daemon.RemapManual
import TftpHpa.Lib.Substitute

/-! Rules with `gg`. The manual refers to `sed`, which replaces matches that do not overlap
from left to right and steps over a character after an empty match. The loop of
`rewrite_string` has no such step: it searches again where the replacement ends. -/

namespace TftpHpa

open Substitute

namespace RemapEnv

variable {ρ : Type*} {env : RemapEnv ρ} {rules next : List (Rule ρ)} {r : Rule ρ} {current : Bytes}

/-- A match, with the expansion of the pattern. -/
def hit (env : RemapEnv ρ) (r : Rule ρ) (todo : Bytes) (m : RegMatch) : Hit UInt8 where
  so := m.so
  eo := m.eo
  text := env.expand r.pattern todo (some m)

/-- The search for the next match of a rule. -/
def search (env : RemapEnv ρ) (r : Rule ρ) (s : Bytes) (notbol : Bool) : Option (Hit UInt8) :=
  (env.ruleMatch r s notbol).bind fun pmatch => pmatch.map (env.hit r s)

/-- The replacements of the loop. -/
abbrev ggLoop (env : RemapEnv ρ) (r : Rule ρ) : Scanner UInt8 Bool := loop (env.search r)

/-- The replacements of `s///g` in `sed`. -/
abbrev sed (env : RemapEnv ρ) (r : Rule ρ) : Scanner UInt8 Before := editor (env.search r)

/-- Where the interpreter goes on when the replacements have been made. -/
def replaced (env : RemapEnv ρ) (rules : List (Rule ρ)) (r : Rule ρ) (next : List (Rule ρ)) (current : Bytes) :
    Option Bytes → RemapPc ρ
  | none => .done remapFailure
  | some s => env.finish rules r next current s none

theorem search_eq_none (hr : r.Accepted) (hrw : r.flags .rewrite = true) {s : Bytes} {notbol : Bool}
    (h : env.search r s notbol = none) : env.ruleMatch r s notbol = none := by
  unfold search at h
  cases hm : env.ruleMatch r s notbol with
  | none => rfl
  | some pmatch =>
    obtain ⟨m, rfl⟩ := ruleMatch_found hr hrw hm
    rw [hm] at h
    cases h

theorem search_eq_some {s : Bytes} {notbol : Bool} {h : Hit UInt8} (hs : env.search r s notbol = some h) :
    ∃ m, env.ruleMatch r s notbol = some (some m) ∧ env.hit r s m = h := by
  obtain ⟨pmatch, hm, hmap⟩ := Option.bind_eq_some_iff.mp hs
  obtain ⟨m, rfl, hh⟩ := Option.map_eq_some_iff.mp hmap
  exact ⟨m, hm, hh⟩

theorem ruleMatch_eq_found {s : Bytes} {notbol : Bool} {m : RegMatch}
    (h : env.ruleMatch r s notbol = some (some m)) : ∃ rx ∈ r.rx, env.regexec rx s notbol = .found m := by
  unfold ruleMatch at h
  split at h
  · next m' heq =>
    obtain ⟨rx, hrx, hfound⟩ := Option.map_eq_some_iff.mp heq
    split_ifs at h
    obtain rfl := Option.some.inj (Option.some.inj h)
    exact ⟨rx, hrx, hfound⟩
  · split_ifs at h
    cases h
  · cases h
  · cases h

theorem hit_of_ruleMatch {s : Bytes} {notbol : Bool} {m : RegMatch} {h : Hit UInt8}
    (hm : env.ruleMatch r s notbol = some (some m)) (hs : env.search r s notbol = some h) : env.hit r s m = h := by
  rw [search, hm] at hs
  exact Option.some.inj hs

/-- The round of the loop for a rule with `gg`. -/
theorem replaceStep_sedg (hr : r.Accepted) (hrw : r.flags .rewrite = true) (hg : r.flags .global = true)
    (hgg : r.flags .sedg = true) (behind todo : Bytes) (m : RegMatch) :
    env.replaceStep rules r next current (behind ++ todo) (some m) behind.length =
      match env.expand r.pattern todo (some m) with
      | none => .done remapFailure
      | some e =>
        let behind' := behind ++ todo.take m.so ++ e
        let todo' := todo.drop m.eo
        if todo' = [] then env.finish rules r next current (behind' ++ todo') none
        else
          match env.ruleMatch r todo' (!behind'.isEmpty) with
          | none => env.finish rules r next current (behind' ++ todo') none
          | some pmatch => .replace r next current (behind' ++ todo') pmatch behind'.length := by
  have hempty : ∀ l : Bytes, decide (l ≠ []) = !l.isEmpty := by
    intro l
    cases l <;> rfl
  rw [replaceStep_append hr hrw behind todo m none]
  cases env.expand r.pattern todo (some m) with
  | none => rfl
  | some e =>
    dsimp only
    rw [← hempty]
    refine (if_neg (by simp [hg])).trans ((if_neg (by simp [hgg])).trans ?_)
    rfl

/-- What the loop remembers is whether it has to give `REG_NOTBOL`. -/
theorem loop_next_eq (behind todo e : Bytes) {m : RegMatch} (he : env.expand r.pattern todo (some m) = some e) :
    (env.ggLoop r).next (!behind.isEmpty) todo (env.hit r todo m) =
      !(behind ++ todo.take m.so ++ e).isEmpty := by
  have ht : (env.hit r todo m).text.getD [] = e := by rw [hit, he, Option.getD_some]
  simp only [loop, ht]
  cases behind <;> simp [hit]

section Rounds

variable (hr : r.Accepted) (hrw : r.flags .rewrite = true) (hg : r.flags .global = true) (hgg : r.flags .sedg = true)
include hr hrw hg hgg

/-- The loop over the matches, if it ends: one step of the counter for each replacement. -/
theorem remapLoop_scans (behind : Bytes) {todo : Bytes} {m : RegMatch} {es : List (Edit UInt8)} {w : Option Bytes}
    (h : (env.ggLoop r).Scans (!behind.isEmpty) todo es w)
    (hm : env.ruleMatch r todo (!behind.isEmpty) = some (some m)) (d : ℕ) :
    env.remapLoop rules (d + es.length) (.replace r next current (behind ++ todo) (some m) behind.length) =
      env.remapLoop rules d (env.replaced rules r next current (w.map (behind ++ ·))) := by
  generalize hb : (!behind.isEmpty) = b at h
  induction h generalizing behind m with
  | miss hf =>
    rw [hb] at hm
    cases (search_eq_none hr hrw hf).symm.trans hm
  | @fail _ todo _ hf ht =>
    rw [hb] at hm
    obtain rfl := hit_of_ruleMatch hm hf
    have he : env.expand r.pattern todo (some m) = none := ht
    rw [List.length_singleton, remapLoop, replaceStep_sedg hr hrw hg hgg, he]
    rfl
  | @last _ todo e _ hf ht hd =>
    rw [hb] at hm
    obtain rfl := hit_of_ruleMatch hm hf
    have he : env.expand r.pattern todo (some m) = some e := ht
    have hnil : todo.drop m.eo = [] := hd
    rw [List.length_singleton, remapLoop, replaceStep_sedg hr hrw hg hgg, he]
    simp only [hnil, if_true, List.append_nil, List.append_assoc]
    rfl
  | @more b todo e _ es w hf ht hd hrest ih =>
    rw [hb] at hm
    obtain rfl := hit_of_ruleMatch hm hf
    subst hb
    have he : env.expand r.pattern todo (some m) = some e := ht
    have hne : todo.drop m.eo ≠ [] := hd
    have hnext := loop_next_eq behind todo e he
    rw [List.length_cons, ← Nat.add_assoc, remapLoop, replaceStep_sedg hr hrw hg hgg, he]
    simp only [if_neg hne, Option.map_map]
    rw [hnext] at hrest
    cases hfound : env.ruleMatch r (todo.drop m.eo) (!(behind ++ todo.take m.so ++ e).isEmpty) with
    | none =>
      have hmiss : (env.ggLoop r).find (!(behind ++ todo.take m.so ++ e).isEmpty) (todo.drop m.eo) = none := by
        rw [loop_find, search, hfound]
        rfl
      obtain ⟨rfl, rfl⟩ := Scanner.Scans.unique (.miss hmiss) hrest
      simp [replaced, hit]
    | some pmatch =>
      obtain ⟨m', rfl⟩ := ruleMatch_found hr hrw hfound
      refine (ih _ hfound hnext.symm).trans ?_
      simp [Function.comp_def, hit]

/-- If it does not end, it takes all steps of the counter. -/
theorem remapLoop_endless (behind : Bytes) {todo : Bytes} {m : RegMatch}
    (h : ∀ es w, ¬ (env.ggLoop r).Scans (!behind.isEmpty) todo es w)
    (hm : env.ruleMatch r todo (!behind.isEmpty) = some (some m)) (d : ℕ) :
    env.remapLoop rules d (env.replaceStep rules r next current (behind ++ todo) (some m) behind.length) = none := by
  have hf : (env.ggLoop r).find (!behind.isEmpty) todo = some (env.hit r todo m) := by
    rw [loop_find, search, hm]
    rfl
  cases he : env.expand r.pattern todo (some m) with
  | none => exact absurd (.fail hf he) (h _ _)
  | some e =>
    by_cases hd : todo.drop m.eo = []
    · exact absurd (.last hf he hd) (h _ _)
    · have hrest := fun es w (hscan : (env.ggLoop r).Scans _ _ es w) => h _ _ (.more hf he hd hscan)
      rw [loop_next_eq behind todo e he] at hrest
      cases hfound : env.ruleMatch r (todo.drop m.eo) (!(behind ++ todo.take m.so ++ e).isEmpty) with
      | none =>
        refine absurd (.miss ?_) (hrest [] _)
        change env.search r (todo.drop m.eo) _ = none
        rw [search, hfound]
        rfl
      | some pmatch =>
        obtain ⟨m', rfl⟩ := ruleMatch_found hr hrw hfound
        rw [replaceStep_sedg hr hrw hg hgg, he]
        simp only [if_neg hd, hfound]
        cases d with
        | zero => rfl
        | succ d => exact remapLoop_endless _ hrest hfound d
termination_by d

end Rounds

end RemapEnv

theorem literalRules_accepted {lines : List String} {rules : List (Rule Bytes)} (h : literalRules lines = some rules) :
    ∀ r ∈ rules, r.Accepted := by
  intro r hr
  obtain ⟨line, lineno, hline⟩ := exists_parseline h r hr
  exact parseline_accepted hline

theorem literalRegexec_valid {rx s : Bytes} {notbol : Bool} {m : RegMatch}
    (h : literalRegexec rx s notbol = .found m) : m.so ≤ m.eo ∧ m.eo ≤ s.length := by
  unfold literalRegexec at h
  split_ifs at h
  · cases h
    exact ⟨le_rfl, Nat.zero_le _⟩
  · split at h
    · next i hi =>
      cases h
      have hfound : rx.isPrefixOf (s.drop i) = true := by simpa using List.find?_some hi
      have hprefix := (List.isPrefixOf_iff_prefix.mp hfound).length_le
      have hmem := List.mem_range.mp (List.mem_of_find?_eq_some hi)
      rw [List.length_drop] at hprefix
      exact ⟨Nat.le_add_right _ _, show i + rx.length ≤ s.length by omega⟩
    · cases h

/-- `regexec` for `x*`. -/
def starRegexec (_ s : Bytes) (_ : Bool) : Regexec := .found ⟨0, (s.takeWhile (· = 120)).length, []⟩

/-- `regexec` for `^a`. -/
def caretRegexec (_ s : Bytes) (notbol : Bool) : Regexec :=
  if !notbol && s.head? = some 97 then .found ⟨0, 1, []⟩ else .nomatch

def starEnv : RemapEnv Bytes := { literalEnv with regexec := starRegexec }

def caretEnv : RemapEnv Bytes := { literalEnv with regexec := caretRegexec }

end TftpHpa
