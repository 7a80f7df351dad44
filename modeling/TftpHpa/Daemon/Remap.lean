import TftpHpa.Common.Options

/-! Filename remapping (`tftpd/remap.c`): the parser of rule lines and the interpreter
`rewrite_string`. Compiling and executing regular expressions, expanding a pattern and
trying whether a file can be transferred are left open. -/

namespace TftpHpa

/-! ### Rules -/

/-- The bits of `rule_flags`. -/
inductive RuleFlag where
  | rewrite | global | exit | restart | abort | inverse | ipv4 | ipv6
  | hasfile | rrq | wrq | sedg
  | jump | label | noregex
  deriving DecidableEq, Repr

/-- `struct rule`, with a compiled regular expression of type `ρ` where there is one. -/
structure Rule (ρ : Type*) where
  line : ℕ
  flags : RuleFlag → Bool
  rx : Option ρ
  pattern : Bytes

/-- Why a line is refused. -/
inductive ParselineError where
  | badFlag (c : UInt8)
  | badCombo (f g : RuleFlag)
  | regexMissing
  | badRegex
  deriving DecidableEq, Repr

/-- The loop of `readescstring`: a word up to a blank or a hash mark without a backslash
before it, and what follows. -/
def readescLoop (wasbs : Bool) : Bytes → Bytes × Bytes
  | [] => ([], [])
  | c :: p =>
    if !wasbs && (isspace c || c = 35) then ([], c :: p)
    else
      -- Two backslashes leave `wasbs` unset.
      let word := readescLoop (!wasbs && c = 92) p
      (c :: word.1, word.2)

/-- `readescstring`. -/
def readescstring (str : Bytes) : Bytes × Bytes := readescLoop false (str.dropWhile isspace)

/-- The flags that one operation adds up to: those of the rule and, of those passed to
`regcomp`, `REG_ICASE` and `REG_NOSUB`. -/
structure Operation where
  flags : RuleFlag → Bool
  icase : Bool := false
  nosub : Bool := false

namespace Operation

def set (o : Operation) (f : RuleFlag) : Operation := { o with flags := Function.update o.flags f true }

/-- One character of the operation. -/
def add (o : Operation) (c : UInt8) : Option Operation :=
  match Char.ofNat c.toNat with
  | 'r' => some (o.set .rewrite)
  | 'g' => some (if o.flags .global then o.set .sedg else o.set .global)
  | 'e' => some (o.set .exit)
  | 'E' => some (o.set .hasfile)
  | 's' => some (o.set .restart)
  | 'a' => some (o.set .abort)
  | 'j' => some (o.set .jump)
  | 'i' => some { o with icase := true }
  | '~' => some { o.set .inverse with nosub := true }
  | '4' => some (o.set .ipv4)
  | '6' => some (o.set .ipv6)
  | 'G' => some (o.set .rrq)
  | 'P' => some (o.set .wrq)
  | _ => none

/-- The characters from left to right. -/
def parse (o : Operation) : Bytes → Except ParselineError Operation
  | [] => .ok o
  | c :: p =>
    match o.add c with
    | some o => o.parse p
    | none => .error (.badFlag c)

end Operation

/-- The flags that cannot be combined. -/
def badcombos : List (RuleFlag × RuleFlag) :=
  [(.rewrite, .inverse), (.rewrite, .abort), (.rewrite, .jump), (.abort, .jump), (.abort, .restart),
    (.exit, .jump), (.exit, .abort), (.exit, .restart), (.exit, .hasfile), (.hasfile, .jump),
    (.hasfile, .abort), (.hasfile, .restart)]

/-- `RULE_GLOBAL` and `RULE_SEDG` are meaningless without `RULE_REWRITE`. -/
def clearGlobal (flags : RuleFlag → Bool) : RuleFlag → Bool :=
  if flags .rewrite then flags else Function.update (Function.update flags .global false) .sedg false

/-- The flags of a label. -/
def labelFlags (f : RuleFlag) : Bool := f = .label || f = .noregex

section Parseline

variable {ρ : Type*} (regcomp : Bytes → Bool → Bool → Option ρ)

/-- The end of `parseline`, after the operation: the regular expression, unless there is
none, and the pattern. -/
def readRule (o : Operation) (line : Bytes) (lineno : ℕ) : Except ParselineError (Option (Rule ρ)) :=
  let flags := clearGlobal o.flags
  if flags .noregex then
    .ok (some { line := lineno, flags := flags, rx := none, pattern := (readescstring line).1 })
  else
    let buffer := readescstring line
    if buffer.1 = [] then .error .regexMissing
    else
      match regcomp buffer.1 o.icase o.nosub with
      | none => .error .badRegex
      | some rx =>
        .ok (some { line := lineno, flags := flags, rx := some rx, pattern := (readescstring buffer.2).1 })

/-- `parseline` from the loop over the operation on. -/
def readOperation (flags : RuleFlag → Bool) (p line : Bytes) (lineno : ℕ) :
    Except ParselineError (Option (Rule ρ)) :=
  match Operation.parse { flags := flags } p with
  | .error e => .error e
  | .ok o =>
    match badcombos.find? fun bc => o.flags bc.1 && o.flags bc.2 with
    | some bc => .error (.badCombo bc.1 bc.2)
    | none => readRule regcomp o line lineno

/-- `parseline`; `ok none` is a line without a rule. A lone colon goes the way of an
operation, as a label whose name is the next word. `regcomp` is given the text, `REG_ICASE`
and `REG_NOSUB`. -/
def parseline (line : Bytes) (lineno : ℕ) : Except ParselineError (Option (Rule ρ)) :=
  let word := readescstring line
  match word.1 with
  | [] => .ok none
  | c :: p =>
    if c = 58 then
      if p ≠ [] then .ok (some { line := lineno, flags := labelFlags, rx := none, pattern := p })
      else readOperation regcomp labelFlags p word.2 lineno
    else readOperation regcomp (fun _ => false) (c :: p) word.2 lineno

/-- `parserulefile`, after `lineno` lines, on the lines that `read_line` returns; `none` is
the exit after an error. -/
def parserulefile (lineno : ℕ) : List Bytes → Option (List (Rule ρ))
  | [] => some []
  | line :: lines =>
    match parseline regcomp line (lineno + 1), parserulefile (lineno + 1) lines with
    | .ok (some r), some rules => some (r :: rules)
    | .ok none, some rules => some rules
    | _, _ => none

end Parseline

/-- What a rule that has been read satisfies. -/
structure Rule.Accepted {ρ : Type*} (r : Rule ρ) : Prop where
  combos : ∀ bc ∈ badcombos, (r.flags bc.1 && r.flags bc.2) = false
  noregex : r.flags .noregex = r.flags .label

theorem Operation.add_label {o o' : Operation} {c : UInt8} (h : o.add c = some o') :
    o'.flags .label = o.flags .label ∧ o'.flags .noregex = o.flags .noregex := by
  unfold Operation.add at h
  split at h
  case h_2 =>
    split at h <;> cases h <;> exact ⟨rfl, rfl⟩
  all_goals
    cases h
    try exact ⟨rfl, rfl⟩

theorem Operation.parse_label {o o' : Operation} {p : Bytes} (h : o.parse p = .ok o') :
    o'.flags .label = o.flags .label ∧ o'.flags .noregex = o.flags .noregex := by
  induction p generalizing o with
  | nil =>
    cases h
    exact ⟨rfl, rfl⟩
  | cons c p ih =>
    rw [Operation.parse] at h
    split at h
    · next o₁ hc =>
      have hadd := Operation.add_label hc
      have hrest := ih h
      exact ⟨hrest.1.trans hadd.1, hrest.2.trans hadd.2⟩
    · cases h

theorem clearGlobal_label (flags : RuleFlag → Bool) :
    clearGlobal flags .label = flags .label ∧ clearGlobal flags .noregex = flags .noregex := by
  unfold clearGlobal
  split <;> exact ⟨rfl, rfl⟩

theorem clearGlobal_le {flags : RuleFlag → Bool} {f : RuleFlag} (h : clearGlobal flags f = true) :
    flags f = true := by
  unfold clearGlobal at h
  split at h
  · exact h
  · simp only [Function.update_apply] at h
    split_ifs at h
    exact h

section Parseline

variable {ρ : Type*} {regcomp : Bytes → Bool → Bool → Option ρ} {r : Rule ρ} {p line : Bytes} {lineno : ℕ}

theorem readRule_flags {o : Operation} (h : readRule regcomp o line lineno = .ok (some r)) :
    r.flags = clearGlobal o.flags := by
  simp only [readRule] at h
  split at h
  · cases h
    rfl
  · split at h
    · cases h
    · split at h <;> cases h
      rfl

theorem readOperation_accepted {flags : RuleFlag → Bool} (hflags : flags .noregex = flags .label)
    (h : readOperation regcomp flags p line lineno = .ok (some r)) : r.Accepted := by
  unfold readOperation at h
  split at h
  · cases h
  · next o ho =>
    split at h
    · cases h
    · next hbc =>
      have hr := readRule_flags h
      have hlabel := Operation.parse_label ho
      refine ⟨fun bc hmem => ?_, ?_⟩
      · have hnot := List.find?_eq_none.mp hbc bc hmem
        rw [hr, Bool.eq_false_iff]
        intro hand
        rw [Bool.and_eq_true] at hand
        exact hnot (Bool.and_eq_true_iff.mpr ⟨clearGlobal_le hand.1, clearGlobal_le hand.2⟩)
      · rw [hr, (clearGlobal_label o.flags).1, (clearGlobal_label o.flags).2, hlabel.1, hlabel.2]
        exact hflags

/-- Every rule of a file comes from one of its lines. -/
theorem exists_parseline {lines : List Bytes} {rules : List (Rule ρ)}
    (h : parserulefile regcomp lineno lines = some rules) :
    ∀ r ∈ rules, ∃ line lineno, parseline regcomp line lineno = .ok (some r) := by
  induction lines generalizing lineno rules with
  | nil =>
    cases h
    exact nofun
  | cons line lines ih =>
    unfold parserulefile at h
    split at h
    · next r rules' hr hrules =>
      cases h
      exact List.forall_mem_cons.mpr ⟨⟨line, _, hr⟩, ih hrules⟩
    · next rules' _ hrules =>
      cases h
      exact ih hrules
    · cases h

theorem labelFlags_combos : ∀ bc ∈ badcombos, (labelFlags bc.1 && labelFlags bc.2) = false := by decide

theorem parseline_accepted (h : parseline regcomp line lineno = .ok (some r)) : r.Accepted := by
  simp only [parseline] at h
  split at h
  · cases h
  · split_ifs at h
    · cases h
      exact ⟨labelFlags_combos, rfl⟩
    · exact readOperation_accepted rfl h
    · exact readOperation_accepted rfl h

end Parseline

/-! ### The interpreter -/

/-- What `regexec` stores in `pmatch`: where the match begins and ends, and the same for the
parenthesized subexpressions that took part. -/
structure RegMatch where
  so : ℕ
  eo : ℕ
  subs : List (Option (ℕ × ℕ)) := []
  deriving DecidableEq, Repr

/-- What `regexec` returns: zero, `REG_NOMATCH` or another error. -/
inductive Regexec where
  | found (m : RegMatch)
  | nomatch
  | failed
  deriving DecidableEq, Repr

/-- What a call of `rewrite_string` depends on besides the rules and the string: `regexec`
with or without `REG_NOTBOL`, the expansion of a pattern for a match in a string, and
whether `f_validate` returns zero. An array `pmatch` that has been cleared is `none`. -/
structure RemapEnv (ρ : Type*) where
  regexec : ρ → Bytes → Bool → Regexec
  expand : Bytes → Bytes → Option RegMatch → Option Bytes
  validate : Bytes → Bool
  mode : UInt16
  af : AddressFamily

/-- The string, its length and the offset of what follows the expansion. -/
structure Genmatch where
  string : Bytes
  len : ℕ
  next : ℕ

/-- What comes back: a string, or `NULL` with the message left in `errmsg`. -/
abbrev Remapped := Except (Option Bytes) Bytes

/-- The default error. -/
def remapFailure : Remapped := .error (some (cstr "Remap table failure"))

/-- Where the interpreter stands when it counts a step: before it tries a rule, or before it
replaces another match. `next` are the rules after the current one. -/
inductive RemapPc (ρ : Type*) where
  | done (result : Remapped)
  | rule (r : Rule ρ) (next : List (Rule ρ)) (current : Bytes)
  | replace (r : Rule ρ) (next : List (Rule ρ)) (current newstr : Bytes) (pmatch : Option RegMatch) (ggoffset : ℕ)

namespace RemapEnv

variable {ρ : Type*} (env : RemapEnv ρ)

/-- The flags of rules that are passed over. -/
def badFlags (f : RuleFlag) : Bool :=
  match f with
  | .label | .noregex => true
  | .rrq => env.mode ≠ Opcode.rrq.code
  | .wrq => env.mode ≠ Opcode.wrq.code
  | .ipv4 => env.af ≠ .inet
  | .ipv6 => env.af ≠ .inet6
  | _ => false

/-- `ruleptr->rule_flags & bad_flags`. -/
def passesOver (r : Rule ρ) : Bool :=
  [RuleFlag.label, .noregex, .rrq, .wrq, .ipv4, .ipv6].any fun f => r.flags f && env.badFlags f

/-- Whether a rule matches: the call of `regexec` and the test of what it returns. A match
comes with the contents of `pmatch`. -/
def ruleMatch (r : Rule ρ) (string : Bytes) (notbol : Bool) : Option (Option RegMatch) :=
  match r.rx.map fun rx => env.regexec rx string notbol with
  | some (.found m) => if r.flags .inverse then none else some (some m)
  | some .nomatch => if r.flags .inverse then some none else none
  | some .failed | none => none

/-- `genmatchstring`, with `none` for `MATCHONLY`. -/
def genmatchstring (pattern ibuf : Bytes) (pmatch : Option RegMatch) : Option ℕ → Option Genmatch
  | none => (env.expand pattern ibuf pmatch).map fun s => ⟨s, s.length, s.length⟩
  | some start =>
    match pmatch with
    | none => some ⟨ibuf, ibuf.length + 1, start⟩
    | some m =>
      let input := ibuf.drop start
      (env.expand pattern input pmatch).map fun s =>
        let head := ibuf.take (start + m.so) ++ s
        let string := head ++ input.drop m.eo
        ⟨string, string.length, head.length⟩

/-- The label `nextrule`: on to the next rule that is not passed over. -/
def nextrule : List (Rule ρ) → Bytes → RemapPc ρ
  | [], current => .done (.ok current)
  | r :: next, current => if env.passesOver r then nextrule next current else .rule r next current

/-- The search for the label of a jump. -/
def findLabel (name : Bytes) : List (Rule ρ) → Option (List (Rule ρ))
  | [] => none
  | r :: next => if r.flags .label && name = r.pattern then some (r :: next) else findLabel name next

/-- The rest of the loop body once the string has been rewritten, from the test of
`RULE_HASFILE` on. -/
def finish (rules : List (Rule ρ)) (r : Rule ρ) (next : List (Rule ρ)) (current newstr : Bytes)
    (pmatch : Option RegMatch) : RemapPc ρ :=
  if r.flags .hasfile && !env.validate newstr then env.nextrule next current
  else
    let current := newstr
    let newstr :=
      if r.flags .abort || r.flags .jump then
        ((env.genmatchstring r.pattern current pmatch none).filter fun g => 0 < g.len).map Genmatch.string
      else none
    if r.flags .abort then .done (.error newstr)
    else if r.flags .exit || r.flags .hasfile then .done (.ok current)
    else if r.flags .restart then env.nextrule rules current
    else if r.flags .jump then
      match newstr with
      | none => .done remapFailure
      | some name =>
        match findLabel name rules with
        | none => .done remapFailure
        | some next => env.nextrule next current
    else env.nextrule next current

/-- One round of the replacement loop. -/
def replaceStep (rules : List (Rule ρ)) (r : Rule ρ) (next : List (Rule ρ)) (current newstr : Bytes)
    (pmatch : Option RegMatch) (ggoffset : ℕ) : RemapPc ρ :=
  match env.genmatchstring r.pattern newstr pmatch (some ggoffset) with
  | none => .done remapFailure
  | some g =>
    if !r.flags .global then env.finish rules r next current g.string pmatch
    else if r.flags .sedg && g.len ≤ g.next then env.finish rules r next current g.string pmatch
    else
      let ggoffset := if r.flags .sedg then g.next else 0
      match env.ruleMatch r (g.string.drop ggoffset) (ggoffset ≠ 0) with
      | none => env.finish rules r next current g.string none
      | some pmatch => .replace r next current g.string pmatch ggoffset

/-- A rule is tried on the current string. -/
def ruleStep (rules : List (Rule ρ)) (r : Rule ρ) (next : List (Rule ρ)) (current : Bytes) : RemapPc ρ :=
  match env.ruleMatch r current false with
  | none => env.nextrule next current
  | some pmatch =>
    if r.flags .rewrite then env.replaceStep rules r next current current pmatch 0
    else env.finish rules r next current current pmatch

/-- The interpreter with its step counter `deadman`; `none` when that has expired. -/
def remapLoop (rules : List (Rule ρ)) : ℕ → RemapPc ρ → Option Remapped
  | _, .done result => some result
  | 0, _ => none
  | deadman + 1, .rule r next current => remapLoop rules deadman (env.ruleStep rules r next current)
  | deadman + 1, .replace r next current newstr pmatch ggoffset =>
    remapLoop rules deadman (env.replaceStep rules r next current newstr pmatch ggoffset)

/-- `rewrite_string` with `map_steps`. -/
def rewriteString (mapSteps : ℕ) (rules : List (Rule ρ)) (input : Bytes) : Option Remapped :=
  env.remapLoop rules mapSteps (env.nextrule rules input)

end RemapEnv

end TftpHpa
