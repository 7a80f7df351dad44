import Mathlib.Data.List.DropRight
import TftpHpa.Daemon.Remap
import TftpHpa.Lib.Buffer

/-! The rule file (`parserulefile`) with its buffers. Lines are read into a buffer that grows
with the longest of them, and their words are copied into a work buffer; both are used again for
the next line. Nothing stands for an access outside a buffer. -/

namespace TftpHpa

open Buffer

/-! ### Reading a line -/

def MIN_LINE : ℕ := 64

/-- What `read_line` leaves: the length, which is none at the end of the file, the rest of the file
and the buffer. -/
structure ReadLine where
  len : Option ℕ
  f : Bytes
  buf : Bytes

/-- The next size of a buffer. -/
def lineSize (bufsize : ℕ) : ℕ := if bufsize < MIN_LINE then MIN_LINE else bufsize <<< 1

theorem lt_lineSize (bufsize : ℕ) : bufsize < lineSize bufsize := by
  unfold lineSize MIN_LINE
  rw [Nat.shiftLeft_eq]
  split_ifs <;> omega

section Lines

variable (fresh : ℕ → UInt8)

/-- The loops of `read_line`, with `len` characters in the buffer. -/
def readLineLoop (f buf : Bytes) (len : ℕ) : Option ReadLine :=
  if len + 1 < buf.length then
    match f with
    | [] => (store buf len 0).map fun buf => { len := if len ≠ 0 then some len else none, f := [], buf := buf }
    | c :: f =>
      if c = 10 then (store buf len 0).map fun buf => { len := some len, f := f, buf := buf }
      else if c ≠ 0 ∧ c ≠ 13 then (store buf len c).bind fun buf => readLineLoop f buf (len + 1)
      else readLineLoop f buf len
  else readLineLoop f (grow fresh buf (lineSize buf.length)) len
termination_by (f.length, len + 2 - buf.length)
decreasing_by
  · exact Prod.Lex.left _ _ (Nat.lt_succ_self _)
  · exact Prod.Lex.left _ _ (Nat.lt_succ_self _)
  · refine Prod.Lex.right _ ?_
    have := lt_lineSize buf.length
    rw [length_grow]
    omega

/-- `read_line`. -/
def readLine (f buf : Bytes) : Option ReadLine := readLineLoop fresh f buf 0

/-- The characters of a line that are not dropped. -/
def kept (line : Bytes) : Bytes := line.filter fun c => c ≠ 0 ∧ c ≠ 13

/-- A buffer with room for a character and the NUL does as well. -/
theorem readLineLoop_room (f written rest : Bytes) : ∃ r r' rest',
    readLineLoop fresh f (written ++ rest) written.length =
      readLineLoop fresh f (written ++ r :: r' :: rest') written.length := by
  induction hn : 2 - rest.length using Nat.strongRecOn generalizing rest with
  | _ n ih =>
    by_cases hroom : written.length + 1 < (written ++ rest).length
    · match rest, hroom with
      | r :: r' :: rest, _ => exact ⟨r, r', rest, rfl⟩
      | [_], h | [], h => simp at h
    · have hlt := lt_lineSize (written ++ rest).length
      rw [List.length_append] at hroom hlt
      rw [readLineLoop.eq_def, if_neg (by rwa [List.length_append]), grow, List.append_assoc]
      refine ih _ ?_ _ rfl
      rw [List.length_append, List.length_map, List.length_range, List.length_append]
      omega

/-- Characters before the end of the line. -/
theorem readLineLoop_append {p : Bytes} (hp : 10 ∉ p) (f written rest : Bytes) : ∃ rest',
    readLineLoop fresh (p ++ f) (written ++ rest) written.length =
      readLineLoop fresh f (written ++ kept p ++ rest') (written ++ kept p).length := by
  induction p generalizing written rest with
  | nil => exact ⟨rest, by rw [kept, List.filter_nil, List.append_nil, List.nil_append]⟩
  | cons c p ih =>
    rw [List.mem_cons, not_or] at hp
    obtain ⟨r, r', rest', hroom⟩ := readLineLoop_room fresh (c :: p ++ f) written rest
    rw [hroom, List.cons_append, readLineLoop, if_pos (by simp), if_neg (Ne.symm hp.1)]
    by_cases hc : c ≠ 0 ∧ c ≠ 13
    · rw [if_pos hc, store_append, Option.bind_some]
      have hkept : written ++ kept (c :: p) = written ++ [c] ++ kept p := by simp [kept, hc]
      rw [hkept]
      simpa using ih hp.2 (written ++ [c]) (r' :: rest')
    · rw [if_neg hc]
      have hkept : kept (c :: p) = kept p := by simp [kept, hc]
      rw [hkept]
      exact ih hp.2 written (r :: r' :: rest')

/-- A line with a newline. -/
theorem readLine_newline {p : Bytes} (hp : 10 ∉ p) (f buf : Bytes) : ∃ rest,
    readLine fresh (p ++ 10 :: f) buf =
      some { len := some (kept p).length, f := f, buf := kept p ++ 0 :: rest } := by
  obtain ⟨rest, happend⟩ := readLineLoop_append fresh hp (10 :: f) [] buf
  obtain ⟨r, r', rest', hroom⟩ := readLineLoop_room fresh (10 :: f) (kept p) rest
  refine ⟨r' :: rest', ?_⟩
  rw [readLine]
  refine happend.trans ?_
  rw [List.nil_append, hroom, readLineLoop, if_pos (by simp), if_pos rfl, store_append, Option.map_some]

/-- What comes after the last newline. -/
theorem readLine_end {p : Bytes} (hp : 10 ∉ p) (buf : Bytes) : ∃ rest,
    readLine fresh p buf =
      some { len := if kept p ≠ [] then some (kept p).length else none, f := [], buf := kept p ++ 0 :: rest } := by
  obtain ⟨rest, happend⟩ := readLineLoop_append fresh hp [] [] buf
  obtain ⟨r, r', rest', hroom⟩ := readLineLoop_room fresh [] (kept p) rest
  refine ⟨r' :: rest', ?_⟩
  rw [List.append_nil] at happend
  rw [readLine]
  refine happend.trans ?_
  rw [List.nil_append, hroom, readLineLoop, if_pos (by simp), store_append, Option.map_some]
  simp only [ne_eq, List.length_eq_zero_iff]

/-- A call that returns a line has read a character. -/
theorem readLine_length_lt {f buf : Bytes} {r : ReadLine} (h : readLine fresh f buf = some r) {n : ℕ}
    (hlen : r.len = some n) : r.f.length < f.length := by
  by_cases hnewline : 10 ∈ f
  · obtain ⟨p, f, rfl, hp⟩ := List.eq_append_cons_of_mem hnewline
    obtain ⟨rest, heq⟩ := readLine_newline fresh hp f buf
    obtain rfl := Option.some.inj (h.symm.trans heq)
    simp
    omega
  · obtain ⟨rest, heq⟩ := readLine_end fresh hnewline buf
    obtain rfl := Option.some.inj (h.symm.trans heq)
    cases f with
    | nil => simp [kept] at hlen
    | cons c f => simp

theorem notMem_kept (p : Bytes) : (0 : UInt8) ∉ kept p := by simp [kept]

end Lines

/-! ### Reading a word -/

/-- What `readescstring` leaves: the length, the buffer and the pointer to what follows. -/
structure Readesc where
  len : ℕ
  buf : Bytes
  str : Bytes

/-- Over white space. A pointer is what is in memory from there on. -/
def skipSpaces : Bytes → Option Bytes
  | [] => none
  | c :: p => if c ≠ 0 ∧ isspace c then skipSpaces p else some (c :: p)

/-- The loop of `readescstring`, with `len` characters in the buffer. -/
def readescLoopAt (wasbs : Bool) (buf : Bytes) (len : ℕ) : Bytes → Option Readesc
  | [] => none
  | c :: p =>
    if c = 0 ∨ !wasbs && (isspace c || c = 35) then
      (store buf len 0).map fun buf => { len := len, buf := buf, str := c :: p }
    else (store buf len c).bind fun buf => readescLoopAt (!wasbs && c = 92) buf (len + 1) p

/-- `readescstring`. -/
def readescstringAt (buf str : Bytes) : Option Readesc :=
  match skipSpaces str with
  | none | some [] => none
  | some (c :: p) =>
    if c = 0 then (store buf 0 0).map fun buf => { len := 0, buf := buf, str := c :: p }
    else readescLoopAt false buf 0 (c :: p)

theorem skipSpaces_eq {p s : Bytes} (h : Holds 0 p s) :
    ∃ p', skipSpaces p = some p' ∧ Holds 0 p' (s.dropWhile isspace) := by
  induction s generalizing p with
  | nil =>
    obtain ⟨rest, rfl⟩ := h.eq_cons
    exact ⟨_, if_neg (by simp), h⟩
  | cons c s ih =>
    obtain ⟨hc, p, rfl, htail⟩ := h.tail
    by_cases hspace : isspace c
    · rw [skipSpaces, if_pos ⟨hc, hspace⟩, List.dropWhile_cons_of_pos hspace]
      exact ih htail
    · rw [skipSpaces, if_neg fun hand => hspace hand.2, List.dropWhile_cons_of_neg hspace]
      exact ⟨_, rfl, h⟩

/-- What a call of `readescstring` on a string does. -/
structure ReadsWord (word : Bytes × Bytes) (size : ℕ) (w : Readesc) : Prop where
  len : w.len = word.1.length
  buf : Holds 0 w.buf word.1
  str : Holds 0 w.str word.2
  size : w.buf.length = size

theorem readescLoopAt_eq {p s : Bytes} (h : Holds 0 p s) (wasbs : Bool) {written rest : Bytes}
    (hwritten : 0 ∉ written) (hrest : s.length < rest.length) :
    ∃ w, readescLoopAt wasbs (written ++ rest) written.length p = some w ∧
      ReadsWord (written ++ (readescLoop wasbs s).1, (readescLoop wasbs s).2) (written ++ rest).length w := by
  induction s generalizing p wasbs written rest with
  | nil =>
    obtain ⟨tail, rfl⟩ := h.eq_cons
    obtain ⟨r, rest, rfl⟩ := List.exists_cons_of_length_pos hrest
    refine ⟨_, by rw [readescLoopAt, if_pos (.inl rfl), store_append, Option.map_some], ?_⟩
    simp only [readescLoop, List.append_nil]
    exact ⟨rfl, .mk_append hwritten rest, h, by simp⟩
  | cons c s ih =>
    obtain ⟨hc, p, rfl, htail⟩ := h.tail
    obtain ⟨r, rest, rfl⟩ := List.exists_cons_of_length_pos (Nat.zero_lt_of_lt hrest)
    by_cases hstop : (!wasbs && (isspace c || c = 35)) = true
    · refine ⟨_, by rw [readescLoopAt, if_pos (.inr hstop), store_append, Option.map_some], ?_⟩
      simp only [readescLoop, if_pos hstop, List.append_nil]
      exact ⟨rfl, .mk_append hwritten rest, h, by simp⟩
    · rw [readescLoopAt, if_neg (not_or.mpr ⟨hc, hstop⟩), store_append, Option.bind_some]
      have hnext : 0 ∉ written ++ [c] := by simp [hwritten, Ne.symm hc]
      obtain ⟨w, hw, hreads⟩ := ih htail (!wasbs && c = 92) hnext (Nat.lt_of_succ_lt_succ hrest)
      refine ⟨w, by simpa using hw, ?_⟩
      simp only [readescLoop, if_neg hstop]
      simpa using hreads

theorem readescstringAt_eq {str s buf : Bytes} (h : Holds 0 str s) (hbuf : s.length < buf.length) :
    ∃ w, readescstringAt buf str = some w ∧ ReadsWord (readescstring s) buf.length w := by
  obtain ⟨p, hp, hholds⟩ := skipSpaces_eq h
  have hlen : (s.dropWhile isspace).length < buf.length := (List.length_dropWhile_le _ _).trans_lt hbuf
  obtain ⟨w, hw, hreads⟩ := readescLoopAt_eq hholds false (List.not_mem_nil (a := 0)) hlen
  refine ⟨w, ?_, hreads⟩
  rw [readescstringAt, hp]
  cases hs : s.dropWhile isspace with
  | nil =>
    rw [hs] at hholds
    obtain ⟨rest, rfl⟩ := hholds.eq_cons
    exact hw
  | cons c t =>
    rw [hs] at hholds
    obtain ⟨hc, p, rfl, -⟩ := hholds.tail
    exact (if_neg hc).trans hw

theorem readescLoop_append (wasbs : Bool) (s : Bytes) :
    (readescLoop wasbs s).1 ++ (readescLoop wasbs s).2 = s := by
  induction s generalizing wasbs with
  | nil => rfl
  | cons c s ih =>
    rw [readescLoop]
    split_ifs
    · rfl
    · exact congrArg (c :: ·) (ih _)

theorem length_readescstring_le (s : Bytes) : (readescstring s).2.length ≤ s.length := by
  have happend := congrArg List.length (readescLoop_append false (s.dropWhile isspace))
  have hdrop := s.length_dropWhile_le isspace
  rw [List.length_append] at happend
  rw [readescstring]
  omega

/-- The buffer that a word has been read into has room for what follows. -/
theorem ReadsWord.length_lt {s : Bytes} {size : ℕ} {w : Readesc} (h : ReadsWord (readescstring s) size w)
    (hs : s.length < size) : (readescstring s).2.length < w.buf.length :=
  h.size ▸ (length_readescstring_le s).trans_lt hs

/-! ### Parsing a line -/

section Parse

variable {ρ : Type*} (regcomp : Bytes → Bool → Bool → Option ρ)

/-- The pattern of a rule: a copy of the word, or an empty string if there is none. -/
def Readesc.pattern (w : Readesc) : Option Bytes := if w.len ≠ 0 then string 0 w.buf else some []

/-- The end of `parseline`, after the operation, with the work buffer. -/
def readRuleAt (o : Operation) (line buffer : Bytes) (lineno : ℕ) :
    Option (Except ParselineError (Option (Rule ρ)) × Bytes) :=
  let flags := clearGlobal o.flags
  if flags .noregex then
    (readescstringAt buffer line).bind fun w =>
      w.pattern.map fun pattern =>
        (.ok (some { line := lineno, flags := flags, rx := none, pattern := pattern }), w.buf)
  else
    (readescstringAt buffer line).bind fun w =>
      if w.len = 0 then some (.error .regexMissing, w.buf)
      else (string 0 w.buf).bind fun text =>
        match regcomp text o.icase o.nosub with
        | none => some (.error .badRegex, w.buf)
        | some rx =>
          (readescstringAt w.buf w.str).bind fun w =>
            w.pattern.map fun pattern =>
              (.ok (some { line := lineno, flags := flags, rx := some rx, pattern := pattern }), w.buf)

/-- `parseline` from the loop over the operation on. -/
def readOperationAt (flags : RuleFlag → Bool) (p line buffer : Bytes) (lineno : ℕ) :
    Option (Except ParselineError (Option (Rule ρ)) × Bytes) :=
  match Operation.parse { flags := flags } p with
  | .error e => some (.error e, buffer)
  | .ok o =>
    match badcombos.find? fun bc => o.flags bc.1 && o.flags bc.2 with
    | some bc => some (.error (.badCombo bc.1 bc.2), buffer)
    | none => readRuleAt regcomp o line buffer lineno

/-- `parseline`. -/
def parselineAt (line buffer : Bytes) (lineno : ℕ) :
    Option (Except ParselineError (Option (Rule ρ)) × Bytes) :=
  (readescstringAt buffer line).bind fun w =>
    if w.len = 0 then some (.ok none, w.buf)
    else (string 0 w.buf).bind fun word =>
      match word with
      | [] => readOperationAt regcomp (fun _ => false) [] w.str w.buf lineno
      | c :: p =>
        if c = 58 then
          if p ≠ [] then
            some (.ok (some { line := lineno, flags := labelFlags, rx := none, pattern := p }), w.buf)
          else readOperationAt regcomp labelFlags p w.str w.buf lineno
        else readOperationAt regcomp (fun _ => false) (c :: p) w.str w.buf lineno

/-- A computation with the work buffer that comes to a result and leaves a buffer of its size. -/
def Leaves {β : Type*} (m : Option (β × Bytes)) (b : β) (size : ℕ) : Prop :=
  ∃ buffer : Bytes, m = some (b, buffer) ∧ buffer.length = size

theorem ReadsWord.pattern_eq {word : Bytes × Bytes} {size : ℕ} {w : Readesc} (h : ReadsWord word size w) :
    w.pattern = some word.1 := by
  rw [Readesc.pattern, h.len]
  split_ifs with hlen
  · exact h.buf.string_eq
  · rw [List.eq_nil_of_length_eq_zero (not_not.mp hlen)]

theorem readRuleAt_eq (o : Operation) {line s buffer : Bytes} (h : Holds 0 line s)
    (hbuffer : s.length < buffer.length) (lineno : ℕ) :
    Leaves (readRuleAt regcomp o line buffer lineno) (readRule regcomp o s lineno) buffer.length := by
  obtain ⟨w, hw, hreads⟩ := readescstringAt_eq h hbuffer
  simp only [readRuleAt, readRule, hw, Option.bind_some]
  by_cases hregex : clearGlobal o.flags .noregex
  · simp only [if_pos hregex, hreads.pattern_eq, Option.map_some]
    exact ⟨_, rfl, hreads.size⟩
  simp only [if_neg hregex, hreads.len, List.length_eq_zero_iff, hreads.buf.string_eq, Option.bind_some]
  by_cases hmissing : (readescstring s).1 = []
  · simp only [if_pos hmissing]
    exact ⟨_, rfl, hreads.size⟩
  simp only [if_neg hmissing]
  cases regcomp (readescstring s).1 o.icase o.nosub with
  | none => exact ⟨_, rfl, hreads.size⟩
  | some rx =>
    obtain ⟨w', hw', hreads'⟩ := readescstringAt_eq hreads.str (hreads.length_lt hbuffer)
    simp only [hw', Option.bind_some, hreads'.pattern_eq, Option.map_some]
    exact ⟨_, rfl, hreads'.size.trans hreads.size⟩

theorem readOperationAt_eq (flags : RuleFlag → Bool) (p : Bytes) {line s buffer : Bytes} (h : Holds 0 line s)
    (hbuffer : s.length < buffer.length) (lineno : ℕ) :
    Leaves (readOperationAt regcomp flags p line buffer lineno) (readOperation regcomp flags p s lineno)
      buffer.length := by
  rw [readOperationAt, readOperation]
  cases Operation.parse { flags := flags } p with
  | error e => exact ⟨_, rfl, rfl⟩
  | ok o =>
    dsimp only
    cases badcombos.find? fun bc => o.flags bc.1 && o.flags bc.2 with
    | some bc => exact ⟨_, rfl, rfl⟩
    | none => exact readRuleAt_eq regcomp o h hbuffer lineno

/-- The work buffer needs no more than the length of the line with its NUL. -/
theorem parselineAt_eq {line s buffer : Bytes} (h : Holds 0 line s) (hbuffer : s.length < buffer.length)
    (lineno : ℕ) :
    Leaves (parselineAt regcomp line buffer lineno) (parseline regcomp s lineno) buffer.length := by
  obtain ⟨w, hw, hreads⟩ := readescstringAt_eq h hbuffer
  have hlen := hreads.length_lt hbuffer
  rw [parselineAt, parseline, hw, Option.bind_some, hreads.len, ← hreads.size, hreads.buf.string_eq,
    Option.bind_some]
  cases (readescstring s).1 with
  | nil => exact ⟨_, rfl, rfl⟩
  | cons c p =>
    have hlen0 : (c :: p).length ≠ 0 := Nat.succ_ne_zero p.length
    rw [if_neg hlen0]
    dsimp only
    by_cases hlabel : c = 58
    · rw [if_pos hlabel, if_pos hlabel]
      by_cases hname : p ≠ []
      · rw [if_pos hname, if_pos hname]
        exact ⟨_, rfl, rfl⟩
      · rw [if_neg hname, if_neg hname]
        exact readOperationAt_eq regcomp _ _ hreads.str hlen lineno
    · rw [if_neg hlabel, if_neg hlabel]
      exact readOperationAt_eq regcomp _ _ hreads.str hlen lineno

end Parse

/-! ### The whole file -/

/-- A line that `parserulefile` has processed: the string it has passed to `parseline`, and what
that has come to. -/
structure Processed (ρ : Type*) where
  line : Bytes
  rv : Except ParselineError (Option (Rule ρ))

section File

variable {ρ : Type*} (regcomp : Bytes → Bool → Bool → Option ρ) (fresh : ℕ → UInt8)

/-- The loop of `parserulefile` with its two buffers. -/
def processLines (f line parsebuf : Bytes) (lineno : ℕ) : Option (List (Processed ρ)) :=
  match _h : readLine fresh f line with
  | none => none
  | some r =>
    match hlen : r.len with
    | none => some []
    | some _ =>
      let parsebuf := if parsebuf.length < r.buf.length then grow fresh parsebuf r.buf.length else parsebuf
      (parselineAt regcomp r.buf parsebuf (lineno + 1)).bind fun rv =>
        (string 0 r.buf).bind fun str =>
          (processLines r.f r.buf rv.2 (lineno + 1)).map fun ps => { line := str, rv := rv.1 } :: ps
termination_by f.length
decreasing_by exact readLine_length_lt fresh _h hlen

/-- The rules, or nothing after an error. -/
def rulesOf : List (Processed ρ) → Option (List (Rule ρ))
  | [] => some []
  | p :: ps =>
    match p.rv with
    | .error _ => none
    | .ok r => (rulesOf ps).map (r.toList ++ ·)

/-- What is left of the lines of a file: of each that ends in a newline, and of what follows the
last newline if it is not empty. -/
def ruleLines (content : Bytes) : List Bytes :=
  let pieces := content.splitOn 10
  pieces.dropLast.map kept ++ [kept (pieces.getLastD [])].filter (· ≠ [])

theorem ruleLines_newline {p : Bytes} (hp : 10 ∉ p) (f : Bytes) :
    ruleLines (p ++ 10 :: f) = kept p :: ruleLines f := by
  obtain ⟨piece, pieces, hsplit⟩ := List.exists_cons_of_ne_nil (List.splitOn_ne_nil 10 f)
  rw [ruleLines, List.splitOn_append_cons_self_of_not_mem hp f, ruleLines, hsplit]
  rfl

theorem ruleLines_end {p : Bytes} (hp : 10 ∉ p) : ruleLines p = [kept p].filter (· ≠ []) := by
  rw [ruleLines, List.splitOn_eq_singleton hp]
  rfl

/-- One line is parsed within the buffers, whatever has been in them before. -/
theorem processLines_line {f f' line s rest : Bytes} {n : ℕ} (parsebuf : Bytes) (lineno : ℕ) (hs : 0 ∉ s)
    (h : readLine fresh f line = some { len := some n, f := f', buf := s ++ 0 :: rest }) :
    ∃ parsebuf', processLines regcomp fresh f line parsebuf lineno =
      (processLines regcomp fresh f' (s ++ 0 :: rest) parsebuf' (lineno + 1)).map fun ps =>
        { line := s, rv := parseline regcomp s (lineno + 1) } :: ps := by
  have hholds : Holds 0 (s ++ 0 :: rest) s := .mk_append hs rest
  set parsebuf' := if parsebuf.length < (s ++ 0 :: rest).length then grow fresh parsebuf (s ++ 0 :: rest).length
    else parsebuf with hparsebuf
  have hlen : s.length < parsebuf'.length := by
    refine hholds.length_lt.trans_le ?_
    rw [hparsebuf]
    split_ifs with hsmall
    · exact (length_grow fresh parsebuf _).symm ▸ le_max_right _ _
    · exact not_lt.mp hsmall
  obtain ⟨buffer, hparse, -⟩ := parselineAt_eq regcomp hholds hlen (lineno + 1)
  refine ⟨buffer, ?_⟩
  rw [processLines.eq_def]
  split
  · next hnone => cases h.symm.trans hnone
  · next r hsome =>
    obtain rfl := Option.some.inj (h.symm.trans hsome)
    dsimp only
    rw [← hparsebuf, hparse, Option.bind_some, hholds.string_eq, Option.bind_some]

theorem processLines_end {f f' line parsebuf buf : Bytes} {lineno : ℕ}
    (h : readLine fresh f line = some { len := none, f := f', buf := buf }) :
    processLines regcomp fresh f line parsebuf lineno = some [] := by
  rw [processLines.eq_def]
  split
  · next hnone => cases h.symm.trans hnone
  · next r hsome =>
    obtain rfl := Option.some.inj (h.symm.trans hsome)
    rfl

/-- The lines that are processed, with what the parser makes of them. -/
theorem processLines_eq (content line parsebuf : Bytes) (lineno : ℕ) :
    processLines regcomp fresh content line parsebuf lineno =
      some ((ruleLines content).mapIdx fun i s =>
        { line := s, rv := parseline regcomp s (lineno + i + 1) }) := by
  induction hn : content.length using Nat.strongRecOn generalizing content line parsebuf lineno with
  | _ n ih =>
    by_cases hnewline : 10 ∈ content
    · obtain ⟨p, f, rfl, hp⟩ := List.eq_append_cons_of_mem hnewline
      obtain ⟨rest, hread⟩ := readLine_newline fresh hp f line
      obtain ⟨parsebuf', hline⟩ := processLines_line regcomp fresh parsebuf lineno (notMem_kept p) hread
      have hlt : f.length < n := by
        rw [← hn, List.length_append, List.length_cons]
        omega
      rw [hline, ih _ hlt f _ parsebuf' (lineno + 1) rfl, ruleLines_newline hp, List.mapIdx_cons, Option.map_some]
      simp only [Nat.add_assoc, Nat.add_comm 1, Nat.add_zero]
    · obtain ⟨rest, hread⟩ := readLine_end fresh hnewline line
      rw [ruleLines_end hnewline]
      by_cases hempty : kept content = []
      · rw [if_neg (not_not.mpr hempty)] at hread
        rw [processLines_end regcomp fresh hread, hempty]
        rfl
      · rw [if_pos hempty] at hread
        obtain ⟨parsebuf', hline⟩ := processLines_line regcomp fresh parsebuf lineno (notMem_kept content) hread
        obtain ⟨rest', hnil⟩ := readLine_end fresh (p := []) (by simp) (kept content ++ 0 :: rest)
        rw [hline, processLines_end regcomp fresh hnil]
        simp [hempty]

/-- `parserulefile` on a file. -/
def parserulefileAt (content : Bytes) : Option (Option (List (Rule ρ))) :=
  (processLines regcomp fresh content [] [] 0).map rulesOf

/-- The parser on the lines is what the program does with the file. -/
theorem parserulefileAt_eq (content : Bytes) :
    parserulefileAt regcomp fresh content = some (parserulefile regcomp 0 (ruleLines content)) := by
  have hrules (lines : List Bytes) (lineno : ℕ) :
      rulesOf (lines.mapIdx fun i s => { line := s, rv := parseline regcomp s (lineno + i + 1) }) =
        parserulefile regcomp lineno lines := by
    induction lines generalizing lineno with
    | nil => rfl
    | cons line lines ih =>
      have hnext (i : ℕ) : lineno + (i + 1) + 1 = lineno + 1 + i + 1 := by omega
      rw [List.mapIdx_cons, rulesOf, parserulefile]
      simp only [hnext, ih]
      cases parserulefile regcomp (lineno + 1) lines <;> rcases parseline regcomp line (lineno + 1) with _ | _ | _ <;> rfl
  rw [parserulefileAt, processLines_eq, Option.map_some, hrules]

end File

/-! ### The words of a line -/

/-- White space or a hash mark. -/
def IsStop (c : UInt8) : Prop := isspace c = true ∨ c = 35

/-- What follows `s` has an unpaired backslash before it. -/
def Unpaired (s : Bytes) : Prop := Odd (s.reverse.takeWhile (· = 92)).length

/-- A word runs up to white space or a hash mark without an unpaired backslash before it. -/
structure IsRun (word rest : Bytes) : Prop where
  ne_nil : word ≠ []
  inside : ∀ a c b, word = a ++ c :: b → IsStop c → Unpaired a
  ended : rest = [] ∨ ∃ c t, rest = c :: t ∧ IsStop c ∧ ¬ Unpaired word

/-- The words of a line, up to its end or a hash mark. -/
inductive Words : Bytes → List Bytes → Prop
  | done {gap rest : Bytes} (hgap : ∀ c ∈ gap, isspace c = true) (hrest : rest = [] ∨ rest.head? = some 35) :
      Words (gap ++ rest) []
  | word {gap word rest : Bytes} {words : List Bytes} (hgap : ∀ c ∈ gap, isspace c = true)
      (hword : IsRun word rest) (h : Words rest words) : Words (gap ++ (word ++ rest)) (word :: words)

theorem not_unpaired_nil : ¬ Unpaired [] := by simp [Unpaired]

theorem unpaired_concat {s : Bytes} {c : UInt8} : Unpaired (s ++ [c]) ↔ ¬ Unpaired s ∧ c = 92 := by
  unfold Unpaired
  by_cases hc : c = 92
  · simp [hc, Nat.odd_add_one]
  · simp [hc]

/-- The loop stands behind `a`, which is part of the word. -/
theorem readescLoop_run (wasbs : Bool) {a : Bytes} (hwasbs : wasbs = true ↔ Unpaired a)
    (ha : ∀ a' c b, a = a' ++ c :: b → IsStop c → Unpaired a') (s : Bytes) :
    (∀ a' c b, a ++ (readescLoop wasbs s).1 = a' ++ c :: b → IsStop c → Unpaired a') ∧
      ((readescLoop wasbs s).2 = [] ∨ ∃ c t, (readescLoop wasbs s).2 = c :: t ∧ IsStop c ∧
        ¬ Unpaired (a ++ (readescLoop wasbs s).1)) := by
  induction s generalizing wasbs a with
  | nil => exact ⟨by simpa [readescLoop] using ha, .inl rfl⟩
  | cons c s ih =>
    have hstop : (!wasbs && (isspace c || c = 35)) = true ↔ ¬ Unpaired a ∧ IsStop c := by
      rw [← hwasbs, IsStop]
      simp
    rw [readescLoop]
    split_ifs with h
    · rw [List.append_nil]
      exact ⟨ha, .inr ⟨c, s, rfl, (hstop.mp h).2, (hstop.mp h).1⟩⟩
    · have hnext : (!wasbs && decide (c = 92)) = true ↔ Unpaired (a ++ [c]) := by
        rw [unpaired_concat, ← hwasbs]
        simp
      have hinside : ∀ a' d b, a ++ [c] = a' ++ d :: b → IsStop d → Unpaired a' := by
        intro a' d b heq hd
        rcases b.eq_nil_or_concat with rfl | ⟨b, e, rfl⟩
        · obtain ⟨rfl, hcd⟩ := List.append_inj' heq rfl
          obtain rfl := (List.cons.inj hcd).1
          by_contra hpaired
          exact h (hstop.mpr ⟨hpaired, hd⟩)
        · refine ha a' d b ?_ hd
          rw [List.concat_eq_append, ← List.cons_append, ← List.append_assoc] at heq
          exact (List.append_inj' heq rfl).1
      simpa using ih _ hnext hinside

/-- Successive calls of `readescstring`. -/
def readescWords : ℕ → Bytes → List Bytes
  | 0, _ => []
  | n + 1, s => (readescstring s).1 :: readescWords n (readescstring s).2

/-- Where a call has returned an empty string, the next one does so too. -/
theorem readescstring_rest {s : Bytes} (h : (readescstring s).1 = []) :
    readescstring (readescstring s).2 = ([], (readescstring s).2) := by
  have hrest := readescLoop_append false (s.dropWhile isspace)
  rw [← readescstring, h, List.nil_append] at hrest
  refine Prod.ext ?_ ?_
  · rw [hrest, readescstring, List.dropWhile_idempotent, ← readescstring, h]
  · rw [hrest, readescstring, List.dropWhile_idempotent, ← readescstring, hrest]

theorem readescWords_nil {s : Bytes} (h : readescstring s = ([], s)) (n : ℕ) :
    readescWords n s = List.replicate n [] := by
  induction n with
  | zero => rfl
  | succ n ih => rw [readescWords, h, ih, List.replicate_succ]

/-- They return the words and then empty strings. -/
theorem exists_words (s : Bytes) :
    ∃ words, Words s words ∧ ∀ n, readescWords n s = (words ++ List.replicate n []).take n := by
  induction hn : s.length using Nat.strongRecOn generalizing s with
  | _ n ih =>
    have hgap : ∀ c ∈ s.takeWhile isspace, isspace c = true := fun c hc => List.mem_takeWhile_imp hc
    have hsplit : s = s.takeWhile isspace ++ ((readescstring s).1 ++ (readescstring s).2) := by
      rw [readescstring, readescLoop_append, List.takeWhile_append_dropWhile]
    obtain ⟨hinside, hended⟩ :=
      readescLoop_run (a := []) false (by simp [not_unpaired_nil]) (by simp) (s.dropWhile isspace)
    rw [List.nil_append, ← readescstring] at hinside hended
    by_cases hword : (readescstring s).1 = []
    · have hrest : (readescstring s).2 = s.dropWhile isspace := by
        have := readescLoop_append false (s.dropWhile isspace)
        rwa [← readescstring, hword] at this
      have hhash : (readescstring s).2 = [] ∨ (readescstring s).2.head? = some 35 := by
        rcases hended with hnil | ⟨c, t, hcons, hspace | rfl, -⟩
        · exact .inl hnil
        · have hnot := List.head?_dropWhile_not isspace s
          rw [← hrest, hcons] at hnot
          exact absurd hspace (by simpa using hnot)
        · exact .inr (by rw [hcons]; rfl)
      refine ⟨[], ?_, fun k => ?_⟩
      · have := Words.done hgap hhash
        rwa [hrest, List.takeWhile_append_dropWhile] at this
      · rw [List.nil_append, List.take_of_length_le (by simp)]
        cases k with
        | zero => rfl
        | succ k => rw [readescWords, hword, readescWords_nil (readescstring_rest hword), List.replicate_succ]
    · have hlt : (readescstring s).2.length < n := by
        have hpos := List.length_pos_of_ne_nil hword
        have := congrArg List.length hsplit
        rw [List.length_append, List.length_append] at this
        omega
      obtain ⟨words, hwords, hcalls⟩ := ih _ hlt _ rfl
      refine ⟨(readescstring s).1 :: words, ?_, ?_⟩
      · have := Words.word hgap ⟨hword, hinside, hended⟩ hwords
        rwa [← hsplit] at this
      · intro k
        cases k with
        | zero => rfl
        | succ k =>
          have hle : k ≤ (words ++ List.replicate k []).length := by simp
          rw [readescWords, hcalls, List.cons_append, List.take_succ_cons, List.replicate_succ',
            ← List.append_assoc, List.take_append_of_le_length hle]

/-- Successive calls of `readescstring` with one work buffer. -/
def readescCalls : ℕ → Bytes → Bytes → Option (List Bytes)
  | 0, _, _ => some []
  | n + 1, buf, str =>
    (readescstringAt buf str).bind fun w =>
      (string 0 w.buf).bind fun word => (readescCalls n w.buf w.str).map (word :: ·)

theorem readescCalls_eq (n : ℕ) {str s buf : Bytes} (h : Holds 0 str s) (hbuf : s.length < buf.length) :
    readescCalls n buf str = some (readescWords n s) := by
  induction n generalizing str s buf with
  | zero => rfl
  | succ n ih =>
    obtain ⟨w, hw, hreads⟩ := readescstringAt_eq h hbuf
    rw [readescCalls, hw, Option.bind_some, hreads.buf.string_eq, Option.bind_some,
      ih hreads.str (hreads.length_lt hbuf)]
    rfl

theorem notMem_of_mem_ruleLines {content s : Bytes} (h : s ∈ ruleLines content) : (0 : UInt8) ∉ s := by
  rcases List.mem_append.mp h with h | h
  · obtain ⟨p, -, rfl⟩ := List.mem_map.mp h
    exact notMem_kept p
  · obtain rfl := List.mem_singleton.mp (List.mem_of_mem_filter h)
    exact notMem_kept _

/-- The lines of a file without carriage returns and NULs are processed; the last one also without
a newline if something is left of it. On each of them `readescstring` returns the words and then
empty strings, in a buffer that has room for the line. -/
theorem ruleFile_words {ρ : Type*} (regcomp : Bytes → Bool → Bool → Option ρ) (fresh : ℕ → UInt8)
    (content : Bytes) :
    (∃ processed, processLines regcomp fresh content [] [] 0 = some processed ∧
      processed.map Processed.line = ruleLines content) ∧
    ∀ s ∈ ruleLines content, ∃ words, Words s words ∧
      ∀ n buf rest, s.length + 1 ≤ buf.length →
        readescCalls n buf (s ++ 0 :: rest) = some ((words ++ List.replicate n []).take n) := by
  refine ⟨⟨_, processLines_eq regcomp fresh content [] [] 0, ?_⟩, fun s hs => ?_⟩
  · refine List.ext_getElem? fun i => ?_
    rw [List.getElem?_map, List.getElem?_mapIdx, Option.map_map]
    exact Option.map_id'
  · obtain ⟨words, hwords, hcalls⟩ := exists_words s
    refine ⟨words, hwords, fun n buf rest hbuf => ?_⟩
    rw [readescCalls_eq n (.mk_append (notMem_of_mem_ruleLines hs) rest) hbuf, hcalls]

/-- The lines of a file, the last one also when it lacks a newline. -/
def textLines (content : Bytes) : List Bytes :=
  let pieces := content.splitOn 10
  pieces.dropLast ++ [pieces.getLastD []].filter (· ≠ [])

/-- A lone carriage return is a line without a newline, and it is not processed. -/
theorem carriage_return_not_processed : ∃ processed,
    processLines (fun _ _ _ => some ()) (fun _ => 0) [13] [] [] 0 = some processed ∧
      processed.map Processed.line ≠ (textLines [13]).map kept := by
  refine ⟨_, processLines_eq _ _ [13] [] [] 0, ?_⟩
  decide

end TftpHpa
