import TftpHpa.Daemon.Path

/-! `parse_path` with its memory. One pass counts the components and sets the size of the
array `dirs`; a second one goes over a copy of the path, puts a NUL in the place of every
slash and keeps pointers to the components in the array. Both passes see the same
components, so the array is large enough, and what it points to in the end is the list of
`TftpHpa.parsePath`. -/

namespace TftpHpa

/-- The allocation of `parse_path`: the array `dirs`, with `none` for a null pointer, the
index `dp` of its next entry, and the copy of the path the entries point into. -/
structure PathBuffer where
  dirs : List (Option ℕ)
  dp : ℕ := 0
  text : Bytes

/-- The first pass; nothing is counted if it meets an invalid character. -/
def countDirs (wasSlash : Bool) (ndirs : ℕ) : Bytes → Option ℕ
  | [] => some ndirs
  | c :: p =>
    if !isValidChar c then none
    else if c = slash then countDirs true ndirs p
    else if wasSlash then countDirs false (ndirs + 1) p
    else countDirs false ndirs p

namespace PathBuffer

/-- Assign to `*dp`. Nothing stands for an access outside the allocation, here and below. -/
def store (b : PathBuffer) (entry : Option ℕ) : Option PathBuffer :=
  if b.dp < b.dirs.length then some { b with dirs := b.dirs.set b.dp entry } else none

/-- How many entries the component at `last` takes away: the tests of `last[0]`, `last[1]`
and `last[2]`. -/
def dropCount (text : Bytes) (last : ℕ) : Option ℕ := do
  let c₀ ← text[last]?
  if c₀ ≠ 46 then return 0
  let c₁ ← text[last + 1]?
  if c₁ = 0 then return 1
  if c₁ ≠ 46 then return 0
  let c₂ ← text[last + 2]?
  return if c₂ = 0 then 2 else 0

/-- `adjust_tail`; the inner `none` is -1. -/
def adjustTail (b : PathBuffer) : Option (Option (ℕ × PathBuffer)) :=
  if b.dp = 0 then some (some (0, b))
  else do
    let last ← b.dirs[b.dp - 1]?
    let drop ← dropCount b.text (← last)
    return if b.dp < drop then none else some (drop, { b with dp := b.dp - drop })

/-- The end of a component; the inner `none` is the label `fail`. -/
def close (strict : Bool) (b : PathBuffer) : Option (Option PathBuffer) :=
  b.adjustTail.map fun
    | none => none
    | some (dropped, b) => if dropped ≠ 0 && strict then none else some b

/-- The second pass, at the offset `q`. What is ahead of it is still the path. -/
def tokenize (strict : Bool) (b : PathBuffer) (wasSlash : Bool) (q : ℕ) : Bytes → Option (Option PathBuffer)
  | [] => if wasSlash then some (some b) else b.close strict
  | c :: rest =>
    if c = slash then
      let b := { b with text := b.text.set q 0 }
      if wasSlash then b.tokenize strict true (q + 1) rest
      else match b.close strict with
        | some (some b) => b.tokenize strict true (q + 1) rest
        | failed => failed
    else if wasSlash then
      match b.store (some q) with
      | some b => tokenize strict { b with dp := b.dp + 1 } false (q + 1) rest
      | none => none
    else b.tokenize strict false (q + 1) rest

/-- The strings that the entries up to the null pointer point to. -/
def strings (text : Bytes) : List (Option ℕ) → Option (List Bytes)
  | [] => none
  | none :: _ => some []
  | some q :: dirs => do
    let name ← memchrNul (text.drop q)
    return name.1 :: (← strings text dirs)

end PathBuffer

/-- `parse_path`; the inner `none` is `NULL`. The array holds `garbage` when it is allocated. -/
def parsePathBuffer (garbage : Option ℕ) (path : Bytes) (strict : Bool) : Option (Option PathBuffer) :=
  if strict && path.headD 0 ≠ slash then some none
  else match countDirs true 0 path with
    | none => some none
    | some ndirs =>
      let b : PathBuffer := { dirs := .replicate (ndirs + 1) garbage, text := path ++ [0] }
      match b.tokenize strict true 0 path with
      | some (some b) => (b.store none).map some
      | failed => failed

namespace PathBuffer

variable {b : PathBuffer} {q : ℕ} {dirs : List Bytes}

/-- The components `dirs` are in the array, each with a NUL behind it that lies before `q`. -/
def Entries (b : PathBuffer) (q : ℕ) (dirs : List Bytes) : Prop :=
  ∀ (i : ℕ) d, dirs[i]? = some d → ∃ o rest, b.dirs[i]? = some (some o) ∧ b.text.drop o = d ++ 0 :: rest ∧
    (0 : UInt8) ∉ d ∧ o + d.length < q

theorem Entries.of_prefix {dirs' : List Bytes} (h : b.Entries q dirs) (hp : dirs' <+: dirs) : b.Entries q dirs' := by
  intro i d hd
  obtain ⟨t, rfl⟩ := hp
  refine h i d ?_
  rwa [List.getElem?_append_left (List.getElem?_eq_some_iff.mp hd).1]

theorem Entries.mono {q' : ℕ} (h : b.Entries q dirs) (hq : q ≤ q') : b.Entries q' dirs := by
  intro i d hd
  obtain ⟨o, rest, ho, htext, hnul, hlt⟩ := h i d hd
  exact ⟨o, rest, ho, htext, hnul, by omega⟩

/-- A NUL at `q` or later is behind all of them. -/
theorem Entries.set_text (h : b.Entries q dirs) {j : ℕ} (hj : q ≤ j) :
    Entries { b with text := b.text.set j 0 } q dirs := by
  intro i d hd
  obtain ⟨o, rest, ho, htext, hnul, hlt⟩ := h i d hd
  refine ⟨o, rest.set (j - o - d.length - 1) 0, ho, ?_, hnul, hlt⟩
  change (b.text.set j 0).drop o = _
  obtain ⟨k, hk⟩ : ∃ k, j - o - d.length = k + 1 := ⟨j - o - d.length - 1, by omega⟩
  rw [List.drop_set, if_neg (by omega), htext, List.set_append_right _ _ (by omega), hk, List.set_cons_succ,
    Nat.add_sub_cancel]

/-- An entry behind them changes none of them. -/
theorem Entries.set_dirs (h : b.Entries q dirs) (entry : Option ℕ) (n : ℕ) :
    Entries { b with dp := n, dirs := b.dirs.set dirs.length entry } q dirs := by
  intro i d hd
  obtain ⟨o, rest, ho, htext, hnul, hlt⟩ := h i d hd
  refine ⟨o, rest, ?_, htext, hnul, hlt⟩
  have hi := (List.getElem?_eq_some_iff.mp hd).1
  rw [← ho]
  exact List.getElem?_set_ne (by omega)

theorem Entries.concat (h : b.Entries q dirs) {d rest : Bytes} {o q' : ℕ} (hq : q ≤ q')
    (ho : b.dirs[dirs.length]? = some (some o)) (htext : b.text.drop o = d ++ 0 :: rest) (hnul : (0 : UInt8) ∉ d)
    (hlt : o + d.length < q') : b.Entries q' (dirs ++ [d]) := by
  intro i e he
  rcases Nat.lt_or_ge i dirs.length with hi | hi
  · rw [List.getElem?_append_left hi] at he
    exact h.mono hq i e he
  · rw [List.getElem?_append_right hi, List.getElem?_singleton] at he
    split_ifs at he with h0
    obtain rfl := Option.some.inj he
    obtain rfl : i = dirs.length := by omega
    exact ⟨o, rest, ho, htext, hnul, hlt⟩

/-! ### Closing a component -/

theorem getElem?_of_drop {text s : Bytes} {o : ℕ} (h : text.drop o = s) (i : ℕ) : text[o + i]? = s[i]? := by
  rw [← h, List.getElem?_drop]

theorem dropCount_eq {text d rest : Bytes} {o : ℕ} (hnul : (0 : UInt8) ∉ d) (h : text.drop o = d ++ 0 :: rest) :
    dropCount text o = some (if d = cstr "." then 1 else if d = cstr ".." then 2 else 0) := by
  have hget := getElem?_of_drop h
  have h0 := hget 0
  rw [Nat.add_zero] at h0
  rw [dropCount, h0, hget 1, hget 2, show cstr "." = [46] from rfl, show cstr ".." = [46, 46] from rfl]
  match d, hnul with
  | [], _ => rfl
  | [a], _ => by_cases ha : a = 46 <;> simp [ha]
  | a :: a' :: l, hnul =>
    simp only [List.mem_cons, not_or] at hnul
    obtain ⟨-, ha', hl⟩ := hnul
    by_cases ha : a = 46 <;> by_cases hdot : a' = 46
    · cases l with
      | nil => simp [ha, hdot]
      | cons c l =>
        have hc : c ≠ 0 := fun hc => hl (by simp [hc])
        simp [ha, hdot, hc]
    · simp [ha, hdot, Ne.symm ha']
    · simp [ha]
    · simp [ha]

theorem closeComponent_prefix {strict : Bool} {dirs' : List Bytes} (h : closeComponent strict dirs = some dirs') :
    dirs' <+: dirs := by
  unfold closeComponent TftpHpa.adjustTail at h
  cases hlast : dirs.getLast? with
  | none =>
    simp only [hlast] at h
    split_ifs at h
    exact Option.some.inj h ▸ List.prefix_rfl
  | some last =>
    simp only [hlast] at h
    split at h
    · cases h
    · rename_i heq
      split_ifs at heq h
      all_goals
        cases heq
        cases h
        exact List.take_prefix _ _

/-- Closing a component moves `dp` to the end of what is left of the list. -/
theorem close_eq (strict : Bool) (hdp : b.dp = dirs.length) (h : b.Entries q dirs) :
    b.close strict = some ((closeComponent strict dirs).map fun dirs' => { b with dp := dirs'.length }) := by
  unfold close closeComponent adjustTail TftpHpa.adjustTail
  rcases List.eq_nil_or_concat' dirs with rfl | ⟨init, last, rfl⟩
  · obtain ⟨entries, dp, text⟩ := b
    obtain rfl : dp = 0 := hdp
    simp
  · rw [List.length_append, List.length_singleton] at hdp
    obtain ⟨o, rest, ho, htext, hnul, -⟩ := h init.length last (by simp)
    rw [if_neg (by omega), List.getLast?_concat, show b.dp - 1 = init.length by omega, ho]
    simp only [Option.bind_eq_bind, Option.bind_some, dropCount_eq hnul htext]
    generalize (if last = cstr "." then 1 else if last = cstr ".." then 2 else 0) = drop
    have hlen : (init ++ [last]).length = b.dp := by simp [hdp]
    rw [hlen]
    have htake : ((init ++ [last]).take (b.dp - drop)).length = b.dp - drop := by
      rw [List.length_take, hlen]
      omega
    by_cases hlt : b.dp < drop
    · simp only [if_pos hlt]
      rfl
    · simp only [if_neg hlt, pure, Option.map_some]
      by_cases hfail : (drop ≠ 0 && strict) = true
      · simp only [if_pos hfail, Option.map_none]
      · simp only [if_neg hfail, Option.map_some, htake]

/-! ### The passes -/

theorem le_of_countDirs {wasSlash : Bool} {k n : ℕ} {p : Bytes} (h : countDirs wasSlash k p = some n) : k ≤ n := by
  induction p generalizing wasSlash k with
  | nil => exact (Option.some.inj h).le
  | cons c p ih =>
    rw [countDirs] at h
    split_ifs at h
    · exact ih h
    · exact (Nat.le_succ k).trans (ih h)
    · exact ih h

theorem countDirs_eq_none {wasSlash : Bool} {k : ℕ} {p : Bytes} :
    countDirs wasSlash k p = none ↔ (p.any fun c => !isValidChar c) = true := by
  induction p generalizing wasSlash k with
  | nil => simp [countDirs]
  | cons c p ih =>
    rw [countDirs, List.any_cons]
    split_ifs with hc
    · simp [hc]
    all_goals simp [hc, ih]

/-- What the second pass comes to, next to the list it stands for. -/
def Agrees (n q : ℕ) : Option (Option PathBuffer) → Option (List Bytes) → Prop
  | some (some b), some dirs => b.dirs.length = n + 1 ∧ b.dp = dirs.length ∧ dirs.length ≤ n ∧ b.Entries q dirs
  | some none, none => True
  | _, _ => False

theorem close_agrees (strict : Bool) {n : ℕ} (hlen : b.dirs.length = n + 1) (hdp : b.dp = dirs.length)
    (hle : dirs.length ≤ n) (h : b.Entries q dirs) :
    Agrees n q (b.close strict) (closeComponent strict dirs) := by
  rw [close_eq strict hdp h]
  cases hclose : closeComponent strict dirs with
  | none => trivial
  | some dirs' =>
    have hprefix := closeComponent_prefix hclose
    exact ⟨hlen, rfl, hprefix.length_le.trans hle, h.of_prefix hprefix⟩

/-- The component that is being read, if there is one, has the last entry, and the pass
stands at its end. -/
def Reading (b : PathBuffer) (q : ℕ) (dirs : List Bytes) (cur : Bytes) : Prop :=
  if cur = [] then b.dp = dirs.length ∧ b.Entries q dirs
  else b.dp = dirs.length + 1 ∧ (0 : UInt8) ∉ cur ∧ ∃ o, b.dirs[dirs.length]? = some (some o) ∧
    o + cur.length = q ∧ b.text.drop o = cur ++ b.text.drop q ∧ b.Entries o dirs

theorem reading_nil : b.Reading q dirs [] ↔ b.dp = dirs.length ∧ b.Entries q dirs := by simp [Reading]

theorem reading_of_ne {cur : Bytes} (hcur : cur ≠ []) : b.Reading q dirs cur ↔ b.dp = dirs.length + 1 ∧
    (0 : UInt8) ∉ cur ∧ ∃ o, b.dirs[dirs.length]? = some (some o) ∧ o + cur.length = q ∧
      b.text.drop o = cur ++ b.text.drop q ∧ b.Entries o dirs := by
  simp [Reading, hcur]

/-- With a NUL behind it the component that is being read is one of the entries. -/
theorem Reading.entries {cur rest : Bytes} (hcur : cur ≠ []) (h : b.Reading q dirs cur)
    (htext : b.text.drop q = 0 :: rest) : b.Entries (q + 1) (dirs ++ [cur]) := by
  obtain ⟨-, hnul, o, ho, hq, hdrop, hentries⟩ := (reading_of_ne hcur).mp h
  exact hentries.concat (by omega) ho (by rw [hdrop, htext]) hnul (by omega)

/-- The slash behind a component is overwritten. -/
theorem Reading.set_text {cur : Bytes} (h : b.Reading q dirs cur) :
    Reading { b with text := b.text.set q 0 } q dirs cur := by
  by_cases hcur : cur = []
  · subst hcur
    rw [reading_nil] at h ⊢
    exact ⟨h.1, h.2.set_text le_rfl⟩
  · rw [reading_of_ne hcur] at h ⊢
    obtain ⟨hdp, hnul, o, ho, hq, hdrop, hentries⟩ := h
    refine ⟨hdp, hnul, o, ho, hq, ?_, ?_⟩
    · change (b.text.set q 0).drop o = cur ++ (b.text.set q 0).drop q
      rw [List.drop_set, List.drop_set, if_neg (by omega), if_neg (by omega), hdrop,
        List.set_append_right _ _ (by omega), show q - o - cur.length = q - q by omega]
    · exact hentries.set_text (by omega)

/-- The second pass, from any point on. By induction on what is ahead of it. -/
theorem tokenize_agrees (strict : Bool) {n k : ℕ} {wasSlash : Bool} {cur rest : Bytes} (hw : wasSlash = true ↔ cur = [])
    (hrest : (0 : UInt8) ∉ rest) (hcount : countDirs wasSlash k rest = some n) (hlen : b.dirs.length = n + 1)
    (hdp : b.dp ≤ k) (htext : b.text.drop q = rest ++ [0]) (h : b.Reading q dirs cur) :
    Agrees n (q + rest.length + 1) (b.tokenize strict wasSlash q rest) (parseComponents strict dirs cur rest) := by
  induction rest generalizing b q dirs wasSlash cur k with
  | nil =>
    obtain rfl : k = n := Option.some.inj hcount
    rw [tokenize, parseComponents]
    by_cases hcur : cur = []
    · rw [if_pos (hw.mpr hcur), if_pos hcur]
      subst hcur
      obtain ⟨hdp', hentries⟩ := reading_nil.mp h
      exact ⟨hlen, hdp', by omega, hentries.mono (by omega)⟩
    · rw [if_neg (mt hw.mp hcur), if_neg hcur]
      obtain ⟨hdp', -⟩ := (reading_of_ne hcur).mp h
      exact close_agrees strict hlen (by simp [hdp']) (by simp; omega) (h.entries hcur htext)
  | cons c rest ih =>
    rw [List.mem_cons, not_or] at hrest
    rw [countDirs] at hcount
    rw [tokenize, parseComponents]
    have htext' : b.text.drop (q + 1) = rest ++ [0] := by
      rw [← List.drop_drop, htext]
      rfl
    have hq : q + (c :: rest).length + 1 = q + 1 + rest.length + 1 := by simp; omega
    rw [hq]
    split_ifs at hcount with hvalid hc hslash
    · rw [if_pos hc, if_pos hc]
      have h' := h.set_text
      have hat : (b.text.set q 0).drop q = 0 :: (rest ++ [0]) := by
        rw [List.drop_set, if_neg (by omega), htext, Nat.sub_self, List.cons_append, List.set_cons_zero]
      have hafter : (b.text.set q 0).drop (q + 1) = rest ++ [0] := by
        rw [← List.drop_drop, hat]
        rfl
      by_cases hcur : cur = []
      · subst hcur
        rw [if_pos (hw.mpr rfl), if_pos rfl]
        obtain ⟨hdp', hentries⟩ := reading_nil.mp h'
        exact ih (by simp) hrest.2 hcount hlen hdp hafter (reading_nil.mpr ⟨hdp', hentries.mono (Nat.le_succ q)⟩)
      · rw [if_neg (mt hw.mp hcur), if_neg hcur]
        obtain ⟨hdp', -⟩ := (reading_of_ne hcur).mp h'
        have hentries := h'.entries hcur hat
        rw [close_eq strict (by simpa using hdp') hentries]
        cases hclose : closeComponent strict (dirs ++ [cur]) with
        | none => trivial
        | some dirs' =>
          have hprefix := closeComponent_prefix hclose
          have hle := hprefix.length_le
          rw [List.length_append, List.length_singleton] at hle
          exact ih (by simp) hrest.2 hcount hlen (by dsimp only at hdp' ⊢; omega) hafter
            (reading_nil.mpr ⟨rfl, hentries.of_prefix hprefix⟩)
    · have hcur := hw.mp hslash
      subst hcur
      obtain ⟨hdp', hentries⟩ := reading_nil.mp h
      have hn := le_of_countDirs hcount
      rw [if_neg hc, if_neg hc, if_pos hslash, store, if_pos (by omega)]
      refine ih (by simp) hrest.2 hcount (by simpa using hlen) (by simpa using hdp) htext' ?_
      refine (reading_of_ne (List.cons_ne_nil c [])).mpr ⟨by simp [hdp'], by simpa using hrest.1, q, ?_, rfl, ?_, ?_⟩
      · rw [hdp']
        exact List.getElem?_set_self (by omega)
      · rw [htext, htext']
        rfl
      · rw [hdp']
        exact hentries.set_dirs _ _
    · have hcur := mt hw.mpr hslash
      obtain ⟨hdp', hnul, o, ho, hqo, hdrop, hentries⟩ := (reading_of_ne hcur).mp h
      rw [if_neg hc, if_neg hc, if_neg hslash]
      have hne : cur ++ [c] ≠ [] := by simp
      refine ih (by simp) hrest.2 hcount hlen hdp htext'
        ((reading_of_ne hne).mpr ⟨hdp', ?_, o, ho, ?_, ?_, hentries⟩)
      · simp [hnul, hrest.1]
      · rw [List.length_append, List.length_singleton]
        omega
      · rw [hdrop, htext, htext']
        simp

/-- The list that is read back from the entries. -/
theorem strings_eq {entries : List (Option ℕ)} {text : Bytes}
    (h : ∀ (i : ℕ) d, dirs[i]? = some d → ∃ o rest, entries[i]? = some (some o) ∧ text.drop o = d ++ 0 :: rest ∧
      (0 : UInt8) ∉ d) (hend : entries[dirs.length]? = some none) : strings text entries = some dirs := by
  induction dirs generalizing entries with
  | nil =>
    obtain ⟨entry, rest, rfl⟩ := List.exists_cons_of_ne_nil (l := entries) (by rintro rfl; cases hend)
    obtain rfl := Option.some.inj hend
    rfl
  | cons d dirs ih =>
    obtain ⟨o, rest, ho, htext, hnul⟩ := h 0 d rfl
    obtain ⟨entry, entries, rfl⟩ := List.exists_cons_of_ne_nil (l := entries) (by rintro rfl; cases ho)
    obtain rfl := Option.some.inj ho
    rw [strings, htext, memchrNul_append hnul, ih (fun i d hd => h (i + 1) d hd) hend]
    rfl

end PathBuffer

open PathBuffer

/-- `parse_path` as its callers see it: the strings its result points to. -/
def parsePathList (garbage : Option ℕ) (path : Bytes) (strict : Bool) : Option (Option (List Bytes)) :=
  match parsePathBuffer garbage path strict with
  | some (some b) => (strings b.text b.dirs).map some
  | some none => some none
  | none => none

/-- No access is outside the allocation, and the entries stand for the list of `parsePath`. -/
theorem parsePathList_eq (garbage : Option ℕ) {path : Bytes} (hpath : (0 : UInt8) ∉ path) (strict : Bool) :
    parsePathList garbage path strict = some (parsePath path strict) := by
  unfold parsePathList parsePathBuffer parsePath
  by_cases habs : (strict && path.headD 0 ≠ slash) = true
  · simp only [if_pos habs]
  simp only [if_neg habs]
  cases hcount : countDirs true 0 path with
  | none => simp only [if_pos (countDirs_eq_none.mp hcount)]
  | some n =>
    have hvalid : ¬ (path.any fun c => !isValidChar c) = true := fun hany => by
      rw [countDirs_eq_none.mpr hany] at hcount
      cases hcount
    simp only [if_neg hvalid]
    have hreading : Reading { dirs := .replicate (n + 1) garbage, text := path ++ [0] } 0 [] [] :=
      reading_nil.mpr ⟨rfl, fun i d hd => by simp at hd⟩
    have hagrees := tokenize_agrees strict (by simp) hpath hcount (by simp) le_rfl rfl hreading
    generalize PathBuffer.tokenize strict _ true 0 path = outcome at hagrees ⊢
    generalize parseComponents strict [] [] path = parsed at hagrees ⊢
    match outcome, parsed, hagrees with
    | some none, none, _ => rfl
    | some (some b), some dirs, ⟨hlen, hdp, hle, hentries⟩ =>
      have hlt : b.dp < b.dirs.length := by omega
      have hstrings : strings b.text (b.dirs.set b.dp none) = some dirs := by
        rw [hdp] at hlt ⊢
        refine strings_eq (fun i d hd => ?_) (List.getElem?_set_self hlt)
        obtain ⟨o, rest, ho, htext, hnul, -⟩ := hentries.set_dirs none b.dp i d hd
        exact ⟨o, rest, ho, htext, hnul⟩
      simp only [store, if_pos hlt, Option.map_some, hstrings]

/-! ### What is accepted -/

/-- Components one after the other: a dot is dropped, two dots take back what was kept last. -/
def resolve (kept : List Bytes) : List Bytes → Option (List Bytes)
  | [] => some kept
  | c :: cs =>
    if c = [] ∨ c = cstr "." then resolve kept cs
    else if c = cstr ".." then if kept = [] then none else resolve kept.dropLast cs
    else resolve (kept ++ [c]) cs

theorem resolve_cons {kept : List Bytes} {c : Bytes} (hc : c ≠ []) (cs : List Bytes) :
    resolve kept (c :: cs) = (closeComponent false (kept ++ [c])).bind fun kept => resolve kept cs := by
  rw [resolve, closeComponent_append]
  by_cases hdot : c = cstr "."
  · simp [hdot]
  · rw [if_neg (not_or.mpr ⟨hc, hdot⟩), if_neg hdot]
    by_cases hdotdot : c = cstr ".."
    · rw [if_pos hdotdot, if_pos hdotdot]
      by_cases hkept : kept = [] <;> simp [hkept]
    · rw [if_neg hdotdot, if_neg hdotdot]
      rfl

theorem parseComponents_resolve {kept : List Bytes} {cur q : Bytes} (hslash : slash ∉ cur) :
    parseComponents false kept cur q = resolve kept ((cur ++ q).splitOn slash) := by
  induction q generalizing kept cur with
  | nil =>
    rw [List.append_nil, List.splitOn_eq_singleton hslash, parseComponents]
    by_cases hcur : cur = []
    · rw [if_pos hcur, hcur]
      rfl
    · rw [if_neg hcur, resolve_cons hcur]
      cases closeComponent false (kept ++ [cur]) <;> rfl
  | cons c q ih =>
    rw [parseComponents]
    by_cases hc : c = slash
    · rw [if_pos hc, hc, List.splitOn_append_cons_self_of_not_mem hslash]
      by_cases hcur : cur = []
      · rw [if_pos hcur, hcur, ih List.not_mem_nil]
        rfl
      · rw [if_neg hcur, resolve_cons hcur]
        cases closeComponent false (kept ++ [cur]) with
        | none => rfl
        | some kept => exact ih List.not_mem_nil
    · have hcur : slash ∉ cur ++ [c] := by simp [hslash, Ne.symm hc]
      rw [if_neg hc, ih hcur, List.append_assoc, List.singleton_append]

theorem parsePath_resolve (path : Bytes) :
    parsePath path false = if path.all isValidChar then resolve [] (path.splitOn slash) else none := by
  rw [parsePath, Bool.false_and, if_neg Bool.false_ne_true, parseComponents_resolve List.not_mem_nil,
    List.nil_append, ← List.not_all_eq_any_not]
  cases path.all isValidChar <;> rfl

/-! ### Back from the list -/

theorem splitOn_buildPath {dirs : List Bytes} (h : ∀ d ∈ dirs, slash ∉ d) {cur : Bytes} (hcur : slash ∉ cur) :
    (cur ++ dirs.flatMap (slash :: ·)).splitOn slash = cur :: dirs := by
  induction dirs generalizing cur with
  | nil => rw [List.flatMap_nil, List.append_nil, List.splitOn_eq_singleton hcur]
  | cons d dirs ih =>
    rw [List.flatMap_cons, List.cons_append, List.splitOn_append_cons_self_of_not_mem hcur,
      ih (fun e he => h e (List.mem_cons_of_mem d he)) (h d List.mem_cons_self)]

theorem resolve_valid {kept dirs : List Bytes} (h : ∀ d ∈ dirs, ValidComponent d) :
    resolve kept dirs = some (kept ++ dirs) := by
  induction dirs generalizing kept with
  | nil => rw [resolve, List.append_nil]
  | cons d dirs ih =>
    obtain ⟨hd, hdirs⟩ := List.forall_mem_cons.mp h
    rw [resolve, if_neg (not_or.mpr ⟨hd.ne_nil, hd.ne_dot⟩), if_neg hd.ne_dotdot, ih hdirs, List.append_assoc]
    rfl

/-- A list of valid components, put together and taken apart again. -/
theorem parsePath_buildPath {dirs : List Bytes} (h : ∀ d ∈ dirs, ValidComponent d) :
    parsePath (buildPath none dirs) false = some dirs := by
  have hvalid : (dirs.flatMap (slash :: ·)).all isValidChar = true := by
    rw [List.all_eq_true]
    intro c hc
    obtain ⟨d, hd, hc⟩ := List.mem_flatMap.mp hc
    rcases List.mem_cons.mp hc with rfl | hc
    · rfl
    · exact decide_eq_true ((h d hd).ge c hc)
  have hsplit : ([] ++ dirs.flatMap (slash :: ·)).splitOn slash = [] :: dirs :=
    splitOn_buildPath (fun d hd => (h d hd).slash_notMem) List.not_mem_nil
  have hbuild : buildPath none dirs = dirs.flatMap (slash :: ·) := rfl
  rw [parsePath_resolve, hbuild, if_pos hvalid, ← List.nil_append (dirs.flatMap _), hsplit]
  exact resolve_valid h

/-- `parse_path` stays inside the array it has allocated and accepts what it should: with
`strict` the absolute paths without control characters and without dots as components, as
the list of their components; otherwise the paths without control characters in which two
dots always have something to take back, as what is left. The path put together from the
list gives that list again. -/
theorem parsePath_exact (garbage : Option ℕ) {path : Bytes} (hpath : (0 : UInt8) ∉ path) :
    (∀ strict, parsePathList garbage path strict ≠ none) ∧
    (∀ dirs, parsePathList garbage path true = some (some dirs) ↔
      path.head? = some slash ∧ (∀ c ∈ path, ¬ (1 ≤ c ∧ c ≤ 31)) ∧
        (∀ c ∈ path.splitOn slash, c ≠ cstr "." ∧ c ≠ cstr "..") ∧ dirs = (path.splitOn slash).filter (· ≠ [])) ∧
    (∀ dirs, parsePathList garbage path false = some (some dirs) ↔
      (∀ c ∈ path, ¬ (1 ≤ c ∧ c ≤ 31)) ∧ resolve [] (path.splitOn slash) = some dirs) ∧
    ∀ strict dirs, parsePathList garbage path strict = some (some dirs) →
      parsePathList garbage (buildPath none dirs) false = some (some dirs) := by
  have hvalid : path.all isValidChar = true ↔ ∀ c ∈ path, ¬ (1 ≤ c ∧ c ≤ 31) := by
    rw [List.all_eq_true]
    exact forall₂_congr fun c hc => isValidChar_iff fun h0 => hpath (h0 ▸ hc)
  have hhead : path.headD 0 = slash ↔ path.head? = some slash := by
    cases path with
    | nil => simp [slash]
    | cons c path => simp
  have hdots : (∀ c ∈ components path, c ≠ cstr "." ∧ c ≠ cstr "..") ↔
      ∀ c ∈ path.splitOn slash, c ≠ cstr "." ∧ c ≠ cstr ".." := by
    refine ⟨fun h c hc => ?_, fun h c hc => h c (List.mem_of_mem_filter hc)⟩
    by_cases hnil : c = []
    · exact ⟨hnil ▸ by decide, hnil ▸ by decide⟩
    · exact h c (List.mem_filter.mpr ⟨hc, decide_eq_true hnil⟩)
  refine ⟨fun strict => ?_, fun dirs => ?_, fun dirs => ?_, fun strict dirs h => ?_⟩
  · rw [parsePathList_eq garbage hpath]
    exact Option.some_ne_none _
  · rw [parsePathList_eq garbage hpath, Option.some.injEq, parsePath_strict, Option.ite_none_right_eq_some, hhead,
      hvalid, hdots, Option.some.injEq, @eq_comm _ (components path), and_assoc, and_assoc]
    rfl
  · rw [parsePathList_eq garbage hpath, Option.some.injEq, parsePath_resolve, Option.ite_none_right_eq_some, hvalid]
  · rw [parsePathList_eq garbage hpath, Option.some.injEq] at h
    have hdirs := parsePath_valid h
    have hnul : (0 : UInt8) ∉ buildPath none dirs := by
      intro hmem
      obtain ⟨d, hd, hmem⟩ := List.mem_flatMap.mp hmem
      rcases List.mem_cons.mp hmem with h0 | hmem
      · exact absurd h0 (by decide)
      · exact (hdirs d hd).nul_notMem hmem
    rw [parsePathList_eq garbage hnul, parsePath_buildPath hdirs]

/-- `/a/./b/../c` is the path `/a/c` unless it has to be strict. -/
theorem parsePath_exact_dots :
    (∀ dirs, parsePathList none (cstr "/a/./b/../c") true ≠ some (some dirs)) ∧
      parsePathList none (cstr "/a/./b/../c") false = some (some [cstr "a", cstr "c"]) ∧
      parsePathList none (cstr "/a/c") false = some (some [cstr "a", cstr "c"]) := by
  have hnul : (0 : UInt8) ∉ cstr "/a/./b/../c" := by decide +kernel
  obtain ⟨-, hstrict, hloose, hback⟩ := parsePath_exact none hnul
  have hlist : parsePathList none (cstr "/a/./b/../c") false = some (some [cstr "a", cstr "c"]) := by
    rw [hloose]
    exact ⟨by decide +kernel, by decide +kernel⟩
  refine ⟨fun dirs hdirs => ?_, hlist, hback false _ hlist⟩
  obtain ⟨-, -, hdots, -⟩ := (hstrict dirs).mp hdirs
  exact (hdots (cstr ".") (by decide +kernel)).1 rfl

end TftpHpa
