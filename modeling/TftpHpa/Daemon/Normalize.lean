import TftpHpa.Daemon.PathBuffer

/-! `normalize_path` (`tftpd/tftpd.c`). The name is rewritten in place by one pass: `p` reads,
`q` writes, and two dots take `q` back over what has been written. After every slash the
pass stays in an inner loop until something other than a slash or a dot component is
ahead. A step of the machine below is one round of the loop over the characters, or one
round of the loop behind a slash. -/

namespace TftpHpa

def dot : UInt8 := 46

/-- `enum normalizations`. -/
inductive Normalizations where
  | none | root | path
  deriving DecidableEq

/-- Where the pass stands: at the head of the loop over the characters, behind a slash, or
at the end. -/
inductive NormPc where
  | next | slashes | done
  deriving DecidableEq

/-- The buffer `fn` with the offsets of `p` and `q`. -/
structure NormState where
  fn : Bytes
  p : ℕ := 0
  q : ℕ := 0
  pc : NormPc := .next

namespace NormState

/-- Assign to `*q`. Nothing stands for an access outside the buffer, here and below. -/
def store (s : NormState) (c : UInt8) : Option Bytes := if s.q < s.fn.length then some (s.fn.set s.q c) else none

/-- Back to the slash before the offset. -/
def backUp (fn : Bytes) : ℕ → Option ℕ
  | 0 => some 0
  | q + 1 => do
    let c ← fn[q]?
    if c ≠ slash then backUp fn q else some (q + 1)

/-- The offsets after a component of one or two dots, if that is what is ahead. -/
def dots (s : NormState) : Option (ℕ × ℕ) := do
  let c₁ ← s.fn[s.p + 1]?
  if c₁ = 0 ∨ c₁ = slash then some (s.p + 1, s.q)
  else if c₁ = dot then
    let c₂ ← s.fn[s.p + 2]?
    if c₂ = 0 ∨ c₂ = slash then
      let q ← if 1 < s.q then backUp s.fn (s.q - 1) else some s.q
      some (s.p + 2, q)
    else some (s.p, s.q)
  else some (s.p, s.q)

/-- One round of a loop. -/
def step (s : NormState) : Option NormState :=
  match s.pc with
  | .next => do
    let c ← s.fn[s.p]?
    let fn ← s.store c
    if c = 0 then some { s with fn, p := s.p + 1, pc := .done }
    else some { fn, p := s.p + 1, q := s.q + 1, pc := if c = slash then .slashes else .next }
  | .slashes => do
    let c ← s.fn[s.p]?
    if c = slash then some { s with p := s.p + 1 }
    else if c = dot then
      let (p, q) ← s.dots
      let c ← s.fn[p]?
      some { s with p, q, pc := if c = slash then .slashes else .next }
    else some { s with pc := .next }
  | .done => some s

/-- The state after some rounds. -/
def after (s : NormState) : ℕ → Option NormState
  | 0 => some s
  | rounds + 1 => (s.after rounds).bind step

end NormState

/-- The name with a slash before it if it has none. -/
def rooted (fn : Bytes) : Bytes := if fn.headD 0 ≠ slash then slash :: fn else fn

theorem exists_rooted (fn : Bytes) : ∃ rest, rooted fn = slash :: rest ∧ (rest = fn ∨ fn = slash :: rest) := by
  unfold rooted
  split_ifs with h
  · exact ⟨fn, rfl, .inl rfl⟩
  · cases fn with
    | nil => exact absurd (not_not.mp h) (by decide)
    | cons c fn =>
      obtain rfl : c = slash := not_not.mp h
      exact ⟨fn, rfl, .inr rfl⟩

/-- The state before the pass: the buffer holds the name and its NUL. -/
def NormState.start (fn : Bytes) : NormState := { fn := rooted fn ++ [0] }

/-- `normalize_path`. There is no result if the pass takes more rounds. -/
def normalizePath (rounds : ℕ) (normalize : Normalizations) (fn : Bytes) : Option Bytes :=
  match normalize with
  | .none => some fn
  | .root => some (rooted fn)
  | .path => do
    let s ← (NormState.start fn).after rounds
    if s.pc = .done then some (s.fn.takeWhile (· ≠ 0)) else none

/-! ### What it computes -/

/-- Components one after the other: a dot is dropped, and two dots with the component
before them, if there is one. -/
def collapse (kept : List Bytes) : List Bytes → List Bytes
  | [] => kept
  | c :: cs => collapse (if c = cstr "." then kept else if c = cstr ".." then kept.dropLast else kept ++ [c]) cs

namespace Normalize

/-- What stays in a normalized path. -/
structure Plain (c : Bytes) : Prop where
  ne_nil : c ≠ []
  slash_notMem : slash ∉ c
  ne_dot : c ≠ cstr "."
  ne_dotdot : c ≠ cstr ".."

/-- Components, each with a slash behind it. -/
def written (kept : List Bytes) : Bytes := slash :: kept.flatMap (· ++ [slash])

/-- The components that are kept when another part of the name has been read. -/
def keep (kept : List Bytes) (c : Bytes) : List Bytes :=
  if c = [] ∨ c = cstr "." then kept else if c = cstr ".." then kept.dropLast else kept ++ [c]

/-- What the whole name comes to, given the parts between slashes that are left of it. The
last one has no slash behind it. -/
def outcome (kept : List Bytes) : List Bytes → Bytes
  | [] => written kept
  | [c] => if c = [] ∨ c = cstr "." ∨ c = cstr ".." then written (keep kept c) else written kept ++ c
  | c :: cs => outcome (keep kept c) cs

variable {kept : List Bytes} {c cur rest : Bytes}

theorem keep_nil (kept : List Bytes) : keep kept [] = kept := if_pos (.inl rfl)

theorem keep_dotdot (kept : List Bytes) : keep kept (cstr "..") = kept.dropLast := by
  rw [keep, if_neg (by decide), if_pos rfl]

theorem Plain.keep (h : Plain c) (kept : List Bytes) : keep kept c = kept ++ [c] := by
  rw [Normalize.keep, if_neg (not_or.mpr ⟨h.ne_nil, h.ne_dot⟩), if_neg h.ne_dotdot]

theorem keep_plain (hk : ∀ k ∈ kept, Plain k) (hslash : slash ∉ c) : ∀ k ∈ keep kept c, Plain k := by
  rw [Normalize.keep]
  split_ifs with hskip hdotdot
  · exact hk
  · exact fun k h => hk k (List.mem_of_mem_dropLast h)
  · intro k h
    rcases List.mem_append.mp h with h | h
    · exact hk k h
    · rw [not_or] at hskip
      rw [List.mem_singleton.mp h]
      exact ⟨hskip.1, hslash, hskip.2, hdotdot⟩

theorem outcome_cons {cs : List Bytes} (hcs : cs ≠ []) : outcome kept (c :: cs) = outcome (keep kept c) cs := by
  cases cs with
  | nil => exact absurd rfl hcs
  | cons d ds => rfl

theorem Plain.outcome (h : Plain c) (kept : List Bytes) : outcome kept [c] = written kept ++ c := by
  rw [Normalize.outcome, if_neg (by simp [h.ne_nil, h.ne_dot, h.ne_dotdot])]

theorem written_concat (kept : List Bytes) (c : Bytes) : written (kept ++ [c]) = written kept ++ c ++ [slash] := by
  simp [written]

/-- What a part followed by a slash adds. -/
theorem outcome_slash (hcur : slash ∉ cur) :
    outcome kept ((cur ++ slash :: rest).splitOn slash) = outcome (keep kept cur) (rest.splitOn slash) := by
  rw [List.splitOn_append_cons_self_of_not_mem hcur, outcome_cons (List.splitOn_ne_nil slash rest)]

theorem outcome_end (hcur : slash ∉ cur) : outcome kept (cur.splitOn slash) = outcome kept [cur] := by
  rw [List.splitOn_eq_singleton hcur]

/-- A component of dots can be left out with what it takes away. -/
theorem outcome_dots (kept : List Bytes) (hc : c = cstr "." ∨ c = cstr "..")
    (hrest : rest = [] ∨ ∃ r, rest = slash :: r) :
    outcome kept ((c ++ rest).splitOn slash) = outcome (keep kept c) (rest.splitOn slash) := by
  have hslash : slash ∉ c := by
    rcases hc with rfl | rfl
    · decide
    · decide
  rcases hrest with rfl | ⟨r, rfl⟩
  · rw [List.append_nil, outcome_end hslash, outcome_end List.not_mem_nil, outcome, outcome,
      if_pos (by tauto), if_pos (.inl rfl), keep_nil]
  · rw [outcome_slash hslash, ← List.nil_append (slash :: r), outcome_slash List.not_mem_nil, keep_nil]

/-- The part of the name that begins here. -/
def part (rest : Bytes) : Bytes := rest.takeWhile (· ≠ slash)

theorem slash_notMem_part (rest : Bytes) : slash ∉ part rest := fun h => by
  simpa using List.mem_takeWhile_imp h

theorem part_cons {b : UInt8} (hb : b ≠ slash) (rest : Bytes) : part (b :: rest) = b :: part rest := by
  simp [part, hb]

end Normalize

namespace NormState

open Normalize

/-- The buffer in the middle of the pass: `w` has been written, `rest` is still to be read. -/
structure Pass (fn : Bytes) (p q : ℕ) (w rest : Bytes) : Prop where
  before : fn.take q = w
  ahead : fn.drop p = rest ++ [0]
  le : q ≤ p
  nul : (0 : UInt8) ∉ w ++ rest

namespace Pass

variable {fn w rest k : Bytes} {p q : ℕ} {c : UInt8} {ks : List Bytes}

theorem lt (h : Pass fn p q w rest) : p + rest.length + 1 = fn.length := by
  have hlen := congrArg List.length h.ahead
  rw [List.length_drop, List.length_append, List.length_singleton] at hlen
  omega

theorem length_eq (h : Pass fn p q w rest) : w.length = q := by
  have := h.lt
  have := h.le
  rw [← h.before, List.length_take]
  omega

theorem read (h : Pass fn p q w rest) (i : ℕ) : fn[p + i]? = (rest ++ [0])[i]? := by
  rw [← List.getElem?_drop, h.ahead]

theorem read_zero (h : Pass fn p q w rest) : fn[p]? = some (rest.headD 0) := by
  have hread := h.read 0
  rw [Nat.add_zero] at hread
  rw [hread]
  cases rest <;> rfl

/-- `p` goes on. -/
theorem skip (h : Pass fn p q w (k ++ rest)) : Pass fn (p + k.length) q w rest where
  before := h.before
  ahead := by rw [← List.drop_drop, h.ahead, List.append_assoc, List.drop_left]
  le := h.le.trans (Nat.le_add_right _ _)
  nul := fun h0 => h.nul (by simp only [List.mem_append] at h0 ⊢; tauto)

/-- A character is copied. Writing at `q` does not change what is ahead of `p`. -/
theorem copy (h : Pass fn p q w (c :: rest)) : Pass (fn.set q c) (p + 1) (q + 1) (w ++ [c]) rest where
  before := by
    have := h.lt
    have := h.le
    rw [List.take_add_one, List.getElem?_set_self (by omega), List.take_set_of_le le_rfl, h.before]
    rfl
  ahead := by
    have := h.le
    rw [List.drop_set_of_lt (by omega), ← List.drop_drop, h.ahead]
    rfl
  le := Nat.succ_le_succ h.le
  nul := by simpa using h.nul

/-- At the end the buffer holds what has been written. -/
theorem finish (h : Pass fn p q w []) : (fn.set q 0).takeWhile (· ≠ 0) = w := by
  have hlt : q < fn.length := by
    have := h.lt
    have := h.le
    omega
  have hw : (0 : UInt8) ∉ w := fun h0 => h.nul (by simp [h0])
  have hsplit : fn.set q 0 = w ++ 0 :: fn.drop (q + 1) := by
    rw [List.set_eq_take_append_cons_drop, if_pos hlt, h.before]
  have hall : ∀ b ∈ w, decide (b ≠ 0) = true := by
    intro b hb
    rw [decide_eq_true_eq]
    rintro rfl
    exact hw hb
  rw [hsplit, List.takeWhile_append_of_pos hall]
  simp

theorem last_of_take (hq : q < fn.length) (h : fn.take (q + 1) = w ++ [c]) : fn[q]? = some c ∧ fn.take q = w := by
  rw [List.take_add_one, List.getElem?_eq_getElem hq, Option.toList_some] at h
  obtain ⟨htake, hlast⟩ := List.append_inj' h rfl
  rw [List.getElem?_eq_getElem hq, List.singleton_inj.mp hlast]
  exact ⟨rfl, htake⟩

theorem backUp_eq (hq : q ≤ fn.length) (h : fn.take q = w ++ slash :: k) (hk : slash ∉ k) :
    backUp fn q = some (w.length + 1) := by
  have hlen : q = w.length + 1 + k.length := by
    have := congrArg List.length h
    rw [List.length_take, List.length_append, List.length_cons] at this
    omega
  -- the induction is on what is passed over, from its end
  induction k using List.reverseRecOn generalizing q with
  | nil =>
    rw [List.length_nil, Nat.add_zero] at hlen
    subst hlen
    rw [backUp, (last_of_take hq h).1]
    simp
  | append_singleton k c ih =>
    rw [List.length_append, List.length_singleton] at hlen
    obtain ⟨q, rfl⟩ : ∃ q', q = q' + 1 := ⟨q - 1, by omega⟩
    rw [List.mem_append, not_or, List.mem_singleton] at hk
    rw [← List.cons_append, ← List.append_assoc] at h
    obtain ⟨hc, htake⟩ := last_of_take hq h
    rw [backUp, hc]
    simp only [Option.bind_eq_bind, Option.bind_some, ne_eq, Ne.symm hk.2, not_false_eq_true, if_true]
    exact ih (by omega) htake hk.1 (by omega)

/-- Two dots take `q` back to where the last component was written. -/
theorem back (h : Pass fn p q (written (ks ++ [k])) rest) (hk : slash ∉ k) :
    1 < q ∧ backUp fn (q - 1) = some (written ks).length ∧ Pass fn p (written ks).length (written ks) rest := by
  have hq := h.length_eq
  have hlt := h.lt
  have hle := h.le
  have hw : written (ks ++ [k]) = (written ks ++ k) ++ [slash] := written_concat ks k
  obtain ⟨w, hslash⟩ : ∃ w, written ks = w ++ [slash] := by
    induction ks using List.reverseRecOn with
    | nil => exact ⟨[], rfl⟩
    | append_singleton ks k' _ => exact ⟨_, written_concat ks k'⟩
  have hlen := congrArg List.length hw
  simp only [List.length_append, List.length_singleton] at hlen
  have hpos : 0 < (written ks).length := Nat.succ_pos _
  obtain ⟨q, rfl⟩ : ∃ q', q = q' + 1 := ⟨q - 1, by omega⟩
  have htake := (last_of_take (by omega) (h.before.trans hw)).2
  refine ⟨by omega, ?_, ⟨?_, h.ahead, by omega, ?_⟩⟩
  · rw [Nat.add_sub_cancel]
    rw [hslash, List.append_assoc] at htake
    rw [backUp_eq (by omega) htake hk, hslash, List.length_append, List.length_singleton]
  · have hprefix := congrArg (List.take (written ks).length) htake
    rwa [List.take_take, List.take_left, min_eq_left (by omega)] at hprefix
  · intro h0
    apply h.nul
    rw [hw]
    simp only [List.mem_append] at h0 ⊢
    tauto

end Pass

/-- Where the pass stands in the name `out` is the outcome of. -/
inductive Inv (out : Bytes) (s : NormState) : Prop
  | start {rest : Bytes} (hpc : s.pc = .next) (hpass : Pass s.fn s.p s.q [] (slash :: rest))
    (hout : outcome [] (rest.splitOn slash) = out)
  | slashes {kept : List Bytes} {rest : Bytes} (hpc : s.pc = .slashes)
    (hpass : Pass s.fn s.p s.q (written kept) rest) (hkept : ∀ k ∈ kept, Plain k)
    (hout : outcome kept (rest.splitOn slash) = out)
  | next {kept : List Bytes} {cur rest : Bytes} (hpc : s.pc = .next)
    (hpass : Pass s.fn s.p s.q (written kept ++ cur) rest) (hkept : ∀ k ∈ kept, Plain k) (hcur : slash ∉ cur)
    (hpart : cur ++ rest = [] ∨ Plain (cur ++ part rest)) (hout : outcome kept ((cur ++ rest).splitOn slash) = out)
  | done (hpc : s.pc = .done) (hle : s.q ≤ s.p) (hout : s.fn.takeWhile (· ≠ 0) = out)

theorem Inv.le {out : Bytes} {s : NormState} (h : Inv out s) : s.q ≤ s.p := by
  cases h with
  | start _ hpass => exact hpass.le
  | slashes _ hpass => exact hpass.le
  | next _ hpass => exact hpass.le
  | done _ hle => exact hle

/-- What is left of the pass. -/
def rank (s : NormState) : ℕ :=
  match s.pc with
  | .next => 2 * (s.fn.length - s.p) + 1
  | .slashes => 2 * (s.fn.length - s.p) + 2
  | .done => 0

/-- The component ends here or a character of it follows. -/
theorem Pass.ends_or {fn w rest : Bytes} {p q : ℕ} (h : Pass fn p q w rest) :
    (rest = [] ∨ ∃ r, rest = slash :: r) ∧ (rest.headD 0 = 0 ∨ rest.headD 0 = slash) ∨
      ∃ c r, rest = c :: r ∧ c ≠ slash ∧ ¬ (c = 0 ∨ c = slash) := by
  cases rest with
  | nil => exact .inl ⟨.inl rfl, .inl rfl⟩
  | cons c r =>
    by_cases hc : c = slash
    · exact .inl ⟨.inr ⟨r, by rw [hc]⟩, .inr hc⟩
    · refine .inr ⟨c, r, rfl, hc, ?_⟩
      rintro (rfl | hs)
      · exact h.nul (by simp)
      · exact hc hs

/-- Behind two dots `q` stands where the last component has been taken away, if there is one. -/
theorem Pass.dotdot {fn rest : Bytes} {p q : ℕ} {kept : List Bytes} (hkept : ∀ k ∈ kept, Plain k)
    (h : Pass fn p q (written kept) rest) :
    ∃ q', (if 1 < q then backUp fn (q - 1) else some q) = some q' ∧ Pass fn p q' (written kept.dropLast) rest := by
  rcases List.eq_nil_or_concat' kept with rfl | ⟨ks, k, rfl⟩
  · have hq : q = 1 := h.length_eq.symm
    exact ⟨q, if_neg (by omega), h⟩
  · obtain ⟨hq, hback, hpass⟩ := h.back (hkept k (by simp)).slash_notMem
    refine ⟨_, (if_pos hq).trans hback, ?_⟩
    rwa [List.dropLast_concat]

/-- A component of dots is passed over; otherwise a plain one begins here. -/
theorem Pass.dots {s : NormState} {kept : List Bytes} {rest : Bytes} (hkept : ∀ k ∈ kept, Plain k)
    (h : Pass s.fn s.p s.q (written kept) (dot :: rest)) :
    ∃ p q kept' rest', s.dots = some (p, q) ∧ Pass s.fn p q (written kept') rest' ∧ (∀ k ∈ kept', Plain k) ∧
      outcome kept ((dot :: rest).splitOn slash) = outcome kept' (rest'.splitOn slash) ∧
      (s.p < p ∧ (rest' = [] ∨ ∃ r, rest' = slash :: r) ∨ p = s.p ∧ rest' = dot :: rest ∧ Plain (part rest')) := by
  have hskip₁ : Pass s.fn (s.p + 1) s.q (written kept) rest := h.skip (k := [dot])
  have hread₁ := hskip₁.read_zero
  have hplain (hne : part (dot :: rest) ≠ cstr ".") (hne' : part (dot :: rest) ≠ cstr "..") :
      Plain (part (dot :: rest)) :=
    ⟨by rw [part_cons (by decide)]; simp, slash_notMem_part _, hne, hne'⟩
  rcases hskip₁.ends_or with ⟨hend, hc⟩ | ⟨c₁, rest₁, rfl, hs₁, hc₁⟩
  · -- a dot
    refine ⟨s.p + 1, s.q, kept, rest, ?_, hskip₁, hkept, outcome_dots _ (.inl rfl) hend, .inl ⟨by omega, hend⟩⟩
    simp only [NormState.dots, hread₁, Option.bind_eq_bind, Option.bind_some, if_pos hc]
  have hpart₁ : part (dot :: c₁ :: rest₁) = dot :: c₁ :: part rest₁ := by
    rw [part_cons (by decide), part_cons hs₁]
  by_cases hdot : c₁ = dot
  swap
  · refine ⟨s.p, s.q, kept, _, ?_, h, hkept, rfl, .inr ⟨rfl, rfl, hplain ?_ ?_⟩⟩
    · simp only [NormState.dots, hread₁, Option.bind_eq_bind, Option.bind_some, List.headD_cons, if_neg hc₁,
        if_neg hdot]
    · rw [hpart₁]
      exact fun heq => by simp [cstr] at heq
    · rw [hpart₁]
      intro heq
      have := (List.cons.inj (List.cons.inj heq).2).1
      exact hdot this
  subst hdot
  have hskip₂ : Pass s.fn (s.p + 2) s.q (written kept) rest₁ := h.skip (k := [dot, dot])
  have hread₂ := hskip₂.read_zero
  rcases hskip₂.ends_or with ⟨hend₂, hc₂⟩ | ⟨c₂, rest₂, rfl, hs₂, hc₂⟩
  · -- two dots
    obtain ⟨q, hq, hpass⟩ := hskip₂.dotdot hkept
    have hout := outcome_dots kept (.inr rfl) hend₂
    rw [keep_dotdot] at hout
    refine ⟨s.p + 2, q, kept.dropLast, rest₁, ?_, hpass, fun k hk => hkept k (List.mem_of_mem_dropLast hk), hout,
      .inl ⟨by omega, hend₂⟩⟩
    have hdots : s.dots = (if 1 < s.q then backUp s.fn (s.q - 1) else some s.q).bind fun q => some (s.p + 2, q) := by
      simp only [NormState.dots, hread₁, hread₂, Option.bind_eq_bind, Option.bind_some, List.headD_cons,
        if_neg hc₁, if_pos hc₂, if_true]
      split_ifs
      · rfl
      · rfl
    rw [hdots, hq, Option.bind_some]
  · rw [part_cons hs₂] at hpart₁
    refine ⟨s.p, s.q, kept, _, ?_, h, hkept, rfl, .inr ⟨rfl, rfl, hplain ?_ ?_⟩⟩
    · simp only [NormState.dots, hread₁, hread₂, Option.bind_eq_bind, Option.bind_some, List.headD_cons,
        if_neg hc₁, if_neg hc₂, if_true]
    · rw [hpart₁]
      exact fun heq => by simp [cstr] at heq
    · rw [hpart₁]
      exact fun heq => by simp [cstr] at heq

/-- A character of the name is copied. -/
theorem step_copy {s : NormState} (hpc : s.pc = .next) {w rest : Bytes} {c : UInt8}
    (hpass : Pass s.fn s.p s.q w (c :: rest)) :
    s.step = some
      { fn := s.fn.set s.q c, p := s.p + 1, q := s.q + 1, pc := if c = slash then .slashes else .next } := by
  have hlt := hpass.lt
  have hle := hpass.le
  have hc : c ≠ 0 := fun h0 => hpass.nul (by simp [h0])
  simp [step, hpc, hpass.read_zero, store, show s.q < s.fn.length by omega, hc]

/-- A round from `s` to `s'`. -/
structure Round (out : Bytes) (s s' : NormState) : Prop where
  step : s.step = some s'
  inv : Inv out s'
  length_eq : s'.fn.length = s.fn.length
  rank_lt : s.pc ≠ .done → s'.rank < s.rank

section

variable {out : Bytes} {s : NormState} {kept : List Bytes} {cur rest : Bytes} {c : UInt8}

/-- The inner loop ends where nothing more can be passed over. -/
theorem round_leave (hpc : s.pc = .slashes) (hpass : Pass s.fn s.p s.q (written kept) rest)
    (hkept : ∀ k ∈ kept, Plain k) (hslash : rest.headD 0 ≠ slash) (hdot : rest.headD 0 ≠ dot)
    (hout : outcome kept (rest.splitOn slash) = out) : Round out s { s with pc := .next } where
  step := by
    simp only [NormState.step, hpc, hpass.read_zero, Option.bind_eq_bind, Option.bind_some, if_neg hslash,
      if_neg hdot]
  inv := by
    refine .next rfl (by simpa using hpass) hkept List.not_mem_nil ?_ hout
    cases rest with
    | nil => exact .inl rfl
    | cons c rest =>
      have hpart : part (c :: rest) = c :: part rest := part_cons hslash rest
      have hhead (d : Bytes) : part (c :: rest) ≠ dot :: d := by
        rw [hpart]
        exact fun heq => hdot (List.cons.inj heq).1
      exact .inr ⟨by rw [List.nil_append, hpart]; simp, slash_notMem_part _, hhead _, hhead _⟩
  length_eq := rfl
  rank_lt _ := by simp [rank, hpc]

theorem round_slash (hpc : s.pc = .slashes) (hpass : Pass s.fn s.p s.q (written kept) (slash :: rest))
    (hkept : ∀ k ∈ kept, Plain k) (hout : outcome kept ((slash :: rest).splitOn slash) = out) :
    Round out s { s with p := s.p + 1 } where
  step := by simp [NormState.step, hpc, hpass.read_zero]
  inv := by
    refine .slashes hpc (hpass.skip (k := [slash])) hkept ?_
    rwa [← List.nil_append (slash :: rest), outcome_slash List.not_mem_nil, keep_nil] at hout
  length_eq := rfl
  rank_lt _ := by
    have hlt := hpass.lt
    rw [List.length_cons] at hlt
    simp only [rank, hpc]
    omega

theorem round_dots (hpc : s.pc = .slashes) (hpass : Pass s.fn s.p s.q (written kept) (dot :: rest))
    (hkept : ∀ k ∈ kept, Plain k) (hout : outcome kept ((dot :: rest).splitOn slash) = out) :
    ∃ s', Round out s s' := by
  obtain ⟨p, q, kept', rest', hdots, hpass', hkept', hout', hcase⟩ := Pass.dots hkept hpass
  have hlt := hpass.lt
  rw [List.length_cons] at hlt
  refine ⟨{ s with p, q, pc := if rest'.headD 0 = slash then .slashes else .next }, ?_, ?_, rfl, fun _ => ?_⟩
  · simp only [NormState.step, hpc, hpass.read_zero, hdots, hpass'.read_zero, Option.bind_eq_bind, Option.bind_some,
      List.headD_cons, if_neg (show dot ≠ slash by decide), if_true]
  · by_cases hslash : rest'.headD 0 = slash
    · rw [if_pos hslash]
      exact .slashes rfl hpass' hkept' (hout'.symm.trans hout)
    · rw [if_neg hslash]
      refine .next rfl (by simpa using hpass') hkept' List.not_mem_nil ?_ (hout'.symm.trans hout)
      rcases hcase with ⟨-, rfl | ⟨r, rfl⟩⟩ | ⟨-, -, hplain⟩
      · exact .inl rfl
      · exact absurd rfl hslash
      · exact .inr hplain
  · rcases hcase with ⟨hp, -⟩ | ⟨rfl, rfl, -⟩
    · simp only [rank, hpc]
      split_ifs
      · dsimp only
        omega
      · dsimp only
        omega
    · rw [List.headD_cons, if_neg (by decide)]
      simp [rank, hpc]

theorem round_end (hpc : s.pc = .next) (hpass : Pass s.fn s.p s.q (written kept ++ cur) []) (hcur : slash ∉ cur)
    (hpart : cur = [] ∨ Plain cur) (hout : outcome kept (cur.splitOn slash) = out) :
    Round out s { s with fn := s.fn.set s.q 0, p := s.p + 1, pc := .done } where
  step := by
    have hread : s.fn[s.p]? = some 0 := hpass.read_zero
    have hlt := hpass.lt
    have hle := hpass.le
    simp only [NormState.step, hpc, hread, store, Option.bind_eq_bind, Option.bind_some,
      if_pos (show s.q < s.fn.length by omega), if_true]
  inv := by
    refine .done rfl (hpass.le.trans (Nat.le_succ _)) ?_
    rw [hpass.finish, ← hout, outcome_end hcur]
    rcases hpart with rfl | hplain
    · simp [outcome, keep_nil]
    · exact (hplain.outcome kept).symm
  length_eq := List.length_set
  rank_lt _ := by
    simp only [rank, hpc]
    omega

theorem round_copy (hpc : s.pc = .next) (hpass : Pass s.fn s.p s.q (written kept ++ cur) (c :: rest))
    (hkept : ∀ k ∈ kept, Plain k) (hcur : slash ∉ cur) (hpart : Plain (cur ++ part (c :: rest)))
    (hout : outcome kept ((cur ++ c :: rest).splitOn slash) = out) : ∃ s', Round out s s' := by
  have hlt := hpass.lt
  rw [List.length_cons] at hlt
  refine ⟨_, step_copy hpc hpass, ?_, List.length_set, fun _ => ?_⟩
  · have hcopy := hpass.copy
    by_cases hs : c = slash
    · -- the component is complete
      subst hs
      have hplain : Plain cur := by simpa [part] using hpart
      rw [if_pos rfl]
      refine .slashes rfl (by rw [written_concat]; exact hcopy) ?_ ?_
      · rw [← hplain.keep]
        exact keep_plain hkept hcur
      · rwa [outcome_slash hcur, hplain.keep] at hout
    · rw [if_neg hs]
      refine .next rfl (by rw [← List.append_assoc]; exact hcopy) hkept ?_ (.inr ?_) ?_
      · simp [hcur, Ne.symm hs]
      · rwa [part_cons hs, List.append_cons] at hpart
      · rwa [List.append_cons] at hout
  · simp only [rank, hpc, List.length_set]
    split_ifs
    · dsimp only
      omega
    · dsimp only
      omega

end

theorem Inv.round {out : Bytes} {s : NormState} (h : Inv out s) : ∃ s', Round out s s' := by
  cases h with
  | start hpc hpass hout =>
    have hlt := hpass.lt
    refine ⟨_, step_copy hpc hpass, ?_, List.length_set, fun _ => ?_⟩
    · exact .slashes rfl (show Pass _ _ _ (written []) _ from hpass.copy) (by simp) hout
    · simp only [rank, hpc, List.length_set, if_true]
      omega
  | @slashes kept rest hpc hpass hkept hout =>
    by_cases hslash : rest.headD 0 = slash
    · cases rest with
      | nil => exact absurd hslash (by decide)
      | cons c rest =>
        obtain rfl : c = slash := hslash
        exact ⟨_, round_slash hpc hpass hkept hout⟩
    by_cases hdot : rest.headD 0 = dot
    · cases rest with
      | nil => exact absurd hdot (by decide)
      | cons c rest =>
        obtain rfl : c = dot := hdot
        exact round_dots hpc hpass hkept hout
    exact ⟨_, round_leave hpc hpass hkept hslash hdot hout⟩
  | @next kept cur rest hpc hpass hkept hcur hpart hout =>
    cases rest with
    | nil =>
      rw [List.append_nil] at hpart hout
      exact ⟨_, round_end hpc hpass hcur (by simpa [part] using hpart) hout⟩
    | cons c rest => exact round_copy hpc hpass hkept hcur (hpart.resolve_left (by simp)) hout
  | done hpc hle hout =>
    refine ⟨s, ?_, .done hpc hle hout, rfl, fun h => absurd hpc h⟩
    simp [NormState.step, hpc]

theorem Inv.after {out : Bytes} {s : NormState} (h : Inv out s) (rounds : ℕ) :
    ∃ s', s.after rounds = some s' ∧ Inv out s' ∧ s'.fn.length = s.fn.length ∧
      (s'.pc = .done ∨ s'.rank + rounds ≤ s.rank) := by
  induction rounds with
  | zero => exact ⟨s, rfl, h, rfl, .inr le_rfl⟩
  | succ rounds ih =>
    obtain ⟨s₁, hafter, h₁, hlen, hcase⟩ := ih
    obtain ⟨s₂, hround⟩ := h₁.round
    refine ⟨s₂, by rw [NormState.after, hafter, Option.bind_some, hround.step], hround.inv,
      hround.length_eq.trans hlen, ?_⟩
    by_cases hdone : s₁.pc = .done
    · have heq : s₁.step = some s₁ := by simp [NormState.step, hdone]
      obtain rfl := Option.some.inj (heq.symm.trans hround.step)
      exact .inl hdone
    · have := hround.rank_lt hdone
      have := hcase.resolve_left hdone
      exact .inr (by omega)

theorem inv_start {fn : Bytes} (hfn : (0 : UInt8) ∉ fn) :
    Inv (outcome [] ((rooted fn).tail.splitOn slash)) (start fn) := by
  obtain ⟨rest, hrest, hfn'⟩ := exists_rooted fn
  have h0 : (0 : UInt8) ∉ rest := by
    rcases hfn' with rfl | rfl
    · exact hfn
    · exact fun h0 => hfn (List.mem_cons_of_mem _ h0)
  have hpass : Pass (start fn).fn 0 0 [] (slash :: rest) := by
    refine ⟨rfl, ?_, le_rfl, ?_⟩
    · rw [start, hrest]
      rfl
    · simp [h0, show (0 : UInt8) ≠ slash by decide]
  refine .start rfl hpass ?_
  rw [hrest]
  rfl

theorem length_start_le (fn : Bytes) : (start fn).fn.length ≤ fn.length + 2 := by
  rw [start, List.length_append, List.length_singleton, rooted]
  split_ifs
  · rfl
  · omega

end NormState

/-- The pass ends, and the name it leaves is the outcome. -/
theorem normalizePath_eq {fn : Bytes} (hfn : (0 : UInt8) ∉ fn) {rounds : ℕ} (hrounds : 2 * fn.length + 5 ≤ rounds) :
    normalizePath rounds .path fn = some (Normalize.outcome [] ((rooted fn).tail.splitOn slash)) := by
  obtain ⟨s, hafter, hinv, -, hcase⟩ := (NormState.inv_start hfn).after rounds
  have hdone : s.pc = .done := by
    rcases hcase with hdone | hrank
    · exact hdone
    · have hlen := NormState.length_start_le fn
      have hstart : (NormState.start fn).rank = 2 * (NormState.start fn).fn.length + 1 := rfl
      by_contra hpc
      have hpos : 0 < s.rank := by
        unfold NormState.rank
        split
        · omega
        · omega
        · exact absurd ‹_› hpc
      omega
  have hstr : s.fn.takeWhile (· ≠ 0) = Normalize.outcome [] ((rooted fn).tail.splitOn slash) := by
    cases hinv with
    | start hpc => rw [hpc] at hdone; cases hdone
    | slashes hpc => rw [hpc] at hdone; cases hdone
    | next hpc => rw [hpc] at hdone; cases hdone
    | done _ _ hout => exact hout
  rw [normalizePath, hafter]
  simp only [Option.bind_eq_bind, Option.bind_some, hdone, if_true, hstr]

namespace Normalize

variable {kept cs : List Bytes} {c cur rest : Bytes}

/-! ### Normalized paths -/

theorem of_mem_splitOn (h : c ∈ rest.splitOn slash) : slash ∉ c ∧ ∀ b ∈ c, b ∈ rest := by
  induction hn : rest.length using Nat.strong_induction_on generalizing rest with
  | _ n ih =>
    by_cases hslash : slash ∈ rest
    · obtain ⟨k, rest', rfl, hk⟩ := List.eq_append_cons_of_mem hslash
      rw [List.splitOn_append_cons_self_of_not_mem hk] at h
      rcases List.mem_cons.mp h with rfl | h
      · exact ⟨hk, fun b hb => by simp [hb]⟩
      · obtain ⟨hc, hsub⟩ := ih rest'.length (by rw [← hn]; simp; omega) h rfl
        exact ⟨hc, fun b hb => by simp [hsub b hb]⟩
    · rw [List.splitOn_eq_singleton hslash, List.mem_singleton] at h
      subst h
      exact ⟨hslash, fun _ hb => hb⟩

/-- The path of the components `kept`, and of a last one unless it is empty. -/
structure Canonical (kept : List Bytes) (cur : Bytes) : Prop where
  kept : ∀ k ∈ kept, Plain k
  cur : cur = [] ∨ Plain cur

theorem Canonical.slash_notMem (h : Canonical kept cur) : slash ∉ cur := by
  rcases h.cur with rfl | hcur
  · exact List.not_mem_nil
  · exact hcur.slash_notMem

theorem collapse_cons (kept : List Bytes) (c : Bytes) (cs : List Bytes) :
    collapse kept ((c :: cs).filter (· ≠ [])) = collapse (keep kept c) (cs.filter (· ≠ [])) := by
  by_cases hc : c = []
  · subst hc
    rw [List.filter_cons_of_neg (by simp), keep_nil]
  · rw [List.filter_cons_of_pos (by simpa using hc), collapse, keep]
    simp only [hc, false_or]

/-- The outcome is a normalized path with the components it should have. -/
theorem exists_canonical (hk : ∀ k ∈ kept, Plain k) (hcs : ∀ c ∈ cs, slash ∉ c) :
    ∃ kept' cur, outcome kept cs = written kept' ++ cur ∧ Canonical kept' cur ∧
      collapse kept (cs.filter (· ≠ [])) = kept' ++ if cur = [] then [] else [cur] := by
  induction cs generalizing kept with
  | nil => exact ⟨kept, [], by simp [outcome], ⟨hk, .inl rfl⟩, by simp [collapse]⟩
  | cons c cs ih =>
    obtain ⟨hc, hcs⟩ := List.forall_mem_cons.mp hcs
    rw [collapse_cons]
    by_cases hnil : cs = []
    · subst hnil
      by_cases hplain : Plain c
      · refine ⟨kept, c, hplain.outcome kept, ⟨hk, .inr hplain⟩, ?_⟩
        rw [hplain.keep, if_neg hplain.ne_nil]
        rfl
      · have hdots : c = [] ∨ c = cstr "." ∨ c = cstr ".." := by
          by_contra hne
          rw [not_or, not_or] at hne
          exact hplain ⟨hne.1, hc, hne.2.1, hne.2.2⟩
        refine ⟨keep kept c, [], ?_, ⟨keep_plain hk hc, .inl rfl⟩, ?_⟩
        · rw [outcome, if_pos hdots, List.append_nil]
        · simp [collapse]
    · rw [outcome_cons hnil]
      exact ih (keep_plain hk hc) hcs

theorem splitOn_written (h : Canonical kept cur) :
    (kept.flatMap (· ++ [slash]) ++ cur).splitOn slash = kept ++ [cur] := by
  obtain ⟨hk, hcur⟩ := h
  induction kept with
  | nil => exact List.splitOn_eq_singleton (Canonical.slash_notMem ⟨hk, hcur⟩)
  | cons k kept ih =>
    obtain ⟨hk₀, hk⟩ := List.forall_mem_cons.mp hk
    have hcons : (k :: kept).flatMap (· ++ [slash]) ++ cur = k ++ slash :: (kept.flatMap (· ++ [slash]) ++ cur) := by
      simp
    rw [hcons, List.splitOn_append_cons_self_of_not_mem hk₀.slash_notMem, ih hk]
    rfl

/-- A normalized path is left as it is. -/
theorem outcome_canonical (h : Canonical kept cur) (ks : List Bytes) :
    outcome ks (kept ++ [cur]) = written (ks ++ kept) ++ cur := by
  obtain ⟨hk, hcur⟩ := h
  induction kept generalizing ks with
  | nil =>
    rw [List.nil_append, List.append_nil]
    rcases hcur with rfl | hcur
    · simp [outcome, keep_nil]
    · exact hcur.outcome ks
  | cons k kept ih =>
    obtain ⟨hk₀, hk⟩ := List.forall_mem_cons.mp hk
    rw [List.cons_append, outcome_cons (by simp), hk₀.keep, ih _ hk, List.append_assoc, List.singleton_append]

theorem slashes_append {w : Bytes} (hc : slash ∉ c) (h : [slash, slash] <:+: c ++ w) : [slash, slash] <:+: w := by
  induction c with
  | nil => exact h
  | cons b c ih =>
    rw [List.mem_cons, not_or] at hc
    rcases List.infix_cons_iff.mp h with hpre | hinf
    · exact absurd (List.cons_prefix_cons.mp hpre).1 hc.1
    · exact ih hc.2 hinf

theorem no_slashes (h : Canonical kept cur) : ¬ [slash, slash] <:+: written kept ++ cur := by
  obtain ⟨hk, hcur⟩ := h
  have hend : ¬ [slash, slash] <:+: slash :: cur := by
    intro hinf
    have hslash := Canonical.slash_notMem ⟨hk, hcur⟩
    rcases List.infix_cons_iff.mp hinf with hpre | hinf
    · exact hslash ((List.cons_prefix_cons.mp hpre).2.subset (by simp))
    · exact hslash (hinf.subset (by simp))
  induction kept with
  | nil => exact hend
  | cons k kept ih =>
    obtain ⟨hk₀, hk⟩ := List.forall_mem_cons.mp hk
    have hcons : written (k :: kept) ++ cur = slash :: (k ++ (written kept ++ cur)) := by simp [written]
    rw [hcons]
    intro hinf
    rcases List.infix_cons_iff.mp hinf with hpre | hinf
    · -- the component does not begin with a slash
      obtain ⟨b, k, rfl⟩ := List.exists_cons_of_ne_nil hk₀.ne_nil
      have hb := (List.cons_prefix_cons.mp (List.cons_prefix_cons.mp hpre).2).1
      exact hk₀.slash_notMem (by simp [hb])
    · exact ih hk (slashes_append hk₀.slash_notMem hinf)

/-- Nothing is written that was not in the name, apart from slashes. -/
theorem outcome_forall {P : UInt8 → Prop} (hslash : P slash) (hk : ∀ k ∈ kept, ∀ b ∈ k, P b)
    (hcs : ∀ c ∈ cs, ∀ b ∈ c, P b) : ∀ b ∈ outcome kept cs, P b := by
  have hwritten {ks : List Bytes} (hks : ∀ k ∈ ks, ∀ b ∈ k, P b) : ∀ b ∈ written ks, P b := by
    intro b hb
    rcases List.mem_cons.mp hb with rfl | hb
    · exact hslash
    · obtain ⟨k, hk, hb⟩ := List.mem_flatMap.mp hb
      rcases List.mem_append.mp hb with hb | hb
      · exact hks k hk b hb
      · rwa [List.mem_singleton.mp hb]
  have hkeep {ks : List Bytes} (hks : ∀ k ∈ ks, ∀ b ∈ k, P b) {c : Bytes} (hc : ∀ b ∈ c, P b) :
      ∀ k ∈ keep ks c, ∀ b ∈ k, P b := by
    rw [keep]
    split_ifs
    · exact hks
    · exact fun k h => hks k (List.mem_of_mem_dropLast h)
    · simpa [or_imp, forall_and] using ⟨hks, hc⟩
  induction cs generalizing kept with
  | nil => exact hwritten hk
  | cons c cs ih =>
    obtain ⟨hc, hcs⟩ := List.forall_mem_cons.mp hcs
    by_cases hnil : cs = []
    · subst hnil
      rw [outcome]
      split_ifs
      · exact hwritten (hkeep hk hc)
      · intro b hb
        exact (List.mem_append.mp hb).elim (hwritten hk b) (hc b)
    · rw [outcome_cons hnil]
      exact ih (hkeep hk hc) hcs

end Normalize

namespace Normalize

/-- The parts of the name, seen from behind its first slash. -/
theorem parts_rooted (fn : Bytes) : (∀ c ∈ (rooted fn).tail.splitOn slash, slash ∉ c ∧ ∀ b ∈ c, b ∈ fn) ∧
    ((rooted fn).tail.splitOn slash).filter (· ≠ []) = components fn := by
  obtain ⟨rest, hrest, hfn⟩ := exists_rooted fn
  rw [hrest, List.tail_cons]
  rcases hfn with rfl | rfl
  · exact ⟨fun c hc => of_mem_splitOn hc, rfl⟩
  · refine ⟨fun c hc => ?_, ?_⟩
    · obtain ⟨hslash, hsub⟩ := of_mem_splitOn hc
      exact ⟨hslash, fun b hb => List.mem_cons_of_mem _ (hsub b hb)⟩
    · exact (components_append_slash List.not_mem_nil rest).symm

/-- What a normalized path is, apart from where it comes from. -/
theorem canonical_path {kept : List Bytes} {cur out : Bytes} (h : Canonical kept cur) (hout : out = written kept ++ cur)
    (h0 : (0 : UInt8) ∉ out) :
    out.head? = some slash ∧ ¬ [slash, slash] <:+: out ∧ (∀ c ∈ out.splitOn slash, c ≠ cstr "." ∧ c ≠ cstr "..") ∧
      components out = (kept ++ if cur = [] then [] else [cur]) ∧
      ∀ rounds ≥ 2 * out.length + 5, normalizePath rounds .path out = some out := by
  have hform : out = [] ++ slash :: (kept.flatMap (· ++ [slash]) ++ cur) := hout
  have hsplit : out.splitOn slash = [] :: (kept ++ [cur]) := by
    rw [hform, List.splitOn_append_cons_self_of_not_mem List.not_mem_nil, splitOn_written h]
  have hkept : kept.filter (· ≠ []) = kept := by
    rw [List.filter_eq_self]
    exact fun k hk => decide_eq_true (h.kept k hk).ne_nil
  refine ⟨by rw [hform]; rfl, hout ▸ no_slashes h, ?_, ?_, fun rounds hrounds => ?_⟩
  · rw [hsplit]
    intro c hc
    rcases List.mem_cons.mp hc with rfl | hc
    · exact ⟨by decide, by decide⟩
    rcases List.mem_append.mp hc with hc | hc
    · exact ⟨(h.kept c hc).ne_dot, (h.kept c hc).ne_dotdot⟩
    · obtain rfl := List.mem_singleton.mp hc
      rcases h.cur with rfl | hcur
      · exact ⟨by decide, by decide⟩
      · exact ⟨hcur.ne_dot, hcur.ne_dotdot⟩
  · rw [components, hsplit, List.filter_cons_of_neg (by simp), List.filter_append, hkept]
    by_cases hcur : cur = [] <;> simp [hcur]
  · have hrooted : rooted out = out := by
      rw [rooted, if_neg]
      rw [hform]
      exact not_not.mpr rfl
    have htail : out.tail = kept.flatMap (· ++ [slash]) ++ cur := by
      rw [hform]
      rfl
    rw [normalizePath_eq h0 hrounds, hrooted, htail, splitOn_written h, outcome_canonical h, List.nil_append, hout]

end Normalize

open Normalize in
/-- With `--normalize=path` every name becomes an absolute path without empty or dot
components that stands for the components of the name, two dots taking back the one before
them. The pass stays inside its buffer and never writes ahead of where it reads. A path that
has been normalized stays as it is, and without control characters it is a strict path. -/
theorem normalizePath_canonical {fn : Bytes} (hfn : (0 : UInt8) ∉ fn) :
    ∃ out, (∀ rounds ≥ 2 * fn.length + 5, normalizePath rounds .path fn = some out) ∧
      out.head? = some slash ∧ ¬ [slash, slash] <:+: out ∧
      (∀ c ∈ out.splitOn slash, c ≠ cstr "." ∧ c ≠ cstr "..") ∧
      components out = collapse [] (components fn) ∧
      (∀ rounds, ∃ s, (NormState.start fn).after rounds = some s ∧ s.q ≤ s.p ∧ s.fn.length ≤ fn.length + 2) ∧
      (∀ rounds ≥ 2 * out.length + 5, normalizePath rounds .path out = some out) ∧
      ((∀ b ∈ fn, ¬ (1 ≤ b ∧ b ≤ 31)) →
        ∀ garbage, parsePathList garbage out true = some (some (collapse [] (components fn)))) := by
  obtain ⟨hparts, hcomp⟩ := parts_rooted fn
  obtain ⟨kept, cur, hout, hcan, hcollapse⟩ :=
    exists_canonical (show ∀ k ∈ ([] : List Bytes), Plain k by simp) fun c hc => (hparts c hc).1
  have hbytes {P : UInt8 → Prop} (hslash : P slash) (hP : ∀ b ∈ fn, P b) :
      ∀ b ∈ outcome [] ((rooted fn).tail.splitOn slash), P b :=
    outcome_forall hslash (by simp) fun c hc b hb => hP b ((hparts c hc).2 b hb)
  have h0 : (0 : UInt8) ∉ outcome [] ((rooted fn).tail.splitOn slash) := by
    have hne := hbytes (P := fun b => b ≠ 0) (by decide) fun b hb h => hfn (h ▸ hb)
    exact fun h => hne 0 h rfl
  rw [hcomp] at hcollapse
  obtain ⟨hhead, hslashes, hdots, hcomponents, hagain⟩ := canonical_path hcan hout h0
  rw [← hcollapse] at hcomponents
  refine ⟨_, fun rounds hrounds => normalizePath_eq hfn hrounds, hhead, hslashes, hdots, hcomponents, ?_, hagain, ?_⟩
  · intro rounds
    obtain ⟨s, hafter, hinv, hlen, -⟩ := (NormState.inv_start hfn).after rounds
    exact ⟨s, hafter, hinv.le, hlen ▸ NormState.length_start_le fn⟩
  · intro hctl garbage
    rw [parsePathList_eq garbage h0, parsePath_strict, hcomponents, if_pos]
    refine ⟨?_, ?_, fun c hc => ?_⟩
    · rw [List.headD_eq_head?_getD, hhead]
      rfl
    · rw [List.all_eq_true]
      refine hbytes rfl fun b hb => (isValidChar_iff ?_).mpr (hctl b hb)
      rintro rfl
      exact hfn hb
    · rw [← hcomponents] at hc
      exact hdots c (List.mem_of_mem_filter hc)

/-- `a/./../..//b/..` has no component left, and `/..a//b/.` has two. -/
theorem normalizePath_canonical_dots :
    (∃ rounds, normalizePath rounds .path (cstr "a/./../..//b/..") = some (cstr "/")) ∧
      ∃ rounds out, normalizePath rounds .path (cstr "/..a//b/.") = some out ∧ out = cstr "/..a/b/" ∧
        parsePathList none out true = some (some [cstr "..a", cstr "b"]) := by
  constructor
  · exact ⟨35, by decide +kernel⟩
  · obtain ⟨out, hout, -, -, -, -, -, -, hparse⟩ :=
      normalizePath_canonical (show (0 : UInt8) ∉ cstr "/..a//b/." by decide +kernel)
    have hrun : normalizePath 23 .path (cstr "/..a//b/.") = some (cstr "/..a/b/") := by decide +kernel
    obtain rfl := Option.some.inj (hrun.symm.trans (hout 23 (by decide +kernel)))
    exact ⟨23, _, hrun, rfl, hparse (by decide +kernel) none⟩

end TftpHpa
