import TftpHpa.Daemon.RemapManual
import TftpHpa.Lib.Transition

/-! The expansion of a replacement pattern (`do_genmatchstring` and `xform_out`). Text from
the pattern, from the match and from macros goes through one conversion, to wide characters,
through the present case mapping and back. The locale decides what can be converted; here it
is a parameter. -/

namespace TftpHpa

/-- The functions of the C library that depend on the locale. `mbrtowc` gets the bytes that
are there and the conversion state; a result comes with the number of bytes read. -/
structure Locale where
  Wc : Type
  Mbs : Type
  initial : Mbs
  mbrtowc : Bytes → Mbs → Option (Wc × ℕ × Mbs)
  reads : ∀ {p ps wc nb ps'}, mbrtowc p ps = some (wc, nb, ps') → 0 < nb ∧ nb ≤ p.length
  wcrtomb : Wc → Mbs → Option Bytes × Mbs
  towlower : Wc → Wc
  towupper : Wc → Wc

/-- `xform_func`. -/
inductive Xform where
  | null | tolower | toupper
  deriving DecidableEq, Repr

def Locale.xform (l : Locale) : Xform → l.Wc → l.Wc
  | .null => id
  | .tolower => l.towlower
  | .toupper => l.towupper

/-- `struct xform_state`, where `len` is the length of `out`. The pass that only counts goes
the same way as the pass that writes. -/
structure XformState (l : Locale) where
  xform : Xform := .null
  out : Bytes := []
  err : Bool := false
  ps : l.Mbs := l.initial

namespace XformState

variable {l : Locale}

/-- A character is mapped and appended; one that has no representation is left out. -/
def put (xs : XformState l) (wc : l.Wc) : XformState l :=
  let r := l.wcrtomb (l.xform xs.xform wc) xs.ps
  { xs with out := xs.out ++ r.1.getD [], ps := r.2 }

/-- `xsmemcpy`. -/
def memcpy (xs : XformState l) (bytes : Bytes) : XformState l := { xs with out := xs.out ++ bytes }

end XformState

/-- `xform_out` with its conversion state: up to a backslash or an error, and what is left. -/
def xformOut {l : Locale} (xs : XformState l) (ips : l.Mbs) : Bytes → XformState l × Bytes
  | [] => (xs, [])
  | c :: p =>
    if c = 0 ∨ c = 92 then (xs, c :: p)
    else
      match h : l.mbrtowc (c :: p) ips with
      | none => ({ xs with err := true }, c :: p)
      | some (wc, nb, ips) =>
        have := l.reads h
        xformOut (xs.put wc) ips ((c :: p).drop nb)
termination_by p => p.length
decreasing_by
  rw [List.length_drop]
  omega

/-- `pmatch[i]`, if it is set. -/
def RegMatch.group (m : RegMatch) : ℕ → Option (ℕ × ℕ)
  | 0 => some (m.so, m.eo)
  | i + 1 => m.subs[i]?.join

/-- What the expansion of a pattern refers to. -/
structure Expander (l : Locale) where
  input : Bytes
  pmatch : Option RegMatch
  macrosub : UInt8 → Option Bytes

namespace Expander

variable {l : Locale} (x : Expander l)

/-- The text of a group, if it is set. -/
def group (i : ℕ) : Option Bytes :=
  (x.pmatch.bind (·.group i)).map fun pm => (x.input.drop pm.1).take (pm.2 - pm.1)

/-- One round of the loop over the pattern: the state, and the pattern that is left. -/
def round (xs : XformState l) : Bytes → XformState l × Bytes
  | [] => (xs, [])
  | c :: p =>
    if c = 92 then
      match p with
      | [] => (xs.memcpy [92], [])
      | m :: p =>
        if 48 ≤ m ∧ m ≤ 57 then
          match x.group (m.toNat - 48) with
          | some text => ((xformOut xs l.initial text).1, p)
          | none => (xs, p)
        else if m = 76 then ({ xs with xform := .tolower }, p)
        else if m = 85 then ({ xs with xform := .toupper }, p)
        else if m = 69 then ({ xs with xform := .null }, p)
        else if m = 0 then (xs.memcpy [92], m :: p)
        else if m = 92 then (xs.memcpy [92], p)
        else
          match x.macrosub m with
          | some text => ((xformOut xs l.initial text).1, p)
          -- The backslash is ignored.
          | none => (xs, m :: p)
    else xformOut xs l.initial (c :: p)

/-- The loop, for a number of rounds. -/
def loop : ℕ → XformState l → Bytes → Option (XformState l)
  | 0, xs, pattern => if pattern.headD 0 = 0 then some xs else none
  | fuel + 1, xs, pattern =>
    if pattern.headD 0 = 0 then some xs
    else loop fuel (x.round xs pattern).1 (x.round xs pattern).2

end Expander

/-- `do_genmatchstring`, with `none` for `MATCHONLY`. The outer `none` is a loop that has not
ended, the inner one the result `-1`. -/
def doGenmatchstring (l : Locale) (macrosub : UInt8 → Option Bytes) (fuel : ℕ) (pattern ibuf : Bytes)
    (pmatch : Option RegMatch) : Option ℕ → Option (Option Genmatch)
  | none =>
    let x : Expander l := { input := ibuf, pmatch, macrosub }
    (x.loop fuel {} pattern).map fun xs => if xs.err then none else some ⟨xs.out, xs.out.length, xs.out.length⟩
  | some start =>
    match pmatch with
    | none => some (some ⟨ibuf, ibuf.length + 1, start⟩)
    | some m =>
      let input := ibuf.drop start
      let x : Expander l := { input, pmatch, macrosub }
      (x.loop fuel (XformState.memcpy {} (ibuf.take (start + m.so))) pattern).map fun xs =>
        let tail := xs.memcpy (input.drop m.eo)
        if tail.err then none else some ⟨tail.out, tail.out.length, xs.out.length⟩

/-! ### The conversion -/

/-- Converting a text: the wide characters read, what is left, and whether there was an
error. -/
inductive Conv (l : Locale) : l.Mbs → Bytes → List l.Wc → Bytes → Bool → Prop where
  | stop {ips : l.Mbs} {p : Bytes} (hp : p.headD 0 = 0 ∨ p.headD 0 = 92) : Conv l ips p [] p false
  | reject {ips : l.Mbs} {p : Bytes} (hp : ¬ (p.headD 0 = 0 ∨ p.headD 0 = 92)) (h : l.mbrtowc p ips = none) :
    Conv l ips p [] p true
  | next {ips ips' : l.Mbs} {p rest : Bytes} {wc : l.Wc} {nb : ℕ} {wcs : List l.Wc} {e : Bool}
    (hp : ¬ (p.headD 0 = 0 ∨ p.headD 0 = 92)) (h : l.mbrtowc p ips = some (wc, nb, ips'))
    (hrest : Conv l ips' (p.drop nb) wcs rest e) : Conv l ips p (wc :: wcs) rest e

/-- A text that cannot be converted up to its end or to a backslash. -/
def Rejects (l : Locale) (text : Bytes) : Prop := ∃ wcs rest, Conv l l.initial text wcs rest true

section Conv

variable {l : Locale}

theorem exists_conv (ips : l.Mbs) (p : Bytes) : ∃ wcs rest e, Conv l ips p wcs rest e := by
  induction hlen : p.length using Nat.strong_induction_on generalizing ips p with
  | _ n ih =>
    by_cases hp : p.headD 0 = 0 ∨ p.headD 0 = 92
    · exact ⟨_, _, _, .stop hp⟩
    · cases h : l.mbrtowc p ips with
      | none => exact ⟨_, _, _, .reject hp h⟩
      | some r =>
        obtain ⟨wc, nb, ips'⟩ := r
        have hreads := l.reads h
        obtain ⟨wcs, rest, e, hrest⟩ := ih (p.drop nb).length (by rw [List.length_drop]; omega) ips' (p.drop nb) rfl
        exact ⟨_, _, _, .next hp h hrest⟩

def XformState.puts (xs : XformState l) (wcs : List l.Wc) : XformState l := wcs.foldl XformState.put xs

/-- `xform_out` maps and writes what the conversion reads. -/
theorem Conv.xformOut {ips : l.Mbs} {p rest : Bytes} {wcs : List l.Wc} {e : Bool} (h : Conv l ips p wcs rest e)
    (xs : XformState l) :
    TftpHpa.xformOut xs ips p = ({ xs.puts wcs with err := (xs.puts wcs).err || e }, rest) := by
  induction h generalizing xs with
  | @stop ips p hp =>
    cases p with
    | nil => simp [TftpHpa.xformOut, XformState.puts]
    | cons c p =>
      rw [TftpHpa.xformOut, if_pos (show c = 0 ∨ c = 92 from hp)]
      simp [XformState.puts]
  | @reject ips p hp h =>
    cases p with
    | nil => exact absurd (.inl rfl) hp
    | cons c p =>
      rw [TftpHpa.xformOut, if_neg (show ¬ (c = 0 ∨ c = 92) from hp)]
      split
      · simp [XformState.puts]
      · next h' => exact absurd (h.symm.trans h') nofun
  | @next ips ips' p rest wc nb wcs e hp h hrest ih =>
    cases p with
    | nil => exact absurd (.inl rfl) hp
    | cons c p =>
      rw [TftpHpa.xformOut, if_neg (show ¬ (c = 0 ∨ c = 92) from hp)]
      split
      · next h' => exact absurd (h.symm.trans h') nofun
      · next h' =>
        obtain ⟨rfl, rfl, rfl⟩ := Option.some.inj (h.symm.trans h')
        exact ih _

namespace XformState

/-- The same state with some text before what has been written. -/
def prepend (head : Bytes) (xs : XformState l) : XformState l := { xs with out := head ++ xs.out }

theorem memcpy_start (head : Bytes) : memcpy ({} : XformState l) head = prepend head {} := by
  simp only [memcpy, prepend, List.nil_append, List.append_nil]

theorem put_prepend (head : Bytes) (xs : XformState l) (wc : l.Wc) :
    (xs.prepend head).put wc = (xs.put wc).prepend head := by
  simp only [put, prepend, List.append_assoc]

theorem puts_prepend (head : Bytes) (xs : XformState l) (wcs : List l.Wc) :
    (xs.prepend head).puts wcs = (xs.puts wcs).prepend head := by
  induction wcs generalizing xs with
  | nil => rfl
  | cons wc wcs ih =>
    change ((xs.prepend head).put wc).puts wcs = ((xs.put wc).puts wcs).prepend head
    rw [put_prepend, ih]

theorem puts_err (xs : XformState l) (wcs : List l.Wc) : (xs.puts wcs).err = xs.err := by
  induction wcs generalizing xs with
  | nil => rfl
  | cons wc wcs ih => exact ih (xs.put wc)

end XformState

theorem xformOut_err (xs : XformState l) (text : Bytes) :
    (xformOut xs l.initial text).1.err = true ↔ xs.err = true ∨ Rejects l text := by
  obtain ⟨wcs, rest, e, h⟩ := exists_conv l.initial text
  have hreject : e = true ↔ Rejects l text := by
    refine ⟨fun he => ⟨wcs, rest, he ▸ h⟩, fun ⟨wcs', rest', h'⟩ => ?_⟩
    have hsame := (h.xformOut {}).symm.trans (h'.xformOut {})
    have herr := congrArg (fun r => r.1.err) hsame
    simpa [XformState.puts_err] using herr
  rw [h.xformOut, ← hreject]
  simp [XformState.puts_err]

theorem xformOut_prepend (head : Bytes) (xs : XformState l) (ips : l.Mbs) (text : Bytes) :
    xformOut (xs.prepend head) ips text = ((xformOut xs ips text).1.prepend head, (xformOut xs ips text).2) := by
  obtain ⟨wcs, rest, e, h⟩ := exists_conv ips text
  rw [h.xformOut, h.xformOut, XformState.puts_prepend]
  rfl

theorem xformOut_snd (xs : XformState l) (ips : l.Mbs) (text : Bytes) :
    (xformOut xs ips text).2 = (xformOut ({} : XformState l) ips text).2 := by
  obtain ⟨wcs, rest, e, h⟩ := exists_conv ips text
  rw [h.xformOut, h.xformOut]

theorem Conv.length_le {ips : l.Mbs} {p rest : Bytes} {wcs : List l.Wc} {e : Bool} (h : Conv l ips p wcs rest e) :
    rest.length ≤ p.length := by
  induction h with
  | stop | reject => exact le_rfl
  | next hp h hrest ih =>
    rw [List.length_drop] at ih
    omega

end Conv

/-! ### The pattern -/

namespace Expander

variable {l : Locale} {x : Expander l}

/-- The text that a round converts. -/
def converts (x : Expander l) : Bytes → Option Bytes
  | [] => none
  | c :: p =>
    if c = 92 then
      match p with
      | [] => none
      | m :: _ =>
        if 48 ≤ m ∧ m ≤ 57 then x.group (m.toNat - 48)
        else if m ∈ [76, 85, 69, 0, 92] then none
        else x.macrosub m
    else some (c :: p)

/-- The pattern after a round. -/
def after (x : Expander l) (p : Bytes) : Bytes := (x.round {} p).2

/-- Text of the pattern that cannot be converted. -/
structure Stuck (l : Locale) (p : Bytes) : Prop where
  more : p.headD 0 ≠ 0
  text : p.headD 0 ≠ 92
  rejects : l.mbrtowc p l.initial = none

/-- A change to the state that converts nothing. -/
structure Quiet (f : XformState l → XformState l) : Prop where
  err : ∀ xs, (f xs).err = xs.err
  prepend : ∀ head xs, f (xs.prepend head) = (f xs).prepend head

/-- What a round does to the state, given the text it converts. -/
inductive Effect (l : Locale) : Option Bytes → (XformState l → XformState l) → Prop where
  | quiet {f : XformState l → XformState l} (h : Quiet f) : Effect l none f
  | text (t : Bytes) : Effect l (some t) fun xs => (xformOut xs l.initial t).1

theorem quiet_id : Quiet (id : XformState l → XformState l) := ⟨fun _ => rfl, fun _ _ => rfl⟩

theorem quiet_xform (y : Xform) : Quiet fun xs : XformState l => { xs with xform := y } :=
  ⟨fun _ => rfl, fun _ _ => rfl⟩

theorem quiet_memcpy (bytes : Bytes) : Quiet fun xs : XformState l => xs.memcpy bytes :=
  ⟨fun _ => rfl, fun _ _ => by simp only [XformState.memcpy, XformState.prepend, List.append_assoc]⟩

/-- An escape sequence is read in one round, of whatever kind it is. -/
theorem exists_escape (x : Expander l) (p : Bytes) :
    ∃ f rest, (∀ xs, x.round xs (92 :: p) = (f xs, rest)) ∧ Effect l (x.converts (92 :: p)) f ∧
      rest.length ≤ p.length := by
  cases p with
  | nil => exact ⟨_, _, fun _ => rfl, .quiet (quiet_memcpy [92]), le_rfl⟩
  | cons m p =>
    have hle : p.length ≤ (m :: p).length := Nat.le_succ _
    simp only [round, converts, if_true]
    by_cases hdigit : 48 ≤ m ∧ m ≤ 57
    · simp only [if_pos hdigit]
      cases x.group (m.toNat - 48) with
      | none => exact ⟨_, _, fun _ => rfl, .quiet quiet_id, hle⟩
      | some t => exact ⟨_, _, fun _ => rfl, .text t, hle⟩
    · simp only [if_neg hdigit]
      by_cases hspecial : m ∈ ([76, 85, 69, 0, 92] : Bytes)
      · simp only [List.mem_cons, List.not_mem_nil, or_false] at hspecial
        rcases hspecial with rfl | rfl | rfl | rfl | rfl
        · exact ⟨_, _, fun _ => rfl, .quiet (quiet_xform .tolower), hle⟩
        · exact ⟨_, _, fun _ => rfl, .quiet (quiet_xform .toupper), hle⟩
        · exact ⟨_, _, fun _ => rfl, .quiet (quiet_xform .null), hle⟩
        · exact ⟨_, _, fun _ => rfl, .quiet (quiet_memcpy [92]), le_rfl⟩
        · exact ⟨_, _, fun _ => rfl, .quiet (quiet_memcpy [92]), hle⟩
      · simp only [if_neg hspecial]
        simp only [List.mem_cons, List.not_mem_nil, or_false, not_or] at hspecial
        obtain ⟨hL, hU, hE, h0, hbs⟩ := hspecial
        simp only [if_neg hL, if_neg hU, if_neg hE, if_neg h0, if_neg hbs]
        cases x.macrosub m with
        | none => exact ⟨_, _, fun _ => rfl, .quiet quiet_id, le_rfl⟩
        | some t => exact ⟨_, _, fun _ => rfl, .text t, hle⟩

theorem round_text {c : UInt8} (hc : c ≠ 92) (xs : XformState l) (p : Bytes) :
    x.round xs (c :: p) = xformOut xs l.initial (c :: p) := by
  simp only [round, if_neg hc]

theorem converts_text {c : UInt8} (hc : c ≠ 92) (p : Bytes) : x.converts (c :: p) = some (c :: p) := by
  simp only [converts, if_neg hc]

/-- A round leaves the same pattern whatever the state, and does the same to every state. -/
theorem exists_effect (x : Expander l) (p : Bytes) :
    ∃ f, (∀ xs, x.round xs p = (f xs, x.after p)) ∧ Effect l (x.converts p) f := by
  cases p with
  | nil => exact ⟨_, fun _ => rfl, .quiet quiet_id⟩
  | cons c p =>
    by_cases hc : c = 92
    · subst hc
      obtain ⟨f, rest, hround, heffect, -⟩ := exists_escape x p
      have hafter : x.after (92 :: p) = rest := congrArg Prod.snd (hround {})
      exact ⟨f, fun xs => (hround xs).trans (by rw [hafter]), heffect⟩
    · refine ⟨fun xs => (xformOut xs l.initial (c :: p)).1, fun xs => ?_, ?_⟩
      · rw [round_text hc, after, round_text hc, ← xformOut_snd xs]
      · rw [converts_text hc]
        exact .text (c :: p)

/-- A round comes to an error when the text it converts has one. -/
theorem round_err {xs : XformState l} {p : Bytes} :
    (x.round xs p).1.err = true ↔ xs.err = true ∨ ∃ t, x.converts p = some t ∧ Rejects l t := by
  obtain ⟨f, hround, heffect⟩ := exists_effect x p
  rw [hround]
  generalize x.converts p = o at heffect
  cases heffect with
  | quiet h => simp [h.err]
  | text t => simp [xformOut_err]

theorem round_prepend (head : Bytes) (xs : XformState l) (p : Bytes) :
    x.round (xs.prepend head) p = ((x.round xs p).1.prepend head, x.after p) := by
  obtain ⟨f, hround, heffect⟩ := exists_effect x p
  rw [hround, hround]
  generalize x.converts p = o at heffect
  cases heffect with
  | quiet h => rw [h.prepend]
  | text t => simp only [xformOut_prepend]

theorem round_snd (xs : XformState l) (p : Bytes) : (x.round xs p).2 = x.after p := by
  obtain ⟨f, hround, -⟩ := exists_effect x p
  rw [hround]

theorem after_of_text {p : Bytes} (hp : p.headD 0 ≠ 92) : x.after p = (xformOut ({} : XformState l) l.initial p).2 := by
  cases p with
  | nil => rw [xformOut]; rfl
  | cons c p => rw [after, round_text (show c ≠ 92 from hp)]

theorem after_of_end {p : Bytes} (hp : p.headD 0 = 0) : x.after p = p := by
  rw [after_of_text (by rw [hp]; decide), (Conv.stop (.inl hp)).xformOut]

theorem after_of_stuck {p : Bytes} (h : Stuck l p) : x.after p = p := by
  rw [after_of_text h.text, (Conv.reject (not_or.mpr ⟨h.more, h.text⟩) h.rejects).xformOut]

/-- Otherwise the pattern gets shorter. -/
theorem after_length_lt {p : Bytes} (hp : p.headD 0 ≠ 0) (h : ¬ Stuck l p) : (x.after p).length < p.length := by
  by_cases hbs : p.headD 0 = 92
  · cases p with
    | nil => exact absurd rfl hp
    | cons c p =>
      obtain rfl : c = 92 := hbs
      obtain ⟨f, rest, hround, -, hle⟩ := exists_escape x p
      have hafter : x.after (92 :: p) = rest := congrArg Prod.snd (hround {})
      rw [hafter]
      exact Nat.lt_succ_of_le hle
  · have hstop := not_or.mpr ⟨hp, hbs⟩
    cases hread : l.mbrtowc p l.initial with
    | none => exact absurd ⟨hp, hbs, hread⟩ h
    | some r =>
      obtain ⟨wc, nb, ips⟩ := r
      obtain ⟨wcs, rest, e, hrest⟩ := exists_conv ips (p.drop nb)
      have hreads := l.reads hread
      have hle := hrest.length_le
      rw [List.length_drop] at hle
      rw [after_of_text hbs, (Conv.next hstop hread hrest).xformOut]
      dsimp only
      omega

/-! ### The loop -/

theorem loop_succ {fuel : ℕ} {xs : XformState l} {p : Bytes} (hp : p.headD 0 ≠ 0) :
    x.loop (fuel + 1) xs p = x.loop fuel (x.round xs p).1 (x.after p) := by
  rw [loop, if_neg hp, round_snd]

theorem loop_of_end {xs : XformState l} {p : Bytes} (hp : p.headD 0 = 0) (fuel : ℕ) : x.loop fuel xs p = some xs := by
  cases fuel <;> rw [loop, if_pos hp]

/-- The loop ends when it has come to the end of the pattern. -/
theorem loop_isSome_iff {fuel : ℕ} {xs : XformState l} {p : Bytes} :
    (x.loop fuel xs p).isSome ↔ ∃ n ≤ fuel, (x.after^[n] p).headD 0 = 0 := by
  induction fuel generalizing xs p with
  | zero =>
    by_cases hp : p.headD 0 = 0
    · rw [loop_of_end hp]
      exact ⟨fun _ => ⟨0, le_rfl, hp⟩, fun _ => rfl⟩
    · rw [loop, if_neg hp]
      refine ⟨nofun, fun ⟨n, hn, hend⟩ => ?_⟩
      obtain rfl := Nat.le_zero.mp hn
      exact absurd hend hp
  | succ fuel ih =>
    by_cases hp : p.headD 0 = 0
    · rw [loop_of_end hp]
      exact ⟨fun _ => ⟨0, Nat.zero_le _, hp⟩, fun _ => rfl⟩
    · rw [loop_succ hp, ih]
      constructor
      · rintro ⟨n, hn, hend⟩
        exact ⟨n + 1, Nat.succ_le_succ hn, hend⟩
      · rintro ⟨n, hn, hend⟩
        cases n with
        | zero => exact absurd hend hp
        | succ n => exact ⟨n, Nat.le_of_succ_le_succ hn, hend⟩

/-- Where it does not get stuck, it ends in as many rounds as the pattern has bytes. -/
theorem loop_length {p : Bytes} (hfree : ∀ n, ¬ Stuck l (x.after^[n] p)) (xs : XformState l) :
    (x.loop p.length xs p).isSome := by
  rw [loop_isSome_iff]
  refine Transition.iterate_progress (I := fun q => ∀ n, ¬ Stuck l (x.after^[n] q)) List.length
    (fun q => q.headD 0 = 0) (fun q hq hp => ⟨?_, ?_⟩) hfree
  · exact fun n => hq (n + 1)
  · exact after_length_lt hp (hq 0)

theorem loop_ends_iff {xs : XformState l} {p : Bytes} :
    (∃ fuel, (x.loop fuel xs p).isSome) ↔ ∀ n, ¬ Stuck l (x.after^[n] p) := by
  constructor
  · rintro ⟨fuel, hsome⟩ n hstuck
    obtain ⟨k, -, hend⟩ := loop_isSome_iff.mp hsome
    rcases le_total n k with hle | hle
    · obtain ⟨d, rfl⟩ := Nat.exists_eq_add_of_le' hle
      rw [Function.iterate_add_apply, Function.iterate_fixed (after_of_stuck hstuck)] at hend
      exact hstuck.more hend
    · obtain ⟨d, rfl⟩ := Nat.exists_eq_add_of_le' hle
      rw [Function.iterate_add_apply, Function.iterate_fixed (after_of_end hend)] at hstuck
      exact hstuck.more hend
  · exact fun hfree => ⟨p.length, loop_length hfree xs⟩

theorem loop_mono {fuel fuel' : ℕ} {xs xs' : XformState l} {p : Bytes} (h : x.loop fuel xs p = some xs')
    (hle : fuel ≤ fuel') : x.loop fuel' xs p = some xs' := by
  induction fuel generalizing fuel' xs p with
  | zero =>
    by_cases hp : p.headD 0 = 0
    · rw [loop_of_end hp] at h ⊢
      exact h
    · rw [loop, if_neg hp] at h
      cases h
  | succ fuel ih =>
    obtain ⟨k, rfl⟩ := Nat.exists_eq_add_of_le' hle
    by_cases hp : p.headD 0 = 0
    · rw [loop_of_end hp] at h ⊢
      exact h
    · rw [← Nat.add_assoc, loop_succ hp]
      rw [loop_succ hp] at h
      exact ih h (Nat.le_add_left _ _)

/-- At the end of the pattern nothing is converted. -/
theorem not_rejects_of_end {p : Bytes} (hp : p.headD 0 = 0) : ¬ ∃ t, x.converts p = some t ∧ Rejects l t := by
  intro h
  cases p with
  | nil =>
    obtain ⟨t, ht, -⟩ := h
    cases ht
  | cons c p =>
    obtain rfl : c = 0 := hp
    have herr := round_err.mpr (.inr h : ({} : XformState l).err = true ∨ _)
    rw [round_text (by decide), (Conv.stop (.inl rfl)).xformOut] at herr
    cases herr

/-- The error flag tells whether a text has been converted that cannot be. -/
theorem loop_err {fuel : ℕ} {xs xs' : XformState l} {p : Bytes} (h : x.loop fuel xs p = some xs') :
    xs'.err = true ↔ xs.err = true ∨ ∃ n t, x.converts (x.after^[n] p) = some t ∧ Rejects l t := by
  by_cases hp : p.headD 0 = 0
  · rw [loop_of_end hp, Option.some.injEq] at h
    subst h
    refine ⟨.inl, fun hor => hor.elim id fun ⟨n, hn⟩ => ?_⟩
    rw [Function.iterate_fixed (after_of_end hp)] at hn
    exact absurd hn (not_rejects_of_end hp)
  · cases fuel with
    | zero =>
      rw [loop, if_neg hp] at h
      cases h
    | succ fuel =>
      rw [loop_succ hp] at h
      rw [loop_err h, round_err, or_assoc]
      refine or_congr_right ⟨?_, ?_⟩
      · rintro (h0 | ⟨n, hn⟩)
        · exact ⟨0, h0⟩
        · exact ⟨n + 1, hn⟩
      · rintro ⟨n, hn⟩
        cases n with
        | zero => exact .inl hn
        | succ n => exact .inr ⟨n, hn⟩

theorem loop_prepend (head : Bytes) (fuel : ℕ) (xs : XformState l) (p : Bytes) :
    x.loop fuel (xs.prepend head) p = (x.loop fuel xs p).map (XformState.prepend head) := by
  induction fuel generalizing xs p with
  | zero =>
    rw [loop, loop]
    split <;> rfl
  | succ fuel ih =>
    by_cases hp : p.headD 0 = 0
    · rw [loop_of_end hp, loop_of_end hp]
      rfl
    · rw [loop_succ hp, loop_succ hp, round_prepend, ih]

/-- The number of rounds makes no difference to what comes out. -/
theorem loop_length_eq {fuel : ℕ} {xs xs' : XformState l} {p : Bytes} (h : x.loop fuel xs p = some xs') :
    x.loop p.length xs p = some xs' := by
  have hfree := loop_ends_iff.mp ⟨fuel, Option.isSome_of_eq_some h⟩
  obtain ⟨xs'', h''⟩ := Option.isSome_iff_exists.mp (loop_length hfree xs)
  have hmax := loop_mono h (le_max_left fuel p.length)
  have hmax' := loop_mono h'' (le_max_right fuel p.length)
  rw [h'', Option.some.inj (hmax'.symm.trans hmax)]

end Expander

/-! ### As the interpreter sees it -/

/-- The expansion of a pattern on its own. -/
def expandPattern (l : Locale) (macrosub : UInt8 → Option Bytes) (pattern input : Bytes) (pmatch : Option RegMatch) :
    Option Bytes :=
  (Expander.loop { input, pmatch, macrosub } pattern.length ({} : XformState l) pattern).bind fun xs =>
    if xs.err then none else some xs.out

/-- What the expansion refers to in a call. -/
def expander (l : Locale) (macrosub : UInt8 → Option Bytes) (ibuf : Bytes) (pmatch : Option RegMatch)
    (start : Option ℕ) : Expander l :=
  { input := ibuf.drop (start.getD 0), pmatch, macrosub }

/-- What a rule does that cannot expand its pattern, at an offset or on its own: it refuses the
request. Only a rule that has a label and restarts does so all the same. -/
def RemapEnv.Settles {ρ : Type*} (env : RemapEnv ρ) (rules : List (Rule ρ)) (r : Rule ρ) (next : List (Rule ρ))
    (current newstr : Bytes) (pmatch : Option RegMatch) : Option ℕ → Prop
  | some ggoffset => env.replaceStep rules r next current newstr pmatch ggoffset = .done remapFailure
  | none => (r.flags .abort = true ∨ r.flags .jump = true ∧ r.flags .restart = false →
      ∃ msg, env.finish rules r next current newstr pmatch = .done (.error msg)) ∧
    (r.flags .jump = true ∧ r.flags .restart = true →
      env.finish rules r next current newstr pmatch = env.nextrule rules newstr)

section Interpreter

variable {l : Locale} {macrosub : UInt8 → Option Bytes} {pattern ibuf : Bytes} {pmatch : Option RegMatch}
  {start : Option ℕ}

variable (l macrosub pattern ibuf) in
/-- A call that has a pattern to expand returns when the loop ends, with `-1` for the error
flag. -/
theorem doGenmatchstring_loop (hexp : pmatch ≠ none ∨ start = none) (fuel : ℕ) :
    ∃ f : XformState l → Genmatch, doGenmatchstring l macrosub fuel pattern ibuf pmatch start =
      ((expander l macrosub ibuf pmatch start).loop fuel {} pattern).map fun xs =>
        if xs.err then none else some (f xs) := by
  cases start with
  | none => exact ⟨_, rfl⟩
  | some start =>
    cases pmatch with
    | none => exact absurd rfl (hexp.resolve_right nofun)
    | some m =>
      simp only [doGenmatchstring, XformState.memcpy_start, Expander.loop_prepend, Option.map_map]
      exact ⟨_, rfl⟩

/-- What a call that returns gives is what the interpreter works with. -/
theorem genmatchstring_eq {ρ : Type*} {env : RemapEnv ρ} (henv : env.expand = expandPattern l macrosub) {fuel : ℕ}
    {g : Option Genmatch} (h : doGenmatchstring l macrosub fuel pattern ibuf pmatch start = some g) :
    env.genmatchstring pattern ibuf pmatch start = g := by
  cases start with
  | none =>
    obtain ⟨xs, hxs, rfl⟩ := Option.map_eq_some_iff.mp h
    rw [RemapEnv.genmatchstring, henv, expandPattern, Expander.loop_length_eq hxs]
    cases herr : xs.err <;> simp [herr]
  | some start =>
    cases pmatch with
    | none => exact Option.some.inj h
    | some m =>
      simp only [doGenmatchstring, XformState.memcpy_start, Expander.loop_prepend, Option.map_map] at h
      obtain ⟨xs, hxs, rfl⟩ := Option.map_eq_some_iff.mp h
      simp only [RemapEnv.genmatchstring, henv, expandPattern, Expander.loop_length_eq hxs, Option.bind_some]
      cases herr : xs.err <;> simp [XformState.memcpy, XformState.prepend, herr, Nat.add_assoc]

/-- What becomes of a failed expansion. -/
theorem settles_of_failed {ρ : Type*} {env : RemapEnv ρ} {rules next : List (Rule ρ)} {r : Rule ρ} {current : Bytes}
    (hr : r.Accepted) (hpat : r.pattern = pattern) (h : env.genmatchstring pattern ibuf pmatch start = none) :
    env.Settles rules r next current ibuf pmatch start := by
  subst hpat
  cases start with
  | some ggoffset => simp only [RemapEnv.Settles, RemapEnv.replaceStep, h]
  | none =>
    have hexpand : env.expand r.pattern ibuf pmatch = none := by
      simpa [RemapEnv.genmatchstring] using h
    have hjump : r.flags .jump = true →
        r.flags .hasfile = false ∧ r.flags .abort = false ∧ r.flags .exit = false := fun hj =>
      ⟨hr.off hj (by decide), hr.off hj (by decide), hr.off hj (by decide)⟩
    rw [RemapEnv.Settles, RemapEnv.finish_eq, hexpand]
    refine ⟨?_, ?_⟩
    · rintro (ha | ⟨hj, hs⟩)
      · have hf : r.flags .hasfile = false := hr.off ha (by decide)
        exact ⟨none, by simp [ha, hf]⟩
      · obtain ⟨hf, ha, he⟩ := hjump hj
        exact ⟨_, by simp [hf, ha, he, hj, hs]; rfl⟩
    · rintro ⟨hj, hs⟩
      obtain ⟨hf, ha, he⟩ := hjump hj
      simp [hf, ha, he, hs]

/-- The expansion of a pattern ends unless it comes to text of the pattern that `mbrtowc` does
not accept. When it ends, it returns `-1` exactly when it has come to text, of the pattern,
of a group or of a macro, that cannot be converted, and then the request is refused, but not by a
rule that restarts where it has no label to go to. -/
theorem expansion_ends (l : Locale) (macrosub : UInt8 → Option Bytes) (pattern ibuf : Bytes)
    (pmatch : Option RegMatch) (start : Option ℕ) (hexp : pmatch ≠ none ∨ start = none) {ρ : Type*} (env : RemapEnv ρ)
    (henv : env.expand = expandPattern l macrosub) :
    ((∃ fuel, doGenmatchstring l macrosub fuel pattern ibuf pmatch start ≠ none) ↔
      ∀ n, ¬ Expander.Stuck l ((expander l macrosub ibuf pmatch start).after^[n] pattern)) ∧
    ∀ fuel g, doGenmatchstring l macrosub fuel pattern ibuf pmatch start = some g →
      (g = none ↔ ∃ n t, (expander l macrosub ibuf pmatch start).converts
        ((expander l macrosub ibuf pmatch start).after^[n] pattern) = some t ∧ Rejects l t) ∧
      (g = none → ∀ rules r next current, r.Accepted → r.pattern = pattern →
        env.Settles rules r next current ibuf pmatch start) := by
  have hends : (∃ fuel, ((expander l macrosub ibuf pmatch start).loop fuel {} pattern).isSome) ↔ _ :=
    Expander.loop_ends_iff
  refine ⟨?_, fun fuel g hg => ⟨?_, ?_⟩⟩
  · rw [← hends]
    refine exists_congr fun fuel => ?_
    obtain ⟨f, hf⟩ := doGenmatchstring_loop l macrosub pattern ibuf hexp fuel
    rw [hf, Option.ne_none_iff_isSome, Option.isSome_map]
  · obtain ⟨f, hf⟩ := doGenmatchstring_loop l macrosub pattern ibuf hexp fuel
    rw [hf] at hg
    obtain ⟨xs, hxs, rfl⟩ := Option.map_eq_some_iff.mp hg
    have herr := Expander.loop_err hxs
    simp only [Bool.false_eq_true, false_or] at herr
    rw [← herr]
    simp
  · rintro rfl rules r next current hr hpat
    exact settles_of_failed hr hpat (genmatchstring_eq henv hg)

end Interpreter

/-! ### Text that cannot be converted -/

/-- A locale whose characters are the ASCII characters. -/
def asciiLocale : Locale where
  Wc := UInt8
  Mbs := Unit
  initial := ()
  mbrtowc p _ := (p.head?.filter (· < 128)).map fun c => (c, 1, ())
  reads {p _ _ _ _} h := by
    cases p with
    | nil => cases h
    | cons c p =>
      obtain ⟨_, _, heq⟩ := Option.map_eq_some_iff.mp h
      cases heq
      exact ⟨Nat.one_pos, Nat.succ_le_succ (Nat.zero_le _)⟩
  wcrtomb c _ := (some [c], ())
  towlower c := c
  towupper c := c

def asciiEnv : RemapEnv Bytes := { literalEnv with expand := expandPattern asciiLocale fun _ => none }

/-- The pattern `\0` for a match that is no character: the expansion fails, and so does the request
where the string is rewritten. As a label it does not keep a rule from restarting. -/
theorem expansion_ends_group :
    (∃ fuel, doGenmatchstring asciiLocale (fun _ => none) fuel (cstr "\\0") [233] (some ⟨0, 1, []⟩) (some 0) =
      some none) ∧
    (∀ rules r next current, r.Accepted → r.pattern = cstr "\\0" →
      asciiEnv.replaceStep rules r next current [233] (some ⟨0, 1, []⟩) 0 = .done remapFailure) ∧
    ∀ rules r next current, r.Accepted → r.pattern = cstr "\\0" → r.flags .jump = true → r.flags .restart = true →
      asciiEnv.finish rules r next current [233] (some ⟨0, 1, []⟩) = asciiEnv.nextrule rules [233] := by
  have hfails : ∀ start : Option ℕ, start.getD 0 = 0 →
      (∃ fuel, doGenmatchstring asciiLocale (fun _ => none) fuel (cstr "\\0") [233] (some ⟨0, 1, []⟩) start =
        some none) ∧
      ∀ rules r next current, r.Accepted → r.pattern = cstr "\\0" →
        asciiEnv.Settles rules r next current [233] (some ⟨0, 1, []⟩) start := by
    intro start hstart
    obtain ⟨hends, hvalue⟩ := expansion_ends asciiLocale (fun _ => none) (cstr "\\0") [233] (some ⟨0, 1, []⟩) start
      (.inl (Option.some_ne_none _)) asciiEnv rfl
    have hinput : expander asciiLocale (fun _ => none) [233] (some ⟨0, 1, []⟩) start =
        expander asciiLocale (fun _ => none) [233] (some ⟨0, 1, []⟩) none := by
      rw [expander, hstart]
      rfl
    rw [hinput] at hends hvalue
    have hfree : ∀ n, ¬ Expander.Stuck asciiLocale
        ((expander asciiLocale (fun _ => none) [233] (some ⟨0, 1, []⟩) none).after^[n] (cstr "\\0")) := by
      intro n hstuck
      cases n with
      | zero => exact hstuck.text rfl
      | succ n =>
        have hnil : (expander asciiLocale (fun _ => none) [233] (some ⟨0, 1, []⟩) none).after (cstr "\\0") = [] := rfl
        rw [Function.iterate_succ_apply, hnil, Function.iterate_fixed rfl] at hstuck
        exact hstuck.more rfl
    obtain ⟨fuel, hfuel⟩ := hends.mpr hfree
    obtain ⟨g, hg⟩ := Option.ne_none_iff_exists'.mp hfuel
    have hrejects : Rejects asciiLocale [233] := ⟨[], [233], .reject (by decide) rfl⟩
    obtain rfl := (hvalue fuel g hg).1.mpr ⟨0, [233], rfl, hrejects⟩
    exact ⟨⟨fuel, hg⟩, (hvalue fuel none hg).2 rfl⟩
  obtain ⟨hfuel, hrewrite⟩ := hfails (some 0) rfl
  refine ⟨hfuel, hrewrite, fun rules r next current hr hpat hj hs => ?_⟩
  exact ((hfails none rfl).2 rules r next current hr hpat).2 ⟨hj, hs⟩

/-- A pattern with a byte that is no character is expanded forever. -/
theorem expansion_hangs : ¬ ∃ fuel,
    doGenmatchstring asciiLocale (fun _ => none) fuel [233] (cstr "foo") (some ⟨0, 3, []⟩) (some 0) ≠ none := by
  rintro ⟨fuel, h⟩
  have hexp : (some ⟨0, 3, []⟩ : Option RegMatch) ≠ none ∨ some 0 = none := .inl (Option.some_ne_none _)
  obtain ⟨f, hf⟩ := doGenmatchstring_loop asciiLocale (fun _ => none) [233] (cstr "foo") hexp fuel
  rw [hf, Option.ne_none_iff_isSome, Option.isSome_map] at h
  exact Expander.loop_ends_iff.mp ⟨fuel, h⟩ 0 ⟨by decide, by decide, rfl⟩

end TftpHpa
