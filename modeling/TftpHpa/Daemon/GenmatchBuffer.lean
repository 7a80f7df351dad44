import TftpHpa.Daemon.GenmatchText
import TftpHpa.Lib.Buffer

/-! The two passes of `genmatchstring`. The first call of `do_genmatchstring` has no buffer and
only counts; the second one writes into a buffer of the size that the first has returned. Both go
through the same code, which tests the output pointer wherever it writes. Nothing stands for an
access outside the buffer, or for a loop that has not ended. -/

namespace TftpHpa

open Buffer

/-- `struct xform_state` with the buffer that `out` points into; without a buffer the pointer is
`NULL`. -/
structure XformBuffer (l : Locale) where
  xform : Xform := .null
  out : Option ℕ
  string : Bytes
  len : ℕ := 0
  err : Bool := false
  ps : l.Mbs := l.initial

namespace XformBuffer

variable {l : Locale}

/-- Bytes are counted, and stored if there is a buffer. -/
def write (xs : XformBuffer l) (bytes : Bytes) : Option (XformBuffer l) :=
  match xs.out with
  | none => some { xs with len := xs.len + bytes.length }
  | some out => (copy xs.string out bytes).map fun string =>
      { xs with out := some (out + bytes.length), string := string, len := xs.len + bytes.length }

/-- A NUL goes behind them, which is not counted. -/
def terminate (xs : XformBuffer l) : Option (XformBuffer l) :=
  match xs.out with
  | none => some xs
  | some out => (store xs.string out 0).map fun string => { xs with string := string }

/-- `xsmemcpy`. -/
def memcpy (xs : XformBuffer l) (source : Bytes) (bytes : ℕ) : Option (XformBuffer l) :=
  match xs.out with
  | none => some { xs with len := xs.len + bytes }
  | some _ => if bytes ≤ source.length then (xs.write (source.take bytes)).bind terminate else none

/-- A wide character in `xform_out`: `wcrtomb` writes to the buffer or to a dummy. -/
def put (xs : XformBuffer l) (wc : l.Wc) : Option (XformBuffer l) :=
  let r := l.wcrtomb (l.xform xs.xform wc) xs.ps
  (xs.write (r.1.getD [])).map fun xs => { xs with ps := r.2 }

/-- The loop of `xform_out`. Its copy `q` of the output pointer is the pointer itself here. -/
def xformLoop (xs : XformBuffer l) (ips : l.Mbs) : Bytes → Option (XformBuffer l × Bytes)
  | [] => some (xs, [])
  | c :: p =>
    if c = 0 ∨ c = 92 then some (xs, c :: p)
    else
      match h : l.mbrtowc (c :: p) ips with
      | none => some ({ xs with err := true }, c :: p)
      | some (wc, nb, ips) =>
        have := l.reads h
        (xs.put wc).bind fun xs => xformLoop xs ips ((c :: p).drop nb)
termination_by p => p.length
decreasing_by
  rw [List.length_drop]
  omega

/-- `xform_out`. -/
def xformOut (xs : XformBuffer l) (p : Bytes) : Option (XformBuffer l × Bytes) :=
  (xs.xformLoop l.initial p).bind fun r => r.1.terminate.map fun xs => (xs, r.2)

end XformBuffer

namespace Expander

variable {l : Locale} (x : Expander l)

/-- One round of the loop over the pattern. -/
def roundAt (xs : XformBuffer l) : Bytes → Option (XformBuffer l × Bytes)
  | [] => some (xs, [])
  | c :: p =>
    if c = 92 then
      match p with
      | [] => (xs.write [92]).map fun xs => (xs, [])
      | m :: p =>
        if 48 ≤ m ∧ m ≤ 57 then
          match x.group (m.toNat - 48) with
          | some text => (xs.xformOut text).map fun r => (r.1, p)
          | none => some (xs, p)
        else if m = 76 then some ({ xs with xform := .tolower }, p)
        else if m = 85 then some ({ xs with xform := .toupper }, p)
        else if m = 69 then some ({ xs with xform := .null }, p)
        else if m = 0 then (xs.write [92]).map fun xs => (xs, m :: p)
        else if m = 92 then (xs.write [92]).map fun xs => (xs, p)
        else
          match x.macrosub m with
          | some text => (xs.xformOut text).map fun r => (r.1, p)
          | none => some (xs, m :: p)
    else xs.xformOut (c :: p)

/-- The loop, for a number of rounds. -/
def loopAt : ℕ → XformBuffer l → Bytes → Option (XformBuffer l)
  | 0, xs, pattern => if pattern.headD 0 = 0 then some xs else none
  | fuel + 1, xs, pattern =>
    if pattern.headD 0 = 0 then some xs
    else (x.roundAt xs pattern).bind fun r => loopAt fuel r.1 r.2

end Expander

/-- What a call leaves: its result, with `none` for `-1`, the buffer, and what it stores in
`*nextp`, if it does. -/
structure GenmatchCall where
  ret : Option ℕ
  string : Bytes
  next : Option ℕ

/-- The end of a call: the offset after the expansion and the rest of the input. -/
def finishGenmatch {l : Locale} (xs : XformBuffer l) (rest : Bytes) : Option GenmatchCall :=
  (xs.memcpy rest rest.length).map fun tail =>
    { ret := if tail.err then none else some tail.len, string := tail.string, next := some xs.len }

/-- `do_genmatchstring`, with `none` for `NULL` and for `MATCHONLY`. -/
def doGenmatchstringAt (l : Locale) (macrosub : UInt8 → Option Bytes) (fuel : ℕ) (string : Option Bytes)
    (pattern ibuf : Bytes) (pmatch : Option RegMatch) (start : Option ℕ) : Option GenmatchCall :=
  let xs : XformBuffer l := { out := string.map fun _ => 0, string := string.getD [] }
  match start with
  | none =>
    let x : Expander l := { input := ibuf, pmatch, macrosub }
    (x.loopAt fuel xs pattern).bind fun xs => finishGenmatch xs []
  | some start =>
    match pmatch with
    | none =>
      -- The early return leaves `*nextp` alone.
      (xs.memcpy (ibuf ++ [0]) (ibuf.length + 1)).map fun xs =>
        { ret := some xs.len, string := xs.string, next := none }
    | some m =>
      let input := ibuf.drop start
      let x : Expander l := { input, pmatch, macrosub }
      (xs.memcpy (ibuf ++ [0]) (start + m.so)).bind fun xs =>
        (x.loopAt fuel xs pattern).bind fun xs => finishGenmatch xs (input.drop m.eo)

/-- `genmatchstring`: the buffer is as large as the first call asks for. -/
def genmatchstringAt (l : Locale) (macrosub : UInt8 → Option Bytes) (fuel : ℕ) (fresh : ℕ → UInt8)
    (pattern ibuf : Bytes) (pmatch : Option RegMatch) (start : Option ℕ) : Option GenmatchCall :=
  (doGenmatchstringAt l macrosub fuel none pattern ibuf pmatch start).bind fun sized =>
    match sized.ret with
    | none => some { ret := none, string := [], next := none }
    | some len =>
      doGenmatchstringAt l macrosub fuel (some (grow fresh [] (len + 1))) pattern ibuf pmatch start

/-! ### What the buffer shows -/

namespace XformState

variable {l : Locale}

/-- The state before anything has been written, behind the text. -/
theorem prepend_out (s : XformState l) : XformState.prepend s.out { s with out := [] } = s := by
  simp only [prepend, List.append_nil]

theorem length_le_puts (s : XformState l) (wcs : List l.Wc) : s.out.length ≤ (s.puts wcs).out.length := by
  rw [← s.prepend_out, puts_prepend]
  simp [prepend]

end XformState

theorem Expander.length_le_loop {l : Locale} {x : Expander l} {fuel : ℕ} {s s' : XformState l} {p : Bytes}
    (h : x.loop fuel s p = some s') : s.out.length ≤ s'.out.length := by
  rw [← s.prepend_out, loop_prepend] at h
  obtain ⟨t, -, rfl⟩ := Option.map_eq_some_iff.mp h
  simp [XformState.prepend]

/-- There is room for `n` bytes and a NUL, if there is a buffer. -/
def Room (size : Option ℕ) (n : ℕ) : Prop := ∀ m, size = some m → n < m

theorem Room.of_none (n : ℕ) : Room none n := nofun

theorem Room.mono {size : Option ℕ} {n n' : ℕ} (h : Room size n) (hle : n' ≤ n) : Room size n' :=
  fun m hm => hle.trans_lt (h m hm)

/-- A buffer of a size shows what has been written so far. -/
structure Shows {l : Locale} (size : Option ℕ) (xs : XformBuffer l) (s : XformState l) : Prop where
  xform : xs.xform = s.xform
  len : xs.len = s.out.length
  err : xs.err = s.err
  ps : xs.ps = s.ps
  out : xs.out = size.map fun _ => s.out.length
  string : ∀ n, size = some n → ∃ rest, xs.string = s.out ++ rest ∧ xs.string.length = n

namespace Shows

variable {l : Locale} {size : Option ℕ} {xs : XformBuffer l} {s : XformState l}

theorem write (h : Shows size xs s) (bytes : Bytes) (hroom : Room size (s.memcpy bytes).out.length) :
    ∃ xs', xs.write bytes = some xs' ∧ Shows size xs' (s.memcpy bytes) := by
  have hout : (s.memcpy bytes).out.length = s.out.length + bytes.length := List.length_append
  cases size with
  | none =>
    have hnull : xs.out = none := h.out
    rw [XformBuffer.write, hnull]
    exact ⟨_, rfl, h.xform, by rw [hout, h.len], h.err, h.ps, rfl, nofun⟩
  | some n =>
    have hptr : xs.out = some s.out.length := h.out
    obtain ⟨rest, hstring, hsize⟩ := h.string n rfl
    have hfits : (s.memcpy bytes).out.length < n := hroom n rfl
    have hlen : s.out.length + rest.length = n := by rw [← hsize, hstring, List.length_append]
    rw [XformBuffer.write, hptr]
    dsimp only
    rw [hstring, copy_append _ (by omega), Option.map_some]
    refine ⟨_, rfl, h.xform, by rw [hout, h.len], h.err, h.ps, by rw [hout]; rfl, ?_⟩
    rintro _ ⟨⟩
    refine ⟨rest.drop bytes.length, rfl, ?_⟩
    rw [List.length_append, List.length_append, List.length_drop]
    omega

/-- With the NUL the buffer holds a string. -/
theorem terminate (h : Shows size xs s) (hroom : Room size s.out.length) :
    ∃ xs', xs.terminate = some xs' ∧ Shows size xs' s ∧
      ∀ n, size = some n → ∃ rest, xs'.string = s.out ++ 0 :: rest := by
  cases size with
  | none =>
    have hnull : xs.out = none := h.out
    rw [XformBuffer.terminate, hnull]
    exact ⟨_, rfl, h, nofun⟩
  | some n =>
    have hptr : xs.out = some s.out.length := h.out
    obtain ⟨rest, hstring, hsize⟩ := h.string n rfl
    have hfits : s.out.length < n := hroom n rfl
    obtain ⟨r, rest, rfl⟩ : ∃ r rest', rest = r :: rest' := by
      apply List.exists_cons_of_length_pos
      rw [hstring, List.length_append] at hsize
      omega
    rw [XformBuffer.terminate, hptr]
    dsimp only
    rw [hstring, store_append, Option.map_some]
    refine ⟨_, rfl, ⟨h.xform, h.len, h.err, h.ps, rfl, ?_⟩, fun _ _ => ⟨rest, rfl⟩⟩
    rintro _ ⟨⟩
    refine ⟨0 :: rest, rfl, ?_⟩
    rw [← hsize, hstring, List.length_append, List.length_append]
    rfl

theorem memcpy (h : Shows size xs s) (source : Bytes) {bytes : ℕ} (hbytes : bytes ≤ source.length)
    (hroom : Room size (s.memcpy (source.take bytes)).out.length) :
    ∃ xs', xs.memcpy source bytes = some xs' ∧ Shows size xs' (s.memcpy (source.take bytes)) ∧
      ∀ n, size = some n → ∃ rest, xs'.string = (s.memcpy (source.take bytes)).out ++ 0 :: rest := by
  obtain ⟨xs', hwrite, hshows⟩ := h.write _ hroom
  obtain ⟨xs'', hterm, hshows', hstring⟩ := hshows.terminate hroom
  refine ⟨xs'', ?_, hshows', hstring⟩
  cases size with
  | none =>
    have hnull : xs.out = none := h.out
    have hnull' : xs'.out = none := hshows.out
    rw [XformBuffer.write, hnull, List.length_take_of_le hbytes] at hwrite
    rw [XformBuffer.terminate, hnull'] at hterm
    rw [XformBuffer.memcpy, hnull]
    exact hwrite.trans hterm
  | some n =>
    have hptr : xs.out = some s.out.length := h.out
    rw [XformBuffer.memcpy, hptr]
    dsimp only
    rw [if_pos hbytes, hwrite, Option.bind_some, hterm]

theorem put (h : Shows size xs s) (wc : l.Wc) (hroom : Room size (s.put wc).out.length) :
    ∃ xs', xs.put wc = some xs' ∧ Shows size xs' (s.put wc) := by
  obtain ⟨xs', hwrite, hshows⟩ := h.write ((l.wcrtomb (l.xform s.xform wc) s.ps).1.getD []) hroom
  rw [XformBuffer.put, h.xform, h.ps, hwrite, Option.map_some]
  exact ⟨_, rfl, hshows.xform, hshows.len, hshows.err, rfl, hshows.out, hshows.string⟩

theorem xformLoop {ips : l.Mbs} {p rest : Bytes} {wcs : List l.Wc} {e : Bool} (hconv : Conv l ips p wcs rest e)
    (h : Shows size xs s) (hroom : Room size (s.puts wcs).out.length) :
    ∃ xs', xs.xformLoop ips p = some (xs', rest) ∧
      Shows size xs' { s.puts wcs with err := (s.puts wcs).err || e } := by
  induction hconv generalizing xs s with
  | @stop ips p hp =>
    refine ⟨xs, ?_, by simpa [XformState.puts] using h⟩
    cases p with
    | nil => rw [XformBuffer.xformLoop]
    | cons c p => rw [XformBuffer.xformLoop, if_pos (show c = 0 ∨ c = 92 from hp)]
  | @reject ips p hp hreject =>
    cases p with
    | nil => exact absurd (.inl rfl) hp
    | cons c p =>
      rw [XformBuffer.xformLoop, if_neg (show ¬ (c = 0 ∨ c = 92) from hp)]
      split
      · refine ⟨_, rfl, h.xform, h.len, ?_, h.ps, h.out, h.string⟩
        simp
      · next h' => cases hreject.symm.trans h'
  | @next ips ips' p rest wc nb wcs e hp hread hrest ih =>
    cases p with
    | nil => exact absurd (.inl rfl) hp
    | cons c p =>
      have hput : Room size (s.put wc).out.length := hroom.mono (XformState.length_le_puts (s.put wc) wcs)
      obtain ⟨xs', hwrite, hshows⟩ := h.put wc hput
      rw [XformBuffer.xformLoop, if_neg (show ¬ (c = 0 ∨ c = 92) from hp)]
      split
      · next h' => cases hread.symm.trans h'
      · next h' =>
        obtain ⟨rfl, rfl, rfl⟩ := Option.some.inj (hread.symm.trans h')
        rw [hwrite, Option.bind_some]
        exact ih hshows hroom

theorem xformOut (h : Shows size xs s) (p : Bytes) (hroom : Room size (TftpHpa.xformOut s l.initial p).1.out.length) :
    ∃ xs', xs.xformOut p = some (xs', (TftpHpa.xformOut s l.initial p).2) ∧
      Shows size xs' (TftpHpa.xformOut s l.initial p).1 := by
  obtain ⟨wcs, rest, e, hconv⟩ := exists_conv l.initial p
  rw [hconv.xformOut] at hroom ⊢
  obtain ⟨xs', hloop, hshows⟩ := h.xformLoop hconv hroom
  obtain ⟨xs'', hterm, hshows', -⟩ := hshows.terminate hroom
  exact ⟨xs'', by rw [XformBuffer.xformOut, hloop, Option.bind_some, hterm, Option.map_some], hshows'⟩

/-- A backslash, and what is left of the pattern. -/
theorem backslash (h : Shows size xs s) (p : Bytes) (hroom : Room size (s.memcpy [92]).out.length) :
    ∃ xs', ((xs.write [92]).map fun xs => (xs, p)) = some (xs', p) ∧ Shows size xs' (s.memcpy [92]) := by
  obtain ⟨xs', hwrite, hshows⟩ := h.write [92] hroom
  exact ⟨xs', by rw [hwrite, Option.map_some], hshows⟩

/-- Text that is put in, and what is left of the pattern. -/
theorem text (h : Shows size xs s) (t p : Bytes)
    (hroom : Room size (TftpHpa.xformOut s l.initial t).1.out.length) :
    ∃ xs', ((xs.xformOut t).map fun r => (r.1, p)) = some (xs', p) ∧
      Shows size xs' (TftpHpa.xformOut s l.initial t).1 := by
  obtain ⟨xs', hout, hshows⟩ := h.xformOut t hroom
  exact ⟨xs', by rw [hout, Option.map_some], hshows⟩

theorem setXform (h : Shows size xs s) (y : Xform) : Shows size { xs with xform := y } { s with xform := y } :=
  ⟨rfl, h.len, h.err, h.ps, h.out, h.string⟩

theorem roundAt (x : Expander l) (h : Shows size xs s) (p : Bytes) (hroom : Room size (x.round s p).1.out.length) :
    ∃ xs', x.roundAt xs p = some (xs', (x.round s p).2) ∧ Shows size xs' (x.round s p).1 := by
  cases p with
  | nil => exact ⟨xs, rfl, h⟩
  | cons c p =>
    by_cases hc : c = 92
    · subst hc
      cases p with
      | nil => exact h.backslash [] hroom
      | cons m p =>
        simp only [Expander.round, Expander.roundAt, if_true] at hroom ⊢
        split_ifs at hroom ⊢
        · cases hgroup : x.group (m.toNat - 48) with
          | none => exact ⟨xs, rfl, by simpa [hgroup] using h⟩
          | some t => exact h.text t p (by simpa [hgroup] using hroom)
        · exact ⟨_, rfl, h.setXform .tolower⟩
        · exact ⟨_, rfl, h.setXform .toupper⟩
        · exact ⟨_, rfl, h.setXform .null⟩
        · exact h.backslash (m :: p) hroom
        · exact h.backslash p hroom
        · cases hsub : x.macrosub m with
          | none => exact ⟨xs, rfl, by simpa [hsub] using h⟩
          | some t => exact h.text t p (by simpa [hsub] using hroom)
    · simp only [Expander.round, Expander.roundAt, if_neg hc] at hroom ⊢
      exact h.xformOut (c :: p) hroom

/-- The loop over the pattern needs no more room than what it ends with. -/
theorem loopAt {x : Expander l} {fuel : ℕ} {p : Bytes} {s' : XformState l} (h : Shows size xs s)
    (hloop : x.loop fuel s p = some s') (hroom : Room size s'.out.length) :
    ∃ xs', x.loopAt fuel xs p = some xs' ∧ Shows size xs' s' := by
  induction fuel generalizing xs s p with
  | zero =>
    rw [Expander.loop] at hloop
    split_ifs at hloop with hp
    obtain rfl := Option.some.inj hloop
    exact ⟨xs, by rw [Expander.loopAt, if_pos hp], h⟩
  | succ fuel ih =>
    by_cases hp : p.headD 0 = 0
    · rw [Expander.loop_of_end hp] at hloop
      obtain rfl := Option.some.inj hloop
      exact ⟨xs, by rw [Expander.loopAt, if_pos hp], h⟩
    · rw [Expander.loop_succ hp, ← Expander.round_snd s p] at hloop
      obtain ⟨xs', hround, hshows⟩ := h.roundAt x p (hroom.mono (Expander.length_le_loop hloop))
      rw [Expander.loopAt, if_neg hp, hround, Option.bind_some]
      exact ih hshows hloop

/-- The pass that only counts goes on as long as the loop does. -/
theorem loopAt_none {x : Expander l} {fuel : ℕ} {p : Bytes} (h : Shows none xs s)
    (hloop : x.loop fuel s p = none) : x.loopAt fuel xs p = none := by
  induction fuel generalizing xs s p with
  | zero =>
    rw [Expander.loop] at hloop
    split_ifs at hloop with hp
    rw [Expander.loopAt, if_neg hp]
  | succ fuel ih =>
    have hp : p.headD 0 ≠ 0 := by
      intro hp
      rw [Expander.loop_of_end hp] at hloop
      cases hloop
    rw [Expander.loop_succ hp, ← Expander.round_snd s p] at hloop
    obtain ⟨xs', hround, hshows⟩ := h.roundAt x p (.of_none _)
    rw [Expander.loopAt, if_neg hp, hround, Option.bind_some]
    exact ih hshows hloop

/-- The state at the start of a call. -/
theorem initial (string : Option Bytes) : Shows (string.map List.length)
    ({ out := string.map fun _ => 0, string := string.getD [] } : XformBuffer l) {} := by
  refine ⟨rfl, rfl, rfl, rfl, by rw [Option.map_map]; rfl, fun n hn => ?_⟩
  obtain ⟨buf, rfl, rfl⟩ := Option.map_eq_some_iff.mp hn
  exact ⟨buf, rfl, rfl⟩

end Shows

/-! ### The two passes -/

/-- What a match is like that `regexec` finds in a string. -/
def RegMatch.Inside (m : RegMatch) (s : Bytes) : Prop := m.so ≤ m.eo ∧ m.eo ≤ s.length

/-- A call that has a pattern to expand, for a match that lies in the string, if there is one. -/
structure Expands (ibuf : Bytes) (pmatch : Option RegMatch) (start : Option ℕ) : Prop where
  exp : start = none ∨ pmatch ≠ none
  start_le : ∀ n ∈ start, n ≤ ibuf.length
  inside : ∀ m ∈ pmatch, m.Inside (ibuf.drop (start.getD 0))

/-- What stands around the expansion. -/
def aroundMatch (ibuf : Bytes) : Option RegMatch → Option ℕ → Bytes × Bytes
  | some m, some start => (ibuf.take (start + m.so), (ibuf.drop start).drop m.eo)
  | _, _ => ([], [])

/-- What a call comes to that has written `g`. -/
structure GenmatchCall.Returns (call : GenmatchCall) (size : Option ℕ) (g : Genmatch) (err : Bool) : Prop where
  ret : call.ret = if err then none else some g.len
  next : call.next = some g.next
  string : ∀ n, size = some n → call.string.length = n ∧ ∃ rest, call.string = g.string ++ 0 :: rest

section Passes

variable {l : Locale} {macrosub : UInt8 → Option Bytes} {fuel : ℕ} {pattern ibuf : Bytes}
  {pmatch : Option RegMatch} {start : Option ℕ}

theorem finishGenmatch_returns {size : Option ℕ} {xs : XformBuffer l} {s : XformState l} {head body : Bytes}
    (h : Shows size xs s) (hout : s.out = head ++ body) (tail : Bytes)
    (hroom : Room size (head ++ body ++ tail).length) :
    ∃ call, finishGenmatch xs tail = some call ∧ call.Returns size (.around head body tail) s.err := by
  have hmemcpy : (s.memcpy (tail.take tail.length)).out = head ++ body ++ tail := by
    rw [XformState.memcpy, List.take_length, hout]
  obtain ⟨xs', hcopy, hshows, hstring⟩ := h.memcpy tail le_rfl (hmemcpy ▸ hroom)
  rw [finishGenmatch, hcopy, Option.map_some]
  refine ⟨_, rfl, ?_, ?_, fun n hn => ⟨?_, ?_⟩⟩
  · rw [hshows.err, hshows.len, hmemcpy]
    rfl
  · rw [h.len, hout]
    rfl
  · exact (hshows.string n hn).choose_spec.2
  · obtain ⟨rest, hrest⟩ := hstring n hn
    exact ⟨rest, by rwa [hmemcpy] at hrest⟩

/-- A call that has a pattern to expand copies what stands before the match and starts the loop. -/
theorem exists_start (h : Expands ibuf pmatch start) (string : Option Bytes)
    (hroom : Room (string.map List.length) (aroundMatch ibuf pmatch start).1.length) :
    ∃ xs : XformBuffer l,
      Shows (string.map List.length) xs (XformState.prepend (aroundMatch ibuf pmatch start).1 {}) ∧
      doGenmatchstringAt l macrosub fuel string pattern ibuf pmatch start =
        ((expander l macrosub ibuf pmatch start).loopAt fuel xs pattern).bind fun xs =>
          finishGenmatch xs (aroundMatch ibuf pmatch start).2 := by
  have hinitial := Shows.initial (l := l) string
  cases start with
  | none =>
    have haround : aroundMatch ibuf pmatch none = ([], []) := by cases pmatch <;> rfl
    rw [haround]
    exact ⟨_, hinitial, rfl⟩
  | some start =>
    obtain ⟨m, rfl⟩ := Option.ne_none_iff_exists'.mp (h.exp.resolve_left (Option.some_ne_none start))
    obtain ⟨hso, heo⟩ := h.inside m rfl
    have hlen : start + m.so ≤ ibuf.length := by
      have := h.start_le start rfl
      rw [Option.getD_some, List.length_drop] at heo
      omega
    have htake : (ibuf ++ [0]).take (start + m.so) = ibuf.take (start + m.so) :=
      List.take_append_of_le_length hlen
    have hcopied : Room (string.map List.length)
        (({} : XformState l).memcpy ((ibuf ++ [0]).take (start + m.so))).out.length := by
      rwa [htake]
    obtain ⟨xs, hxs, hshows, -⟩ := hinitial.memcpy (ibuf ++ [0]) (by simp; omega) hcopied
    rw [htake, XformState.memcpy_start] at hshows
    refine ⟨xs, hshows, ?_⟩
    rw [doGenmatchstringAt, hxs, Option.bind_some]
    rfl

/-- It ends when the loop does, with all that has been written, in a buffer that has room for it. -/
theorem doGenmatchstringAt_returns (h : Expands ibuf pmatch start) (string : Option Bytes) {s : XformState l}
    (hloop : (expander l macrosub ibuf pmatch start).loop fuel {} pattern = some s)
    (hroom : Room (string.map List.length)
      ((aroundMatch ibuf pmatch start).1 ++ s.out ++ (aroundMatch ibuf pmatch start).2).length) :
    ∃ call, doGenmatchstringAt l macrosub fuel string pattern ibuf pmatch start = some call ∧
      call.Returns (string.map List.length)
        (.around (aroundMatch ibuf pmatch start).1 s.out (aroundMatch ibuf pmatch start).2) s.err := by
  set head := (aroundMatch ibuf pmatch start).1
  set tail := (aroundMatch ibuf pmatch start).2
  have hhead : head.length ≤ (head ++ s.out ++ tail).length := by simp
  have hbody : (head ++ s.out).length ≤ (head ++ s.out ++ tail).length := by simp
  obtain ⟨xs, hshows, hcall⟩ := exists_start h string (hroom.mono hhead)
  have hprepend := Expander.loop_prepend (x := expander l macrosub ibuf pmatch start) head fuel {} pattern
  rw [hloop, Option.map_some] at hprepend
  obtain ⟨xs', hxs', hshows'⟩ := hshows.loopAt hprepend (hroom.mono hbody)
  obtain ⟨call, hfinish, hreturns⟩ := finishGenmatch_returns hshows' rfl tail hroom
  exact ⟨call, by rw [hcall, hxs', Option.bind_some, hfinish], hreturns⟩

/-- A call that only counts does not end before the loop does. -/
theorem exists_loop_of_sized (h : Expands ibuf pmatch start) {sized : GenmatchCall}
    (hsized : doGenmatchstringAt l macrosub fuel none pattern ibuf pmatch start = some sized) :
    ∃ s, (expander l macrosub ibuf pmatch start).loop fuel {} pattern = some s := by
  obtain ⟨xs, hshows, hcall⟩ := exists_start h none (.of_none _)
  rw [hcall] at hsized
  obtain ⟨xs', hxs', -⟩ := Option.bind_eq_some_iff.mp hsized
  rw [← Option.isSome_iff_exists, ← Option.ne_none_iff_isSome]
  intro hloop
  have hprepend := Expander.loop_prepend (x := expander l macrosub ibuf pmatch start)
    (aroundMatch ibuf pmatch start).1 fuel {} pattern
  rw [hloop, Option.map_none] at hprepend
  cases (hshows.loopAt_none hprepend).symm.trans hxs'

/-- A buffer of the right size is filled to its end. -/
theorem writing_pass (h : Expands ibuf pmatch start) {s : XformState l}
    (hloop : (expander l macrosub ibuf pmatch start).loop fuel {} pattern = some s) (herr : s.err = false)
    {g : Genmatch}
    (hg : g = .around (aroundMatch ibuf pmatch start).1 s.out (aroundMatch ibuf pmatch start).2)
    {string : Bytes} (hstring : string.length = g.len + 1) :
    doGenmatchstringAt l macrosub fuel (some string) pattern ibuf pmatch start =
      some { ret := some g.len, string := g.string ++ [0], next := some g.next } := by
  subst hg
  have hroom : Room ((some string).map List.length)
      ((aroundMatch ibuf pmatch start).1 ++ s.out ++ (aroundMatch ibuf pmatch start).2).length := by
    rintro _ ⟨⟩
    exact hstring ▸ Nat.lt_succ_self _
  obtain ⟨⟨ret, string', next⟩, hcall, hret, hnext, hshown⟩ :=
    doGenmatchstringAt_returns h (some string) hloop hroom
  obtain ⟨hsize, rest, hrest⟩ := hshown _ rfl
  dsimp only at hret hnext hsize hrest
  obtain rfl : rest = [] := by
    apply List.eq_nil_of_length_eq_zero
    rw [hrest, hstring, List.length_append, List.length_cons] at hsize
    have hone : rest.length + 1 = 1 := Nat.add_left_cancel hsize
    omega
  rw [hcall, hret, hnext, hrest, herr]
  rfl

/-- The pass that writes fills the buffer which the pass that counts has asked for: the text with
its NUL, as many bytes as have been counted, and the offset of what follows the expansion. -/
theorem passes_agree (l : Locale) (macrosub : UInt8 → Option Bytes) (fuel : ℕ) (pattern : Bytes) {ibuf : Bytes}
    {pmatch : Option RegMatch} {start : Option ℕ} (hexpands : Expands ibuf pmatch start) {sized : GenmatchCall} {L : ℕ}
    (hsized : doGenmatchstringAt l macrosub fuel none pattern ibuf pmatch start = some sized)
    (hL : sized.ret = some L) {string : Bytes} (hstring : string.length = L + 1) :
    ∃ s, (expander l macrosub ibuf pmatch start).loop fuel {} pattern = some s ∧
      ∃ g, g = Genmatch.around (aroundMatch ibuf pmatch start).1 s.out (aroundMatch ibuf pmatch start).2 ∧
        g.string.length = L ∧ g.next ≤ L ∧
        doGenmatchstringAt l macrosub fuel (some string) pattern ibuf pmatch start =
          some { ret := some L, string := g.string ++ [0], next := some g.next } := by
  obtain ⟨s, hloop⟩ := exists_loop_of_sized hexpands hsized
  obtain ⟨call, hcall, hreturns⟩ := doGenmatchstringAt_returns hexpands none hloop (.of_none _)
  obtain rfl := Option.some.inj (hsized.symm.trans hcall)
  have hret := hreturns.ret.symm.trans hL
  split_ifs at hret with herr
  obtain rfl := Option.some.inj hret
  refine ⟨s, hloop, _, rfl, rfl, ?_, ?_⟩
  · simp [Genmatch.around]
  · exact writing_pass hexpands hloop (Bool.not_eq_true _ ▸ herr) rfl hstring

variable (l macrosub pattern ibuf) in
theorem doGenmatchstring_around (hexp : start = none ∨ pmatch ≠ none) (fuel : ℕ) :
    doGenmatchstring l macrosub fuel pattern ibuf pmatch start =
      ((expander l macrosub ibuf pmatch start).loop fuel {} pattern).map fun s =>
        if s.err then none
        else some (.around (aroundMatch ibuf pmatch start).1 s.out (aroundMatch ibuf pmatch start).2) := by
  cases start with
  | none =>
    have haround : aroundMatch ibuf pmatch none = ([], []) := by cases pmatch <;> rfl
    simp only [doGenmatchstring, haround, Genmatch.around, List.nil_append, List.append_nil]
    rfl
  | some start =>
    obtain ⟨m, rfl⟩ := Option.ne_none_iff_exists'.mp (hexp.resolve_left (Option.some_ne_none start))
    simp only [doGenmatchstring, XformState.memcpy_start, Expander.loop_prepend, Option.map_map]
    rfl

/-- What the interpreter works with is what the two passes compute. -/
theorem genmatchstringAt_eq (h : Expands ibuf pmatch start) (fresh : ℕ → UInt8) {r : Option Genmatch}
    (hr : doGenmatchstring l macrosub fuel pattern ibuf pmatch start = some r) :
    genmatchstringAt l macrosub fuel fresh pattern ibuf pmatch start =
      some (r.elim { ret := none, string := [], next := none } fun g =>
        { ret := some g.len, string := g.string ++ [0], next := some g.next }) := by
  rw [doGenmatchstring_around l macrosub pattern ibuf h.exp fuel] at hr
  obtain ⟨s, hloop, rfl⟩ := Option.map_eq_some_iff.mp hr
  obtain ⟨call, hcall, hreturns⟩ := doGenmatchstringAt_returns h none hloop (.of_none _)
  rw [genmatchstringAt, hcall, Option.bind_some, hreturns.ret]
  cases herr : s.err with
  | true => rfl
  | false =>
    refine writing_pass h hloop herr rfl ?_
    rw [length_grow]
    simp

end Passes

/-- A backslash in the place of a part of a name. -/
theorem passes_agree_backslash : ∃ g : Genmatch, g.string.length = 3 ∧ g.next ≤ 3 ∧
    doGenmatchstringAt asciiLocale (fun _ => none) 1 (some (List.replicate 4 255)) (cstr "\\\\") (cstr "abc")
      (some ⟨1, 2, []⟩) (some 0) = some { ret := some 3, string := g.string ++ [0], next := some g.next } := by
  have hexpands : Expands (cstr "abc") (some ⟨1, 2, []⟩) (some 0) := by
    refine ⟨.inr (Option.some_ne_none _), fun n hn => Option.mem_some_iff.mp hn ▸ Nat.zero_le _, fun m hm => ?_⟩
    obtain rfl := Option.mem_some_iff.mp hm
    exact ⟨by decide, by decide⟩
  obtain ⟨s, -, g, -, hlen, hnext, hcall⟩ := passes_agree asciiLocale (fun _ => none) 1 (cstr "\\\\") hexpands rfl rfl
    (List.length_replicate (a := 255))
  exact ⟨g, hlen, hnext, hcall⟩

end TftpHpa
