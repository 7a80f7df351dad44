import TftpHpa.Daemon.Genmatch

/-! What the expansion of a pattern writes where each byte is one character. The manual
promises the strings that have been matched; `xform_out`, which also reads the pattern,
ends at a backslash wherever the text comes from, and leaves out a character whose case
mapping has no byte. -/

namespace TftpHpa

/-- A locale with one character for each byte. -/
structure SingleByte where
  Wc : Type
  btowc : UInt8 → Wc
  wctob : Wc → Option UInt8
  wctob_btowc : ∀ b, wctob (btowc b) = some b
  towlower : Wc → Wc
  towupper : Wc → Wc

namespace SingleByte

variable (sb : SingleByte)

def locale : Locale where
  Wc := sb.Wc
  Mbs := Unit
  initial := ()
  mbrtowc p _ := p.head?.map fun b => (sb.btowc b, 1, ())
  reads {p _ _ _ _} h := by
    cases p with
    | nil => cases h
    | cons c p =>
      cases h
      exact ⟨Nat.one_pos, Nat.succ_le_succ (Nat.zero_le _)⟩
  wcrtomb wc _ := ((sb.wctob wc).map ([·]), ())
  towlower := sb.towlower
  towupper := sb.towupper

/-- The byte that a byte is mapped to, if there is one. -/
def mapped (y : Xform) (b : UInt8) : Option UInt8 := sb.wctob (sb.locale.xform y (sb.btowc b))

/-- The case change as it should be: a character without a counterpart stays as it is. -/
def cased (y : Xform) (b : UInt8) : UInt8 := (sb.mapped y b).getD b

/-- The whole of a text with the case mapping in force; a backslash has none. -/
def whole : Option Xform × Bytes → Bytes
  | (none, t) => t
  | (some y, t) => t.map (sb.cased y)

end SingleByte

namespace Expander

variable {l : Locale}

/-- The texts that make up an expansion, with the case mapping in force. -/
def pieces (x : Expander l) (y : Xform) : Bytes → List (Option Xform × Bytes)
  | [] => []
  | [c] => if c = 92 then [(none, [92])] else [(some y, [c])]
  | c :: m :: p =>
    if c = 92 then
      if 48 ≤ m ∧ m ≤ 57 then (some y, (x.group (m.toNat - 48)).getD []) :: x.pieces y p
      else if m = 76 then x.pieces .tolower p
      else if m = 85 then x.pieces .toupper p
      else if m = 69 then x.pieces .null p
      else if m = 92 then (none, [92]) :: x.pieces y p
      else (some y, (x.macrosub m).getD [m]) :: x.pieces y p
    else (some y, [c]) :: x.pieces y (m :: p)

/-- The expansion that the manual describes. -/
def expansion (sb : SingleByte) (x : Expander l) (pattern : Bytes) : Bytes :=
  (x.pieces .null pattern).flatMap sb.whole

end Expander

/-! ### What is written -/

namespace XformState

variable {l : Locale}

theorem memcpy_nil (xs : XformState l) : xs.memcpy [] = xs := by
  simp only [memcpy, List.append_nil]

theorem memcpy_memcpy (xs : XformState l) (s t : Bytes) : (xs.memcpy s).memcpy t = xs.memcpy (s ++ t) := by
  simp only [memcpy, List.append_assoc]

end XformState

namespace SingleByte

variable {sb : SingleByte}

/-- Bytes that do not end a text. -/
def plain (b : UInt8) : Bool := b ≠ 0 && b ≠ 92

/-- What is written of a text. -/
def written (sb : SingleByte) : Option Xform × Bytes → Bytes
  | (none, t) => t
  | (some y, t) => (t.takeWhile plain).filterMap (sb.mapped y)

theorem conv (sb : SingleByte) (p : Bytes) :
    Conv sb.locale sb.locale.initial p ((p.takeWhile plain).map sb.btowc) (p.dropWhile plain) false := by
  induction p with
  | nil => exact .stop (.inl rfl)
  | cons c p ih =>
    by_cases hc : c = 0 ∨ c = 92
    · have hplain : plain c = false := by
        rcases hc with rfl | rfl <;> rfl
      rw [List.takeWhile_cons_of_neg (by simp [hplain]), List.dropWhile_cons_of_neg (by simp [hplain])]
      exact .stop hc
    · have hplain : plain c = true := by simpa [plain, not_or] using hc
      rw [List.takeWhile_cons_of_pos hplain, List.dropWhile_cons_of_pos hplain]
      exact .next hc rfl ih

theorem put_eq (xs : XformState sb.locale) (b : UInt8) :
    xs.put (sb.btowc b) = xs.memcpy (sb.mapped xs.xform b).toList := by
  have hput : xs.put (sb.btowc b) = xs.memcpy (((sb.mapped xs.xform b).map ([·])).getD []) := rfl
  rw [hput]
  cases sb.mapped xs.xform b <;> rfl

theorem puts_eq (xs : XformState sb.locale) (bs : Bytes) :
    xs.puts (bs.map sb.btowc) = xs.memcpy (bs.filterMap (sb.mapped xs.xform)) := by
  induction bs generalizing xs with
  | nil => exact (xs.memcpy_nil).symm
  | cons b bs ih =>
    change (xs.put (sb.btowc b)).puts (bs.map sb.btowc) = _
    rw [ih, put_eq, XformState.memcpy_memcpy, List.filterMap_cons]
    cases h : sb.mapped xs.xform b <;> simp [XformState.memcpy]

/-- `xform_out` in such a locale. -/
theorem xformOut_eq (xs : XformState sb.locale) (p : Bytes) :
    xformOut xs sb.locale.initial p = (xs.memcpy (sb.written (some xs.xform, p)), p.dropWhile plain) := by
  rw [(sb.conv p).xformOut, puts_eq]
  simp [XformState.memcpy, written]

theorem written_cons {c : UInt8} (hc : plain c = true) (y : Xform) (p : Bytes) :
    sb.written (some y, c :: p) = sb.written (some y, [c]) ++ sb.written (some y, p) := by
  simp only [written, List.takeWhile_cons_of_pos hc, List.takeWhile_nil, List.filterMap_cons]
  cases sb.mapped y c <;> rfl

end SingleByte

namespace Expander

open SingleByte

variable {sb : SingleByte} {x : Expander sb.locale}

theorem pieces_text {c : UInt8} (hc : c ≠ 92) (y : Xform) (p : Bytes) :
    x.pieces y (c :: p) = (some y, [c]) :: x.pieces y p := by
  cases p with
  | nil => simp only [pieces, if_neg hc]
  | cons m p => rw [pieces, if_neg hc]

/-- A run of the pattern is written as one text. -/
theorem flatMap_pieces_run (y : Xform) (p : Bytes) :
    (x.pieces y p).flatMap sb.written =
      sb.written (some y, p) ++ (x.pieces y (p.dropWhile plain)).flatMap sb.written := by
  induction p with
  | nil => rfl
  | cons c p ih =>
    cases hc : plain c with
    | false =>
      rw [List.dropWhile_cons_of_neg (by simp [hc])]
      simp [written, hc]
    | true =>
      have hbs : c ≠ 92 := by
        rintro rfl
        cases hc
      rw [pieces_text hbs, List.flatMap_cons, ih, List.dropWhile_cons_of_pos hc, written_cons hc y p,
        List.append_assoc]

/-- A round writes the first of the pieces that are left. -/
theorem round_pieces {pattern : Bytes} (hpat : (0 : UInt8) ∉ pattern) (hne : pattern ≠ []) (xs : XformState sb.locale) :
    ∃ y bs rest, x.round xs pattern = ({ xs.memcpy bs with xform := y }, rest) ∧
      (x.pieces xs.xform pattern).flatMap sb.written = bs ++ (x.pieces y rest).flatMap sb.written ∧
      rest.length < pattern.length ∧ (0 : UInt8) ∉ rest := by
  obtain ⟨c, p, rfl⟩ := List.exists_cons_of_ne_nil hne
  obtain ⟨h0c, h0mp⟩ := not_or.mp (List.mem_cons.not.mp hpat)
  by_cases hc : c = 92
  · subst hc
    cases p with
    | nil => exact ⟨xs.xform, [92], [], rfl, rfl, Nat.one_pos, List.not_mem_nil⟩
    | cons m p =>
      obtain ⟨h0m, h0p⟩ := not_or.mp (List.mem_cons.not.mp h0mp)
      have hlen : p.length < (92 :: m :: p).length := by
        simp only [List.length_cons]
        omega
      simp only [round, pieces, if_true]
      by_cases hdigit : 48 ≤ m ∧ m ≤ 57
      · simp only [if_pos hdigit, List.flatMap_cons]
        cases x.group (m.toNat - 48) with
        | none => exact ⟨xs.xform, [], p, by rw [XformState.memcpy_nil], rfl, hlen, h0p⟩
        | some t => exact ⟨xs.xform, _, p, congrArg (fun r => (r.1, p)) (xformOut_eq xs t), rfl, hlen, h0p⟩
      · simp only [if_neg hdigit]
        by_cases hspecial : m ∈ ([76, 85, 69, 92] : Bytes)
        · simp only [List.mem_cons, List.not_mem_nil, or_false] at hspecial
          rcases hspecial with rfl | rfl | rfl | rfl
          · exact ⟨.tolower, [], p, by rw [XformState.memcpy_nil]; rfl, rfl, hlen, h0p⟩
          · exact ⟨.toupper, [], p, by rw [XformState.memcpy_nil]; rfl, rfl, hlen, h0p⟩
          · exact ⟨.null, [], p, by rw [XformState.memcpy_nil]; rfl, rfl, hlen, h0p⟩
          · exact ⟨xs.xform, [92], p, rfl, rfl, hlen, h0p⟩
        · simp only [List.mem_cons, List.not_mem_nil, or_false, not_or] at hspecial
          obtain ⟨hL, hU, hE, hbs⟩ := hspecial
          simp only [if_neg hL, if_neg hU, if_neg hE, if_neg hbs, if_neg (Ne.symm h0m), List.flatMap_cons]
          cases x.macrosub m with
          | none =>
            refine ⟨xs.xform, [], m :: p, by rw [XformState.memcpy_nil], ?_, Nat.lt_succ_self _, h0mp⟩
            rw [pieces_text hbs, List.flatMap_cons]
            rfl
          | some t => exact ⟨xs.xform, _, p, congrArg (fun r => (r.1, p)) (xformOut_eq xs t), rfl, hlen, h0p⟩
  · have hplain : plain c = true := by simpa [plain, hc] using Ne.symm h0c
    refine ⟨xs.xform, _, (c :: p).dropWhile plain, ?_, flatMap_pieces_run xs.xform (c :: p), ?_, ?_⟩
    · rw [round_text hc]
      exact xformOut_eq xs (c :: p)
    · rw [List.dropWhile_cons_of_pos hplain]
      exact Nat.lt_succ_of_le (List.dropWhile_suffix plain).length_le
    · exact fun h => hpat ((List.dropWhile_suffix plain).subset h)

/-- The loop writes its pieces, each up to a backslash and without what cannot be mapped. -/
theorem loop_eq {pattern : Bytes} (hpat : (0 : UInt8) ∉ pattern) {fuel : ℕ} (hfuel : pattern.length ≤ fuel)
    (xs : XformState sb.locale) :
    ∃ y, x.loop fuel xs pattern =
      some { xs.memcpy ((x.pieces xs.xform pattern).flatMap sb.written) with xform := y } := by
  induction fuel generalizing pattern xs with
  | zero =>
    obtain rfl := List.length_eq_zero_iff.mp (Nat.le_zero.mp hfuel)
    exact ⟨xs.xform, by rw [loop_of_end rfl, pieces, List.flatMap_nil, XformState.memcpy_nil]⟩
  | succ fuel ih =>
    by_cases hne : pattern = []
    · subst hne
      exact ⟨xs.xform, by rw [loop_of_end rfl, pieces, List.flatMap_nil, XformState.memcpy_nil]⟩
    · have hhead : pattern.headD 0 ≠ 0 := by
        obtain ⟨c, p, rfl⟩ := List.exists_cons_of_ne_nil hne
        exact fun h => hpat (h ▸ List.mem_cons_self)
      obtain ⟨y, bs, rest, hround, hpieces, hlt, h0⟩ := round_pieces (x := x) hpat hne xs
      obtain ⟨y', hloop⟩ := ih h0 (by omega) { xs.memcpy bs with xform := y }
      refine ⟨y', ?_⟩
      rw [loop, if_neg hhead, hround, hloop, hpieces, ← XformState.memcpy_memcpy]
      rfl

end Expander

/-! ### When it is the whole text -/

/-- Where no part is longer on one side, the whole is equal only if the parts are. -/
theorem flatMap_eq_flatMap_iff {α β : Type*} {f g : α → List β} (hle : ∀ a, (f a).length ≤ (g a).length)
    (as : List α) : as.flatMap f = as.flatMap g ↔ ∀ a ∈ as, f a = g a := by
  induction as with
  | nil => simp
  | cons a as ih =>
    rw [List.flatMap_cons, List.flatMap_cons, List.forall_mem_cons, ← ih]
    refine ⟨fun h => ?_, fun h => by rw [h.1, h.2]⟩
    have hlen := congrArg List.length h
    have hrest : (as.flatMap f).length ≤ (as.flatMap g).length := by
      rw [List.length_flatMap, List.length_flatMap]
      exact List.sum_le_sum fun a _ => hle a
    rw [List.length_append, List.length_append] at hlen
    have ha := hle a
    exact List.append_inj h (by omega)

namespace SingleByte

variable {sb : SingleByte}

theorem written_length_le (sb : SingleByte) (piece : Option Xform × Bytes) :
    (sb.written piece).length ≤ (sb.whole piece).length := by
  obtain ⟨y | y, t⟩ := piece
  · exact le_rfl
  · rw [whole, List.length_map]
    exact (List.length_filterMap_le _ _).trans (List.takeWhile_prefix plain).length_le

theorem written_eq_whole_iff (y : Xform) (t : Bytes) :
    sb.written (some y, t) = sb.whole (some y, t) ↔ ∀ b ∈ t, plain b = true ∧ (sb.mapped y b).isSome := by
  induction t with
  | nil => simp [written, whole]
  | cons b t ih =>
    rw [List.forall_mem_cons, ← ih]
    cases hb : plain b with
    | false => simp [written, whole, hb]
    | true =>
      have hle := sb.written_length_le (some y, t)
      have hwhole : sb.whole (some y, b :: t) = sb.cased y b :: sb.whole (some y, t) := rfl
      rw [written_cons hb, hwhole]
      cases hm : sb.mapped y b with
      | none =>
        have hnil : sb.written (some y, [b]) = [] := by simp [written, hb, hm]
        rw [hnil, List.nil_append]
        refine ⟨fun h => ?_, fun h => nomatch h.1.2⟩
        have hlen := congrArg List.length h
        rw [List.length_cons] at hlen
        omega
      | some b' =>
        have hone : sb.written (some y, [b]) = [sb.cased y b] := by simp [written, cased, hb, hm]
        rw [hone]
        simp

end SingleByte

/-- A string with a replacement in it. -/
def Genmatch.around (head body tail : Bytes) : Genmatch :=
  ⟨head ++ body ++ tail, (head ++ body ++ tail).length, (head ++ body).length⟩

theorem Genmatch.around_inj {head body body' tail : Bytes} :
    Genmatch.around head body tail = .around head body' tail ↔ body = body' := by
  refine ⟨fun h => ?_, fun h => by rw [h]⟩
  have hstring : head ++ body ++ tail = head ++ body' ++ tail := congrArg Genmatch.string h
  simpa using hstring

/-- What a rewriting step gives: the part before the match, the pieces as they are written,
and the part after the match. -/
theorem doGenmatchstring_written (sb : SingleByte) (macrosub : UInt8 → Option Bytes) {pattern : Bytes}
    (hpat : (0 : UInt8) ∉ pattern) (ibuf : Bytes) (m : RegMatch) (start : ℕ) {fuel : ℕ}
    (hfuel : pattern.length ≤ fuel) :
    doGenmatchstring sb.locale macrosub fuel pattern ibuf (some m) (some start) =
      some (some (.around (ibuf.take (start + m.so))
        (((expander sb.locale macrosub ibuf (some m) (some start)).pieces .null pattern).flatMap sb.written)
        ((ibuf.drop start).drop m.eo))) := by
  obtain ⟨y, hloop⟩ := Expander.loop_eq (x := expander sb.locale macrosub ibuf (some m) (some start)) hpat hfuel
    (XformState.memcpy {} (ibuf.take (start + m.so)))
  change Option.map _ ((expander sb.locale macrosub ibuf (some m) (some start)).loop _ _ _) = _
  rw [hloop]
  rfl

/-- A rewriting step inserts the whole of every text exactly when no text from the match or
from a macro has a backslash in it, and every character to which a case change is applied
has a counterpart. It returns in any case. -/
theorem inserts_whole_iff (sb : SingleByte) (macrosub : UInt8 → Option Bytes) {pattern : Bytes}
    (hpat : (0 : UInt8) ∉ pattern) (ibuf : Bytes) (m : RegMatch) (start : ℕ) {fuel : ℕ}
    (hfuel : pattern.length ≤ fuel) :
    (∃ g, doGenmatchstring sb.locale macrosub fuel pattern ibuf (some m) (some start) = some (some g)) ∧
    (doGenmatchstring sb.locale macrosub fuel pattern ibuf (some m) (some start) =
        some (some (.around (ibuf.take (start + m.so))
          ((expander sb.locale macrosub ibuf (some m) (some start)).expansion sb pattern)
          ((ibuf.drop start).drop m.eo))) ↔
      ∀ y t, (some y, t) ∈ (expander sb.locale macrosub ibuf (some m) (some start)).pieces .null pattern →
        ∀ b ∈ t, b ≠ 0 ∧ b ≠ 92 ∧ (sb.mapped y b).isSome) := by
  have hstep := doGenmatchstring_written sb macrosub hpat ibuf m start hfuel
  refine ⟨⟨_, hstep⟩, ?_⟩
  rw [hstep, Option.some.injEq, Option.some.injEq, Genmatch.around_inj, Expander.expansion,
    flatMap_eq_flatMap_iff sb.written_length_le]
  constructor
  · intro h y t hmem b hb
    simpa [SingleByte.plain, and_assoc] using (SingleByte.written_eq_whole_iff y t).mp (h _ hmem) b hb
  · rintro h ⟨y | y, t⟩ hmem
    · rfl
    · refine (SingleByte.written_eq_whole_iff y t).mpr fun b hb => ?_
      simpa [SingleByte.plain, and_assoc] using h y t hmem b hb

/-- ISO 8859-1, with the code points of the characters. -/
def latin1 : SingleByte where
  Wc := ℕ
  btowc b := b.toNat
  wctob n := if n < 256 then some (UInt8.ofNat n) else none
  wctob_btowc b := by rw [if_pos b.toNat_lt, UInt8.ofNat_toNat]
  towlower n := if 65 ≤ n ∧ n ≤ 90 ∨ 192 ≤ n ∧ n ≤ 222 ∧ n ≠ 215 then n + 32 else n
  towupper n :=
    if 97 ≤ n ∧ n ≤ 122 ∨ 224 ≤ n ∧ n ≤ 254 ∧ n ≠ 247 then n - 32
    else if n = 255 then 376
    else if n = 181 then 924
    else n

/-- `\U\0` for the name `foo`. -/
theorem inserts_whole_iff_foo :
    doGenmatchstring latin1.locale (fun _ => none) 4 (cstr "\\U\\0") (cstr "foo") (some ⟨0, 3, []⟩) (some 0) =
      some (some (.around [] (cstr "FOO") [])) := by
  have hpat : (0 : UInt8) ∉ cstr "\\U\\0" := by decide
  have hfuel : (cstr "\\U\\0").length ≤ 4 := by decide
  refine (inserts_whole_iff latin1 (fun _ => none) hpat (cstr "foo") ⟨0, 3, []⟩ 0 hfuel).2.mpr ?_
  intro y t hmem
  obtain ⟨rfl, rfl⟩ : y = .toupper ∧ t = cstr "foo" := by
    obtain ⟨hy, ht⟩ := Prod.mk.inj (List.mem_singleton.mp hmem)
    exact ⟨Option.some.inj hy, ht⟩
  decide +kernel

/-- A backslash in the name ends the text: `\0` for the name `a\b` gives `a`. With `\U` the
letter `ÿ` of Latin-1, which has no capital there, is left out. -/
theorem backslash_ends_text :
    doGenmatchstring latin1.locale (fun _ => none) 2 (cstr "\\0") (cstr "a\\b") (some ⟨0, 3, []⟩) (some 0) =
      some (some (.around [] (cstr "a") [])) ∧
    (expander latin1.locale (fun _ => none) (cstr "a\\b") (some ⟨0, 3, []⟩) (some 0)).expansion latin1 (cstr "\\0") =
      cstr "a\\b" ∧
    doGenmatchstring latin1.locale (fun _ => none) 4 (cstr "\\U\\0") [97, 255] (some ⟨0, 2, []⟩) (some 0) =
      some (some (.around [] (cstr "A") [])) := by
  refine ⟨?_, by decide, ?_⟩
  · exact doGenmatchstring_written latin1 (fun _ => none) (by decide) (cstr "a\\b") ⟨0, 3, []⟩ 0 (by decide)
  · exact doGenmatchstring_written latin1 (fun _ => none) (by decide) [97, 255] ⟨0, 2, []⟩ 0 (by decide)

end TftpHpa
