import Mathlib.Tactic
import Mathlib.Logic.Relation

/-! Replacing every match in a string, from left to right. A scanner finds the next match in the
rest of the string and remembers what it needs for the search after it; a search is given the rest
of the string and whether that is behind the beginning of the line. `editor` is the substitution
that editors make: matches do not overlap, a match that is empty is followed by a character that is
copied, and no empty match is taken where the match before it has ended. `loop` searches again where
the last match has ended. Two scanners make the same replacements exactly if, as long as they have
made the same ones, they find the same match next. -/

namespace TftpHpa.Substitute

open Relation (ReflTransGen)

variable {α σ τ : Type*}

/-- A replacement in a string: how much of the string is left where the match begins and where it
ends, and the text that is put there, which may fail. -/
structure Edit (α : Type*) where
  start : ℕ
  stop : ℕ
  text : Option (List α)
  deriving DecidableEq

/-- Where a match begins and ends, and its replacement. -/
structure Hit (α : Type*) where
  so : ℕ
  eo : ℕ
  text : Option (List α)
  deriving DecidableEq

namespace Hit

/-- The same match, found in a string with `k` more characters before it. -/
def shift (k : ℕ) (h : Hit α) : Hit α := { h with so := h.so + k, eo := h.eo + k }

structure Valid (h : Hit α) (s : List α) : Prop where
  le : h.so ≤ h.eo
  eo_le : h.eo ≤ s.length

def edit (h : Hit α) (s : List α) : Edit α := ⟨s.length - h.so, s.length - h.eo, h.text⟩

theorem edit_inj {h h' : Hit α} {s : List α} (hv : h.Valid s) (hv' : h'.Valid s) (heq : h.edit s = h'.edit s) :
    h = h' := by
  obtain ⟨so, eo, text⟩ := h
  obtain ⟨so', eo', text'⟩ := h'
  obtain ⟨hle, heo⟩ := hv
  obtain ⟨hle', heo'⟩ := hv'
  simp only [edit, Edit.mk.injEq] at heq hle heo hle' heo'
  obtain ⟨hso, heo, rfl⟩ := heq
  obtain rfl : so = so' := by omega
  obtain rfl : eo = eo' := by omega
  rfl

theorem length_drop_lt {h : Hit α} {s : List α} (hv : h.Valid s) (hpos : 0 < h.eo) :
    (s.drop h.eo).length < s.length := by
  have := hv.eo_le
  rw [List.length_drop]
  omega

end Hit

/-- What is found next in the rest of the string, and what is remembered of a match. -/
structure Scanner (α σ : Type*) where
  find : σ → List α → Option (Hit α)
  next : σ → List α → Hit α → σ

namespace Scanner

/-- The replacements that are made in the rest of the string, and what it becomes. -/
inductive Scans (S : Scanner α σ) : σ → List α → List (Edit α) → Option (List α) → Prop where
  | miss {q : σ} {s : List α} (hf : S.find q s = none) : Scans S q s [] (some s)
  | fail {q : σ} {s : List α} {h : Hit α} (hf : S.find q s = some h) (ht : h.text = none) : Scans S q s [h.edit s] none
  | last {q : σ} {s e : List α} {h : Hit α} (hf : S.find q s = some h) (ht : h.text = some e) (hd : s.drop h.eo = []) :
    Scans S q s [h.edit s] (some (s.take h.so ++ e))
  | more {q : σ} {s e : List α} {h : Hit α} {es : List (Edit α)} {r : Option (List α)} (hf : S.find q s = some h)
    (ht : h.text = some e) (hd : s.drop h.eo ≠ []) (rest : Scans S (S.next q s h) (s.drop h.eo) es r) :
    Scans S q s (h.edit s :: es) (r.map (s.take h.so ++ e ++ ·))

variable {S : Scanner α σ} {T : Scanner α τ}

theorem Scans.exists_hit {q : σ} {s : List α} {e : Edit α} {es : List (Edit α)} {r : Option (List α)}
    (h : S.Scans q s (e :: es) r) : ∃ h, S.find q s = some h ∧ h.edit s = e := by
  cases h with
  | fail hf | last hf | more hf => exact ⟨_, hf, rfl⟩

/-- The scan behind a match. -/
theorem Scans.rest {q : σ} {s e : List α} {es : List (Edit α)} {r : Option (List α)} {h : Hit α}
    (hscan : S.Scans q s es r) (hf : S.find q s = some h) (ht : h.text = some e) (hd : s.drop h.eo ≠ []) :
    ∃ es' r', S.Scans (S.next q s h) (s.drop h.eo) es' r' ∧ es = h.edit s :: es' ∧
      r = r'.map (s.take h.so ++ e ++ ·) := by
  cases hscan with
  | miss hf' => cases hf.symm.trans hf'
  | fail hf' ht' =>
    obtain rfl := Option.some.inj (hf.symm.trans hf')
    cases ht.symm.trans ht'
  | last hf' _ hd' =>
    obtain rfl := Option.some.inj (hf.symm.trans hf')
    exact absurd hd' hd
  | more hf' ht' _ rest =>
    obtain rfl := Option.some.inj (hf.symm.trans hf')
    obtain rfl := Option.some.inj (ht.symm.trans ht')
    exact ⟨_, _, rest, rfl, rfl⟩

theorem Scans.unique {q : σ} {s : List α} {es es' : List (Edit α)} {r r' : Option (List α)}
    (h : S.Scans q s es r) (h' : S.Scans q s es' r') : es' = es ∧ r' = r := by
  induction h generalizing es' r' with
  | miss hf =>
    cases h' with
    | miss => exact ⟨rfl, rfl⟩
    | fail hf' | last hf' | more hf' => cases hf.symm.trans hf'
  | fail hf ht =>
    cases h' with
    | miss hf' => cases hf.symm.trans hf'
    | fail hf' =>
      obtain rfl := Option.some.inj (hf.symm.trans hf')
      exact ⟨rfl, rfl⟩
    | last hf' ht' | more hf' ht' =>
      obtain rfl := Option.some.inj (hf.symm.trans hf')
      cases ht.symm.trans ht'
  | last hf ht hd =>
    cases h' with
    | miss hf' => cases hf.symm.trans hf'
    | fail hf' ht' =>
      obtain rfl := Option.some.inj (hf.symm.trans hf')
      cases ht.symm.trans ht'
    | last hf' ht' =>
      obtain rfl := Option.some.inj (hf.symm.trans hf')
      obtain rfl := Option.some.inj (ht.symm.trans ht')
      exact ⟨rfl, rfl⟩
    | more hf' _ hd' =>
      obtain rfl := Option.some.inj (hf.symm.trans hf')
      exact absurd hd hd'
  | more hf ht hd _ ih =>
    obtain ⟨es'', r'', hrest, rfl, rfl⟩ := h'.rest hf ht hd
    obtain ⟨rfl, rfl⟩ := ih hrest
    exact ⟨rfl, rfl⟩

/-- A match that leaves the scanner where it is would be replaced for ever. -/
theorem Scans.not_stuck {q : σ} {s e : List α} {h : Hit α} {es : List (Edit α)} {r : Option (List α)}
    (hf : S.find q s = some h) (ht : h.text = some e) (heo : h.eo = 0) (hne : s ≠ []) (hq : S.next q s h = q) :
    ¬ S.Scans q s es r := by
  intro hscan
  induction hscan with
  | miss hf' => cases hf.symm.trans hf'
  | fail hf' ht' =>
    obtain rfl := Option.some.inj (hf.symm.trans hf')
    cases ht.symm.trans ht'
  | last hf' _ hd =>
    obtain rfl := Option.some.inj (hf.symm.trans hf')
    rw [heo, List.drop_zero] at hd
    exact hne hd
  | more hf' _ _ _ ih =>
    obtain rfl := Option.some.inj (hf.symm.trans hf')
    rw [heo, List.drop_zero, hq] at ih
    exact ih hf hne hq

/-! ### Two scanners -/

/-- Two scanners at the same place. -/
structure Joint (σ τ α : Type*) where
  left : σ
  right : τ
  rest : List α

/-- Both make the same replacement, and the string goes on. -/
def Together (S : Scanner α σ) (T : Scanner α τ) (x y : Joint σ τ α) : Prop :=
  ∃ h, S.find x.left x.rest = some h ∧ T.find x.right x.rest = some h ∧ h.text.isSome ∧ x.rest.drop h.eo ≠ [] ∧
    y = ⟨S.next x.left x.rest h, T.next x.right x.rest h, x.rest.drop h.eo⟩

/-- Where they have made the same replacements so far, they find the same match next. -/
def Keeps (S : Scanner α σ) (T : Scanner α τ) (x : Joint σ τ α) : Prop :=
  ∀ y, ReflTransGen (Together S T) x y → S.find y.left y.rest = T.find y.right y.rest

/-- They come to the same string. -/
def Same (S : Scanner α σ) (T : Scanner α τ) (x : Joint σ τ α) : Prop :=
  ∃ es es' r, S.Scans x.left x.rest es r ∧ T.Scans x.right x.rest es' r

/-- From the first place where they find different matches on, they still come to the same. -/
def Coincide (S : Scanner α σ) (T : Scanner α τ) (x : Joint σ τ α) : Prop :=
  ∃ y, ReflTransGen (Together S T) x y ∧ S.find y.left y.rest ≠ T.find y.right y.rest ∧ Same S T y

theorem keeps_iff {x : Joint σ τ α} : Keeps S T x ↔
    S.find x.left x.rest = T.find x.right x.rest ∧ ∀ y, Together S T x y → Keeps S T y := by
  constructor
  · exact fun h => ⟨h x .refl, fun y hxy z hyz => h z (.head hxy hyz)⟩
  · rintro ⟨hx, hnext⟩ z hz
    rcases hz.cases_head with rfl | ⟨y, hxy, hyz⟩
    · exact hx
    · exact hnext y hxy z hyz

theorem Together.same_iff {x y : Joint σ τ α} (h : Together S T x y) : Same S T x ↔ Same S T y := by
  obtain ⟨h, hS, hT, ht, hd, rfl⟩ := h
  obtain ⟨e, he⟩ := Option.isSome_iff_exists.mp ht
  constructor
  · rintro ⟨es, es', r, hscanS, hscanT⟩
    obtain ⟨esS, rS, hrestS, -, rfl⟩ := hscanS.rest hS he hd
    obtain ⟨esT, rT, hrestT, -, hr⟩ := hscanT.rest hT he hd
    obtain rfl := Option.map_injective (List.append_right_injective _) hr
    exact ⟨esS, esT, rS, hrestS, hrestT⟩
  · rintro ⟨es, es', r, hrestS, hrestT⟩
    exact ⟨_, _, _, .more hS he hd hrestS, .more hT he hd hrestT⟩

theorem same_iff_of_together {x y : Joint σ τ α} (h : ReflTransGen (Together S T) x y) :
    Same S T x ↔ Same S T y := by
  induction h with
  | refl => rfl
  | tail _ hstep ih => exact ih.trans hstep.same_iff

section Compare

variable {q : σ} {p : τ} {s : List α} {es : List (Edit α)} {r : Option (List α)}

theorem Keeps.miss (hS : S.find q s = none) (hT : T.find p s = none) : Keeps S T ⟨q, p, s⟩ :=
  keeps_iff.mpr ⟨hS.trans hT.symm, fun _ ⟨_, hfound, _⟩ => by cases hS.symm.trans hfound⟩

/-- A match that both find and that ends both scans. -/
theorem Keeps.last {h : Hit α} (hS : S.find q s = some h) (hT : T.find p s = some h)
    (hend : h.text = none ∨ s.drop h.eo = []) : Keeps S T ⟨q, p, s⟩ := by
  refine keeps_iff.mpr ⟨hS.trans hT.symm, fun y ⟨h', hS', _, ht, hd, _⟩ => ?_⟩
  obtain rfl := Option.some.inj (hS.symm.trans hS')
  rcases hend with hnone | hnil
  · rw [hnone] at ht
    cases ht
  · exact absurd hnil hd

/-- A match that both find, and behind which they keep together. -/
theorem Keeps.more {h : Hit α} (hS : S.find q s = some h) (hT : T.find p s = some h)
    (hrest : Keeps S T ⟨S.next q s h, T.next p s h, s.drop h.eo⟩) : Keeps S T ⟨q, p, s⟩ := by
  refine keeps_iff.mpr ⟨hS.trans hT.symm, fun y ⟨h', hS', _, _, _, hy⟩ => ?_⟩
  obtain rfl := Option.some.inj (hS.symm.trans hS')
  rw [hy]
  exact hrest

/-- The scan of `T` as one of `S`. -/
theorem Keeps.scans (hT : T.Scans p s es r) (hk : Keeps S T ⟨q, p, s⟩) : S.Scans q s es r := by
  induction hT generalizing q with
  | miss hf => exact .miss ((keeps_iff.mp hk).1.trans hf)
  | fail hf ht => exact .fail ((keeps_iff.mp hk).1.trans hf) ht
  | last hf ht hd => exact .last ((keeps_iff.mp hk).1.trans hf) ht hd
  | more hf ht hd _ ih =>
    obtain ⟨hfind, hnext⟩ := keeps_iff.mp hk
    exact .more (hfind.trans hf) ht hd (ih (hnext _ ⟨_, hfind.trans hf, hf, by rw [ht]; rfl, hd, rfl⟩))

variable (hvS : ∀ {q s h}, S.find q s = some h → h.Valid s) (hvT : ∀ {p s h}, T.find p s = some h → h.Valid s)
include hvS hvT

/-- The same replacements exactly if the scanners keep together. -/
theorem scans_iff_keeps (hT : T.Scans p s es r) : S.Scans q s es r ↔ Keeps S T ⟨q, p, s⟩ := by
  refine ⟨fun hS => ?_, Keeps.scans hT⟩
  induction hT generalizing q with
  | miss hf =>
    cases hS with
    | miss hfS => exact .miss hfS hf
  | fail hf ht =>
    obtain ⟨h', hfS, hedit⟩ := hS.exists_hit
    obtain rfl := Hit.edit_inj (hvS hfS) (hvT hf) hedit
    exact .last hfS hf (.inl ht)
  | last hf _ hd =>
    obtain ⟨h', hfS, hedit⟩ := hS.exists_hit
    obtain rfl := Hit.edit_inj (hvS hfS) (hvT hf) hedit
    exact .last hfS hf (.inr hd)
  | more hf ht hd _ ih =>
    obtain ⟨h', hfS, hedit⟩ := hS.exists_hit
    obtain rfl := Hit.edit_inj (hvS hfS) (hvT hf) hedit
    obtain ⟨es', r', hrest, hes, hr⟩ := hS.rest hfS ht hd
    obtain rfl := List.tail_eq_of_cons_eq hes
    obtain rfl := Option.map_injective (List.append_right_injective _) hr
    exact .more hfS hf (ih hrest)

omit hvS hvT

/-- The same string exactly if the scanners keep together, or go apart and come to the same. -/
theorem exists_scans_iff (hT : T.Scans p s es r) :
    (∃ es', S.Scans q s es' r) ↔ Keeps S T ⟨q, p, s⟩ ∨ Coincide S T ⟨q, p, s⟩ := by
  have hsame : (∃ es', S.Scans q s es' r) ↔ Same S T ⟨q, p, s⟩ := by
    refine ⟨fun ⟨es', hS⟩ => ⟨es', es, r, hS, hT⟩, fun ⟨es', es'', r', hS, hT'⟩ => ⟨es', ?_⟩⟩
    rwa [(hT.unique hT').2] at hS
  rw [hsame]
  constructor
  · intro hx
    by_contra hno
    obtain ⟨hkeeps, hcoincide⟩ := not_or.mp hno
    refine hkeeps fun y hy => ?_
    by_contra hdiffer
    exact hcoincide ⟨y, hy, hdiffer, (same_iff_of_together hy).mp hx⟩
  · rintro (hk | ⟨y, hy, -, hsame⟩)
    · exact ⟨es, es, r, hk.scans hT, hT⟩
    · exact (same_iff_of_together hy).mpr hsame

end Compare

end Scanner

/-! ### The editor and the loop -/

/-- What was matched last: nothing so far, some characters, or the empty string. -/
inductive Before where
  | start | nonempty | empty

variable (search : List α → Bool → Option (Hit α))

/-- The search behind the next character. -/
def afterChar : List α → Option (Hit α)
  | [] => none
  | _ :: t => (search t true).map (Hit.shift 1)

/-- The editor. -/
def editor : Scanner α Before where
  find
    | .start, s => search s false
    | .nonempty, s =>
      match search s true with
      | none => none
      | some h => if h.eo = 0 then afterChar search s else some h
    | .empty, s => afterChar search s
  next _ _ h := if h.so < h.eo then .nonempty else .empty

/-- The loop. It is at the beginning of the line as long as nothing stands before the place where it
searches. -/
def loop : Scanner α Bool where
  find behind s := search s behind
  next behind s h := behind || !(s.take h.so ++ h.text.getD []).isEmpty

variable {search}

theorem loop_find (b : Bool) (s : List α) : (loop search).find b s = search s b := rfl

theorem editor_next_ne_start {q : Before} {s : List α} {h : Hit α} : (editor search).next q s h ≠ .start := by
  simp only [editor]
  split_ifs <;> nofun

variable (hvalid : ∀ {s b h}, search s b = some h → h.Valid s)
include hvalid

theorem afterChar_spec {s : List α} {h : Hit α} (hf : afterChar search s = some h) : h.Valid s ∧ 0 < h.eo := by
  cases s with
  | nil => cases hf
  | cons c t =>
    obtain ⟨h', hf', rfl⟩ := Option.map_eq_some_iff.mp hf
    obtain ⟨hle, heo⟩ := hvalid hf'
    exact ⟨⟨Nat.add_le_add_right hle 1, Nat.add_le_add_right heo 1⟩, Nat.succ_pos _⟩

theorem editor_valid {q : Before} {s : List α} {h : Hit α} (hf : (editor search).find q s = some h) :
    h.Valid s ∧ (q ≠ .start → 0 < h.eo) := by
  cases q with
  | start => exact ⟨hvalid hf, fun hq => absurd rfl hq⟩
  | empty => exact ⟨(afterChar_spec hvalid hf).1, fun _ => (afterChar_spec hvalid hf).2⟩
  | nonempty =>
    simp only [editor] at hf
    split at hf
    · cases hf
    · next h' hs =>
      split_ifs at hf with heo
      · exact ⟨(afterChar_spec hvalid hf).1, fun _ => (afterChar_spec hvalid hf).2⟩
      · obtain rfl := Option.some.inj hf
        exact ⟨hvalid hs, fun _ => Nat.pos_of_ne_zero heo⟩

/-- Behind the first match an editor makes a replacement for a character at most. -/
theorem exists_editor_rest (s : List α) {q : Before} (hq : q ≠ .start) :
    ∃ es r, (editor search).Scans q s es r ∧ es.length ≤ s.length := by
  induction hlen : s.length using Nat.strong_induction_on generalizing s q with
  | _ len ih =>
    subst hlen
    cases hf : (editor search).find q s with
    | none => exact ⟨[], _, .miss hf, Nat.zero_le _⟩
    | some h =>
      obtain ⟨hv, hpos⟩ := editor_valid hvalid hf
      have hlt := h.length_drop_lt hv (hpos hq)
      cases ht : h.text with
      | none => exact ⟨_, _, .fail hf ht, Nat.one_le_of_lt hlt⟩
      | some e =>
        by_cases hd : s.drop h.eo = []
        · exact ⟨_, _, .last hf ht hd, Nat.one_le_of_lt hlt⟩
        · obtain ⟨es, r, hrest, hle⟩ := ih _ hlt (s.drop h.eo) editor_next_ne_start rfl
          exact ⟨_, _, .more hf ht hd hrest, hle.trans_lt hlt⟩

/-- An editor makes at most one replacement more than there are characters. -/
theorem exists_editor (s : List α) : ∃ es r, (editor search).Scans .start s es r ∧ es.length ≤ s.length + 1 := by
  cases hf : (editor search).find .start s with
  | none => exact ⟨[], _, .miss hf, Nat.zero_le _⟩
  | some h =>
    cases ht : h.text with
    | none => exact ⟨_, _, .fail hf ht, Nat.succ_le_succ (Nat.zero_le _)⟩
    | some e =>
      by_cases hd : s.drop h.eo = []
      · exact ⟨_, _, .last hf ht hd, Nat.succ_le_succ (Nat.zero_le _)⟩
      · obtain ⟨es, r, hrest, hle⟩ := exists_editor_rest hvalid (s.drop h.eo) editor_next_ne_start
        rw [List.length_drop] at hle
        exact ⟨_, _, .more hf ht hd hrest, Nat.succ_le_succ (hle.trans (Nat.sub_le _ _))⟩

/-- So does the loop if it ends: an empty match at the place where it searches is found again, unless
that was the beginning of the line and no longer is. -/
theorem loop_length_le {b : Bool} {s : List α} {es : List (Edit α)} {r : Option (List α)}
    (h : (loop search).Scans b s es r) :
    es.length ≤ s.length + 1 ∧ (b = true → s ≠ [] → es.length ≤ s.length) := by
  induction h with
  | miss => exact ⟨Nat.zero_le _, fun _ _ => Nat.zero_le _⟩
  | fail | last => exact ⟨Nat.succ_le_succ (Nat.zero_le _), fun _ hne => List.length_pos_iff.mpr hne⟩
  | @more b s e h es r hf ht hd hrest ih =>
    have hv := hvalid hf
    have hne : s ≠ [] := by
      rintro rfl
      exact hd List.drop_nil
    by_cases heo : h.eo = 0
    · cases hb : (loop search).next b s h with
      | false =>
        have hq : (loop search).next b s h = b := by
          rw [hb]
          exact (Bool.or_eq_false_iff.mp hb).1.symm
        exact absurd (.more hf ht hd hrest) (Scanner.Scans.not_stuck hf ht heo hne hq)
      | true =>
        cases b with
        | true => exact absurd (.more hf ht hd hrest) (Scanner.Scans.not_stuck hf ht heo hne hb)
        | false =>
          have hle := ih.2 hb hd
          rw [heo, List.drop_zero] at hle
          exact ⟨Nat.succ_le_succ hle, nofun⟩
    · have hlt := h.length_drop_lt hv (Nat.pos_of_ne_zero heo)
      refine ⟨Nat.succ_le_succ (ih.1.trans hlt), fun hb _ => (ih.2 ?_ hd).trans_lt hlt⟩
      rw [hb]
      rfl

end TftpHpa.Substitute
