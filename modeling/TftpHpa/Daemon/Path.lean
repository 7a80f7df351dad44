import Mathlib.Data.List.DropRight
import TftpHpa.Common.Text

/-! Path names (`tftpd/path.c`). A path is taken apart into its components by one pass
over its bytes; a component is closed at the slash behind it or at the end of the
string, and only then looked at. -/

namespace TftpHpa

def slash : UInt8 := 47

/-- `is_valid_char` on Unix. -/
def isValidChar (c : UInt8) : Bool := 32 ≤ c

theorem isValidChar_iff {c : UInt8} (hc : c ≠ 0) : isValidChar c = true ↔ ¬ (1 ≤ c ∧ c ≤ 31) := by
  rw [isValidChar, decide_eq_true_eq]
  rw [← UInt8.toNat_inj.ne] at hc
  rw [UInt8.le_iff_toNat_le, UInt8.le_iff_toNat_le, UInt8.le_iff_toNat_le]
  change c.toNat ≠ 0 at hc
  change 32 ≤ c.toNat ↔ ¬ (1 ≤ c.toNat ∧ c.toNat ≤ 31)
  omega

/-- `adjust_tail`: how many components the last one takes away, itself included, and
what is left. -/
def adjustTail (dp : List Bytes) : Option (ℕ × List Bytes) :=
  match dp.getLast? with
  | none => some (0, dp)
  | some last =>
    let drop := if last = cstr "." then 1 else if last = cstr ".." then 2 else 0
    if dp.length < drop then none else some (drop, dp.take (dp.length - drop))

/-- The end of a component; a strict path may not have it dropped. -/
def closeComponent (strict : Bool) (dp : List Bytes) : Option (List Bytes) :=
  match adjustTail dp with
  | none => none
  | some (dropped, dp) => if dropped ≠ 0 && strict then none else some dp

/-- The loop of `parse_path`, with the component that is being read; it is empty after
a slash. -/
def parseComponents (strict : Bool) (dp : List Bytes) (cur : Bytes) : Bytes → Option (List Bytes)
  | [] => if cur = [] then some dp else closeComponent strict (dp ++ [cur])
  | c :: q =>
    if c = slash then
      if cur = [] then parseComponents strict dp [] q
      else match closeComponent strict (dp ++ [cur]) with
        | none => none
        | some dp => parseComponents strict dp [] q
    else parseComponents strict dp (cur ++ [c]) q

/-- `parse_path`. -/
def parsePath (path : Bytes) (strict : Bool) : Option (List Bytes) :=
  if strict && path.headD 0 ≠ slash then none
  else if path.any fun c => !isValidChar c then none
  else parseComponents strict [] [] path

/-- `build_path`. -/
def buildPath (pathPrefix : Option Bytes) (dirs : List Bytes) : Bytes :=
  (pathPrefix.getD []).rdropWhile (· = slash) ++ dirs.flatMap (slash :: ·)

/-- `compare_paths`. -/
def comparePaths : List Bytes → List Bytes → ℕ
  | [], [] => 3
  | [], _ :: _ => 1
  | _ :: _, [] => 2
  | a :: as, b :: bs => if a ≠ b then 0 else comparePaths as bs

/-! ### Components -/

/-- What a component of a path may be. -/
structure ValidComponent (c : Bytes) : Prop where
  ne_nil : c ≠ []
  slash_notMem : slash ∉ c
  nul_notMem : (0 : UInt8) ∉ c
  ge : ∀ b ∈ c, 0x20 ≤ b
  ne_dot : c ≠ cstr "."
  ne_dotdot : c ≠ cstr ".."

theorem comparePaths_and_two {a b : List Bytes} : comparePaths a b &&& 2 ≠ 0 ↔ b <+: a := by
  induction a generalizing b with
  | nil => cases b <;> simp [comparePaths]
  | cons x a ih =>
    cases b with
    | nil => simp [comparePaths]
    | cons y b =>
      rw [comparePaths, List.cons_prefix_cons]
      split_ifs with h
      · simp [Ne.symm h]
      · simpa [not_not.mp h] using ih

/-- What becomes of the component that is closed. -/
theorem closeComponent_append (strict : Bool) (dp : List Bytes) (c : Bytes) :
    closeComponent strict (dp ++ [c]) =
      if c = cstr "." then if strict then none else some dp
      else if c = cstr ".." then if strict || dp = [] then none else some dp.dropLast
      else some (dp ++ [c]) := by
  have hlen : (dp ++ [c]).length = dp.length + 1 := by simp
  rw [closeComponent, adjustTail, List.getLast?_concat]
  dsimp only
  rw [hlen]
  by_cases hdot : c = cstr "."
  · simp only [if_pos hdot]
    cases strict <;> simp
  · by_cases hdotdot : c = cstr ".."
    · simp only [if_neg hdot, if_pos hdotdot]
      cases dp with
      | nil => simp
      | cons d dp =>
        have htake : (d :: dp ++ [c]).take dp.length = (d :: dp).dropLast := by
          rw [List.take_append_of_le_length (by simp), List.dropLast_eq_take]
          rfl
        cases strict <;> simp [← htake]
    · simp only [if_neg hdot, if_neg hdotdot]
      simp [List.take_of_length_le]

/-- Closing a component keeps a list of valid ones, whether it stays or not. -/
theorem closeComponent_valid {strict : Bool} {dp dp' : List Bytes} {c : Bytes} (hdp : ∀ d ∈ dp, ValidComponent d)
    (hne : c ≠ []) (hslash : slash ∉ c) (hge : ∀ b ∈ c, 0x20 ≤ b)
    (h : closeComponent strict (dp ++ [c]) = some dp') : ∀ d ∈ dp', ValidComponent d := by
  rw [closeComponent_append] at h
  split_ifs at h with hdot _ hdotdot
  · exact Option.some.inj h ▸ hdp
  · exact Option.some.inj h ▸ fun d hd => hdp d (List.mem_of_mem_dropLast hd)
  · rw [← Option.some.inj h]
    intro d hd
    rcases List.mem_append.mp hd with hd | hd
    · exact hdp d hd
    · rw [List.mem_singleton.mp hd]
      exact ⟨hne, hslash, fun h0 => absurd (hge 0 h0) (by decide), hge, hdot, hdotdot⟩

/-- Every component of a parsed path is valid. -/
theorem parseComponents_valid {strict : Bool} {dp dp' : List Bytes} {cur q : Bytes}
    (hdp : ∀ d ∈ dp, ValidComponent d) (hslash : slash ∉ cur) (hge : ∀ b ∈ cur ++ q, 0x20 ≤ b)
    (h : parseComponents strict dp cur q = some dp') : ∀ d ∈ dp', ValidComponent d := by
  induction q generalizing dp cur with
  | nil =>
    rw [List.append_nil] at hge
    rw [parseComponents] at h
    split_ifs at h with hcur
    · exact Option.some.inj h ▸ hdp
    · exact closeComponent_valid hdp hcur hslash hge h
  | cons c q ih =>
    have hrest : ∀ b ∈ ([] : Bytes) ++ q, 0x20 ≤ b := fun b hb => hge b (by simp at hb ⊢; exact .inr (.inr hb))
    rw [parseComponents] at h
    split_ifs at h with hc hcur
    · exact ih hdp List.not_mem_nil hrest h
    · split at h
      · cases h
      · rename_i dp₁ hclose
        have hdp₁ := closeComponent_valid hdp hcur hslash (fun b hb => hge b (by simp [hb])) hclose
        exact ih hdp₁ List.not_mem_nil hrest h
    · refine ih hdp ?_ (by simpa using hge) h
      rw [List.mem_append, List.mem_singleton]
      rintro (hmem | rfl)
      · exact hslash hmem
      · exact hc rfl

theorem parsePath_valid {path : Bytes} {strict : Bool} {dirs : List Bytes} (h : parsePath path strict = some dirs) :
    ∀ d ∈ dirs, ValidComponent d := by
  unfold parsePath at h
  split_ifs at h with _ hvalid
  refine parseComponents_valid (by simp) (by simp) (fun b hb => ?_) h
  simp only [List.any_eq_true, not_exists, not_and, isValidChar] at hvalid
  simpa using hvalid b hb

/-! ### Strict paths -/

/-- What stands between the slashes of a path. -/
def components (path : Bytes) : List Bytes := (path.splitOn slash).filter (· ≠ [])

theorem components_append_slash {cur : Bytes} (h : slash ∉ cur) (q : Bytes) :
    components (cur ++ slash :: q) = (if cur = [] then [] else [cur]) ++ components q := by
  rw [components, List.splitOn_append_cons_self_of_not_mem h, List.filter_cons]
  by_cases hcur : cur = [] <;> simp [hcur, components]

theorem components_of_notMem {cur : Bytes} (h : slash ∉ cur) :
    components cur = if cur = [] then [] else [cur] := by
  rw [components, List.splitOn_eq_singleton h, List.filter_cons]
  by_cases hcur : cur = [] <;> simp [hcur]

/-- A strict path is the list of what stands between its slashes, none of it a dot or
two. -/
theorem parseComponents_strict {dp : List Bytes} {cur q : Bytes} (hslash : slash ∉ cur) :
    parseComponents true dp cur q =
      if ∀ c ∈ components (cur ++ q), c ≠ cstr "." ∧ c ≠ cstr ".." then some (dp ++ components (cur ++ q))
      else none := by
  have hclose : ∀ (dp : List Bytes) (c : Bytes), closeComponent true (dp ++ [c]) =
      if c ≠ cstr "." ∧ c ≠ cstr ".." then some (dp ++ [c]) else none := by
    intro dp c
    rw [closeComponent_append]
    by_cases h₁ : c = cstr "." <;> by_cases h₂ : c = cstr ".." <;> simp [h₁, h₂]
  induction q generalizing dp cur with
  | nil =>
    rw [List.append_nil, parseComponents, components_of_notMem hslash, hclose]
    by_cases hcur : cur = [] <;> simp [hcur]
  | cons c q ih =>
    rw [parseComponents]
    by_cases hc : c = slash
    · subst hc
      rw [if_pos rfl, components_append_slash hslash]
      by_cases hcur : cur = []
      · rw [if_pos hcur, if_pos hcur, ih List.not_mem_nil]
        rfl
      · rw [if_neg hcur, if_neg hcur, hclose]
        by_cases hok : cur ≠ cstr "." ∧ cur ≠ cstr ".."
        · rw [if_pos hok]
          dsimp only
          rw [ih List.not_mem_nil]
          simp [hok]
        · rw [if_neg hok, if_neg]
          intro hall
          exact hok (hall cur (by simp))
    · have hcur : slash ∉ cur ++ [c] := by simp [hslash, Ne.symm hc]
      rw [if_neg hc, ih hcur, List.append_assoc, List.singleton_append]

/-- `parse_path` with `strict`, as one condition on the path. -/
theorem parsePath_strict (path : Bytes) : parsePath path true =
    if path.headD 0 = slash ∧ path.all isValidChar = true ∧
        ∀ c ∈ components path, c ≠ cstr "." ∧ c ≠ cstr ".." then some (components path) else none := by
  have hany : (path.any fun c => !isValidChar c) = !path.all isValidChar := by
    rw [List.not_all_eq_any_not]
  rw [parsePath]
  by_cases hhead : path.headD 0 = slash
  · rw [if_neg (by rw [hhead]; decide)]
    by_cases hvalid : path.all isValidChar = true
    · rw [if_neg (by rw [hany, hvalid]; decide), parseComponents_strict List.not_mem_nil]
      exact if_congr ⟨fun h => ⟨hhead, hvalid, h⟩, fun h => h.2.2⟩ rfl rfl
    · rw [if_pos (by rw [hany, Bool.eq_false_of_not_eq_true hvalid]; rfl), if_neg (fun h => hvalid h.2.1)]
  · rw [if_pos (by simpa using hhead), if_neg (fun h => hhead h.1)]

end TftpHpa
