import Mathlib.Data.List.Basic

/-! Strings that each end in a terminator `z`, one after the other in a list. A list is
cut into the strings that can be taken off its front: each is non-empty and free of
the terminator, and what is left starts with a terminator or has none. -/

namespace TftpHpa.Terminated

variable {α β : Type*} {z : α}

/-- The strings one after the other, each with its terminator. -/
def join (z : α) (ss : List (List α)) : List α := ss.flatMap fun s => s ++ [z]

@[simp] theorem join_nil : join z [] = [] := rfl

theorem join_cons (s : List α) (ss : List (List α)) : join z (s :: ss) = s ++ z :: join z ss := by
  simp [join]

structure Cut (z : α) (xs : List α) (ss : List (List α)) (rest : List α) : Prop where
  eq : xs = join z ss ++ rest
  string : ∀ s ∈ ss, s ≠ [] ∧ z ∉ s
  stop : rest.head? = some z ∨ z ∉ rest

namespace Cut

variable {xs rest s : List α} {ss : List (List α)}

theorem nil (h : rest.head? = some z ∨ z ∉ rest) : Cut z rest [] rest := ⟨rfl, by simp, h⟩

theorem cons (hne : s ≠ []) (hs : z ∉ s) (h : Cut z xs ss rest) : Cut z (s ++ z :: xs) (s :: ss) rest where
  eq := by rw [join_cons, h.eq, List.append_assoc, List.cons_append]
  string := by
    intro t ht
    rcases List.mem_cons.mp ht with rfl | ht
    · exact ⟨hne, hs⟩
    · exact h.string t ht
  stop := h.stop

theorem eq_cons (h : Cut z xs (s :: ss) rest) : xs = s ++ z :: (join z ss ++ rest) := by
  rw [h.eq, join_cons, List.append_assoc, List.cons_append]

theorem head (h : Cut z xs (s :: ss) rest) : s ≠ [] ∧ z ∉ s := h.string s List.mem_cons_self

theorem tail (h : Cut z xs (s :: ss) rest) : Cut z (join z ss ++ rest) ss rest where
  eq := rfl
  string t ht := h.string t (List.mem_cons_of_mem s ht)
  stop := h.stop

/-- Where a string stands the cut does not stop. -/
theorem not_stop (h : Cut z xs (s :: ss) rest) : ¬ (xs.head? = some z ∨ z ∉ xs) := by
  obtain ⟨hne, hs⟩ := h.head
  rw [h.eq_cons]
  rintro (hhead | hmem)
  · obtain ⟨c, cs, rfl⟩ := List.exists_cons_of_ne_nil hne
    rw [List.cons_append, List.head?_cons, Option.some_inj] at hhead
    exact hs (by simp [hhead])
  · exact hmem (by simp)

theorem append_cons_inj {s t xs ys : List α} (hs : z ∉ s) (ht : z ∉ t) (h : s ++ z :: xs = t ++ z :: ys) :
    s = t ∧ xs = ys := by
  induction s generalizing t with
  | nil =>
    cases t with
    | nil => exact ⟨rfl, (List.cons_eq_cons.mp h).2⟩
    | cons d t => exact absurd (List.cons_eq_cons.mp h).1 fun he => ht (by simp [he])
  | cons c s ih =>
    cases t with
    | nil => exact absurd (List.cons_eq_cons.mp h).1 fun he => hs (by simp [he])
    | cons d t =>
      rw [List.mem_cons, not_or] at hs ht
      obtain ⟨rfl, htail⟩ := List.cons_eq_cons.mp h
      obtain ⟨rfl, rfl⟩ := ih hs.2 ht.2 htail
      exact ⟨rfl, rfl⟩

/-- A list has only one cut. -/
theorem unique {rest' : List α} {ss' : List (List α)} (h : Cut z xs ss rest) (h' : Cut z xs ss' rest') :
    ss = ss' ∧ rest = rest' := by
  induction ss generalizing xs ss' with
  | nil =>
    have hxs : xs = rest := h.eq
    cases ss' with
    | nil => exact ⟨rfl, hxs.symm.trans h'.eq⟩
    | cons s' ss' => exact absurd (hxs ▸ h.stop) h'.not_stop
  | cons s ss ih =>
    cases ss' with
    | nil =>
      have hxs : xs = rest' := h'.eq
      exact absurd (hxs ▸ h'.stop) h.not_stop
    | cons s' ss' =>
      obtain ⟨rfl, htail⟩ := append_cons_inj h.head.2 h'.head.2 (h.eq_cons.symm.trans h'.eq_cons)
      obtain ⟨rfl, rfl⟩ := ih h.tail (htail ▸ h'.tail)
      exact ⟨rfl, rfl⟩

end Cut

/-- Every list has a cut. -/
theorem exists_cut (z : α) (xs : List α) : ∃ ss rest, Cut z xs ss rest := by
  induction hn : xs.length using Nat.strongRecOn generalizing xs with
  | _ n ih =>
    by_cases hstop : xs.head? = some z ∨ z ∉ xs
    · exact ⟨[], xs, .nil hstop⟩
    rw [not_or, not_not] at hstop
    obtain ⟨s, ys, rfl, hs⟩ := List.eq_append_cons_of_mem hstop.2
    have hne : s ≠ [] := by
      rintro rfl
      exact hstop.1 rfl
    obtain ⟨ss, rest, hcut⟩ := ih ys.length (by rw [← hn]; simp; omega) ys rfl
    exact ⟨s :: ss, rest, hcut.cons hne hs⟩

/-- The elements two by two; a last one without a partner is left out. -/
def pairs : List β → List (β × β)
  | [] => []
  | [_] => []
  | a :: b :: l => (a, b) :: pairs l

theorem mem_of_mem_pairs {l : List β} {p : β × β} (h : p ∈ pairs l) : p.1 ∈ l ∧ p.2 ∈ l := by
  induction l using pairs.induct with
  | case1 => cases h
  | case2 => cases h
  | case3 a b l ih =>
    rcases List.mem_cons.mp h with rfl | h
    · simp
    · exact ⟨by simp [(ih h).1], by simp [(ih h).2]⟩

theorem length_lt_join {s : List α} {ss : List (List α)} (h : s ∈ ss) : s.length < (join z ss).length := by
  induction ss with
  | nil => cases h
  | cons t ss ih =>
    rw [join_cons, List.length_append, List.length_cons]
    rcases List.mem_cons.mp h with rfl | h
    · omega
    · have := ih h
      omega

/-! ### Reading back -/

/-- The strings a list is made of, if it is made of strings. -/
def split [DecidableEq α] (z : α) : List α → Option (List (List α))
  | [] => some []
  | x :: xs =>
    if x = z then (split z xs).map ([] :: ·)
    else match split z xs with
      | some (s :: ss) => some ((x :: s) :: ss)
      | _ => none

theorem split_join [DecidableEq α] {ss : List (List α)} (h : ∀ s ∈ ss, z ∉ s) : split z (join z ss) = some ss := by
  induction ss with
  | nil => rfl
  | cons s ss ih =>
    have hrest := ih fun t ht => h t (by simp [ht])
    have hs := h s (by simp)
    clear h
    rw [join_cons]
    induction s with
    | nil => rw [List.nil_append, split, if_pos rfl, hrest, Option.map_some]
    | cons x s ihs =>
      rw [List.mem_cons, not_or] at hs
      rw [List.cons_append, split, if_neg (Ne.symm hs.1), ihs hs.2]

def unpair (ps : List (β × β)) : List β := ps.flatMap fun p => [p.1, p.2]

theorem pairs_unpair (ps : List (β × β)) : pairs (unpair ps) = ps := by
  induction ps with
  | nil => rfl
  | cons p ps ih => exact congrArg (p :: ·) ih

theorem length_unpair (ps : List (β × β)) : (unpair ps).length = 2 * ps.length := by
  induction ps with
  | nil => rfl
  | cons p ps ih =>
    change (unpair ps).length + 2 = 2 * (ps.length + 1)
    omega

theorem notMem_of_mem_unpair {ps : List (List α × List α)} (h : ∀ p ∈ ps, z ∉ p.1 ∧ z ∉ p.2) :
    ∀ s ∈ unpair ps, z ∉ s := by
  intro s hs
  obtain ⟨p, hp, hs⟩ := List.mem_flatMap.mp hs
  rcases List.mem_pair.mp hs with rfl | rfl
  · exact (h p hp).1
  · exact (h p hp).2

/-- The list as pairs of strings, if it is made of such pairs. -/
def splitPairs [DecidableEq α] (z : α) (xs : List α) : Option (List (List α × List α)) :=
  (split z xs).bind fun ss => if ss.length % 2 = 0 then some (pairs ss) else none

theorem splitPairs_join [DecidableEq α] {ps : List (List α × List α)} (h : ∀ p ∈ ps, z ∉ p.1 ∧ z ∉ p.2) :
    splitPairs z (join z (unpair ps)) = some ps := by
  rw [splitPairs, split_join (notMem_of_mem_unpair h), Option.bind_some, if_pos (by rw [length_unpair]; omega),
    pairs_unpair]

end TftpHpa.Terminated
