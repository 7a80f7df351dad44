import Mathlib.Tactic

/-! One-way channels between two machines. The content is the list of messages in
flight, oldest first. An unordered channel is the set of all messages ever sent, any
of which may arrive at any time and any number of times; a FIFO channel hands out
its oldest message once. Either may lose messages. -/

namespace TftpHpa.Channel

variable {α β : Type*}

theorem forall₂_eraseIdx {R : α → β → Prop} {c : List α} {e : List β} (h : List.Forall₂ R c e) (n : ℕ) :
    List.Forall₂ R (c.eraseIdx n) (e.eraseIdx n) := by
  induction h generalizing n with
  | nil => simp
  | cons hr h ih =>
    cases n with
    | zero => exact h
    | succ n => exact .cons hr (ih n)

/-- Losing a message loses one of a given kind or none of them. -/
theorem filter_eraseIdx (f : α → Bool) (c : List α) (n : ℕ) :
    ∃ m, (c.eraseIdx n).filter f = (c.filter f).eraseIdx m := by
  induction c generalizing n with
  | nil => exact ⟨0, rfl⟩
  | cons a c ih =>
    cases n with
    | zero =>
      cases ha : f a with
      | true => exact ⟨0, by simp [ha]⟩
      | false => exact ⟨(c.filter f).length, by simp [ha, List.eraseIdx_of_length_le]⟩
    | succ n =>
      obtain ⟨m, hm⟩ := ih n
      cases ha : f a with
      | true => exact ⟨m + 1, by simp [ha, hm]⟩
      | false => exact ⟨m, by simp [ha, hm]⟩

variable [DecidableEq α] [DecidableEq β]

inductive Discipline where
  | unordered | fifo
  deriving DecidableEq, Repr

/-- The channel after message `m` has arrived, if it can. -/
def receive : Discipline → List α → α → Option (List α)
  | .unordered, c, m => if m ∈ c then some c else none
  | .fifo, [], _ => none
  | .fifo, h :: c, m => if m = h then some c else none

theorem receive_fifo {c c' : List α} {m : α} : receive .fifo c m = some c' ↔ c = m :: c' := by
  cases c with
  | nil => simp [receive]
  | cons h c =>
    simp only [receive, Option.ite_none_right_eq_some, Option.some.injEq, List.cons.injEq]
    exact and_congr_left fun _ => eq_comm

theorem mem_of_receive {d : Discipline} {c c' : List α} {m : α} (h : receive d c m = some c') : m ∈ c := by
  cases d with
  | unordered =>
    simp only [receive, Option.ite_none_right_eq_some] at h
    exact h.1
  | fifo => simp [receive_fifo.mp h]

theorem sublist_of_receive {d : Discipline} {c c' : List α} {m : α} (h : receive d c m = some c') :
    c'.Sublist c := by
  cases d with
  | unordered =>
    simp only [receive, Option.ite_none_right_eq_some, Option.some.injEq] at h
    rw [h.2]
  | fifo =>
    rw [receive_fifo.mp h]
    exact List.sublist_cons_self m c'

/-- A message that arrives on a channel arrives on any channel that corresponds to it. -/
theorem receive_forall₂ {R : α → β → Prop} {d : Discipline} {c : List α} {e e' : List β} {m : β}
    (h : List.Forall₂ R c e) (hm : receive d e m = some e') :
    ∃ n c', receive d c n = some c' ∧ R n m ∧ List.Forall₂ R c' e' := by
  cases d with
  | unordered =>
    simp only [receive, Option.ite_none_right_eq_some, Option.some.injEq] at hm
    obtain ⟨hmem, rfl⟩ := hm
    obtain ⟨n, hn, hr⟩ : ∃ n ∈ c, R n m := by
      induction h with
      | nil => cases hmem
      | cons hr _ ih =>
        rcases List.mem_cons.mp hmem with rfl | hmem
        · exact ⟨_, List.mem_cons_self, hr⟩
        · obtain ⟨n, hn, hr⟩ := ih hmem
          exact ⟨n, List.mem_cons_of_mem _ hn, hr⟩
    exact ⟨n, c, by simp [receive, hn], hr, h⟩
  | fifo =>
    obtain rfl := receive_fifo.mp hm
    cases h with
    | cons hr h => exact ⟨_, _, receive_fifo.mpr rfl, hr, h⟩

/-! ### Messages of one kind among others -/

/-- The arrival of a message takes away one of a given kind or none of them. -/
theorem filter_of_receive {d : Discipline} {c c' : List α} {m : α} (f : α → Bool) (h : receive d c m = some c') :
    ∃ n, c'.filter f = (c.filter f).eraseIdx n := by
  cases d with
  | unordered =>
    simp only [receive, Option.ite_none_right_eq_some, Option.some.injEq] at h
    exact ⟨(c.filter f).length, by rw [List.eraseIdx_of_length_le le_rfl, h.2]⟩
  | fifo =>
    obtain rfl := receive_fifo.mp h
    exact filter_eraseIdx f (m :: c') 0

/-- A message of that kind arrives among the others. -/
theorem receive_filter {d : Discipline} {c c' : List α} {m : α} {f : α → Bool} (hm : f m = true)
    (h : receive d c m = some c') : receive d (c.filter f) m = some (c'.filter f) := by
  cases d with
  | unordered =>
    simp only [receive, Option.ite_none_right_eq_some, Option.some.injEq] at h ⊢
    exact ⟨List.mem_filter.mpr ⟨h.1, hm⟩, by rw [h.2]⟩
  | fifo =>
    obtain rfl := receive_fifo.mp h
    exact receive_fifo.mpr (List.filter_cons_of_pos hm)

end TftpHpa.Channel
