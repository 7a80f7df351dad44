import TftpHpa.Lib.Transition

/-! Datagrams and the buffers they are received into. `recvfrom` cuts a datagram to the
size of the buffer, so the receiver only sees that one was too long if the buffer has room
for a byte more than expected, or if `MSG_TRUNC` makes the call return the length of the
datagram. A machine whose receive steps name what is in the buffer can be fed with the
datagrams behind them. -/

namespace TftpHpa.Datagram

variable {α : Type*} {σ ε : Type*}

/-- A call with a buffer of `size` bytes turns the datagram `d` into `p`, which has the length
the call returns; behind the buffer it may be anything. -/
structure Delivers (msgTrunc : Bool) (size : ℕ) (d p : List α) : Prop where
  length_eq : p.length = if msgTrunc then d.length else min size d.length
  take_eq : p.take size = d.take size

instance [DecidableEq α] (msgTrunc : Bool) (size : ℕ) (d p : List α) : Decidable (Delivers msgTrunc size d p) :=
  decidable_of_iff (p.length = (if msgTrunc then d.length else min size d.length) ∧ p.take size = d.take size)
    ⟨fun h => ⟨h.1, h.2⟩, fun h => ⟨h.length_eq, h.take_eq⟩⟩

/-- A datagram of `n` bytes can be told from a longer one. -/
def Detects (msgTrunc : Bool) (size n : ℕ) : Prop := n < size ∨ msgTrunc = true ∧ n ≤ size

namespace Delivers

variable {msgTrunc : Bool} {size n : ℕ} {d p : List α}

theorem length_lt (h : Delivers msgTrunc size d p) (hdet : Detects msgTrunc size n) (hn : n < d.length) :
    n < p.length := by
  rw [h.length_eq]
  rcases hdet with hlt | ⟨rfl, -⟩
  · split_ifs
    · exact hn
    · exact lt_min hlt hn
  · exact hn

/-- What is no longer than expected is the whole datagram. -/
theorem eq_of_length_le (h : Delivers msgTrunc size d p) (hdet : Detects msgTrunc size n) (hn : p.length ≤ n) :
    d = p := by
  have hlen : d.length ≤ n := by
    by_contra hlt
    exact absurd (h.length_lt hdet (Nat.not_le.mp hlt)) (Nat.not_lt.mpr hn)
  have hsize : n ≤ size := hdet.elim Nat.le_of_lt And.right
  have htake := h.take_eq
  rw [List.take_of_length_le (hn.trans hsize), List.take_of_length_le (hlen.trans hsize)] at htake
  exact htake.symm

/-- A datagram that fits the buffer is delivered as a whole. -/
theorem eq_of_le_size (h : Delivers msgTrunc size d p) (hd : d.length ≤ size) : d = p := by
  have hlen : p.length = d.length := by
    rw [h.length_eq]
    split_ifs
    · rfl
    · exact min_eq_right hd
  have htake := h.take_eq
  rw [List.take_of_length_le (hlen.trans_le hd), List.take_of_length_le hd] at htake
  exact htake.symm

end Delivers

/-! ### Feeding a machine -/

/-- A receive call: its flag, its buffer, and what it leaves there. -/
structure Input (α : Type*) where
  msgTrunc : Bool
  size : ℕ
  packet : List α

/-- A label of the machine, and for a receive call the datagram behind it. -/
inductive FedLabel (ε α : Type*) where
  | datagram (d : List α) (l : ε)
  | other (l : ε)

namespace FedLabel

def label : FedLabel ε α → ε
  | datagram _ l | other l => l

def datagrams : FedLabel ε α → List (List α)
  | datagram d _ => [d]
  | other _ => []

end FedLabel

/-- The machine when every receive call gets a datagram. -/
def fed [DecidableEq α] (step : σ → ε → Option σ) (takes : σ → ε → Option (Input α)) (s : σ) :
    FedLabel ε α → Option σ
  | .datagram d l =>
    match takes s l with
    | none => none
    | some i => if Delivers i.msgTrunc i.size d i.packet then step s l else none
  | .other l =>
    match takes s l with
    | none => step s l
    | some _ => none

variable [DecidableEq α] {step : σ → ε → Option σ} {takes : σ → ε → Option (Input α)} {s s' : σ}

theorem fed_datagram {d : List α} {l : ε} : fed step takes s (.datagram d l) = some s' ↔
    ∃ i, takes s l = some i ∧ Delivers i.msgTrunc i.size d i.packet ∧ step s l = some s' := by
  unfold fed
  dsimp only
  cases htakes : takes s l with
  | none => simp
  | some i => simp [Option.ite_none_right_eq_some]

theorem fed_other {l : ε} : fed step takes s (.other l) = some s' ↔ takes s l = none ∧ step s l = some s' := by
  unfold fed
  dsimp only
  cases htakes : takes s l with
  | none => simp
  | some i => simp

end TftpHpa.Datagram
