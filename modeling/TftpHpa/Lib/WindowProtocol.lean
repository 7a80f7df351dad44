import TftpHpa.Lib.Transition
import TftpHpa.Lib.Channel
import TftpHpa.Lib.Window

/-! Windowed transfer with unbounded indices. A sender holds blocks `1`, ..., `N` and
works on one window of at most `W` of them at a time, which it may send in any order
and as often as it likes until an acknowledgement of the window's last block arrives.
A receiver accepts only the block it expects and acknowledges, cumulatively, some
block at or after its last window boundary. The end of a window is acknowledged
before anything else. Messages are bare indices, so nothing here can be mistaken for
anything else; how far apart the indices in flight can be is what an implementation
with finite numbers needs to know. -/

namespace TftpHpa.WindowProtocol

open Window (boundary)
open Channel (Discipline receive)
open Transition (Reaches)

structure State where
  /-- Blocks the sender is done with. -/
  base : ℕ := 0
  /-- The current window has been acknowledged. -/
  acked : Bool := false
  /-- Blocks the receiver has stored. -/
  recvd : ℕ := 0
  /-- The next block has arrived and is about to be stored. -/
  accepted : Bool := false
  /-- The end of a window is stored but not acknowledged yet. -/
  settling : Bool := false
  /-- The last block is acknowledged. -/
  closed : Bool := false
  data : List ℕ := []
  acks : List ℕ := []

inductive Event where
  | send (i : ℕ)
  | recvAck (j : ℕ)
  | advance
  | recvData (i : ℕ)
  | store
  | ack (j : ℕ)
  | settle
  | loseData (n : ℕ)
  | loseAck (n : ℕ)

variable (d : Discipline) (N W : ℕ)

/-- The size of the window after `base` blocks. -/
def width (base : ℕ) : ℕ := min W (N - base)

def step (s : State) : Event → Option State
  | .send i =>
    if s.acked = false ∧ s.base < i ∧ i ≤ s.base + width N W s.base then
      some { s with data := s.data ++ [i] }
    else none
  | .recvAck j =>
    if s.acked = false ∧ s.base < N then
      (receive d s.acks j).map fun acks => { s with acks, acked := j = s.base + width N W s.base }
    else none
  | .advance =>
    if s.acked = true then some { s with base := s.base + width N W s.base, acked := false } else none
  | .recvData i =>
    if s.accepted = false ∧ s.recvd < N then
      (receive d s.data i).map fun data => { s with data, accepted := i = s.recvd + 1 }
    else none
  | .store =>
    if s.accepted = true ∧ s.settling = false then
      some { s with recvd := s.recvd + 1, accepted := false
                    settling := (s.recvd + 1) % W = 0 ∨ s.recvd + 1 = N }
    else none
  | .ack j =>
    if s.settling = false ∧ s.recvd < N ∧ boundary W s.recvd ≤ j ∧ j ≤ s.recvd then
      some { s with acks := s.acks ++ [j] }
    else none
  | .settle =>
    if s.settling = true then
      some { s with acks := s.acks ++ [s.recvd], settling := false, closed := s.recvd = N }
    else none
  | .loseData n => some { s with data := s.data.eraseIdx n }
  | .loseAck n => some { s with acks := s.acks.eraseIdx n }

/-- The blocks that may have been acknowledged. -/
def State.ackable (s : State) : ℕ := if s.settling then s.recvd - 1 else s.recvd

variable {d N W} {s s' : State} {e : Event}

theorem base_add_width_le {base : ℕ} (h : base ≤ N) : base + width N W base ≤ N := by
  unfold width
  omega

/-! ### Safety -/

structure Inv (N W : ℕ) (s : State) : Prop where
  base_le : s.base ≤ N
  base_dvd : s.base < N → W ∣ s.base
  base_le_ackable : s.base ≤ s.ackable
  recvd_le : s.recvd ≤ s.base + width N W s.base
  accepted_lt : s.accepted = true → s.recvd < s.base + width N W s.base
  data_le : ∀ i ∈ s.data, 0 < i ∧ i ≤ s.base + width N W s.base
  acks_le : ∀ j ∈ s.acks, j ≤ s.ackable
  acked_le : s.acked = true → s.base + width N W s.base ≤ s.ackable
  settling_pos : s.settling = true → 0 < s.recvd
  settling_iff : s.settling = true → s.recvd % W = 0 ∨ s.recvd = N
  closed_of : s.recvd = N → s.settling = false → s.closed = true
  closed_eq : s.closed = true → s.recvd = N ∧ s.settling = false

theorem State.ackable_le (s : State) : s.ackable ≤ s.recvd := by
  unfold State.ackable
  split_ifs <;> omega

theorem Inv.init (hN : 0 < N) : Inv N W {} where
  base_le := Nat.zero_le _
  base_dvd _ := dvd_zero _
  base_le_ackable := le_rfl
  recvd_le := Nat.zero_le _
  accepted_lt h := Bool.noConfusion h
  data_le _ h := absurd h List.not_mem_nil
  acks_le _ h := absurd h List.not_mem_nil
  acked_le h := Bool.noConfusion h
  settling_pos h := Bool.noConfusion h
  settling_iff h := Bool.noConfusion h
  closed_of h := absurd h hN.ne
  closed_eq h := Bool.noConfusion h

/-- A window that is not the last one is full, so it ends at a boundary. -/
theorem Inv.dvd_end (h : Inv N W s) (hend : s.base + width N W s.base < N) :
    W ∣ s.base + width N W s.base := by
  have hw : width N W s.base = W := by
    simp only [width] at hend ⊢
    omega
  rw [hw]
  exact Nat.dvd_add (h.base_dvd (by omega)) dvd_rfl

theorem Inv.step (h : Inv N W s) (hs : step d N W s e = some s') : Inv N W s' := by
  have hack := s.ackable_le
  cases e with
  | send i =>
    simp only [WindowProtocol.step, Option.ite_none_right_eq_some, Option.some.injEq] at hs
    obtain ⟨⟨-, hlo, hhi⟩, rfl⟩ := hs
    refine { h with data_le := fun k hk => ?_ }
    rcases List.mem_append.mp hk with hk | hk
    · exact h.data_le k hk
    · rw [List.mem_singleton.mp hk]
      exact ⟨by omega, hhi⟩
  | recvAck j =>
    simp only [WindowProtocol.step, Option.ite_none_right_eq_some, Option.map_eq_some_iff] at hs
    obtain ⟨-, acks, hrecv, rfl⟩ := hs
    have hj := h.acks_le j (Channel.mem_of_receive hrecv)
    refine { h with acks_le := fun k hk => h.acks_le k ((Channel.sublist_of_receive hrecv).subset hk),
                    acked_le := fun hd => ?_ }
    rw [← of_decide_eq_true hd]
    exact hj
  | advance =>
    simp only [WindowProtocol.step, Option.ite_none_right_eq_some, Option.some.injEq] at hs
    obtain ⟨hacked, rfl⟩ := hs
    have hle := h.acked_le hacked
    have hbase := h.base_le
    have hup := h.recvd_le
    exact { h with
      base_le := base_add_width_le hbase
      base_dvd := fun hlt => h.dvd_end hlt
      base_le_ackable := hle
      recvd_le := le_trans hup (Nat.le_add_right _ _)
      accepted_lt := fun ha => lt_of_lt_of_le (h.accepted_lt ha) (Nat.le_add_right _ _)
      data_le := fun i hi => ⟨(h.data_le i hi).1, le_trans (h.data_le i hi).2 (Nat.le_add_right _ _)⟩
      acked_le := fun hf => Bool.noConfusion hf }
  | recvData i =>
    simp only [WindowProtocol.step, Option.ite_none_right_eq_some, Option.map_eq_some_iff] at hs
    obtain ⟨-, data, hrecv, rfl⟩ := hs
    have hi := h.data_le i (Channel.mem_of_receive hrecv)
    refine { h with data_le := fun k hk => h.data_le k ((Channel.sublist_of_receive hrecv).subset hk),
                    accepted_lt := fun hd => ?_ }
    have hd := of_decide_eq_true hd
    show s.recvd < s.base + width N W s.base
    omega
  | store =>
    simp only [WindowProtocol.step, Option.ite_none_right_eq_some, Option.some.injEq] at hs
    obtain ⟨⟨hacc, hset⟩, rfl⟩ := hs
    have hold : s.ackable = s.recvd := by simp [State.ackable, hset]
    have hlt := h.accepted_lt hacc
    have hcl := h.closed_eq
    have hbase := base_add_width_le (W := W) h.base_le
    have hnew : s.recvd ≤ State.ackable { s with
        recvd := s.recvd + 1, accepted := false, settling := (s.recvd + 1) % W = 0 ∨ s.recvd + 1 = N } := by
      simp only [State.ackable]
      split_ifs <;> omega
    refine { h with
      base_le_ackable := le_trans (hold ▸ h.base_le_ackable) hnew
      recvd_le := hlt
      accepted_lt := fun hf => Bool.noConfusion hf
      acks_le := fun j hj => le_trans (hold ▸ h.acks_le j hj) hnew
      acked_le := fun ha => le_trans (hold ▸ h.acked_le ha) hnew
      settling_pos := fun _ => Nat.succ_pos _
      settling_iff := fun hd => of_decide_eq_true hd
      closed_of := fun hN hf => absurd (Or.inr hN) (of_decide_eq_false hf)
      closed_eq := fun hc => ?_ }
    have := (hcl hc).1
    omega
  | ack j =>
    simp only [WindowProtocol.step, Option.ite_none_right_eq_some, Option.some.injEq] at hs
    obtain ⟨⟨hset, hlt, hlo, hhi⟩, rfl⟩ := hs
    refine { h with acks_le := fun k hk => ?_ }
    rcases List.mem_append.mp hk with hk | hk
    · exact h.acks_le k hk
    · rw [List.mem_singleton.mp hk]
      simpa [State.ackable, hset] using hhi
  | settle =>
    simp only [WindowProtocol.step, Option.ite_none_right_eq_some, Option.some.injEq] at hs
    obtain ⟨hset, rfl⟩ := hs
    refine { h with
      base_le_ackable := le_trans h.base_le_ackable hack
      acks_le := fun j hj => ?_
      acked_le := fun ha => le_trans (h.acked_le ha) hack
      settling_pos := fun hf => Bool.noConfusion hf
      settling_iff := fun hf => Bool.noConfusion hf
      closed_of := fun hN _ => decide_eq_true hN
      closed_eq := fun hc => ⟨of_decide_eq_true hc, rfl⟩ }
    rcases List.mem_append.mp hj with hj | hj
    · exact le_trans (h.acks_le j hj) hack
    · exact (List.mem_singleton.mp hj).le
  | loseData n =>
    obtain rfl := Option.some.inj hs
    exact { h with data_le := fun i hi => h.data_le i (List.mem_of_mem_eraseIdx hi) }
  | loseAck n =>
    obtain rfl := Option.some.inj hs
    exact { h with acks_le := fun j hj => h.acks_le j (List.mem_of_mem_eraseIdx hj) }

/-- The sender is only done when the receiver is. -/
theorem Inv.closed_of_base (h : Inv N W s) (hb : s.base = N) : s.closed = true ∧ s.recvd = N := by
  have h₁ := h.base_le_ackable
  have h₂ := h.recvd_le
  have h₃ := base_add_width_le (W := W) h.base_le
  have hpos := h.settling_pos
  cases hset : s.settling with
  | false =>
    simp only [State.ackable, hset, Bool.false_eq_true, if_false] at h₁
    exact ⟨h.closed_of (by omega) hset, by omega⟩
  | true =>
    simp only [State.ackable, hset, if_true] at h₁
    have := hpos hset
    omega

/-! ### FIFO channels: how old a message in flight can be -/

/-- Data in flight is in the order of its windows, and once the receiver has stored
a block of the current window nothing older is left; acknowledgements are never
older than the last boundary of one before them. -/
structure Lag (N W : ℕ) (s : State) : Prop where
  data_order : s.data.Pairwise fun i i' => (i - 1) / W ≤ (i' - 1) / W
  data_gt : ∀ i ∈ s.data, s.base < i + W
  data_current : s.base < s.recvd ∨ s.accepted = true → ∀ i ∈ s.data, s.base < i
  acks_order : s.acks.Pairwise fun j j' => boundary W j ≤ j'
  acks_ge : s.base < N → ∀ j ∈ s.acks, s.base ≤ j
  acked_ge : s.acked = true → s.base + width N W s.base < N → ∀ j ∈ s.acks, s.base + width N W s.base ≤ j

theorem Lag.init : Lag N W {} where
  data_order := .nil
  data_gt _ h := absurd h List.not_mem_nil
  data_current _ _ h := absurd h List.not_mem_nil
  acks_order := .nil
  acks_ge _ _ h := absurd h List.not_mem_nil
  acked_ge h := Bool.noConfusion h

/-- A window number at most that of a boundary. -/
theorem pred_div_le (hW : 0 < W) {b i : ℕ} (hb : W ∣ b) (hi : i ≤ b + W) (hpos : 0 < i) : (i - 1) / W ≤ b / W := by
  obtain ⟨q, rfl⟩ := hb
  rw [Nat.mul_div_cancel_left q hW, ← Nat.lt_succ_iff, Nat.div_lt_iff_lt_mul hW, Nat.succ_mul, Nat.mul_comm q W]
  omega

theorem lt_of_pred_div_le {b i : ℕ} (hb : W ∣ b) (hpos : 0 < i) (h : b / W ≤ (i - 1) / W) : b < i := by
  have h₁ := Nat.mul_le_mul_left W h
  rw [Nat.mul_div_cancel' hb] at h₁
  have h₂ := Nat.mul_div_le (i - 1) W
  omega

/-- An acknowledgement at or after the receiver's last boundary keeps the order. -/
theorem Lag.appendAck (hI : Inv N W s) (h : Lag N W s) {j : ℕ} (hj : boundary W s.recvd ≤ j) :
    Lag N W { s with acks := s.acks ++ [j] } := by
  have hack := s.ackable_le
  have hmem : ∀ k ∈ s.acks ++ [j], k ∈ s.acks ∨ k = j := by simp
  refine { h with
    acks_order := List.pairwise_append.mpr ⟨h.acks_order, List.pairwise_singleton _ _, ?_⟩
    acks_ge := fun hb k hk => ?_
    acked_ge := fun ha hend k hk => ?_ }
  · intro k hk j' hj'
    rw [List.mem_singleton.mp hj']
    exact le_trans (Window.boundary_mono W (le_trans (hI.acks_le k hk) hack)) hj
  · rcases hmem k hk with hk | rfl
    · exact h.acks_ge hb k hk
    · exact le_trans (Window.le_boundary_of_dvd (hI.base_dvd hb) (le_trans hI.base_le_ackable hack)) hj
  · rcases hmem k hk with hk | rfl
    · exact h.acked_ge ha hend k hk
    · exact le_trans (Window.le_boundary_of_dvd (hI.dvd_end hend) (le_trans (hI.acked_le ha) hack)) hj

theorem Lag.step (hW : 0 < W) (hI : Inv N W s) (h : Lag N W s) (hs : step .fifo N W s e = some s') :
    Lag N W s' := by
  have hwW : width N W s.base ≤ W := min_le_left _ _
  cases e with
  | send i =>
    simp only [WindowProtocol.step, Option.ite_none_right_eq_some, Option.some.injEq] at hs
    obtain ⟨⟨-, hlo, hhi⟩, rfl⟩ := hs
    have hdvd : W ∣ s.base := hI.base_dvd (by have := base_add_width_le (W := W) hI.base_le; omega)
    have hi : ∀ k ∈ s.data ++ [i], k ∈ s.data ∨ k = i := by simp
    refine { h with
      data_order := List.pairwise_append.mpr ⟨h.data_order, List.pairwise_singleton _ _, ?_⟩
      data_gt := fun k hk => ?_
      data_current := fun hc k hk => ?_ }
    · intro k hk i' hi'
      rw [List.mem_singleton.mp hi']
      have hk' := hI.data_le k hk
      refine le_trans (pred_div_le hW hdvd (by omega) hk'.1) ?_
      exact Nat.div_le_div_right (by omega)
    · rcases hi k hk with hk | rfl
      · exact h.data_gt k hk
      · show s.base < k + W
        omega
    · rcases hi k hk with hk | rfl
      · exact h.data_current hc k hk
      · exact hlo
  | recvAck j =>
    simp only [WindowProtocol.step, Option.ite_none_right_eq_some, Option.map_eq_some_iff] at hs
    obtain ⟨⟨-, hlt⟩, acks, hrecv, rfl⟩ := hs
    have hacks := Channel.receive_fifo.mp hrecv
    have hord := h.acks_order
    rw [hacks, List.pairwise_cons] at hord
    have hmem : ∀ k ∈ acks, k ∈ s.acks := fun k hk => by rw [hacks]; exact List.mem_cons_of_mem _ hk
    refine { h with
      acks_order := hord.2
      acks_ge := fun hb k hk => h.acks_ge hb k (hmem k hk)
      acked_ge := fun hd hend k hk => ?_ }
    have hj : j = s.base + width N W s.base := of_decide_eq_true hd
    have hk := hord.1 k hk
    rwa [hj, Window.boundary_of_dvd (hI.dvd_end hend)] at hk
  | advance =>
    simp only [WindowProtocol.step, Option.ite_none_right_eq_some, Option.some.injEq] at hs
    obtain ⟨hacked, rfl⟩ := hs
    have hle := hI.acked_le hacked
    have hup := hI.recvd_le
    have hack := s.ackable_le
    refine { h with
      data_gt := fun i hi => ?_
      data_current := fun hc => ?_
      acks_ge := fun hb j hj => h.acked_ge hacked hb j hj
      acked_ge := fun hf => Bool.noConfusion hf }
    · show s.base + width N W s.base < i + W
      rcases Nat.eq_zero_or_pos (width N W s.base) with h0 | hpos
      · have := h.data_gt i hi
        omega
      · have := h.data_current (.inl (by omega)) i hi
        omega
    · -- nothing of the next window has been stored yet
      exfalso
      rcases hc with hc | hc
      · change s.base + width N W s.base < s.recvd at hc
        omega
      · have := hI.accepted_lt hc
        omega
  | recvData i =>
    simp only [WindowProtocol.step, Option.ite_none_right_eq_some, Option.map_eq_some_iff] at hs
    obtain ⟨⟨-, hlt⟩, data, hrecv, rfl⟩ := hs
    have hdata := Channel.receive_fifo.mp hrecv
    have hord := h.data_order
    rw [hdata, List.pairwise_cons] at hord
    have hmem : ∀ k ∈ data, k ∈ s.data := fun k hk => by rw [hdata]; exact List.mem_cons_of_mem _ hk
    refine { h with
      data_order := hord.2
      data_gt := fun k hk => h.data_gt k (hmem k hk)
      data_current := fun hc k hk => ?_ }
    by_cases hcur : s.base < s.recvd
    · exact h.data_current (.inl hcur) k (hmem k hk)
    · -- the first block of the window: everything behind it is of this window
      have hi : i = s.recvd + 1 := of_decide_eq_true (hc.resolve_left hcur)
      have hlow := le_trans hI.base_le_ackable s.ackable_le
      have hdvd : W ∣ s.base := hI.base_dvd (by omega)
      have hk' := hord.1 k hk
      rw [hi, Nat.add_sub_cancel, show s.recvd = s.base by omega] at hk'
      exact lt_of_pred_div_le hdvd (hI.data_le k (hmem k hk)).1 hk'
  | store =>
    simp only [WindowProtocol.step, Option.ite_none_right_eq_some, Option.some.injEq] at hs
    obtain ⟨⟨hacc, -⟩, rfl⟩ := hs
    exact { h with data_current := fun _ => h.data_current (.inr hacc) }
  | ack j =>
    simp only [WindowProtocol.step, Option.ite_none_right_eq_some, Option.some.injEq] at hs
    obtain ⟨⟨-, -, hlo, -⟩, rfl⟩ := hs
    exact h.appendAck hI hlo
  | settle =>
    simp only [WindowProtocol.step, Option.ite_none_right_eq_some, Option.some.injEq] at hs
    obtain ⟨-, rfl⟩ := hs
    exact { h.appendAck hI (Window.boundary_le W s.recvd) with }
  | loseData n =>
    obtain rfl := Option.some.inj hs
    have hsub := List.eraseIdx_sublist s.data n
    exact { h with
      data_order := h.data_order.sublist hsub
      data_gt := fun i hi => h.data_gt i (hsub.subset hi)
      data_current := fun hc i hi => h.data_current hc i (hsub.subset hi) }
  | loseAck n =>
    obtain rfl := Option.some.inj hs
    have hsub := List.eraseIdx_sublist s.acks n
    exact { h with
      acks_order := h.acks_order.sublist hsub
      acks_ge := fun hb j hj => h.acks_ge hb j (hsub.subset hj)
      acked_ge := fun ha hb j hj => h.acked_ge ha hb j (hsub.subset hj) }

/-- The receiver never meets data more than a window away from what it expects. -/
theorem Lag.data_near (hI : Inv N W s) (h : Lag N W s) {i : ℕ} (hi : i ∈ s.data) :
    i ≤ s.recvd + 1 + W ∧ s.recvd + 1 ≤ i + W := by
  have hwW : width N W s.base ≤ W := min_le_left _ _
  have hlow := le_trans hI.base_le_ackable s.ackable_le
  have hup := hI.recvd_le
  have hle := (hI.data_le i hi).2
  have hgt := h.data_gt i hi
  by_cases hcur : s.base < s.recvd
  · have := h.data_current (.inl hcur) i hi
    omega
  · omega

/-- The sender never meets an acknowledgement of a block outside its window but the
one before it. -/
theorem Lag.acks_near (hI : Inv N W s) (h : Lag N W s) (hb : s.base < N) {j : ℕ} (hj : j ∈ s.acks) :
    s.base ≤ j ∧ j ≤ s.base + W := by
  have hwW : width N W s.base ≤ W := min_le_left _ _
  have hle := le_trans (hI.acks_le j hj) (le_trans s.ackable_le hI.recvd_le)
  exact ⟨h.acks_ge hb j hj, by omega⟩

/-! ### Runs -/

theorem Inv.of_reaches {P : Event → Prop} (hN : 0 < N) (h : Reaches (WindowProtocol.step d N W) P {} s) :
    Inv N W s :=
  h.invariant (Inv N W) (fun _ _ _ hI _ hs => hI.step hs) (.init hN)

theorem Lag.of_reaches {P : Event → Prop} (hN : 0 < N) (hW : 0 < W)
    (h : Reaches (WindowProtocol.step .fifo N W) P {} s) : Lag N W s :=
  (h.invariant (fun s => Inv N W s ∧ Lag N W s)
    (fun _ _ _ hI _ hs => ⟨hI.1.step hs, hI.2.step hW hI.1 hs⟩) ⟨.init hN, .init⟩).2

end TftpHpa.WindowProtocol
