import TftpHpa.Lib.BinarySearch

/-! Sets of file descriptors to wait for (`common/pollset.c`). With `poll` such a set is an
array that is kept in order and grows, with `select` it is a bitmap. A file descriptor is an
`int`. Nothing stands for an access outside the array or the bitmap. -/

namespace TftpHpa

/-! ### The set for `poll` -/

structure Pollfd where
  fd : ℤ
  events : BitVec 16
  revents : BitVec 16

/-- An entry whose bytes are all set. -/
def Pollfd.unused : Pollfd := ⟨-1, -1, -1⟩

/-- `struct pollset`; `fds` is what has been allocated. -/
structure Pollset where
  nfds : ℕ
  size : ℕ
  fds : List Pollfd

/-- The `n` elements from `src` on are copied to `dst`. -/
def memmove {α : Type*} (a : List α) (dst src n : ℕ) : Option (List α) :=
  if max dst src + n ≤ a.length then some (a.take dst ++ (a.drop src).take n ++ a.drop (dst + n)) else none

namespace Pollset

/-- `pollset_new`. -/
def new : Pollset := ⟨0, 8, List.replicate 8 .unused⟩

/-- `pollset_find`. -/
def find (set : Pollset) (fd : ℤ) : Option (Bool × ℕ) := BinarySearch.find (set.fds.map Pollfd.fd) fd 0 set.nfds

/-- The array is made twice as large when it is full. -/
def grow (set : Pollset) : Pollset :=
  if set.size ≤ set.nfds then
    let newsize := set.size <<< 1
    { set with size := newsize, fds := set.fds ++ List.replicate (newsize - set.size) .unused }
  else set

/-- The entries from `i` on are moved up and the one at `i` gets the file descriptor. -/
def insertAt (set : Pollset) (fd : ℤ) (i : ℕ) : Option Pollset := do
  let fds ← (if i < set.nfds then memmove set.fds (i + 1) i (set.nfds - i) else some set.fds)
  let e ← fds[i]?
  some { set with nfds := set.nfds + 1, fds := fds.set i { e with fd } }

/-- `pollset_add`, where no set stands for `NULL`. -/
def add (set : Option Pollset) (fd : ℤ) : Option Pollset :=
  let set := set.getD new
  if fd < 0 then some set
  else do
    let (found, i) ← set.find fd
    if found then some set else set.grow.insertAt fd i

/-- `pollset_next`: the file descriptor, the cursor and what has happened to it. -/
def next (set : Pollset) (cursor : ℕ) (whatp : Option (BitVec 32)) : Option (ℤ × ℕ × Option (BitVec 32)) :=
  if cursor < set.nfds then
    match set.fds[cursor]? with
    | none => none
    | some e =>
      match whatp with
      | none => some (e.fd, cursor + 1, none)
      | some what =>
        let whatflags := what &&& e.revents.signExtend 32
        if whatflags ≠ 0 then some (e.fd, cursor + 1, some whatflags) else set.next (cursor + 1) whatp
  else some (-1, set.nfds, whatp)
termination_by set.nfds - cursor

/-- `pollset_has`. -/
def has (set : Pollset) (fd : ℤ) : Option Bool := (set.find fd).map Prod.fst

/-- Calls of `pollset_add` one after the other. -/
def addAll (set : Pollset) (added : List ℤ) : Option Pollset := added.foldlM (fun set fd => add (some set) fd) set

end Pollset

/-! ### The set for `select` -/

def FD_SETSIZE : ℕ := 1024
def POLLSET_FDSETS : ℕ := 3

/-- `fd_set`, by the numbers whose bit is set. -/
abbrev FdSet := ℕ → Bool

/-- `FD_ISSET`. -/
def fdIsset (fd : ℤ) (s : FdSet) : Option Bool := if 0 ≤ fd ∧ fd < FD_SETSIZE then some (s fd.toNat) else none

/-- `FD_SET`. -/
def fdSet (fd : ℤ) (s : FdSet) : Option FdSet :=
  if 0 ≤ fd ∧ fd < FD_SETSIZE then some (Function.update s fd.toNat true) else none

/-- `struct pollset` where there is no `poll`. -/
structure Selectset where
  nfds : ℤ
  fdset : FdSet
  rfdset : List FdSet

namespace Selectset

/-- `pollset_new`. -/
def new : Selectset := ⟨0, fun _ => false, List.replicate POLLSET_FDSETS fun _ => false⟩

/-- `pollset_add`; the file descriptor is compared as an unsigned number. -/
def add (set : Option Selectset) (fd : ℤ) : Option Selectset :=
  let set := set.getD new
  if FD_SETSIZE ≤ fd % 2 ^ 32 then some set
  else do
    let fdset ← fdSet fd set.fdset
    some { set with nfds := if set.nfds ≤ fd then fd + 1 else set.nfds, fdset }

/-- `fd_what`. -/
def fdWhat (set : Selectset) (fd : ℤ) : Option (BitVec 32) :=
  if set.nfds ≤ fd then some 0
  else (List.range POLLSET_FDSETS).foldlM (fun what i => do
    let rfdset ← set.rfdset[i]?
    let isset ← fdIsset fd rfdset
    some (if isset then what ||| 1 <<< i else what)) 0

/-- `pollset_next`. -/
def next (set : Selectset) (cursor : ℤ) (whatp : Option (BitVec 32)) : Option (ℤ × ℤ × Option (BitVec 32)) :=
  if cursor < set.nfds then
    match fdIsset cursor set.fdset with
    | none => none
    | some false => set.next (cursor + 1) whatp
    | some true =>
      match whatp with
      | none => some (cursor, cursor + 1, none)
      | some what =>
        match set.fdWhat cursor with
        | none => none
        | some happened =>
          let whatflags := what &&& happened
          if whatflags ≠ 0 then some (cursor, cursor + 1, some whatflags) else set.next (cursor + 1) whatp
  else some (-1, set.nfds, whatp)
termination_by (set.nfds - cursor).toNat

/-- `pollset_has`. -/
def has (set : Selectset) (fd : ℤ) : Option Bool := fdIsset fd set.fdset

/-- Calls of `pollset_add` one after the other. -/
def addAll (set : Selectset) (added : List ℤ) : Option Selectset :=
  added.foldlM (fun set fd => add (some set) fd) set

end Selectset

/-! ### Going through a set -/

section Yields

variable {σ ω : Type*} (next : σ → Option (ℤ × σ × ω))

/-- From a cursor on the calls return these file descriptors and then -1. -/
inductive Yields : σ → List ℤ → Prop where
  | done {cursor after : σ} {w : ω} : next cursor = some (-1, after, w) → Yields cursor []
  | more {cursor after : σ} {w : ω} {fd : ℤ} {fds : List ℤ} :
      next cursor = some (fd, after, w) → 0 ≤ fd → Yields after fds → Yields cursor (fd :: fds)

variable {next}

theorem Yields.of_next_eq {cursor cursor' : σ} {fds : List ℤ} (hnext : next cursor = next cursor')
    (h : Yields next cursor' fds) : Yields next cursor fds := by
  cases h with
  | done h => exact .done (hnext.trans h)
  | more h hfd hrest => exact .more (hnext.trans h) hfd hrest

end Yields

/-- One more call before the others, of which those with `Q` have an effect. -/
theorem added_cons {P Q : ℤ → Prop} {x fd : ℤ} {added : List ℤ} :
    ((P x ∨ Q fd ∧ x = fd) ∨ Q x ∧ x ∈ added) ↔ P x ∨ Q x ∧ x ∈ fd :: added := by
  rw [List.mem_cons, or_assoc]
  refine or_congr_right ⟨?_, ?_⟩
  · rintro (⟨hfd, rfl⟩ | ⟨hx, hmem⟩)
    · exact ⟨hfd, Or.inl rfl⟩
    · exact ⟨hx, Or.inr hmem⟩
  · rintro ⟨hx, rfl | hmem⟩
    · exact Or.inl ⟨hx, rfl⟩
    · exact Or.inr ⟨hx, hmem⟩

/-! ### The array is in order -/

namespace Pollset

/-- The file descriptors in use. -/
def members (set : Pollset) : List ℤ := (set.fds.take set.nfds).map Pollfd.fd

/-- What every call of `pollset_add` keeps. -/
structure Ordered (set : Pollset) : Prop where
  size_pos : 0 < set.size
  length : set.fds.length = set.size
  nfds_le : set.nfds ≤ set.size
  sorted : set.members.Pairwise (· < ·)
  nonneg : ∀ fd ∈ set.members, 0 ≤ fd

variable {set : Pollset} {fd : ℤ} {i : ℕ}

theorem members_eq (set : Pollset) : set.members = (set.fds.map Pollfd.fd).take set.nfds := List.map_take

theorem new_ordered : Ordered new where
  size_pos := by decide
  length := rfl
  nfds_le := by decide
  sorted := List.Pairwise.nil
  nonneg := by simp [members, new]

theorem Ordered.length_members (h : Ordered set) : set.members.length = set.nfds := by
  rw [members, List.length_map, List.length_take_of_le (h.length ▸ h.nfds_le)]

/-- The binary search never leaves the array and is right. -/
theorem Ordered.find_located (h : Ordered set) (fd : ℤ) :
    ∃ r, set.find fd = some r ∧ BinarySearch.Located set.members fd r := by
  rw [members_eq]
  refine BinarySearch.find_zero_located ?_ (members_eq set ▸ h.sorted) fd
  rw [List.length_map, h.length]
  exact h.nfds_le

theorem Ordered.has_eq (h : Ordered set) (fd : ℤ) : set.has fd = some (decide (fd ∈ set.members)) := by
  obtain ⟨r, hr, hlocated⟩ := h.find_located fd
  rw [has, hr, Option.map_some, Option.some_inj, Bool.eq_iff_iff, decide_eq_true_iff, hlocated.found_iff]

/-- Growing leaves the members and makes room for one more. -/
theorem Ordered.grow (h : Ordered set) :
    set.grow.members = set.members ∧ set.grow.nfds = set.nfds ∧ set.nfds < set.grow.size ∧
      set.grow.fds.length = set.grow.size := by
  obtain ⟨hpos, hlen, hle, -, -⟩ := h
  unfold Pollset.grow
  split_ifs with hfull
  · refine ⟨?_, rfl, ?_, ?_⟩
    · simp only [members]
      rw [List.take_append_of_le_length (hlen ▸ hle)]
    · simp only [Nat.shiftLeft_eq]
      omega
    · simp only [List.length_append, List.length_replicate, hlen, Nat.shiftLeft_eq]
      omega
  · exact ⟨rfl, rfl, not_le.mp hfull, hlen⟩

/-- With nothing to move, moving changes nothing either: one equation for both cases. -/
theorem moved_eq (hi : i ≤ set.nfds) (hlen : set.nfds < set.fds.length) :
    (if i < set.nfds then memmove set.fds (i + 1) i (set.nfds - i) else some set.fds) =
      some (set.fds.take (i + 1) ++ ((set.fds.take set.nfds).drop i ++ set.fds.drop (set.nfds + 1))) := by
  rw [List.drop_take]
  split_ifs with h
  · rw [memmove, if_pos (by omega), List.append_assoc, show i + 1 + (set.nfds - i) = set.nfds + 1 by omega]
  · obtain rfl : i = set.nfds := by omega
    rw [Nat.sub_self, List.take_zero, List.nil_append, List.take_append_drop]

/-- The new member stands between those before `i` and those from `i` on. -/
theorem insertAt_members (fd : ℤ) (hi : i ≤ set.nfds) (hlen : set.nfds < set.fds.length) :
    ∃ set', set.insertAt fd i = some set' ∧ set'.nfds = set.nfds + 1 ∧ set'.size = set.size ∧
      set'.fds.length = set.fds.length ∧ set'.members = set.members.take i ++ fd :: set.members.drop i := by
  have hi' : i < set.fds.length := by omega
  have htake : set.fds.take (i + 1) = set.fds.take i ++ [set.fds[i]] := List.take_succ_eq_append_getElem hi'
  have hfront : (set.fds.take i).length = i := List.length_take_of_le hi'.le
  rw [insertAt, moved_eq hi hlen, htake, List.append_assoc]
  simp only [Option.bind_eq_bind, Option.bind_some, List.singleton_append]
  rw [List.getElem?_append_right hfront.le, hfront, Nat.sub_self, List.getElem?_cons_zero, Option.bind_some,
    List.set_append_right _ _ hfront.le, hfront, Nat.sub_self, List.set_cons_zero]
  refine ⟨_, rfl, rfl, rfl, ?_, ?_⟩
  · simp only [List.length_append, List.length_cons, List.length_drop, List.length_take]
    omega
  · have hin : (set.fds.take i ++ (⟨fd, set.fds[i].events, set.fds[i].revents⟩ : Pollfd) ::
        (set.fds.take set.nfds).drop i).length = set.nfds + 1 := by
      simp only [List.length_append, List.length_cons, List.length_drop, List.length_take]
      omega
    simp only [members]
    rw [← List.cons_append, ← List.append_assoc, List.take_left' hin, List.map_append, List.map_cons, ← List.map_take,
      List.take_take, Nat.min_eq_left hi, ← List.map_drop]

/-- One call of `pollset_add`. -/
theorem Ordered.add (h : Ordered set) (fd : ℤ) :
    ∃ set', Pollset.add (some set) fd = some set' ∧ Ordered set' ∧
      ∀ x, x ∈ set'.members ↔ x ∈ set.members ∨ 0 ≤ fd ∧ x = fd := by
  obtain ⟨⟨found, i⟩, hfind, hlocated⟩ := h.find_located fd
  rw [Pollset.add]
  simp only [Option.getD_some]
  by_cases hneg : fd < 0
  · rw [if_pos hneg]
    exact ⟨set, rfl, h, fun x => by simp [not_le.mpr hneg]⟩
  rw [if_neg hneg, hfind]
  have hfd : 0 ≤ fd := not_lt.mp hneg
  cases found with
  | true =>
    refine ⟨set, rfl, h, fun x => ⟨Or.inl, ?_⟩⟩
    rintro (hx | ⟨-, rfl⟩)
    · exact hx
    · exact hlocated.found rfl
  | false =>
    obtain ⟨hmembers, hnfds, hroom, hlen⟩ := h.grow
    have hi : i ≤ set.nfds := h.length_members ▸ hlocated.le
    obtain ⟨set', hset', hnfds', hsize', hlen', hmembers'⟩ :=
      insertAt_members fd (hnfds ▸ hi) (by omega : set.grow.nfds < set.grow.fds.length)
    rw [hmembers] at hmembers'
    have hmem : ∀ x, x ∈ set'.members ↔ x ∈ set.members ∨ 0 ≤ fd ∧ x = fd := by
      intro x
      rw [hmembers', List.mem_append, List.mem_cons, or_left_comm, ← List.mem_append, List.take_append_drop, or_comm,
        and_iff_right hfd]
    refine ⟨set', hset', ⟨by omega, by omega, by omega, ?_, ?_⟩, hmem⟩
    · exact hmembers' ▸ hlocated.pairwise_insert rfl h.sorted
    · intro x hx
      rcases (hmem x).mp hx with hx | ⟨-, rfl⟩
      · exact h.nonneg x hx
      · exact hfd

/-- Any number of calls. -/
theorem Ordered.addAll (h : Ordered set) (added : List ℤ) :
    ∃ set', Pollset.addAll set added = some set' ∧ Ordered set' ∧
      ∀ x, x ∈ set'.members ↔ x ∈ set.members ∨ 0 ≤ x ∧ x ∈ added := by
  induction added generalizing set with
  | nil => exact ⟨set, rfl, h, by simp⟩
  | cons fd added ih =>
    obtain ⟨set₁, hadd, h₁, hmem₁⟩ := h.add fd
    obtain ⟨set', hset', h', hmem'⟩ := ih h₁
    refine ⟨set', ?_, h', fun x => ?_⟩
    · rw [Pollset.addAll, List.foldlM_cons, hadd]
      exact hset'
    · rw [hmem', hmem₁]
      exact added_cons (P := (· ∈ set.members)) (Q := (0 ≤ ·))

/-- The cursor is the number of members that have been returned. -/
theorem Ordered.yields (h : Ordered set) {cursor : ℕ} (hcursor : cursor ≤ set.nfds) :
    Yields (fun cursor => set.next cursor none) cursor (set.members.drop cursor) := by
  induction hk : set.nfds - cursor generalizing cursor with
  | zero =>
    obtain rfl : cursor = set.nfds := by omega
    rw [List.drop_eq_nil_of_le h.length_members.le]
    exact .done (by rw [next, if_neg (lt_irrefl _)])
  | succ k ih =>
    have hlt : cursor < set.members.length := by rw [h.length_members]; omega
    have hread : cursor < set.fds.length := by rw [h.length]; have := h.nfds_le; omega
    have hmember : set.members[cursor] = set.fds[cursor].fd := by simp [members]
    rw [List.drop_eq_getElem_cons hlt]
    refine .more (w := none) ?_ (h.nonneg _ (List.getElem_mem hlt)) (ih (by omega) (by omega))
    rw [next, if_pos (h.length_members ▸ hlt), List.getElem?_eq_getElem hread, hmember]

end Pollset

/-! ### The bitmap has the same members -/

namespace Selectset

/-- The bitmap has the bits of these file descriptors and no other, and the count is not too
small for them. -/
structure Bits (set : Selectset) (P : ℤ → Prop) : Prop where
  nfds_nonneg : 0 ≤ set.nfds
  nfds_le : set.nfds ≤ FD_SETSIZE
  bit : ∀ fd : ℕ, set.fdset fd = true ↔ P fd
  lt : ∀ fd, P fd → 0 ≤ fd ∧ fd < set.nfds

variable {set : Selectset} {P Q : ℤ → Prop} {fd : ℤ}

theorem new_bits : Bits new fun _ => False where
  nfds_nonneg := le_rfl
  nfds_le := by decide
  bit := by simp [new]
  lt := by simp

theorem Bits.fdIsset_eq (h : Bits set P) (h0 : 0 ≤ fd) (hlt : fd < FD_SETSIZE) :
    ∃ b, fdIsset fd set.fdset = some b ∧ (b = true ↔ P fd) := by
  refine ⟨_, if_pos ⟨h0, hlt⟩, ?_⟩
  rw [h.bit, Int.toNat_of_nonneg h0]

/-- One call of `pollset_add`. -/
theorem Bits.add (h : Bits set P) (hint : -2 ^ 31 ≤ fd ∧ fd < 2 ^ 31) :
    ∃ set', Selectset.add (some set) fd = some set' ∧
      Bits set' fun x => P x ∨ (0 ≤ fd ∧ fd < FD_SETSIZE) ∧ x = fd := by
  obtain ⟨hnonneg, hle, hbit, hlt⟩ := h
  have hsize : FD_SETSIZE = 1024 := rfl
  rw [Selectset.add]
  simp only [Option.getD_some]
  by_cases hout : FD_SETSIZE ≤ fd % 2 ^ 32
  · have hnot : ¬(0 ≤ fd ∧ fd < FD_SETSIZE) := by omega
    rw [if_pos hout]
    exact ⟨set, rfl, by simpa [hnot] using ⟨hnonneg, hle, hbit, hlt⟩⟩
  have hin : 0 ≤ fd ∧ fd < FD_SETSIZE := by omega
  rw [if_neg hout, fdSet, if_pos hin]
  refine ⟨_, rfl, ?_, ?_, fun x => ?_, ?_⟩
  · dsimp only
    split_ifs <;> omega
  · dsimp only
    split_ifs <;> omega
  · -- The new bit is the only one that has changed.
    by_cases hx : x = fd.toNat
    · have : (x : ℤ) = fd := by omega
      simp [hx, hin]
    · have : (x : ℤ) ≠ fd := by omega
      dsimp only
      rw [Function.update_of_ne hx, hbit]
      simp [this]
  · rintro x (hx | ⟨-, rfl⟩)
    · have := hlt x hx
      dsimp only
      split_ifs <;> omega
    · dsimp only
      split_ifs <;> omega

/-- Any number of calls. -/
theorem Bits.addAll (h : Bits set P) {added : List ℤ} (hint : ∀ fd ∈ added, -2 ^ 31 ≤ fd ∧ fd < 2 ^ 31) :
    ∃ set', Selectset.addAll set added = some set' ∧
      Bits set' fun x => P x ∨ (0 ≤ x ∧ x < FD_SETSIZE) ∧ x ∈ added := by
  induction added generalizing set P with
  | nil => exact ⟨set, rfl, by simpa using h⟩
  | cons fd added ih =>
    obtain ⟨set₁, hadd, h₁⟩ := h.add (hint fd List.mem_cons_self)
    obtain ⟨set', hset', h'⟩ := ih h₁ fun x hx => hint x (List.mem_cons_of_mem fd hx)
    refine ⟨set', ?_, ?_⟩
    · rw [Selectset.addAll, List.foldlM_cons, hadd]
      exact hset'
    · convert h' using 2 with x
      exact (added_cons (P := P) (Q := fun fd => 0 ≤ fd ∧ fd < FD_SETSIZE)).symm

/-- A sorted list of what the bitmap has from the cursor on is what the loop goes through. -/
theorem Bits.yields (h : Bits set P) {cursor : ℤ} (h0 : 0 ≤ cursor) {fds : List ℤ} (hsorted : fds.Pairwise (· < ·))
    (hfds : ∀ x, x ∈ fds ↔ P x ∧ cursor ≤ x) : Yields (fun cursor => set.next cursor none) cursor fds := by
  induction hk : (set.nfds - cursor).toNat generalizing cursor fds with
  | zero =>
    have hend : ¬cursor < set.nfds := by omega
    have hnil : fds = [] := by
      refine List.eq_nil_iff_forall_not_mem.mpr fun x hx => ?_
      have := h.lt x ((hfds x).mp hx).1
      have := ((hfds x).mp hx).2
      omega
    rw [hnil]
    exact .done (by rw [next, if_neg hend])
  | succ k ih =>
    have hlt : cursor < set.nfds := by omega
    obtain ⟨b, hb, hbit⟩ := h.fdIsset_eq h0 (hlt.trans_le h.nfds_le)
    cases b with
    | true =>
      have hcursor : cursor ∈ fds := (hfds cursor).mpr ⟨hbit.mp rfl, le_rfl⟩
      obtain ⟨y, ys, rfl⟩ := List.exists_cons_of_ne_nil (List.ne_nil_of_mem hcursor)
      obtain ⟨hhead, htail⟩ := List.pairwise_cons.mp hsorted
      -- The least of them is the cursor itself.
      obtain rfl : cursor = y := by
        rcases List.mem_cons.mp hcursor with hy | hy
        · exact hy
        · exact absurd (hhead cursor hy) (not_lt.mpr ((hfds y).mp List.mem_cons_self).2)
      have hnext : set.next cursor none = some (cursor, cursor + 1, none) := by rw [next, if_pos hlt, hb]
      refine .more hnext h0 (ih (by omega) htail (fun x => ?_) (by omega))
      constructor
      · intro hx
        exact ⟨((hfds x).mp (List.mem_cons_of_mem _ hx)).1, hhead x hx⟩
      · rintro ⟨hx, hle⟩
        exact (List.mem_cons.mp ((hfds x).mpr ⟨hx, by omega⟩)).resolve_left (by omega)
    | false =>
      have hnext : set.next cursor none = set.next (cursor + 1) none := by rw [next, if_pos hlt, hb]
      refine Yields.of_next_eq hnext (ih (by omega) hsorted (fun x => ?_) (by omega))
      rw [hfds]
      refine and_congr_right fun hx => ⟨fun hle => ?_, fun hle => by omega⟩
      have hne : cursor ≠ x := by
        rintro rfl
        exact absurd (hbit.mpr hx) (by decide)
      omega

end Selectset

/-! ### Both are the same ordered set -/

/-- After any calls of `pollset_add` the array has its members in order and within what has been
allocated, `pollset_has` finds them and `pollset_next` goes through them. The bitmap has those
that `select` allows, and `pollset_next` goes through these in the same order. -/
theorem pollset_ordered (added : List ℤ) (hint : ∀ fd ∈ added, -2 ^ 31 ≤ fd ∧ fd < 2 ^ 31) :
    ∃ set, Pollset.addAll .new added = some set ∧
      set.fds.length = set.size ∧ set.nfds ≤ set.size ∧
      set.members.Pairwise (· < ·) ∧ (∀ fd, fd ∈ set.members ↔ 0 ≤ fd ∧ fd ∈ added) ∧
      (∀ fd, set.has fd = some (decide (fd ∈ set.members))) ∧
      Yields (fun cursor => set.next cursor none) 0 set.members ∧
      ∃ sel, Selectset.addAll .new added = some sel ∧
        (∀ fd : ℤ, 0 ≤ fd → fd < FD_SETSIZE → sel.has fd = some (decide (fd ∈ set.members))) ∧
        Yields (fun cursor => sel.next cursor none) 0 (set.members.filter (· < (FD_SETSIZE : ℤ))) := by
  obtain ⟨set, hset, hordered, hmem⟩ := Pollset.new_ordered.addAll added
  obtain ⟨sel, hsel, hbits⟩ := Selectset.new_bits.addAll hint
  have hmembers : ∀ fd, fd ∈ set.members ↔ 0 ≤ fd ∧ fd ∈ added := by
    intro fd
    rw [hmem, Pollset.members, Pollset.new, List.take_zero, List.map_nil, List.mem_nil_iff, false_or]
  refine ⟨set, hset, hordered.length, hordered.nfds_le, hordered.sorted, hmembers, hordered.has_eq,
    hordered.yields (Nat.zero_le _), sel, hsel, fun fd h0 hlt => ?_, ?_⟩
  · obtain ⟨b, hb, hbit⟩ := hbits.fdIsset_eq h0 hlt
    rw [Selectset.has, hb, Option.some_inj, Bool.eq_iff_iff, hbit, decide_eq_true_iff, hmembers]
    simp [h0, hlt]
  · refine hbits.yields le_rfl (hordered.sorted.filter _) fun x => ?_
    rw [List.mem_filter, hmembers, decide_eq_true_iff]
    tauto

/-- A file descriptor that is given twice and one that is none at all. -/
theorem pollset_ordered_four :
    ∃ set, Pollset.addAll .new [7, 3, -1, 7] = some set ∧ set.has 3 = some true ∧ set.has (-1) = some false := by
  obtain ⟨set, hset, -, -, -, hmembers, hhas, -⟩ := pollset_ordered [7, 3, -1, 7] (by decide)
  exact ⟨set, hset, by rw [hhas]; simp [hmembers], by rw [hhas]; simp [hmembers]⟩

end TftpHpa
