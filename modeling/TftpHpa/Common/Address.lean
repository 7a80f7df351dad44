import TftpHpa.Common.Options

/-! Addresses and how they are written (`common/address.c` and part of `common/tftpsubs.c`). -/

namespace TftpHpa

def colon : UInt8 := 58

/-- What stands before the first such character and what follows it. -/
def strchr (c : UInt8) : Bytes → Option (Bytes × Bytes)
  | [] => none
  | b :: s => if b = c then some ([], s) else (strchr c s).map fun p => (b :: p.1, p.2)

/-! ### Socket addresses -/

/-- `union sock_addr`. -/
inductive SockAddr where
  | inet (addr : BitVec 32) (port : UInt16)
  | inet6 (addr : BitVec 128) (port : UInt16)
  | other (family : ℕ)
  deriving DecidableEq

namespace SockAddr

def family : SockAddr → AddressFamily
  | inet _ _ => .inet
  | inet6 _ _ => .inet6
  | other _ => .other

end SockAddr

/-- `net_address`; `ntop` and `ntop6` are `inet_ntop`. -/
def netAddress (ntop : BitVec 32 → Bytes) (ntop6 : BitVec 128 → Bytes) : SockAddr → Bytes
  | .inet addr port => ntop addr ++ colon :: Decimal.numeral port.toNat
  | .inet6 addr port => 91 :: ntop6 addr ++ 93 :: colon :: Decimal.numeral port.toNat
  | .other family => cstr "[unknown family " ++ Decimal.numeral family ++ [93]

/-! ### Numeric IPv6 addresses -/

/-- The characters that `is_numeric_ipv6` goes past, as it counts colons and dots, and whether it
stops at a bracket. -/
def ipv6Scan : Bytes → ℕ → ℕ → Option (ℕ × ℕ × Bool)
  | [], colons, dots => some (colons, dots, false)
  | c :: p, colons, dots =>
    if c = 93 then some (colons, dots, true)
    else if c = colon then ipv6Scan p (colons + 1) dots
    else if c = 46 then ipv6Scan p colons (dots + 1)
    else if 48 ≤ c ∧ c ≤ 57 ∨ 65 ≤ c ∧ c ≤ 70 ∨ 97 ≤ c ∧ c ≤ 102 then ipv6Scan p colons dots
    else none

/-- `is_numeric_ipv6`. -/
def isNumericIpv6 (p : Bytes) : Bool :=
  let bracket : Bool := p.head? = some 91
  match ipv6Scan (if bracket then p.tail else p) 0 0 with
  | none => false
  | some (colons, dots, closed) =>
    if colons < 2 ∨ 7 < colons then false
    else if dots ≠ 0 ∧ (dots ≠ 3 ∨ 6 < colons) then false
    else bracket == closed

/-- `strip_address`. -/
def stripAddress (addr : Bytes) : Bytes :=
  if isNumericIpv6 addr ∧ addr.head? = some 91 ∧ addr.getLast? = some 93 then addr.tail.dropLast else addr

/-! ### What stands in a name -/

variable {c : UInt8} {s t rest : Bytes}

theorem strchr_eq_none_iff : strchr c s = none ↔ c ∉ s := by
  induction s with
  | nil => simp [strchr]
  | cons b s ih =>
    rw [strchr]
    split_ifs with hb
    · simp [hb]
    · rw [Option.map_eq_none_iff, ih, List.mem_cons, not_or]
      exact ⟨fun h => ⟨Ne.symm hb, h⟩, And.right⟩

theorem strchr_append (ht : c ∉ t) (rest : Bytes) : strchr c (t ++ c :: rest) = some (t, rest) := by
  induction t with
  | nil => simp [strchr]
  | cons b t ih =>
    rw [List.mem_cons, not_or] at ht
    rw [List.cons_append, strchr, if_neg (Ne.symm ht.1), ih ht.2]
    rfl

theorem strchr_eq_some (h : strchr c s = some (t, rest)) : c ∉ t ∧ s = t ++ c :: rest := by
  induction s generalizing t with
  | nil => cases h
  | cons b s ih =>
    rw [strchr] at h
    split_ifs at h with hb
    · cases h
      exact ⟨List.not_mem_nil, by rw [hb]; rfl⟩
    · obtain ⟨p, hp, he⟩ := Option.map_eq_some_iff.mp h
      cases he
      obtain ⟨hc, rfl⟩ := ih hp
      exact ⟨by simp [hc, Ne.symm hb], rfl⟩

theorem ipv6Scan_colons (hs : colon ∉ s) {colons dots colons' dots' : ℕ} {closed : Bool}
    (h : ipv6Scan s colons dots = some (colons', dots', closed)) : colons' = colons := by
  induction s generalizing dots with
  | nil =>
    cases h
    rfl
  | cons b s ih =>
    rw [List.mem_cons, not_or] at hs
    rw [ipv6Scan, if_neg (Ne.symm hs.1)] at h
    split_ifs at h
    · cases h
      rfl
    all_goals exact ih hs.2 h

/-- What has no colon is not an IPv6 address. -/
theorem stripAddress_of_notMem (hs : colon ∉ s) : stripAddress s = s := by
  have htail : colon ∉ if (s.head? = some 91 : Bool) then s.tail else s := by
    split_ifs
    · exact fun h => hs (List.mem_of_mem_tail h)
    · exact hs
  have hnum : isNumericIpv6 s = false := by
    rw [isNumericIpv6]
    split
    · rfl
    · next colons dots closed hscan => rw [ipv6Scan_colons htail hscan, if_pos (by simp)]
  rw [stripAddress, if_neg (by simp [hnum])]

end TftpHpa
