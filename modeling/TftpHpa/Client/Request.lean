import TftpHpa.Daemon.Options

/-! The client's side of the option negotiation (`makerequest` and `parse_oack` in
`tftp/tftp.c`): the request with what it asks for, and the check of what the server
grants. -/

namespace TftpHpa

/-- `struct optreq`; a set of options stands for the bitmap. -/
structure Optreq where
  options : ProtocolOption → Bool
  window : ℕ
  blksize : ℕ
  tsize : ℤ

/-- `optreq_init`: what holds without options. -/
def optreqInit : Optreq where
  options _ := false
  window := 1
  blksize := SEGSIZE
  tsize := -1

/-! ### The request -/

/-- An option with a number as its value, each with its NUL. -/
def optionText (p : ProtocolOption × ℕ) : Bytes := p.1.name ++ 0 :: (Decimal.numeral p.2 ++ [0])

/-- What the client wants of an option; negative sizes are not sent. -/
def Optreq.wants (optreq : Optreq) : List (ProtocolOption × ℕ) :=
  (if optreq.blksize ≠ SEGSIZE then [(.blksize, optreq.blksize)] else []) ++
    (if 1 < optreq.window then [(.windowsize, optreq.window)] else []) ++
    (if 0 ≤ optreq.tsize then [(.tsize, optreq.tsize.toNat)] else [])

/-- The options of a request: what is remembered of them, and what is sent. -/
def setOptions (noOptions : Bool) (x : CommonOptions) (peer : Socket) (optreq : Optreq) :
    Optreq × List (ProtocolOption × ℕ) :=
  if noOptions then (optreqInit, [])
  else
    let optreq := { optreq with blksize := tftpMaxBlksize x peer, window := x.maxWindowsize }
    let sent := optreq.wants
    ({ optreq with
        options := fun o => o ∈ sent.map Prod.fst
        window := if 1 < optreq.window then optreq.window else 1 }, sent)

/-- `makerequest`, which fails if the request does not fit a packet. -/
def makerequest (noOptions : Bool) (x : CommonOptions) (peer : Socket) (optreq : Optreq) (request : UInt16)
    (name mode : Bytes) : Option (Packet × Optreq) :=
  let (optreq, sent) := setOptions noOptions x peer optreq
  let optionbuf := sent.flatMap optionText
  if MAX_SEGSIZE < name.length + 1 + (mode.length + 1) + optionbuf.length then none
  else some (htons request ++ (name ++ 0 :: (mode ++ 0 :: optionbuf)), optreq)

/-! ### The answer -/

/-- The conversion of a `uintmax_t` to `off_t`. -/
def offOfUintmax (v : ℕ) : ℤ := if v ≤ OFF_T_MAX then v else v - 2 ^ 64

/-- One option of the OACK; it has to be one that was asked for and not answered yet.
A `tsize` makes the client forget which options have come before it. -/
def ackOption (optreq optack : Optreq) (option : Bytes) (value : ℕ) : Option Optreq :=
  let badopts := fun o => optack.options o || !optreq.options o
  if asciiStrcaseeq option (cstr "blksize") then
    if badopts .blksize ∨ value < MIN_SEGSIZE ∨ optreq.blksize < value then none
    else some { optack with blksize := value, options := Function.update optack.options .blksize true }
  else if asciiStrcaseeq option (cstr "windowsize") then
    if badopts .windowsize ∨ value < 1 ∨ optreq.window < value then none
    else some { optack with window := value, options := Function.update optack.options .windowsize true }
  else if asciiStrcaseeq option (cstr "tsize") then
    if badopts .tsize then none
    else some { optack with tsize := offOfUintmax value, options := fun o => o = .tsize }
  else none

/-- The loop of `parse_oack`. -/
def parseOackOptions (optreq optack : Optreq) (cp : Bytes) : Option Optreq :=
  if cp = [] then some optack
  else match _ : memchrNul cp with
    | none => none
    | some (option, val) =>
      if option = [] ∨ val = [] then none
      else match _ : memchrNul val with
        | none => none
        | some (value, rest) =>
          let v := strtoumax value
          if value = [] ∨ v.erange ∨ v.rest ≠ [] then none
          else match ackOption optreq optack option v.value with
            | none => none
            | some optack => parseOackOptions optreq optack rest
termination_by cp.length
decreasing_by exact (memchrNul_length ‹_›).trans (memchrNul_length ‹_›)

/-- `parse_oack`. -/
def parseOack (optreq : Optreq) (tp : Packet) : Option Optreq :=
  if tp.length ≤ 2 ∨ tp.opcode ≠ Opcode.oack.code then none
  else parseOackOptions optreq optreqInit (tp.drop 2)

/-! ### Reading options back -/

/-- A pair of the packet is read and taken, or not. -/
def takePair (optreq optack : Optreq) (p : Bytes × Bytes) : Option Optreq :=
  if (strtoumax p.2).erange ∨ (strtoumax p.2).rest ≠ [] then none
  else ackOption optreq optack p.1 (strtoumax p.2).value

theorem parseOackOptions_nil (optreq optack : Optreq) : parseOackOptions optreq optack [] = some optack := by
  rw [parseOackOptions, if_pos rfl]

theorem parseOackOptions_none (optreq optack : Optreq) {cp : Bytes} (hne : cp ≠ []) (h : memchrNul cp = none) :
    parseOackOptions optreq optack cp = none := by
  rw [parseOackOptions, if_neg hne]
  split
  · rfl
  · rename_i h'
    rw [h] at h'
    cases h'

/-- The loop takes one pair and goes on behind it. -/
theorem parseOackOptions_some (optreq optack : Optreq) {cp option val : Bytes}
    (h : memchrNul cp = some (option, val)) :
    parseOackOptions optreq optack cp = if option = [] ∨ val = [] then none
      else (memchrNul val).bind fun p => if p.1 = [] then none
        else (takePair optreq optack (option, p.1)).bind fun optack => parseOackOptions optreq optack p.2 := by
  have hne : cp ≠ [] := by
    rintro rfl
    cases h
  rw [parseOackOptions, if_neg hne]
  split
  · rename_i h'
    rw [h] at h'
    cases h'
  · rename_i option' val' h'
    obtain ⟨rfl, rfl⟩ := Prod.mk.inj (Option.some.inj (h.symm.trans h'))
    split_ifs
    · rfl
    split
    · rename_i h''
      rw [h'']
      rfl
    · rename_i value rest h''
      rw [h'']
      by_cases hv : value = []
      · simp [hv]
      · simp only [hv, false_or, Option.bind_some, if_false, takePair]
        split_ifs
        · rfl
        · cases ackOption optreq optack option (strtoumax value).value <;> rfl

/-- The client reads the option it would have written. -/
theorem parseOackOptions_optionText (optreq optack : Optreq) (o : ProtocolOption) {n : ℕ} (hn : n < 2 ^ 64)
    (rest : Bytes) :
    parseOackOptions optreq optack (optionText (o, n) ++ rest) =
      (ackOption optreq optack o.name n).bind fun optack => parseOackOptions optreq optack rest := by
  have hname : memchrNul (optionText (o, n) ++ rest) = some (o.name, Decimal.numeral n ++ 0 :: rest) := by
    rw [optionText, List.append_assoc, List.cons_append, List.append_assoc]
    exact memchrNul_append o.zero_notMem_name _
  have htake : takePair optreq optack (o.name, Decimal.numeral n) = ackOption optreq optack o.name n := by
    simp [takePair, strtoumax_numeral hn]
  rw [parseOackOptions_some _ _ hname, if_neg (by simp [o.name_ne_nil]), memchrNul_append (zero_notMem_numeral n),
    Option.bind_some, if_neg (Decimal.numeral_ne_nil n), htake]

end TftpHpa
