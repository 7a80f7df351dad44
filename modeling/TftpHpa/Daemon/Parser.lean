import TftpHpa.Daemon.Request
import TftpHpa.Lib.Terminated

/-! The request parser on the datagram itself: offsets in the place of the pointers of
`tftp` and `parse_option`, and a read that fails outside the datagram or through a
null pointer. It does what the reading string by string of `TftpHpa.scanArgs` does, and both
accept the requests of one grammar. -/

namespace TftpHpa

open Terminated

/-! ### Reads -/

/-- The C string at `cp`; nothing if the datagram ends before its NUL. A function that is
given a string is taken to read all of it. -/
def Packet.stringAt (tp : Packet) (cp : ℕ) : Option Bytes := (memchrNul (tp.drop cp)).map Prod.fst

/-- `n` bytes at `cp`. -/
def Packet.bytesAt (tp : Packet) (cp n : ℕ) : Option Bytes :=
  if cp + n ≤ tp.length then some ((tp.drop cp).take n) else none

section

variable {tp : Packet} {cp : ℕ} {s rest : Bytes}

theorem length_of_drop (h : tp.drop cp = s ++ 0 :: rest) : tp.length = cp + s.length + 1 + rest.length := by
  have hlen := congrArg List.length h
  simp only [List.length_drop, List.length_append, List.length_cons] at hlen
  omega

theorem drop_next (h : tp.drop cp = s ++ 0 :: rest) : tp.drop (cp + s.length + 1) = rest := by
  rw [Nat.add_assoc, ← List.drop_drop, h, List.drop_append, List.drop_eq_nil_of_le (by simp)]
  simp

theorem getElem?_of_drop {c : UInt8} (h : tp.drop cp = c :: rest) : tp[cp]? = some c := by
  rw [← List.head?_drop, h, List.head?_cons]

theorem stringAt_of_drop (hs : (0 : UInt8) ∉ s) (h : tp.drop cp = s ++ 0 :: rest) : tp.stringAt cp = some s := by
  rw [Packet.stringAt, h, memchrNul_append hs, Option.map_some]

theorem bytesAt_of_drop (h : tp.drop cp = s ++ 0 :: rest) : tp.bytesAt cp (s.length + 1) = some (s ++ [0]) := by
  have hlen := length_of_drop h
  rw [Packet.bytesAt, if_pos (by omega), h]
  simp [List.take_append]

end

/-! ### The parser -/

/-- `parse_option`, given where the name and the value are. -/
def parseOptionAt (tp : Packet) (t : OptionTable) (opt val vlen : ℕ) : Option OptionTable := do
  let c ← tp[opt]?
  if c = 0 ∨ vlen = 0 then return t
  let name ← tp.stringAt opt
  match ProtocolOption.ofName name with
  | none => return t
  | some o =>
    let po := { t o with clientName := name }
    match o.otype with
    | .str =>
      let data ← tp.bytesAt val (vlen + 1)
      return Function.update t o { po with str := data.dropLast, dsize := (vlen + 1) % 2 ^ 16, req := true }
    | .uint =>
      let d ← tp[val]?
      if asciiIsdigit d = false then return Function.update t o po
      let s ← tp.stringAt val
      let v := strtoumax s
      -- `vend` is where the number ends
      let vend := val + (s.length - v.rest.length)
      if vend ≠ val + vlen ∨ v.erange then return Function.update t o po
      let data ← tp.bytesAt val (vlen + 1)
      return Function.update t o
        { po with uint := v.value, str := data.dropLast, dsize := (vlen + 1) % 2 ^ 16, req := true }

/-- The local variables of `tftp` in its loop, offsets for pointers. -/
structure Scan where
  argn : ℕ := 0
  pf : Option Format := none
  mode : Option ℕ := none
  opt : Option ℕ := none
  val : Option ℕ := none
  opts : OptionTable

/-- The inner loop: step over the characters of a string that starts at `cp`. -/
def stringEnd (tp : Packet) (cp : ℕ) : Option ℕ :=
  if cp + 1 < tp.length then
    match tp[cp + 1]? with
    | none => none
    | some c => if c = 0 then some (cp + 1) else stringEnd tp (cp + 1)
  else some (cp + 1)
termination_by tp.length - cp

theorem lt_stringEnd {tp : Packet} {cp e : ℕ} (h : stringEnd tp cp = some e) : cp < e := by
  fun_induction stringEnd tp cp with
  | case1 => cases h
  | case2 =>
    cases h
    exact Nat.lt_succ_self _
  | case3 _ _ _ _ _ ih => exact (Nat.lt_succ_self _).trans (ih h)
  | case4 =>
    cases h
    exact Nat.lt_succ_self _

/-- The body of the loop after it has found the NUL of a string at `cp`. -/
def Scan.argument (st : Scan) (tp : Packet) (cp : ℕ) : Option (Except Refusal Scan) :=
  let argn := st.argn + 1
  if argn = 1 then some (.ok { st with argn, mode := some (cp + 1) })
  else if argn = 2 then do
    let mode ← tp.stringAt (← st.mode)
    match Format.all.find? fun f => asciiStrcaseeq f.mode mode with
    | none => return .error (.text .badOp "unknown mode")
    | some f => return .ok { st with argn, pf := some f, opt := some (cp + 1) }
  else if argn &&& 1 = 1 then some (.ok { st with argn, val := some (cp + 1) })
  else do
    let val ← st.val
    let opts ← parseOptionAt tp st.opts (← st.opt) val (cp - val)
    return .ok { st with argn, opts, opt := some (cp + 1) }

/-- The loop of `tftp` over the request. -/
def scanRequest (tp : Packet) (cp : ℕ) (st : Scan) : Option (Except Refusal Scan) :=
  if cp < tp.length then
    match tp[cp]? with
    | none => none
    | some c =>
      if c = 0 then some (.ok st)
      else match _ : stringEnd tp cp with
        | none => none
        | some cp =>
          if cp = tp.length then some (.error (.text .badOp "request not null-terminated"))
          else match st.argument tp cp with
            | none => none
            | some (.error e) => some (.error e)
            | some (.ok st) => scanRequest tp (cp + 1) st
  else some (.ok st)
termination_by tp.length - cp
decreasing_by
  have := lt_stringEnd ‹_›
  omega

/-- A request as it has been read. -/
structure ParsedRequest where
  opcode : UInt16
  filename : Bytes
  format : Format
  opts : OptionTable

/-- What follows the loop: the mode must have been there. -/
def Scan.request (st : Scan) (tp : Packet) (opcode : UInt16) : Option (Except Refusal ParsedRequest) :=
  match st.pf with
  | none => some (.error (.text .badOp "missing mode"))
  | some format => (tp.stringAt 2).map fun filename => .ok { opcode, filename, format, opts := st.opts }

/-- What `tftp` reads of a request before it does anything about it. -/
def parseRequest (t : OptionTable) (tp : Packet) : Option (Except Refusal ParsedRequest) := do
  let opcode := ntohs (← tp[0]?) (← tp[1]?)
  match ← scanRequest tp 2 { opts := t } with
  | .error e => return .error e
  | .ok st => st.request tp opcode

/-! ### The parser reads strings -/

section

variable {tp : Packet} {cp : ℕ}

theorem parseOptionAt_eq (t : OptionTable) {opt val : ℕ} {name value rest rest' : Bytes} (hn : name ≠ [])
    (hn0 : (0 : UInt8) ∉ name) (hopt : tp.drop opt = name ++ 0 :: rest) (hv : value ≠ [])
    (hv0 : (0 : UInt8) ∉ value) (hval : tp.drop val = value ++ 0 :: rest') :
    parseOptionAt tp t opt val value.length = some (parseOption t name value) := by
  obtain ⟨c, cs, rfl⟩ := List.exists_cons_of_ne_nil hn
  obtain ⟨d, ds, rfl⟩ := List.exists_cons_of_ne_nil hv
  have hc : c ≠ 0 := fun h => hn0 (by simp [h])
  have hopt0 := getElem?_of_drop (hopt.trans (List.cons_append ..))
  have hval0 := getElem?_of_drop (hval.trans (List.cons_append ..))
  have hname := stringAt_of_drop hn0 hopt
  have hvalue := stringAt_of_drop hv0 hval
  have hdata := bytesAt_of_drop hval
  rw [parseOption, if_neg (by simp)]
  simp only [parseOptionAt, hopt0, hval0, hname, hvalue, hdata, hc, Option.bind_eq_bind, Option.bind_some,
    List.length_eq_zero_iff, reduceCtorEq, or_self, if_false, List.headD_cons, List.dropLast_concat]
  cases ProtocolOption.ofName (c :: cs) with
  | none => rfl
  | some o =>
    cases htype : o.otype with
    | str => simp only [htype, Option.pure_def]
    | uint =>
      by_cases hd : asciiIsdigit d = false
      · simp only [htype, hd, true_or, if_true, Option.pure_def]
      · have hd' : asciiIsdigit d = true := by simpa using hd
        obtain ⟨hrest, -, -⟩ := strtoumax_of_digit ds hd'
        have hle : (strtoumax (d :: ds)).rest.length ≤ (d :: ds).length := by
          rw [hrest]
          exact (List.dropWhile_sublist _).length_le
        have hvend : val + ((d :: ds).length - (strtoumax (d :: ds)).rest.length) ≠ val + (d :: ds).length ↔
            (strtoumax (d :: ds)).rest ≠ [] := by
          rw [ne_eq, ne_eq, ← List.length_eq_zero_iff]
          simp only [List.length_cons] at hle ⊢
          omega
        simp only [htype, hd', hvend, false_or, if_false, Bool.true_eq_false, Option.pure_def]
        split_ifs <;> rfl

theorem stringEnd_of_drop {s rest : Bytes} (hne : s ≠ []) (hs : (0 : UInt8) ∉ s) (h : tp.drop cp = s ++ rest)
    (hrest : rest = [] ∨ rest.head? = some 0) : stringEnd tp cp = some (cp + s.length) := by
  obtain ⟨c, cs, rfl⟩ := List.exists_cons_of_ne_nil hne
  induction cs generalizing cp c with
  | nil =>
    have hdrop : tp.drop (cp + 1) = rest := by
      rw [← List.drop_drop, h]
      rfl
    rw [stringEnd]
    rcases hrest with rfl | h0
    · rw [if_neg (Nat.not_lt.mpr (List.drop_eq_nil_iff.mp hdrop))]
      rfl
    · obtain ⟨rest, rfl⟩ := List.head?_eq_some_iff.mp h0
      have hlen : cp + 1 < tp.length := by
        by_contra hge
        rw [List.drop_eq_nil_of_le (Nat.not_lt.mp hge)] at hdrop
        cases hdrop
      rw [if_pos hlen, getElem?_of_drop hdrop]
      rfl
  | cons d ds ih =>
    rw [List.mem_cons, not_or] at hs
    have hdrop : tp.drop (cp + 1) = (d :: ds) ++ rest := by
      rw [← List.drop_drop, h]
      rfl
    have hlen : cp + 1 < tp.length := by
      by_contra hge
      rw [List.drop_eq_nil_of_le (Nat.not_lt.mp hge)] at hdrop
      cases hdrop
    have hd : d ≠ 0 := fun hd => hs.2 (by simp [hd])
    rw [stringEnd, if_pos hlen, getElem?_of_drop hdrop]
    simp only [hd, if_false]
    rw [ih d (by simp) hs.2 hdrop]
    simp only [List.length_cons]
    congr 1
    omega

/-- The offsets the parser keeps stand for the strings read so far, `cp` being where the
next one starts. -/
structure Reads (tp : Packet) (cp : ℕ) (st : Scan) (r : RequestArgs) : Prop where
  argn : st.argn = r.argn
  pf : st.pf = r.format
  opts : st.opts = r.opts
  start : r.argn = 0 → cp = 2
  filename : 0 < r.argn → tp.stringAt 2 = some r.filename
  mode : r.argn = 1 → st.mode = some cp
  format : r.format.isSome = true → 2 ≤ r.argn
  opt : 2 ≤ r.argn → r.argn % 2 = 0 → st.opt = some cp
  val : 2 ≤ r.argn → r.argn % 2 = 1 → st.val = some cp ∧ r.opt ≠ [] ∧ (0 : UInt8) ∉ r.opt ∧
    ∃ opt rest, st.opt = some opt ∧ tp.drop opt = r.opt ++ 0 :: rest

/-- The two readings of a request end alike. -/
inductive Follows (tp : Packet) : Option (Except Refusal Scan) → Except Refusal RequestArgs → Prop
  | error (e : Refusal) : Follows tp (some (.error e)) (.error e)
  | ok {cp : ℕ} {st : Scan} {r : RequestArgs} (h : Reads tp cp st r) : Follows tp (some (.ok st)) (.ok r)

variable {st : Scan} {r : RequestArgs}

theorem Reads.argument_filename (h : Reads tp cp st r) (h0 : r.argn = 0) {s rest : Bytes} (hs : (0 : UInt8) ∉ s)
    (hdrop : tp.drop cp = s ++ 0 :: rest) :
    ∃ st' r', st.argument tp (cp + s.length) = some (.ok st') ∧ r.argument s = .ok r' ∧
      Reads tp (cp + s.length + 1) st' r' := by
  have hst : st.argument tp (cp + s.length) = some (.ok { st with argn := 1, mode := some (cp + s.length + 1) }) := by
    rw [Scan.argument, h.argn, h0, if_pos rfl]
  have hr : r.argument s = .ok { r with argn := 1, filename := s } := by
    rw [RequestArgs.argument, h0, if_pos rfl]
  obtain rfl := h.start h0
  refine ⟨_, _, hst, hr, ⟨rfl, h.pf, h.opts, ?_, ?_, ?_, ?_, ?_, ?_⟩⟩ <;> simp
  · exact stringAt_of_drop hs hdrop
  · cases hf : r.format with
    | none => rfl
    | some f => exact absurd (h.format (by simp [hf])) (by omega)

theorem Reads.argument_mode (h : Reads tp cp st r) (h1 : r.argn = 1) {s rest : Bytes} (hs : (0 : UInt8) ∉ s)
    (hdrop : tp.drop cp = s ++ 0 :: rest) :
    (∃ e, st.argument tp (cp + s.length) = some (.error e) ∧ r.argument s = .error e) ∨
      ∃ st' r', st.argument tp (cp + s.length) = some (.ok st') ∧ r.argument s = .ok r' ∧
        Reads tp (cp + s.length + 1) st' r' := by
  have hmode := stringAt_of_drop hs hdrop
  have hname := h.filename (by omega)
  rw [Scan.argument, RequestArgs.argument, h.argn, h1, h.mode h1]
  simp only [Option.bind_eq_bind, Option.bind_some, hmode, Nat.reduceAdd, Nat.reduceEqDiff, if_false, if_true]
  cases Format.all.find? fun f => asciiStrcaseeq f.mode s with
  | none => exact .inl ⟨_, rfl, rfl⟩
  | some f =>
    refine .inr ⟨_, _, rfl, rfl, ⟨rfl, rfl, h.opts, ?_, ?_, ?_, ?_, ?_, ?_⟩⟩ <;> simp
    exact hname

theorem Reads.argument_opt (h : Reads tp cp st r) (h2 : 2 ≤ r.argn) (heven : r.argn % 2 = 0) {s rest : Bytes}
    (hne : s ≠ []) (hs : (0 : UInt8) ∉ s) (hdrop : tp.drop cp = s ++ 0 :: rest) :
    ∃ st' r', st.argument tp (cp + s.length) = some (.ok st') ∧ r.argument s = .ok r' ∧
      Reads tp (cp + s.length + 1) st' r' := by
  have hodd : (r.argn + 1) &&& 1 = 1 := by
    rw [Nat.and_one_is_mod]
    omega
  have hst : st.argument tp (cp + s.length) =
      some (.ok { st with argn := r.argn + 1, val := some (cp + s.length + 1) }) := by
    rw [Scan.argument, h.argn, if_neg (by omega), if_neg (by omega), if_pos hodd]
  have hr : r.argument s = .ok { r with argn := r.argn + 1, opt := s } := by
    rw [RequestArgs.argument, if_neg (by omega), if_neg (by omega), if_pos hodd]
  refine ⟨_, _, hst, hr, ⟨rfl, h.pf, h.opts, ?_, fun _ => h.filename (by omega), ?_, ?_, ?_, ?_⟩⟩
  · simp
  · intro h1
    simp at h1
    omega
  · intro _
    simp
    omega
  · intro _ h'
    simp at h'
    omega
  · intro _ _
    exact ⟨rfl, hne, hs, cp, rest, h.opt h2 heven, hdrop⟩

theorem Reads.argument_val (h : Reads tp cp st r) (h2 : 2 ≤ r.argn) (hodd : r.argn % 2 = 1) {s rest : Bytes}
    (hne : s ≠ []) (hs : (0 : UInt8) ∉ s) (hdrop : tp.drop cp = s ++ 0 :: rest) :
    ∃ st' r', st.argument tp (cp + s.length) = some (.ok st') ∧ r.argument s = .ok r' ∧
      Reads tp (cp + s.length + 1) st' r' := by
  obtain ⟨hval, hoptne, hopt0, opt, rest', hopt, hdrop'⟩ := h.val h2 hodd
  have heven : ¬ (r.argn + 1) &&& 1 = 1 := by
    rw [Nat.and_one_is_mod]
    omega
  have hst : st.argument tp (cp + s.length) = some (.ok { st with
      argn := r.argn + 1, opts := parseOption r.opts r.opt s, opt := some (cp + s.length + 1) }) := by
    rw [Scan.argument, h.argn, if_neg (by omega), if_neg (by omega), if_neg heven, hval, hopt, h.opts]
    simp only [Option.bind_eq_bind, Option.bind_some, Nat.add_sub_cancel_left,
      parseOptionAt_eq r.opts hoptne hopt0 hdrop' hne hs hdrop, Option.pure_def]
  have hr : r.argument s = .ok { r with argn := r.argn + 1, opts := parseOption r.opts r.opt s } := by
    rw [RequestArgs.argument, if_neg (by omega), if_neg (by omega), if_neg heven]
  refine ⟨_, _, hst, hr, ⟨rfl, h.pf, rfl, ?_, fun _ => h.filename (by omega), ?_, ?_, fun _ _ => rfl, ?_⟩⟩
  · simp
  · intro h1
    simp at h1
    omega
  · intro _
    simp
    omega
  · intro _ h'
    simp at h'
    omega

theorem Reads.argument (h : Reads tp cp st r) {s rest : Bytes} (hne : s ≠ []) (hs : (0 : UInt8) ∉ s)
    (hdrop : tp.drop cp = s ++ 0 :: rest) :
    (∃ e, st.argument tp (cp + s.length) = some (.error e) ∧ r.argument s = .error e) ∨
      ∃ st' r', st.argument tp (cp + s.length) = some (.ok st') ∧ r.argument s = .ok r' ∧
        Reads tp (cp + s.length + 1) st' r' := by
  rcases Nat.lt_trichotomy r.argn 1 with h0 | h1 | h2
  · exact .inr (h.argument_filename (by omega) hs hdrop)
  · exact h.argument_mode h1 hs hdrop
  · rcases Nat.mod_two_eq_zero_or_one r.argn with heven | hodd
    · exact .inr (h.argument_opt h2 heven hne hs hdrop)
    · exact .inr (h.argument_val h2 hodd hne hs hdrop)

/-- Where no further string starts, reading ends; a string without its NUL is an error. -/
theorem scanArgs_rest (r : RequestArgs) {rest : Bytes} (h : rest.head? = some 0 ∨ (0 : UInt8) ∉ rest) :
    scanArgs r [] rest = if rest = [] ∨ rest.head? = some 0 then .ok r
      else .error (.text .badOp "request not null-terminated") := by
  have hloop : ∀ (s cur : Bytes), (0 : UInt8) ∉ s → cur ≠ [] →
      scanArgs r cur s = .error (.text .badOp "request not null-terminated") := by
    intro s
    induction s with
    | nil =>
      intro cur _ hcur
      rw [scanArgs, if_neg hcur]
    | cons c s ih =>
      intro cur hs _
      rw [List.mem_cons, not_or] at hs
      rw [scanArgs, if_neg (Ne.symm hs.1)]
      exact ih _ hs.2 (by simp)
  cases rest with
  | nil => rfl
  | cons c rest =>
    by_cases hc : c = 0
    · simp [scanArgs, hc]
    · have h0 : (0 : UInt8) ∉ c :: rest := h.resolve_left (by simpa using hc)
      rw [if_neg (by simp [hc]), scanArgs, if_neg hc]
      exact hloop rest [c] (fun hm => h0 (List.mem_cons_of_mem c hm)) (by simp)

theorem scanRequest_rest (st : Scan) {rest : Bytes} (hcp : cp ≤ tp.length) (hdrop : tp.drop cp = rest)
    (h : rest.head? = some 0 ∨ (0 : UInt8) ∉ rest) :
    scanRequest tp cp st = if rest = [] ∨ rest.head? = some 0 then some (.ok st)
      else some (.error (.text .badOp "request not null-terminated")) := by
  have hlen := congrArg List.length hdrop
  rw [List.length_drop] at hlen
  cases rest with
  | nil =>
    rw [scanRequest, if_neg (by simp at hlen; omega)]
    rfl
  | cons c rest =>
    rw [List.length_cons] at hlen
    by_cases hc : c = 0
    · rw [scanRequest, if_pos (by omega), getElem?_of_drop hdrop]
      simp [hc]
    · have h0 : (0 : UInt8) ∉ c :: rest := h.resolve_left (by simpa using hc)
      have hend := stringEnd_of_drop (by simp) h0 (hdrop.trans (List.append_nil _).symm) (.inl rfl)
      rw [scanRequest, if_pos (by omega), getElem?_of_drop hdrop]
      simp only [hc, if_false, List.head?_cons, Option.some_inj, reduceCtorEq, or_self]
      split
      · rename_i h'
        rw [hend] at h'
        cases h'
      · rename_i e h'
        rw [hend] at h'
        obtain rfl := Option.some.inj h'
        rw [if_pos (by simp only [List.length_cons]; omega)]

/-- The parser reads a request string by string. -/
theorem Reads.scanRequest (h : Reads tp cp st r) (hcp : cp ≤ tp.length) {ss : List Bytes} {rest : Bytes}
    (hcut : Cut 0 (tp.drop cp) ss rest) :
    Follows tp (scanRequest tp cp st) (scanArgs r [] (tp.drop cp)) := by
  induction ss generalizing cp st r with
  | nil =>
    have hrest : tp.drop cp = rest := hcut.eq
    rw [scanRequest_rest st hcp hrest hcut.stop, hrest, scanArgs_rest r hcut.stop]
    split_ifs
    · exact .ok h
    · exact .error _
  | cons s ss ih =>
    obtain ⟨hne, hs⟩ := hcut.head
    have hdrop := hcut.eq_cons
    have hlen := length_of_drop hdrop
    have hnext := drop_next hdrop
    have hend := stringEnd_of_drop hne hs hdrop (.inr rfl)
    obtain ⟨c, cs, hcons⟩ := List.exists_cons_of_ne_nil hne
    have hc : c ≠ 0 := fun h => hs (by simp [hcons, h])
    have hfirst : tp[cp]? = some c := getElem?_of_drop (hdrop.trans (by rw [hcons]; rfl))
    rw [hdrop, scanArgs_string hs _ _ _ (by simpa using hne), List.nil_append, TftpHpa.scanRequest,
      if_pos (by omega), hfirst]
    simp only [hc, if_false]
    split
    · rename_i h'
      rw [hend] at h'
      cases h'
    · rename_i e h'
      rw [hend] at h'
      obtain rfl := Option.some.inj h'
      rw [if_neg (by omega)]
      rcases h.argument hne hs hdrop with ⟨e, hst, hr⟩ | ⟨st', r', hst, hr, hreads⟩
      · rw [hst, hr]
        exact .error e
      · rw [hst, hr]
        have := ih hreads (by omega) (hnext ▸ hcut.tail)
        rwa [hnext] at this

end

/-- A request from the strings read of it. -/
def RequestArgs.request (r : RequestArgs) (opcode : UInt16) : Except Refusal ParsedRequest :=
  match r.format with
  | none => .error (.text .badOp "missing mode")
  | some format => .ok { opcode, filename := r.filename, format, opts := r.opts }

/-- The parser reads nothing but the datagram, and finds what reading it string by string
finds. -/
theorem parseRequest_eq (t : OptionTable) {tp : Packet} (h : 2 ≤ tp.length) :
    parseRequest t tp = some ((scanArgs { opts := t } [] (tp.drop 2)).bind (·.request tp.opcode)) := by
  obtain ⟨b₀, b₁, body, rfl⟩ : ∃ b₀ b₁ body, tp = b₀ :: b₁ :: body := by
    match tp, h with
    | b₀ :: b₁ :: body, _ => exact ⟨b₀, b₁, body, rfl⟩
  set tp : Packet := b₀ :: b₁ :: body with htp
  obtain ⟨ss, rest, hcut⟩ := exists_cut 0 (tp.drop 2)
  have hreads : Reads tp 2 { opts := t } { opts := t } := by
    constructor <;> simp
  have hfollows := hreads.scanRequest h hcut
  rw [parseRequest]
  change (scanRequest tp 2 { opts := t }).bind _ = _
  generalize scanRequest tp 2 { opts := t } = q at hfollows
  generalize scanArgs { opts := t } [] (tp.drop 2) = q' at hfollows
  cases hfollows with
  | error e => rfl
  | @ok cp st r hr =>
    change st.request tp tp.opcode = some (r.request tp.opcode)
    rw [Scan.request, RequestArgs.request, hr.pf, hr.opts]
    cases hf : r.format with
    | none => rfl
    | some f =>
      have hargn := hr.format (by simp [hf])
      rw [hr.filename (by omega)]
      rfl

/-- The rest of `tftp` works on what the parser has found. -/
theorem tftp_eq_parseRequest {c : DaemonConfig} (peer : Socket) (h : Handlers) {tp : Packet}
    (hro : c.readonly = false ∨ tp.opcode = Opcode.rrq.code) {q : Except Refusal ParsedRequest}
    (hq : parseRequest c.optionTable tp = some q) (hlen : 2 ≤ tp.length) :
    tftp c peer h tp = q.bind fun p =>
      (uploadLimit c (p.opcode = Opcode.rrq.code) p.opts).bind fun limit =>
      (h.openFile p.format p.filename p.opcode peer.family).bind fun file =>
      let negotiated := negotiateOptions c peer (.start c p.opts file)
      .ok { format := p.format, filename := p.filename, uploadLimit := limit, daemon := negotiated.1,
            oack := negotiated.2 } := by
  rw [parseRequest_eq _ hlen, Option.some_inj] at hq
  rw [← hq, tftp]
  have hopen : (c.readonly && !decide (tp.opcode = Opcode.rrq.code)) = false := by
    rcases hro with hr | hr <;> simp [hr]
  simp only [hopen, bind, Except.bind, Bool.false_eq_true, if_false, pure, Except.pure]
  cases scanArgs { opts := c.optionTable } [] (tp.drop 2) with
  | error e => rfl
  | ok args =>
    simp only [RequestArgs.request]
    cases args.format <;> rfl

/-! ### The grammar -/

theorem scanArgs_cut (r : RequestArgs) {xs rest : Bytes} {ss : List Bytes} (h : Cut 0 xs ss rest) :
    scanArgs r [] xs = (ss.foldlM RequestArgs.argument r).bind fun r =>
      if rest = [] ∨ rest.head? = some 0 then .ok r else .error (.text .badOp "request not null-terminated") := by
  induction ss generalizing r xs with
  | nil => exact (congrArg (scanArgs r []) h.eq).trans (scanArgs_rest r h.stop)
  | cons s ss ih =>
    obtain ⟨hne, hs⟩ := h.head
    rw [h.eq_cons, scanArgs_string hs _ _ _ (by simpa using hne), List.nil_append, List.foldlM_cons]
    cases r.argument s with
    | error e => rfl
    | ok r => exact ih r h.tail

/-- After the mode the strings are options and their values in turn. -/
theorem foldlM_argument_options (more : List Bytes) {r : RequestArgs} (h2 : 2 ≤ r.argn) (heven : r.argn % 2 = 0) :
    ∃ argn opt, more.foldlM RequestArgs.argument r =
      .ok { r with argn, opt, opts := (pairs more).foldl (fun t p => parseOption t p.1 p.2) r.opts } := by
  have hname : ∀ s, r.argument s = .ok { r with argn := r.argn + 1, opt := s } := fun s => by
    rw [RequestArgs.argument, if_neg (by omega), if_neg (by omega), if_pos (by rw [Nat.and_one_is_mod]; omega)]
  induction more using pairs.induct generalizing r with
  | case1 => exact ⟨r.argn, r.opt, rfl⟩
  | case2 opt =>
    refine ⟨r.argn + 1, opt, ?_⟩
    rw [List.foldlM_cons, hname]
    rfl
  | case3 opt val more ih =>
    have hvalue : ({ r with argn := r.argn + 1, opt } : RequestArgs).argument val =
        .ok { r with argn := r.argn + 2, opt, opts := parseOption r.opts opt val } := by
      rw [RequestArgs.argument, if_neg (by simp), if_neg (by simp; omega),
        if_neg (by rw [Nat.and_one_is_mod]; simp; omega)]
    obtain ⟨argn, opt', h⟩ := ih (r := { r with argn := r.argn + 2, opt, opts := parseOption r.opts opt val })
      (by simp) (by simp; omega) fun s => by
        rw [RequestArgs.argument, if_neg (by simp), if_neg (by simp),
          if_pos (by rw [Nat.and_one_is_mod]; simp; omega)]
    refine ⟨argn, opt', ?_⟩
    rw [List.foldlM_cons, hname]
    exact (congrArg (Except.bind · fun r => more.foldlM RequestArgs.argument r) hvalue).trans h

theorem Format.find?_mode {s : Bytes} (hs : (0 : UInt8) ∉ s) :
    ((all.find? fun f => asciiStrcaseeq f.mode s) = none ∧ s.map asciiTolower ∉ [cstr "netascii", cstr "octet"]) ∨
      ∃ f, (all.find? fun f => asciiStrcaseeq f.mode s) = some f ∧ s.map asciiTolower = f.mode := by
  have hmode : ∀ f : Format, asciiStrcaseeq f.mode s = true ↔ s.map asciiTolower = f.mode := fun f => by
    rw [asciiStrcaseeq_iff (by cases f <;> decide) hs (by cases f <;> decide),
      show f.mode.map asciiTolower = f.mode by cases f <;> decide, eq_comm]
  cases hf : all.find? fun f => asciiStrcaseeq f.mode s with
  | none =>
    refine .inl ⟨rfl, fun hmem => ?_⟩
    have hnone := List.find?_eq_none.mp hf
    rcases List.mem_cons.mp hmem with h | h
    · exact hnone netascii (by decide) ((hmode netascii).mpr h)
    · exact hnone octet (by decide) ((hmode octet).mpr (List.mem_singleton.mp h))
  | some f => exact .inr ⟨f, rfl, (hmode f).mp (List.find?_some (p := fun f : Format => asciiStrcaseeq f.mode s) hf)⟩

theorem pairs_of_strings {ss : List Bytes} (h : ∀ s ∈ ss, s ≠ [] ∧ (0 : UInt8) ∉ s) :
    ∀ p ∈ pairs ss, (0 : UInt8) ∉ p.1 ∧ p.1 ≠ [] ∧ p.2 ≠ [] := by
  intro p hp
  obtain ⟨h₁, h₂⟩ := mem_of_mem_pairs hp
  exact ⟨(h _ h₁).2, (h _ h₁).1, (h _ h₂).1⟩

/-- What a list of strings is taken for: too short, of an unknown mode, or a request. -/
theorem foldlM_argument_cases (t : OptionTable) {ss : List Bytes} (h : ∀ s ∈ ss, s ≠ [] ∧ (0 : UInt8) ∉ s) :
    (ss.length < 2 ∧ ∃ r, ss.foldlM RequestArgs.argument { opts := t } = .ok r ∧ r.format = none) ∨
      (∃ name mode more e, ss = name :: mode :: more ∧ mode.map asciiTolower ∉ [cstr "netascii", cstr "octet"] ∧
        ss.foldlM RequestArgs.argument { opts := t } = .error e) ∨
      ∃ name mode more f r, ss = name :: mode :: more ∧ mode.map asciiTolower = f.mode ∧
        ss.foldlM RequestArgs.argument { opts := t } = .ok r ∧ r.format = some f ∧ r.filename = name ∧
        r.opts = t.recorded (pairs more) := by
  match ss, h with
  | [], _ => exact .inl ⟨by decide, _, rfl, rfl⟩
  | [name], _ => exact .inl ⟨by simp, _, rfl, rfl⟩
  | name :: mode :: more, h =>
    have hfirst : ({ opts := t } : RequestArgs).argument name = .ok { argn := 1, filename := name, opts := t } := rfl
    have hmore : ∀ s ∈ more, s ≠ [] ∧ (0 : UInt8) ∉ s := fun s hs => h s (by simp [hs])
    have hpairs := pairs_of_strings hmore
    rcases Format.find?_mode (h mode (by simp)).2 with ⟨hnone, hmode⟩ | ⟨f, hsome, hmode⟩
    · refine .inr (.inl ⟨name, mode, more, .text .badOp "unknown mode", rfl, hmode, ?_⟩)
      have hsecond : ({ argn := 1, filename := name, opts := t } : RequestArgs).argument mode =
          .error (.text .badOp "unknown mode") := by
        rw [RequestArgs.argument, if_neg (by simp), if_pos rfl, hnone]
      rw [List.foldlM_cons, hfirst]
      exact congrArg (Except.bind · fun r => more.foldlM RequestArgs.argument r) hsecond
    · have hsecond : ({ argn := 1, filename := name, opts := t } : RequestArgs).argument mode =
          .ok { argn := 2, filename := name, format := some f, opts := t } := by
        rw [RequestArgs.argument, if_neg (by simp), if_pos rfl, hsome]
      obtain ⟨argn, opt, hmore⟩ := foldlM_argument_options more
        (r := { argn := 2, filename := name, format := some f, opts := t }) le_rfl (Nat.mod_self 2)
      have hall := (congrArg (Except.bind · fun r => more.foldlM RequestArgs.argument r) hsecond).trans hmore
      exact .inr (.inr ⟨name, mode, more, f, _, rfl, hmode, hall, rfl, rfl, foldl_parseOption t hpairs⟩)

/-- What is known of a request that has been read. -/
theorem scanArgs_accepted {t : OptionTable} {xs : Bytes} {args : RequestArgs} {f : Format}
    (h : scanArgs { opts := t } [] xs = .ok args) (hf : args.format = some f) :
    ∃ name mode more rest, Cut 0 xs (name :: mode :: more) rest ∧ mode.map asciiTolower = f.mode ∧
      args.filename = name ∧ args.opts = t.recorded (pairs more) := by
  obtain ⟨ss, rest, hcut⟩ := exists_cut 0 xs
  rw [scanArgs_cut _ hcut] at h
  rcases foldlM_argument_cases t hcut.string with
    ⟨-, r, hr, hnone⟩ | ⟨_, _, _, e, -, -, he⟩ | ⟨name, mode, more, f', r, rfl, hmode, hr, hf', hn, ho⟩
  · rw [hr] at h
    change (if _ then _ else _) = _ at h
    split_ifs at h
    obtain rfl := Except.ok.inj h
    rw [hnone] at hf
    cases hf
  · rw [he] at h
    cases h
  · rw [hr] at h
    change (if _ then _ else _) = _ at h
    split_ifs at h
    obtain rfl := Except.ok.inj h
    obtain rfl := Option.some.inj (hf'.symm.trans hf)
    exact ⟨name, mode, more, rest, hcut, hmode, hn, ho⟩

/-- The parser accepts its grammar and reads only the datagram. The bytes after the opcode
are cut into strings up to an empty one or the end of the datagram; all of them must have
their NUL, there must be two at least and the second one must be a mode. The first one
is the file name, and those after the mode are taken two by two as options. -/
theorem parseRequest_grammar (c : DaemonConfig) {tp : Packet} (h : 2 ≤ tp.length) :
    ∃ ss rest, Cut 0 (tp.drop 2) ss rest ∧ ∃ q, parseRequest c.optionTable tp = some q ∧
      ((∃ e, q = .error e) ↔ (rest ≠ [] ∧ (0 : UInt8) ∉ rest) ∨ ss.length < 2 ∨
        ∃ mode, ss[1]? = some mode ∧ mode.map asciiTolower ∉ [cstr "netascii", cstr "octet"]) ∧
      ∀ p, q = .ok p → ∃ name mode more, ss = name :: mode :: more ∧ p.opcode = tp.opcode ∧ p.filename = name ∧
        mode.map asciiTolower = p.format.mode ∧ p.opts = c.optionTable.recorded (pairs more) := by
  obtain ⟨ss, rest, hcut⟩ := exists_cut 0 (tp.drop 2)
  refine ⟨ss, rest, hcut, _, parseRequest_eq _ h, ?_⟩
  rw [scanArgs_cut _ hcut]
  have hrest : ¬ (rest = [] ∨ rest.head? = some 0) ↔ rest ≠ [] ∧ (0 : UInt8) ∉ rest := by
    rw [not_or]
    refine and_congr_right fun _ => ⟨hcut.stop.resolve_left, fun h0 hh => h0 ?_⟩
    exact List.mem_of_mem_head? hh
  have hend : ∀ r : RequestArgs, ((Except.ok r : Except Refusal RequestArgs).bind fun r =>
      if rest = [] ∨ rest.head? = some 0 then .ok r
      else .error (.text .badOp "request not null-terminated")).bind (·.request tp.opcode) =
      if rest = [] ∨ rest.head? = some 0 then r.request tp.opcode
      else .error (.text .badOp "request not null-terminated") := by
    intro r
    simp only [Except.bind]
    split_ifs <;> rfl
  rcases foldlM_argument_cases c.optionTable hcut.string with
    ⟨hshort, r, hr, hf⟩ | ⟨name, mode, more, e, rfl, hmode, he⟩ | ⟨name, mode, more, f, r, rfl, hmode, hr, hf, hn, ho⟩
  · have hmissing : r.request tp.opcode = .error (.text .badOp "missing mode") := by rw [RequestArgs.request, hf]
    rw [hr, hend, hmissing]
    split_ifs
    all_goals exact ⟨⟨fun _ => .inr (.inl hshort), fun _ => ⟨_, rfl⟩⟩, fun p hp => by cases hp⟩
  · rw [he]
    exact ⟨⟨fun _ => .inr (.inr ⟨mode, rfl, hmode⟩), fun _ => ⟨e, rfl⟩⟩, fun p hp => by cases hp⟩
  · have hdone : r.request tp.opcode = .ok ⟨tp.opcode, name, f, c.optionTable.recorded (pairs more)⟩ := by
      rw [RequestArgs.request, hf, hn, ho]
    rw [hr, hend, hdone]
    split_ifs with hstop
    · refine ⟨⟨fun ⟨e, he⟩ => (by cases he), ?_⟩, ?_⟩
      · rintro (h' | h' | ⟨mode', h', hmode'⟩)
        · exact absurd hstop (hrest.mpr h')
        · simp at h'
        · obtain rfl : mode = mode' := by simpa using h'
          refine absurd ?_ hmode'
          rw [hmode]
          cases f <;> decide
      · intro p hp
        cases hp
        exact ⟨name, mode, more, rfl, rfl, rfl, hmode, rfl⟩
    · exact ⟨⟨fun _ => .inl (hrest.mp hstop), fun _ => ⟨_, rfl⟩⟩, fun p hp => by cases hp⟩

/-- A request for the file `foo`, as the parser reads it. -/
theorem parseRequest_grammar_foo :
    2 ≤ readFoo.length ∧ ∃ ss rest p, Cut 0 (readFoo.drop 2) ss rest ∧
      parseRequest ({} : DaemonConfig).optionTable readFoo = some (.ok p) ∧ p.filename = cstr "foo" ∧
      ss.head? = some (cstr "foo") := by
  have hlen : 2 ≤ readFoo.length := by decide
  obtain ⟨ss, rest, hcut, q, hq, -, hok⟩ := parseRequest_grammar {} hlen
  obtain ⟨p, hp, hname⟩ : ∃ p, q = .ok p ∧ p.filename = cstr "foo" := by
    rw [parseRequest_eq _ (by decide), Option.some_inj] at hq
    exact ⟨_, hq.symm, rfl⟩
  obtain ⟨name, mode, more, rfl, -, hname', -⟩ := hok p hp
  exact ⟨hlen, _, rest, p, hcut, hp ▸ hq, hname, congrArg some (hname'.symm.trans hname)⟩

end TftpHpa
