import TftpHpa.Client.Request
import TftpHpa.Daemon.Parser

/-! The client's check of an OACK (`parse_oack`), on the packet itself: it reads nothing
past the length received, and takes some packets it should not. -/

namespace TftpHpa

open Terminated

/-! ### Reads -/

/-- `memchr(cp, '\0', n)`, which looks at `n` bytes at most. -/
def Packet.memchrAt (tp : Packet) (cp n : ℕ) : Option (Option ℕ) :=
  (tp.bytesAt cp n).map fun bytes => (memchrNul bytes).map fun p => cp + p.1.length

theorem memchrAt_eq {tp : Packet} {cp : ℕ} (h : cp ≤ tp.length) :
    tp.memchrAt cp (tp.length - cp) = some ((memchrNul (tp.drop cp)).map fun p => cp + p.1.length) := by
  rw [Packet.memchrAt, Packet.bytesAt, if_pos (by omega), List.take_of_length_le (by simp), Option.map_some]

theorem le_memchrAt {tp : Packet} {cp n nul : ℕ} (h : tp.memchrAt cp n = some (some nul)) : cp ≤ nul := by
  obtain ⟨bytes, -, hbytes⟩ := Option.map_eq_some_iff.mp h
  obtain ⟨p, -, rfl⟩ := Option.map_eq_some_iff.mp hbytes
  exact Nat.le_add_right _ _

/-- The loop of `parse_oack`, with offsets for pointers; the outer `none` is a read outside
the packet. -/
def parseOackLoop (optreq : Optreq) (tp : Packet) (cp : ℕ) (optack : Optreq) : Option (Option Optreq) :=
  if cp < tp.length then
    match _ : tp.memchrAt cp (tp.length - cp) with
    | none => none
    | some none => some none
    | some (some nul) =>
      if nul = cp then some none
      else if tp.length ≤ nul + 1 then some none
      else match _ : tp.memchrAt (nul + 1) (tp.length - (nul + 1)) with
        | none => none
        | some none => some none
        | some (some nul') =>
          if nul' = nul + 1 then some none
          else match tp.stringAt cp, tp.stringAt (nul + 1) with
            | some option, some text =>
              let value := strtoumax text
              let valueEnd := nul + 1 + (text.length - value.rest.length)
              if value.erange ∨ valueEnd ≠ nul' then some none
              else match ackOption optreq optack option value.value with
                | none => some none
                | some optack => parseOackLoop optreq tp (nul' + 1) optack
            | _, _ => none
  else some (some optack)
termination_by tp.length - cp
decreasing_by
  have h₁ := le_memchrAt ‹tp.memchrAt cp _ = _›
  have h₂ := le_memchrAt ‹tp.memchrAt (nul + 1) _ = _›
  omega

/-- `parse_oack` on the packet. -/
def parseOackAt (optreq : Optreq) (tp : Packet) : Option (Option Optreq) :=
  if tp.length ≤ 2 then some none
  else
    match tp[0]?, tp[1]? with
    | some b₀, some b₁ =>
      if ntohs b₀ b₁ ≠ Opcode.oack.code then some none else parseOackLoop optreq tp 2 optreqInit
    | _, _ => none

/-! ### The packet is read string by string -/

section

variable {tp : Packet} {cp : ℕ} {s rest : Bytes}

/-- The NUL that `memchr` finds. -/
theorem memchrAt_of_drop (hs : (0 : UInt8) ∉ s) (h : tp.drop cp = s ++ 0 :: rest) :
    tp.memchrAt cp (tp.length - cp) = some (some (cp + s.length)) := by
  have hlen := length_of_drop h
  rw [memchrAt_eq (by omega), h, memchrNul_append hs]
  rfl

theorem memchrAt_none (hcp : cp ≤ tp.length) (h : memchrNul (tp.drop cp) = none) :
    tp.memchrAt cp (tp.length - cp) = some none := by
  rw [memchrAt_eq hcp, h]
  rfl

/-- Where the number in a string ends. -/
theorem valueEnd_iff (text : Bytes) : cp + (text.length - (strtoumax text).rest.length) ≠ cp + text.length ↔
    (strtoumax text).rest ≠ [] := by
  have hle := strtoumax_rest_le text
  rw [ne_eq, ne_eq, ← List.length_eq_zero_iff]
  by_cases ht : text = []
  · subst ht
    simp at hle ⊢
    exact hle
  · have := List.length_pos_iff.mpr ht
    omega

theorem parseOackLoop_none (optreq optack : Optreq) (hcp : cp < tp.length) (h : memchrNul (tp.drop cp) = none) :
    parseOackLoop optreq tp cp optack = some none := by
  have hchr := memchrAt_none hcp.le h
  rw [parseOackLoop, if_pos hcp]
  split
  · rename_i h'
    rw [hchr] at h'
    cases h'
  · rfl
  · rename_i h'
    rw [hchr] at h'
    cases h'

/-- The loop takes one pair and goes on behind it. -/
theorem parseOackLoop_some (optreq optack : Optreq) {option val : Bytes}
    (h : memchrNul (tp.drop cp) = some (option, val)) :
    parseOackLoop optreq tp cp optack = if option = [] ∨ val = [] then some none
      else (memchrNul val).elim (some none) fun p => if p.1 = [] then some none
        else (takePair optreq optack (option, p.1)).elim (some none) fun optack =>
          parseOackLoop optreq tp (cp + option.length + 1 + p.1.length + 1) optack := by
  obtain ⟨ho, hdrop⟩ := memchrNul_eq_some h
  have hlen := length_of_drop hdrop
  have hnext := drop_next hdrop
  have hchr := memchrAt_of_drop ho hdrop
  rw [parseOackLoop, if_pos (by omega)]
  split
  · rename_i h'
    rw [hchr] at h'
    cases h'
  · rename_i h'
    rw [hchr] at h'
    cases h'
  · rename_i nul h'
    obtain rfl := Option.some.inj (Option.some.inj (hchr.symm.trans h'))
    by_cases hne : option = []
    · rw [if_pos (by simp [hne]), if_pos (.inl hne)]
    by_cases hvne : val = []
    · rw [if_neg (by simpa using hne), if_pos (by rw [hlen, hvne]; simp), if_pos (.inr hvne)]
    have hpos := List.length_pos_iff.mpr hvne
    rw [if_neg (by simpa using hne), if_neg (by omega), if_neg (by simp [hne, hvne])]
    cases hvalue : memchrNul val with
    | none =>
      have hle : cp + option.length + 1 ≤ tp.length := by omega
      have hchr' := memchrAt_none hle (by rw [hnext, hvalue])
      split
      · rename_i h''
        rw [hchr'] at h''
        cases h''
      · rfl
      · rename_i h''
        rw [hchr'] at h''
        cases h''
    | some p =>
      obtain ⟨ht, hdrop'⟩ := memchrNul_eq_some hvalue
      have hchr' := memchrAt_of_drop ht (hnext.trans hdrop')
      split
      · rename_i h''
        rw [hchr'] at h''
        cases h''
      · rename_i h''
        rw [hchr'] at h''
        cases h''
      · rename_i nul' h''
        obtain rfl := Option.some.inj (Option.some.inj (hchr'.symm.trans h''))
        rw [Option.elim_some]
        by_cases hpne : p.1 = []
        · rw [if_pos (by simp [hpne]), if_pos hpne]
        rw [if_neg (by simpa using hpne), if_neg hpne, stringAt_of_drop ho hdrop,
          stringAt_of_drop ht (hnext.trans hdrop')]
        simp only [valueEnd_iff, takePair]
        split_ifs
        · rfl
        · cases ackOption optreq optack option (strtoumax p.1).value <;> rfl

/-- The loop reads the strings of the packet and nothing else. -/
theorem parseOackLoop_eq (optreq optack : Optreq) (hcp : cp ≤ tp.length) :
    parseOackLoop optreq tp cp optack = some (parseOackOptions optreq optack (tp.drop cp)) := by
  induction hn : tp.length - cp using Nat.strong_induction_on generalizing cp optack with
  | _ n ih =>
    by_cases hend : cp = tp.length
    · rw [parseOackLoop, parseOackOptions, if_neg (by omega), if_pos (by simp [hend])]
    cases h : memchrNul (tp.drop cp) with
    | none =>
      rw [parseOackLoop_none _ _ (by omega) h, parseOackOptions_none _ _ (by simp; omega) h]
    | some p =>
      obtain ⟨-, hdrop⟩ := memchrNul_eq_some h
      have hlen := length_of_drop hdrop
      have hnext := drop_next hdrop
      rw [parseOackLoop_some _ _ h, parseOackOptions_some _ _ h]
      split_ifs with hnil
      · rfl
      cases hvalue : memchrNul p.2 with
      | none => rfl
      | some q =>
        obtain ⟨-, hdrop'⟩ := memchrNul_eq_some hvalue
        have hlen' := length_of_drop (hnext.trans hdrop')
        have hnext' := drop_next (hnext.trans hdrop')
        rw [Option.elim_some, Option.bind_some]
        split_ifs with hq
        · rfl
        cases takePair optreq optack (p.1, q.1) with
        | none => rfl
        | some optack' =>
          rw [Option.elim_some, Option.bind_some, ← hnext']
          exact ih _ (by omega) optack' (by omega) rfl

end

/-- `parse_oack` reads nothing outside the packet. -/
theorem parseOackAt_eq (optreq : Optreq) (tp : Packet) : parseOackAt optreq tp = some (parseOack optreq tp) := by
  unfold parseOackAt parseOack
  by_cases hlen : tp.length ≤ 2
  · rw [if_pos hlen, if_pos (.inl hlen)]
  rw [if_neg hlen]
  match tp, hlen with
  | [], hlen => exact absurd (Nat.zero_le 2) hlen
  | [_], hlen => exact absurd (by simp) hlen
  | b₀ :: b₁ :: body, hlen =>
    by_cases hop : ntohs b₀ b₁ = Opcode.oack.code
    · have hpass : ¬ ((b₀ :: b₁ :: body).length ≤ 2 ∨ Packet.opcode (b₀ :: b₁ :: body) ≠ Opcode.oack.code) := by
        rintro (h | h)
        · exact hlen h
        · exact h hop
      rw [if_neg hpass]
      simp only [List.getElem?_cons_zero, List.getElem?_cons_succ, hop, ne_eq, not_true, if_false]
      exact parseOackLoop_eq optreq optreqInit (by omega)
    · rw [if_pos (.inr hop)]
      simp [hop]

/-! ### What the client takes -/

/-- The numbers the client takes for an option. -/
def Optreq.inRange (optreq : Optreq) (o : ProtocolOption) (v : ℕ) : Bool :=
  match o with
  | .blksize => 8 ≤ v && v ≤ optreq.blksize
  | .windowsize => 1 ≤ v && v ≤ optreq.window
  | .tsize => true
  | _ => false

/-- The answer after an option has been taken. -/
def Optreq.taken (optack : Optreq) (o : ProtocolOption) (v : ℕ) : Optreq :=
  match o with
  | .blksize => { optack with blksize := v, options := Function.update optack.options .blksize true }
  | .windowsize => { optack with window := v, options := Function.update optack.options .windowsize true }
  | .tsize => { optack with tsize := offOfUintmax v, options := fun o => o = .tsize }
  | _ => optack

theorem names_iff (o : ProtocolOption) {p : Bytes × Bytes} (h : (0 : UInt8) ∉ p.1) :
    asciiStrcaseeq p.1 o.name = true ↔ o.names p = true := by
  rw [asciiStrcaseeq, asciiStrncaseeq_comm, ProtocolOption.names, decide_eq_true_eq, ← o.asciiStrcaseeq_name h]
  rfl

theorem eq_of_names {o o' : ProtocolOption} {p : Bytes × Bytes} (h : o.names p = true) (h' : o'.names p = true) :
    o = o' := ProtocolOption.name_injective ((of_decide_eq_true h).symm.trans (of_decide_eq_true h'))

theorem ackOption_eq (optreq optack : Optreq) {o : ProtocolOption} {p : Bytes × Bytes} (h0 : (0 : UInt8) ∉ p.1)
    (ho : o.names p = true) (v : ℕ) :
    ackOption optreq optack p.1 v =
      if optack.options o = false ∧ optreq.options o = true ∧ optreq.inRange o v = true then some (optack.taken o v)
      else none := by
  have hcase : ∀ o' : ProtocolOption, asciiStrcaseeq p.1 o'.name = decide (o' = o) := fun o' => by
    rw [Bool.eq_iff_iff, decide_eq_true_eq, names_iff o' h0]
    exact ⟨fun h => eq_of_names h ho, fun h => h ▸ ho⟩
  have hblk : asciiStrcaseeq p.1 (cstr "blksize") = decide (.blksize = o) := hcase .blksize
  have hwin : asciiStrcaseeq p.1 (cstr "windowsize") = decide (.windowsize = o) := hcase .windowsize
  have hts : asciiStrcaseeq p.1 (cstr "tsize") = decide (.tsize = o) := hcase .tsize
  simp only [ackOption, hblk, hwin, hts]
  cases o <;> simp [Optreq.inRange, Optreq.taken, MIN_SEGSIZE]
  all_goals grind

theorem ackOption_unknown (optreq optack : Optreq) {p : Bytes × Bytes} (h0 : (0 : UInt8) ∉ p.1)
    (ho : ∀ o : ProtocolOption, o.names p = false) (v : ℕ) : ackOption optreq optack p.1 v = none := by
  have hcase : ∀ o' : ProtocolOption, asciiStrcaseeq p.1 o'.name = false := fun o' => by
    rw [← Bool.not_eq_true, names_iff o' h0, ho]
    decide
  have hblk : asciiStrcaseeq p.1 (cstr "blksize") = false := hcase .blksize
  have hwin : asciiStrcaseeq p.1 (cstr "windowsize") = false := hcase .windowsize
  have hts : asciiStrcaseeq p.1 (cstr "tsize") = false := hcase .tsize
  simp [ackOption, hblk, hwin, hts]

/-- A pair is acceptable by itself: an option that was asked for, with a number in its
range that `strtoumax` takes the whole value for. -/
def Optreq.Takes (optreq : Optreq) (p : Bytes × Bytes) : Prop :=
  (strtoumax p.2).erange = false ∧ (strtoumax p.2).rest = [] ∧
    ∃ o : ProtocolOption, o.names p = true ∧ optreq.options o = true ∧ optreq.inRange o (strtoumax p.2).value = true

/-- The option comes again: before the next `tsize`, or anywhere if it is `tsize` itself. -/
def Again (o : ProtocolOption) (ps : List (Bytes × Bytes)) : Prop :=
  ∃ q ∈ if o = .tsize then ps else ps.takeWhile fun q => !ProtocolOption.tsize.names q, o.names q = true

/-- Some option comes again like that. -/
def Repeats : List (Bytes × Bytes) → Prop
  | [] => False
  | p :: ps => (∃ o : ProtocolOption, o.names p = true ∧ Again o ps) ∨ Repeats ps

theorem not_again_nil (o : ProtocolOption) : ¬ Again o [] := by
  simp [Again]

theorem again_cons {o : ProtocolOption} {p : Bytes × Bytes} {ps : List (Bytes × Bytes)} :
    Again o (p :: ps) ↔ o.names p = true ∧ (o = .tsize ∨ ProtocolOption.tsize.names p = false) ∨
      (o = .tsize ∨ ProtocolOption.tsize.names p = false) ∧ Again o ps := by
  by_cases ho : o = .tsize
  · subst ho
    simp [Again]
  · cases hp : ProtocolOption.tsize.names p <;> simp [Again, ho, hp]

/-- Again, next to a pair about a known option. -/
theorem again_cons_of_names {o o' : ProtocolOption} {p : Bytes × Bytes} (ho : o.names p = true)
    {ps : List (Bytes × Bytes)} :
    Again o' (p :: ps) ↔ o' = o ∨ (o' = .tsize ∨ o ≠ .tsize) ∧ Again o' ps := by
  have hnames : ∀ o'', o''.names p = true ↔ o'' = o := fun o'' => ⟨fun h => eq_of_names h ho, fun h => h ▸ ho⟩
  rw [again_cons, hnames, ← Bool.not_eq_true, hnames, eq_comm (a := ProtocolOption.tsize)]
  refine or_congr_left ⟨fun h => h.1, fun h => ⟨h, ?_⟩⟩
  rw [h]
  exact em _

theorem takes_iff {optreq : Optreq} {o : ProtocolOption} {p : Bytes × Bytes} (ho : o.names p = true) :
    optreq.Takes p ↔ ((strtoumax p.2).erange = false ∧ (strtoumax p.2).rest = []) ∧ optreq.options o = true ∧
      optreq.inRange o (strtoumax p.2).value = true := by
  rw [and_assoc]
  refine and_congr_right fun _ => and_congr_right fun _ => ⟨?_, fun h => ⟨o, ho, h⟩⟩
  rintro ⟨o', ho', h⟩
  exact eq_of_names ho' ho ▸ h

theorem takePair_eq (optreq optack : Optreq) {o : ProtocolOption} {p : Bytes × Bytes} (h0 : (0 : UInt8) ∉ p.1)
    (ho : o.names p = true) (a : Optreq) :
    takePair optreq optack p = some a ↔
      optreq.Takes p ∧ optack.options o = false ∧ a = optack.taken o (strtoumax p.2).value := by
  rw [takePair, ackOption_eq optreq optack h0 ho, takes_iff ho]
  split_ifs with hbad htake
  · refine iff_of_false (by simp) ?_
    rintro ⟨⟨⟨herange, hrest⟩, -⟩, -⟩
    rcases hbad with h | h
    · simp [herange] at h
    · exact h hrest
  · rw [not_or, not_not, Bool.not_eq_true] at hbad
    simp [hbad, htake, eq_comm]
  · refine iff_of_false (by simp) ?_
    rintro ⟨⟨-, h₁, h₂⟩, h₃, -⟩
    exact htake ⟨h₃, h₁, h₂⟩

/-- Which options are noted after one more has been taken. -/
theorem taken_options {optreq : Optreq} (optack : Optreq) {o : ProtocolOption} {v : ℕ}
    (h : optreq.inRange o v = true) (o' : ProtocolOption) :
    (optack.taken o v).options o' = true ↔ o' = o ∨ o ≠ .tsize ∧ optack.options o' = true := by
  cases o with
  | blksize => by_cases ho : o' = .blksize <;> simp [Optreq.taken, ho]
  | windowsize => by_cases ho : o' = .windowsize <;> simp [Optreq.taken, ho]
  | tsize => simp [Optreq.taken]
  | _ => cases h

/-- The client takes pairs that are acceptable, if none comes again and none is about an
option it has already noted. -/
theorem foldlM_takePair_iff (optreq : Optreq) {ps : List (Bytes × Bytes)} (h0 : ∀ p ∈ ps, (0 : UInt8) ∉ p.1)
    (optack : Optreq) :
    (∃ a, ps.foldlM (takePair optreq) optack = some a) ↔
      (∀ p ∈ ps, optreq.Takes p) ∧ ¬ Repeats ps ∧ ∀ o, optack.options o = true → ¬ Again o ps := by
  induction ps generalizing optack with
  | nil => simp [Repeats, not_again_nil]
  | cons p ps ih =>
    have hp := h0 p (by simp)
    have hps : ∀ q ∈ ps, (0 : UInt8) ∉ q.1 := fun q hq => h0 q (by simp [hq])
    have hstep : (∃ a, (p :: ps).foldlM (takePair optreq) optack = some a) ↔
        ∃ optack', takePair optreq optack p = some optack' ∧ ∃ a, ps.foldlM (takePair optreq) optack' = some a := by
      simp only [List.foldlM_cons, Option.bind_eq_bind, Option.bind_eq_some_iff]
      exact ⟨fun ⟨a, b, h₁, h₂⟩ => ⟨b, h₁, a, h₂⟩, fun ⟨b, h₁, a, h₂⟩ => ⟨a, b, h₁, h₂⟩⟩
    rw [hstep, List.forall_mem_cons]
    by_cases hknown : ∃ o : ProtocolOption, o.names p = true
    · obtain ⟨o, ho⟩ := hknown
      have hrepeats : Repeats (p :: ps) ↔ Again o ps ∨ Repeats ps := by
        refine or_congr_left ⟨fun ⟨o', ho', h⟩ => eq_of_names ho' ho ▸ h, fun h => ⟨o, ho, h⟩⟩
      simp only [takePair_eq optreq optack hp ho, hrepeats, again_cons_of_names ho, not_or]
      constructor
      · rintro ⟨_, ⟨htakes, hnew, rfl⟩, hrest⟩
        obtain ⟨hall, hnot, hseen⟩ := (ih hps _).mp hrest
        have hopts := taken_options optack ((takes_iff ho).mp htakes).2.2
        refine ⟨⟨htakes, hall⟩, ⟨hseen o ((hopts o).mpr (.inl rfl)), hnot⟩, fun o' ho' => ⟨?_, ?_⟩⟩
        · rintro rfl
          rw [hnew] at ho'
          cases ho'
        · rintro ⟨htsize | htsize, hagain⟩
          · subst htsize
            by_cases hot : o = .tsize
            · rw [← hot, hnew] at ho'
              cases ho'
            · exact hseen _ ((hopts _).mpr (.inr ⟨hot, ho'⟩)) hagain
          · exact hseen _ ((hopts _).mpr (.inr ⟨htsize, ho'⟩)) hagain
      · rintro ⟨⟨htakes, hall⟩, ⟨hagain, hnot⟩, hseen⟩
        have hopts := taken_options optack ((takes_iff ho).mp htakes).2.2
        have hnew : optack.options o = false := by
          cases hv : optack.options o with
          | false => rfl
          | true => exact absurd rfl (hseen o hv).1
        refine ⟨_, ⟨htakes, hnew, rfl⟩, (ih hps _).mpr ⟨hall, hnot, fun o' ho' => ?_⟩⟩
        rcases (hopts o').mp ho' with rfl | ⟨hot, ho'⟩
        · exact hagain
        · exact fun h => (hseen o' ho').2 ⟨.inr hot, h⟩
    · have hno : ∀ o : ProtocolOption, o.names p = false := by simpa using hknown
      refine iff_of_false ?_ ?_
      · rintro ⟨optack', h, -⟩
        rw [takePair, ackOption_unknown optreq optack hp hno, ite_self] at h
        cases h
      · rintro ⟨⟨⟨-, -, o, ho, -⟩, -⟩, -⟩
        exact hknown ⟨o, ho⟩

/-! ### The grammar of an OACK -/

/-- Names and values that are strings. -/
def Strings (ps : List (Bytes × Bytes)) : Prop :=
  ∀ p ∈ ps, (p.1 ≠ [] ∧ (0 : UInt8) ∉ p.1) ∧ p.2 ≠ [] ∧ (0 : UInt8) ∉ p.2

theorem join_unpair_cons (p : Bytes × Bytes) (ps : List (Bytes × Bytes)) :
    join 0 (unpair (p :: ps)) = p.1 ++ 0 :: (p.2 ++ 0 :: join 0 (unpair ps)) := by
  simp [join, unpair]

/-- The client takes a text pair by pair. -/
theorem parseOackOptions_iff (optreq optack : Optreq) (body : Bytes) (a : Optreq) :
    parseOackOptions optreq optack body = some a ↔ ∃ ps, body = join 0 (unpair ps) ∧ Strings ps ∧
      ps.foldlM (takePair optreq) optack = some a := by
  constructor
  · induction hn : body.length using Nat.strong_induction_on generalizing body optack with
    | _ n ih =>
      intro h
      by_cases hne : body = []
      · subst hne
        rw [parseOackOptions, if_pos rfl] at h
        exact ⟨[], rfl, by simp [Strings], h⟩
      cases hm : memchrNul body with
      | none =>
        rw [parseOackOptions_none _ _ hne hm] at h
        cases h
      | some p =>
        rw [parseOackOptions_some _ _ hm] at h
        split_ifs at h with hnil
        rw [not_or] at hnil
        obtain ⟨q, hq, h⟩ := Option.bind_eq_some_iff.mp h
        split_ifs at h with hqnil
        obtain ⟨optack', htake, h⟩ := Option.bind_eq_some_iff.mp h
        obtain ⟨hp0, hbody⟩ := memchrNul_eq_some hm
        obtain ⟨hq0, hval⟩ := memchrNul_eq_some hq
        obtain ⟨ps, hrest, hstrings, hfold⟩ := ih q.2.length
          (by rw [← hn]; exact (memchrNul_length hq).trans (memchrNul_length hm)) optack' q.2 rfl h
        refine ⟨(p.1, q.1) :: ps, ?_, ?_, ?_⟩
        · rw [join_unpair_cons, ← hrest, ← hval]
          exact hbody
        · exact List.forall_mem_cons.mpr ⟨⟨⟨hnil.1, hp0⟩, hqnil, hq0⟩, hstrings⟩
        · rw [List.foldlM_cons, htake]
          exact hfold
  · rintro ⟨ps, rfl, hstrings, h⟩
    induction ps generalizing optack with
    | nil => exact (parseOackOptions_nil optreq optack).trans h
    | cons p ps ih =>
      obtain ⟨⟨⟨hne, h0⟩, hvne, hv0⟩, hstrings⟩ := List.forall_mem_cons.mp hstrings
      rw [List.foldlM_cons] at h
      obtain ⟨optack', htake, h⟩ := Option.bind_eq_some_iff.mp h
      rw [join_unpair_cons, parseOackOptions_some _ _ (memchrNul_append h0 _), if_neg (by simp [hne]),
        memchrNul_append hv0, Option.bind_some, if_neg hvne, htake, Option.bind_some]
      exact ih optack' hstrings h

/-- The packet is an OACK of these pairs. -/
structure OackOf (tp : Packet) (ps : List (Bytes × Bytes)) : Prop where
  opcode : tp.opcode = Opcode.oack.code
  length : 2 < tp.length
  body : tp.drop 2 = join 0 (unpair ps)
  strings : Strings ps

theorem OackOf.unique {tp : Packet} {ps ps' : List (Bytes × Bytes)} (h : OackOf tp ps) (h' : OackOf tp ps') :
    ps = ps' := by
  have hsplit := congrArg (splitPairs 0) (h.body.symm.trans h'.body)
  rwa [splitPairs_join fun p hp => ⟨(h.strings p hp).1.2, (h.strings p hp).2.2⟩,
    splitPairs_join fun p hp => ⟨(h'.strings p hp).1.2, (h'.strings p hp).2.2⟩, Option.some_inj] at hsplit

theorem parseOackAt_iff (optreq : Optreq) (tp : Packet) (a : Optreq) :
    parseOackAt optreq tp = some (some a) ↔ ∃ ps, OackOf tp ps ∧ ps.foldlM (takePair optreq) optreqInit = some a := by
  rw [parseOackAt_eq, Option.some_inj, parseOack]
  split_ifs with hbad
  · refine iff_of_false (by simp) ?_
    rintro ⟨ps, h, -⟩
    rcases hbad with hbad | hbad
    · exact absurd h.length (by omega)
    · exact hbad h.opcode
  · rw [not_or, not_not] at hbad
    rw [parseOackOptions_iff]
    exact ⟨fun ⟨ps, hb, hs, hf⟩ => ⟨ps, ⟨hbad.2, by omega, hb, hs⟩, hf⟩, fun ⟨ps, h, hf⟩ => ⟨ps, h.body, h.strings, hf⟩⟩

/-- A pair the client should accept: an option it has asked for, with a number of digits
only that is in range. -/
def Optreq.Allows (optreq : Optreq) (p : Bytes × Bytes) : Prop :=
  p.2.all Decimal.isDigit = true ∧
    ∃ o : ProtocolOption, o.names p = true ∧ optreq.options o = true ∧ optreq.inRange o (Decimal.value p.2) = true

/-- An OACK the client should accept. -/
structure Acceptable (optreq : Optreq) (tp : Packet) (ps : List (Bytes × Bytes)) : Prop extends OackOf tp ps where
  allows : ∀ p ∈ ps, optreq.Allows p
  once : (ps.map fun p => p.1.map asciiTolower).Nodup

/-- The number listed for an option. -/
def listed (ps : List (Bytes × Bytes)) (o : ProtocolOption) (otherwise : ℤ) : ℤ :=
  (ps.find? o.names).elim otherwise fun p => Decimal.value p.2

/-- `parse_oack` as it should be: it reads only the packet, accepts what is acceptable
and takes over the numbers listed, with the defaults for the others. -/
structure OackExact (optreq : Optreq) (tp : Packet) : Prop where
  reads : (parseOackAt optreq tp).isSome = true
  accepts : (∃ optack, parseOackAt optreq tp = some (some optack)) ↔ ∃ ps, Acceptable optreq tp ps
  values : ∀ optack ps, parseOackAt optreq tp = some (some optack) → Acceptable optreq tp ps →
    optack.blksize = listed ps .blksize 512 ∧ optack.window = listed ps .windowsize 1 ∧
      optack.tsize = listed ps .tsize (-1)

/-- Where it is so: of the packets whose values `strtoumax` takes and in which an option
comes again only after `tsize`, this one has digits only and no option twice, and a
`tsize` fits `off_t`. -/
structure OackPlain (optreq : Optreq) (tp : Packet) : Prop where
  plain : ∀ ps, OackOf tp ps → (∀ p ∈ ps, optreq.Takes p) → ¬ Repeats ps →
    (∀ p ∈ ps, p.2.all Decimal.isDigit = true) ∧ (ps.map fun p => p.1.map asciiTolower).Nodup
  fits : ∀ ps, Acceptable optreq tp ps → ∀ p ∈ ps, ProtocolOption.tsize.names p = true →
    Decimal.value p.2 ≤ OFF_T_MAX

/-! ### Where the check is right -/

section

variable {optreq : Optreq} {ps : List (Bytes × Bytes)}

theorem strtoumax_value_le (s : Bytes) : (strtoumax s).value ≤ uintmaxMax := by
  simp only [strtoumax]
  generalize s.dropWhile isspace = body
  generalize (if body.headD 0 = 43 ∨ body.headD 0 = 45 then body.tail else body) = digits
  split_ifs with _ hmax
  · exact Nat.zero_le _
  · exact le_rfl
  · unfold uintmaxMax
    dsimp only
    omega
  · exact Nat.not_lt.mp hmax

theorem offOfUintmax_le {v : ℕ} (h : v ≤ uintmaxMax) : offOfUintmax v ≤ OFF_T_MAX := by
  unfold uintmaxMax at h
  unfold offOfUintmax OFF_T_MAX
  split_ifs <;> omega

/-- A name that occurs once does not come again. -/
theorem not_repeats_of_nodup (h : (ps.map fun p => p.1.map asciiTolower).Nodup) : ¬ Repeats ps := by
  induction ps with
  | nil => exact id
  | cons p ps ih =>
    rw [List.map_cons, List.nodup_cons] at h
    rintro (⟨o, ho, q, hq, hoq⟩ | hrest)
    · have hmem : q ∈ ps := by
        split_ifs at hq
        · exact hq
        · exact (List.takeWhile_sublist _).subset hq
      refine h.1 (List.mem_map.mpr ⟨q, hmem, ?_⟩)
      exact (of_decide_eq_true hoq).trans (of_decide_eq_true ho).symm
    · exact ih h.2 hrest

/-- Digits that `strtoumax` takes are acceptable. -/
theorem Optreq.Takes.allows {p : Bytes × Bytes} (h : optreq.Takes p) (hne : p.2 ≠ [])
    (hdig : p.2.all Decimal.isDigit = true) : optreq.Allows p := by
  obtain ⟨herange, -, o, ho, hopt, hrange⟩ := h
  refine ⟨hdig, o, ho, hopt, ?_⟩
  rwa [(strtoumax_of_digits hne hdig).2.2 herange] at hrange

theorem Optreq.Allows.takes {p : Bytes × Bytes} (h : optreq.Allows p) (hne : p.2 ≠ [])
    (hmax : Decimal.value p.2 ≤ uintmaxMax) : optreq.Takes p ∧ (strtoumax p.2).value = Decimal.value p.2 := by
  obtain ⟨hdig, o, ho, hopt, hrange⟩ := h
  obtain ⟨hrest, herange, hvalue⟩ := strtoumax_of_digits hne hdig
  have hfalse : (strtoumax p.2).erange = false := by
    rw [← Bool.not_eq_true, herange]
    omega
  rw [← hvalue hfalse] at hrange
  exact ⟨⟨hfalse, hrest, o, ho, hopt, hrange⟩, hvalue hfalse⟩

/-- The values after a list of pairs without repetition are those of the pairs. -/
theorem foldlM_takePair_values {optack a : Optreq} (h0 : ∀ p ∈ ps, (0 : UInt8) ∉ p.1)
    (hnodup : (ps.map fun p => p.1.map asciiTolower).Nodup) (h : ps.foldlM (takePair optreq) optack = some a) :
    a.blksize = (ps.find? ProtocolOption.blksize.names).elim optack.blksize (fun p => (strtoumax p.2).value) ∧
    a.window = (ps.find? ProtocolOption.windowsize.names).elim optack.window (fun p => (strtoumax p.2).value) ∧
    a.tsize = (ps.find? ProtocolOption.tsize.names).elim optack.tsize
      (fun p => offOfUintmax (strtoumax p.2).value) := by
  induction ps generalizing optack with
  | nil =>
    cases h
    exact ⟨rfl, rfl, rfl⟩
  | cons p ps ih =>
    rw [List.foldlM_cons] at h
    obtain ⟨optack', htake, h⟩ := Option.bind_eq_some_iff.mp h
    rw [List.map_cons, List.nodup_cons] at hnodup
    obtain ⟨hblk, hwin, hts⟩ := ih (fun q hq => h0 q (by simp [hq])) hnodup.2 h
    obtain ⟨o, ho⟩ : ∃ o : ProtocolOption, o.names p = true := by
      by_contra hno
      rw [takePair, ackOption_unknown optreq optack (h0 p (by simp)) (by simpa using hno), ite_self] at htake
      cases htake
    obtain ⟨htakes, -, rfl⟩ := (takePair_eq optreq optack (h0 p (by simp)) ho _).mp htake
    have hfind : ∀ o', (p :: ps).find? o'.names = if o' = o then some p else ps.find? o'.names := by
      intro o'
      split_ifs with he
      · rw [he, List.find?_cons_of_pos ho]
      · exact List.find?_cons_of_neg fun h => he (eq_of_names h ho)
    have hnone : ps.find? o.names = none := by
      refine List.find?_eq_none.mpr fun q hq hoq => hnodup.1 (List.mem_map.mpr ⟨q, hq, ?_⟩)
      exact (of_decide_eq_true hoq).trans (of_decide_eq_true ho).symm
    have hrange := ((takes_iff ho).mp htakes).2.2
    rw [hfind, hfind, hfind, hblk, hwin, hts]
    cases o with
    | blksize => simp [hnone, Optreq.taken]
    | windowsize => simp [hnone, Optreq.taken]
    | tsize => simp [hnone, Optreq.taken]
    | _ => cases hrange

variable {tp : Packet}

/-- The client accepts the packets of acceptable pairs in which none comes again. -/
theorem OackOf.accepted_iff (h : OackOf tp ps) : (∃ optack, parseOackAt optreq tp = some (some optack)) ↔
    (∀ p ∈ ps, optreq.Takes p) ∧ ¬ Repeats ps := by
  have hinit : ∀ o, optreqInit.options o = true → ¬ Again o ps := fun o ho => by cases ho
  have hfold := foldlM_takePair_iff optreq (fun p hp => (h.strings p hp).1.2) optreqInit
  constructor
  · rintro ⟨a, ha⟩
    obtain ⟨ps', h', hf⟩ := (parseOackAt_iff optreq tp a).mp ha
    obtain rfl := h.unique h'
    exact ⟨(hfold.mp ⟨a, hf⟩).1, (hfold.mp ⟨a, hf⟩).2.1⟩
  · rintro ⟨htakes, hrepeats⟩
    obtain ⟨a, ha⟩ := hfold.mpr ⟨htakes, hrepeats, hinit⟩
    exact ⟨a, (parseOackAt_iff optreq tp a).mpr ⟨ps, h, ha⟩⟩

/-- The values of a packet in which no option stands twice. -/
theorem OackOf.values (h : OackOf tp ps) (hnodup : (ps.map fun p => p.1.map asciiTolower).Nodup) {optack : Optreq}
    (ha : parseOackAt optreq tp = some (some optack)) :
    optack.blksize = (ps.find? ProtocolOption.blksize.names).elim 512 (fun p => (strtoumax p.2).value) ∧
    optack.window = (ps.find? ProtocolOption.windowsize.names).elim 1 (fun p => (strtoumax p.2).value) ∧
    optack.tsize = (ps.find? ProtocolOption.tsize.names).elim (-1)
      (fun p => offOfUintmax (strtoumax p.2).value) := by
  obtain ⟨ps', h', hf⟩ := (parseOackAt_iff optreq tp optack).mp ha
  obtain rfl := h.unique h'
  exact foldlM_takePair_values (fun p hp => (h.strings p hp).1.2) hnodup hf

theorem Acceptable.find_tsize (h : Acceptable optreq tp ps) {p : Bytes × Bytes} (hp : p ∈ ps)
    (hname : ProtocolOption.tsize.names p = true) : ps.find? ProtocolOption.tsize.names = some p := by
  obtain ⟨q, hq⟩ := Option.isSome_iff_exists.mp (List.find?_isSome.mpr ⟨p, hp, hname⟩)
  have hqname := List.find?_some hq
  rw [hq, List.inj_on_of_nodup_map h.once (List.mem_of_find?_eq_some hq) hp
    ((of_decide_eq_true hqname).trans (of_decide_eq_true hname).symm)]

/-- Acceptable numbers are small enough for `strtoumax`, if those of `tsize` fit `off_t`. -/
theorem Acceptable.takes (h : Acceptable optreq tp ps) (hblk : optreq.blksize < 2 ^ 32) (hwin : optreq.window < 2 ^ 32)
    (hfits : ∀ p ∈ ps, ProtocolOption.tsize.names p = true → Decimal.value p.2 ≤ OFF_T_MAX) :
    ∀ p ∈ ps, optreq.Takes p ∧ (strtoumax p.2).value = Decimal.value p.2 := by
  intro p hp
  obtain ⟨-, o, ho, -, hrange⟩ := h.allows p hp
  refine (h.allows p hp).takes (h.strings p hp).2.1 ?_
  have hmax : uintmaxMax = 2 ^ 64 - 1 := rfl
  cases o with
  | blksize =>
    simp only [Optreq.inRange, Bool.and_eq_true, decide_eq_true_eq] at hrange
    omega
  | windowsize =>
    simp only [Optreq.inRange, Bool.and_eq_true, decide_eq_true_eq] at hrange
    omega
  | tsize => exact (hfits p hp ho).trans (by decide)
  | _ => cases hrange

theorem listed_eq {o : ProtocolOption} {n d : ℕ}
    (h : n = (ps.find? o.names).elim d (fun p => (strtoumax p.2).value))
    (hv : ∀ p ∈ ps, (strtoumax p.2).value = Decimal.value p.2) : (n : ℤ) = listed ps o d := by
  rw [listed, h]
  cases hf : ps.find? o.names with
  | none => rfl
  | some p => exact congrArg Nat.cast (hv p (List.mem_of_find?_eq_some hf))

/-- `parse_oack` is exact where the packet is plain, and nowhere else. -/
theorem oack_exact_iff (hblk : optreq.blksize < 2 ^ 32) (hwin : optreq.window < 2 ^ 32) (tp : Packet) :
    OackExact optreq tp ↔ OackPlain optreq tp := by
  constructor
  · intro h
    refine ⟨fun ps hof htakes hrepeats => ?_, fun ps hacc p hp hname => ?_⟩
    · obtain ⟨ps', hacc⟩ := h.accepts.mp (hof.accepted_iff.mpr ⟨htakes, hrepeats⟩)
      obtain rfl := hof.unique hacc.toOackOf
      exact ⟨fun p hp => (hacc.allows p hp).1, hacc.once⟩
    · -- the number listed is one the client holds as `off_t`
      obtain ⟨optack, ha⟩ := h.accepts.mpr ⟨ps, hacc⟩
      have hlisted := (h.values optack ps ha hacc).2.2
      have hvalue := (hacc.toOackOf.values hacc.once ha).2.2
      rw [listed, hacc.find_tsize hp hname] at hlisted
      rw [hacc.find_tsize hp hname] at hvalue
      have hle := offOfUintmax_le (strtoumax_value_le p.2)
      rw [Option.elim_some] at hlisted hvalue
      rw [← hvalue, hlisted] at hle
      exact_mod_cast hle
  · intro h
    have hreads : (parseOackAt optreq tp).isSome = true := by
      rw [parseOackAt_eq]
      rfl
    refine ⟨hreads, ⟨?_, ?_⟩, ?_⟩
    · rintro ⟨optack, ha⟩
      obtain ⟨ps, hof, -⟩ := (parseOackAt_iff optreq tp optack).mp ha
      obtain ⟨htakes, hrepeats⟩ := hof.accepted_iff.mp ⟨optack, ha⟩
      obtain ⟨hdig, hnodup⟩ := h.plain ps hof htakes hrepeats
      exact ⟨ps, hof, fun p hp => (htakes p hp).allows (hof.strings p hp).2.1 (hdig p hp), hnodup⟩
    · rintro ⟨ps, hacc⟩
      have htakes := hacc.takes hblk hwin (h.fits ps hacc)
      exact hacc.toOackOf.accepted_iff.mpr ⟨fun p hp => (htakes p hp).1, not_repeats_of_nodup hacc.once⟩
    · intro optack ps ha hacc
      have htakes := hacc.takes hblk hwin (h.fits ps hacc)
      have hvalues : ∀ p ∈ ps, (strtoumax p.2).value = Decimal.value p.2 := fun p hp => (htakes p hp).2
      obtain ⟨h₁, h₂, h₃⟩ := hacc.toOackOf.values hacc.once ha
      refine ⟨listed_eq h₁ hvalues, listed_eq h₂ hvalues, ?_⟩
      rw [h₃, listed]
      cases hf : ps.find? ProtocolOption.tsize.names with
      | none => rfl
      | some p =>
        have hmem := List.mem_of_find?_eq_some hf
        have hle := h.fits ps hacc p hmem (List.find?_some hf)
        rw [Option.elim_some, Option.elim_some, hvalues p hmem, offOfUintmax, if_pos hle]

end

/-- A client that has asked for a block size of 1468 and for the size of the file. -/
def askedFoo : Optreq where
  options o := o = .blksize || o = .tsize
  window := 1
  blksize := 1468
  tsize := 0

def oackPacket (ps : List (Bytes × Bytes)) : Packet := htons Opcode.oack.code ++ join 0 (unpair ps)

/-- An answer with one block size. -/
def answerFoo : List (Bytes × Bytes) := [(cstr "blksize", cstr "1024"), (cstr "tsize", cstr "0")]

/-- An answer with two, and `tsize` between them. -/
def answerTwice : List (Bytes × Bytes) := answerFoo ++ [(cstr "blksize", cstr "512")]

/-- The client accepts the second block size. -/
theorem repeated_blksize_accepted :
    ∃ optack, parseOackAt askedFoo (oackPacket answerTwice) = some (some optack) ∧ optack.blksize = 512 ∧
      ¬ OackExact askedFoo (oackPacket answerTwice) := by
  have hof : OackOf (oackPacket answerTwice) answerTwice := ⟨rfl, by decide, rfl, by unfold Strings; decide⟩
  have hparse := (parseOackAt_iff askedFoo (oackPacket answerTwice) _).mpr ⟨answerTwice, hof, rfl⟩
  refine ⟨_, hparse, rfl, fun h => ?_⟩
  obtain ⟨ps, hacc⟩ := h.accepts.mp ⟨_, hparse⟩
  obtain rfl := hof.unique hacc.toOackOf
  exact absurd hacc.once (by decide)

/-- The answer with one block size is read as it should be. -/
theorem oack_exact_iff_foo : OackExact askedFoo (oackPacket answerFoo) := by
  have hof : OackOf (oackPacket answerFoo) answerFoo := ⟨rfl, by decide, rfl, by unfold Strings; decide⟩
  refine (oack_exact_iff (by decide) (by decide) _).mpr ⟨fun ps h _ _ => ?_, fun ps h => ?_⟩
  · obtain rfl := hof.unique h
    decide
  · obtain rfl := hof.unique h.toOackOf
    decide

end TftpHpa
