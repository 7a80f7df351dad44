import TftpHpa.Common.Text

/-! ERROR packets (`common/error.c`): how one is made, and how one from the peer is turned
into text. The packet from the peer is read where it lies in memory, so reading behind its
end is a matter of what is there; `printf` reads a string up to its NUL, whatever the width
it is given. -/

namespace TftpHpa

/-- `packet_types`. -/
def packetTypes : List Bytes :=
  [cstr "null", cstr "RRQ", cstr "WRQ", cstr "DATA", cstr "ACK", cstr "ERROR", cstr "OACK"]

/-- `errmsgs`, by TFTP error code. -/
def errmsgs : List Bytes :=
  [cstr "unspecified error", cstr "file not found", cstr "access denied", cstr "insufficient space for upload",
    cstr "invalid TFTP operation", cstr "unknown transfer ID", cstr "file already exists", cstr "no such user",
    cstr "options negotiation failure"]

/-- `error_msg`, for a TFTP error or a negative `errno`; `strerror` is that of the library. -/
def errorMsg (strerror : ℤ → Bytes) (err : ℤ) : Bytes :=
  if err < 0 then strerror (-err) else errmsgs[err.toNat]?.getD []

namespace Errno

def EPERM : ℤ := 1
def ENOENT : ℤ := 2
def EEXIST : ℤ := 17
def ENOTDIR : ℤ := 20
def ENOSPC : ℤ := 28

end Errno

/-- The error an ERROR packet gets, by the `switch` that `make_errpacket` and `nak` share. -/
def packetError (error : ℤ) (msg : Bytes) : ℤ :=
  if error = -Errno.ENOENT ∨ error = -Errno.ENOTDIR ∨ error = -Errno.EPERM then ErrorCode.notFound.code
  else if error = -Errno.ENOSPC then ErrorCode.noSpace.code
  else if error = -Errno.EEXIST then ErrorCode.exists.code
  else if error < 0 ∨ msg = [] then ErrorCode.undef.code
  else error

/-- An ERROR packet with a text and its NUL. -/
def errorPacket (error : ℤ) (text : Bytes) : Packet := header .error (UInt16.ofInt error) ++ (text ++ [0])

/-- `make_errpacket`. -/
def makeErrpacket (strerror : ℤ → Bytes) (error : ℤ) (msg : Option Bytes) : Packet :=
  let msg := msg.getD (errorMsg strerror error)
  errorPacket (packetError error msg) (msg.take (SEGSIZE - 1))

/-! ### Packets from the peer -/

/-- The test `*p < ' ' || *p == 127`, where `char` may be a signed type. -/
def endsMsg (signed : Bool) (c : UInt8) : Bool := c < 32 || signed && 128 ≤ c || c = 127

/-- The loop that looks for the end of the message: from offset `p`, with `left` bytes to the
end of the packet. Nothing stands for an access outside the buffer, here and below. -/
def cutMsg (signed : Bool) (tp : Bytes) : ℕ → ℕ → Option ℕ
  | 0, p => some p
  | left + 1, p => do
    let c ← tp[p]?
    if endsMsg signed c then some p else cutMsg signed tp left (p + 1)

/-- The ellipsis, for a message that ends at offset `p` of a packet of `n` bytes. -/
def ellipsis (tp : Bytes) (n p : ℕ) : Option Bytes :=
  if p ≠ n - 1 then some (cstr "...")
  else do
    let c ← tp[p]?
    some (if c ≠ 0 then cstr "..." else [])

/-- `%*s`. -/
def padded (width : ℕ) (s : Bytes) : Bytes := List.replicate (width - s.length) 32 ++ s

/-- What comes before the message. -/
def errorName (nerr : UInt16) : Bytes :=
  (errmsgs[nerr.toNat]?.getD (cstr "unknown error " ++ Decimal.numeral nerr.toNat)) ++ cstr ": "

/-- `errpkt_to_string` for a packet of `n` bytes at the beginning of the buffer `tp`. -/
def errpktToString (signed : Bool) (tp : Bytes) (n : ℕ) : Option Bytes := do
  let opcode := ntohs (← tp[0]?) (← tp[1]?)
  if n < 2 then some (cstr "packet too short")
  else if opcode ≠ Opcode.error.code then
    some (match packetTypes[opcode.toNat]? with
      | none => cstr "invalid packet type " ++ Decimal.numeral opcode.toNat
      | some name => cstr "unexpected " ++ name ++ cstr " packet")
  else if n < 4 then some (cstr "error packet too short")
  else
    let nerr := ntohs (← tp[2]?) (← tp[3]?)
    let p ← cutMsg signed tp (n - 4) 4
    let ep ← ellipsis tp n p
    if p = 4 then some (errorName nerr ++ padded 13 (cstr "(no message)") ++ ep)
    else
      let msg ← memchrNul (tp.drop 4)
      some (errorName nerr ++ padded (p - 4) msg.1 ++ ep)

/-! ### What should be shown -/

def isControl (c : UInt8) : Bool := c < 32 || c = 127

/-- The message up to the first control character, a NUL included. -/
def plainMsg (msg : Bytes) : Bytes := msg.takeWhile fun c => !isControl c

/-- The ellipsis for a message of which `k` bytes are left, unless the NUL at its end follows. -/
def dotsFor (msg : Bytes) (k : ℕ) : Bytes := if msg.drop k = [0] then [] else cstr "..."

theorem dotsFor_cases (msg : Bytes) (k : ℕ) : dotsFor msg k = [] ∨ dotsFor msg k = cstr "..." := by
  unfold dotsFor
  split_ifs
  · exact .inl rfl
  · exact .inr rfl

theorem dotsFor_eq_nil {msg : Bytes} {k : ℕ} : dotsFor msg k = [] ↔ msg.drop k = [0] := by
  rw [dotsFor, ite_eq_left_iff, ← not_imp_not, not_not]
  exact ⟨fun h => h (by decide), fun h _ => h⟩

theorem length_of_dotsFor {msg : Bytes} {k : ℕ} (h : dotsFor msg k = []) : msg.length = k + 1 := by
  have hlen := congrArg List.length (dotsFor_eq_nil.mp h)
  rw [List.length_drop, List.length_singleton] at hlen
  omega

/-- What should stand behind the name of the error. -/
def shown (msg : Bytes) : Bytes :=
  (if plainMsg msg = [] then cstr " (no message)" else plainMsg msg) ++ dotsFor msg (plainMsg msg).length

/-- The text for an ERROR packet. -/
def errpktShown (pkt : Packet) : Bytes := errorName pkt.block ++ shown pkt.payload

/-! ### What is shown -/

/-- Where the code cuts the message. -/
def cutAt (signed : Bool) (msg : Bytes) : Bytes := msg.takeWhile fun c => !endsMsg signed c

theorem cutMsg_eq (signed : Bool) {tp msg behind : Bytes} {p : ℕ} (h : tp.drop p = msg ++ behind) :
    cutMsg signed tp msg.length p = some (p + (cutAt signed msg).length) := by
  induction msg generalizing p with
  | nil => rfl
  | cons c msg ih =>
    have hc : tp[p]? = some c := by
      rw [← List.head?_drop, h]
      rfl
    have hnext : tp.drop (p + 1) = msg ++ behind := by
      rw [← List.drop_drop, h]
      rfl
    rw [List.length_cons, cutMsg, hc]
    simp only [Option.bind_eq_bind, Option.bind_some]
    cases hstop : endsMsg signed c with
    | true => simp [cutAt, hstop]
    | false =>
      rw [if_neg (by simp), ih hnext]
      simp only [cutAt, List.takeWhile_cons, hstop, Bool.not_false, if_true, List.length_cons]
      rw [Nat.add_assoc, Nat.add_comm 1]

theorem ellipsis_eq {tp msg behind : Bytes} (h : tp.drop 4 = msg ++ behind) {k : ℕ} (hk : k ≤ msg.length) :
    ellipsis tp (msg.length + 4) (4 + k) = some (dotsFor msg k) := by
  rw [ellipsis, dotsFor]
  by_cases hlast : 4 + k = msg.length + 4 - 1
  · obtain ⟨c, hc⟩ : ∃ c, msg.drop k = [c] := by
      rw [← List.length_eq_one_iff, List.length_drop]
      omega
    have hread : tp[4 + k]? = some c := by
      have hcons : (msg ++ behind).drop k = c :: behind := by
        rw [List.drop_append_of_le_length hk, hc]
        rfl
      rw [← List.getElem?_drop, h, ← List.head?_drop, hcons]
      rfl
    rw [if_neg (not_not.mpr hlast), hread, hc]
    by_cases h0 : c = 0 <;> simp [h0]
  · have hne : msg.drop k ≠ [0] := by
      intro heq
      have := congrArg List.length heq
      rw [List.length_drop, List.length_singleton] at this
      omega
    rw [if_pos hlast, if_neg hne]

/-- What is printed behind the name of the error, with what lies behind the packet. -/
def printed (signed : Bool) (msg behind : Bytes) : Option Bytes :=
  if cutAt signed msg = [] then some (cstr " (no message)" ++ dotsFor msg 0)
  else (memchrNul (msg ++ behind)).map fun t =>
    padded (cutAt signed msg).length t.1 ++ dotsFor msg (cutAt signed msg).length

/-- The text `errpkt_to_string` makes of an ERROR packet. -/
theorem errpktToString_eq (signed : Bool) {pkt : Packet} (hlen : 4 ≤ pkt.length)
    (hop : pkt.opcode = Opcode.error.code) (behind : Bytes) :
    errpktToString signed (pkt ++ behind) pkt.length =
      (printed signed pkt.payload behind).map (errorName pkt.block ++ ·) := by
  match pkt, hlen, hop with
  | b₀ :: b₁ :: b₂ :: b₃ :: msg, _, hop =>
    have hop' : ntohs b₀ b₁ = Opcode.error.code := hop
    have hpay : Packet.payload (b₀ :: b₁ :: b₂ :: b₃ :: msg) = msg := rfl
    have hblock : Packet.block (b₀ :: b₁ :: b₂ :: b₃ :: msg) = ntohs b₂ b₃ := rfl
    have hn : List.length (b₀ :: b₁ :: b₂ :: b₃ :: msg) = msg.length + 4 := rfl
    have hdrop : (b₀ :: b₁ :: b₂ :: b₃ :: (msg ++ behind)).drop 4 = msg ++ behind := rfl
    have hle : (cutAt signed msg).length ≤ msg.length := (List.takeWhile_prefix _).length_le
    have hno : padded 13 (cstr "(no message)") = cstr " (no message)" := by decide +kernel
    rw [hpay, hblock, hn, errpktToString]
    simp only [List.cons_append, List.getElem?_cons_zero, List.getElem?_cons_succ, Option.bind_eq_bind,
      Option.bind_some, hop', ne_eq, not_true_eq_false, if_false, Nat.add_sub_cancel,
      if_neg (show ¬ msg.length + 4 < 2 by omega), if_neg (show ¬ msg.length + 4 < 4 by omega)]
    rw [cutMsg_eq signed hdrop, Option.bind_some, ellipsis_eq hdrop hle, Option.bind_some]
    by_cases hcut : cutAt signed msg = []
    · rw [printed, if_pos hcut, hcut, List.length_nil, if_pos rfl, hno, Option.map_some, List.append_assoc]
    · have hpos := List.length_pos_iff.mpr hcut
      rw [printed, if_neg hcut, if_neg (by omega), hdrop, Nat.add_sub_cancel_left]
      cases memchrNul (msg ++ behind) with
      | none => rfl
      | some t => simp only [Option.bind_some, Option.map_some, List.append_assoc]

/-! ### Where the two agree -/

section

variable {msg : Bytes}

/-- A message is followed by a control character or the end of the packet. -/
theorem exists_plainMsg_append (msg : Bytes) : ∃ rest, msg = plainMsg msg ++ rest ∧
    ∀ c cs, rest = c :: cs → isControl c = true := by
  refine ⟨msg.dropWhile fun c => !isControl c, List.takeWhile_append_dropWhile.symm, fun c cs h => ?_⟩
  have hhead := List.head?_dropWhile_not (fun c => !isControl c) msg
  rw [h] at hhead
  simpa using hhead

theorem drop_plainMsg {rest : Bytes} (h : msg = plainMsg msg ++ rest) : msg.drop (plainMsg msg).length = rest := by
  nth_rewrite 2 [h]
  exact List.drop_left

theorem plain_of_mem_plainMsg {c : UInt8} (h : c ∈ plainMsg msg) : isControl c = false := by
  simpa using List.mem_takeWhile_imp h

theorem zero_notMem_plainMsg : (0 : UInt8) ∉ plainMsg msg := fun h => absurd (plain_of_mem_plainMsg h) (by decide)

/-- With a signed `char` the message is also cut before bytes above 127. -/
theorem cutAt_eq (signed : Bool) (msg : Bytes) :
    cutAt signed msg = (plainMsg msg).takeWhile fun c => !(signed && 128 ≤ c) := by
  have hends : ∀ c, (!endsMsg signed c) = (!(signed && decide (128 ≤ c)) && !isControl c) := by
    intro c
    simp only [endsMsg, isControl, Bool.not_or]
    ac_rfl
  rw [cutAt, plainMsg, List.takeWhile_takeWhile]
  refine congrArg (List.takeWhile · msg) (funext fun c => ?_)
  rw [hends c, Bool.decide_and, Bool.decide_eq_true, Bool.decide_eq_true]

theorem cutAt_prefix (signed : Bool) (msg : Bytes) : cutAt signed msg <+: plainMsg msg := by
  rw [cutAt_eq]
  exact List.takeWhile_prefix _

theorem cutAt_eq_plainMsg {signed : Bool} :
    cutAt signed msg = plainMsg msg ↔ (signed = true → ∀ b ∈ plainMsg msg, b < 128) := by
  rw [cutAt_eq, List.takeWhile_eq_self_iff]
  cases signed <;> simp

theorem cutAt_eq_nil {signed : Bool} :
    cutAt signed msg = [] ↔ plainMsg msg = [] ∨ signed = true ∧ 128 ≤ (plainMsg msg).headD 0 := by
  rw [cutAt_eq]
  cases plainMsg msg with
  | nil => simp
  | cons c m =>
    cases signed <;> simp [List.takeWhile_cons]

theorem padded_of_le {width : ℕ} {s : Bytes} (h : width ≤ s.length) : padded width s = s := by
  simp [padded, Nat.sub_eq_zero_of_le h]

end

/-- The message is empty or ended by a NUL of the packet. Where `char` is signed it should also
have no byte above 127, or have one other than its first and something behind the NUL. -/
def EndsAtNul (signed : Bool) (msg : Bytes) : Prop :=
  plainMsg msg = [] ∨ msg[(plainMsg msg).length]? = some 0 ∧
    (signed = true → (∀ b ∈ plainMsg msg, b < 128) ∨
      (plainMsg msg).headD 0 < 128 ∧ (plainMsg msg).length + 1 ≠ msg.length)

theorem plainMsg_append_nul (t u : Bytes) : plainMsg (t ++ 0 :: u) <+: t := by
  have hstop : (0 :: u).takeWhile (fun c => !isControl c) = [] := List.takeWhile_cons_of_neg (by decide)
  rw [plainMsg, List.takeWhile_append, hstop]
  split_ifs
  · simp
  · exact List.takeWhile_prefix _

/-- The dots do not begin with a control character. -/
theorem nil_of_append_eq_dots {msg v w : Bytes} {k : ℕ} (hctl : ∀ c cs, v = c :: cs → isControl c = true)
    (h : v ++ w = dotsFor msg k) : v = [] := by
  cases v with
  | nil => rfl
  | cons c v =>
    have hc := hctl c v rfl
    rcases dotsFor_cases msg k with hd | hd
    · rw [hd] at h
      cases h
    · rw [hd] at h
      rw [(List.cons.inj h).1] at hc
      exact absurd hc (by decide)

theorem endsAtNul_of_printed {signed : Bool} {msg : Bytes} (h : printed signed msg [] = some (shown msg)) :
    EndsAtNul signed msg := by
  obtain ⟨rest, hmsg, hrest⟩ := exists_plainMsg_append msg
  have hcut := cutAt_prefix signed msg
  by_cases hm : plainMsg msg = []
  · exact .inl hm
  by_cases ha : cutAt signed msg = []
  · -- the message begins with a byte above 127, not with the blank that is printed
    obtain ⟨c, m, hc⟩ := List.exists_cons_of_ne_nil hm
    have hhigh := ((cutAt_eq_nil.mp ha).resolve_left hm).2
    rw [printed, if_pos ha, shown, if_neg hm, hc, Option.some.injEq] at h
    rw [hc, List.headD_cons] at hhigh
    have h32 : (32 : UInt8) = c := (List.cons.inj h).1
    rw [← h32] at hhigh
    exact absurd hhigh (by decide)
  rw [printed, if_neg ha, shown, if_neg hm, List.append_nil] at h
  obtain ⟨⟨t, u⟩, ht, h⟩ := Option.map_eq_some_iff.mp h
  obtain ⟨h0, hsplit⟩ := memchrNul_eq_some ht
  obtain ⟨v, hv⟩ : plainMsg msg <+: t := by
    rw [hsplit]
    exact plainMsg_append_nul t u
  have hrest' : rest = v ++ 0 :: u := by
    rw [← hv, List.append_assoc] at hsplit
    exact List.append_cancel_left (hmsg.symm.trans hsplit)
  rw [padded_of_le (hcut.length_le.trans (by rw [← hv]; simp)), ← hv, List.append_assoc,
    List.append_cancel_left_eq] at h
  obtain rfl : v = [] := nil_of_append_eq_dots (fun c w hv => hrest c (w ++ 0 :: u) (by rw [hrest', hv]; rfl)) h
  rw [List.nil_append] at h hrest'
  refine .inr ⟨?_, fun hsigned => ?_⟩
  · rw [← List.head?_drop, drop_plainMsg hmsg, hrest']
    rfl
  · by_cases hall : ∀ b ∈ plainMsg msg, b < 128
    · exact .inl hall
    · refine .inr ⟨?_, fun hlast => hall ?_⟩
      · by_contra hhigh
        exact ha (cutAt_eq_nil.mpr (.inr ⟨hsigned, UInt8.not_lt.mp hhigh⟩))
      · have hlast' : dotsFor msg (plainMsg msg).length = [] := by
          have hlen := congrArg List.length hmsg
          rw [hrest', List.length_append, List.length_cons] at hlen
          have hu : u = [] := List.length_eq_zero_iff.mp (by omega)
          rw [dotsFor_eq_nil, drop_plainMsg hmsg, hrest', hu]
        have hlen := length_of_dotsFor (h.trans hlast')
        exact cutAt_eq_plainMsg.mp (hcut.eq_of_length (by omega)) hsigned

theorem printed_of_endsAtNul {signed : Bool} {msg : Bytes} (h : EndsAtNul signed msg) (behind : Bytes) :
    printed signed msg behind = some (shown msg) := by
  have hcut := cutAt_prefix signed msg
  by_cases hm : plainMsg msg = []
  · rw [printed, if_pos (cutAt_eq_nil.mpr (.inl hm)), shown, if_pos hm, hm]
    rfl
  obtain ⟨hnul, hhigh⟩ := h.resolve_left hm
  obtain ⟨rest, hmsg, -⟩ := exists_plainMsg_append msg
  obtain ⟨u, rfl⟩ : ∃ u, rest = 0 :: u := by
    rw [← List.head?_drop, drop_plainMsg hmsg] at hnul
    exact ⟨_, (List.cons_head?_tail hnul).symm⟩
  have hstring : memchrNul (msg ++ behind) = some (plainMsg msg, u ++ behind) := by
    nth_rewrite 1 [hmsg]
    rw [List.append_assoc]
    exact memchrNul_append zero_notMem_plainMsg _
  have ha : cutAt signed msg ≠ [] := by
    intro ha
    obtain ⟨hsigned, hhead⟩ := (cutAt_eq_nil.mp ha).resolve_left hm
    obtain ⟨c, m, hc⟩ := List.exists_cons_of_ne_nil hm
    rw [← UInt8.not_lt] at hhead
    rcases hhigh hsigned with hall | ⟨hlow, -⟩
    · exact hhead (hall _ (by rw [hc]; simp))
    · exact hhead hlow
  have hdots : dotsFor msg (cutAt signed msg).length = dotsFor msg (plainMsg msg).length := by
    by_cases heq : cutAt signed msg = plainMsg msg
    · rw [heq]
    · -- something is behind the NUL, so the message is cut short in both
      have hlen := congrArg List.length hmsg
      rw [List.length_append, List.length_cons] at hlen
      have hle := hcut.length_le
      have hne : (plainMsg msg).length + 1 ≠ msg.length := by
        rw [cutAt_eq_plainMsg, Classical.not_imp] at heq
        exact ((hhigh heq.1).resolve_left heq.2).2
      have hdots {k : ℕ} (hk : k ≤ (plainMsg msg).length) : dotsFor msg k = cstr "..." := by
        refine (dotsFor_cases msg k).resolve_left fun h => ?_
        have := length_of_dotsFor h
        omega
      rw [hdots hle, hdots le_rfl]
  rw [printed, if_neg ha, hstring, Option.map_some, padded_of_le hcut.length_le, hdots, shown, if_neg hm]

/-- The text for an ERROR packet is what it should be, and nothing behind the packet is read,
exactly when the message is ended by a NUL where the code looks for its end. -/
theorem errpkt_shown_iff (signed : Bool) {pkt : Packet} (hlen : 4 ≤ pkt.length)
    (hop : pkt.opcode = Opcode.error.code) :
    (∀ behind, errpktToString signed (pkt ++ behind) pkt.length = some (errpktShown pkt)) ↔
      EndsAtNul signed pkt.payload := by
  have hprinted (behind : Bytes) : errpktToString signed (pkt ++ behind) pkt.length = some (errpktShown pkt) ↔
      printed signed pkt.payload behind = some (shown pkt.payload) := by
    rw [errpktToString_eq signed hlen hop, errpktShown, Option.map_eq_some_iff]
    simp
  exact (forall_congr' hprinted).trans ⟨fun h => endsAtNul_of_printed (h []), printed_of_endsAtNul⟩

theorem errpkt_shown_iff_gone : EndsAtNul true (cstr "gone" ++ [0]) ∧
    ∀ behind, errpktToString true (errorPacket 1 (cstr "gone") ++ behind) 9 = some (cstr "file not found: gone") := by
  have hends : EndsAtNul true (cstr "gone" ++ [0]) := .inr ⟨by decide +kernel, fun _ => .inl (by decide +kernel)⟩
  have hlen : 4 ≤ (errorPacket 1 (cstr "gone")).length := by decide +kernel
  refine ⟨hends, fun behind => ?_⟩
  have hshown := (errpkt_shown_iff true hlen (opcode_header _ _ _)).mpr hends behind
  have htext : errpktShown (errorPacket 1 (cstr "gone")) = cstr "file not found: gone" := by decide +kernel
  rwa [htext] at hshown

/-- The line feed and what follows it are shown, and without a NUL the packet is left behind. -/
theorem errpkt_shows_control :
    (∀ signed, errpktToString signed (errorPacket 1 (cstr "a\nb")) 8 = some (cstr "file not found: a\nb...")) ∧
      errpktShown (errorPacket 1 (cstr "a\nb")) = cstr "file not found: a..." ∧
      ∀ signed, errpktToString signed (header .error 1 ++ cstr "a") 5 = none := by
  refine ⟨?_, ?_, ?_⟩
  · decide +kernel
  · decide +kernel
  · decide +kernel

end TftpHpa
