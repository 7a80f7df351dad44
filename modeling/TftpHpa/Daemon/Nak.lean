import TftpHpa.Common.Error
import TftpHpa.Daemon.Request

/-! The ERROR packets of the server (`nak` in `tftpd/tftpd.c`). It builds them on its own and
not with `make_errpacket`, and the text it is given is overwritten before it is used. -/

namespace TftpHpa

/-- The packet that `nak` sends. -/
def nak (strerror : ℤ → Bytes) (error : ℤ) (_msg : Option Bytes) : Packet :=
  let msg := errorMsg strerror error
  errorPacket (packetError error msg) msg

theorem opcode_nak (strerror : ℤ → Bytes) (error : ℤ) (msg : Option Bytes) :
    (nak strerror error msg).opcode = Opcode.error.code := opcode_header _ _ _

theorem text_eq_of_errorPacket_eq {e e' : ℤ} {text text' : Bytes} (h : errorPacket e text = errorPacket e' text') :
    text = text' := by
  have hpay := congrArg Packet.payload h
  rw [errorPacket, errorPacket, payload_header, payload_header] at hpay
  exact List.append_cancel_right hpay

/-- `nak` and `make_errpacket` agree exactly when there is no text or it is the one that the
error stands for anyway; that one should fit a packet. -/
theorem nak_agrees_iff (strerror : ℤ → Bytes) (error : ℤ) {msg : Option Bytes}
    (hmsg : ∀ m ∈ msg, m.length < 512) :
    nak strerror error msg = makeErrpacket strerror error msg ↔
      (∀ m ∈ msg, m = errorMsg strerror error) ∧ (errorMsg strerror error).length < 512 := by
  have hcap {m : Bytes} (hm : m.length < 512) : m.take (SEGSIZE - 1) = m :=
    List.take_of_length_le (Nat.le_of_lt_succ hm)
  constructor
  · intro h
    have htext := text_eq_of_errorPacket_eq h
    cases msg with
    | none =>
      have hlen := congrArg List.length htext
      rw [Option.getD_none, List.length_take] at hlen
      exact ⟨by simp, by simp only [SEGSIZE] at hlen; omega⟩
    | some m =>
      have hm := hmsg m rfl
      rw [Option.getD_some, hcap hm] at htext
      exact ⟨fun m' hm' => by rw [htext, Option.mem_some.mp hm'], htext ▸ hm⟩
  · rintro ⟨hm, hlen⟩
    have htext : msg.getD (errorMsg strerror error) = errorMsg strerror error := by
      cases msg with
      | none => rfl
      | some m => exact hm m rfl
    rw [nak, makeErrpacket, htext, hcap hlen]

/-- They agree without a text and with the text that the error stands for, and with no other. -/
theorem nak_agrees_iff_notFound :
    (nak (fun _ => cstr "No such file") (-2) none = makeErrpacket (fun _ => cstr "No such file") (-2) none) ∧
    (nak (fun _ => cstr "No such file") (-2) (some (cstr "No such file")) =
      makeErrpacket (fun _ => cstr "No such file") (-2) (some (cstr "No such file"))) ∧
    nak (fun _ => cstr "No such file") (-2) (some (cstr "go away")) ≠
      makeErrpacket (fun _ => cstr "No such file") (-2) (some (cstr "go away")) := by
  have hlen : (errorMsg (fun _ => cstr "No such file") (-2)).length < 512 := by decide +kernel
  have htext : errorMsg (fun _ => cstr "No such file") (-2) = cstr "No such file" := rfl
  refine ⟨(nak_agrees_iff _ _ (by simp)).mpr ⟨by simp, hlen⟩, (nak_agrees_iff _ _ ?_).mpr ⟨?_, hlen⟩, fun h => ?_⟩
  · rintro m hm
    rw [← Option.mem_some.mp hm]
    exact htext ▸ hlen
  · rintro m hm
    rw [htext, Option.mem_some.mp hm]
  · have hother := ((nak_agrees_iff _ _ (by rintro m hm; rw [← Option.mem_some.mp hm]; decide)).mp h).1 _ rfl
    revert hother
    rw [htext]
    decide

/-- A mapping that denies every file, as a rule with the message `go away` does. -/
def Handlers.denied : Handlers := { Handlers.empty with rewrite _ _ _ _ := .error (some (cstr "go away")) }

/-- Neither the message of the rule nor that of a check of the request is sent. -/
theorem nak_drops_text :
    (tftp {} {} .denied readFoo = .error (.nak 2 (some (cstr "go away"))) ∧
      ∀ strerror, nak strerror 2 (some (cstr "go away")) = errorPacket 2 (cstr "access denied") ∧
        makeErrpacket strerror 2 (some (cstr "go away")) = errorPacket 2 (cstr "go away")) ∧
    (tftp {} {} .empty (htons Opcode.rrq.code) = .error (.nak 4 (some (cstr "missing mode"))) ∧
      ∀ strerror, nak strerror 4 (some (cstr "missing mode")) = errorPacket 4 (cstr "invalid TFTP operation") ∧
        makeErrpacket strerror 4 (some (cstr "missing mode")) = errorPacket 4 (cstr "missing mode")) :=
  ⟨⟨rfl, fun _ => ⟨rfl, rfl⟩⟩, ⟨rfl, fun _ => ⟨rfl, rfl⟩⟩⟩

end TftpHpa
