import TftpHpa.Client.Files
import TftpHpa.Lib.Transition

/-! Runs of the client: command after command at the prompt, with the server they go to and the
strings that are kept about it. -/

namespace TftpHpa

open Transition

variable {α : Type} {w : ClientSystem α} {c c' : Client α}

/-! ### Commands -/

/-- Back at the prompt: the status of a command is not looked at, and `toplevel` is there too. -/
def atPrompt : Except (Halt α) (Client α × ℕ) → Except (Halt α) (Client α)
  | .ok (c, _) => .ok c
  | .error (.toplevel c _) => .ok c
  | .error .exit => .error .exit
  | .error (.doubleFree c) => .error (.doubleFree c)

/-- The handlers of the command table. -/
def Client.handle (w : ClientSystem α) (c : Client α) (argv : List Bytes) (reply : Option Bytes) :
    Handler → Except (Halt α) (Client α)
  | .setpeer => atPrompt (TftpHpa.setpeer w false c argv reply)
  | .put => atPrompt (TftpHpa.put w false c argv reply)
  | .mput => atPrompt (TftpHpa.mput w false c argv reply)
  | .get => atPrompt (TftpHpa.get w false c argv reply)
  | .mget => atPrompt (TftpHpa.mget w false c argv reply)
  | .setliteral => .ok { c with literal := !c.literal }
  | h =>
    match c.config.handle argv reply h with
    | none => .error .exit
    | some config => .ok { c with config }

/-- `command`: one line, with the answer to the question for arguments. -/
def Client.command (w : ClientSystem α) (c : Client α) (line : Bytes × Option Bytes) : Except (Halt α) (Client α) :=
  match commandOf line.1 with
  | none => .ok c
  | some h => c.handle w (makeargv line.1) line.2 h

/-- The client after some lines, if it is still there. -/
def Client.run (w : ClientSystem α) : Client α → List (Bytes × Option Bytes) → Option (Client α) :=
  Transition.run fun c line => (c.command w line).toOption

/-! ### What commands are made of -/

/-- Hosts are looked up and files transferred; the settings may change. -/
inductive Client.Does (w : ClientSystem α) : Client α → Client α → Prop
  | refl (c : Client α) : Does w c c
  | set {c c' : Client α} (config : ClientConfig) (literal : Bool) (h : Does w { c with config, literal } c') :
    Does w c c'
  | host {c c₁ c' : Client α} {host : Bytes} {port : Option Bytes} {err : ℕ}
    (hset : setTransferHost w c host port = .ok (c₁, err)) (h : Does w c₁ c') : Does w c c'
  | file {c c₁ c' : Client α} {way : Way} {noFile : ℕ} {file name : Bytes}
    (hfile : atPrompt (transferFile w way noFile c file name) = .ok c₁) (h : Does w c₁ c') : Does w c c'

namespace Client.Does

theorem trans {c₁ c₂ c₃ : Client α} (h : Does w c₁ c₂) (h' : Does w c₂ c₃) : Does w c₁ c₃ := by
  induction h with
  | refl => exact h'
  | set config literal _ ih => exact .set config literal (ih h')
  | host hset _ ih => exact .host hset (ih h')
  | file hfile _ ih => exact .file hfile (ih h')

theorem transferFile {way : Way} {noFile : ℕ} {file name : Bytes}
    (h : atPrompt (transferFile w way noFile c file name) = .ok c') : Does w c c' := .file h (.refl _)

theorem setTransferHost {host : Bytes} {port : Option Bytes} {err : ℕ}
    (h : TftpHpa.setTransferHost w c host port = .ok (c', err)) : Does w c c' := .host h (.refl _)

/-- Looking up a host does not lead back to the prompt early. -/
theorem of_setTransferHost {host : Bytes} {port : Option Bytes}
    (h : atPrompt (TftpHpa.setTransferHost w c host port) = .ok c') : Does w c c' := by
  cases hset : TftpHpa.setTransferHost w c host port with
  | ok r =>
    rw [hset] at h
    cases h
    exact setTransferHost hset
  | error e =>
    rw [hset, setTransferHost_eq_error hset] at h
    cases h

/-- A file after which a loop goes on. -/
theorem of_returned {way : Way} {noFile status : ℕ} {file name : Bytes}
    (h : TftpHpa.transferFile w way noFile c file name = .ok (c', status)) : Does w c c' :=
  transferFile (congrArg atPrompt h)

/-- A file with which it is left. -/
theorem of_left {way : Way} {noFile : ℕ} {file name : Bytes} {e : Halt α}
    (h : TftpHpa.transferFile w way noFile c file name = .error e) (he : atPrompt (.error e) = .ok c') : Does w c c' :=
  transferFile ((congrArg atPrompt h).trans he)

theorem putLoop {targ : Bytes} {args : List Bytes} {err : ℕ} (h : atPrompt (putLoop w targ args c err) = .ok c') :
    Does w c c' := by
  induction args generalizing c err with
  | nil =>
    cases h
    exact .refl _
  | cons arg args ih =>
    rw [TftpHpa.putLoop] at h
    dsimp only at h
    split at h
    · next e hfile => exact of_left hfile h
    · next c₁ status hfile => exact (of_returned hfile).trans (ih h)

theorem putTo {argv : List Bytes} {targ : Bytes} {targetIsDirectory : Bool}
    (h : atPrompt (putTo w c argv targ targetIsDirectory) = .ok c') : Does w c c' := by
  rw [TftpHpa.putTo] at h
  split at h
  · cases h
    exact .refl _
  · split at h
    · exact transferFile h
    · exact putLoop h

variable {argv : List Bytes}

theorem putArgs {targetIsDirectory : Bool} (h : atPrompt (putArgs w c argv targetIsDirectory) = .ok c') :
    Does w c c' := by
  rw [TftpHpa.putArgs] at h
  split at h
  · cases h
    exact .refl _
  · split at h
    · exact putTo h
    · split at h
      · cases h
        exact .refl _
      · split at h
        · next e hset =>
          obtain rfl := setTransferHost_eq_error hset
          cases h
        · next c₁ err hset =>
          refine (setTransferHost hset).trans ?_
          split at h
          · cases h
            exact .refl _
          · exact putTo h

theorem getSource {n : ℕ} {argv2 argv2' arg : Bytes} {src : Option Bytes}
    (h : getSource w c n argv2 arg = .ok (c', argv2', src)) : Does w c c' := by
  rw [TftpHpa.getSource] at h
  split at h
  · cases h
    exact .refl c
  · split at h
    · cases h
    · next c₁ err hset =>
      cases h
      exact setTransferHost hset

theorem getLoop {localDirectory : Option Bytes} {argc n err : ℕ} {args : List Bytes} {argv2 : Bytes}
    (h : atPrompt (getLoop w localDirectory argc args n argv2 c err) = .ok c') : Does w c c' := by
  induction args generalizing n argv2 c err with
  | nil =>
    cases h
    exact .refl _
  | cons arg args ih =>
    rw [TftpHpa.getLoop] at h
    split at h
    · next e hsource =>
      obtain ⟨rfl, -⟩ := getSource_eq_error hsource
      cases h
    · next hsource => exact (getSource hsource).trans (ih h)
    · next c₁ argv2₁ src hsource =>
      refine (getSource hsource).trans ?_
      split at h
      · exact transferFile h
      · dsimp only at h
        split at h
        · next e hfile => exact of_left hfile h
        · next c₂ status hfile => exact (of_returned hfile).trans (ih h)

theorem getArgs {localDirectory : Option Bytes} (h : atPrompt (getArgs w c argv localDirectory) = .ok c') :
    Does w c c' := by
  rw [TftpHpa.getArgs] at h
  split_ifs at h
  · cases h
    exact .refl _
  · cases h
    exact .refl _
  · exact getLoop h

theorem withArgs {iscmd : Bool} {start : Bytes} {reply : Option Bytes}
    {f : List Bytes → Except (Halt α) (Client α × ℕ)} (hf : ∀ argv, atPrompt (f argv) = .ok c' → Does w c c')
    (h : atPrompt (withArgs iscmd start c argv reply f) = .ok c') : Does w c c' := by
  rw [TftpHpa.withArgs] at h
  split at h
  · cases h
    exact .refl _
  · split at h
    · cases h
    · exact hf _ h

theorem setpeer {iscmd : Bool} {reply : Option Bytes} (h : atPrompt (setpeer w iscmd c argv reply) = .ok c') :
    Does w c c' := by
  refine withArgs (fun argv h => ?_) h
  split at h
  · cases h
    exact .refl _
  · exact of_setTransferHost h

theorem putfiles {iscmd targetIsDirectory : Bool} {reply : Option Bytes}
    (h : atPrompt (putfiles w iscmd c argv reply targetIsDirectory) = .ok c') : Does w c c' :=
  withArgs (fun _ => putArgs) h

theorem getfiles {iscmd : Bool} {reply localDirectory : Option Bytes}
    (h : atPrompt (getfiles w iscmd c argv reply localDirectory) = .ok c') : Does w c c' :=
  withArgs (fun _ => getArgs) h

/-- The commands that take at least two arguments. -/
theorem of_usage {f : Except (Halt α) (Client α × ℕ)} {n : ℕ} (hf : atPrompt f = .ok c' → Does w c c')
    (h : atPrompt (if argv.length < n then .ok (c, EX_USAGE) else f) = .ok c') : Does w c c' := by
  split_ifs at h
  · cases h
    exact .refl _
  · exact hf h

theorem handle {reply : Option Bytes} {h : Handler} (hc : c.handle w argv reply h = .ok c') : Does w c c' := by
  unfold Client.handle at hc
  split at hc
  · exact setpeer hc
  · exact putfiles hc
  · exact of_usage putfiles hc
  · exact getfiles hc
  · exact of_usage getfiles hc
  · cases hc
    exact .set c.config _ (.refl _)
  · split at hc
    · cases hc
    · cases hc
      exact .set _ c.literal (.refl _)

theorem command {line : Bytes × Option Bytes} (h : c.command w line = .ok c') : Does w c c' := by
  rw [Client.command] at h
  split at h
  · cases h
    exact .refl c
  · exact handle h

end Client.Does

theorem Client.run_does {lines : List (Bytes × Option Bytes)} (h : c.run w lines = some c') : Does w c c' := by
  refine run_invariant (fun _ s => Does w c s) (.refl c) (fun _ s line s' hs hline => ?_) h
  cases hcommand : s.command w line with
  | error e =>
    rw [hcommand] at hline
    cases hline
  | ok s'' =>
    rw [hcommand] at hline
    obtain rfl := Option.some.inj hline
    exact hs.trans (.command hcommand)

/-! ### The server and its strings -/

/-- The answer to a lookup. -/
def Call.answer : Call α → Option (Except GaiError α)
  | .resolve _ _ answer => some answer
  | _ => none

/-- The last host that was looked up. -/
def lastLookup (calls : List (Call α)) : Option (Except GaiError α) := (calls.filterMap Call.answer).getLast?

/-- Its address. -/
def resolved (calls : List (Call α)) : Option α := (lastLookup calls).bind Except.toOption

theorem lastLookup_append_resolve (calls : List (Call α)) (host port : Bytes) (answer : Except GaiError α) :
    lastLookup (calls ++ [.resolve host port answer]) = some answer := by
  simp [lastLookup, Call.answer]

theorem lastLookup_append_of_none {call : Call α} (h : call.answer = none) (calls : List (Call α)) :
    lastLookup (calls ++ [call]) = lastLookup calls := by
  simp [lastLookup, h]

/-- The strings of `serv`. -/
def ServerInfo.strings (s : ServerInfo α) : List ℕ := [s.host, s.canonname, s.addrStr].reduceOption

/-- What a transfer is, and when: it is with the host that was looked up last, right after its file was
opened, and ends as the system has it; if that host was not found, it fails. -/
structure Call.Right (w : ClientSystem α) (before : List (Call α)) (way : Way) (serv : Option α) (file name : Bytes)
    (mode : Option Bytes) (result : TransferEnd) : Prop where
  serv_eq : serv = resolved before
  opened : before.getLast? = some (.opened way file true)
  result_eq : result = (serv.map fun addr => w.transfer before way addr file name mode).getD (.returned EX_USAGE)

/-- Every transfer is right. -/
def Directed (w : ClientSystem α) (calls : List (Call α)) : Prop :=
  ∀ before after way serv file name mode result, calls = before ++ .transfer way serv file name mode result :: after →
    Call.Right w before way serv file name mode result

/-- What holds of the client between any two things it asks for. -/
structure Client.Sound (w : ClientSystem α) (c : Client α) : Prop where
  addr_eq : c.serv.addr = resolved c.calls
  live_iff : ∀ b, b ∈ c.heap.live ↔ b ∈ c.serv.strings
  nodup_iff : c.serv.strings.Nodup ↔ ∀ e, lastLookup c.calls ≠ some (.error e)
  directed : Directed w c.calls

theorem Directed.append {calls : List (Call α)} (h : Directed w calls) {call : Call α}
    (hcall : ∀ way serv file name mode result, call = .transfer way serv file name mode result →
      Call.Right w calls way serv file name mode result) : Directed w (calls ++ [call]) := by
  intro before after way serv file name mode result heq
  rcases List.eq_nil_or_concat after with rfl | ⟨after, last, rfl⟩
  · obtain ⟨rfl, hlast⟩ := List.append_inj' heq rfl
    exact hcall _ _ _ _ _ _ (List.singleton_injective hlast)
  · rw [List.concat_eq_append, ← List.cons_append, ← List.append_assoc] at heq
    exact h _ _ _ _ _ _ _ _ (List.append_inj' heq rfl).1

namespace Client.Sound

/-- Nothing is lost when a file is opened or transferred. -/
theorem did (h : c.Sound w) {call : Call α} (hanswer : call.answer = none)
    (hdirected : Directed w (c.calls ++ [call])) : (c.did call).Sound w where
  addr_eq := by
    rw [resolved, Client.did, lastLookup_append_of_none hanswer]
    exact h.addr_eq
  live_iff := h.live_iff
  nodup_iff := by
    rw [Client.did, lastLookup_append_of_none hanswer]
    exact h.nodup_iff
  directed := hdirected

theorem transferFile (h : c.Sound w) {way : Way} {noFile : ℕ} {file name : Bytes}
    (hfile : atPrompt (transferFile w way noFile c file name) = .ok c') : c'.Sound w := by
  have hopened : ∀ ok, (c.did (.opened way file ok)).Sound w := fun ok =>
    h.did rfl (h.directed.append fun _ _ _ _ _ _ heq => by cases heq)
  rw [TftpHpa.transferFile] at hfile
  split at hfile
  · have hdone : ((c.did (.opened way file true)).did (.transfer way c.serv.addr file name c.config.mode.mode
        ((c.did (.opened way file true)).transfer w way file name))).Sound w := by
      refine (hopened true).did rfl ((hopened true).directed.append ?_)
      rintro way' serv' file' name' mode' result' heq
      cases heq
      refine ⟨(hopened true).addr_eq, List.getLast?_concat .., ?_⟩
      rw [Client.transfer, Client.did]
      dsimp only
      cases c.serv.addr <;> rfl
    dsimp only at hfile
    split at hfile
    · cases hfile
      exact hdone
    · cases hfile
      exact hdone
  · cases hfile
    exact hopened false

theorem setTransferHost (h : c.Sound w) {host : Bytes} {port : Option Bytes} {err : ℕ}
    (hset : setTransferHost w c host port = .ok (c', err)) : c'.Sound w := by
  rw [TftpHpa.setTransferHost] at hset
  dsimp only at hset
  split at hset
  · cases hset
  · next heap hfree =>
    -- all blocks were strings, and the strings are now new blocks, one of them or three
    have hempty : ∀ b, b ∉ heap.live := fun b hb => by
      rw [Heap.mem_live_of_freeAll hfree, h.live_iff] at hb
      exact hb.2 hb.1
    have hdirected : ∀ host port answer, Directed w (c.calls ++ [.resolve host port answer]) := fun host port answer =>
      h.directed.append fun _ _ _ _ _ _ heq => by cases heq
    split at hset
    · next e he =>
      cases hset
      refine ⟨?_, ?_, ?_, hdirected _ _ _⟩
      · rw [resolved, lastLookup_append_resolve, he]
        rfl
      · simp [ServerInfo.strings, Heap.alloc, hempty]
      · rw [lastLookup_append_resolve, he]
        simp [ServerInfo.strings, Heap.alloc]
    · next addr ha =>
      cases hset
      refine ⟨?_, ?_, ?_, hdirected _ _ _⟩
      · rw [resolved, lastLookup_append_resolve, ha]
        rfl
      · simp only [ServerInfo.strings, Heap.alloc, List.mem_cons, hempty]
        grind [List.reduceOption_cons_of_some, List.reduceOption_nil]
      · rw [lastLookup_append_resolve, ha]
        simp [ServerInfo.strings, Heap.alloc]
        omega

theorem does (h : c.Sound w) (hdoes : c.Does w c') : c'.Sound w := by
  induction hdoes with
  | refl => exact h
  | set config literal _ ih => exact ih ⟨h.addr_eq, h.live_iff, h.nodup_iff, h.directed⟩
  | host hset _ ih => exact ih (h.setTransferHost hset)
  | file hfile _ ih => exact ih (h.transferFile hfile)

/-- A string is freed twice if and only if the last host was not found. -/
theorem freed_twice_iff (h : c.Sound w) {host : Bytes} {port : Option Bytes} :
    TftpHpa.setTransferHost w c host port = .error (.doubleFree c) ↔ ∃ e, lastLookup c.calls = some (.error e) := by
  have hfree : (c.heap.freeAll [c.serv.host, c.serv.canonname, c.serv.addrStr]).isSome ↔
      ∀ e, lastLookup c.calls ≠ some (.error e) := by
    rw [Heap.freeAll_isSome_iff, ← h.nodup_iff]
    exact and_iff_left fun b hb => (h.live_iff b).mpr hb
  rw [← not_iff_not, not_exists, ← hfree, TftpHpa.setTransferHost]
  dsimp only
  split
  · next hnone => simp [hnone]
  · next heap hsome =>
    rw [hsome]
    split <;> simp

/-- A client that has just been started. -/
theorem start (config : ClientConfig) (literal : Bool) : ({ config, literal } : Client α).Sound w where
  addr_eq := rfl
  live_iff := by simp [ServerInfo.strings]
  nodup_iff := by simp [ServerInfo.strings, lastLookup]
  directed before after _ _ _ _ _ _ heq := by simp at heq

end Client.Sound

variable {config : ClientConfig} {literal : Bool} {lines : List (Bytes × Option Bytes)}

/-- The lines of a session. -/
def fooLines : List (Bytes × Option Bytes) :=
  [(cstr "connect good", none), (cstr "put foo", none), (cstr "get bad:foo bar", none)]

end TftpHpa
