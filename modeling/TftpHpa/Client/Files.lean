import Mathlib.Data.List.DropRight
import TftpHpa.Client.Settings
import TftpHpa.Common.Address
import TftpHpa.Daemon.Path
import TftpHpa.Lib.Heap

/-! The commands that transfer files (`tftp/main.c`): `get`, `put`, `mget` and `mput`, and `connect`,
which says where to. -/

namespace TftpHpa

namespace Sysexits

def EX_NOINPUT : ℕ := 66
def EX_NOHOST : ℕ := 68
def EX_OSERR : ℕ := 71
def EX_TEMPFAIL : ℕ := 75

end Sysexits

/-! ### Names -/

/-- What stands before the last such character and what follows it. -/
def strrchr (c : UInt8) (s : Bytes) : Option (Bytes × Bytes) :=
  (strchr c s.reverse).map fun p => (p.2.reverse, p.1.reverse)

/-- The loop of `tail`. A name that ends in a slash is cut there. -/
def tailLoop : ℕ → Bytes → Bytes × Bytes
  | 0, filename => (filename, filename)
  | n + 1, filename =>
    match strrchr slash filename with
    | none => (filename, filename)
    | some (before, after) => if after ≠ [] then (filename, after) else tailLoop n before

/-- `tail`: the name as it is afterwards, and the last part of it. -/
def tail (filename : Bytes) : Bytes × Bytes := tailLoop filename.length filename

/-- `is_directory`. -/
def isDirectory (filename : Bytes) : Bool := filename.getLast? = some slash

/-! ### The server and the system -/

/-- `getaddrinfo` tells a bad service from everything else. -/
inductive GaiError where
  | service | other
  deriving DecidableEq

inductive Way where
  | send | recv
  deriving DecidableEq

/-- How `tftp_sendfile` and `tftp_recvfile` end: with a status, or with `siglongjmp(toplevel, err)`
from `timer`, when there has been no answer for too long, or from `intr`. -/
inductive TransferEnd where
  | returned (status : ℕ)
  | jumped (err : ℕ)
  deriving DecidableEq

/-- What the commands ask of the system, with the answer: the address of a host, a file to be
opened, or a whole transfer between an open file and a name at the server. -/
inductive Call (α : Type) where
  | resolve (host port : Bytes) (answer : Except GaiError α)
  | opened (way : Way) (file : Bytes) (ok : Bool)
  | transfer (way : Way) (serv : Option α) (file name : Bytes) (mode : Option Bytes) (result : TransferEnd)

/-- How the system answers, given all that has been asked before. -/
structure ClientSystem (α : Type) where
  getaddrinfo : List (Call α) → Bytes → Bytes → Except GaiError α
  opens : List (Call α) → Way → Bytes → Bool
  transfer : List (Call α) → Way → α → Bytes → Bytes → Option Bytes → TransferEnd

/-- `struct server_info`. There is an address if it is connected, and the strings are blocks of
memory. -/
structure ServerInfo (α : Type) where
  addr : Option α := none
  host : Option ℕ := none
  canonname : Option ℕ := none
  addrStr : Option ℕ := none

/-- The state of the client, with what it has asked so far. -/
structure Client (α : Type) where
  config : ClientConfig := {}
  literal : Bool := false
  serv : ServerInfo α := {}
  heap : Heap := {}
  calls : List (Call α) := []

/-- How a command is left without returning: the client ends, of itself or when it frees a block
twice, or goes back to `toplevel` in `main`. -/
inductive Halt (α : Type) where
  | exit
  | doubleFree (c : Client α)
  | toplevel (c : Client α) (err : ℕ)

variable {α : Type}

def Client.did (c : Client α) (call : Call α) : Client α := { c with calls := c.calls ++ [call] }

/-- `set_transfer_host`. If there is no address, `canonname` and `host` are one string. -/
def setTransferHost (w : ClientSystem α) (c : Client α) (host : Bytes) (port : Option Bytes) :
    Except (Halt α) (Client α × ℕ) :=
  let port := if port.getD [] = [] then cstr "tftp" else port.getD []
  match c.heap.freeAll [c.serv.host, c.serv.canonname, c.serv.addrStr] with
  | none => .error (.doubleFree c)
  | some heap =>
    let (block, heap) := heap.alloc
    let answer := w.getaddrinfo c.calls (stripAddress host) port
    let calls := c.calls ++ [.resolve (stripAddress host) port answer]
    match answer with
    | .error e =>
      .ok ({ c with serv := { host := some block, canonname := some block }, heap, calls },
        if e = .service then EX_USAGE else Sysexits.EX_NOHOST)
    | .ok addr =>
      let (canonname, heap) := heap.alloc
      let (addrStr, heap) := heap.alloc
      .ok ({ c with
        serv := { addr := some addr, host := some block, canonname := some canonname, addrStr := some addrStr }
        heap, calls }, 0)

/-- `tftp_sendfile` and `tftp_recvfile`, which first look whether there is a server
(`open_socket`). -/
def Client.transfer (w : ClientSystem α) (way : Way) (c : Client α) (file name : Bytes) : TransferEnd :=
  match c.serv.addr with
  | none => .returned EX_USAGE
  | some addr => w.transfer c.calls way addr file name c.config.mode.mode

/-- A file is opened and transferred. -/
def transferFile (w : ClientSystem α) (way : Way) (noFile : ℕ) (c : Client α) (file name : Bytes) :
    Except (Halt α) (Client α × ℕ) :=
  if w.opens c.calls way file then
    let c := c.did (.opened way file true)
    let result := c.transfer w way file name
    let c := c.did (.transfer way c.serv.addr file name c.config.mode.mode result)
    match result with
    | .returned status => .ok (c, status)
    | .jumped err => .error (.toplevel c err)
  else .ok (c.did (.opened way file false), noFile)

/-- `if (!err) err = status`. -/
def firstError (err status : ℕ) : ℕ := if err = 0 then status else err

/-- A command with its arguments, which are asked for where there are none. -/
def withArgs (iscmd : Bool) (start : Bytes) (c : Client α) (argv : List Bytes) (reply : Option Bytes)
    (f : List Bytes → Except (Halt α) (Client α × ℕ)) : Except (Halt α) (Client α × ℕ) :=
  if argv.length < 2 ∧ iscmd then .ok (c, EX_USAGE)
  else match getmoreargs start argv reply with
    | none => .error .exit
    | some argv => f argv

/-- `setpeer`. -/
def setpeer (w : ClientSystem α) (iscmd : Bool) (c : Client α) (argv : List Bytes) (reply : Option Bytes) :
    Except (Halt α) (Client α × ℕ) :=
  withArgs iscmd (cstr "connect ") c argv reply fun argv =>
    if argv.length < 2 ∨ 3 < argv.length then .ok (c, EX_USAGE)
    else setTransferHost w c (argv.getD 1 []) argv[2]?

/-! ### Sending -/

/-- The loop of `putfiles`: every file goes below the target. -/
def putLoop (w : ClientSystem α) (targ : Bytes) : List Bytes → Client α → ℕ → Except (Halt α) (Client α × ℕ)
  | [], c, err => .ok (c, err)
  | arg :: args, c, err =>
    let (file, base) := tail arg
    match transferFile w .send Sysexits.EX_OSERR c file (targ ++ slash :: base) with
    | .error h => .error h
    | .ok (c, status) => putLoop w targ args c (firstError err status)

/-- The arguments of `putfiles` but the last one. -/
def putSources (argv : List Bytes) : List Bytes := (argv.drop 1).dropLast

/-- `putfiles` once the target is known. -/
def putTo (w : ClientSystem α) (c : Client α) (argv : List Bytes) (targ : Bytes) (targetIsDirectory : Bool) :
    Except (Halt α) (Client α × ℕ) :=
  if c.serv.addr.isNone then .ok (c, EX_USAGE)
  else if !targetIsDirectory && (argv.length < 3 || argv.length = 3 && !isDirectory targ) then
    let (name, file) := if argv.length = 2 then tail targ else (targ, argv.getD 1 [])
    transferFile w .send Sysexits.EX_NOINPUT c file name
  else putLoop w targ (putSources argv) c 0

/-- Where an argument names a host, that and the file. -/
def hostFile (literal : Bool) (arg : Bytes) : Option (Bytes × Bytes) := if literal then none else strchr colon arg

/-- `putfiles` with all its arguments. -/
def putArgs (w : ClientSystem α) (c : Client α) (argv : List Bytes) (targetIsDirectory : Bool) :
    Except (Halt α) (Client α × ℕ) :=
  if argv.length < 2 then .ok (c, EX_USAGE)
  else match hostFile c.literal (argv.getLastD []) with
    | none => putTo w c argv (argv.getLastD []) targetIsDirectory
    | some (host, targ) =>
      if (putSources argv).any fun arg => (strchr colon arg).isSome then .ok (c, EX_USAGE)
      else match setTransferHost w c host none with
        | .error h => .error h
        | .ok (c, err) => if err ≠ 0 then .ok (c, Sysexits.EX_NOHOST) else putTo w c argv targ targetIsDirectory

/-- `putfiles`. -/
def putfiles (w : ClientSystem α) (iscmd : Bool) (c : Client α) (argv : List Bytes) (reply : Option Bytes)
    (targetIsDirectory : Bool) : Except (Halt α) (Client α × ℕ) :=
  withArgs iscmd (cstr "send ") c argv reply fun argv => putArgs w c argv targetIsDirectory

/-- `put`. -/
def put (w : ClientSystem α) (iscmd : Bool) (c : Client α) (argv : List Bytes) (reply : Option Bytes) :
    Except (Halt α) (Client α × ℕ) := putfiles w iscmd c argv reply false

/-- `mput`. -/
def mput (w : ClientSystem α) (iscmd : Bool) (c : Client α) (argv : List Bytes) (reply : Option Bytes) :
    Except (Halt α) (Client α × ℕ) :=
  if argv.length < 3 then .ok (c, EX_USAGE) else putfiles w iscmd c argv reply true

/-! ### Receiving -/

/-- The host of an argument is looked up. What is left is `argv[2]`, which is cut at its colon, and
the name of the file if there is an address. -/
def getSource (w : ClientSystem α) (c : Client α) (n : ℕ) (argv2 arg : Bytes) :
    Except (Halt α) (Client α × Bytes × Option Bytes) :=
  match hostFile c.literal arg with
  | none => .ok (c, argv2, some arg)
  | some (host, src) =>
    match setTransferHost w c host none with
    | .error h => .error h
    | .ok (c, err) => .ok (c, if n = 2 then host else argv2, if err = 0 then some src else none)

/-- Where a file is put. -/
def localName (localDirectory : Option Bytes) (base : Bytes) : Bytes :=
  match localDirectory with
  | none => base
  | some dir => dir ++ slash :: base

/-- The loop of `getfiles`, from argument `n` on. -/
def getLoop (w : ClientSystem α) (localDirectory : Option Bytes) (argc : ℕ) :
    List Bytes → ℕ → Bytes → Client α → ℕ → Except (Halt α) (Client α × ℕ)
  | [], _, _, c, err => .ok (c, err)
  | arg :: args, n, argv2, c, err =>
    match getSource w c n argv2 arg with
    | .error h => .error h
    | .ok (c, argv2, none) => getLoop w localDirectory argc args (n + 1) argv2 c (firstError err Sysexits.EX_NOHOST)
    | .ok (c, argv2, some src) =>
      if localDirectory.isNone && (argc < 3 || argc = 3 && !isDirectory argv2) then
        -- the only file: the loop is left, and with it the error of an earlier host
        let (name, file) := if argc = 3 then (src, argv2) else tail src
        transferFile w .recv Sysexits.EX_OSERR c file name
      else
        let (name, base) := tail src
        match transferFile w .recv Sysexits.EX_OSERR c (localName localDirectory base) name with
        | .error h => .error h
        | .ok (c, status) => getLoop w localDirectory argc args (n + 1) argv2 c (firstError err status)

/-- The arguments of `getfiles` without the local directory. -/
def getSources (localDirectory : Option Bytes) (argv : List Bytes) : List Bytes :=
  (argv.drop 1).take (argv.length - 1 - localDirectory.isSome.toNat)

/-- `getfiles` with all its arguments. -/
def getArgs (w : ClientSystem α) (c : Client α) (argv : List Bytes) (localDirectory : Option Bytes) :
    Except (Halt α) (Client α × ℕ) :=
  if argv.length < 2 + localDirectory.isSome.toNat then .ok (c, EX_USAGE)
  else if c.serv.addr.isNone ∧ (getSources localDirectory argv).any fun arg => (hostFile c.literal arg).isNone then
    .ok (c, EX_USAGE)
  else getLoop w localDirectory argv.length (getSources localDirectory argv) 1 (argv.getD 2 []) c 0

/-- `getfiles`. -/
def getfiles (w : ClientSystem α) (iscmd : Bool) (c : Client α) (argv : List Bytes) (reply : Option Bytes)
    (localDirectory : Option Bytes) : Except (Halt α) (Client α × ℕ) :=
  withArgs iscmd (cstr "get ") c argv reply fun argv => getArgs w c argv localDirectory

/-- `get`. -/
def get (w : ClientSystem α) (iscmd : Bool) (c : Client α) (argv : List Bytes) (reply : Option Bytes) :
    Except (Halt α) (Client α × ℕ) := getfiles w iscmd c argv reply none

/-- `mget`. -/
def mget (w : ClientSystem α) (iscmd : Bool) (c : Client α) (argv : List Bytes) (reply : Option Bytes) :
    Except (Halt α) (Client α × ℕ) :=
  if argv.length < 3 then .ok (c, EX_USAGE) else getfiles w iscmd c argv reply (some (argv.getLastD []))

/-! ### What stands in a name -/

/-- The part of a name that `tail` finds has no slash in it. -/
theorem slash_notMem_tail (filename : Bytes) : slash ∉ (tail filename).2 := by
  have hloop : ∀ n (filename : Bytes), filename.length ≤ n → slash ∉ (tailLoop n filename).2 := by
    intro n
    induction n with
    | zero =>
      intro filename h
      rw [List.length_eq_zero_iff.mp (Nat.le_zero.mp h)]
      exact List.not_mem_nil
    | succ n ih =>
      intro filename h
      rw [tailLoop]
      split
      · next hnone =>
        rw [strrchr, Option.map_eq_none_iff, strchr_eq_none_iff] at hnone
        rwa [List.mem_reverse] at hnone
      · next before after hsome =>
        obtain ⟨p, hp, he⟩ := Option.map_eq_some_iff.mp hsome
        cases he
        obtain ⟨hp1, hp2⟩ := strchr_eq_some hp
        split_ifs
        · rwa [List.mem_reverse]
        · refine ih _ ?_
          have hlen := congrArg List.length hp2
          simp only [List.length_reverse, List.length_append, List.length_cons] at hlen ⊢
          omega
  exact hloop _ _ le_rfl

theorem hostFile_eq_some {literal : Bool} {arg host file : Bytes} (h : hostFile literal arg = some (host, file)) :
    colon ∉ host ∧ stripAddress host = host := by
  rw [hostFile] at h
  split_ifs at h
  have hcolon := (strchr_eq_some h).1
  exact ⟨hcolon, stripAddress_of_notMem hcolon⟩

/-! ### What is asked for -/

variable {w : ClientSystem α} {c c' : Client α}

/-- The server after a call. -/
def Call.server (serv : Option α) : Call α → Option α
  | .resolve _ _ answer => answer.toOption
  | _ => serv

/-- The server after some calls: the last host that was looked up, if it was found. -/
def serverAfter (serv : Option α) (calls : List (Call α)) : Option α := calls.foldl Call.server serv

/-- What a command asks for on its way. -/
structure Client.Extends (c c' : Client α) (calls : List (Call α)) : Prop where
  calls_eq : c'.calls = c.calls ++ calls
  literal_eq : c'.literal = c.literal
  addr_eq : c'.serv.addr = serverAfter c.serv.addr calls

theorem Client.Extends.refl (c : Client α) : c.Extends c [] := ⟨(List.append_nil _).symm, rfl, rfl⟩

theorem Client.Extends.trans {c₁ c₂ c₃ : Client α} {calls calls' : List (Call α)} (h : c₁.Extends c₂ calls)
    (h' : c₂.Extends c₃ calls') : c₁.Extends c₃ (calls ++ calls') where
  calls_eq := by rw [h'.calls_eq, h.calls_eq, List.append_assoc]
  literal_eq := h'.literal_eq.trans h.literal_eq
  addr_eq := by rw [h'.addr_eq, h.addr_eq, serverAfter, serverAfter, serverAfter, List.foldl_append]

theorem setTransferHost_extends {host : Bytes} {port : Option Bytes} {err : ℕ}
    (h : setTransferHost w c host port = .ok (c', err)) :
    ∃ answer, c.Extends c'
        [.resolve (stripAddress host) (if port.getD [] = [] then cstr "tftp" else port.getD []) answer] ∧
      (err = 0 ↔ answer.toOption.isSome) := by
  rw [setTransferHost] at h
  dsimp only at h
  split at h
  · cases h
  · split at h
    · next e he =>
      cases h
      rw [he]
      refine ⟨_, ⟨rfl, rfl, rfl⟩, ?_⟩
      cases e <;> simp [Except.toOption, EX_USAGE, Sysexits.EX_NOHOST]
    · next addr ha =>
      cases h
      rw [ha]
      exact ⟨_, ⟨rfl, rfl, rfl⟩, by simp [Except.toOption]⟩

/-- To look up a host can only go wrong where the strings of the last one are freed. -/
theorem setTransferHost_eq_error {host : Bytes} {port : Option Bytes} {e : Halt α}
    (h : setTransferHost w c host port = .error e) : e = .doubleFree c := by
  rw [setTransferHost] at h
  dsimp only at h
  split at h
  · exact (Except.error.inj h).symm
  · split at h <;> cases h

variable {n : ℕ} {argv2 argv2' arg : Bytes} {src : Option Bytes}

theorem getSource_eq_error {e : Halt α} (h : getSource w c n argv2 arg = .error e) :
    e = .doubleFree c ∧ ∃ host file, hostFile c.literal arg = some (host, file) ∧
      setTransferHost w c host none = .error (.doubleFree c) := by
  rw [getSource] at h
  split at h
  · cases h
  · next host file hsome =>
    split at h
    · next e' hset =>
      cases h
      obtain rfl := setTransferHost_eq_error hset
      exact ⟨rfl, host, file, hsome, hset⟩
    · cases h

/-- The host of an argument, and where it is looked up. -/
theorem getSource_eq (h : getSource w c n argv2 arg = .ok (c', argv2', src)) :
    (hostFile c.literal arg = none ∧ c' = c ∧ argv2' = argv2 ∧ src = some arg) ∨
      ∃ host file answer, hostFile c.literal arg = some (host, file) ∧
        c.Extends c' [.resolve host (cstr "tftp") answer] ∧ src = answer.toOption.map fun _ => file := by
  rw [getSource] at h
  split at h
  · next hnone =>
    cases h
    exact .inl ⟨hnone, rfl, rfl, rfl⟩
  · next host file hsome =>
    split at h
    · cases h
    · next c₁ err hset =>
      cases h
      obtain ⟨answer, hext, herr⟩ := setTransferHost_extends hset
      rw [(hostFile_eq_some hsome).2] at hext
      refine .inr ⟨host, file, answer, hsome, hext, ?_⟩
      cases answer with
      | error e => exact if_neg fun h0 => Bool.false_ne_true (herr.mp h0)
      | ok addr => exact if_pos (herr.mpr rfl)

/-- A system that knows one host, has every file but one, and waits in vain for another. -/
def fooSystem : ClientSystem ℕ where
  getaddrinfo _ host _ := if host = cstr "good" then .ok 1 else .error .other
  opens _ _ file := file ≠ cstr "missing"
  transfer _ _ _ _ name _ := if (tail name).2 = cstr "slow" then .jumped Sysexits.EX_TEMPFAIL else .returned 0

/-- A client that is connected to the host there is. -/
def fooClient : Client ℕ := ((setTransferHost fooSystem {} (cstr "good") none).toOption.map Prod.fst).getD {}

end TftpHpa
