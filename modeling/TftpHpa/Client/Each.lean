import TftpHpa.Client.Hosts

/-! What `get`, `put`, `mget` and `mput` do about the files they are given: one after the other, as
far as they get. A transfer that leaves by `siglongjmp` takes the whole command with it, and so does a
host that is named after one that was not found. -/

namespace TftpHpa

variable {α : Type}

/-! ### One file -/

/-- A file is opened and, if it can be, transferred. -/
inductive Attempted (way : Way) (serv : Option α) (file name : Bytes) : List (Call α) → Prop
  | unopened : Attempted way serv file name [.opened way file false]
  | transferred (mode : Option Bytes) (result : TransferEnd) (h : serv = none → result = .returned EX_USAGE) :
    Attempted way serv file name [.opened way file true, .transfer way serv file name mode result]

/-- What `getfiles` does about one of several files: its host is looked up if it names one, and the
file is put where the last part of its name says. -/
inductive Fetched (literal : Bool) (localDirectory : Option Bytes) (serv : Option α) (arg : Bytes) :
    List (Call α) → Prop
  | plain {calls : List (Call α)} (h : hostFile literal arg = none)
    (hcalls : Attempted .recv serv (localName localDirectory (tail arg).2) (tail arg).1 calls) :
    Fetched literal localDirectory serv arg calls
  | unresolved {host src : Bytes} {e : GaiError} (h : hostFile literal arg = some (host, src)) :
    Fetched literal localDirectory serv arg [.resolve host (cstr "tftp") (.error e)]
  | resolved {host src : Bytes} {addr : α} {calls : List (Call α)} (h : hostFile literal arg = some (host, src))
    (hcalls : Attempted .recv (some addr) (localName localDirectory (tail src).2) (tail src).1 calls) :
    Fetched literal localDirectory serv arg (.resolve host (cstr "tftp") (.ok addr) :: calls)

/-- One file after the other. A host is the server for the files after it that name none. -/
inductive FetchedAll (literal : Bool) (localDirectory : Option Bytes) :
    Option α → List Bytes → List (List (Call α)) → Prop
  | nil (serv : Option α) : FetchedAll literal localDirectory serv [] []
  | cons {serv : Option α} {arg : Bytes} {args : List Bytes} {calls : List (Call α)} {blocks : List (List (Call α))}
    (h : Fetched literal localDirectory serv arg calls)
    (hrest : FetchedAll literal localDirectory (serverAfter serv calls) args blocks) :
    FetchedAll literal localDirectory serv (arg :: args) (calls :: blocks)

/-- The status that a call which has failed gives a command. -/
def Call.failure : Call α → Option ℕ
  | .resolve _ _ (.error _) => some Sysexits.EX_NOHOST
  | .opened _ _ false => some Sysexits.EX_OSERR
  | .transfer _ _ _ _ _ (.returned status) => if status = 0 then none else some status
  | _ => none

/-- The first failure, or success. -/
def firstFailure (calls : List (Call α)) : ℕ := (calls.findSome? Call.failure).getD 0

/-- What a call that leaves the command takes to `toplevel`. -/
def Call.jump : Call α → Option ℕ
  | .transfer _ _ _ _ _ (.jumped err) => some err
  | _ => none

theorem Call.failure_ne_zero {call : Call α} {status : ℕ} (h : call.failure = some status) : status ≠ 0 := by
  unfold failure at h
  split at h
  · cases h
    decide
  · cases h
    decide
  · split_ifs at h with h0
    cases h
    exact h0
  · cases h

theorem firstError_zero (err : ℕ) : firstError err 0 = err := by
  unfold firstError
  split_ifs with h
  exacts [h.symm, rfl]

theorem firstError_assoc (a b d : ℕ) : firstError (firstError a b) d = firstError a (firstError b d) := by
  unfold firstError
  split_ifs <;> rfl

theorem firstFailure_append (calls calls' : List (Call α)) :
    firstFailure (calls ++ calls') = firstError (firstFailure calls) (firstFailure calls') := by
  rw [firstFailure, List.findSome?_append, firstFailure, firstError]
  cases h : calls.findSome? Call.failure with
  | none => rfl
  | some status =>
    obtain ⟨call, -, hcall⟩ := List.exists_of_findSome?_eq_some h
    exact (if_neg (Call.failure_ne_zero hcall)).symm

theorem firstFailure_eq_zero_iff {calls : List (Call α)} :
    firstFailure calls = 0 ↔ ∀ call ∈ calls, call.failure = none := by
  rw [← List.findSome?_eq_none_iff, firstFailure]
  cases h : calls.findSome? Call.failure with
  | none => exact iff_of_true rfl rfl
  | some status =>
    obtain ⟨call, -, hcall⟩ := List.exists_of_findSome?_eq_some h
    exact iff_of_false (Call.failure_ne_zero hcall) (by simp)

theorem firstFailure_transferred (way : Way) (serv : Option α) (file name : Bytes) (mode : Option Bytes) (status : ℕ) :
    firstFailure [.opened way file true, .transfer way serv file name mode (.returned status)] = status := by
  simp only [firstFailure, List.findSome?_cons, Call.failure]
  by_cases h : status = 0
  · rw [if_pos h, h]
    rfl
  · rw [if_neg h]
    rfl

/-- Without failure there has been a transfer. -/
theorem Attempted.eq_of_ok {way : Way} {serv : Option α} {file name : Bytes} {calls : List (Call α)}
    (h : Attempted way serv file name calls) (hok : firstFailure calls = 0) (hjump : ∀ call ∈ calls, call.jump = none) :
    ∃ addr mode, serv = some addr ∧
      calls = [.opened way file true, .transfer way (some addr) file name mode (.returned 0)] := by
  cases h with
  | unopened => cases hok
  | transferred mode result hserv =>
    cases result with
    | jumped code =>
      have hnone := hjump _ (List.mem_cons_of_mem _ List.mem_cons_self)
      cases hnone
    | returned status =>
      rw [firstFailure_transferred] at hok
      subst hok
      cases serv with
      | none => cases hserv rfl
      | some addr => exact ⟨addr, mode, rfl, rfl⟩

/-! ### How far a command gets -/

/-- How a command ends that asks for `calls` and has not come to the files `rest`: it returns when
there are none of these, with the first failure, or its last call leaves it. -/
inductive Ended (c : Client α) (err : ℕ) (calls : List (Call α)) (rest : List Bytes) :
    Except (Halt α) (Client α × ℕ) → Prop
  | returned {c' : Client α} (hrest : rest = []) (hext : c.Extends c' calls)
    (hjump : ∀ call ∈ calls, call.jump = none) :
    Ended c err calls rest (.ok (c', firstError err (firstFailure calls)))
  | jumped {c' : Client α} {before : List (Call α)} {last : Call α} {code : ℕ} (hcalls : calls = before ++ [last])
    (hlast : last.jump = some code) (hext : c.Extends c' calls) (hjump : ∀ call ∈ before, call.jump = none) :
    Ended c err calls rest (.error (.toplevel c' code))

variable {w : ClientSystem α} {c c₁ c' : Client α} {err status : ℕ} {calls calls' : List (Call α)} {rest : List Bytes}
  {r : Except (Halt α) (Client α × ℕ)}

/-- Something is asked for first. -/
theorem Ended.after (hext : c.Extends c₁ calls) (hjump : ∀ call ∈ calls, call.jump = none)
    (h : Ended c₁ (firstError err (firstFailure calls)) calls' rest r) : Ended c err (calls ++ calls') rest r := by
  cases h with
  | returned hrest hext' hjump' =>
    rw [firstError_assoc, ← firstFailure_append]
    exact .returned hrest (hext.trans hext') (List.forall_mem_append.mpr ⟨hjump, hjump'⟩)
  | jumped hcalls hlast hext' hjump' =>
    subst hcalls
    exact .jumped (List.append_assoc ..).symm hlast (hext.trans hext') (List.forall_mem_append.mpr ⟨hjump, hjump'⟩)

theorem Ended.of_ok (h : Ended c err calls rest (.ok (c', status))) :
    rest = [] ∧ c.Extends c' calls ∧ (∀ call ∈ calls, call.jump = none) ∧
      status = firstError err (firstFailure calls) := by
  cases h with
  | returned hrest hext hjump => exact ⟨hrest, hext, hjump, rfl⟩

theorem transferFile_ended (w : ClientSystem α) (way : Way) (c : Client α) (file name : Bytes) :
    ∃ calls, Attempted way c.serv.addr file name calls ∧
      Ended c 0 calls [] (transferFile w way Sysexits.EX_OSERR c file name) := by
  rw [transferFile]
  split_ifs
  · have hnone : c.serv.addr = none →
        (c.did (.opened way file true)).transfer w way file name = .returned EX_USAGE := by
      intro h
      rw [Client.transfer, Client.did, h]
    dsimp only
    generalize (c.did (.opened way file true)).transfer w way file name = result at hnone
    refine ⟨_, .transferred c.config.mode.mode result hnone, ?_⟩
    have hext : c.Extends ((c.did (.opened way file true)).did (.transfer way c.serv.addr file name
        c.config.mode.mode result)) [.opened way file true, .transfer way c.serv.addr file name c.config.mode.mode
          result] := ⟨List.append_assoc .., rfl, rfl⟩
    cases result with
    | returned status =>
      have hended : Ended c 0 _ [] _ := .returned rfl hext (by simp [Call.jump])
      rwa [firstFailure_transferred] at hended
    | jumped code =>
      exact .jumped (show _ = [Call.opened way file true] ++ [_] from rfl) rfl hext (by simp [Call.jump])
  · have hended : Ended c 0 _ [] _ :=
      .returned rfl (show c.Extends (c.did (.opened way file false)) [_] from ⟨rfl, rfl, rfl⟩) (by simp [Call.jump])
    exact ⟨_, .unopened, hended⟩

variable {localDirectory : Option Bytes} {argc n : ℕ} {argv2 argv2' arg : Bytes} {src : Option Bytes}

/-! ### Receiving each file -/

/-- A host is named after one that was not found. -/
structure FreedTwice (w : ClientSystem α) (c : Client α) (calls : List (Call α)) (rest : List Bytes) (c' : Client α) :
    Prop where
  ext : c.Extends c' calls
  does : c.Does w c'
  jump : ∀ call ∈ calls, call.jump = none
  host : ∃ arg args host file, rest = arg :: args ∧ hostFile c.literal arg = some (host, file) ∧
    setTransferHost w c' host none = .error (.doubleFree c')

/-- How far `getfiles` gets with several files. -/
def Fetches (w : ClientSystem α) (localDirectory : Option Bytes) (c : Client α) (err : ℕ) (args : List Bytes)
    (r : Except (Halt α) (Client α × ℕ)) : Prop :=
  ∃ done rest blocks, args = done ++ rest ∧ FetchedAll c.literal localDirectory c.serv.addr done blocks ∧
    (Ended c err blocks.flatten rest r ∨ ∃ c', FreedTwice w c blocks.flatten rest c' ∧ r = .error (.doubleFree c'))

/-- One file, and then the others. -/
theorem Fetches.cons {args : List Bytes} (hfetched : Fetched c.literal localDirectory c.serv.addr arg calls)
    (hext : c.Extends c₁ calls) (hdoes : c.Does w c₁) (hjump : ∀ call ∈ calls, call.jump = none)
    (h : Fetches w localDirectory c₁ (firstError err (firstFailure calls)) args r) :
    Fetches w localDirectory c err (arg :: args) r := by
  obtain ⟨done, rest, blocks, rfl, hall, hend⟩ := h
  rw [hext.literal_eq, hext.addr_eq] at hall
  refine ⟨arg :: done, rest, calls :: blocks, rfl, .cons hfetched hall, ?_⟩
  rcases hend with hend | ⟨c', hfreed, rfl⟩
  · exact .inl (hend.after hext hjump)
  · refine .inr ⟨c', ⟨hext.trans hfreed.ext, hdoes.trans hfreed.does,
      List.forall_mem_append.mpr ⟨hjump, hfreed.jump⟩, ?_⟩, rfl⟩
    rw [← hext.literal_eq]
    exact hfreed.host

/-- A file whose host is known. -/
theorem fetched_of_source (localDirectory : Option Bytes) {file : Bytes}
    (h : getSource w c n argv2 arg = .ok (c₁, argv2', some file)) :
    ∃ calls, Fetched c.literal localDirectory c.serv.addr arg calls ∧ Ended c 0 calls []
      (transferFile w .recv Sysexits.EX_OSERR c₁ (localName localDirectory (tail file).2) (tail file).1) := by
  obtain ⟨calls, hcalls, hended⟩ :=
    transferFile_ended w .recv c₁ (localName localDirectory (tail file).2) (tail file).1
  rcases getSource_eq h with ⟨hnone, rfl, -, hsrc⟩ | ⟨host, file', answer, hsome, hhost, hsrc⟩
  · cases hsrc
    exact ⟨calls, .plain hnone hcalls, hended⟩
  · cases answer with
    | error e => cases hsrc
    | ok addr =>
      cases hsrc
      rw [hhost.addr_eq] at hcalls
      exact ⟨_, .resolved hsome hcalls, hended.after hhost (by simp [Call.jump])⟩

theorem fetched_of_unresolved (h : getSource w c n argv2 arg = .ok (c₁, argv2', none)) :
    ∃ calls, Fetched c.literal localDirectory c.serv.addr arg calls ∧ c.Extends c₁ calls ∧
      firstFailure calls = Sysexits.EX_NOHOST ∧ ∀ call ∈ calls, call.jump = none := by
  rcases getSource_eq h with ⟨-, -, -, hsrc⟩ | ⟨host, file, answer, hsome, hhost, hsrc⟩
  · cases hsrc
  · cases answer with
    | error e => exact ⟨_, .unresolved hsome, hhost, rfl, by simp [Call.jump]⟩
    | ok addr => cases hsrc

theorem getLoop_fetches (hseveral : localDirectory.isSome ∨ argc ≠ 3) {args : List Bytes}
    (hone : localDirectory.isNone → argc < 3 → args = [] ∨ args.length = 1 ∧ err = 0) :
    Fetches w localDirectory c err args (getLoop w localDirectory argc args n argv2 c err) := by
  induction args generalizing n argv2 c err with
  | nil =>
    have hended : Ended c err [] [] (.ok (c, firstError err 0)) := .returned rfl (.refl c) (by simp)
    rw [firstError_zero] at hended
    exact ⟨[], [], [], rfl, .nil _, .inl hended⟩
  | cons arg args ih =>
    have hfirst : localDirectory.isNone → argc < 3 → args = [] ∧ err = 0 := fun hdir hargc => by
      simpa using hone hdir hargc
    have hrest : ∀ {c₁ n₁ argv2₁ err₁},
        Fetches w localDirectory c₁ err₁ args (getLoop w localDirectory argc args n₁ argv2₁ c₁ err₁) :=
      ih fun hdir hargc => .inl (hfirst hdir hargc).1
    rw [getLoop]
    split
    · next e hsource =>
      obtain ⟨rfl, host, file, hhost, hset⟩ := getSource_eq_error hsource
      refine ⟨[], arg :: args, [], rfl, .nil _, .inr ⟨c, ⟨.refl c, .refl c, by simp, ?_⟩, rfl⟩⟩
      exact ⟨arg, args, host, file, rfl, hhost, hset⟩
    · next c₁ argv2₁ hsource =>
      obtain ⟨calls, hfetched, hext, hfailure, hjump⟩ := fetched_of_unresolved hsource
      rw [← hfailure]
      exact .cons hfetched hext (.getSource hsource) hjump hrest
    · next c₁ argv2₁ file hsource =>
      obtain ⟨calls, hfetched, hended⟩ := fetched_of_source localDirectory hsource
      split
      · next hsingle =>
        -- the only argument: `argv[2]` is not looked at
        simp only [Bool.and_eq_true, Bool.or_eq_true, decide_eq_true_eq] at hsingle
        have hargc : argc ≠ 3 := hseveral.resolve_left (by simpa using hsingle.1)
        obtain ⟨rfl, rfl⟩ := hfirst hsingle.1 (hsingle.2.resolve_right fun h3 => hargc h3.1)
        obtain rfl := Option.isNone_iff_eq_none.mp hsingle.1
        rw [if_neg hargc]
        refine ⟨[arg], [], [calls], rfl, .cons hfetched (.nil _), .inl ?_⟩
        rw [List.flatten_singleton]
        exact hended
      · dsimp only
        generalize hfile : transferFile w .recv Sysexits.EX_OSERR c₁ (localName localDirectory (tail file).2)
          (tail file).1 = r at hended
        cases hended with
        | returned _ hext hjump =>
          exact .cons hfetched hext ((Client.Does.getSource hsource).trans (.of_returned hfile)) hjump hrest
        | jumped hcalls hlast hext hjump =>
          refine ⟨[arg], args, [calls], rfl, .cons hfetched (.nil _), .inl ?_⟩
          rw [List.flatten_singleton]
          exact .jumped hcalls hlast hext hjump

/-- The command is refused, or the files are fetched. -/
theorem getArgs_fetches (w : ClientSystem α) (c : Client α) {argv : List Bytes}
    (hseveral : localDirectory.isSome ∨ argv.length ≠ 3) :
    getArgs w c argv localDirectory = .ok (c, EX_USAGE) ∨
      Fetches w localDirectory c 0 (getSources localDirectory argv) (getArgs w c argv localDirectory) := by
  rw [getArgs]
  split_ifs with hargc hserv
  · exact .inl rfl
  · exact .inl rfl
  · refine .inr (getLoop_fetches hseveral fun hdir hlt => .inr ⟨?_, rfl⟩)
    rw [Option.isNone_iff_eq_none.mp hdir] at hargc ⊢
    simp only [getSources, Option.isSome_none, Bool.toNat_false, List.length_take, List.length_drop] at hargc ⊢
    omega

theorem Fetched.opened_mem {literal : Bool} {serv : Option α} (h : Fetched literal localDirectory serv arg calls)
    {way : Way} {file : Bytes} {ok : Bool} (hmem : .opened way file ok ∈ calls) :
    ∃ base, slash ∉ base ∧ file = localName localDirectory base := by
  have hattempted : ∀ {serv : Option α} {src : Bytes} {calls : List (Call α)},
      Attempted .recv serv (localName localDirectory (tail src).2) (tail src).1 calls → .opened way file ok ∈ calls →
        ∃ base, slash ∉ base ∧ file = localName localDirectory base := by
    intro serv src calls hcalls hmem
    refine ⟨(tail src).2, slash_notMem_tail src, ?_⟩
    cases hcalls with
    | unopened => simp_all
    | transferred => simp_all
  cases h with
  | plain _ hcalls => exact hattempted hcalls hmem
  | unresolved => simp at hmem
  | resolved _ hcalls => exact hattempted hcalls (by simpa using hmem)

theorem FetchedAll.opened_mem {literal : Bool} {serv : Option α} {args : List Bytes} {blocks : List (List (Call α))}
    (h : FetchedAll literal localDirectory serv args blocks) {way : Way} {file : Bytes} {ok : Bool}
    (hmem : .opened way file ok ∈ blocks.flatten) : ∃ base, slash ∉ base ∧ file = localName localDirectory base := by
  induction h with
  | nil => cases hmem
  | cons hfetched _ ih =>
    rcases List.mem_append.mp hmem with hmem | hmem
    · exact hfetched.opened_mem hmem
    · exact ih hmem

variable {config : ClientConfig} {literal : Bool} {lines : List (Bytes × Option Bytes)}

/-- The arguments of a `mget`. -/
def mgetFoo (sources : List String) : List Bytes := cstr "mget" :: sources.map cstr ++ [cstr "dir"]

/-- A file that goes below the target. -/
abbrev Sent (serv : Option α) (targ arg : Bytes) : List (Call α) → Prop :=
  Attempted .send serv (tail arg).1 (targ ++ slash :: (tail arg).2)

theorem Attempted.serverAfter_eq {way : Way} {serv : Option α} {file name : Bytes}
    (h : Attempted way serv file name calls) (serv' : Option α) : serverAfter serv' calls = serv' := by
  cases h <;> rfl

theorem putLoop_sends (w : ClientSystem α) (targ : Bytes) (args : List Bytes) (c : Client α) (err : ℕ) :
    ∃ done rest blocks, args = done ++ rest ∧ List.Forall₂ (Sent c.serv.addr targ) done blocks ∧
      Ended c err blocks.flatten rest (putLoop w targ args c err) := by
  induction args generalizing c err with
  | nil =>
    have hended : Ended c err [] [] (.ok (c, firstError err 0)) := .returned rfl (.refl c) (by simp)
    rw [firstError_zero] at hended
    exact ⟨[], [], [], rfl, .nil, hended⟩
  | cons arg args ih =>
    obtain ⟨calls, hcalls, hended⟩ := transferFile_ended w .send c (tail arg).1 (targ ++ slash :: (tail arg).2)
    rw [putLoop]
    dsimp only
    generalize transferFile w .send Sysexits.EX_OSERR c (tail arg).1 (targ ++ slash :: (tail arg).2) = r at hended ⊢
    cases hended with
    | @returned c₁ _ hext hjump =>
      obtain ⟨done, rest, blocks, rfl, hsent, hrest⟩ := ih c₁ (firstError err (firstFailure calls))
      rw [hext.addr_eq, hcalls.serverAfter_eq] at hsent
      exact ⟨arg :: done, rest, calls :: blocks, rfl, .cons hcalls hsent, hrest.after hext hjump⟩
    | jumped heq hlast hext hjump =>
      refine ⟨[arg], args, [calls], rfl, .cons hcalls .nil, ?_⟩
      rw [List.flatten_singleton]
      exact .jumped heq hlast hext hjump

/-- The target of `putfiles`: the calls that look up its host, the address, and the name there. -/
inductive Target (literal : Bool) (serv : Option α) (last : Bytes) : List (Call α) → Option α → Bytes → Prop
  | plain (h : hostFile literal last = none) : Target literal serv last [] serv last
  | resolved {host targ : Bytes} (addr : α) (h : hostFile literal last = some (host, targ)) :
    Target literal serv last [.resolve host (cstr "tftp") (.ok addr)] (some addr) targ

/-- Nothing goes wrong on the way to the target. -/
theorem Target.before_ok {serv serv' : Option α} {last targ : Bytes} (h : Target literal serv last calls serv' targ) :
    firstFailure calls = 0 ∧ ∀ call ∈ calls, call.jump = none := by
  cases h with
  | plain => exact ⟨rfl, by simp⟩
  | resolved => exact ⟨rfl, by simp [Call.jump]⟩

/-- The files are sent below the target, one after the other. -/
def SentAll (c : Client α) (argv : List Bytes) (r : Except (Halt α) (Client α × ℕ)) : Prop :=
  ∃ before serv targ done rest blocks, Target c.literal c.serv.addr (argv.getLastD []) before serv targ ∧
    putSources argv = done ++ rest ∧ List.Forall₂ (Sent serv targ) done blocks ∧
    Ended c 0 (before ++ blocks.flatten) rest r

/-- What is done once there is an address. -/
theorem sentAll_of_putTo {argv : List Bytes} {targ : Bytes} {targetIsDirectory : Bool} {before : List (Call α)}
    (hseveral : targetIsDirectory = true ∨ 3 < argv.length) (hext : c.Extends c₁ before)
    (haddr : c₁.serv.addr.isSome) (htarget : Target c.literal c.serv.addr (argv.getLastD []) before c₁.serv.addr targ) :
    SentAll c argv (putTo w c₁ argv targ targetIsDirectory) := by
  have hsingle : (!targetIsDirectory && (argv.length < 3 || argv.length = 3 && !isDirectory targ)) = false := by
    rcases hseveral with rfl | hlt
    · rfl
    · simp; omega
  obtain ⟨hfailure, hjump⟩ := htarget.before_ok
  rw [putTo, if_neg (by simpa [Option.isSome_iff_ne_none] using haddr), if_neg (by simp [hsingle])]
  obtain ⟨done, rest, blocks, hargs, hsent, hended⟩ := putLoop_sends w targ (putSources argv) c₁ 0
  refine ⟨before, _, targ, done, rest, blocks, htarget, hargs, hsent, Ended.after hext hjump ?_⟩
  rw [hfailure]
  exact hended

/-- The command is refused, or it gets no address, or the files are sent. -/
theorem putArgs_sends (w : ClientSystem α) (c : Client α) {argv : List Bytes} {targetIsDirectory : Bool}
    (hseveral : targetIsDirectory = true ∨ 3 < argv.length) :
    putArgs w c argv targetIsDirectory = .ok (c, EX_USAGE) ∨
      (∃ host targ, hostFile c.literal (argv.getLastD []) = some (host, targ) ∧
        (setTransferHost w c host none = .error (.doubleFree c) ∧
            putArgs w c argv targetIsDirectory = .error (.doubleFree c) ∨
          ∃ c' e, c.Extends c' [.resolve host (cstr "tftp") (.error e)] ∧
            putArgs w c argv targetIsDirectory = .ok (c', Sysexits.EX_NOHOST))) ∨
      SentAll c argv (putArgs w c argv targetIsDirectory) := by
  rw [putArgs]
  split
  · exact .inl rfl
  · split
    · next hnone =>
      by_cases haddr : c.serv.addr.isNone
      · rw [putTo, if_pos haddr]
        exact .inl rfl
      · have hsome : c.serv.addr.isSome := by simpa [Option.isSome_iff_ne_none] using haddr
        exact .inr (.inr (sentAll_of_putTo hseveral (.refl c) hsome (.plain hnone)))
    · next host targ hsome =>
      split
      · exact .inl rfl
      · split
        · next e hset =>
          obtain rfl := setTransferHost_eq_error hset
          exact .inr (.inl ⟨host, targ, hsome, .inl ⟨hset, rfl⟩⟩)
        · next c₁ err hset =>
          obtain ⟨answer, hext, herr⟩ := setTransferHost_extends hset
          rw [(hostFile_eq_some hsome).2] at hext
          cases answer with
          | error e =>
            rw [if_pos fun h0 => Bool.false_ne_true (herr.mp h0)]
            exact .inr (.inl ⟨host, targ, hsome, .inr ⟨c₁, e, hext, rfl⟩⟩)
          | ok addr =>
            rw [if_neg (not_not.mpr (herr.mpr rfl))]
            have haddr : c₁.serv.addr = some addr := hext.addr_eq
            refine .inr (.inr (sentAll_of_putTo hseveral hext (by rw [haddr]; rfl) ?_))
            rw [haddr]
            exact .resolved addr hsome

end TftpHpa
