import TftpHpa.Client.Each
import TftpHpa.Lib.Writes

/-! What the local files are after `get` or `mget`. -/

namespace TftpHpa

open Writes

variable {α : Type}

/-- What a local file is: nothing yet, a copy of a file of the server, or the part of one that has
come. -/
inductive Content (α : Type) where
  | empty
  | copy (addr : α) (name : Bytes)
  | part (addr : α) (name : Bytes)

/-- What a call does to the local files. To open one for writing empties it. -/
def Call.stores : Call α → List (Bytes × Option (Content α))
  | .opened .recv file true => [(file, some .empty)]
  | .transfer .recv (some addr) file name _ result =>
    [(file, some (if result = .returned 0 then .copy addr name else .part addr name))]
  | _ => []

/-- The local files after some calls. -/
def localFiles (fs : Bytes → Option (Content α)) (calls : List (Call α)) : Bytes → Option (Content α) :=
  writes fs (calls.flatMap Call.stores)

theorem localFiles_append (fs : Bytes → Option (Content α)) (calls calls' : List (Call α)) :
    localFiles fs (calls ++ calls') = localFiles (localFiles fs calls) calls' := by
  rw [localFiles, List.flatMap_append, writes_append]
  rfl

/-! ### Success -/

/-- The name of the file in an argument. -/
def sourceName (literal : Bool) (arg : Bytes) : Bytes := ((hostFile literal arg).map Prod.snd).getD arg

/-- The copy that is wanted of an argument, from the server with this address. -/
def wanted (literal : Bool) (localDirectory : Option Bytes) (arg : Bytes) (addr : α) : Bytes × Option (Content α) :=
  (localName localDirectory (tail (sourceName literal arg)).2, some (.copy addr (tail (sourceName literal arg)).1))

/-- The addresses that have been looked up. -/
def lookups (calls : List (Call α)) : List α := calls.filterMap fun call => call.answer.bind Except.toOption

/-- The server of each argument: the next of the addresses looked up where it names a host, and
otherwise the one before. -/
def servers (literal : Bool) : Option α → List Bytes → List α → List α
  | _, [], _ => []
  | serv, arg :: args, addrs =>
    match hostFile literal arg, addrs with
    | none, addrs => serv.toList ++ servers literal serv args addrs
    | some _, [] => []
    | some _, addr :: addrs => addr :: servers literal (some addr) args addrs

variable {literal : Bool} {localDirectory : Option Bytes} {serv : Option α} {arg : Bytes} {calls : List (Call α)}

/-- There is no failure in a list of calls if there is none in any. -/
theorem firstFailure_append_eq_zero {calls calls' : List (Call α)} (h : firstFailure (calls ++ calls') = 0) :
    firstFailure calls = 0 ∧ firstFailure calls' = 0 := by
  simp only [firstFailure_eq_zero_iff, List.forall_mem_append] at h ⊢
  exact h

theorem lookups_append (calls calls' : List (Call α)) : lookups (calls ++ calls') = lookups calls ++ lookups calls' :=
  List.filterMap_append ..

theorem Attempted.lookups_eq {way : Way} {file name : Bytes} (h : Attempted way serv file name calls) :
    lookups calls = [] := by
  cases h <;> rfl

/-- A file that was transferred without failure is a copy. -/
theorem Attempted.localFiles {file name : Bytes} (h : Attempted .recv serv file name calls)
    (hok : firstFailure calls = 0) (hjump : ∀ call ∈ calls, call.jump = none) :
    ∃ addr, serv = some addr ∧ ∀ fs, localFiles fs calls = Function.update fs file (some (.copy addr name)) := by
  obtain ⟨addr, mode, hserv, rfl⟩ := h.eq_of_ok hok hjump
  exact ⟨addr, hserv, fun fs => Function.update_idem ..⟩

theorem FetchedAll.localFiles {args : List Bytes} {blocks : List (List (Call α))}
    (h : FetchedAll literal localDirectory serv args blocks) (hok : firstFailure blocks.flatten = 0)
    (hjump : ∀ call ∈ blocks.flatten, call.jump = none) :
    (servers literal serv args (lookups blocks.flatten)).length = args.length ∧ ∀ fs,
      localFiles fs blocks.flatten = writes fs (List.zipWith (wanted literal localDirectory) args
        (servers literal serv args (lookups blocks.flatten))) := by
  induction h with
  | nil => exact ⟨rfl, fun _ => rfl⟩
  | @cons serv arg args calls blocks hfetched _ ih =>
    rw [List.flatten_cons] at hok hjump ⊢
    obtain ⟨hok₁, hok₂⟩ := firstFailure_append_eq_zero hok
    obtain ⟨hjump₁, hjump₂⟩ := List.forall_mem_append.mp hjump
    obtain ⟨hlen, hrest⟩ := ih hok₂ hjump₂
    rw [lookups_append]
    cases hfetched with
    | plain hnone hcalls =>
      obtain ⟨addr, rfl, hfiles⟩ := hcalls.localFiles hok₁ hjump₁
      rw [hcalls.serverAfter_eq] at hlen hrest
      simp only [hcalls.lookups_eq, List.nil_append, servers, hnone, Option.toList_some, List.singleton_append,
        List.length_cons, hlen, true_and]
      intro fs
      rw [localFiles_append, hfiles, hrest, List.zipWith_cons_cons, wanted, sourceName, hnone]
      rfl
    | unresolved => cases hok₁
    | @resolved host src addr calls hsome hcalls =>
      have hok₁' : firstFailure calls = 0 := (@firstFailure_append_eq_zero _ [_] _ hok₁).2
      obtain ⟨addr', haddr, hfiles⟩ := hcalls.localFiles hok₁' (List.forall_mem_cons.mp hjump₁).2
      cases haddr
      have hserver : serverAfter serv (.resolve host (cstr "tftp") (.ok addr) :: calls) = some addr :=
        hcalls.serverAfter_eq (some addr)
      have hlookups : lookups (.resolve host (cstr "tftp") (.ok addr) :: calls) = [addr] := by
        rw [← List.singleton_append, lookups_append, hcalls.lookups_eq]
        rfl
      rw [hserver] at hlen hrest
      simp only [hlookups, List.singleton_append, servers, hsome, List.length_cons, hlen, true_and]
      intro fs
      rw [localFiles_append, List.zipWith_cons_cons, wanted, sourceName, hsome, hrest]
      exact congrArg (writes · _) (hfiles fs)

variable {w : ClientSystem α} {c c' : Client α}

/-- When `get` or `mget` reports success for several files, the local files are written one after the
other under the last part of their names, each from the server it names or else from the one before,
and nothing else changes. Every file that was named is there in the end if and only if no two
different ones have the same last part; otherwise one has replaced the other without notice. -/
theorem get_copies {argv : List Bytes} (hseveral : localDirectory.isSome ∨ argv.length ≠ 3)
    (h : getArgs w c argv localDirectory = .ok (c', 0)) :
    ∃ calls, c'.calls = c.calls ++ calls ∧
      ∀ addrs, addrs = servers c.literal c.serv.addr (getSources localDirectory argv) (lookups calls) →
        addrs.length = (getSources localDirectory argv).length ∧
        ∀ copies, copies = List.zipWith (wanted c.literal localDirectory) (getSources localDirectory argv) addrs →
          ∀ fs, (∀ file, file ∉ copies.map Prod.fst → localFiles fs calls file = fs file) ∧
            ((∀ p ∈ copies, localFiles fs calls p.1 = p.2) ↔
              ∀ p ∈ copies, ∀ q ∈ copies, p.1 = q.1 → p.2 = q.2) := by
  rcases getArgs_fetches w c hseveral with hrefused | ⟨done, rest, blocks, hargs, hall, hend⟩
  · cases h.symm.trans hrefused
  · rw [h] at hend
    rcases hend with hend | ⟨c₁, -, hfreed⟩
    · obtain ⟨rfl, hext, hjump, hstatus⟩ := hend.of_ok
      rw [List.append_nil] at hargs
      subst hargs
      obtain ⟨hlen, hfiles⟩ := hall.localFiles hstatus.symm hjump
      refine ⟨blocks.flatten, hext.calls_eq, ?_⟩
      rintro addrs rfl
      refine ⟨hlen, ?_⟩
      rintro copies rfl fs
      rw [hfiles fs]
      exact ⟨fun file hfile => writes_of_notMem hfile, writes_kept_iff⟩
    · cases hfreed

/-- Two files of the same name: one is lost. -/
theorem get_copies_foo : ∃ (c' : Client ℕ) (calls : List (Call ℕ)) (addrs : List ℕ),
    getArgs fooSystem {} [cstr "mget", cstr "good:a/foo", cstr "good:b/foo", cstr "dir"] (some (cstr "dir")) =
      .ok (c', 0) ∧ c'.calls = calls ∧
    addrs = servers false none [cstr "good:a/foo", cstr "good:b/foo"] (lookups calls) ∧
    ¬ ∀ p ∈ List.zipWith (wanted false (some (cstr "dir"))) [cstr "good:a/foo", cstr "good:b/foo"] addrs,
      localFiles (fun _ => none) calls p.1 = p.2 := by
  have hget : getArgs fooSystem {} [cstr "mget", cstr "good:a/foo", cstr "good:b/foo", cstr "dir"]
      (some (cstr "dir")) = .ok (_, 0) := rfl
  obtain ⟨calls, hcalls, hcopies⟩ := get_copies (.inl rfl) hget
  obtain ⟨hlen, hcopies⟩ := hcopies _ rfl
  refine ⟨_, calls, _, hget, hcalls, rfl, fun hall => ?_⟩
  obtain ⟨addr, addr', haddrs⟩ := List.length_eq_two.mp hlen
  have hbase : (tail (cstr "a/foo")).2 = (tail (cstr "b/foo")).2 := by decide
  have heq := (hcopies _ rfl fun _ => none).2.mp hall
  rw [haddrs] at heq
  have hlost := heq _ List.mem_cons_self _ (List.mem_cons_of_mem _ List.mem_cons_self)
    (congrArg (localName (some (cstr "dir"))) hbase)
  have hname : (tail (cstr "a/foo")).1 = (tail (cstr "b/foo")).1 := (Content.copy.inj (Option.some.inj hlost)).2
  revert hname
  decide

/-! ### A host that is not found -/

/-- `get host:src file` while connected, with a host that is not found: the loop goes on to the local
file as if it were another one to be fetched. It is emptied, no request is made, and the status is
that of wrong usage. -/
theorem get_unresolved_truncates {cmd host src file : Bytes} {status : ℕ} (hliteral : c.literal = false)
    (hserv : c.serv.addr.isSome) (hhost : colon ∉ host) (hfile : colon ∉ file) (hdir : isDirectory file = false)
    (hset : setTransferHost w c host none = .ok (c', status)) (hstatus : status ≠ 0)
    (hopen : w.opens c'.calls .recv file = true) :
    ∃ c'', getArgs w c [cmd, host ++ colon :: src, file] none = .ok (c'', EX_USAGE) ∧
      c''.calls = c'.calls ++
        [.opened .recv file true, .transfer .recv none file file c'.config.mode.mode (.returned EX_USAGE)] ∧
      ∀ fs, localFiles fs c''.calls = Function.update (localFiles fs c'.calls) file (some .empty) := by
  obtain ⟨answer, hext, herr⟩ := setTransferHost_extends hset
  have hnone : c'.serv.addr = none := by
    have haddr : c'.serv.addr = answer.toOption := hext.addr_eq
    rw [haddr, ← Option.not_isSome_iff_eq_none, ← herr]
    exact hstatus
  have hfirst : hostFile c.literal (host ++ colon :: src) = some (host, src) := by
    rw [hostFile, hliteral]
    exact strchr_append hhost src
  have hsecond : hostFile c'.literal file = none := by
    rw [hostFile, hext.literal_eq, hliteral]
    exact strchr_eq_none_iff.mpr hfile
  have hunresolved : getSource w c 1 file (host ++ colon :: src) = .ok (c', file, none) := by
    simp only [getSource, hfirst, hset, if_neg hstatus]
    rfl
  have hplain : getSource w c' 2 file file = .ok (c', file, some file) := by simp only [getSource, hsecond]
  have hconnected : c.serv.addr.isNone = false := by
    obtain ⟨addr, ha⟩ := Option.isSome_iff_exists.mp hserv
    rw [ha]
    rfl
  have htransfer : transferFile w .recv Sysexits.EX_OSERR c' file file = .ok ((c'.did (.opened .recv file true)).did
      (.transfer .recv none file file c'.config.mode.mode (.returned EX_USAGE)), EX_USAGE) := by
    simp [transferFile, hopen, Client.transfer, Client.did, hnone]
  refine ⟨(c'.did (.opened .recv file true)).did
    (.transfer .recv none file file c'.config.mode.mode (.returned EX_USAGE)), ?_, ?_, fun fs => ?_⟩
  · rw [getArgs, if_neg (by simp), if_neg (by simp [hconnected])]
    change getLoop w none 3 [host ++ colon :: src, file] 1 file c 0 = _
    simp only [getLoop, hunresolved, hplain, hdir]
    simp [htransfer]
  · simp [Client.did]
  · rw [Client.did, Client.did, List.append_assoc, localFiles_append]
    rfl

theorem get_unresolved_truncates_foo : ∃ c' c'',
    setTransferHost fooSystem fooClient (cstr "bad") none = .ok (c', Sysexits.EX_NOHOST) ∧
    getArgs fooSystem fooClient [cstr "get", cstr "bad" ++ colon :: cstr "foo", cstr "bar"] none =
      .ok (c'', EX_USAGE) ∧
    c''.calls = c'.calls ++ [.opened .recv (cstr "bar") true,
      .transfer .recv none (cstr "bar") (cstr "bar") (some (cstr "octet")) (.returned EX_USAGE)] ∧
    localFiles (fun _ => some (.copy 1 (cstr "bar"))) c''.calls (cstr "bar") = some .empty := by
  have hset : setTransferHost fooSystem fooClient (cstr "bad") none = .ok (_, Sysexits.EX_NOHOST) := rfl
  have hhost : colon ∉ cstr "bad" := by decide
  have hfile : colon ∉ cstr "bar" := by decide
  obtain ⟨c'', hget, hcalls, hfiles⟩ :=
    get_unresolved_truncates rfl rfl hhost hfile (by decide) hset (by decide) (by decide)
  refine ⟨_, c'', hset, hget, hcalls, ?_⟩
  rw [hfiles, Function.update_self]

end TftpHpa
