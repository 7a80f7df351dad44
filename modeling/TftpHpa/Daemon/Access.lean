import TftpHpa.Daemon.Path
import TftpHpa.Daemon.Request

/-! Access to files (`validate_access`). The name of the request is checked against the
permitted directories and put together anew, and only that name is opened. What the
system answers to the calls is left open. -/

namespace TftpHpa

/-- The settings for access to files. -/
structure AccessOptions where
  validate : Bool := true
  cancreate : Bool := false
  unixperms : Bool := false
  dirs : List (List Bytes)
  pathPrefix : Option Bytes := none

/-- What a name is opened for. -/
inductive Omode where
  | directory
  | rdonly (text : Bool)
  | wronly (text create : Bool)
  deriving DecidableEq

/-- A call of `open` or `openat2`, with the directory the name is looked up in if that
has been opened before. -/
structure OpenCall where
  parent : Option Bytes := none
  name : Bytes
  omode : Omode
  deriving DecidableEq

/-- The name that is opened, as a whole. -/
def OpenCall.path (call : OpenCall) : Bytes := call.parent.getD [] ++ call.name

/-- What `fstat` says of an open file. -/
structure Stat where
  size : ℕ
  size_le : size ≤ OFF_T_MAX
  globalRead : Bool
  globalWrite : Bool

/-- The answers of the system: an error number for a call that fails. -/
structure Os where
  openat : OpenCall → Option ℤ
  fstat : Option Stat
  lockFile : Bool
  ftruncate : Bool
  fdopen : Bool

/-- The name to open, or none of it. -/
def accessName (o : AccessOptions) (filename : Bytes) : Except Refusal Bytes :=
  if o.validate then
    match parsePath filename true with
    | none => .error (.text .access "Invalid pathname specified")
    | some pathlist =>
      if o.dirs.any fun dir => comparePaths pathlist dir &&& 2 ≠ 0 then .ok (buildPath o.pathPrefix pathlist)
      else .error (.text .access "Forbidden directory")
  else .ok filename

/-- Open a name, and the error if that fails. With `openat2` a file that may have to be
removed later is opened through its directory. -/
def openName (withJail unlinkable : Bool) (os : Os) (filename : Bytes) (omode : Omode) :
    List OpenCall × Option ℤ :=
  let dirname := filename.rdropWhile (· ≠ slash)
  if withJail && unlinkable && dirname ≠ [] then
    let parent : OpenCall := { name := dirname, omode := .directory }
    let call : OpenCall := { parent := some dirname, name := filename.rtakeWhile (· ≠ slash), omode }
    match os.openat parent with
    | some errno => ([parent], some errno)
    | none => ([parent, call], os.openat call)
  else
    let call : OpenCall := { name := filename, omode }
    ([call], os.openat call)

def EX_OSERR : ℤ := 71

/-- The checks on an open file; an upload starts with an empty one. -/
def openedFile (o : AccessOptions) (os : Os) (isRead : Bool) (pf : Format) : Except Refusal OpenedFile :=
  match os.fstat with
  | none => .error (.exit EX_OSERR)
  | some st =>
    if !os.lockFile then .error (.exit 0)
    else if isRead && !o.unixperms && !st.globalRead then
      .error (.text .access "File must have global read permissions")
    else if !isRead && !o.unixperms && !st.globalWrite then
      .error (.text .access "File must have global write permissions")
    else if !isRead && !os.ftruncate then .error (.text .access "Cannot reset file size")
    else if !os.fdopen then .error (.exit EX_OSERR)
    else if isRead then
      .ok { tsizeMode := if pf.convert then .nak else .read, size := st.size, size_le := st.size_le }
    else .ok { tsizeMode := .write, size := 0, size_le := Nat.zero_le _ }

/-- `validate_access`, with the calls it makes to open something. -/
def validateAccess (withJail : Bool) (o : AccessOptions) (os : Os) (filename : Bytes) (mode : UInt16) (pf : Format) :
    List OpenCall × Except Refusal OpenedFile :=
  match accessName o filename with
  | .error e => ([], .error e)
  | .ok name =>
    let isRead : Bool := mode = Opcode.rrq.code
    let omode : Omode := if isRead then .rdonly pf.convert else .wronly pf.convert o.cancreate
    match openName withJail (!isRead && o.cancreate) os name omode with
    | (calls, some errno) => (calls, .error (.nak (-errno) none))
    | (calls, none) => (calls, openedFile o os isRead pf)

/-! ### Confinement -/

/-- A name is opened: directly, or after the directory in front of its last component. -/
def OpenCall.Opens (call : OpenCall) (name : Bytes) : Prop :=
  call.omode ≠ .directory ∧ call.path = name ∨
    call.omode = .directory ∧ ∃ base, slash ∉ base ∧ call.path ++ base = name

theorem openName_opens (withJail unlinkable : Bool) (os : Os) (name : Bytes) {omode : Omode}
    (hmode : omode ≠ .directory) :
    (openName withJail unlinkable os name omode).1 ≠ [] ∧
      ∀ call ∈ (openName withJail unlinkable os name omode).1, call.Opens name := by
  have hsplit : name.rdropWhile (· ≠ slash) ++ name.rtakeWhile (· ≠ slash) = name :=
    List.rdropWhile_append_rtakeWhile
  have hbase : slash ∉ name.rtakeWhile (· ≠ slash) := fun h => by simpa using List.mem_rtakeWhile_imp h
  have hparent : OpenCall.Opens { name := name.rdropWhile (· ≠ slash), omode := .directory } name :=
    .inr ⟨rfl, _, hbase, hsplit⟩
  simp only [openName]
  split_ifs
  · split
    · exact ⟨by simp, by simpa using hparent⟩
    · refine ⟨by simp, fun call hcall => ?_⟩
      rcases List.mem_pair.mp hcall with rfl | rfl
      · exact hparent
      · exact .inl ⟨hmode, hsplit⟩
  · refine ⟨by simp, fun call hcall => ?_⟩
    rw [List.mem_singleton.mp hcall]
    exact .inl ⟨hmode, rfl⟩

/-- The name that passes is put together from the components of the one asked for, and
a permitted directory is in front of them. -/
theorem accessName_validate {o : AccessOptions} (hv : o.validate = true) (filename : Bytes) :
    (accessName o filename = .ok (buildPath o.pathPrefix (components filename)) ∧
      (∃ dir ∈ o.dirs, dir <+: components filename) ∧ ∀ c ∈ components filename, ValidComponent c) ∨
    ∃ msg, accessName o filename = .error (.text .access msg) := by
  rw [accessName, if_pos hv]
  cases hpath : parsePath filename true with
  | none => exact .inr ⟨_, rfl⟩
  | some pathlist =>
    have hvalid := parsePath_valid hpath
    have hcomponents : pathlist = components filename := by
      rw [parsePath_strict] at hpath
      split_ifs at hpath
      exact (Option.some.inj hpath).symm
    subst hcomponents
    dsimp only
    split_ifs with hdir
    · refine .inl ⟨rfl, ?_, hvalid⟩
      obtain ⟨dir, hmem, hcmp⟩ := List.any_eq_true.mp hdir
      exact ⟨dir, hmem, comparePaths_and_two.mp (of_decide_eq_true hcmp)⟩
    · exact .inr ⟨_, rfl⟩

/-- Once the name is there, all that is opened is that name. -/
theorem validateAccess_calls (withJail : Bool) {o : AccessOptions} (os : Os) {filename name : Bytes} (mode : UInt16)
    (pf : Format) (h : accessName o filename = .ok name) :
    ∃ unlinkable omode, omode ≠ .directory ∧
      (validateAccess withJail o os filename mode pf).1 = (openName withJail unlinkable os name omode).1 := by
  refine ⟨!decide (mode = Opcode.rrq.code) && o.cancreate,
    if decide (mode = Opcode.rrq.code) then .rdonly pf.convert else .wronly pf.convert o.cancreate,
    by split_ifs <;> simp, ?_⟩
  simp only [validateAccess, h]
  split <;> rename_i hopen <;> rw [hopen]

/-- With path validation on, the only name opened is that of a file below a permitted
directory; any other name is refused before anything is opened. -/
theorem access_confined (withJail : Bool) {o : AccessOptions} (hv : o.validate = true) (os : Os) (filename : Bytes)
    (mode : UInt16) (pf : Format) :
    (∃ cs, cs = components filename ∧ (∃ dir ∈ o.dirs, dir <+: cs) ∧ (∀ c ∈ cs, ValidComponent c) ∧
      (validateAccess withJail o os filename mode pf).1 ≠ [] ∧
      ∀ call ∈ (validateAccess withJail o os filename mode pf).1,
        call.Opens ((o.pathPrefix.getD []).rdropWhile (· = slash) ++ cs.flatMap (slash :: ·))) ∨
    ((validateAccess withJail o os filename mode pf).1 = [] ∧
      ∃ msg, (validateAccess withJail o os filename mode pf).2 = .error (.text .access msg)) := by
  rcases accessName_validate hv filename with ⟨hname, hdir, hvalid⟩ | ⟨msg, hname⟩
  · obtain ⟨unlinkable, omode, hmode, hcalls⟩ := validateAccess_calls withJail os mode pf hname
    obtain ⟨hne, hopens⟩ := openName_opens withJail unlinkable os (buildPath o.pathPrefix (components filename)) hmode
    rw [← hcalls] at hne hopens
    exact .inl ⟨_, rfl, hdir, hvalid, hne, hopens⟩
  · refine .inr ⟨?_, msg, ?_⟩ <;> simp only [validateAccess, hname]

/-- A system where every call succeeds. -/
def Os.willing : Os where
  openat _ := none
  fstat := some { size := 0, size_le := Nat.zero_le _, globalRead := true, globalWrite := true }
  lockFile := true
  ftruncate := true
  fdopen := true

/-- An upload below `/tftpboot`, which is a permitted directory. -/
theorem access_confined_tftpboot :
    let o : AccessOptions :=
      { cancreate := true, dirs := [[cstr "tftpboot"]], pathPrefix := some (cstr "/srv/") }
    ∃ cs, cs = components (cstr "/tftpboot//foo") ∧ cs = [cstr "tftpboot", cstr "foo"] ∧
      ∀ call ∈ (validateAccess true o .willing (cstr "/tftpboot//foo") Opcode.wrq.code .octet).1,
        call.Opens (cstr "/srv/tftpboot/foo") := by
  intro o
  rcases access_confined true (o := o) rfl .willing (cstr "/tftpboot//foo") Opcode.wrq.code .octet with
    ⟨cs, rfl, -, -, -, hopens⟩ | ⟨hnone, -⟩
  · exact ⟨_, rfl, by decide, hopens⟩
  · exact absurd hnone (by decide)

end TftpHpa
