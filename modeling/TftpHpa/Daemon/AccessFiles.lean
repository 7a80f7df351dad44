import TftpHpa.Daemon.Access

/-! What `validate_access` does to the file system. A file is created when it is opened,
with the umask that `main` has set, and it is emptied by `ftruncate` after the last check;
the checks in between can still refuse the request. -/

namespace TftpHpa

/-- A file: its permission bits and its contents. -/
structure Inode where
  mode : BitVec 9
  data : Bytes
  size_le : data.length ≤ OFF_T_MAX

/-- The directory entries, wherever names may lead. -/
abbrev FileSystem (Loc : Type*) := Loc → Option Inode

/-- What the system decides: where a name leads, whether a file may be opened or created, and
how the later calls on an open file end. -/
structure Kernel (Loc : Type*) where
  lookup : OpenCall → Except ℤ Loc
  mayOpen : OpenCall → Option ℤ
  mayCreate : OpenCall → Option ℤ
  fstat : Loc → Bool
  lockFile : Loc → Bool
  ftruncate : Loc → Bool
  fdopen : Bool

/-- The settings for the umask, and the one that has been inherited. -/
structure UmaskOptions where
  specUmask : Bool := false
  myUmask : BitVec 9 := 0
  inherited : BitVec 9

/-- `umask` as `main` leaves it. -/
def UmaskOptions.umask (u : UmaskOptions) (o : AccessOptions) : BitVec 9 :=
  if u.specUmask || !o.unixperms then u.myUmask else u.inherited

def ENOENT : ℤ := 2

def Omode.creates : Omode → Bool
  | .wronly _ create => create
  | .directory | .rdonly _ => false

/-- The stat of a file. -/
def Inode.stat (f : Inode) : Stat where
  size := f.data.length
  size_le := f.size_le
  globalRead := f.mode.getLsbD 2
  globalWrite := f.mode.getLsbD 1

namespace Kernel

variable {Loc : Type*} [DecidableEq Loc] (k : Kernel Loc)

/-- A new file: mode 0666 without the bits of the umask. -/
def create (umask : BitVec 9) : Inode where
  mode := 0o666#9 &&& ~~~umask
  data := []
  size_le := Nat.zero_le _

/-- `open`, or `openat2`. -/
def openat (umask : BitVec 9) (fs : FileSystem Loc) (call : OpenCall) : Except ℤ Loc × FileSystem Loc :=
  match k.lookup call with
  | .error errno => (.error errno, fs)
  | .ok loc =>
    match fs loc with
    | some _ =>
      match k.mayOpen call with
      | some errno => (.error errno, fs)
      | none => (.ok loc, fs)
    | none =>
      if call.omode.creates then
        match k.mayCreate call with
        | some errno => (.error errno, fs)
        | none => (.ok loc, Function.update fs loc (some (create umask)))
      else (.error ENOENT, fs)

/-- Open a name, as in `openName`. -/
def openName (withJail unlinkable : Bool) (umask : BitVec 9) (fs : FileSystem Loc) (filename : Bytes) (omode : Omode) :
    Except ℤ Loc × FileSystem Loc :=
  let dirname := filename.rdropWhile (· ≠ slash)
  if withJail && unlinkable && dirname ≠ [] then
    match k.openat umask fs { name := dirname, omode := .directory } with
    | (.error errno, fs) => (.error errno, fs)
    | (.ok _, fs) =>
      k.openat umask fs { parent := some dirname, name := filename.rtakeWhile (· ≠ slash), omode }
  else k.openat umask fs { name := filename, omode }

/-- `ftruncate`. -/
def truncate (fs : FileSystem Loc) (loc : Loc) : FileSystem Loc :=
  Function.update fs loc ((fs loc).map fun f => { f with data := [], size_le := Nat.zero_le _ })

/-- The checks on an open file and `ftruncate`. -/
def openedFile (o : AccessOptions) (fs : FileSystem Loc) (loc : Loc) (isRead : Bool) (pf : Format) :
    Except Refusal OpenedFile × FileSystem Loc :=
  match (if k.fstat loc then (fs loc).map Inode.stat else none) with
  | none => (.error (.exit EX_OSERR), fs)
  | some st =>
    if !k.lockFile loc then (.error (.exit 0), fs)
    else if isRead then
      if !o.unixperms && !st.globalRead then (.error (.text .access "File must have global read permissions"), fs)
      else if !k.fdopen then (.error (.exit EX_OSERR), fs)
      else (.ok { tsizeMode := if pf.convert then .nak else .read, size := st.size, size_le := st.size_le }, fs)
    else if !o.unixperms && !st.globalWrite then
      (.error (.text .access "File must have global write permissions"), fs)
    else if !k.ftruncate loc then (.error (.text .access "Cannot reset file size"), fs)
    else if !k.fdopen then (.error (.exit EX_OSERR), truncate fs loc)
    else (.ok { tsizeMode := .write, size := 0, size_le := Nat.zero_le _ }, truncate fs loc)

/-- `validate_access` with its effect on the file system. -/
def validateAccess (withJail : Bool) (o : AccessOptions) (u : UmaskOptions) (fs : FileSystem Loc) (filename : Bytes)
    (mode : UInt16) (pf : Format) : Except Refusal OpenedFile × FileSystem Loc :=
  match accessName o filename with
  | .error e => (.error e, fs)
  | .ok name =>
    let isRead : Bool := mode = Opcode.rrq.code
    let omode : Omode := if isRead then .rdonly pf.convert else .wronly pf.convert o.cancreate
    match k.openName withJail (!isRead && o.cancreate) (u.umask o) fs name omode with
    | (.error errno, fs) => (.error (.nak (-errno) none), fs)
    | (.ok loc, fs) => k.openedFile o fs loc isRead pf

/-! ### The calls -/

/-- How opening a name ends: with an error and no effect, with a file that was there, or with
a new file. -/
inductive Opens (umask : BitVec 9) (mayCreate : Bool) (fs : FileSystem Loc) :
    Except ℤ Loc × FileSystem Loc → Prop where
  | failed (errno : ℤ) : Opens umask mayCreate fs (.error errno, fs)
  | found {loc : Loc} {f : Inode} (h : fs loc = some f) : Opens umask mayCreate fs (.ok loc, fs)
  | created {loc : Loc} (h : fs loc = none) (hc : mayCreate = true) :
    Opens umask mayCreate fs (.ok loc, Function.update fs loc (some (create umask)))

variable {k}

theorem openat_opens (umask : BitVec 9) (fs : FileSystem Loc) (call : OpenCall) :
    Opens umask call.omode.creates fs (k.openat umask fs call) := by
  unfold openat
  cases k.lookup call with
  | error errno => exact .failed errno
  | ok loc =>
    dsimp only
    cases hfs : fs loc with
    | some f =>
      dsimp only
      cases k.mayOpen call with
      | some errno => exact .failed errno
      | none => exact .found hfs
    | none =>
      dsimp only
      split
      · next hc =>
        cases k.mayCreate call with
        | some errno => exact .failed errno
        | none => exact .created hfs hc
      · exact .failed ENOENT

/-- Opening a directory has no effect. -/
theorem openat_directory (umask : BitVec 9) (fs : FileSystem Loc) (name : Bytes) :
    (k.openat umask fs { name, omode := .directory }).2 = fs := by
  have h := openat_opens (k := k) umask fs { name, omode := .directory }
  generalize k.openat umask fs { name, omode := .directory } = r at h ⊢
  cases h with
  | failed | found => rfl
  | created _ hc => cases hc

/-- In the last of its calls, if there are two, the name is opened. -/
theorem openName_opens (withJail unlinkable : Bool) (umask : BitVec 9) (fs : FileSystem Loc) (filename : Bytes)
    (omode : Omode) : Opens umask omode.creates fs (k.openName withJail unlinkable umask fs filename omode) := by
  unfold openName
  dsimp only
  split
  · have hdir := openat_directory (k := k) umask fs (filename.rdropWhile (· ≠ slash))
    split
    · next h =>
      rw [h] at hdir
      obtain rfl : _ = fs := hdir
      exact .failed _
    · next h =>
      rw [h] at hdir
      obtain rfl : _ = fs := hdir
      exact openat_opens umask _ { parent := some _, name := _, omode }
  · exact openat_opens umask fs { name := filename, omode }

/-! ### The answers of the system -/

def errno : Except ℤ Loc → Option ℤ
  | .error errno => some errno
  | .ok _ => none

/-- The answers that `validate_access` gets, where opening the name leads to `loc`. -/
def os (k : Kernel Loc) (umask : BitVec 9) (fs fs' : FileSystem Loc) (loc : Option Loc) : Os where
  openat call := errno (k.openat umask fs call).1
  fstat := loc.bind fun loc => if k.fstat loc then (fs' loc).map Inode.stat else none
  lockFile := loc.any k.lockFile
  ftruncate := loc.any k.ftruncate
  fdopen := k.fdopen

theorem openName_errno (withJail unlinkable : Bool) (umask : BitVec 9) (fs fs' : FileSystem Loc) (loc : Option Loc)
    (filename : Bytes) (omode : Omode) :
    (TftpHpa.openName withJail unlinkable (k.os umask fs fs' loc) filename omode).2 =
      errno (k.openName withJail unlinkable umask fs filename omode).1 := by
  simp only [TftpHpa.openName, openName, os]
  split
  · have hdir := openat_directory (k := k) umask fs (filename.rdropWhile (· ≠ slash))
    generalize k.openat umask fs { name := filename.rdropWhile (· ≠ slash), omode := .directory } = r at hdir ⊢
    obtain ⟨e | l, fs₁⟩ := r
    · rfl
    · obtain rfl : fs₁ = fs := hdir
      rfl
  · rfl

theorem openedFile_fst (o : AccessOptions) (umask : BitVec 9) (fs fs' : FileSystem Loc) (loc : Loc) (isRead : Bool)
    (pf : Format) :
    (k.openedFile o fs' loc isRead pf).1 = TftpHpa.openedFile o (k.os umask fs fs' (some loc)) isRead pf := by
  simp only [openedFile, TftpHpa.openedFile, os, Option.bind_some, Option.any_some]
  cases (if k.fstat loc = true then (fs' loc).map Inode.stat else none) with
  | none => rfl
  | some st =>
    cases isRead with
    | true =>
      simp only [Bool.true_and, Bool.not_true, Bool.false_and, Bool.false_eq_true, if_true, if_false]
      split_ifs <;> rfl
    | false =>
      simp only [Bool.true_and, Bool.not_false, Bool.false_and, Bool.false_eq_true, if_false]
      split_ifs <;> rfl

/-- Its result is that of `validateAccess` for these answers. -/
theorem validateAccess_fst (withJail : Bool) (o : AccessOptions) (u : UmaskOptions) (fs : FileSystem Loc)
    (filename : Bytes) (mode : UInt16) (pf : Format) :
    ∃ fs' loc, (k.validateAccess withJail o u fs filename mode pf).1 =
      (TftpHpa.validateAccess withJail o (k.os (u.umask o) fs fs' loc) filename mode pf).2 := by
  unfold validateAccess TftpHpa.validateAccess
  cases accessName o filename with
  | error e => exact ⟨fs, none, rfl⟩
  | ok name =>
    dsimp only
    generalize (if decide (mode = Opcode.rrq.code) = true then Omode.rdonly pf.convert
      else .wronly pf.convert o.cancreate) = omode
    have herrno := fun fs' loc => openName_errno (k := k) withJail (!decide (mode = Opcode.rrq.code) && o.cancreate)
      (u.umask o) fs fs' loc name omode
    generalize k.openName withJail (!decide (mode = Opcode.rrq.code) && o.cancreate) (u.umask o) fs name omode = r
      at herrno
    obtain ⟨e | loc, fs'⟩ := r
    · refine ⟨fs, none, ?_⟩
      have h := herrno fs none
      generalize TftpHpa.openName withJail _ _ name omode = called at h ⊢
      obtain ⟨calls, e'⟩ := called
      obtain rfl : e' = some e := h
      rfl
    · refine ⟨fs', some loc, ?_⟩
      have h := herrno fs' (some loc)
      generalize TftpHpa.openName withJail _ _ name omode = called at h ⊢
      obtain ⟨calls, e'⟩ := called
      obtain rfl : e' = none := h
      exact openedFile_fst o (u.umask o) fs fs' loc _ pf

/-! ### A refused upload -/

theorem create_globalWrite (umask : BitVec 9) : (create umask).stat.globalWrite = !umask.getLsbD 1 := by
  simp [create, Inode.stat]

/-- An upload that is refused after the file has been opened: nothing is done to the file
any more. -/
theorem openedFile_refused {o : AccessOptions} {fs : FileSystem Loc} {loc : Loc} {pf : Format} {code : ℤ}
    {msg : Option Bytes} (h : (k.openedFile o fs loc false pf).1 = .error (.nak code msg)) :
    (k.openedFile o fs loc false pf).2 = fs ∧ ∃ f, fs loc = some f ∧
      (o.unixperms = false ∧ f.stat.globalWrite = false ∨ k.ftruncate loc = false) := by
  unfold openedFile at h ⊢
  split at h
  · cases h
  · next st hst =>
    have hfile : ∃ f, fs loc = some f ∧ f.stat = st := by
      split at hst
      · exact Option.map_eq_some_iff.mp hst
      · cases hst
    obtain ⟨f, hf, rfl⟩ := hfile
    simp only [Bool.false_eq_true, if_false] at h ⊢
    split_ifs at h ⊢ with hlock hwrite htrunc hopen
    · cases h
    · rw [Bool.and_eq_true, Bool.not_eq_true', Bool.not_eq_true'] at hwrite
      exact ⟨rfl, f, hf, .inl hwrite⟩
    · rw [Bool.not_eq_true'] at htrunc
      exact ⟨rfl, f, hf, .inr htrunc⟩
    · cases h

variable (k) in
/-- The upload of a name creates the file at `loc`. -/
def Creates (withJail : Bool) (o : AccessOptions) (u : UmaskOptions) (fs : FileSystem Loc) (filename : Bytes)
    (pf : Format) (loc : Loc) : Prop :=
  o.cancreate = true ∧ fs loc = none ∧ ∃ name, accessName o filename = .ok name ∧
    (k.openName withJail true (u.umask o) fs name (.wronly pf.convert true)).1 = .ok loc

end Kernel

/-- A write request that is refused leaves the file system as it was, unless it has created
the file itself. That happens when the umask takes the write permission for others from the
new file, which is then asked for, or when the new file cannot be truncated. -/
theorem refused_write_iff {Loc : Type*} [DecidableEq Loc] (withJail : Bool) (o : AccessOptions) (u : UmaskOptions)
    (k : Kernel Loc) (fs : FileSystem Loc) (filename : Bytes) (pf : Format) {code : ℤ} {msg : Option Bytes}
    (h : (k.validateAccess withJail o u fs filename Opcode.wrq.code pf).1 = .error (.nak code msg)) :
    (k.validateAccess withJail o u fs filename Opcode.wrq.code pf).2 = fs ↔
      ¬ ∃ loc, k.Creates withJail o u fs filename pf loc ∧
        (o.unixperms = false ∧ (u.umask o).getLsbD 1 = true ∨ k.ftruncate loc = false) := by
  unfold Kernel.validateAccess at h ⊢
  cases hname : accessName o filename with
  | error e =>
    refine ⟨fun _ ⟨loc, ⟨_, _, name, hok, _⟩, _⟩ => ?_, fun _ => rfl⟩
    rw [hname] at hok
    cases hok
  | ok name =>
    have hwrq : decide (Opcode.wrq.code = Opcode.rrq.code) = false := rfl
    simp only [hname, hwrq, Bool.not_false, Bool.true_and, Bool.false_eq_true, if_false] at h ⊢
    have hopens := Kernel.openName_opens (k := k) withJail o.cancreate (u.umask o) fs name
      (.wronly pf.convert o.cancreate)
    -- The file that is created is the one that this call has opened.
    have hcreates : ∀ {loc}, k.Creates withJail o u fs filename pf loc →
        fs loc = none ∧
          (k.openName withJail o.cancreate (u.umask o) fs name (.wronly pf.convert o.cancreate)).1 = .ok loc := by
      rintro loc ⟨hc, hnone, name', hname', hopen⟩
      obtain rfl := Except.ok.inj (hname.symm.trans hname')
      exact ⟨hnone, by rw [hc]; exact hopen⟩
    generalize hr : k.openName withJail o.cancreate (u.umask o) fs name (.wronly pf.convert o.cancreate) = r
      at h hopens hcreates ⊢
    cases hopens with
    | failed errno =>
      refine ⟨fun _ ⟨loc, hloc, _⟩ => ?_, fun _ => rfl⟩
      cases (hcreates hloc).2
    | @found loc f hfound =>
      refine ⟨fun _ ⟨loc', hloc', _⟩ => ?_, fun _ => (Kernel.openedFile_refused h).1⟩
      obtain ⟨hnone, hsame⟩ := hcreates hloc'
      obtain rfl := Except.ok.inj hsame
      rw [hfound] at hnone
      cases hnone
    | @created loc hnone hc =>
      obtain ⟨hfs, f, hf, hreason⟩ := Kernel.openedFile_refused h
      obtain rfl : Kernel.create (u.umask o) = f := by simpa using hf
      rw [Kernel.create_globalWrite, Bool.not_eq_false'] at hreason
      refine ⟨fun hsame => ?_, fun hnot => absurd ⟨loc, ⟨hc, hnone, name, hname, ?_⟩, hreason⟩ hnot⟩
      · have hloc := congrFun (hfs.symm.trans hsame) loc
        rw [Function.update_self, hnone] at hloc
        cases hloc
      · rw [show o.cancreate = true from hc] at hr
        rw [hr]

/-- A system where names lead to themselves and every call succeeds. -/
def Kernel.plain : Kernel Bytes where
  lookup call := .ok call.path
  mayOpen _ := none
  mayCreate _ := none
  fstat _ := true
  lockFile _ := true
  ftruncate _ := true
  fdopen := true

/-- An upload to a file that only its owner may write is refused, and the file is left
alone. -/
theorem refused_write_iff_owned :
    let o : AccessOptions := { dirs := [[cstr "tftpboot"]] }
    let fs : FileSystem Bytes := fun name =>
      if name = cstr "/tftpboot/foo" then some { mode := 0o644#9, data := cstr "bar", size_le := by decide } else none
    ∃ code msg, (Kernel.plain.validateAccess false o { inherited := 0o022#9 } fs (cstr "/tftpboot/foo") Opcode.wrq.code
        .octet).1 = .error (.nak code msg) ∧
      (Kernel.plain.validateAccess false o { inherited := 0o022#9 } fs (cstr "/tftpboot/foo") Opcode.wrq.code
        .octet).2 = fs := by
  intro o fs
  refine ⟨_, _, rfl, (refused_write_iff false o { inherited := 0o022#9 } Kernel.plain fs _ .octet rfl).mpr ?_⟩
  rintro ⟨loc, ⟨hc, -⟩, -⟩
  cases hc

/-- With `--create` and `-U 022` an upload to a file that does not exist is refused for want of
global write permissions, after the file has been created. -/
theorem refused_write_creates :
    let o : AccessOptions := { cancreate := true, dirs := [[cstr "tftpboot"]] }
    let u : UmaskOptions := { specUmask := true, myUmask := 0o022#9, inherited := 0 }
    (Kernel.plain.validateAccess false o u (fun _ => none) (cstr "/tftpboot/foo") Opcode.wrq.code .octet).1 =
      .error (.text .access "File must have global write permissions") ∧
    (Kernel.plain.validateAccess false o u (fun _ => none) (cstr "/tftpboot/foo") Opcode.wrq.code .octet).2
      (cstr "/tftpboot/foo") = some (Kernel.create 0o022#9) := by
  exact ⟨rfl, rfl⟩

end TftpHpa
