import TftpHpa.Daemon.AccessFiles
import TftpHpa.Daemon.Sendfile
import TftpHpa.Daemon.Upload
import TftpHpa.Lib.Locking

/-! The workers of the server at one file system. A worker opens its file, looks at it, locks it
and, for an upload, empties it (`validate_access`); the lock goes when the file is closed, by
`tftp_sendfile`, `commit_upload` or `discard_upload`, or when the process ends. Names are not
files: a name can be removed while the file is open. -/

namespace TftpHpa

open Locking (Hold Disciplined)

/-! ### Files -/

/-- A file: its permission bits and its contents. -/
structure Node where
  mode : BitVec 9
  data : Bytes

/-- What `fstat` has stored. -/
structure Stbuf where
  mode : BitVec 9
  size : ℕ

/-- The directory entries, and the files by number. -/
structure Disk (Loc : Type*) where
  entry : Loc → Option ℕ
  nodes : List Node := []
  entry_lt : ∀ loc ino, entry loc = some ino → ino < nodes.length

namespace Disk

variable {Loc : Type*}

def data (d : Disk Loc) (ino : ℕ) : Option Bytes := d.nodes[ino]?.map Node.data

def stat (d : Disk Loc) (ino : ℕ) : Option Stbuf := d.nodes[ino]?.map fun n => ⟨n.mode, n.data.length⟩

def write (d : Disk Loc) (ino : ℕ) (data : Bytes) : Disk Loc where
  entry := d.entry
  nodes := d.nodes.modify ino fun n => { n with data }
  entry_lt loc ino h := by
    rw [List.length_modify]
    exact d.entry_lt loc ino h

variable [DecidableEq Loc]

/-- A new file: mode 0666 without the bits of the umask. -/
def create (d : Disk Loc) (umask : BitVec 9) (loc : Loc) : Disk Loc where
  entry := Function.update d.entry loc (some d.nodes.length)
  nodes := d.nodes ++ [{ mode := 0o666#9 &&& ~~~umask, data := [] }]
  entry_lt loc' ino h := by
    rw [List.length_append, List.length_singleton]
    rcases eq_or_ne loc' loc with rfl | hne
    · rw [Function.update_self] at h
      have := Option.some.inj h
      omega
    · rw [Function.update_of_ne hne] at h
      have := d.entry_lt loc' ino h
      omega

def unlink (d : Disk Loc) (loc : Loc) : Disk Loc where
  entry := Function.update d.entry loc none
  nodes := d.nodes
  entry_lt loc' ino h := by
    rcases eq_or_ne loc' loc with rfl | hne
    · rw [Function.update_self] at h
      cases h
    · rw [Function.update_of_ne hne] at h
      exact d.entry_lt loc' ino h

omit [DecidableEq Loc] in
theorem data_isSome {d : Disk Loc} {ino : ℕ} : (d.data ino).isSome = true ↔ ino < d.nodes.length := by
  simp [data]

omit [DecidableEq Loc] in
theorem data_write_self {d : Disk Loc} {ino : ℕ} (h : (d.data ino).isSome = true) (data : Bytes) :
    (d.write ino data).data ino = some data := by
  obtain ⟨v, hv⟩ := Option.isSome_iff_exists.mp h
  obtain ⟨n, hn, -⟩ := Option.map_eq_some_iff.mp hv
  simp [Disk.data, write, List.getElem?_modify_eq, hn]

omit [DecidableEq Loc] in
theorem data_write_ne (d : Disk Loc) {ino c : ℕ} (h : ino ≠ c) (data : Bytes) :
    (d.write ino data).data c = d.data c := by
  simp [Disk.data, write, List.getElem?_modify_ne _ _ h]

theorem data_create_of_some {d : Disk Loc} (umask : BitVec 9) (loc : Loc) {c : ℕ} {v : Bytes} (h : d.data c = some v) :
    (d.create umask loc).data c = some v := by
  have hlt : c < d.nodes.length := data_isSome.mp (by simp [h])
  rw [← h, data, data, create, List.getElem?_append_left hlt]

theorem data_create_new (d : Disk Loc) (umask : BitVec 9) (loc : Loc) :
    (d.create umask loc).data d.nodes.length = some [] := by
  simp [data, create]

/-- The new file is the only one there was not. -/
theorem data_of_create {d : Disk Loc} {umask : BitVec 9} {loc : Loc} {c : ℕ} {v : Bytes}
    (h : (d.create umask loc).data c = some v) : d.data c = some v ∨ v = [] := by
  rcases lt_trichotomy c d.nodes.length with hlt | rfl | hgt
  · left
    rw [← h, data, data, create, List.getElem?_append_left hlt]
  · rw [data_create_new] at h
    exact .inr (Option.some.inj h).symm
  · have hlen : c < (d.create umask loc).nodes.length := data_isSome.mp (by simp [h])
    simp only [create, List.length_append, List.length_singleton] at hlen
    omega

end Disk

/-! ### Workers -/

/-- Where a worker stands: in `validate_access` before `open`, before `fstat`, before `lock_file`,
before the checks, after `ftruncate`; in `tftp_sendfile` or `tftp_recvfile`; in `discard_upload`
between `fclose` and `unlink`; with the file closed and `left` in it. -/
inductive FilePc where
  | opening
  | opened (ino : ℕ)
  | statted (ino : ℕ) (st : Stbuf)
  | locked (ino : ℕ) (st : Stbuf)
  | truncated (ino : ℕ)
  | reading (ino : ℕ) (st : Stbuf) (b : SendfileArgs) (f : Sendfile)
  | writing (ino : ℕ) (b : UploadArgs) (u : Upload)
  | closed (ino : ℕ) (b : UploadArgs) (u : Upload)
  | unlinking (ino : ℕ) (left : Bytes)
  | abandoned (ino : ℕ) (left : Bytes)
  | ended

/-- A worker with the place its name leads to. -/
structure FileJob (Loc : Type*) where
  loc : Loc
  isRead : Bool
  pc : FilePc := .opening

/-- `exit` is the end of the process, from outside or in `exit`. -/
inductive FileLabel where
  | openat
  | openFailed
  | fstat
  | lockFile
  | refuse
  | truncate (done : Bool)
  | send (b : SendfileArgs)
  | sendfile (l : SendfileLabel)
  | receive (b : UploadArgs)
  | recvfile (l : UploadLabel)
  | unlink
  | exit

/-- The check of the permission bits. -/
def Stbuf.permits (st : Stbuf) (o : AccessOptions) (isRead : Bool) : Bool :=
  o.unixperms || st.mode.getLsbD (if isRead then 2 else 1)

/-- Whether the file is still open. -/
def Upload.isOpen (u : Upload) : Bool :=
  match u.pc with
  | .start | .receiving _ | .stopping _ _ _ => true
  | .dally | .ended _ => false

def Sendfile.isOpen (f : Sendfile) : Bool :=
  match f.pc with
  | .ended _ => false
  | _ => true

/-- What is in the file after the `fclose` of `discard_upload`. -/
def Upload.flushed (u : Upload) : UploadLabel → Bytes
  | .close true =>
    match u.pc with
    | .stopping _ io _ => io.file.written
    | _ => u.disk.getD []
  | _ => u.disk.getD []

namespace FileJob

variable {Loc : Type*}

/-- The lock of a worker. -/
def holds (j : FileJob Loc) : Option (Hold ℕ) :=
  match j.pc with
  | .locked ino _ => some ⟨ino, !j.isRead⟩
  | .reading ino _ _ _ => some ⟨ino, false⟩
  | .truncated ino | .writing ino _ _ => some ⟨ino, true⟩
  | _ => none

/-- A worker that writes has made a step: it still has the file open, or it has closed it, and
then the name is to be removed or not. -/
def wrote (d : Disk Loc) (ino : ℕ) (b : UploadArgs) (u u' : Upload) (l : UploadLabel) : Disk Loc × FilePc :=
  match u'.disk with
  | some data => (d.write ino data, if u'.isOpen then .writing ino b u' else .closed ino b u')
  | none => (d.write ino (u.flushed l), .unlinking ino (u.flushed l))

/-- One step of a worker. `grants` is the answer of the system to `lock_file`. -/
def step [DecidableEq Loc] (o : AccessOptions) (umask : BitVec 9) (grants : Hold ℕ → Bool) (d : Disk Loc)
    (j : FileJob Loc) : FileLabel → Option (Disk Loc × FilePc)
  | .openat =>
    match j.pc with
    | .opening =>
      match d.entry j.loc with
      | some ino => some (d, .opened ino)
      | none =>
        if !j.isRead && o.cancreate then some (d.create umask j.loc, .opened d.nodes.length) else some (d, .ended)
    | _ => none
  | .openFailed =>
    match j.pc with
    | .opening => some (d, .ended)
    | _ => none
  | .fstat =>
    match j.pc with
    | .opened ino => (d.stat ino).map fun st => (d, .statted ino st)
    | _ => none
  | .lockFile =>
    match j.pc with
    -- when a transfer of the file is under way, the process exits
    | .statted ino st => some (d, if grants ⟨ino, !j.isRead⟩ then .locked ino st else .ended)
    | _ => none
  | .refuse =>
    match j.pc with
    | .locked _ st => if st.permits o j.isRead then none else some (d, .ended)
    | _ => none
  | .truncate done =>
    match j.pc with
    | .locked ino st =>
      if !j.isRead && st.permits o j.isRead then
        some (if done then (d.write ino [], .truncated ino) else (d, .ended))
      else none
    | _ => none
  | .send b =>
    match j.pc with
    | .locked ino st =>
      if j.isRead && st.permits o j.isRead && d.data ino = some b.file.rest then some (d, .reading ino st b b.init)
      else none
    | _ => none
  | .sendfile l =>
    match j.pc with
    | .reading ino st b f => (f.step b l).map fun f' => (d, if f'.isOpen then .reading ino st b f' else .ended)
    | _ => none
  | .receive b =>
    match j.pc with
    | .truncated ino => if b.cancreate = o.cancreate then some (d, .writing ino b b.init) else none
    | _ => none
  | .recvfile l =>
    match j.pc with
    | .writing ino b u => (u.step b l).map fun u' => wrote d ino b u u' l
    | .closed ino b u => (u.step b l).map fun u' => (d, .closed ino b u')
    | _ => none
  | .unlink =>
    match j.pc with
    | .unlinking ino left => some (d.unlink j.loc, .abandoned ino left)
    | _ => none
  | .exit =>
    match j.pc with
    | .writing ino b u => some (d, .closed ino b { u with pc := .ended none })
    | .unlinking ino left => some (d, .abandoned ino left)
    | .closed _ _ _ | .abandoned _ _ => none
    | _ => some (d, .ended)

end FileJob

/-! ### The server -/

structure Server (Loc : Type*) where
  disk : Disk Loc
  jobs : List (FileJob Loc) := []

inductive ServerLabel (Loc : Type*) where
  | request (loc : Loc) (isRead : Bool)
  | job (k : ℕ) (l : FileLabel)

namespace Server

variable {Loc : Type*}

def holds (s : Server Loc) (k : ℕ) : Option (Hold ℕ) := s.jobs[k]?.bind FileJob.holds

def data (s : Server Loc) (ino : ℕ) : Option Bytes := s.disk.data ino

/-- `fcntl` with `F_SETLK`: the lock clashes with none of another process. -/
def grants (s : Server Loc) (k : ℕ) (h : Hold ℕ) : Bool :=
  (List.range s.jobs.length).all fun j => j = k || (s.holds j).all fun h' => !h.clashes h'

def step [DecidableEq Loc] (o : AccessOptions) (umask : BitVec 9) (s : Server Loc) :
    ServerLabel Loc → Option (Server Loc)
  | .request loc isRead => some { s with jobs := s.jobs ++ [{ loc, isRead }] }
  | .job k l =>
    s.jobs[k]?.bind fun j => (j.step o umask (s.grants k) s.disk l).map fun (disk, pc) =>
      { disk, jobs := s.jobs.set k { j with pc } }

/-- The worker that makes a step. -/
def actor (s : Server Loc) : ServerLabel Loc → ℕ
  | .request _ _ => s.jobs.length
  | .job k _ => k

end Server

/-! ### What a worker can do -/

namespace FileJob

variable {Loc : Type*} [DecidableEq Loc] {o : AccessOptions} {umask : BitVec 9} {grants : Hold ℕ → Bool} {d : Disk Loc}
  {j : FileJob Loc}

/-- The steps of a worker, one by one. -/
inductive Move (o : AccessOptions) (umask : BitVec 9) (grants : Hold ℕ → Bool) (d : Disk Loc) (j : FileJob Loc) :
    FileLabel → Disk Loc → FilePc → Prop where
  | found {ino : ℕ} (he : d.entry j.loc = some ino) (hpc : j.pc = .opening) :
    Move o umask grants d j .openat d (.opened ino)
  | created (he : d.entry j.loc = none) (hpc : j.pc = .opening) :
    Move o umask grants d j .openat (d.create umask j.loc) (.opened d.nodes.length)
  | missing (hpc : j.pc = .opening) : Move o umask grants d j .openat d .ended
  | openFailed (hpc : j.pc = .opening) : Move o umask grants d j .openFailed d .ended
  | statted {ino : ℕ} {st : Stbuf} (hst : d.stat ino = some st) (hpc : j.pc = .opened ino) :
    Move o umask grants d j .fstat d (.statted ino st)
  | locked {ino : ℕ} {st : Stbuf} (hg : grants ⟨ino, !j.isRead⟩ = true) (hpc : j.pc = .statted ino st) :
    Move o umask grants d j .lockFile d (.locked ino st)
  | busy {ino : ℕ} {st : Stbuf} (hpc : j.pc = .statted ino st) : Move o umask grants d j .lockFile d .ended
  | refused {ino : ℕ} {st : Stbuf} (hpc : j.pc = .locked ino st) : Move o umask grants d j .refuse d .ended
  | truncated {ino : ℕ} {st : Stbuf} (hw : j.isRead = false) (hpc : j.pc = .locked ino st) :
    Move o umask grants d j (.truncate true) (d.write ino []) (.truncated ino)
  | truncateFailed {ino : ℕ} {st : Stbuf} (hpc : j.pc = .locked ino st) :
    Move o umask grants d j (.truncate false) d .ended
  | sends {ino : ℕ} {st : Stbuf} {b : SendfileArgs} (hr : j.isRead = true) (hdata : d.data ino = some b.file.rest)
      (hpc : j.pc = .locked ino st) : Move o umask grants d j (.send b) d (.reading ino st b b.init)
  | reads {ino : ℕ} {st : Stbuf} {b : SendfileArgs} {f f' : Sendfile} {l : SendfileLabel}
      (hs : f.step b l = some f') (hpc : j.pc = .reading ino st b f) :
    Move o umask grants d j (.sendfile l) d (if f'.isOpen then .reading ino st b f' else .ended)
  | receives {ino : ℕ} {b : UploadArgs} (hc : b.cancreate = o.cancreate) (hpc : j.pc = .truncated ino) :
    Move o umask grants d j (.receive b) d (.writing ino b b.init)
  | writes {ino : ℕ} {b : UploadArgs} {u u' : Upload} {l : UploadLabel} {data : Bytes} (hs : u.step b l = some u')
      (hdisk : u'.disk = some data) (ho : u'.isOpen = true) (hpc : j.pc = .writing ino b u) :
    Move o umask grants d j (.recvfile l) (d.write ino data) (.writing ino b u')
  | closes {ino : ℕ} {b : UploadArgs} {u u' : Upload} {l : UploadLabel} {data : Bytes} (hs : u.step b l = some u')
      (hdisk : u'.disk = some data) (ho : u'.isOpen = false) (hpc : j.pc = .writing ino b u) :
    Move o umask grants d j (.recvfile l) (d.write ino data) (.closed ino b u')
  | discards {ino : ℕ} {b : UploadArgs} {u u' : Upload} {l : UploadLabel} (hs : u.step b l = some u')
      (hdisk : u'.disk = none) (hpc : j.pc = .writing ino b u) :
    Move o umask grants d j (.recvfile l) (d.write ino (u.flushed l)) (.unlinking ino (u.flushed l))
  | dallies {ino : ℕ} {b : UploadArgs} {u u' : Upload} {l : UploadLabel} (hs : u.step b l = some u')
      (hpc : j.pc = .closed ino b u) : Move o umask grants d j (.recvfile l) d (.closed ino b u')
  | unlinks {ino : ℕ} {left : Bytes} (hpc : j.pc = .unlinking ino left) :
    Move o umask grants d j .unlink (d.unlink j.loc) (.abandoned ino left)
  | killed {ino : ℕ} {b : UploadArgs} {u : Upload} (hpc : j.pc = .writing ino b u) :
    Move o umask grants d j .exit d (.closed ino b { u with pc := .ended none })
  | spared {ino : ℕ} {left : Bytes} (hpc : j.pc = .unlinking ino left) :
    Move o umask grants d j .exit d (.abandoned ino left)
  | exits (hw : ∀ ino b u, j.pc ≠ .writing ino b u ∧ j.pc ≠ .closed ino b u)
      (hl : ∀ ino left, j.pc ≠ .unlinking ino left ∧ j.pc ≠ .abandoned ino left) :
    Move o umask grants d j .exit d .ended

theorem move_of_step {l : FileLabel} {r : Disk Loc × FilePc} (hs : j.step o umask grants d l = some r) :
    Move o umask grants d j l r.1 r.2 := by
  cases l with
  | openat =>
    simp only [step] at hs
    split at hs
    · next hpc =>
      split at hs
      · next ino he =>
        cases hs
        exact .found he hpc
      · next he =>
        split_ifs at hs
        · cases hs
          exact .created he hpc
        · cases hs
          exact .missing hpc
    · cases hs
  | openFailed =>
    simp only [step] at hs
    split at hs
    · next hpc =>
      cases hs
      exact .openFailed hpc
    · cases hs
  | fstat =>
    simp only [step] at hs
    split at hs
    · next ino hpc =>
      obtain ⟨st, hst, rfl⟩ := Option.map_eq_some_iff.mp hs
      exact .statted hst hpc
    · cases hs
  | lockFile =>
    simp only [step] at hs
    split at hs
    · next ino st hpc =>
      cases hs
      dsimp only
      split_ifs with hg
      · exact .locked hg hpc
      · exact .busy hpc
    · cases hs
  | refuse =>
    simp only [step] at hs
    split at hs
    · next ino st hpc =>
      split_ifs at hs
      cases hs
      exact .refused hpc
    · cases hs
  | truncate done =>
    simp only [step] at hs
    split at hs
    · next ino st hpc =>
      split_ifs at hs with hperm hdone
      · cases hs
        subst hdone
        simp only [Bool.and_eq_true, Bool.not_eq_true'] at hperm
        exact .truncated hperm.1 hpc
      · cases hs
        obtain rfl : done = false := by simpa using hdone
        exact .truncateFailed hpc
    · cases hs
  | send b =>
    simp only [step] at hs
    split at hs
    · next ino st hpc =>
      split_ifs at hs with hperm
      cases hs
      simp only [Bool.and_eq_true, decide_eq_true_eq] at hperm
      exact .sends hperm.1.1 hperm.2 hpc
    · cases hs
  | sendfile l =>
    simp only [step] at hs
    split at hs
    · next ino st b f hpc =>
      obtain ⟨f', hf, rfl⟩ := Option.map_eq_some_iff.mp hs
      exact .reads hf hpc
    · cases hs
  | receive b =>
    simp only [step] at hs
    split at hs
    · next ino hpc =>
      split_ifs at hs with hc
      cases hs
      exact .receives hc hpc
    · cases hs
  | recvfile l =>
    simp only [step] at hs
    split at hs
    · next ino b u hpc =>
      obtain ⟨u', hu, rfl⟩ := Option.map_eq_some_iff.mp hs
      unfold wrote
      split
      · next data hdisk =>
        dsimp only
        split_ifs with ho
        · exact .writes hu hdisk ho hpc
        · exact .closes hu hdisk (Bool.eq_false_of_not_eq_true ho) hpc
      · next hdisk => exact .discards hu hdisk hpc
    · next ino b u hpc =>
      obtain ⟨u', hu, rfl⟩ := Option.map_eq_some_iff.mp hs
      exact .dallies hu hpc
    · cases hs
  | unlink =>
    simp only [step] at hs
    split at hs
    · next ino left hpc =>
      cases hs
      exact .unlinks hpc
    · cases hs
  | exit =>
    simp only [step] at hs
    split at hs
    · next ino b u hpc =>
      cases hs
      exact .killed hpc
    · next ino left hpc =>
      cases hs
      exact .spared hpc
    · cases hs
    · cases hs
    · next hw hl hc ha =>
      cases hs
      exact .exits (fun ino b u => ⟨hw ino b u, hc ino b u⟩) fun ino left => ⟨hl ino left, ha ino left⟩

/-- A worker has a lock because it had it, or because it has been granted. -/
theorem Move.holds_cases {l : FileLabel} {d' : Disk Loc} {pc : FilePc} (h : Move o umask grants d j l d' pc)
    {g : Hold ℕ} (hg : ({ j with pc } : FileJob Loc).holds = some g) : j.holds = some g ∨ grants g = true := by
  cases h with
  | locked hgrants hpc =>
    obtain rfl := Option.some.inj hg
    exact .inr hgrants
  | truncated hw hpc =>
    left
    rw [← hg, holds, hpc, hw]
    rfl
  | sends hr hdata hpc =>
    left
    rw [← hg, holds, hpc, hr]
    rfl
  | reads hs hpc =>
    left
    split_ifs at hg
    · rw [← hg, holds, hpc]
      rfl
    · cases hg
  | receives hc hpc =>
    left
    rw [← hg, holds, hpc]
    rfl
  | writes hs hdisk ho hpc =>
    left
    rw [← hg, holds, hpc]
    rfl
  | _ => cases hg

/-- A file changes under its lock. -/
theorem Move.data_eq {l : FileLabel} {d' : Disk Loc} {pc : FilePc} (h : Move o umask grants d j l d' pc)
    {c : ℕ} {v : Bytes} (hv : d.data c = some v) : d'.data c = some v ∨ j.holds = some ⟨c, true⟩ := by
  have hwrite : ∀ {ino : ℕ} (x : Bytes), j.holds = some ⟨ino, true⟩ →
      (d.write ino x).data c = some v ∨ j.holds = some ⟨c, true⟩ := by
    intro ino x hh
    rcases eq_or_ne ino c with rfl | hne
    · exact .inr hh
    · exact .inl ((d.data_write_ne hne x).trans hv)
  cases h with
  | created he hpc => exact .inl (Disk.data_create_of_some _ _ hv)
  | truncated hw hpc => exact hwrite _ (by rw [holds, hpc, hw]; rfl)
  | writes hs hdisk ho hpc => exact hwrite _ (by rw [holds, hpc])
  | closes hs hdisk ho hpc => exact hwrite _ (by rw [holds, hpc])
  | discards hs hdisk hpc => exact hwrite _ (by rw [holds, hpc])
  | _ => exact .inl hv

end FileJob

namespace Server

variable {Loc : Type*} [DecidableEq Loc] {o : AccessOptions} {umask : BitVec 9} {s s' : Server Loc}

/-- A step is a new worker, or one of the workers moves. -/
theorem step_cases {l : ServerLabel Loc} (hs : s.step o umask l = some s') :
    (∃ loc isRead, l = .request loc isRead ∧ s' = { s with jobs := s.jobs ++ [{ loc, isRead }] }) ∨
      ∃ k e j d pc, l = .job k e ∧ s.jobs[k]? = some j ∧ FileJob.Move o umask (s.grants k) s.disk j e d pc ∧
        s' = ⟨d, s.jobs.set k { j with pc }⟩ := by
  cases l with
  | request loc isRead => exact .inl ⟨loc, isRead, rfl, (Option.some.inj hs).symm⟩
  | job k e =>
    obtain ⟨j, hj, hs⟩ := Option.bind_eq_some_iff.mp hs
    obtain ⟨⟨d, pc⟩, hstep, rfl⟩ := Option.map_eq_some_iff.mp hs
    exact .inr ⟨k, e, j, d, pc, rfl, hj, FileJob.move_of_step hstep, rfl⟩

omit [DecidableEq Loc] in
theorem grants_eq_true {k : ℕ} {h : Hold ℕ} (hg : s.grants k h = true) {i : ℕ} (hi : i ≠ k) {h' : Hold ℕ}
    (hh : s.holds i = some h') : h.clashes h' = false := by
  obtain ⟨j, hj, -⟩ := Option.bind_eq_some_iff.mp hh
  have hlt := (List.getElem?_eq_some_iff.mp hj).1
  have hall := List.all_eq_true.mp hg i (List.mem_range.mpr hlt)
  simpa [hi, hh] using hall

theorem disciplined (o : AccessOptions) (umask : BitVec 9) :
    Disciplined (Server.step o umask : Server Loc → _ → _) holds data actor where
  others := by
    intro s s' l i hs hne
    rcases step_cases hs with ⟨loc, isRead, rfl, rfl⟩ | ⟨k, e, j, d, pc, rfl, hj, -, rfl⟩
    · simp only [actor] at hne
      rcases lt_or_gt_of_ne hne with hlt | hgt
      · rw [holds, holds, List.getElem?_append_left hlt]
      · rw [holds, holds, List.getElem?_eq_none (by simp; omega), List.getElem?_eq_none (by omega)]
    · have hki : k ≠ i := hne.symm
      simp only [holds, List.getElem?_set_ne hki]
  acquires := by
    intro s s' l g hs hg
    rcases step_cases hs with ⟨loc, isRead, rfl, rfl⟩ | ⟨k, e, j, d, pc, rfl, hj, hmove, rfl⟩
    · simp [holds, actor, FileJob.holds] at hg
    · have hlt := (List.getElem?_eq_some_iff.mp hj).1
      simp only [holds, actor, List.getElem?_set_self hlt, Option.bind_some] at hg
      rcases hmove.holds_cases hg with hold | hgrant
      · left
        rw [holds, actor, hj, Option.bind_some, hold]
      · exact .inr fun i g' hi hg' => grants_eq_true hgrant hi hg'
  changes := by
    intro s s' l c v hs hv hv'
    rcases step_cases hs with ⟨loc, isRead, rfl, rfl⟩ | ⟨k, e, j, d, pc, rfl, hj, hmove, rfl⟩
    · exact absurd hv hv'
    · rcases hmove.data_eq hv with heq | hhold
      · exact absurd heq hv'
      · rw [holds, actor, hj, Option.bind_some, hhold]

end Server

end TftpHpa
