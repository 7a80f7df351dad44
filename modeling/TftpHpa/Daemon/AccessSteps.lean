import TftpHpa.Daemon.Sharing

/-! `validate_access` as one call and as the steps of a worker. Where nobody else is at the files, what
the call answers and does to them is what a worker comes to step by step. -/

namespace TftpHpa

open Locking (Hold)
open Transition (run)

variable {Loc : Type*} [DecidableEq Loc]

/-! ### Files and names -/

def Inode.node (f : Inode) : Node := ⟨f.mode, f.data⟩

/-- The files of the disk under the names they have, one each. -/
structure Disk.Shows (d : Disk Loc) (fs : FileSystem Loc) : Prop where
  node_eq : ∀ loc, (fs loc).map Inode.node = (d.entry loc).bind fun ino => d.nodes[ino]?
  single : ∀ loc loc' ino, d.entry loc = some ino → d.entry loc' = some ino → loc = loc'

namespace Disk.Shows

variable {d : Disk Loc} {fs : FileSystem Loc} {loc : Loc} {ino : ℕ}

omit [DecidableEq Loc] in
theorem entry_of_some (h : d.Shows fs) {f : Inode} (hf : fs loc = some f) :
    ∃ ino, d.entry loc = some ino ∧ d.nodes[ino]? = some f.node := by
  have hnode := h.node_eq loc
  rw [hf] at hnode
  exact Option.bind_eq_some_iff.mp hnode.symm

omit [DecidableEq Loc] in
theorem entry_of_none (h : d.Shows fs) (hf : fs loc = none) : d.entry loc = none := by
  have hnode := h.node_eq loc
  rw [hf, Option.map_none] at hnode
  cases he : d.entry loc with
  | none => rfl
  | some ino =>
    rw [he, Option.bind_some, List.getElem?_eq_getElem (d.entry_lt loc ino he)] at hnode
    cases hnode

theorem create (h : d.Shows fs) (umask : BitVec 9) (loc : Loc) :
    (d.create umask loc).Shows (Function.update fs loc (some (Kernel.create umask))) where
  node_eq loc' := by
    rcases eq_or_ne loc' loc with rfl | hne
    · simp [Disk.create, Kernel.create, Inode.node]
    · rw [Function.update_of_ne hne, h.node_eq loc', Disk.create]
      dsimp only
      rw [Function.update_of_ne hne]
      cases he : d.entry loc' with
      | none => rfl
      | some ino => rw [Option.bind_some, Option.bind_some, List.getElem?_append_left (d.entry_lt loc' ino he)]
  single loc₁ loc₂ ino h₁ h₂ := by
    -- the number of the new file is a new one
    have hold : ∀ {loc'}, loc' ≠ loc → (d.create umask loc).entry loc' = some ino → d.entry loc' = some ino :=
      fun hne he => (Function.update_of_ne hne _ _).symm.trans he
    have hnew : ∀ {loc'}, loc' ≠ loc → (d.create umask loc).entry loc = some ino →
        (d.create umask loc).entry loc' ≠ some ino := by
      intro loc' hne hself hother
      have hlt := d.entry_lt loc' ino (hold hne hother)
      rw [Disk.create] at hself
      dsimp only at hself
      rw [Function.update_self] at hself
      have := Option.some.inj hself
      omega
    rcases eq_or_ne loc₁ loc with rfl | hne₁
    · rcases eq_or_ne loc₂ loc₁ with rfl | hne₂
      · rfl
      · exact absurd h₂ (hnew hne₂ h₁)
    · rcases eq_or_ne loc₂ loc with rfl | hne₂
      · exact absurd h₁ (hnew hne₁ h₂)
      · exact h.single loc₁ loc₂ ino (hold hne₁ h₁) (hold hne₂ h₂)

theorem truncate (h : d.Shows fs) (he : d.entry loc = some ino) : (d.write ino []).Shows (Kernel.truncate fs loc) where
  node_eq loc' := by
    rw [Kernel.truncate, Disk.write]
    dsimp only
    rcases eq_or_ne loc' loc with rfl | hne
    · have hnode := h.node_eq loc'
      rw [he, Option.bind_some] at hnode
      rw [Function.update_self, he, Option.bind_some, List.getElem?_modify_eq, ← hnode]
      cases fs loc' <;> rfl
    · rw [Function.update_of_ne hne, h.node_eq loc']
      cases he' : d.entry loc' with
      | none => rfl
      | some ino' =>
        have hino : ino ≠ ino' := fun heq => hne (h.single loc' loc ino' he' (heq ▸ he))
        rw [Option.bind_some, Option.bind_some, List.getElem?_modify_ne _ _ hino]
  single := h.single

end Disk.Shows

/-! ### A worker by itself -/

/-- One step of a worker where nobody else is at the files; `granted` is the answer of the system to
`lock_file`. -/
def FileJob.alone (o : AccessOptions) (umask : BitVec 9) (granted : Bool) (loc : Loc) (isRead : Bool)
    (s : Disk Loc × FilePc) (l : FileLabel) : Option (Disk Loc × FilePc) :=
  ({ loc, isRead, pc := s.2 } : FileJob Loc).step o umask (fun _ => granted) s.1 l

/-- Where `validate_access` leaves a worker: with the file locked and, for an upload, empty, or at its
end. -/
def FilePc.Answers (o : AccessOptions) (isRead : Bool) : Except Refusal OpenedFile → FilePc → Prop
  | .ok f, .locked _ st => isRead = true ∧ st.permits o isRead = true ∧ f.size = st.size
  | .ok f, .truncated _ => isRead = false ∧ f.size = 0
  | .error _, .ended => True
  | _, _ => False

/-- A worker by itself gets from one place to another where the files and its answer are those of a
call. -/
def FileJob.Comes (o : AccessOptions) (umask : BitVec 9) (granted : Bool) (loc : Loc) (isRead : Bool)
    (s : Disk Loc × FilePc) (r : Except Refusal OpenedFile × FileSystem Loc) : Prop :=
  ∃ ls s', run (FileJob.alone o umask granted loc isRead) s ls = some s' ∧ s'.1.Shows r.2 ∧ s'.2.Answers o isRead r.1

theorem FileJob.Comes.step {o : AccessOptions} {umask : BitVec 9} {granted : Bool} {loc : Loc} {isRead : Bool}
    {s s' : Disk Loc × FilePc} {l : FileLabel} {r : Except Refusal OpenedFile × FileSystem Loc}
    (hs : FileJob.alone o umask granted loc isRead s l = some s') (h : FileJob.Comes o umask granted loc isRead s' r) :
    FileJob.Comes o umask granted loc isRead s r := by
  obtain ⟨ls, s'', hrun, h⟩ := h
  refine ⟨l :: ls, s'', ?_, h⟩
  rw [Transition.run_cons, hs, Option.bind_some, hrun]

theorem FileJob.Comes.done {o : AccessOptions} {umask : BitVec 9} {granted : Bool} {loc : Loc} {isRead : Bool}
    {d : Disk Loc} {pc : FilePc} {r : Except Refusal OpenedFile × FileSystem Loc} (hd : d.Shows r.2)
    (ha : pc.Answers o isRead r.1) : FileJob.Comes o umask granted loc isRead (d, pc) r :=
  ⟨[], (d, pc), rfl, hd, ha⟩

variable {k : Kernel Loc} {o : AccessOptions} {fs : FileSystem Loc} {loc : Loc} {isRead : Bool} {d : Disk Loc}

/-- What `fstat` says of the file. -/
def Inode.stbuf (f : Inode) : Stbuf := ⟨f.mode, f.data.length⟩

theorem Inode.permits_stbuf (f : Inode) (o : AccessOptions) (isRead : Bool) :
    f.stbuf.permits o isRead = !(!o.unixperms && !if isRead then f.stat.globalRead else f.stat.globalWrite) := by
  cases isRead <;> simp [Stbuf.permits, Inode.stbuf, Inode.stat]

/-- The checks on an open file and `ftruncate`. -/
theorem openedFile_comes (umask : BitVec 9) (pf : Format) {f : Inode} {ino : ℕ} (hd : d.Shows fs) (hf : fs loc = some f)
    (he : d.entry loc = some ino) (hn : d.nodes[ino]? = some f.node) :
    FileJob.Comes o umask (k.lockFile loc) loc isRead (d, .opened ino) (k.openedFile o fs loc isRead pf) := by
  have hstat : d.stat ino = some f.stbuf := by rw [Disk.stat, hn]; rfl
  have hpermits := f.permits_stbuf o isRead
  rw [Kernel.openedFile, hf]
  by_cases hfstat : k.fstat loc = true
  swap
  · rw [if_neg hfstat]
    exact .step (l := .exit) rfl (.done hd trivial)
  rw [if_pos hfstat, Option.map_some]
  have hfstat' : FileJob.alone o umask (k.lockFile loc) loc isRead (d, .opened ino) .fstat =
      some (d, .statted ino f.stbuf) := by simp [FileJob.alone, FileJob.step, hstat]
  refine .step hfstat' ?_
  dsimp only
  cases hlock : k.lockFile loc with
  | false => exact .step (l := .lockFile) rfl (.done hd trivial)
  | true =>
    have hlocked : FileJob.alone o umask true loc isRead (d, .statted ino f.stbuf) .lockFile =
        some (d, .locked ino f.stbuf) := rfl
    refine .step hlocked ?_
    have hrefuse : f.stbuf.permits o isRead = false →
        FileJob.alone o umask true loc isRead (d, .locked ino f.stbuf) .refuse = some (d, .ended) := by
      intro h
      simp [FileJob.alone, FileJob.step, h]
    cases isRead with
    | true =>
      simp only [Bool.not_true, Bool.false_eq_true, if_false, if_true] at hpermits ⊢
      cases hperm : !o.unixperms && !f.stat.globalRead with
      | true => exact .step (hrefuse (by rw [hpermits, hperm]; rfl)) (.done hd trivial)
      | false =>
        cases k.fdopen with
        | false => exact .step (l := .exit) rfl (.done hd trivial)
        | true => exact .done hd ⟨rfl, by rw [hpermits, hperm]; rfl, rfl⟩
    | false =>
      simp only [Bool.not_true, Bool.false_eq_true, if_false] at hpermits ⊢
      cases hperm : !o.unixperms && !f.stat.globalWrite with
      | true => exact .step (hrefuse (by rw [hpermits, hperm]; rfl)) (.done hd trivial)
      | false =>
        have htruncate : ∀ done, FileJob.alone o umask true loc false (d, .locked ino f.stbuf) (.truncate done) =
            some (if done then (d.write ino [], .truncated ino) else (d, .ended)) := by
          intro done
          simp [FileJob.alone, FileJob.step, hpermits, hperm]
        cases k.ftruncate loc with
        | false => exact .step (htruncate false) (.done hd trivial)
        | true =>
          refine .step (htruncate true) ?_
          cases k.fdopen with
          | false => exact .step (l := .exit) rfl (.done (hd.truncate he) trivial)
          | true => exact .done (hd.truncate he) ⟨rfl, rfl⟩

end TftpHpa
