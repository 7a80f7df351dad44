import TftpHpa.Daemon.SharingSafe

/-! Who has written a file. What is in it was left by the last worker that has truncated it, and
stays until another one does; so a download sends what that worker has left, and an upload is
there until the next one to the same file. -/

namespace TftpHpa

open Locking (Hold)
open TftpIo (converted)
open Transition (run run_concat_eq_some run_append_eq_some Along along_append)

/-! ### What a step does to a file -/

namespace FileJob

variable {Loc : Type*} [DecidableEq Loc] {o : AccessOptions} {umask : BitVec 9} {grants : Hold ℕ → Bool}
  {d d' : Disk Loc} {j : FileJob Loc} {l : FileLabel} {pc : FilePc}

/-- What is in a file is being changed, or has been left by this worker, or was there before. -/
theorem Move.data_cases (h : Move o umask grants d j l d' pc) (hf : j.pc.Fits o d) {ino : ℕ} {v : Bytes}
    (hv : d'.data ino = some v) :
    pc.Modifies ino ∨ v = [] ∨ j.pc.Modifies ino ∧ pc.Leaves ino v ∨ d.data ino = some v ∧ ¬ j.pc.Modifies ino := by
  have hother : ∀ {i : ℕ} {x : Bytes}, i ≠ ino → (d.write i x).data ino = some v → d.data ino = some v :=
    fun hne h => (d.data_write_ne hne _).symm.trans h
  have hself : ∀ {b : UploadArgs} {u : Upload} {x : Bytes}, j.pc = .writing ino b u →
      (d.write ino x).data ino = some v → x = v := by
    intro b u x hpc h
    rw [hpc] at hf
    obtain ⟨-, data, -, hdata⟩ := hf
    rw [Disk.data_write_self (by rw [hdata]; rfl)] at h
    exact Option.some.inj h
  cases h with
  | created he hpc =>
    rcases Disk.data_of_create hv with h | rfl
    · refine .inr (.inr (.inr ⟨h, ?_⟩))
      rw [hpc]
      exact id
    · exact .inr (.inl rfl)
  | @truncated i st hw hpc =>
    rcases eq_or_ne i ino with rfl | hne
    · exact .inl rfl
    · refine .inr (.inr (.inr ⟨hother hne hv, ?_⟩))
      rw [hpc]
      exact id
  | @receives i b hc hpc =>
    rcases eq_or_ne i ino with rfl | hne
    · exact .inl rfl
    · refine .inr (.inr (.inr ⟨hv, ?_⟩))
      rw [hpc]
      exact hne
  | @writes i b u u' l data hs hdisk ho hpc =>
    rcases eq_or_ne i ino with rfl | hne
    · exact .inl rfl
    · refine .inr (.inr (.inr ⟨hother hne hv, ?_⟩))
      rw [hpc]
      exact hne
  | @closes i b u u' l data hs hdisk ho hpc =>
    rcases eq_or_ne i ino with rfl | hne
    · exact .inr (.inr (.inl ⟨hpc ▸ rfl, rfl, hself hpc hv ▸ hdisk⟩))
    · refine .inr (.inr (.inr ⟨hother hne hv, ?_⟩))
      rw [hpc]
      exact hne
  | @discards i b u u' l hs hdisk hpc =>
    rcases eq_or_ne i ino with rfl | hne
    · exact .inr (.inr (.inl ⟨hpc ▸ rfl, rfl, hself hpc hv⟩))
    · refine .inr (.inr (.inr ⟨hother hne hv, ?_⟩))
      rw [hpc]
      exact hne
  | @killed i b u hpc =>
    rcases eq_or_ne i ino with rfl | hne
    · rw [hpc] at hf
      obtain ⟨-, data, hdisk, hdata⟩ := hf
      exact .inr (.inr (.inl ⟨hpc ▸ rfl, rfl, hdisk.trans (hdata.symm.trans hv)⟩))
    · refine .inr (.inr (.inr ⟨hv, ?_⟩))
      rw [hpc]
      exact hne
  | exits hw hu =>
    cases hp : j.pc with
    | truncated i =>
      rcases eq_or_ne i ino with rfl | hne
      · rw [hp] at hf
        exact .inr (.inl (Option.some.inj (hv.symm.trans hf)))
      · exact .inr (.inr (.inr ⟨hv, hne⟩))
    | writing i b u => exact absurd hp (hw i b u).1
    | _ => exact .inr (.inr (.inr ⟨hv, id⟩))
  | _ =>
    rename_i hpc
    refine .inr (.inr (.inr ⟨hv, ?_⟩))
    rw [hpc]
    exact id

/-- A worker leaves what it has been at, or has left before. -/
theorem Move.leaves_cases (h : Move o umask grants d j l d' pc) (hf : j.pc.Fits o d) {ino : ℕ} {v : Bytes}
    (hl : pc.Leaves ino v) : j.pc.Leaves ino v ∨ j.pc.Modifies ino ∧ d'.data ino = some v := by
  have hsome : ∀ {i : ℕ} {b : UploadArgs} {u : Upload}, j.pc = .writing i b u → (d.data i).isSome = true := by
    intro i b u hpc
    rw [hpc] at hf
    obtain ⟨-, data, -, hdata⟩ := hf
    rw [hdata]
    rfl
  cases h with
  | closes hs hdisk ho hpc =>
    obtain ⟨rfl, hv⟩ := hl
    rw [Disk.data_write_self (hsome hpc), hpc]
    exact .inr ⟨rfl, hdisk.symm.trans hv⟩
  | discards hs hdisk hpc =>
    obtain ⟨rfl, rfl⟩ := hl
    rw [Disk.data_write_self (hsome hpc), hpc]
    exact .inr ⟨rfl, rfl⟩
  | killed hpc =>
    obtain ⟨rfl, hv⟩ := hl
    rw [hpc] at hf ⊢
    obtain ⟨-, data, hdisk, hdata⟩ := hf
    exact .inr ⟨rfl, hdata.trans (hdisk.symm.trans hv)⟩
  | dallies hs hpc =>
    rw [hpc] at hf ⊢
    rw [(Upload.step_of_closed hf hs).2] at hl
    exact .inl hl
  | unlinks hpc | spared hpc =>
    rw [hpc]
    exact .inl hl
  | reads hs hpc =>
    split_ifs at hl
    · cases hl
    · cases hl
  | _ => cases hl

/-- What a worker with a closed file has left does not change. -/
theorem Move.leaves (h : Move o umask grants d j l d' pc) (hf : j.pc.Fits o d) {ino : ℕ} {v : Bytes}
    (hl : j.pc.Leaves ino v) : pc.Leaves ino v := by
  cases h with
  | dallies hs hpc =>
    rw [hpc] at hl hf
    rw [(Upload.step_of_closed hf hs).2]
    exact hl
  | unlinks hpc | spared hpc =>
    rw [hpc] at hl
    exact hl
  | exits hw hu =>
    cases hp : j.pc with
    | closed i b u => exact absurd hp (hw i b u).2
    | unlinking i left => exact absurd hp (hu i left).1
    | abandoned i left => exact absurd hp (hu i left).2
    | _ =>
      rw [hp] at hl
      cases hl
  | _ =>
    rename_i hpc
    rw [hpc] at hl
    cases hl

/-- What is in a file stays as long as nobody is at it. -/
theorem Move.data_kept (h : Move o umask grants d j l d' pc) {ino : ℕ} (hj : ¬ j.pc.Modifies ino)
    (hpc' : ¬ pc.Modifies ino) {v : Bytes} (hv : d.data ino = some v) : d'.data ino = some v := by
  have hwriting : ∀ {i : ℕ} {b : UploadArgs} {u : Upload} (x : Bytes), j.pc = .writing i b u →
      (d.write i x).data ino = some v := by
    intro i b u x hpc
    rw [hpc] at hj
    exact (d.data_write_ne hj x).trans hv
  cases h with
  | created he hpc => exact Disk.data_create_of_some _ _ hv
  | truncated hw hpc => exact (d.data_write_ne hpc' _).trans hv
  | writes hs hdisk ho hpc => exact hwriting _ hpc
  | closes hs hdisk ho hpc => exact hwriting _ hpc
  | discards hs hdisk hpc => exact hwriting _ hpc
  | _ => exact hv

/-- A worker gets at a file by truncating it. -/
theorem Move.modifies_cases (h : Move o umask grants d j l d' pc) {ino : ℕ} (hm : pc.Modifies ino) :
    j.pc.Modifies ino ∨ l = .truncate true ∧ ∃ st, j.pc = .locked ino st := by
  cases h with
  | truncated hw hpc =>
    obtain rfl := hm
    exact .inr ⟨rfl, _, hpc⟩
  | receives hc hpc =>
    rw [hpc]
    exact .inl hm
  | writes hs hdisk ho hpc =>
    rw [hpc]
    exact .inl hm
  | reads hs hpc =>
    split_ifs at hm
    · cases hm
    · cases hm
  | _ => cases hm

omit [DecidableEq Loc] in
theorem holds_of_modifies {ino : ℕ} (h : j.pc.Modifies ino) : j.holds = some ⟨ino, true⟩ := by
  cases hp : j.pc with
  | truncated i | writing i b u =>
    rw [hp] at h
    obtain rfl : i = ino := h
    rw [holds, hp]
  | _ =>
    rw [hp] at h
    cases h

end FileJob

/-! ### The last writer -/

namespace Server

variable {Loc : Type*} [DecidableEq Loc] {o : AccessOptions} {umask : BitVec 9} {D : Disk Loc} {s s' : Server Loc}
  {t : List (ServerLabel Loc)} {ino k : ℕ} {v : Bytes}

/-- No worker truncates file `ino`. -/
def Quiet (ino : ℕ) (s : Server Loc) (l : ServerLabel Loc) : Prop :=
  ∀ (k : ℕ) (j : FileJob Loc) (st : Stbuf), l = .job k (.truncate true) → s.jobs[k]? = some j → j.pc ≠ .locked ino st

/-- File `ino` has not been truncated since the server was started. -/
def Untouched (o : AccessOptions) (umask : BitVec 9) (D : Disk Loc) (t : List (ServerLabel Loc)) (ino : ℕ) : Prop :=
  Along (Server.step o umask) (Quiet ino) { disk := D } t

/-- Worker `k` truncates file `ino` after `before`, with `r` the state it does so in. -/
structure Truncates (o : AccessOptions) (umask : BitVec 9) (D : Disk Loc) (before : List (ServerLabel Loc)) (ino k : ℕ)
    (r : Server Loc) : Prop where
  run_eq : run (Server.step o umask) { disk := D } before = some r
  locked : ∃ (j : FileJob Loc) (st : Stbuf), r.jobs[k]? = some j ∧ j.pc = .locked ino st

/-- Worker `k` is the last one that has truncated file `ino`. -/
def LastWriter (o : AccessOptions) (umask : BitVec 9) (D : Disk Loc) (t : List (ServerLabel Loc)) (ino k : ℕ) : Prop :=
  ∃ before r r' after, t = before ++ .job k (.truncate true) :: after ∧ Truncates o umask D before ino k r ∧
    r.step o umask (.job k (.truncate true)) = some r' ∧ Along (Server.step o umask) (Quiet ino) r' after

/-- After worker `k` was through with file `ino` and had left `v` in it, another worker has
truncated it. -/
def Overwritten (o : AccessOptions) (umask : BitVec 9) (D : Disk Loc) (t : List (ServerLabel Loc)) (ino k : ℕ)
    (v : Bytes) : Prop :=
  ∃ before r k' after, t = before ++ .job k' (.truncate true) :: after ∧ Truncates o umask D before ino k' r ∧
    r.data ino = some v ∧ ∃ j : FileJob Loc, r.jobs[k]? = some j ∧ j.pc.Leaves ino v

theorem LastWriter.append (h : LastWriter o umask D t ino k) (hrun : run (Server.step o umask) { disk := D } t = some s)
    {l : ServerLabel Loc} (hq : Quiet ino s l) : LastWriter o umask D (t ++ [l]) ino k := by
  obtain ⟨before, r, r', after, rfl, htrunc, hstep, hafter⟩ := h
  refine ⟨before, r, r', after ++ [l], by simp, htrunc, hstep, along_append.mpr ⟨hafter, fun m hm => ?_⟩⟩
  obtain ⟨r₁, hr₁, hrest⟩ := run_append_eq_some.mp hrun
  obtain rfl := Option.some.inj (htrunc.run_eq.symm.trans hr₁)
  rw [Transition.run_cons, hstep, Option.bind_some, hm] at hrest
  obtain rfl := Option.some.inj hrest
  exact ⟨hq, fun _ _ => trivial⟩

theorem Untouched.append (h : Untouched o umask D t ino) (hrun : run (Server.step o umask) { disk := D } t = some s)
    {l : ServerLabel Loc} (hq : Quiet ino s l) : Untouched o umask D (t ++ [l]) ino := by
  refine along_append.mpr ⟨h, fun m hm => ?_⟩
  obtain rfl := Option.some.inj (hrun.symm.trans hm)
  exact ⟨hq, fun _ _ => trivial⟩

theorem Overwritten.append (h : Overwritten o umask D t ino k v) (l : ServerLabel Loc) :
    Overwritten o umask D (t ++ [l]) ino k v := by
  obtain ⟨before, r, k', after, rfl, h⟩ := h
  exact ⟨before, r, k', after ++ [l], by simp, h⟩

/-- A worker that truncates a file empties it. -/
theorem data_of_not_quiet (h : Inv o s) {l : ServerLabel Loc} (hq : ¬ Quiet ino s l)
    (hs : s.step o umask l = some s') : s'.data ino = some [] ∧ ∃ k j st, l = .job k (.truncate true) ∧
      s.jobs[k]? = some j ∧ j.pc = .locked ino st ∧ j.isRead = false := by
  simp only [Quiet, not_forall, not_not] at hq
  obtain ⟨k, j, st, rfl, hj, hpc⟩ := hq
  rcases step_cases hs with ⟨loc, isRead, hl, -⟩ | ⟨k', e, j', d, pc, hl, hj', hmove, rfl⟩
  · cases hl
  · cases hl
    obtain rfl := Option.some.inj (hj.symm.trans hj')
    cases hmove with
    | truncated hw hpc' =>
      cases hpc.symm.trans hpc'
      have hf := h.fits k j hj
      rw [hpc] at hf
      exact ⟨Disk.data_write_self hf [], k, j, st, rfl, hj, hpc, hw⟩

omit [DecidableEq Loc] in
/-- Where a worker is at a file, nobody else has it locked. -/
theorem Inv.eq_of_modifies (h : Inv o s) {i : ℕ} {ji jk : FileJob Loc} (hi : s.jobs[i]? = some ji)
    (hm : ji.pc.Modifies ino) (hk : s.jobs[k]? = some jk) {w : Bool} (hh : jk.holds = some ⟨ino, w⟩) : i = k := by
  by_contra hne
  have hwrite : s.holds i = some ⟨ino, true⟩ := by rw [holds, hi, Option.bind_some, FileJob.holds_of_modifies hm]
  have hother : s.holds k = some ⟨ino, w⟩ := by rw [holds, hk, Option.bind_some, hh]
  have hclash := h.exclusive i k _ _ hne hwrite hother
  simp [Hold.clashes] at hclash

/-- Nobody is at file `ino`. -/
def Free (s : Server Loc) (ino : ℕ) : Prop :=
  ∀ (k : ℕ) (j : FileJob Loc), s.jobs[k]? = some j → ¬ j.pc.Modifies ino

/-- A file that nobody is at is left alone until it is truncated. -/
theorem Free.step (h : Free s ino) (hv : s.data ino = some v) {l : ServerLabel Loc} (hq : Quiet ino s l)
    (hs : s.step o umask l = some s') : Free s' ino ∧ s'.data ino = some v := by
  rcases step_cases hs with ⟨loc, isRead, rfl, rfl⟩ | ⟨k, e, j, d, pc, rfl, hj, hmove, rfl⟩
  · refine ⟨fun i ji hi => ?_, hv⟩
    rcases getElem?_request hi with hi | rfl
    · exact h i ji hi
    · exact id
  · have hpc' : ¬ pc.Modifies ino := by
      intro hm
      rcases hmove.modifies_cases hm with hm | ⟨rfl, st, hpc⟩
      · exact h k j hj hm
      · exact hq k j st rfl hj hpc
    refine ⟨fun i ji hi => ?_, hmove.data_kept (h k j hj) hpc' hv⟩
    rcases getElem?_set hi with ⟨rfl, rfl⟩ | ⟨-, hi⟩
    · exact hpc'
    · exact h i ji hi

/-- What is in the files, and by whom, after a run from the disk `D`. -/
structure Written (o : AccessOptions) (umask : BitVec 9) (D : Disk Loc) (t : List (ServerLabel Loc)) (s : Server Loc) :
    Prop where
  modifier : ∀ (k : ℕ) (j : FileJob Loc) ino, s.jobs[k]? = some j → j.pc.Modifies ino → LastWriter o umask D t ino k
  content : ∀ ino v, s.data ino = some v → v = [] ∨ Untouched o umask D t ino ∧ D.data ino = some v ∨
    ∃ (k : ℕ) (j : FileJob Loc), LastWriter o umask D t ino k ∧ s.jobs[k]? = some j ∧
      (j.pc.Modifies ino ∨ j.pc.Leaves ino v)
  left : ∀ (k : ℕ) (j : FileJob Loc) ino v, s.jobs[k]? = some j → j.pc.Leaves ino v →
    s.data ino = some v ∧ Free s ino ∨ Overwritten o umask D t ino k v

theorem Written.init (o : AccessOptions) (umask : BitVec 9) (D : Disk Loc) : Written o umask D [] { disk := D } where
  modifier k j ino hk := by cases hk
  content ino v hv := .inr (.inl ⟨trivial, hv⟩)
  left k j ino v hk := by cases hk

namespace Written

variable {l : ServerLabel Loc}

theorem step_modifier (h : Written o umask D t s) (hinv : Inv o s)
    (hrun : run (Server.step o umask) { disk := D } t = some s) (hs : s.step o umask l = some s') {i : ℕ}
    {j : FileJob Loc} (hi : s'.jobs[i]? = some j) (hm : j.pc.Modifies ino) :
    LastWriter o umask D (t ++ [l]) ino i := by
  have hkept : ∀ {j}, s.jobs[i]? = some j → j.pc.Modifies ino → LastWriter o umask D (t ++ [l]) ino i := by
    intro j hj hm
    refine (h.modifier i j ino hj hm).append hrun fun k jk st hl hk hpc => ?_
    -- two workers would have the file locked for writing
    subst hl
    obtain ⟨-, k', jk', st', hl, hk', hpc', hw⟩ := data_of_not_quiet hinv (fun hq => hq k jk st rfl hk hpc) hs
    cases hl
    obtain rfl := hinv.eq_of_modifies hj hm hk' (w := true) (by rw [FileJob.holds, hpc', hw]; rfl)
    obtain rfl := Option.some.inj (hj.symm.trans hk')
    rw [hpc'] at hm
    cases hm
  have hs' := hs
  rcases step_cases hs with ⟨loc, isRead, rfl, rfl⟩ | ⟨k, e, jk, d, pc, rfl, hk, hmove, rfl⟩
  · rcases getElem?_request hi with hi | rfl
    · exact hkept hi hm
    · cases hm
  · rcases getElem?_set hi with ⟨rfl, rfl⟩ | ⟨-, hi⟩
    · rcases hmove.modifies_cases hm with hold | ⟨rfl, st, hpc⟩
      · exact hkept hk hold
      · exact ⟨t, s, _, [], rfl, ⟨hrun, jk, st, hk, hpc⟩, hs', trivial⟩
    · exact hkept hi hm

theorem step_content (h : Written o umask D t s) (hinv : Inv o s)
    (hrun : run (Server.step o umask) { disk := D } t = some s) (hs : s.step o umask l = some s')
    (hv : s'.data ino = some v) : v = [] ∨ Untouched o umask D (t ++ [l]) ino ∧ D.data ino = some v ∨
      ∃ (k : ℕ) (j : FileJob Loc), LastWriter o umask D (t ++ [l]) ino k ∧ s'.jobs[k]? = some j ∧
        (j.pc.Modifies ino ∨ j.pc.Leaves ino v) := by
  by_cases hq : Quiet ino s l
  · have hmodifier : ∀ {i j}, s'.jobs[i]? = some j → j.pc.Modifies ino → LastWriter o umask D (t ++ [l]) ino i :=
      fun hi hm => h.step_modifier hinv hrun hs hi hm
    rcases step_cases hs with ⟨loc, isRead, rfl, rfl⟩ | ⟨k, e, jk, d, pc, rfl, hk, hmove, rfl⟩
    · rcases h.content ino v hv with hempty | ⟨huntouched, hD⟩ | ⟨i, ji, hlast, hi, hj⟩
      · exact .inl hempty
      · exact .inr (.inl ⟨huntouched.append hrun hq, hD⟩)
      · refine .inr (.inr ⟨i, ji, hlast.append hrun hq, ?_, hj⟩)
        rwa [List.getElem?_append_left (List.getElem?_eq_some_iff.mp hi).1]
    · have hself : (s.jobs.set k { jk with pc })[k]? = some { jk with pc } :=
        List.getElem?_set_self (List.getElem?_eq_some_iff.mp hk).1
      have hfits := hinv.fits k jk hk
      rcases hmove.data_cases hfits hv with hm | hempty | ⟨hm, hl⟩ | ⟨hbefore, hnot⟩
      · exact .inr (.inr ⟨k, _, hmodifier hself hm, hself, .inl hm⟩)
      · exact .inl hempty
      · exact .inr (.inr ⟨k, _, (h.modifier k jk ino hk hm).append hrun hq, hself, .inr hl⟩)
      · rcases h.content ino v hbefore with hempty | ⟨huntouched, hD⟩ | ⟨i, ji, hlast, hi, hj⟩
        · exact .inl hempty
        · exact .inr (.inl ⟨huntouched.append hrun hq, hD⟩)
        · by_cases hne : k = i
          · subst hne
            obtain rfl := Option.some.inj (hk.symm.trans hi)
            exact .inr (.inr ⟨k, _, hlast.append hrun hq, hself, .inr (hmove.leaves hfits (hj.resolve_left hnot))⟩)
          · exact .inr (.inr ⟨i, ji, hlast.append hrun hq, (List.getElem?_set_ne hne).trans hi, hj⟩)
  · exact .inl (Option.some.inj (hv.symm.trans (data_of_not_quiet hinv hq hs).1))

theorem step_left (h : Written o umask D t s) (hinv : Inv o s)
    (hrun : run (Server.step o umask) { disk := D } t = some s) (hs : s.step o umask l = some s') {i : ℕ}
    {j : FileJob Loc} (hi : s'.jobs[i]? = some j) (hl : j.pc.Leaves ino v) :
    s'.data ino = some v ∧ Free s' ino ∨ Overwritten o umask D (t ++ [l]) ino i v := by
  -- somebody else truncates the file, or it is left alone
  have hkept : ∀ ji, s.jobs[i]? = some ji → ji.pc.Leaves ino v →
      s'.data ino = some v ∧ Free s' ino ∨ Overwritten o umask D (t ++ [l]) ino i v := by
    intro ji hi hl
    rcases h.left i ji ino v hi hl with ⟨hv, hfree⟩ | hover
    · by_cases hq : Quiet ino s l
      · obtain ⟨hfree', hv'⟩ := hfree.step hv hq hs
        exact .inl ⟨hv', hfree'⟩
      · obtain ⟨-, k, jk, st, rfl, hk, hpc, -⟩ := data_of_not_quiet hinv hq hs
        exact .inr ⟨t, s, k, [], rfl, ⟨hrun, jk, st, hk, hpc⟩, hv, ji, hi, hl⟩
    · exact .inr (hover.append l)
  rcases step_cases hs with ⟨loc, isRead, rfl, rfl⟩ | ⟨k, e, jk, d, pc, rfl, hk, hmove, rfl⟩
  · rcases getElem?_request hi with hi | rfl
    · exact hkept j hi hl
    · cases hl
  · rcases getElem?_set hi with ⟨rfl, rfl⟩ | ⟨hne, hi⟩
    · rcases hmove.leaves_cases (hinv.fits i jk hk) hl with hbefore | ⟨hm, hv⟩
      · exact hkept jk hk hbefore
      · refine .inl ⟨hv, fun m jm hm' hmod => ?_⟩
        rcases getElem?_set hm' with ⟨rfl, rfl⟩ | ⟨hne, hm'⟩
        · cases hp : pc with
          | closed _ _ _ | unlinking _ _ | abandoned _ _ =>
            rw [hp] at hmod
            cases hmod
          | _ =>
            rw [hp] at hl
            cases hl
        · exact hne (hinv.eq_of_modifies hm' hmod hk (FileJob.holds_of_modifies hm))
    · exact hkept j hi hl

theorem of_run (hrun : run (Server.step o umask) { disk := D } t = some s) : Written o umask D t s := by
  have hall := @Transition.run_invariant _ _ (Server.step o umask) { disk := D }
    (fun t s => run (Server.step o umask) { disk := D } t = some s ∧ Inv o s ∧ Written o umask D t s)
    ⟨rfl, .init o D, .init o umask D⟩ (fun t s l s' ⟨hrun, hinv, h⟩ hs =>
      ⟨run_concat_eq_some.mpr ⟨s, hrun, hs⟩, hinv.step hs, fun _ _ _ hk hm => h.step_modifier hinv hrun hs hk hm,
        fun _ _ hv => h.step_content hinv hrun hs hv, fun _ _ _ _ hk hl => h.step_left hinv hrun hs hk hl⟩) t s hrun
  exact hall.2.2

end Written

end Server

/-! ### Downloads and uploads -/

section
variable {Loc : Type*} [DecidableEq Loc] {o : AccessOptions} {umask : BitVec 9} {D : Disk Loc} {s : Server Loc}
  {t : List (ServerLabel Loc)}

def fooDownload : SendfileArgs where
  request := plainRequest
  pthread := false
  file := { rest := [65] }
  strerror := fun _ => []

/-- The upload is committed. -/
def commitFoo : List (ServerLabel Unit) := replaceFoo ++ [.recvfile .stop, .recvfile (.close true)].map (.job 0)

def rereadFoo : List (ServerLabel Unit) :=
  .request () true :: [.openat, .fstat, .lockFile, .send fooDownload].map (.job 2)

/-- The worker sends the file. -/
def FilePc.reads (ino : ℕ) : FilePc → Bool
  | .reading i _ _ _ => i = ino
  | .opening | .opened _ | .statted _ _ | .locked _ _ | .truncated _ | .writing _ _ _ | .closed _ _ _ | .unlinking _ _
  | .abandoned _ _ | .ended => false

theorem FilePc.reads_eq_true_iff {ino : ℕ} {pc : FilePc} :
    pc.reads ino = true ↔ ∃ st b f, pc = .reading ino st b f := by
  cases pc <;> simp [FilePc.reads]

/-- The name of a file is only removed by uploads with `--create`. -/
theorem Server.entry_kept {s s' : Server Loc} (h : Server.Inv o s) {l : ServerLabel Loc}
    (hs : s.step o umask l = some s') (hc : o.cancreate = false) {loc : Loc} {ino : ℕ}
    (he : s.disk.entry loc = some ino) : s'.disk.entry loc = some ino := by
  rcases Server.step_cases hs with ⟨loc', isRead, rfl, rfl⟩ | ⟨k, e, j, d, pc, rfl, hj, hmove, rfl⟩
  · exact he
  · have hf := h.fits k j hj
    cases hmove with
    | created hnone hpc =>
      have hne : loc ≠ j.loc := by
        rintro rfl
        cases hnone.symm.trans he
      exact (Function.update_of_ne hne _ _).trans he
    | unlinks hpc =>
      rw [hpc] at hf
      cases hc.symm.trans hf
    | _ => exact he

/-- Nobody is at file `ino`, and what is in it and how it is called is as in `s`. -/
structure Server.Kept (o : AccessOptions) (s : Server Loc) (ino : ℕ) (v : Bytes) (r : Server Loc) : Prop where
  inv : Server.Inv o r
  free : Server.Free r ino
  data_eq : r.data ino = some v
  entry_eq : o.cancreate = false → ∀ loc, s.disk.entry loc = some ino → r.disk.entry loc = some ino

theorem Server.Kept.step {ino : ℕ} {v : Bytes} {r r' : Server Loc} (h : Server.Kept o s ino v r)
    {l : ServerLabel Loc} (hl : Server.Quiet ino r l) (hs : r.step o umask l = some r') :
    Server.Kept o s ino v r' := by
  obtain ⟨hfree, hv⟩ := h.free.step h.data_eq hl hs
  exact ⟨h.inv.step hs, hfree, hv, fun hc loc he => Server.entry_kept h.inv hs hc (h.entry_eq hc loc he)⟩

/-- What the last worker has left in a file stays there until an upload to the same file gets as far
as truncating it, and without `--create` the file keeps its name. -/
theorem file_kept {before : List (ServerLabel Loc)} {s' : Server Loc} {ino : ℕ} {v : Bytes}
    (hreach : run (Server.step o umask) { disk := D } before = some s)
    (hfree : ∀ (k : ℕ) (j : FileJob Loc), s.jobs[k]? = some j → ¬ j.pc.Modifies ino) (hv : s.data ino = some v)
    (hrun : run (Server.step o umask) s t = some s')
    (hquiet : Transition.Along (Server.step o umask) (Server.Quiet ino) s t) :
    s'.data ino = some v ∧
      (o.cancreate = false → ∀ loc, s.disk.entry loc = some ino → s'.disk.entry loc = some ino) := by
  have hkept := @Transition.run_invariant_along _ _ _ _ (fun _ r => Server.Kept o s ino v r)
    (fun _ r l r' h hl hs => h.step hl hs) [] t s s' ⟨.of_run hreach, hfree, hv, fun _ _ he => he⟩ hquiet hrun
  exact ⟨hkept.data_eq, hkept.entry_eq⟩

theorem file_kept_foo : ∃ s s' : Server Unit, fooServer commitFoo = some s ∧
    run (Server.step { dirs := [] } 0) s rereadFoo = some s' ∧ s'.data 0 = some [65] := by
  have hwhole : (fooServer commitFoo).any (fun s => (s.jobs.all fun j => ¬ j.pc.Modifies 0) && s.data 0 = some [65] &&
      (run (Server.step { dirs := [] } 0) s rereadFoo).isSome) = true := by decide +kernel
  obtain ⟨s, hreach, hs⟩ := (Option.any_eq_true _ _).mp hwhole
  simp only [Bool.and_eq_true, decide_eq_true_eq] at hs
  obtain ⟨⟨hfree, hv⟩, hsome⟩ := hs
  obtain ⟨s', hrun⟩ := Option.isSome_iff_exists.mp hsome
  refine ⟨s, s', hreach, hrun, (file_kept hreach (fun k j hj => ?_) hv hrun (.of_forall fun l hl r k j st h => ?_)).1⟩
  · exact of_decide_eq_true (List.all_eq_true.mp hfree j (List.mem_of_getElem? hj))
  · subst h
    simp [rereadFoo] at hl

end

end TftpHpa
