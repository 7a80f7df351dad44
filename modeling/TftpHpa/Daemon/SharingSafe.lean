import TftpHpa.Daemon.Sharing

/-! The workers of the server do not get in each other's way: every worker finds its file as it takes
it to be, whatever the others do, and what it leaves behind is a whole upload unless it gives up. -/

namespace TftpHpa

open Locking (Hold Exclusive)
open TftpIo (converted)
open Transition (run)

/-! ### What is in the files -/

/-- Only `discard_upload` with `--create` removes the file. -/
theorem Upload.cancreate_of_disk_none {a : UploadArgs} {s s' : Upload} {l : UploadLabel} (hs : s.step a l = some s')
    {data : Bytes} (hd : s.disk = some data) (hd' : s'.disk = none) : a.cancreate = true := by
  have hdiscard : discardUpload a.cancreate = none → a.cancreate = true := by
    unfold discardUpload
    split_ifs with hc
    · exact fun _ => hc
    · exact fun h => by cases h
  cases l with
  | start e =>
    simp only [Upload.step] at hs
    split at hs
    · split at hs
      · cases hs
        cases hd.symm.trans hd'
      · split at hs
        · cases hs
          cases hd.symm.trans hd'
        · cases hs
          exact hdiscard hd'
    · cases hs
  | step l =>
    simp only [Upload.step] at hs
    split at hs
    · obtain ⟨x', -, hmoved⟩ := Option.bind_eq_some_iff.mp hs
      rcases (Upload.moved_cases hmoved).2 with h | ⟨h, -⟩
      · cases h.symm.trans hd'
      · cases hd.symm.trans (h.symm.trans hd')
    · split at hs
      · obtain ⟨r, -, rfl⟩ := Option.map_eq_some_iff.mp hs
        cases hd.symm.trans hd'
      · cases hs
    · cases hs
  | timeout =>
    simp only [Upload.step] at hs
    split at hs
    · obtain ⟨x', -, rfl⟩ := Option.map_eq_some_iff.mp hs
      unfold Upload.timer at hd'
      dsimp only at hd'
      split_ifs at hd'
      cases hd.symm.trans hd'
    · cases hs
  | spill n =>
    simp only [Upload.step] at hs
    split at hs
    · split_ifs at hs
      cases hs
      cases hd'
    · split_ifs at hs
      cases hs
      cases hd'
    · cases hs
  | stop =>
    simp only [Upload.step] at hs
    split at hs
    · cases hs
      cases hd.symm.trans hd'
    · cases hs
  | close closed =>
    simp only [Upload.step] at hs
    split at hs
    · split at hs
      · cases hs
        cases closed with
        | true => cases hd'
        | false => cases hd.symm.trans hd'
      · cases hs
        exact hdiscard hd'
    · cases hs
  | dally =>
    simp only [Upload.step] at hs
    split at hs
    · cases hs
      cases hd.symm.trans hd'
    · cases hs

/-- With the file closed there is only the wait of `daemon_xfer_dally`. -/
theorem Upload.step_of_closed {a : UploadArgs} {s s' : Upload} {l : UploadLabel} (ho : s.isOpen = false)
    (hs : s.step a l = some s') : s.pc = .dally ∧ s' = { s with pc := .ended (some .ok) } := by
  unfold Upload.isOpen at ho
  split at ho
  · cases ho
  · cases ho
  · cases ho
  · next hpc => cases l <;> simp_all [Upload.step]
  · next hpc => cases l <;> simp [Upload.step, hpc] at hs

namespace FilePc

variable {Loc : Type*}

/-- What a worker takes its file to be is what the file is. -/
def Fits (o : AccessOptions) (d : Disk Loc) : FilePc → Prop
  | .opened ino | .statted ino _ | .locked ino _ => (d.data ino).isSome = true
  | .truncated ino => d.data ino = some []
  | .reading ino _ b _ => d.data ino = some b.file.rest
  | .writing ino b u => b.cancreate = o.cancreate ∧ ∃ data, u.disk = some data ∧ d.data ino = some data
  | .closed _ _ u => u.isOpen = false
  | .unlinking _ _ | .abandoned _ _ => o.cancreate = true
  | _ => True

/-- The worker is at the contents of file `ino`. -/
def Modifies (ino : ℕ) : FilePc → Prop
  | .truncated i | .writing i _ _ => i = ino
  | _ => False

instance (ino : ℕ) : DecidablePred (Modifies ino)
  | .truncated i | .writing i _ _ => inferInstanceAs (Decidable (i = ino))
  | .opening | .opened _ | .statted _ _ | .locked _ _ | .reading _ _ _ _ | .closed _ _ _ | .unlinking _ _
  | .abandoned _ _ | .ended => .isFalse id

/-- The worker has closed file `ino` with `v` in it. -/
def Leaves (ino : ℕ) (v : Bytes) : FilePc → Prop
  | .closed i _ u => i = ino ∧ u.disk = some v
  | .unlinking i left | .abandoned i left => i = ino ∧ left = v
  | _ => False

end FilePc

namespace FileJob

variable {Loc : Type*} [DecidableEq Loc] {o : AccessOptions} {umask : BitVec 9} {grants : Hold ℕ → Bool}
  {d d' : Disk Loc} {j : FileJob Loc} {l : FileLabel} {pc : FilePc}

theorem Move.fits (h : Move o umask grants d j l d' pc) (hf : j.pc.Fits o d) : pc.Fits o d' := by
  have hwritten : ∀ {ino : ℕ} {b : UploadArgs} {u : Upload}, j.pc = .writing ino b u →
      b.cancreate = o.cancreate ∧ (∃ data, u.disk = some data) ∧ (d.data ino).isSome = true := by
    intro ino b u hpc
    rw [hpc] at hf
    obtain ⟨hc, data, hdisk, hdata⟩ := hf
    exact ⟨hc, ⟨data, hdisk⟩, by rw [hdata]; rfl⟩
  cases h with
  | found he hpc => exact Disk.data_isSome.mpr (d.entry_lt _ _ he)
  | created he hpc =>
    rw [FilePc.Fits, Disk.data_create_new]
    rfl
  | statted hst hpc =>
    rw [hpc] at hf
    exact hf
  | locked hg hpc =>
    rw [hpc] at hf
    exact hf
  | truncated hw hpc =>
    rw [hpc] at hf
    exact Disk.data_write_self hf []
  | sends hr hdata hpc => exact hdata
  | reads hs hpc =>
    rw [hpc] at hf
    split_ifs
    · exact hf
    · trivial
  | receives hc hpc =>
    rw [hpc] at hf
    exact ⟨hc, [], rfl, hf⟩
  | writes hs hdisk ho hpc =>
    obtain ⟨hc, -, hsome⟩ := hwritten hpc
    exact ⟨hc, _, hdisk, Disk.data_write_self hsome _⟩
  | discards hs hdisk hpc =>
    obtain ⟨hc, ⟨data, hd⟩, -⟩ := hwritten hpc
    exact hc.symm.trans (Upload.cancreate_of_disk_none hs hd hdisk)
  | closes hs hdisk ho hpc => exact ho
  | killed hpc => rfl
  | dallies hs hpc =>
    rw [hpc] at hf
    rw [(Upload.step_of_closed hf hs).2]
    rfl
  | unlinks hpc =>
    rw [hpc] at hf
    exact hf
  | spared hpc =>
    rw [hpc] at hf
    exact hf
  | _ => trivial

theorem Move.isSome_data (h : Move o umask grants d j l d' pc) {c : ℕ} (hc : (d.data c).isSome = true) :
    (d'.data c).isSome = true := by
  rw [Disk.data_isSome] at hc ⊢
  cases h with
  | created he hpc =>
    simp only [Disk.create, List.length_append, List.length_singleton]
    omega
  | truncated hw hpc | writes hs hdisk ho hpc | closes hs hdisk ho hpc | discards hs hdisk hpc =>
    rwa [Disk.write, List.length_modify]
  | _ => exact hc

end FileJob

/-! ### Runs -/

namespace Server

variable {Loc : Type*} {o : AccessOptions} {umask : BitVec 9} {D : Disk Loc} {s s' : Server Loc}

/-- What holds at any time. -/
structure Inv (o : AccessOptions) (s : Server Loc) : Prop where
  exclusive : Exclusive holds s
  fits : ∀ (k : ℕ) (j : FileJob Loc), s.jobs[k]? = some j → j.pc.Fits o s.disk

theorem Inv.init (o : AccessOptions) (D : Disk Loc) : Inv o { disk := D } where
  exclusive i j h h' _ hi := by cases hi
  fits k j hk := by cases hk

/-- The workers after a new one has come. -/
theorem getElem?_request {i : ℕ} {j ji : FileJob Loc} (hi : (s.jobs ++ [j])[i]? = some ji) :
    s.jobs[i]? = some ji ∨ ji = j := by
  rcases lt_or_ge i s.jobs.length with hlt | hge
  · rw [List.getElem?_append_left hlt] at hi
    exact .inl hi
  · rw [List.getElem?_append_right hge] at hi
    exact .inr (List.mem_singleton.mp (List.mem_of_getElem? hi))

/-- The workers after one has moved. -/
theorem getElem?_set {i k : ℕ} {j ji : FileJob Loc} (hi : (s.jobs.set k j)[i]? = some ji) :
    i = k ∧ ji = j ∨ i ≠ k ∧ s.jobs[i]? = some ji := by
  by_cases hik : k = i
  · subst hik
    have hlt := (List.getElem?_eq_some_iff.mp hi).1
    rw [List.length_set] at hlt
    rw [List.getElem?_set_self hlt] at hi
    exact .inl ⟨rfl, (Option.some.inj hi).symm⟩
  · rw [List.getElem?_set_ne hik] at hi
    exact .inr ⟨Ne.symm hik, hi⟩

/-- Who moves takes his file with him, and what the others take theirs to be is locked. -/
theorem Inv.fits_other (h : Inv o s) {d : Disk Loc} {i : ℕ} {j : FileJob Loc} (hj : s.jobs[i]? = some j)
    (hsome : ∀ c, (s.disk.data c).isSome = true → (d.data c).isSome = true)
    (hkept : ∀ c w v, s.holds i = some ⟨c, w⟩ → s.disk.data c = some v → d.data c = some v) :
    j.pc.Fits o d := by
  have hf := h.fits i j hj
  have hholds : s.holds i = j.holds := by rw [holds, hj, Option.bind_some]
  rw [hholds, FileJob.holds] at hkept
  cases hp : j.pc with
  | opened ino | statted ino st | locked ino st =>
    rw [hp] at hf
    exact hsome ino hf
  | truncated ino | reading ino st b f =>
    rw [hp] at hf hkept
    exact hkept ino _ _ rfl hf
  | writing ino b u =>
    rw [hp] at hf hkept
    obtain ⟨hc, data, hdisk, hdata⟩ := hf
    exact ⟨hc, data, hdisk, hkept ino _ _ rfl hdata⟩
  | _ =>
    rw [hp] at hf
    exact hf

variable [DecidableEq Loc]

theorem Inv.step (h : Inv o s) {l : ServerLabel Loc} (hs : s.step o umask l = some s') : Inv o s' := by
  refine ⟨h.exclusive.of_step (disciplined o umask) hs, fun i ji hi => ?_⟩
  have hkept : ∀ c w v, s.holds i = some ⟨c, w⟩ → i ≠ s.actor l → s.data c = some v → s'.data c = some v :=
    fun c w v hhold hne hv => h.exclusive.value_eq (disciplined o umask) hs hhold (.inl hne) hv
  rcases step_cases hs with ⟨loc, isRead, rfl, rfl⟩ | ⟨k, e, j, d, pc, rfl, hj, hmove, rfl⟩
  · rcases getElem?_request hi with hi | rfl
    · exact h.fits i ji hi
    · trivial
  · rcases getElem?_set hi with ⟨rfl, rfl⟩ | ⟨hne, hi⟩
    · exact hmove.fits (h.fits i j hj)
    · exact h.fits_other hi (fun c hc => hmove.isSome_data hc) fun c w v hhold hv => hkept c w v hhold hne hv

theorem Inv.of_run {t : List (ServerLabel Loc)} (hrun : run (Server.step o umask) { disk := D } t = some s) :
    Inv o s :=
  Transition.run_invariant (fun _ s => Inv o s) (.init o D) (fun _ _ _ _ h hs => h.step hs) hrun

end Server

/-! ### Finished uploads -/

/-- Whatever happens, the upload is as it should be or the worker has given up. -/
theorem Upload.inv_or_gone {a : UploadArgs} {ps : List Bytes} {s s' : Upload}
    (h : Upload.Inv a ps s ∨ s.pc = .ended none) {l : UploadLabel} (hs : s.step a l = some s') :
    Upload.Inv a (ps ++ l.payload) s' ∨ s'.pc = .ended none := by
  rcases h with h | hpc
  · cases l with
    | step l => exact .inl (h.step hs)
    | start e =>
      simp only [UploadLabel.payload, List.append_nil]
      by_cases hslots : ioRingSlots a.pthread a.request.daemon = none
      · simp only [Upload.step, hslots] at hs
        split at hs
        · cases hs
          exact .inr rfl
        · cases hs
      · exact .inl (h.start (fun hnone => absurd hnone hslots) hs)
    | timeout =>
      simp only [UploadLabel.payload, List.append_nil]
      by_cases hlt : 2 * s.timeout < a.request.daemon.maxtimeout
      · exact .inl (h.timeout hlt hs)
      · simp only [Upload.step] at hs
        split at hs
        · obtain ⟨x', -, rfl⟩ := Option.map_eq_some_iff.mp hs
          rw [Upload.timer, if_pos (by omega)]
          exact .inr rfl
        · cases hs
    | spill n =>
      simp only [UploadLabel.payload, List.append_nil]
      exact .inl (h.spill hs)
    | stop =>
      simp only [UploadLabel.payload, List.append_nil]
      exact .inl (h.stop hs)
    | close closed =>
      simp only [UploadLabel.payload, List.append_nil]
      exact .inl (h.close hs)
    | dally =>
      simp only [UploadLabel.payload, List.append_nil]
      exact .inl (h.dally hs)
  · cases l <;> simp [Upload.step, hpc] at hs

/-- What worker `k` publishes in a step. -/
def ServerLabel.payload {Loc : Type*} (k : ℕ) : ServerLabel Loc → List Bytes
  | .job i (.recvfile l) => if i = k then l.payload else []
  | _ => []

/-- What the blocks `ps` a worker has published say about its upload. -/
def FilePc.Accounts (ps : List Bytes) : FilePc → Prop
  | .writing _ b u | .closed _ b u => Upload.Inv b ps u ∨ u.pc = .ended none
  | .unlinking _ _ | .abandoned _ _ | .ended => True
  | _ => ps = []

/-- The upload has been committed. -/
def Upload.Committed (u : Upload) : Prop := u.pc = .dally ∨ u.pc = .ended (some .ok)

/-- The worker has closed file `ino` without being through with it: it has been ended by `timer` or
from outside, or its name is to be removed. -/
def FilePc.GivenUp (ino : ℕ) (v : Bytes) : FilePc → Prop
  | .closed i _ u => i = ino ∧ u.pc = .ended none ∧ u.disk = some v
  | .unlinking i left | .abandoned i left => i = ino ∧ left = v
  | _ => False

/-- What a worker leaves is a whole upload, or nothing, unless it has given up. -/
theorem FilePc.Leaves.cases {Loc : Type*} {o : AccessOptions} {d : Disk Loc} {pc : FilePc} {ino : ℕ} {v : Bytes}
    {ps : List Bytes} (h : pc.Leaves ino v) (hf : pc.Fits o d) (ha : pc.Accounts ps) :
    v = [] ∨ pc.GivenUp ino v ∨ ∃ b u, pc = .closed ino b u ∧ u.Committed ∧
      v = converted b.request.format.convert false ps.flatten := by
  cases pc with
  | closed i b u =>
    obtain ⟨rfl, hdisk⟩ := h
    rcases ha with hinv | hgone
    · simp only [FilePc.Fits, Upload.isOpen] at hf
      rw [Upload.Inv] at hinv
      split at hf
      · cases hf
      · cases hf
      · cases hf
      · next hpc =>
        rw [hpc] at hinv
        exact .inr (.inr ⟨b, u, rfl, .inl hpc, Option.some.inj (hdisk.symm.trans hinv)⟩)
      · next status hpc =>
        rw [hpc] at hinv
        rcases hinv with ⟨rfl, hwhole⟩ | ⟨-, hnone⟩ | ⟨-, hempty⟩
        · exact .inr (.inr ⟨b, u, rfl, .inr hpc, Option.some.inj (hdisk.symm.trans hwhole)⟩)
        · cases hdisk.symm.trans hnone
        · exact .inl (Option.some.inj (hdisk.symm.trans hempty))
    · exact .inr (.inl ⟨rfl, hgone, hdisk⟩)
  | unlinking i left | abandoned i left => exact .inr (.inl h)
  | _ => cases h

theorem FileJob.Move.accounts {Loc : Type*} [DecidableEq Loc] {o : AccessOptions} {umask : BitVec 9}
    {grants : Hold ℕ → Bool} {d d' : Disk Loc} {j : FileJob Loc} {l : FileLabel} {pc : FilePc}
    (h : FileJob.Move o umask grants d j l d' pc) (k : ℕ) {ps : List Bytes} (ha : j.pc.Accounts ps) :
    pc.Accounts (ps ++ ServerLabel.payload k (.job k l : ServerLabel Loc)) := by
  cases h with
  | writes hs hdisk ho hpc | closes hs hdisk ho hpc | dallies hs hpc =>
    rw [hpc] at ha
    simp only [ServerLabel.payload, if_true]
    exact Upload.inv_or_gone ha hs
  | killed hpc => exact .inr rfl
  | receives hc hpc =>
    rw [hpc] at ha
    simp only [ServerLabel.payload, List.append_nil]
    obtain rfl : ps = [] := ha
    exact .inl ⟨rfl, rfl⟩
  | reads hs hpc =>
    rw [hpc] at ha
    simp only [ServerLabel.payload, List.append_nil]
    split_ifs
    · exact ha
    · trivial
  | found he hpc | created he hpc | statted hst hpc | locked hg hpc | truncated hw hpc | sends hr hdata hpc =>
    rw [hpc] at ha
    simp only [ServerLabel.payload, List.append_nil]
    exact ha
  | _ => trivial

namespace Server

variable {Loc : Type*} [DecidableEq Loc] {o : AccessOptions} {umask : BitVec 9} {D : Disk Loc} {s s' : Server Loc}
  {t : List (ServerLabel Loc)}

/-- What the workers have published so far. -/
def Accounted (t : List (ServerLabel Loc)) (s : Server Loc) : Prop :=
  (∀ k, s.jobs.length ≤ k → t.flatMap (ServerLabel.payload k) = []) ∧
    ∀ (k : ℕ) (j : FileJob Loc), s.jobs[k]? = some j → j.pc.Accounts (t.flatMap (ServerLabel.payload k))

theorem Accounted.step (h : Accounted t s) {l : ServerLabel Loc} (hs : s.step o umask l = some s') :
    Accounted (t ++ [l]) s' := by
  obtain ⟨hnew, hold⟩ := h
  simp only [Accounted, List.flatMap_append, List.flatMap_singleton]
  rcases step_cases hs with ⟨loc, isRead, rfl, rfl⟩ | ⟨k, e, j, d, pc, rfl, hj, hmove, rfl⟩
  · simp only [ServerLabel.payload, List.append_nil, List.length_append, List.length_singleton]
    refine ⟨fun k hk => hnew k (by omega), fun i ji hi => ?_⟩
    rcases lt_or_ge i s.jobs.length with hlt | hge
    · rw [List.getElem?_append_left hlt] at hi
      exact hold i ji hi
    · rw [List.getElem?_append_right hge] at hi
      obtain rfl := List.mem_singleton.mp (List.mem_of_getElem? hi)
      exact hnew i hge
  · have hlt := (List.getElem?_eq_some_iff.mp hj).1
    have hquiet : ∀ {i : ℕ}, i ≠ k → ServerLabel.payload i (.job k e : ServerLabel Loc) = [] := by
      intro i hne
      cases e with
      | recvfile l => simp [ServerLabel.payload, hne.symm]
      | _ => rfl
    rw [List.length_set]
    refine ⟨fun i hi => ?_, fun i ji hi => ?_⟩
    · rw [hnew i hi, hquiet (by omega)]
      rfl
    · rcases getElem?_set hi with ⟨rfl, rfl⟩ | ⟨hne, hi⟩
      · exact hmove.accounts i (hold i j hj)
      · rw [hquiet hne, List.append_nil]
        exact hold i ji hi

theorem Accounted.of_run (hrun : run (Server.step o umask) { disk := D } t = some s) : Accounted t s := by
  refine Transition.run_invariant Accounted ⟨fun _ _ => rfl, fun k j hk => ?_⟩ (fun _ _ _ _ h hs => h.step hs) hrun
  cases hk

end Server

/-! ### The files of the server -/

section
variable {Loc : Type*} [DecidableEq Loc] {o : AccessOptions} {umask : BitVec 9} {D : Disk Loc} {s : Server Loc}
  {t : List (ServerLabel Loc)}

/-! A file of one byte is replaced, and a second upload comes too early. -/

def fooDisk : Disk Unit where
  entry := fun _ => some 0
  nodes := [{ mode := 0o666, data := [66] }]
  entry_lt := fun _ _ h => by cases h; exact Nat.one_pos

/-- A request without options. -/
def plainRequest : AcceptedRequest where
  format := .octet
  filename := cstr "foo"
  uploadLimit := 1000
  daemon := { opts := ({} : DaemonConfig).optionTable, segsize := 512, windowsize := 1, timeout := 1000000,
              rexmtval := 1000000, maxtimeout := 63000000 }
  oack := none

def fooUpload : UploadArgs := { request := plainRequest, pthread := false, cancreate := false }

/-- Worker 0 has the lock and gets its block, worker 1 finds the file locked. -/
def replaceFoo : List (ServerLabel Unit) :=
  let recv (l : RecvLabel) := ServerLabel.job 0 (.recvfile (.step (.engine l none)))
  [.request () false, .request () false] ++ [.openat, .fstat, .lockFile, .truncate true].map (.job 0) ++
    [.openat, .fstat, .lockFile].map (.job 1) ++ [.receive fooUpload, .recvfile (.start false)].map (.job 0) ++
    [.reserved, .entered false, .sent (ackPacket 0), .received (dataPacket 1 [65]), .published (dataPacket 1 [65]),
      .drained, .finished, .sent (ackPacket 1)].map recv

def fooServer (t : List (ServerLabel Unit)) : Option (Server Unit) :=
  run (Server.step { dirs := [] } 0) { disk := fooDisk } t

/-- Transfers do not get in each other's way, whatever requests come in and however the workers
are interleaved: a file that is locked for writing is locked by nobody else, what a worker reads
is in the file from the first byte to the last, and what is on disk is what the worker that
writes has put there. -/
theorem transfers_isolated (hrun : run (Server.step o umask) { disk := D } t = some s) :
    (∀ i k h h', i ≠ k → s.holds i = some h → s.holds k = some h' → h.cell = h'.cell →
      h.write = false ∧ h'.write = false) ∧
    ∀ (k : ℕ) (j : FileJob Loc), s.jobs[k]? = some j →
      (∀ ino st b f, j.pc = .reading ino st b f → s.data ino = some b.file.rest) ∧
      ∀ ino b u, j.pc = .writing ino b u → s.data ino = u.disk := by
  have hinv := Server.Inv.of_run hrun
  constructor
  · intro i k h h' hik hi hk hcell
    have hclash := hinv.exclusive i k h h' hik hi hk
    simpa [Hold.clashes, hcell] using hclash
  · intro k j hk
    have hf := hinv.fits k j hk
    constructor
    · intro ino st b f hpc
      rw [hpc] at hf
      exact hf
    · intro ino b u hpc
      rw [hpc] at hf
      obtain ⟨-, data, hdisk, hdata⟩ := hf
      exact hdata.trans hdisk.symm

theorem transfers_isolated_foo : ∃ (s : Server Unit) (j : FileJob Unit), fooServer replaceFoo = some s ∧
    s.jobs[0]? = some j ∧ ∃ b u, j.pc = .writing 0 b u ∧ s.data 0 = u.disk := by
  have hwhole : (fooServer replaceFoo).any (fun s => s.jobs[0]?.any fun j =>
      match j.pc with
      | .writing 0 _ _ => true
      | _ => false) = true := by decide +kernel
  obtain ⟨s, hrun, hs⟩ := (Option.any_eq_true _ _).mp hwhole
  obtain ⟨j, hj, hpc⟩ := (Option.any_eq_true _ _).mp hs
  split at hpc
  · next b u hw => exact ⟨s, j, hrun, hj, b, u, hw, ((transfers_isolated hrun).2 0 j hj).2 0 b u hw⟩
  · cases hpc

end

end TftpHpa
