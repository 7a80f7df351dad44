import TftpHpa.Daemon.Writers
import TftpHpa.Lib.Projection
import TftpHpa.Session.UploadSafe

/-! An upload to files that are shared. The workers of a client are processes of one server, next to
those of everybody else: each of them has opened, locked and truncated the file before it receives
anything, and from when it closes the file the next one can do so. -/

namespace TftpHpa

open Channel (Discipline)
open Transition (run stepOpt labels run_labels forall_mem_labels)

/-! ### The system -/

/-- The step of `tftp_recvfile` at the file that a step of a worker is, if it is one. -/
def WriteWorker.recvfile : WriteWorker → WriteLabel → Option UploadLabel
  | receiving _ _ _, .run l => some l
  | receiving _ _ last, .dally p =>
    if 4 ≤ p.length ∧ p.opcode = Opcode.data.code ∧ p.block = last then none else some .dally
  | replying _ _ _, .sent _ | replying _ _ _, .sendFailed => some .dally
  | _, _ => none

/-- The process has ended. -/
def FilePc.gone : FilePc → Bool
  | .closed _ _ { pc := .ended none, .. } | .ended => true
  | _ => false

/-- The client with its workers, the server, and which process of the server each of the workers
is. A worker that refuses the request has no file. -/
structure Shared (Loc : Type*) where
  net : Peers.World Put WriteWorker Packet
  server : Server Loc
  processes : List (Option ℕ) := []

/-- A step of the client, of one of its workers or of the network; the request `m` of the client has
got process `k` through `validate_access`; and anything else at the server, where requests of all
clients arrive. -/
inductive SharedLabel (Loc : Type*) where
  | net (l : Peers.Label PutLabel WriteLabel Packet WriteEnv)
  | accept (m : Packet) (env : WriteEnv) (k : ℕ)
  | server (l : ServerLabel Loc)

def SharedLabel.netLabel {Loc : Type*} : SharedLabel Loc → Option (Peers.Label PutLabel WriteLabel Packet WriteEnv)
  | .net l => some l
  | .accept m env _ => some (.accept m env)
  | .server _ => none

def SharedLabel.fails {Loc : Type*} (l : SharedLabel Loc) : Bool := l.netLabel.any Peers.Label.fails

/-- The upload a request starts. -/
def WriteEnv.receives (env : WriteEnv) (m : Packet) : Option UploadArgs :=
  ((env.start m).bind WriteWorker.upload).map Prod.fst

def FileLabel.isRecvfile : FileLabel → Bool
  | .recvfile _ => true
  | _ => false

namespace Shared

variable {Loc : Type*}

/-- The process of worker `i`. -/
def process (x : Shared Loc) (i : ℕ) : Option ℕ := x.processes[i]?.join

/-- A step of worker `i` at the file of its process. -/
def recvfile (x : Shared Loc) (i : ℕ) (l : WriteWorker → WriteLabel) : Option (ServerLabel Loc) :=
  (x.net.worker i).bind fun v => (v.recvfile (l v)).bind fun e => (x.process i).map fun k => .job k (.recvfile e)

/-- What a step is to the server. -/
def serverLabel (x : Shared Loc) : SharedLabel Loc → Option (ServerLabel Loc)
  | .net (.worker i l) => x.recvfile i fun _ => l
  | .net (.hear i m) => x.recvfile i (·.input m)
  | .net _ => none
  | .accept m env k => (env.receives m).map fun b => .job k (.receive b)
  | .server l => some l

/-- Workers only move while their process is there, and the steps of their processes at the file are
theirs. `locate` is where names lead. -/
def allows [DecidableEq Loc] (locate : Bytes → Loc) (x : Shared Loc) : SharedLabel Loc → Bool
  | .net (.worker i _) | .net (.hear i _) =>
    (x.process i).all fun k => x.server.jobs[k]?.any fun j => !j.pc.gone
  | .net (.accept m env) => (env.receives m).isNone
  | .net _ => true
  | .accept m env k => !x.processes.contains (some k) && (env.receives m).any fun b =>
      x.server.jobs[k]?.any fun j => j.loc = locate b.request.filename
  | .server (.job k l) => !(x.processes.contains (some k) && l.isRecvfile)
  | .server (.request _ _) => true

/-- The processes of the workers after a step. -/
def assign (x : Shared Loc) : SharedLabel Loc → List (Option ℕ)
  | .net (.accept _ _) => x.processes ++ [none]
  | .accept _ _ k => x.processes ++ [some k]
  | _ => x.processes

def step [DecidableEq Loc] (d : Discipline) (a : PutArgs) (o : AccessOptions) (umask : BitVec 9) (locate : Bytes → Loc)
    (x : Shared Loc) (l : SharedLabel Loc) : Option (Shared Loc) :=
  if x.allows locate l then
    (stepOpt ((uploadSystem a).step d) x.net l.netLabel).bind fun net =>
      (stepOpt (Server.step o umask) x.server (x.serverLabel l)).map fun server =>
        { net, server, processes := x.assign l }
  else none

/-- Before the first request. -/
def init (a : PutArgs) (D : Disk Loc) : Shared Loc where
  net := { client := a.init }
  server := { disk := D }

end Shared

/-! ### Workers and their processes -/

/-- A step of a worker leaves its upload alone or is one of `tftp_recvfile`. -/
theorem WriteWorker.step_recvfile {v v' : WriteWorker} {l : WriteLabel} (hs : v.step l = some v') :
    match v.recvfile l with
    | none => v'.upload = v.upload
    | some e => ∃ b s s', v.upload = some (b, s) ∧ s.step b e = some s' ∧ v'.upload = some (b, s') := by
  cases v with
  | refusing p =>
    cases l with
    | sent q =>
      simp only [WriteWorker.step, Option.ite_none_right_eq_some, Option.some.injEq] at hs
      obtain ⟨-, rfl⟩ := hs
      rfl
    | sendFailed =>
      cases hs
      rfl
    | _ => cases hs
  | refused => cases hs
  | receiving b s last =>
    cases l with
    | run e =>
      obtain ⟨s', hs', rfl⟩ := Option.map_eq_some_iff.mp hs
      exact ⟨b, s, s', rfl, hs', rfl⟩
    | dally p =>
      simp only [WriteWorker.step] at hs
      split at hs
      · simp only [WriteWorker.recvfile]
        split_ifs at hs ⊢ with hlast
        · cases hs
          rfl
        · obtain ⟨s', hs', rfl⟩ := Option.map_eq_some_iff.mp hs
          exact ⟨b, s, s', rfl, hs', rfl⟩
      · cases hs
    | nak p =>
      simp only [WriteWorker.step, Option.ite_none_right_eq_some, Option.some.injEq] at hs
      obtain ⟨-, rfl⟩ := hs
      rfl
    | _ => cases hs
  | replying b s last =>
    cases l with
    | sent q =>
      simp only [WriteWorker.step, Option.ite_none_right_eq_some] at hs
      obtain ⟨s', hs', rfl⟩ := Option.map_eq_some_iff.mp hs.2
      exact ⟨b, s, s', rfl, hs', rfl⟩
    | sendFailed =>
      obtain ⟨s', hs', rfl⟩ := Option.map_eq_some_iff.mp hs
      exact ⟨b, s, s', rfl, hs', rfl⟩
    | _ => cases hs

/-- A worker starts at the beginning of its upload. -/
theorem WriteEnv.upload_start {env : WriteEnv} {m : Packet} {v : WriteWorker} (hs : env.start m = some v)
    {b : UploadArgs} {u : Upload} (hv : v.upload = some (b, u)) : b.init = u := by
  simp only [WriteEnv.start] at hs
  split_ifs at hs
  split at hs
  · cases hs
    cases hv
    rfl
  · cases hs
    cases hv
  · cases hs

/-- The process of a worker that receives a file is at the same place, unless it has been ended. -/
def FilePc.Runs (b : UploadArgs) (u : Upload) : FilePc → Prop
  | .writing _ b' u' => b' = b ∧ u' = u
  | .closed _ b' u' => b' = b ∧ (u' = u ∨ u' = { u with pc := .ended none })
  | .unlinking _ _ | .abandoned _ _ => u.disk = none
  | _ => False

namespace FileJob.Move

variable {Loc : Type*} [DecidableEq Loc] {o : AccessOptions} {umask : BitVec 9} {grants : Locking.Hold ℕ → Bool}
  {d d' : Disk Loc} {j : FileJob Loc} {pc : FilePc} {b : UploadArgs} {u u' : Upload}

theorem runs_recvfile {e : UploadLabel} (h : Move o umask grants d j (.recvfile e) d' pc) (hr : j.pc.Runs b u)
    (hs : u.step b e = some u') : pc.Runs b u' := by
  cases h with
  | writes hs' hdisk ho hpc =>
    rw [hpc] at hr
    obtain ⟨rfl, rfl⟩ := hr
    exact ⟨rfl, Option.some.inj (hs'.symm.trans hs)⟩
  | closes hs' hdisk ho hpc =>
    rw [hpc] at hr
    obtain ⟨rfl, rfl⟩ := hr
    exact ⟨rfl, .inl (Option.some.inj (hs'.symm.trans hs))⟩
  | discards hs' hdisk hpc =>
    rw [hpc] at hr
    obtain ⟨rfl, rfl⟩ := hr
    obtain rfl := Option.some.inj (hs'.symm.trans hs)
    exact hdisk
  | dallies hs' hpc =>
    rw [hpc] at hr
    obtain ⟨rfl, rfl | rfl⟩ := hr
    · exact ⟨rfl, .inl (Option.some.inj (hs'.symm.trans hs))⟩
    · cases e <;> simp [Upload.step] at hs'

/-- What else happens to the process is its end, or the name of the file is removed. -/
theorem runs_other {l : FileLabel} (h : Move o umask grants d j l d' pc) (hl : l.isRecvfile = false)
    (hr : j.pc.Runs b u) : pc.Runs b u := by
  cases h with
  | writes | closes | discards | dallies => cases hl
  | killed hpc =>
    rw [hpc] at hr
    obtain ⟨rfl, rfl⟩ := hr
    exact ⟨rfl, .inr rfl⟩
  | unlinks hpc | spared hpc =>
    rw [hpc] at hr
    exact hr
  | exits hw hu =>
    cases hp : j.pc with
    | writing i b' u' => exact absurd hp (hw i b' u').1
    | closed i b' u' => exact absurd hp (hw i b' u').2
    | unlinking i left => exact absurd hp (hu i left).1
    | abandoned i left => exact absurd hp (hu i left).2
    | _ =>
      rw [hp] at hr
      cases hr
  | _ =>
    rename_i hpc
    rw [hpc] at hr
    cases hr

end FileJob.Move

namespace Shared

variable {Loc : Type*} [DecidableEq Loc] {d : Discipline} {a : PutArgs} {o : AccessOptions} {umask : BitVec 9}
  {locate : Bytes → Loc} {D : Disk Loc} {x x' : Shared Loc} {l : SharedLabel Loc}

theorem step_eq_some (hs : x.step d a o umask locate l = some x') :
    x.allows locate l = true ∧ stepOpt ((uploadSystem a).step d) x.net l.netLabel = some x'.net ∧
      stepOpt (Server.step o umask) x.server (x.serverLabel l) = some x'.server ∧ x'.processes = x.assign l := by
  simp only [step, Option.ite_none_right_eq_some] at hs
  obtain ⟨hallows, hs⟩ := hs
  obtain ⟨net, hnet, hs⟩ := Option.bind_eq_some_iff.mp hs
  obtain ⟨server, hserver, rfl⟩ := Option.map_eq_some_iff.mp hs
  exact ⟨hallows, hnet, hserver, rfl⟩

variable (d a o umask locate) in
/-- What the server has done in a run. -/
def history (D : Disk Loc) (t : List (SharedLabel Loc)) : List (ServerLabel Loc) :=
  labels (Shared.step d a o umask locate) serverLabel (init a D) t

theorem run_net {t : List (SharedLabel Loc)} (hrun : run (Shared.step d a o umask locate) (init a D) t = some x) :
    run ((uploadSystem a).step d) { client := a.init }
      (labels (Shared.step d a o umask locate) (fun _ l => l.netLabel) (init a D) t) = some x.net :=
  run_labels (p := net) (fun _ _ _ hs => (step_eq_some hs).2.1) hrun

theorem run_server {t : List (SharedLabel Loc)} (hrun : run (Shared.step d a o umask locate) (init a D) t = some x) :
    run (Server.step o umask) { disk := D } (history d a o umask locate D t) = some x.server :=
  run_labels (p := server) (fun _ _ _ hs => (step_eq_some hs).2.2.1) hrun

/-- The workers of the client. -/
def workers (x : Shared Loc) : List WriteWorker := x.net.lines.map Peers.Line.worker

omit [DecidableEq Loc] in
theorem worker_eq (x : Shared Loc) (i : ℕ) : x.net.worker i = x.workers[i]? := (List.getElem?_map ..).symm

/-- Each worker that receives a file has a process of its own, and where it leads. -/
structure Inv (locate : Bytes → Loc) (x : Shared Loc) : Prop where
  length_eq : x.processes.length = x.workers.length
  own : ∀ i i' k, x.process i = some k → x.process i' = some k → i = i'
  runs : ∀ (i : ℕ) v b u, x.workers[i]? = some v → v.upload = some (b, u) → ∃ k j, x.process i = some k ∧
    x.server.jobs[k]? = some j ∧ j.loc = locate b.request.filename ∧ j.pc.Runs b u

namespace Inv

omit [DecidableEq Loc] in
theorem start (locate : Bytes → Loc) (a : PutArgs) (D : Disk Loc) : Inv locate (init a D) where
  length_eq := rfl
  own i i' k hi := by cases hi
  runs i v b u hi := by cases hi

omit [DecidableEq Loc] in
theorem mem_processes {i k : ℕ} (h : x.process i = some k) : some k ∈ x.processes := by
  rw [process] at h
  cases hi : x.processes[i]? with
  | none =>
    rw [hi] at h
    cases h
  | some p =>
    rw [hi] at h
    obtain rfl : p = some k := h
    exact List.mem_of_getElem? hi

/-- The processes of the workers are where they were. -/
theorem of_server (h : Inv locate x) {e : ServerLabel Loc} (hworkers : x'.workers = x.workers)
    (hproc : x'.processes = x.processes) (hs : x.server.step o umask e = some x'.server)
    (he : ∀ k l, e = .job k l → some k ∈ x.processes → l.isRecvfile = false) : Inv locate x' := by
  refine ⟨by rw [hproc, hworkers, h.length_eq], ?_, ?_⟩
  · simp only [process, hproc]
    exact h.own
  · intro i v b u hi hv
    rw [hworkers] at hi
    obtain ⟨k, j, hk, hj, hloc, hruns⟩ := h.runs i v b u hi hv
    rw [process, hproc]
    rcases Server.step_cases hs with ⟨loc, isRead, rfl, hx'⟩ | ⟨k', l, j', disk, pc, rfl, hj', hmove, hx'⟩
    · refine ⟨k, j, hk, ?_, hloc, hruns⟩
      rw [hx', List.getElem?_append_left (List.getElem?_eq_some_iff.mp hj).1]
      exact hj
    · rw [hx']
      by_cases hne : k' = k
      · subst hne
        obtain rfl := Option.some.inj (hj.symm.trans hj')
        exact ⟨k', _, hk, List.getElem?_set_self (List.getElem?_eq_some_iff.mp hj).1, hloc,
          hmove.runs_other (he k' l rfl (mem_processes hk)) hruns⟩
      · exact ⟨k, j, hk, (List.getElem?_set_ne hne).trans hj, hloc, hruns⟩

/-- A worker moves, and its process with it. -/
theorem of_worker (h : Inv locate x) {i : ℕ} {v v' : WriteWorker} {f : WriteWorker → WriteLabel}
    (hi : x.workers[i]? = some v) (hstep : v.step (f v) = some v') (hworkers : x'.workers = x.workers.set i v')
    (hproc : x'.processes = x.processes)
    (hs : stepOpt (Server.step o umask) x.server (x.recvfile i f) = some x'.server) : Inv locate x' := by
  have hlt := (List.getElem?_eq_some_iff.mp hi).1
  -- the other workers are where they were, unless their process has moved
  have hother : ∀ {server : Server Loc} {i' v₁ b u}, i' ≠ i →
      (∀ k j, x.process i' = some k → x.server.jobs[k]? = some j → server.jobs[k]? = some j) →
      x'.workers[i']? = some v₁ → v₁.upload = some (b, u) → ∃ k j, x'.process i' = some k ∧
        server.jobs[k]? = some j ∧ j.loc = locate b.request.filename ∧ j.pc.Runs b u := by
    intro server i' v₁ b u hne hjobs hi' hv₁
    rw [hworkers, List.getElem?_set_ne hne.symm] at hi'
    obtain ⟨k, j, hk, hj, hloc, hruns⟩ := h.runs i' v₁ b u hi' hv₁
    rw [process, hproc]
    exact ⟨k, j, hk, hjobs k j hk hj, hloc, hruns⟩
  refine ⟨by rw [hproc, hworkers, List.length_set, h.length_eq], ?_, ?_⟩
  · simp only [process, hproc]
    exact h.own
  · intro i' v₁ b u hi' hv₁
    have hupload := WriteWorker.step_recvfile hstep
    cases he : v.recvfile (f v) with
    | none =>
      rw [he] at hupload
      have hserver : x.recvfile i f = none := by
        rw [recvfile, worker_eq, hi, Option.bind_some, he]
        rfl
      rw [hserver] at hs
      obtain hserver' := Option.some.inj hs
      rw [← hserver']
      by_cases hne : i' = i
      · subst hne
        rw [hworkers, List.getElem?_set_self hlt] at hi'
        obtain rfl := Option.some.inj hi'
        rw [process, hproc]
        exact h.runs i' v b u hi (hupload ▸ hv₁)
      · exact hother hne (fun _ _ _ hj => hj) hi' hv₁
    | some e =>
      rw [he] at hupload
      obtain ⟨b₀, u₀, u₁, hv, hu, hv'⟩ := hupload
      obtain ⟨k, j, hk, hj, hloc, hruns⟩ := h.runs i v b₀ u₀ hi hv
      have hserver : x.recvfile i f = some (.job k (.recvfile e)) := by
        rw [recvfile, worker_eq, hi, Option.bind_some, he, Option.bind_some, hk]
        rfl
      rw [hserver, stepOpt] at hs
      rcases Server.step_cases hs with ⟨loc, isRead, hl, -⟩ | ⟨k', l, j', disk, pc, hl, hj', hmove, hx'⟩
      · cases hl
      · cases hl
        obtain rfl := Option.some.inj (hj.symm.trans hj')
        rw [hx']
        by_cases hne : i' = i
        · subst hne
          rw [hworkers, List.getElem?_set_self hlt] at hi'
          obtain rfl := Option.some.inj hi'
          cases hv₁.symm.trans hv'
          rw [process, hproc]
          exact ⟨k, _, hk, List.getElem?_set_self (List.getElem?_eq_some_iff.mp hj).1, hloc,
            hmove.runs_recvfile hruns hu⟩
        · refine hother hne (fun k₁ j₁ hk₁ hj₁ => ?_) hi' hv₁
          have hkk : k ≠ k₁ := by
            rintro rfl
            exact hne (h.own i' i k hk₁ hk)
          exact (List.getElem?_set_ne hkk).trans hj₁

omit [DecidableEq Loc] in
/-- A worker is added. -/
theorem of_accept (h : Inv locate x) {v : WriteWorker} {p : Option ℕ} (hworkers : x'.workers = x.workers ++ [v])
    (hproc : x'.processes = x.processes ++ [p]) (hnew : ∀ k, p = some k → some k ∉ x.processes)
    (hjobs : ∀ k j, some k ∈ x.processes → x.server.jobs[k]? = some j → x'.server.jobs[k]? = some j)
    (hruns : ∀ b u, v.upload = some (b, u) → ∃ k j, p = some k ∧ x'.server.jobs[k]? = some j ∧
      j.loc = locate b.request.filename ∧ j.pc.Runs b u) : Inv locate x' := by
  have hlast : x'.process x.processes.length = p := by
    rw [process, hproc, List.getElem?_append_right le_rfl, Nat.sub_self]
    rfl
  have hold : ∀ {i : ℕ}, i < x.processes.length → x'.process i = x.process i := by
    intro i hi
    rw [process, process, hproc, List.getElem?_append_left hi]
  have hcases : ∀ {i k : ℕ}, x'.process i = some k →
      x.process i = some k ∧ i < x.processes.length ∨ i = x.processes.length ∧ p = some k := by
    intro i k hi
    rcases lt_trichotomy i x.processes.length with hlt | rfl | hgt
    · exact .inl ⟨hold hlt ▸ hi, hlt⟩
    · exact .inr ⟨rfl, hlast ▸ hi⟩
    · rw [process, hproc, List.getElem?_eq_none (by simp; omega)] at hi
      cases hi
  refine ⟨by rw [hproc, hworkers, List.length_append, List.length_append, h.length_eq]; rfl, ?_, ?_⟩
  · intro i i' k hi hi'
    rcases hcases hi with ⟨hi, -⟩ | ⟨rfl, hp⟩
    · rcases hcases hi' with ⟨hi', -⟩ | ⟨rfl, hp⟩
      · exact h.own i i' k hi hi'
      · exact absurd (mem_processes hi) (hnew k hp)
    · rcases hcases hi' with ⟨hi', -⟩ | ⟨rfl, -⟩
      · exact absurd (mem_processes hi') (hnew k hp)
      · rfl
  · intro i v₁ b u hi hv₁
    rw [hworkers] at hi
    rcases lt_or_ge i x.workers.length with hlt | hge
    · rw [List.getElem?_append_left hlt] at hi
      obtain ⟨k, j, hk, hj, hloc, hr⟩ := h.runs i v₁ b u hi hv₁
      exact ⟨k, j, (hold (h.length_eq ▸ hlt)).trans hk, hjobs k j (mem_processes hk) hj, hloc, hr⟩
    · rw [List.getElem?_append_right hge] at hi
      have hi0 : i - x.workers.length < [v].length := (List.getElem?_eq_some_iff.mp hi).1
      rw [List.length_singleton] at hi0
      obtain rfl : i = x.processes.length := by rw [h.length_eq]; omega
      obtain rfl := List.mem_singleton.mp (List.mem_of_getElem? hi)
      obtain ⟨k, j, hp, hj, hloc, hr⟩ := hruns b u hv₁
      exact ⟨k, j, hlast.trans hp, hj, hloc, hr⟩

theorem step (h : Inv locate x) (hs : x.step d a o umask locate l = some x') : Inv locate x' := by
  obtain ⟨hallows, hnet, hserver, hproc⟩ := step_eq_some hs
  cases l with
  | server e =>
    have hworkers : x'.workers = x.workers := by rw [workers, workers, ← Option.some.inj hnet]
    refine h.of_server hworkers hproc hserver ?_
    rintro k l rfl hk
    simpa [allows, hk] using hallows
  | accept m env k =>
    simp only [allows, Bool.and_eq_true, Bool.not_eq_true', Option.any_eq_true] at hallows
    obtain ⟨hnew, b, hb, j, hj, hloc⟩ := hallows
    have hnew : some k ∉ x.processes := by simpa using hnew
    rw [serverLabel, hb, Option.map_some, stepOpt] at hserver
    rcases Server.step_cases hserver with ⟨loc, isRead, hl, -⟩ | ⟨k', l, j', disk, pc, hl, hj', hmove, hx'⟩
    · cases hl
    · cases hl
      obtain rfl := Option.some.inj (hj.symm.trans hj')
      have hlt := (List.getElem?_eq_some_iff.mp hj).1
      obtain ⟨⟨b', u⟩, hupload, rfl⟩ := Option.map_eq_some_iff.mp hb
      obtain ⟨v, hv, hvu⟩ := Option.bind_eq_some_iff.mp hupload
      rw [SharedLabel.netLabel, stepOpt] at hnet
      have hacts := Peers.System.step_acts hnet
      have hworkers : x'.workers = x.workers ++ [v] := by
        generalize hw : x'.net.lines.map Peers.Line.worker = workers' at hacts
        cases hacts with
        | accept hstart =>
          obtain rfl := Option.some.inj (hv.symm.trans hstart)
          exact hw
        | other _ _ ha => exact absurd rfl (ha m env)
      refine h.of_accept hworkers hproc (fun k₁ hk₁ => Option.some.inj hk₁ ▸ hnew) ?_ ?_
      · intro k₁ j₁ hk₁ hj₁
        have hne : k ≠ k₁ := by
          rintro rfl
          exact hnew hk₁
        rw [hx']
        exact (List.getElem?_set_ne hne).trans hj₁
      · intro b₁ u₁ hvu₁
        cases hvu.symm.trans hvu₁
        rw [hx']
        refine ⟨k, _, rfl, List.getElem?_set_self hlt, of_decide_eq_true hloc, ?_⟩
        cases hmove with
        | receives hc hpc => exact ⟨rfl, WriteEnv.upload_start hv hvu⟩
  | net l =>
    have hacts := Peers.System.step_acts hnet
    generalize hw : x'.net.lines.map Peers.Line.worker = workers' at hacts
    cases hacts with
    | worker hk hstep => exact h.of_worker (f := fun _ => _) hk hstep hw hproc hserver
    | @hear i m v v' hk hstep => exact h.of_worker (f := fun v => v.input m) hk hstep hw hproc hserver
    | @accept m env v hstart =>
      have hnone : v.upload = none := by
        simp only [allows, WriteEnv.receives, Option.isNone_map, Option.isNone_iff_eq_none] at hallows
        rw [show env.start m = some v from hstart, Option.bind_some] at hallows
        exact hallows
      refine h.of_accept hw hproc (fun k hk => by cases hk) (fun k j _ hj => ?_) fun b u hv => ?_
      · rw [← Option.some.inj hserver]
        exact hj
      · cases hnone.symm.trans hv
    | other hworker hhear haccept =>
      have hlabel : x.serverLabel (.net l) = none := by
        cases l with
        | worker k e => exact absurd rfl (hworker k e)
        | hear k m => exact absurd rfl (hhear k m)
        | _ => rfl
      have hassign : x.assign (.net l) = x.processes := by
        cases l with
        | accept m env => exact absurd rfl (haccept m env)
        | _ => rfl
      rw [hlabel] at hserver
      rw [hassign] at hproc
      have hserver' := Option.some.inj hserver
      refine ⟨by rw [hproc, workers, hw]; exact h.length_eq, ?_, ?_⟩
      · simp only [process, hproc]
        exact h.own
      · simp only [process, hproc, workers, hw, ← hserver']
        exact h.runs

theorem of_run {t : List (SharedLabel Loc)} (hrun : run (Shared.step d a o umask locate) (init a D) t = some x) :
    Inv locate x :=
  Transition.run_invariant (fun _ x => Inv locate x) (start locate a D) (fun _ _ _ _ h hs => h.step hs) hrun

end Inv

end Shared

/-! ### The files -/

/-- The worker has put `v` into file `ino`. -/
def FilePc.Wrote (ino : ℕ) (v : Bytes) : FilePc → Prop
  | .writing i _ u | .closed i _ u => i = ino ∧ u.disk = some v
  | _ => False

section
variable {Loc : Type*} [DecidableEq Loc] {d : Discipline} {a : PutArgs} {o : AccessOptions} {umask : BitVec 9}
  {locate : Bytes → Loc} {D : Disk Loc} {x : Shared Loc} {t : List (SharedLabel Loc)}

variable (d a o umask locate D t) in
/-- The process of worker `i` has put `v` into the file that the name in the request led to, and that
is what is in the file, unless it has been truncated since by another process, after this one had
closed it. -/
def Shared.Stored (x : Shared Loc) (i : ℕ) (v : Bytes) : Prop :=
  ∃ b u k j ino, x.net.upload i = some (b, u) ∧ x.process i = some k ∧ x.server.jobs[k]? = some j ∧
    j.loc = locate b.request.filename ∧ j.pc.Wrote ino v ∧
    (x.server.data ino = some v ∨ Server.Overwritten o umask D (Shared.history d a o umask locate D t) ino k v)

/-- What a worker has written is stored. -/
theorem Shared.stored_of_upload (hrun : run (Shared.step d a o umask locate) (Shared.init a D) t = some x) {i : ℕ}
    {b : UploadArgs} {u : Upload} (hi : x.net.upload i = some (b, u)) {v : Bytes} (hv : u.disk = some v) :
    x.Stored d a o umask locate D t i v := by
  obtain ⟨w, hw, hupload⟩ := Option.bind_eq_some_iff.mp hi
  rw [Shared.worker_eq] at hw
  obtain ⟨k, j, hk, hj, hloc, hruns⟩ := (Shared.Inv.of_run hrun).runs i w b u hw hupload
  have hserver := Shared.run_server hrun
  have hf := (Server.Inv.of_run hserver).fits k j hj
  cases hp : j.pc with
  | writing ino b' u' =>
    rw [hp] at hruns hf
    obtain ⟨rfl, rfl⟩ := hruns
    obtain ⟨-, data, hdisk, hdata⟩ := hf
    exact ⟨b', u', k, j, ino, hi, hk, hj, hloc, hp ▸ ⟨rfl, hv⟩, .inl (hdata.trans (hdisk.symm.trans hv))⟩
  | closed ino b' u' =>
    rw [hp] at hruns
    have hv' : u'.disk = some v := by
      rcases hruns.2 with rfl | rfl
      · exact hv
      · exact hv
    refine ⟨b, u, k, j, ino, hi, hk, hj, hloc, hp ▸ ⟨rfl, hv'⟩, ?_⟩
    exact ((Server.Written.of_run hserver).left k j ino v hj (hp ▸ ⟨rfl, hv'⟩)).imp_left And.left
  | unlinking ino left | abandoned ino left =>
    rw [hp] at hruns
    cases hv.symm.trans hruns
  | _ =>
    rw [hp] at hruns
    cases hruns

/-- What a worker has in its file, when the client or the worker succeeds. -/
theorem Shared.written_of_run {c : ClientConfig} {peer : Socket} {st : Option FileStat} {name : Bytes} {pf : Format}
    (ha : a.Puts c peer st name pf) (hrun : run (Shared.step d a o umask locate) (Shared.init a D) t = some x)
    (hconnects : ∀ l ∈ t, l.fails = false)
    (hnum : ∀ i b u, x.net.upload i = some (b, u) → Numbered d b.session a.stream) :
    (x.net.client.Done →
      ∃ i b u, x.net.addr = some i ∧ x.net.upload i = some (b, u) ∧ u.disk = some a.file.rest) ∧
    ∀ i b u, x.net.upload i = some (b, u) → u.pc = .ended (some .ok) →
      x.net.addr = some i ∧ u.disk = some a.file.rest := by
  refine upload_written ha (Shared.run_net hrun) (forall_mem_labels (fun e he _ l hl => ?_) _) hnum
  have h := hconnects e he
  rw [SharedLabel.fails, hl, Option.any_some] at h
  exact h

end

/-! A client whose request arrives twice. The second copy is late: the first worker has the file and has
closed it, its last ACK is still under way. -/

def sendFoo (a : PutArgs) : List (SharedLabel Unit) :=
  let recv (l : RecvLabel) := SharedLabel.net (.worker 0 (.run (.step (.engine l none))))
  let access (k : ℕ) := SharedLabel.server (.request () false) ::
    [.openat, .fstat, .lockFile, .truncate true].map fun l => .server (.job k l)
  [.net (.client (.sent a.request)), .net (.client .timeout), .net (.client (.sent a.request))] ++ access 0 ++
  [.accept a.request takeFoo 0, .net (.worker 0 (.run (.start false))), recv .reserved, recv (.entered false),
    recv (.sent (ackPacket 0)), .net (.deliver 0 true (ackPacket 0)), .net (.client (.step (.window 1 true))),
    .net (.client (.step (.entered false))), .net (.client (.step (.sent (dataPacket 1 [65])))),
    .net (.hear 0 (dataPacket 1 [65])), recv (.published (dataPacket 1 [65])), recv .drained, recv .finished,
    recv (.sent (ackPacket 1)), .net (.worker 0 (.run .stop)), .net (.worker 0 (.run (.close true)))] ++ access 1 ++
  [.net (.deliver 0 true (ackPacket 1)), .net (.client (.step .released))]

/-- Few enough blocks for their numbers not to wrap. -/
def WriteWorker.fewBlocks (a : PutArgs) (v : WriteWorker) : Bool :=
  v.upload.all fun p => Blocks.blockCount p.1.session.x.blocksize a.stream ≤ 65535

theorem fewBlocks_of_upload {a : PutArgs} {w : Peers.World Put WriteWorker Packet}
    (h : (w.lines.all fun line => line.worker.fewBlocks a) = true) {j : ℕ} {b : UploadArgs} {u : Upload}
    (hj : w.upload j = some (b, u)) : Blocks.blockCount b.session.x.blocksize a.stream ≤ 65535 := by
  obtain ⟨v, hv, hup⟩ := Option.bind_eq_some_iff.mp hj
  obtain ⟨line, hline, rfl⟩ := Peers.World.worker_eq_some.mp hv
  have hall := List.all_eq_true.mp h line (List.mem_of_getElem? hline)
  rw [WriteWorker.fewBlocks, hup] at hall
  exact of_decide_eq_true hall

/-- Whether the call of the client has succeeded. -/
def Put.done (s : Put) : Bool :=
  match s.pc with
  | .sending _ { pc := .done { status := .ok, .. }, .. } => true
  | _ => false

end TftpHpa
