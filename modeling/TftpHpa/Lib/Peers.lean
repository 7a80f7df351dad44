import TftpHpa.Lib.Channel
import TftpHpa.Lib.Transition

/-! A client and the workers of a server. Every copy of a request that reaches the server
is answered by a worker of its own, and each worker talks to the client over two channels
of its own. The client takes the first worker it hears of for its peer and, once connected,
hears no other. An invariant of the whole is put together from one of the client and its
peer and one of the workers nobody listens to. -/

namespace TftpHpa.Peers

open Channel (Discipline receive)

/-- A machine that exchanges messages: a label may send one, and in every state there is a
label for a message that comes in. -/
structure Machine (σ ε α : Type*) where
  step : σ → ε → Option σ
  sends : ε → Option α
  input : σ → α → ε
  isInput : ε → Bool

/-- A worker with what is in flight to it and from it. -/
structure Line (ω α : Type*) where
  worker : ω
  up : List α := []
  down : List α := []

/-- `start` is what becomes of a request in a given environment, and `settles` says which
messages make the client take their sender for its peer. -/
structure System (κ ε₁ ω ε₂ α η : Type*) where
  client : Machine κ ε₁ α
  worker : Machine ω ε₂ α
  start : α → η → Option ω
  settles : α → Bool

/-- Where the client sends to, the listener or a worker, and whether it is connected. -/
structure World (κ ω α : Type*) where
  client : κ
  addr : Option ℕ := none
  connected : Bool := false
  lines : List (Line ω α) := []
  requests : List α := []

inductive Label (ε₁ ε₂ α η : Type*) where
  | client (l : ε₁)
  | deliver (k : ℕ) (connects : Bool) (m : α)
  | worker (k : ℕ) (l : ε₂)
  | hear (k : ℕ) (m : α)
  | accept (m : α) (env : η)
  | loseDown (k n : ℕ)
  | loseUp (k n : ℕ)
  | loseRequest (n : ℕ)

/-- Whether a label is one of a call of `connect` that fails. -/
def Label.fails {ε₁ ε₂ α η : Type*} : Label ε₁ ε₂ α η → Bool
  | .deliver _ connects _ => !connects
  | _ => false

variable {κ ε₁ ω ε₂ α η : Type*}

namespace Line

def loseDown (line : Line ω α) (n : ℕ) : Line ω α := { line with down := line.down.eraseIdx n }

def loseUp (line : Line ω α) (n : ℕ) : Line ω α := { line with up := line.up.eraseIdx n }

/-- The worker makes a step of its own. -/
def move (M : Machine ω ε₂ α) (line : Line ω α) (l : ε₂) : Option (Line ω α) :=
  if M.isInput l then none
  else (M.step line.worker l).map fun worker => { line with worker, down := line.down ++ (M.sends l).toList }

/-- The client sends something to the worker. -/
def tell (line : Line ω α) (m : Option α) : Line ω α := { line with up := line.up ++ m.toList }

variable [DecidableEq α]

/-- A message reaches the worker. -/
def hear (d : Discipline) (M : Machine ω ε₂ α) (line : Line ω α) (m : α) : Option (Line ω α) :=
  (receive d line.up m).bind fun up =>
    (M.step line.worker (M.input line.worker m)).map fun worker => { line with worker, up }

end Line

namespace World

def worker (w : World κ ω α) (k : ℕ) : Option ω := w.lines[k]?.map Line.worker

theorem worker_eq_some {w : World κ ω α} {k : ℕ} {x : ω} :
    w.worker k = some x ↔ ∃ line, w.lines[k]? = some line ∧ line.worker = x := Option.map_eq_some_iff

/-- A step of worker `k`. -/
def onLine (w : World κ ω α) (k : ℕ) (f : Line ω α → Option (Line ω α)) : Option (World κ ω α) :=
  w.lines[k]?.bind fun line => (f line).map fun line => { w with lines := w.lines.set k line }

/-- What the client sends goes to the listener or to its peer. -/
def emit (w : World κ ω α) (m : Option α) : World κ ω α :=
  match w.addr with
  | none => { w with requests := w.requests ++ m.toList }
  | some k => { w with lines := w.lines.modify k (·.tell m) }

theorem emit_of_none {w : World κ ω α} (h : w.addr = none) (m : Option α) :
    w.emit m = { w with requests := w.requests ++ m.toList } := by
  cases w
  cases h
  rfl

theorem emit_of_some {w : World κ ω α} {k : ℕ} (h : w.addr = some k) (m : Option α) :
    w.emit m = { w with lines := w.lines.modify k (·.tell m) } := by
  cases w
  cases h
  rfl

end World

/-- One step of the client, of a worker, of the listener or of the network. -/
def System.step [DecidableEq α] (d : Discipline) (S : System κ ε₁ ω ε₂ α η) (w : World κ ω α) :
    Label ε₁ ε₂ α η → Option (World κ ω α)
  | .client l =>
    if S.client.isInput l then none
    else (S.client.step w.client l).map fun client => { w with client }.emit (S.client.sends l)
  | .deliver k connects m =>
    if w.connected && w.addr ≠ some k then none
    else w.lines[k]?.bind fun line => (receive d line.down m).bind fun down =>
      (S.client.step w.client (S.client.input w.client m)).map fun client =>
        let w := { w with client, lines := w.lines.set k { line with down } }
        if w.connected || !S.settles m then w else { w with addr := some k, connected := connects }
  | .worker k l => w.onLine k fun line => line.move S.worker l
  | .hear k m => w.onLine k fun line => line.hear d S.worker m
  | .accept m env =>
    (receive d w.requests m).bind fun requests =>
      (S.start m env).map fun worker => { w with requests, lines := w.lines ++ [{ worker }] }
  | .loseDown k n => w.onLine k fun line => some (line.loseDown n)
  | .loseUp k n => w.onLine k fun line => some (line.loseUp n)
  | .loseRequest n => some { w with requests := w.requests.eraseIdx n }

section Workers

variable [DecidableEq α] {d : Discipline} {S : System κ ε₁ ω ε₂ α η} {w w' : World κ ω α}

/-- What a step is to the workers. -/
inductive Label.Acts (S : System κ ε₁ ω ε₂ α η) (workers : List ω) : Label ε₁ ε₂ α η → List ω → Prop where
  | worker {k : ℕ} {l : ε₂} {v v' : ω} (hk : workers[k]? = some v) (hs : S.worker.step v l = some v') :
    Acts S workers (.worker k l) (workers.set k v')
  | hear {k : ℕ} {m : α} {v v' : ω} (hk : workers[k]? = some v) (hs : S.worker.step v (S.worker.input v m) = some v') :
    Acts S workers (.hear k m) (workers.set k v')
  | accept {m : α} {env : η} {v : ω} (hs : S.start m env = some v) : Acts S workers (.accept m env) (workers ++ [v])
  | other {l : Label ε₁ ε₂ α η} (hw : ∀ k e, l ≠ .worker k e) (hh : ∀ k m, l ≠ .hear k m)
      (ha : ∀ m env, l ≠ .accept m env) : Acts S workers l workers

omit [DecidableEq α] in
/-- Where the line keeps its worker, the workers stay. -/
theorem World.workers_set {lines : List (Line ω α)} {k : ℕ} {line : Line ω α} (hk : lines[k]? = some line)
    (line' : Line ω α) (h : line'.worker = line.worker) :
    (lines.set k line').map Line.worker = lines.map Line.worker := by
  refine List.ext_getElem? fun i => ?_
  rw [List.getElem?_map, List.getElem?_map, List.getElem?_set]
  split_ifs with hki hlt
  · subst hki
    rw [hk, Option.map_some, Option.map_some, h]
  · rw [List.getElem?_eq_none (by omega)]
  · rfl

theorem System.step_acts {l : Label ε₁ ε₂ α η} (hs : S.step d w l = some w') :
    l.Acts S (w.lines.map Line.worker) (w'.lines.map Line.worker) := by
  cases l with
  | client l =>
    simp only [System.step] at hs
    split_ifs at hs
    obtain ⟨c, hc, rfl⟩ := Option.map_eq_some_iff.mp hs
    have hemit : (World.emit { w with client := c } (S.client.sends l)).lines.map Line.worker =
        w.lines.map Line.worker := by
      unfold World.emit
      split
      · rfl
      · refine List.ext_getElem? fun i => ?_
        rw [List.getElem?_map, List.getElem?_map, List.getElem?_modify]
        split_ifs
        · cases w.lines[i]? <;> rfl
        · simp
    rw [hemit]
    exact .other (by simp) (by simp) (by simp)
  | deliver k connects m =>
    simp only [System.step, Option.ite_none_left_eq_some] at hs
    obtain ⟨-, hs⟩ := hs
    obtain ⟨line, hline, hs⟩ := Option.bind_eq_some_iff.mp hs
    obtain ⟨down, -, hs⟩ := Option.bind_eq_some_iff.mp hs
    obtain ⟨c, -, rfl⟩ := Option.map_eq_some_iff.mp hs
    have hlines : ∀ {b : Bool} {w₁ w₂ : World κ ω α}, w₁.lines = w.lines.set k { line with down } →
        w₂.lines = w.lines.set k { line with down } →
        (if b then w₁ else w₂).lines.map Line.worker = w.lines.map Line.worker := by
      intro b w₁ w₂ h₁ h₂
      cases b with
      | true => exact (congrArg _ h₁).trans (World.workers_set hline _ rfl)
      | false => exact (congrArg _ h₂).trans (World.workers_set hline _ rfl)
    rw [hlines rfl rfl]
    exact .other (by simp) (by simp) (by simp)
  | worker k l =>
    obtain ⟨line, hline, hs⟩ := Option.bind_eq_some_iff.mp hs
    obtain ⟨line', hmove, rfl⟩ := Option.map_eq_some_iff.mp hs
    simp only [Line.move, Option.ite_none_left_eq_some] at hmove
    obtain ⟨v', hv', rfl⟩ := Option.map_eq_some_iff.mp hmove.2
    rw [List.map_set]
    exact .worker (by rw [List.getElem?_map, hline]; rfl) hv'
  | hear k m =>
    obtain ⟨line, hline, hs⟩ := Option.bind_eq_some_iff.mp hs
    obtain ⟨line', hhear, rfl⟩ := Option.map_eq_some_iff.mp hs
    obtain ⟨up, -, hhear⟩ := Option.bind_eq_some_iff.mp hhear
    obtain ⟨v', hv', rfl⟩ := Option.map_eq_some_iff.mp hhear
    rw [List.map_set]
    exact .hear (by rw [List.getElem?_map, hline]; rfl) hv'
  | accept m env =>
    obtain ⟨requests, -, hs⟩ := Option.bind_eq_some_iff.mp hs
    obtain ⟨v, hv, rfl⟩ := Option.map_eq_some_iff.mp hs
    rw [List.map_append]
    exact .accept hv
  | loseDown k n =>
    obtain ⟨line, hline, hs⟩ := Option.bind_eq_some_iff.mp hs
    obtain rfl := Option.some.inj hs
    rw [World.workers_set hline (line.loseDown n) rfl]
    exact .other (by simp) (by simp) (by simp)
  | loseUp k n =>
    obtain ⟨line, hline, hs⟩ := Option.bind_eq_some_iff.mp hs
    obtain rfl := Option.some.inj hs
    rw [World.workers_set hline (line.loseUp n) rfl]
    exact .other (by simp) (by simp) (by simp)
  | loseRequest n =>
    obtain rfl := Option.some.inj hs
    exact .other (by simp) (by simp) (by simp)

end Workers

section Client

variable [DecidableEq α] {d : Discipline} {S : System κ ε₁ ω ε₂ α η} {w w' : World κ ω α}

omit [DecidableEq α] in
theorem World.client_emit (w : World κ ω α) (m : Option α) : (w.emit m).client = w.client := by
  unfold World.emit
  split <;> rfl

theorem System.step_client {l : Label ε₁ ε₂ α η} (hs : S.step d w l = some w') :
    w'.client = w.client ∨ ∃ e, S.client.step w.client e = some w'.client := by
  have honLine : ∀ {k : ℕ} {f : Line ω α → Option (Line ω α)}, w.onLine k f = some w' → w'.client = w.client := by
    intro k f h
    obtain ⟨line, -, h⟩ := Option.bind_eq_some_iff.mp h
    obtain ⟨line', -, rfl⟩ := Option.map_eq_some_iff.mp h
    rfl
  cases l with
  | client l =>
    simp only [System.step, Option.ite_none_left_eq_some] at hs
    obtain ⟨c, hc, rfl⟩ := Option.map_eq_some_iff.mp hs.2
    exact .inr ⟨l, (World.client_emit ..).symm ▸ hc⟩
  | deliver k connects m =>
    simp only [System.step, Option.ite_none_left_eq_some] at hs
    obtain ⟨line, -, hs⟩ := Option.bind_eq_some_iff.mp hs.2
    obtain ⟨down, -, hs⟩ := Option.bind_eq_some_iff.mp hs
    obtain ⟨c, hc, rfl⟩ := Option.map_eq_some_iff.mp hs
    refine .inr ⟨_, hc.trans (congrArg some ?_)⟩
    split <;> rfl
  | worker | hear | loseDown | loseUp => exact .inl (honLine hs)
  | accept m env =>
    obtain ⟨requests, -, hs⟩ := Option.bind_eq_some_iff.mp hs
    obtain ⟨v, -, rfl⟩ := Option.map_eq_some_iff.mp hs
    exact .inl rfl
  | loseRequest n =>
    obtain rfl := Option.some.inj hs
    exact .inl rfl

/-- What every step of the client keeps holds of it throughout. -/
theorem System.client_invariant (P : κ → Prop) {c : κ} (h₀ : P c)
    (hstep : ∀ s e s', P s → S.client.step s e = some s' → P s') {t : List (Label ε₁ ε₂ α η)}
    (hrun : Transition.run (S.step d) { client := c } t = some w) : P w.client := by
  refine Transition.run_invariant (fun _ w => P w.client) h₀ (fun _ w l w' hP hs => ?_) hrun
  rcases System.step_client hs with heq | ⟨e, he⟩
  · rw [heq]
    exact hP
  · exact hstep _ _ _ hP he

end Client

/-- What has to be shown: `Q` of a client without a peer, `R` of requests, `P₀` of a worker
nobody listens to, and `P₁` of a client and its peer. -/
structure Keeps [DecidableEq α] (d : Discipline) (S : System κ ε₁ ω ε₂ α η) (Q : κ → Prop) (R : α → Prop)
    (P₀ : Line ω α → Prop) (P₁ : κ → Line ω α → Prop) : Prop where
  start {m : α} {env : η} {worker : ω} : R m → S.start m env = some worker → P₀ { worker }
  alone {line line' : Line ω α} {l : ε₂} : P₀ line → line.move S.worker l = some line' → P₀ line'
  aloneHears {line line' : Line ω α} {m : α} : P₀ line → line.hear d S.worker m = some line' → P₀ line'
  aloneLosesDown {line : Line ω α} (n : ℕ) : P₀ line → P₀ (line.loseDown n)
  aloneLosesUp {line : Line ω α} (n : ℕ) : P₀ line → P₀ (line.loseUp n)
  asks {c c' : κ} {l : ε₁} : Q c → S.client.isInput l = false → S.client.step c l = some c' →
    Q c' ∧ ∀ m, S.client.sends l = some m → R m
  passes {c c' : κ} {line : Line ω α} {m : α} {down : List α} : Q c → P₀ line → receive d line.down m = some down →
    S.settles m = false → S.client.step c (S.client.input c m) = some c' → Q c' ∧ P₀ { line with down }
  meets {c c' : κ} {line : Line ω α} {m : α} {down : List α} : Q c → P₀ line → receive d line.down m = some down →
    S.settles m = true → S.client.step c (S.client.input c m) = some c' → P₁ c' { line with down }
  client {c c' : κ} {line : Line ω α} {l : ε₁} : P₁ c line → S.client.isInput l = false →
    S.client.step c l = some c' → P₁ c' (line.tell (S.client.sends l))
  deliver {c c' : κ} {line : Line ω α} {m : α} {down : List α} : P₁ c line → receive d line.down m = some down →
    S.client.step c (S.client.input c m) = some c' → P₁ c' { line with down }
  worker {c : κ} {line line' : Line ω α} {l : ε₂} : P₁ c line → line.move S.worker l = some line' → P₁ c line'
  hears {c : κ} {line line' : Line ω α} {m : α} : P₁ c line → line.hear d S.worker m = some line' → P₁ c line'
  losesDown {c : κ} {line : Line ω α} (n : ℕ) : P₁ c line → P₁ c (line.loseDown n)
  losesUp {c : κ} {line : Line ω α} (n : ℕ) : P₁ c line → P₁ c (line.loseUp n)

/-- The client has no peer yet, or it has one and is connected to it. -/
structure Inv (Q : κ → Prop) (R : α → Prop) (P₀ : Line ω α → Prop) (P₁ : κ → Line ω α → Prop) (w : World κ ω α) :
    Prop where
  requests : ∀ m ∈ w.requests, R m
  others : ∀ j line, w.lines[j]? = some line → w.addr ≠ some j → P₀ line
  peer : (w.addr = none ∧ w.connected = false ∧ Q w.client) ∨
    (w.connected = true ∧ ∃ k line, w.addr = some k ∧ w.lines[k]? = some line ∧ P₁ w.client line)

namespace Inv

variable {Q : κ → Prop} {R : α → Prop} {P₀ : Line ω α → Prop} {P₁ : κ → Line ω α → Prop} {w w' : World κ ω α}

/-- A step of one worker, whoever listens to it. -/
theorem onLine (h : Inv Q R P₀ P₁ w) {k : ℕ} {f : Line ω α → Option (Line ω α)}
    (h₀ : ∀ {line line'}, P₀ line → f line = some line' → P₀ line')
    (h₁ : ∀ {line line'}, P₁ w.client line → f line = some line' → P₁ w.client line')
    (hs : w.onLine k f = some w') : Inv Q R P₀ P₁ w' := by
  obtain ⟨line, hline, hs⟩ := Option.bind_eq_some_iff.mp hs
  obtain ⟨line', hf, rfl⟩ := Option.map_eq_some_iff.mp hs
  have hlt := (List.getElem?_eq_some_iff.mp hline).1
  refine ⟨h.requests, fun j lj hj haddr => ?_, ?_⟩
  · by_cases hjk : k = j
    · subst hjk
      rw [List.getElem?_set_self hlt] at hj
      obtain rfl := Option.some.inj hj
      exact h₀ (h.others k line hline haddr) hf
    · rw [List.getElem?_set_ne hjk] at hj
      exact h.others j lj hj haddr
  · rcases h.peer with hq | ⟨hc, i, li, haddr, hi, hp⟩
    · exact .inl hq
    · refine .inr ⟨hc, i, ?_⟩
      by_cases hik : k = i
      · subst hik
        obtain rfl := Option.some.inj (hline.symm.trans hi)
        exact ⟨line', haddr, List.getElem?_set_self hlt, h₁ hp hf⟩
      · exact ⟨li, haddr, by rw [List.getElem?_set_ne hik]; exact hi, hp⟩

variable [DecidableEq α] {d : Discipline} {S : System κ ε₁ ω ε₂ α η}

/-- The client makes a step of its own. -/
theorem client (hS : Keeps d S Q R P₀ P₁) (h : Inv Q R P₀ P₁ w) {l : ε₁}
    (hs : S.step d w (.client l) = some w') : Inv Q R P₀ P₁ w' := by
  simp only [System.step] at hs
  split_ifs at hs with hin
  rw [Bool.not_eq_true] at hin
  obtain ⟨c, hc, rfl⟩ := Option.map_eq_some_iff.mp hs
  rcases h.peer with ⟨haddr, hconn, hq⟩ | ⟨hconn, k, line, haddr, hk, hp⟩
  · obtain ⟨hq', hr⟩ := hS.asks hq hin hc
    rw [World.emit_of_none (by exact haddr)]
    refine ⟨fun m hm => ?_, h.others, .inl ⟨haddr, hconn, hq'⟩⟩
    rcases List.mem_append.mp hm with hm | hm
    · exact h.requests m hm
    · exact hr m (Option.mem_toList.mp hm)
  · rw [World.emit_of_some (by exact haddr)]
    refine ⟨h.requests, fun j lj hj hne => ?_, .inr ⟨hconn, k, _, haddr, ?_, hS.client hp hin hc⟩⟩
    · have hkj : k ≠ j := fun hkj => hne (haddr.trans (congrArg some hkj))
      dsimp only at hj
      rw [List.getElem?_modify_ne _ _ hkj] at hj
      exact h.others j lj hj hne
    · rw [List.getElem?_modify_eq, hk]
      rfl

/-- A message reaches the client. -/
theorem deliver (hS : Keeps d S Q R P₀ P₁) (h : Inv Q R P₀ P₁ w) {k : ℕ} {m : α}
    (hs : S.step d w (.deliver k true m) = some w') : Inv Q R P₀ P₁ w' := by
  simp only [System.step, Option.ite_none_left_eq_some] at hs
  obtain ⟨hother, hs⟩ := hs
  obtain ⟨line, hline, hs⟩ := Option.bind_eq_some_iff.mp hs
  obtain ⟨down, hdown, hs⟩ := Option.bind_eq_some_iff.mp hs
  obtain ⟨c, hc, rfl⟩ := Option.map_eq_some_iff.mp hs
  have hlt := (List.getElem?_eq_some_iff.mp hline).1
  -- the lines of other workers are as before
  have hothers : ∀ j lj, k ≠ j → (w.lines.set k { line with down })[j]? = some lj → w.addr ≠ some j → P₀ lj := by
    intro j lj hkj hj haddr
    rw [List.getElem?_set_ne hkj] at hj
    exact h.others j lj hj haddr
  rcases h.peer with ⟨haddr, hconn, hq⟩ | ⟨hconn, i, li, haddr, hi, hp⟩
  · have hp₀ := h.others k line hline (by simp [haddr])
    cases hset : S.settles m with
    | false =>
      obtain ⟨hq', hp₀'⟩ := hS.passes hq hp₀ hdown hset hc
      rw [if_pos (by simp)]
      refine ⟨h.requests, fun j lj hj hne => ?_, .inl ⟨haddr, hconn, hq'⟩⟩
      by_cases hkj : k = j
      · subst hkj
        rw [List.getElem?_set_self hlt] at hj
        exact Option.some.inj hj ▸ hp₀'
      · exact hothers j lj hkj hj hne
    | true =>
      rw [if_neg (by simp [hconn])]
      refine ⟨h.requests, fun j lj hj hne => ?_,
        .inr ⟨rfl, k, _, rfl, List.getElem?_set_self hlt, hS.meets hq hp₀ hdown hset hc⟩⟩
      exact hothers j lj (fun hkj => hne (congrArg some hkj)) hj (by simp [haddr])
  · obtain rfl : i = k := by simpa [hconn, haddr] using hother
    obtain rfl := Option.some.inj (hline.symm.trans hi)
    rw [if_pos (by simp [hconn])]
    refine ⟨h.requests, fun j lj hj hne => ?_,
      .inr ⟨hconn, i, _, haddr, List.getElem?_set_self hlt, hS.deliver hp hdown hc⟩⟩
    exact hothers j lj (fun hij => hne (haddr.trans (congrArg some hij))) hj hne

/-- The listener starts a worker. -/
theorem accept (hS : Keeps d S Q R P₀ P₁) (h : Inv Q R P₀ P₁ w) {m : α} {env : η}
    (hs : S.step d w (.accept m env) = some w') : Inv Q R P₀ P₁ w' := by
  obtain ⟨requests, hm, hs⟩ := Option.bind_eq_some_iff.mp hs
  obtain ⟨worker, hw, rfl⟩ := Option.map_eq_some_iff.mp hs
  have hsub := Channel.sublist_of_receive hm
  refine ⟨fun r hr => h.requests r (hsub.subset hr), fun j lj hj haddr => ?_, ?_⟩
  · rcases lt_or_ge j w.lines.length with hlt | hge
    · rw [List.getElem?_append_left hlt] at hj
      exact h.others j lj hj haddr
    · rw [List.getElem?_append_right hge] at hj
      obtain rfl := List.mem_singleton.mp (List.mem_of_getElem? hj)
      exact hS.start (h.requests m (Channel.mem_of_receive hm)) hw
  · rcases h.peer with hq | ⟨hc, k, line, haddr, hk, hp⟩
    · exact .inl hq
    · refine .inr ⟨hc, k, line, haddr, ?_, hp⟩
      rw [List.getElem?_append_left (List.getElem?_eq_some_iff.mp hk).1]
      exact hk

theorem step (hS : Keeps d S Q R P₀ P₁) (h : Inv Q R P₀ P₁ w) {l : Label ε₁ ε₂ α η} (hl : l.fails = false)
    (hs : S.step d w l = some w') : Inv Q R P₀ P₁ w' := by
  cases l with
  | client l => exact h.client hS hs
  | deliver k connects m =>
    obtain rfl : connects = true := by simpa [Label.fails] using hl
    exact h.deliver hS hs
  | worker k l => exact h.onLine hS.alone hS.worker hs
  | hear k m => exact h.onLine hS.aloneHears hS.hears hs
  | accept m env => exact h.accept hS hs
  | loseDown k n =>
    exact h.onLine (fun hp hf => Option.some.inj hf ▸ hS.aloneLosesDown n hp)
      (fun hp hf => Option.some.inj hf ▸ hS.losesDown n hp) hs
  | loseUp k n =>
    exact h.onLine (fun hp hf => Option.some.inj hf ▸ hS.aloneLosesUp n hp)
      (fun hp hf => Option.some.inj hf ▸ hS.losesUp n hp) hs
  | loseRequest n =>
    obtain rfl := Option.some.inj hs
    exact ⟨fun m hm => h.requests m ((List.eraseIdx_sublist _ _).subset hm), h.others, h.peer⟩

/-- What has been shown holds in every world that is reached without a failing `connect`. -/
theorem of_run (hS : Keeps d S Q R P₀ P₁) {c : κ} (hc : Q c) {t : List (Label ε₁ ε₂ α η)}
    (ht : ∀ l ∈ t, l.fails = false) (hrun : Transition.run (S.step d) { client := c } t = some w) :
    Inv Q R P₀ P₁ w := by
  refine Transition.Reaches.invariant (P := fun l => Label.fails l = false) (Inv Q R P₀ P₁)
    (fun w l w' h hl hs => h.step hS hl hs) ⟨t, ht, hrun⟩ ⟨?_, ?_, .inl ⟨rfl, rfl, hc⟩⟩
  · exact fun m hm => absurd hm List.not_mem_nil
  · intro j line hj
    cases hj

end Inv

end TftpHpa.Peers
