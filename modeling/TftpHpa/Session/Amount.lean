import TftpHpa.Daemon.Answer
import TftpHpa.Session.DownloadSafe
import TftpHpa.Session.Recvfile
import TftpHpa.Session.UploadSafe
import TftpHpa.Xfer.Dues

/-! How much a worker of the server sends. What it sends to a peer that does not answer, who may
never have sent the request, is little, whatever the request asks for; and each datagram it is sent
brings out at most one window, sent `TRIES` times. -/

namespace TftpHpa

open Backoff (tries)
open Transition (run)

/-- A packet that is no longer than a block of the default size, or an ERROR packet. -/
def Packet.Small (p : Packet) : Prop := p.opcode = Opcode.error.code ∨ p.length ≤ SEGSIZE + 4

/-! ### Sending -/

namespace Sendfile

variable {a : SendfileArgs} {s s' : Sendfile} {l : SendfileLabel}

/-- The tries that are left. -/
def left (a : SendfileArgs) (s : Sendfile) : ℕ := tries a.request.daemon.maxtimeout s.timeout

/-- What the worker can still send if nothing comes in. -/
def dues (a : SendfileArgs) (s : Sendfile) : ℕ :=
  match s.pc with
  | .oack _ => s.left a
  | .waiting _ => s.left a - 1
  | .start => TRIES * max 1 a.request.daemon.windowsize
  | .sending x => x.dues a.xfer TRIES (s.left a)
  | .nak _ _ => 1
  | .ended _ => 0

/-- The timer runs, and the engine has a window to send. -/
structure Orderly (a : SendfileArgs) (s : Sendfile) : Prop where
  timeout_pos : 0 < s.timeout
  engine : ∀ x, s.pc = .sending x → 1 ≤ a.request.daemon.windowsize ∧ x.Fits a.xfer

theorem one_le_left (a : SendfileArgs) (s : Sendfile) : 1 ≤ s.left a := Backoff.tries_pos _ _

/-- The reader is only started when there are windows to send. -/
theorem windowsize_of_readerStart (ha : a.request.Settled) {slots : ℕ} {io : TftpIo}
    (h : a.readerStart slots = some io) : 1 ≤ a.request.daemon.windowsize := by
  rcases ha.window with hseg | hwin
  · rw [SendfileArgs.readerStart, TftpIo.readerStart, TftpIo.ioStart, if_pos (by simp [hseg])] at h
    cases h
  · exact hwin

/-- The timer costs a try. -/
theorem left_double {d : Daemon} {timeout : ℕ} (hpos : 0 < timeout) (hlt : ¬ d.maxtimeout ≤ timeout * 2) :
    tries d.maxtimeout (timeout * 2) = tries d.maxtimeout timeout - 1 := by
  have hdouble := Backoff.tries_double hpos (Nat.lt_of_not_le hlt)
  omega

theorem left_engineTimeout {d : Daemon} (hd : d.Timed) (timeout : ℕ) (l : SendLabel) :
    tries d.maxtimeout (engineTimeout d timeout l) = l.left TRIES (tries d.maxtimeout timeout) := by
  cases l with
  | entered r =>
    cases r with
    | false => exact hd.tries_eq
    | true => rfl
  | _ => rfl

/-- A packet that is sent is paid for, and only a datagram gives the worker more to send. -/
theorem dues_step (ha : a.request.Settled) (h : Orderly a s) (hs : s.step a l = some s') : Orderly a s' ∧
    l.sends.isSome.toNat + s'.dues a ≤
      s.dues a + l.receives.toNat * (TRIES * max 1 a.request.daemon.windowsize) := by
  have hone := one_le_left a s
  obtain ⟨hpos, hengine⟩ := h
  -- a worker that ends has nothing to send any more
  have hended : ∀ {status timeout}, 0 < timeout → Orderly a ⟨.ended status, timeout⟩ ∧
      dues a ⟨.ended status, timeout⟩ ≤ s.dues a + l.receives.toNat * (TRIES * max 1 a.request.daemon.windowsize) :=
    fun hpos => ⟨⟨hpos, by simp⟩, Nat.zero_le _⟩
  cases move_of_step hs with
  | oack hpc =>
    refine ⟨⟨hpos, by simp⟩, ?_⟩
    simp only [SendfileLabel.sends, Option.isSome_some, Bool.toNat_true, dues, hpc, left] at hone ⊢
    omega
  | nak hpc => exact ⟨⟨hpos, by simp⟩, by simp [SendfileLabel.sends, dues, hpc]⟩
  | oackFailed | nakFailed | recvFailed | divides | finish => simpa [SendfileLabel.sends] using hended hpos
  | exits hmax => simpa [SendfileLabel.sends] using hended (by positivity)
  | reply p hpc =>
    unfold oackReply
    split_ifs
    · exact ⟨⟨hpos, by simp⟩, by simp [SendfileLabel.sends, dues, hpc, left]⟩
    · simpa [SendfileLabel.sends] using hended hpos
    · refine ⟨⟨hpos, by simp⟩, ?_⟩
      simp only [SendfileLabel.sends, SendfileLabel.receives, dues, Option.isSome_none, Bool.toNat_false,
        Bool.toNat_true]
      omega
    · refine ⟨⟨hpos, by simp⟩, ?_⟩
      have hbig : 1 ≤ TRIES * max 1 a.request.daemon.windowsize := Nat.mul_pos (by decide) (by omega)
      simp only [SendfileLabel.sends, SendfileLabel.receives, dues, hpc, left, Option.isSome_none, Bool.toNat_false,
        Bool.toNat_true]
      omega
    · exact ⟨⟨hpos, by simp⟩, by simp [SendfileLabel.sends, dues, hpc, left]⟩
  | start e hpc _ hio =>
    refine ⟨⟨hpos, fun x hx => ?_⟩, ?_⟩
    · cases hx
      exact ⟨windowsize_of_readerStart ha hio, trivial⟩
    · simp only [SendfileLabel.sends, dues, hpc, sendInit, SendState.dues, SendfileArgs.xfer, Option.isSome_none,
        Bool.toNat_false, Nat.zero_add]
      exact (Nat.mul_le_mul_left _ (le_max_right _ _)).trans (Nat.le_add_right _ _)
  | startFailed e error hpc =>
    have hbig : 1 ≤ TRIES * max 1 a.request.daemon.windowsize := Nat.mul_pos (by decide) (by omega)
    exact ⟨⟨hpos, by simp⟩, by simpa [SendfileLabel.sends, dues, hpc] using hbig.trans (Nat.le_add_right _ _)⟩
  | @engine l x x' hpc hl hx =>
    obtain ⟨hwin, hfits⟩ := hengine x hpc
    obtain ⟨hfits', hle⟩ := dues_sendStep (show 1 ≤ TRIES by decide) hone hwin hfits hl hx
    refine ⟨⟨?_, fun y hy => ?_⟩, ?_⟩
    · dsimp only
      unfold engineTimeout
      split
      · exact ha.timed.rexmtval_pos
      · exact hpos
    · cases hy
      exact ⟨hwin, hfits'⟩
    · have hmax : TRIES * a.request.daemon.windowsize ≤ TRIES * max 1 a.request.daemon.windowsize :=
        Nat.mul_le_mul_left _ (le_max_right _ _)
      have hgain := Nat.mul_le_mul_left l.receives.toNat hmax
      simp only [dues, hpc, left, left_engineTimeout ha.timed]
      refine (hle.trans (Nat.add_le_add_left hgain _)).trans (le_of_eq ?_)
      cases l <;> rfl
  | oackAgain hpc hmax =>
    refine ⟨⟨by positivity, by simp⟩, ?_⟩
    simp only [SendfileLabel.sends, dues, hpc, left, left_double hpos hmax, Option.isSome_none, Bool.toNat_false]
    omega
  | windowAgain hpc hx hmax =>
    obtain ⟨hwin, hfits⟩ := hengine _ hpc
    obtain ⟨hfits', hdues⟩ := dues_sendTimeout TRIES (tries a.request.daemon.maxtimeout s.timeout - 1) hfits hx
    refine ⟨⟨by positivity, fun y hy => ?_⟩, ?_⟩
    · cases hy
      exact ⟨hwin, hfits'⟩
    · rw [left] at hone
      simp only [SendfileLabel.sends, dues, hpc, left, left_double hpos hmax, hdues, Nat.sub_add_cancel hone,
        Option.isSome_none, Bool.toNat_false]
      omega
  | readError hpc hdone hread =>
    exact ⟨⟨hpos, by simp⟩, by simp [SendfileLabel.sends, dues, hpc, SendState.dues, hdone, hread]⟩

/-- The worker has not heard anything: it repeats its OACK, or the first block of the file. -/
def Hushed (a : SendfileArgs) (s : Sendfile) : Prop :=
  match a.request.oack with
  | some oack => s.pc = .oack oack ∨ s.pc = .waiting oack ∨ ∃ status, s.pc = .ended status
  | none =>
    match s.pc with
    | .oack _ | .waiting _ => False
    | .sending x => ∃ y, SendRefines a.xfer (a.file.stream a.request.format.convert) x y
    | _ => True

theorem hushed_init (a : SendfileArgs) : Hushed a a.init := by
  unfold Hushed SendfileArgs.init
  cases a.request.oack with
  | none => trivial
  | some oack => exact .inl rfl

/-- With an OACK, only the OACK goes out. -/
theorem hushed_oack (ha : a.request.Settled) {oack : Packet} (ho : a.request.oack = some oack) (h : Hushed a s)
    (hl : l.receives = false) (hs : s.step a l = some s') : Hushed a s' ∧ ∀ q, l.sends = some q → q.Small := by
  simp only [Hushed, ho] at h ⊢
  have hquiet : ∀ q, (none : Option Packet) = some q → q.Small := fun q hq => by cases hq
  -- the worker has not got any further than its OACK
  have hfar : ∀ {pc : SendfilePc}, s.pc = pc → pc = .oack oack ∨ pc = .waiting oack ∨ ∃ status, pc = .ended status := by
    rintro pc rfl
    exact h
  cases move_of_step hs with
  | oack hpc =>
    rcases hfar hpc with heq | heq | ⟨status, heq⟩ <;> cases heq
    refine ⟨.inr (.inl rfl), fun q hq => ?_⟩
    obtain rfl := Option.some.inj hq
    exact .inr ((ha.oack_le oack ho).trans (by decide))
  | reply => cases hl
  | oackFailed | recvFailed | exits => exact ⟨.inr (.inr ⟨_, rfl⟩), hquiet⟩
  | oackAgain hpc =>
    rcases hfar hpc with heq | heq | ⟨status, heq⟩ <;> cases heq
    exact ⟨.inl rfl, hquiet⟩
  | nak hpc | nakFailed hpc | divides _ hpc | start _ hpc | startFailed _ _ hpc | engine hpc | windowAgain hpc
  | readError hpc | finish hpc =>
    rcases hfar hpc with heq | heq | ⟨status, heq⟩ <;> cases heq

theorem small_blockPacket {x : Xfer} (hx : x.blocksize ≤ SEGSIZE) (xs : Bytes) (i : ℕ) :
    (blockPacket x xs i).Small := by
  right
  rw [blockPacket_length]
  have := Blocks.block_length_le x.blocksize xs (i - 1)
  omega

/-- Without, blocks of the default size. -/
theorem hushed_plain (ha : a.request.Settled) (ho : a.request.oack = none) (h : Hushed a s)
    (hs : s.step a l = some s') : Hushed a s' ∧ ∀ q, l.sends = some q → q.Small := by
  have hseg := (ha.plain ho).2
  simp only [Hushed, ho] at h ⊢
  have hquiet : ∀ q, (none : Option Packet) = some q → q.Small := fun q hq => by cases hq
  cases move_of_step hs with
  | oack hpc | reply _ hpc | recvFailed hpc | oackAgain hpc =>
    rw [hpc] at h
    exact absurd h id
  | nak =>
    refine ⟨trivial, fun q hq => ?_⟩
    obtain rfl := Option.some.inj hq
    exact .inl (opcode_nak _ _ _)
  | oackFailed | nakFailed | divides | startFailed | exits | readError | finish => exact ⟨trivial, hquiet⟩
  | start e _ _ hio => exact ⟨⟨_, sendRefines_init (x := a.xfer) (windowsize_of_readerStart ha hio) hio⟩, hquiet⟩
  | @engine l x x' hpc _ hx =>
    rw [hpc] at h
    obtain ⟨y, hy⟩ := h
    obtain ⟨y', hstep, hy'⟩ := hy.step hx
    refine ⟨⟨y', hy'⟩, fun q hq => ?_⟩
    cases l with
    | sent p =>
      obtain rfl := Option.some.inj hq
      cases Sending.move_of_step hstep with
      | sent n hn => exact small_blockPacket hseg _ _
    | _ => cases hq
  | windowAgain hpc hx =>
    rw [hpc] at h
    obtain ⟨y, hy⟩ := h
    obtain ⟨y', -, hy'⟩ := hy.step hx
    exact ⟨⟨y', hy'⟩, hquiet⟩

end Sendfile

def SendfileLabel.isSend (l : SendfileLabel) : Bool := l.sends.isSome

namespace ReadWorker

/-- The number of packets a datagram can bring out. -/
def window : ReadWorker → ℕ
  | sending a _ => max 1 a.request.daemon.windowsize
  | _ => 1

def dues : ReadWorker → ℕ
  | refusing _ => 1
  | refused => 0
  | sending a s => s.dues a

def Orderly : ReadWorker → Prop
  | sending a s => a.request.Settled ∧ s.Orderly a
  | _ => True

theorem dues_step {w w' : ReadWorker} {l : SendfileLabel} (h : w.Orderly) (hs : w.step l = some w') :
    (w'.Orderly ∧ w'.window = w.window) ∧
      l.isSend.toNat + w'.dues ≤ w.dues + l.receives.toNat * (TRIES * w.window) := by
  cases w with
  | refusing p =>
    cases l with
    | sent q =>
      simp only [step, Option.ite_none_right_eq_some, Option.some.injEq] at hs
      obtain ⟨-, rfl⟩ := hs
      exact ⟨⟨trivial, rfl⟩, by simp [SendfileLabel.isSend, SendfileLabel.sends, dues]⟩
    | sendFailed =>
      obtain rfl := Option.some.inj hs
      exact ⟨⟨trivial, rfl⟩, by simp [SendfileLabel.isSend, SendfileLabel.sends, dues]⟩
    | _ => cases hs
  | refused => cases hs
  | sending a s =>
    obtain ⟨s', hs', rfl⟩ := Option.map_eq_some_iff.mp hs
    obtain ⟨horderly, hle⟩ := Sendfile.dues_step h.1 h.2 hs'
    exact ⟨⟨⟨h.1, horderly⟩, rfl⟩, hle⟩

/-- The worker has not heard anything. -/
def Hushed : ReadWorker → Prop
  | refusing p => p.opcode = Opcode.error.code
  | refused => True
  | sending a s => a.request.Settled ∧ s.Hushed a

theorem hushed_step {w w' : ReadWorker} {l : SendfileLabel} (h : w.Hushed) (hl : l.receives = false)
    (hs : w.step l = some w') : w'.Hushed ∧ ∀ q, l.sends = some q → q.Small := by
  cases w with
  | refusing p =>
    cases l with
    | sent q =>
      simp only [step, Option.ite_none_right_eq_some, Option.some.injEq] at hs
      obtain ⟨rfl, rfl⟩ := hs
      exact ⟨trivial, fun q hq => .inl (Option.some.inj hq ▸ h)⟩
    | sendFailed =>
      obtain rfl := Option.some.inj hs
      exact ⟨trivial, fun q hq => by cases hq⟩
    | _ => cases hs
  | refused => cases hs
  | sending a s =>
    obtain ⟨s', hs', rfl⟩ := Option.map_eq_some_iff.mp hs
    cases ho : a.request.oack with
    | none =>
      obtain ⟨h', hsmall⟩ := Sendfile.hushed_plain h.1 ho h.2 hs'
      exact ⟨⟨h.1, h'⟩, hsmall⟩
    | some oack =>
      obtain ⟨h', hsmall⟩ := Sendfile.hushed_oack h.1 ho h.2 hl hs'
      exact ⟨⟨h.1, h'⟩, hsmall⟩

end ReadWorker

theorem ReadEnv.start_hushed {env : ReadEnv} {p : Packet} {w : ReadWorker} (h : env.start p = some w) : w.Hushed := by
  unfold ReadEnv.start at h
  split_ifs at h
  split at h
  · next r hr =>
    obtain rfl := Option.some.inj h
    exact ⟨tftp_settled hr, Sendfile.hushed_init _⟩
  · obtain rfl := Option.some.inj h
    exact opcode_nak _ _ _
  · cases h

/-- The worker of a request starts in order, and owes `TRIES` packets at most. -/
theorem ReadEnv.start_dues {env : ReadEnv} {p : Packet} {w : ReadWorker} (h : env.start p = some w) :
    w.Orderly ∧ w.dues ≤ TRIES := by
  unfold ReadEnv.start at h
  split_ifs at h
  split at h
  · next r hr =>
    obtain rfl := Option.some.inj h
    have hsettled := tftp_settled hr
    refine ⟨⟨hsettled, ?_, fun x hx => ?_⟩, ?_⟩
    · unfold SendfileArgs.init
      split
      · exact hsettled.timed.rexmtval_pos
      · exact hsettled.timed.timeout_eq ▸ hsettled.timed.rexmtval_pos
    · unfold SendfileArgs.init at hx
      split at hx <;> cases hx
    · simp only [ReadWorker.dues, SendfileArgs.init]
      cases ho : r.oack with
      | some oack => exact hsettled.timed.tries_eq.le
      | none =>
        have hwin : max 1 r.daemon.windowsize = 1 := max_eq_left (hsettled.plain ho).1
        simp only [Sendfile.dues, hwin]
        decide
  · obtain rfl := Option.some.inj h
    exact ⟨trivial, show 1 ≤ TRIES by decide⟩
  · cases h

/-- What a read request brings out of the server is bounded, whatever it asks for: `TRIES` packets to
a peer that does not answer, none of them longer than 516 bytes but for an ERROR packet, and for each
datagram of one that does, no more than `TRIES` windows. -/
theorem read_answer_bounded {env : ReadEnv} {p : Packet} {w w' : ReadWorker} {t : List SendfileLabel}
    (hstart : env.start p = some w) (hrun : run ReadWorker.step w t = some w') :
    t.countP SendfileLabel.isSend ≤ TRIES + t.countP SendfileLabel.receives * (TRIES * w.window) ∧
      (t.countP SendfileLabel.receives = 0 → ∀ l ∈ t, ∀ q, l.sends = some q → q.Small) := by
  obtain ⟨horderly, hdues⟩ := ReadEnv.start_dues hstart
  refine ⟨?_, fun hsilent => ?_⟩
  · have hle := Transition.run_budget (I := fun v => v.Orderly ∧ v.window = w.window) ReadWorker.dues
      SendfileLabel.isSend SendfileLabel.receives (TRIES * w.window)
      (fun v l v' h hs => by
        obtain ⟨⟨horderly', hwin'⟩, hle'⟩ := ReadWorker.dues_step h.1 hs
        exact ⟨⟨horderly', hwin'.trans h.2⟩, h.2 ▸ hle'⟩) ⟨horderly, rfl⟩ hrun
    omega
  · refine Transition.run_forall (I := ReadWorker.Hushed) (C := fun l => l.receives = false)
      (fun v l v' h hl hs => ReadWorker.hushed_step h hl hs) (ReadEnv.start_hushed hstart) (fun l hl => ?_) hrun
    simpa using List.countP_eq_zero.mp hsilent l hl

/-- Nobody answers an OACK. -/
def oackUnheard (oack : Packet) : List SendfileLabel := (List.replicate 6 [.sent oack, .timeout]).flatten

theorem read_answer_bounded_foo : ∃ w w' oack, serveFoo.start readFooBlksize = some w ∧
    run ReadWorker.step w (oackUnheard oack) = some w' ∧
    (oackUnheard oack).countP SendfileLabel.isSend ≤ TRIES ∧
    ∀ l ∈ oackUnheard oack, ∀ q, l.sends = some q → q.Small := by
  have hwhole : (serveFoo.start readFooBlksize).any (fun w => (run ReadWorker.step w (oackUnheard
      (htons Opcode.oack.code ++ cstr "BlkSize" ++ [0] ++ cstr "1024" ++ [0]))).isSome) = true := by
    decide +kernel
  obtain ⟨w, hstart, hw⟩ := (Option.any_eq_true _ _).mp hwhole
  obtain ⟨w', hrun⟩ := Option.isSome_iff_exists.mp hw
  obtain ⟨hcount, hsmall⟩ := read_answer_bounded hstart hrun
  have hsilent : (oackUnheard (htons Opcode.oack.code ++ cstr "BlkSize" ++ [0] ++ cstr "1024" ++ [0])).countP
      SendfileLabel.receives = 0 := by decide
  rw [hsilent, Nat.zero_mul] at hcount
  exact ⟨w, w', _, hstart, hrun, hcount, hsmall hsilent⟩

/-! ### Receiving -/

def RecvfileLabel.isSend (l : RecvfileLabel) : Bool := l.sends.isSome

namespace Upload

variable {b : UploadArgs} {s s' : Upload} {l : UploadLabel}

/-- The tries that are left. -/
def left (b : UploadArgs) (s : Upload) : ℕ := tries b.request.daemon.maxtimeout s.timeout

/-- What the worker can still send if nothing comes in. -/
def dues (b : UploadArgs) (s : Upload) : ℕ :=
  match s.pc with
  | .start => TRIES
  | .receiving x => x.recv.dues TRIES (s.left b)
  | _ => 0

/-- The timer runs, and so does the engine. -/
structure Orderly (s : Upload) : Prop where
  timeout_pos : 0 < s.timeout
  engine : ∀ x, s.pc = .receiving x → x.recv.Opened

theorem dues_recvInit (b : UploadArgs) (left : ℕ) : (recvInit b.xfer b.recvArgs).Opened ∧
    (recvInit b.xfer b.recvArgs).dues TRIES left ≤ TRIES := by
  unfold recvInit
  dsimp only
  split_ifs
  · exact ⟨⟨rfl, trivial⟩, (dues_recvFinish_le _ _ _ _ _ _ _).trans (by decide)⟩
  · refine ⟨⟨rfl, trivial⟩, ?_⟩
    simp only [RecvState.dues]
    split_ifs <;> decide

/-- The timer after a step of the engine or of the thread. -/
theorem moved_timeout {d : Daemon} {x : Receiving} {l : ReceivingLabel} (hs : s.moved d x l = some s') :
    (∃ e flush, l = .engine e flush ∧ e ≠ .timeout ∧
      s'.timeout = match e with
        | .entered false => d.rexmtval
        | _ => s.timeout) ∨ l = .thread ∧ s'.timeout = s.timeout := by
  cases l with
  | thread =>
    obtain rfl := Option.some.inj hs
    exact .inr ⟨rfl, rfl⟩
  | engine e flush =>
    refine .inl ⟨e, flush, rfl, ?_⟩
    cases e with
    | entered r =>
      cases r <;>
      · obtain rfl := Option.some.inj hs
        exact ⟨by simp, rfl⟩
    | timeout => cases hs
    | _ =>
      obtain rfl := Option.some.inj hs
      exact ⟨by simp, rfl⟩

theorem left_moved {d : Daemon} (hd : d.Timed) {timeout timeout' : ℕ} {e : RecvLabel}
    (h : timeout' = match e with
      | .entered false => d.rexmtval
      | _ => timeout) : tries d.maxtimeout timeout' = e.left TRIES (tries d.maxtimeout timeout) := by
  subst h
  cases e with
  | entered r =>
    cases r with
    | false => exact hd.tries_eq
    | true => rfl
  | _ => rfl

/-- A packet that is sent is paid for, and only a datagram gives the worker more to send. -/
theorem dues_step (hb : b.request.Settled) (h : s.Orderly) (hs : s.step b l = some s') : s'.Orderly ∧
    l.sends.isSome.toNat + s'.dues b ≤ s.dues b + l.receives.toNat * TRIES := by
  have hone : 1 ≤ tries b.request.daemon.maxtimeout s.timeout := Backoff.tries_pos _ _
  obtain ⟨hpos, hengine⟩ := h
  cases l with
  | start e =>
    simp only [Upload.step] at hs
    split at hs
    · next hpc =>
      split at hs
      · obtain rfl := Option.some.inj hs
        exact ⟨⟨hpos, by simp⟩, by simp [UploadLabel.sends, dues]⟩
      · split at hs
        · obtain rfl := Option.some.inj hs
          obtain ⟨hopened, hle⟩ := dues_recvInit b (left b s)
          refine ⟨⟨hpos, fun x hx => ?_⟩, ?_⟩
          · cases hx
            exact hopened
          · have hbefore : s.dues b = TRIES := by rw [dues, hpc]
            rw [hbefore]
            exact (Nat.zero_add _).trans_le (hle.trans (Nat.le_add_right _ _))
        · obtain rfl := Option.some.inj hs
          exact ⟨⟨hpos, by simp⟩, by simp [UploadLabel.sends, dues]⟩
    · cases hs
  | step l =>
    simp only [Upload.step] at hs
    split at hs
    · next x hpc =>
      obtain ⟨x', hx, hmoved⟩ := Option.bind_eq_some_iff.mp hs
      have hpc' := (moved_cases hmoved).1
      have hopened := hengine x hpc
      have hbefore : s.dues b = x.recv.dues TRIES (s.left b) := by rw [dues, hpc]
      have hafter : s'.dues b = x'.recv.dues TRIES (s'.left b) := by rw [dues, hpc']
      rw [hbefore, hafter]
      rcases moved_timeout hmoved with ⟨e, flush, rfl, hne, htimeout⟩ | ⟨rfl, htimeout⟩
      · rcases Receiving.step_recv hx with ⟨e', flush', heq, hrecv⟩ | ⟨heq, -⟩
        · cases heq
          obtain ⟨hopened', hle⟩ := dues_recvStep (show 2 ≤ TRIES by decide) hone hopened hne hrecv
          have hpos' : 0 < s'.timeout := by
            rw [htimeout]
            split
            · exact hb.timed.rexmtval_pos
            · exact hpos
          refine ⟨⟨hpos', fun y hy => ?_⟩, ?_⟩
          · cases hpc'.symm.trans hy
            exact hopened'
          · rw [left, left, left_moved hb.timed htimeout]
            refine hle.trans (le_of_eq ?_)
            cases e <;> rfl
        · cases heq
      · rcases Receiving.step_recv hx with ⟨e', flush', heq, -⟩ | ⟨-, hrecv⟩
        · cases heq
        · refine ⟨⟨htimeout ▸ hpos, fun y hy => ?_⟩, ?_⟩
          · cases hpc'.symm.trans hy
            rw [hrecv]
            exact hopened
          · rw [hrecv, left, htimeout, ← left]
            simp [UploadLabel.sends]
    · split at hs
      · obtain ⟨r, -, rfl⟩ := Option.map_eq_some_iff.mp hs
        exact ⟨⟨hpos, by simp⟩, by simp [UploadLabel.sends, dues]⟩
      · cases hs
    · cases hs
  | timeout =>
    simp only [Upload.step] at hs
    split at hs
    · next x hpc =>
      obtain ⟨x', hx, rfl⟩ := Option.map_eq_some_iff.mp hs
      have hbefore : s.dues b = x.recv.dues TRIES (s.left b) := by rw [dues, hpc]
      unfold timer
      dsimp only
      split_ifs with hmax
      · exact ⟨⟨by positivity, by simp⟩, by simp [UploadLabel.sends, dues]⟩
      · rcases Receiving.step_recv hx with ⟨e, flush, heq, hrecv⟩ | ⟨heq, -⟩
        · cases heq
          obtain ⟨hopened, hdues⟩ := dues_recvTimeout TRIES (tries b.request.daemon.maxtimeout s.timeout - 1)
            (hengine x hpc) hrecv
          refine ⟨⟨by positivity, fun y hy => ?_⟩, ?_⟩
          · cases hy
            exact hopened
          · rw [hbefore]
            simp only [UploadLabel.sends, dues, left, Sendfile.left_double hpos hmax, hdues, Nat.sub_add_cancel hone,
              Option.isSome_none, Bool.toNat_false]
            omega
        · cases heq
    · cases hs
  | spill n =>
    simp only [Upload.step] at hs
    have hsame : ∀ disk, { s with disk }.Orderly ∧ (UploadLabel.spill n).sends.isSome.toNat + dues b { s with disk } ≤
        s.dues b + (UploadLabel.spill n).receives.toNat * TRIES :=
      fun disk => ⟨⟨hpos, hengine⟩, by simp [UploadLabel.sends, dues, left]⟩
    split at hs
    · split_ifs at hs
      exact Option.some.inj hs ▸ hsame _
    · split_ifs at hs
      exact Option.some.inj hs ▸ hsame _
    · cases hs
  | stop =>
    simp only [Upload.step] at hs
    split at hs
    · obtain rfl := Option.some.inj hs
      exact ⟨⟨hpos, by simp⟩, by simp [UploadLabel.sends, dues]⟩
    · cases hs
  | close closed =>
    simp only [Upload.step] at hs
    split at hs
    · split at hs <;>
      · obtain rfl := Option.some.inj hs
        exact ⟨⟨hpos, by simp⟩, by simp [UploadLabel.sends, dues]⟩
    · cases hs
  | dally =>
    simp only [Upload.step] at hs
    split at hs
    · obtain rfl := Option.some.inj hs
      exact ⟨⟨hpos, by simp⟩, by simp [UploadLabel.sends, dues]⟩
    · cases hs

end Upload

theorem naks_of_uploadNak {strerror : ℤ → Bytes} {result : XferResult} {p : Packet}
    (h : uploadNak strerror result = some p) : result.status.naks = true := by
  unfold uploadNak at h
  unfold XferStatus.naks
  cases hst : result.status <;> simp [hst] at h ⊢

/-- Whatever the receiver sends is an ACK, or its first reply. -/
theorem sends_recvStep {x : Xfer} {a : RecvArgs} {s s' : RecvState} {l : RecvLabel} (hs : recvStep x a s l = some s')
    {q : Packet} (hq : l.sends = some q) : (∃ n, q = ackPacket n) ∨ a.initialReply = some q := by
  cases recvMove_of_step hs with
  | replied hpc =>
    obtain rfl := Option.some.inj hq
    unfold RecvState.replyPacket
    split
    · next reply hreply => exact .inr hreply
    · exact .inl ⟨_, rfl⟩
  | recovered hpc => exact .inl ⟨_, (Option.some.inj hq).symm⟩
  | acked final hpc => exact .inl ⟨_, (Option.some.inj hq).symm⟩
  | _ => cases hq

/-- All of it is short. -/
theorem Upload.small_sends {b : UploadArgs} (hb : b.request.Settled) {s s' : Upload} {l : UploadLabel}
    (hs : s.step b l = some s') {q : Packet} (hq : l.sends = some q) : q.Small := by
  cases l with
  | step l =>
    cases l with
    | thread => cases hq
    | engine e flush =>
      simp only [Upload.step] at hs
      split at hs
      · obtain ⟨x', hx, -⟩ := Option.bind_eq_some_iff.mp hs
        rcases Receiving.step_recv hx with ⟨e', flush', heq, hrecv⟩ | ⟨heq, -⟩
        · cases heq
          right
          rcases sends_recvStep hrecv hq with ⟨n, rfl⟩ | hreply
          · exact show 4 ≤ SEGSIZE + 4 by decide
          · obtain rfl := Option.some.inj hreply
            cases ho : b.request.oack with
            | none => exact show 4 ≤ SEGSIZE + 4 by decide
            | some oack => exact (hb.oack_le oack ho).trans (by decide)
        · cases heq
      · cases hs
      · cases hs
  | _ => cases hq

namespace Recvfile

variable {b : UploadArgs} {strerror : ℤ → Bytes} {w w' : Recvfile} {l : RecvfileLabel}

def dues (b : UploadArgs) : Recvfile → ℕ
  | refusing _ | telling _ _ _ | replying _ _ => 1
  | running s _ => s.dues b
  | refused | told _ _ => 0

/-- The transfer is in order as long as it runs, and ERROR packets are what they are called. -/
def Orderly (b : UploadArgs) : Recvfile → Prop
  | running s _ => b.request.Settled ∧ s.Orderly
  | replying s _ => b.request.Settled ∧ s.Orderly
  | telling s _ p => b.request.Settled ∧ s.leaving = true ∧ p.opcode = Opcode.error.code
  | told s _ => b.request.Settled ∧ s.leaving = true
  | refusing p => p.opcode = Opcode.error.code
  | refused => True

theorem orderly_ran (strerror : ℤ → Bytes) {s : Upload} (hb : b.request.Settled) (h : s.Orderly) (last : UInt16) :
    (ran strerror s last).Orderly b ∧ (ran strerror s last).dues b ≤ s.dues b := by
  unfold ran
  split
  · next result hpc =>
    split
    · next p hp =>
      refine ⟨⟨hb, by simp [Upload.leaving, hpc], opcode_uploadNak hp⟩, ?_⟩
      simp [dues, Upload.dues, hpc, RecvState.dues, naks_of_uploadNak hp]
    · exact ⟨⟨hb, h⟩, le_rfl⟩
  · exact ⟨⟨hb, h⟩, le_rfl⟩

theorem dues_dally {s s' : Upload} (hs : s.step b .dally = some s') : s'.dues b = 0 := by
  simp only [Upload.step] at hs
  split at hs
  · obtain rfl := Option.some.inj hs
    rfl
  · cases hs

/-- A packet that is sent is short and paid for, and only a datagram gives the worker more to send. -/
theorem dues_step (h : w.Orderly b) (hs : w.step b strerror l = some w') :
    (w'.Orderly b ∧ ∀ q, l.sends = some q → q.Small) ∧
      l.isSend.toNat + w'.dues b ≤ w.dues b + l.receives.toNat * TRIES := by
  have hack : ∀ n, (ackPacket n).Small := fun n => .inr (show 4 ≤ SEGSIZE + 4 by decide)
  cases move_of_step hs with
  | refused p =>
    exact ⟨⟨trivial, fun q hq => .inl (Option.some.inj hq ▸ h)⟩,
      by simp [RecvfileLabel.isSend, RecvfileLabel.sends, dues]⟩
  | refusalFailed p =>
    exact ⟨⟨trivial, fun q hq => by cases hq⟩, by simp [RecvfileLabel.isSend, RecvfileLabel.sends, dues]⟩
  | ran last hs' hstart =>
    obtain ⟨horderly, hle⟩ := Upload.dues_step h.1 h.2 hs'
    obtain ⟨horderly', hle'⟩ := orderly_ran strerror h.1 horderly last
    exact ⟨⟨horderly', fun q hq => Upload.small_sends h.1 hs' hq⟩, (Nat.add_le_add_left hle' _).trans hle⟩
  | @startFailed s s' last e status hs' hpc =>
    have hbefore : s.dues b = TRIES := by
      simp only [Upload.step] at hs'
      split at hs'
      · next hp => rw [Upload.dues, hp]
      · cases hs'
    refine ⟨⟨⟨h.1, by simp [Upload.leaving, hpc], opcode_nak _ _ _⟩, fun q hq => by cases hq⟩, ?_⟩
    simp only [RecvfileLabel.isSend, RecvfileLabel.sends, dues, hbefore]
    exact (show 1 ≤ TRIES by decide).trans (Nat.le_add_right _ _)
  | again hpc hp =>
    refine ⟨⟨h, fun q hq => by cases hq⟩, ?_⟩
    simp only [RecvfileLabel.isSend, RecvfileLabel.sends, RecvfileLabel.receives, dues, Option.isSome_none,
      Bool.toNat_false, Bool.toNat_true, Nat.zero_add, Nat.one_mul]
    exact (show 1 ≤ TRIES by decide).trans (Nat.le_add_left _ _)
  | dallied hpc hp hs' =>
    refine ⟨⟨⟨h.1, (Upload.dues_step h.1 h.2 hs').1⟩, fun q hq => by cases hq⟩, ?_⟩
    simp [RecvfileLabel.isSend, RecvfileLabel.sends, dues, dues_dally hs']
  | told s last p =>
    exact ⟨⟨⟨h.1, h.2.1⟩, fun q hq => .inl (Option.some.inj hq ▸ h.2.2)⟩,
      by simp [RecvfileLabel.isSend, RecvfileLabel.sends, dues]⟩
  | tellingFailed s last p =>
    exact ⟨⟨⟨h.1, h.2.1⟩, fun q hq => by cases hq⟩, by simp [RecvfileLabel.isSend, RecvfileLabel.sends, dues]⟩
  | waits last p hl hs' =>
    obtain ⟨hleaving, hnone⟩ := Upload.leaving_step h.2.1 hs'
    exact ⟨⟨⟨h.1, hleaving, h.2.2⟩, fun q hq => Upload.small_sends h.1 hs' hq⟩,
      by simp [RecvfileLabel.isSend, RecvfileLabel.sends, hnone, dues]⟩
  | leaves last hs' =>
    obtain ⟨hleaving, hnone⟩ := Upload.leaving_step h.2 hs'
    exact ⟨⟨⟨h.1, hleaving⟩, fun q hq => Upload.small_sends h.1 hs' hq⟩,
      by simp [RecvfileLabel.isSend, RecvfileLabel.sends, hnone, dues]⟩
  | replied last hs' =>
    refine ⟨⟨⟨h.1, (Upload.dues_step h.1 h.2 hs').1⟩, fun q hq => Option.some.inj hq ▸ hack _⟩, ?_⟩
    simp [RecvfileLabel.isSend, RecvfileLabel.sends, dues, dues_dally hs']
  | replyFailed last hs' =>
    refine ⟨⟨⟨h.1, (Upload.dues_step h.1 h.2 hs').1⟩, fun q hq => by cases hq⟩, ?_⟩
    simp [RecvfileLabel.isSend, RecvfileLabel.sends, dues, dues_dally hs']

end Recvfile

/-- The worker that is started for a write request. -/
inductive WriteEnv.Starts (env : WriteEnv) (p : Packet) (b : UploadArgs) : Recvfile → Prop where
  | accepts {r : AcceptedRequest} (hr : tftp env.config env.peer env.handlers p = .ok r)
      (hb : b = ⟨r, env.pthread, env.cancreate, env.room⟩) : Starts env p b (.running b.init 0)
  | refuses {error : ℤ} {msg : Option Bytes}
      (hr : tftp env.config env.peer env.handlers p = .error (.nak error msg)) :
    Starts env p b (.refusing (nak env.strerror error msg))

theorem WriteEnv.Starts.dues {env : WriteEnv} {p : Packet} {b : UploadArgs} {w : Recvfile} (h : env.Starts p b w) :
    w.Orderly b ∧ w.dues b ≤ TRIES := by
  cases h with
  | accepts hr hb =>
    have hsettled := tftp_settled hr
    subst hb
    have hpos := hsettled.timed.rexmtval_pos.trans_eq hsettled.timed.timeout_eq.symm
    exact ⟨⟨hsettled, hpos, fun x hx => by cases hx⟩, le_rfl⟩
  | refuses hr => exact ⟨opcode_nak _ _ _, show 1 ≤ TRIES by decide⟩

/-- What a write request brings out of the server is bounded as well: `TRIES` packets, and `TRIES` more
for each datagram, none of them longer than 516 bytes but for an ERROR packet. -/
theorem write_answer_bounded {env : WriteEnv} {p : Packet} {b : UploadArgs} {w w' : Recvfile} {t : List RecvfileLabel}
    (hstart : env.Starts p b w) (hrun : run (Recvfile.step b env.strerror) w t = some w') :
    t.countP RecvfileLabel.isSend ≤ TRIES + t.countP RecvfileLabel.receives * TRIES ∧
      ∀ l ∈ t, ∀ q, l.sends = some q → q.Small := by
  obtain ⟨horderly, hdues⟩ := hstart.dues
  constructor
  · have hle := Transition.run_budget (I := Recvfile.Orderly b) (Recvfile.dues b) RecvfileLabel.isSend
      RecvfileLabel.receives TRIES (fun v l v' h hs => ?_) horderly hrun
    · omega
    · obtain ⟨⟨h', -⟩, hpaid⟩ := Recvfile.dues_step h hs
      exact ⟨h', hpaid⟩
  · refine Transition.run_forall (I := Recvfile.Orderly b) (C := fun _ => True) (fun v l v' h _ hs => ?_) horderly
      (fun _ _ => trivial) hrun
    exact (Recvfile.dues_step h hs).1

/-- Nobody answers the ACK of a write request, and then a block comes twice. -/
def ackUnheard : List RecvfileLabel :=
  let engine (l : RecvLabel) := RecvfileLabel.run (.step (.engine l none))
  [.run (.start false), engine .reserved, engine (.entered false), engine (.sent (ackPacket 0)), .run .timeout,
    engine (.entered true), engine (.sent (ackPacket 0)), engine (.received (dataPacket 1 [65])),
    engine (.published (dataPacket 1 [65])), engine .drained, engine .finished, engine (.sent (ackPacket 1)),
    .run .stop, .run (.close true), .dally (dataPacket 1 [65]), .sent (ackPacket 1)]

theorem write_answer_bounded_foo : ∃ b w w', takeFoo.Starts putFoo.request b w ∧
    run (Recvfile.step b takeFoo.strerror) w ackUnheard = some w' ∧ ackUnheard.countP RecvfileLabel.isSend ≤ 18 ∧
    ∀ l ∈ ackUnheard, ∀ q, l.sends = some q → q.Small := by
  have hwhole : (tftp takeFoo.config takeFoo.peer takeFoo.handlers putFoo.request).toOption.any (fun r =>
      let b : UploadArgs := ⟨r, takeFoo.pthread, takeFoo.cancreate, takeFoo.room⟩
      (run (Recvfile.step b takeFoo.strerror) (.running b.init 0) ackUnheard).isSome) = true := by
    decide +kernel
  obtain ⟨r, hr, hw⟩ := (Option.any_eq_true _ _).mp hwhole
  obtain ⟨w', hrun⟩ := Option.isSome_iff_exists.mp hw
  have hok : tftp takeFoo.config takeFoo.peer takeFoo.handlers putFoo.request = .ok r := by
    cases h : tftp takeFoo.config takeFoo.peer takeFoo.handlers putFoo.request with
    | error e =>
      rw [h] at hr
      cases hr
    | ok r' =>
      rw [h] at hr
      rw [Option.some.inj hr]
  have hstart : takeFoo.Starts putFoo.request ⟨r, takeFoo.pthread, takeFoo.cancreate, takeFoo.room⟩ _ :=
    .accepts hok rfl
  obtain ⟨hcount, hsmall⟩ := write_answer_bounded hstart hrun
  exact ⟨_, _, w', hstart, hrun, hcount, hsmall⟩

end TftpHpa
