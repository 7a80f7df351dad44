import TftpHpa.Lib.Transition

/-! The listening loop of the server: `main`'s `while (1)`, `pollset_poll` and the signal
handlers, cut into the accesses to the four flags they share. A signal may be delivered
before any of these steps, also inside the handler of another signal. A handler that finds
`pollset_jmp` set leaves through `siglongjmp`, and with it go all the handlers below it on
the stack, whether or not they have stored their signal. -/

namespace TftpHpa

open Transition

inductive Signal where
  | hup
  | int
  | term
  deriving DecidableEq, Repr

instance : Fintype Signal := ⟨{.hup, .int, .term}, fun sig => by cases sig <;> decide⟩

/-- `handle_exit` and `handle_reload`. -/
inductive SignalHandler where
  | exit
  | reload
  deriving DecidableEq, Repr

/-- The handler `main` installs for a signal. -/
def Signal.handler (standalone : Bool) : Signal → SignalHandler
  | .hup => if standalone then .reload else .exit
  | .int | .term => .exit

theorem Signal.handler_eq_reload {standalone : Bool} {sig : Signal} :
    sig.handler standalone = .reload ↔ sig = .hup ∧ standalone = true := by
  cases sig <;> cases standalone <;> decide

theorem Signal.handler_ne_exit {standalone : Bool} {sig : Signal} :
    sig.handler standalone ≠ .exit ↔ sig.handler standalone = .reload := by
  cases sig.handler standalone <;> decide

/-- The steps of a handler: store the signal, and in `pollset_notify_signal` test
`pollset_jmp`, then either clear `pollset_intr` and jump or set `pollset_intr` and return. -/
inductive HandlerPc where
  | store
  | testJmp
  | clearIntr
  | jump
  | setIntr
  | ret
  deriving DecidableEq, Repr

/-- A handler on the stack. -/
structure HandlerFrame where
  sig : Signal
  pc : HandlerPc := .store
  deriving DecidableEq, Repr

/-- What `pollset_poll` returns: -1 with `EINTR`, -1 with another error, zero, or the
number of descriptors that are ready. -/
inductive PollResult where
  | interrupted
  | failed
  | timeout
  | ready
  deriving DecidableEq, Repr

/-- The steps of the loop. Those from `events` to `intrJmp` are in `pollset_poll`; `poll`
is before the call of `ppoll` and `polling` in it. -/
inductive ListenPc where
  | testExit
  | testReload
  | clearReload
  | reload
  | events
  | testIntr
  | setjmp
  | setJmp
  | testIntrAgain
  | poll
  | polling
  | clearJmp (rv : PollResult)
  | intr
  | intrJmp
  | returned (rv : PollResult)
  | request
  | exited
  deriving DecidableEq, Repr

/-- The flags, with `none` for zero, and the stack of handlers, the running one first.
`jmpbuf` says that `pollset_sigjmpbuf` was set by a call of `pollset_poll` that has not
returned. -/
structure Listen where
  pc : ListenPc := .testExit
  exitSignal : Option Signal := none
  reloadSignal : Option Signal := none
  pollsetJmp : Bool := false
  pollsetIntr : Bool := false
  jmpbuf : Bool := false
  frames : List HandlerFrame := []
  deriving DecidableEq, Repr

/-- `block` is the call of `ppoll`, `polled` its return, `reload` the rotation of the log
and the rereading of the rules, `served` the treatment of a datagram, after which the loop
goes on or ends with an error; `next` is any other step of the loop or of a handler. -/
inductive ListenLabel where
  | deliver (sig : Signal)
  | next
  | reload
  | block
  | polled (rv : PollResult)
  | served (goesOn : Bool)
  deriving DecidableEq, Repr

/-- A step of the process itself. -/
def ListenLabel.own : ListenLabel → Bool
  | .deliver _ => false
  | _ => true

namespace Listen

/-- A step of the running handler `f`, with `fs` the handlers below it. A jump through a
buffer that is gone has no meaning. -/
def handlerStep (standalone : Bool) (s : Listen) (f : HandlerFrame) (fs : List HandlerFrame) : Option Listen :=
  match f.pc with
  | .store =>
    match f.sig.handler standalone with
    | .exit => some { s with exitSignal := some f.sig, frames := { f with pc := .testJmp } :: fs }
    | .reload => some { s with reloadSignal := some f.sig, frames := { f with pc := .testJmp } :: fs }
  | .testJmp =>
    if s.pollsetJmp then some { s with frames := { f with pc := .clearIntr } :: fs }
    else some { s with frames := { f with pc := .setIntr } :: fs }
  | .clearIntr => some { s with pollsetIntr := false, frames := { f with pc := .jump } :: fs }
  | .jump => if s.jmpbuf then some { s with pc := .intr, frames := [] } else none
  | .setIntr => some { s with pollsetIntr := true, frames := { f with pc := .ret } :: fs }
  | .ret => some { s with frames := fs }

/-- The steps of the loop and of `pollset_poll` that only touch the flags. -/
def mainNext (s : Listen) : Option Listen :=
  match s.pc with
  | .testExit => if s.exitSignal.isSome then some { s with pc := .exited } else some { s with pc := .testReload }
  | .testReload => if s.reloadSignal.isSome then some { s with pc := .clearReload } else some { s with pc := .events }
  | .clearReload => some { s with reloadSignal := none, pc := .reload }
  | .events => some { s with pc := .testIntr }
  | .testIntr => if s.pollsetIntr then some { s with pc := .intr } else some { s with pc := .setjmp }
  | .setjmp => some { s with jmpbuf := true, pc := .setJmp }
  | .setJmp => some { s with pollsetJmp := true, pc := .testIntrAgain }
  | .testIntrAgain => if s.pollsetIntr then some { s with pc := .intr } else some { s with pc := .poll }
  | .clearJmp rv => some { s with pollsetJmp := false, pc := .returned rv }
  | .intr => some { s with pollsetIntr := false, pc := .intrJmp }
  | .intrJmp => some { s with pollsetJmp := false, pc := .returned .interrupted }
  | .returned .interrupted => some { s with jmpbuf := false, pc := .testExit }
  | .returned .failed | .returned .timeout => some { s with jmpbuf := false, pc := .exited }
  | .returned .ready => some { s with jmpbuf := false, pc := .request }
  | .reload | .poll | .polling | .request | .exited => none

/-- A step of the loop, with no handler running. -/
def mainStep (s : Listen) : ListenLabel → Option Listen
  | .deliver _ => none
  | .next => s.mainNext
  | .reload => if s.pc = .reload then some { s with pc := .events } else none
  | .block => if s.pc = .poll then some { s with pc := .polling } else none
  | .polled rv => if s.pc = .polling then some { s with pc := .clearJmp rv } else none
  | .served goesOn =>
    if s.pc = .request then
      if goesOn then some { s with pc := .testExit } else some { s with pc := .exited }
    else none

/-- `tftp_signal` installs the handlers with an empty mask, so that only the signal itself
is blocked while its handler runs. -/
def step (standalone : Bool) (s : Listen) : ListenLabel → Option Listen
  | .deliver sig =>
    if s.pc = .exited ∨ sig ∈ s.frames.map HandlerFrame.sig then none
    else some { s with frames := { sig := sig } :: s.frames }
  | l =>
    match s.frames with
    | [] => s.mainStep l
    | f :: fs => if l = .next then handlerStep standalone s f fs else none

/-- What a step of the loop can be. -/
inductive MainSteps (s : Listen) : ListenLabel → Listen → Prop where
  | exit (hpc : s.pc = .testExit) (h : s.exitSignal.isSome) : MainSteps s .next { s with pc := .exited }
  | stay (hpc : s.pc = .testExit) (h : s.exitSignal = none) : MainSteps s .next { s with pc := .testReload }
  | stale (hpc : s.pc = .testReload) (h : s.reloadSignal.isSome) : MainSteps s .next { s with pc := .clearReload }
  | fresh (hpc : s.pc = .testReload) (h : s.reloadSignal = none) : MainSteps s .next { s with pc := .events }
  | clearReload (hpc : s.pc = .clearReload) : MainSteps s .next { s with reloadSignal := none, pc := .reload }
  | reload (hpc : s.pc = .reload) : MainSteps s .reload { s with pc := .events }
  | events (hpc : s.pc = .events) : MainSteps s .next { s with pc := .testIntr }
  | intr (hpc : s.pc = .testIntr ∨ s.pc = .testIntrAgain) (h : s.pollsetIntr = true) :
    MainSteps s .next { s with pc := .intr }
  | quiet (hpc : s.pc = .testIntr) (h : s.pollsetIntr = false) : MainSteps s .next { s with pc := .setjmp }
  | setjmp (hpc : s.pc = .setjmp) : MainSteps s .next { s with jmpbuf := true, pc := .setJmp }
  | setJmp (hpc : s.pc = .setJmp) : MainSteps s .next { s with pollsetJmp := true, pc := .testIntrAgain }
  | quietAgain (hpc : s.pc = .testIntrAgain) (h : s.pollsetIntr = false) : MainSteps s .next { s with pc := .poll }
  | block (hpc : s.pc = .poll) : MainSteps s .block { s with pc := .polling }
  | polled {rv : PollResult} (hpc : s.pc = .polling) : MainSteps s (.polled rv) { s with pc := .clearJmp rv }
  | clearJmp {rv : PollResult} (hpc : s.pc = .clearJmp rv) :
    MainSteps s .next { s with pollsetJmp := false, pc := .returned rv }
  | clearIntr (hpc : s.pc = .intr) : MainSteps s .next { s with pollsetIntr := false, pc := .intrJmp }
  | intrJmp (hpc : s.pc = .intrJmp) : MainSteps s .next { s with pollsetJmp := false, pc := .returned .interrupted }
  | again (hpc : s.pc = .returned .interrupted) : MainSteps s .next { s with jmpbuf := false, pc := .testExit }
  | leave {rv : PollResult} (hpc : s.pc = .returned rv) : MainSteps s .next { s with jmpbuf := false, pc := .exited }
  | ready (hpc : s.pc = .returned .ready) : MainSteps s .next { s with jmpbuf := false, pc := .request }
  | served {goesOn : Bool} (hpc : s.pc = .request) : MainSteps s (.served goesOn) { s with pc := .testExit }
  | fatal {goesOn : Bool} (hpc : s.pc = .request) : MainSteps s (.served goesOn) { s with pc := .exited }

theorem MainSteps.of_mainNext {s s' : Listen} (h : s.mainNext = some s') : MainSteps s .next s' := by
  unfold mainNext at h
  split at h
  next hpc =>
    split at h <;> cases h
    · next he => exact .exit hpc he
    · next he => exact .stay hpc (Option.not_isSome_iff_eq_none.mp he)
  next hpc =>
    split at h <;> cases h
    · next hr => exact .stale hpc hr
    · next hr => exact .fresh hpc (Option.not_isSome_iff_eq_none.mp hr)
  next hpc => cases h; exact .clearReload hpc
  next hpc => cases h; exact .events hpc
  next hpc =>
    split at h <;> cases h
    · next hi => exact .intr (.inl hpc) hi
    · next hi => exact .quiet hpc (Bool.eq_false_iff.mpr hi)
  next hpc => cases h; exact .setjmp hpc
  next hpc => cases h; exact .setJmp hpc
  next hpc =>
    split at h <;> cases h
    · next hi => exact .intr (.inr hpc) hi
    · next hi => exact .quietAgain hpc (Bool.eq_false_iff.mpr hi)
  next hpc => cases h; exact .clearJmp hpc
  next hpc => cases h; exact .clearIntr hpc
  next hpc => cases h; exact .intrJmp hpc
  next hpc => cases h; exact .again hpc
  next hpc => cases h; exact .leave hpc
  next hpc => cases h; exact .leave hpc
  next hpc => cases h; exact .ready hpc
  all_goals cases h

theorem MainSteps.of_mainStep {s s' : Listen} {l : ListenLabel} (h : s.mainStep l = some s') :
    MainSteps s l s' := by
  cases l with
  | deliver sig => cases h
  | next => exact .of_mainNext h
  | reload | block | polled =>
    simp only [mainStep, Option.ite_none_right_eq_some, Option.some.injEq] at h
    obtain ⟨hpc, rfl⟩ := h
    constructor
    exact hpc
  | served goesOn =>
    simp only [mainStep, Option.ite_none_right_eq_some] at h
    obtain ⟨hpc, h⟩ := h
    split at h <;> cases h
    · exact .served hpc
    · exact .fatal hpc

/-- What a step of the running handler can be. -/
inductive HandlerSteps (standalone : Bool) (s : Listen) : HandlerFrame → List HandlerFrame → Listen → Prop where
  | exit {sig : Signal} {fs : List HandlerFrame} (h : sig.handler standalone = .exit) :
    HandlerSteps standalone s ⟨sig, .store⟩ fs
      { s with exitSignal := some sig, frames := ⟨sig, .testJmp⟩ :: fs }
  | reload {sig : Signal} {fs : List HandlerFrame} (h : sig.handler standalone = .reload) :
    HandlerSteps standalone s ⟨sig, .store⟩ fs
      { s with reloadSignal := some sig, frames := ⟨sig, .testJmp⟩ :: fs }
  | jumps {sig : Signal} {fs : List HandlerFrame} (h : s.pollsetJmp = true) :
    HandlerSteps standalone s ⟨sig, .testJmp⟩ fs { s with frames := ⟨sig, .clearIntr⟩ :: fs }
  | stays {sig : Signal} {fs : List HandlerFrame} (h : s.pollsetJmp = false) :
    HandlerSteps standalone s ⟨sig, .testJmp⟩ fs { s with frames := ⟨sig, .setIntr⟩ :: fs }
  | clearIntr {sig : Signal} {fs : List HandlerFrame} :
    HandlerSteps standalone s ⟨sig, .clearIntr⟩ fs { s with pollsetIntr := false, frames := ⟨sig, .jump⟩ :: fs }
  | jump {sig : Signal} {fs : List HandlerFrame} (h : s.jmpbuf = true) :
    HandlerSteps standalone s ⟨sig, .jump⟩ fs { s with pc := .intr, frames := [] }
  | setIntr {sig : Signal} {fs : List HandlerFrame} :
    HandlerSteps standalone s ⟨sig, .setIntr⟩ fs { s with pollsetIntr := true, frames := ⟨sig, .ret⟩ :: fs }
  | ret {sig : Signal} {fs : List HandlerFrame} : HandlerSteps standalone s ⟨sig, .ret⟩ fs { s with frames := fs }

theorem HandlerSteps.of_handlerStep {standalone : Bool} {s s' : Listen} {f : HandlerFrame}
    {fs : List HandlerFrame} (h : handlerStep standalone s f fs = some s') : HandlerSteps standalone s f fs s' := by
  obtain ⟨sig, pc⟩ := f
  cases pc with
  | store =>
    simp only [handlerStep] at h
    split at h <;> cases h
    · next he => exact .exit he
    · next hr => exact .reload hr
  | testJmp =>
    simp only [handlerStep] at h
    split at h <;> cases h
    · next hj => exact .jumps hj
    · next hj => exact .stays (Bool.eq_false_iff.mpr hj)
  | clearIntr => cases h; exact .clearIntr
  | jump =>
    simp only [handlerStep, Option.ite_none_right_eq_some, Option.some.injEq] at h
    obtain ⟨hbuf, rfl⟩ := h
    exact .jump hbuf
  | setIntr => cases h; exact .setIntr
  | ret => cases h; exact .ret

/-- What a step can be. -/
inductive Steps (standalone : Bool) (s : Listen) : ListenLabel → Listen → Prop where
  | deliver {sig : Signal} (hpc : s.pc ≠ .exited) (hsig : sig ∉ s.frames.map HandlerFrame.sig) :
    Steps standalone s (.deliver sig) { s with frames := { sig := sig } :: s.frames }
  | handler {f : HandlerFrame} {fs : List HandlerFrame} {s' : Listen} (hf : s.frames = f :: fs)
    (h : HandlerSteps standalone s f fs s') : Steps standalone s .next s'
  | main {l : ListenLabel} {s' : Listen} (hf : s.frames = []) (h : MainSteps s l s') : Steps standalone s l s'

theorem Steps.of_step {standalone : Bool} {s s' : Listen} {l : ListenLabel}
    (h : step standalone s l = some s') : Steps standalone s l s' := by
  have hown (hl : l ≠ .next) (h : (match s.frames with
      | [] => s.mainStep l
      | f :: fs => if l = .next then handlerStep standalone s f fs else none) = some s') :
      Steps standalone s l s' := by
    split at h
    · next hf => exact .main hf (.of_mainStep h)
    · rw [if_neg hl] at h
      cases h
  cases l with
  | deliver sig =>
    simp only [step, Option.ite_none_left_eq_some, not_or, Option.some.injEq] at h
    obtain ⟨⟨hpc, hsig⟩, rfl⟩ := h
    exact .deliver hpc hsig
  | next =>
    simp only [step] at h
    split at h
    · next hf => exact .main hf (.of_mainStep h)
    · next f fs hf =>
      rw [if_pos trivial] at h
      exact .handler hf (.of_handlerStep h)
  | reload => exact hown nofun h
  | block => exact hown nofun h
  | polled rv => exact hown nofun h
  | served goesOn => exact hown nofun h

end Listen

end TftpHpa
