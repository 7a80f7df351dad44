import TftpHpa.Daemon.Listen

/-! What becomes of a signal the listening loop is sent. Once a handler has stored its
signal and is past `pollset_notify_signal`, the loop cannot call `ppoll` before it has
tested the flags again. What can still be lost is a signal whose handler has not stored it:
a jump out of another handler takes that one off the stack too. -/

namespace TftpHpa

open Transition

/-! ### Where the flags stand -/

/-- `pollset_jmp` is set only while the jump buffer is good. -/
def ListenPc.Phase (pollsetJmp jmpbuf : Bool) : ListenPc → Prop
  | .setJmp => pollsetJmp = false ∧ jmpbuf = true
  | .testIntrAgain | .poll | .polling | .clearJmp _ => pollsetJmp = true ∧ jmpbuf = true
  | .intr | .intrJmp => pollsetJmp = true → jmpbuf = true
  | _ => pollsetJmp = false

/-- From here the loop comes to its test of `exit_signal`, or ends, before it polls. -/
def ListenPc.returning : ListenPc → Bool
  | .testExit | .clearJmp _ | .intr | .intrJmp | .returned _ | .request | .exited => true
  | _ => false

/-- From here the loop tests `pollset_intr` before it polls. -/
def ListenPc.approaching : ListenPc → Bool
  | .testReload | .clearReload | .reload | .events | .testIntr | .setjmp | .setJmp | .testIntrAgain => true
  | _ => false

/-- The handler is in `pollset_notify_signal` and has not had its effect yet. -/
def HandlerPc.notifies : HandlerPc → Bool
  | .testJmp | .clearIntr | .jump | .setIntr => true
  | .store | .ret => false

namespace Listen

/-- The loop will not poll before it has been at its test of `exit_signal`. -/
def Heard (s : Listen) : Prop :=
  s.pc.returning = true ∨ (∃ f ∈ s.frames, f.pc.notifies = true) ∨
    (s.pollsetIntr = true ∧ s.pc.approaching = true)

/-- A handler past its store has stored, and the branch it took in `pollset_notify_signal`
is still the right one: the loop does not move while a handler runs. -/
def Stage (standalone : Bool) (s : Listen) (f : HandlerFrame) : Prop :=
  (f.pc ≠ .store → f.sig.handler standalone = .exit → s.exitSignal.isSome) ∧
    match f.pc with
    | .clearIntr | .jump => s.pollsetJmp = true
    | .setIntr => s.pollsetJmp = false
    | .store | .testJmp | .ret => True

structure Inv (standalone : Bool) (s : Listen) : Prop where
  phase : s.pc.Phase s.pollsetJmp s.jmpbuf
  stage : ∀ f ∈ s.frames, s.Stage standalone f
  nodup : (s.frames.map HandlerFrame.sig).Nodup
  exit_heard : s.exitSignal.isSome → s.Heard
  reload_heard : s.reloadSignal.isSome → s.Heard ∨ s.pc = .testReload ∨ s.pc = .clearReload

variable {standalone : Bool} {s s' : Listen} {l : ListenLabel} {f : HandlerFrame} {fs : List HandlerFrame}

theorem Inv.init : Inv standalone {} where
  phase := rfl
  stage := nofun
  nodup := .nil
  exit_heard := nofun
  reload_heard := nofun

theorem Heard.mono (h : s.Heard) (hpc : s'.pc = s.pc) (hintr : s'.pollsetIntr = s.pollsetIntr)
    (hframes : ∀ f ∈ s.frames, f.pc.notifies = true → f ∈ s'.frames) : s'.Heard := by
  rcases h with h | ⟨f, hf, hn⟩ | h
  · exact .inl (hpc ▸ h)
  · exact .inr (.inl ⟨f, hframes f hf hn, hn⟩)
  · exact .inr (.inr (hpc ▸ hintr ▸ h))

theorem Stage.mono (h : s.Stage standalone f) (hexit : s.exitSignal.isSome → s'.exitSignal.isSome)
    (hjmp : s'.pollsetJmp = s.pollsetJmp) : s'.Stage standalone f := by
  refine ⟨fun hpc he => hexit (h.1 hpc he), ?_⟩
  rw [hjmp]
  exact h.2

/-- A handler that is not just returning makes itself heard. -/
theorem Inv.heard_of_handlerSteps (hinv : Inv standalone s) (hf : s.frames = f :: fs) (hpc : f.pc ≠ .ret)
    (h : HandlerSteps standalone s f fs s') : s'.Heard := by
  cases h with
  | jump => exact .inl rfl
  | setIntr =>
    have hjmp : s.pollsetJmp = false := (hinv.stage _ (hf ▸ List.mem_cons_self)).2
    have hphase := hinv.phase
    unfold Heard
    cases hp : s.pc <;> simp_all [ListenPc.Phase, ListenPc.returning, ListenPc.approaching]
  | ret => exact absurd rfl hpc
  | _ => exact .inr (.inl ⟨_, List.mem_cons_self, rfl⟩)

/-- Nothing but the test of `exit_signal` itself ends that. -/
theorem Heard.mainSteps (hs : s.Heard) (hf : s.frames = []) (h : MainSteps s l s') :
    s'.Heard ∨ (s.exitSignal = none ∧ s'.pc = .testReload) := by
  unfold Heard at *
  simp only [hf, List.not_mem_nil, false_and, exists_false, false_or] at hs ⊢
  cases h with
  | stay hpc h => exact .inr ⟨h, rfl⟩
  | intr => exact .inl (.inl rfl)
  | _ hpc => simp_all [ListenPc.returning, ListenPc.approaching]

theorem MainSteps.phase (h : MainSteps s l s') (hs : s.pc.Phase s.pollsetJmp s.jmpbuf) :
    s'.pc.Phase s'.pollsetJmp s'.jmpbuf := by
  cases h with
  | intr hpc h => rcases hpc with hpc | hpc <;> simp_all [ListenPc.Phase]
  | _ hpc => simp_all [ListenPc.Phase]

/-- The loop never touches the stack and leaves `exit_signal` alone. -/
theorem MainSteps.frames (h : MainSteps s l s') : s'.frames = s.frames := by cases h <;> rfl

theorem MainSteps.exitSignal (h : MainSteps s l s') : s'.exitSignal = s.exitSignal := by cases h <;> rfl

/-- While a handler runs `pollset_jmp` and the buffer stay as they are, and no handler
takes back `exit_signal`. -/
theorem HandlerSteps.pollsetJmp (h : HandlerSteps standalone s f fs s') : s'.pollsetJmp = s.pollsetJmp := by
  cases h <;> rfl

theorem HandlerSteps.exitSignal (h : HandlerSteps standalone s f fs s') (hs : s.exitSignal.isSome) :
    s'.exitSignal.isSome := by
  cases h <;> first | rfl | exact hs

theorem HandlerSteps.phase (h : HandlerSteps standalone s f fs s') (hs : s.pc.Phase s.pollsetJmp s.jmpbuf) :
    s'.pc.Phase s'.pollsetJmp s'.jmpbuf := by
  cases h with
  | jump hbuf => exact fun _ => hbuf
  | _ => exact hs

/-- A jump empties the stack, a return takes the running handler off, and every other step
moves it on. -/
theorem HandlerSteps.frames (h : HandlerSteps standalone s f fs s') :
    (f.pc = .jump ∧ s'.frames = []) ∨ s'.frames = fs ∨ ∃ pc, s'.frames = ⟨f.sig, pc⟩ :: fs := by
  cases h with
  | jump => exact .inl ⟨rfl, rfl⟩
  | ret => exact .inr (.inl rfl)
  | _ => exact .inr (.inr ⟨_, rfl⟩)

theorem HandlerSteps.sig_sublist (h : HandlerSteps standalone s f fs s') :
    (s'.frames.map HandlerFrame.sig).Sublist ((f :: fs).map HandlerFrame.sig) := by
  rcases h.frames with ⟨-, hs'⟩ | hs' | ⟨pc, hs'⟩ <;> rw [hs']
  · exact List.nil_sublist _
  · exact List.sublist_cons_self _ _
  · exact List.Sublist.refl _

theorem HandlerSteps.mem_frames {g : HandlerFrame} (h : HandlerSteps standalone s f fs s') (hg : g ∈ fs) :
    f.pc = .jump ∨ g ∈ s'.frames := by
  rcases h.frames with ⟨hj, -⟩ | hs' | ⟨pc, hs'⟩
  · exact .inl hj
  · exact .inr (hs' ▸ hg)
  · exact .inr (hs' ▸ List.mem_cons_of_mem _ hg)

theorem HandlerSteps.stage (h : HandlerSteps standalone s f fs s') (hs : ∀ g ∈ f :: fs, s.Stage standalone g) :
    ∀ g ∈ s'.frames, s'.Stage standalone g := by
  have hbelow : ∀ g ∈ fs, s'.Stage standalone g := fun g hg =>
    (hs g (List.mem_cons_of_mem f hg)).mono h.exitSignal h.pollsetJmp
  have htop := hs f List.mem_cons_self
  cases h with
  | exit => exact List.forall_mem_cons.mpr ⟨⟨fun _ _ => rfl, trivial⟩, hbelow⟩
  | reload hr => exact List.forall_mem_cons.mpr ⟨⟨fun _ he => (nomatch hr.symm.trans he), trivial⟩, hbelow⟩
  | jumps hj => exact List.forall_mem_cons.mpr ⟨⟨fun _ => htop.1 nofun, hj⟩, hbelow⟩
  | stays hj => exact List.forall_mem_cons.mpr ⟨⟨fun _ => htop.1 nofun, hj⟩, hbelow⟩
  | clearIntr => exact List.forall_mem_cons.mpr ⟨⟨fun _ => htop.1 nofun, htop.2⟩, hbelow⟩
  | jump => exact nofun
  | setIntr => exact List.forall_mem_cons.mpr ⟨⟨fun _ => htop.1 nofun, trivial⟩, hbelow⟩
  | ret => exact hbelow

theorem Inv.handlerSteps (hinv : Inv standalone s) (hf : s.frames = f :: fs)
    (h : HandlerSteps standalone s f fs s') : Inv standalone s' := by
  have hstage := h.stage (hf ▸ hinv.stage)
  have hnodup := (hf ▸ hinv.nodup : ((f :: fs).map HandlerFrame.sig).Nodup).sublist h.sig_sublist
  by_cases hpc : f.pc = .ret
  · have hkeep (hs : s.Heard) (hs' : s' = { s with frames := fs }) : s'.Heard := by
      refine hs.mono (by rw [hs']) (by rw [hs']) fun g hg hn => ?_
      rw [hf, List.mem_cons] at hg
      rcases hg with rfl | hg
      · rw [hpc] at hn
        cases hn
      · rwa [hs']
    cases h with
    | ret =>
      exact ⟨hinv.phase, hstage, hnodup, fun he => hkeep (hinv.exit_heard he) rfl,
        fun hr => (hinv.reload_heard hr).imp_left fun hs => hkeep hs rfl⟩
    | _ => cases hpc
  · have hheard := hinv.heard_of_handlerSteps hf hpc h
    exact ⟨h.phase hinv.phase, hstage, hnodup, fun _ => hheard, fun _ => .inl hheard⟩

theorem Inv.mainSteps (hinv : Inv standalone s) (hf : s.frames = []) (h : MainSteps s l s') :
    Inv standalone s' := by
  have hf' : s'.frames = [] := h.frames.trans hf
  refine ⟨h.phase hinv.phase, by simp [hf'], by simp [hf'], fun he => ?_, fun hr => ?_⟩
  · rw [h.exitSignal] at he
    refine ((hinv.exit_heard he).mainSteps hf h).resolve_right fun hs => ?_
    rw [hs.1] at he
    cases he
  · have hs : s.reloadSignal.isSome := by
      cases h with
      | clearReload => cases hr
      | _ => exact hr
    rcases hinv.reload_heard hs with hs' | hpc | hpc
    · rcases hs'.mainSteps hf h with hh | ⟨-, hpc⟩
      · exact .inl hh
      · exact .inr (.inl hpc)
    · cases h with
      | stale => exact .inr (.inr rfl)
      | fresh hpc hnone => simp [hnone] at hs
      | _ => simp_all
    · cases h with
      | clearReload => cases hr
      | _ => simp_all

theorem Inv.deliver {sig : Signal} (hinv : Inv standalone s) (hsig : sig ∉ s.frames.map HandlerFrame.sig) :
    Inv standalone { s with frames := { sig := sig } :: s.frames } where
  phase := hinv.phase
  stage := List.forall_mem_cons.mpr ⟨⟨fun h => absurd rfl h, trivial⟩, hinv.stage⟩
  nodup := List.nodup_cons.mpr ⟨hsig, hinv.nodup⟩
  exit_heard h := (hinv.exit_heard h).mono rfl rfl fun _ hg _ => List.mem_cons_of_mem _ hg
  reload_heard h := (hinv.reload_heard h).imp_left fun hs =>
    hs.mono rfl rfl fun _ hg _ => List.mem_cons_of_mem _ hg

theorem Inv.step (hinv : Inv standalone s) (h : Listen.step standalone s l = some s') : Inv standalone s' := by
  cases Steps.of_step h with
  | deliver _ hsig => exact hinv.deliver hsig
  | handler hf h => exact hinv.handlerSteps hf h
  | main hf h => exact hinv.mainSteps hf h

theorem Inv.of_run {t : List ListenLabel} (h : run (Listen.step standalone) {} t = some s) : Inv standalone s :=
  run_invariant (fun _ s => Inv standalone s) .init (fun _ _ _ _ hinv hs => hinv.step hs) h

/-- The call of `ppoll` finds neither flag set. -/
theorem Inv.block (hinv : Inv standalone s) (h : Listen.step standalone s .block = some s') :
    s.frames = [] ∧ s.pc = .poll ∧ s.exitSignal = none ∧ s.reloadSignal = none := by
  cases Steps.of_step h with
  | main hf h =>
    cases h with
    | block hpc =>
      have hdeaf : ¬ s.Heard := by
        rintro (h | ⟨f, h, -⟩ | ⟨-, h⟩)
        · rw [hpc] at h
          cases h
        · rw [hf] at h
          cases h
        · rw [hpc] at h
          cases h
      refine ⟨hf, hpc, Option.not_isSome_iff_eq_none.mp (mt hinv.exit_heard hdeaf),
        Option.not_isSome_iff_eq_none.mp (mt hinv.reload_heard ?_)⟩
      simp [hdeaf, hpc]

/-- A handler that is about to jump has found the loop in `pollset_poll`. -/
theorem Inv.jumping (hinv : Inv standalone s) (hf : s.frames = f :: fs) (hpc : f.pc = .jump) :
    s.pollsetJmp = true ∧ s.pc.Phase true s.jmpbuf := by
  have hstage := (hinv.stage f (hf ▸ List.mem_cons_self)).2
  have hjmp : s.pollsetJmp = true := by rwa [hpc] at hstage
  exact ⟨hjmp, hjmp ▸ hinv.phase⟩

/-- Elsewhere a handler leaves the loop where it is. -/
theorem Inv.pc_of_handlerSteps (hinv : Inv standalone s) (hf : s.frames = f :: fs)
    (h : HandlerSteps standalone s f fs s') (hpc : ¬ s.pc.Phase true s.jmpbuf) : s'.pc = s.pc := by
  cases h with
  | jump => exact absurd (hinv.jumping hf rfl).2 hpc
  | _ => rfl

/-! ### A reload is not lost -/

/-- A SIGHUP has been delivered that no reload has answered, or an exit is under way. -/
inductive ReloadOwed (s : Listen) : Prop where
  | exit (h : s.exitSignal.isSome)
  | flag (h : s.reloadSignal.isSome)
  | clearReload (h : s.pc = .clearReload)
  | reload (h : s.pc = .reload)
  | handler (h : ⟨.hup, .store⟩ ∈ s.frames)

theorem ReloadOwed.handlerSteps (ho : s.ReloadOwed) (hinv : Inv true s) (hf : s.frames = f :: fs)
    (h : HandlerSteps true s f fs s') : s'.ReloadOwed := by
  cases ho with
  | exit he => exact .exit (h.exitSignal he)
  | flag hr =>
    refine .flag ?_
    cases h <;> first | rfl | exact hr
  | clearReload hpc => exact .clearReload ((hinv.pc_of_handlerSteps hf h (by simp [hpc, ListenPc.Phase])).trans hpc)
  | reload hpc => exact .reload ((hinv.pc_of_handlerSteps hf h (by simp [hpc, ListenPc.Phase])).trans hpc)
  | handler hg =>
    rw [hf] at hg
    rcases List.mem_cons.mp hg with rfl | hg
    · cases h with
      | exit => exact .exit rfl
      | reload => exact .flag rfl
    · rcases h.mem_frames hg with hjump | hmem
      · -- The jumping handler is another signal's, and all the others have `handle_exit`.
        have hne : f.sig ≠ .hup := by
          intro hsig
          have hnodup := hf ▸ hinv.nodup
          exact (List.nodup_cons.mp hnodup).1 (List.mem_map.mpr ⟨_, hg, hsig.symm⟩)
        have hexit : f.sig.handler true = .exit := by
          cases hs : f.sig with
          | hup => exact absurd hs hne
          | int | term => rfl
        exact .exit (h.exitSignal ((hinv.stage f (hf ▸ List.mem_cons_self)).1 (by simp [hjump]) hexit))
      · exact .handler hmem

theorem ReloadOwed.mainSteps (ho : s.ReloadOwed) (hf : s.frames = []) (h : MainSteps s l s') (hl : l ≠ .reload) :
    s'.ReloadOwed := by
  cases ho with
  | exit he => exact .exit (h.exitSignal ▸ he)
  | flag hr =>
    cases h with
    | clearReload => exact .reload rfl
    | _ => exact .flag hr
  | clearReload hpc =>
    cases h with
    | clearReload => exact .reload rfl
    | _ => simp_all
  | reload hpc =>
    cases h with
    | reload => exact absurd rfl hl
    | _ => simp_all
  | handler hg =>
    rw [hf] at hg
    cases hg

theorem ReloadOwed.step (ho : s.ReloadOwed) (hinv : Inv true s) (hl : l ≠ .reload)
    (h : Listen.step true s l = some s') : s'.ReloadOwed := by
  cases Steps.of_step h with
  | deliver =>
    cases ho with
    | exit he => exact .exit he
    | flag hr => exact .flag hr
    | clearReload hpc => exact .clearReload hpc
    | reload hpc => exact .reload hpc
    | handler hg => exact .handler (List.mem_cons_of_mem _ hg)
  | handler hf h => exact ho.handlerSteps hinv hf h
  | main hf h => exact ho.mainSteps hf h hl

/-- The state after a delivery: its handler is on top of the stack. -/
theorem deliver_eq {sig : Signal} (h : Listen.step standalone s (.deliver sig) = some s') :
    s' = { s with frames := { sig := sig } :: s.frames } := by
  cases Steps.of_step h with
  | deliver => rfl
  | main hf h => cases h

/-- In standalone mode the loop reloads between the delivery of SIGHUP and its next call
of `ppoll`. -/
theorem reload_of_hup {t₁ t₂ t₃ : List ListenLabel}
    (hrun : run (Listen.step true) {} (t₁ ++ .deliver .hup :: (t₂ ++ .block :: t₃)) = some s) :
    .reload ∈ t₂ := by
  by_contra hno
  obtain ⟨m₁, h₁, hrun⟩ := run_append_eq_some.mp hrun
  obtain ⟨m₂, h₂, hrun⟩ := Option.bind_eq_some_iff.mp hrun
  obtain ⟨m₃, h₃, hrun⟩ := run_append_eq_some.mp hrun
  obtain ⟨m₄, h₄, -⟩ := Option.bind_eq_some_iff.mp hrun
  have howed : m₂.ReloadOwed := by
    rw [deliver_eq h₂]
    exact .handler List.mem_cons_self
  have hpart : Inv true m₃ ∧ (.reload ∉ t₂ → m₃.ReloadOwed) := by
    refine run_invariant (fun t s => Inv true s ∧ (.reload ∉ t → s.ReloadOwed))
      ⟨(Inv.of_run h₁).step h₂, fun _ => howed⟩ (fun t s l s' hs hstep => ?_) h₃
    refine ⟨hs.1.step hstep, fun hnot => ?_⟩
    rw [List.mem_append, List.mem_singleton, not_or] at hnot
    exact (hs.2 hnot.1).step hs.1 (Ne.symm hnot.2) hstep
  obtain ⟨hf, hpc, he, hr⟩ := hpart.1.block h₄
  cases hpart.2 hno <;> simp_all

/-! ### An exit is not lost -/

/-- The loop has ended or will: `exit_signal` is set, or a `handle_exit` is about to set it. -/
inductive Exiting (standalone : Bool) (s : Listen) : Prop where
  | exited (h : s.pc = .exited)
  | flag (h : s.exitSignal.isSome)
  | handler {sig : Signal} (hsig : sig.handler standalone = .exit) (h : ⟨sig, .store⟩ ∈ s.frames)

/-- What goes wrong otherwise: in standalone mode SIGHUP is delivered when a jump is
possible and a `handle_exit` has been entered but has not stored its signal. -/
def Spaced (standalone : Bool) (s : Listen) (l : ListenLabel) : Prop :=
  l = .deliver .hup → standalone = true → s.pollsetJmp = true → s.exitSignal = none →
    ∀ f ∈ s.frames, f.pc ≠ .store

/-- No `handle_reload` that may jump stands above a handler that has not stored. -/
def Ordered (standalone : Bool) (s : Listen) : Prop :=
  s.frames.Pairwise fun g f => g.sig.handler standalone = .reload → f.pc = .store → s.pollsetJmp = true →
    s.exitSignal.isSome

theorem Ordered.handlerSteps (ho : Ordered standalone s) (hf : s.frames = f :: fs)
    (h : HandlerSteps standalone s f fs s') : Ordered standalone s' := by
  unfold Ordered at *
  rw [hf, List.pairwise_cons] at ho
  rw [h.pollsetJmp]
  have hbelow := ho.2.imp fun hR hr hstore hjmp => h.exitSignal (hR hr hstore hjmp)
  rcases h.frames with ⟨-, hs'⟩ | hs' | ⟨pc, hs'⟩ <;> rw [hs']
  · exact .nil
  · exact hbelow
  · exact .cons (fun g hg hr hstore hjmp => h.exitSignal (ho.1 g hg hr hstore hjmp)) hbelow

theorem Ordered.step (ho : Ordered standalone s) (hc : Spaced standalone s l)
    (h : Listen.step standalone s l = some s') : Ordered standalone s' := by
  cases Steps.of_step h with
  | deliver hpc hsig =>
    refine List.pairwise_cons.mpr ⟨fun f hf hr hstore hjmp => ?_, ho⟩
    obtain ⟨rfl, hst⟩ := Signal.handler_eq_reload.mp hr
    by_contra hnone
    exact hc rfl hst hjmp (Option.not_isSome_iff_eq_none.mp hnone) f hf hstore
  | handler hf h => exact ho.handlerSteps hf h
  | main hf h =>
    unfold Ordered
    rw [h.frames, hf]
    exact .nil

theorem Exiting.handlerSteps (he : Exiting standalone s) (hinv : Inv standalone s) (ho : Ordered standalone s)
    (hf : s.frames = f :: fs) (h : HandlerSteps standalone s f fs s') : Exiting standalone s' := by
  cases he with
  | exited hpc => exact .exited ((hinv.pc_of_handlerSteps hf h (by simp [hpc, ListenPc.Phase])).trans hpc)
  | flag hs => exact .flag (h.exitSignal hs)
  | handler hsig hg =>
    rw [hf] at hg
    rcases List.mem_cons.mp hg with rfl | hg
    · cases h with
      | exit => exact .flag rfl
      | reload hr => cases hr.symm.trans hsig
    · rcases h.mem_frames hg with hjump | hmem
      · -- A jumping `handle_exit` has stored its signal; below a `handle_reload` one is stored already.
        have hstage := hinv.stage f (hf ▸ List.mem_cons_self)
        refine .flag (h.exitSignal ?_)
        by_cases hexit : f.sig.handler standalone = .exit
        · exact hstage.1 (by simp [hjump]) hexit
        · unfold Ordered at ho
          rw [hf, List.pairwise_cons] at ho
          exact ho.1 _ hg (Signal.handler_ne_exit.mp hexit) rfl (hinv.jumping hf hjump).1
      · exact .handler hsig hmem

theorem Exiting.step (he : Exiting standalone s) (hinv : Inv standalone s) (ho : Ordered standalone s)
    (h : Listen.step standalone s l = some s') : Exiting standalone s' := by
  cases Steps.of_step h with
  | deliver =>
    cases he with
    | exited hpc => exact .exited hpc
    | flag hs => exact .flag hs
    | handler hsig hg => exact .handler hsig (List.mem_cons_of_mem _ hg)
  | handler hf h => exact he.handlerSteps hinv ho hf h
  | main hf h =>
    cases he with
    | exited hpc => cases h <;> simp_all
    | flag hs => exact .flag (h.exitSignal ▸ hs)
    | handler hsig hg =>
      rw [hf] at hg
      cases hg

/-- Every state after the delivery. -/
structure ExitInv (standalone : Bool) (s : Listen) : Prop extends Inv standalone s where
  ordered : Ordered standalone s
  exiting : Exiting standalone s

theorem ExitInv.step (hinv : ExitInv standalone s) (hc : Spaced standalone s l)
    (h : Listen.step standalone s l = some s') : ExitInv standalone s' :=
  ⟨hinv.toInv.step h, hinv.ordered.step hc h, hinv.exiting.step hinv.toInv hinv.ordered h⟩

theorem ExitInv.not_block (hinv : ExitInv standalone s) : Listen.step standalone s .block = none := by
  by_contra hsome
  obtain ⟨s', hs'⟩ := Option.ne_none_iff_exists'.mp hsome
  obtain ⟨hf, hpc, he, -⟩ := hinv.block hs'
  cases hinv.exiting <;> simp_all

/-! ### The way to the exit -/

end Listen

/-- How many steps the loop is at most from its end, once `exit_signal` is set. -/
def ListenPc.rank : ListenPc → ℕ
  | .exited => 0
  | .testExit => 1
  | .request => 2
  | .returned _ => 3
  | .intrJmp | .clearJmp _ => 4
  | .intr | .polling => 5
  | .poll => 6
  | .testIntrAgain => 7
  | .setJmp => 8
  | .setjmp => 9
  | .testIntr => 10
  | .events => 11
  | .reload => 12
  | .clearReload => 13
  | .testReload => 14

/-- The same for a handler, which may throw the loop back by one step. -/
def HandlerPc.rank : HandlerPc → ℕ
  | .ret => 1
  | .setIntr | .jump => 2
  | .clearIntr => 3
  | .testJmp => 4
  | .store => 5

/-- A step the process takes by itself, without waiting for a signal or in `ppoll`. -/
def ListenLabel.unaided : ListenLabel → Bool
  | .next | .reload | .served _ => true
  | .deliver _ | .block | .polled _ => false

namespace Listen

def potential (s : Listen) : ℕ := s.pc.rank + (s.frames.map fun f => f.pc.rank).sum

theorem potential_handlerSteps (hinv : Inv standalone s) (hf : s.frames = f :: fs)
    (h : HandlerSteps standalone s f fs s') : s'.potential < s.potential := by
  cases h with
  | jump =>
    have hphase := (hinv.jumping hf rfl).2
    have hrank : ListenPc.intr.rank < s.pc.rank + HandlerPc.jump.rank := by
      cases hp : s.pc <;> simp_all [ListenPc.Phase, ListenPc.rank, HandlerPc.rank]
    simp only [potential, hf, List.map_nil, List.sum_nil, List.map_cons, List.sum_cons]
    omega
  | _ =>
    simp only [potential, hf, List.map_cons, List.sum_cons, HandlerPc.rank]
    omega

theorem potential_mainSteps (hf : s.frames = []) (he : s.exitSignal.isSome) (h : MainSteps s l s') :
    s'.potential < s.potential := by
  cases h with
  | stay _ hnone => simp [hnone] at he
  | intr hpc => rcases hpc with hpc | hpc <;> simp [potential, hf, hpc, ListenPc.rank]
  | _ hpc => simp [potential, hf, hpc, ListenPc.rank]

theorem ExitInv.potential_lt (hinv : ExitInv standalone s) (h : Listen.step standalone s l = some s')
    (hl : l.own = true) : s'.potential < s.potential := by
  cases Steps.of_step h with
  | deliver => cases hl
  | handler hf h => exact potential_handlerSteps hinv.toInv hf h
  | main hf h =>
    cases hinv.exiting with
    | exited hpc => cases h <;> simp_all
    | flag he => exact potential_mainSteps hf he h
    | handler _ hg => simp [hf] at hg

theorem potential_deliver (h : Listen.step standalone s l = some s') (hl : l.own = false) :
    s'.potential ≤ s.potential + 5 := by
  cases Steps.of_step h with
  | deliver =>
    simp only [potential, List.map_cons, List.sum_cons, HandlerPc.rank]
    omega
  | handler => cases hl
  | main hf h => cases h <;> cases hl

/-- At most one handler of each signal is on the stack. -/
theorem Inv.potential_le (hinv : Inv standalone s) : s.potential ≤ 29 := by
  have hlength : s.frames.length ≤ 3 := by
    have hcard := hinv.nodup.length_le_card
    rwa [List.length_map] at hcard
  have hpc : s.pc.rank ≤ 14 := by
    cases s.pc <;> simp [ListenPc.rank]
  have hsum : (s.frames.map fun f => f.pc.rank).sum ≤ (s.frames.map fun f => f.pc.rank).length • 5 := by
    refine List.sum_le_card_nsmul _ 5 fun n hn => ?_
    obtain ⟨f, -, rfl⟩ := List.mem_map.mp hn
    cases f.pc <;> decide
  rw [List.length_map, smul_eq_mul] at hsum
  unfold potential
  omega

/-- Until it has ended, the process can go on by itself. -/
theorem ExitInv.unaided (hinv : ExitInv standalone s) :
    s.pc = .exited ∨ ∃ l, l.unaided = true ∧ (Listen.step standalone s l).isSome := by
  cases hf : s.frames with
  | cons f fs =>
    refine .inr ⟨.next, rfl, ?_⟩
    obtain ⟨sig, pc⟩ := f
    cases pc with
    | store =>
      simp only [Listen.step, hf, handlerStep, if_true]
      split <;> rfl
    | jump =>
      have hbuf : s.jmpbuf = true := by
        have hphase := (hinv.jumping hf rfl).2
        cases hp : s.pc <;> simp_all [ListenPc.Phase]
      simp [Listen.step, hf, handlerStep, hbuf]
    | testJmp =>
      simp only [Listen.step, hf, handlerStep, if_true]
      split <;> rfl
    | _ => simp [Listen.step, hf, handlerStep]
  | nil =>
    cases hinv.exiting with
    | exited hpc => exact .inl hpc
    | handler _ hg => simp [hf] at hg
    | flag he =>
      have hheard := hinv.exit_heard he
      cases hp : s.pc with
      | exited => exact .inl rfl
      | reload => exact .inr ⟨.reload, rfl, by simp [Listen.step, mainStep, hf, hp]⟩
      | request => exact .inr ⟨.served true, rfl, by simp [Listen.step, mainStep, hf, hp]⟩
      | poll | polling => simp [Heard, hf, hp, ListenPc.returning, ListenPc.approaching] at hheard
      | returned rv =>
        refine .inr ⟨.next, rfl, ?_⟩
        cases rv <;> simp [Listen.step, mainStep, mainNext, hf, hp]
      | testReload | testIntr | testIntrAgain =>
        refine .inr ⟨.next, rfl, ?_⟩
        simp only [Listen.step, mainStep, mainNext, hf, hp]
        split <;> rfl
      | _ => exact .inr ⟨.next, rfl, by simp [Listen.step, mainStep, mainNext, hf, hp, he]⟩

/-- No request is lost. After the delivery of a signal that `handle_exit` handles the loop
does not call `ppoll` again, and it comes to its end: until then it can always go on by
itself, and it takes a bounded number of steps, a few more for every further signal. After
the delivery of a SIGHUP that `handle_reload` handles it reloads before it calls `ppoll`
again. -/
structure Kept (standalone : Bool) (t : List ListenLabel) (s : Listen) : Prop where
  exit : ∀ t₁ sig t₂, t = t₁ ++ .deliver sig :: t₂ → sig.handler standalone = .exit →
    .block ∉ t₂ ∧ (s.pc = .exited ∨ ∃ l, l.unaided = true ∧ (Listen.step standalone s l).isSome) ∧
      t₂.countP ListenLabel.own ≤ 29 + 5 * t₂.countP fun l => !l.own
  reload : standalone = true →
    ∀ t₁ t₂ t₃, t = t₁ ++ .deliver .hup :: (t₂ ++ .block :: t₃) → .reload ∈ t₂

theorem Ordered.of_run {t : List ListenLabel} (hC : Along (Listen.step standalone) (Spaced standalone) {} t)
    (hrun : run (Listen.step standalone) {} t = some s) : Ordered standalone s :=
  @run_invariant_along _ _ _ _ (fun _ s => Ordered standalone s) (fun _ _ _ _ ho hc hs => ho.step hc hs)
    [] t {} s .nil hC hrun

/-- The state right after the delivery of such a signal. -/
theorem exitInv_of_run {t : List ListenLabel} {sig : Signal}
    (hC : Along (Listen.step standalone) (Spaced standalone) {} t)
    (hrun : run (Listen.step standalone) {} t = some s) (hsig : sig.handler standalone = .exit)
    (h : Listen.step standalone s (.deliver sig) = some s') : ExitInv standalone s' := by
  refine ⟨(Inv.of_run hrun).step h, (Ordered.of_run hC hrun).step ?_ h, ?_⟩
  · rintro hl rfl
    cases hl
    cases hsig
  · rw [deliver_eq h]
    exact .handler hsig List.mem_cons_self

theorem ExitInv.block_notMem {t : List ListenLabel} (hinv : ExitInv standalone s)
    (hC : Along (Listen.step standalone) (Spaced standalone) s t)
    (hrun : run (Listen.step standalone) s t = some s') : ExitInv standalone s' ∧ .block ∉ t := by
  refine @run_invariant_along _ _ _ _ (fun t s => ExitInv standalone s ∧ .block ∉ t) ?_ [] t s s'
    ⟨hinv, nofun⟩ hC hrun
  rintro t s l s' ⟨hs, hno⟩ hc h
  refine ⟨hs.step hc h, ?_⟩
  rw [List.mem_append, List.mem_singleton, not_or]
  refine ⟨hno, ?_⟩
  rintro rfl
  rw [hs.not_block] at h
  cases h

end Listen

theorem signals_kept_of_spaced (standalone : Bool) {t : List ListenLabel} {s : Listen}
    (hrun : run (Listen.step standalone) {} t = some s)
    (hspaced : Along (Listen.step standalone) (Listen.Spaced standalone) {} t) : Listen.Kept standalone t s := by
  refine ⟨?_, ?_⟩
  · rintro t₁ sig t₂ rfl hsig
    obtain ⟨m₁, h₁, hrun⟩ := run_append_eq_some.mp hrun
    obtain ⟨m₂, h₂, h₃⟩ := Option.bind_eq_some_iff.mp hrun
    obtain ⟨hC₁, hC⟩ := along_append.mp hspaced
    have hC₂ := (hC m₁ h₁).2 m₂ h₂
    have hinv₂ : Listen.ExitInv standalone m₂ := Listen.exitInv_of_run hC₁ h₁ hsig h₂
    obtain ⟨hinv, hblock⟩ := hinv₂.block_notMem hC₂ h₃
    refine ⟨hblock, hinv.unaided, ?_⟩
    have hcount := run_potential Listen.potential ListenLabel.own 5 (fun _ _ _ hs hc h => hs.step hc h)
      (fun _ _ _ hs _ h hl => hs.potential_lt h hl) (fun _ _ _ _ _ h hl => Listen.potential_deliver h hl)
      hinv₂ hC₂ h₃
    have hstart := hinv₂.potential_le
    omega
  · rintro rfl t₁ t₂ t₃ rfl
    exact Listen.reload_of_hup hrun

/-- From the start into `ppoll`. -/
def listening : List ListenLabel := List.replicate 7 .next ++ [.block]

/-- SIGTERM, and SIGHUP before the first statement of `handle_exit`. -/
def termThenHup : List ListenLabel :=
  listening ++ [.deliver .term, .deliver .hup] ++ List.replicate 10 .next ++ [.reload] ++ List.replicate 5 .next ++
    [.block]

/-- The server reloads and polls again; SIGTERM has left no trace. -/
theorem term_lost_to_hup : run (Listen.step true) {} termThenHup =
      some { pc := .polling, pollsetJmp := true, jmpbuf := true } ∧
    ¬ Listen.Kept true termThenHup { pc := .polling, pollsetJmp := true, jmpbuf := true } := by
  refine ⟨rfl, fun hkept => ?_⟩
  have hblock := (hkept.exit listening .term _ rfl rfl).1
  exact hblock (by decide)

/-- SIGTERM, and SIGHUP right after `handle_exit` has stored its signal. -/
def termStoredThenHup : List ListenLabel :=
  listening ++ [.deliver .term, .next] ++ .deliver .hup :: List.replicate 8 .next

theorem signals_kept_of_spaced_term_hup : ∃ s, run (Listen.step true) {} termStoredThenHup = some s ∧
    s.pc = .exited ∧ Listen.Kept true termStoredThenHup s := by
  refine ⟨_, rfl, rfl, signals_kept_of_spaced true rfl ?_⟩
  have hother {s : Listen} {l : ListenLabel} (hl : l ≠ .deliver .hup) : Listen.Spaced true s l :=
    fun h => absurd h hl
  refine along_append.mpr ⟨.of_forall fun l hl s => hother ?_, fun m hm => ⟨?_, fun _ _ => ?_⟩⟩
  · rintro rfl
    revert hl
    decide
  · obtain rfl := Option.some.inj hm
    exact fun _ _ _ hnone => nomatch hnone
  · refine .of_forall fun l hl s => hother ?_
    rintro rfl
    revert hl
    decide

end TftpHpa
