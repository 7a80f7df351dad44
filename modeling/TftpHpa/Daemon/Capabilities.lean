import Mathlib.Data.Fintype.Basic
import Mathlib.Tactic
import TftpHpa.Common.Error

/-! Linux capabilities of the server (`tftpd/cap-linux.c`). A privilege is a reason to hold a
capability: two of them stand for the same one. `capset_privs` keeps the privileges in
static variables and makes the capabilities of the process follow them. -/

namespace TftpHpa

/-- The bits of `enum priv_mask`. -/
inductive Priv where
  | listen | portrange | chroot | setuid | setgid
  deriving DecidableEq

instance : Fintype Priv where
  elems := {.listen, .portrange, .chroot, .setuid, .setgid}
  complete := by rintro ⟨⟩ <;> decide

def CAP_SETGID : ℕ := 6
def CAP_SETUID : ℕ := 7
def CAP_NET_BIND_SERVICE : ℕ := 10
def CAP_SYS_CHROOT : ℕ := 18

/-- `need_privs`. -/
def needPrivs : List (Priv × ℕ) :=
  [(.listen, CAP_NET_BIND_SERVICE), (.portrange, CAP_NET_BIND_SERVICE), (.chroot, CAP_SYS_CHROOT),
    (.setuid, CAP_SETUID), (.setgid, CAP_SETGID)]

/-- The capability sets of a process, `cap_t`. -/
@[ext] structure Caps where
  effective : Finset ℕ := ∅
  permitted : Finset ℕ := ∅
  inheritable : Finset ℕ := ∅
  deriving DecidableEq

/-- The static variables of `capset_privs`, and the capabilities of the process. -/
structure CapState where
  effective : Finset Priv := ∅
  permitted : Finset Priv := ∅
  dropped : Finset Priv := ∅
  ocap : Option Caps := none
  ocapFailed : Bool := false
  proc : Caps

/-- The errors of `cap_get_proc`, `cap_init` and `cap_set_proc`. -/
structure CapErrors where
  get : Option ℤ := none
  init : Option ℤ := none
  set : Option ℤ := none

/-- The privileges for a permitted set. -/
def privsOf (permitted : Finset ℕ) : Finset Priv :=
  needPrivs.foldl (fun mask np => if np.2 ∈ permitted then mask else mask \ {np.1}) Finset.univ

/-- The capability of an entry of the table is set in `ncap`. -/
def setFlags (now keep : Finset Priv) (ncap : Caps) (np : Priv × ℕ) : Caps :=
  if np.1 ∈ keep then
    { ncap with
      permitted := insert np.2 ncap.permitted
      effective := if np.1 ∈ now then insert np.2 ncap.effective else ncap.effective }
  else ncap

/-- The capabilities for two sets of privileges. -/
def ncapOf (now keep : Finset Priv) : Caps := needPrivs.foldl (setFlags now keep) {}

/-- The end of `capset_privs`, where the capabilities are set unless they are the old ones;
nothing stands for the exit after a failure. -/
def CapState.install (s : CapState) (ocap : Caps) (now keep : Finset Priv) (err : CapErrors) : Option CapState :=
  let ncap := ncapOf now keep
  if err.init.isSome then none
  else if ocap ≠ ncap ∧ err.set.isSome then none
  else some { s with
    effective := now
    permitted := keep
    ocap := some ncap
    proc := if ocap ≠ ncap then ncap else s.proc }

/-- `capset_privs`. -/
def capsetPrivs (s : CapState) (now drop : Finset Priv) (err : CapErrors) : Option CapState :=
  let s := { s with dropped := s.dropped ∪ drop }
  match s.ocap with
  | none =>
    if s.ocapFailed then some s
    else match err.get with
      | some errno => if errno ≠ Errno.EPERM then none else some { s with ocapFailed := true }
      | none =>
        let ocap := s.proc
        let permitted := privsOf ocap.permitted
        let s := { s with permitted, dropped := s.dropped ∪ (Finset.univ \ permitted) }
        let now := now ∩ permitted
        let keep := permitted ∩ (now ∪ s.droppedᶜ)
        s.install ocap now keep err
  | some ocap =>
    let now := now ∩ s.permitted
    let keep := s.permitted ∩ (now ∪ s.droppedᶜ)
    if now = s.effective ∧ keep = s.permitted then some s
    else s.install ocap now keep err

/-- The arguments of a call. -/
structure CapCall where
  now : Finset Priv
  drop : Finset Priv

/-! ### The calls of the server -/

namespace CapCall

def capsetNone : CapCall := ⟨∅, ∅⟩

/-- `capset_before_initgroups`, by what the server is configured for and whether the user is
already the one to change to. -/
def capsetBeforeInitgroups (standalone portrangeNeedsPriv secure canDropSetuid : Bool) : CapCall where
  now := {.setgid}
  drop := (if standalone then ∅ else {.listen}) ∪ (if portrangeNeedsPriv then ∅ else {.portrange}) ∪
    (if secure then ∅ else {.chroot}) ∪ (if canDropSetuid then {.setuid} else ∅)

def capsetAfterInitgroups (canDropSetgid : Bool) : CapCall := ⟨∅, if canDropSetgid then {.setgid} else ∅⟩

def capsetBeforeListen : CapCall := ⟨{.listen}, {.listen}⟩

def capsetBeforeSocketBind : CapCall := ⟨{.portrange}, {.portrange}⟩

def capsetBeforeChroot : CapCall := ⟨{.chroot}, {.chroot}⟩

def capsetBeforeSetid : CapCall := ⟨{.setuid, .setgid}, Finset.univ⟩

def capsetDropAll : CapCall := ⟨∅, Finset.univ⟩

end CapCall

/-- Calls that do not fail. -/
def CapState.calls (s : CapState) (cs : List CapCall) : Option CapState :=
  cs.foldlM (fun s c => capsetPrivs s c.now c.drop {}) s

/-! ### The loops over the table -/

/-- The capability of a privilege. -/
def Priv.cap : Priv → ℕ
  | listen | portrange => CAP_NET_BIND_SERVICE
  | chroot => CAP_SYS_CHROOT
  | setuid => CAP_SETUID
  | setgid => CAP_SETGID

theorem mem_needPrivs {b : Priv} {c : ℕ} : (b, c) ∈ needPrivs ↔ b.cap = c := by
  cases b <;> simp [needPrivs, Priv.cap, eq_comm]

theorem mem_privsOf {permitted : Finset ℕ} {b : Priv} : b ∈ privsOf permitted ↔ b.cap ∈ permitted := by
  have hfold : ∀ (table : List (Priv × ℕ)) (mask : Finset Priv),
      b ∈ table.foldl (fun mask np => if np.2 ∈ permitted then mask else mask \ {np.1}) mask ↔
        b ∈ mask ∧ ∀ np ∈ table, np.1 = b → np.2 ∈ permitted := by
    intro table
    induction table with
    | nil => simp
    | cons np table ih =>
      intro mask
      rw [List.foldl_cons, ih, List.forall_mem_cons]
      split_ifs with h
      · simp [h]
      · simp only [Finset.mem_sdiff, Finset.mem_singleton, h, imp_false, and_assoc, eq_comm]
  rw [privsOf, hfold]
  constructor
  · exact fun h => h.2 (b, b.cap) (mem_needPrivs.mpr rfl) rfl
  · refine fun h => ⟨Finset.mem_univ b, ?_⟩
    rintro ⟨b', c⟩ hnp rfl
    rwa [← mem_needPrivs.mp hnp]

theorem mem_setFlags (now keep : Finset Priv) (ncap : Caps) (np : Priv × ℕ) (c : ℕ) :
    (c ∈ (setFlags now keep ncap np).permitted ↔ c ∈ ncap.permitted ∨ np.1 ∈ keep ∧ np.2 = c) ∧
      (c ∈ (setFlags now keep ncap np).effective ↔ c ∈ ncap.effective ∨ (np.1 ∈ keep ∧ np.1 ∈ now) ∧ np.2 = c) ∧
      (setFlags now keep ncap np).inheritable = ncap.inheritable := by
  unfold setFlags
  by_cases hk : np.1 ∈ keep
  · rw [if_pos hk]
    by_cases hn : np.1 ∈ now <;> simp [hk, hn, or_comm, eq_comm]
  · rw [if_neg hk]
    simp [hk]

/-- What the loop has set, for any table. -/
theorem foldl_setFlags (now keep : Finset Priv) (table : List (Priv × ℕ)) (ncap : Caps) (c : ℕ) :
    (c ∈ (table.foldl (setFlags now keep) ncap).permitted ↔
      c ∈ ncap.permitted ∨ ∃ np ∈ table, np.1 ∈ keep ∧ np.2 = c) ∧
    (c ∈ (table.foldl (setFlags now keep) ncap).effective ↔
      c ∈ ncap.effective ∨ ∃ np ∈ table, (np.1 ∈ keep ∧ np.1 ∈ now) ∧ np.2 = c) ∧
    (table.foldl (setFlags now keep) ncap).inheritable = ncap.inheritable := by
  induction table generalizing ncap with
  | nil => simp
  | cons np table ih =>
    obtain ⟨hp, he, hi⟩ := ih (setFlags now keep ncap np)
    obtain ⟨hp', he', hi'⟩ := mem_setFlags now keep ncap np c
    rw [List.foldl_cons, hp, he, hi, hp', he', hi', List.exists_mem_cons_iff, List.exists_mem_cons_iff, or_assoc,
      or_assoc]
    exact ⟨Iff.rfl, Iff.rfl, rfl⟩

theorem mem_ncapOf (now keep : Finset Priv) :
    (∀ c, c ∈ (ncapOf now keep).permitted ↔ ∃ b ∈ keep, b.cap = c) ∧
      (∀ c, c ∈ (ncapOf now keep).effective ↔ ∃ b ∈ keep ∩ now, b.cap = c) ∧ (ncapOf now keep).inheritable = ∅ := by
  have htable {P : Priv → Prop} (c : ℕ) : (∃ np ∈ needPrivs, P np.1 ∧ np.2 = c) ↔ ∃ b, P b ∧ b.cap = c := by
    constructor
    · rintro ⟨⟨b, c'⟩, hnp, hb, rfl⟩
      exact ⟨b, hb, mem_needPrivs.mp hnp⟩
    · rintro ⟨b, hb, rfl⟩
      exact ⟨(b, b.cap), mem_needPrivs.mpr rfl, hb, rfl⟩
  refine ⟨fun c => ?_, fun c => ?_, (foldl_setFlags now keep needPrivs {} 0).2.2⟩
  · rw [ncapOf, (foldl_setFlags now keep needPrivs {} c).1, htable]
    simp
  · rw [ncapOf, (foldl_setFlags now keep needPrivs {} c).2.1, htable (P := fun b => b ∈ keep ∧ b ∈ now)]
    simp [and_assoc]

/-! ### One call -/

namespace CapState

/-- The privileges that can still be had: before the first call those that the process has the
capabilities for. -/
def held (s : CapState) : Finset Priv := if s.ocap = none then privsOf s.proc.permitted else s.permitted

/-- The process has the capabilities that the static variables say, once they are known. -/
structure Ready (s : CapState) : Prop where
  asked : s.ocapFailed = false
  known : ∀ ocap, s.ocap = some ocap →
    ocap = s.proc ∧ s.proc = ncapOf s.effective s.permitted ∧ s.effective ⊆ s.permitted

/-- What a call leaves behind. -/
structure Stepped (s : CapState) (c : CapCall) (s' : CapState) : Prop where
  ocap : s'.ocap = some s'.proc
  asked : s'.ocapFailed = false
  proc : s'.proc = ncapOf s'.effective s'.permitted
  effective : s'.effective = c.now ∩ s.held
  permitted : s'.permitted = s.held ∩ (c.now ∪ (s.dropped ∪ c.drop)ᶜ)
  dropped : s.dropped ∪ c.drop ⊆ s'.dropped

variable {s s' : CapState} {c : CapCall} {b : Priv}

theorem install_eq (s : CapState) (now keep : Finset Priv) :
    s.install s.proc now keep {} = some { s with
      effective := now, permitted := keep, ocap := some (ncapOf now keep), proc := ncapOf now keep } := by
  by_cases h : s.proc = ncapOf now keep
  · simp [install, h]
  · simp [install, h]

theorem keep_eq (p now d : Finset Priv) : p ∩ (now ∩ p ∪ dᶜ) = p ∩ (now ∪ dᶜ) := by
  ext b
  simp only [Finset.mem_inter, Finset.mem_union, Finset.mem_compl]
  tauto

/-- Without failures a call always ends. -/
theorem capsetPrivs_spec (h : s.Ready) (c : CapCall) :
    ∃ s', capsetPrivs s c.now c.drop {} = some s' ∧ s.Stepped c s' := by
  cases hocap : s.ocap with
  | none =>
    have hheld : s.held = privsOf s.proc.permitted := by rw [held, if_pos hocap]
    simp only [capsetPrivs, hocap, h.asked, Bool.false_eq_true, if_false]
    refine ⟨_, install_eq _ _ _, rfl, rfl, rfl, by rw [hheld], ?_, Finset.subset_union_left⟩
    -- what is not permitted counts as dropped
    ext b
    simp only [hheld, Finset.mem_inter, Finset.mem_union, Finset.mem_compl, Finset.mem_sdiff, Finset.mem_univ, true_and]
    tauto
  | some ocap =>
    obtain ⟨rfl, hproc, -⟩ := h.known ocap hocap
    have hheld : s.held = s.permitted := by rw [held, hocap, if_neg (by simp)]
    simp only [capsetPrivs, hocap, keep_eq]
    split_ifs with hsame
    · exact ⟨_, rfl, rfl, h.asked, hproc, by rw [hheld, hsame.1], by rw [hheld, hsame.2], subset_rfl⟩
    · exact ⟨_, install_eq _ _ _, rfl, h.asked, rfl, by rw [hheld], by rw [hheld], subset_rfl⟩

namespace Stepped

variable (h : s.Stepped c s')
include h

theorem effective_subset : s'.effective ⊆ s'.permitted := by
  rw [h.effective, h.permitted]
  intro b hb
  simp only [Finset.mem_inter, Finset.mem_union] at hb ⊢
  exact ⟨hb.2, .inl hb.1⟩

theorem ready : s'.Ready where
  asked := h.asked
  known _ hocap := ⟨Option.some.inj (hocap.symm.trans h.ocap), h.proc, h.effective_subset⟩

theorem held_eq : s'.held = s'.permitted := by rw [held, h.ocap, if_neg (by simp)]

end Stepped

/-! ### Any number of calls -/

theorem ready_start (caps : Caps) : Ready { proc := caps } where
  asked := rfl
  known _ h := by cases h

theorem calls_cons {c : CapCall} {cs : List CapCall} {s₁ : CapState} (h : capsetPrivs s c.now c.drop {} = some s₁) :
    s.calls (c :: cs) = s₁.calls cs := by
  rw [calls, List.foldlM_cons, h]
  rfl

/-- Calls that do not fail end, and the static variables stay true. -/
theorem calls_ready (h : s.Ready) (cs : List CapCall) : ∃ s', s.calls cs = some s' ∧ s'.Ready := by
  induction cs generalizing s with
  | nil => exact ⟨s, rfl, h⟩
  | cons c cs ih =>
    obtain ⟨s₁, hs₁, hstep⟩ := capsetPrivs_spec h c
    rw [calls_cons hs₁]
    exact ih hstep.ready

/-- The static variables say what is held. -/
structure Known (s : CapState) : Prop extends Ready s where
  held_eq : s.held = s.permitted
  effective_subset : s.effective ⊆ s.permitted

theorem Stepped.known (h : s.Stepped c s') : s'.Known := ⟨h.ready, h.held_eq, h.effective_subset⟩

/-- A dropped privilege is held as long as each call asks for it. -/
theorem calls_dropped (h : s.Known) (cs : List CapCall) :
    ∃ s', s.calls cs = some s' ∧ s'.Known ∧
      ∀ b ∈ s.dropped, (b ∈ s'.permitted ↔ b ∈ s.permitted ∧ ∀ d ∈ cs, b ∈ d.now) := by
  induction cs generalizing s with
  | nil => exact ⟨s, rfl, h, by simp⟩
  | cons c cs ih =>
    obtain ⟨s₁, hs₁, hstep⟩ := capsetPrivs_spec h.toReady c
    obtain ⟨s', hs', hknown, hiff⟩ := ih hstep.known
    refine ⟨s', (calls_cons hs₁).trans hs', hknown, fun b hb => ?_⟩
    rw [hiff b (hstep.dropped (Finset.mem_union_left _ hb)), hstep.permitted, h.held_eq, List.forall_mem_cons]
    simp [hb, and_assoc]

theorem image_held_subset (h : s.Ready) (hb : b ∈ s.held) : b.cap ∈ s.proc.permitted := by
  unfold held at hb
  split_ifs at hb with hocap
  · exact mem_privsOf.mp hb
  · obtain ⟨ocap, hocap⟩ := Option.ne_none_iff_exists'.mp hocap
    rw [(h.known ocap hocap).2.1, (mem_ncapOf _ _).1]
    exact ⟨b, hb, rfl⟩

/-- What should hold after a call, compared with the capabilities before it. -/
structure Sound (s : CapState) (before : Caps) : Prop where
  effective_subset : s.proc.effective ⊆ s.proc.permitted
  permitted_subset : s.proc.permitted ⊆ before.permitted
  net_bind : CAP_NET_BIND_SERVICE ∈ s.proc.permitted ↔ .listen ∈ s.permitted ∨ .portrange ∈ s.permitted

theorem Stepped.sound (h : s.Ready) (hstep : s.Stepped c s') : s'.Sound s.proc where
  effective_subset := by
    rw [hstep.proc]
    intro cap hcap
    obtain ⟨b, hb, rfl⟩ := ((mem_ncapOf _ _).2.1 cap).mp hcap
    exact ((mem_ncapOf _ _).1 _).mpr ⟨b, (Finset.mem_inter.mp hb).1, rfl⟩
  permitted_subset := by
    rw [hstep.proc]
    intro cap hcap
    obtain ⟨b, hb, rfl⟩ := ((mem_ncapOf _ _).1 cap).mp hcap
    rw [hstep.permitted] at hb
    exact image_held_subset h (Finset.mem_inter.mp hb).1
  net_bind := by
    rw [hstep.proc, (mem_ncapOf _ _).1]
    constructor
    · rintro ⟨b, hb, hcap⟩
      cases b with
      | listen => exact .inl hb
      | portrange => exact .inr hb
      | _ => cases hcap
    · rintro (hb | hb)
      · exact ⟨.listen, hb, rfl⟩
      · exact ⟨.portrange, hb, rfl⟩

/-- A call that asks for nothing leaves no capability once everything has been dropped. -/
theorem Stepped.proc_eq_empty (hstep : s.Stepped c s') (hnow : c.now = ∅)
    (hdropped : s.dropped ∪ c.drop = Finset.univ) : s'.proc = {} := by
  have heffective : s'.effective = ∅ := by rw [hstep.effective, hnow, Finset.empty_inter]
  have hpermitted : s'.permitted = ∅ := by
    rw [hstep.permitted, hnow, hdropped]
    simp
  rw [hstep.proc, heffective, hpermitted]
  decide

/-- A privilege in `drop` is gone after a call and those that follow exactly when it had been
gone before or one of them does not ask for it. -/
theorem gone_iff (h : s.Ready) (c : CapCall) (later : List CapCall) :
    ∃ s', s.calls (c :: later) = some s' ∧ ∀ b ∈ c.drop,
      (b ∉ s'.effective ∧ b ∉ s'.permitted ↔ b ∉ s.held ∨ ∃ d ∈ c :: later, b ∉ d.now) := by
  obtain ⟨s₁, hs₁, hstep⟩ := capsetPrivs_spec h c
  obtain ⟨s', hs', hknown, hiff⟩ := calls_dropped hstep.known later
  refine ⟨s', (calls_cons hs₁).trans hs', fun b hb => ?_⟩
  have hpermitted : b ∈ s'.permitted ↔ b ∈ s.held ∧ ∀ d ∈ c :: later, b ∈ d.now := by
    rw [hiff b (hstep.dropped (Finset.mem_union_right _ hb)), hstep.permitted, List.forall_mem_cons]
    simp [hb, and_assoc]
  have hgone : b ∉ s'.effective ∧ b ∉ s'.permitted ↔ b ∉ s'.permitted :=
    and_iff_right_of_imp fun h he => h (hknown.effective_subset he)
  rw [hgone, hpermitted, not_and_or]
  simp only [not_forall, exists_prop]

end CapState

/-! ### The server -/

/-- The calls of the server, from its start to a request. -/
def serverCalls (standalone portrangeNeedsPriv secure canDropSetuid canDropSetgid : Bool) : List CapCall :=
  [CapCall.capsetNone, CapCall.capsetBeforeInitgroups standalone portrangeNeedsPriv secure canDropSetuid,
    CapCall.capsetAfterInitgroups canDropSetgid] ++
  (if standalone then [CapCall.capsetBeforeListen, CapCall.capsetNone] else []) ++ [CapCall.capsetBeforeSocketBind] ++
  (if secure then [CapCall.capsetBeforeChroot] else []) ++ [CapCall.capsetBeforeSetid, CapCall.capsetNone]

/-- The next call does not ask for what has been dropped. -/
def CapCall.Lets (c d : CapCall) : Prop := ∀ b ∈ c.drop, b ∉ c.now ∨ b ∉ d.now

theorem CapCall.lets_of_disjoint {c d : CapCall} (h : Disjoint c.now d.now) : c.Lets d :=
  fun _ _ => not_and_or.mp fun hb => Finset.disjoint_left.mp h hb.1 hb.2

/-- No two calls in a row ask for the same privilege. -/
theorem serverCalls_lets (standalone portrangeNeedsPriv secure canDropSetuid canDropSetgid : Bool) :
    (serverCalls standalone portrangeNeedsPriv secure canDropSetuid canDropSetgid).IsChain CapCall.Lets := by
  refine List.IsChain.imp (R := fun c d => Disjoint c.now d.now) (fun _ _ => CapCall.lets_of_disjoint) ?_
  cases standalone <;> cases secure <;>
    simp [serverCalls, CapCall.capsetNone, CapCall.capsetBeforeInitgroups, CapCall.capsetAfterInitgroups,
      CapCall.capsetBeforeListen, CapCall.capsetBeforeSocketBind, CapCall.capsetBeforeChroot, CapCall.capsetBeforeSetid]

/-- Each privilege that the server drops is gone with its next call. -/
theorem server_drops (caps : Caps) {standalone portrangeNeedsPriv secure canDropSetuid canDropSetgid : Bool}
    {before later : List CapCall} {c d : CapCall}
    (h : serverCalls standalone portrangeNeedsPriv secure canDropSetuid canDropSetgid = before ++ c :: d :: later) :
    ∃ s, CapState.calls { proc := caps } (before ++ c :: d :: later) = some s ∧
      ∀ b ∈ c.drop, b ∉ s.effective ∧ b ∉ s.permitted := by
  have hchain := serverCalls_lets standalone portrangeNeedsPriv secure canDropSetuid canDropSetgid
  rw [h, List.isChain_append_cons_cons] at hchain
  obtain ⟨s₁, hs₁, hready⟩ := CapState.calls_ready (CapState.ready_start caps) before
  obtain ⟨s, hs, hgone⟩ := CapState.gone_iff hready c (d :: later)
  refine ⟨s, ?_, fun b hb => (hgone b hb).mpr (.inr ?_)⟩
  · rw [CapState.calls] at hs₁ ⊢
    rw [List.foldlM_append, hs₁]
    exact hs
  · rcases hchain.2.1 b hb with hc | hd
    · exact ⟨c, by simp, hc⟩
    · exact ⟨d, by simp, hd⟩

/-- The calls before the file of `--map-test` is opened. -/
def mapTestCalls : List CapCall := [CapCall.capsetNone, CapCall.capsetDropAll]

/-- The mapping is tested without any capability. -/
theorem mapTest_unprivileged (caps : Caps) :
    ∃ s, CapState.calls { proc := caps } mapTestCalls = some s ∧ s.proc = {} := by
  obtain ⟨s₁, hs₁, hstep₁⟩ := CapState.capsetPrivs_spec (CapState.ready_start caps) .capsetNone
  obtain ⟨s₂, hs₂, hstep₂⟩ := CapState.capsetPrivs_spec hstep₁.ready .capsetDropAll
  exact ⟨s₂, (CapState.calls_cons hs₁).trans (CapState.calls_cons hs₂),
    hstep₂.proc_eq_empty rfl (Finset.union_eq_right.mpr (Finset.subset_univ _))⟩

/-- The laws of `capset_privs`, in any state that calls can lead to. Only the last one is not
as it should be: a privilege in `drop` is gone after a call and those that follow exactly when
it had been gone before or one of them does not ask for it. -/
theorem capset_laws (caps : Caps) (cs : List CapCall) :
    ∃ s, CapState.calls { proc := caps } cs = some s ∧
      (∀ c, ∃ s', s.calls [c] = some s' ∧ s'.Sound s.proc) ∧
      (∃ s', s.calls [.capsetBeforeSetid, .capsetNone] = some s' ∧ s'.proc = {}) ∧
      ∀ c later, ∃ s', s.calls (c :: later) = some s' ∧ ∀ b ∈ c.drop,
        (b ∉ s'.effective ∧ b ∉ s'.permitted ↔ b ∉ s.held ∨ ∃ d ∈ c :: later, b ∉ d.now) := by
  obtain ⟨s, hs, hready⟩ := CapState.calls_ready (CapState.ready_start caps) cs
  refine ⟨s, hs, fun c => ?_, ?_, fun c later => ?_⟩
  · obtain ⟨s', hs', hstep⟩ := CapState.capsetPrivs_spec hready c
    exact ⟨s', CapState.calls_cons hs', hstep.sound hready⟩
  · obtain ⟨s₁, hs₁, hstep₁⟩ := CapState.capsetPrivs_spec hready .capsetBeforeSetid
    obtain ⟨s₂, hs₂, hstep₂⟩ := CapState.capsetPrivs_spec hstep₁.ready .capsetNone
    refine ⟨s₂, (CapState.calls_cons hs₁).trans (CapState.calls_cons hs₂), hstep₂.proc_eq_empty rfl ?_⟩
    have hall : s₁.dropped = Finset.univ := Finset.univ_subset_iff.mp (Finset.union_subset_right hstep₁.dropped)
    rw [hall, Finset.union_eq_left.mpr (Finset.subset_univ _)]
  · exact CapState.gone_iff hready c later

/-- A privilege that is dropped and asked for twice is held after the second call. -/
theorem capset_held_again :
    ∃ s, CapState.calls { proc := { permitted := {CAP_SYS_CHROOT} } }
        [⟨{.chroot}, {.chroot}⟩, ⟨{.chroot}, ∅⟩] = some s ∧
      .chroot ∈ s.effective ∧ .chroot ∈ s.permitted ∧ CAP_SYS_CHROOT ∈ s.proc.effective :=
  ⟨_, rfl, by decide, by decide, by decide⟩

end TftpHpa
