import Shreduler.TokioScheduler.Lemmas.FiberSpawn

/-!
This module proves when a call of `TokioScheduler::fiber` hands control back to its caller in time, be
the caller the root fiber or not.
-/

namespace Shreduler
namespace State

variable {s s' : State} {f p child : FiberId}

def InFiberCall (s : State) (p child : FiberId) : Prop := s.status p = .suspended (.fiberImpl child)

instance (s : State) (p child : FiberId) : Decidable (s.InFiberCall p child) :=
  inferInstanceAs (Decidable (_ = _))

def Yielded (s : State) (f : FiberId) : Prop :=
  match s.status f with
  | .suspended (.spawnAndTransfer _) | .suspended .transferBack | .terminated => True
  | _ => False

instance (s : State) (f : FiberId) : Decidable (s.Yielded f) := by
  unfold Yielded
  generalize s.status f = status
  casesm* FiberStatus, Suspension <;> infer_instance

/--
Control is on its way back to the caller of `fiber` if and only if the new fiber suspends in a hook or
is done.
-/
def HandsBackInTime (s : State) : Prop :=
  ∀ p child, s.InFiberCall p child →
    ((∃ payload, s.control = .transfer p payload) ↔ s.Yielded child)

def CapturedWaits (s : State) (f : FiberId) : Prop :=
  match s.transferBackTo f with
  | some p => s.InFiberCall p f
  | none => False

instance (s : State) (f : FiberId) : Decidable (s.CapturedWaits f) := by
  unfold CapturedWaits
  generalize s.transferBackTo f = parent
  casesm Option FiberId <;> infer_instance

def HandsBack (s : State) : Event → Prop
  | .hook _ | .block _ => ∀ f, s.rubyFiber = some f → ¬ s.runLoop.Borrows → ¬ s.CapturedWaits f
  | .finish result => ∀ f, s.rubyFiber = some f → result.IsJump → ¬ s.CapturedWaits f
  | _ => True

/-! ### The invariant -/

structure Nested (s : State) : Prop where
  older : ∀ p child, s.InFiberCall p child → p < child ∧ child < s.nextFiber
  captured : ∀ p child, s.InFiberCall p child →
    s.transferBackTo child = if p = rootFiber then none else some p
  chain : ∀ p child, s.InFiberCall p child →
    s.status child = .running ∨ (∃ child', s.InFiberCall child child') ∨
      (∃ payload, s.control = .transfer p payload) ∧ s.Yielded child

namespace Nested

theorem new : Nested .new := by
  have hnone (p child : FiberId) : ¬ State.new.InFiberCall p child := by
    intro h
    by_cases hp : p = rootFiber
    . simp [InFiberCall, State.new, hp] at h
    . simp [InFiberCall, State.new, Function.update_of_ne hp] at h
  constructor
  all_goals
    intro p child h
    exact absurd h (hnone p child)

theorem congr (h : Nested s) (hstatus : s'.status = s.status) (hcontrol : s'.control = s.control)
    (hback : s'.transferBackTo = s.transferBackTo) (hnext : s'.nextFiber = s.nextFiber)
    : Nested s' := by
  have hcall (p child : FiberId) : s'.InFiberCall p child ↔ s.InFiberCall p child := by
    unfold InFiberCall
    rw [hstatus]
  have hyielded (f : FiberId) : s'.Yielded f ↔ s.Yielded f := by
    unfold Yielded
    rw [hstatus]
  constructor
  . intro p child hp
    rw [hnext]
    exact h.older p child ((hcall p child).mp hp)
  . intro p child hp
    rw [hback]
    exact h.captured p child ((hcall p child).mp hp)
  . intro p child hp
    simp only [hcall, hyielded, hstatus, hcontrol]
    exact h.chain p child ((hcall p child).mp hp)

theorem last (hwf : Wf s) (h : Nested s) {p child : FiberId} (hp : s.InFiberCall p child)
    : ∃ q child', s.InFiberCall q child' ∧ p ≤ q ∧
        (s.control = .running child' ∨
          (∃ payload, s.control = .transfer q payload) ∧ s.Yielded child') := by
  obtain ⟨hlt, hborn⟩ := h.older p child hp
  obtain hrunning | ⟨child', hchild⟩ | hyielded := h.chain p child hp
  . exact ⟨p, child, hp, Nat.le_refl p, .inl ((hwf.running child).mp hrunning)⟩
  . obtain ⟨q, last, hq, hle, hlast⟩ := last hwf h hchild
    exact ⟨q, last, hq, Nat.le_trans (Nat.le_of_lt hlt) hle, hlast⟩
  . exact ⟨p, child, hp, Nat.le_refl p, .inr hyielded⟩
termination_by s.nextFiber - p
decreasing_by exact Nat.sub_lt_sub_left (Nat.lt_trans hlt hborn) hlt

theorem handsBackInTime (hwf : Wf s) (h : Nested s) : s.HandsBackInTime := by
  intro p child hp
  obtain hrunning | ⟨child', hchild⟩ | ⟨htransfer, hyielded⟩ := h.chain p child hp
  . refine iff_of_false ?_ (by simp [Yielded, hrunning])
    rintro ⟨payload, hcontrol⟩
    rw [(hwf.running child).mp hrunning] at hcontrol
    contradiction
  . have hyielded : ¬ s.Yielded child := by
      have hstatus : s.status child = .suspended (.fiberImpl child') := hchild
      simp [Yielded, hstatus]
    refine iff_of_false ?_ hyielded
    rintro ⟨payload, hcontrol⟩
    obtain ⟨q, last, hq, hle, hrunning | ⟨⟨payload', hcontrol'⟩, -⟩⟩ := h.last hwf hchild
    . rw [hrunning] at hcontrol
      contradiction
    . -- control cannot go to `p` and to the younger caller at once
      rw [hcontrol'] at hcontrol
      injection hcontrol with heq
      have hlt := Nat.lt_of_lt_of_le (h.older p child hp).1 hle
      exact absurd (heq ▸ hlt) (Nat.lt_irrefl _)
  . exact iff_of_true htransfer hyielded

/-! ### What steps do to the chain -/

theorem inFiberCall_of_update {status : FiberStatus}
    (hstatus : s'.status = Function.update s.status f status)
    (hne : ∀ child, status ≠ .suspended (.fiberImpl child)) (hp : s'.InFiberCall p child)
    : p ≠ f ∧ s.InFiberCall p child := by
  unfold InFiberCall at hp
  rw [hstatus] at hp
  by_cases heq : p = f
  . rw [heq, Function.update_self] at hp
    exact absurd hp (hne child)
  . rw [Function.update_of_ne heq] at hp
    exact ⟨heq, hp⟩

theorem inFiberCall_update {status : FiberStatus}
    (hstatus : s'.status = Function.update s.status f status) (hne : p ≠ f)
    (hp : s.InFiberCall p child) : s'.InFiberCall p child := by
  unfold InFiberCall
  rw [hstatus, Function.update_of_ne hne]
  exact hp

theorem leave (hwf : Wf s) (h : Nested s) (status : FiberStatus) (hrunning : s.control = .running f)
    (hstatus : s'.status = Function.update s.status f status)
    (hback : s'.transferBackTo = s.transferBackTo) (hnext : s'.nextFiber = s.nextFiber)
    (hne : ∀ child, status ≠ .suspended (.fiberImpl child))
    (hcaller : ∀ p, s.InFiberCall p f → (∃ payload, s'.control = .transfer p payload) ∧ s'.Yielded f)
    : Nested s' := by
  have hold {p child : FiberId} (hp : s'.InFiberCall p child) :=
    (inFiberCall_of_update hstatus hne hp).2
  constructor
  . intro p child hp
    rw [hnext]
    exact h.older p child (hold hp)
  . intro p child hp
    rw [hback]
    exact h.captured p child (hold hp)
  . intro p child hp
    obtain hchild | ⟨child', hchild⟩ | ⟨⟨payload, hcontrol⟩, -⟩ := h.chain p child (hold hp)
    . rw [hwf.running child, hrunning] at hchild
      injection hchild with heq
      exact .inr (.inr (heq ▸ hcaller p (heq ▸ hold hp)))
    . have hne : child ≠ f := by
        rintro rfl
        have hstatus : s.status child = .suspended (.fiberImpl child') := hchild
        rw [(hwf.running child).mpr hrunning] at hstatus
        contradiction
      exact .inr (.inl ⟨child', inFiberCall_update hstatus hne hchild⟩)
    . rw [hrunning] at hcontrol
      contradiction

theorem arrive (hwf : Wf s) (h : Nested s) {status : FiberStatus} {payload : Payload}
    (hcontrol : s.control = .transfer f payload)
    (hstatus : s'.status = Function.update s.status f status)
    (hback : s'.transferBackTo = s.transferBackTo) (hnext : s'.nextFiber = s.nextFiber)
    (hne : ∀ child, status ≠ .suspended (.fiberImpl child))
    (hf : ∀ child, s.InFiberCall f child → status = .running) : Nested s' := by
  have hold {p child : FiberId} (hp : s'.InFiberCall p child) :=
    inFiberCall_of_update hstatus hne hp
  constructor
  . intro p child hp
    rw [hnext]
    exact h.older p child (hold hp).2
  . intro p child hp
    rw [hback]
    exact h.captured p child (hold hp).2
  . intro p child hp
    obtain hchild | ⟨child', hchild⟩ | ⟨⟨payload', hcontrol'⟩, -⟩ := h.chain p child (hold hp).2
    . rw [hwf.running child, hcontrol] at hchild
      contradiction
    . by_cases heq : child = f
      . left
        rw [hstatus, heq, Function.update_self]
        exact hf child' (heq ▸ hchild)
      . exact .inr (.inl ⟨child', inFiberCall_update hstatus heq hchild⟩)
    . rw [hcontrol] at hcontrol'
      injection hcontrol' with heq
      exact absurd heq.symm (hold hp).1

theorem fiberImpl (hwf : Wf s) (h : Nested s) (hrunning : s.control = .running f)
    : Nested (s.fiberImpl f) := by
  have hlt : f < s.nextFiber := hwf.lt_nextFiber (hwf.alive_of_running hrunning)
  have hnew : (s.fiberImpl f).status s.nextFiber = .running := by
    simp [State.fiberImpl, setStatus]
  have hself : (s.fiberImpl f).status f = .suspended (.fiberImpl s.nextFiber) := by
    simp [State.fiberImpl, setStatus, Function.update_of_ne (Nat.ne_of_lt hlt)]
  have hother {p : FiberId} (hpf : p ≠ f) (hpnew : p ≠ s.nextFiber)
      : (s.fiberImpl f).status p = s.status p := by
    simp [State.fiberImpl, setStatus, Function.update_of_ne hpf, Function.update_of_ne hpnew]
  -- a caller of the new state is the calling fiber, or an old one
  have hcases {p child : FiberId} (hp : (s.fiberImpl f).InFiberCall p child)
      : p = f ∧ child = s.nextFiber ∨ p ≠ f ∧ s.InFiberCall p child := by
    by_cases hpf : p = f
    . unfold InFiberCall at hp
      rw [hpf, hself] at hp
      simp only [FiberStatus.suspended.injEq, Suspension.fiberImpl.injEq] at hp
      exact .inl ⟨hpf, hp.symm⟩
    . refine .inr ⟨hpf, ?_⟩
      by_cases hpnew : p = s.nextFiber
      . unfold InFiberCall at hp
        rw [hpnew, hnew] at hp
        contradiction
      . unfold InFiberCall at hp ⊢
        rwa [hother hpf hpnew] at hp
  constructor
  . intro p child hp
    obtain ⟨rfl, rfl⟩ | ⟨-, hp⟩ := hcases hp
    . exact ⟨hlt, Nat.lt_succ_self _⟩
    . obtain ⟨holder, hborn⟩ := h.older p child hp
      exact ⟨holder, Nat.lt_succ_of_lt hborn⟩
  . intro p child hp
    obtain ⟨rfl, rfl⟩ | ⟨-, hp⟩ := hcases hp
    . simp [State.fiberImpl, isCurrentFiberRoot, eq_comm]
    . have hne : child ≠ s.nextFiber := Nat.ne_of_lt (h.older p child hp).2
      simp only [State.fiberImpl, Function.update_of_ne hne]
      exact h.captured p child hp
  . intro p child hp
    obtain ⟨rfl, rfl⟩ | ⟨-, hp⟩ := hcases hp
    . exact .inl hnew
    . obtain hchild | ⟨child', hchild⟩ | ⟨⟨payload, hcontrol⟩, -⟩ := h.chain p child hp
      . rw [hwf.running child, hrunning] at hchild
        injection hchild with heq
        exact .inr (.inl ⟨s.nextFiber, by rw [InFiberCall, ← heq, hself]⟩)
      . have hchildf : child ≠ f := by
          rintro rfl
          have hstatus : s.status child = .suspended (.fiberImpl child') := hchild
          rw [(hwf.running child).mpr hrunning] at hstatus
          contradiction
        have hne : child ≠ s.nextFiber := Nat.ne_of_lt (h.older p child hp).2
        refine .inr (.inl ⟨child', ?_⟩)
        unfold InFiberCall
        rw [hother hchildf hne]
        exact hchild
      . rw [hrunning] at hcontrol
        contradiction

theorem capturedWaits (h : Nested s) (hp : s.InFiberCall p f) (hroot : p ≠ rootFiber)
    : s.CapturedWaits f := by
  have hback := h.captured p f hp
  rw [if_neg hroot] at hback
  simp only [CapturedWaits, hback]
  exact hp

theorem yield (hwf : Wf s) (h : Nested s) {future : Future} (hrunning : s.control = .running f)
    (hspawn : Spawned s f future s') (hC : ¬ s.CapturedWaits f) : Nested (s'.yield f s.nextTask) := by
  have hthread := hspawn.thread
  refine h.leave hwf (.suspended (.spawnAndTransfer s.nextTask)) hrunning ?_
    (by exact hthread.transferBackTo) (by exact hthread.nextFiber) (by simp) ?_
  . rw [status_yield, hthread.status]
  . intro p hp
    -- only the root fiber gets control back from a hook
    obtain rfl : p = rootFiber := by
      by_contra hroot
      exact hC (h.capturedWaits hp hroot)
    refine ⟨⟨_, rfl⟩, ?_⟩
    unfold Yielded
    rw [status_yield, Function.update_self]
    trivial

theorem finish (hwf : Wf s) (h : Nested s) {result : Result Value} (hrunning : s.control = .running f)
    (hC : result.IsJump → ¬ s.CapturedWaits f) : Nested (s.finish f result) := by
  have hdies (result' : Result Value) (hcaller : ∀ p, s.InFiberCall p f → p = rootFiber)
      : Nested (s.terminate f result') := by
    refine h.leave hwf _ hrunning rfl rfl rfl (by simp) ?_
    intro p hp
    obtain rfl := hcaller p hp
    exact ⟨⟨_, rfl⟩, by simp [Yielded, terminate, setStatus]⟩
  have hcaptured {p parent : FiberId} (hback : s.transferBackTo f = some parent)
      (hp : s.InFiberCall p f) : p = parent ∧ p ≠ rootFiber := by
    rw [h.captured p f hp] at hback
    split at hback
    . contradiction
    . next hroot =>
      injection hback with heq
      exact ⟨heq, hroot⟩
  have hfinishes := finishes s f result
  generalize s.finish f result = s' at hfinishes ⊢
  cases hfinishes with
  | root hback =>
    apply hdies
    intro p hp
    by_contra hroot
    rw [h.captured p f hp, if_neg hroot] at hback
    contradiction
  | deadParent hback hdead =>
    apply hdies
    intro p hp
    obtain ⟨rfl, -⟩ := hcaptured hback hp
    have halive : s.isAlive p := isAlive_of_suspended hp
    have hlt := (h.older p f hp).1
    exact absurd (hdead.resolve_left (not_not_intro halive)) (Nat.ne_of_lt hlt)
  | jump hback halive hne hjump =>
    apply hdies
    intro p hp
    exact absurd (h.capturedWaits hp (hcaptured hback hp).2) (hC hjump)
  | back hback =>
    refine h.leave hwf _ hrunning rfl rfl rfl (by simp) ?_
    intro p hp
    obtain ⟨rfl, -⟩ := hcaptured hback hp
    exact ⟨⟨_, rfl⟩, by simp [Yielded, transfer, setStatus]⟩

theorem effect (hwf : Wf s) (h : Nested s) {e : Event} (hC : s.HandsBack e)
    (hfinish : ∀ result, e ≠ .finish result) (heffect : Effect s e s') : Nested s' := by
  have hthread (hthread : SameThread s s') : Nested s' :=
    h.congr hthread.status hthread.control hthread.transferBackTo hthread.nextFiber
  cases heffect with
  | still hstill => exact hthread hstill.thread
  | switchHook hcontrol hstatus | switchLoop hcontrol hstatus | switchTimeout hcontrol hstatus
  | switchFiber hcontrol hstatus =>
    exact h.arrive hwf hcontrol rfl rfl rfl (by simp) fun _ _ => rfl
  | switchBack hcontrol hstatus =>
    refine h.arrive hwf hcontrol rfl rfl rfl (by simp) ?_
    intro child hchild
    simp [InFiberCall, hstatus] at hchild
  | fiber hf => exact h.fiberImpl hwf (Wf.rubyFiber_running hf)
  | hook hf hloop => exact h.yield hwf (Wf.rubyFiber_running hf) (.addTask s _ _) (hC _ hf hloop)
  | block hf hloop => exact h.yield hwf (Wf.rubyFiber_running hf) (.block s _ _) (hC _ hf hloop)
  | hookRoot => exact hthread (Spawned.addTask s _ _).thread
  | blockRoot => exact hthread (Spawned.block s _ _).thread
  | @timeoutAfter f duration =>
    have hadd := (Spawned.addTask s f (.timeout (s.now + duration) f)).thread
    exact h.congr hadd.status hadd.control hadd.transferBackTo hadd.nextFiber
  | endTimeout | joinDrop => exact h.congr rfl rfl rfl rfl
  | finishDies | finishBack => exact absurd rfl (hfinish _)
  | pollRaise hloop | joinResume hloop =>
    refine h.leave hwf _ hloop.2 rfl rfl rfl (by simp) ?_
    intro p hp
    exact absurd (h.older p rootFiber hp).1 (Nat.not_lt_zero p)

theorem step (hwf : Wf s) (h : Nested s) {e : Event} (hC : s.HandsBack e)
    (hstep : step s e = some s') : Nested s' := by
  cases e with
  | finish result =>
    obtain ⟨f, hf, -, -, rfl⟩ := finish_of_step hstep
    exact h.finish hwf (Wf.rubyFiber_running hf) (hC f hf)
  | _ =>
    obtain ⟨s'', heffect, houtcome⟩ := (step_sound hwf hstep).outcome
    have hs'' := h.effect hwf hC (by simp) heffect
    exact hs''.congr houtcome.status houtcome.control houtcome.transferBackTo houtcome.nextFiber

/-! ### Steps that miss the condition -/

theorem late_of_yielded (h : Nested s) (hwaits : s.CapturedWaits f)
    (hstatus : ∀ p ≠ f, s'.status p = s.status p) (hyielded : s'.Yielded f) {payload : Payload}
    (hcontrol : s'.control = .transfer rootFiber payload) : ¬ s'.HandsBackInTime := by
  intro hintime
  unfold CapturedWaits at hwaits
  split at hwaits
  . next p hback =>
    have hne : p ≠ f := Nat.ne_of_lt (h.older p f hwaits).1
    have hp : s'.InFiberCall p f := (hstatus p hne).trans hwaits
    obtain ⟨payload', hcontrol'⟩ := (hintime p f hp).mpr hyielded
    rw [hcontrol] at hcontrol'
    injection hcontrol' with hroot
    rw [h.captured p f hwaits, if_pos hroot.symm] at hback
    contradiction
  . exact hwaits

theorem late_of_yield (h : Nested s) (hwaits : s.CapturedWaits f) {future : Future}
    (hspawn : Spawned s f future s') : ¬ (s'.yield f s.nextTask).HandsBackInTime := by
  have hthread := hspawn.thread
  refine h.late_of_yielded hwaits ?_ ?_ rfl
  . intro p hp
    rw [status_yield, hthread.status, Function.update_of_ne hp]
  . unfold Yielded
    rw [status_yield, Function.update_self]
    trivial

theorem handsBack_of_inTime (hwf : Wf s) (h : Nested s) {e : Event} (hstep : State.step s e = some s')
    (hintime : s'.HandsBackInTime) : s.HandsBack e := by
  have hne {f : FiberId} (hwaits : s.CapturedWaits f) : f ≠ rootFiber := by
    rintro rfl
    unfold CapturedWaits at hwaits
    split at hwaits
    . next p _ => exact absurd (h.older p rootFiber hwaits).1 (Nat.not_lt_zero p)
    . exact hwaits
  cases e with
  | hook hook =>
    intro f hf hloop hwaits
    simp only [State.step, hf, Option.map_some, Option.some.injEq] at hstep
    rw [spawnAndTransfer_of_ne_root hwf hloop (hne hwaits)] at hstep
    subst hstep
    exact h.late_of_yield hwaits (.addTask s f _) hintime
  | block timeout =>
    intro f hf hloop hwaits
    simp only [State.step, hf, Option.map_some, Option.some.injEq] at hstep
    rw [block_of_ne_root hwf hloop (hne hwaits)] at hstep
    subst hstep
    exact h.late_of_yield hwaits (.block s f _) hintime
  | finish result =>
    intro f hf hjump hwaits
    obtain ⟨g, hg, -, -, rfl⟩ := finish_of_step hstep
    rw [hf] at hg
    injection hg with hg
    subst hg
    have hdies : s.finish f result = s.terminate f result := by
      have hwaits := hwaits
      unfold CapturedWaits at hwaits
      split at hwaits
      . next p hback =>
        have halive : s.isAlive p := isAlive_of_suspended hwaits
        have holder : p ≠ f := Nat.ne_of_lt (h.older p f hwaits).1
        obtain ⟨tag, rfl⟩ := Result.isJump_iff.mp hjump
        simp only [State.finish, hback, checkSuspended_eq_ok_iff.mpr ⟨halive, holder⟩, raise]
      . contradiction
    rw [hdies] at hintime
    refine h.late_of_yielded hwaits ?_ ?_ rfl hintime
    . intro p hp
      rw [status_terminate, Function.update_of_ne hp]
    . unfold Yielded
      rw [status_terminate, Function.update_self]
      trivial
  | _ => trivial

end Nested

/--
Every call of `fiber`, nested or not, gets control back when the new fiber first suspends in a hook or
is done, in exactly the runs in which no nested fiber suspends in a hook while its caller waits for it.
-/
theorem hands_back_iff {es : List Event}
    : Lts.Always step HandsBackInTime .new es ↔ Lts.Along step HandsBack .new es := by
  apply Lts.always_iff_along (J := fun s => Wf s ∧ Nested s)
  . intro s e s' ⟨hwf, h⟩ hC hstep
    exact ⟨hwf.step hstep, h.step hwf hC hstep⟩
  . exact fun s ⟨hwf, h⟩ => h.handsBackInTime hwf
  . exact fun s e s' ⟨hwf, h⟩ hstep hintime => h.handsBack_of_inTime hwf hstep hintime
  . exact ⟨.new, .new⟩

theorem hands_back_late : ¬ ∀ es, Lts.Always step HandsBackInTime .new es := by
  intro hall
  have halways := hall [.fiber, .fiber, .block none, .switch, .run, .poll 0 {}]
  refine Lts.not_always_of_run (Q := fun s => s.InFiberCall 1 2 ∧ s.Yielded 2 ∧ s.AtJoinNext)
    (by decide) ?_ halways
  intro s hs hintime
  obtain ⟨hcall, hyielded, hloop⟩ := of_decide_eq_true hs
  obtain ⟨payload, hcontrol⟩ := (hintime 1 2 hcall).mpr hyielded
  rw [hloop.2] at hcontrol
  contradiction

end State
end Shreduler
