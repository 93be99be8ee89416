import Shreduler.TokioScheduler.Lemmas.Tasks

/-!
This module proves when the hooks of a running fiber find the two cells of the scheduler unborrowed.
-/

namespace Shreduler
namespace State

variable {s s' : State} {f : FiberId}

def Executes (s : State) (f : FiberId) : Prop :=
  s.control = .running f ∨
    (∃ payload, s.control = .transfer f payload) ∧ s.status f ≠ .suspended .transferBack

def Unpoisoned (s : State) (f : FiberId) : Prop :=
  ∀ message, (∀ future, (s.spawn f future).1 ≠ .error (GcCell.newError message)) ∧
    (∀ timeout, (s.block f timeout).1 ≠ .error (GcCell.newError message)) ∧
      ∀ fiberToWake, (s.unblock (some f) fiberToWake).1 ≠ .error (GcCell.newError message)

/-- While a fiber other than the root fiber executes, no guard of the two cells is live. -/
def NoGuardLive (s : State) : Prop :=
  ∀ f, f ≠ rootFiber → s.Executes f →
    s.futuresToRun.Free ∧ s.blockers.Free ∧ s.Unpoisoned f

/--
The step enters the code of no fiber from inside of a poll, neither through a timeout that expired
nor through a fiber scheduled by code that a future runs on the root fiber.
-/
def EntersNoFiber (s : State) : Event → Prop
  | .poll t env =>
    ∀ task timeoutAt f, s.findTask t = some task → task.status = .pending →
      task.future = .timeout timeoutAt f → timerOver env.timerFired s.now timeoutAt →
        (∃ v exception, env.newInstance = (.ok v, .ok exception)) →
          ∀ sus, s.status f = .suspended sus → f = rootFiber ∨ sus = .transferBack
  | .fiber => s.rubyFiber = some rootFiber → s.runLoop = .idle
  | _ => True

theorem Executes.not_root (h : s.Executes f) (hne : f ≠ rootFiber)
    : s.control ≠ .running rootFiber := by
  intro hroot
  cases h with
  | inl hrunning =>
    rw [hroot] at hrunning
    injection hrunning with heq
    exact hne heq.symm
  | inr htransfer =>
    obtain ⟨⟨payload, hcontrol⟩, -⟩ := htransfer
    rw [hroot] at hcontrol
    contradiction

theorem Executes.eq_of_running {k : FiberId} (h : s.Executes f) (hk : s.control = .running k)
    : f = k := by
  simp only [Executes, hk, Control.running.injEq, reduceCtorEq, exists_false, false_and,
    or_false] at h
  exact h.symm

theorem Executes.of_transfer {payload : Payload} {sus : Suspension}
    (hcontrol : s.control = .transfer f payload) (hstatus : s.status f = .suspended sus)
    (hsus : sus ≠ .transferBack) : s.Executes f :=
  .inr ⟨⟨payload, hcontrol⟩, by simp [hstatus, hsus]⟩

theorem Executes.congr (hcontrol : s'.control = s.control) (hstatus : s'.status = s.status)
    (h : s'.Executes f) : s.Executes f := by
  simpa only [Executes, hcontrol, hstatus] using h

theorem not_executes_of_root (hne : f ≠ rootFiber)
    (h : s.control = .running rootFiber ∨ ∃ payload, s.control = .transfer rootFiber payload)
    : ¬ s.Executes f := by
  intro hexecutes
  cases h with
  | inl hroot => exact hexecutes.not_root hne hroot
  | inr htransfer =>
    obtain ⟨payload, htransfer⟩ := htransfer
    simp only [Executes, htransfer, reduceCtorEq, Control.transfer.injEq, false_or] at hexecutes
    exact hne hexecutes.1.choose_spec.1.symm

theorem unpoisoned_of_free (h : Wf s) (hloop : ¬ s.runLoop.Borrows) (hne : f ≠ rootFiber)
    : s.Unpoisoned f := by
  intro message
  refine ⟨?_, ?_, ?_⟩
  . intro future
    rw [spawn_of_free (h.free hloop)]
    simp
  . intro timeout
    rw [block_of_ne_root h hloop hne]
    simp
  . intro fiberToWake
    rw [unblock_of_free h.blockers]
    cases fiberToWake with
    | fiber g =>
      simp only [fiberOfValue]
      split
      . next e hcheck =>
        unfold checkSuspended at hcheck
        split at hcheck
        . injection hcheck with hcheck
          simp [← hcheck, GcCell.newError]
        . split at hcheck
          . injection hcheck with hcheck
            simp [← hcheck, GcCell.newError]
          . contradiction
      . split
        . simp
        . split <;> simp [newBaseError, GcCell.newError]
    | _ => simp [fiberOfValue, newTypeError, GcCell.newError]

structure Unborrowed (s : State) : Prop where
  wf : Wf s
  executes : ∀ f, f ≠ rootFiber → s.Executes f → ¬ s.runLoop.Borrows

namespace Unborrowed

theorem new : Unborrowed .new where
  wf := .new
  executes f hne h := by
    simp [Executes, State.new, hne.symm] at h

theorem noGuardLive (h : Unborrowed s) : s.NoGuardLive := by
  intro f hne hexecutes
  have hloop := h.executes f hne hexecutes
  exact ⟨h.wf.free hloop, h.wf.blockers, unpoisoned_of_free h.wf hloop hne⟩

theorem step (h : Unborrowed s) {e : Event} (hC : s.EntersNoFiber e)
    (hstep : State.step s e = some s') : Unborrowed s' := by
  have hsound := step_sound h.wf hstep
  refine ⟨hsound.wf, ?_⟩
  intro f hne hexecutes
  obtain ⟨s'', heffect, herase⟩ := hsound.effect
  have hexecutes'' : s''.Executes f := by
    have : s''.erase.Executes f := herase ▸ hexecutes
    exact this
  -- Unless the root fiber runs before or after the step, the event loop stays where it is.
  have hkeep {g : FiberId} (hg : g ≠ rootFiber) (hbefore : s.Executes g)
      : ¬ s'.runLoop.Borrows := by
    have hloop := hsound.runLoop.resolve_right
      (not_or.mpr ⟨hbefore.not_root hg, hexecutes.not_root hne⟩)
    rw [hloop]
    exact h.executes g hg hbefore
  have hroot (hcontrol : s''.control = .running rootFiber ∨
      ∃ payload, s''.control = .transfer rootFiber payload) : ¬ s'.runLoop.Borrows :=
    absurd hexecutes'' (not_executes_of_root hne hcontrol)
  cases heffect with
  | still hstill =>
    have hthread := hstill.thread
    exact hkeep hne (hexecutes''.congr hthread.control hthread.status)
  | @switchHook k t payload hcontrol hstatus =>
    have heq : f = k := hexecutes''.eq_of_running rfl
    exact hkeep hne (heq ▸ .of_transfer hcontrol hstatus (by simp))
  | @switchFiber k child payload hcontrol hstatus =>
    have heq : f = k := hexecutes''.eq_of_running rfl
    exact hkeep hne (heq ▸ .of_transfer hcontrol hstatus (by simp))
  | switchBack | hook | block | finishDies => exact hroot (.inr ⟨_, rfl⟩)
  | switchLoop | switchTimeout => exact hroot (.inl rfl)
  | hookRoot | timeoutAfter =>
    have hthread := SameThread.addTask s
    exact hkeep hne (hexecutes''.congr (hthread _ _).control (hthread _ _).status)
  | @blockRoot timeout =>
    have hthread := (Spawned.block s rootFiber timeout).thread
    exact hkeep hne (hexecutes''.congr hthread.control hthread.status)
  | endTimeout => exact hkeep hne hexecutes''
  | @fiber k hk =>
    by_cases hkroot : k = rootFiber
    . simp only [State.step, hk, Option.map_some, Option.some.injEq] at hstep
      have hloop : s'.runLoop = s.runLoop := hstep ▸ rfl
      rw [hloop, hC (hkroot ▸ hk)]
      exact id
    . exact hkeep hkroot (.inl (Wf.rubyFiber_running hk))
  | finishBack hf hk => exact hkeep hk (.inl (Wf.rubyFiber_running hf))
  | @pollRaise t env task timeoutAt g exception _ hfind hstatus hfuture hexpired hinstance hg
      hsuspended =>
    obtain ⟨sus, hsus⟩ := hsuspended
    obtain ⟨v, hinstance⟩ := hinstance
    have hparked := hC task timeoutAt g hfind hstatus hfuture hexpired ⟨v, exception, hinstance⟩ sus
      hsus
    obtain ⟨⟨payload, hcontrol⟩, hnot⟩ := hexecutes''.resolve_left (by simp [transfer])
    simp only [transfer, Control.transfer.injEq] at hcontrol
    rw [status_transfer, ← hcontrol.1, Function.update_of_ne hg] at hnot
    exact absurd (hparked.resolve_left hg ▸ hsus) hnot
  | @joinResume t =>
    have hroot : s'.status rootFiber = .suspended (.resumeIfAlive t) := by
      have : s'.erase.status rootFiber = .suspended (.resumeIfAlive t) := by
        rw [herase]
        simp [erase]
      exact this
    rw [(hsound.wf.position _ _ hroot).2]
    exact id
  | joinDrop hloop => exact hroot (.inl hloop.2)

theorem entersNoFiber (h : Unborrowed s) {e : Event} (hstep : State.step s e = some s')
    (hguard : s'.NoGuardLive) : s.EntersNoFiber e := by
  have hwf := h.wf.step hstep
  have hfree {f : FiberId} (hne : f ≠ rootFiber) (hexecutes : s'.Executes f)
      : ¬ s'.runLoop.Borrows := by
    intro hloop
    exact GcCell.not_free_of_mutBorrowed (hwf.mutBorrowed hloop) (hguard f hne hexecutes).1
  cases e with
  | poll t env =>
    intro task timeoutAt f hfind hstatus hfuture hexpired ⟨v, exception, hinstance⟩ sus hsus
    by_cases hne : f = rootFiber
    . exact .inl hne
    . refine .inr ?_
      have hcheck : s.checkSuspended (some rootFiber) f = .ok () := by
        simp [checkSuspended, isAlive, hsus, Ne.symm hne]
      simp only [State.step, Option.ite_none_right_eq_some] at hstep
      obtain ⟨-, hstep⟩ := hstep
      simp only [State.poll, hfind, hstatus, pollFuture, hfuture, pollTimeout,
        hexpired, if_true, hinstance, hcheck, Option.some.injEq] at hstep
      subst hstep
      apply Decidable.byContradiction
      intro hnot
      refine hfree hne (.of_transfer rfl ?_ hnot) trivial
      exact (Function.update_of_ne hne _ s.status).trans hsus
  | fiber =>
    intro hroot
    simp only [State.step, hroot, Option.map_some, Option.some.injEq] at hstep
    subst hstep
    cases Wf.rubyFiber_root hroot with
    | inl hidle => exact hidle
    | inr hpolling =>
      obtain ⟨t, hpolling⟩ := hpolling
      have hne : s.nextFiber ≠ rootFiber := Nat.ne_of_gt (h.wf.lt_nextFiber h.wf.rootAlive)
      have hloop : (s.fiberImpl rootFiber).runLoop.Borrows := by
        simp only [fiberImpl, setStatus, hpolling]
        trivial
      exact absurd hloop (hfree hne (.inl rfl))
  | _ => trivial

end Unborrowed

/--
Throughout a run no guard is live while a fiber executes, if and only if no step of the run enters
the code of a fiber from inside of a poll.
-/
theorem no_guard_live_iff (es : List Event)
    : Lts.Always step NoGuardLive .new es ↔ Lts.Along step EntersNoFiber .new es := by
  apply Lts.always_iff_along (J := Unborrowed)
  . intro s e s' h hC hstep
    exact h.step hC hstep
  . intro s h
    exact h.noGuardLive
  . intro s e s' h hstep hguard
    exact h.entersNoFiber hstep hguard
  . exact .new

theorem guard_live : ¬ ∀ es, Lts.Always step NoGuardLive .new es := by
  intro hall
  have hrun : (Lts.run step .new [.fiber, .timeoutAfter 5000000, .hook (.kernelSleep 10000000),
      .switch, .run, .elapse 6000000, .poll 0 { timerFired := true }, .switch]).any fun s =>
        s.control = .running 1 ∧ ¬ s.futuresToRun.Free := by
    decide
  refine Lts.not_always_of_run hrun ?_ (hall _)
  intro s hs hguard
  obtain ⟨hcontrol, hborrowed⟩ := of_decide_eq_true hs
  exact hborrowed (hguard 1 (by decide) (.inl hcontrol)).1

end State
end Shreduler
