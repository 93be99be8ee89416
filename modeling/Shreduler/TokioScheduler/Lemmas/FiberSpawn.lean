import Shreduler.TokioScheduler.Lemmas.Run
import Shreduler.TokioScheduler.Lemmas.Tasks

/-!
This module contains the invariant on nested fibers and the fibers their wrapped blocks captured, and
the ways in which the block of a fiber ends.
-/

namespace Shreduler
namespace State

variable {s s' : State} {f g : FiberId}

def Unfinished (s : State) (f : FiberId) : Prop :=
  s.isAlive f ∧ s.status f ≠ .suspended .transferBack

instance (s : State) (f : FiberId) : Decidable (s.Unfinished f) :=
  inferInstanceAs (Decidable (_ ∧ _))

theorem isAlive_of_suspended {sus : Suspension} (h : s.status f = .suspended sus)
    : s.isAlive f := by
  simp [isAlive, h]

theorem isAlive_update {status : FiberStatus}
    (hstatus : s'.status = Function.update s.status f status) (hf : s.isAlive f)
    (h : s'.isAlive g) : s.isAlive g := by
  by_cases heq : g = f
  . exact heq ▸ hf
  . simpa only [isAlive, hstatus, Function.update_of_ne heq] using h

theorem Unfinished.of_running (hwf : Wf s) (hf : s.control = .running f) : s.Unfinished f := by
  refine ⟨hwf.alive_of_running hf, ?_⟩
  simp [(hwf.running f).mpr hf]

theorem Unfinished.update {status : FiberStatus}
    (hstatus : s'.status = Function.update s.status f status)
    (hf : s.Unfinished f ∨ status = .terminated) (h : s'.Unfinished g) : s.Unfinished g := by
  by_cases heq : g = f
  . cases hf with
    | inl hf => exact heq ▸ hf
    | inr hdead => simp [Unfinished, isAlive, hstatus, heq, hdead] at h
  . simpa only [Unfinished, isAlive, hstatus, Function.update_of_ne heq] using h

def ParentsOlder (s : State) : Prop :=
  ∀ f parent, s.transferBackTo f = some parent → parent < f ∧ f < s.nextFiber

namespace ParentsOlder

theorem new : ParentsOlder .new := by
  intro f parent h
  simp [State.new] at h

theorem effect (hwf : Wf s) (h : ParentsOlder s) {e : Event}
    (heffect : Effect s e s') : ParentsOlder s' := by
  have hsame {X : State} (hback : X.transferBackTo = s.transferBackTo)
      (hnext : X.nextFiber = s.nextFiber) : ParentsOlder X := by
    intro f parent hf
    rw [hback] at hf
    rw [hnext]
    exact h f parent hf
  cases heffect with
  | still hstill =>
    have hthread := hstill.thread
    exact hsame hthread.transferBackTo hthread.nextFiber
  | @fiber f hf =>
    have hlt := hwf.lt_nextFiber (hwf.alive_of_running (Wf.rubyFiber_running hf))
    intro k parent hback
    simp only [State.fiberImpl] at hback
    by_cases hk : k = s.nextFiber
    . -- the new fiber captures the running one, unless that is the root fiber
      rw [hk, Function.update_self, ite_eq_iff] at hback
      obtain ⟨-, hnone⟩ | ⟨-, hsome⟩ := hback
      . contradiction
      . injection hsome with heq
        rw [← heq, hk]
        exact ⟨hlt, Nat.lt_succ_self _⟩
    . rw [Function.update_of_ne hk] at hback
      obtain ⟨holder, hborn⟩ := h k parent hback
      exact ⟨holder, Nat.lt_succ_of_lt hborn⟩
  | hook | hookRoot | timeoutAfter =>
    have hthread := SameThread.addTask s
    exact hsame (hthread _ _).transferBackTo (hthread _ _).nextFiber
  | block | blockRoot =>
    have hspawn := Spawned.block s
    exact hsame (hspawn _ _).thread.transferBackTo (hspawn _ _).thread.nextFiber
  | switchHook | switchFiber | switchBack | switchLoop | switchTimeout | endTimeout | finishDies
  | finishBack | pollRaise | joinResume | joinDrop => exact h

end ParentsOlder

/-! ### The end of a block -/

inductive Finishes (s : State) (f : FiberId) (result : Result Value) : State → Prop where
  | root (hback : s.transferBackTo f = none) : Finishes s f result (s.terminate f result)
  | deadParent {parent error} (hback : s.transferBackTo f = some parent)
    (hdead : ¬ s.isAlive parent ∨ parent = f) : Finishes s f result (s.terminate f (.error error))
  | jump {parent} (hback : s.transferBackTo f = some parent) (halive : s.isAlive parent)
    (hne : parent ≠ f) (hjump : result.IsJump) : Finishes s f result (s.terminate f result)
  | back {parent} (hback : s.transferBackTo f = some parent) (halive : s.isAlive parent)
    (hne : parent ≠ f) (hjump : ¬ result.IsJump)
    : Finishes s f result (s.transfer f .transferBack parent ⟨result, .fiber f⟩)

theorem finishes (s : State) (f : FiberId) (result : Result Value)
    : Finishes s f result (s.finish f result) := by
  unfold finish
  split
  . next hback => exact .root hback
  . next parent hback =>
    split
    . next hcheck =>
      exact .deadParent hback (not_alive_or_eq_of_checkSuspended hcheck)
    . next hcheck =>
      obtain ⟨halive, hne⟩ := checkSuspended_eq_ok_iff.mp hcheck
      cases result with
      | ok v => exact .back hback halive hne id
      | error error =>
        cases error with
        | jump tag => exact .jump hback halive hne trivial
        | error klass message => exact .back hback halive hne id
        | exception e => exact .back hback halive hne id

end State
end Shreduler
