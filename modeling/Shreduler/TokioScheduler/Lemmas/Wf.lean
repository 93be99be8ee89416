import Shreduler.TokioScheduler.Impl.Step

/-!
This module contains the invariant that ties together the Ruby thread, the position of the root
fiber in the event loop, and the borrow state of the two cells of the scheduler.
-/

namespace Shreduler

def RunLoop.Borrows : RunLoop → Prop
  | .joinNext | .polling _ => True
  | .idle | .resuming _ => False

instance (runLoop : RunLoop) : Decidable runLoop.Borrows := by
  cases runLoop <;> unfold RunLoop.Borrows <;> infer_instance

namespace State

/--
Which fiber may wait inside a suspension, and where the event loop is meanwhile.
-/
def Position (f : FiberId) (runLoop : RunLoop) : Suspension → Prop
  | .spawnAndTransfer _ | .transferBack => f ≠ rootFiber
  | .fiberImpl _ => f = rootFiber → runLoop = .idle ∨ ∃ t, runLoop = .polling t
  | .resumeIfAlive t => f = rootFiber ∧ runLoop = .resuming t
  | .timeoutRaise t => f = rootFiber ∧ runLoop = .polling t

structure Wf (s : State) : Prop where
  blockers : s.blockers.Free
  futures : if s.runLoop.Borrows then s.futuresToRun.MutBorrowed else s.futuresToRun.Free
  running : ∀ f, s.status f = .running ↔ s.control = .running f
  target : ∀ f payload, s.control = .transfer f payload → ∃ sus, s.status f = .suspended sus
  rootAlive : s.isAlive rootFiber
  position : ∀ f sus, s.status f = .suspended sus → Position f s.runLoop sus
  unborn : ∀ f, s.nextFiber ≤ f → s.status f = .unborn

theorem dropRx_eq (s : State) (ch : ChanId)
    : s.dropRx ch = { s with chans := (s.dropRx ch).chans } := by
  unfold dropRx
  split <;> rfl

theorem dropTx_eq (s : State) (ch : Option ChanId)
    : s.dropTx ch = { s with chans := (s.dropTx ch).chans } := by
  unfold dropTx
  split
  . split <;> rfl
  . rfl

theorem dropFuture_eq (s : State) (future : Future)
    : s.dropFuture future = { s with chans := (s.dropFuture future).chans } := by
  unfold dropFuture
  split
  . apply dropRx_eq
  . rfl

theorem checkSuspended_eq_ok_iff {s : State} {current f : FiberId}
    : s.checkSuspended (some current) f = .ok () ↔ s.isAlive f ∧ f ≠ current := by
  unfold checkSuspended
  split
  . next hdead => simp [hdead]
  . next halive =>
    split
    . next hcurrent =>
      injection hcurrent with heq
      simp [heq]
    . next hcurrent =>
      have hne : f ≠ current := fun heq => hcurrent (by rw [heq])
      simpa [hne] using halive

theorem not_alive_or_eq_of_checkSuspended {s : State} {current f : FiberId} {e : Error}
    (h : s.checkSuspended (some current) f = .error e) : ¬ s.isAlive f ∨ f = current := by
  by_contra hsuspended
  rw [not_or, not_not] at hsuspended
  rw [checkSuspended_eq_ok_iff.mpr hsuspended] at h
  contradiction

structure SameThread (s s' : State) : Prop where
  blockersRead : s'.blockers.readCount = s.blockers.readCount
  blockersWrite : s'.blockers.writeCount = s.blockers.writeCount
  futuresRead : s'.futuresToRun.readCount = s.futuresToRun.readCount
  futuresWrite : s'.futuresToRun.writeCount = s.futuresToRun.writeCount
  status : s'.status = s.status
  control : s'.control = s.control
  runLoop : s'.runLoop = s.runLoop
  nextFiber : s'.nextFiber = s.nextFiber
  transferBackTo : s'.transferBackTo = s.transferBackTo
  timeouts : s'.timeouts = s.timeouts
  returns : s'.returns = s.returns
  endedTimeouts : s'.endedTimeouts = s.endedTimeouts

namespace SameThread

variable {s s' s'' : State}

theorem refl (s : State) : SameThread s s := by
  constructor <;> rfl

theorem trans (h : SameThread s s') (h' : SameThread s' s'') : SameThread s s'' where
  blockersRead := h'.blockersRead.trans h.blockersRead
  blockersWrite := h'.blockersWrite.trans h.blockersWrite
  futuresRead := h'.futuresRead.trans h.futuresRead
  futuresWrite := h'.futuresWrite.trans h.futuresWrite
  status := h'.status.trans h.status
  control := h'.control.trans h.control
  runLoop := h'.runLoop.trans h.runLoop
  nextFiber := h'.nextFiber.trans h.nextFiber
  transferBackTo := h'.transferBackTo.trans h.transferBackTo
  timeouts := h'.timeouts.trans h.timeouts
  returns := h'.returns.trans h.returns
  endedTimeouts := h'.endedTimeouts.trans h.endedTimeouts

theorem modifyTasks (s : State) (f : List Task → List Task) : SameThread s (s.modifyTasks f) := by
  constructor <;> rfl

theorem setChan (s : State) (ch : ChanId) (chan : Chan) : SameThread s (s.setChan ch chan) := by
  constructor <;> rfl

theorem dropRx (s : State) (ch : ChanId) : SameThread s (s.dropRx ch) := by
  rw [dropRx_eq]
  constructor <;> rfl

theorem dropTx (s : State) (ch : Option ChanId) : SameThread s (s.dropTx ch) := by
  rw [dropTx_eq]
  constructor <;> rfl

theorem dropFuture (s : State) (future : Future) : SameThread s (s.dropFuture future) := by
  rw [dropFuture_eq]
  constructor <;> rfl

theorem insertBlocker (s : State) (f : FiberId) (tx : ChanId)
    : SameThread s (s.insertBlocker f tx) := by
  rw [State.insertBlocker, dropTx_eq]
  constructor <;> rfl

theorem removeBlocker (s : State) (f : FiberId) : SameThread s (s.removeBlocker f) := by
  constructor <;> rfl

end SameThread

namespace Wf

variable {s s' : State}

theorem new : Wf .new where
  blockers := by decide
  futures := by decide
  running f := by
    by_cases hf : f = rootFiber
    . simp [State.new, hf]
    . simp [State.new, Function.update_of_ne hf, Ne.symm hf]
  target f payload h := by simp [State.new] at h
  rootAlive := by decide
  position f sus h := by
    by_cases hf : f = rootFiber
    . simp [State.new, hf] at h
    . simp [State.new, Function.update_of_ne hf] at h
  unborn f hf := by
    have : f ≠ rootFiber := Nat.ne_of_gt hf
    simp [State.new, Function.update_of_ne this]

theorem free (h : Wf s) (hloop : ¬ s.runLoop.Borrows) : s.futuresToRun.Free := by
  have := h.futures
  simpa only [hloop, if_false] using this

theorem mutBorrowed (h : Wf s) (hloop : s.runLoop.Borrows) : s.futuresToRun.MutBorrowed := by
  have := h.futures
  simpa only [hloop, if_true] using this

theorem lt_nextFiber (h : Wf s) {f : FiberId} (hf : s.isAlive f) : f < s.nextFiber := by
  apply Nat.lt_of_not_le
  intro hle
  simp [isAlive, h.unborn f hle] at hf

theorem suspended_root (h : Wf s) (hroot : s.control ≠ .running rootFiber)
    : ∃ sus, s.status rootFiber = .suspended sus := by
  have halive := h.rootAlive
  cases hstatus : s.status rootFiber with
  | suspended sus => exact ⟨sus, rfl⟩
  | running => exact absurd ((h.running rootFiber).mp hstatus) hroot
  | unborn => simp [isAlive, hstatus] at halive
  | terminated => simp [isAlive, hstatus] at halive

theorem alive_of_running (h : Wf s) {f : FiberId} (hf : s.control = .running f) : s.isAlive f := by
  simp [isAlive, (h.running f).mpr hf]

theorem alive_of_transfer (h : Wf s) {f : FiberId} {payload : Payload}
    (hf : s.control = .transfer f payload) : s.isAlive f := by
  obtain ⟨sus, hsus⟩ := h.target f payload hf
  simp [isAlive, hsus]

theorem suspended_of_checkSuspended (h : Wf s) {current f : FiberId}
    (hcurrent : s.control = .running current) (hf : s.checkSuspended (some current) f = .ok ())
    : f ≠ current ∧ ∃ sus, s.status f = .suspended sus := by
  obtain ⟨halive, hne⟩ := checkSuspended_eq_ok_iff.mp hf
  refine ⟨hne, ?_⟩
  cases hstatus : s.status f with
  | suspended sus => exact ⟨sus, rfl⟩
  | running =>
    rw [h.running f, hcurrent] at hstatus
    injection hstatus with heq
    exact absurd heq.symm hne
  | unborn => simp [isAlive, hstatus] at halive
  | terminated => simp [isAlive, hstatus] at halive

theorem checkSuspended_root (h : Wf s) {f : FiberId} (hf : f ≠ rootFiber)
    : s.checkSuspended (some f) rootFiber = .ok () :=
  checkSuspended_eq_ok_iff.mpr ⟨h.rootAlive, hf.symm⟩

theorem congr (h : Wf s) (hblockers : s'.blockers.Free)
    (hfutures : if s'.runLoop.Borrows then s'.futuresToRun.MutBorrowed else s'.futuresToRun.Free)
    (hstatus : s'.status = s.status) (hcontrol : s'.control = s.control)
    (hloop : ∀ sus, s.status rootFiber = .suspended sus → s'.runLoop = s.runLoop)
    (hnext : s'.nextFiber = s.nextFiber) : Wf s' where
  blockers := hblockers
  futures := hfutures
  running f := by
    rw [hstatus, hcontrol]
    exact h.running f
  target f payload hf := by
    rw [hcontrol] at hf
    rw [hstatus]
    exact h.target f payload hf
  rootAlive := by
    have := h.rootAlive
    simpa only [isAlive, hstatus] using this
  position f sus hf := by
    rw [hstatus] at hf
    have hposition := h.position f sus hf
    by_cases hroot : f = rootFiber
    . rw [hloop sus (hroot ▸ hf)]
      exact hposition
    . cases sus <;> simp_all [Position]
  unborn f hf := by
    rw [hnext] at hf
    rw [hstatus]
    exact h.unborn f hf

theorem same (h : Wf s) (hsame : SameThread s s') : Wf s' := by
  apply h.congr ?_ ?_ hsame.status hsame.control (fun _ _ => hsame.runLoop) hsame.nextFiber
  . have := h.blockers
    simpa only [GcCell.Free, hsame.blockersRead, hsame.blockersWrite] using this
  . have := h.futures
    simpa only [GcCell.MutBorrowed, GcCell.Free, hsame.runLoop, hsame.futuresRead,
      hsame.futuresWrite] using this

theorem rubyFiber_running {f : FiberId} (hf : s.rubyFiber = some f) : s.control = .running f := by
  unfold rubyFiber at hf
  split at hf
  . next g hcontrol =>
    split at hf
    . split at hf
      . injection hf with hf
        exact hf ▸ hcontrol
      . injection hf with hf
        exact hf ▸ hcontrol
      . contradiction
      . contradiction
    . injection hf with hf
      exact hf ▸ hcontrol
  . contradiction

theorem rubyFiber_root (hf : s.rubyFiber = some rootFiber)
    : s.runLoop = .idle ∨ ∃ t, s.runLoop = .polling t := by
  have hcontrol := rubyFiber_running hf
  unfold rubyFiber at hf
  simp only [hcontrol, if_true] at hf
  split at hf
  . next hloop => exact .inl hloop
  . next t hloop => exact .inr ⟨t, hloop⟩
  . contradiction
  . contradiction

/-! ### A fiber with a new status -/

theorem position_update (h : Wf s) (f : FiberId) (status : FiberStatus) {k : FiberId} {sus : Suspension}
    (hf : ∀ sus, status = .suspended sus → Position f s.runLoop sus)
    (hk : Function.update s.status f status k = .suspended sus) : Position k s.runLoop sus := by
  by_cases hkf : k = f
  . subst hkf
    rw [Function.update_self] at hk
    exact hf sus hk
  . rw [Function.update_of_ne hkf] at hk
    exact h.position k sus hk

theorem unborn_update (h : Wf s) {f k : FiberId} {status : FiberStatus} (hf : s.isAlive f)
    (hk : s.nextFiber ≤ k) : Function.update s.status f status k = .unborn := by
  have hne : k ≠ f := Nat.ne_of_gt (Nat.lt_of_lt_of_le (h.lt_nextFiber hf) hk)
  rw [Function.update_of_ne hne]
  exact h.unborn k hk

theorem rootAlive_setStatus (h : Wf s) {f : FiberId} {status : FiberStatus}
    (hf : f = rootFiber → status = .running ∨ ∃ sus, status = .suspended sus)
    : (s.setStatus f status).isAlive rootFiber := by
  by_cases hroot : rootFiber = f
  . obtain rfl | ⟨sus, rfl⟩ := hf hroot.symm
    . simp [setStatus, isAlive, hroot]
    . simp [setStatus, isAlive, hroot]
  . have halive := h.rootAlive
    simpa only [setStatus, isAlive, Function.update_of_ne hroot] using halive

theorem transfer (h : Wf s) {f g : FiberId} {sus : Suspension} {payload : Payload}
    (hf : s.control = .running f) (hposition : Position f s.runLoop sus) (hne : g ≠ f)
    (hg : ∃ sus, s.status g = .suspended sus) : Wf (s.transfer f sus g payload) where
  blockers := h.blockers
  futures := h.futures
  running k := by
    simp only [State.transfer, setStatus, reduceCtorEq, iff_false]
    by_cases hk : k = f
    . simp [hk]
    . rw [Function.update_of_ne hk, h.running, hf]
      intro heq
      injection heq with heq
      exact hk heq.symm
  target k p hk := by
    simp only [State.transfer, Control.transfer.injEq] at hk
    simp only [State.transfer, setStatus, ← hk.1, Function.update_of_ne hne]
    exact hg
  rootAlive := h.rootAlive_setStatus fun _ => .inr ⟨sus, rfl⟩
  position k sus' hk := by
    refine h.position_update f (.suspended sus) ?_ hk
    rintro sus' ⟨⟩
    exact hposition
  unborn k hk := h.unborn_update (h.alive_of_running hf) hk

theorem switchTo (h : Wf s) {f : FiberId} {payload : Payload}
    (hf : s.control = .transfer f payload) : Wf (s.switchTo f) where
  blockers := h.blockers
  futures := h.futures
  running k := by
    simp only [State.switchTo, setStatus, Control.running.injEq]
    by_cases hk : k = f
    . simp [hk]
    . simp [Function.update_of_ne hk, h.running, hf, Ne.symm hk]
  target k p hk := by simp [State.switchTo] at hk
  rootAlive := h.rootAlive_setStatus fun _ => .inl rfl
  position k sus hk := h.position_update f .running (by simp) hk
  unborn k hk := h.unborn_update (h.alive_of_transfer hf) hk

theorem terminate (h : Wf s) {f : FiberId} {result : Result Value} (hne : f ≠ rootFiber)
    (hf : s.control = .running f ∨ ∃ payload, s.control = .transfer f payload)
    : Wf (s.terminate f result) where
  blockers := h.blockers
  futures := h.futures
  running k := by
    simp only [State.terminate, setStatus, reduceCtorEq, iff_false]
    by_cases hk : k = f
    . simp [hk]
    . rw [Function.update_of_ne hk, h.running]
      intro heq
      cases hf with
      | inl hf =>
        rw [hf] at heq
        injection heq with heq
        exact hk heq.symm
      | inr hf =>
        obtain ⟨payload, hf⟩ := hf
        simp [hf] at heq
  target k p hk := by
    simp only [State.terminate, Control.transfer.injEq] at hk
    simp only [State.terminate, setStatus, ← hk.1, Function.update_of_ne hne.symm]
    apply h.suspended_root
    intro hroot
    cases hf with
    | inl hf =>
      rw [hf] at hroot
      injection hroot with heq
      exact hne heq
    | inr hf =>
      obtain ⟨payload, hf⟩ := hf
      simp [hf] at hroot
  rootAlive := h.rootAlive_setStatus fun hroot => absurd hroot hne
  position k sus hk := h.position_update f .terminated (by simp) hk
  unborn k hk := by
    have halive : s.isAlive f := by
      cases hf with
      | inl hf => exact h.alive_of_running hf
      | inr hf => exact h.alive_of_transfer hf.choose_spec
    exact h.unborn_update halive hk

theorem fiberImpl (h : Wf s) {f : FiberId} (hf : s.rubyFiber = some f) : Wf (s.fiberImpl f) := by
  have hcontrol := rubyFiber_running hf
  have halive := h.alive_of_running hcontrol
  have hfnew : s.nextFiber ≠ f := Nat.ne_of_gt (h.lt_nextFiber halive)
  have hrootnew : rootFiber ≠ s.nextFiber := Nat.ne_of_lt (h.lt_nextFiber h.rootAlive)
  constructor
  case blockers => exact h.blockers
  case futures => exact h.futures
  case running =>
    intro k
    simp only [State.fiberImpl, setStatus, Control.running.injEq]
    by_cases hk : k = s.nextFiber
    . simp [hk]
    . rw [Function.update_of_ne hk]
      by_cases hkf : k = f
      . simp [hkf, hfnew]
      . simp [Function.update_of_ne hkf, h.running, hcontrol, Ne.symm hkf, Ne.symm hk]
  case target =>
    intro k payload hk
    simp [State.fiberImpl] at hk
  case rootAlive =>
    have hroot := h.rootAlive
    simp only [State.fiberImpl, setStatus, isAlive, Function.update_of_ne hrootnew]
    by_cases hk : rootFiber = f
    . simp [hk]
    . simpa only [Function.update_of_ne hk, isAlive] using hroot
  case position =>
    intro k sus hk
    simp only [State.fiberImpl, setStatus] at hk ⊢
    by_cases hknew : k = s.nextFiber
    . simp [hknew] at hk
    . rw [Function.update_of_ne hknew] at hk
      by_cases hkf : k = f
      . simp only [hkf, Function.update_self, FiberStatus.suspended.injEq] at hk
        rw [← hk, hkf]
        intro hroot
        exact rubyFiber_root (hroot ▸ hf)
      . rw [Function.update_of_ne hkf] at hk
        exact h.position k sus hk
  case unborn =>
    intro k hk
    simp only [State.fiberImpl, setStatus] at hk ⊢
    have hknew : k ≠ s.nextFiber := Nat.ne_of_gt hk
    have hkf : k ≠ f := Nat.ne_of_gt (Nat.lt_trans (h.lt_nextFiber halive) hk)
    rw [Function.update_of_ne hknew, Function.update_of_ne hkf]
    exact h.unborn k (Nat.le_of_succ_le hk)

end Wf
end State
end Shreduler
