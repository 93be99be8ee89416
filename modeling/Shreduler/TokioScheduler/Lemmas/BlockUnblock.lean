import Shreduler.TokioScheduler.Lemmas.Blockers

/-!
This module proves when the `blockers` registry holds exactly the fibers that wait in `block`.
-/

namespace Shreduler

def Task.Blocks (task : Task) (chans : ChanId → Chan) : Prop :=
  (∃ rx, task.rx = some rx ∧ chans rx ≠ .sent) ∧ ∀ result, task.status ≠ .ready result

namespace State

variable {s s' : State} {f g : FiberId} {task task' : Task} {rx : ChanId}

def Blocked (s : State) (f : FiberId) : Prop :=
  ∃ task ∈ s.tasks, s.status f = .suspended (.spawnAndTransfer task.id) ∧ task.Blocks s.chans

/--
The registry has an entry for exactly the blocked fibers. Hence `unblock` of a suspended fiber
succeeds, and a call of `block` that returned leaves no entry behind.
-/
structure RegistryExact (s : State) : Prop where
  registered : ∀ f, f ∈ s.blockers.value ↔ s.Blocked f
  unblocks : ∀ f current, (∃ sus, s.status f = .suspended sus) → current ≠ some f →
    (s.unblock current (.fiber f)).1 = .ok ()
  returned : ∀ f, (∀ t, s.status f ≠ .suspended (.spawnAndTransfer t)) → f ∉ s.blockers.value

/--
No blocked fiber is resumed or raised into, each call of `block` suspends its fiber, and no call of
`block` times out, panics or is dropped before it is unblocked.
-/
def KeepsRegistry (s : State) : Event → Prop
  | .switch => ∀ f payload, s.control = .transfer f payload → ¬ s.Blocked f
  | .block _ => ∀ f, s.rubyFiber = some f → f ≠ rootFiber ∧ ¬ s.runLoop.Borrows ∧ s.runtime
  | .poll t env =>
    ∀ task rx timeout deadline, s.findTask t = some task → task.future = .block rx timeout deadline →
      s.chans rx = .unsent →
        task.status ≠ .aborted ∧ ¬ (timeout.isSome ∧ env.withTimeoutPanics) ∧
          ¬ (deadlineAt s.now timeout deadline).any (timerOver env.timerFired s.now)
  | _ => True

namespace Registry

theorem still (hwf : Wf s) (howned : Owned s) (h : Registry s) {e : Event}
    (hC : s.KeepsRegistry e) (hstill : Still s e s') : Registry s' := by
  have hnodup := howned.nodup
  have hstays := hstill.stays hnodup
  have hthread := hstill.thread
  have hstatus : ∀ task rx, s.Waits task rx → s'.status task.fiber = s.status task.fiber :=
    fun task _ _ => congrFun hthread.status task.fiber
  have hroot : s.blockers.value.lookup rootFiber = none :=
    h.not_mem fun t hf => hwf.position _ _ hf rfl
  cases hstill with
  | quiet | spawnFails | unblockRejected | unblockOther | pollPending => exact h
  | blockFails hf hloop => exact absurd hloop (hC _ hf).2.1
  | unblockNone _ hlookup =>
    rw [removeBlocker_eq_self hlookup]
    exact h
  | unblockSent _ _ _ hlookup => exact h.unblock hlookup
  | unblockLost _ _ _ hlookup hchan =>
    obtain ⟨task, hwaits, -⟩ := (h.lookup _ _).mp hlookup
    exact absurd hwaits.chan hchan
  | @pollReady t env task result _ hfind _ hblock =>
    refine h.settled (c := fun task => { task with status := .ready result }) hnodup hfind ?_ rfl
      rfl rfl rfl rfl hstatus
    simp [Task.rx_eq_none hblock]
  | @pollBlockReady t env task rx timeout deadline deadline' result _ hfind _ hfuture hchan =>
    have hrx : task.rx = some rx := by simp [Task.rx, hfuture]
    rw [endBlock_eq_complete (by exact hroot)] at hstatus ⊢
    refine h.settled (c := fun task =>
        { task with future := .block rx timeout deadline', status := .ready result })
      hnodup hfind ?_ (map_setFuture_complete ..) hrx.symm rfl rfl rfl hstatus
    simpa [hrx] using hchan
  | @pollBlockTimeout t env task rx timeout deadline deadline' result _ hfind _ hfuture hdeadline =>
    have hrx : task.rx = some rx := by simp [Task.rx, hfuture]
    have hchan : s.chans rx ≠ .unsent :=
      fun hunsent => (hC task rx timeout deadline hfind hfuture hunsent).2.2 hdeadline
    rw [dropRx_eq_self (by exact hchan), endBlock_eq_complete (by exact hroot)] at hstatus ⊢
    refine h.settled (c := fun task =>
        { task with future := .block rx timeout deadline', status := .ready result })
      hnodup hfind ?_ (map_setFuture_complete ..) hrx.symm rfl rfl rfl hstatus
    simpa [hrx] using hchan
  | @pollBlockPending t env task rx timeout deadline deadline' _ hfind hpending hfuture =>
    refine h.stays hstays rfl rfl rfl ?_
    intro task' hmem' rx' hrx' hchan
    obtain ⟨task₀, hmem, rfl⟩ := List.mem_map.mp hmem'
    by_cases hid : task₀.id = t
    . rw [if_pos hid, findTask_unique hnodup hfind hmem hid]
      exact .inl hpending
    . rw [if_neg hid] at hrx' ⊢
      exact (h.waits hmem hrx' hchan).status
  | @pollPanic t env task _ hfind hpanic =>
    have hsettled : ∀ rx, task.rx = some rx → s.chans rx ≠ .unsent := by
      intro rx hrx hunsent
      obtain ⟨timeout, deadline, hfuture⟩ := Task.future_of_rx hrx
      obtain ⟨haborted, hpanics, -⟩ := hC task rx timeout deadline hfind hfuture hunsent
      cases hpanic with
      | inl h => exact haborted h
      | inr h => exact hpanics (h.2 rx timeout deadline hfuture)
    rw [panicTask, dropFuture_eq_self hsettled] at hstatus ⊢
    exact h.settled (c := fun task => { task with status := .joinError }) hnodup hfind
      hsettled rfl rfl rfl rfl rfl hstatus
  | interrupt =>
    refine h.stays hstays rfl rfl rfl ?_
    intro task' hmem' rx' hrx' hchan
    obtain ⟨task₀, hmem, rfl⟩ := List.mem_map.mp hmem'
    split
    . exact .inr rfl
    . next hne =>
      rw [if_neg hne] at hrx'
      exact (h.waits hmem hrx' hchan).status

theorem effect (hwf : Wf s) (howned : Owned s) (h : Registry s) {e : Event}
    (hC : s.KeepsRegistry e) (heffect : Effect s e s') : Registry s' := by
  have hrunning {g : FiberId} (hg : s.control = .running g) : s.status g = .running :=
    (hwf.running g).mpr hg
  have hnone {f : FiberId} {status : FiberStatus} (hf : s.status f = status)
      (hne : ∀ t, status ≠ .suspended (.spawnAndTransfer t)) (t : TaskId)
      : s.status f ≠ .suspended (.spawnAndTransfer t) :=
    hf ▸ hne t
  have htimer {task : Task} (htimeout : task.isTimeout) : task.rx = none := by
    apply Task.rx_eq_none
    apply Bool.eq_false_iff.mpr
    intro hblock
    rw [Task.isTimeout_eq_false_of_isBlock hblock] at htimeout
    contradiction
  have hself {f : FiberId} {status : FiberStatus} (hf : s.status f = status)
      : s.status = Function.update s.status f status := by
    rw [← hf, Function.update_eq_self]
  cases heffect with
  | still hstill => exact h.still hwf howned hC hstill
  | @switchHook f t payload hcontrol hstatus =>
    refine h.thread rfl rfl rfl (fun _ hmem _ _ => .inl hmem) ?_
    intro task rx hwaits
    refine ⟨hwaits.mem, Function.update_of_ne ?_ _ _⟩
    intro heq
    apply hC f payload hcontrol
    refine ⟨task, hwaits.mem, heq ▸ hwaits.fiber, ⟨rx, hwaits.waitsOn, ?_⟩, ?_⟩
    . simp [hwaits.chan]
    . intro result hready
      cases hwaits.status <;> simp_all
  | switchFiber hcontrol hstatus | switchBack hcontrol hstatus | switchLoop hcontrol hstatus =>
    exact h.update (hnone hstatus (by simp)) rfl rfl rfl rfl (fun _ hmem _ _ => hmem)
      (fun _ _ hwaits => hwaits.mem)
  | switchTimeout hcontrol hstatus =>
    refine h.setTaskStatus ?_ (hnone hstatus (by simp)) rfl rfl rfl rfl rfl
    intro task hmem hid
    exact htimer ((howned.raising _ hstatus).2 task hmem hid).1
  | @fiber f hf =>
    have hg := hrunning (Wf.rubyFiber_running hf)
    have hsuspend : Registry (s.setStatus f (.suspended (.fiberImpl s.nextFiber))) :=
      h.update (hnone hg (by simp)) rfl rfl rfl rfl (fun _ hmem _ _ => hmem)
        (fun _ _ hwaits => hwaits.mem)
    have hborn : s.nextFiber ≠ f :=
      Nat.ne_of_gt (hwf.lt_nextFiber (by simp [isAlive, hg]))
    refine hsuspend.update (f := s.nextFiber) ?_ rfl rfl rfl rfl (fun _ hmem _ _ => hmem)
      (fun _ _ hwaits => hwaits.mem)
    intro t
    simp [State.setStatus, Function.update_of_ne hborn, hwf.unborn s.nextFiber (Nat.le_refl _)]
  | @hook f hook hf =>
    have hstatus := status_yield (s.addTask f (hook.future s.now)) f s.nextTask
    rw [(SameThread.addTask s _ _).status] at hstatus
    exact h.spawned (hrunning (Wf.rubyFiber_running hf)) (hook_rx s f hook) rfl hstatus rfl rfl rfl
  | @hookRoot hook hf =>
    have hg := hrunning (Wf.rubyFiber_running hf)
    have hstatus := (SameThread.addTask s rootFiber (hook.future s.now)).status.trans (hself hg)
    exact h.spawned hg (hook_rx s _ hook) rfl hstatus rfl rfl rfl
  | @block f timeout hf =>
    have hg := hrunning (Wf.rubyFiber_running hf)
    exact h.block hg (.of_lookup (h.not_mem (by simp [hg])) (hC f hf).2.2)
  | blockRoot hf => exact absurd rfl (hC _ hf).1
  | @timeoutAfter f duration hf =>
    have hg := hrunning (Wf.rubyFiber_running hf)
    have hrx : (s.newTask f (.timeout (s.now + duration) f)).rx = none := rfl
    have hstatus := (SameThread.addTask s f (.timeout (s.now + duration) f)).status.trans (hself hg)
    exact h.spawned hg hrx rfl hstatus rfl rfl rfl
  | @endTimeout f t ts hf =>
    have hg := hrunning (Wf.rubyFiber_running hf)
    exact h.update (hnone hg (by simp)) (hself hg) rfl rfl rfl (fun _ hmem _ _ => hmem)
      (fun _ _ hwaits => hwaits.mem)
  | finishDies hf | finishBack hf =>
    have hg := hrunning (Wf.rubyFiber_running hf)
    exact h.update (hnone hg (by simp)) rfl rfl rfl rfl (fun _ hmem _ _ => hmem)
      (fun _ _ hwaits => hwaits.mem)
  | @pollRaise t env task timeoutAt g exception hloop hfind hstatus hfuture =>
    refine h.setTaskStatus ?_ (hnone (hrunning hloop.2) (by simp)) rfl rfl rfl rfl rfl
    intro task' hmem hid
    rw [findTask_unique howned.nodup hfind hmem hid]
    simp [Task.rx, hfuture]
  | joinResume hloop hfind hstatus =>
    exact h.removeTask howned.nodup hfind (by simp [hstatus]) (hnone (hrunning hloop.2) (by simp)) rfl
      rfl rfl rfl rfl
  | joinDrop hloop hfind hstatus =>
    have hg := hrunning hloop.2
    refine h.removeTask howned.nodup hfind ?_ (hnone hg (by simp)) rfl (hself hg) rfl rfl rfl
    obtain hstatus | ⟨result, hstatus, -⟩ := hstatus
    . simp [hstatus]
    . simp [hstatus]

theorem step (hwf : Wf s) (howned : Owned s) (h : Registry s) {e : Event} (hC : s.KeepsRegistry e)
    (hstep : step s e = some s') : Registry s' :=
  (step_sound hwf hstep).preserves erase_iff fun _ => h.effect hwf howned hC

end Registry

/-! ### What the invariant says about the registry -/

def Listed (s : State) : Prop := ∀ f, f ∈ s.blockers.value ↔ s.Blocked f

def Sendable (s : State) : Prop :=
  ∀ f tx, (∃ sus, s.status f = .suspended sus) → s.blockers.value.lookup f = some tx →
    s.chans tx = .unsent

theorem registryExact_iff (hwf : Wf s) : s.RegistryExact ↔ s.Listed ∧ s.Sendable := by
  have hunblock {f : FiberId} {current : Option FiberId}
      (hf : ∃ sus, s.status f = .suspended sus) (hcurrent : current ≠ some f)
      : (s.unblock current (.fiber f)).1 = .ok () ↔
        ∀ tx, s.blockers.value.lookup f = some tx → s.chans tx = .unsent := by
    obtain ⟨sus, hf⟩ := hf
    have hcheck : s.checkSuspended current f = .ok () := by
      simp [checkSuspended, isAlive, hf, hcurrent]
    rw [unblock_of_free hwf.blockers]
    simp only [fiberOfValue, hcheck]
    cases s.blockers.value.lookup f with
    | none => simp
    | some tx => cases hchan : s.chans tx <;> simp [hchan]
  constructor
  . intro h
    refine ⟨h.registered, ?_⟩
    intro f tx hf
    have hremote := h.unblocks f none hf (by simp)
    exact (hunblock hf (by simp)).mp hremote tx
  . rintro ⟨hlisted, hsendable⟩
    refine ⟨hlisted, ?_, ?_⟩
    . intro f current hf hcurrent
      exact (hunblock hf hcurrent).mpr fun tx => hsendable f tx hf
    . intro f hf hmem
      obtain ⟨task, -, hstatus, -⟩ := (hlisted f).mp hmem
      exact hf task.id hstatus

namespace Registry

theorem blocked_iff (howned : Owned s) (h : Registry s)
    : s.Blocked f ↔ ∃ rx, s.blockers.value.lookup f = some rx := by
  simp only [h.lookup]
  constructor
  . rintro ⟨task, hmem, hstatus, ⟨rx, hrx, hchan⟩, -⟩
    obtain ⟨-, hsent | hwaits⟩ := h.task task hmem rx hrx
    . exact absurd hsent hchan
    . exact ⟨rx, task, hwaits, ((howned.hook f task.id hstatus).2 task hmem rfl).1⟩
  . rintro ⟨rx, task, hwaits, rfl⟩
    refine ⟨task, hwaits.mem, hwaits.fiber, ⟨rx, hwaits.waitsOn, by simp [hwaits.chan]⟩, ?_⟩
    intro result hready
    cases hwaits.status <;> simp_all

theorem listed (howned : Owned s) (h : Registry s) : s.Listed := by
  intro f
  rw [h.blocked_iff howned, ← AList.lookup_isSome, Option.isSome_iff_exists]

theorem sendable (h : Registry s) : s.Sendable := by
  intro f tx _ hlookup
  obtain ⟨task, hwaits, -⟩ := (h.lookup f tx).mp hlookup
  exact hwaits.chan

theorem switch_of_listed (howned : Owned s) (h : Registry s) (heffect : Effect s .switch s')
    (hlisted : s'.Listed) : s.KeepsRegistry .switch := by
  rintro f payload hcontrol hblocked
  obtain ⟨rx, hlookup⟩ := (h.blocked_iff howned).mp hblocked
  obtain ⟨task, -, hstatus, -⟩ := hblocked
  cases heffect with
  | still hstill =>
    cases hstill with
    | quiet hevent | spawnFails _ _ hevent | unblockRejected hevent | unblockNone hevent
    | unblockSent hevent | unblockLost hevent => exact hevent.elim
    | unblockOther _ hevent => simp at hevent
  | switchHook hcontrol' =>
    cases hcontrol.symm.trans hcontrol'
    have hmem : f ∈ s.blockers.value := AList.lookup_isSome.mp (hlookup ▸ rfl)
    obtain ⟨task', -, hstatus', -⟩ := (hlisted f).mp hmem
    simp at hstatus'
  | switchFiber hcontrol' hstatus' | switchBack hcontrol' hstatus' | switchLoop hcontrol' hstatus'
  | switchTimeout hcontrol' hstatus' =>
    cases hcontrol.symm.trans hcontrol'
    simp [hstatus] at hstatus'

theorem block_of_listed (hwf : Wf s) (h : Registry s) {timeout : Option Duration}
    (heffect : Effect s (.block timeout) s') (hlisted : s'.Listed) (hsendable : s'.Sendable)
    : s.KeepsRegistry (.block timeout) := by
  intro f hf
  have hrunning : s.status f = .running := (hwf.running f).mpr (Wf.rubyFiber_running hf)
  have hlookup := h.not_mem (f := f) (by simp [hrunning])
  have hregister : f ∈ (s.registerBlock f).blockers.value := by
    rw [blockers_registerBlock]
    simp [GcCell.modify]
  -- an entry for the fiber, which still runs
  have hstuck {X : State} (hX : X.Listed) (hblockers : X.blockers = (s.registerBlock f).blockers)
      (hstatus : X.status = s.status) : False := by
    obtain ⟨task, -, hsuspended, -⟩ := (hX f).mp (hblockers ▸ hregister)
    simp [hstatus, hrunning] at hsuspended
  cases heffect with
  | still hstill =>
    have hthread := hstill.thread
    cases hstill with
    | quiet hevent | spawnFails _ _ hevent | unblockRejected hevent | unblockNone hevent
    | unblockSent hevent | unblockLost hevent => exact hevent.elim
    | unblockOther _ hevent => simp at hevent
    | blockFails hf' =>
      cases hf.symm.trans hf'
      exact (hstuck hlisted (blockers_dropRx _ _) hthread.status).elim
  | blockRoot hf' =>
    cases hf.symm.trans hf'
    exact (hstuck hlisted (blockers_addTask _ _ _) (Spawned.block s _ _).thread.status).elim
  | block hf' hloop hne =>
    cases hf.symm.trans hf'
    refine ⟨hne, hloop, ?_⟩
    cases hruntime : s.runtime with
    | true => rfl
    | false =>
      have hunsent := hsendable f s.nextChan ⟨.spawnAndTransfer s.nextTask, ?_⟩ ?_
      . have hchans := chans_addTask (s.registerBlock f) f (.block s.nextChan timeout none)
        simp only [runtime_registerBlock, hruntime, Bool.false_eq_true, if_false, dropFuture,
          chans_dropRx] at hchans
        have hregistered : (s.registerBlock f).chans s.nextChan = .unsent := by
          rw [registerBlock_eq_of_lookup hlookup]
          exact Function.update_self ..
        rw [if_pos hregistered] at hchans
        have hdropped := (congrFun hchans s.nextChan).trans (Function.update_self ..)
        exact absurd (hdropped.symm.trans hunsent) (by simp)
      . simp
      . have hblockers := blockers_addTask (s.registerBlock f) f (.block s.nextChan timeout none)
        change (AList.lookup f (((s.registerBlock f).addTask f _).blockers.value)) = _
        rw [hblockers, blockers_registerBlock]
        simp [GcCell.modify]

theorem poll_of_sendable (hwf : Wf s) (h : Registry s) {t : TaskId} {env : PollEnv}
    (heffect : Effect s (.poll t env) s') (hsendable : s'.Sendable)
    : s.KeepsRegistry (.poll t env) := by
  intro task rx timeout deadline hfind hfuture hchan
  have hroot : s.blockers.value.lookup rootFiber = none :=
    h.not_mem fun t hf => hwf.position _ _ hf rfl
  have hrx : task.rx = some rx := by simp [Task.rx, hfuture]
  have hwaits := h.waits (findTask_mem hfind).1 hrx hchan
  have hlookup := (h.lookup task.fiber rx).mpr ⟨task, hwaits, rfl⟩
  -- the future is gone and the entry is not
  have hlost {X : State} (hX : X.Sendable) (hstatus : X.status = s.status)
      (hblockers : X.blockers = s.blockers) (hchans : X.chans = (s.dropRx rx).chans) : False := by
    have hunsent := hX task.fiber rx ⟨_, (congrFun hstatus _).trans hwaits.fiber⟩ (hblockers ▸ hlookup)
    simp [hchans, chans_dropRx, hchan] at hunsent
  have hsame {task' : Task} (hfind' : s.findTask t = some task') : task' = task :=
    Option.some.inj (hfind'.symm.trans hfind)
  cases heffect with
  | still hstill =>
    have hthread := hstill.thread
    cases hstill with
    | quiet hevent | spawnFails _ _ hevent | unblockRejected hevent | unblockNone hevent
    | unblockSent hevent | unblockLost hevent => exact hevent.elim
    | unblockOther _ hevent => simp at hevent
    | pollPending _ hfind' _ hblock | pollReady _ hfind' _ hblock =>
      rw [hsame hfind'] at hblock
      simp [Task.isBlock, hfuture] at hblock
    | pollBlockReady _ hfind' _ hfuture' hchan' =>
      rw [hsame hfind', hfuture] at hfuture'
      injection hfuture' with hrx'
      exact absurd hchan (hrx' ▸ hchan')
    | pollBlockTimeout _ hfind' _ hfuture' =>
      rw [hsame hfind', hfuture] at hfuture'
      injection hfuture' with hrx'
      subst hrx'
      rw [endBlock_eq_complete (by rw [blockers_dropRx]; exact hroot)] at hsendable
      exact (hlost hsendable (SameThread.dropRx _ rx).status (blockers_dropRx _ rx)
        ((chans_dropRx _ rx).trans (chans_dropRx s rx).symm)).elim
    | pollBlockPending _ hfind' hpending hfuture' hpanic hdeadline =>
      rw [hsame hfind'] at hpending hfuture'
      rw [hfuture] at hfuture'
      injection hfuture' with hrx' htimeout hdeadline'
      subst htimeout hdeadline'
      exact ⟨by simp [hpending], hpanic, hdeadline⟩
    | pollPanic _ hfind' =>
      rw [hsame hfind', hfuture] at hsendable
      exact (hlost hsendable (SameThread.dropRx s rx).status (blockers_dropRx s rx) rfl).elim
  | pollRaise _ hfind' _ hfuture' =>
    rw [hsame hfind', hfuture] at hfuture'
    contradiction

theorem keepsRegistry (hwf : Wf s) (howned : Owned s) (h : Registry s) {e : Event}
    (heffect : Effect s e s') (hlisted : s'.Listed) (hsendable : s'.Sendable)
    : s.KeepsRegistry e := by
  cases e with
  | switch => exact h.switch_of_listed howned heffect hlisted
  | block timeout => exact h.block_of_listed hwf heffect hlisted hsendable
  | poll t env => exact h.poll_of_sendable hwf heffect hsendable
  | _ => trivial

end Registry

/--
The registry is exact throughout a run if and only if every call of `block` suspends its fiber and
every blocked fiber is unblocked before anything else ends its call.
-/
theorem registry_exact_iff (es : List Event)
    : Lts.Always step RegistryExact .new es ↔ Lts.Along step KeepsRegistry .new es := by
  apply Lts.always_iff_along (J := fun s => Wf s ∧ Owned s ∧ Registry s)
  . rintro s e s' ⟨hwf, howned, h⟩ hC hstep
    exact ⟨hwf.step hstep, howned.step hwf hstep, h.step hwf howned hC hstep⟩
  . rintro s ⟨hwf, howned, h⟩
    exact (registryExact_iff hwf).mpr ⟨h.listed howned, h.sendable⟩
  . rintro s e s' ⟨hwf, howned, h⟩ hstep hexact
    obtain ⟨hlisted, hsendable⟩ := (registryExact_iff (hwf.step hstep)).mp hexact
    obtain ⟨s'', heffect, heq⟩ := (step_sound hwf hstep).effect
    have hlisted' : s''.erase.Listed := heq ▸ hlisted
    have hsendable' : s''.erase.Sendable := heq ▸ hsendable
    exact h.keepsRegistry hwf howned heffect hlisted' hsendable'
  . exact ⟨.new, .new, .new⟩

theorem registry_not_exact : ¬ ∀ es, Lts.Always step RegistryExact .new es := by
  intro hall
  have hrun : (Lts.run step .new [.fiber, .block (some 5000000), .switch, .run, .poll 0 {},
      .elapse 6000000, .poll 0 { timerFired := true }, .join 0, .switch]).any fun s =>
        s.status 1 = .running ∧ 1 ∈ s.blockers.value := by
    decide
  refine Lts.not_always_of_run hrun ?_ (hall _)
  intro s hs hexact
  obtain ⟨hrunning, hmem⟩ := of_decide_eq_true hs
  exact hexact.returned 1 (by simp [hrunning]) hmem

end State
end Shreduler
