import Shreduler.TokioScheduler.Lemmas.FiberSpawn

/-!
This module proves when `DataTypeFunctions::mark` reports every fiber that a task may still reach.
-/

namespace Shreduler

def Task.MayResume (task : Task) : Prop :=
  match task.status with
  | .pending | .polling | .ready _ => True
  | .aborted | .joinError => False

theorem Task.Next.mayResume {task task' : Task} (h : Next task task') (hmay : task'.MayResume)
    : task.MayResume := by
  unfold MayResume at *
  have hstatus := h.status
  generalize task.status = status, task'.status = status' at *
  cases hstatus <;> simp_all

namespace State

variable {s s' : State} {f g : FiberId}

def Reaches (s : State) (task : Task) (g : FiberId) : Prop :=
  task.MayResume ∧
    (task.fiber = g ∨ (∃ timeoutAt, task.future = .timeout timeoutAt g) ∨
      s.transferBackTo task.fiber = some g ∧ s.Unfinished task.fiber)

/-- Some pending task may still resume the live fiber `g` or raise into it. -/
def Needed (s : State) (g : FiberId) : Prop := s.isAlive g ∧ ∃ task ∈ s.tasks, s.Reaches task g

def NeededMarked (s : State) : Prop := ∀ g, s.Needed g → g ∈ s.mark

/-- The step leaves no fiber unmarked that a task needs. -/
def KeepsMarks (s : State) : Event → Prop
  | .hook _ | .timeoutAfter _ =>
    ∀ f, s.rubyFiber = some f → ¬ s.runLoop.Borrows → s.runtime →
      f ∈ s.mark ∧ ∀ parent, s.transferBackTo f = some parent → s.isAlive parent → parent ∈ s.mark
  | .block _ =>
    ∀ f, s.rubyFiber = some f → ¬ s.runLoop.Borrows → s.runtime →
      ∀ parent, s.transferBackTo f = some parent → s.isAlive parent → parent ∈ s.mark
  | .unblock fiberToWake =>
    ∀ g, fiberToWake = .fiber g → s.rubyFiber ≠ some g → g ≠ rootFiber →
      g ∈ s.blockers.value → ¬ s.Needed g
  | .remoteUnblock fiberToWake =>
    ∀ g, fiberToWake = .fiber g → g ≠ rootFiber → g ∈ s.blockers.value → ¬ s.Needed g
  | _ => True

theorem mem_mark : g ∈ s.mark ↔ g = rootFiber ∨ g ∈ s.blockers.value := by
  simp [mark, GcCell.borrowForGc, AList.mem_keys]

/-! ### What a step makes of the marked fibers -/

theorem mem_mark_congr (hblockers : s'.blockers = s.blockers) (h : g ∈ s.mark) : g ∈ s'.mark := by
  rw [mem_mark] at h ⊢
  rwa [hblockers]

theorem mem_mark_insert (hblockers : s'.blockers = s.blockers.modify (AList.insert f ch))
    (h : g ∈ s.mark) : g ∈ s'.mark := by
  rw [mem_mark] at h ⊢
  rw [hblockers]
  simp only [GcCell.modify, AList.mem_insert]
  exact h.imp_right .inr

theorem mem_mark_erase (hblockers : s'.blockers = s.blockers.modify (AList.erase f)) (hne : g ≠ f)
    (h : g ∈ s.mark) : g ∈ s'.mark := by
  rw [mem_mark] at h ⊢
  rw [hblockers]
  simp only [GcCell.modify, AList.mem_erase]
  exact h.imp_right fun h => ⟨hne, h⟩

theorem Effect.mem_mark {e : Event} (h : Effect s e s') (hg : g ∈ s.mark)
    : g ∈ s'.mark ∨ e.Unblocks g ∧ (e = .unblock (.fiber g) → s.rubyFiber ≠ some g) ∧
        g ≠ rootFiber ∧ g ∈ s.blockers.value := by
  have hunblock {f : FiberId} {X : State} (hevent : e.Unblocks f)
      (hcurrent : e = .unblock (.fiber f) → s.rubyFiber ≠ some f)
      (hX : X.blockers = s.blockers.modify (AList.erase f))
      : g ∈ X.mark ∨ e.Unblocks g ∧ (e = .unblock (.fiber g) → s.rubyFiber ≠ some g) ∧
        g ≠ rootFiber ∧ g ∈ s.blockers.value := by
    by_cases heq : g = f
    . cases State.mem_mark.mp hg with
      | inl hroot => exact .inl (State.mem_mark.mpr (.inl hroot))
      | inr hmem =>
        by_cases hroot : g = rootFiber
        . exact .inl (State.mem_mark.mpr (.inl hroot))
        . exact .inr ⟨heq ▸ hevent, heq ▸ hcurrent, hroot, hmem⟩
    . exact .inl (mem_mark_erase hX heq hg)
  have herase {X : State} (hX : X.blockers = s.blockers.modify (AList.erase rootFiber))
      : g ∈ X.mark := by
    by_cases hroot : g = rootFiber
    . exact State.mem_mark.mpr (.inl hroot)
    . exact mem_mark_erase hX hroot hg
  cases h with
  | still hstill =>
    cases hstill with
    | quiet | spawnFails | unblockRejected | unblockOther | pollPending | pollReady
    | pollBlockPending | interrupt => exact .inl hg
    | blockFails => exact .inl (mem_mark_insert (blockers_dropRx _ _) hg)
    | pollPanic => exact .inl (mem_mark_congr (blockers_dropFuture s _) hg)
    | pollBlockReady => exact .inl (herase (blockers_endBlock _ _ _))
    | pollBlockTimeout =>
      refine .inl (herase ?_)
      rw [blockers_endBlock, blockers_dropRx]
      rfl
    | @unblockNone f _ hevent hlookup =>
      by_cases heq : g = f
      . cases State.mem_mark.mp hg with
        | inl hroot => exact .inl (State.mem_mark.mpr (.inl hroot))
        | inr hmem => exact absurd (heq ▸ hmem) (AList.lookup_eq_none.mp hlookup)
      . exact .inl (mem_mark_erase (by rfl) heq hg)
    | unblockSent hevent _ hcurrent => exact hunblock hevent hcurrent rfl
    | unblockLost hevent _ hcurrent => exact hunblock hevent hcurrent rfl
  | hook | hookRoot | timeoutAfter => exact .inl (mem_mark_congr (blockers_addTask s _ _) hg)
  | block | blockRoot => exact .inl (mem_mark_insert (blockers_addTask _ _ _) hg)
  | switchHook | switchFiber | switchBack | switchLoop | switchTimeout | fiber | endTimeout
  | finishDies | finishBack | pollRaise | joinResume | joinDrop => exact .inl hg

theorem Effect.mem_mark_of_block {timeout : Option Duration} (h : Effect s (.block timeout) s')
    (hf : s.rubyFiber = some f) : f ∈ s'.mark := by
  have hinsert {X : State} {k : FiberId} (hk : s.rubyFiber = some k)
      (hX : X.blockers = s.blockers.modify (AList.insert k s.nextChan)) : f ∈ X.mark := by
    have heq : f = k := Option.some.inj (hf.symm.trans hk)
    rw [State.mem_mark, hX]
    simp [GcCell.modify, heq]
  cases h with
  | still hstill =>
    cases hstill with
    | blockFails hk => exact hinsert hk (blockers_dropRx _ _)
    | quiet hevent | spawnFails _ _ hevent => exact hevent.elim
    | unblockOther _ hevent => simp at hevent
    | unblockRejected hevent | unblockNone hevent | unblockSent hevent | unblockLost hevent =>
      exact hevent.elim
  | block hk | blockRoot hk => exact hinsert hk (blockers_addTask _ _ _)

/-! ### What a step makes of the needed fibers -/

def Spawns (s : State) (e : Event) (f : FiberId) : Prop :=
  ((∃ timeout, e = .block timeout) ∨ e.Spawns) ∧
    s.rubyFiber = some f ∧ ¬ s.runLoop.Borrows ∧ s.runtime

theorem Needed.keep (h : s'.Needed g) (halive : s'.isAlive g → s.isAlive g)
    (htasks : ∀ task' ∈ s'.tasks, task'.MayResume → ∃ task ∈ s.tasks, task.MayResume ∧
      task.fiber = task'.fiber ∧
        ∀ timeoutAt g, task'.future = .timeout timeoutAt g → task.future = .timeout timeoutAt g)
    (hparent : ∀ task ∈ s.tasks, s'.transferBackTo task.fiber = some g →
      s'.Unfinished task.fiber → s.transferBackTo task.fiber = some g ∧ s.Unfinished task.fiber)
    : s.Needed g := by
  obtain ⟨hg, task', hmem', hmay', hreaches⟩ := h
  obtain ⟨task, hmem, hmay, hfiber, hfuture⟩ := htasks task' hmem' hmay'
  refine ⟨halive hg, task, hmem, hmay, ?_⟩
  obtain hown | ⟨timeoutAt, htimeout⟩ | ⟨hback, hunfinished⟩ := hreaches
  . exact .inl (hfiber.trans hown)
  . exact .inr (.inl ⟨timeoutAt, hfuture timeoutAt g htimeout⟩)
  . rw [← hfiber] at hback hunfinished
    exact .inr (.inr (hparent task hmem hback hunfinished))

theorem Needed.update (h : s'.Needed g) {status : FiberStatus}
    (hstatus : s'.status = Function.update s.status f status) (hf : s.isAlive f)
    (hunfinished : s.Unfinished f ∨ status = .terminated)
    (htransfer : s'.transferBackTo = s.transferBackTo)
    (htasks : ∀ task' ∈ s'.tasks, task'.MayResume → ∃ task ∈ s.tasks, task.MayResume ∧
      task.fiber = task'.fiber ∧
        ∀ timeoutAt g, task'.future = .timeout timeoutAt g → task.future = .timeout timeoutAt g)
    : s.Needed g := by
  apply h.keep (isAlive_update hstatus hf) htasks
  intro task _ hback hchild
  rw [htransfer] at hback
  exact ⟨hback, hchild.update hstatus hunfinished⟩

theorem Needed.stays (h : s'.Needed g) (hstays : Stays s s') : s.Needed g := by
  have hthread := hstays.thread
  apply h.keep
  . simp only [isAlive, hthread.status, imp_self]
  . intro task' hmem' hmay'
    obtain ⟨task, hmem, hnext⟩ := hstays.old hmem'
    refine ⟨task, hmem, hnext.mayResume hmay', hnext.fiber.symm, ?_⟩
    intro timeoutAt g htimeout
    cases hnext.future with
    | inl heq => exact heq ▸ htimeout
    | inr hblock => simp [Task.isBlock, htimeout] at hblock
  . intro task _ hback hchild
    simp only [Unfinished, isAlive, hthread.status, hthread.transferBackTo] at hback hchild ⊢
    exact ⟨hback, hchild⟩

theorem Needed.spawned {future : Future} (hspawn : Spawned s f future s')
    (htimer : ∀ timeoutAt g, future = .timeout timeoutAt g → g = f) (h : s'.Needed g)
    : s.Needed g ∨ s.runtime ∧ (g = f ∨ s.transferBackTo f = some g ∧ s.isAlive g) := by
  have hthread := hspawn.thread
  obtain ⟨hg, task, hmem, hmay, hreaches⟩ := h
  simp only [isAlive, Unfinished, hthread.status, hthread.transferBackTo] at hg hreaches
  rw [hspawn.tasks, List.mem_append, List.mem_singleton] at hmem
  cases hmem with
  | inl hold => exact .inl ⟨hg, task, hold, hmay, hreaches⟩
  | inr hnew =>
    subst hnew
    refine .inr ⟨?_, ?_⟩
    . cases hruntime : s.runtime with
      | true => rfl
      | false => simp [Task.MayResume, newTask, hruntime] at hmay
    . obtain hown | ⟨timeoutAt, htimeout⟩ | ⟨hback, -⟩ := hreaches
      . exact .inl hown.symm
      . exact .inl (htimer timeoutAt g htimeout)
      . exact .inr ⟨hback, hg⟩

theorem mayResume_setTaskStatus {t : TaskId} {status : TaskStatus}
    (hmay : ∀ task ∈ s.tasks, task.id = t → task.MayResume)
    : ∀ task' ∈ (s.setTaskStatus t status).tasks, task'.MayResume → ∃ task ∈ s.tasks,
        task.MayResume ∧ task.fiber = task'.fiber ∧
          ∀ timeoutAt g, task'.future = .timeout timeoutAt g →
            task.future = .timeout timeoutAt g := by
  intro task' hmem' hmay'
  obtain ⟨task, hmem, rfl⟩ := List.mem_map.mp hmem'
  refine ⟨task, hmem, ?_⟩
  by_cases heq : task.id = t
  . rw [if_pos heq]
    exact ⟨hmay task hmem heq, rfl, fun _ _ h => h⟩
  . rw [if_neg heq] at hmay' ⊢
    exact ⟨hmay', rfl, fun _ _ h => h⟩

theorem Needed.yield {future : Future} (h : Needed (s'.yield f s.nextTask) g)
    (hspawn : Spawned s f future s') (hf : s.Unfinished f) : s'.Needed g := by
  have hf' : s'.Unfinished f := by
    simpa only [Unfinished, isAlive, hspawn.thread.status] using hf
  apply h.update rfl hf'.1 (.inl hf') rfl
  exact fun task hmem hmay => ⟨task, hmem, hmay, rfl, fun _ _ h => h⟩

theorem Needed.fiberImpl (h : Needed (s.fiberImpl f) g) (howned : Owned s) (holder : ParentsOlder s)
    (hf : s.Unfinished f) : s.Needed g := by
  have hparent : ∀ task ∈ s.tasks,
      (s.fiberImpl f).transferBackTo task.fiber = s.transferBackTo task.fiber := by
    intro task hmem
    exact Function.update_of_ne (Nat.ne_of_lt (howned.born task hmem)) _ _
  have hnew : g ≠ s.nextFiber := by
    rintro rfl
    obtain ⟨-, task, hmem, -, hown | ⟨timeoutAt, htimeout⟩ | ⟨hback, -⟩⟩ := h
    . exact Nat.ne_of_lt (howned.born task hmem) hown
    . exact Nat.ne_of_gt (howned.born task hmem) (howned.timer task hmem _ _ htimeout)
    . rw [hparent task hmem] at hback
      obtain ⟨hlt, hlt'⟩ := holder _ _ hback
      exact Nat.lt_asymm hlt hlt'
  apply h.keep
  . intro hg
    by_cases heq : g = f
    . exact heq ▸ hf.1
    . simpa only [isAlive, State.fiberImpl, setStatus, Function.update_of_ne hnew,
        Function.update_of_ne heq] using hg
  . exact fun task hmem hmay => ⟨task, hmem, hmay, rfl, fun _ _ h => h⟩
  . intro task hmem hback hchild
    rw [hparent task hmem] at hback
    refine ⟨hback, ?_⟩
    have hne : task.fiber ≠ s.nextFiber := Nat.ne_of_lt (howned.born task hmem)
    by_cases heq : task.fiber = f
    . exact heq ▸ hf
    . simpa only [Unfinished, isAlive, State.fiberImpl, setStatus, Function.update_of_ne hne,
        Function.update_of_ne heq] using hchild

theorem Effect.needed (hwf : Wf s) (howned : Owned s) (holder : ParentsOlder s) {e : Event}
    (h : Effect s e s') (hg : s'.Needed g)
    : s.Needed g ∨ ∃ f, s.Spawns e f ∧ (g = f ∨ s.transferBackTo f = some g ∧ s.isAlive g) := by
  have halive {f : FiberId} (hf : s.control = .running f) : s.isAlive f ∧ s.Unfinished f := by
    simp [Unfinished, isAlive, (hwf.running f).mpr hf]
  have hsuspended {f : FiberId} {sus : Suspension} (hf : s.status f = .suspended sus)
      (hne : sus ≠ .transferBack) : s.isAlive f ∧ s.Unfinished f := by
    simp [Unfinished, isAlive, hf, hne]
  have hspawns {f : FiberId} (hevent : (∃ timeout, e = .block timeout) ∨ e.Spawns)
      (hf : s.rubyFiber = some f) (hloop : ¬ s.runLoop.Borrows)
      (hg : s.Needed g ∨ s.runtime ∧ (g = f ∨ s.transferBackTo f = some g ∧ s.isAlive g))
      : s.Needed g ∨ ∃ f, s.Spawns e f ∧ (g = f ∨ s.transferBackTo f = some g ∧ s.isAlive g) :=
    hg.imp_right fun hg => ⟨f, ⟨hevent, hf, hloop, hg.1⟩, hg.2⟩
  have hsub {tasks : List Task} (hsub : tasks.Sublist s.tasks)
      : ∀ task' ∈ tasks, task'.MayResume → ∃ task ∈ s.tasks, task.MayResume ∧
        task.fiber = task'.fiber ∧
          ∀ timeoutAt g, task'.future = .timeout timeoutAt g →
            task.future = .timeout timeoutAt g :=
    fun task' hmem hmay => ⟨task', hsub.subset hmem, hmay, rfl, fun _ _ h => h⟩
  cases h with
  | still hstill => exact .inl (hg.stays (hstill.stays howned.nodup))
  | switchHook _ hstatus =>
    obtain ⟨hf, hunfinished⟩ := hsuspended hstatus (by simp)
    exact .inl (hg.update rfl hf (.inl hunfinished) rfl (hsub (.refl _)))
  | switchFiber _ hstatus | switchLoop _ hstatus =>
    obtain ⟨hf, hunfinished⟩ := hsuspended hstatus (by simp)
    exact .inl (hg.update rfl hf (.inl hunfinished) rfl (hsub (.refl _)))
  | switchBack _ hstatus =>
    exact .inl (hg.update rfl (isAlive_of_suspended hstatus) (.inr rfl) rfl (hsub (.refl _)))
  | switchTimeout _ hstatus =>
    obtain ⟨hf, hunfinished⟩ := hsuspended hstatus (by simp)
    refine .inl (hg.update rfl hf (.inl hunfinished) rfl (mayResume_setTaskStatus ?_))
    intro task hmem hid
    simp [Task.MayResume, ((howned.raising _ hstatus).2 task hmem hid).2]
  | @fiber f hf => exact .inl (hg.fiberImpl howned holder (halive (Wf.rubyFiber_running hf)).2)
  | @hook f hook hf hloop =>
    have hspawn := Spawned.addTask s f (hook.future s.now)
    have hg : Needed (s.addTask f (hook.future s.now)) g := by
      refine hg.yield hspawn (halive (Wf.rubyFiber_running hf)).2
    have htimer := future_ne_timeout (hook_isTimeout s f hook)
    exact hspawns (Or.inr trivial) hf hloop (hg.spawned hspawn htimer)
  | @hookRoot hook hf hloop =>
    have htimer := future_ne_timeout (hook_isTimeout s rootFiber hook)
    exact hspawns (Or.inr trivial) hf hloop (hg.spawned (.addTask s _ _) htimer)
  | @block f timeout hf hloop =>
    have hspawn := Spawned.block s f timeout
    have hg := hg.yield hspawn (halive (Wf.rubyFiber_running hf)).2
    exact hspawns (.inl ⟨timeout, rfl⟩) hf hloop (hg.spawned hspawn (by simp))
  | @blockRoot timeout hf hloop =>
    exact hspawns (.inl ⟨timeout, rfl⟩) hf hloop (hg.spawned (.block s _ timeout) (by simp))
  | @timeoutAfter f duration hf hloop =>
    have hg : Needed (s.addTask f (.timeout (s.now + duration) f)) g := hg
    refine hspawns (Or.inr trivial) hf hloop (hg.spawned (.addTask s _ _) ?_)
    intro timeoutAt g hfuture
    injection hfuture with _ heq
    exact heq.symm
  | endTimeout => exact .inl hg
  | finishDies hf =>
    have hrunning := Wf.rubyFiber_running hf
    exact .inl (hg.update rfl (halive hrunning).1 (.inr rfl) rfl (hsub (.refl _)))
  | finishBack hf =>
    have hrunning := Wf.rubyFiber_running hf
    exact .inl (hg.update rfl (halive hrunning).1 (.inl (halive hrunning).2) rfl (hsub (.refl _)))
  | pollRaise hloop hfind hstatus =>
    obtain ⟨hf, hunfinished⟩ := halive hloop.2
    refine .inl (hg.update rfl hf (.inl hunfinished) rfl (mayResume_setTaskStatus ?_))
    intro task hmem hid
    rw [findTask_unique howned.nodup hfind hmem hid]
    simp [Task.MayResume, hstatus]
  | joinResume hloop =>
    obtain ⟨hf, hunfinished⟩ := halive hloop.2
    exact .inl (hg.update rfl hf (.inl hunfinished) rfl (hsub List.filter_sublist))
  | joinDrop =>
    refine .inl (hg.keep id (hsub List.filter_sublist) ?_)
    exact fun _ _ hback hchild => ⟨hback, hchild⟩

/-! ### The invariant -/

structure Marked (s : State) : Prop where
  wf : Wf s
  owned : Owned s
  older : ParentsOlder s
  marked : NeededMarked s

namespace Marked

theorem new : Marked .new where
  wf := .new
  owned := .new
  older := .new
  marked := by
    rintro g ⟨-, task, hmem, -⟩
    simp [State.new, tasks] at hmem

theorem effect (h : Marked s) {e : Event} (hC : s.KeepsMarks e) (heffect : Effect s e s')
    : NeededMarked s' := by
  intro g hg
  have hkeep (hmark : g ∈ s.mark) (hneeded : s.Needed g) : g ∈ s'.mark := by
    cases heffect.mem_mark hmark with
    | inl hmark => exact hmark
    | inr hunblock =>
      obtain ⟨hevent, hcurrent, hroot, hmem⟩ := hunblock
      cases e with
      | unblock fiberToWake =>
        have heq : fiberToWake = .fiber g := hevent
        exact absurd hneeded (hC g heq (hcurrent (heq ▸ rfl)) hroot hmem)
      | remoteUnblock fiberToWake => exact absurd hneeded (hC g hevent hroot hmem)
      | _ => exact hevent.elim
  cases heffect.needed h.wf h.owned h.older hg with
  | inl hneeded => exact hkeep (h.marked g hneeded) hneeded
  | inr hspawns =>
    obtain ⟨f, ⟨hevent, hf, hloop, hruntime⟩, hg⟩ := hspawns
    have hkeep (hunblocks : ¬ e.Unblocks g) (hmark : g ∈ s.mark) : g ∈ s'.mark :=
      (heffect.mem_mark hmark).resolve_right fun h => hunblocks h.1
    cases hevent with
    | inl hblock =>
      obtain ⟨timeout, rfl⟩ := hblock
      cases hg with
      | inl heq => exact heq ▸ heffect.mem_mark_of_block hf
      | inr hparent => exact hkeep id (hC f hf hloop hruntime g hparent.1 hparent.2)
    | inr hevent =>
      have hC : f ∈ s.mark ∧ ∀ parent, s.transferBackTo f = some parent → s.isAlive parent →
          parent ∈ s.mark := by
        cases e with
        | hook | timeoutAfter => exact hC f hf hloop hruntime
        | _ => exact hevent.elim
      have hunblocks : ¬ e.Unblocks g := by
        cases e with
        | hook | timeoutAfter => exact id
        | _ => exact hevent.elim
      cases hg with
      | inl heq => exact hkeep hunblocks (heq ▸ hC.1)
      | inr hparent => exact hkeep hunblocks (hC.2 g hparent.1 hparent.2)

theorem step (h : Marked s) {e : Event} (hC : s.KeepsMarks e) (hstep : step s e = some s')
    : Marked s' := by
  have hsound := step_sound h.wf hstep
  exact ⟨hsound.1, h.owned.step h.wf hstep,
    hsound.preserves (fun _ => Iff.rfl) fun _ => h.older.effect h.wf,
    hsound.preserves (fun _ => Iff.rfl) fun _ => h.effect hC⟩

end Marked

/-! ### The condition is exact -/

theorem needed_of_spawn {future : Future} (hmem : s.newTask f future ∈ s'.tasks)
    (hruntime : s.runtime) (hf : s'.Unfinished f)
    : s'.Needed f ∧ ∀ parent, s'.transferBackTo f = some parent → s'.isAlive parent →
        s'.Needed parent := by
  have hmay : (s.newTask f future).MayResume := by
    simp [Task.MayResume, newTask, hruntime]
  constructor
  . exact ⟨hf.1, _, hmem, hmay, .inl rfl⟩
  . intro parent hback halive
    exact ⟨halive, _, hmem, hmay, .inr (.inr ⟨hback, hf⟩)⟩

theorem needed_of_yield {future : Future} (hspawn : Spawned s f future s') (hruntime : s.runtime)
    : (s'.yield f s.nextTask).Needed f ∧ ∀ parent, s.transferBackTo f = some parent →
        s.isAlive parent → parent ≠ f → (s'.yield f s.nextTask).Needed parent := by
  have hmem : s.newTask f future ∈ (s'.yield f s.nextTask).tasks := by
    change _ ∈ s'.tasks
    rw [hspawn.tasks]
    exact List.mem_append_right _ (.head _)
  have hf : (s'.yield f s.nextTask).Unfinished f := by simp [Unfinished, isAlive]
  obtain ⟨hneeded, hparent⟩ := needed_of_spawn hmem hruntime hf
  refine ⟨hneeded, ?_⟩
  intro parent hback halive hne
  apply hparent parent (hspawn.thread.transferBackTo ▸ hback)
  simpa only [isAlive, status_yield, Function.update_of_ne hne, hspawn.thread.status] using halive

theorem not_mem_mark_erase (hblockers : s'.blockers = s.blockers.modify (AList.erase f))
    (hne : f ≠ rootFiber) : f ∉ s'.mark := by
  rw [mem_mark, hblockers]
  simp [GcCell.modify, hne]

theorem unblock_marks (h : Marked s) {current : Option FiberId} (hne : current ≠ some f)
    (hroot : f ≠ rootFiber) (hmem : f ∈ s.blockers.value)
    (hmarked : NeededMarked (s.unblock current (.fiber f)).2) : ¬ s.Needed f := by
  intro hneeded
  have hcheck : s.checkSuspended current f = .ok () := by
    simp [checkSuspended, hneeded.1, hne]
  obtain ⟨tx, hlookup⟩ := Option.isSome_iff_exists.mp (AList.lookup_isSome.mpr hmem)
  rw [unblock_of_free h.wf.blockers] at hmarked
  simp only [fiberOfValue, hcheck, hlookup] at hmarked
  have herased {X : State} (hX : X.blockers = s.blockers.modify (AList.erase f))
      (hmark : f ∈ X.mark) : False := not_mem_mark_erase hX hroot hmark
  split at hmarked
  . exact herased (by rfl) (hmarked f hneeded)
  . exact herased (by rfl) (hmarked f hneeded)

theorem Marked.keepsMarks (h : Marked s) {e : Event} (hstep : State.step s e = some s')
    (hmarked : NeededMarked s') : s.KeepsMarks e := by
  have hroot {parent : FiberId} (hback : s.transferBackTo rootFiber = some parent) : False :=
    Nat.not_lt_zero parent (h.older rootFiber parent hback).1
  cases e with
  | hook hook =>
    intro f hf hloop hruntime
    by_cases hne : f = rootFiber
    . subst hne
      exact ⟨mem_mark.mpr (.inl rfl), fun parent hback _ => (hroot hback).elim⟩
    . simp only [State.step, hf, Option.map_some, spawnAndTransfer_of_ne_root h.wf hloop hne,
        Option.some.injEq] at hstep
      subst hstep
      have hspawn := Spawned.addTask s f (hook.future s.now)
      obtain ⟨hneeded, hparent⟩ := needed_of_yield hspawn hruntime
      have hmark {g : FiberId} (hg : g ∈ ((s.addTask f (hook.future s.now)).yield f s.nextTask).mark)
          : g ∈ s.mark := mem_mark_congr (blockers_addTask s f _).symm hg
      refine ⟨hmark (hmarked f hneeded), ?_⟩
      intro parent hback halive
      have hlt := (h.older f parent hback).1
      exact hmark (hmarked parent (hparent parent hback halive (Nat.ne_of_lt hlt)))
  | timeoutAfter duration =>
    intro f hf hloop hruntime
    simp only [State.step, hf, Option.map_some, timeoutAfter_of_not_borrows h.wf hloop,
      Option.some.injEq] at hstep
    subst hstep
    have hspawn := Spawned.addTask s f (.timeout (s.now + duration) f)
    have hmark {g : FiberId} (hg : g ∈ (s.addTask f (.timeout (s.now + duration) f)).mark)
        : g ∈ s.mark := mem_mark_congr (blockers_addTask s f _).symm hg
    have hstatus := (h.wf.running f).mpr (Wf.rubyFiber_running hf)
    have hmem : s.newTask f (.timeout (s.now + duration) f)
        ∈ (s.addTask f (.timeout (s.now + duration) f)).tasks := by
      rw [hspawn.tasks]
      exact List.mem_append_right _ (.head _)
    have hunfinished : (s.addTask f (.timeout (s.now + duration) f)).Unfinished f := by
      simp [Unfinished, isAlive, hspawn.thread.status, hstatus]
    obtain ⟨hneeded, hparent⟩ := needed_of_spawn hmem hruntime hunfinished
    refine ⟨hmark (hmarked f hneeded), ?_⟩
    intro parent hback halive
    refine hmark (hmarked parent (hparent parent (hspawn.thread.transferBackTo ▸ hback) ?_))
    simpa only [isAlive, hspawn.thread.status] using halive
  | block timeout =>
    intro f hf hloop hruntime parent hback halive
    by_cases hne : f = rootFiber
    . exact (hroot (hne ▸ hback)).elim
    . simp only [State.step, hf, Option.map_some, block_of_ne_root h.wf hloop hne,
        Option.some.injEq] at hstep
      subst hstep
      have hlt := (h.older f parent hback).1
      have hparent := (needed_of_yield (.block s f timeout) hruntime).2 parent hback halive
        (Nat.ne_of_lt hlt)
      have hmark := mem_mark.mp (hmarked parent hparent)
      have hblockers : (((s.registerBlock f).addTask f (.block s.nextChan timeout none)).yield f
          s.nextTask).blockers = s.blockers.modify (AList.insert f s.nextChan) :=
        blockers_addTask _ _ _
      rw [hblockers] at hmark
      simp only [GcCell.modify, AList.mem_insert] at hmark
      exact mem_mark.mpr (hmark.imp_right fun hmem => hmem.resolve_left (Nat.ne_of_lt hlt))
  | unblock fiberToWake =>
    intro g heq hcurrent hg hmem
    obtain ⟨f, hf, rfl⟩ := Option.map_eq_some_iff.mp hstep
    subst heq
    exact unblock_marks h (hf ▸ hcurrent) hg hmem hmarked
  | remoteUnblock fiberToWake =>
    intro g heq hg hmem
    injection hstep with hstep
    subst hstep heq
    exact unblock_marks h (by simp) hg hmem hmarked
  | _ => trivial

/--
Every fiber that a pending task may still resume or raise into is marked throughout a run, if and
only if tasks are spawned by marked fibers only and no entry of such a fiber is removed by `unblock`.
-/
theorem needed_marked_iff (es : List Event)
    : Lts.Always step NeededMarked .new es ↔ Lts.Along step KeepsMarks .new es := by
  apply Lts.always_iff_along (J := Marked)
  . intro s e s' h hC hstep
    exact h.step hC hstep
  . intro s h
    exact h.marked
  . intro s e s' h hstep hmarked
    exact h.keepsMarks hstep hmarked
  . exact .new

theorem needed_not_marked : ¬ ∀ es, Lts.Always step NeededMarked .new es := by
  intro hall
  have hrun : (Lts.run step .new [.fiber, .hook (.kernelSleep 10000000)]).any fun s =>
      s.tasks = [⟨0, 1, .sleepUntil 10000000 (.integer 0), .pending⟩] ∧ s.isAlive 1 ∧ 1 ∉ s.mark := by
    decide
  refine Lts.not_always_of_run hrun ?_ (hall _)
  intro s hs hmarked
  obtain ⟨htasks, halive, hmark⟩ := of_decide_eq_true hs
  apply hmark
  apply hmarked
  refine ⟨halive, ⟨0, 1, .sleepUntil 10000000 (.integer 0), .pending⟩, ?_, trivial, .inl rfl⟩
  rw [htasks]
  exact .head _

end State
end Shreduler
