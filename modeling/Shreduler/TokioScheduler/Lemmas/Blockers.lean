import Shreduler.TokioScheduler.Lemmas.Tasks

/-!
This module contains the invariant of the `blockers` registry, with what keeps it.
-/

namespace Shreduler
namespace State

variable {s s' : State} {f g : FiberId} {task task' : Task} {rx tx : ChanId}

structure Waits (s : State) (task : Task) (rx : ChanId) : Prop where
  mem : task ∈ s.tasks
  waitsOn : task.rx = some rx
  chan : s.chans rx = .unsent
  status : task.status = .pending ∨ task.status = .aborted
  fiber : s.status task.fiber = .suspended (.spawnAndTransfer task.id)

structure Registry (s : State) : Prop where
  lookup : ∀ f rx, s.blockers.value.lookup f = some rx ↔ ∃ task, s.Waits task rx ∧ task.fiber = f
  task : ∀ task ∈ s.tasks, ∀ rx, task.rx = some rx →
    rx < s.nextChan ∧ (s.chans rx = .sent ∨ s.Waits task rx)
  injective : ∀ f g rx, s.blockers.value.lookup f = some rx → s.blockers.value.lookup g = some rx →
    f = g

theorem Waits.ne (h : s.Waits task rx) (hf : ∀ t, s.status f ≠ .suspended (.spawnAndTransfer t))
    : task.fiber ≠ f := by
  intro heq
  exact hf task.id (heq ▸ h.fiber)

theorem Waits.erase_iff : s.erase.Waits task rx ↔ s.Waits task rx := by
  constructor
  all_goals
    intro h
    exact ⟨h.mem, h.waitsOn, h.chan, h.status, h.fiber⟩

namespace Registry

theorem new : Registry .new where
  lookup f rx := by
    constructor
    . simp [State.new]
    . rintro ⟨task, hwaits, -⟩
      exact absurd hwaits.mem List.not_mem_nil
  task := by simp [State.new, tasks]
  injective := by simp [State.new]

theorem erase_iff (s : State) : Registry s.erase ↔ Registry s := by
  constructor
  . intro h
    have htask := h.task
    have hlookup := h.lookup
    simp only [Waits.erase_iff] at htask hlookup
    exact ⟨hlookup, htask, h.injective⟩
  . intro h
    constructor
    . simp only [Waits.erase_iff]
      exact h.lookup
    . simp only [Waits.erase_iff]
      exact h.task
    . exact h.injective

theorem waits (h : Registry s) (hmem : task ∈ s.tasks) (hrx : task.rx = some rx)
    (hchan : s.chans rx = .unsent) : s.Waits task rx := by
  cases (h.task task hmem rx hrx).2 with
  | inl hsent => simp [hsent] at hchan
  | inr hwaits => exact hwaits

theorem not_mem (h : Registry s) (hf : ∀ t, s.status f ≠ .suspended (.spawnAndTransfer t))
    : s.blockers.value.lookup f = none := by
  cases hlookup : s.blockers.value.lookup f with
  | none => rfl
  | some rx =>
    obtain ⟨task, hwaits, hfiber⟩ := (h.lookup f rx).mp hlookup
    exact absurd hfiber (hwaits.ne hf)

theorem keep (h : Registry s) (hblockers : s'.blockers.value = s.blockers.value)
    (hchans : s'.chans = s.chans) (hnext : s'.nextChan = s.nextChan)
    (hold : ∀ task rx, s.Waits task rx → ∃ task', s'.Waits task' rx ∧ task'.fiber = task.fiber)
    (hnew : ∀ task' ∈ s'.tasks, ∀ rx, task'.rx = some rx →
      rx < s.nextChan ∧ s.chans rx = .sent ∨
        ∃ task, s.Waits task rx ∧ task'.fiber = task.fiber ∧ s'.Waits task' rx) : Registry s' where
  lookup f rx := by
    rw [hblockers, h.lookup]
    constructor
    . rintro ⟨task, hwaits, rfl⟩
      exact hold task rx hwaits
    . rintro ⟨task', hwaits', rfl⟩
      obtain ⟨-, hsent⟩ | ⟨task, hwaits, hfiber, -⟩ := hnew task' hwaits'.mem rx hwaits'.waitsOn
      . have hunsent := hwaits'.chan
        simp [hchans, hsent] at hunsent
      . exact ⟨task, hwaits, hfiber.symm⟩
  task task' hmem rx hrx := by
    rw [hnext, hchans]
    obtain ⟨hlt, hsent⟩ | ⟨task, hwaits, -, hwaits'⟩ := hnew task' hmem rx hrx
    . exact ⟨hlt, .inl hsent⟩
    . exact ⟨(h.task task hwaits.mem rx hwaits.waitsOn).1, .inr hwaits'⟩
  injective := by
    rw [hblockers]
    exact h.injective

theorem thread (h : Registry s) (hblockers : s'.blockers.value = s.blockers.value)
    (hchans : s'.chans = s.chans) (hnext : s'.nextChan = s.nextChan)
    (htasks : ∀ task ∈ s'.tasks, ∀ rx, task.rx = some rx →
      task ∈ s.tasks ∨ rx < s.nextChan ∧ s.chans rx = .sent)
    (hkept : ∀ task rx, s.Waits task rx →
      task ∈ s'.tasks ∧ s'.status task.fiber = s.status task.fiber) : Registry s' := by
  have hwaits {task : Task} {rx : ChanId} (hwaits : s.Waits task rx) : s'.Waits task rx := by
    obtain ⟨hmem, hstatus⟩ := hkept task rx hwaits
    exact ⟨hmem, hwaits.waitsOn, hchans ▸ hwaits.chan, hwaits.status, hstatus.trans hwaits.fiber⟩
  apply h.keep hblockers hchans hnext
  . intro task rx hold
    exact ⟨task, hwaits hold, rfl⟩
  . intro task hmem rx hrx
    cases htasks task hmem rx hrx with
    | inr hsent => exact .inl hsent
    | inl hmem =>
      obtain ⟨hlt, hsent | hold⟩ := h.task task hmem rx hrx
      . exact .inl ⟨hlt, hsent⟩
      . exact .inr ⟨task, hold, rfl, hwaits hold⟩

theorem update (h : Registry s) {status : FiberStatus}
    (hf : ∀ t, s.status f ≠ .suspended (.spawnAndTransfer t))
    (hstatus : s'.status = Function.update s.status f status)
    (hblockers : s'.blockers.value = s.blockers.value)
    (hchans : s'.chans = s.chans) (hnext : s'.nextChan = s.nextChan)
    (htasks : ∀ task ∈ s'.tasks, ∀ rx, task.rx = some rx → task ∈ s.tasks)
    (hkept : ∀ task rx, s.Waits task rx → task ∈ s'.tasks) : Registry s' := by
  apply h.thread hblockers hchans hnext
  . exact fun task hmem rx hrx => .inl (htasks task hmem rx hrx)
  . intro task rx hwaits
    refine ⟨hkept task rx hwaits, ?_⟩
    rw [hstatus, Function.update_of_ne (hwaits.ne hf)]

theorem stays (h : Registry s) (hstays : Stays s s')
    (hblockers : s'.blockers.value = s.blockers.value)
    (hchans : s'.chans = s.chans) (hnext : s'.nextChan = s.nextChan)
    (hstatus : ∀ task' ∈ s'.tasks, ∀ rx, task'.rx = some rx → s.chans rx = .unsent →
      task'.status = .pending ∨ task'.status = .aborted) : Registry s' := by
  have hwaits {task task' : Task} {rx : ChanId} (hwaits : s.Waits task rx)
      (hmem' : task' ∈ s'.tasks) (hmove : task.Next task') : s'.Waits task' rx := by
    have hrx := hmove.rx.trans hwaits.waitsOn
    refine ⟨hmem', hrx, hchans ▸ hwaits.chan, hstatus task' hmem' rx hrx hwaits.chan, ?_⟩
    rw [hstays.thread.status, hmove.fiber, hmove.id]
    exact hwaits.fiber
  apply h.keep hblockers hchans hnext
  . intro task rx hold
    obtain ⟨task', hmem', hmove⟩ := hstays.new hold.mem
    exact ⟨task', hwaits hold hmem' hmove, hmove.fiber⟩
  . intro task' hmem' rx hrx
    obtain ⟨task, hmem, hmove⟩ := hstays.old hmem'
    obtain ⟨hlt, hsent | hold⟩ := h.task task hmem rx (hmove.rx.symm.trans hrx)
    . exact .inl ⟨hlt, hsent⟩
    . exact .inr ⟨task, hold, hmove.fiber, hwaits hold hmem' hmove⟩

theorem settled (h : Registry s) {t : TaskId} {c : Task → Task}
    (hnodup : (s.tasks.map (·.id)).Nodup) (hfind : s.findTask t = some task)
    (hsettled : ∀ rx, task.rx = some rx → s.chans rx ≠ .unsent)
    (htasks : s'.tasks = s.tasks.map fun task => if task.id = t then c task else task)
    (hrx : (c task).rx = task.rx) (hblockers : s'.blockers.value = s.blockers.value)
    (hchans : s'.chans = s.chans) (hnext : s'.nextChan = s.nextChan)
    (hstatus : ∀ task rx, s.Waits task rx → s'.status task.fiber = s.status task.fiber)
    : Registry s' := by
  apply h.thread hblockers hchans hnext
  . intro task' hmem' rx hrx'
    rw [htasks] at hmem'
    obtain ⟨task₀, hmem, rfl⟩ := List.mem_map.mp hmem'
    by_cases hid : task₀.id = t
    . rw [if_pos hid, findTask_unique hnodup hfind hmem hid, hrx] at hrx'
      obtain ⟨hlt, hsent | hwaits⟩ := h.task task (findTask_mem hfind).1 rx hrx'
      . exact .inr ⟨hlt, hsent⟩
      . exact absurd hwaits.chan (hsettled rx hrx')
    . rw [if_neg hid]
      exact .inl hmem
  . intro task₀ rx hwaits
    refine ⟨?_, hstatus task₀ rx hwaits⟩
    rw [htasks]
    apply List.mem_map.mpr
    refine ⟨task₀, hwaits.mem, ?_⟩
    split
    . next hid =>
      have heq := findTask_unique hnodup hfind hwaits.mem hid
      exact absurd hwaits.chan (hsettled rx (heq ▸ hwaits.waitsOn))
    . rfl

theorem spawned (h : Registry s) {future : Future} {status : FiberStatus}
    (hf : s.status f = .running) (hrx : (s.newTask f future).rx = none)
    (htasks : s'.tasks = (s.addTask f future).tasks)
    (hstatus : s'.status = Function.update s.status f status)
    (hblockers : s'.blockers = (s.addTask f future).blockers)
    (hchans : s'.chans = (s.addTask f future).chans)
    (hnext : s'.nextChan = (s.addTask f future).nextChan) : Registry s' := by
  have hspawn := Spawned.addTask s f future
  apply h.update (by simp [hf]) hstatus
  . rw [hblockers, blockers_addTask]
  . rw [hchans, chans_addTask_of_rx hrx]
  . rw [hnext, nextChan_addTask]
  . intro task hmem rx hrx'
    rw [htasks, hspawn.tasks, List.mem_append, List.mem_singleton] at hmem
    cases hmem with
    | inl hold => exact hold
    | inr hnew => simp [hnew, hrx] at hrx'
  . intro task rx hwaits
    rw [htasks, hspawn.tasks, List.mem_append]
    exact .inl hwaits.mem

theorem setTaskStatus (h : Registry s) {t : TaskId} {status : TaskStatus} {fstatus : FiberStatus}
    (ht : ∀ task ∈ s.tasks, task.id = t → task.rx = none)
    (hf : ∀ t, s.status f ≠ .suspended (.spawnAndTransfer t))
    (htasks : s'.tasks = (s.setTaskStatus t status).tasks)
    (hstatus : s'.status = Function.update s.status f fstatus)
    (hblockers : s'.blockers = s.blockers) (hchans : s'.chans = s.chans)
    (hnext : s'.nextChan = s.nextChan) : Registry s' := by
  apply h.update hf hstatus (congrArg GcCell.value hblockers) hchans hnext
  . intro task hmem rx hrx
    rw [htasks] at hmem
    obtain ⟨task₀, hmem₀, rfl⟩ := List.mem_map.mp hmem
    by_cases hid : task₀.id = t
    . rw [if_pos hid] at hrx
      exact absurd ((ht task₀ hmem₀ hid).symm.trans hrx) (by simp)
    . rw [if_neg hid]
      exact hmem₀
  . intro task rx hwaits
    rw [htasks]
    refine List.mem_map.mpr ⟨task, hwaits.mem, if_neg ?_⟩
    intro hid
    exact absurd ((ht task hwaits.mem hid).symm.trans hwaits.waitsOn) (by simp)

theorem removeTask (h : Registry s) {t : TaskId} (hnodup : (s.tasks.map (·.id)).Nodup)
    (hfind : s.findTask t = some task) (hended : task.status ≠ .pending ∧ task.status ≠ .aborted)
    {fstatus : FiberStatus} (hf : ∀ t, s.status f ≠ .suspended (.spawnAndTransfer t))
    (htasks : s'.tasks = (s.removeTask t).tasks)
    (hstatus : s'.status = Function.update s.status f fstatus)
    (hblockers : s'.blockers = s.blockers) (hchans : s'.chans = s.chans)
    (hnext : s'.nextChan = s.nextChan) : Registry s' := by
  apply h.update hf hstatus (congrArg GcCell.value hblockers) hchans hnext
  . intro task hmem _ _
    rw [htasks] at hmem
    exact List.mem_of_mem_filter hmem
  . intro task' rx hwaits
    rw [htasks]
    refine List.mem_filter.mpr ⟨hwaits.mem, decide_eq_true ?_⟩
    intro hid
    rw [findTask_unique hnodup hfind hwaits.mem hid] at hwaits
    cases hwaits.status with
    | inl hpending => exact hended.1 hpending
    | inr haborted => exact hended.2 haborted

end Registry

/-! ### `unblock` -/

theorem chans_unblock_of_ne (hne : rx ≠ tx)
    : ((s.removeBlocker f).setChan tx .sent).chans rx = s.chans rx :=
  Function.update_of_ne hne _ _

theorem Waits.unblock_iff
    : ((s.removeBlocker f).setChan tx .sent).Waits task rx ↔ s.Waits task rx ∧ rx ≠ tx := by
  constructor
  . intro h
    have hne : rx ≠ tx := by
      intro heq
      have hunsent := h.chan
      simp [heq, setChan] at hunsent
    exact ⟨⟨h.mem, h.waitsOn, chans_unblock_of_ne hne ▸ h.chan, h.status, h.fiber⟩, hne⟩
  . rintro ⟨h, hne⟩
    exact ⟨h.mem, h.waitsOn, (chans_unblock_of_ne hne).trans h.chan, h.status, h.fiber⟩

theorem Registry.unblock (h : Registry s) (hf : s.blockers.value.lookup f = some tx)
    : Registry ((s.removeBlocker f).setChan tx .sent) := by
  have hlookup {g : FiberId} {rx : ChanId}
      : ((s.removeBlocker f).setChan tx .sent).blockers.value.lookup g = some rx ↔
        s.blockers.value.lookup g = some rx ∧ g ≠ f :=
    lookup_removeBlocker s f g rx
  constructor
  . -- the fiber loses its entry and its task the channel it waits on: no other task has that one
    intro g rx
    rw [hlookup, h.lookup]
    constructor
    . rintro ⟨⟨task, hwaits, rfl⟩, hne⟩
      refine ⟨task, Waits.unblock_iff.mpr ⟨hwaits, ?_⟩, rfl⟩
      intro heq
      exact hne (h.injective _ f rx ((h.lookup _ rx).mpr ⟨task, hwaits, rfl⟩) (heq ▸ hf))
    . rintro ⟨task, hwaits, rfl⟩
      obtain ⟨hwaits, hne⟩ := Waits.unblock_iff.mp hwaits
      refine ⟨⟨task, hwaits, rfl⟩, ?_⟩
      intro heq
      have hentry := (h.lookup _ rx).mpr ⟨task, hwaits, rfl⟩
      rw [heq, hf] at hentry
      exact hne (Option.some.inj hentry).symm
  . intro task hmem rx hrx
    obtain ⟨hlt, hchan⟩ := h.task task hmem rx hrx
    refine ⟨hlt, ?_⟩
    by_cases heq : rx = tx
    . subst heq
      exact .inl (Function.update_self ..)
    . rw [chans_unblock_of_ne heq]
      exact hchan.imp_right fun hwaits => Waits.unblock_iff.mpr ⟨hwaits, heq⟩
  . intro g k rx hg hk
    exact h.injective g k rx (hlookup.mp hg).1 (hlookup.mp hk).1

/-! ### `block` -/

structure EntersBlock (s : State) (f : FiberId) (timeout : Option Duration) (s' : State) : Prop where
  tasks : s'.tasks = s.tasks ++ [s.newTask f (.block s.nextChan timeout none)]
  pending : (s.newTask f (.block s.nextChan timeout none)).status = .pending
  status : s'.status = Function.update s.status f (.suspended (.spawnAndTransfer s.nextTask))
  blockers : s'.blockers.value = s.blockers.value.insert f s.nextChan
  chans : s'.chans = Function.update s.chans s.nextChan .unsent
  nextChan : s'.nextChan = s.nextChan + 1

namespace EntersBlock

variable {timeout : Option Duration}

theorem of_lookup (hlookup : s.blockers.value.lookup f = none) (hruntime : s.runtime)
    : EntersBlock s f timeout
        (((s.registerBlock f).addTask f (.block s.nextChan timeout none)).yield f s.nextTask) := by
  have hspawn := Spawned.block s f timeout
  have hregister := registerBlock_eq_of_lookup hlookup
  have hruntime' : (s.registerBlock f).runtime = true := by
    rw [runtime_registerBlock, hruntime]
  have hchans := chans_addTask (s.registerBlock f) f (.block s.nextChan timeout none)
  rw [if_pos hruntime'] at hchans
  constructor
  . exact hspawn.tasks
  . simp [newTask, hruntime]
  . rw [status_yield, hspawn.thread.status]
  . exact congrArg GcCell.value ((blockers_addTask _ _ _).trans (blockers_registerBlock s f))
  . exact hchans.trans (by rw [hregister]; rfl)
  . exact (nextChan_addTask _ _ _).trans (by rw [hregister])

theorem mem_tasks (henters : EntersBlock s f timeout s')
    : task ∈ s'.tasks ↔ task ∈ s.tasks ∨ task = s.newTask f (.block s.nextChan timeout none) := by
  rw [henters.tasks, List.mem_append, List.mem_singleton]

theorem chans_of_lt (henters : EntersBlock s f timeout s') (hlt : rx < s.nextChan)
    : s'.chans rx = s.chans rx := by
  rw [henters.chans, Function.update_of_ne (Nat.ne_of_lt hlt)]

theorem waits_new (henters : EntersBlock s f timeout s')
    : s'.Waits (s.newTask f (.block s.nextChan timeout none)) s.nextChan := by
  refine ⟨henters.mem_tasks.mpr (.inr rfl), rfl, ?_, .inl henters.pending, ?_⟩
  . rw [henters.chans, Function.update_self]
  . rw [henters.status]
    exact Function.update_self ..

theorem waits_iff (henters : EntersBlock s f timeout s') (h : Registry s)
    (hf : s.status f = .running)
    : s'.Waits task rx ↔
      s.Waits task rx ∨ task = s.newTask f (.block s.nextChan timeout none) ∧ rx = s.nextChan := by
  constructor
  . intro hwaits
    cases henters.mem_tasks.mp hwaits.mem with
    | inr heq =>
      have hrx := hwaits.waitsOn
      rw [heq] at hrx
      exact .inr ⟨heq, (Option.some.inj hrx).symm⟩
    | inl hold =>
      -- the call changes no channel that an older task waits on
      obtain ⟨hlt, hsent | hwaits⟩ := h.task task hold rx hwaits.waitsOn
      . have hunsent := hwaits.chan
        simp [henters.chans_of_lt hlt, hsent] at hunsent
      . exact .inl hwaits
  . rintro (hwaits | ⟨rfl, rfl⟩)
    . have hchan := henters.chans_of_lt (h.task task hwaits.mem rx hwaits.waitsOn).1
      refine ⟨henters.mem_tasks.mpr (.inl hwaits.mem), hwaits.waitsOn, hchan.trans hwaits.chan,
        hwaits.status, ?_⟩
      rw [henters.status, Function.update_of_ne (hwaits.ne (by simp [hf]))]
      exact hwaits.fiber
    . exact henters.waits_new

theorem lookup_iff (henters : EntersBlock s f timeout s') (hlookup : s.blockers.value.lookup f = none)
    : s'.blockers.value.lookup g = some rx ↔
      g = f ∧ rx = s.nextChan ∨ s.blockers.value.lookup g = some rx := by
  rw [henters.blockers]
  by_cases heq : g = f
  . subst heq
    simp [hlookup, eq_comm]
  . simp [AList.lookup_insert_ne heq, heq]

end EntersBlock

theorem Registry.lookup_ne_nextChan (h : Registry s) (hg : s.blockers.value.lookup g = some rx)
    : rx ≠ s.nextChan := by
  obtain ⟨task, hwaits, -⟩ := (h.lookup g rx).mp hg
  exact Nat.ne_of_lt (h.task task hwaits.mem rx hwaits.waitsOn).1

theorem Registry.block (h : Registry s) {timeout : Option Duration} (hf : s.status f = .running)
    (henters : EntersBlock s f timeout s') : Registry s' := by
  have hlookup := h.not_mem (f := f) (by simp [hf])
  constructor
  . intro g rx
    rw [henters.lookup_iff hlookup, h.lookup]
    constructor
    . rintro (⟨rfl, rfl⟩ | ⟨task, hwaits, rfl⟩)
      . exact ⟨_, henters.waits_new, rfl⟩
      . exact ⟨task, (henters.waits_iff h hf).mpr (.inl hwaits), rfl⟩
    . rintro ⟨task, hwaits, rfl⟩
      obtain hwaits | ⟨rfl, rfl⟩ := (henters.waits_iff h hf).mp hwaits
      . exact .inr ⟨task, hwaits, rfl⟩
      . exact .inl ⟨rfl, rfl⟩
  . intro task hmem rx hrx
    rw [henters.nextChan]
    cases henters.mem_tasks.mp hmem with
    | inl hold =>
      obtain ⟨hlt, hchan⟩ := h.task task hold rx hrx
      rw [henters.chans_of_lt hlt]
      exact ⟨Nat.lt_succ_of_lt hlt,
        hchan.imp_right fun hwaits => (henters.waits_iff h hf).mpr (.inl hwaits)⟩
    | inr heq =>
      subst heq
      have hrx := Option.some.inj hrx
      subst hrx
      exact ⟨Nat.lt_succ_self _, .inr henters.waits_new⟩
  . -- the channel of the new entry is fresh
    intro g k rx hg hk
    obtain ⟨rfl, rfl⟩ | hg := (henters.lookup_iff hlookup).mp hg
    . obtain ⟨rfl, -⟩ | hk := (henters.lookup_iff hlookup).mp hk
      . rfl
      . exact absurd rfl (h.lookup_ne_nextChan hk)
    . obtain ⟨rfl, rfl⟩ | hk := (henters.lookup_iff hlookup).mp hk
      . exact absurd rfl (h.lookup_ne_nextChan hg)
      . exact h.injective g k rx hg hk

end State
end Shreduler
