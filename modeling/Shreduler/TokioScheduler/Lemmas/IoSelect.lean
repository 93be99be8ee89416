import Shreduler.TokioScheduler.Impl.IoSelect
import Shreduler.TokioScheduler.Lemmas.BlockAgreement

/-!
This module proves when the results of `io_select` are independent of what the program does with
earlier ones.
-/

namespace Shreduler

namespace State

variable {s s' : State} {t : TaskId}

def Undelivered (s : State) (t : TaskId) : Prop :=
  (∃ task ∈ s.tasks, task.id = t) ∨ ∃ f result, s.control = .transfer f ⟨result, .task t⟩

def HandedOver (s : State) : Prop :=
  ∀ f result t, s.control = .transfer f ⟨result, .task t⟩ →
    t < s.nextTask ∧ ∀ task ∈ s.tasks, task.id ≠ t

theorem HandedOver.effect (howned : Owned s) (h : HandedOver s) {e : Event} (heffect : Effect s e s')
    : HandedOver s' := by
  intro f result t hcontrol
  have hrunning {g : FiberId} (hg : s.control = .running g) (heq : s'.control = s.control) : False := by
    rw [heq, hg] at hcontrol
    contradiction
  cases heffect with
  | still hstill =>
    have hstays := hstill.stays howned.nodup
    obtain ⟨hlt, hgone⟩ := h f result t (hstill.thread.control ▸ hcontrol)
    refine ⟨hstays.nextTask ▸ hlt, ?_⟩
    intro task' hmem
    obtain ⟨task, htask, hnext⟩ := hstays.old hmem
    exact hnext.id ▸ hgone task htask
  | joinResume hloop hfind =>
    simp only [transfer, Control.transfer.injEq, Payload.mk.injEq, Origin.task.injEq] at hcontrol
    obtain ⟨-, -, rfl⟩ := hcontrol
    obtain ⟨hmem, hid⟩ := findTask_mem hfind
    refine ⟨hid ▸ howned.lt _ hmem, ?_⟩
    intro task' hmem'
    simpa using (List.mem_filter.mp hmem').2
  | joinDrop hloop => exact (hrunning hloop.2 rfl).elim
  | hookRoot hf | timeoutAfter hf =>
    exact (hrunning (Wf.rubyFiber_running hf) (Spawned.addTask s _ _).thread.control).elim
  | blockRoot hf =>
    exact (hrunning (Wf.rubyFiber_running hf) (Spawned.block s _ _).thread.control).elim
  | endTimeout hf => exact (hrunning (Wf.rubyFiber_running hf) rfl).elim
  | switchHook | switchFiber | switchBack | switchLoop | switchTimeout | fiber | finishDies
  | finishBack | hook | block | pollRaise =>
    simp [switchTo, complete, setTaskStatus, modifyTasks, terminate, transfer, fiberImpl, yield]
      at hcontrol

theorem HandedOver.step (hwf : Wf s) (howned : Owned s) (h : HandedOver s) {e : Event}
    (hstep : State.step s e = some s') : HandedOver s' := by
  obtain ⟨s'', heffect, houtcome⟩ := (step_sound hwf hstep).outcome
  have hs'' := h.effect howned heffect
  rwa [HandedOver, ← houtcome.control, ← houtcome.tasks, ← houtcome.nextTask] at hs''

theorem undelivered_of_step (hwf : Wf s) (howned : Owned s) {e : Event}
    (hstep : State.step s e = some s') (hlt : t < s.nextTask) (h : s'.Undelivered t)
    : s.Undelivered t := by
  cases h with
  | inl hmem =>
    obtain ⟨task', hmem, hid⟩ := hmem
    obtain ⟨task, htask, holder⟩ | ⟨f, future, rfl⟩ := older_of_step hwf howned hstep hmem
    . exact .inl ⟨task, htask, holder.id.trans hid⟩
    . exact absurd (hid ▸ hlt) (Nat.lt_irrefl _)
  | inr hcontrol =>
    obtain ⟨f, result, hcontrol⟩ := hcontrol
    obtain ⟨s'', heffect, houtcome⟩ := (step_sound hwf hstep).outcome
    rw [houtcome.control] at hcontrol
    obtain hold | ⟨task, htask, hid, -⟩ := heffect.control_task hcontrol
    . exact .inr ⟨f, result, hold⟩
    . exact .inl ⟨task, htask, hid⟩

theorem delivered_of_switch (h : HandedOver s) {f : FiberId} {result : Result Value} {t' : TaskId}
    (hcontrol : s.control = .transfer f ⟨result, .task t⟩)
    (hstatus : s.status f = .suspended (.spawnAndTransfer t')) (hstep : s.switch = some s')
    : ¬ s'.Undelivered t := by
  simp only [switch, hcontrol, hstatus, Option.some.injEq] at hstep
  subst hstep
  rintro (⟨task, hmem, hid⟩ | ⟨g, result', hcontrol'⟩)
  . exact (h f result t hcontrol).2 task hmem hid
  . simp [switchTo] at hcontrol'

end State

namespace IoSelect

variable {s s' : State} {t : TaskId} {objects : Objects} {output : Output}

/-! ### The arrays of a result -/

def place {α : Type} (interest : Interest) (x m : α) : List α :=
  match interest with
  | .readable => [x, m, m]
  | .writable => [m, x, m]
  | .readableWritable => [m, m, x]

theorem map_place {α β : Type} (f : α → β) (interest : Interest) (x m : α)
    : (place interest x m).map f = place interest (f x) (f m) := by
  cases interest <;> rfl

theorem mem_place {α : Type} {interest : Interest} {x m a : α}
    : a ∈ place interest x m ↔ a = x ∨ a = m := by
  cases interest <;> simp [place] <;> tauto

theorem exists_memo_slots {α : Type} (interest : Interest) (x m : α)
    : ∃ i j : Nat, i ≠ j ∧ (place interest x m)[i]? = some m ∧ (place interest x m)[j]? = some m := by
  cases interest with
  | readable => exact ⟨1, 2, by simp, rfl, rfl⟩
  | writable => exact ⟨0, 2, by simp, rfl, rfl⟩
  | readableWritable => exact ⟨0, 1, by simp, rfl, rfl⟩

def Interest.slot : Interest → Nat
  | .readable => 0
  | .writable => 1
  | .readableWritable => 2

theorem eq_of_getElem?_place {α : Type} {interest : Interest} {x m a : α} {i : Nat}
    (h : (place interest x m)[i]? = some a) (hi : i ≠ interest.slot) : a = m := by
  cases interest <;> match i with
    | 0 | 1 | 2 => simp_all [place, Interest.slot]
    | i + 3 => simp [place] at h

theorem eq_of_slots_eq {α : Type} {interest : Interest} {x m a : α} {i j : Nat} (hij : i ≠ j)
    (hi : (place interest x m)[i]? = some a) (hj : (place interest x m)[j]? = some a) : a = m := by
  by_cases hslot : i = interest.slot
  . exact eq_of_getElem?_place hj (hslot ▸ hij.symm)
  . exact eq_of_getElem?_place hi hslot

structure Output.Consists (output : Output) (objects : Objects) (io m : ArrayId) : Prop where
  memo : objects.memo = some m
  slots : output.slots = place output.interest io m
  io_ne : io ≠ m
  result_ne : output.result ≠ m
  lt : ∀ a ∈ output.arrays, a < objects.heap.size

structure Output.Intact (output : Output) (objects : Objects) (io : ArrayId) : Prop where
  io : objects.heap.contents io = [output.rubyIo]
  result : objects.heap.contents output.result = output.slots.map intoValue

structure Objects.Extends (objects objects' : Objects) : Prop where
  size : objects.heap.size ≤ objects'.heap.size
  contents : ∀ a < objects.heap.size, objects'.heap.contents a = objects.heap.contents a
  memo : ∀ m, objects.memo = some m → objects'.memo = some m
  memoNew : ∀ m, objects'.memo = some m → objects.memo = some m ∨ objects'.heap.contents m = []

namespace Objects.Extends

variable {objects' : Objects}

theorem refl (objects : Objects) : objects.Extends objects where
  size := Nat.le_refl _
  contents _ _ := rfl
  memo _ h := h
  memoNew _ h := .inl h

theorem contents_alloc (h : objects.Extends objects') (values : List Value) {a : ArrayId}
    (ha : a < objects.heap.size)
    : (objects'.heap.alloc values).contents a = objects.heap.contents a := by
  rw [ArrayHeap.contents_alloc, if_neg (Nat.ne_of_lt (Nat.lt_of_lt_of_le ha h.size)), h.contents a ha]

theorem fromSlice (h : objects.Extends objects')
    (hmemo : ∀ m, objects'.memo = some m → m < objects'.heap.size) (values : List Value)
    : objects.Extends ⟨objects'.heap.alloc values, objects'.memo⟩ where
  size := by
    rw [ArrayHeap.size_alloc]
    exact Nat.le_succ_of_le h.size
  contents a ha := h.contents_alloc values ha
  memo := h.memo
  memoNew m hm := by
    rw [ArrayHeap.contents_alloc, if_neg (Nat.ne_of_lt (hmemo m hm))]
    exact h.memoNew m hm

theorem memoize (h : objects.Extends objects') (hmemo : objects'.memo = none)
    : objects.Extends ⟨objects'.heap.alloc [], some objects'.heap.size⟩ where
  size := by
    rw [ArrayHeap.size_alloc]
    exact Nat.le_succ_of_le h.size
  contents a ha := h.contents_alloc [] ha
  memo m hm := by
    rw [h.memo m hm] at hmemo
    contradiction
  memoNew m hm := by
    injection hm with hm
    right
    rw [ArrayHeap.contents_alloc, if_pos hm.symm]

end Objects.Extends

theorem Output.Consists.mem_arrays {io m a : ArrayId} (h : output.Consists objects io m)
    : a ∈ output.arrays ↔ a = output.result ∨ a = io ∨ a = m := by
  rw [Output.arrays, List.mem_cons, h.slots, mem_place]

theorem Output.Consists.extend {objects' : Objects} {io m : ArrayId}
    (h : output.Consists objects io m) (hextend : objects.Extends objects')
    : output.Consists objects' io m where
  memo := hextend.memo m h.memo
  slots := h.slots
  io_ne := h.io_ne
  result_ne := h.result_ne
  lt a ha := Nat.lt_of_lt_of_le (h.lt a ha) hextend.size

theorem Output.Intact.extend {objects' : Objects} {io m : ArrayId} (h : output.Intact objects io)
    (hconsists : output.Consists objects io m) (hextend : objects.Extends objects')
    : output.Intact objects' io where
  io := by
    rw [hextend.contents io (hconsists.lt io (hconsists.mem_arrays.mpr (.inr (.inl rfl)))), h.io]
  result := by
    rw [hextend.contents output.result (hconsists.lt _ (.head _)), h.result]

structure Selected (objects : Objects) (rubyIo : Value) (interest : Interest) (output : Output)
    (objects' : Objects) (io m : ArrayId) : Prop where
  rubyIo : output.rubyIo = rubyIo
  interest : output.interest = interest
  consists : output.Consists objects' io m
  intact : output.Intact objects' io
  io_new : objects.heap.size ≤ io
  result_new : objects.heap.size ≤ output.result
  extend : objects.Extends objects'

theorem Selected.fromSlice {heap : ArrayHeap Value} {io m : ArrayId} {rubyIo : Value}
    (hextend : objects.Extends ⟨heap, some m⟩) (hio : io < heap.size) (hm : m < heap.size)
    (hne : io ≠ m) (hnew : objects.heap.size ≤ io) (hcontents : heap.contents io = [rubyIo])
    (interest : Interest)
    : Selected objects rubyIo interest ⟨rubyIo, interest, heap.size, place interest io m⟩
        ⟨heap.alloc ((place interest io m).map intoValue), some m⟩ io m where
  rubyIo := rfl
  interest := rfl
  consists :=
    {
      memo := rfl
      slots := rfl
      io_ne := hne
      result_ne := Nat.ne_of_gt hm
      lt := by
        intro a ha
        simp only [Output.arrays, List.mem_cons, mem_place] at ha
        rw [ArrayHeap.size_alloc]
        obtain rfl | rfl | rfl := ha
        . exact Nat.lt_succ_self _
        . exact Nat.lt_succ_of_lt hio
        . exact Nat.lt_succ_of_lt hm
    }
  intact :=
    {
      io := by rw [ArrayHeap.contents_alloc, if_neg (Nat.ne_of_lt hio), hcontents]
      result := by rw [ArrayHeap.contents_alloc, if_pos rfl]
    }
  io_new := hnew
  result_new := hextend.size
  extend := hextend.fromSlice (by simpa using hm) _

theorem Selected.memo_of_lt {objects' : Objects} {io m a : ArrayId} {rubyIo : Value}
    {interest : Interest} (h : Selected objects rubyIo interest output objects' io m)
    (ha : a ∈ output.arrays) (hlt : a < objects.heap.size) : objects'.memo = some a := by
  obtain rfl | rfl | rfl := h.consists.mem_arrays.mp ha
  . exact absurd hlt (Nat.not_lt.mpr h.result_new)
  . exact absurd hlt (Nat.not_lt.mpr h.io_new)
  . exact h.consists.memo

theorem selected_spec (hmemo : ∀ m, objects.memo = some m → m < objects.heap.size) (rubyIo : Value)
    (interest : Interest)
    : ∃ io m, Selected objects rubyIo interest (objects.selected rubyIo interest).1
        (objects.selected rubyIo interest).2 io m := by
  have hrefl := Objects.Extends.refl objects
  cases hm : objects.memo with
  | some m =>
    have hlt := hmemo m hm
    have heq : objects.selected rubyIo interest =
        (⟨rubyIo, interest, (objects.heap.alloc [rubyIo]).size, place interest objects.heap.size m⟩,
          ⟨(objects.heap.alloc [rubyIo]).alloc ((place interest objects.heap.size m).map intoValue),
            some m⟩) := by
      cases interest <;> simp [Objects.selected, Objects.emptyArray, Objects.fromSlice, hm, place]
    rw [heq]
    refine ⟨_, m, .fromSlice (hm ▸ hrefl.fromSlice hmemo _) ?_ ?_ ?_ (Nat.le_refl _) ?_ _⟩
    . simp
    . simpa using Nat.lt_succ_of_lt hlt
    . exact Nat.ne_of_gt hlt
    . simp
  | none =>
    cases interest with
    | readable =>
      have hextend := hrefl.fromSlice hmemo [rubyIo]
      rw [hm] at hextend
      have heq : objects.selected rubyIo .readable =
          (⟨rubyIo, .readable, ((objects.heap.alloc [rubyIo]).alloc []).size,
            place .readable objects.heap.size (objects.heap.alloc [rubyIo]).size⟩,
            ⟨((objects.heap.alloc [rubyIo]).alloc []).alloc
              ((place .readable objects.heap.size (objects.heap.alloc [rubyIo]).size).map intoValue),
              some (objects.heap.alloc [rubyIo]).size⟩) := by
        simp [Objects.selected, Objects.emptyArray, Objects.fromSlice, hm, place]
      rw [heq]
      refine ⟨_, _, .fromSlice (hextend.memoize rfl) ?_ ?_ ?_ (Nat.le_refl _) ?_ _⟩
      . simp only [ArrayHeap.size_alloc]
        exact Nat.lt_succ_of_lt (Nat.lt_succ_self _)
      . simp
      . simp
      . simp
    | writable | readableWritable =>
      have hextend := (hrefl.memoize hm).fromSlice (by simp) [rubyIo]
      have heq (interest : Interest) (hne : interest ≠ .readable)
          : objects.selected rubyIo interest =
              (⟨rubyIo, interest, ((objects.heap.alloc []).alloc [rubyIo]).size,
                place interest (objects.heap.size + 1) objects.heap.size⟩,
                ⟨((objects.heap.alloc []).alloc [rubyIo]).alloc
                  ((place interest (objects.heap.size + 1) objects.heap.size).map intoValue),
                  some objects.heap.size⟩) := by
        cases interest with
        | readable => contradiction
        | writable | readableWritable =>
          simp [Objects.selected, Objects.emptyArray, Objects.fromSlice, hm, place]
      rw [heq _ (by simp)]
      refine ⟨_, _, .fromSlice hextend ?_ ?_ ?_ (Nat.le_succ _) ?_ _⟩
      . simp
      . simp only [ArrayHeap.size_alloc]
        exact Nat.lt_succ_of_lt (Nat.lt_succ_self _)
      . simp
      . simp

/-! ### Whom the arrays belong to -/

namespace State

structure Separate (s : State) : Prop where
  wf : s.scheduler.Wf
  owned : s.scheduler.Owned
  handedOver : s.scheduler.HandedOver
  call : ∀ t call, s.calls t = some call → t < s.scheduler.nextTask
  memo : ∀ m, s.objects.memo = some m → m < s.objects.heap.size
  result : ∀ t output, s.output t = some output → ∃ io m, output.Consists s.objects io m ∧
    (s.scheduler.Undelivered t → output.Intact s.objects io)
  shared : ∀ t t' output output', s.output t = some output → s.output t' = some output' → t ≠ t' →
    ∀ a ∈ output.arrays, a ∈ output'.arrays → s.objects.memo = some a
  received : ∀ output ∈ s.received, ∃ t, s.output t = some output ∧ ¬ s.scheduler.Undelivered t

theorem exists_call_of_output (h : s.output t = some output)
    : ∃ call, s.calls t = some call ∧ call.output = some output :=
  Option.bind_eq_some_iff.mp h

theorem output_setCall {call : Call} (h : s.output t = call.output) (t' : TaskId)
    : (s.setCall t call).output t' = s.output t' := by
  by_cases heq : t' = t
  . subst heq
    simp [State.output, State.setCall, ← h]
  . simp [State.output, State.setCall, Function.update_of_ne heq]

theorem output_setCall_of_ne {call : Call} {t' : TaskId} (h : t' ≠ t)
    : (s.setCall t call).output t' = s.output t' := by
  simp [State.output, State.setCall, Function.update_of_ne h]

namespace Separate

theorem new : Separate .new where
  wf := .new
  owned := .new
  handedOver f result t h := by simp [State.new, Shreduler.State.new] at h
  call t call h := by simp [State.new] at h
  memo m h := by simp [State.new] at h
  result t output h := by simp [State.output, State.new] at h
  shared t t' output output' h := by simp [State.output, State.new] at h
  received output h := by simp [State.new] at h

theorem lt_of_output (h : Separate s) (houtput : s.output t = some output)
    : t < s.scheduler.nextTask := by
  obtain ⟨call, hcall, -⟩ := exists_call_of_output houtput
  exact h.call t call hcall

theorem scheduler (h : Separate s) {e : Shreduler.Event} {scheduler : Shreduler.State}
    (hstep : s.scheduler.step e = some scheduler) {received : List Output}
    (hreceived : ∀ output ∈ received, ∃ t, s.output t = some output ∧ ¬ scheduler.Undelivered t)
    : Separate { s with scheduler, received } where
  wf := h.wf.step hstep
  owned := h.owned.step h.wf hstep
  handedOver := h.handedOver.step h.wf h.owned hstep
  call t call hcall :=
    Nat.lt_of_lt_of_le (h.call t call hcall)
      (Shreduler.State.nextTask_le_of_step h.wf h.owned hstep)
  memo := h.memo
  result t output houtput := by
    obtain ⟨io, m, hconsists, hintact⟩ := h.result t output houtput
    refine ⟨io, m, hconsists, ?_⟩
    intro hundelivered
    exact hintact
      (Shreduler.State.undelivered_of_step h.wf h.owned hstep (h.lt_of_output houtput) hundelivered)
  shared := h.shared
  received := hreceived

theorem lift (h : Separate s) {e : Shreduler.Event} {scheduler : Shreduler.State}
    (hstep : s.scheduler.step e = some scheduler) : Separate { s with scheduler } := by
  refine h.scheduler hstep ?_
  intro output hmem
  obtain ⟨t, houtput, hdelivered⟩ := h.received output hmem
  refine ⟨t, houtput, ?_⟩
  intro hundelivered
  exact hdelivered
    (Shreduler.State.undelivered_of_step h.wf h.owned hstep (h.lt_of_output houtput) hundelivered)

theorem setCall (h : Separate s) {call : Call} (hlt : t < s.scheduler.nextTask)
    (houtput : s.output t = call.output) : Separate (s.setCall t call) where
  wf := h.wf
  owned := h.owned
  handedOver := h.handedOver
  call t' call' hcall := by
    by_cases heq : t' = t
    . exact heq ▸ hlt
    . simp only [State.setCall, Function.update_of_ne heq] at hcall
      exact h.call t' call' hcall
  memo := h.memo
  result t' output' houtput' := h.result t' output' (output_setCall houtput t' ▸ houtput')
  shared t₁ t₂ output₁ output₂ h₁ h₂ :=
    h.shared t₁ t₂ output₁ output₂ (output_setCall houtput t₁ ▸ h₁) (output_setCall houtput t₂ ▸ h₂)
  received output' hmem := by
    obtain ⟨t', houtput', hdelivered⟩ := h.received output' hmem
    exact ⟨t', (output_setCall houtput t').trans houtput', hdelivered⟩

theorem selected (h : Separate s) {rubyIo : Value} {interest : Interest} {objects : Objects}
    {io m : ArrayId} {call : Call} (hlt : t < s.scheduler.nextTask)
    (hundelivered : s.scheduler.Undelivered t)
    (hselected : Selected s.objects rubyIo interest output objects io m)
    (hcall : call.output = some output) (registered : List Value)
    : Separate ({ s with objects, registered }.setCall t call) where
  wf := h.wf
  owned := h.owned
  handedOver := h.handedOver
  call t' call' hcall' := by
    by_cases heq : t' = t
    . exact heq ▸ hlt
    . simp only [State.setCall, Function.update_of_ne heq] at hcall'
      exact h.call t' call' hcall'
  memo m' hm' := by
    have heq := hselected.consists.memo.symm.trans hm'
    injection heq with heq
    exact hselected.consists.lt m' (hselected.consists.mem_arrays.mpr (.inr (.inr heq.symm)))
  result t' output' houtput' := by
    by_cases heq : t' = t
    . simp only [State.output, State.setCall, heq, Function.update_self, Option.bind_some, hcall,
        Option.some.injEq] at houtput'
      subst houtput'
      exact ⟨io, m, hselected.consists, fun _ => hselected.intact⟩
    . rw [output_setCall_of_ne heq] at houtput'
      obtain ⟨io', m', hconsists, hintact⟩ := h.result t' output' houtput'
      refine ⟨io', m', hconsists.extend hselected.extend, ?_⟩
      intro hundelivered'
      exact (hintact hundelivered').extend hconsists hselected.extend
  shared t₁ t₂ output₁ output₂ h₁ h₂ hne a ha₁ ha₂ := by
    have hold {t' : TaskId} {output' : Output} (hne : t' ≠ t)
        (houtput' : ({ s with objects, registered }.setCall t call).output t' = some output')
        : s.output t' = some output' ∧ ∀ b ∈ output'.arrays, b < s.objects.heap.size := by
      rw [output_setCall_of_ne hne] at houtput'
      obtain ⟨io', m', hconsists, -⟩ := h.result t' output' houtput'
      exact ⟨houtput', hconsists.lt⟩
    have hnew {output' : Output}
        (houtput' : ({ s with objects, registered }.setCall t call).output t = some output')
        : output' = output := by
      simpa [State.output, State.setCall, hcall, eq_comm] using houtput'
    by_cases heq₁ : t₁ = t
    . subst heq₁
      rw [hnew h₁] at ha₁
      exact hselected.memo_of_lt ha₁ ((hold hne.symm h₂).2 a ha₂)
    . by_cases heq₂ : t₂ = t
      . subst heq₂
        rw [hnew h₂] at ha₂
        exact hselected.memo_of_lt ha₂ ((hold hne h₁).2 a ha₁)
      . exact hselected.extend.memo a
          (h.shared t₁ t₂ output₁ output₂ (hold heq₁ h₁).1 (hold heq₂ h₂).1 hne a ha₁ ha₂)
  received output' hmem := by
    obtain ⟨t', houtput', hdelivered⟩ := h.received output' hmem
    have hne : t' ≠ t := by
      rintro rfl
      exact hdelivered hundelivered
    exact ⟨t', (output_setCall_of_ne hne).trans houtput', hdelivered⟩

theorem modify (h : Separate s) {a : ArrayId} (hholds : s.Holds a) (f : List Value → List Value)
    : Separate { s with objects.heap := s.objects.heap.modify a f } where
  wf := h.wf
  owned := h.owned
  handedOver := h.handedOver
  call := h.call
  memo m hm := by
    rw [ArrayHeap.size_modify]
    exact h.memo m hm
  result t output houtput := by
    obtain ⟨io, m, hconsists, hintact⟩ := h.result t output houtput
    refine ⟨io, m, ?_, ?_⟩
    . refine ⟨hconsists.memo, hconsists.slots, hconsists.io_ne, hconsists.result_ne, ?_⟩
      intro b hb
      rw [ArrayHeap.size_modify]
      exact hconsists.lt b hb
    . intro hundelivered
      obtain ⟨output', hmem, ha⟩ := hholds
      obtain ⟨t', houtput', hdelivered⟩ := h.received output' hmem
      have hne : t ≠ t' := by
        rintro rfl
        exact hdelivered hundelivered
      -- the program does not hold the arrays of a result that has not arrived, apart from the memo
      have hother {b : ArrayId} (hb : b ∈ output.arrays) (hbm : b ≠ m) : b ≠ a := by
        rintro rfl
        have hshared := h.shared t t' output output' houtput houtput' hne b hb ha
        rw [hconsists.memo] at hshared
        injection hshared with hshared
        exact hbm hshared.symm
      constructor
      . have hio := hconsists.mem_arrays.mpr (.inr (.inl rfl))
        rw [ArrayHeap.contents_modify_of_ne (hother hio hconsists.io_ne)]
        exact (hintact hundelivered).io
      . rw [ArrayHeap.contents_modify_of_ne (hother (.head _) hconsists.result_ne)]
        exact (hintact hundelivered).result
  shared := h.shared
  received := h.received

end Separate

/-! ### The steps -/

theorem endPoll_eq_some {external : ExternalPoll}
    : s.endPoll t external = some s' ↔
        ∃ scheduler, s.scheduler.step (.poll t { external }) = some scheduler ∧
          s' = { s with scheduler } := by
  unfold State.endPoll
  split
  . next h => simp [h, eq_comm]
  . next h => simp [h]

theorem modify_eq_some {a : ArrayId} {f : List Value → List Value}
    : s.modify a f = some s' ↔
        s.Holds a ∧ s' = { s with objects.heap := s.objects.heap.modify a f } := by
  simp [State.modify, eq_comm]

theorem returning_eq_some
    : s.returning = some output ↔
        ∃ f t t', s.scheduler.control = .transfer f ⟨.ok (intoValue output.result), .task t⟩ ∧
          s.scheduler.status f = .suspended (.spawnAndTransfer t') ∧ s.output t = some output := by
  constructor
  . intro h
    unfold State.returning at h
    split at h
    . next f value t hcontrol =>
      split at h
      . next t' hstatus =>
        simp only [Option.filter_eq_some_iff, decide_eq_true_eq] at h
        obtain ⟨houtput, rfl⟩ := h
        exact ⟨f, t, t', hcontrol, hstatus, houtput⟩
      . contradiction
    . contradiction
  . rintro ⟨f, t, t', hcontrol, hstatus, houtput⟩
    simp [State.returning, hcontrol, hstatus, houtput]

theorem poll_cases {env : JoinEnv} {joinNext : JoinNext}
    (hstep : s.poll t env joinNext = some s')
    : s.Waits t ∧ ∃ call, s.calls t = some call ∧
        ((∃ external, s.endPoll t external = some s') ∨
          (∃ call', call'.output = call.output ∧ (s.setCall t call').endPoll t .pending = some s') ∨
          ∃ rubyIo interest call',
            call'.output = some (s.objects.selected rubyIo interest).1 ∧
              ∃ external registered,
                ({ s with objects := (s.objects.selected rubyIo interest).2, registered }.setCall t
                  call').endPoll t external = some s') := by
  unfold State.poll at hstep
  split at hstep
  . next hwaits =>
    refine ⟨hwaits.2, ?_⟩
    split at hstep
    . next call hcall =>
      refine ⟨call, hcall, ?_⟩
      simp only [Option.ite_none_right_eq_some] at hstep
      obtain ⟨-, hstep⟩ := hstep
      unfold State.pollCall at hstep
      dsimp only at hstep
      split at hstep
      . exact .inl ⟨_, hstep⟩
      . cases joinNext with
        | pending =>
          dsimp only at hstep
          split at hstep
          . exact .inl ⟨_, hstep⟩
          . exact .inr (.inl ⟨_, by rfl, hstep⟩)
        | none | joinError | failed => exact .inl ⟨_, hstep⟩
        | ready rubyIo interest => exact .inr (.inr ⟨rubyIo, interest, _, rfl, _, _, hstep⟩)
    . contradiction
  . contradiction

theorem Waits.undelivered (h : s.Waits t) : s.scheduler.Undelivered t := by
  cases hfind : s.scheduler.findTask t with
  | none => simp [Waits, hfind] at h
  | some task =>
    obtain ⟨hmem, hid⟩ := Shreduler.State.findTask_mem hfind
    exact .inl ⟨task, hmem, hid⟩

namespace Separate

theorem ioSelect (h : Separate s) {readables writables exceptables : Option (List Value)}
    {timeout : Option Duration}
    (hstep : s.ioSelect readables writables exceptables timeout = some s')
    : Separate s' ∧ s.objects.Extends s'.objects := by
  unfold State.ioSelect at hstep
  dsimp only at hstep
  split at hstep
  . next scheduler hhook =>
    have hlift := h.lift hhook
    split at hstep
    . injection hstep with hstep
      subst hstep
      exact ⟨hlift, .refl _⟩
    . next hnext =>
      injection hstep with hstep
      subst hstep
      have hlt : s.scheduler.nextTask < scheduler.nextTask :=
        Nat.lt_of_le_of_ne (Shreduler.State.nextTask_le_of_step h.wf h.owned hhook) (Ne.symm hnext)
      refine ⟨hlift.setCall hlt ?_, .refl _⟩
      cases hcall : s.calls s.scheduler.nextTask with
      | none => simp [State.output, hcall]
      | some call => exact absurd (h.call _ call hcall) (Nat.lt_irrefl _)
  . contradiction

theorem poll (h : Separate s) {env : JoinEnv} {joinNext : JoinNext}
    (hstep : s.poll t env joinNext = some s')
    : Separate s' ∧ s.objects.Extends s'.objects := by
  obtain ⟨hwaits, call, hcall, hend | ⟨call', houtput, hend⟩ |
    ⟨rubyIo, interest, call', houtput, _, registered, hend⟩⟩ := poll_cases hstep
  . obtain ⟨external, hend⟩ := hend
    obtain ⟨scheduler, hpoll, rfl⟩ := endPoll_eq_some.mp hend
    exact ⟨h.lift hpoll, .refl _⟩
  . obtain ⟨scheduler, hpoll, rfl⟩ := endPoll_eq_some.mp hend
    have hset : Separate (s.setCall t call') := by
      apply h.setCall (h.call t call hcall)
      rw [houtput, State.output, hcall, Option.bind_some]
    exact ⟨hset.lift hpoll, .refl _⟩
  . obtain ⟨scheduler, hpoll, rfl⟩ := endPoll_eq_some.mp hend
    obtain ⟨io, m, hselected⟩ := selected_spec h.memo rubyIo interest
    have hset := h.selected (h.call t call hcall) (Waits.undelivered hwaits) hselected houtput
      registered
    exact ⟨hset.lift hpoll, hselected.extend⟩

theorem switch (h : Separate s)
    (hstep : s.schedulerStep .switch = some s') : Separate s' ∧ s.objects.Extends s'.objects := by
  obtain ⟨scheduler, hswitch, rfl⟩ := Option.map_eq_some_iff.mp hstep
  refine ⟨h.scheduler hswitch ?_, .refl _⟩
  intro output hmem
  cases List.mem_append.mp hmem with
  | inl hreturning =>
    obtain ⟨f, t, t', hcontrol, hstatus, houtput⟩ := returning_eq_some.mp (Option.mem_toList.mp hreturning)
    exact ⟨t, houtput, Shreduler.State.delivered_of_switch h.handedOver hcontrol hstatus hswitch⟩
  | inr hold => exact (h.lift hswitch).received output hold

theorem extend (h : Separate s) {e : Event} (hmutation : e.isMutation = false)
    (hstep : IoSelect.step s e = some s') : Separate s' ∧ s.objects.Extends s'.objects := by
  cases e with
  | ioSelect => exact h.ioSelect hstep
  | poll => exact h.poll hstep
  | append | remove => contradiction
  | scheduler e =>
    have hlift (hlift : s.lift e = some s') : Separate s' ∧ s.objects.Extends s'.objects := by
      obtain ⟨scheduler, hscheduler, rfl⟩ := Option.map_eq_some_iff.mp hlift
      exact ⟨h.lift hscheduler, .refl _⟩
    cases e with
    | switch => exact h.switch hstep
    | hook hook =>
      cases hook with
      | ioSelect => contradiction
      | _ => exact hlift hstep
    | poll t env =>
      simp only [IoSelect.step, State.schedulerStep, Option.ite_none_left_eq_some] at hstep
      exact hlift hstep.2
    | _ => exact hlift hstep

theorem step (h : Separate s) {e : Event} (hstep : IoSelect.step s e = some s') : Separate s' := by
  have hmodify {a : ArrayId} {f : List Value → List Value} (hmodify : s.modify a f = some s')
      : Separate s' := by
    obtain ⟨hholds, rfl⟩ := modify_eq_some.mp hmodify
    exact h.modify hholds f
  cases e with
  | append | remove => exact hmodify hstep
  | _ => exact (h.extend rfl hstep).1

end Separate
/-! ### The run without the mutations -/

def withHeap (s : State) (heap : ArrayHeap Value) : State := { s with objects.heap := heap }

def SameButContents (s s' : State) : Prop :=
  ∃ heap, s' = s.withHeap heap ∧ heap.size = s.objects.heap.size

theorem selected_congr {heap : ArrayHeap Value} (hsize : heap.size = objects.heap.size) (rubyIo : Value)
    (interest : Interest)
    : ∃ heap', Objects.selected { objects with heap } rubyIo interest =
          ((objects.selected rubyIo interest).1,
            { (objects.selected rubyIo interest).2 with heap := heap' }) ∧
        heap'.size = (objects.selected rubyIo interest).2.heap.size := by
  refine ⟨(Objects.selected { objects with heap } rubyIo interest).2.heap, ?_, ?_⟩
  . cases interest <;> cases hm : objects.memo <;>
      simp [Objects.selected, Objects.emptyArray, Objects.fromSlice, hm, hsize]
  . cases interest <;> cases hm : objects.memo <;>
      simp [Objects.selected, Objects.emptyArray, Objects.fromSlice, hm, hsize]

theorem exists_endPoll {heap : ArrayHeap Value} (hsize : heap.size = s.objects.heap.size)
    {external : ExternalPoll} (hend : s.endPoll t external = some s')
    : ∃ s'', (s.withHeap heap).endPoll t external = some s'' ∧ SameButContents s' s'' := by
  obtain ⟨scheduler, hpoll, rfl⟩ := endPoll_eq_some.mp hend
  exact ⟨_, endPoll_eq_some.mpr ⟨scheduler, hpoll, rfl⟩, heap, rfl, hsize⟩

theorem lift_withHeap (s : State) (heap : ArrayHeap Value) (e : Shreduler.Event)
    : (s.withHeap heap).lift e = (s.lift e).map (·.withHeap heap) := by
  simp only [State.lift, withHeap]
  cases s.scheduler.step e <;> rfl

theorem schedulerStep_withHeap (s : State) (heap : ArrayHeap Value) (e : Shreduler.Event)
    : (s.withHeap heap).schedulerStep e = (s.schedulerStep e).map (·.withHeap heap) := by
  cases e with
  | switch => exact lift_withHeap { s with received := s.returning.toList ++ s.received } heap .switch
  | hook hook =>
    cases hook with
    | ioSelect => rfl
    | _ => exact lift_withHeap s heap _
  | poll t env =>
    simp only [State.schedulerStep]
    by_cases hwaits : s.Waits t
    . have hwaits' : (s.withHeap heap).Waits t := hwaits
      rw [if_pos hwaits, if_pos hwaits', Option.map_none]
    . have hwaits' : ¬ (s.withHeap heap).Waits t := hwaits
      rw [if_neg hwaits, if_neg hwaits', lift_withHeap]
  | _ => exact lift_withHeap s heap _

theorem objects_of_schedulerStep {e : Shreduler.Event} (hstep : s.schedulerStep e = some s')
    : s'.objects = s.objects := by
  have hlift {s₁ : State} (hlift : s₁.lift e = some s') : s'.objects = s₁.objects := by
    obtain ⟨scheduler, -, rfl⟩ := Option.map_eq_some_iff.mp hlift
    rfl
  unfold schedulerStep at hstep
  split at hstep
  . exact (hlift hstep :)
  . contradiction
  . split at hstep
    . contradiction
    . exact hlift hstep
  . exact hlift hstep

theorem ioSelect_withHeap (s : State) (heap : ArrayHeap Value)
    (readables writables exceptables : Option (List Value)) (timeout : Option Duration)
    : (s.withHeap heap).ioSelect readables writables exceptables timeout =
        (s.ioSelect readables writables exceptables timeout).map (·.withHeap heap) := by
  have hscheduler : (s.withHeap heap).scheduler = s.scheduler := rfl
  simp only [State.ioSelect, hscheduler]
  cases s.scheduler.step (.hook .ioSelect) with
  | none => rfl
  | some scheduler =>
    by_cases hnext : scheduler.nextTask = s.scheduler.nextTask
    . simp only [if_pos hnext]
      rfl
    . simp only [if_neg hnext]
      rfl

theorem exists_pollCall {heap : ArrayHeap Value} (hsize : heap.size = s.objects.heap.size)
    {call : Call} {env : JoinEnv} {joinNext : JoinNext}
    (hstep : s.pollCall t call env joinNext = some s')
    : ∃ s'', (s.withHeap heap).pollCall t call env joinNext = some s'' ∧
        SameButContents s' s'' := by
  have hscheduler : (s.withHeap heap).scheduler = s.scheduler := rfl
  simp only [State.pollCall, hscheduler] at hstep ⊢
  split at hstep
  . next hpanics =>
    rw [if_pos hpanics]
    exact exists_endPoll hsize hstep
  . next hpanics =>
    rw [if_neg hpanics]
    cases joinNext with
    | pending =>
      dsimp only at hstep ⊢
      split at hstep
      . next hexpired =>
        rw [if_pos hexpired]
        exact exists_endPoll hsize hstep
      . next hexpired =>
        rw [if_neg hexpired]
        exact exists_endPoll (s := s.setCall t _) hsize hstep
    | none | joinError | failed => exact exists_endPoll hsize hstep
    | ready rubyIo interest =>
      obtain ⟨heap', heq, hsize'⟩ := selected_congr hsize rubyIo interest
      have hobjects : (s.withHeap heap).objects = { s.objects with heap } := rfl
      simp only [hobjects, heq]
      exact exists_endPoll (s := State.setCall _ t _) hsize' hstep

theorem exists_step {s₁ s₂ s₁' : State} {e : Event} (hsame : SameButContents s₁ s₂)
    (hmutation : e.isMutation = false) (hstep : step s₁ e = some s₁')
    : ∃ s₂', step s₂ e = some s₂' ∧ SameButContents s₁' s₂' := by
  obtain ⟨heap, rfl, hsize⟩ := hsame
  have hmap {x : Option State} (hx : x = some s₁') (hobjects : s₁'.objects = s₁.objects)
      : ∃ s₂', x.map (·.withHeap heap) = some s₂' ∧ SameButContents s₁' s₂' :=
    ⟨_, by rw [hx, Option.map_some], heap, rfl, by rw [hobjects, hsize]⟩
  cases e with
  | ioSelect readables writables exceptables timeout =>
    simp only [IoSelect.step, ioSelect_withHeap]
    refine hmap hstep ?_
    simp only [IoSelect.step, State.ioSelect] at hstep
    split at hstep
    . split at hstep <;> (injection hstep with hstep; rw [← hstep])
    . contradiction
  | poll t env joinNext =>
    have hcalls : (s₁.withHeap heap).calls t = s₁.calls t := rfl
    simp only [IoSelect.step, State.poll, hcalls] at hstep ⊢
    split at hstep
    . next hwaits =>
      have hwaits' : (s₁.withHeap heap).scheduler.AtJoinNext ∧ (s₁.withHeap heap).Waits t := hwaits
      rw [if_pos hwaits']
      split at hstep
      . split at hstep
        . next hjoin =>
          have hjoin' : _ ∧ (s₁.withHeap heap).CanRegister joinNext := hjoin
          rw [if_pos hjoin']
          exact exists_pollCall hsize hstep
        . contradiction
      . contradiction
    . contradiction
  | append | remove => contradiction
  | scheduler e =>
    simp only [IoSelect.step, schedulerStep_withHeap]
    exact hmap hstep (objects_of_schedulerStep hstep)

/-! ### The empty array -/

def KeepsEmpty (s : State) : Event → Prop
  | .append array _ => s.objects.memo ≠ some array
  | _ => True

instance (s : State) (e : Event) : Decidable (s.KeepsEmpty e) := by
  unfold KeepsEmpty
  casesm Event <;> infer_instance

def MemoEmpty (s : State) : Prop :=
  ∀ m, s.objects.memo = some m → s.objects.heap.contents m = []

theorem MemoEmpty.extend (h : MemoEmpty s) (hmemo : ∀ m, s.objects.memo = some m → m < s.objects.heap.size)
    (hextend : s.objects.Extends s'.objects) : MemoEmpty s' := by
  intro m hm
  obtain hold | hnew := hextend.memoNew m hm
  . rw [hextend.contents m (hmemo m hold), h m hold]
  . exact hnew

theorem MemoEmpty.modify (h : MemoEmpty s) {a : ArrayId} {f : List Value → List Value}
    (hmemo : ∀ m, s.objects.memo = some m → m < s.objects.heap.size)
    (hf : s.objects.memo = some a → f [] = [])
    : MemoEmpty { s with objects.heap := s.objects.heap.modify a f } := by
  intro m hm
  by_cases heq : m = a
  . subst heq
    rw [ArrayHeap.contents_modify_self (hmemo m hm), h m hm, hf hm]
  . rw [ArrayHeap.contents_modify_of_ne heq, h m hm]

theorem memoEmpty_step (h : Separate s ∧ MemoEmpty s) {e : Event} (hC : s.KeepsEmpty e)
    (hstep : step s e = some s') : Separate s' ∧ MemoEmpty s' := by
  obtain ⟨hseparate, hempty⟩ := h
  refine ⟨hseparate.step hstep, ?_⟩
  cases e with
  | append array value =>
    obtain ⟨-, rfl⟩ := modify_eq_some.mp hstep
    exact hempty.modify hseparate.memo fun hmemo => absurd hmemo hC
  | remove array i =>
    obtain ⟨-, rfl⟩ := modify_eq_some.mp hstep
    exact hempty.modify hseparate.memo fun _ => List.eraseIdx_nil
  | _ => exact hempty.extend hseparate.memo (hseparate.extend rfl hstep).2

/-! ### Independence -/

def resultContents (s : State) (result : ArrayId) : List (List Value) :=
  ((s.objects.heap.contents result).filterMap arrayOfValue).map s.objects.heap.contents

def ShowsIo (s : State) (output : Output) : Prop :=
  s.resultContents output.result = place output.interest [output.rubyIo] []

instance (s : State) (output : Output) : Decidable (s.ShowsIo output) :=
  inferInstanceAs (Decidable (_ = _))

def SlotsApart (s s' : State) (a : ArrayId) : Prop :=
  ∀ output ∈ s.received, ∀ (i j : Nat) (b : ArrayId), i ≠ j →
    output.slots[i]? = some a → output.slots[j]? = some b →
    s'.objects.heap.contents b = s.objects.heap.contents b

/--
Every call that returns a result in the run returns the same one in the run without the mutations, with
the same contents, and no append to an array of a result changes another one.
-/
def Independent (es : List Event) : Prop :=
  ∀ pre e post s s', es = pre ++ e :: post → Lts.run step .new pre = some s → step s e = some s' →
    (∀ output, e = .scheduler .switch → s.returning = some output →
      s.ShowsIo output ∧
        ∃ s₁, Lts.run step .new (pre.filter fun e => !e.isMutation) = some s₁ ∧
          s₁.returning = some output ∧
            s₁.resultContents output.result = s.resultContents output.result) ∧
    ∀ array value, e = .append array value → SlotsApart s s' array

theorem showsIo (h : Separate s ∧ MemoEmpty s) (hreturning : s.returning = some output)
    : s.ShowsIo output := by
  obtain ⟨f, t, t', hcontrol, -, houtput⟩ := returning_eq_some.mp hreturning
  obtain ⟨io, m, hconsists, hintact⟩ := h.1.result t output houtput
  obtain ⟨hio, hresult⟩ := hintact (.inr ⟨f, _, hcontrol⟩)
  have hslots : (output.slots.map intoValue).filterMap arrayOfValue = output.slots := by
    rw [List.filterMap_map]
    exact List.filterMap_some
  rw [ShowsIo, resultContents, hresult, hslots, hconsists.slots, map_place, hio,
    h.2 m hconsists.memo]

theorem slotsApart (h : Separate s) {a : ArrayId} {value : Value} (hC : s.KeepsEmpty (.append a value))
    (hstep : step s (.append a value) = some s') : SlotsApart s s' a := by
  intro output hmem i j b hij hi hj
  obtain ⟨-, rfl⟩ := modify_eq_some.mp hstep
  apply ArrayHeap.contents_modify_of_ne
  rintro rfl
  obtain ⟨t, houtput, -⟩ := h.received output hmem
  obtain ⟨io, m, hconsists, -⟩ := h.result t output houtput
  rw [hconsists.slots] at hi hj
  apply hC
  rw [eq_of_slots_eq hij hi hj, hconsists.memo]

theorem keepsEmpty_of_slotsApart (h : Separate s) {a : ArrayId} {value : Value}
    (hstep : step s (.append a value) = some s') (hapart : SlotsApart s s' a)
    : s.KeepsEmpty (.append a value) := by
  intro hmemo
  obtain ⟨⟨output, hmem, -⟩, rfl⟩ := modify_eq_some.mp hstep
  obtain ⟨t, houtput, -⟩ := h.received output hmem
  obtain ⟨io, m, hconsists, -⟩ := h.result t output houtput
  obtain rfl : m = a := by
    rw [hconsists.memo] at hmemo
    injection hmemo
  obtain ⟨i, j, hij, hi, hj⟩ := exists_memo_slots output.interest io m
  rw [← hconsists.slots] at hi hj
  have hsame := hapart output hmem i j m hij hi hj
  rw [ArrayHeap.contents_modify_self (h.memo m hmemo)] at hsame
  simp at hsame

theorem sameButContents_of_mutation {s₁ s₂ s₁' : State} {e : Event} (hsame : SameButContents s₁ s₂)
    (hmutation : e.isMutation) (hstep : step s₁ e = some s₁') : SameButContents s₁' s₂ := by
  obtain ⟨heap, rfl, hsize⟩ := hsame
  have hmodify {a : ArrayId} {f : List Value → List Value} (hmodify : s₁.modify a f = some s₁')
      : SameButContents s₁' (s₁.withHeap heap) := by
    obtain ⟨-, rfl⟩ := modify_eq_some.mp hmodify
    exact ⟨heap, rfl, by rw [ArrayHeap.size_modify, hsize]⟩
  cases e with
  | append | remove => exact hmodify hstep
  | _ => contradiction

/--
The results of `io_select` are independent of earlier ones in exactly the runs in which the program
never appends to the array that all of them share.
-/
theorem independent_iff (es : List Event) : Independent es ↔ Lts.Along step KeepsEmpty .new es := by
  have hnew : Separate .new ∧ MemoEmpty .new := ⟨.new, fun m h => by simp [State.new] at h⟩
  constructor
  . intro h
    rw [Lts.along_iff_append]
    intro pre e post s s' heq hrun hstep
    have hseparate : Separate s := Lts.invariant (fun _ _ _ h hstep => h.step hstep) .new hrun
    cases e with
    | append a value =>
      exact keepsEmpty_of_slotsApart hseparate hstep
        ((h pre _ post s s' heq hrun hstep).2 a value rfl)
    | _ => trivial
  . intro halong pre e post s s' heq hrun hstep
    have hinvariant {es : List Event} {s : State} (halong : Lts.Along step KeepsEmpty .new es)
        (hrun : Lts.run step .new es = some s) : Separate s ∧ MemoEmpty s :=
      halong.invariant (J := fun s => Separate s ∧ MemoEmpty s)
        (fun _ _ _ h hC hstep => memoEmpty_step h hC hstep) hnew hrun
    have hpre := hinvariant (heq ▸ halong).append_left hrun
    constructor
    . rintro output - hreturning
      refine ⟨showsIo hpre hreturning, ?_⟩
      obtain ⟨s₁, hrun₁, hsame⟩ : ∃ s₁, Lts.run step .new (pre.filter fun e => !e.isMutation) = some s₁ ∧
          SameButContents s s₁ := by
        apply Lts.exists_run_filter _ _ ⟨_, rfl, rfl⟩ hrun
        . intro s₁ s₂ e s₁' hsame hmutation
          exact sameButContents_of_mutation hsame (by simpa using hmutation)
        . intro s₁ s₂ e s₁' hsame hmutation
          exact exists_step hsame (by simpa using hmutation)
      have hkeeps : Lts.Along step KeepsEmpty .new (pre.filter fun e => !e.isMutation) := by
        apply Lts.along_of_forall
        intro e hmem s
        cases e with
        | append => simp [Event.isMutation] at hmem
        | _ => trivial
      obtain ⟨heap, rfl, -⟩ := hsame
      refine ⟨_, hrun₁, hreturning, ?_⟩
      exact (showsIo (hinvariant hkeeps hrun₁) hreturning).trans (showsIo hpre hreturning).symm
    . rintro a value rfl
      exact slotsApart hpre.1 (Lts.along_iff_append.mp halong pre _ post s s' heq hrun hstep) hstep

theorem not_independent : ¬ ∀ es, Independent es := by
  intro hall
  have hshows := ((hall _
    [.scheduler .fiber, .ioSelect (some [.object "TCPSocket" 0]) none none none, .scheduler .switch,
      .scheduler .run, .poll 0 {} (.ready (.object "TCPSocket" 0) .readable), .scheduler (.join 0),
      .scheduler .switch, .append 1 (.integer 7),
      .ioSelect (some [.object "TCPSocket" 1]) none none none, .scheduler .switch,
      .poll 1 {} (.ready (.object "TCPSocket" 1) .readable), .scheduler (.join 1)]
    (.scheduler .switch) [] _ _ rfl rfl rfl).1 _ rfl rfl).1
  revert hshows
  decide

end State
end IoSelect
end Shreduler
