import Shreduler.TokioScheduler.Lemmas.BlockAgreement
import Shreduler.TokioScheduler.Lemmas.Promises

/-!
This module proves that wake-ups are not invented and not shared: a call of `block` that returns `true` has
been woken by an `unblock` of its own.
-/

namespace Shreduler

structure Blocking where
  fiber : FiberId
  task : TaskId
  chan : ChanId
  deriving DecidableEq

namespace State

variable {s s' : State} {f : FiberId} {t : TaskId} {rx : ChanId}

def blocking (s : State) (e : Event) (s' : State) : List Blocking :=
  match e, s.rubyFiber with
  | .block _, some fiber =>
    if fiber = rootFiber ∨ s'.nextTask = s.nextTask then
      []
    else
      [{ fiber, task := s.nextTask, chan := s.nextChan }]
  | _, _ => []

def waking (s : State) (e : Event) (s' : State) : List (FiberId × ChanId) :=
  match e with
  | .unblock (.fiber f) | .remoteUnblock (.fiber f) =>
    match s.blockers.value.lookup f with
    | some tx => if s.chans tx = .unsent ∧ s'.chans tx = .sent then [(f, tx)] else []
    | none => []
  | _ => []

def blockings (es : List Event) : List Blocking := Lts.trace step blocking .new es

def wakings (es : List Event) : List (FiberId × ChanId) := Lts.trace step waking .new es

/-! ### One step -/

theorem waking_cases (s : State) (e : Event) (s' : State)
    : waking s e s' = [] ∨ ∃ f tx, waking s e s' = [(f, tx)] ∧ s.blockers.value.lookup f = some tx ∧
        s.chans tx = .unsent ∧ s'.chans tx = .sent := by
  have hcases (f : FiberId)
      (h : waking s e s' =
        match s.blockers.value.lookup f with
        | some tx => if s.chans tx = .unsent ∧ s'.chans tx = .sent then [(f, tx)] else []
        | none => [])
      : waking s e s' = [] ∨ ∃ f tx, waking s e s' = [(f, tx)] ∧ s.blockers.value.lookup f = some tx ∧
          s.chans tx = .unsent ∧ s'.chans tx = .sent := by
    cases hlookup : s.blockers.value.lookup f with
    | none =>
      rw [hlookup] at h
      exact .inl h
    | some tx =>
      rw [hlookup] at h
      dsimp only at h
      split at h
      . next hsent => exact .inr ⟨f, tx, h, hlookup, hsent⟩
      . exact .inl h
  cases e with
  | unblock fiberToWake | remoteUnblock fiberToWake =>
    cases fiberToWake with
    | fiber f => exact hcases f rfl
    | _ => exact .inl rfl
  | _ => exact .inl rfl

theorem mem_waking (hwf : Wf s) {e : Event} (hstep : step s e = some s')
    (htakes : TakesRegistration f rx s e) : (f, rx) ∈ waking s e s' := by
  have hsent := chan_of_takesRegistration hwf hstep htakes
  obtain ⟨hlookup, current, hevent, hok⟩ := htakes
  have hunsent := ((unblock_of_lookup hwf hlookup).mp hok).2
  obtain ⟨rfl, -⟩ | ⟨rfl, -⟩ := hevent
  . simp [waking, hlookup, hunsent, hsent]
  . simp [waking, hlookup, hunsent, hsent]

theorem sent_of_step (hwf : Wf s) {e : Event} (hstep : step s e = some s') (hlt : rx < s.nextChan)
    (hsent : s.chans rx = .sent) : s'.chans rx = .sent := by
  obtain ⟨s'', heffect, houtcome⟩ := (step_sound hwf hstep).outcome
  rw [houtcome.chans]
  obtain hdrops | ⟨g, tx, -, hchans, -⟩ := heffect.drops
  . obtain heq | ⟨hunsent, -⟩ := hdrops.chan rx hlt
    . rw [heq, hsent]
    . rw [hsent] at hunsent
      contradiction
  . by_cases heq : rx = tx
    . rw [hchans, heq, Function.update_self]
    . rw [hchans, Function.update_of_ne heq, hsent]

theorem nextChan_le_of_step (hwf : Wf s) {e : Event} (hstep : step s e = some s')
    : s.nextChan ≤ s'.nextChan := by
  obtain ⟨s'', heffect, houtcome⟩ := (step_sound hwf hstep).outcome
  rw [houtcome.nextChan]
  obtain hdrops | ⟨g, tx, -, -, hnext, -⟩ := heffect.drops
  . exact hdrops.nextChan
  . exact Nat.le_of_eq hnext.symm

theorem blocking_cases (s : State) (e : Event) (s' : State)
    : blocking s e s' = [] ∨ ∃ f timeout, blocking s e s' = [⟨f, s.nextTask, s.nextChan⟩] ∧
        e = .block timeout ∧ s.rubyFiber = some f ∧ f ≠ rootFiber ∧ s'.nextTask ≠ s.nextTask := by
  unfold blocking
  split
  . next timeout f hf =>
    split
    . exact .inl rfl
    . next h =>
      rw [not_or] at h
      exact .inr ⟨f, timeout, rfl, rfl, hf, h.1, h.2⟩
  . exact .inl rfl

theorem blockCall_of_blocking (hwf : Wf s) (howned : Owned s) (hnumbered : Numbered s)
    {timeout : Option Duration} (hf : s.rubyFiber = some f) (hne : f ≠ rootFiber)
    (hnext : s'.nextTask ≠ s.nextTask) (hstep : step s (.block timeout) = some s')
    : BlockCall f s.nextTask s.nextChan s' ∧ s'.chans s.nextChan ≠ .sent := by
  have hloop : ¬ s.runLoop.Borrows := by
    intro hloop
    obtain ⟨s'', heffect, houtcome⟩ := (step_sound hwf hstep).outcome
    rw [houtcome.nextTask] at hnext
    cases heffect with
    | still hstill => exact hnext (hstill.stays howned.nodup).nextTask
    | block _ hfree => exact hfree hloop
    | blockRoot _ hfree => exact hfree hloop
  obtain ⟨hcall, hunsent, -⟩ := blockCall_of_block hwf howned hnumbered hf hne hloop hstep
  exact ⟨hcall, hunsent⟩

theorem not_mem_madeBy (t : TaskId) (f : FiberId) (result : Result Value)
    : (t, .keep result) ∉ s.madeBy s' f := by
  unfold madeBy
  split
  . simp
  . split <;> simp

theorem keep_cases {e : Event} {result : Result Value} (h : (t, .keep result) ∈ mail s e s')
    : (∃ env task, e = .poll t env ∧ s'.findTask t = some task ∧ task.status = .ready result) ∨
        s.status rootFiber = .suspended (.timeoutRaise t) := by
  have hmade : (t, .keep result) ∉ s.rubyFiber.elim [] (s.madeBy s') := by
    cases s.rubyFiber with
    | none => apply List.not_mem_nil
    | some f => apply not_mem_madeBy
  unfold mail at h
  split at h
  . exact absurd h hmade
  . exact absurd h hmade
  . exact absurd h hmade
  . next t' env =>
    unfold polledTo at h
    cases hfind : s'.findTask t' with
    | none => simp [hfind] at h
    | some task =>
      obtain ⟨id, fiber, future, status⟩ := task
      rw [hfind] at h
      cases status with
      | ready result' =>
        simp only [List.mem_singleton, Prod.mk.injEq, Promise.Action.keep.injEq] at h
        obtain ⟨rfl, rfl⟩ := h
        exact .inl ⟨env, _, rfl, hfind, rfl⟩
      | polling => cases hcontrol : s'.control <;> simp [hcontrol] at h
      | pending | aborted | joinError => simp at h
  . split at h
    . next hstatus =>
      split at h
      . simp only [List.mem_singleton, Prod.mk.injEq] at h
        exact .inr (h.1 ▸ hstatus)
      . simp at h
    . simp at h
  . unfold joinedTo at h
    split at h <;> simp at h
  . simp at h

theorem pending_of_poll {env : PollEnv} (hstep : step s (.poll t env) = some s')
    : ∃ task, s.findTask t = some task ∧ (task.status = .pending ∨ task.status = .aborted) := by
  simp only [State.step, Option.ite_none_right_eq_some, poll] at hstep
  obtain ⟨-, hstep⟩ := hstep
  split at hstep
  . contradiction
  . next task hfind =>
    split at hstep
    . next hpending => exact ⟨task, hfind, .inl hpending⟩
    . next haborted => exact ⟨task, hfind, .inr haborted⟩
    all_goals contradiction

theorem sent_of_keep (hcall : BlockCall f t rx s) (hheld : RaiseHeld s) {e : Event}
    (hstep : step s e = some s') (hkeep : (t, .keep (.ok (.bool true))) ∈ mail s e s')
    : s.chans rx = .sent := by
  cases keep_cases hkeep with
  | inl hpoll =>
    obtain ⟨env, task', rfl, hfind', hready⟩ := hpoll
    obtain ⟨hmem', hid'⟩ := findTask_mem hfind'
    obtain hold | ⟨task, timeout, deadline, -, -, -, hstatus⟩ :=
      status_of_poll hcall hstep hmem' hid' hready
    . -- only what is not complete is polled
      obtain ⟨task, hfind, hstatus⟩ := pending_of_poll hstep
      rw [← findTask_unique hcall.owned.nodup hfind hold hid', hready] at hstatus
      simp at hstatus
    . unfold blockStatus at hstatus
      split at hstatus
      . contradiction
      . split at hstatus
        . next hsent => exact hsent
        . simp at hstatus
        all_goals
          split at hstatus
          . simp at hstatus
          . contradiction
  | inr hraise =>
    -- a call of `block` is no `timeout_after`
    obtain ⟨task, hmem, hid⟩ := hheld t hraise
    have htimeout := ((hcall.owned.raising t hraise).2 task hmem hid).1
    obtain ⟨timeout, deadline, hfuture⟩ := Task.future_of_rx (hcall.future task hmem hid)
    simp [Task.isTimeout, hfuture] at htimeout

/-! ### The whole run -/

structure Woken (es : List Event) (s : State) : Prop where
  run : Lts.run step .new es = some s
  accountable : Accountable s
  numbered : Numbered s
  call : ∀ c ∈ blockings es, BlockCall c.fiber c.task c.chan s
  made : ∀ c ∈ blockings es, (c.task, .make c.fiber) ∈ letters es
  chans : ((blockings es).map (·.chan)).Nodup
  sent : ∀ w ∈ wakings es, s.chans w.2 = .sent ∧ w.2 < s.nextChan
  wakings : ((wakings es).map (·.2)).Nodup
  woken : ∀ c ∈ blockings es, s.chans c.chan = .sent → (c.fiber, c.chan) ∈ State.wakings es
  kept : ∀ c ∈ blockings es, (c.task, .keep (.ok (.bool true))) ∈ letters es → s.chans c.chan = .sent

theorem not_mem_letters {es : List Event} (hrun : Lts.run step .new es = some s)
    (action : Promise.Action FiberId (Result Value)) : (s.nextTask, action) ∉ letters es := by
  have hhistory := Promise.history_project (letters_keep_promises hrun) s.nextTask
  have hunmade : s.promises s.nextTask = .unmade := if_neg (Nat.lt_irrefl _)
  rw [hunmade] at hhistory
  intro hmem
  have hproject := Lts.mem_project.mpr hmem
  generalize Lts.project s.nextTask (letters es) = actions at hhistory hproject
  cases hhistory
  contradiction

namespace Woken

variable {es : List Event}

theorem new : Woken [] .new where
  run := rfl
  accountable := .new
  numbered := .new
  call := by simp [blockings]
  made := by simp [blockings]
  chans := .nil
  sent := by simp [State.wakings]
  wakings := .nil
  woken := by simp [blockings]
  kept := by simp [blockings]

theorem call_of_step (h : Woken es s) {e : Event} (hstep : State.step s e = some s') {c : Blocking}
    (hc : c ∈ blockings es)
    : BlockCall c.fiber c.task c.chan s' ∧
        (s'.chans c.chan = .sent → (c.fiber, c.chan) ∈ State.wakings es ++ waking s e s') ∧
        ((c.task, .keep (.ok (.bool true))) ∈ letters es ++ mail s e s' → s'.chans c.chan = .sent) := by
  have hcall := h.call c hc
  refine ⟨hcall.step hstep, ?_, ?_⟩
  . intro hsent
    cases (sent_iff hcall hstep).mp hsent with
    | inl hsent => exact List.mem_append_left _ (h.woken c hc hsent)
    | inr htakes => exact List.mem_append_right _ (mem_waking h.accountable.wf hstep htakes)
  . intro hkeep
    apply chan_of_sent hcall hstep
    cases List.mem_append.mp hkeep with
    | inl hkeep => exact h.kept c hc hkeep
    | inr hkeep => exact sent_of_keep hcall h.accountable.held hstep hkeep

theorem call_of_blocking (h : Woken es s) {e : Event} (hstep : State.step s e = some s') {c : Blocking}
    (hc : c ∈ blocking s e s')
    : BlockCall c.fiber c.task c.chan s' ∧ (c.task, .make c.fiber) ∈ mail s e s' ∧
        s'.chans c.chan ≠ .sent ∧
        (c.task, .keep (.ok (.bool true))) ∉ letters es ++ mail s e s' := by
  have howned := h.accountable.owned
  obtain hnone | ⟨f, timeout, hone, rfl, hf, hne, hnext⟩ := blocking_cases s e s'
  . rw [hnone] at hc
    contradiction
  . rw [hone, List.mem_singleton] at hc
    subst hc
    obtain ⟨hcall, hunsent⟩ :=
      blockCall_of_blocking h.accountable.wf howned h.numbered hf hne hnext hstep
    have hmake : (s.nextTask, .make f) ∈ mail s (.block timeout) s' := by
      have hmail : mail s (.block timeout) s' = s.madeBy s' f := by rw [mail, hf, Option.elim_some]
      rw [hmail, madeBy, if_neg hnext]
      split
      . apply List.mem_cons_self
      . apply List.mem_cons_self
    refine ⟨hcall, hmake, hunsent, ?_⟩
    rw [List.mem_append, not_or]
    refine ⟨not_mem_letters h.run _, ?_⟩
    intro hkeep
    obtain ⟨env, task, heq, -⟩ | hraise := keep_cases hkeep
    . contradiction
    . exact Nat.lt_irrefl _ (howned.raising _ hraise).1

theorem chans_of_step (h : Woken es s) (e : Event) (s' : State)
    : ((blockings es ++ blocking s e s').map (·.chan)).Nodup := by
  obtain hnone | ⟨f, timeout, hone, -⟩ := blocking_cases s e s'
  . rw [hnone, List.append_nil]
    exact h.chans
  . rw [hone]
    apply nodup_map_append_singleton h.chans
    exact fun c hc => Nat.ne_of_lt (h.call c hc).chan

theorem sent_of_wakings (h : Woken es s) {e : Event} (hstep : State.step s e = some s')
    {w : FiberId × ChanId} (hw : w ∈ State.wakings es ++ waking s e s')
    : s'.chans w.2 = .sent ∧ w.2 < s'.nextChan := by
  have hwf := h.accountable.wf
  have hchan := nextChan_le_of_step hwf hstep
  cases List.mem_append.mp hw with
  | inl hw =>
    obtain ⟨hsent, hlt⟩ := h.sent w hw
    exact ⟨sent_of_step hwf hstep hlt hsent, Nat.lt_of_lt_of_le hlt hchan⟩
  | inr hw =>
    obtain hnone | ⟨f, tx, hone, hlookup, -, hsent⟩ := waking_cases s e s'
    . rw [hnone] at hw
      contradiction
    . rw [hone, List.mem_singleton] at hw
      subst hw
      exact ⟨hsent, Nat.lt_of_lt_of_le (h.numbered.entry f tx hlookup) hchan⟩

theorem wakings_of_step (h : Woken es s) (e : Event) (s' : State)
    : ((State.wakings es ++ waking s e s').map (·.2)).Nodup := by
  obtain hnone | ⟨f, tx, hone, -, hunsent, -⟩ := waking_cases s e s'
  . rw [hnone, List.append_nil]
    exact h.wakings
  . rw [hone]
    apply nodup_map_append_singleton h.wakings
    intro w hw heq
    -- a channel that was woken before is not unsent
    have hsent := (h.sent w hw).1
    rw [heq, hunsent] at hsent
    contradiction

theorem step (h : Woken es s) {e : Event} (hstep : State.step s e = some s') : Woken (es ++ [e]) s' := by
  have hletters : letters (es ++ [e]) = letters es ++ mail s e s' :=
    Lts.trace_append_singleton h.run hstep
  have hcalls : blockings (es ++ [e]) = blockings es ++ blocking s e s' :=
    Lts.trace_append_singleton h.run hstep
  have hwakings : State.wakings (es ++ [e]) = State.wakings es ++ waking s e s' :=
    Lts.trace_append_singleton h.run hstep
  constructor
  case run => exact Lts.run_append_singleton h.run hstep
  case accountable => exact h.accountable.step hstep
  case numbered => exact h.numbered.step h.accountable.wf hstep
  case call =>
    rw [hcalls]
    intro c hc
    cases List.mem_append.mp hc with
    | inl hc => exact (h.call_of_step hstep hc).1
    | inr hc => exact (h.call_of_blocking hstep hc).1
  case made =>
    rw [hcalls, hletters]
    intro c hc
    cases List.mem_append.mp hc with
    | inl hc => exact List.mem_append_left _ (h.made c hc)
    | inr hc => exact List.mem_append_right _ (h.call_of_blocking hstep hc).2.1
  case chans => exact hcalls ▸ h.chans_of_step e s'
  case sent =>
    rw [hwakings]
    exact fun w hw => h.sent_of_wakings hstep hw
  case wakings => exact hwakings ▸ h.wakings_of_step e s'
  case woken =>
    rw [hcalls, hwakings]
    intro c hc hsent
    cases List.mem_append.mp hc with
    | inl hc => exact (h.call_of_step hstep hc).2.1 hsent
    | inr hc => exact absurd hsent (h.call_of_blocking hstep hc).2.2.1
  case kept =>
    rw [hcalls, hletters]
    intro c hc hkeep
    cases List.mem_append.mp hc with
    | inl hc => exact (h.call_of_step hstep hc).2.2 hkeep
    | inr hc => exact absurd hkeep (h.call_of_blocking hstep hc).2.2.2

end Woken

theorem woken_of_run {es : List Event} (hrun : Lts.run step .new es = some s) : Woken es s := by
  apply Lts.run_induction Woken.new ?_ hrun
  intro es e s₁ s₂ _ h hstep
  exact h.step hstep

/--
No two wake-ups of a run are on one channel, and no two calls of `block` wait on one. A call whose own task
hands over `true` waits on the channel of a wake-up, which was for its fiber.
-/
theorem wakeups_matched {es : List Event} (hrun : Lts.run step .new es = some s)
    : ((wakings es).map (·.2)).Nodup ∧ ((blockings es).map (·.chan)).Nodup ∧
        ∀ ret ∈ s.returns, ∀ c ∈ blockings es, ret.payload.origin = .task c.task →
          ret.payload.result = .ok (.bool true) →
            ret.fiber = c.fiber ∧ (c.fiber, c.chan) ∈ wakings es := by
  have h := woken_of_run hrun
  refine ⟨h.wakings, h.chans, ?_⟩
  intro ret hret c hc horigin hresult
  have hcollected := collected_of_returns hrun hret horigin
  constructor
  . exact (hcollected.owner_eq (Lts.mem_project.mpr (h.made c hc))).symm
  . rw [hresult] at hcollected
    have hkeep := Lts.mem_project.mp hcollected.mem_keep
    exact h.woken c hc (h.kept c hc hkeep)

def blockedTwice : List Event := [
  .fiber,
  .block none,
  .switch,
  .unblock (.fiber 1),
  .run,
  .poll 0 {},
  .join 0,
  .switch,
  .block none,
  .switch,
  .remoteUnblock (.fiber 1),
  .poll 1 {},
  .join 1,
  .switch
]

theorem wakeups_matched_twice
    : ∃ s, Lts.run step .new blockedTwice = some s ∧ s.returns.length = 2 ∧
        ((wakings blockedTwice).map (·.2)).Nodup ∧ ((blockings blockedTwice).map (·.chan)).Nodup ∧
        ∀ ret ∈ s.returns, ∀ c ∈ blockings blockedTwice, ret.payload.origin = .task c.task →
          ret.payload.result = .ok (.bool true) →
            ret.fiber = c.fiber ∧ (c.fiber, c.chan) ∈ wakings blockedTwice :=
  ⟨_, rfl, rfl, wakeups_matched rfl⟩

end State
end Shreduler
