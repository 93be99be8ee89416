import Shreduler.TokioScheduler.Impl.IoWait

/-!
This module proves when `io_wait` reports what is ready.
-/

namespace Shreduler

namespace Ready

def inter (ready ready' : Ready) : Ready :=
  ⟨ready.readable && ready'.readable, ready.writable && ready'.writable⟩

def Subset (ready ready' : Ready) : Prop :=
  (ready.readable → ready'.readable) ∧ (ready.writable → ready'.writable)

instance (ready ready' : Ready) : Decidable (ready.Subset ready') :=
  inferInstanceAs (Decidable (_ ∧ _))

end Ready

namespace IoWait

open IoSelect (Interest)

variable {interests : RubyIoEvent} {timeout : Option Duration} {s s' : State} {env : PollEnv}
  {io : BackingIo} {interest : Interest} {deadline : Option Instant}

def RubyIoEvent.toReady (events : RubyIoEvent) : Ready :=
  ⟨events.contains readable, events.contains writable⟩

def looked (timeout : Option Duration) (s : State) (env : PollEnv)
    : Option (BackingIo × Interest × Option Instant) :=
  if env.readyError.isSome then
    none
  else
    match s.phase with
    | .created io interest =>
      if timeout.isSome ∧ env.withTimeoutPanics then
        none
      else
        match env.withNonblock with
        | .error _ => none
        | .ok _ => some (io, interest, deadlineAt s.now timeout none)
    | .waiting io interest deadline => some (io, interest, deadline)
    | .idle | .returned _ | .panicked => none

structure ReportsReady (interests : RubyIoEvent) (timeout : Option Duration) (s : State) (e : Event)
    (s' : State) : Prop where
  -- What is reported is requested and ready.
  sound : ∀ env value, e = .poll env → s'.phase = .returned (.ok value) → value ≠ .nil →
    ∃ events : RubyIoEvent, value = events.intoValue ∧ interests.contains events ∧
      events.toReady ≠ .none ∧ events.toReady.Subset s.ready
  -- `nil` says that the timeout is over, and that there is nothing to report.
  timedOut : ∀ env, e = .poll env → s'.phase = .returned (.ok .nil) →
    interests.toReady.inter s.ready = .none ∧
      ∃ io interest deadline, looked timeout s env = some (io, interest, some deadline) ∧
        deadline ≤ s.now
  -- A requested event that is ready ends the call, if the reactor has seen it.
  completes : ∀ env io interest deadline, e = .poll env →
    looked timeout s env = some (io, interest, deadline) →
      (interests.toReady.inter s.ready).inter s.seen ≠ .none →
        ∃ value, s'.phase = .returned (.ok value) ∧ value ≠ .nil

def Noticed (interests : RubyIoEvent) (io : BackingIo) (seen : Ready) : Prop :=
  match io with
  | .file _ => True
  | .unixSocket _ | .tcpSocket _ | .udpSocket _ =>
    if interests.contains .readable then seen.readable else seen.writable

instance : Decidable (Noticed interests io s.seen) := by
  unfold Noticed
  casesm BackingIo <;> infer_instance

/--
A poll that finds the readiness it waits for is one in a call that asks for `READABLE`, and the
descriptor is readable. The others find nothing that they have been asked for.
-/
def AsksReadable (interests : RubyIoEvent) (timeout : Option Duration) (s : State) : Event → Prop
  | .poll env =>
    ∀ io interest deadline, looked timeout s env = some (io, interest, deadline) →
      if Noticed interests io s.seen then
        interests.contains .readable ∧ s.ready.readable
      else
        (interests.toReady.inter s.ready).inter s.seen = .none ∧
          (deadline.any (timerOver env.timerFired s.now) → interests.toReady.inter s.ready = .none)
  | _ => True

/-! ### The conversion -/

theorem tryConvert_ok {value : UInt32} {events : RubyIoEvent}
    (h : RubyIoEvent.tryConvert value = .ok events) : events = ⟨value⟩ := by
  unfold RubyIoEvent.tryConvert at h
  split at h
  . exact (Except.ok.inj h).symm
  . contradiction

theorem tryIntoInterest_ok (h : interests.tryIntoInterest = .ok interest)
    : interest = if interests.contains .readable then .readable else .writable := by
  unfold RubyIoEvent.tryIntoInterest at h
  dsimp only at h
  split at h
  . contradiction
  . exact (Except.ok.inj h).symm

theorem ready_iff_noticed
    (hinterest : interest = if interests.contains .readable then .readable else .writable) (seen : Ready)
    : io.ready interest seen ↔ Noticed interests io seen := by
  subst hinterest
  unfold BackingIo.ready Noticed
  cases io with
  | file => simp
  | unixSocket | tcpSocket | udpSocket =>
    dsimp only
    split <;> rfl

def Converted (interests : RubyIoEvent) (s : State) : Prop :=
  ∀ io interest, (s.phase = .created io interest ∨ ∃ deadline, s.phase = .waiting io interest deadline) →
    interest = if interests.contains .readable then .readable else .writable

theorem phase_pollReady (s : State) (io : BackingIo) (interest : Interest)
    (deadline : Option Instant) (env : PollEnv)
    : (s.pollReady io interest deadline env).phase = .waiting io interest deadline ∨
        ∃ result, (s.pollReady io interest deadline env).phase = .returned result := by
  unfold State.pollReady
  split
  . exact .inr ⟨_, rfl⟩
  . split
    . exact .inr ⟨_, rfl⟩
    . split
      . exact .inr ⟨_, rfl⟩
      . exact .inl rfl

theorem converted_of_phase (h : interest = if interests.contains .readable then .readable else .writable)
    (hphase : s'.phase = .created io interest ∨ s'.phase = .waiting io interest deadline ∨
      (∃ result, s'.phase = .returned result) ∨ s'.phase = .panicked) : Converted interests s' := by
  intro io' interest' hphase'
  rcases hphase with hphase | hphase | ⟨result, hphase⟩ | hphase
  all_goals
    simp only [hphase, Phase.created.injEq, Phase.waiting.injEq, reduceCtorEq, exists_false, or_false,
      false_or] at hphase'
  . exact hphase'.2 ▸ h
  . obtain ⟨-, -, rfl, -⟩ := hphase'
    exact h

theorem Converted.step (h : Converted interests s) {e : Event}
    (hstep : IoWait.step interests.bits timeout s e = some s') : Converted interests s' := by
  cases e with
  | ioWait newWithInterest =>
    simp only [IoWait.step, State.ioWait] at hstep
    split at hstep
    . split at hstep
      . obtain rfl := Option.some.inj hstep
        simp [Converted, State.finish]
      . next interests' hconvert =>
        obtain rfl := tryConvert_ok hconvert
        split at hstep
        . obtain rfl := Option.some.inj hstep
          simp [Converted, State.finish]
        . next interest hinterest =>
          split at hstep
          . obtain rfl := Option.some.inj hstep
            simp [Converted, State.finish]
          . next io =>
            obtain rfl := Option.some.inj hstep
            exact @converted_of_phase _ _ io interest none (tryIntoInterest_ok hinterest) (.inl rfl)
    . contradiction
  | poll env =>
    simp only [IoWait.step, State.poll] at hstep
    have hpoll {io : BackingIo} {interest : Interest} {deadline : Option Instant}
        (hinterest : interest = if interests.contains .readable then .readable else .writable)
        : Converted interests (s.pollReady io interest deadline env) := by
      refine @converted_of_phase _ _ io interest deadline hinterest ?_
      rcases phase_pollReady s io interest deadline env with hphase | hphase
      . exact .inr (.inl hphase)
      . exact .inr (.inr (.inl hphase))
    split at hstep
    . next io interest hphase =>
      split at hstep
      . obtain rfl := Option.some.inj hstep
        simp [Converted]
      . split at hstep
        . obtain rfl := Option.some.inj hstep
          simp [Converted, State.finish]
        . exact Option.some.inj hstep ▸ hpoll (h io interest (.inl hphase))
    . next io interest deadline hphase =>
      exact Option.some.inj hstep ▸ hpoll (h io interest (.inr ⟨deadline, hphase⟩))
    . contradiction
  | change | turn | elapse => exact Option.some.inj hstep ▸ h

/-! ### One poll -/

def answered (s : State) (io : BackingIo) (interest : Interest) (deadline : Option Instant)
    (timerFired : Bool) : State :=
  if io.ready interest s.seen then
    s.finish (.ok RubyIoEvent.readable.intoValue)
  else if deadline.any (timerOver timerFired s.now) then
    s.finish (.ok .nil)
  else
    { s with phase := .waiting io interest deadline }

theorem pollReady_eq (s : State) (io : BackingIo) (interest : Interest) (deadline : Option Instant)
    (env : PollEnv)
    : if env.readyError.isSome then
        ∀ value, (s.pollReady io interest deadline env).phase ≠ .returned (.ok value)
      else
        s.pollReady io interest deadline env = answered s io interest deadline env.timerFired := by
  unfold State.pollReady
  cases env.readyError with
  | some e => simp [State.finish]
  | none => rfl

theorem poll_spec (h : s.poll timeout env = some s')
    : match looked timeout s env with
      | some (io, interest, deadline) => s' = answered s io interest deadline env.timerFired
      | none => ∀ value, s'.phase ≠ .returned (.ok value) := by
  unfold State.poll at h
  unfold looked
  cases hphase : s.phase with
  | created io interest =>
    simp only [hphase] at h ⊢
    have hpoll := pollReady_eq s io interest (deadlineAt s.now timeout none) env
    by_cases hpanics : timeout.isSome ∧ env.withTimeoutPanics
    . rw [if_pos hpanics] at h
      obtain rfl := Option.some.inj h
      rw [if_pos hpanics, ite_self]
      simp
    . rw [if_neg hpanics] at h ⊢
      cases hnonblock : env.withNonblock with
      | error e =>
        simp only [hnonblock] at h ⊢
        obtain rfl := Option.some.inj h
        simp [State.finish]
      | ok guard =>
        simp only [hnonblock] at h ⊢
        obtain rfl := Option.some.inj h
        split at hpoll
        . next herror => rwa [if_pos herror]
        . next herror => rwa [if_neg herror]
  | waiting io interest deadline =>
    simp only [hphase] at h ⊢
    have hpoll := pollReady_eq s io interest deadline env
    obtain rfl := Option.some.inj h
    split at hpoll
    . next herror => rwa [if_pos herror]
    . next herror => rwa [if_neg herror]
  | idle | returned | panicked => simp [hphase] at h

theorem eq_readable_of_intoValue {events : RubyIoEvent}
    (h : RubyIoEvent.readable.intoValue = events.intoValue) : events = .readable := by
  unfold RubyIoEvent.intoValue at h
  injection h with h
  have hbits : RubyIoEvent.readable.bits = events.bits := UInt32.toNat_inj.mp (Int.ofNat.inj h)
  cases events
  exact congrArg RubyIoEvent.mk hbits.symm

theorem toReady_readable : RubyIoEvent.readable.toReady = ⟨true, false⟩ := by decide

theorem converted_of_looked (h : Converted interests s)
    (hlooked : looked timeout s env = some (io, interest, deadline))
    : interest = if interests.contains .readable then .readable else .writable := by
  unfold looked at hlooked
  split at hlooked
  . contradiction
  . split at hlooked
    . next io' interest' hphase =>
      split at hlooked
      . contradiction
      . split at hlooked
        . contradiction
        . cases hlooked
          exact h io interest (.inl hphase)
    . next io' interest' deadline' hphase =>
      cases hlooked
      exact h io interest (.inr ⟨deadline, hphase⟩)
    all_goals contradiction

theorem reportsReady_of_looked_none (hlooked : looked timeout s env = none)
    (hphase : ∀ value, s'.phase ≠ .returned (.ok value))
    : ReportsReady interests timeout s (.poll env) s' where
  sound env' value _ hvalue := absurd hvalue (hphase value)
  timedOut env' _ hnil := absurd hnil (hphase .nil)
  completes env' io interest deadline he hlooked' := by
    obtain rfl := Event.poll.inj he
    cases hlooked.symm.trans hlooked'

section Looked

variable (hlooked : looked timeout s env = some (io, interest, deadline))

theorem reportsReady_noticed (hphase : s'.phase = .returned (.ok RubyIoEvent.readable.intoValue))
    : ReportsReady interests timeout s (.poll env) s' ↔
        interests.contains .readable ∧ s.ready.readable := by
  constructor
  . intro hreports
    obtain ⟨events, hvalue, hcontains, -, hsubset⟩ :=
      hreports.sound env _ rfl hphase (by simp [RubyIoEvent.intoValue])
    obtain rfl := eq_readable_of_intoValue hvalue
    exact ⟨hcontains, hsubset.1 (by decide)⟩
  . rintro ⟨hcontains, hready⟩
    constructor
    . rintro env' value - hvalue -
      rw [hphase, Phase.returned.injEq, Except.ok.injEq] at hvalue
      refine ⟨.readable, hvalue.symm, hcontains, by decide, fun _ => hready, ?_⟩
      simp [toReady_readable]
    . intro env' _ hnil
      rw [hphase] at hnil
      simp [RubyIoEvent.intoValue] at hnil
    . intro env' _ _ _ _ _ _
      exact ⟨_, hphase, by simp [RubyIoEvent.intoValue]⟩

include hlooked

theorem reportsReady_timedOut (hdeadline : deadline.any (timerOver env.timerFired s.now))
    (hphase : s'.phase = .returned (.ok .nil))
    : ReportsReady interests timeout s (.poll env) s' ↔ interests.toReady.inter s.ready = .none := by
  constructor
  . exact fun hreports => (hreports.timedOut env rfl hphase).1
  . intro hnone
    constructor
    . intro env' value _ hvalue hne
      rw [hphase, Phase.returned.injEq, Except.ok.injEq] at hvalue
      exact absurd hvalue.symm hne
    . intro env' he _
      obtain rfl := Event.poll.inj he
      obtain ⟨instant, hinstant, hover⟩ := Option.any_eq_true _ _ |>.mp hdeadline
      exact ⟨hnone, io, interest, instant, hinstant ▸ hlooked, le_of_timerOver hover⟩
    . intro env' _ _ _ _ _ hsome
      exact absurd (by rw [hnone]; rfl) hsome

theorem reportsReady_waiting (hphase : s'.phase = .waiting io interest deadline)
    : ReportsReady interests timeout s (.poll env) s' ↔
        (interests.toReady.inter s.ready).inter s.seen = .none := by
  constructor
  . intro hreports
    by_contra hsome
    obtain ⟨value, hvalue, -⟩ := hreports.completes env io interest deadline rfl hlooked hsome
    rw [hphase] at hvalue
    contradiction
  . intro hnone
    constructor
    . intro env' value _ hvalue
      rw [hphase] at hvalue
      contradiction
    . intro env' _ hnil
      rw [hphase] at hnil
      contradiction
    . intro env' _ _ _ _ _ hsome
      exact absurd hnone hsome

end Looked

theorem asksReadable_iff (hlooked : looked timeout s env = some (io, interest, deadline))
    : AsksReadable interests timeout s (.poll env) ↔
        if Noticed interests io s.seen then
          interests.contains .readable ∧ s.ready.readable
        else
          (interests.toReady.inter s.ready).inter s.seen = .none ∧
            (deadline.any (timerOver env.timerFired s.now) →
              interests.toReady.inter s.ready = .none) := by
  simp only [AsksReadable, hlooked, Option.some.injEq, Prod.mk.injEq]
  constructor
  . exact fun h => h io interest deadline ⟨rfl, rfl, rfl⟩
  . rintro h _ _ _ ⟨rfl, rfl, rfl⟩
    exact h

theorem reportsReady_iff (h : Converted interests s) {e : Event}
    (hstep : step interests.bits timeout s e = some s')
    : ReportsReady interests timeout s e s' ↔ AsksReadable interests timeout s e := by
  cases e with
  | poll env =>
    have hspec := poll_spec hstep
    cases hlooked : looked timeout s env with
    | none =>
      rw [hlooked] at hspec
      refine iff_of_true (reportsReady_of_looked_none hlooked hspec) ?_
      simp [AsksReadable, hlooked]
    | some looks =>
      obtain ⟨io, interest, deadline⟩ := looks
      rw [hlooked] at hspec
      have hready := @ready_iff_noticed _ io _ (converted_of_looked h hlooked) s.seen
      rw [asksReadable_iff hlooked]
      dsimp only [answered] at hspec
      split at hspec
      . next hnoticed =>
        rw [if_pos (hready.mp hnoticed)]
        exact reportsReady_noticed (by rw [hspec]; rfl)
      . next hnoticed =>
        rw [if_neg (mt hready.mpr hnoticed)]
        split at hspec
        . next hdeadline =>
          rw [reportsReady_timedOut hlooked hdeadline (by rw [hspec]; rfl)]
          constructor
          . exact fun hnone => ⟨by rw [hnone]; rfl, fun _ => hnone⟩
          . exact fun hnone => hnone.2 hdeadline
        . next hdeadline =>
          rw [reportsReady_waiting hlooked (by rw [hspec])]
          exact ⟨fun hnone => ⟨hnone, fun hover => absurd hover hdeadline⟩, And.left⟩
  | ioWait | change | turn | elapse =>
    refine iff_of_true ⟨?_, ?_, ?_⟩ trivial
    all_goals simp

/--
`io_wait` reports what is ready in every step of a run, if and only if every poll that finds the
readiness it waits for is in a call that asks for `READABLE`, with a descriptor that is readable then,
and no other poll passes over what is asked for.
-/
theorem reports_ready_iff (value : UInt32) (timeout : Option Duration) (es : List Event)
    : Lts.Along (step value timeout)
          (fun s e => ∀ s', step value timeout s e = some s' → ReportsReady ⟨value⟩ timeout s e s')
          .new es ↔
        Lts.Along (step value timeout) (AsksReadable ⟨value⟩ timeout) .new es := by
  apply Lts.along_congr (J := Converted ⟨value⟩)
  . exact fun s e s' h hstep => h.step hstep
  . intro s e s' h hstep
    rw [Lts.forall_step_iff hstep, reportsReady_iff h hstep]
  . simp [Converted, State.new]

theorem readable_reported
    : ¬ ∀ (value : UInt32) (timeout : Option Duration) (es : List Event),
        Lts.Along (step value timeout)
          (fun s e => ∀ s', step value timeout s e = some s' → ReportsReady ⟨value⟩ timeout s e s')
          .new es := by
  intro hall
  have hreports := hall 4 none
    [.ioWait (.ok (.unixSocket 3)), .change ⟨false, true⟩, .turn, .poll {}]
  have hlast := (((hreports _ rfl).2 _ rfl).2 _ rfl).2 _ rfl
  obtain ⟨events, hvalue, hcontains, -⟩ :=
    (hlast.1 _ rfl).sound {} RubyIoEvent.readable.intoValue rfl rfl (by decide)
  obtain rfl := eq_readable_of_intoValue hvalue
  exact absurd hcontains (by decide)

end IoWait
end Shreduler
