import Shreduler.Lts.Refinement
import Shreduler.TokioScheduler.Lemmas.IoReadMinimum

/-!
This module proves what the futures of `io_read` keep however their calls overlap, time out or get lost:
the order of the stream, and all of a buffer but the bytes that are reported.
-/

namespace Shreduler
namespace IoRead

variable {io : Io} {s s' : State} {i : Nat} {call : Call} {stream : List Byte}

/-! ### The order of the stream -/

/--
The reads have cut the stream into pieces, at most one for each call, and a call reports the first part of
its own.
-/
structure Cut (io : Io) (stream : List Byte) (s : State) : Prop where
  pieces : s.reads.flatMap (·.2) ++ s.unread <+: stream
  whole : (s.reactor.fds io.fileno).isOpen → s.reads.flatMap (·.2) ++ s.unread = stream
  owners : (s.reads.map (·.1)).Nodup
  reported : ∀ i call result, s.calls[i]? = some call → call.phase = .returned result →
    Return.reported ⟨result, call.buffer⟩ = [] ∨
      ∃ bytes, (i, bytes) ∈ s.reads ∧ Return.reported ⟨result, call.buffer⟩ <+: bytes

def Pieces (io : Io) (stream : List Byte) (s : State) : Prop :=
  s.reads.flatMap (·.2) ++ s.unread <+: stream ∧
    ((s.reactor.fds io.fileno).isOpen → s.reads.flatMap (·.2) ++ s.unread = stream)

theorem Pieces.newWithInterest (h : Pieces io stream s) (env : NewEnv)
    : Pieces io stream (s.newWithInterest io env).2 := by
  obtain ⟨reactor, heq, -, hopen⟩ := newWithInterest_spec io s env
  rw [heq]
  unfold Pieces
  dsimp only
  split
  . next hisOpen =>
    have hwhole := h.2 (hopen hisOpen)
    exact ⟨h.1, fun _ => hwhole⟩
  . next hclosed =>
    refine ⟨?_, fun hisOpen => absurd hisOpen hclosed⟩
    rw [List.append_nil]
    exact (List.prefix_append _ _).trans h.1

theorem Pieces.take (h : Pieces io stream s) (i n : Nat) : Pieces io stream (s.take i n) := by
  have hsame : (s.take i n).reads.flatMap (·.2) ++ (s.take i n).unread
      = s.reads.flatMap (·.2) ++ s.unread := by
    simp [State.take]
  unfold Pieces
  rw [hsame]
  exact h

theorem Pieces.step (h : Pieces io stream s) {e : Event} (hstep : IoRead.step io s e = some s')
    : Pieces io stream s' := by
  cases step_outcome hstep with
  | refused | newWithInterest | ioRead => exact h.newWithInterest _
  | @poll i env call _ hcall hlive hpoll =>
    cases hpoll with
    | raises | pends => exact h
    | returns =>
      have hread : Pieces io stream (afterRead io s i env) := by
        unfold afterRead
        split
        . split
          . exact h.take _ _
          all_goals exact h
        . exact h
      exact hread
  | work hcall hphase hwork =>
    cases hwork with
    | reads n => exact h.take _ n
    | fails => exact h
  | orphan horphan hwork =>
    cases hwork with
    | reads n => exact h.take _ n
    | fails => exact h
  | drop => exact h

/--
However the calls overlap, time out and get lost: the reads cut the stream into pieces, at most one for each
call, what is unread comes after all of them, and a call reports nothing but the first part of its piece.
-/
theorem reads_cut_stream (io : Io) (stream : List Byte) (es : List Event)
    : Lts.Always (step io) (Cut io stream) (.new stream) es := by
  apply Lts.always_of_invariant (J := fun s => Sane io s ∧ Pieces io stream s)
  . intro s e s' ⟨hsane, hpieces⟩ hstep
    exact ⟨hsane.step hstep, hpieces.step hstep⟩
  . intro s ⟨hsane, hpieces⟩
    refine ⟨hpieces.1, hpieces.2, hsane.nodup, ?_⟩
    intro i call result hcall hphase
    exact (hsane.sound i call hcall).of_returned hphase
  . exact ⟨.new io stream, List.prefix_rfl, fun _ => rfl⟩

/-! ### The buffers -/

structure Ask where
  buffer : List Byte
  minimumLengthToRead : Nat

def Event.ask : Event → Option Ask
  | .ioRead buffer minimumLengthToRead _ _ => some { buffer, minimumLengthToRead }
  | .newWithInterest _ | .poll .. | .work .. | .orphan .. | .drop _ => none

def Ask.amountToRead (a : Ask) : Nat :=
  if a.minimumLengthToRead = 0 then a.buffer.length else a.minimumLengthToRead

def asked (s : State) (e : Event) (s' : State) : List Ask :=
  if s'.calls.length = s.calls.length then [] else e.ask.toList

def asks (io : Io) (stream : List Byte) (es : List Event) : List Ask :=
  Lts.trace (step io) asked (.new stream) es

structure Answers (a : Ask) (r : Return) : Prop where
  length : r.buffer.length = a.buffer.length
  rest : r.buffer.drop r.reported.length = a.buffer.drop r.reported.length
  count : ∀ n : Int, r.result = .ok n → 0 ≤ n →
    n = r.reported.length ∧ n ≤ a.amountToRead ∧ a.amountToRead ≤ a.buffer.length

structure Serves (a : Ask) (call : Call) : Prop where
  minimum : call.minimumLengthToRead = a.minimumLengthToRead
  untouched : (∀ result, call.phase ≠ .returned result) → call.buffer = a.buffer
  answers : ∀ result, call.phase = .returned result → Answers a ⟨result, call.buffer⟩

def Call.ask (call : Call) : Ask where
  buffer := call.buffer
  minimumLengthToRead := call.minimumLengthToRead

theorem answers_error (a : Ask) (error : Error) : Answers a ⟨.error error, a.buffer⟩ where
  length := rfl
  rest := rfl
  count := by simp

theorem answers_returned (call : Call) (hle : call.minimumLengthToRead ≤ call.buffer.length)
    (result : Except IoError (List Byte)) : Answers call.ask (call.returned result) := by
  have hamount : call.amountToRead ≤ call.buffer.length := by
    unfold Call.amountToRead
    split
    . apply Nat.le_refl
    . exact hle
  cases result with
  | error e =>
    constructor
    . rfl
    . rw [reported_returned_error]
      rfl
    . intro n hn hpos
      rw [returned_error_result, Except.ok.injEq] at hn
      have hzero : n = 0 := by omega
      rw [reported_returned_error, hzero]
      refine ⟨rfl, Int.natCast_nonneg _, hamount⟩
  | ok bytes =>
    have hlength : (handOut call.amountToRead bytes).length ≤ call.amountToRead :=
      List.length_take_le _ _
    have hbuffer : (call.returned (.ok bytes)).buffer
        = handOut call.amountToRead bytes ++
            call.buffer.drop (handOut call.amountToRead bytes).length := rfl
    constructor
    . rw [hbuffer, List.length_append, List.length_drop]
      have hask : call.ask.buffer = call.buffer := rfl
      rw [hask]
      omega
    . rw [reported_returned_ok, hbuffer, List.drop_left]
      rfl
    . intro n hn hpos
      have hresult : (call.returned (.ok bytes)).result
          = .ok ((handOut call.amountToRead bytes).length : Int) := rfl
      rw [hresult, Except.ok.injEq] at hn
      rw [reported_returned_ok, ← hn]
      exact ⟨rfl, Int.ofNat_le.mpr hlength, hamount⟩

namespace Serves

variable {a : Ask}

theorem eq_ask (h : Serves a call) (hlive : call.Live) : a = call.ask := by
  have hbuffer : call.buffer = a.buffer := by
    apply h.untouched
    intro result heq
    simp [Call.Live, heq] at hlive
  obtain ⟨buffer, minimumLengthToRead⟩ := a
  exact congrArg₂ Ask.mk hbuffer.symm h.minimum.symm

theorem phase (h : Serves a call) (hlive : call.Live) {phase : Phase}
    (hphase : ∀ result, phase ≠ .returned result) : Serves a { call with phase } where
  minimum := h.minimum
  untouched _ := by rw [h.eq_ask hlive]; rfl
  answers result heq := absurd heq (hphase result)

theorem returned (h : Serves a call) {r : Return} (hanswers : Answers a r)
    : Serves a { call with buffer := r.buffer, phase := .returned r.result } where
  minimum := h.minimum
  untouched hnot := absurd rfl (hnot _)
  answers result heq := by
    obtain rfl := Phase.returned.inj heq
    exact hanswers

end Serves

structure Answered (made : List Ask) (s : State) : Prop where
  length : made.length = s.calls.length
  serves : ∀ (i : Nat) a call, made[i]? = some a → s.calls[i]? = some call → Serves a call
  fits : Fits s

namespace Answered

variable {made : List Ask}

theorem asked_of_length (e : Event) (hlength : s'.calls.length = s.calls.length)
    : made ++ asked s e s' = made := by
  rw [asked, if_pos hlength, List.append_nil]

theorem of_calls (h : Answered made s) (hcalls : s'.calls = s.calls) (e : Event)
    : Answered (made ++ asked s e s') s' := by
  rw [asked_of_length e (congrArg List.length hcalls)]
  refine ⟨?_, ?_, h.fits.of_calls hcalls⟩
  all_goals rw [hcalls]
  . exact h.length
  . exact h.serves

theorem set {call' : Call} (h : Answered made s) (hcall : s.calls[i]? = some call)
    (hcalls : s'.calls = s.calls.set i call') (hfits : Fits s')
    (hserves : ∀ a, Serves a call → Serves a call') (e : Event)
    : Answered (made ++ asked s e s') s' := by
  have hlength : s'.calls.length = s.calls.length := by rw [hcalls, List.length_set]
  rw [asked_of_length e hlength]
  refine ⟨h.length.trans hlength.symm, ?_, hfits⟩
  intro j a c ha hc
  rw [hcalls, List.getElem?_set] at hc
  split at hc
  . next heq =>
    subst heq
    split at hc
    . obtain rfl := Option.some.inj hc
      exact hserves a (h.serves i a call ha hcall)
    . contradiction
  . exact h.serves j a c ha hc

theorem ioRead (h : Answered made s) (buffer : List Byte) (minimumLengthToRead : Nat)
    (timeout : Duration) (env : NewEnv) {call : Call} (hphase : call.phase = .created)
    (hask : call.ask = ⟨buffer, minimumLengthToRead⟩) (hcalls : s'.calls = s.calls ++ [call])
    (hfits : Fits s')
    : Answered (made ++ asked s (.ioRead buffer minimumLengthToRead timeout env) s') s' := by
  have hasked : asked s (.ioRead buffer minimumLengthToRead timeout env) s' = [call.ask] := by
    rw [asked, if_neg (by simp [hcalls]), hask]
    rfl
  rw [hasked]
  refine ⟨by simp [hcalls, h.length], ?_, hfits⟩
  intro j a c ha hc
  rw [hcalls, List.getElem?_append] at hc
  rw [List.getElem?_append, h.length] at ha
  split at hc
  . next hlt =>
    rw [if_pos hlt] at ha
    exact h.serves j a c ha hc
  . next hge =>
    rw [if_neg hge] at ha
    obtain rfl := List.mem_singleton.mp (List.mem_of_getElem? ha)
    obtain rfl := List.mem_singleton.mp (List.mem_of_getElem? hc)
    exact ⟨rfl, fun _ => rfl, fun result heq => by simp [hphase] at heq⟩

theorem step (h : Answered made s) {e : Event} (hstep : IoRead.step io s e = some s')
    : Answered (made ++ asked s e s') s' := by
  have hfits := h.fits.step hstep
  cases step_outcome hstep with
  | @refused _ _ _ env => exact h.of_calls (calls_newWithInterest io s env) _
  | @newWithInterest env => exact h.of_calls (calls_newWithInterest io s env) _
  | ioRead => exact h.ioRead _ _ _ _ rfl rfl rfl hfits
  | poll hcall hlive hpoll =>
    cases hpoll with
    | raises error =>
      apply h.set hcall rfl hfits
      intro a hserves
      obtain rfl := hserves.eq_ask hlive
      exact hserves.returned (answers_error _ error)
    | pends =>
      apply h.set hcall rfl hfits
      exact fun a hserves => hserves.phase hlive (by simp)
    | returns hreturns hprepare =>
      have hle := h.fits.le_length hcall hlive hprepare
      apply h.set hcall (congrArg (List.set · _ _) (calls_afterRead io s _ _)) hfits
      intro a hserves
      obtain rfl := hserves.eq_ask hlive
      exact hserves.returned (answers_returned _ hle _)
  | work hcall hphase hwork =>
    apply h.set hcall (congrArg (List.set · _ _) hwork.calls) hfits
    exact fun a hserves => hserves.phase (by simp [Call.Live, hphase]) (by simp)
  | @orphan k i length read result s₁ horphan hwork =>
    have hcalls : ({ s₁ with orphans := s₁.orphans.eraseIdx k } : State).calls = s.calls := hwork.calls
    exact h.of_calls hcalls _
  | drop worker hcall hlive =>
    apply h.set hcall rfl hfits
    exact fun a hserves => hserves.phase hlive (by simp)

end Answered

theorem answered_of_run {es : List Event} (hrun : Lts.run (step io) (.new stream) es = some s)
    : Answered (asks io stream es) s := by
  apply Lts.run_induction (Q := fun es s => Answered (asks io stream es) s) ?_ ?_ hrun
  . exact ⟨rfl, by simp [State.new], by simp [Fits, State.new]⟩
  . intro es e s₁ s₂ hrun h hstep
    have hasks : asks io stream (es ++ [e]) = asks io stream es ++ asked s₁ e s₂ :=
      Lts.trace_append_singleton hrun hstep
    rw [hasks]
    exact h.step hstep

theorem length_calls_of_step {e : Event} (hstep : step io s e = some s')
    (hnot : ∀ buffer minimumLengthToRead timeout env,
      e ≠ .ioRead buffer minimumLengthToRead timeout env)
    : s'.calls.length = s.calls.length := by
  cases step_outcome hstep with
  | refused | ioRead => exact absurd rfl (hnot _ _ _ _)
  | newWithInterest => exact congrArg List.length (calls_newWithInterest io s _)
  | poll hcall hlive hpoll =>
    cases hpoll with
    | raises | pends => exact List.length_set ..
    | returns => exact (List.length_set ..).trans (congrArg List.length (calls_afterRead io s _ _))
  | work hcall hphase hwork => exact (List.length_set ..).trans (congrArg List.length hwork.calls)
  | orphan horphan hwork => exact congrArg List.length hwork.calls
  | drop => exact List.length_set ..

theorem length_calls_le_of_step {e : Event} (hstep : step io s e = some s')
    : s'.calls.length ≤ s.calls.length + 1 := by
  by_cases hnot : ∀ buffer minimumLengthToRead timeout env,
      e ≠ .ioRead buffer minimumLengthToRead timeout env
  . rw [length_calls_of_step hstep hnot]
    exact Nat.le_succ _
  . simp only [not_forall, not_not] at hnot
    obtain ⟨buffer, minimumLengthToRead, timeout, env, rfl⟩ := hnot
    cases step_outcome hstep with
    | refused =>
      rw [calls_newWithInterest]
      exact Nat.le_succ _
    | ioRead => exact Nat.le_of_eq (List.length_append ..)

theorem ended_of_step {e : Event} (hstep : step io s e = some s') (hcall : s.calls[i]? = some call)
    (hended : ¬ call.Live) : s'.calls[i]? = some call := by
  have hset {j : Nat} {c c' : Call} (hc : s.calls[j]? = some c) (hlive : c.Live)
      (hcalls : s'.calls = s.calls.set j c') : s'.calls[i]? = some call := by
    have hne : j ≠ i := by
      rintro rfl
      obtain rfl := Option.some.inj (hc.symm.trans hcall)
      exact hended hlive
    rw [hcalls, List.getElem?_set_ne hne, hcall]
  have hsame (hcalls : s'.calls = s.calls) : s'.calls[i]? = some call := by rw [hcalls, hcall]
  cases step_outcome hstep with
  | @refused _ _ _ env => exact hsame (calls_newWithInterest io s env)
  | @newWithInterest env => exact hsame (calls_newWithInterest io s env)
  | ioRead =>
    dsimp only
    rw [List.getElem?_append_left (List.getElem?_eq_some_iff.mp hcall).1, hcall]
  | poll hc hlive hpoll =>
    cases hpoll with
    | raises | pends => exact hset hc hlive rfl
    | returns => exact hset hc hlive (congrArg (List.set · _ _) (calls_afterRead io s _ _))
  | work hc hphase hwork =>
    exact hset hc (by simp [Call.Live, hphase]) (congrArg (List.set · _ _) hwork.calls)
  | orphan horphan hwork => exact hsame hwork.calls
  | drop worker hc hlive => exact hset hc hlive rfl

theorem ended_of_run {es : List Event} (hrun : Lts.run (step io) s es = some s')
    (hcall : s.calls[i]? = some call) (hended : ¬ call.Live) : s'.calls[i]? = some call := by
  apply Lts.run_induction (Q := fun _ s => s.calls[i]? = some call) hcall ?_ hrun
  exact fun _ _ _ _ _ h hstep => ended_of_step hstep h hended

/--
However the calls overlap: the future of a call is ready at most once, and with the buffer of the call, of
which no byte is changed but those that the call reports, then or later.
-/
theorem calls_answered (io : Io) (stream : List Byte) (es : List Event) (s : State)
    (hrun : Lts.run (step io) (.new stream) es = some s)
    : (asks io stream es).length = s.calls.length ∧
        (∀ (i : Nat) a call, (asks io stream es)[i]? = some a → s.calls[i]? = some call →
          Serves a call) ∧
        ∀ es' s', Lts.run (step io) s es' = some s' → ∀ (i : Nat) call, s.calls[i]? = some call →
          ¬ call.Live → s'.calls[i]? = some call := by
  have hanswered := answered_of_run hrun
  refine ⟨hanswered.length, hanswered.serves, ?_⟩
  exact fun es' s' hrun' i call hcall hended => ended_of_run hrun' hcall hended

theorem calls_answered_pipe
    : ∃ io stream es s, io.backing = .file ∧ Lts.run (step io) (.new stream) es = some s ∧
        s.calls.map (·.phase) = [.reading (.busy 8192), .returned (.ok 3)] ∧
        ((asks io stream es).length = s.calls.length ∧
        (∀ (i : Nat) a call, (asks io stream es)[i]? = some a → s.calls[i]? = some call →
          Serves a call) ∧
        ∀ es' s', Lts.run (step io) s es' = some s' → ∀ (i : Nat) call, s.calls[i]? = some call →
          ¬ call.Live → s'.calls[i]? = some call) :=
  ⟨⟨.object "IO" 0, 7, .file, by decide⟩, [1, 2, 3],
    [.ioRead [0, 0] 1 0 { tryConvert := .ok .nil, fileno := .ok 7 }, .poll 0 {},
      .ioRead [7, 7, 7] 0 0 { tryConvert := .ok .nil, fileno := .ok 7 }, .poll 1 {},
      .work 1 (.data 3), .poll 1 {}],
    _, rfl, rfl, rfl, calls_answered _ _ _ _ rfl⟩

end IoRead
end Shreduler
