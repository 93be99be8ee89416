import Shreduler.TokioScheduler.Lemmas.IoReadMinimum
import Shreduler.TokioScheduler.Lemmas.IoWrite

/-!
This module proves when the integers that `io_read` and `io_write` return tell a failure from a count.
-/

namespace Shreduler

open IoRead (Backing Byte IoError)

/-- The integer says whether the operation failed, with which error, or how many bytes it moved. -/
structure Encodes (Fails : IoError → Prop) (transferred : Nat) (n : Int) : Prop where
  negative_iff : n < 0 ↔ ∃ e, Fails e
  errno : ∀ e, Fails e → ∃ errno : Nat, e.rawOsError = some errno ∧ n = -errno
  count : (∀ e, ¬ Fails e) → n = transferred

/-- The error has a code that its negation tells from a count. -/
def IoRead.IoError.HasCode (e : IoError) : Prop := e.rawOsError.getD 0 ≠ 0

theorem encodes_of_fails {Fails : IoError → Prop} {e : IoError} (hfails : Fails e)
    (hunique : ∀ e', Fails e' → e' = e) (hcode : e.HasCode) (transferred : Nat)
    : Encodes Fails transferred (-(e.rawOsError.getD 0 : Nat)) where
  negative_iff := by
    unfold IoRead.IoError.HasCode at hcode
    exact iff_of_true (by omega) ⟨e, hfails⟩
  errno e' hfails' := by
    obtain rfl := hunique e' hfails'
    cases hraw : e'.rawOsError with
    | none => simp [IoRead.IoError.HasCode, hraw] at hcode
    | some errno => exact ⟨errno, rfl, rfl⟩
  count hnone := absurd hfails (hnone e)

theorem encodes_count {Fails : IoError → Prop} (hnone : ∀ e, ¬ Fails e) (transferred : Nat)
    : Encodes Fails transferred transferred where
  negative_iff := iff_of_false (by omega) fun ⟨e, hfails⟩ => hnone e hfails
  errno e hfails := absurd hfails (hnone e)
  count _ := rfl

theorem Encodes.hasCode {Fails : IoError → Prop} {transferred : Nat} {e : IoError}
    (h : Encodes Fails transferred (-(e.rawOsError.getD 0 : Nat))) (hfails : Fails e) : e.HasCode := by
  have hneg := h.negative_iff.mpr ⟨e, hfails⟩
  unfold IoRead.IoError.HasCode
  omega

namespace IoRead

variable {io : Io} {s s' : State}

def ReadEncodes (io : Io) (s : State) (e : Event) (s' : State) : Prop :=
  ∀ i env call call' (n : Int), e = .poll i env → s.calls[i]? = some call →
    s'.calls[i]? = some call' → call'.phase = .returned (.ok n) →
      ∃ bytes transferred, call'.buffer = bytes ++ call.buffer.drop transferred ∧
        bytes.length = transferred ∧
        (∀ got, Gets io s call env got → bytes <+: got) ∧
        Encodes (fun e => ReadReturns io s call env (.error e)) transferred n

def ReadErrorsHaveCodes (io : Io) (s : State) : Event → Prop
  | .poll i env =>
    ∀ call e, s.calls[i]? = some call → ReadReturns io s call env (.error e) → e.HasCode
  | _ => True

theorem readEncodes_iff {e : Event} (hstep : step io s e = some s')
    : ReadEncodes io s e s' ↔ ReadErrorsHaveCodes io s e := by
  constructor
  . intro hencodes
    cases e with
    | poll i env =>
      intro call e hcall hreturns
      simp only [step, hcall, Option.bind_some] at hstep
      have hs' := returns_of_readReturns (pollCall_outcome hstep).2 hreturns
      have hcall' := getElem?_finish (calls_afterRead io s i env) hcall (call.returned (.error e))
      rw [← hs'] at hcall'
      obtain ⟨-, transferred, -, -, -, hn⟩ := hencodes i env call _ _ rfl hcall hcall'
        (congrArg Phase.returned (returned_error_result call e))
      exact hn.hasCode hreturns
    | ioRead | newWithInterest | work | orphan | drop => trivial
  . rintro hcodes i env call call' n rfl hcall hcall' hphase
    simp only [step, hcall, Option.bind_some] at hstep
    obtain ⟨result, hreturns, hn, hbuffer, -⟩ :=
      exists_readReturns hcall (pollCall_outcome hstep).2 hcall' hphase
    cases result with
    | ok bytes =>
      refine ⟨handOut call.amountToRead bytes, _, hbuffer, rfl, ?_, ?_⟩
      . intro got hgets
        rw [hgets.unique (readReturns_ok_iff.mp hreturns)]
        exact List.take_prefix _ _
      . obtain rfl := Except.ok.inj hn
        refine encodes_count ?_ _
        intro e hfails
        cases hreturns.unique hfails
    | error e =>
      obtain rfl := Except.ok.inj hn
      refine ⟨[], 0, hbuffer, rfl, fun _ _ => List.nil_prefix, ?_⟩
      refine encodes_of_fails hreturns ?_ (hcodes call e hcall hreturns) 0
      intro e' hfails
      exact Except.error.inj (hfails.unique hreturns)

end IoRead

namespace IoWrite

open BufWriter (Writer)
open IoRead (fileMaxBufSize)

variable {backing : Backing} {s s' : State} {env : WriteEnv} {writer : Writer Byte}

def resumed (s : State) (env : WriteEnv) : Option (Writer Byte) :=
  match s.phase with
  | .created =>
    match s.prepare env with
    | .ok _ => some (Writer.start bufWriterCapacity s.buffer)
    | .error _ => none
  | .writing writer => some writer
  | .returned .. => none

def failure (backing : Backing) (s : State) (env : WriteEnv) (writer : Writer Byte) : Option IoError :=
  match writer.request, backing with
  | .write _, .socket =>
    match env.write with
    | .data n => if n = 0 then some writeZero else none
    | .wouldBlock => none
    | .error e => some e
  | .write _, .file =>
    match s.file with
    | .idle | .finished (.ok _) => if env.spawns then none else some backgroundTaskFailed
    | .busy _ => none
    | .finished (.error e) => some e
  | .flush, .socket => none
  | .flush, .file =>
    match s.file with
    | .idle | .busy _ | .finished (.ok _) => none
    | .finished (.error e) => some e

def Fails (backing : Backing) (s : State) (env : WriteEnv) (e : IoError) : Prop :=
  (resumed s env).bind (failure backing s env) = some e

def WriteEncodes (backing : Backing) (s : State) (e : Event) (s' : State) : Prop :=
  ∀ env (n : Int) stage, e = .poll env → s'.phase = .returned (.ok n) stage →
    Encodes (Fails backing s env) s'.received.length n

def WriteErrorsHaveCodes (backing : Backing) (s : State) : Event → Prop
  | .poll env => ∀ e, Fails backing s env e → e.HasCode
  | .work _ => True

structure Resumed (failure : Option IoError) (s' : State) : Prop where
  fails : ∀ e, failure = some e →
    ∃ stage, s'.phase = .returned (.ok (-(e.rawOsError.getD 0 : Nat))) stage
  returns : ∀ (n : Int) stage, failure = none → s'.phase = .returned (.ok n) stage →
    n = s'.buffer.length

theorem resumed_of_error (e : IoError) : Resumed (some e) (s.returned writer (.error e)) where
  fails e' h := by
    obtain rfl := Option.some.inj h
    exact ⟨_, rfl⟩
  returns n stage h := by contradiction

theorem resumed_of_writing (writer' : Writer Byte)
    : Resumed none { s with phase := .writing writer' } where
  fails e h := by contradiction
  returns n stage _ h := by contradiction

theorem resumed_of_pending : Resumed none (s.pending writer env) where
  fails e h := by contradiction
  returns n stage _ h := by
    unfold State.pending at h
    split at h
    . split at h
      . have hresult := (Phase.returned.inj h).1
        contradiction
      . contradiction
    . contradiction

def PollIo.writeFailure : PollIo Nat → Option IoError
  | .pending => none
  | .ready (.ok n) => if n = 0 then some writeZero else none
  | .ready (.error e) => some e

theorem failure_of_pollWrite {chunk : List Byte} (hrequest : writer.request = .write chunk)
    (hchunk : chunk ≠ []) {polled : PollIo Nat} {s₁ : State}
    (h : s.pollWrite backing chunk env = some (polled, s₁))
    : failure backing s env writer = polled.writeFailure := by
  have hspawn (hspawn : s.spawnWorker chunk env = (polled, s₁))
      : (if env.spawns then none else some backgroundTaskFailed) = polled.writeFailure := by
    unfold State.spawnWorker at hspawn
    split at hspawn
    . next hspawns =>
      have hpos : (chunk.take fileMaxBufSize).length ≠ 0 := by
        simpa [fileMaxBufSize] using hchunk
      obtain ⟨rfl, -⟩ := Prod.mk.inj hspawn
      rw [if_pos hspawns, PollIo.writeFailure, if_neg hpos]
    . next hspawns =>
      obtain ⟨rfl, -⟩ := Prod.mk.inj hspawn
      rw [if_neg hspawns, PollIo.writeFailure]
  unfold failure
  rw [hrequest]
  unfold State.pollWrite at h
  cases backing with
  | socket =>
    cases hwrite : env.write with
    | data n =>
      simp only [hwrite, Option.ite_none_right_eq_some, Option.some.injEq, Prod.mk.injEq] at h
      obtain ⟨-, rfl, -⟩ := h
      rfl
    | wouldBlock | error e =>
      simp only [hwrite, Option.some.injEq, Prod.mk.injEq] at h
      obtain ⟨rfl, -⟩ := h
      rfl
  | file =>
    cases hfile : s.file with
    | idle =>
      simp only [hfile, Option.some.injEq] at h
      exact hspawn h
    | busy rest =>
      simp only [hfile, Option.some.injEq, Prod.mk.injEq] at h
      obtain ⟨rfl, -⟩ := h
      rfl
    | finished result =>
      cases result with
      | ok _ =>
        simp only [hfile, Option.some.injEq] at h
        exact hspawn h
      | error e =>
        simp only [hfile, Option.some.injEq, Prod.mk.injEq] at h
        obtain ⟨rfl, -⟩ := h
        rfl

theorem resumed_of_write {chunk : List Byte} (hrequest : writer.request = .write chunk)
    (hchunk : chunk ≠ []) (h : s.resume backing writer env = some s')
    : Resumed (failure backing s env writer) s' := by
  unfold State.resume at h
  rw [hrequest] at h
  dsimp only at h
  split at h
  . contradiction
  . next s₁ hpoll =>
    obtain rfl := Option.some.inj h
    rw [failure_of_pollWrite hrequest hchunk hpoll]
    exact resumed_of_pending
  . next e s₁ hpoll =>
    obtain rfl := Option.some.inj h
    rw [failure_of_pollWrite hrequest hchunk hpoll]
    exact resumed_of_error e
  . next n s₁ hpoll =>
    rw [failure_of_pollWrite hrequest hchunk hpoll, PollIo.writeFailure]
    split at h
    . next htaken =>
      obtain rfl := Option.some.inj h
      rw [if_pos ((Writer.taken_eq_none_iff hrequest).mp htaken)]
      exact resumed_of_error writeZero
    . next writer' htaken =>
      have hpos : n ≠ 0 := by
        intro hzero
        rw [(Writer.taken_eq_none_iff hrequest).mpr hzero] at htaken
        contradiction
      obtain rfl := Option.some.inj h
      rw [if_neg hpos]
      exact resumed_of_writing writer'

theorem resumed_of_ok : Resumed none (s.returned writer (.ok s.buffer.length)) where
  fails e h := by contradiction
  returns n stage _ h := (Except.ok.inj (Phase.returned.inj h).1).symm

theorem resumed_of_flush (hrequest : writer.request = .flush)
    (h : s.resume backing writer env = some s')
    : Resumed (failure backing s env writer) s' := by
  unfold State.resume State.pollFlush at h
  unfold failure
  rw [hrequest] at h ⊢
  cases backing with
  | socket =>
    obtain rfl := Option.some.inj h
    exact resumed_of_ok
  | file =>
    cases hfile : s.file with
    | idle =>
      simp only [hfile, Option.some.injEq] at h
      exact h ▸ resumed_of_ok
    | busy rest =>
      simp only [hfile, Option.some.injEq] at h
      exact h ▸ resumed_of_pending
    | finished result =>
      cases result with
      | ok _ =>
        simp only [hfile, Option.some.injEq] at h
        exact h ▸ resumed_of_ok
      | error e =>
        simp only [hfile, Option.some.injEq] at h
        exact h ▸ resumed_of_error e

theorem resume_spec (hsettled : writer.Settled) (h : s.resume backing writer env = some s')
    : Resumed (failure backing s env writer) s' := by
  cases hrequest : writer.request with
  | write chunk => exact resumed_of_write hrequest (hsettled.chunk_prefix hrequest).1 h
  | flush => exact resumed_of_flush hrequest h

theorem poll_spec (hfaithful : Faithful backing s) (hpoll : s.poll backing env = some s')
    : Resumed ((resumed s env).bind (failure backing s env)) s' := by
  unfold State.poll at hpoll
  unfold resumed
  cases hphase : s.phase with
  | created =>
    simp only [hphase] at hpoll ⊢
    cases hprepare : s.prepare env with
    | error e =>
      simp only [hprepare] at hpoll ⊢
      obtain rfl := Option.some.inj hpoll
      refine ⟨by simp, ?_⟩
      intro n stage _ hreturned
      have hresult := (Phase.returned.inj hreturned).1
      contradiction
    | ok _ =>
      simp only [hprepare] at hpoll ⊢
      exact resume_spec (Writer.settled_start _ _) hpoll
  | writing writer =>
    simp only [hphase] at hpoll ⊢
    exact resume_spec (hfaithful.writing writer hphase).1 hpoll
  | returned result stage => simp [hphase] at hpoll

theorem Faithful.length_received (h : Faithful backing s) {n : Int} {stage : List Byte}
    (hphase : s.phase = .returned (.ok n) stage) (hn : n = s.buffer.length)
    : s.received.length = s.buffer.length := by
  by_cases hpos : 0 < n
  . rw [(h.exact n stage hphase hpos).2.1]
  . have hle := h.deliversBuffer.received_prefix.length_le
    omega

theorem writeEncodes_iff (h : Faithful backing s) {e : Event} (hstep : step backing s e = some s')
    : WriteEncodes backing s e s' ↔ WriteErrorsHaveCodes backing s e := by
  have h' := h.step hstep
  cases e with
  | work write =>
    refine iff_of_true ?_ trivial
    rintro env n stage ⟨⟩
  | poll env =>
    obtain ⟨hfails, hreturns⟩ := poll_spec h hstep
    constructor
    . intro hencodes e hfail
      obtain ⟨stage, hphase⟩ := hfails e hfail
      exact (hencodes env _ stage rfl hphase).hasCode hfail
    . rintro hcodes env n stage ⟨⟩ hphase
      cases hfailure : (resumed s env).bind (failure backing s env) with
      | some e =>
        obtain ⟨stage', hphase'⟩ := hfails e hfailure
        rw [hphase] at hphase'
        obtain rfl := Except.ok.inj (Phase.returned.inj hphase').1
        refine encodes_of_fails hfailure ?_ (hcodes e hfailure) _
        exact fun e' hfail' => Option.some.inj (hfail'.symm.trans hfailure)
      | none =>
        have hn := hreturns n stage hfailure hphase
        rw [hn, ← h'.length_received hphase hn]
        refine encodes_count ?_ _
        intro e hfail
        cases hfail.symm.trans hfailure

end IoWrite

/--
The integers of all calls of `io_read` and of `io_write` tell failures from counts, if and only if
every error of the backing IO has a code.
-/
theorem results_encode_iff (io : IoRead.Io) (backing : Backing)
    : (∀ (stream : List Byte) (es : List IoRead.Event),
        Lts.Along (IoRead.step io)
            (fun s e => ∀ s', IoRead.step io s e = some s' → IoRead.ReadEncodes io s e s')
            (.new stream) es ↔
          Lts.Along (IoRead.step io) (IoRead.ReadErrorsHaveCodes io) (.new stream) es) ∧
      ∀ (buffer : List Byte) (minimum : Nat) (timeout : Duration) (es : List IoWrite.Event),
        Lts.Along (IoWrite.step backing)
            (fun s e => ∀ s', IoWrite.step backing s e = some s' → IoWrite.WriteEncodes backing s e s')
            (.new buffer minimum timeout) es ↔
          Lts.Along (IoWrite.step backing) (IoWrite.WriteErrorsHaveCodes backing)
            (.new buffer minimum timeout) es := by
  constructor
  . intro stream es
    apply Lts.along_congr (J := fun _ => True)
    . exact fun _ _ _ _ _ => trivial
    . intro s e s' _ hstep
      rw [Lts.forall_step_iff hstep, IoRead.readEncodes_iff hstep]
    . trivial
  . intro buffer minimum timeout es
    apply Lts.along_congr (J := IoWrite.Faithful backing)
    . exact fun s e s' h hstep => h.step hstep
    . intro s e s' h hstep
      rw [Lts.forall_step_iff hstep, IoWrite.writeEncodes_iff h hstep]
    . exact .new backing buffer minimum timeout

theorem results_not_encoded
    : ¬ ((∀ (io : IoRead.Io) (stream : List Byte) (es : List IoRead.Event),
          Lts.Along (IoRead.step io)
            (fun s e => ∀ s', IoRead.step io s e = some s' → IoRead.ReadEncodes io s e s')
            (.new stream) es) ∧
        ∀ (backing : Backing) (buffer : List Byte) (minimum : Nat) (timeout : Duration)
          (es : List IoWrite.Event),
          Lts.Along (IoWrite.step backing)
            (fun s e => ∀ s', IoWrite.step backing s e = some s' → IoWrite.WriteEncodes backing s e s')
            (.new buffer minimum timeout) es) := by
  rintro ⟨-, hall⟩
  have hencodes := hall .file [1] 0 0 [.poll {}, .work (.data 0), .poll {}]
  have hlast := ((hencodes _ rfl).2 _ rfl).2 _ rfl
  have hreturned := hlast.1 _ rfl {} 0 [] rfl rfl
  exact absurd (hreturned.negative_iff.mpr ⟨IoWrite.writeZero, rfl⟩) (by decide)

end Shreduler
