import Shreduler.TokioScheduler.Lemmas.IoReadWrite

/-!
This module proves when a call of `io_read` reads the minimum length that it is given.
-/

namespace Shreduler
namespace IoRead

variable {io : Io} {s s' : State} {i : Nat} {call call' : Call} {env : ReadEnv}

def AtEnd (io : Io) (s : State) : Prop := s.unread = [] ∧ (s.reactor.fds io.fileno).isOpen

structure HonoursMinimum (io : Io) (s : State) (e : Event) (s' : State) : Prop where
  -- A minimum larger than the buffer is rejected, with nothing read.
  rejects : ∀ i env call, e = .poll i env → s.calls[i]? = some call →
    call.buffer.length < call.minimumLengthToRead →
      ∃ error, s' = s.finish i call ⟨.error error, call.buffer⟩
  -- A call that reports success has read the minimum, or all of the stream.
  atLeast : ∀ i env call call' (n : Int), e = .poll i env → s.calls[i]? = some call →
    s'.calls[i]? = some call' → call'.phase = .returned (.ok n) → 0 ≤ n →
      0 < call.minimumLengthToRead →
        (call.minimumLengthToRead ≤ n ∨ AtEnd io s') ∧ n ≤ call.buffer.length
  -- Without a minimum it reports what its first successful read has got.
  available : ∀ i env call call' (n : Int), e = .poll i env → s.calls[i]? = some call →
    s'.calls[i]? = some call' → call'.phase = .returned (.ok n) → 0 ≤ n →
      call.minimumLengthToRead = 0 →
        ∃ bytes, Gets io s call env bytes ∧ n = min bytes.length call.buffer.length ∧
          Return.reported ⟨.ok n, call'.buffer⟩ = bytes.take call.buffer.length

/--
The only read of a call gets the minimum, or all that the stream still has. If it fails, the error has
a code, or there is nothing to be had anyway.
-/
def ReadsEnough (io : Io) (s : State) : Event → Prop
  | .poll i env =>
    ∀ call result, s.calls[i]? = some call → ReadReturns io s call env result →
      match result with
      | .ok bytes => call.minimumLengthToRead ≤ bytes.length ∨ AtEnd io (afterRead io s i env)
      | .error e => e.rawOsError.getD 0 = 0 → 0 < call.minimumLengthToRead ∧ AtEnd io s
  | _ => True

def Fits (s : State) : Prop :=
  ∀ (i : Nat) (call : Call) file, s.calls[i]? = some call → call.phase = .reading file →
    call.minimumLengthToRead ≤ call.buffer.length

theorem le_length_of_prepare (h : call.prepare env = .ok ())
    : call.minimumLengthToRead ≤ call.buffer.length := by
  unfold Call.prepare at h
  split at h
  . contradiction
  . split at h
    . contradiction
    . split at h
      . contradiction
      . next hle => exact Nat.not_lt.mp hle

theorem Fits.le_length (h : Fits s) (hcall : s.calls[i]? = some call) (hlive : call.Live)
    (hprepare : call.phase = .created → call.prepare env = .ok ())
    : call.minimumLengthToRead ≤ call.buffer.length := by
  cases hphase : call.phase with
  | created => exact le_length_of_prepare (hprepare hphase)
  | reading file => exact h i call file hcall hphase
  | returned | dropped => simp [Call.Live, hphase] at hlive

theorem Fits.set (h : Fits s) (hcalls : s'.calls = s.calls.set i call')
    (hfits : ∀ file, call'.phase = .reading file → call'.minimumLengthToRead ≤ call'.buffer.length)
    : Fits s' := by
  intro j c file hc hphase
  rw [hcalls, List.getElem?_set] at hc
  split at hc
  . next heq =>
    split at hc
    . obtain rfl := Option.some.inj hc
      exact hfits file hphase
    . contradiction
  . exact h j c file hc hphase

theorem Fits.of_calls (h : Fits s) (hcalls : s'.calls = s.calls) : Fits s' := by
  unfold Fits
  rw [hcalls]
  exact h

theorem Fits.step (h : Fits s) {e : Event} (hstep : IoRead.step io s e = some s') : Fits s' := by
  cases step_outcome hstep with
  | refused => exact h.of_calls (calls_newWithInterest io s _)
  | newWithInterest => exact h.of_calls (calls_newWithInterest io s _)
  | ioRead =>
    intro i call file hcall hphase
    dsimp only at hcall
    rw [List.getElem?_append] at hcall
    split at hcall
    . exact h i call file hcall hphase
    . obtain ⟨_, hcall⟩ := List.getElem?_eq_some_iff.mp hcall
      simp [← hcall] at hphase
  | poll hcall hlive hpoll =>
    cases hpoll with
    | raises => exact h.set rfl (by simp)
    | pends file _ _ _ hprepare =>
      have hle := h.le_length hcall hlive hprepare
      exact h.set rfl fun _ _ => hle
    | returns =>
      apply h.set
      . exact congrArg (List.set · _ _) (calls_afterRead io s _ _)
      . simp
  | work hcall hphase hwork =>
    have hle := h _ _ _ hcall hphase
    apply h.set
    . exact congrArg (List.set · _ _) hwork.calls
    . exact fun _ _ => hle
  | orphan horphan hwork => exact h.of_calls hwork.calls
  | drop => exact h.set rfl (by simp)

/-! ### One poll -/

theorem prepare_of_lt (h : call.buffer.length < call.minimumLengthToRead) (env : ReadEnv)
    : ∃ error, call.prepare env = .error error := by
  cases hprepare : call.prepare env with
  | error e => exact ⟨e, rfl⟩
  | ok _ => exact absurd (le_length_of_prepare hprepare) (Nat.not_le.mpr h)

theorem Fits.rejects (h : Fits s) (hcall : s.calls[i]? = some call)
    (hpoll : s.pollCall io i call env = some s')
    (hlt : call.buffer.length < call.minimumLengthToRead)
    : ∃ error, s' = s.finish i call ⟨.error error, call.buffer⟩ := by
  have hphase : call.phase = .created := by
    cases hphase : call.phase with
    | created => rfl
    | reading file => exact absurd (h i call file hcall hphase) (Nat.not_le.mpr hlt)
    | returned | dropped => simp [State.pollCall, hphase] at hpoll
  obtain ⟨error, hprepare⟩ := prepare_of_lt hlt env
  simp only [State.pollCall, hphase, hprepare, Option.some.injEq] at hpoll
  exact ⟨error, hpoll.symm⟩

theorem returned_ok_result (call : Call) (bytes : List Byte)
    : (call.returned (.ok bytes)).result = .ok ↑(min call.amountToRead bytes.length) := by
  simp [Call.returned, handOut]

theorem returned_error_result (call : Call) (e : IoError)
    : (call.returned (.error e)).result = .ok (-↑(e.rawOsError.getD 0)) := rfl

theorem exists_readReturns {n : Int} (hcall : s.calls[i]? = some call)
    (hpoll : PollOutcome io s i call env s') (hcall' : s'.calls[i]? = some call')
    (hphase : call'.phase = .returned (.ok n))
    : ∃ result, ReadReturns io s call env result ∧ .ok n = (call.returned result).result ∧
        call'.buffer = (call.returned result).buffer ∧
        s' = (afterRead io s i env).finish i call (call.returned result) ∧
        (call.phase = .created → call.prepare env = .ok ()) := by
  have hlt := (List.getElem?_eq_some_iff.mp hcall).1
  have hself {calls : List Call} {c : Call} (hset : s'.calls = calls.set i c)
      (hcalls : calls = s.calls) : call' = c := by
    rw [hset, hcalls, List.getElem?_set_self hlt] at hcall'
    exact (Option.some.inj hcall').symm
  cases hpoll with
  | raises error =>
    rw [hself rfl rfl] at hphase
    simp at hphase
  | pends =>
    rw [hself rfl rfl] at hphase
    simp at hphase
  | @returns result hreturns hprepare =>
    obtain rfl := hself rfl (calls_afterRead io s i env)
    exact ⟨result, hreturns, (Phase.returned.inj hphase).symm, rfl, rfl, hprepare⟩

theorem returns_of_readReturns {result : Except IoError (List Byte)}
    (hpoll : PollOutcome io s i call env s') (hreturns : ReadReturns io s call env result)
    : s' = (afterRead io s i env).finish i call (call.returned result) := by
  cases hpoll with
  | raises _ _ hnone => exact absurd hreturns (hnone result)
  | pends _ _ _ hnone => exact absurd hreturns (hnone result)
  | returns hreturns' => rw [hreturns.unique hreturns']

theorem getElem?_finish {s₁ : State} (hcalls : s₁.calls = s.calls) (hcall : s.calls[i]? = some call)
    (r : Return)
    : (s₁.finish i call r).calls[i]? = some { call with buffer := r.buffer, phase := .returned r.result } := by
  apply getElem?_set_of_getElem? hcall
  exact congrArg (List.set · _ _) hcalls

theorem atEnd_finish {s₁ : State} {r : Return} : AtEnd io (s₁.finish i call r) ↔ AtEnd io s₁ := Iff.rfl

theorem honoursMinimum_of_readsEnough (h : Fits s) {e : Event}
    (hstep : step io s e = some s') (henough : ReadsEnough io s e) : HonoursMinimum io s e s' where
  rejects i env call he hcall := by
    subst he
    simp only [step, hcall, Option.bind_some] at hstep
    exact h.rejects hcall hstep
  atLeast i env call call' n he hcall hcall' hphase hpos hminimum := by
    subst he
    simp only [step, hcall, Option.bind_some] at hstep
    obtain ⟨hlive, hpoll⟩ := pollCall_outcome hstep
    obtain ⟨result, hreturns, hn, -, rfl, hprepare⟩ := exists_readReturns hcall hpoll hcall' hphase
    have hle := h.le_length hcall hlive hprepare
    have henough := henough call result hcall hreturns
    have hamount : call.amountToRead = call.minimumLengthToRead :=
      if_neg (Nat.pos_iff_ne_zero.mp hminimum)
    rw [atEnd_finish]
    cases result with
    | ok bytes =>
      rw [returned_ok_result, hamount, Except.ok.injEq] at hn
      exact ⟨henough.imp_left (by omega), by omega⟩
    | error e =>
      rw [returned_error_result, Except.ok.injEq] at hn
      rw [hreturns.afterRead_of_error]
      exact ⟨.inr (henough (by omega)).2, by omega⟩
  available i env call call' n he hcall hcall' hphase hpos hminimum := by
    subst he
    simp only [step, hcall, Option.bind_some] at hstep
    obtain ⟨hlive, hpoll⟩ := pollCall_outcome hstep
    obtain ⟨result, hreturns, hn, hbuffer, -⟩ := exists_readReturns hcall hpoll hcall' hphase
    have henough := henough call result hcall hreturns
    have hamount : call.amountToRead = call.buffer.length := if_pos hminimum
    cases result with
    | ok bytes =>
      have hreported := reported_returned_ok call bytes
      rw [hn, hbuffer]
      rw [hamount] at hreported
      rw [returned_ok_result, hamount, Except.ok.injEq] at hn
      exact ⟨bytes, readReturns_ok_iff.mp hreturns, by omega, hreported⟩
    | error e =>
      rw [returned_error_result, Except.ok.injEq] at hn
      exact absurd (henough (by omega)).1 (by omega)

theorem readsEnough_of_honoursMinimum {e : Event} (hstep : step io s e = some s')
    (hhonours : HonoursMinimum io s e s') : ReadsEnough io s e := by
  cases e with
  | poll i env =>
    intro call result hcall hreturns
    simp only [step, hcall, Option.bind_some] at hstep
    have hs' := returns_of_readReturns (pollCall_outcome hstep).2 hreturns
    have hcall' := getElem?_finish (calls_afterRead io s i env) hcall (call.returned result)
    have hatEnd : AtEnd io s' ↔ AtEnd io (afterRead io s i env) := by rw [hs', atEnd_finish]
    rw [← hs'] at hcall'
    cases result with
    | ok bytes =>
      by_cases hminimum : call.minimumLengthToRead = 0
      . exact .inl (hminimum ▸ Nat.zero_le _)
      . have hamount : call.amountToRead = call.minimumLengthToRead := if_neg hminimum
        have hatLeast := (hhonours.atLeast i env call _ _ rfl hcall hcall'
          (congrArg Phase.returned (returned_ok_result call bytes)) (Int.natCast_nonneg _)
          (Nat.pos_iff_ne_zero.mpr hminimum)).1
        rw [hatEnd, hamount] at hatLeast
        exact hatLeast.imp_left (by omega)
    | error e =>
      intro hcode
      have hresult : (call.returned (.error e)).result = .ok 0 := by
        rw [returned_error_result, hcode]
        rfl
      have hphase := congrArg Phase.returned hresult
      by_cases hminimum : call.minimumLengthToRead = 0
      . obtain ⟨bytes, hgets, -⟩ :=
          hhonours.available i env call _ _ rfl hcall hcall' hphase (Int.le_refl 0) hminimum
        cases hreturns.unique (readReturns_ok_iff.mpr hgets)
      . have hpos := Nat.pos_iff_ne_zero.mpr hminimum
        have hatLeast :=
          (hhonours.atLeast i env call _ _ rfl hcall hcall' hphase (Int.le_refl 0) hpos).1
        rw [hatEnd, hreturns.afterRead_of_error] at hatLeast
        exact ⟨hpos, hatLeast.resolve_left (by omega)⟩
  | ioRead | newWithInterest | work | orphan | drop => trivial

/--
All calls on a stream read their minimum throughout a run, if and only if the only read that each of
them makes gets it.
-/
theorem honours_minimum_iff (io : Io) (stream : List Byte) (es : List Event)
    : Lts.Along (step io)
          (fun s e => ∀ s', step io s e = some s' → HonoursMinimum io s e s') (.new stream) es ↔
        Lts.Along (step io) (ReadsEnough io) (.new stream) es := by
  apply Lts.along_congr (J := Fits)
  . exact fun s e s' h hstep => h.step hstep
  . intro s e s' h hstep
    rw [Lts.forall_step_iff hstep]
    constructor
    . exact readsEnough_of_honoursMinimum hstep
    . exact honoursMinimum_of_readsEnough h hstep
  . simp [Fits, State.new]

theorem minimum_not_honoured
    : ¬ ∀ (io : Io) (stream : List Byte) (es : List Event),
        Lts.Along (step io)
          (fun s e => ∀ s', step io s e = some s' → HonoursMinimum io s e s') (.new stream) es := by
  intro hall
  have hhonours := hall ⟨.object "UNIXSocket" 0, 7, .socket, by decide⟩ [1, 2, 3, 4]
    [.ioRead [0, 0, 0, 0, 0, 0, 0, 0] 4 0 { tryConvert := .ok .nil, fileno := .ok 7 },
      .poll 0 { read := .data 2 }]
  have hlast := (hhonours _ rfl).2 _ rfl
  have hatLeast := (hlast.1 _ rfl).atLeast 0 _ _ _ 2 rfl rfl rfl rfl (by decide) (by decide)
  revert hatLeast
  simp only [AtEnd]
  decide

end IoRead
end Shreduler
