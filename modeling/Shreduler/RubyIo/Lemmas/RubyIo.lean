import Mathlib.Data.List.Nodup
import Shreduler.RubyIo.Impl.RubyIo
import Shreduler.RubyIo.Lemmas.Basic

/-!
This module proves when `RubyIo` leaves the descriptors to Ruby, and when it leaves the registrations
of the reactor as it found them.
-/

namespace Shreduler

def Value.isSocket (value : Value) : Bool :=
  value.classname ∈ ["UNIXSocket", "UDPSocket", "Socket", "TCPServer", "TCPSocket"]

def Value.isFile (value : Value) : Bool := value.classname ∈ ["IO", "File"]

namespace BackingIo

variable {r : Reactor} {env : NewEnv} {value : Value}

def socketFd : BackingIo → Option RawFd
  | .unixSocket fd | .tcpSocket fd | .udpSocket fd => some fd
  | .file _ => none

theorem fromValueAndRawFd_of_isSocket (h : value.isSocket) (fd : RawFd)
    : ∃ socket backingIo, socketFd (backingIo fd) = some fd ∧
        fromValueAndRawFd r env value fd
          =
        socketFromRawFd r env.refused fd socket backingIo := by
  simp only [Value.isSocket, List.mem_cons, List.not_mem_nil, or_false, decide_eq_true_eq] at h
  unfold fromValueAndRawFd
  dsimp only
  split
  . exact ⟨_, .unixSocket, rfl, rfl⟩
  . split
    . next hfile => rcases h with h | h | h | h | h <;> simp [h] at hfile
    . split
      . exact ⟨_, .udpSocket, rfl, rfl⟩
      . split
        . exact ⟨_, .tcpSocket, rfl, rfl⟩
        . simp_all

theorem fromValueAndRawFd_of_not_isSocket (h : value.isSocket = false) (fd : RawFd)
    : if value.isFile then
        fromValueAndRawFd r env value fd = (.ok (.file fd), r)
      else
        ∃ e, fromValueAndRawFd r env value fd = (.error e, r) := by
  simp only [Value.isSocket, List.mem_cons, List.not_mem_nil, or_false, decide_eq_false_iff_not,
    not_or] at h
  obtain ⟨hunix, hudp, hsocket, hserver, htcp⟩ := h
  unfold fromValueAndRawFd Value.isFile
  simp only [hunix, hudp, hsocket, hserver, htcp, or_self, if_false, List.mem_cons, List.not_mem_nil,
    or_false, decide_eq_true_eq]
  split
  . rfl
  . exact ⟨_, rfl⟩

end BackingIo

namespace Reactor

variable {r r' : Reactor} {fd : RawFd} {refused : Option Errno} {result : Except Errno Unit}

theorem fromStd_cases (h : r.fromStd fd refused = (result, r'))
    : (r.fds fd).isOpen = false ∧ result = .error .ebadf ∧
        r' = { r with log := (fd, .failed .ebadf) :: r.log }.close fd ∨
      (r.fds fd).isOpen ∧ (r.fds fd).registered ∧ result = .error .eexist ∧
        r' = { r with log := (fd, .alreadyAdded) :: r.log }.close fd ∨
      (r.fds fd).isOpen ∧ (r.fds fd).registered = false ∧
        ((∃ e, refused = some e ∧ result = .error e ∧
          r' = { r with log := (fd, .failed e) :: r.log }.close fd) ∨
        refused = none ∧ result = .ok () ∧
          r' = { fds := Function.update r.fds fd ⟨true, true⟩, log := (fd, .added) :: r.log }) := by
  unfold fromStd epollCtlAdd at h
  cases hopen : (r.fds fd).isOpen with
  | false =>
    simp only [hopen, Bool.false_eq_true, not_false_eq_true, if_true, Prod.mk.injEq] at h
    exact .inl ⟨rfl, h.1.symm, h.2.symm⟩
  | true =>
    right
    cases hregistered : (r.fds fd).registered with
    | true =>
      simp only [hopen, hregistered, not_true_eq_false, if_false, if_true, Prod.mk.injEq] at h
      exact .inl ⟨rfl, rfl, h.1.symm, h.2.symm⟩
    | false =>
      right
      cases refused with
      | some e =>
        simp only [hopen, hregistered, not_true_eq_false, if_false, Bool.false_eq_true,
          Prod.mk.injEq] at h
        exact ⟨rfl, rfl, .inl ⟨e, rfl, h.1.symm, h.2.symm⟩⟩
      | none =>
        simp only [hopen, hregistered, not_true_eq_false, if_false, Bool.false_eq_true,
          Prod.mk.injEq] at h
        exact ⟨rfl, rfl, .inr ⟨rfl, h.1.symm, h.2.symm⟩⟩

end Reactor

namespace RubyIo

variable {s s' : State} {value : Value} {env : NewEnv} {fd : RawFd} {io : RubyIo}

def socketFd (io : RubyIo) : Option RawFd := io.backingIo.bind BackingIo.socketFd

/-- `RubyIo::new_with_interest` gets as far as the registration of the socket `fd`. -/
def Registers (value : Value) (env : NewEnv) (fd : RawFd) : Prop :=
  (∃ v, env.tryConvert = .ok v) ∧ env.fileno = .ok fd ∧ value.isSocket

def Usable (value : Value) (env : NewEnv) : Prop :=
  (∃ v, env.tryConvert = .ok v) ∧ (∃ fd, env.fileno = .ok fd) ∧ (value.isSocket ∨ value.isFile)

theorem Registers.usable (h : Registers value env fd) : Usable value env :=
  ⟨h.1, ⟨fd, h.2.1⟩, .inl h.2.2⟩

/-! ### What a step does -/

inductive Opened (r : Reactor) (value : Value) (env : NewEnv) : Result RubyIo × Reactor → Prop where
  | failed (e : Error) (h : ¬ Usable value env) : Opened r value env (.error e, r)
  | file (fd : RawFd) (husable : Usable value env) (h : ∀ fd, ¬ Registers value env fd)
    : Opened r value env (.ok ⟨value, some (.file fd)⟩, r)
  | rejected {fd e e' reactor} (h : Registers value env fd)
    (hstd : r.fromStd fd env.refused = (.error e', reactor)) : Opened r value env (.error e, reactor)
  | socket {fd reactor backingIo} (h : Registers value env fd)
    (hstd : r.fromStd fd env.refused = (.ok (), reactor)) (hio : BackingIo.socketFd backingIo = some fd)
    : Opened r value env (.ok ⟨value, some backingIo⟩, reactor)

theorem newWithInterest_opened (r : Reactor) (env : NewEnv) (value : Value)
    : Opened r value env (newWithInterest r env value) := by
  unfold newWithInterest
  cases hconvert : env.tryConvert with
  | error e =>
    apply Opened.failed
    simp [Usable, hconvert]
  | ok v =>
    cases hfileno : env.fileno with
    | error e =>
      apply Opened.failed
      simp [Usable, hfileno]
    | ok fd =>
      dsimp only
      cases hsocket : value.isSocket with
      | true =>
        have hregisters : Registers value env fd := ⟨⟨v, hconvert⟩, hfileno, hsocket⟩
        obtain ⟨socket, backingIo, hfd, heq⟩ :=
          @BackingIo.fromValueAndRawFd_of_isSocket r env value hsocket fd
        rw [heq, socketFromRawFd]
        cases hstd : r.fromStd fd env.refused with
        | mk result reactor =>
          cases result with
          | error e => exact .rejected hregisters hstd
          | ok _ => exact .socket hregisters hstd hfd
      | false =>
        have hnone : ∀ fd, ¬ Registers value env fd := by
          simp [Registers, hsocket]
        have heq := @BackingIo.fromValueAndRawFd_of_not_isSocket r env value hsocket fd
        split at heq
        . next hfile =>
          rw [heq]
          exact .file fd ⟨⟨v, hconvert⟩, ⟨fd, hfileno⟩, .inr hfile⟩ hnone
        . next hfile =>
          obtain ⟨e, heq⟩ := heq
          rw [heq]
          apply Opened.failed
          simp [Usable, hsocket, hfile]

inductive New (s : State) (value : Value) (env : NewEnv) : State → Prop where
  | failed (h : ∀ fd, ¬ Registers value env fd) : New s value env s
  | file {io : RubyIo} (h : ∀ fd, ¬ Registers value env fd) (hio : io.socketFd = none)
    : New s value env { s with live := s.live ++ [io] }
  | rejected {fd e reactor} (h : Registers value env fd)
    (hstd : s.reactor.fromStd fd env.refused = (.error e, reactor))
    : New s value env { s with reactor }
  | socket {fd reactor} {io : RubyIo} (h : Registers value env fd)
    (hstd : s.reactor.fromStd fd env.refused = (.ok (), reactor)) (hio : io.socketFd = some fd)
    : New s value env { reactor, live := s.live ++ [io] }

theorem step_newWithInterest (h : step s (.newWithInterest value env) = some s')
    : New s value env s' := by
  have hopened := newWithInterest_opened s.reactor env value
  simp only [step] at h
  generalize newWithInterest s.reactor env value = opened at h hopened
  cases hopened with
  | failed e hnot =>
    obtain rfl := Option.some.inj h
    exact .failed fun fd hregisters => hnot hregisters.usable
  | file fd _ hnone =>
    obtain rfl := Option.some.inj h
    exact .file hnone rfl
  | rejected hregisters hstd =>
    obtain rfl := Option.some.inj h
    exact .rejected hregisters hstd
  | socket hregisters hstd hio =>
    obtain rfl := Option.some.inj h
    exact .socket hregisters hstd hio

theorem step_drop {i : Nat} (h : step s (.drop i) = some s')
    : ∃ io, s.live[i]? = some io ∧ s' = { s with live := s.live.eraseIdx i } := by
  simp only [step] at h
  split at h
  . next io hio =>
    refine ⟨io, hio, ?_⟩
    rw [← Option.some.inj h, drop]
    split <;> rfl
  . contradiction

/-! ### Descriptors -/

def DescriptorsKept (isOpen : RawFd → Bool) (s : State) : Prop :=
  ∀ fd, (s.reactor.fds fd).isOpen = isOpen fd

def RegistrationSucceeds (s : State) : Event → Prop
  | .newWithInterest value env =>
    ∀ fd, Registers value env fd → (s.reactor.fds fd).isOpen →
      (s.reactor.fds fd).registered = false ∧ env.refused = none
  | .drop _ => True

theorem isOpen_close (r : Reactor) (fd fd' : RawFd)
    : ((r.close fd).fds fd').isOpen = if fd' = fd then false else (r.fds fd').isOpen := by
  by_cases h : fd' = fd
  . simp [Reactor.close, h]
  . simp [Reactor.close, h]

theorem Registers.unique {fd fd' : RawFd} (h : Registers value env fd)
    (h' : Registers value env fd') : fd = fd' :=
  Except.ok.inj (h.2.1.symm.trans h'.2.1)

namespace DescriptorsKept

variable {isOpen : RawFd → Bool}

theorem newWithInterest (h : DescriptorsKept isOpen s)
    (hC : RegistrationSucceeds s (.newWithInterest value env)) (hnew : New s value env s')
    : DescriptorsKept isOpen s' := by
  cases hnew with
  | failed | file => exact h
  | @rejected fd e reactor hregisters hstd =>
    obtain ⟨hclosed, -, rfl⟩ | ⟨hopen, hregistered, -⟩ | ⟨hopen, -, ⟨e, hrefused, -⟩ | ⟨-, hok, -⟩⟩ :=
      Reactor.fromStd_cases hstd
    . intro fd'
      rw [isOpen_close, ← h fd']
      split
      . next heq => rw [heq, hclosed]
      . rfl
    . rw [(hC fd hregisters hopen).1] at hregistered
      contradiction
    . rw [(hC fd hregisters hopen).2] at hrefused
      contradiction
    . contradiction
  | @socket fd reactor io hregisters hstd =>
    obtain ⟨-, hbad, -⟩ | ⟨-, -, hbad, -⟩ | ⟨hopen, -, ⟨e, -, hbad, -⟩ | ⟨-, -, rfl⟩⟩ :=
      Reactor.fromStd_cases hstd
    . contradiction
    . contradiction
    . contradiction
    . intro fd'
      rw [← h fd']
      by_cases heq : fd' = fd
      . simp [heq, hopen]
      . simp [Function.update_of_ne heq]

theorem registrationSucceeds (h : DescriptorsKept isOpen s) (hnew : New s value env s')
    (hkept : DescriptorsKept isOpen s') : RegistrationSucceeds s (.newWithInterest value env) := by
  intro fd hregisters hopen
  have hlost {r : Reactor} (hr : s'.reactor = r.close fd) : False := by
    have hfd := hkept fd
    rw [hr, isOpen_close, if_pos rfl, ← h fd, hopen] at hfd
    contradiction
  cases hnew with
  | failed hnone | file hnone => exact absurd hregisters (hnone fd)
  | rejected hregisters' hstd =>
    cases hregisters.unique hregisters'
    obtain ⟨hclosed, -⟩ | ⟨-, -, -, hr⟩ | ⟨-, -, ⟨e, -, -, hr⟩ | ⟨-, hok, -⟩⟩ :=
      Reactor.fromStd_cases hstd
    . rw [hopen] at hclosed
      contradiction
    . exact (hlost hr).elim
    . exact (hlost hr).elim
    . contradiction
  | socket hregisters' hstd =>
    cases hregisters.unique hregisters'
    obtain ⟨-, hbad, -⟩ | ⟨-, -, hbad, -⟩ | ⟨-, hregistered, ⟨e, -, hbad, -⟩ | ⟨hrefused, -⟩⟩ :=
      Reactor.fromStd_cases hstd
    . contradiction
    . contradiction
    . contradiction
    . exact ⟨hregistered, hrefused⟩

end DescriptorsKept

/--
The scheduler closes no descriptor throughout a run, if and only if no registration of an open socket
fails.
-/
theorem descriptors_kept_iff (isOpen : RawFd → Bool) (es : List Event)
    : Lts.Always step (DescriptorsKept isOpen) (.new isOpen) es ↔
      Lts.Along step RegistrationSucceeds (.new isOpen) es := by
  apply Lts.always_iff_along (J := DescriptorsKept isOpen)
  . intro s e s' h hC hstep
    cases e with
    | newWithInterest value env => exact h.newWithInterest hC (step_newWithInterest hstep)
    | drop i =>
      obtain ⟨io, -, rfl⟩ := step_drop hstep
      exact h
  . exact fun _ h => h
  . intro s e s' h hstep hkept
    cases e with
    | newWithInterest value env => exact h.registrationSucceeds (step_newWithInterest hstep) hkept
    | drop i => trivial
  . exact fun _ => rfl

theorem descriptors_not_kept
    : ¬ ∀ (isOpen : RawFd → Bool) (es : List Event),
        Lts.Always step (DescriptorsKept isOpen) (.new isOpen) es := by
  intro hall
  let socket : Value := .object "UNIXSocket" 0
  let env : NewEnv := { tryConvert := .ok socket, fileno := .ok 7 }
  have hrun : (Lts.run step (.new (· = 7)) [.newWithInterest socket env, .drop 0,
      .newWithInterest socket env]).any fun s => (s.reactor.fds 7).isOpen = false := by
    decide
  refine Lts.not_always_of_run hrun ?_ (hall (· = 7) _)
  intro s hs hkept
  have hclosed := of_decide_eq_true hs
  rw [hkept 7] at hclosed
  contradiction

/-! ### Registrations -/

/--
No registration failed because the descriptor was registered, and the reactor knows the descriptors of
the live sockets and no others.
-/
structure RegistrationsOwned (s : State) : Prop where
  conflictFree : ∀ fd, (fd, .alreadyAdded) ∉ s.reactor.log
  owned : ∀ fd, (s.reactor.fds fd).registered ↔ ∃ io ∈ s.live, io.socketFd = some fd

def RegistersOnce (s : State) : Event → Prop
  | .newWithInterest value env =>
    ∀ fd, Registers value env fd → (s.reactor.fds fd).isOpen →
      (s.reactor.fds fd).registered = false
  | .drop i => ∀ io, s.live[i]? = some io → io.socketFd = none

structure Registered (s : State) : Prop where
  owned : RegistrationsOwned s
  isOpen : ∀ fd, (s.reactor.fds fd).registered → (s.reactor.fds fd).isOpen
  unique : (s.live.filterMap socketFd).Nodup

namespace Registered

theorem new (isOpen : RawFd → Bool) : Registered (.new isOpen) where
  owned := by
    constructor
    . simp [State.new]
    . simp [State.new]
  isOpen := by simp [State.new]
  unique := by simp [State.new]

theorem rejected (h : Registered s) {result : EpollAdd} (hresult : result ≠ .alreadyAdded)
    (hfd : (s.reactor.fds fd).registered = false)
    : Registered { s with
        reactor := { s.reactor with log := (fd, result) :: s.reactor.log }.close fd } := by
  have hsame (fd' : RawFd) : (({ s.reactor with
      log := (fd, result) :: s.reactor.log }.close fd).fds fd').registered
        = (s.reactor.fds fd').registered := by
    by_cases heq : fd' = fd
    . simp [Reactor.close, heq, hfd]
    . simp [Reactor.close, heq]
  constructor
  . constructor
    . intro fd' hmem
      cases hmem with
      | head => exact hresult rfl
      | tail _ hmem => exact h.owned.conflictFree fd' hmem
    . intro fd'
      rw [hsame]
      exact h.owned.owned fd'
  . intro fd' hregistered
    rw [hsame] at hregistered
    have hne : fd' ≠ fd := by
      intro heq
      rw [heq, hfd] at hregistered
      contradiction
    rw [isOpen_close, if_neg hne]
    exact h.isOpen fd' hregistered
  . exact h.unique

theorem file (h : Registered s) (hio : io.socketFd = none)
    : Registered { s with live := s.live ++ [io] } where
  owned := by
    refine ⟨h.owned.conflictFree, ?_⟩
    intro fd
    simp [h.owned.owned fd, or_and_right, exists_or, hio]
  isOpen := h.isOpen
  unique := by simpa [hio] using h.unique

theorem socket (h : Registered s) (hfd : (s.reactor.fds fd).registered = false)
    (hio : io.socketFd = some fd)
    : Registered {
        reactor := {
          fds := Function.update s.reactor.fds fd ⟨true, true⟩
          log := (fd, .added) :: s.reactor.log }
        live := s.live ++ [io] } where
  owned := by
    constructor
    . intro fd' hmem
      cases hmem with
      | tail _ hmem => exact h.owned.conflictFree fd' hmem
    . intro fd'
      by_cases heq : fd' = fd
      . simp only [heq, Function.update_self, true_iff]
        exact ⟨io, by simp, hio⟩
      . have hne : fd ≠ fd' := Ne.symm heq
        simp [Function.update_of_ne heq, h.owned.owned fd', or_and_right, exists_or, hio, hne]
  isOpen := by
    intro fd'
    by_cases heq : fd' = fd
    . simp [heq]
    . simpa [Function.update_of_ne heq] using h.isOpen fd'
  unique := by
    have hnone : ∀ io ∈ s.live, io.socketFd ≠ some fd := by
      intro io hmem hsome
      have := (h.owned.owned fd).mpr ⟨io, hmem, hsome⟩
      rw [hfd] at this
      contradiction
    rw [List.filterMap_append, List.nodup_append]
    refine ⟨h.unique, by simp [hio], ?_⟩
    intro fd₁ hfd₁ fd₂ hfd₂ heq
    obtain ⟨io', hmem, hsome⟩ := List.mem_filterMap.mp hfd₁
    obtain rfl : fd₂ = fd := by simpa [hio] using hfd₂
    exact hnone io' hmem (heq ▸ hsome)

theorem drop (h : Registered s) {i : Nat} (hget : s.live[i]? = some io) (hio : io.socketFd = none)
    : Registered { s with live := s.live.eraseIdx i } := by
  obtain ⟨l₁, l₂, hlive, herase⟩ := eraseIdx_of_getElem? hget
  refine ⟨⟨h.owned.conflictFree, ?_⟩, h.isOpen, ?_⟩
  . intro fd
    rw [h.owned.owned fd, herase, hlive]
    simp [or_and_right, exists_or, hio]
  . exact h.unique.sublist ((List.eraseIdx_sublist ..).filterMap _)

theorem step (h : Registered s) {e : Event} (hC : RegistersOnce s e)
    (hstep : RubyIo.step s e = some s') : Registered s' := by
  cases e with
  | drop i =>
    obtain ⟨io, hget, rfl⟩ := step_drop hstep
    exact h.drop hget (hC io hget)
  | newWithInterest value env =>
    cases step_newWithInterest hstep with
    | failed => exact h
    | file _ hio => exact h.file hio
    | @rejected fd e reactor hregisters hstd =>
      obtain ⟨hclosed, -, rfl⟩ | ⟨hopen, hregistered, -⟩ |
          ⟨-, hregistered, ⟨e, -, -, rfl⟩ | ⟨-, hok, -⟩⟩ := Reactor.fromStd_cases hstd
      . apply h.rejected (by simp)
        by_contra hregistered
        rw [h.isOpen fd (by simpa using hregistered)] at hclosed
        contradiction
      . rw [hC fd hregisters hopen] at hregistered
        contradiction
      . exact h.rejected (by simp) hregistered
      . contradiction
    | socket hregisters hstd hio =>
      obtain ⟨-, hbad, -⟩ | ⟨-, -, hbad, -⟩ |
          ⟨-, hregistered, ⟨e, -, hbad, -⟩ | ⟨-, -, rfl⟩⟩ := Reactor.fromStd_cases hstd
      . contradiction
      . contradiction
      . contradiction
      . exact h.socket hregistered hio

theorem registersOnce (h : Registered s) {e : Event} (hstep : RubyIo.step s e = some s')
    (howned : RegistrationsOwned s') : RegistersOnce s e := by
  cases e with
  | drop i =>
    intro io hget
    obtain ⟨io', hget', rfl⟩ := step_drop hstep
    obtain ⟨l₁, l₂, hlive, herase⟩ := eraseIdx_of_getElem? hget
    cases hio : io.socketFd with
    | none => rfl
    | some fd =>
      have hregistered := (h.owned.owned fd).mpr ⟨io, by simp [hlive], hio⟩
      obtain ⟨other, hmem, hother⟩ := (howned.owned fd).mp hregistered
      rw [herase] at hmem
      have hunique := h.unique
      rw [hlive, List.filterMap_append, List.filterMap_cons_some hio, List.nodup_middle,
        ← List.filterMap_append] at hunique
      exact absurd (List.mem_filterMap.mpr ⟨other, hmem, hother⟩) (List.nodup_cons.mp hunique).1
  | newWithInterest value env =>
    intro fd hregisters hopen
    cases step_newWithInterest hstep with
    | failed hnone | file hnone => exact absurd hregisters (hnone fd)
    | rejected hregisters' hstd =>
      cases hregisters.unique hregisters'
      obtain ⟨hclosed, -⟩ | ⟨-, -, -, rfl⟩ | ⟨-, hregistered, -⟩ := Reactor.fromStd_cases hstd
      . rw [hopen] at hclosed
        contradiction
      . exact absurd (.head _) (howned.conflictFree fd)
      . exact hregistered
    | socket hregisters' hstd =>
      cases hregisters.unique hregisters'
      obtain ⟨-, hbad, -⟩ | ⟨-, -, hbad, -⟩ | ⟨-, hregistered, -⟩ := Reactor.fromStd_cases hstd
      . contradiction
      . contradiction
      . exact hregistered

end Registered

/--
The registrations are those of the live sockets and never in the way of another call throughout a run,
if and only if every socket is registered once and the `RubyIo` that did it is not dropped.
-/
theorem registrations_owned_iff (isOpen : RawFd → Bool) (es : List Event)
    : Lts.Always step RegistrationsOwned (.new isOpen) es ↔
      Lts.Along step RegistersOnce (.new isOpen) es := by
  apply Lts.always_iff_along (J := Registered)
  . intro s e s' h hC hstep
    exact h.step hC hstep
  . intro s h
    exact h.owned
  . intro s e s' h hstep howned
    exact h.registersOnce hstep howned
  . exact .new isOpen

theorem registrations_not_owned
    : ¬ ∀ (isOpen : RawFd → Bool) (es : List Event),
        Lts.Always step RegistrationsOwned (.new isOpen) es := by
  intro hall
  let socket : Value := .object "TCPSocket" 0
  let env : NewEnv := { tryConvert := .ok socket, fileno := .ok 7 }
  have hrun : (Lts.run step (.new (· = 7)) [.newWithInterest socket env, .drop 0,
      .newWithInterest socket env]).any fun s => (7, .alreadyAdded) ∈ s.reactor.log := by
    decide
  refine Lts.not_always_of_run hrun ?_ (hall (· = 7) _)
  intro s hs howned
  exact howned.conflictFree 7 (of_decide_eq_true hs)

end RubyIo
end Shreduler
