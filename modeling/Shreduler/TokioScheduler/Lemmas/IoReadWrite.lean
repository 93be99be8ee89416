import Mathlib.Data.List.Nodup
import Mathlib.Data.List.TakeDrop
import Shreduler.Lts.Basic
import Shreduler.RubyIo.Lemmas.RubyIo
import Shreduler.TokioScheduler.Impl.IoReadWrite

/-!
This module proves when the calls of `io_read` report the bytes of a stream without a gap.
-/

namespace Shreduler
namespace IoRead

def Return.reported (r : Return) : List Byte :=
  match r.result with
  | .ok n => r.buffer.take n.toNat
  | .error _ => []

def Call.holds (call : Call) (bytes : List Byte) : List Byte :=
  match call.phase with
  | .created | .reading _ => bytes
  | .returned result => Return.reported ⟨result, call.buffer⟩
  | .dropped => []

def State.holds (s : State) (waiting : List Nat) (r : Nat × List Byte) : List Byte :=
  if r.1 ∈ waiting then
    match s.calls[r.1]? with
    | some call => call.holds r.2
    | none => []
  else
    []

/-- The bytes that are on their way to the waiting calls, in the order in which they were read. -/
def State.held (s : State) (waiting : List Nat) : List Byte := s.reads.flatMap (s.holds waiting)

def Ruby.State.reported (s : Ruby.State) : List Byte := s.returns.flatMap Return.reported

/--
The reported bytes are a prefix of the stream and the next call continues right after it: what is
neither reported nor on its way to Ruby is still in the stream.
-/
structure StreamKept (stream : List Byte) (s : Ruby.State) : Prop where
  reported_prefix : s.reported <+: stream
  next : s.waiting = [] → s.reported ++ s.io.unread = stream
  kept : s.reported ++ s.io.held s.waiting ++ s.io.unread = stream

def Gets (io : Io) (s : State) (call : Call) (env : ReadEnv) (bytes : List Byte) : Prop :=
  match io.backing with
  | .socket =>
    (call.phase = .created → call.prepare env = .ok ()) ∧
      ∃ n, env.read = .data n ∧ bytes = s.unread.take n
  | .file => call.phase = .reading (.finished (.ok bytes))

/-- If `RubyIo::new_with_interest` gets as far as to register a socket, it succeeds. -/
def KeepsOpen (io : Io) (s : State) (env : NewEnv) : Prop :=
  io.backing = .socket → (∃ v, env.tryConvert = .ok v) → (∃ fd, env.fileno = .ok fd) →
    (s.reactor.fds io.fileno).registered = false ∧ env.refused = none

/--
The descriptor stays open while there are bytes to be read. A waiting call gets no more of them than it
asks for, all others get none.
-/
def KeepsBytes (io : Io) (waiting : List Nat) (s : State) : Event → Prop
  | .ioRead _ _ _ env | .newWithInterest env => s.unread = [] ∨ KeepsOpen io s env
  | .poll i env =>
    ∀ call bytes, s.calls[i]? = some call → Gets io s call env bytes →
      if i ∈ waiting then bytes.length ≤ call.amountToRead else io.backing = .socket → bytes = []
  | .work i (.data n) => i ∈ waiting ∨ n = 0
  | .orphan _ (.data n) => n = 0
  | .work _ _ | .orphan _ _ => True
  | .drop i =>
    ∀ call bytes, s.calls[i]? = some call → call.phase = .reading (.finished (.ok bytes)) →
      i ∈ waiting → bytes = []

/-- What the call reports, before what the others hold, is what all of them held. -/
def Reports (s : Ruby.State) (i : Nat) (r : Return) : Prop :=
  r.reported ++ s.io.held (s.waiting.erase i) = s.io.held s.waiting

def KeepsStream (io : Io) (s : Ruby.State) : Ruby.Event → Prop
  | .io e => KeepsBytes io s.waiting s.io e
  | .deliver i =>
    ∀ call result, s.io.calls[i]? = some call → call.phase = .returned result →
      Reports s i ⟨result, call.buffer⟩
  | .leave i result => ∀ call, s.io.calls[i]? = some call → Reports s i ⟨result, call.buffer⟩

/-! ### The conditions on a run are decidable -/

def Call.finished (call : Call) : Option (List Byte) :=
  match call.phase with
  | .reading (.finished (.ok bytes)) => some bytes
  | _ => none

theorem finished_iff {call : Call} {bytes : List Byte}
    : call.phase = .reading (.finished (.ok bytes)) ↔ call.finished = some bytes := by
  unfold Call.finished
  split <;> simp_all

def Call.got (call : Call) (io : Io) (s : State) (env : ReadEnv) : Option (List Byte) :=
  match io.backing with
  | .socket =>
    match env.read with
    | .data n =>
      if call.phase = .created → call.prepare env = .ok () then some (s.unread.take n) else none
    | .wouldBlock | .error _ => none
  | .file => call.finished

theorem gets_iff {io : Io} {s : State} {call : Call} {env : ReadEnv} {bytes : List Byte}
    : Gets io s call env bytes ↔ call.got io s env = some bytes := by
  unfold Gets Call.got
  cases io.backing with
  | socket =>
    cases env.read with
    | data n =>
      simp only [OsRead.data.injEq, exists_eq_left', Option.ite_none_right_eq_some, Option.some.injEq]
      rw [eq_comm (a := bytes)]
    | wouldBlock | error => simp
  | file => exact finished_iff

instance {α : Type} (r : Result α) : Decidable (∃ a, r = .ok a) :=
  match r with
  | .ok a => isTrue ⟨a, rfl⟩
  | .error _ => isFalse (by simp)

instance (io : Io) (s : State) (env : NewEnv) : Decidable (KeepsOpen io s env) :=
  inferInstanceAs (Decidable (_ → _ → _ → _ ∧ _))

theorem forall_iff_mem {α β : Type} {o : Option α} {Q : α → β → Prop} {f : α → Option β}
    {P : α → β → Prop} (hQ : ∀ a b, Q a b ↔ f a = some b)
    : (∀ a ∈ o, ∀ b ∈ f a, P a b) ↔ ∀ a b, o = some a → Q a b → P a b := by
  simp only [Option.mem_def, hQ]
  exact ⟨fun h a b ha hb => h a ha b hb, fun h a ha b hb => h a b ha hb⟩

instance (io : Io) (waiting : List Nat) (s : State) (e : Event)
    : Decidable (KeepsBytes io waiting s e) :=
  match e with
  | .ioRead _ _ _ env | .newWithInterest env =>
    inferInstanceAs (Decidable (s.unread = [] ∨ KeepsOpen io s env))
  | .poll i _ => decidable_of_iff _ (forall_iff_mem (o := s.calls[i]?) fun _ _ => gets_iff)
  | .work i (.data n) => inferInstanceAs (Decidable (i ∈ waiting ∨ n = 0))
  | .orphan _ (.data n) => inferInstanceAs (Decidable (n = 0))
  | .work _ .wouldBlock | .work _ (.error _) | .orphan _ .wouldBlock | .orphan _ (.error _) =>
    isTrue trivial
  | .drop i => decidable_of_iff _ (forall_iff_mem (o := s.calls[i]?) fun _ _ => finished_iff)

/-! ### The bytes of a call -/

theorem handOut_eq_self {amount : Nat} {bytes : List Byte}
    : handOut amount bytes = bytes ↔ bytes.length ≤ amount :=
  List.take_eq_self_iff bytes

theorem reported_returned_ok (call : Call) (bytes : List Byte)
    : (call.returned (.ok bytes)).reported = handOut call.amountToRead bytes := by
  simp [Call.returned, Return.reported]

theorem reported_returned_error (call : Call) (e : IoError)
    : (call.returned (.error e)).reported = [] := by
  simp [Call.returned, Return.reported]

variable {io : Io} {s s' : State}

/-! ### The descriptor -/

theorem Io.isSocket_iff (io : Io) : io.value.isSocket ↔ io.backing = .socket := by
  obtain ⟨value, fileno, backing, hclassname⟩ := io
  cases backing with
  | socket =>
    simp only [Backing.classnames, List.mem_cons, List.not_mem_nil, or_false] at hclassname
    rcases hclassname with h | h | h | h <;> simp [Value.isSocket, h]
  | file =>
    simp only [Backing.classnames, List.mem_cons, List.not_mem_nil, or_false] at hclassname
    rcases hclassname with h | h <;> simp [Value.isSocket, h]

theorem registers_iff {env : NewEnv} {fd : RawFd}
    : RubyIo.Registers io.value (io.newEnv env) fd ↔
        fd = io.fileno ∧ io.backing = .socket ∧ (∃ v, env.tryConvert = .ok v) ∧
          ∃ fd, env.fileno = .ok fd := by
  unfold RubyIo.Registers Io.newEnv
  rw [io.isSocket_iff]
  cases hfileno : env.fileno with
  | error e => simp [Except.map]
  | ok fd' =>
    simp only [Except.map, Except.ok.injEq]
    constructor
    . rintro ⟨hconvert, rfl, hsocket⟩
      exact ⟨rfl, hsocket, hconvert, fd', rfl⟩
    . rintro ⟨rfl, hsocket, hconvert, -⟩
      exact ⟨hconvert, rfl, hsocket⟩

theorem isOpen_of_newWithInterest {r : Reactor} {env : NewEnv} {value : Value} {fd : RawFd}
    (h : ((RubyIo.newWithInterest r env value).2.fds fd).isOpen) : (r.fds fd).isOpen := by
  have hopened := RubyIo.newWithInterest_opened r env value
  generalize RubyIo.newWithInterest r env value = made at h hopened
  have hclose {r' : Reactor} {fd' : RawFd} (hfds : r'.fds = r.fds)
      (h : ((r'.close fd').fds fd).isOpen) : (r.fds fd).isOpen := by
    rw [RubyIo.isOpen_close, hfds] at h
    split at h
    . contradiction
    . exact h
  cases hopened with
  | failed | file => exact h
  | rejected _ hstd =>
    obtain ⟨-, -, rfl⟩ | ⟨-, -, -, rfl⟩ | ⟨-, -, ⟨e, -, -, rfl⟩ | ⟨-, hok, -⟩⟩ :=
      Reactor.fromStd_cases hstd
    . exact hclose rfl h
    . exact hclose rfl h
    . exact hclose rfl h
    . contradiction
  | @socket fd' reactor backingIo _ hstd =>
    obtain ⟨-, hbad, -⟩ | ⟨-, -, hbad, -⟩ | ⟨hopen, -, ⟨e, -, hbad, -⟩ | ⟨-, -, rfl⟩⟩ :=
      Reactor.fromStd_cases hstd
    . contradiction
    . contradiction
    . contradiction
    . by_cases heq : fd = fd'
      . exact heq ▸ hopen
      . simpa [Function.update_of_ne heq] using h

theorem newWithInterest_spec (io : Io) (s : State) (env : NewEnv)
    : ∃ reactor, (s.newWithInterest io env).2
          = { s with reactor, unread := if (reactor.fds io.fileno).isOpen then s.unread else [] } ∧
        ((s.reactor.fds io.fileno).isOpen →
          ((reactor.fds io.fileno).isOpen ↔ KeepsOpen io s env)) ∧
        ((reactor.fds io.fileno).isOpen → (s.reactor.fds io.fileno).isOpen) := by
  refine ⟨(RubyIo.newWithInterest s.reactor (io.newEnv env) io.value).2, rfl, ?_,
    isOpen_of_newWithInterest⟩
  intro hopen
  have hregisters {fd : RawFd} := @registers_iff io env fd
  have hopened := RubyIo.newWithInterest_opened s.reactor (io.newEnv env) io.value
  have hrefused' : (io.newEnv env).refused = env.refused := rfl
  generalize RubyIo.newWithInterest s.reactor (io.newEnv env) io.value = made at hopened ⊢
  cases hopened with
  | failed e hnot =>
    refine iff_of_true hopen ?_
    intro hsocket hconvert hfileno
    exact absurd (hregisters.mpr ⟨rfl, hsocket, hconvert, hfileno⟩).usable hnot
  | file fd husable hnone =>
    refine iff_of_true hopen ?_
    intro hsocket hconvert hfileno
    exact absurd (hregisters.mpr ⟨rfl, hsocket, hconvert, hfileno⟩) (hnone _)
  | @rejected fd e e' reactor h hstd =>
    obtain ⟨rfl, hsocket, hconvert, hfileno⟩ := hregisters.mp h
    obtain ⟨hclosed, -⟩ | ⟨-, hregistered, -, rfl⟩ | ⟨-, -, ⟨e, hrefused, -, rfl⟩ | ⟨-, hok, -⟩⟩ :=
      Reactor.fromStd_cases hstd
    . rw [hopen] at hclosed
      contradiction
    . refine iff_of_false (by simp [Reactor.close]) ?_
      intro hkeeps
      rw [(hkeeps hsocket hconvert hfileno).1] at hregistered
      contradiction
    . refine iff_of_false (by simp [Reactor.close]) ?_
      intro hkeeps
      rw [hrefused', (hkeeps hsocket hconvert hfileno).2] at hrefused
      contradiction
    . contradiction
  | @socket fd reactor backingIo h hstd =>
    obtain ⟨rfl, hsocket, hconvert, hfileno⟩ := hregisters.mp h
    obtain ⟨-, hbad, -⟩ | ⟨-, -, hbad, -⟩ | ⟨-, hregistered, ⟨e, -, hbad, -⟩ | ⟨hrefused, -, rfl⟩⟩ :=
      Reactor.fromStd_cases hstd
    . contradiction
    . contradiction
    . contradiction
    . exact iff_of_true (by simp) fun _ _ _ => ⟨hregistered, hrefused⟩

/-! ### What a step does -/

def Call.Live (call : Call) : Prop :=
  match call.phase with
  | .created | .reading _ => True
  | .returned _ | .dropped => False

def ReadReturns (io : Io) (s : State) (call : Call) (env : ReadEnv)
    (result : Except IoError (List Byte)) : Prop :=
  match io.backing with
  | .socket =>
    (call.phase = .created → call.prepare env = .ok ()) ∧
      match env.read with
      | .data n => result = .ok (s.unread.take n)
      | .wouldBlock => False
      | .error e => result = .error e
  | .file => call.phase = .reading (.finished result)

def afterRead (io : Io) (s : State) (i : Nat) (env : ReadEnv) : State :=
  match io.backing with
  | .socket =>
    match env.read with
    | .data n => s.take i n
    | .wouldBlock | .error _ => s
  | .file => s

inductive PollOutcome (io : Io) (s : State) (i : Nat) (call : Call) (env : ReadEnv) : State → Prop
  | raises (error : Error) (worker : Option Nat)
    (hnone : ∀ result, ¬ ReadReturns io s call env result)
    : PollOutcome io s i call env
        ({ s with orphans := s.orphans ++ (worker.map (i, ·)).toList }.finish i call
          ⟨.error error, call.buffer⟩)
  | pends (file : FileState) (hfile : ∀ result, file ≠ .finished result)
    (hbusy : ∀ length, file = .busy length → io.backing = .file)
    (hnone : ∀ result, ¬ ReadReturns io s call env result)
    (hprepare : call.phase = .created → call.prepare env = .ok ())
    : PollOutcome io s i call env (s.setCall i { call with phase := .reading file })
  | returns {result : Except IoError (List Byte)} (hreturns : ReadReturns io s call env result)
    (hprepare : call.phase = .created → call.prepare env = .ok ())
    : PollOutcome io s i call env ((afterRead io s i env).finish i call (call.returned result))

inductive WorkOutcome (s : State) (i : Nat)
    : OsRead → Except IoError (List Byte) → State → Prop
  | reads (n : Nat) (hle : n ≤ s.unread.length)
    : WorkOutcome s i (.data n) (.ok (s.unread.take n)) (s.take i n)
  | fails {read : OsRead} (e : IoError) (hread : ∀ n, read ≠ .data n)
    : WorkOutcome s i read (.error e) s

inductive Outcome (io : Io) (s : State) : Event → State → Prop
  | refused {buffer : List Byte} {minimumLengthToRead : Nat} {timeout : Duration} {env : NewEnv}
    : Outcome io s (.ioRead buffer minimumLengthToRead timeout env) (s.newWithInterest io env).2
  | ioRead {buffer : List Byte} {minimumLengthToRead : Nat} {timeout : Duration} {env : NewEnv}
    (timeout' : Option Duration)
    : Outcome io s (.ioRead buffer minimumLengthToRead timeout env)
        { (s.newWithInterest io env).2 with
          calls := s.calls ++ [{ buffer, minimumLengthToRead, timeout := timeout', phase := .created }]
        }
  | newWithInterest {env : NewEnv} : Outcome io s (.newWithInterest env) (s.newWithInterest io env).2
  | poll {i : Nat} {env : ReadEnv} {call : Call} {s' : State} (hcall : s.calls[i]? = some call)
    (hlive : call.Live) (hpoll : PollOutcome io s i call env s') : Outcome io s (.poll i env) s'
  | work {i length : Nat} {read : OsRead} {call : Call} {result : Except IoError (List Byte)}
    {s' : State} (hcall : s.calls[i]? = some call) (hphase : call.phase = .reading (.busy length))
    (hwork : WorkOutcome s i read result s')
    : Outcome io s (.work i read) (s'.setCall i { call with phase := .reading (.finished result) })
  | orphan {k i length : Nat} {read : OsRead} {result : Except IoError (List Byte)} {s' : State}
    (horphan : s.orphans[k]? = some (i, length)) (hwork : WorkOutcome s i read result s')
    : Outcome io s (.orphan k read) { s' with orphans := s'.orphans.eraseIdx k }
  | drop {i : Nat} {call : Call} (worker : Option Nat) (hcall : s.calls[i]? = some call)
    (hlive : call.Live) (hworker : worker.isSome → ∃ length, call.phase = .reading (.busy length))
    : Outcome io s (.drop i)
        ({ s with orphans := s.orphans ++ (worker.map (i, ·)).toList }.setCall i
          { call with phase := .dropped })

section Poll

variable {i : Nat} {call : Call} {env : ReadEnv}

theorem readReturns_ok_iff {bytes : List Byte}
    : ReadReturns io s call env (.ok bytes) ↔ Gets io s call env bytes := by
  unfold ReadReturns Gets
  split
  . cases env.read <;> simp
  . exact Iff.rfl

theorem ReadReturns.unique {result result' : Except IoError (List Byte)}
    (h : ReadReturns io s call env result) (h' : ReadReturns io s call env result')
    : result = result' := by
  unfold ReadReturns at h h'
  cases hbacking : io.backing with
  | socket =>
    rw [hbacking] at h h'
    have hread := h.2
    have hread' := h'.2
    cases henv : env.read with
    | data n =>
      rw [henv] at hread hread'
      exact hread.trans hread'.symm
    | wouldBlock =>
      rw [henv] at hread
      contradiction
    | error e =>
      rw [henv] at hread hread'
      exact hread.trans hread'.symm
  | file =>
    rw [hbacking] at h h'
    cases (show call.phase = _ from h).symm.trans h'
    rfl

theorem Gets.unique {bytes bytes' : List Byte} (h : Gets io s call env bytes)
    (h' : Gets io s call env bytes') : bytes = bytes' :=
  Except.ok.inj ((readReturns_ok_iff.mpr h).unique (readReturns_ok_iff.mpr h'))

theorem ReadReturns.afterRead_of_error {e : IoError} (h : ReadReturns io s call env (.error e))
    (i : Nat) : afterRead io s i env = s := by
  unfold ReadReturns at h
  unfold afterRead
  split at h
  . have hread := h.2
    cases henv : env.read with
    | data n =>
      rw [henv] at hread
      contradiction
    | wouldBlock | error => rfl
  . rfl

theorem pending_outcome {file : FileState} (hfile : ∀ result, file ≠ .finished result)
    (hbusy : ∀ length, file = .busy length → io.backing = .file)
    (hnone : ∀ result, ¬ ReadReturns io s call env result)
    (hprepare : call.phase = .created → call.prepare env = .ok ())
    : PollOutcome io s i call env (s.pending i { call with phase := .reading file } env) := by
  unfold State.pending
  split
  . split
    . exact .raises _ ({ call with phase := .reading file } : Call).worker hnone
    . exact .pends file hfile hbusy hnone hprepare
  . exact .pends file hfile hbusy hnone hprepare

theorem pollSocket_outcome (hbacking : io.backing = .socket)
    (hprepare : call.phase = .created → call.prepare env = .ok ())
    (h : s.pollSocket io i call env = some s') : PollOutcome io s i call env s' := by
  unfold State.pollSocket at h
  split at h
  . next n hread =>
    rw [Option.ite_none_right_eq_some, Option.some.injEq] at h
    obtain ⟨-, rfl⟩ := h
    have hreturns : ReadReturns io s call env (.ok (s.unread.take n)) := by
      unfold ReadReturns
      rw [hbacking]
      exact ⟨hprepare, by rw [hread]⟩
    have houtcome : PollOutcome io s i call env _ := .returns hreturns hprepare
    simpa only [afterRead, hbacking, hread] using houtcome
  . next hread =>
    obtain rfl := Option.some.inj h
    exact pending_outcome (by simp) (by simp) (by simp [ReadReturns, hbacking, hread]) hprepare
  . next e hread =>
    obtain rfl := Option.some.inj h
    have hreturns : ReadReturns io s call env (.error e) := by
      unfold ReadReturns
      rw [hbacking]
      exact ⟨hprepare, by rw [hread]⟩
    have houtcome : PollOutcome io s i call env _ := .returns hreturns hprepare
    simpa only [afterRead, hbacking, hread] using houtcome

theorem pollFile_outcome {file : FileState} (hbacking : io.backing = .file)
    (hphase : call.phase = .reading file ∨ call.phase = .created ∧ file = .idle)
    (hprepare : call.phase = .created → call.prepare env = .ok ())
    : PollOutcome io s i call env (s.pollFile i call file env) := by
  have hnone (hfile : ∀ result, file ≠ .finished result) (result : Except IoError (List Byte))
      : ¬ ReadReturns io s call env result := by
    intro hreturns
    unfold ReadReturns at hreturns
    rw [hbacking] at hreturns
    rw [show call.phase = _ from hreturns] at hphase
    simp [eq_comm, hfile] at hphase
  cases file with
  | idle | busy =>
    exact pending_outcome (by simp) (by simp [hbacking]) (hnone (by simp)) hprepare
  | finished result =>
    have hreturns : ReadReturns io s call env result := by
      unfold ReadReturns
      rw [hbacking]
      simpa using hphase
    have houtcome : PollOutcome io s i call env _ := .returns hreturns hprepare
    simpa only [State.pollFile, afterRead, hbacking] using houtcome

theorem pollCall_outcome (hpoll : s.pollCall io i call env = some s')
    : call.Live ∧ PollOutcome io s i call env s' := by
  unfold State.pollCall at hpoll
  cases hphase : call.phase with
  | created =>
    refine ⟨by simp [Call.Live, hphase], ?_⟩
    simp only [hphase] at hpoll
    cases hprepare : call.prepare env with
    | error e =>
      simp only [hprepare, Option.some.injEq] at hpoll
      subst hpoll
      have hnone (result : Except IoError (List Byte)) : ¬ ReadReturns io s call env result := by
        intro hreturns
        unfold ReadReturns at hreturns
        split at hreturns
        . rw [hreturns.1 hphase] at hprepare
          contradiction
        . simp [hphase] at hreturns
      have houtcome : PollOutcome io s i call env _ := .raises e none hnone
      simpa using houtcome
    | ok _ =>
      simp only [hprepare] at hpoll
      cases hbacking : io.backing with
      | socket =>
        simp only [hbacking] at hpoll
        exact pollSocket_outcome hbacking (fun _ => hprepare) hpoll
      | file =>
        simp only [hbacking] at hpoll
        obtain rfl := Option.some.inj hpoll
        exact pollFile_outcome hbacking (.inr ⟨hphase, rfl⟩) (fun _ => hprepare)
  | reading file =>
    refine ⟨by simp [Call.Live, hphase], ?_⟩
    simp only [hphase] at hpoll
    cases hbacking : io.backing with
    | socket =>
      simp only [hbacking] at hpoll
      exact pollSocket_outcome hbacking (by simp [hphase]) hpoll
    | file =>
      simp only [hbacking] at hpoll
      obtain rfl := Option.some.inj hpoll
      exact pollFile_outcome hbacking (.inl hphase) (by simp [hphase])
  | returned result | dropped => simp [hphase] at hpoll

end Poll

theorem work_outcome {i length : Nat} {read : OsRead} {result : Except IoError (List Byte)}
    (h : s.work io i length read = some (result, s')) : WorkOutcome s i read result s' := by
  unfold State.work at h
  split at h
  . next n =>
    simp only [Option.ite_none_right_eq_some, Option.some.injEq, Prod.mk.injEq] at h
    obtain ⟨⟨-, -, hle, -⟩, rfl, rfl⟩ := h
    exact .reads n hle
  . simp only [Option.some.injEq, Prod.mk.injEq] at h
    obtain ⟨rfl, rfl⟩ := h
    exact .fails eagain (by simp)
  . next e =>
    simp only [Option.some.injEq, Prod.mk.injEq] at h
    obtain ⟨rfl, rfl⟩ := h
    exact .fails e (by simp)

theorem calls_newWithInterest (io : Io) (s : State) (env : NewEnv)
    : (s.newWithInterest io env).2.calls = s.calls := by
  obtain ⟨reactor, heq, -⟩ := newWithInterest_spec io s env
  rw [heq]

theorem calls_afterRead (io : Io) (s : State) (i : Nat) (env : ReadEnv)
    : (afterRead io s i env).calls = s.calls := by
  unfold afterRead
  split
  . split <;> rfl
  . rfl

theorem WorkOutcome.calls {i : Nat} {read : OsRead} {result : Except IoError (List Byte)}
    (h : WorkOutcome s i read result s') : s'.calls = s.calls := by
  cases h <;> rfl

theorem drop_outcome {i : Nat} {call : Call} (hcall : s.calls[i]? = some call)
    (h : s.drop i call = some s') : Outcome io s (.drop i) s' := by
  have hworker : call.worker.isSome → ∃ length, call.phase = .reading (.busy length) := by
    unfold Call.worker
    split
    . next length hphase => exact fun _ => ⟨length, hphase⟩
    . simp
  unfold State.drop at h
  split at h
  . next hphase =>
    obtain rfl := Option.some.inj h
    exact .drop call.worker hcall (by simp [Call.Live, hphase]) hworker
  . next file hphase =>
    obtain rfl := Option.some.inj h
    exact .drop call.worker hcall (by simp [Call.Live, hphase]) hworker
  . contradiction
  . contradiction

theorem step_outcome {e : Event} (h : step io s e = some s') : Outcome io s e s' := by
  cases e with
  | ioRead buffer minimumLengthToRead timeout env =>
    simp only [step] at h
    split at h
    . next s₁ heq =>
      obtain rfl := Option.some.inj h
      have hs₁ : s₁ = (s.newWithInterest io env).2 := by rw [heq]
      exact hs₁ ▸ .refused
    . next s₁ heq =>
      obtain rfl := Option.some.inj h
      obtain rfl : s₁ = (s.newWithInterest io env).2 := by rw [heq]
      rw [calls_newWithInterest]
      exact .ioRead _
  | newWithInterest env =>
    obtain rfl := Option.some.inj h
    exact .newWithInterest
  | poll i env =>
    obtain ⟨call, hcall, hpoll⟩ := Option.bind_eq_some_iff.mp h
    obtain ⟨hlive, houtcome⟩ := pollCall_outcome hpoll
    exact .poll hcall hlive houtcome
  | work i read =>
    simp only [step] at h
    split at h
    . next call hcall =>
      split at h
      . next length hphase =>
        split at h
        . next result s₁ hwork =>
          obtain rfl := Option.some.inj h
          exact .work hcall hphase (work_outcome hwork)
        . contradiction
      . contradiction
    . contradiction
  | orphan k read =>
    simp only [step] at h
    split at h
    . next i length horphan =>
      split at h
      . next result s₁ hwork =>
        obtain rfl := Option.some.inj h
        exact .orphan horphan (work_outcome hwork)
      . contradiction
    . contradiction
  | drop i =>
    obtain ⟨call, hcall, hdrop⟩ := Option.bind_eq_some_iff.mp h
    exact drop_outcome hcall hdrop

/-! ### The invariant -/

def Unread (reads : List (Nat × List Byte)) (i : Nat) : Prop := ∀ r ∈ reads, r.1 ≠ i

def Call.Sound (io : Io) (reads : List (Nat × List Byte)) (i : Nat) (call : Call) : Prop :=
  match call.phase with
  | .created | .reading .idle => Unread reads i
  | .reading (.busy _) | .reading (.finished (.error _)) => io.backing = .file ∧ Unread reads i
  | .reading (.finished (.ok bytes)) => io.backing = .file ∧ (i, bytes) ∈ reads
  | .returned result =>
    Return.reported ⟨result, call.buffer⟩ = [] ∨
      ∃ bytes, (i, bytes) ∈ reads ∧ Return.reported ⟨result, call.buffer⟩ <+: bytes
  | .dropped => True

def Call.Gone (call : Call) : Prop := ¬ call.Live ∧ ∀ bytes, call.holds bytes = []

structure Sane (io : Io) (s : State) : Prop where
  owner : ∀ r ∈ s.reads, r.1 < s.calls.length
  nodup : (s.reads.map (·.1)).Nodup
  sound : ∀ i (call : Call), s.calls[i]? = some call → call.Sound io s.reads i
  orphan : ∀ o ∈ s.orphans, Unread s.reads o.1 ∧ ∃ call : Call, s.calls[o.1]? = some call ∧ call.Gone
  orphan_nodup : (s.orphans.map (·.1)).Nodup
  closed : (s.reactor.fds io.fileno).isOpen = false → s.unread = []

section Sound

variable {i j : Nat} {call : Call} {env : ReadEnv} {reads : List (Nat × List Byte)}

theorem Unread.append (h : Unread reads j) (hne : i ≠ j) (bytes : List Byte)
    : Unread (reads ++ [(i, bytes)]) j := by
  intro r hr
  cases List.mem_append.mp hr with
  | inl hr => exact h r hr
  | inr hr => exact List.mem_singleton.mp hr ▸ hne

theorem Call.Sound.append (h : call.Sound io reads j) (hne : i ≠ j) (bytes : List Byte)
    : call.Sound io (reads ++ [(i, bytes)]) j := by
  unfold Sound at h ⊢
  split at h
  . exact h.append hne bytes
  . exact h.append hne bytes
  . exact ⟨h.1, h.2.append hne bytes⟩
  . exact ⟨h.1, h.2.append hne bytes⟩
  . exact ⟨h.1, List.mem_append_left _ h.2⟩
  . exact h.imp_right fun ⟨bytes, hmem, hprefix⟩ => ⟨bytes, List.mem_append_left _ hmem, hprefix⟩
  . trivial

theorem Call.Sound.of_finished (h : call.Sound io reads i) {bytes : List Byte}
    (hphase : call.phase = .reading (.finished (.ok bytes)))
    : io.backing = .file ∧ (i, bytes) ∈ reads := by
  simpa only [Sound, hphase] using h

theorem Call.Sound.of_failed (h : call.Sound io reads i) {e : IoError}
    (hphase : call.phase = .reading (.finished (.error e))) : io.backing = .file ∧ Unread reads i := by
  simpa only [Sound, hphase] using h

theorem Call.Sound.of_busy (h : call.Sound io reads i) {length : Nat}
    (hphase : call.phase = .reading (.busy length)) : io.backing = .file ∧ Unread reads i := by
  simpa only [Sound, hphase] using h

theorem Call.Sound.of_returned (h : call.Sound io reads i) {result : Result Int}
    (hphase : call.phase = .returned result)
    : Return.reported ⟨result, call.buffer⟩ = [] ∨
        ∃ bytes, (i, bytes) ∈ reads ∧ Return.reported ⟨result, call.buffer⟩ <+: bytes := by
  simpa only [Sound, hphase] using h

theorem Call.Sound.unread (h : call.Sound io reads i) (hlive : call.Live)
    (hnot : ∀ bytes, call.phase ≠ .reading (.finished (.ok bytes))) : Unread reads i := by
  unfold Sound at h
  split at h
  . exact h
  . exact h
  . exact h.2
  . exact h.2
  . next bytes hphase => exact absurd hphase (hnot bytes)
  . next hphase => simp [Live, hphase] at hlive
  . next hphase => simp [Live, hphase] at hlive

theorem Call.Sound.unread_of_socket (h : call.Sound io reads i) (hlive : call.Live)
    (hbacking : io.backing = .socket) : Unread reads i := by
  apply h.unread hlive
  intro bytes hphase
  rw [(h.of_finished hphase).1] at hbacking
  contradiction

theorem Call.Sound.unread_of_none (h : call.Sound io reads i) (hlive : call.Live)
    (hnone : ∀ result, ¬ ReadReturns io s call env result) : Unread reads i := by
  apply h.unread hlive
  intro bytes hphase
  apply hnone (.ok bytes)
  unfold ReadReturns
  rw [(h.of_finished hphase).1]
  exact hphase

theorem Call.Sound.unread_of_error (h : call.Sound io reads i) (hlive : call.Live) {e : IoError}
    (hreturns : ReadReturns io s call env (.error e)) : Unread reads i := by
  unfold ReadReturns at hreturns
  split at hreturns
  . next hbacking => exact h.unread_of_socket hlive hbacking
  . exact (h.of_failed hreturns).2

theorem Call.Gone.not_live (h : call.Gone) : ¬ call.Live := h.1

theorem Call.Gone.sound (h : call.Gone) : call.Sound io reads i := by
  obtain ⟨hlive, hholds⟩ := h
  cases hphase : call.phase with
  | created | reading => simp [Live, hphase] at hlive
  | returned result =>
    simp only [holds, hphase] at hholds
    simp only [Sound, hphase]
    exact .inl (hholds [])
  | dropped => simp only [Sound, hphase]

end Sound

theorem set_eq_self {i : Nat} {call : Call} (hcall : s.calls[i]? = some call)
    : s.calls.set i call = s.calls := by
  obtain ⟨hlt, rfl⟩ := List.getElem?_eq_some_iff.mp hcall
  exact List.set_getElem_self hlt

namespace Sane

variable {i : Nat} {call call' : Call}

theorem new (io : Io) (stream : List Byte) : Sane io (.new stream) where
  owner := by simp [State.new]
  nodup := List.nodup_nil
  sound i call hcall := by simp [State.new] at hcall
  orphan := by simp [State.new]
  orphan_nodup := List.nodup_nil
  closed := by simp [State.new]

theorem orphan_ne (h : Sane io s) (hcall : s.calls[i]? = some call) (hlive : call.Live)
    : ∀ o ∈ s.orphans, o.1 ≠ i := by
  rintro o ho rfl
  obtain ⟨-, gone, hgone, hnot⟩ := h.orphan o ho
  obtain rfl := Option.some.inj (hcall.symm.trans hgone)
  exact hnot.not_live hlive

theorem update (h : Sane io s) (new : List (Nat × List Byte)) (hcall : s.calls[i]? = some call)
    (hcalls : s'.calls = s.calls.set i call') (hreads : s'.reads = s.reads ++ new)
    (hnew : new = [] ∨ Unread s.reads i ∧ ∃ bytes, new = [(i, bytes)])
    (hsound : call'.Sound io s'.reads i)
    (horphan : ∀ o ∈ s'.orphans, o ∈ s.orphans ∧ o.1 ≠ i ∨ o.1 = i ∧ Unread s'.reads i ∧ call'.Gone)
    (hnodup : (s'.orphans.map (·.1)).Nodup)
    (hclosed : (s'.reactor.fds io.fileno).isOpen = false → s'.unread = []) : Sane io s' := by
  have hlt := (List.getElem?_eq_some_iff.mp hcall).1
  have hlength : s'.calls.length = s.calls.length := by rw [hcalls, List.length_set]
  have hself : s'.calls[i]? = some call' := by rw [hcalls, List.getElem?_set_self hlt]
  have hother {j : Nat} (hne : i ≠ j) : s'.calls[j]? = s.calls[j]? := by
    rw [hcalls, List.getElem?_set_ne hne]
  have hunread {j : Nat} (hne : i ≠ j) (hj : Unread s.reads j) : Unread s'.reads j := by
    rw [hreads]
    rcases hnew with rfl | ⟨-, bytes, rfl⟩
    . rwa [List.append_nil]
    . exact hj.append hne bytes
  refine ⟨?_, ?_, ?_, ?_, hnodup, hclosed⟩
  . intro r hr
    rw [hreads] at hr
    rw [hlength]
    rcases hnew with rfl | ⟨-, bytes, rfl⟩
    . exact h.owner r (by rwa [List.append_nil] at hr)
    . cases List.mem_append.mp hr with
      | inl hr => exact h.owner r hr
      | inr hr => exact List.mem_singleton.mp hr ▸ hlt
  . rw [hreads]
    rcases hnew with rfl | ⟨hi, bytes, rfl⟩
    . rw [List.append_nil]
      exact h.nodup
    . exact nodup_map_append_singleton h.nodup hi
  . intro j c hc
    by_cases heq : i = j
    . subst heq
      obtain rfl := Option.some.inj (hself.symm.trans hc)
      exact hsound
    . rw [hother heq] at hc
      have hj := h.sound j c hc
      rw [hreads]
      rcases hnew with rfl | ⟨-, bytes, rfl⟩
      . rwa [List.append_nil]
      . exact hj.append heq bytes
  . intro o ho
    rcases horphan o ho with ⟨hold, hne⟩ | ⟨rfl, hi, hgone⟩
    . obtain ⟨hj, c, hc, hgone⟩ := h.orphan o hold
      exact ⟨hunread (Ne.symm hne) hj, c, by rw [hother (Ne.symm hne), hc], hgone⟩
    . exact ⟨hi, call', hself, hgone⟩

theorem setCall (h : Sane io s) (hcall : s.calls[i]? = some call) (hlive : call.Live)
    (hsound : call'.Sound io s.reads i) : Sane io (s.setCall i call') :=
  h.update [] hcall rfl (List.append_nil _).symm (.inl rfl) hsound
    (fun o ho => .inl ⟨ho, h.orphan_ne hcall hlive o ho⟩) h.orphan_nodup h.closed

theorem leaveBehind (h : Sane io s) (hcall : s.calls[i]? = some call) (hlive : call.Live)
    (worker : Option Nat) (hworker : worker.isSome → Unread s.reads i ∧ call'.Gone)
    (hsound : call'.Sound io s.reads i)
    : Sane io ({ s with orphans := s.orphans ++ (worker.map (i, ·)).toList }.setCall i call') := by
  cases worker with
  | none => simpa using h.setCall hcall hlive hsound
  | some length =>
    obtain ⟨hunread, hgone⟩ := hworker rfl
    refine h.update [] hcall rfl (List.append_nil _).symm (.inl rfl) hsound ?_ ?_ h.closed
    . intro o ho
      cases List.mem_append.mp ho with
      | inl ho => exact .inl ⟨ho, h.orphan_ne hcall hlive o ho⟩
      | inr ho =>
        obtain rfl : o = (i, length) := by simpa using ho
        exact .inr ⟨rfl, hunread, hgone⟩
    . exact nodup_map_append_singleton h.orphan_nodup (h.orphan_ne hcall hlive)

theorem newWithInterest (h : Sane io s) (env : NewEnv) : Sane io (s.newWithInterest io env).2 := by
  obtain ⟨reactor, heq, -⟩ := newWithInterest_spec io s env
  rw [heq]
  refine ⟨h.owner, h.nodup, h.sound, h.orphan, h.orphan_nodup, ?_⟩
  intro hclosed
  dsimp only at hclosed ⊢
  rw [hclosed, if_neg Bool.false_ne_true]

theorem ioRead (h : Sane io s) (env : NewEnv) {call : Call} (hphase : call.phase = .created)
    : Sane io { (s.newWithInterest io env).2 with calls := s.calls ++ [call] } := by
  have hmade := h.newWithInterest env
  obtain ⟨reactor, heq, -⟩ := newWithInterest_spec io s env
  rw [heq] at hmade ⊢
  refine ⟨?_, h.nodup, ?_, ?_, h.orphan_nodup, hmade.closed⟩
  . intro r hr
    rw [List.length_append]
    exact Nat.lt_add_right _ (h.owner r hr)
  . intro i c hc
    dsimp only at hc ⊢
    rcases Nat.lt_or_ge i s.calls.length with hi | hi
    . rw [List.getElem?_append_left hi] at hc
      exact h.sound i c hc
    . rw [List.getElem?_append_right hi] at hc
      have hcall : c = call := by
        obtain ⟨_, hc⟩ := List.getElem?_eq_some_iff.mp hc
        simpa using hc.symm
      simp only [hcall, Call.Sound, hphase]
      intro r hr heq
      have hlt := h.owner r hr
      omega
  . intro o ho
    obtain ⟨hunread, c, hc, hgone⟩ := h.orphan o ho
    refine ⟨hunread, c, ?_, hgone⟩
    rw [List.getElem?_append_left (List.getElem?_eq_some_iff.mp hc).1, hc]

theorem sound_finish {reads : List (Nat × List Byte)} {r : Return}
    (h : r.reported = [] ∨ ∃ bytes, (i, bytes) ∈ reads ∧ r.reported <+: bytes)
    : ({ call with buffer := r.buffer, phase := .returned r.result } : Call).Sound io reads i := h

theorem take (h : Sane io s) (n : Nat) (hcall : s.calls[i]? = some call) (hunread : Unread s.reads i)
    (horphan : ∀ o ∈ s.orphans, o.1 ≠ i)
    (hsound : call'.Sound io (s.reads ++ [(i, s.unread.take n)]) i)
    : Sane io ((s.take i n).setCall i call') := by
  apply h.update _ hcall rfl rfl (.inr ⟨hunread, _, rfl⟩) hsound
  . exact fun o ho => .inl ⟨ho, horphan o ho⟩
  . exact h.orphan_nodup
  . intro hclosed
    simp only [State.setCall, State.take, h.closed hclosed, List.drop_nil]

theorem poll (h : Sane io s) {env : ReadEnv} (hcall : s.calls[i]? = some call) (hlive : call.Live)
    (hpoll : PollOutcome io s i call env s') : Sane io s' := by
  have hsound := h.sound i call hcall
  cases hpoll with
  | raises error worker hnone =>
    apply h.leaveBehind hcall hlive
    . intro _
      exact ⟨hsound.unread_of_none hlive hnone, by simp [Call.Gone, Call.Live, Call.holds, Return.reported]⟩
    . exact .inl rfl
  | pends file hfile hbusy hnone hprepare =>
    apply h.setCall hcall hlive
    have hunread := hsound.unread_of_none hlive hnone
    cases file with
    | idle => exact hunread
    | busy length => exact ⟨hbusy length rfl, hunread⟩
    | finished result => exact absurd rfl (hfile result)
  | @returns result hreturns hprepare =>
    cases result with
    | error e =>
      rw [hreturns.afterRead_of_error]
      apply h.setCall hcall hlive
      apply sound_finish
      exact .inl (reported_returned_error call e)
    | ok bytes =>
      have hreported : (call.returned (.ok bytes)).reported <+: bytes := by
        rw [reported_returned_ok]
        exact List.take_prefix _ _
      have hgets := readReturns_ok_iff.mp hreturns
      unfold Gets at hgets
      unfold afterRead
      split at hgets
      . next hbacking =>
        obtain ⟨-, n, hread, rfl⟩ := hgets
        simp only [hread]
        have hunread := hsound.unread_of_socket hlive hbacking
        apply h.take n hcall hunread (h.orphan_ne hcall hlive)
        apply sound_finish
        exact .inr ⟨_, List.mem_append_right _ (List.mem_singleton_self _), hreported⟩
      . apply h.setCall hcall hlive
        apply sound_finish
        exact .inr ⟨bytes, (hsound.of_finished hgets).2, hreported⟩

theorem work (h : Sane io s) {length : Nat} {read : OsRead} {result : Except IoError (List Byte)}
    (hcall : s.calls[i]? = some call) (hphase : call.phase = .reading (.busy length))
    (hwork : WorkOutcome s i read result s')
    : Sane io (s'.setCall i { call with phase := .reading (.finished result) }) := by
  have hlive : call.Live := by simp [Call.Live, hphase]
  obtain ⟨hbacking, hunread⟩ := (h.sound i call hcall).of_busy hphase
  cases hwork with
  | reads n hle =>
    apply h.take n hcall hunread (h.orphan_ne hcall hlive)
    exact ⟨hbacking, List.mem_append_right _ (List.mem_singleton_self _)⟩
  | fails e hread =>
    apply h.setCall hcall hlive
    exact ⟨hbacking, hunread⟩

theorem orphan_read (h : Sane io s) {k length : Nat} {read : OsRead}
    {result : Except IoError (List Byte)} (horphan : s.orphans[k]? = some (i, length))
    (hwork : WorkOutcome s i read result s')
    : Sane io { s' with orphans := s'.orphans.eraseIdx k } := by
  obtain ⟨hunread, call, hcall, hgone⟩ := h.orphan _ (List.mem_of_getElem? horphan)
  obtain ⟨before, after, horphans, herased⟩ := eraseIdx_of_getElem? horphan
  have hnodup := h.orphan_nodup
  rw [horphans, List.map_append, List.map_cons, List.nodup_middle, ← List.map_append] at hnodup
  have hother : ∀ o ∈ s.orphans.eraseIdx k, o ∈ s.orphans ∧ o.1 ≠ i := by
    intro o ho
    rw [herased] at ho
    refine ⟨?_, ?_⟩
    . rw [horphans]
      simp only [List.mem_append, List.mem_cons] at ho ⊢
      exact ho.imp_right .inr
    . intro heq
      have hmem := List.mem_map_of_mem (f := (·.1)) ho
      exact hnodup.notMem (heq ▸ hmem)
  have hset := (set_eq_self hcall).symm
  have herasedNodup : ((s.orphans.eraseIdx k).map (·.1)).Nodup := herased ▸ hnodup.of_cons
  cases hwork with
  | reads n hle =>
    refine h.update _ hcall hset rfl (.inr ⟨hunread, _, rfl⟩) hgone.sound ?_ herasedNodup ?_
    . exact fun o ho => .inl (hother o ho)
    . intro hclosed
      simp only [State.take, h.closed hclosed, List.drop_nil]
  | fails e hread =>
    refine h.update [] hcall hset (List.append_nil _).symm (.inl rfl) hgone.sound ?_ herasedNodup
      h.closed
    exact fun o ho => .inl (hother o ho)

theorem step (h : Sane io s) {e : Event} (hstep : IoRead.step io s e = some s') : Sane io s' := by
  cases step_outcome hstep with
  | refused | newWithInterest => exact h.newWithInterest _
  | ioRead => exact h.ioRead _ rfl
  | poll hcall hlive hpoll => exact h.poll hcall hlive hpoll
  | work hcall hphase hwork => exact h.work hcall hphase hwork
  | orphan horphan hwork => exact h.orphan_read horphan hwork
  | @drop i call worker hcall hlive hworker =>
    apply h.leaveBehind hcall hlive
    . intro hsome
      obtain ⟨length, hphase⟩ := hworker hsome
      exact ⟨((h.sound i call hcall).of_busy hphase).2, by simp [Call.Gone, Call.Live, Call.holds]⟩
    . trivial

theorem owner_of_step (h : Sane io s) {e : Event} (hstep : IoRead.step io s e = some s')
    : ∀ r ∈ s'.reads, r.1 < s.calls.length := by
  have howner := (h.step hstep).owner
  cases step_outcome hstep with
  | @refused _ _ _ env | @newWithInterest env | @ioRead _ _ _ env =>
    obtain ⟨reactor, heq, -⟩ := newWithInterest_spec io s env
    rw [heq]
    exact h.owner
  | poll hcall hlive hpoll =>
    cases hpoll with
    | raises | pends => simpa [State.finish, State.setCall] using howner
    | returns =>
      unfold afterRead at howner ⊢
      split at howner
      . split at howner <;> simpa [State.finish, State.setCall, State.take] using howner
      . simpa [State.finish, State.setCall] using howner
  | work hcall hphase hwork =>
    cases hwork with
    | reads | fails => simpa [State.setCall, State.take] using howner
  | orphan horphan hwork =>
    cases hwork with
    | reads | fails => exact howner
  | drop => simpa [State.setCall] using howner

end Sane

/-! ### The bytes that are held -/

theorem length_flatMap_le {α β : Type} {f g : α → List β} {xs : List α}
    (hle : ∀ x ∈ xs, (g x).length ≤ (f x).length)
    : (xs.flatMap g).length ≤ (xs.flatMap f).length := by
  induction xs with
  | nil => simp
  | cons x xs ih =>
    rw [List.forall_mem_cons] at hle
    simp only [List.flatMap_cons, List.length_append]
    exact Nat.add_le_add hle.1 (ih hle.2)

theorem flatMap_eq_flatMap_iff {α β : Type} {f g : α → List β} {xs : List α}
    (hle : ∀ x ∈ xs, (g x).length ≤ (f x).length)
    : xs.flatMap g = xs.flatMap f ↔ ∀ x ∈ xs, g x = f x := by
  induction xs with
  | nil => simp
  | cons x xs ih =>
    rw [List.forall_mem_cons] at hle ⊢
    simp only [List.flatMap_cons]
    rw [← ih hle.2]
    constructor
    . intro heq
      have hrest := length_flatMap_le hle.2
      have hlength := congrArg List.length heq
      simp only [List.length_append] at hlength
      have hle' := hle.1
      exact List.append_inj heq (by omega)
    . rintro ⟨hx, hxs⟩
      rw [hx, hxs]

section Held

variable {waiting : List Nat} {i : Nat} {call call' : Call}

theorem holds_of_ne (hcalls : s'.calls = s.calls.set i call') {r : Nat × List Byte} (hne : r.1 ≠ i)
    : s'.holds waiting r = s.holds waiting r := by
  unfold State.holds
  rw [hcalls, List.getElem?_set_ne (Ne.symm hne)]

theorem holds_self (hcall : s.calls[i]? = some call) (waiting : List Nat) (bytes : List Byte)
    : s.holds waiting (i, bytes) = if i ∈ waiting then call.holds bytes else [] := by
  unfold State.holds
  dsimp only
  rw [hcall]

theorem getElem?_set_of_getElem? (hcall : s.calls[i]? = some call)
    (hcalls : s'.calls = s.calls.set i call') : s'.calls[i]? = some call' := by
  rw [hcalls, List.getElem?_set_self (List.getElem?_eq_some_iff.mp hcall).1]

theorem held_of_unread {new : List (Nat × List Byte)} (hcalls : s'.calls = s.calls.set i call')
    (hreads : s'.reads = s.reads ++ new) (hunread : Unread s.reads i)
    : s'.held waiting = s.held waiting ++ new.flatMap (s'.holds waiting) := by
  unfold State.held
  rw [hreads, List.flatMap_append]
  congr 1
  apply List.flatMap_congr
  intro r hr
  exact holds_of_ne hcalls (hunread r hr)

theorem held_eq_iff (h : Sane io s) (hcall : s.calls[i]? = some call)
    (hcalls : s'.calls = s.calls.set i call') (hreads : s'.reads = s.reads) {bytes : List Byte}
    (hmem : (i, bytes) ∈ s.reads) (hle : (call'.holds bytes).length ≤ (call.holds bytes).length)
    : s'.held waiting = s.held waiting ↔ (i ∈ waiting → call'.holds bytes = call.holds bytes) := by
  have hold := holds_self hcall waiting bytes
  have hnew := holds_self (getElem?_set_of_getElem? hcall hcalls) waiting bytes
  have hread {r : Nat × List Byte} (hr : r ∈ s.reads) (heq : r.1 = i) : r = (i, bytes) :=
    List.inj_on_of_nodup_map h.nodup hr hmem heq
  unfold State.held
  rw [hreads, flatMap_eq_flatMap_iff]
  . constructor
    . intro hall hwaiting
      simpa only [hold, hnew, hwaiting, if_true] using hall (i, bytes) hmem
    . intro hself r hr
      by_cases heq : r.1 = i
      . rw [hread hr heq, hold, hnew]
        split
        . next hwaiting => exact hself hwaiting
        . rfl
      . exact holds_of_ne hcalls heq
  . intro r hr
    by_cases heq : r.1 = i
    . rw [hread hr heq, hold, hnew]
      split
      . exact hle
      . exact Nat.le_refl _
    . rw [holds_of_ne hcalls heq]

theorem held_eq (hcalls : s'.calls = s.calls.set i call') (hreads : s'.reads = s.reads)
    (hunread : Unread s.reads i) : s'.held waiting = s.held waiting := by
  have happend : s'.reads = s.reads ++ [] := by rw [hreads, List.append_nil]
  rw [held_of_unread hcalls happend hunread, List.flatMap_nil, List.append_nil]

theorem newWithInterest_iff (h : Sane io s) (env : NewEnv)
    : (s.newWithInterest io env).2.held waiting ++ (s.newWithInterest io env).2.unread
          = s.held waiting ++ s.unread ↔
        s.unread = [] ∨ KeepsOpen io s env := by
  obtain ⟨reactor, heq, hopen, -⟩ := newWithInterest_spec io s env
  have hheld : (s.newWithInterest io env).2.held waiting = s.held waiting := by rw [heq]; rfl
  rw [hheld, List.append_cancel_left_eq, heq]
  dsimp only
  cases hisOpen : (s.reactor.fds io.fileno).isOpen with
  | false => simp [h.closed hisOpen]
  | true =>
    rw [← hopen hisOpen]
    split
    . next hkeeps => simp [hkeeps]
    . next hkeeps => simp [hkeeps, eq_comm]

theorem held_ioRead (h : Sane io s) (env : NewEnv) (call : Call)
    : { (s.newWithInterest io env).2 with calls := s.calls ++ [call] }.held waiting
        = (s.newWithInterest io env).2.held waiting := by
  obtain ⟨reactor, heq, -⟩ := newWithInterest_spec io s env
  rw [heq]
  apply List.flatMap_congr
  intro r hr
  unfold State.holds
  dsimp only
  rw [List.getElem?_append_left (h.owner r hr)]

theorem take_iff (hcall : s.calls[i]? = some call) (hunread : Unread s.reads i) (n : Nat)
    (call' : Call)
    : ((s.take i n).setCall i call').held waiting ++ ((s.take i n).setCall i call').unread
          = s.held waiting ++ s.unread ↔
        (if i ∈ waiting then call'.holds (s.unread.take n) else []) = s.unread.take n := by
  have hself : ((s.take i n).setCall i call').calls[i]? = some call' :=
    getElem?_set_of_getElem? hcall rfl
  have hheld : ((s.take i n).setCall i call').held waiting
      = s.held waiting ++
          [(i, s.unread.take n)].flatMap (((s.take i n).setCall i call').holds waiting) :=
    held_of_unread rfl rfl hunread
  rw [hheld]
  simp only [List.flatMap_cons, List.flatMap_nil, List.append_nil, holds_self hself, List.append_assoc,
    List.append_cancel_left_eq]
  have hsplit := List.take_append_drop n s.unread
  constructor
  . intro heq
    exact List.append_cancel_right (heq.trans hsplit.symm)
  . intro heq
    rw [heq]
    exact hsplit

theorem poll_iff (h : Sane io s) {env : ReadEnv} (hcall : s.calls[i]? = some call)
    (hlive : call.Live) (hpoll : PollOutcome io s i call env s')
    : s'.held waiting ++ s'.unread = s.held waiting ++ s.unread ↔
        ∀ bytes, Gets io s call env bytes →
          if i ∈ waiting then bytes.length ≤ call.amountToRead
          else io.backing = .socket → bytes = [] := by
  have hsound := h.sound i call hcall
  have hgets_of_none (hnone : ∀ result, ¬ ReadReturns io s call env result) (bytes : List Byte)
      : ¬ Gets io s call env bytes :=
    mt readReturns_ok_iff.mpr (hnone (.ok bytes))
  cases hpoll with
  | raises error worker hnone =>
    refine iff_of_true ?_ fun bytes hgets => absurd hgets (hgets_of_none hnone bytes)
    exact congrArg (· ++ s.unread) (held_eq rfl rfl (hsound.unread_of_none hlive hnone))
  | pends file _ _ hnone =>
    refine iff_of_true ?_ fun bytes hgets => absurd hgets (hgets_of_none hnone bytes)
    exact congrArg (· ++ s.unread) (held_eq rfl rfl (hsound.unread_of_none hlive hnone))
  | @returns result hreturns =>
    cases result with
    | error e =>
      have hnone (bytes : List Byte) (hgets : Gets io s call env bytes) : False := by
        cases hreturns.unique (readReturns_ok_iff.mpr hgets)
      refine iff_of_true ?_ fun bytes hgets => (hnone bytes hgets).elim
      rw [hreturns.afterRead_of_error]
      exact congrArg (· ++ s.unread) (held_eq rfl rfl (hsound.unread_of_error hlive hreturns))
    | ok bytes =>
      have hgets := readReturns_ok_iff.mp hreturns
      have hall {C : List Byte → Prop} : (∀ bytes, Gets io s call env bytes → C bytes) ↔ C bytes :=
        ⟨fun h => h bytes hgets, fun h bytes' hgets' => hgets'.unique hgets ▸ h⟩
      have hholds (bytes' : List Byte)
          : ({ call with
              buffer := (call.returned (.ok bytes)).buffer
              phase := .returned (call.returned (.ok bytes)).result
            } : Call).holds bytes' = handOut call.amountToRead bytes :=
        reported_returned_ok call bytes
      rw [hall]
      unfold Gets at hgets
      unfold afterRead
      cases hbacking : io.backing with
      | socket =>
        simp only [hbacking] at hgets
        obtain ⟨-, n, hread, rfl⟩ := hgets
        simp only [hread, State.finish]
        rw [take_iff hcall (hsound.unread_of_socket hlive hbacking), hholds]
        split
        . exact handOut_eq_self
        . exact ⟨fun heq _ => heq.symm, fun hnil => (hnil trivial).symm⟩
      | file =>
        simp only [hbacking] at hgets
        have hmem := (hsound.of_finished hgets).2
        have hholds' : call.holds bytes = bytes := by simp [Call.holds, hgets]
        have hle : (handOut call.amountToRead bytes).length ≤ bytes.length := List.length_take_le' _ _
        have hheld : (s.finish i call (call.returned (.ok bytes))).held waiting = s.held waiting ↔
            (i ∈ waiting → handOut call.amountToRead bytes = bytes) := by
          refine (@held_eq_iff io s (s.finish i call (call.returned (.ok bytes))) waiting i call _ h
            hcall rfl rfl bytes hmem ?_).trans ?_
          . rwa [hholds, hholds']
          . rw [hholds, hholds']
        have hunread : (s.finish i call (call.returned (.ok bytes))).unread = s.unread := rfl
        rw [hunread, List.append_cancel_right_eq, hheld, handOut_eq_self]
        split <;> simp_all

theorem work_iff {read : OsRead} {result : Except IoError (List Byte)}
    (hcall : s.calls[i]? = some call) (hunread : Unread s.reads i)
    (hwork : WorkOutcome s i read result s') (call' : Call)
    : (s'.setCall i call').held waiting ++ (s'.setCall i call').unread = s.held waiting ++ s.unread ↔
        ∀ n, read = .data n →
          (if i ∈ waiting then call'.holds (s.unread.take n) else []) = s.unread.take n := by
  cases hwork with
  | reads n hle =>
    rw [take_iff hcall hunread]
    simp
  | fails e hread =>
    refine iff_of_true ?_ fun n hn => absurd hn (hread n)
    exact congrArg (· ++ s.unread) (held_eq rfl rfl hunread)

theorem nil_eq_take_iff {unread : List Byte} {n : Nat} (hle : n ≤ unread.length)
    : [] = unread.take n ↔ n = 0 := by
  rw [eq_comm, List.take_eq_nil_iff]
  constructor
  . rintro (rfl | rfl)
    . rfl
    . simpa using hle
  . exact .inl

theorem drop_iff (h : Sane io s) (hcall : s.calls[i]? = some call) (hlive : call.Live)
    (hcalls : s'.calls = s.calls.set i { call with phase := .dropped }) (hreads : s'.reads = s.reads)
    : s'.held waiting = s.held waiting ↔
        ∀ bytes, call.phase = .reading (.finished (.ok bytes)) → i ∈ waiting → bytes = [] := by
  have hsound := h.sound i call hcall
  by_cases hfinished : ∃ bytes, call.phase = .reading (.finished (.ok bytes))
  . obtain ⟨bytes, hphase⟩ := hfinished
    have hholds : call.holds bytes = bytes := by simp [Call.holds, hphase]
    have hdropped : ({ call with phase := .dropped } : Call).holds bytes = [] := rfl
    have hle : (({ call with phase := .dropped } : Call).holds bytes).length
        ≤ (call.holds bytes).length := by
      rw [hdropped]
      exact Nat.zero_le _
    rw [held_eq_iff h hcall hcalls hreads (hsound.of_finished hphase).2 hle, hholds, hdropped]
    simp [hphase, eq_comm]
  . refine iff_of_true ?_ fun bytes hphase => absurd ⟨bytes, hphase⟩ hfinished
    exact held_eq hcalls hreads (hsound.unread hlive fun bytes hphase => hfinished ⟨bytes, hphase⟩)

theorem bytes_kept_iff (h : Sane io s) {e : Event} (hstep : step io s e = some s')
    : s'.held waiting ++ s'.unread = s.held waiting ++ s.unread ↔ KeepsBytes io waiting s e := by
  cases step_outcome hstep with
  | refused => exact newWithInterest_iff h _
  | newWithInterest => exact newWithInterest_iff h _
  | @ioRead buffer minimumLengthToRead timeout env timeout' =>
    rw [held_ioRead h]
    exact newWithInterest_iff h env
  | @poll i env call s' hcall hlive hpoll =>
    rw [poll_iff h hcall hlive hpoll]
    constructor
    . intro hall call' bytes hcall'
      obtain rfl := Option.some.inj (hcall.symm.trans hcall')
      exact hall bytes
    . exact fun hall bytes => hall call bytes hcall
  | @work i length read call result s₁ hcall hphase hwork =>
    obtain ⟨-, hunread⟩ := (h.sound i call hcall).of_busy hphase
    rw [work_iff hcall hunread hwork]
    cases hwork with
    | reads n hle =>
      have hholds (bytes : List Byte)
          : ({ call with phase := .reading (.finished (.ok (s.unread.take n))) } : Call).holds bytes
              = bytes := rfl
      simp only [OsRead.data.injEq, forall_eq', hholds, KeepsBytes]
      split
      . next hwaiting => simp [hwaiting]
      . next hwaiting => rw [nil_eq_take_iff hle, or_iff_right hwaiting]
    | fails e hread =>
      refine iff_of_true (fun n hn => absurd hn (hread n)) ?_
      cases read with
      | data n => exact absurd rfl (hread n)
      | wouldBlock | error => trivial
  | @orphan k i length read result s₁ horphan hwork =>
    obtain ⟨hunread, call, hcall, -, hholds⟩ := h.orphan _ (List.mem_of_getElem? horphan)
    cases hwork with
    | reads n hle =>
      have htaken := @take_iff s waiting i call hcall hunread n call
      have hset : (s.take i n).setCall i call = s.take i n := by
        unfold State.setCall State.take
        rw [set_eq_self hcall]
      rw [hset, hholds, ite_self, nil_eq_take_iff hle] at htaken
      exact htaken
    | fails e hread =>
      refine iff_of_true rfl ?_
      cases read with
      | data n => exact absurd rfl (hread n)
      | wouldBlock | error => trivial
  | @drop i call worker hcall hlive hworker =>
    refine Iff.trans ⟨List.append_cancel_right, congrArg (· ++ s.unread)⟩ ?_
    refine Iff.trans (drop_iff h hcall hlive ?_ ?_) ?_
    . rfl
    . rfl
    . constructor
      . intro hall call' bytes hcall'
        obtain rfl := Option.some.inj (hcall.symm.trans hcall')
        exact hall bytes
      . exact fun hall bytes => hall call bytes hcall

end Held

/-! ### What Ruby gets to see -/

section Ruby

variable {s s' : Ruby.State} {stream : List Byte}

theorem streamKept_iff
    : StreamKept stream s ↔ s.reported ++ s.io.held s.waiting ++ s.io.unread = stream := by
  constructor
  . exact fun h => h.kept
  . intro h
    refine ⟨?_, ?_, h⟩
    . rw [← h, List.append_assoc]
      exact List.prefix_append _ _
    . intro hwaiting
      have hheld : s.io.held s.waiting = [] := by
        rw [hwaiting]
        simp [State.held, State.holds]
      rw [hheld, List.append_nil] at h
      exact h

theorem reported_endCall (i : Nat) (r : Return)
    : (s.endCall i r).reported = s.reported ++ r.reported := by
  simp [Ruby.State.endCall, Ruby.State.reported]

theorem lift_outcome {e : Event} (h : Sane io s.io) (hlift : s.lift io e = some s')
    : IoRead.step io s.io e = some s'.io ∧ s'.reported = s.reported ∧
        s'.io.held s'.waiting = s'.io.held s.waiting := by
  unfold Ruby.State.lift at hlift
  split at hlift
  . next io' hstep =>
    split at hlift
    . obtain rfl := Option.some.inj hlift
      exact ⟨hstep, rfl, rfl⟩
    . next hlength =>
      obtain rfl := Option.some.inj hlift
      refine ⟨hstep, rfl, ?_⟩
      apply List.flatMap_congr
      intro r hr
      have hne : r.1 ≠ s.io.calls.length := Nat.ne_of_lt (h.owner_of_step hstep r hr)
      simp only [State.holds, List.mem_append, List.mem_singleton, hne, or_false]
  . contradiction

theorem deliver_outcome {i : Nat} (hdeliver : s.deliver i = some s')
    : ∃ call result, s.io.calls[i]? = some call ∧ call.phase = .returned result ∧
        s' = s.endCall i ⟨result, call.buffer⟩ := by
  unfold Ruby.State.deliver at hdeliver
  split at hdeliver
  . split at hdeliver
    . next call hcall =>
      split at hdeliver
      . next result hphase => exact ⟨call, result, hcall, hphase, (Option.some.inj hdeliver).symm⟩
      all_goals contradiction
    . contradiction
  . contradiction

theorem leave_outcome {i : Nat} {result : Result Int} (hleave : s.leave i result = some s')
    : ∃ call, s.io.calls[i]? = some call ∧ s' = s.endCall i ⟨result, call.buffer⟩ := by
  unfold Ruby.State.leave at hleave
  split at hleave
  . obtain ⟨call, hcall, hs'⟩ := Option.map_eq_some_iff.mp hleave
    exact ⟨call, hcall, hs'.symm⟩
  . contradiction

structure Faithful (io : Io) (stream : List Byte) (s : Ruby.State) : Prop where
  kept : s.reported ++ s.io.held s.waiting ++ s.io.unread = stream
  sane : Sane io s.io

namespace Faithful

theorem new (io : Io) (stream : List Byte) : Faithful io stream (.new stream) where
  kept := rfl
  sane := .new io stream

theorem endCall_iff (h : Faithful io stream s) (i : Nat) (r : Return)
    : (s.endCall i r).reported ++ (s.endCall i r).io.held (s.endCall i r).waiting ++
            (s.endCall i r).io.unread = stream ↔ Reports s i r := by
  have hunread : (s.endCall i r).io.unread = s.io.unread := rfl
  rw [reported_endCall, hunread, ← h.kept, List.append_cancel_right_eq, List.append_assoc,
    List.append_cancel_left_eq]
  exact Iff.rfl

theorem sane_step (h : Faithful io stream s) {e : Ruby.Event} (hstep : Ruby.step io s e = some s')
    : Sane io s'.io := by
  cases e with
  | io e => exact h.sane.step (lift_outcome h.sane hstep).1
  | deliver i =>
    obtain ⟨call, result, -, -, rfl⟩ := deliver_outcome hstep
    exact h.sane
  | leave i result =>
    obtain ⟨call, -, rfl⟩ := leave_outcome hstep
    exact h.sane

theorem kept_iff (h : Faithful io stream s) {e : Ruby.Event} (hstep : Ruby.step io s e = some s')
    : s'.reported ++ s'.io.held s'.waiting ++ s'.io.unread = stream ↔ KeepsStream io s e := by
  cases e with
  | io e =>
    obtain ⟨hstep, hreported, hheld⟩ := lift_outcome h.sane hstep
    rw [hreported, hheld, ← h.kept, List.append_assoc, List.append_assoc, List.append_cancel_left_eq]
    exact bytes_kept_iff h.sane hstep
  | deliver i =>
    obtain ⟨call, result, hcall, hphase, rfl⟩ := deliver_outcome hstep
    rw [h.endCall_iff]
    constructor
    . intro hreports call' result' hcall' hphase'
      obtain rfl := Option.some.inj (hcall.symm.trans hcall')
      obtain rfl := Phase.returned.inj (hphase.symm.trans hphase')
      exact hreports
    . exact fun hall => hall call result hcall hphase
  | leave i result =>
    obtain ⟨call, hcall, rfl⟩ := leave_outcome hstep
    rw [h.endCall_iff]
    constructor
    . intro hreports call' hcall'
      obtain rfl := Option.some.inj (hcall.symm.trans hcall')
      exact hreports
    . exact fun hall => hall call hcall

end Faithful

/--
The calls on a stream report its bytes without a gap throughout a run, if and only if none of them is
lost: the descriptor stays open while there are bytes to be read, no call gets more of them than it asks
for, no call that its fiber has left gets any, and the calls report what they hold in its order.
-/
theorem stream_kept_iff (io : Io) (stream : List Byte) (es : List Ruby.Event)
    : Lts.Always (Ruby.step io) (StreamKept stream) (.new stream) es ↔
      Lts.Along (Ruby.step io) (KeepsStream io) (.new stream) es := by
  apply Lts.always_iff_along (J := Faithful io stream)
  . intro s e s' h hC hstep
    exact ⟨(h.kept_iff hstep).mpr hC, h.sane_step hstep⟩
  . intro s h
    exact streamKept_iff.mpr h.kept
  . intro s e s' h hstep hkept
    exact (h.kept_iff hstep).mp hkept.kept
  . exact .new io stream

end Ruby

theorem stream_not_kept
    : ¬ ∀ (io : Io) (stream : List Byte) (es : List Ruby.Event),
        Lts.Always (Ruby.step io) (StreamKept stream) (.new stream) es := by
  intro hall
  let io : Io := ⟨.object "UNIXSocket" 0, 7, .socket, by decide⟩
  have hrun : (Lts.run (Ruby.step io) (.new [1, 2, 3, 4, 5, 6, 7, 8])
      [.io (.ioRead [0, 0, 0, 0] 4 0 { tryConvert := .ok io.value, fileno := .ok 7 }),
        .io (.poll 0 { read := .data 8 }), .deliver 0]).any fun s =>
        s.reported ++ s.io.held s.waiting ++ s.io.unread = [1, 2, 3, 4] := by
    decide
  refine Lts.not_always_of_run hrun ?_ (hall io _ _)
  intro s hs hkept
  have hlost := of_decide_eq_true hs
  rw [hkept.kept] at hlost
  contradiction

end IoRead
end Shreduler
