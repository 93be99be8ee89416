import Mathlib.Data.List.Infix
import Shreduler.Lts.Measure
import Shreduler.TokioScheduler.Lemmas.IoWrite

/-!
This module proves that a call of `io_write` comes to an end: how many of its steps do not just wait, and
that it is never stuck.
-/

namespace Shreduler
namespace IoWrite

open BufWriter (Writer)
open IoRead (Byte Backing IoError)

variable {backing : Backing} {s s' : State} {writer : Writer Byte} {env : WriteEnv}

/-! ### What the descriptor has taken -/

theorem received_pending (s : State) (writer : Writer Byte) (env : WriteEnv)
    : (s.pending writer env).received = s.received := by
  unfold State.pending
  split
  . split
    . rfl
    . rfl
  . rfl

theorem received_returned (s : State) (writer : Writer Byte) (result : Except IoError Nat)
    : (s.returned writer result).received = s.received := by
  cases result with
  | ok amt => rfl
  | error e => rfl

theorem received_spawnWorker (s : State) (chunk : List Byte) (env : WriteEnv)
    : (s.spawnWorker chunk env).2.received = s.received := by
  unfold State.spawnWorker
  split
  . rfl
  . rfl

theorem received_pollFlush (s : State) : (s.pollFlush backing).2.received = s.received := by
  unfold State.pollFlush
  split
  . rfl
  . split
    . rfl
    . rfl
    . rfl

theorem received_pollWrite {chunk : List Byte} {polled : PollIo Nat}
    (h : s.pollWrite backing chunk env = some (polled, s')) : s.received <+: s'.received := by
  unfold State.pollWrite at h
  split at h
  . split at h
    . simp only [Option.ite_none_right_eq_some, Option.some.injEq, Prod.mk.injEq] at h
      rw [← h.2.2]
      apply List.prefix_append
    . simp only [Option.some.injEq, Prod.mk.injEq] at h
      rw [← h.2]
    . simp only [Option.some.injEq, Prod.mk.injEq] at h
      rw [← h.2]
  . have hworker (h : some (s.spawnWorker chunk env) = some (polled, s')) : s.received <+: s'.received := by
      have hs' : (s.spawnWorker chunk env).2 = s' := congrArg Prod.snd (Option.some.inj h)
      rw [← hs', received_spawnWorker]
    split at h
    . exact hworker h
    . simp only [Option.some.injEq, Prod.mk.injEq] at h
      rw [← h.2]
    . exact hworker h
    . simp only [Option.some.injEq, Prod.mk.injEq] at h
      rw [← h.2]

theorem received_resume (h : s.resume backing writer env = some s') : s.received <+: s'.received := by
  unfold State.resume at h
  split at h
  . split at h
    . contradiction
    . next hpoll =>
      rw [← Option.some.inj h, received_pending]
      exact received_pollWrite hpoll
    . next hpoll =>
      rw [← Option.some.inj h, received_returned]
      exact received_pollWrite hpoll
    . next hpoll =>
      split at h
      . rw [← Option.some.inj h, received_returned]
        exact received_pollWrite hpoll
      . have hs' := congrArg State.received (Option.some.inj h)
        dsimp only at hs'
        rw [← hs']
        exact received_pollWrite hpoll
  . have hflush := @received_pollFlush backing s
    split at h
    . next hpoll =>
      rw [← Option.some.inj h, received_pending, ← hflush, hpoll]
    . next hpoll =>
      rw [← Option.some.inj h, received_returned, ← hflush, hpoll]
    . next hpoll =>
      rw [← Option.some.inj h, received_returned, ← hflush, hpoll]

theorem received_prefix_of_step {e : Event} (h : step backing s e = some s')
    : s.received <+: s'.received := by
  cases e with
  | poll env =>
    unfold step State.poll at h
    dsimp only at h
    split at h
    . split at h
      . rw [← Option.some.inj h]
        exact List.prefix_rfl
      . exact received_resume h
    . exact received_resume h
    . contradiction
  | work write =>
    unfold step State.work at h
    dsimp only at h
    have hkeeps {file : FileState} (h : some { s with file } = some s') : s.received <+: s'.received := by
      rw [← Option.some.inj h]
    split at h
    . split at h
      . split at h
        . split at h
          . exact hkeeps h
          . rw [← Option.some.inj h]
            apply List.prefix_append
        . contradiction
      . exact hkeeps h
      . exact hkeeps h
    . contradiction

/-! ### What is left to do -/

def State.polls (s : State) : Nat :=
  match s.phase with
  | .created => 2 * s.buffer.length + 2
  | .writing writer => 2 * writer.pending.length + 1
  | .returned .. => 0

/-- These polls, and the bytes that the worker has yet to write. -/
def State.left (s : State) : Nat := s.polls + s.file.unwritten.length

structure Working (backing : Backing) (s : State) : Prop where
  faithful : Faithful backing s
  busy : s.file ≠ .busy []

theorem left_finish (s : State) (result : Result Int) (stage : List Byte)
    : (s.finish result stage).left = s.file.unwritten.length := Nat.zero_add _

theorem left_writing (s : State) (writer : Writer Byte)
    : { s with phase := .writing writer : State }.left
        = 2 * writer.pending.length + 1 + s.file.unwritten.length := rfl

theorem left_returned (s : State) (writer : Writer Byte) (result : Except IoError Nat)
    : (s.returned writer result).left = s.file.unwritten.length := by
  cases result with
  | ok amt => apply left_finish
  | error e => apply left_finish

theorem file_returned (s : State) (writer : Writer Byte) (result : Except IoError Nat)
    : (s.returned writer result).file = s.file := by
  cases result with
  | ok amt => rfl
  | error e => rfl

theorem pending_cases (s : State) (writer : Writer Byte) (env : WriteEnv)
    : (s.pending writer env).file = s.file ∧
        (s.pending writer env = { s with phase := .writing writer } ∨
          (s.pending writer env).left = s.file.unwritten.length) := by
  unfold State.pending
  split
  . split
    . exact ⟨rfl, .inr (left_finish ..)⟩
    . exact ⟨rfl, .inl rfl⟩
  . exact ⟨rfl, .inl rfl⟩

theorem unwritten_pollWrite (hsocket : backing = .socket → s.file = .idle) {chunk : List Byte} {n : Nat}
    (h : s.pollWrite backing chunk env = some (.ready (.ok n), s'))
    : s'.file.unwritten.length ≤ s.file.unwritten.length + n := by
  have hreceived := (received_pollWrite h).length_le
  cases pollWrite_outcome hsocket h with
  | took file received hn hfailed hfailed' hidle htook =>
    have hlength := congrArg List.length htook
    simp only [List.length_append, List.length_take] at hlength
    dsimp only at hreceived ⊢
    omega

theorem busy_spawnWorker {chunk : List Byte} (hchunk : chunk ≠ [])
    : (s.spawnWorker chunk env).2.file ≠ .busy [] := by
  unfold State.spawnWorker
  split
  . cases chunk with
    | nil => contradiction
    | cons byte chunk => simp [IoRead.fileMaxBufSize]
  . simp

theorem busy_pollWrite {chunk : List Byte} {polled : PollIo Nat} (hbusy : s.file ≠ .busy [])
    (hchunk : chunk ≠ []) (h : s.pollWrite backing chunk env = some (polled, s'))
    : s'.file ≠ .busy [] := by
  have hworker (h : some (s.spawnWorker chunk env) = some (polled, s')) : s'.file ≠ .busy [] := by
    have hs' : (s.spawnWorker chunk env).2 = s' := congrArg Prod.snd (Option.some.inj h)
    rw [← hs']
    exact busy_spawnWorker hchunk
  unfold State.pollWrite at h
  split at h
  . split at h
    . simp only [Option.ite_none_right_eq_some, Option.some.injEq, Prod.mk.injEq] at h
      rw [← h.2.2]
      exact hbusy
    . simp only [Option.some.injEq, Prod.mk.injEq] at h
      rw [← h.2]
      exact hbusy
    . simp only [Option.some.injEq, Prod.mk.injEq] at h
      rw [← h.2]
      exact hbusy
  . split at h
    . exact hworker h
    . simp only [Option.some.injEq, Prod.mk.injEq] at h
      rw [← h.2]
      exact hbusy
    . exact hworker h
    . simp only [Option.some.injEq, Prod.mk.injEq] at h
      rw [← h.2]
      simp

theorem left_resume (h : Writes backing s writer) (hbusy : s.file ≠ .busy [])
    (hresume : s.resume backing writer env = some s')
    : s'.file ≠ .busy [] ∧
        (s' = { s with phase := .writing writer } ∨
          s'.left < 2 * writer.pending.length + 1 + s.file.unwritten.length) := by
  have hwaits : (s.pending writer env).file ≠ .busy [] ∧
      (s.pending writer env = { s with phase := .writing writer } ∨
        (s.pending writer env).left < 2 * writer.pending.length + 1 + s.file.unwritten.length) := by
    obtain ⟨hfile, hcases⟩ := pending_cases s writer env
    rw [hfile]
    refine ⟨hbusy, hcases.imp_right ?_⟩
    intro hleft
    omega
  unfold State.resume at hresume
  split at hresume
  . next chunk hrequest =>
    obtain ⟨hchunk, hprefix⟩ := h.settled.chunk_prefix hrequest
    split at hresume
    . contradiction
    . next hpoll =>
      obtain rfl := Option.some.inj hresume
      cases pollWrite_outcome h.socket hpoll
      exact hwaits
    . next hpoll =>
      obtain rfl := Option.some.inj hresume
      rw [file_returned, left_returned]
      refine ⟨busy_pollWrite hbusy hchunk hpoll, .inr ?_⟩
      cases pollWrite_outcome h.socket hpoll with
      | failed e file hunwritten hidle =>
        have hle := hunwritten.length_le
        dsimp only
        omega
    . next n s₁ hpoll =>
      have hunwritten := unwritten_pollWrite h.socket hpoll
      have hbusy' := busy_pollWrite hbusy hchunk hpoll
      have hn : n ≤ chunk.length := by
        cases pollWrite_outcome h.socket hpoll
        assumption
      have hle := hprefix.length_le
      split at hresume
      . obtain rfl := Option.some.inj hresume
        rw [file_returned, left_returned]
        refine ⟨hbusy', .inr ?_⟩
        omega
      . next writer' htaken =>
        obtain rfl := Option.some.inj hresume
        refine ⟨hbusy', .inr ?_⟩
        have hpos : n ≠ 0 := by
          intro hzero
          rw [(BufWriter.Writer.taken_eq_none_iff hrequest).mpr hzero] at htaken
          contradiction
        have hlength := congrArg List.length (h.settled.taken hrequest hn htaken).2
        rw [List.length_append, List.length_take] at hlength
        rw [left_writing]
        omega
  . have houtcome := @pollFlush_outcome backing s h.socket
    generalize s.pollFlush backing = polled at hresume houtcome
    obtain ⟨polled, s₁⟩ := polled
    cases houtcome with
    | pending =>
      obtain rfl := Option.some.inj hresume
      exact hwaits
    | failed | flushed =>
      obtain rfl := Option.some.inj hresume
      rw [file_returned, left_returned]
      refine ⟨by simp, .inr ?_⟩
      simp only [FileState.unwritten, List.length_nil]
      omega

namespace Working

theorem new (backing : Backing) (buffer : List Byte) (minimumLengthToBeWritten : Nat)
    (timeout : Duration) : Working backing (.new buffer minimumLengthToBeWritten timeout) where
  faithful := .new backing buffer minimumLengthToBeWritten timeout
  busy := by simp [State.new]

theorem writes (h : Working backing s) (hphase : s.phase = .writing writer) : Writes backing s writer where
  received_prefix := h.faithful.received_prefix
  socket := h.faithful.socket
  settled := (h.faithful.writing writer hphase).1
  pending := (h.faithful.writing writer hphase).2

theorem writes_start (h : Working backing s) (hphase : s.phase = .created)
    : Writes backing s (Writer.start bufWriterCapacity s.buffer) where
  received_prefix := h.faithful.received_prefix
  socket := h.faithful.socket
  settled := BufWriter.Writer.settled_start _ _
  pending _ := by
    obtain ⟨hidle, hreceived⟩ := h.faithful.created hphase
    rw [BufWriter.Writer.pending_start, hidle, hreceived]
    rfl

theorem poll (h : Working backing s) (hpoll : s.poll backing env = some s')
    : s'.file ≠ .busy [] ∧ (s' = s ∨ s'.left < s.left) := by
  unfold State.poll at hpoll
  split at hpoll
  . next hphase =>
    have hleft : s.left = 2 * s.buffer.length + 2 + s.file.unwritten.length := by
      simp only [State.left, State.polls, hphase]
    split at hpoll
    . obtain rfl := Option.some.inj hpoll
      rw [left_finish, hleft]
      refine ⟨h.busy, .inr ?_⟩
      omega
    . obtain ⟨hbusy, hcases⟩ := left_resume (h.writes_start hphase) h.busy hpoll
      rw [BufWriter.Writer.pending_start] at hcases
      rw [hleft]
      refine ⟨hbusy, .inr ?_⟩
      cases hcases with
      | inl hwaits =>
        rw [hwaits, left_writing, BufWriter.Writer.pending_start]
        omega
      | inr hlt => omega
  . next writer hphase =>
    have hsame : { s with phase := .writing writer } = s := by rw [← hphase]
    obtain ⟨hbusy, hcases⟩ := left_resume (h.writes hphase) h.busy hpoll
    rw [← left_writing, hsame] at hcases
    exact ⟨hbusy, hcases⟩
  . contradiction

theorem work (h : Working backing s) {write : OsWrite} (hwork : s.work write = some s')
    : s'.file ≠ .busy [] ∧ s'.left < s.left := by
  have hbusy := h.busy
  unfold State.work at hwork
  split at hwork
  . next rest hfile =>
    have hrest : 0 < rest.length := by
      apply List.length_pos_of_ne_nil
      rintro rfl
      exact hbusy hfile
    have hleft : s.left = s.polls + rest.length := by rw [State.left, hfile, FileState.unwritten]
    have hfinished (result : Except IoError Unit) (received : List Byte)
        : { s with file := .finished result, received : State }.left = s.polls := rfl
    split at hwork
    . split at hwork
      . split at hwork
        . obtain rfl := Option.some.inj hwork
          refine ⟨by simp, ?_⟩
          rw [hfinished _ s.received, hleft]
          omega
        . next n hle hpos =>
          obtain rfl := Option.some.inj hwork
          dsimp only
          split
          . refine ⟨by simp, ?_⟩
            rw [hfinished, hleft]
            omega
          . next hpart =>
            refine ⟨?_, ?_⟩
            . simp only [ne_eq, FileState.busy.injEq, List.drop_eq_nil_iff]
              omega
            . rw [hleft]
              simp only [State.left, State.polls, FileState.unwritten, List.length_drop]
              omega
      . contradiction
    . obtain rfl := Option.some.inj hwork
      refine ⟨by simp, ?_⟩
      rw [hfinished _ s.received, hleft]
      omega
    . obtain rfl := Option.some.inj hwork
      refine ⟨by simp, ?_⟩
      rw [hfinished _ s.received, hleft]
      omega
  . contradiction

theorem step (h : Working backing s) {e : Event} (hstep : IoWrite.step backing s e = some s')
    : Working backing s' ∧ (s' = s ∨ s'.left < s.left) := by
  have hfaithful := h.faithful.step hstep
  cases e with
  | poll env =>
    obtain ⟨hbusy, hcases⟩ := h.poll hstep
    exact ⟨⟨hfaithful, hbusy⟩, hcases⟩
  | work write =>
    obtain ⟨hbusy, hlt⟩ := h.work hstep
    exact ⟨⟨hfaithful, hbusy⟩, .inr hlt⟩

end Working

/--
In every run, no more than two steps for each byte, and two more, change the state of a call of `io_write`.
All others are waits that leave it as it was.
-/
theorem steps_bounded (backing : Backing) (buffer : List Byte) (minimumLengthToBeWritten : Nat)
    (timeout : Duration) (es : List Event)
    : Lts.changes (step backing) (.new buffer minimumLengthToBeWritten timeout) es
        ≤ 2 * buffer.length + 2 := by
  have hnew := Working.new backing buffer minimumLengthToBeWritten timeout
  have hleft : (State.new buffer minimumLengthToBeWritten timeout).left = 2 * buffer.length + 2 := rfl
  rw [← hleft]
  apply Lts.changes_le_of_decreasing (J := Working backing) ?_ hnew
  intro s e s' h hstep
  exact h.step hstep

-- A socket that takes its byte at the fourth poll.
example : Lts.changes (step .socket) (.new [1] 0 0)
    [.poll {}, .poll {}, .poll {}, .poll { write := .data 1 }, .poll {}] = 3 := by
  decide

/-! ### The way to the end -/

structure SameCall (s s' : State) : Prop where
  buffer : s'.buffer = s.buffer
  minimum : s'.minimumLengthToBeWritten = s.minimumLengthToBeWritten

theorem SameCall.returned (h : SameCall s s') (writer : Writer Byte) (result : Except IoError Nat)
    : SameCall s (s'.returned writer result) := by
  cases result with
  | ok amt => exact ⟨h.buffer, h.minimum⟩
  | error e => exact ⟨h.buffer, h.minimum⟩

theorem SameCall.pending (h : SameCall s s') (writer : Writer Byte) (env : WriteEnv)
    : SameCall s (s'.pending writer env) := by
  unfold State.pending
  split
  . split
    . exact ⟨h.buffer, h.minimum⟩
    . exact ⟨h.buffer, h.minimum⟩
  . exact ⟨h.buffer, h.minimum⟩

theorem sameCall_resume (hsocket : backing = .socket → s.file = .idle)
    (hresume : s.resume backing writer env = some s') : SameCall s s' := by
  have hwrite {chunk : List Byte} {polled : PollIo Nat} {s₁ : State}
      (hpoll : s.pollWrite backing chunk env = some (polled, s₁)) : SameCall s s₁ := by
    cases pollWrite_outcome hsocket hpoll with
    | pending | took | failed => exact ⟨rfl, rfl⟩
  have hflush : SameCall s (s.pollFlush backing).2 := by
    have houtcome := @pollFlush_outcome backing s hsocket
    generalize s.pollFlush backing = polled at houtcome ⊢
    obtain ⟨polled, s₁⟩ := polled
    cases houtcome with
    | pending | flushed | failed => exact ⟨rfl, rfl⟩
  unfold State.resume at hresume
  split at hresume
  . split at hresume
    . contradiction
    . next hpoll => exact Option.some.inj hresume ▸ (hwrite hpoll).pending writer env
    . next hpoll => exact Option.some.inj hresume ▸ (hwrite hpoll).returned writer _
    . next hpoll =>
      split at hresume
      . exact Option.some.inj hresume ▸ (hwrite hpoll).returned writer _
      . exact Option.some.inj hresume ▸ ⟨(hwrite hpoll).buffer, (hwrite hpoll).minimum⟩
  . split at hresume
    . next hpoll =>
      rw [hpoll] at hflush
      exact Option.some.inj hresume ▸ hflush.pending writer env
    . next hpoll =>
      rw [hpoll] at hflush
      exact Option.some.inj hresume ▸ hflush.returned writer _
    . next hpoll =>
      rw [hpoll] at hflush
      exact Option.some.inj hresume ▸ hflush.returned writer _

theorem sameCall_work {write : OsWrite} (hwork : s.work write = some s') : SameCall s s' := by
  cases work_outcome hwork with
  | works => exact ⟨rfl, rfl⟩

theorem sameCall_step (h : Faithful backing s) {e : Event} (hstep : step backing s e = some s')
    : SameCall s s' := by
  cases e with
  | poll env =>
    unfold step State.poll at hstep
    dsimp only at hstep
    split at hstep
    . split at hstep
      . exact Option.some.inj hstep ▸ ⟨rfl, rfl⟩
      . exact sameCall_resume h.socket hstep
    . exact sameCall_resume h.socket hstep
    . contradiction
  | work write => exact sameCall_work hstep

structure Untroubled (backing : Backing) (s : State) : Prop where
  working : Working backing s
  fits : s.minimumLengthToBeWritten ≤ s.buffer.length
  kept : ¬ s.file.Failed
  returned : ∀ result stage, s.phase = .returned result stage → result = .ok s.buffer.length

def willing : WriteEnv := { write := .data 1 }

def FileState.Free (file : FileState) : Prop := file = .idle ∨ file = .finished (.ok ())

theorem spawnWorker_willing {chunk : List Byte} (hchunk : chunk ≠ [])
    : ∃ n s', s.spawnWorker chunk willing = (.ready (.ok n), s') ∧ n ≠ 0 := by
  refine ⟨_, _, rfl, ?_⟩
  cases chunk with
  | nil => contradiction
  | cons byte chunk => simp [IoRead.fileMaxBufSize]

theorem pollWrite_willing (hfree : s.file.Free) {chunk : List Byte} (hchunk : chunk ≠ [])
    : ∃ n s', s.pollWrite backing chunk willing = some (.ready (.ok n), s') ∧ n ≠ 0 := by
  cases backing with
  | socket =>
    refine ⟨1, _, if_pos ?_, Nat.one_ne_zero⟩
    exact List.length_pos_of_ne_nil hchunk
  | file =>
    obtain ⟨n, s', hspawn, hn⟩ := @spawnWorker_willing s chunk hchunk
    refine ⟨n, s', ?_, hn⟩
    cases hfree with
    | inl hidle => simp only [State.pollWrite, hidle, hspawn]
    | inr hfinished => simp only [State.pollWrite, hfinished, hspawn]

theorem pollFlush_free (hsocket : backing = .socket → s.file = .idle) (hfree : s.file.Free)
    : s.pollFlush backing = (.ready (.ok ()), { s with file := .idle }) := by
  have hidle (hfile : s.file = .idle) : s = { s with file := .idle } := by rw [← hfile]
  unfold State.pollFlush
  cases backing with
  | socket => rw [← hidle (hsocket rfl)]
  | file =>
    cases hfree with
    | inl hfile =>
      dsimp only
      rw [hfile]
      dsimp only
      rw [← hidle hfile]
    | inr hfile =>
      dsimp only
      rw [hfile]

structure GoesOn (s : State) (writer : Writer Byte) (s' : State) : Prop where
  kept : ¬ s'.file.Failed
  phase : (∃ writer', s'.phase = .writing writer' ∧ writer' ≠ writer) ∨
    ∃ stage, s'.phase = .returned (.ok s.buffer.length) stage

theorem resume_willing (h : Writes backing s writer) (hfree : s.file.Free)
    : ∃ s', s.resume backing writer willing = some s' ∧ GoesOn s writer s' := by
  unfold State.resume
  split
  . next chunk hrequest =>
    obtain ⟨hchunk, -⟩ := h.settled.chunk_prefix hrequest
    obtain ⟨n, s₁, hpoll, hn⟩ := @pollWrite_willing backing s hfree chunk hchunk
    rw [hpoll]
    dsimp only
    cases pollWrite_outcome h.socket hpoll with
    | took file received hle hfailed hfailed' hidle htook =>
      split
      . next htaken => exact absurd ((BufWriter.Writer.taken_eq_none_iff hrequest).mp htaken) hn
      . next writer' htaken =>
        refine ⟨_, rfl, hfailed', .inl ⟨writer', rfl, ?_⟩⟩
        rintro rfl
        have hlength := congrArg List.length (h.settled.taken hrequest hle htaken).2
        rw [List.length_append, List.length_take] at hlength
        omega
  . rw [pollFlush_free h.socket hfree]
    exact ⟨_, rfl, by simp [State.returned, State.finish, FileState.Failed], .inr ⟨_, rfl⟩⟩

namespace GoesOn

theorem ne_of_created (h : GoesOn s writer s') (hphase : s.phase = .created) : s' ≠ s := by
  rintro rfl
  obtain ⟨writer', hwriting, -⟩ | ⟨stage, hreturned⟩ := h.phase
  . rw [hphase] at hwriting
    contradiction
  . rw [hphase] at hreturned
    contradiction

theorem ne_of_writing (h : GoesOn s writer s') (hphase : s.phase = .writing writer) : s' ≠ s := by
  rintro rfl
  obtain ⟨writer', hwriting, hne⟩ | ⟨stage, hreturned⟩ := h.phase
  . rw [hphase] at hwriting
    exact hne (Phase.writing.inj hwriting).symm
  . rw [hphase] at hreturned
    contradiction

theorem result (h : GoesOn s writer s') (result : Result Int) (stage : List Byte)
    (hphase : s'.phase = .returned result stage) : result = .ok s.buffer.length := by
  obtain ⟨writer', hwriting, -⟩ | ⟨stage', hreturned⟩ := h.phase
  . rw [hphase] at hwriting
    contradiction
  . rw [hphase] at hreturned
    exact (Phase.returned.inj hreturned).1

end GoesOn

namespace Untroubled

theorem poll (h : Untroubled backing s) (hfree : s.file.Free)
    (hreturned : ∀ result stage, s.phase ≠ .returned result stage)
    : ∃ s', s.poll backing willing = some s' ∧ s' ≠ s ∧ ¬ s'.file.Failed ∧
        ∀ result stage, s'.phase = .returned result stage → result = .ok s.buffer.length := by
  unfold State.poll
  split
  . next hphase =>
    have hprepare : s.prepare willing = .ok () := if_neg (Nat.not_lt.mpr h.fits)
    rw [hprepare]
    obtain ⟨s', hresume, hgoes⟩ := resume_willing (h.working.writes_start hphase) hfree
    exact ⟨s', hresume, hgoes.ne_of_created hphase, hgoes.kept, hgoes.result⟩
  . next writer hphase =>
    obtain ⟨s', hresume, hgoes⟩ := resume_willing (h.working.writes hphase) hfree
    exact ⟨s', hresume, hgoes.ne_of_writing hphase, hgoes.kept, hgoes.result⟩
  . next hphase => exact absurd hphase (hreturned _ _)

theorem work (h : Untroubled backing s) {rest : List Byte} (hbusy : s.file = .busy rest)
    : ∃ s', s.work (.data rest.length) = some s' ∧ ¬ s'.file.Failed ∧ s'.phase = s.phase := by
  have hrest : rest.length ≠ 0 := by
    intro hzero
    rw [List.length_eq_zero_iff.mp hzero] at hbusy
    exact h.working.busy hbusy
  simp [State.work, hbusy, hrest, FileState.Failed]

theorem exists_step (h : Untroubled backing s)
    (hreturned : ∀ result stage, s.phase ≠ .returned result stage)
    : ∃ e s', step backing s e = some s' ∧ Untroubled backing s' ∧ s'.left < s.left := by
  have hpoll (hfree : s.file.Free)
      : ∃ e s', step backing s e = some s' ∧ Untroubled backing s' ∧ s'.left < s.left := by
    obtain ⟨s', hpoll, hne, hkept, hresult⟩ := h.poll hfree hreturned
    have hcall := @sameCall_step backing s s' h.working.faithful (.poll willing) hpoll
    obtain ⟨hworking, hcases⟩ := @Working.step backing s s' h.working (.poll willing) hpoll
    refine ⟨.poll willing, s', hpoll, ⟨hworking, ?_, hkept, ?_⟩, hcases.resolve_left hne⟩
    . rw [hcall.buffer, hcall.minimum]
      exact h.fits
    . rwa [hcall.buffer]
  cases hfile : s.file with
  | idle => exact hpoll (.inl hfile)
  | finished result =>
    cases result with
    | ok _ => exact hpoll (.inr hfile)
    | error e =>
      have hkept := h.kept
      rw [hfile] at hkept
      exact absurd trivial hkept
  | busy rest =>
    obtain ⟨s', hwork, hkept, hphase⟩ := h.work hfile
    have hcall := sameCall_work hwork
    obtain ⟨hbusy, hlt⟩ := h.working.work hwork
    refine ⟨.work (.data rest.length), s', hwork, ⟨?_, ?_, hkept, ?_⟩, hlt⟩
    . exact ⟨h.working.faithful.work hwork, hbusy⟩
    . rw [hcall.buffer, hcall.minimum]
      exact h.fits
    . intro result stage hreturned'
      rw [hphase] at hreturned'
      exact absurd hreturned' (hreturned result stage)

theorem exists_run (h : Untroubled backing s)
    : ∃ es s', Lts.run (step backing) s es = some s' ∧
        (Untroubled backing s' ∧ s'.buffer = s.buffer) ∧
        (∃ result stage, s'.phase = .returned result stage) ∧ es.length ≤ s.left := by
  have hstep (s₁ : State) (h₁ : Untroubled backing s₁ ∧ s₁.buffer = s.buffer)
      (hgoing : ¬ ∃ result stage, s₁.phase = .returned result stage)
      : ∃ e s₂, step backing s₁ e = some s₂ ∧ (Untroubled backing s₂ ∧ s₂.buffer = s.buffer) ∧
          s₂.left < s₁.left := by
    obtain ⟨huntroubled, hbuffer⟩ := h₁
    obtain ⟨e, s₂, hstep, huntroubled', hlt⟩ :=
      huntroubled.exists_step fun result stage hphase => hgoing ⟨result, stage, hphase⟩
    have hcall := sameCall_step huntroubled.working.faithful hstep
    exact ⟨e, s₂, hstep, ⟨huntroubled', hcall.buffer.trans hbuffer⟩, hlt⟩
  exact Lts.exists_run_of_decreasing hstep ⟨h, rfl⟩

theorem received_of_returned (h : Untroubled backing s) {result : Result Int} {stage : List Byte}
    (hphase : s.phase = .returned result stage) : s.received = s.buffer := by
  have hresult := h.returned result stage hphase
  subst hresult
  cases hbuffer : s.buffer with
  | nil =>
    have hprefix := h.working.faithful.deliversBuffer.received_prefix
    rw [hbuffer] at hprefix
    exact List.prefix_nil.mp hprefix
  | cons byte rest =>
    rw [← hbuffer]
    refine (h.working.faithful.exact _ stage hphase ?_).2.1
    rw [hbuffer, List.length_cons]
    omega

end Untroubled

theorem working_of_run {buffer : List Byte} {minimumLengthToBeWritten : Nat} {timeout : Duration}
    {es : List Event}
    (hrun : Lts.run (step backing) (.new buffer minimumLengthToBeWritten timeout) es = some s)
    : Working backing s ∧ s.buffer = buffer ∧ s.minimumLengthToBeWritten = minimumLengthToBeWritten := by
  apply Lts.invariant (J := fun s => Working backing s ∧ s.buffer = buffer ∧
    s.minimumLengthToBeWritten = minimumLengthToBeWritten) ?_ ?_ hrun
  . intro s e s' h hstep
    obtain ⟨hworking, hbuffer, hminimum⟩ := h
    have hcall := sameCall_step hworking.faithful hstep
    exact ⟨(hworking.step hstep).1, hcall.buffer.trans hbuffer, hcall.minimum.trans hminimum⟩
  . exact ⟨.new backing buffer minimumLengthToBeWritten timeout, rfl, rfl⟩

theorem left_le_of_run {buffer : List Byte} {minimumLengthToBeWritten : Nat} {timeout : Duration}
    {es : List Event}
    (hrun : Lts.run (step backing) (.new buffer minimumLengthToBeWritten timeout) es = some s)
    : s.left ≤ 2 * buffer.length + 2 := by
  have hnew : Working backing (.new buffer minimumLengthToBeWritten timeout) ∧
      (State.new buffer minimumLengthToBeWritten timeout).left ≤ 2 * buffer.length + 2 :=
    ⟨.new backing buffer minimumLengthToBeWritten timeout, Nat.le_refl _⟩
  refine (Lts.invariant (J := fun s => Working backing s ∧ s.left ≤ _) ?_ hnew hrun).2
  intro s e s' h hstep
  obtain ⟨hworking, hcases⟩ := h.1.step hstep
  refine ⟨hworking, ?_⟩
  cases hcases with
  | inl hsame => exact hsame ▸ h.2
  | inr hlt => exact (Nat.le_of_lt hlt).trans h.2

structure Delivers (buffer : List Byte) (s : State) : Prop where
  phase : ∃ stage, s.phase = .returned (.ok buffer.length) stage
  received : s.received = buffer

/--
A call of `io_write` with a minimum that the buffer can meet is never stuck: while nothing has failed and
it has not timed out, there are steps after which it has delivered its buffer.
-/
theorem can_deliver (backing : Backing) (buffer : List Byte) (minimumLengthToBeWritten : Nat)
    (timeout : Duration) (hfits : minimumLengthToBeWritten ≤ buffer.length) (es : List Event) (s : State)
    (hrun : Lts.run (step backing) (.new buffer minimumLengthToBeWritten timeout) es = some s)
    (hkept : ¬ s.file.Failed) (hgoing : ∀ result stage, s.phase ≠ .returned result stage)
    : ∃ es' s', Lts.run (step backing) s es' = some s' ∧ Delivers buffer s' ∧
        es'.length ≤ 2 * buffer.length + 2 := by
  obtain ⟨hworking, hbuffer, hminimum⟩ := working_of_run hrun
  have huntroubled : Untroubled backing s := by
    refine ⟨hworking, ?_, hkept, fun result stage hphase => absurd hphase (hgoing result stage)⟩
    rw [hbuffer, hminimum]
    exact hfits
  obtain ⟨es', s', hrun', ⟨hend, hbuffer'⟩, ⟨result, stage, hphase⟩, hlength⟩ :=
    huntroubled.exists_run
  refine ⟨es', s', hrun', ⟨⟨stage, ?_⟩, ?_⟩, ?_⟩
  . rw [hphase, hend.returned result stage hphase, hbuffer', hbuffer]
  . rw [hend.received_of_returned hphase, hbuffer', hbuffer]
  . exact hlength.trans (left_le_of_run hrun)

theorem can_deliver_file
    : ∃ s, Lts.run (step .file) (.new [1, 2, 3, 4] 2 0) [.poll {}, .work (.data 3)] = some s ∧
        ∃ es' s', Lts.run (step .file) s es' = some s' ∧ Delivers [1, 2, 3, 4] s' ∧ es'.length ≤ 10 := by
  let s : State :=
    {
      buffer := [1, 2, 3, 4]
      minimumLengthToBeWritten := 2
      timeout := none
      phase := .writing { buf := [], written := 0, position := .flushInner }
      file := .busy [4]
      received := [1, 2, 3]
    }
  have hrun : Lts.run (step .file) (.new [1, 2, 3, 4] 2 0) [.poll {}, .work (.data 3)] = some s := rfl
  refine ⟨s, hrun, can_deliver .file [1, 2, 3, 4] 2 0 (by decide) _ s hrun ?_ ?_⟩
  . simp [s, FileState.Failed]
  . simp [s]

end IoWrite
end Shreduler
