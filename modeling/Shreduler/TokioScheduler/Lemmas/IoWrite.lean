import Shreduler.Lts.Basic
import Shreduler.TokioScheduler.Impl.IoWrite

/-!
This module proves that `io_write` delivers the bytes of its buffer.
-/

namespace Shreduler
namespace IoWrite

open BufWriter (Writer)
open IoRead (Byte Backing IoError eagain fileMaxBufSize)

variable {backing : Backing} {s s' : State} {writer writer' : Writer Byte} {env : WriteEnv}

structure DeliversBuffer (s : State) : Prop where
  received_prefix : s.received <+: s.buffer
  exact : ∀ (n : Int) stage, s.phase = .returned (.ok n) stage → 0 < n →
    n = s.buffer.length ∧ s.received = s.buffer ∧ stage = []

namespace FileState

def unwritten : FileState → List Byte
  | .busy rest => rest
  | .idle | .finished _ => []

def Failed : FileState → Prop
  | .finished (.error _) => True
  | _ => False

end FileState

/-! ### Calls on the backing IO -/

inductive PollWrite (backing : Backing) (s : State) (chunk : List Byte) : PollIo Nat → State → Prop
  | pending : PollWrite backing s chunk .pending s
  | took {n : Nat} (file : FileState) (received : List Byte) (hn : n ≤ chunk.length)
    (hfailed : ¬ s.file.Failed) (hfailed' : ¬ file.Failed) (hidle : backing = .socket → file = s.file)
    (htook : received ++ file.unwritten = s.received ++ s.file.unwritten ++ chunk.take n)
    : PollWrite backing s chunk (.ready (.ok n)) { s with file, received }
  | failed (e : IoError) (file : FileState) (hunwritten : file.unwritten <+: s.file.unwritten)
    (hidle : s.file = .idle → file = .idle)
    : PollWrite backing s chunk (.ready (.error e)) { s with file }

theorem spawnWorker_outcome {chunk : List Byte} {polled : PollIo Nat}
    (hfile : ¬ s.file.Failed ∧ s.file.unwritten = []) (h : s.spawnWorker chunk env = (polled, s'))
    : PollWrite .file s chunk polled s' := by
  unfold State.spawnWorker at h
  split at h
  . simp only [Prod.mk.injEq] at h
    obtain ⟨rfl, rfl⟩ := h
    refine .took (.busy (chunk.take fileMaxBufSize)) s.received ?_ hfile.1 id (by simp) ?_
    . exact List.length_take_le' _ _
    . have htake : chunk.take (chunk.take fileMaxBufSize).length = chunk.take fileMaxBufSize := by
        rw [List.length_take, List.take_eq_take_iff, Nat.min_assoc, Nat.min_self]
      rw [htake, hfile.2, List.append_nil]
      rfl
  . simp only [Prod.mk.injEq] at h
    obtain ⟨rfl, rfl⟩ := h
    exact .failed backgroundTaskFailed .idle List.nil_prefix fun _ => rfl

theorem pollSocket_outcome {chunk : List Byte} {polled : PollIo Nat} (hidle : s.file = .idle)
    (h : s.pollWrite .socket chunk env = some (polled, s')) : PollWrite .socket s chunk polled s' := by
  unfold State.pollWrite at h
  dsimp only at h
  split at h
  . next n _ =>
    simp only [Option.ite_none_right_eq_some, Option.some.injEq, Prod.mk.injEq] at h
    obtain ⟨hn, rfl, rfl⟩ := h
    refine .took s.file (s.received ++ chunk.take n) hn ?_ ?_ (fun _ => rfl) ?_
    . simp [hidle, FileState.Failed]
    . simp [hidle, FileState.Failed]
    . simp [hidle, FileState.unwritten]
  . simp only [Option.some.injEq, Prod.mk.injEq] at h
    obtain ⟨rfl, rfl⟩ := h
    exact .pending
  . next e _ =>
    simp only [Option.some.injEq, Prod.mk.injEq] at h
    obtain ⟨rfl, rfl⟩ := h
    exact .failed e s.file List.prefix_rfl id

theorem pollFile_outcome {chunk : List Byte} {polled : PollIo Nat}
    (h : s.pollWrite .file chunk env = some (polled, s')) : PollWrite .file s chunk polled s' := by
  unfold State.pollWrite at h
  dsimp only at h
  split at h
  . next hfile =>
    refine spawnWorker_outcome ?_ (Option.some.inj h)
    simp [hfile, FileState.Failed, FileState.unwritten]
  . simp only [Option.some.injEq, Prod.mk.injEq] at h
    obtain ⟨rfl, rfl⟩ := h
    exact .pending
  . next hfile =>
    refine spawnWorker_outcome ?_ (Option.some.inj h)
    simp [hfile, FileState.Failed, FileState.unwritten]
  . next e _ =>
    simp only [Option.some.injEq, Prod.mk.injEq] at h
    obtain ⟨rfl, rfl⟩ := h
    exact .failed e .idle List.nil_prefix fun _ => rfl

theorem pollWrite_outcome (hsocket : backing = .socket → s.file = .idle) {chunk : List Byte}
    {polled : PollIo Nat} (h : s.pollWrite backing chunk env = some (polled, s'))
    : PollWrite backing s chunk polled s' := by
  cases backing with
  | socket => exact pollSocket_outcome (hsocket rfl) h
  | file => exact pollFile_outcome h

inductive PollFlush (s : State) : PollIo Unit → State → Prop
  | pending : PollFlush s .pending s
  | flushed (hfailed : ¬ s.file.Failed) (hunwritten : s.file.unwritten = [])
    : PollFlush s (.ready (.ok ())) { s with file := .idle }
  | failed (e : IoError) : PollFlush s (.ready (.error e)) { s with file := .idle }

theorem pollFlush_outcome (hsocket : backing = .socket → s.file = .idle)
    : PollFlush s (s.pollFlush backing).1 (s.pollFlush backing).2 := by
  have hidle (hfile : s.file = .idle) : PollFlush s (.ready (.ok ())) s := by
    have hflushed : PollFlush s (.ready (.ok ())) { s with file := .idle } :=
      .flushed (by simp [hfile, FileState.Failed]) (by simp [hfile, FileState.unwritten])
    rwa [← hfile] at hflushed
  unfold State.pollFlush
  cases backing with
  | socket => exact hidle (hsocket rfl)
  | file =>
    dsimp only
    split
    . next hfile => exact hidle hfile
    . exact .pending
    . next result hfile =>
      cases result with
      | ok _ => exact .flushed (by simp [hfile, FileState.Failed]) (by simp [hfile, FileState.unwritten])
      | error e => exact .failed e

inductive Work (s : State) : State → Prop
  | works (rest : List Byte) (file : FileState) (received : List Byte) (hbusy : s.file = .busy rest)
    (hextends : received ++ file.unwritten <+: s.received ++ rest)
    (hkeeps : ¬ file.Failed → received ++ file.unwritten = s.received ++ rest)
    : Work s { s with file, received }

theorem work_outcome {write : OsWrite} (h : s.work write = some s') : Work s s' := by
  unfold State.work at h
  split at h
  . next rest hbusy =>
    have hfails (e : IoError) : Work s { s with file := .finished (.error e) } := by
      refine .works rest (.finished (.error e)) s.received hbusy ?_ fun hfailed => absurd trivial hfailed
      rw [FileState.unwritten, List.append_nil]
      exact List.prefix_append _ _
    split at h
    . next n =>
      split at h
      . split at h
        . exact Option.some.inj h ▸ hfails writeZero
        . have hkeeps : (s.received ++ rest.take n) ++
              FileState.unwritten (if n = rest.length then .finished (.ok ()) else .busy (rest.drop n))
                = s.received ++ rest := by
            split
            . next hall => rw [hall, List.take_length, FileState.unwritten, List.append_nil]
            . rw [FileState.unwritten, List.append_assoc, List.take_append_drop]
          exact Option.some.inj h ▸ .works rest _ _ hbusy (hkeeps ▸ List.prefix_rfl) fun _ => hkeeps
      . contradiction
    . exact Option.some.inj h ▸ hfails eagain
    . next e => exact Option.some.inj h ▸ hfails e
  . contradiction

/-! ### The invariant -/

structure Faithful (backing : Backing) (s : State) : Prop where
  received_prefix : s.received ++ s.file.unwritten <+: s.buffer
  socket : backing = .socket → s.file = .idle
  created : s.phase = .created → s.file = .idle ∧ s.received = []
  writing : ∀ writer, s.phase = .writing writer → writer.Settled ∧
    (¬ s.file.Failed → s.received ++ s.file.unwritten ++ writer.pending = s.buffer)
  exact : ∀ (n : Int) stage, s.phase = .returned (.ok n) stage → 0 < n →
    n = s.buffer.length ∧ s.received = s.buffer ∧ stage = [] ∧ s.file = .idle

structure Writes (backing : Backing) (s : State) (writer : Writer Byte) : Prop where
  received_prefix : s.received ++ s.file.unwritten <+: s.buffer
  socket : backing = .socket → s.file = .idle
  settled : writer.Settled
  pending : ¬ s.file.Failed → s.received ++ s.file.unwritten ++ writer.pending = s.buffer

namespace Faithful

theorem new (backing : Backing) (buffer : List Byte) (minimumLengthToBeWritten : Nat)
    (timeout : Duration)
    : Faithful backing (.new buffer minimumLengthToBeWritten timeout) where
  received_prefix := List.nil_prefix
  socket _ := rfl
  created _ := ⟨rfl, rfl⟩
  writing writer h := by contradiction
  exact n stage h := by contradiction

theorem deliversBuffer (h : Faithful backing s) : DeliversBuffer s where
  received_prefix := (List.prefix_append _ _).trans h.received_prefix
  exact n stage hphase hpos := by
    obtain ⟨hn, hreceived, hstage, -⟩ := h.exact n stage hphase hpos
    exact ⟨hn, hreceived, hstage⟩

theorem of_writes (h : Writes backing s writer)
    : Faithful backing { s with phase := .writing writer } where
  received_prefix := h.received_prefix
  socket := h.socket
  created hphase := by contradiction
  writing writer' hphase := by
    obtain rfl := Phase.writing.inj hphase
    exact ⟨h.settled, h.pending⟩
  exact n stage hphase := by contradiction

theorem of_finish (hextends : s.received ++ s.file.unwritten <+: s.buffer)
    (hsocket : backing = .socket → s.file = .idle) {result : Result Int} {stage : List Byte}
    (hexact : ∀ n, result = .ok n → 0 < n →
      n = s.buffer.length ∧ s.received = s.buffer ∧ stage = [] ∧ s.file = .idle)
    : Faithful backing (s.finish result stage) where
  received_prefix := hextends
  socket := hsocket
  created hphase := by contradiction
  writing writer hphase := by contradiction
  exact n stage' hphase hpos := by
    obtain ⟨hresult, hstage⟩ := Phase.returned.inj hphase
    exact hstage ▸ hexact n hresult hpos

theorem of_returned_error (hextends : s.received ++ s.file.unwritten <+: s.buffer)
    (hsocket : backing = .socket → s.file = .idle) (writer : Writer Byte) (e : IoError)
    : Faithful backing (s.returned writer (.error e)) := by
  refine of_finish hextends hsocket ?_
  intro n hn hpos
  injection hn with hn
  omega

theorem pending (h : Writes backing s writer) (env : WriteEnv)
    : Faithful backing (s.pending writer env) := by
  unfold State.pending
  split
  . split
    . exact of_finish h.received_prefix h.socket (by simp)
    . exact of_writes h
  . exact of_writes h

theorem resume (h : Writes backing s writer) (hresume : s.resume backing writer env = some s')
    : Faithful backing s' := by
  unfold State.resume at hresume
  split at hresume
  . next chunk hrequest =>
    split at hresume
    . contradiction
    . next hpoll =>
      obtain rfl := Option.some.inj hresume
      cases pollWrite_outcome h.socket hpoll
      exact pending h env
    . next hpoll =>
      obtain rfl := Option.some.inj hresume
      cases pollWrite_outcome h.socket hpoll with
      | failed _ file hunwritten hidle =>
        apply of_returned_error
        . exact ((List.prefix_append_right_inj _).mpr hunwritten).trans h.received_prefix
        . exact fun hbacking => hidle (h.socket hbacking)
    . next hpoll =>
      cases pollWrite_outcome h.socket hpoll with
      | took file received hn hfailed hfailed' hidle htook =>
        have hsocket (hbacking : backing = .socket) := (hidle hbacking).trans (h.socket hbacking)
        have hpending := h.pending hfailed
        split at hresume
        . obtain rfl := Option.some.inj hresume
          refine of_returned_error ?_ hsocket writer writeZero
          have hchunk := (h.settled.chunk_prefix hrequest).2
          dsimp only
          rw [htook, ← hpending]
          exact (List.prefix_append_right_inj _).mpr ((List.take_prefix _ _).trans hchunk)
        . next writer' htaken =>
          obtain rfl := Option.some.inj hresume
          obtain ⟨hsettled', hwriter'⟩ := h.settled.taken hrequest hn htaken
          have hpending' : received ++ file.unwritten ++ writer'.pending = s.buffer := by
            rw [htook, List.append_assoc, ← hwriter', hpending]
          apply @of_writes backing { s with file, received } writer'
          refine ⟨?_, hsocket, hsettled', fun _ => hpending'⟩
          exact hpending' ▸ List.prefix_append _ _
  . next hrequest =>
    obtain ⟨hbuf, hdone⟩ := h.settled.done hrequest
    have houtcome := pollFlush_outcome h.socket
    generalize s.pollFlush backing = polled at hresume houtcome
    obtain ⟨polled, s₁⟩ := polled
    have hextends : s.received ++ FileState.unwritten .idle <+: s.buffer := by
      rw [FileState.unwritten, List.append_nil]
      exact (List.prefix_append _ _).trans h.received_prefix
    cases houtcome with
    | pending =>
      obtain rfl := Option.some.inj hresume
      exact pending h env
    | failed e =>
      obtain rfl := Option.some.inj hresume
      exact of_returned_error hextends (fun _ => rfl) writer e
    | flushed hfailed hunwritten =>
      obtain rfl := Option.some.inj hresume
      refine of_finish hextends (fun _ => rfl) ?_
      intro n hn _
      have hpending := h.pending hfailed
      rw [hdone, hunwritten, List.append_nil, List.append_nil] at hpending
      exact ⟨(Except.ok.inj hn).symm, hpending, by rw [hbuf, List.drop_nil], rfl⟩

theorem poll (h : Faithful backing s) (hpoll : s.poll backing env = some s') : Faithful backing s' := by
  unfold State.poll at hpoll
  split at hpoll
  . next hphase =>
    obtain ⟨hidle, hreceived⟩ := h.created hphase
    split at hpoll
    . obtain rfl := Option.some.inj hpoll
      exact of_finish h.received_prefix h.socket (by simp)
    . refine resume ⟨h.received_prefix, h.socket, BufWriter.Writer.settled_start _ _, ?_⟩ hpoll
      intro _
      rw [BufWriter.Writer.pending_start, hidle, hreceived]
      rfl
  . next writer hphase =>
    obtain ⟨hsettled, hpending⟩ := h.writing writer hphase
    exact resume ⟨h.received_prefix, h.socket, hsettled, hpending⟩ hpoll
  . contradiction

theorem work (h : Faithful backing s) {write : OsWrite} (hwork : s.work write = some s')
    : Faithful backing s' := by
  cases work_outcome hwork with
  | works rest file received hbusy hextends hkeeps =>
    have hnotIdle : s.file ≠ .idle := by simp [hbusy]
    have hfailed : ¬ s.file.Failed := by simp [hbusy, FileState.Failed]
    have hunwritten : s.file.unwritten = rest := by rw [hbusy, FileState.unwritten]
    constructor
    . have hreceived := h.received_prefix
      rw [hunwritten] at hreceived
      exact hextends.trans hreceived
    . exact fun hbacking => absurd (h.socket hbacking) hnotIdle
    . exact fun hcreated => absurd (h.created hcreated).1 hnotIdle
    . intro writer hwriting
      obtain ⟨hsettled, hpending⟩ := h.writing writer hwriting
      refine ⟨hsettled, ?_⟩
      intro hfailed'
      rw [hkeeps hfailed', ← hunwritten]
      exact hpending hfailed
    . exact fun n stage hreturned hpos => absurd (h.exact n stage hreturned hpos).2.2.2 hnotIdle

theorem step (h : Faithful backing s) {e : Event} (hstep : IoWrite.step backing s e = some s')
    : Faithful backing s' := by
  cases e with
  | poll env => exact h.poll hstep
  | work write => exact h.work hstep

end Faithful

/--
Whatever partial writes, delays and errors the backing IO comes up with, a call that reports a positive
count has delivered its buffer, and at every moment the backing IO has received a prefix of it.
-/
theorem delivers_buffer (backing : Backing) (buffer : List Byte) (minimumLengthToBeWritten : Nat)
    (timeout : Duration) (es : List Event)
    : Lts.Always (step backing) DeliversBuffer (.new buffer minimumLengthToBeWritten timeout) es := by
  apply Lts.always_of_invariant (J := Faithful backing)
  . exact fun s e s' h hstep => h.step hstep
  . exact fun s h => h.deliversBuffer
  . exact .new backing buffer minimumLengthToBeWritten timeout

example : (Lts.run (step .file) (.new [1, 2, 3, 4] 0 0)
    [.poll {}, .work (.data 3), .poll {}, .work (.data 1), .poll {}]).any fun s =>
      s.phase = .returned (.ok 4) [] ∧ s.received = [1, 2, 3, 4] := by
  decide

end IoWrite
end Shreduler
