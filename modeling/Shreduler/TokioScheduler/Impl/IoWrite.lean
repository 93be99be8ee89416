import Shreduler.BufWriter.Basic
import Shreduler.TokioScheduler.Impl.IoReadWrite

/-!
This module contains a call of `io_write` on an IO that has no other writer, and its transition system.
A poll of its future makes one call after the other on the backing IO, until one of them is pending.
-/

namespace Shreduler
namespace IoWrite

open IoRead (Byte Backing IoError eagain fileMaxBufSize)

def bufWriterCapacity : Nat := 8192

/-- `ErrorKind::WriteZero`, of `BufWriter`, `tokio` or the standard library. -/
def writeZero : IoError := ⟨none⟩

/-- `spawn_mandatory_blocking` has not got a worker. -/
def backgroundTaskFailed : IoError := ⟨none⟩

inductive OsWrite where
  | data (n : Nat)
  | wouldBlock
  | error (e : IoError)
  deriving DecidableEq, Repr

inductive FileState where
  | idle
  -- `write_all` of the worker, with what is left of its argument.
  | busy (rest : List Byte)
  | finished (result : Except IoError Unit)
  deriving DecidableEq

inductive Phase where
  | created
  | writing (writer : BufWriter.Writer Byte)
  -- The future is gone, with what its `BufWriter` still had in its stage.
  | returned (result : Result Int) (stage : List Byte)
  deriving DecidableEq

structure WriteEnv where
  withNonblock : Result Unit := .ok ()
  asSlice : Result Unit := .ok ()
  write : OsWrite := .wouldBlock
  spawns : Bool := true
  -- The timer of `with_timeout` has fired.
  elapsed : Bool := false

structure State where
  buffer : List Byte
  minimumLengthToBeWritten : Nat
  timeout : Option Duration
  phase : Phase
  file : FileState
  -- What the descriptor has taken.
  received : List Byte
  deriving DecidableEq

def State.new (buffer : List Byte) (minimumLengthToBeWritten : Nat) (timeout : Duration) : State where
  buffer
  minimumLengthToBeWritten
  timeout := if timeout = 0 then none else some timeout
  phase := .created
  file := .idle
  received := []

inductive PollIo (α : Type) where
  | pending
  | ready (result : Except IoError α)
  deriving DecidableEq

namespace State

def prepare (s : State) (env : WriteEnv) : Result Unit :=
  match env.withNonblock with
  | .error e => .error e
  | .ok _ =>
    match env.asSlice with
    | .error e => .error e
    | .ok _ =>
      if s.minimumLengthToBeWritten > s.buffer.length then
        .error (newBaseError
          s!"Cannot write more than the buffer size: {s.minimumLengthToBeWritten} > {s.buffer.length}")
      else
        .ok ()

def finish (s : State) (result : Result Int) (stage : List Byte) : State :=
  { s with phase := .returned result stage }

def returned (s : State) (writer : BufWriter.Writer Byte) (result : Except IoError Nat) : State :=
  let stage := writer.buf.drop writer.written
  match result with
  | .ok amt => s.finish (.ok amt) stage
  | .error e => s.finish (.ok (-(e.rawOsError.getD 0 : Nat))) stage

def pending (s : State) (writer : BufWriter.Writer Byte) (env : WriteEnv) : State :=
  match s.timeout with
  | some duration =>
    if env.elapsed then
      s.finish (.error (timedOut duration "io_write")) (writer.buf.drop writer.written)
    else
      { s with phase := .writing writer }
  | none => { s with phase := .writing writer }

/-- `BackingIo::poll_write` of a file without a worker. -/
def spawnWorker (s : State) (chunk : List Byte) (env : WriteEnv) : PollIo Nat × State :=
  if env.spawns then
    let chunk := chunk.take fileMaxBufSize
    (.ready (.ok chunk.length), { s with file := .busy chunk })
  else
    (.ready (.error backgroundTaskFailed), { s with file := .idle })

def pollWrite (backing : Backing) (s : State) (chunk : List Byte) (env : WriteEnv)
    : Option (PollIo Nat × State) :=
  match backing with
  | .socket =>
    match env.write with
    | .data n =>
      if n ≤ chunk.length then
        some (.ready (.ok n), { s with received := s.received ++ chunk.take n })
      else
        none
    | .wouldBlock => some (.pending, s)
    | .error e => some (.ready (.error e), s)
  | .file =>
    match s.file with
    | .idle => some (s.spawnWorker chunk env)
    | .busy _ => some (.pending, s)
    | .finished (.ok _) => some (s.spawnWorker chunk env)
    | .finished (.error e) => some (.ready (.error e), { s with file := .idle })

def pollFlush (backing : Backing) (s : State) : PollIo Unit × State :=
  match backing with
  | .socket => (.ready (.ok ()), s)
  | .file =>
    match s.file with
    | .idle => (.ready (.ok ()), s)
    | .busy _ => (.pending, s)
    | .finished result => (.ready result, { s with file := .idle })

/-- `write_at_least` makes its next call on the backing IO. -/
def resume (backing : Backing) (s : State) (writer : BufWriter.Writer Byte) (env : WriteEnv)
    : Option State :=
  match writer.request with
  | .write chunk =>
    match s.pollWrite backing chunk env with
    | none => none
    | some (.pending, s) => some (s.pending writer env)
    | some (.ready (.error e), s) => some (s.returned writer (.error e))
    | some (.ready (.ok n), s) =>
      match writer.taken bufWriterCapacity n with
      | none => some (s.returned writer (.error writeZero))
      | some writer => some { s with phase := .writing writer }
  | .flush =>
    match s.pollFlush backing with
    | (.pending, s) => some (s.pending writer env)
    | (.ready (.error e), s) => some (s.returned writer (.error e))
    | (.ready (.ok _), s) => some (s.returned writer (.ok s.buffer.length))

def poll (backing : Backing) (s : State) (env : WriteEnv) : Option State :=
  match s.phase with
  | .created =>
    match s.prepare env with
    | .error e => some (s.finish (.error e) [])
    | .ok _ => s.resume backing (BufWriter.Writer.start bufWriterCapacity s.buffer) env
  | .writing writer => s.resume backing writer env
  | .returned .. => none

/-- A call of `write(2)` by the worker, which may outlive the future. -/
def work (s : State) (write : OsWrite) : Option State :=
  match s.file with
  | .busy rest =>
    match write with
    | .data n =>
      if n ≤ rest.length then
        if n = 0 then
          some { s with file := .finished (.error writeZero) }
        else
          let file := if n = rest.length then .finished (.ok ()) else .busy (rest.drop n)
          some { s with file, received := s.received ++ rest.take n }
      else
        none
    | .wouldBlock => some { s with file := .finished (.error eagain) }
    | .error e => some { s with file := .finished (.error e) }
  | _ => none

end State

inductive Event where
  -- The poll of the future goes on to its next call on the backing IO.
  | poll (env : WriteEnv)
  | work (write : OsWrite)

def step (backing : Backing) (s : State) : Event → Option State
  | .poll env => s.poll backing env
  | .work write => s.work write

end IoWrite
end Shreduler
