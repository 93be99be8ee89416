import Shreduler.RubyIo.Impl.RubyIo
import Shreduler.TokioScheduler.Impl.FiberFuture

/-!
This module contains `io_read` on one stream IO that has no other reader, with the transition system of
the futures of its calls, which may overlap, and over it what the fibers that make the calls get to see.
-/

namespace Shreduler
namespace IoRead

abbrev Byte := UInt8

inductive Backing where
  | socket
  | file
  deriving DecidableEq, Repr

def Backing.classnames : Backing → List String
  | .socket => ["UNIXSocket", "Socket", "TCPServer", "TCPSocket"]
  | .file => ["IO", "File"]

structure Io where
  value : Value
  fileno : RawFd
  backing : Backing
  classname : value.classname ∈ backing.classnames

def Io.newEnv (io : Io) (env : NewEnv) : NewEnv :=
  { env with fileno := env.fileno.map fun _ => io.fileno }

structure IoError where
  rawOsError : Option Nat
  deriving DecidableEq, Repr

inductive OsRead where
  | data (n : Nat)
  | wouldBlock
  | error (e : IoError)
  deriving DecidableEq, Repr

def eagain : IoError := ⟨some 11⟩

/-! ### `tokio::io::BufReader` -/

def bufReaderCapacity : Nat := 8192

/-- The length of the buffer that the inner reader has to fill. A large read goes past `BufReader`. -/
def innerLength (amount : Nat) : Nat := max amount bufReaderCapacity

def handOut (amount : Nat) (bytes : List Byte) : List Byte := bytes.take amount

def fileMaxBufSize : Nat := 2 * 1024 * 1024

/-! ### `TokioScheduler::io_read` -/

/-- `tokio::fs::File`, which reads in a worker of the blocking pool. -/
inductive FileState where
  | idle
  | busy (length : Nat)
  | finished (result : Except IoError (List Byte))
  deriving DecidableEq

inductive Phase where
  | created
  | reading (file : FileState)
  -- The future is ready.
  | returned (result : Result Int)
  -- The future was dropped, its task being aborted.
  | dropped
  deriving DecidableEq

structure Call where
  buffer : List Byte
  minimumLengthToRead : Nat
  timeout : Option Duration
  phase : Phase
  deriving DecidableEq

structure Return where
  result : Result Int
  buffer : List Byte
  deriving DecidableEq

structure ReadEnv where
  withNonblock : Result Unit := .ok ()
  asMutSlice : Result Unit := .ok ()
  read : OsRead := .wouldBlock
  -- The timer of `with_timeout` has fired.
  elapsed : Bool := false

structure State where
  -- The part of the stream that nobody has read.
  unread : List Byte
  reactor : Reactor
  -- Oldest first, with those whose futures are gone.
  calls : List Call
  -- The workers that still read for futures that are gone: the call, and the length of the buffer.
  orphans : List (Nat × Nat)
  -- History: for which call what was read, oldest first.
  reads : List (Nat × List Byte)

def State.new (stream : List Byte) : State where
  unread := stream
  reactor := { fds := fun _ => ⟨true, false⟩, log := [] }
  calls := []
  orphans := []
  reads := []

namespace Call

def amountToRead (call : Call) : Nat :=
  if call.minimumLengthToRead = 0 then call.buffer.length else call.minimumLengthToRead

def prepare (call : Call) (env : ReadEnv) : Result Unit :=
  match env.withNonblock with
  | .error e => .error e
  | .ok _ =>
    match env.asMutSlice with
    | .error e => .error e
    | .ok _ =>
      if call.minimumLengthToRead > call.buffer.length then
        .error (newBaseError
          s!"Cannot read more than the buffer size: {call.minimumLengthToRead} > {call.buffer.length}")
      else
        .ok ()

/-- `read_at_least` and what `io_read` makes of its result. -/
def returned (call : Call) (read : Except IoError (List Byte)) : Return :=
  match read with
  | .ok bytes =>
    let handed := handOut call.amountToRead bytes
    { result := .ok handed.length, buffer := handed ++ call.buffer.drop handed.length }
  | .error e => { result := .ok (-(e.rawOsError.getD 0 : Nat)), buffer := call.buffer }

def worker (call : Call) : Option Nat :=
  match call.phase with
  | .reading (.busy length) => some length
  | _ => none

end Call

namespace State

def setCall (s : State) (i : Nat) (call : Call) : State := { s with calls := s.calls.set i call }

def finish (s : State) (i : Nat) (call : Call) (r : Return) : State :=
  s.setCall i { call with buffer := r.buffer, phase := .returned r.result }

def leaveBehind (s : State) (i : Nat) (call : Call) : State :=
  { s with orphans := s.orphans ++ (call.worker.map (i, ·)).toList }

/--
`RubyIo::new_with_interest` of the IO. When it closes the descriptor, what was still to be read is gone.
-/
def newWithInterest (io : Io) (s : State) (env : NewEnv) : Result RubyIo × State :=
  let (result, reactor) := RubyIo.newWithInterest s.reactor (io.newEnv env) io.value
  let unread := if (reactor.fds io.fileno).isOpen then s.unread else []
  (result, { s with reactor, unread })

/-- `read(2)` takes `n` bytes off the stream, none only at its end. -/
def CanRead (io : Io) (s : State) (length n : Nat) : Prop :=
  (s.reactor.fds io.fileno).isOpen ∧ n ≤ length ∧ n ≤ s.unread.length ∧ (n = 0 → s.unread = [])

instance (io : Io) (s : State) (length n : Nat) : Decidable (s.CanRead io length n) :=
  inferInstanceAs (Decidable (_ ∧ _))

def take (s : State) (i n : Nat) : State :=
  { s with unread := s.unread.drop n, reads := s.reads ++ [(i, s.unread.take n)] }

def pending (s : State) (i : Nat) (call : Call) (env : ReadEnv) : State :=
  match call.timeout with
  | some duration =>
    if env.elapsed then
      (s.leaveBehind i call).finish i call ⟨.error (timedOut duration "io_read"), call.buffer⟩
    else
      s.setCall i call
  | none => s.setCall i call

def pollSocket (io : Io) (s : State) (i : Nat) (call : Call) (env : ReadEnv) : Option State :=
  match env.read with
  | .data n =>
    if s.CanRead io (innerLength call.amountToRead) n then
      some ((s.take i n).finish i call (call.returned (.ok (s.unread.take n))))
    else
      none
  | .wouldBlock => some (s.pending i { call with phase := .reading .idle } env)
  | .error e => some (s.finish i call (call.returned (.error e)))

def pollFile (s : State) (i : Nat) (call : Call) (file : FileState) (env : ReadEnv) : State :=
  match file with
  | .idle =>
    let length := min (innerLength call.amountToRead) fileMaxBufSize
    s.pending i { call with phase := .reading (.busy length) } env
  | .busy length => s.pending i { call with phase := .reading (.busy length) } env
  | .finished result => s.finish i call (call.returned result)

def pollCall (io : Io) (s : State) (i : Nat) (call : Call) (env : ReadEnv) : Option State :=
  match call.phase with
  | .created =>
    match call.prepare env with
    | .error e => some (s.finish i call ⟨.error e, call.buffer⟩)
    | .ok _ =>
      match io.backing with
      | .socket => s.pollSocket io i call env
      | .file => some (s.pollFile i call .idle env)
  | .reading file =>
    match io.backing with
    | .socket => s.pollSocket io i call env
    | .file => some (s.pollFile i call file env)
  | .returned _ | .dropped => none

def work (io : Io) (s : State) (i length : Nat) (read : OsRead)
    : Option (Except IoError (List Byte) × State) :=
  match read with
  | .data n => if s.CanRead io length n then some (.ok (s.unread.take n), s.take i n) else none
  | .wouldBlock => some (.error eagain, s)
  | .error e => some (.error e, s)

def drop (s : State) (i : Nat) (call : Call) : Option State :=
  match call.phase with
  | .created | .reading _ => some ((s.leaveBehind i call).setCall i { call with phase := .dropped })
  | .returned _ | .dropped => none

end State

inductive Event where
  -- A fiber calls `io_read`. If `RubyIo::new_with_interest` fails, there is nothing more to the call.
  | ioRead (buffer : List Byte) (minimumLengthToRead : Nat) (timeout : Duration) (env : NewEnv)
  -- Another hook makes a `RubyIo` of the IO.
  | newWithInterest (env : NewEnv)
  | poll (i : Nat) (env : ReadEnv)
  -- The worker of a call reads, or one that a future has left behind.
  | work (i : Nat) (read : OsRead)
  | orphan (k : Nat) (read : OsRead)
  | drop (i : Nat)

def step (io : Io) (s : State) : Event → Option State
  | .ioRead buffer minimumLengthToRead timeout env =>
    match s.newWithInterest io env with
    | (.error _, s) => some s
    | (.ok _, s) =>
      let timeout := if timeout = 0 then none else some timeout
      let call := { buffer, minimumLengthToRead, timeout, phase := .created }
      some { s with calls := s.calls ++ [call] }
  | .newWithInterest env => some (s.newWithInterest io env).2
  | .poll i env => s.calls[i]?.bind fun call => s.pollCall io i call env
  | .work i read =>
    match s.calls[i]? with
    | some call =>
      match call.phase with
      | .reading (.busy length) =>
        match s.work io i length read with
        | some (result, s) => some (s.setCall i { call with phase := .reading (.finished result) })
        | none => none
      | _ => none
    | none => none
  | .orphan k read =>
    match s.orphans[k]? with
    | some (i, length) =>
      match s.work io i length read with
      | some (_, s) => some { s with orphans := s.orphans.eraseIdx k }
      | none => none
    | none => none
  | .drop i => s.calls[i]?.bind fun call => s.drop i call

/-! ### What Ruby gets to see -/

namespace Ruby

structure State where
  io : IoRead.State
  -- The calls that have not returned to Ruby.
  waiting : List Nat
  -- History: what the calls returned to Ruby, oldest first.
  returns : List Return

def State.new (stream : List Byte) : State where
  io := .new stream
  waiting := []
  returns := []

inductive Event where
  | io (e : IoRead.Event)
  -- `run` hands over what the future of the call is ready with.
  | deliver (i : Nat)
  -- Something else ends the call for its fiber: the exception of a `timeout_after` block, or what the
  -- task of another hook call is ready with. Its future goes on.
  | leave (i : Nat) (result : Result Int)

namespace State

def endCall (s : State) (i : Nat) (r : Return) : State :=
  { s with waiting := s.waiting.erase i, returns := s.returns ++ [r] }

def lift (io : Io) (s : State) (e : IoRead.Event) : Option State :=
  match IoRead.step io s.io e with
  | some io =>
    if io.calls.length = s.io.calls.length then
      some { s with io }
    else
      some { s with io, waiting := s.waiting ++ [s.io.calls.length] }
  | none => none

def deliver (s : State) (i : Nat) : Option State :=
  if i ∈ s.waiting then
    match s.io.calls[i]? with
    | some call =>
      match call.phase with
      | .returned result => some (s.endCall i ⟨result, call.buffer⟩)
      | .created | .reading _ | .dropped => none
    | none => none
  else
    none

def leave (s : State) (i : Nat) (result : Result Int) : Option State :=
  if i ∈ s.waiting then
    s.io.calls[i]?.map fun call => s.endCall i ⟨result, call.buffer⟩
  else
    none

end State

def step (io : Io) (s : State) : Event → Option State
  | .io e => s.lift io e
  | .deliver i => s.deliver i
  | .leave i result => s.leave i result

end Ruby
end IoRead
end Shreduler
