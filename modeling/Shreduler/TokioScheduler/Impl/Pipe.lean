import Shreduler.TokioScheduler.Impl.IoWrite

/-!
This module contains a pipe, or a pair of sockets, between fibers that make calls of `io_write` on one of
its ends and fibers that make calls of `io_read` on the other.
-/

namespace Shreduler
namespace Pipe

open IoRead (Byte Backing Io)

/-- What the descriptor of the reading end gets to see, for as long as it is open. -/
def feed (reading : Io) (reader : IoRead.State) (bytes : List Byte) : IoRead.State :=
  if (reader.reactor.fds reading.fileno).isOpen then
    { reader with unread := reader.unread ++ bytes }
  else
    reader

structure State where
  -- The calls of `io_write`, oldest first, those that have returned included.
  writes : List IoWrite.State
  reader : IoRead.State
  -- History: what the descriptor of the writing end has taken.
  arrived : List Byte

def State.new : State where
  writes := []
  reader := .new []
  arrived := []

inductive Event where
  | ioWrite (buffer : List Byte) (minimumLengthToBeWritten : Nat) (timeout : Duration)
  -- A step of the `i`th call of `io_write`, or of the worker that it has left behind.
  | write (i : Nat) (e : IoWrite.Event)
  -- A read of zero bytes may come before the writing end is closed: this only adds runs.
  | read (e : IoRead.Event)

def step (writing : Backing) (reading : Io) (s : State) : Event → Option State
  | .ioWrite buffer minimumLengthToBeWritten timeout =>
    some { s with writes := s.writes ++ [.new buffer minimumLengthToBeWritten timeout] }
  | .write i e =>
    match s.writes[i]? with
    | some w =>
      match IoWrite.step writing w e with
      | some w' =>
        let taken := w'.received.drop w.received.length
        let reader := feed reading s.reader taken
        some { writes := s.writes.set i w', reader, arrived := s.arrived ++ taken }
      | none => none
    | none => none
  | .read e =>
    match IoRead.step reading s.reader e with
    | some reader => some { s with reader }
    | none => none

end Pipe
end Shreduler
