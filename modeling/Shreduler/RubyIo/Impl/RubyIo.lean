import Mathlib.Logic.Function.Basic
import Shreduler.Lts.Basic
import Shreduler.RubyIo.Impl.Basic

/-!
This module contains `RubyIo` and the transition system of the `RubyIo`s that the hooks create and
drop, over the descriptors of the process and the reactor of the runtime.
-/

namespace Shreduler

inductive BackingIo where
  | unixSocket (fd : RawFd)
  | tcpSocket (fd : RawFd)
  | file (fd : RawFd)
  | udpSocket (fd : RawFd)
  deriving DecidableEq, Repr

def BackingIo.asRawFd : BackingIo → RawFd
  | .unixSocket fd | .tcpSocket fd | .file fd | .udpSocket fd => fd

structure Descriptor where
  isOpen : Bool
  -- The descriptor is in the `epoll` set of the reactor.
  registered : Bool
  deriving DecidableEq, Repr

inductive EpollAdd where
  | added
  | alreadyAdded
  | failed (e : Errno)
  deriving DecidableEq, Repr

structure Reactor where
  fds : RawFd → Descriptor
  -- History: what came of the registrations, newest first.
  log : List (RawFd × EpollAdd)

namespace Reactor

def close (r : Reactor) (fd : RawFd) : Reactor :=
  { r with fds := Function.update r.fds fd ⟨false, false⟩ }

def epollCtlAdd (r : Reactor) (fd : RawFd) (refused : Option Errno) : Except Errno Unit × Reactor :=
  if ¬ (r.fds fd).isOpen then
    (.error .ebadf, { r with log := (fd, .failed .ebadf) :: r.log })
  else if (r.fds fd).registered then
    (.error .eexist, { r with log := (fd, .alreadyAdded) :: r.log })
  else
    match refused with
    | some e => (.error e, { r with log := (fd, .failed e) :: r.log })
    | none =>
      (.ok (), { fds := Function.update r.fds fd ⟨true, true⟩, log := (fd, .added) :: r.log })

/--
`from_std` of the sockets of tokio: the standard socket, which owns the descriptor, is dropped if the
registration fails.
-/
def fromStd (r : Reactor) (fd : RawFd) (refused : Option Errno) : Except Errno Unit × Reactor :=
  match r.epollCtlAdd fd refused with
  | (.error e, r) => (.error e, r.close fd)
  | (.ok _, r) => (.ok (), r)

end Reactor

/-- What `RubyIo::new_with_interest` finds outside of the scheduler. -/
structure NewEnv where
  -- `IO.try_convert(value)`.
  tryConvert : Result Value
  -- `value.fileno`.
  fileno : Result RawFd
  refused : Option Errno := none
  -- `Debug for magnus::Value`.
  inspect : String := ""

structure RubyIo where
  value : Value
  backingIo : Option BackingIo
  deriving DecidableEq

/-- The socket branches of `BackingIo::from_value_and_raw_fd`. -/
def socketFromRawFd (r : Reactor) (refused : Option Errno) (rawFd : RawFd) (socket : String)
    (backingIo : RawFd → BackingIo) : Result BackingIo × Reactor :=
  match r.fromStd rawFd refused with
  | (.error e, r) =>
    (.error (newTypeError s!"Could not create {socket} from RawFd {rawFd}: {e.ioError}"), r)
  | (.ok _, r) => (.ok (backingIo rawFd), r)

def BackingIo.fromValueAndRawFd (r : Reactor) (env : NewEnv) (value : Value) (rawFd : RawFd)
    : Result BackingIo × Reactor :=
  let classname := value.classname
  if classname = "UNIXSocket" then
    socketFromRawFd r env.refused rawFd "tokio::net::UnixStream" .unixSocket
  else if classname = "IO" ∨ classname = "File" then
    (.ok (.file rawFd), r)
  else if classname = "UDPSocket" then
    socketFromRawFd r env.refused rawFd "tokio::net::UdpSocket" .udpSocket
  else if classname = "Socket" ∨ classname = "TCPServer" ∨ classname = "TCPSocket" then
    socketFromRawFd r env.refused rawFd "tokio::net::TcpStream" .tcpSocket
  else
    (.error (newTypeError
      s!"Could not create BackingIo from value {env.inspect} and RawFd {rawFd}"), r)

namespace RubyIo

/-- `RubyIo::new_with_interest`, which ignores the interest. -/
def newWithInterest (r : Reactor) (env : NewEnv) (value : Value) : Result RubyIo × Reactor :=
  match env.tryConvert with
  | .error e => (.error e, r)
  | .ok _ =>
    match env.fileno with
    | .error e => (.error e, r)
    | .ok fileno =>
      match BackingIo.fromValueAndRawFd r env value fileno with
      | (.error e, r) => (.error e, r)
      | (.ok backingIo, r) => (.ok { value, backingIo := some backingIo }, r)

def forget (r : Reactor) (_io : BackingIo) : Reactor := r

def drop (r : Reactor) (io : RubyIo) : Reactor :=
  match io.backingIo with
  | some io => forget r io
  | none => r

structure State where
  reactor : Reactor
  -- The live `RubyIo`s, oldest first.
  live : List RubyIo

def State.new (isOpen : RawFd → Bool) : State where
  reactor := { fds := fun fd => ⟨isOpen fd, false⟩, log := [] }
  live := []

inductive Event where
  -- A hook, or a future of `io_select`, makes a `RubyIo`.
  | newWithInterest (value : Value) (env : NewEnv)
  -- Its future ends, panics or is dropped.
  | drop (i : Nat)

def step (s : State) : Event → Option State
  | .newWithInterest value env =>
    match newWithInterest s.reactor env value with
    | (.ok io, reactor) => some { reactor, live := s.live ++ [io] }
    | (.error _, reactor) => some { s with reactor }
  | .drop i =>
    match s.live[i]? with
    | some io => some { reactor := drop s.reactor io, live := s.live.eraseIdx i }
    | none => none

end RubyIo
end Shreduler
