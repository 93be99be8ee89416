import Shreduler.RubyIo.Impl.RubyIo
import Shreduler.TokioScheduler.Impl.IoSelect

/-!
This module contains what tokio knows about the readiness of an IO, and when a wait for it is over.
-/

namespace Shreduler

open IoSelect (Interest)

structure Ready where
  readable : Bool
  writable : Bool
  deriving DecidableEq, Repr

namespace Ready

def none : Ready := ⟨false, false⟩

def union (ready ready' : Ready) : Ready :=
  ⟨ready.readable || ready'.readable, ready.writable || ready'.writable⟩

def meets (ready : Ready) : Interest → Bool
  | .readable => ready.readable
  | .writable => ready.writable
  | .readableWritable => ready.readable || ready.writable

end Ready

/--
`BackingIo::ready` is over. A socket waits until the reactor has seen one of the events, since it was
registered, even if that is past; a file is always ready.
-/
def BackingIo.ready (io : BackingIo) (interest : Interest) (seen : Ready) : Bool :=
  match io with
  | .unixSocket _ | .tcpSocket _ | .udpSocket _ => seen.meets interest
  | .file _ => true

end Shreduler
