import Mathlib.Logic.Function.Basic
import Shreduler.Lts.Basic
import Shreduler.RubyIo.Impl.Basic

/-!
This module contains `NonBlockGuard`, and the transition system of the guards that the hooks create
and drop on the descriptors of the process, in any order.
-/

namespace Shreduler

abbrev OFlag := BitVec 32

/--
The status flags of a platform: `OFlag::all`, the flags that `F_SETFL` changes, `O_NONBLOCK`.
-/
structure StatusFlags where
  all : OFlag
  settable : OFlag
  nonblock : OFlag
  settable_le_all : settable &&& all = settable
  nonblock_le_settable : nonblock &&& settable = nonblock

def StatusFlags.linux : StatusFlags where
  all := 0x7F7FC3
  settable := 0x46C00
  nonblock := 0x800
  settable_le_all := by decide
  nonblock_le_settable := by decide

-- `none` if the descriptor is closed. Each of the others is of an open file of its own, and stays open.
abbrev FdFlags := RawFd → Option OFlag

structure NonBlockGuard where
  rawFd : RawFd
  oldFlags : OFlag
  deriving DecidableEq

section Fcntl

variable (sf : StatusFlags)

def fromBitsTruncate (bits : BitVec 32) : OFlag := bits &&& sf.all

def contains (flags other : OFlag) : Bool := flags &&& other = other

def fcntlGetfl (os : FdFlags) (fd : RawFd) : Except Errno (BitVec 32) :=
  match os fd with
  | some flags => .ok flags
  | none => .error .ebadf

/-- What `F_SETFL` makes of the flags of a descriptor. -/
def setfl (flags new : OFlag) : OFlag := flags &&& ~~~sf.settable ||| new &&& sf.settable

def fcntlSetfl (os : FdFlags) (fd : RawFd) (new : OFlag) : Except Errno Unit × FdFlags :=
  match os fd with
  | some flags => (.ok (), Function.update os fd (some (setfl sf flags new)))
  | none => (.error .ebadf, os)

namespace NonBlockGuard

def new (os : FdFlags) (fd : RawFd) : Result NonBlockGuard × FdFlags :=
  match fcntlGetfl os fd with
  | .error e =>
    (.error (newBaseError s!"Could not get file descriptor flags for {fd}: {e.nixError}"), os)
  | .ok flags =>
    let oldFlags := fromBitsTruncate sf flags
    let newFlags := oldFlags ||| sf.nonblock
    match fcntlSetfl sf os fd newFlags with
    | (.error e, os) =>
      (.error (newBaseError s!"Could not set file descriptor flags for {fd}: {e.nixError}"), os)
    | (.ok _, os) => (.ok { rawFd := fd, oldFlags }, os)

def drop (os : FdFlags) (guard : NonBlockGuard) : FdFlags :=
  (fcntlSetfl sf os guard.rawFd guard.oldFlags).2

structure State where
  os : FdFlags
  -- The live guards, oldest first.
  guards : List NonBlockGuard

inductive Event where
  -- The future of `io_read`, `io_write` or `io_wait` calls `RubyIo::with_nonblock`.
  | withNonblock (fd : RawFd)
  -- Such a future ends, or is dropped.
  | drop (i : Nat)

def step (s : State) : Event → Option State
  | .withNonblock fd =>
    match new sf s.os fd with
    | (.ok guard, os) => some { os, guards := s.guards ++ [guard] }
    | (.error _, os) => some { s with os }
  | .drop i =>
    match s.guards[i]? with
    | some guard => some { os := drop sf s.os guard, guards := s.guards.eraseIdx i }
    | none => none

end NonBlockGuard
end Fcntl
end Shreduler
