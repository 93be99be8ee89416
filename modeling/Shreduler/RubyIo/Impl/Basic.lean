import Shreduler.Basic

/-!
This module contains the descriptors and the operating system errors that `RubyIo` deals with.
-/

namespace Shreduler

abbrev RawFd := Int32

structure Errno where
  code : Int32
  name : String
  desc : String
  strerror : String
  deriving DecidableEq, Repr

namespace Errno

def ebadf : Errno := ⟨9, "EBADF", "Bad file number", "Bad file descriptor"⟩

def eexist : Errno := ⟨17, "EEXIST", "File exists", "File exists"⟩

/-- `Display for nix::errno::Errno`. -/
def nixError (e : Errno) : String := s!"{e.name}: {e.desc}"

/-- `Display for std::io::Error`. -/
def ioError (e : Errno) : String := s!"{e.strerror} (os error {e.code})"

end Errno
end Shreduler
