import Shreduler.Basic

namespace Shreduler

/--
The counters are the `AtomicI32`s of the source, whose `fetch_add` and `fetch_sub` wrap.
-/
structure GcCell (α : Type) where
  value : α
  readCount : Int32 := 0
  writeCount : Int32 := 0
  deriving DecidableEq, Repr

namespace GcCell

variable {α : Type}

def newError (message : String) : Error := .error .poisonedCellError message

def tryBorrow (cell : GcCell α) : Result (GcCell α) :=
  if cell.writeCount > 0 then
    .error (newError "already mutably borrowed")
  else
    .ok { cell with readCount := cell.readCount + 1 }

def tryBorrowMut (cell : GcCell α) : Result (GcCell α) :=
  if cell.readCount > 0 ∨ cell.writeCount > 0 then
    .error (newError "already borrowed")
  else
    .ok { cell with writeCount := cell.writeCount + 1 }

def dropRef (cell : GcCell α) : GcCell α :=
  { cell with readCount := cell.readCount - 1 }

def dropRefMut (cell : GcCell α) : GcCell α :=
  { cell with writeCount := cell.writeCount - 1 }

def modify (cell : GcCell α) (f : α → α) : GcCell α :=
  { cell with value := f cell.value }

def borrowForGc (cell : GcCell α) : α := cell.value

def Free (cell : GcCell α) : Prop := cell.readCount = 0 ∧ cell.writeCount = 0

def MutBorrowed (cell : GcCell α) : Prop := cell.readCount = 0 ∧ cell.writeCount = 1

instance (cell : GcCell α) : Decidable cell.Free := inferInstanceAs (Decidable (_ ∧ _))

instance (cell : GcCell α) : Decidable cell.MutBorrowed := inferInstanceAs (Decidable (_ ∧ _))

theorem tryBorrowMut_eq_of_free {cell : GcCell α} (h : cell.Free)
    : cell.tryBorrowMut = .ok { cell with writeCount := 1 } := by
  obtain ⟨hread, hwrite⟩ := h
  simp [tryBorrowMut, hread, hwrite]

theorem tryBorrowMut_eq_of_mutBorrowed {cell : GcCell α} (h : cell.MutBorrowed)
    : cell.tryBorrowMut = .error (newError "already borrowed") := by
  obtain ⟨hread, hwrite⟩ := h
  simp [tryBorrowMut, hwrite]

theorem not_free_of_mutBorrowed {cell : GcCell α} (h : cell.MutBorrowed) : ¬ cell.Free := by
  intro hfree
  have : (1 : Int32) = 0 := h.2.symm.trans hfree.2
  contradiction

end GcCell
end Shreduler
