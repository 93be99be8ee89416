import Mathlib.Algebra.Group.Nat.Defs
import Shreduler.GcCell.Basic
import Shreduler.Lts.Basic

/-!
This module contains a `GcCell` with its live guards, and proves when they keep the discipline of one
writer or any number of readers.
-/

namespace Shreduler
namespace GcCell

inductive Guard where
  | gcRef
  | gcRefMut
  deriving DecidableEq, Repr

def dropGuard (cell : GcCell α) (guard : Guard) : GcCell α :=
  match guard with
  | .gcRef => cell.dropRef
  | .gcRefMut => cell.dropRefMut

structure LiveGuard where
  guard : Guard
  -- `std::mem::forget` or `Box::leak` had it: nothing drops it any more.
  leaked : Bool
  deriving DecidableEq, Repr

structure State (α : Type) where
  cell : GcCell α
  -- The guards that have not been dropped, in the order in which they were taken.
  guards : List LiveGuard
  deriving DecidableEq

inductive Event where
  | tryBorrow
  | tryBorrowMut
  | drop (i : Nat)
  | leak (i : Nat)
  deriving DecidableEq, Repr

namespace State

def new (value : α) : State α where
  cell := { value }
  guards := []

def borrow (s : State α) (result : Result (GcCell α)) (guard : Guard) : State α :=
  match result with
  | .ok cell => { cell, guards := s.guards ++ [{ guard, leaked := false }] }
  | .error _ => s

def drop (s : State α) (i : Nat) : Option (State α) :=
  match s.guards[i]? with
  | some { guard, leaked := false } =>
    some { cell := s.cell.dropGuard guard, guards := s.guards.eraseIdx i }
  | some { guard := _, leaked := true } | none => none

def leak (s : State α) (i : Nat) : Option (State α) :=
  match s.guards[i]? with
  | some guard => some { s with guards := s.guards.set i { guard with leaked := true } }
  | none => none

end State

def step (s : State α) : Event → Option (State α)
  | .tryBorrow => some (s.borrow s.cell.tryBorrow .gcRef)
  | .tryBorrowMut => some (s.borrow s.cell.tryBorrowMut .gcRefMut)
  | .drop i => s.drop i
  | .leak i => s.leak i

namespace State

def Fails (s : State α) : Event → Prop
  | .tryBorrow => ∃ e, s.cell.tryBorrow = .error e
  | .tryBorrowMut => ∃ e, s.cell.tryBorrowMut = .error e
  | _ => False

structure BorrowDiscipline (s : State α) : Prop where
  -- A live `GcRefMut` is the only live guard.
  exclusive : ∀ guard ∈ s.guards, guard.guard = .gcRefMut → s.guards = [guard]
  tryBorrow_ok : (∃ cell, s.cell.tryBorrow = .ok cell) ↔
    ∀ guard ∈ s.guards, guard.guard ≠ .gcRefMut
  tryBorrowMut_ok : (∃ cell, s.cell.tryBorrowMut = .ok cell) ↔ s.guards = []
  failed : ∀ e s', s.Fails e → step s e = some s' →
    s'.cell.readCount = s.cell.readCount ∧ s'.cell.writeCount = s.cell.writeCount
  dropped : s.guards = [] → s.cell.readCount = 0 ∧ s.cell.writeCount = 0

def RefsFit (s : State α) : Event → Prop
  | .tryBorrow => (∀ guard ∈ s.guards, guard.guard = .gcRef) → s.guards.length + 1 < 2 ^ 31
  | _ => True

inductive Counted (s : State α) : Prop where
  | shared (hguards : ∀ guard ∈ s.guards, guard.guard = .gcRef) (hlt : s.guards.length < 2 ^ 31)
    (hread : s.cell.readCount = .ofNat s.guards.length) (hwrite : s.cell.writeCount = 0)
  | exclusive {leaked : Bool} (hguards : s.guards = [{ guard := .gcRefMut, leaked }])
    (hborrowed : s.cell.MutBorrowed)

end State

variable {α : Type} {cell : GcCell α} {s s' : State α} {n : Nat}

/-! ### The counters -/

theorem ofNat_pos_iff (hlt : n < 2 ^ 31) : Int32.ofNat n > 0 ↔ 0 < n := by
  rw [gt_iff_lt, Int32.lt_iff_toInt_lt, Int32.toInt_ofNat_of_lt hlt]
  exact Int.natCast_pos

theorem tryBorrow_of_writeCount (hwrite : cell.writeCount = 0)
    : cell.tryBorrow = .ok { cell with readCount := cell.readCount + 1 } := by
  rw [tryBorrow, if_neg]
  simp [hwrite]

theorem tryBorrow_of_mutBorrowed (h : cell.MutBorrowed)
    : cell.tryBorrow = .error (newError "already mutably borrowed") := by
  rw [tryBorrow, if_pos]
  rw [h.2]
  decide

theorem tryBorrowMut_of_readCount (hread : cell.readCount > 0)
    : cell.tryBorrowMut = .error (newError "already borrowed") := by
  rw [tryBorrowMut, if_pos (.inl hread)]

theorem tryBorrowMut_of_not_readCount (hread : ¬ cell.readCount > 0) (hwrite : cell.writeCount = 0)
    : cell.tryBorrowMut = .ok { cell with writeCount := 1 } := by
  rw [tryBorrowMut, if_neg]
  . rw [hwrite]
    rfl
  . simp [hread, hwrite]

namespace State

theorem drop_eq_some {i : Nat} : s.drop i = some s' ↔ ∃ guard,
    s.guards[i]? = some { guard, leaked := false } ∧
      s' = { cell := s.cell.dropGuard guard, guards := s.guards.eraseIdx i } := by
  simp only [drop]
  cases hget : s.guards[i]? with
  | none => simp
  | some live =>
    obtain ⟨guard, leaked⟩ := live
    cases leaked with
    | true => simp
    | false => simp [eq_comm]

theorem leak_eq_some {i : Nat} : s.leak i = some s' ↔ ∃ guard, s.guards[i]? = some guard ∧
    s' = { s with guards := s.guards.set i { guard with leaked := true } } := by
  simp only [leak]
  cases hget : s.guards[i]? with
  | none => simp
  | some guard => simp [eq_comm]

namespace Counted

theorem new (value : α) : Counted (.new value) :=
  .shared (by simp [State.new]) (by simp [State.new]) rfl rfl

theorem tryBorrow (h : Counted s) (hfit : RefsFit s .tryBorrow)
    : Counted (s.borrow s.cell.tryBorrow .gcRef) := by
  cases h with
  | shared hguards hlt hread hwrite =>
    rw [tryBorrow_of_writeCount hwrite]
    apply shared
    . intro guard hmem
      simp only [borrow, List.mem_append, List.mem_singleton] at hmem
      cases hmem with
      | inl hold => exact hguards guard hold
      | inr hnew => rw [hnew]
    . simpa [borrow] using hfit hguards
    . simp [borrow, hread]
    . exact hwrite
  | exclusive hguards hborrowed =>
    rw [tryBorrow_of_mutBorrowed hborrowed]
    exact .exclusive hguards hborrowed

theorem tryBorrowMut (h : Counted s) : Counted (s.borrow s.cell.tryBorrowMut .gcRefMut) := by
  cases h with
  | shared hguards hlt hread hwrite =>
    by_cases hpos : s.cell.readCount > 0
    . rw [tryBorrowMut_of_readCount hpos]
      exact .shared hguards hlt hread hwrite
    . rw [tryBorrowMut_of_not_readCount hpos hwrite]
      rw [hread, ofNat_pos_iff hlt, List.length_pos_iff, not_not] at hpos
      have hnew : (s.borrow (.ok { s.cell with writeCount := 1 }) .gcRefMut).guards
          = [{ guard := .gcRefMut, leaked := false }] := by
        simp [borrow, hpos]
      refine .exclusive hnew ⟨?_, rfl⟩
      simp [borrow, hread, hpos]
  | exclusive hguards hborrowed =>
    rw [tryBorrowMut_eq_of_mutBorrowed hborrowed]
    exact .exclusive hguards hborrowed

theorem drop {i : Nat} (h : Counted s) (hdrop : s.drop i = some s') : Counted s' := by
  obtain ⟨guard, hget, rfl⟩ := drop_eq_some.mp hdrop
  obtain ⟨hi, -⟩ := List.getElem?_eq_some_iff.mp hget
  have hmem := List.mem_of_getElem? hget
  cases h with
  | shared hguards hlt hread hwrite =>
    have hguard : guard = .gcRef := hguards _ hmem
    have hlength := List.length_eraseIdx_of_lt hi
    subst hguard
    apply shared
    . exact fun guard' hmem' => hguards guard' (List.mem_of_mem_eraseIdx hmem')
    . rw [hlength]
      omega
    . rw [hlength, Int32.ofNat_sub _ _ (by omega), ← hread]
      rfl
    . exact hwrite
  | exclusive hguards hborrowed =>
    rw [hguards, List.mem_singleton] at hmem
    rw [hguards, List.length_singleton, Nat.lt_one_iff] at hi
    injection hmem with hguard
    subst hguard hi
    apply shared
    . simp [hguards]
    . simp [hguards]
    . simpa [hguards, dropGuard, dropRefMut] using hborrowed.1
    . simp [dropGuard, dropRefMut, hborrowed.2]

theorem leak {i : Nat} (h : Counted s) (hleak : s.leak i = some s') : Counted s' := by
  obtain ⟨guard, hget, rfl⟩ := leak_eq_some.mp hleak
  obtain ⟨hi, -⟩ := List.getElem?_eq_some_iff.mp hget
  have hmem := List.mem_of_getElem? hget
  cases h with
  | shared hguards hlt hread hwrite =>
    apply shared
    . intro guard' hmem'
      cases List.mem_or_eq_of_mem_set hmem' with
      | inl hold => exact hguards guard' hold
      | inr hset => exact hset ▸ hguards guard hmem
    . simpa using hlt
    . simpa using hread
    . exact hwrite
  | exclusive hguards hborrowed =>
    rw [hguards, List.mem_singleton] at hmem
    rw [hguards, List.length_singleton, Nat.lt_one_iff] at hi
    subst hmem hi
    apply exclusive
    . rw [hguards]
      rfl
    . exact hborrowed

theorem step {e : Event} (h : Counted s) (hfit : RefsFit s e) (hstep : GcCell.step s e = some s')
    : Counted s' := by
  cases e with
  | tryBorrow =>
    injection hstep with hs'
    exact hs' ▸ h.tryBorrow hfit
  | tryBorrowMut =>
    injection hstep with hs'
    exact hs' ▸ h.tryBorrowMut
  | drop i => exact h.drop hstep
  | leak i => exact h.leak hstep

end Counted

/-! ### The discipline -/

theorem of_fails {e : Event} (hfails : s.Fails e) (hstep : step s e = some s') : s' = s := by
  cases e with
  | tryBorrow =>
    obtain ⟨error, herror⟩ := hfails
    rw [step, herror] at hstep
    injection hstep with hs'
    exact hs'.symm
  | tryBorrowMut =>
    obtain ⟨error, herror⟩ := hfails
    rw [step, herror] at hstep
    injection hstep with hs'
    exact hs'.symm
  | drop i => exact hfails.elim
  | leak i => exact hfails.elim

theorem Counted.discipline (h : Counted s) : BorrowDiscipline s := by
  cases h with
  | shared hguards hlt hread hwrite =>
    have hshared : ∀ guard ∈ s.guards, guard.guard ≠ .gcRefMut := by
      intro guard hmem
      rw [hguards guard hmem]
      simp
    constructor
    . exact fun guard hmem hmut => absurd hmut (hshared guard hmem)
    . rw [tryBorrow_of_writeCount hwrite]
      exact iff_of_true ⟨_, rfl⟩ hshared
    . have hpos := ofNat_pos_iff hlt
      rw [← hread, List.length_pos_iff] at hpos
      by_cases hempty : s.guards = []
      . rw [tryBorrowMut_of_not_readCount (by simp [hpos, hempty]) hwrite]
        exact iff_of_true ⟨_, rfl⟩ hempty
      . rw [tryBorrowMut_of_readCount (hpos.mpr hempty)]
        simp [hempty]
    . intro e s' hfails hstep
      rw [of_fails hfails hstep]
      exact ⟨rfl, rfl⟩
    . intro hempty
      rw [hread, hempty]
      exact ⟨rfl, hwrite⟩
  | exclusive hguards hborrowed =>
    constructor
    . intro guard hmem _
      rw [hguards, List.mem_singleton] at hmem
      rw [hguards, hmem]
    . rw [tryBorrow_of_mutBorrowed hborrowed]
      simp [hguards]
    . rw [tryBorrowMut_eq_of_mutBorrowed hborrowed]
      simp [hguards]
    . intro e s' hfails hstep
      rw [of_fails hfails hstep]
      exact ⟨rfl, rfl⟩
    . simp [hguards]

theorem ofNat_two_pow_not_pos : ¬ Int32.ofNat (2 ^ 31) > 0 := by
  decide

theorem not_discipline_of_length (hread : s.cell.readCount = .ofNat s.guards.length)
    (hwrite : s.cell.writeCount = 0) (hlength : s.guards.length = 2 ^ 31)
    : ¬ BorrowDiscipline s := by
  intro hdiscipline
  rw [hlength] at hread
  have hnot : ¬ s.cell.readCount > 0 := hread ▸ ofNat_two_pow_not_pos
  have hempty := hdiscipline.tryBorrowMut_ok.mp ⟨_, tryBorrowMut_of_not_readCount hnot hwrite⟩
  rw [hempty] at hlength
  contradiction

theorem Counted.refsFit {e : Event} (h : Counted s) (hstep : GcCell.step s e = some s')
    (hdiscipline : BorrowDiscipline s') : RefsFit s e := by
  cases e with
  | tryBorrow =>
    intro hrefs
    cases h with
    | shared hguards hlt hread hwrite =>
      by_contra hfit
      injection hstep with hs'
      rw [tryBorrow_of_writeCount hwrite] at hs'
      subst hs'
      apply not_discipline_of_length _ _ _ hdiscipline
      . simp [borrow, hread]
      . exact hwrite
      . simp only [borrow, List.length_append, List.length_singleton]
        omega
    | exclusive hguards hborrowed =>
      have := hrefs _ (hguards ▸ List.mem_singleton.mpr rfl)
      contradiction
  | tryBorrowMut => trivial
  | drop i => trivial
  | leak i => trivial

theorem run_replicate_tryBorrow (value : α) (n : Nat)
    : Lts.run step (.new value) (List.replicate n .tryBorrow) = some {
        cell := { value, readCount := .ofNat n }
        guards := List.replicate n { guard := .gcRef, leaked := false }
      } := by
  induction n with
  | zero => rfl
  | succ n ih =>
    rw [List.replicate_succ', Lts.run_append_singleton ih rfl, tryBorrow_of_writeCount rfl,
      List.replicate_succ', Int32.ofNat_add]
    rfl

end State

/-- The guards of a cell keep the discipline for as long as the counter can count its `GcRef`s. -/
theorem borrow_discipline_iff (value : α) (es : List Event)
    : Lts.Always step State.BorrowDiscipline (.new value) es ↔
        Lts.Along step State.RefsFit (.new value) es := by
  apply Lts.always_iff_along (J := State.Counted)
  . exact fun s e s' h hfit hstep => h.step hfit hstep
  . exact fun s h => h.discipline
  . exact fun s e s' h hstep hdiscipline => h.refsFit hstep hdiscipline
  . exact .new value

theorem not_forall_borrow_discipline
    : ¬ ∀ es : List Event, Lts.Always step State.BorrowDiscipline (.new ()) es := by
  intro h
  have hlast := (h _).last (State.run_replicate_tryBorrow () (2 ^ 31))
  refine State.not_discipline_of_length ?_ ?_ ?_ hlast
  . rw [List.length_replicate]
  . rfl
  . exact List.length_replicate

end GcCell
end Shreduler
