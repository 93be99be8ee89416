import Shreduler.TokioScheduler.Lemmas.Wf

/-!
This module contains what the operations that borrow one of the two cells come down to when the cell
is free and when it is borrowed.
-/

namespace Shreduler

theorem Hook.future_ne (hook : Hook) (now : Instant)
    : (∀ rx timeout deadline, hook.future now ≠ .block rx timeout deadline) ∧
      ∀ timeoutAt f, hook.future now ≠ .timeout timeoutAt f := by
  cases hook with
  | kernelSleep duration =>
    simp only [Hook.future, Shreduler.kernelSleep]
    split <;> simp
  | _ => simp [Hook.future]

namespace State

variable {s : State}

@[simp]
theorem dropFuture_futuresToRun (s : State) (future : Future)
    : (s.dropFuture future).futuresToRun = s.futuresToRun := by
  rw [dropFuture_eq]

@[simp]
theorem dropTx_blockers (s : State) (ch : Option ChanId)
    : (s.dropTx ch).blockers = s.blockers := by
  rw [dropTx_eq]

theorem dropFuture_with_futures (s : State) (cell : GcCell (List Task)) (future : Future)
    : { s with futuresToRun := cell }.dropFuture future
        =
      { s.dropFuture future with futuresToRun := cell } := by
  unfold dropFuture dropRx
  split
  . dsimp
    split <;> rfl
  . rfl

theorem spawn_of_free (h : s.futuresToRun.Free) (f : FiberId) (future : Future)
    : s.spawn f future = (.ok s.nextTask, s.addTask f future) := by
  have hcount : (1 : Int32) - 1 = s.futuresToRun.writeCount := by
    rw [h.2]
    rfl
  unfold spawn
  rw [GcCell.tryBorrowMut_eq_of_free h]
  dsimp only
  congr 1
  simp only [addTask, modifyTasks, newTask, GcCell.modify, releaseFutures, GcCell.dropRefMut]
  split
  . simp only [hcount]
  . simp only [dropFuture_futuresToRun, hcount]
    rw [← dropFuture_with_futures]

theorem spawn_of_mutBorrowed (h : s.futuresToRun.MutBorrowed) (f : FiberId) (future : Future)
    : s.spawn f future = (.error (GcCell.newError "already borrowed"), s.dropFuture future) := by
  unfold spawn
  rw [GcCell.tryBorrowMut_eq_of_mutBorrowed h]

theorem awaitNext_of_free (h : s.futuresToRun.Free)
    : s.awaitNext
        =
      { s with futuresToRun := { s.futuresToRun with writeCount := 1 }, runLoop := .joinNext } := by
  unfold awaitNext
  rw [GcCell.tryBorrowMut_eq_of_free h]

theorem releaseBlockers_of_free (h : s.blockers.Free) (f : Blockers → Blockers)
    : { s with blockers := { s.blockers with writeCount := 1 }.modify f }.releaseBlockers
        =
      { s with blockers := s.blockers.modify f } := by
  have hcount : (1 : Int32) - 1 = s.blockers.writeCount := by
    rw [h.2]
    rfl
  simp only [releaseBlockers, GcCell.dropRefMut, GcCell.modify, hcount]

theorem removeBlocker_of_free (h : s.blockers.Free) (f : FiberId)
    : ({ s with blockers := { s.blockers with writeCount := 1 } }.removeBlocker f).releaseBlockers
        =
      s.removeBlocker f :=
  releaseBlockers_of_free h (AList.erase f)

theorem dropTx_with_blockers (s : State) (cell : GcCell Blockers) (ch : Option ChanId)
    : { s with blockers := cell }.dropTx ch = { s.dropTx ch with blockers := cell } := by
  unfold dropTx
  split
  . dsimp
    split <;> rfl
  . rfl

theorem dropTx_releaseBlockers (s : State) (ch : Option ChanId)
    : (s.dropTx ch).releaseBlockers = s.releaseBlockers.dropTx ch := by
  simp only [releaseBlockers, dropTx_blockers]
  exact (dropTx_with_blockers s s.blockers.dropRefMut ch).symm

theorem insertBlocker_of_free (h : s.blockers.Free) (f : FiberId) (tx : ChanId)
    : ({ s with blockers := { s.blockers with writeCount := 1 } }.insertBlocker f tx).releaseBlockers
        =
      s.insertBlocker f tx := by
  simp only [insertBlocker]
  rw [dropTx_with_blockers]
  have := releaseBlockers_of_free (s := s.dropTx (s.blockers.value.lookup f)) (by simpa using h)
    (AList.insert f tx)
  simpa using this

def registerBlock (s : State) (f : FiberId) : State :=
  { s.setChan s.nextChan .unsent with nextChan := s.nextChan + 1 }.insertBlocker f s.nextChan

theorem block_of_free (h : s.blockers.Free) (f : FiberId) (timeout : Option Duration)
    : s.block f timeout
        =
      (s.registerBlock f).spawnAndTransfer f (.block s.nextChan timeout none) := by
  have hfree : { s.setChan s.nextChan .unsent with nextChan := s.nextChan + 1 }.blockers.Free := h
  unfold block
  dsimp only
  rw [GcCell.tryBorrowMut_eq_of_free hfree]
  dsimp only
  rw [insertBlocker_of_free hfree]
  rfl

theorem unblock_of_free (h : s.blockers.Free) (current : Option FiberId) (fiberToWake : Value)
    : s.unblock current fiberToWake
        =
      match fiberOfValue fiberToWake with
      | .error e => (.error e, s)
      | .ok f =>
        match s.checkSuspended current f with
        | .error e => (.error e, s)
        | .ok _ =>
          match s.blockers.value.lookup f with
          | none => (.ok (), s.removeBlocker f)
          | some tx =>
            match s.chans tx with
            | .unsent => (.ok (), (s.removeBlocker f).setChan tx .sent)
            | _ => (.error (newBaseError "could not unblock fiber: true"), s.removeBlocker f) := by
  unfold unblock
  simp only [GcCell.tryBorrowMut_eq_of_free h, removeBlocker_of_free h]
  rfl

theorem finishBlock_of_free (h : s.blockers.Free) (t : TaskId) (result : Result Value)
    : s.finishBlock t result
        =
      ((s.removeBlocker rootFiber).dropTx (s.blockers.value.lookup rootFiber)).complete t result := by
  unfold finishBlock
  rw [GcCell.tryBorrowMut_eq_of_free h]
  dsimp only
  rw [dropTx_releaseBlockers, removeBlocker_of_free h]

end State
end Shreduler
