import Shreduler.RubyIo.Lemmas.NonBlockGuard

/-!
This module proves what the guards keep of the flags of a descriptor when they are dropped in any order,
and when they are dropped in the opposite order.
-/

namespace Shreduler
namespace NonBlockGuard

variable {sf : StatusFlags} {init : FdFlags} {s s' : State} {fd : RawFd}

/-! ### Any order -/

def others (sf : StatusFlags) (flags : OFlag) : OFlag := flags &&& ~~~sf.nonblock

theorem others_or_nonblock (flags : OFlag) : others sf (flags ||| sf.nonblock) = others sf flags := by
  unfold others
  ext i hi
  simp only [BitVec.getElem_or, BitVec.getElem_and, BitVec.getElem_not]
  cases sf.nonblock[i] <;> simp

theorem others_setfl {flags old flags₀ : OFlag} (hflags : others sf flags = others sf flags₀)
    (hold : others sf old = others sf (fromBitsTruncate sf flags₀))
    : others sf (setfl sf flags old) = others sf flags₀ := by
  unfold others setfl fromBitsTruncate at *
  ext i hi
  have hall := congrArg (·[i]) sf.settable_le_all
  have hflags := congrArg (·[i]) hflags
  have hold := congrArg (·[i]) hold
  simp only [BitVec.getElem_and, BitVec.getElem_not] at hall hflags hold
  simp only [BitVec.getElem_or, BitVec.getElem_and, BitVec.getElem_not]
  cases hs : sf.settable[i] <;> cases hn : sf.nonblock[i] <;> simp_all

theorem others_fromBitsTruncate {flags flags₀ : OFlag} (h : others sf flags = others sf flags₀)
    : others sf (fromBitsTruncate sf flags) = others sf (fromBitsTruncate sf flags₀) := by
  have hcomm (flags : OFlag) : others sf (fromBitsTruncate sf flags) = others sf flags &&& sf.all := by
    unfold others fromBitsTruncate
    rw [BitVec.and_assoc, BitVec.and_comm sf.all, ← BitVec.and_assoc]
  rw [hcomm, hcomm, h]

structure Confined (sf : StatusFlags) (init : FdFlags) (s : State) : Prop where
  os : ∀ fd, (s.os fd).map (others sf) = (init fd).map (others sf)
  guards : ∀ guard ∈ s.guards, ∃ flags, init guard.rawFd = some flags ∧
    others sf guard.oldFlags = others sf (fromBitsTruncate sf flags)

namespace Confined

theorem new (sf : StatusFlags) (init : FdFlags) : Confined sf init ⟨init, []⟩ where
  os _ := rfl
  guards := by simp

theorem exists_init (h : Confined sf init s) {flags : OFlag} (hflags : s.os fd = some flags)
    : ∃ flags₀, init fd = some flags₀ ∧ others sf flags = others sf flags₀ := by
  have hos := h.os fd
  rw [hflags, Option.map_some, eq_comm, Option.map_eq_some_iff] at hos
  obtain ⟨flags₀, hinit, heq⟩ := hos
  exact ⟨flags₀, hinit, heq.symm⟩

theorem withNonblock (h : Confined sf init s) (hstep : step sf s (.withNonblock fd) = some s')
    : Confined sf init s' := by
  cases step_withNonblock hstep with
  | inl hclosed => exact hclosed.2 ▸ h
  | inr hopen =>
    obtain ⟨flags, hflags, rfl⟩ := hopen
    obtain ⟨flags₀, hinit, heq⟩ := h.exists_init hflags
    constructor
    . intro fd'
      dsimp only
      by_cases hfd : fd' = fd
      . rw [hfd, Function.update_self, Option.map_some, others_or_nonblock, heq, hinit, Option.map_some]
      . rw [Function.update_of_ne hfd]
        exact h.os fd'
    . intro guard hmem
      cases List.mem_append.mp hmem with
      | inl hmem => exact h.guards guard hmem
      | inr hmem =>
        rw [List.mem_singleton.mp hmem]
        exact ⟨flags₀, hinit, others_fromBitsTruncate heq⟩

theorem drop (h : Confined sf init s) {i : Nat} (hstep : step sf s (.drop i) = some s')
    : Confined sf init s' := by
  obtain ⟨l₁, guard, l₂, hguards, hget, herase, rfl⟩ := step_drop hstep
  constructor
  . intro fd'
    dsimp only
    by_cases hfd : guard.rawFd = fd'
    . obtain ⟨flags₀, hinit, hold⟩ := h.guards guard (List.mem_of_getElem? hget)
      rw [hfd] at hinit
      have hos := h.os fd'
      rw [hinit, Option.map_some, Option.map_eq_some_iff] at hos
      obtain ⟨flags, hflags, heq⟩ := hos
      rw [drop_of_eq hfd hflags, hinit, Option.map_some, Option.map_some, others_setfl heq hold]
    . rw [drop_of_ne hfd]
      exact h.os fd'
  . intro guard' hmem
    apply h.guards
    rw [hguards]
    cases List.mem_append.mp hmem with
    | inl hmem => exact List.mem_append_left _ hmem
    | inr hmem => exact List.mem_append_right _ (List.mem_cons_of_mem _ hmem)

end Confined

/--
In whatever order guards are created and dropped, no descriptor that stays open changes a status flag but
`O_NONBLOCK`.
-/
theorem flags_confined (sf : StatusFlags) (init : FdFlags) (es : List Event)
    : Lts.Always (step sf) (fun s => ∀ fd, (s.os fd).map (others sf) = (init fd).map (others sf))
        ⟨init, []⟩ es := by
  apply Lts.always_of_invariant (J := Confined sf init)
  . intro s e s' h hstep
    cases e with
    | withNonblock fd => exact h.withNonblock hstep
    | drop i => exact h.drop hstep
  . intro s h
    exact h.os
  . exact .new sf init

/-! ### The opposite order -/

def DropsNewest (s : State) : Event → Prop
  | .withNonblock _ => True
  | .drop i =>
    ∀ guard, s.guards[i]? = some guard → ∀ other ∈ s.guards.drop (i + 1), other.rawFd ≠ guard.rawFd

theorem DropsNewest.dropsLast {i : Nat} (hnewest : DropsNewest s (.drop i))
    (h : Guarded sf (init fd) fd s) : DropsLast sf fd s (.drop i) := by
  intro guard hget hfd
  have hlater : ∀ other ∈ s.guards.drop (i + 1), other.rawFd ≠ fd := by
    intro other hmem
    rw [← hfd]
    exact hnewest guard hget other hmem
  have hsplit : s.guards = s.guards.take i ++ guard :: s.guards.drop (i + 1) := by
    obtain ⟨hi, hguard⟩ := List.getElem?_eq_some_iff.mp hget
    rw [← hguard, ← List.drop_eq_getElem_cons hi, List.take_append_drop]
  have hsaved : s.saved fd
      = ((s.guards.take i).filter (·.rawFd = fd)).map (·.oldFlags) ++ [guard.oldFlags] := by
    have hnone : (s.guards.drop (i + 1)).filter (·.rawFd = fd) = [] := by
      simpa [List.filter_eq_nil_iff] using hlater
    have hfilter := congrArg (List.filter (·.rawFd = fd)) hsplit
    rw [List.filter_append, List.filter_cons_of_pos (by simp [hfd]), hnone] at hfilter
    rw [State.saved, hfilter, List.map_append]
    rfl
  cases h with
  | closed _ _ hnil => simp [hsaved] at hnil
  | @opened flags₀ flags _ _ hheld =>
    rw [hsaved] at hheld
    cases hheld.newest with
    | inl hfirst =>
      right
      intro other hmem
      rw [List.eraseIdx_eq_take_drop_succ] at hmem
      cases List.mem_append.mp hmem with
      | inl hmem =>
        simp only [List.map_eq_nil_iff, List.filter_eq_nil_iff, decide_eq_true_eq] at hfirst
        exact hfirst other hmem
      | inr hmem => exact hlater other hmem
    | inr hacquired =>
      left
      rw [hacquired]
      apply StatusFlags.contains_fromBitsTruncate.mpr
      apply StatusFlags.acquired_iff.mp
      exact sf.saveRestore.acquire_acquire flags₀

/--
If only the newest guard of a descriptor is ever dropped, every descriptor of an open file of its own is
non-blocking while it has a guard, and has its own flags while it has none.
-/
theorem nested_guards_kept (sf : StatusFlags) (init : FdFlags) (es : List Event)
    (hnewest : Lts.Along (step sf) DropsNewest ⟨init, []⟩ es)
    : Lts.Always (step sf) (fun s => ∀ fd, NonblockKept sf (init fd) fd s) ⟨init, []⟩ es := by
  apply Lts.Along.always (J := fun s => ∀ fd, Guarded sf (init fd) fd s) ?_ ?_ ?_ hnewest
  . intro s e s' h hC hstep fd
    cases e with
    | withNonblock fd' => exact (h fd).withNonblock hstep
    | drop i => exact (h fd).drop (hC.dropsLast (h fd)) hstep
  . intro s h fd
    exact (h fd).kept
  . intro fd
    exact .new init

theorem nested_guards_kept_two
    : Lts.Always (step .linux)
        (fun s => ∀ fd, NonblockKept .linux (if fd = 7 then some 2 else none) fd s)
        ⟨fun fd => if fd = 7 then some 2 else none, []⟩
        [.withNonblock 7, .withNonblock 7, .drop 1, .drop 0] := by
  apply nested_guards_kept
  intro _ h₁
  refine ⟨trivial, ?_⟩
  intro _ h₂
  refine ⟨trivial, ?_⟩
  obtain rfl := Option.some.inj h₁
  obtain rfl := Option.some.inj h₂
  intro _ h₃
  obtain rfl := Option.some.inj h₃
  refine ⟨by simp [DropsNewest], ?_⟩
  intro _ _
  exact ⟨by simp [DropsNewest], trivial⟩

end NonBlockGuard
end Shreduler
