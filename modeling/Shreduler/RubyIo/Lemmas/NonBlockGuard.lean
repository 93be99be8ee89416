import Shreduler.RubyIo.Impl.NonBlockGuard
import Shreduler.RubyIo.Lemmas.Basic
import Shreduler.SaveRestore.Basic

/-!
This module proves when a descriptor is non-blocking for as long as it has a guard, and gets back its
flags from the last one.
-/

namespace Shreduler

theorem contains_iff {flags other : OFlag} : contains flags other ↔ flags &&& other = other :=
  decide_eq_true_iff

namespace StatusFlags

variable {sf : StatusFlags} {flags old : OFlag}

theorem nonblock_and_all (sf : StatusFlags) : sf.nonblock &&& sf.all = sf.nonblock := by
  rw [← sf.nonblock_le_settable, BitVec.and_assoc, sf.settable_le_all]

theorem setfl_nonblock (sf : StatusFlags) (flags : OFlag)
    : setfl sf flags (fromBitsTruncate sf flags ||| sf.nonblock) = flags ||| sf.nonblock := by
  ext i hi
  have hall := congrArg (·[i]) sf.settable_le_all
  have hnonblock := congrArg (·[i]) sf.nonblock_le_settable
  simp only [BitVec.getElem_and] at hall hnonblock
  simp only [setfl, fromBitsTruncate, BitVec.getElem_or, BitVec.getElem_and, BitVec.getElem_not]
  cases hs : sf.settable[i] <;> cases hn : sf.nonblock[i] <;> simp_all

theorem setfl_old (h : flags &&& ~~~sf.settable = old &&& ~~~sf.settable)
    : setfl sf flags (fromBitsTruncate sf old) = old := by
  rw [setfl, fromBitsTruncate, h, BitVec.and_assoc, BitVec.and_comm sf.all, sf.settable_le_all]
  ext i hi
  simp only [BitVec.getElem_or, BitVec.getElem_and, BitVec.getElem_not]
  cases sf.settable[i] <;> simp

theorem or_nonblock_and (sf : StatusFlags) (flags : OFlag)
    : (flags ||| sf.nonblock) &&& ~~~sf.settable = flags &&& ~~~sf.settable := by
  ext i hi
  have hnonblock := congrArg (·[i]) sf.nonblock_le_settable
  simp only [BitVec.getElem_and] at hnonblock
  simp only [BitVec.getElem_or, BitVec.getElem_and, BitVec.getElem_not]
  cases hs : sf.settable[i] <;> simp_all

def saveRestore (sf : StatusFlags) : SaveRestore OFlag OFlag where
  save := fromBitsTruncate sf
  acquire flags := flags ||| sf.nonblock
  restore := setfl sf
  acquire_acquire flags := by rw [BitVec.or_assoc, BitVec.or_self]
  restore_save flags := setfl_old rfl
  restore_acquire flags := setfl_old (sf.or_nonblock_and flags)

theorem acquired_iff : sf.saveRestore.Acquired flags ↔ contains flags sf.nonblock := by
  simp only [SaveRestore.Acquired, saveRestore, contains_iff]
  constructor
  . intro h
    rw [← h]
    ext i hi
    cases hn : sf.nonblock[i] <;> simp [hn]
  . intro h
    rw [← h]
    ext i hi
    cases hf : flags[i] <;> simp [hf]

theorem contains_fromBitsTruncate
    : contains (fromBitsTruncate sf flags) sf.nonblock ↔ contains flags sf.nonblock := by
  rw [contains_iff, contains_iff, fromBitsTruncate, BitVec.and_assoc, BitVec.and_comm sf.all,
    sf.nonblock_and_all]

theorem contains_setfl
    : contains (setfl sf flags old) sf.nonblock ↔ contains old sf.nonblock := by
  have hbits : setfl sf flags old &&& sf.nonblock = old &&& sf.nonblock := by
    ext i hi
    have hnonblock := congrArg (·[i]) sf.nonblock_le_settable
    simp only [BitVec.getElem_and] at hnonblock
    simp only [setfl, BitVec.getElem_or, BitVec.getElem_and, BitVec.getElem_not]
    cases hs : sf.settable[i] <;> simp_all
  rw [contains_iff, contains_iff, hbits]

end StatusFlags

namespace NonBlockGuard

variable {sf : StatusFlags} {s s' : State} {fd : RawFd} {init : Option OFlag}

structure NonblockKept (sf : StatusFlags) (init : Option OFlag) (fd : RawFd) (s : State) : Prop where
  set : (∃ guard ∈ s.guards, guard.rawFd = fd) →
    ∃ flags, s.os fd = some flags ∧ contains flags sf.nonblock
  restored : (∀ guard ∈ s.guards, guard.rawFd ≠ fd) → s.os fd = init

def DropsLast (sf : StatusFlags) (fd : RawFd) (s : State) : Event → Prop
  | .withNonblock _ => True
  | .drop i =>
    ∀ guard, s.guards[i]? = some guard → guard.rawFd = fd →
      contains guard.oldFlags sf.nonblock ∨ ∀ other ∈ s.guards.eraseIdx i, other.rawFd ≠ fd

/-! ### What a step does -/

theorem step_withNonblock (h : step sf s (.withNonblock fd) = some s')
    : s.os fd = none ∧ s' = s ∨
      ∃ flags, s.os fd = some flags ∧
        s' = {
          os := Function.update s.os fd (some (flags ||| sf.nonblock))
          guards := s.guards ++ [⟨fd, fromBitsTruncate sf flags⟩] } := by
  simp only [step, new, fcntlGetfl, fcntlSetfl] at h
  cases hos : s.os fd with
  | none =>
    simp only [hos] at h
    exact .inl ⟨rfl, (Option.some.inj h).symm⟩
  | some flags =>
    simp only [hos, StatusFlags.setfl_nonblock] at h
    exact .inr ⟨flags, rfl, (Option.some.inj h).symm⟩

theorem step_drop {i : Nat} (h : step sf s (.drop i) = some s')
    : ∃ l₁ guard l₂, s.guards = l₁ ++ guard :: l₂ ∧ s.guards[i]? = some guard ∧
        s.guards.eraseIdx i = l₁ ++ l₂ ∧ s' = ⟨drop sf s.os guard, l₁ ++ l₂⟩ := by
  simp only [step] at h
  split at h
  . next guard hguard =>
    obtain ⟨l₁, l₂, hguards, herase⟩ := eraseIdx_of_getElem? hguard
    refine ⟨l₁, guard, l₂, hguards, hguard, herase, ?_⟩
    rw [← herase]
    exact (Option.some.inj h).symm
  . contradiction

theorem drop_of_ne {os : FdFlags} {guard : NonBlockGuard} (h : guard.rawFd ≠ fd)
    : drop sf os guard fd = os fd := by
  unfold drop fcntlSetfl
  split
  . exact Function.update_of_ne h.symm _ _
  . rfl

theorem drop_of_eq {os : FdFlags} {guard : NonBlockGuard} {flags : OFlag} (h : guard.rawFd = fd)
    (hos : os fd = some flags) : drop sf os guard fd = some (setfl sf flags guard.oldFlags) := by
  subst h
  simp [drop, fcntlSetfl, hos]

/-! ### The invariant -/

def State.saved (s : State) (fd : RawFd) : List OFlag :=
  (s.guards.filter (·.rawFd = fd)).map (·.oldFlags)

theorem State.saved_eq_nil : s.saved fd = [] ↔ ∀ guard ∈ s.guards, guard.rawFd ≠ fd := by
  simp [saved]

inductive Guarded (sf : StatusFlags) (init : Option OFlag) (fd : RawFd) (s : State) : Prop where
  | closed (hinit : init = none) (hos : s.os fd = none) (hsaved : s.saved fd = [])
  | opened {flags₀ flags} (hinit : init = some flags₀) (hos : s.os fd = some flags)
    (hheld : sf.saveRestore.Held flags₀ flags (s.saved fd))

namespace Guarded

theorem new (os : FdFlags) : Guarded sf (os fd) fd ⟨os, []⟩ := by
  cases hos : os fd with
  | none => exact .closed rfl hos rfl
  | some flags => exact .opened rfl hos .free

theorem kept (h : Guarded sf init fd s) : NonblockKept sf init fd s := by
  cases h with
  | closed hinit hos hsaved =>
    constructor
    . rintro ⟨guard, hmem, hfd⟩
      exact absurd hfd (State.saved_eq_nil.mp hsaved guard hmem)
    . exact fun _ => hos.trans hinit.symm
  | opened hinit hos hheld =>
    constructor
    . rintro ⟨guard, hmem, hfd⟩
      refine ⟨_, hos, StatusFlags.acquired_iff.mp (hheld.acquired ?_)⟩
      intro hsaved
      exact State.saved_eq_nil.mp hsaved guard hmem hfd
    . intro hnone
      rw [State.saved_eq_nil.mpr hnone] at hheld
      rw [hos, hinit, hheld.eq_init]

theorem congr (h : Guarded sf init fd s) (hos : s'.os fd = s.os fd)
    (hsaved : s'.saved fd = s.saved fd) : Guarded sf init fd s' := by
  cases h with
  | closed hinit hnone hnil => exact .closed hinit (hos.trans hnone) (hsaved.trans hnil)
  | opened hinit hsome hheld => exact .opened hinit (hos.trans hsome) (hsaved ▸ hheld)

theorem withNonblock (h : Guarded sf init fd s) {fd' : RawFd}
    (hstep : step sf s (.withNonblock fd') = some s') : Guarded sf init fd s' := by
  obtain ⟨-, rfl⟩ | ⟨flags, hflags, rfl⟩ := step_withNonblock hstep
  . exact h
  . by_cases hfd : fd' = fd
    . subst hfd
      cases h with
      | closed _ hos => simp [hos] at hflags
      | @opened flags₀ _ hinit hos hheld =>
        cases hos.symm.trans hflags
        refine .opened hinit (Function.update_self ..) ?_
        simpa [State.saved, StatusFlags.saveRestore] using hheld.acquire
    . apply h.congr
      . exact Function.update_of_ne (Ne.symm hfd) _ _
      . simp [State.saved, hfd]

theorem drop (h : Guarded sf init fd s) {i : Nat} (hC : DropsLast sf fd s (.drop i))
    (hstep : step sf s (.drop i) = some s') : Guarded sf init fd s' := by
  obtain ⟨l₁, guard, l₂, hguards, hget, herase, rfl⟩ := step_drop hstep
  by_cases hfd : guard.rawFd = fd
  . have hsaved : s.saved fd = (l₁.filter (·.rawFd = fd)).map (·.oldFlags) ++
        guard.oldFlags :: (l₂.filter (·.rawFd = fd)).map (·.oldFlags) := by
      simp [State.saved, hguards, hfd]
    cases h with
    | closed _ _ hnil => simp [hsaved] at hnil
    | @opened flags₀ flags hinit hos hheld =>
      refine .opened hinit (drop_of_eq hfd hos) ?_
      rw [hsaved] at hheld
      have hrelease := hheld.release ?_
      . simpa [State.saved, StatusFlags.saveRestore] using hrelease
      . intro hfirst
        cases hC guard hget hfd with
        | inl hcontains =>
          left
          rw [hfirst] at hcontains
          rw [StatusFlags.acquired_iff, ← StatusFlags.contains_fromBitsTruncate]
          exact hcontains
        | inr hlast =>
          right
          rw [herase] at hlast
          simpa [List.filter_eq_nil_iff, or_imp, forall_and] using hlast
  . apply h.congr
    . exact drop_of_ne hfd
    . simp [State.saved, hguards, hfd]

theorem step (h : Guarded sf init fd s) {e : Event} (hC : DropsLast sf fd s e)
    (hstep : step sf s e = some s') : Guarded sf init fd s' := by
  cases e with
  | withNonblock fd' => exact h.withNonblock hstep
  | drop i => exact h.drop hC hstep

theorem dropsLast (h : Guarded sf init fd s) {e : Event}
    (hstep : NonBlockGuard.step sf s e = some s') (hkept : NonblockKept sf init fd s')
    : DropsLast sf fd s e := by
  cases e with
  | withNonblock => trivial
  | drop i =>
    intro guard hget hfd
    obtain ⟨l₁, guard', l₂, hguards, hget', herase, rfl⟩ := step_drop hstep
    cases hget'.symm.trans hget
    by_cases hlast : ∀ other ∈ s.guards.eraseIdx i, other.rawFd ≠ fd
    . exact .inr hlast
    . left
      simp only [herase, not_forall, not_not] at hlast
      obtain ⟨other, hmem, hother⟩ := hlast
      obtain ⟨flags', hflags', hcontains⟩ := hkept.set ⟨other, hmem, hother⟩
      cases h with
      | closed _ _ hnil =>
        exact absurd hfd (State.saved_eq_nil.mp hnil guard (by simp [hguards]))
      | opened _ hos =>
        cases (drop_of_eq hfd hos).symm.trans hflags'
        exact StatusFlags.contains_setfl.mp hcontains

end Guarded

/--
The descriptor is non-blocking while it has a guard and gets its flags back from the last one, if and
only if a guard that found the descriptor blocking is only dropped as the last one.
-/
theorem nonblock_kept_iff (sf : StatusFlags) (os : FdFlags) (fd : RawFd) (es : List Event)
    : Lts.Always (step sf) (NonblockKept sf (os fd) fd) ⟨os, []⟩ es ↔
      Lts.Along (step sf) (DropsLast sf fd) ⟨os, []⟩ es := by
  apply Lts.always_iff_along (J := Guarded sf (os fd) fd)
  . intro s e s' h hC hstep
    exact h.step hC hstep
  . intro s h
    exact h.kept
  . intro s e s' h hstep hkept
    exact h.dropsLast hstep hkept
  . exact .new os

theorem nonblock_not_kept
    : ¬ ∀ (sf : StatusFlags) (os : FdFlags) (fd : RawFd) (es : List Event),
        Lts.Always (step sf) (NonblockKept sf (os fd) fd) ⟨os, []⟩ es := by
  intro hall
  let os : FdFlags := fun fd => if fd = 7 then some 2 else none
  have hrun : (Lts.run (step .linux) ⟨os, []⟩ [.withNonblock 7, .withNonblock 7, .drop 0]).any
      fun s => s.guards = [⟨7, 0x802⟩] ∧ s.os 7 = some 2 := by
    decide
  refine Lts.not_always_of_run hrun ?_ (hall .linux os 7 _)
  intro s hs hkept
  obtain ⟨hguards, hos⟩ := of_decide_eq_true hs
  obtain ⟨flags, hflags, hcontains⟩ := hkept.set ⟨⟨7, 0x802⟩, by simp [hguards], rfl⟩
  cases hos.symm.trans hflags
  contradiction

end NonBlockGuard
end Shreduler
