import Mathlib.Data.List.Basic

/-!
This module contains resources that several users share, each of which saves the state it finds,
changes it to the state that all of them need, and later restores what it saved.
-/

/--
What a user saves, how it changes the resource, and how it restores what it saved.
-/
structure SaveRestore (σ : Type u) (ρ : Type v) where
  save : σ → ρ
  acquire : σ → σ
  restore : σ → ρ → σ
  acquire_acquire : ∀ s, acquire (acquire s) = acquire s
  restore_save : ∀ s, restore s (save s) = s
  restore_acquire : ∀ s, restore (acquire s) (save s) = s

namespace SaveRestore

variable {σ : Type u} {ρ : Type v} {R : SaveRestore σ ρ} {init s : σ} {saved l₁ l₂ : List ρ} {r : ρ}

def Acquired (R : SaveRestore σ ρ) (s : σ) : Prop := R.acquire s = s

/--
The states of the resource while no user took the initial state away from the others, with what its
present users saved. The oldest of them saved the initial state.
-/
inductive Held (R : SaveRestore σ ρ) (init : σ) : σ → List ρ → Prop where
  | free : Held R init init []
  | held {rest} (hrest : ∀ r ∈ rest, r = R.save (R.acquire init))
    : Held R init (R.acquire init) (R.save init :: rest)

namespace Held

theorem acquired (h : R.Held init s saved) (hne : saved ≠ []) : R.Acquired s := by
  cases h with
  | free => contradiction
  | held => exact R.acquire_acquire init

theorem eq_init (h : R.Held init s []) : s = init := by
  cases h
  rfl

theorem newest {l : List ρ} (h : R.Held init s (l ++ [r])) : l = [] ∨ r = R.save (R.acquire init) := by
  generalize hsaved : l ++ [r] = saved at h
  cases h with
  | free => simp at hsaved
  | @held rest hrest =>
    cases l with
    | nil => exact .inl rfl
    | cons first l =>
      right
      apply hrest
      rw [← (List.cons.inj hsaved).2]
      exact List.mem_append_right l List.mem_cons_self

theorem acquire (h : R.Held init s saved) : R.Held init (R.acquire s) (saved ++ [R.save s]) := by
  cases h with
  | free => exact .held (by simp)
  | @held rest hrest =>
    rw [R.acquire_acquire, List.cons_append]
    apply Held.held
    intro r hr
    rw [List.mem_append, List.mem_singleton] at hr
    exact hr.elim (hrest r) id

theorem of_acquired (hinit : R.acquire init = init) (hsaved : ∀ r ∈ saved, r = R.save init)
    : R.Held init init saved := by
  cases saved with
  | nil => exact .free
  | cons r rest =>
    have hrest : ∀ r ∈ rest, r = R.save (R.acquire init) := by
      intro r hr
      rw [hinit]
      exact hsaved r (.tail _ hr)
    have hheld := Held.held hrest
    rw [hinit] at hheld
    rwa [hsaved r (.head _)]

theorem release (h : R.Held init s (l₁ ++ r :: l₂))
    (hr : r = R.save init → R.Acquired init ∨ l₁ ++ l₂ = [])
    : R.Held init (R.restore s r) (l₁ ++ l₂) := by
  generalize hsaved : l₁ ++ r :: l₂ = saved at h
  cases h with
  | free => simp at hsaved
  | @held rest hrest =>
    cases l₁ with
    | nil =>
      obtain ⟨rfl, rfl⟩ := List.cons.inj hsaved
      rw [R.restore_acquire]
      cases hr rfl with
      | inl hinit =>
        apply of_acquired hinit
        intro r hmem
        rw [hrest r hmem, hinit]
      | inr hlast =>
        rw [hlast]
        exact .free
    | cons r₀ l₁ =>
      obtain ⟨rfl, hrest'⟩ := List.cons.inj hsaved
      subst hrest'
      rw [hrest r (by simp), R.restore_save]
      apply Held.held
      intro r' hmem
      apply hrest
      rw [List.append_eq, List.mem_append] at hmem ⊢
      exact hmem.imp_right (.tail _)

end Held
end SaveRestore
