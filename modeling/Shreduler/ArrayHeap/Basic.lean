import Mathlib.Data.List.Basic

/-!
This module contains a heap of mutable arrays, which are known by their numbers. A number that no
array has yet reads as the empty array.
-/

structure ArrayHeap (α : Type u) where
  arrays : List (List α)

namespace ArrayHeap

variable {α : Type u}

def empty : ArrayHeap α where
  arrays := []

def size (heap : ArrayHeap α) : Nat := heap.arrays.length

def contents (heap : ArrayHeap α) (a : Nat) : List α := heap.arrays.getD a []

def alloc (heap : ArrayHeap α) (xs : List α) : ArrayHeap α where
  arrays := heap.arrays ++ [xs]

def modify (heap : ArrayHeap α) (a : Nat) (f : List α → List α) : ArrayHeap α where
  arrays := heap.arrays.modify a f

variable {heap : ArrayHeap α} {a b : Nat}

@[simp]
theorem size_alloc (heap : ArrayHeap α) (xs : List α) : (heap.alloc xs).size = heap.size + 1 := by
  simp [size, alloc]

@[simp]
theorem contents_alloc (heap : ArrayHeap α) (xs : List α) (a : Nat)
    : (heap.alloc xs).contents a = if a = heap.size then xs else heap.contents a := by
  simp only [contents, alloc, size, List.getD_eq_getElem?_getD]
  split
  . next h => simp [h]
  . next h =>
    rw [List.getElem?_append]
    split
    . rfl
    . next hle =>
      rw [List.getElem?_eq_none (Nat.le_of_not_lt hle), List.getElem?_eq_none]
      simp only [List.length_singleton]
      omega

@[simp]
theorem size_modify (heap : ArrayHeap α) (a : Nat) (f : List α → List α)
    : (heap.modify a f).size = heap.size := by
  simp [size, modify]

theorem contents_modify_self (h : a < heap.size) (f : List α → List α)
    : (heap.modify a f).contents a = f (heap.contents a) := by
  simp [contents, modify, List.getD_eq_getElem?_getD, List.getElem?_eq_getElem h]

theorem contents_modify_of_ne (h : b ≠ a) (f : List α → List α)
    : (heap.modify a f).contents b = heap.contents b := by
  simp [contents, modify, List.getD_eq_getElem?_getD, Ne.symm h]

end ArrayHeap
