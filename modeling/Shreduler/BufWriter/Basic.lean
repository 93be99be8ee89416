import Mathlib.Data.List.TakeDrop

/-!
This module contains a writer that stages small writes before it hands them to another writer, and the
run of `write_all` and `flush` on it, one call on the inner writer at a time.
-/

namespace BufWriter

variable {α : Type u}

inductive Position (α : Type u) where
  -- `write_all`, with what is left of its argument.
  | writeAll (rest : List α)
  -- The two halves of `flush`.
  | flushBuf
  | flushInner
  deriving DecidableEq

inductive Request (α : Type u) where
  | write (chunk : List α)
  | flush
  deriving DecidableEq

structure Writer (α : Type u) where
  buf : List α
  -- The part of the stage that the flush in progress has handed on.
  written : Nat
  position : Position α
  deriving DecidableEq

namespace Writer

def flush (w : Writer α) : Writer α :=
  if w.written < w.buf.length then
    { w with position := .flushBuf }
  else
    { buf := [], written := 0, position := .flushInner }

/-- `poll_write` with room in the stage: it passes a large write on. -/
def stage (capacity : Nat) (w : Writer α) (rest : List α) : Writer α :=
  if capacity ≤ rest.length then
    { w with position := .writeAll rest }
  else
    { w with buf := w.buf ++ rest }.flush

def pollWrite (capacity : Nat) (w : Writer α) (rest : List α) : Writer α :=
  if capacity < w.buf.length + rest.length then
    if w.written < w.buf.length then
      { w with position := .writeAll rest }
    else
      { w with buf := [], written := 0 }.stage capacity rest
  else
    w.stage capacity rest

def settle (capacity : Nat) (w : Writer α) : Writer α :=
  match w.position with
  | .writeAll rest => if rest.isEmpty then w.flush else w.pollWrite capacity rest
  | .flushBuf => w.flush
  | .flushInner => w

def start (capacity : Nat) (data : List α) : Writer α :=
  { buf := [], written := 0, position := .writeAll data : Writer α }.settle capacity

def request (w : Writer α) : Request α :=
  match w.position with
  | .writeAll rest =>
    if w.written < w.buf.length then .write (w.buf.drop w.written) else .write rest
  | .flushBuf => .write (w.buf.drop w.written)
  | .flushInner => .flush

/-- The inner writer has taken `n` elements, `none` if that is an error of its own. -/
def taken (capacity : Nat) (w : Writer α) (n : Nat) : Option (Writer α) :=
  if n = 0 then
    none
  else
    match w.position with
    | .writeAll rest =>
      if w.written < w.buf.length then
        some ({ w with written := w.written + n }.settle capacity)
      else
        some ({ w with position := .writeAll (rest.drop n) }.settle capacity)
    | .flushBuf => some ({ w with written := w.written + n }.settle capacity)
    | .flushInner => none

def rest (w : Writer α) : List α :=
  match w.position with
  | .writeAll rest => rest
  | .flushBuf | .flushInner => []

def pending (w : Writer α) : List α := w.buf.drop w.written ++ w.rest

/-- The writer is about to make a call on the inner writer. -/
structure Settled (w : Writer α) : Prop where
  le : w.written ≤ w.buf.length
  writeAll : ∀ rest, w.position = .writeAll rest → rest ≠ [] ∧ (w.written < w.buf.length ∨ w.buf = [])
  flushBuf : w.position = .flushBuf → w.written < w.buf.length
  flushInner : w.position = .flushInner → w.buf = []

variable {capacity n : Nat} {w w' : Writer α}

theorem settled_flush (h : w.written ≤ w.buf.length) : w.flush.Settled := by
  unfold flush
  split
  . next hlt => exact ⟨h, by simp, fun _ => hlt, by simp⟩
  . exact ⟨Nat.le_refl _, by simp, by simp, fun _ => rfl⟩

theorem pending_flush (w : Writer α) : w.flush.pending = w.buf.drop w.written := by
  unfold flush
  split
  . exact List.append_nil _
  . next hle =>
    rw [List.drop_of_length_le (Nat.not_lt.mp hle)]
    rfl

theorem settled_stage {rest : List α} (h : w.written ≤ w.buf.length) (hrest : rest ≠ [])
    (hroom : w.buf.length + rest.length ≤ capacity ∨ w.buf = []) : (w.stage capacity rest).Settled := by
  unfold stage
  split
  . next hpass =>
    have hbuf : w.buf = [] := hroom.elim (fun hle => List.length_eq_zero_iff.mp (by omega)) id
    refine ⟨h, ?_, by simp, by simp⟩
    rintro rest' ⟨⟩
    exact ⟨hrest, .inr hbuf⟩
  . apply settled_flush
    simp only [List.length_append]
    omega

theorem settled_pollWrite {rest : List α} (h : w.written ≤ w.buf.length) (hrest : rest ≠ [])
    : (w.pollWrite capacity rest).Settled := by
  unfold pollWrite
  split
  . split
    . next hlt =>
      refine ⟨h, ?_, by simp, by simp⟩
      rintro rest' ⟨⟩
      exact ⟨hrest, .inl hlt⟩
    . exact settled_stage (Nat.le_refl _) hrest (.inr rfl)
  . next hroom => exact settled_stage h hrest (.inl (Nat.not_lt.mp hroom))

theorem settled_settle (h : w.written ≤ w.buf.length) (hinner : w.position ≠ .flushInner)
    : (w.settle capacity).Settled := by
  unfold settle
  split
  . split
    . exact settled_flush h
    . next hrest => exact settled_pollWrite h (by simpa using hrest)
  . exact settled_flush h
  . contradiction

theorem rest_writeAll {rest : List α} (h : w.position = .writeAll rest) : w.rest = rest := by
  simp only [Writer.rest, h]

theorem rest_flushBuf (h : w.position = .flushBuf) : w.rest = [] := by
  simp only [rest, h]

theorem pending_stage {rest : List α} (h : w.written ≤ w.buf.length)
    : (w.stage capacity rest).pending = w.buf.drop w.written ++ rest := by
  unfold stage
  split
  . rfl
  . rw [pending_flush, List.drop_append_of_le_length h]

theorem pending_pollWrite {rest : List α} (h : w.written ≤ w.buf.length)
    : (w.pollWrite capacity rest).pending = w.buf.drop w.written ++ rest := by
  unfold pollWrite
  split
  . split
    . rfl
    . next hle =>
      rw [pending_stage (Nat.le_refl _), List.drop_of_length_le (Nat.not_lt.mp hle)]
      rfl
  . exact pending_stage h

theorem pending_settle (h : w.written ≤ w.buf.length) : (w.settle capacity).pending = w.pending := by
  unfold settle
  split
  . next rest hposition =>
    have hpending : w.pending = w.buf.drop w.written ++ rest := by
      rw [pending, rest_writeAll hposition]
    split
    . next hrest => rw [pending_flush, hpending, List.isEmpty_iff.mp hrest, List.append_nil]
    . rw [pending_pollWrite h, hpending]
  . next hposition =>
    rw [pending_flush, pending, rest_flushBuf hposition, List.append_nil]
  . rfl

theorem settled_start (capacity : Nat) (data : List α) : (start capacity data).Settled :=
  settled_settle (Nat.le_refl _) (by simp)

theorem pending_start (capacity : Nat) (data : List α) : (start capacity data).pending = data :=
  pending_settle (Nat.le_refl _)

theorem taken_eq_none_iff {chunk : List α} (hrequest : w.request = .write chunk)
    : w.taken capacity n = none ↔ n = 0 := by
  unfold taken
  split
  . next hzero => simp [hzero]
  . next hpos =>
    unfold request at hrequest
    split at hrequest
    . next rest hposition =>
      simp only [hposition]
      split <;> simp [hpos]
    . next hposition => simp [hposition, hpos]
    . contradiction

namespace Settled

theorem chunk_prefix {chunk : List α} (h : w.Settled) (hrequest : w.request = .write chunk)
    : chunk ≠ [] ∧ chunk <+: w.pending := by
  have hdrop (hlt : w.written < w.buf.length) : w.buf.drop w.written ≠ [] := by
    simpa [List.drop_eq_nil_iff] using hlt
  unfold request at hrequest
  split at hrequest
  . next rest hposition =>
    split at hrequest
    . next hlt =>
      obtain rfl := Request.write.inj hrequest
      exact ⟨hdrop hlt, List.prefix_append _ _⟩
    . next hle =>
      obtain rfl := Request.write.inj hrequest
      refine ⟨(h.writeAll rest hposition).1, ?_⟩
      rw [pending, rest_writeAll hposition, List.drop_of_length_le (Nat.not_lt.mp hle)]
      exact List.prefix_rfl
  . next hposition =>
    obtain rfl := Request.write.inj hrequest
    exact ⟨hdrop (h.flushBuf hposition), List.prefix_append _ _⟩
  . contradiction

theorem done (h : w.Settled) (hrequest : w.request = .flush) : w.buf = [] ∧ w.pending = [] := by
  unfold request at hrequest
  split at hrequest
  . split at hrequest <;> contradiction
  . contradiction
  . next hposition =>
    have hbuf := h.flushInner hposition
    refine ⟨hbuf, ?_⟩
    simp only [pending, rest, hposition, hbuf, List.drop_nil, List.append_nil]

theorem handOn (h : w.Settled) (hn : n ≤ (w.buf.drop w.written).length)
    (hposition : w.position ≠ .flushInner)
    : ({ w with written := w.written + n }.settle capacity).Settled ∧
        w.pending = (w.buf.drop w.written).take n ++
          ({ w with written := w.written + n }.settle capacity).pending := by
  have hle : w.written + n ≤ w.buf.length := by
    rw [List.length_drop] at hn
    have := h.le
    omega
  refine ⟨settled_settle hle hposition, ?_⟩
  have hsettle : ({ w with written := w.written + n }.settle capacity).pending
      = w.buf.drop (w.written + n) ++ w.rest := pending_settle hle
  rw [hsettle, ← List.append_assoc, ← List.drop_drop, List.take_append_drop, pending]

theorem passOn {rest : List α} (h : w.Settled) (hbuf : w.buf.length ≤ w.written)
    (hposition : w.position = .writeAll rest)
    : ({ w with position := .writeAll (rest.drop n) }.settle capacity).Settled ∧
        w.pending = rest.take n ++
          ({ w with position := .writeAll (rest.drop n) }.settle capacity).pending := by
  refine ⟨settled_settle h.le (by simp), ?_⟩
  have hsettle : ({ w with position := .writeAll (rest.drop n) }.settle capacity).pending
      = w.buf.drop w.written ++ rest.drop n := pending_settle h.le
  rw [hsettle, pending, rest_writeAll hposition, List.drop_of_length_le hbuf, List.nil_append,
    List.nil_append, List.take_append_drop]

theorem taken {chunk : List α} (h : w.Settled) (hrequest : w.request = .write chunk)
    (hn : n ≤ chunk.length) (htaken : w.taken capacity n = some w')
    : w'.Settled ∧ w.pending = chunk.take n ++ w'.pending := by
  unfold Writer.taken at htaken
  unfold request at hrequest
  split at htaken
  . contradiction
  . split at htaken
    . next rest hposition =>
      rw [hposition] at hrequest
      dsimp only at hrequest
      split at htaken
      . next hlt =>
        rw [if_pos hlt] at hrequest
        obtain rfl := Request.write.inj hrequest
        obtain rfl := Option.some.inj htaken
        exact h.handOn hn (by simp [hposition])
      . next hle =>
        rw [if_neg hle] at hrequest
        obtain rfl := Request.write.inj hrequest
        obtain rfl := Option.some.inj htaken
        exact h.passOn (Nat.not_lt.mp hle) hposition
    . next hposition =>
      rw [hposition] at hrequest
      obtain rfl := Request.write.inj hrequest
      obtain rfl := Option.some.inj htaken
      exact h.handOn hn (by simp [hposition])
    . contradiction

end Settled

end Writer
end BufWriter
