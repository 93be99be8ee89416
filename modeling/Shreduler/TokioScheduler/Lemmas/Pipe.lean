import Mathlib.Data.List.Flatten
import Mathlib.Data.List.Infix
import Shreduler.TokioScheduler.Impl.Pipe
import Shreduler.TokioScheduler.Lemmas.IoReadOrder
import Shreduler.TokioScheduler.Lemmas.IoWriteProgress

/-!
This module proves what the calls of `io_read` on one end of a pipe report of the buffers that are
written to the other.
-/

namespace Shreduler

open IoRead (Byte Backing Io)

/-! ### The writing end -/

namespace IoWrite

variable {backing : Backing} {s s' : State}

def Reported (s : State) : Prop := ∃ (n : Int) (stage : List Byte), s.phase = .returned (.ok n) stage ∧ 0 < n

instance (s : State) : Decidable (Reported s) :=
  match h : s.phase with
  | .returned (.ok n) stage =>
    decidable_of_iff (0 < n) ⟨fun hpos => ⟨n, stage, h, hpos⟩, by rintro ⟨n, stage, heq, hpos⟩; simp_all⟩
  | .returned (.error _) _ | .created | .writing _ => isFalse (by simp [Reported, h])

theorem Faithful.step_eq_none (h : Faithful backing s) (hreported : Reported s) (e : Event)
    : IoWrite.step backing s e = none := by
  obtain ⟨n, stage, hphase, hpos⟩ := hreported
  obtain ⟨-, -, -, hfile⟩ := h.exact n stage hphase hpos
  cases e with
  | poll env => simp [IoWrite.step, State.poll, hphase]
  | work write => simp [IoWrite.step, State.work, hfile]

theorem Faithful.received_of_reported (h : Faithful backing s) (hreported : Reported s)
    : s.received = s.buffer := by
  obtain ⟨n, stage, hphase, hpos⟩ := hreported
  exact (h.exact n stage hphase hpos).2.1

end IoWrite

/-! ### The reading end -/

namespace IoRead

variable {io : Io} {s s' : State} {stream : List Byte}

theorem Pieces.feed (h : Pieces io stream s) (bytes : List Byte)
    : Pieces io (stream ++ bytes) (Pipe.feed io s bytes) := by
  unfold Pipe.feed
  split
  . next hopen =>
    have hwhole : s.reads.flatMap (·.2) ++ (s.unread ++ bytes) = stream ++ bytes := by
      rw [← h.2 hopen, List.append_assoc]
    exact ⟨hwhole ▸ List.prefix_rfl, fun _ => hwhole⟩
  . next hclosed =>
    exact ⟨h.1.trans (List.prefix_append _ _), fun hopen => absurd hopen hclosed⟩

theorem Sane.feed (h : Sane io s) (bytes : List Byte) : Sane io (Pipe.feed io s bytes) := by
  unfold Pipe.feed
  split
  . next hopen =>
    refine ⟨h.owner, h.nodup, h.sound, h.orphan, h.orphan_nodup, ?_⟩
    intro hclosed
    exact absurd (hclosed.symm.trans hopen) (by simp)
  . exact h

/-- No byte is lost: the descriptor stays open, and each read goes to a call that asks for all of it. -/
def KeepsAll (io : Io) (s : State) : Event → Prop
  | .ioRead _ _ _ env | .newWithInterest env => KeepsOpen io s env
  | e => KeepsBytes io (List.range s.calls.length) s e

instance (io : Io) (s : State) (e : Event) : Decidable (KeepsAll io s e) :=
  match e with
  | .ioRead _ _ _ env | .newWithInterest env => inferInstanceAs (Decidable (KeepsOpen io s env))
  | .poll i env => inferInstanceAs (Decidable (KeepsBytes io (List.range s.calls.length) s (.poll i env)))
  | .work i read => inferInstanceAs (Decidable (KeepsBytes io (List.range s.calls.length) s (.work i read)))
  | .orphan k read =>
    inferInstanceAs (Decidable (KeepsBytes io (List.range s.calls.length) s (.orphan k read)))
  | .drop i => inferInstanceAs (Decidable (KeepsBytes io (List.range s.calls.length) s (.drop i)))

def Call.reported (call : Call) : List Byte :=
  match call.phase with
  | .returned result => Return.reported ⟨result, call.buffer⟩
  | .created | .reading _ | .dropped => []

theorem Call.holds_of_ended {call : Call} (h : ¬ call.Live) (bytes : List Byte)
    : call.holds bytes = call.reported := by
  unfold Live at h
  unfold holds reported
  split at h
  . exact absurd trivial h
  . exact absurd trivial h
  . next hphase => rw [hphase]
  . next hphase => rw [hphase]

def State.answered (s : State) : List Byte :=
  s.reads.flatMap fun r => (s.calls[r.1]?).elim [] Call.reported

theorem Sane.holds_prefix (h : Sane io s) {r : Nat × List Byte} (hr : r ∈ s.reads) {call : Call}
    (hcall : s.calls[r.1]? = some call) : call.holds r.2 <+: r.2 := by
  unfold Call.holds
  split
  . exact List.prefix_rfl
  . exact List.prefix_rfl
  . next hphase =>
    cases (h.sound r.1 call hcall).of_returned hphase with
    | inl hnone =>
      rw [hnone]
      exact List.nil_prefix
    | inr hread =>
      obtain ⟨bytes, hmem, hreported⟩ := hread
      have heq : (r.1, bytes) = r := List.inj_on_of_nodup_map h.nodup hmem hr rfl
      rw [← congrArg Prod.snd heq]
      exact hreported
  . exact List.nil_prefix

/-- The calls have all bytes that have been read. -/
structure Whole (io : Io) (stream : List Byte) (s : State) : Prop where
  sane : Sane io s
  isOpen : (s.reactor.fds io.fileno).isOpen
  kept : s.held (List.range s.calls.length) ++ s.unread = stream
  pieces : Pieces io stream s

theorem KeepsAll.keepsBytes {e : Event} (h : KeepsAll io s e)
    : KeepsBytes io (List.range s.calls.length) s e := by
  cases e with
  | ioRead | newWithInterest => exact .inr h
  | poll | work | orphan | drop => exact h

theorem Sane.held_range (h : Sane io s) {e : Event} (hstep : IoRead.step io s e = some s')
    : s'.held (List.range s'.calls.length) = s'.held (List.range s.calls.length) := by
  apply List.flatMap_congr
  intro r hr
  have hlt := h.owner_of_step hstep r hr
  have hlt' := (h.step hstep).owner r hr
  simp only [State.holds, List.mem_range, hlt, hlt', if_true]

theorem isOpen_of_step (h : (s.reactor.fds io.fileno).isOpen) {e : Event} (hC : KeepsAll io s e)
    (hstep : IoRead.step io s e = some s') : (s'.reactor.fds io.fileno).isOpen := by
  have hmade {env : NewEnv} (hkeeps : KeepsOpen io s env)
      : ((s.newWithInterest io env).2.reactor.fds io.fileno).isOpen := by
    obtain ⟨reactor, heq, hopen, -⟩ := newWithInterest_spec io s env
    rw [heq]
    exact (hopen h).mpr hkeeps
  cases step_outcome hstep with
  | refused | newWithInterest | ioRead => exact hmade hC
  | poll hcall hlive hpoll =>
    cases hpoll with
    | raises | pends => exact h
    | returns =>
      have hread (i : Nat) (env : ReadEnv) : (afterRead io s i env).reactor = s.reactor := by
        unfold afterRead
        split
        . split <;> rfl
        . rfl
      have hfinish (r : Return) (i j : Nat) (env : ReadEnv) (call : Call)
          : ((afterRead io s i env).finish j call r).reactor = s.reactor := hread i env
      rw [hfinish]
      exact h
  | work hcall hphase hwork =>
    cases hwork with
    | reads | fails => exact h
  | orphan horphan hwork =>
    cases hwork with
    | reads | fails => exact h
  | drop => exact h

namespace Whole

theorem new (io : Io) : Whole io [] (.new []) where
  sane := .new io []
  isOpen := rfl
  kept := rfl
  pieces := ⟨List.prefix_rfl, fun _ => rfl⟩

theorem step (h : Whole io stream s) {e : Event} (hC : KeepsAll io s e)
    (hstep : IoRead.step io s e = some s') : Whole io stream s' where
  sane := h.sane.step hstep
  isOpen := isOpen_of_step h.isOpen hC hstep
  kept := by
    rw [h.sane.held_range hstep, (bytes_kept_iff h.sane hstep).mpr hC.keepsBytes]
    exact h.kept
  pieces := h.pieces.step hstep

theorem feed (h : Whole io stream s) (bytes : List Byte)
    : Whole io (stream ++ bytes) (Pipe.feed io s bytes) := by
  have hopen := h.isOpen
  have hfeed : Pipe.feed io s bytes = { s with unread := s.unread ++ bytes } := if_pos hopen
  refine ⟨h.sane.feed bytes, ?_, ?_, h.pieces.feed bytes⟩
  . rw [hfeed]
    exact hopen
  . rw [hfeed, ← h.kept, List.append_assoc]
    rfl

theorem holds_eq (h : Whole io stream s) {r : Nat × List Byte} (hr : r ∈ s.reads) {call : Call}
    (hcall : s.calls[r.1]? = some call) : call.holds r.2 = r.2 := by
  have hall : s.held (List.range s.calls.length) = s.reads.flatMap (·.2) := by
    have heq : s.held (List.range s.calls.length) ++ s.unread = s.reads.flatMap (·.2) ++ s.unread := by
      rw [h.kept, h.pieces.2 h.isOpen]
    exact List.append_cancel_right heq
  have hholds {r : Nat × List Byte} {call : Call} (hcall : s.calls[r.1]? = some call)
      : s.holds (List.range s.calls.length) r = call.holds r.2 := by
    rw [holds_self hcall, if_pos (List.mem_range.mpr (List.getElem?_eq_some_iff.mp hcall).1)]
  rw [← hholds hcall]
  refine (flatMap_eq_flatMap_iff ?_).mp hall r hr
  intro r hr
  have hlt := h.sane.owner r hr
  rw [hholds (List.getElem?_eq_getElem hlt)]
  exact (h.sane.holds_prefix hr (List.getElem?_eq_getElem hlt)).length_le

end Whole

end IoRead

namespace Pipe

variable {writing : Backing} {reading : Io} {s s' : State}

theorem step_write {i : Nat} {e : IoWrite.Event} (h : step writing reading s (.write i e) = some s')
    : ∃ w w' taken, s.writes[i]? = some w ∧ IoWrite.step writing w e = some w' ∧
        w'.received = w.received ++ taken ∧
          s' = { writes := s.writes.set i w', reader := feed reading s.reader taken,
                 arrived := s.arrived ++ taken } := by
  simp only [step] at h
  split at h
  . next w hw =>
    split at h
    . next w' hstep =>
      refine ⟨w, w', w'.received.drop w.received.length, hw, hstep, ?_, (Option.some.inj h).symm⟩
      rw [List.prefix_iff_eq_append.mp (IoWrite.received_prefix_of_step hstep)]
    . contradiction
  . contradiction

theorem step_read {e : IoRead.Event} (h : step writing reading s (.read e) = some s')
    : ∃ reader, IoRead.step reading s.reader e = some reader ∧ s' = { s with reader } := by
  simp only [step] at h
  split at h
  . next reader hreader => exact ⟨reader, hreader, (Option.some.inj h).symm⟩
  . contradiction

/-! ### Calls that overlap -/

structure Interleaved (writing : Backing) (reading : Io) (s : State) : Prop where
  writes : ∀ w ∈ s.writes, IoWrite.Faithful writing w ∧ w.received.Sublist s.arrived
  perm : (s.writes.flatMap (·.received)).Perm s.arrived
  sane : IoRead.Sane reading s.reader
  pieces : IoRead.Pieces reading s.arrived s.reader

theorem flatMap_set_perm {α β : Type} {f : α → List β} {xs : List α} {i : Nat} {x x' : α} {ys : List β}
    (hx : xs[i]? = some x) (hf : f x' = f x ++ ys)
    : ((xs.set i x').flatMap f).Perm (xs.flatMap f ++ ys) := by
  induction xs generalizing i with
  | nil => contradiction
  | cons z zs ih =>
    cases i with
    | zero =>
      obtain rfl := Option.some.inj hx
      simp only [List.set_cons_zero, List.flatMap_cons, hf, List.append_assoc]
      apply List.Perm.append_left
      apply List.perm_append_comm
    | succ i =>
      simp only [List.set_cons_succ, List.flatMap_cons, List.append_assoc]
      apply List.Perm.append_left
      exact ih hx

theorem Interleaved.step (h : Interleaved writing reading s) {e : Event}
    (hstep : Pipe.step writing reading s e = some s') : Interleaved writing reading s' := by
  cases e with
  | ioWrite buffer minimumLengthToBeWritten timeout =>
    obtain rfl := Option.some.inj hstep
    constructor
    . intro w hw
      cases List.mem_append.mp hw with
      | inl hw => exact h.writes w hw
      | inr hw =>
        rw [List.mem_singleton.mp hw]
        exact ⟨.new writing buffer minimumLengthToBeWritten timeout, List.nil_sublist _⟩
    . simpa [IoWrite.State.new] using h.perm
    . exact h.sane
    . exact h.pieces
  | write i e =>
    obtain ⟨w, w', taken, hw, hwrite, hreceived, rfl⟩ := step_write hstep
    have hmem := h.writes w (List.mem_of_getElem? hw)
    constructor
    . intro v hv
      cases List.mem_or_eq_of_mem_set hv with
      | inl hv =>
        refine ⟨(h.writes v hv).1, ?_⟩
        apply (h.writes v hv).2.trans
        apply List.sublist_append_left
      | inr heq =>
        refine ⟨heq ▸ hmem.1.step hwrite, ?_⟩
        rw [heq, hreceived]
        exact hmem.2.append_right taken
    . apply (flatMap_set_perm hw hreceived).trans
      exact h.perm.append_right taken
    . exact h.sane.feed taken
    . exact h.pieces.feed taken
  | read e =>
    obtain ⟨reader, hreader, rfl⟩ := step_read hstep
    exact ⟨h.writes, h.perm, h.sane.step hreader, h.pieces.step hreader⟩

theorem Interleaved.new (writing : Backing) (reading : Io) : Interleaved writing reading .new where
  writes := by simp [State.new]
  perm := by simp [State.new]
  sane := .new reading []
  pieces := ⟨List.prefix_rfl, fun _ => rfl⟩

theorem Interleaved.cut (h : Interleaved writing reading s) : IoRead.Cut reading s.arrived s.reader where
  pieces := h.pieces.1
  whole := h.pieces.2
  owners := h.sane.nodup
  reported i call _ hcall hphase := (h.sane.sound i call hcall).of_returned hphase

/--
However the calls at both ends overlap, time out and fail: the writing end takes a prefix of each buffer,
what arrives is an interleaving of these prefixes, and the reads cut that into the pieces that the calls of
`io_read` report the first parts of.
-/
theorem nothing_invented (writing : Backing) (reading : Io) (es : List Event)
    : Lts.Always (step writing reading)
        (fun s => (∀ w ∈ s.writes, w.received <+: w.buffer ∧ w.received.Sublist s.arrived) ∧
          (s.writes.flatMap (·.received)).Perm s.arrived ∧ IoRead.Cut reading s.arrived s.reader)
        .new es := by
  apply Lts.always_of_invariant (J := Interleaved writing reading)
  . intro s e s' h hstep
    exact h.step hstep
  . intro s h
    refine ⟨?_, h.perm, h.cut⟩
    intro w hw
    exact ⟨(h.writes w hw).1.deliversBuffer.received_prefix, (h.writes w hw).2⟩
  . exact .new writing reading

/-! ### One call after the other -/

def InTurn (s : State) : Event → Prop
  | .ioWrite .. => ∀ w ∈ s.writes, IoWrite.Reported w
  | .write .. | .read _ => True

instance (s : State) (e : Event) : Decidable (InTurn s e) :=
  match e with
  | .ioWrite .. => inferInstanceAs (Decidable (∀ w ∈ s.writes, IoWrite.Reported w))
  | .write .. | .read _ => isTrue trivial

/-- No byte is lost at the reading end. -/
def KeepsAll (reading : Io) (s : State) : Event → Prop
  | .read e => IoRead.KeepsAll reading s.reader e
  | .ioWrite .. | .write .. => True

instance (reading : Io) (s : State) (e : Event) : Decidable (KeepsAll reading s e) :=
  match e with
  | .read e => inferInstanceAs (Decidable (IoRead.KeepsAll reading s.reader e))
  | .ioWrite .. | .write .. => isTrue trivial

structure Written (writing : Backing) (s : State) : Prop where
  faithful : ∀ w ∈ s.writes, IoWrite.Faithful writing w
  reported : ∀ init w, s.writes = init ++ [w] → ∀ v ∈ init, IoWrite.Reported v
  arrived : s.arrived = s.writes.flatMap (·.received)

namespace Written

theorem new (writing : Backing) : Written writing .new where
  faithful := by simp [State.new]
  reported := by simp [State.new]
  arrived := rfl

theorem step (h : Written writing s) {e : Event} (hturn : InTurn s e)
    (hstep : Pipe.step writing reading s e = some s') : Written writing s' := by
  cases e with
  | ioWrite buffer minimumLengthToBeWritten timeout =>
    obtain rfl := Option.some.inj hstep
    constructor
    . intro w hw
      cases List.mem_append.mp hw with
      | inl hw => exact h.faithful w hw
      | inr hw =>
        rw [List.mem_singleton.mp hw]
        exact .new writing buffer minimumLengthToBeWritten timeout
    . intro init w heq v hv
      obtain ⟨hinit, -⟩ := List.append_inj' heq rfl
      exact hturn v (hinit ▸ hv)
    . simpa [IoWrite.State.new] using h.arrived
  | write i e =>
    obtain ⟨w, w', taken, hw, hwrite, hreceived, rfl⟩ := step_write hstep
    have hmem := List.mem_of_getElem? hw
    -- A call that has reported takes no step, so it is the last one that does.
    have hlast : ∃ init, s.writes = init ++ [w] ∧ i = init.length := by
      cases List.eq_nil_or_concat s.writes with
      | inl hnil =>
        rw [hnil] at hw
        contradiction
      | inr hconcat =>
        obtain ⟨init, v, hinit⟩ := hconcat
        rw [List.concat_eq_append] at hinit
        by_cases hi : i < init.length
        . rw [hinit, List.getElem?_append_left hi] at hw
          have hreported := h.reported init v hinit w (List.mem_of_getElem? hw)
          rw [(h.faithful w hmem).step_eq_none hreported e] at hwrite
          contradiction
        . rw [hinit, List.getElem?_append_right (Nat.not_lt.mp hi)] at hw
          obtain ⟨hzero, hv⟩ := List.getElem?_eq_some_iff.mp hw
          simp only [List.length_cons, List.length_nil] at hzero
          have heq : i = init.length := by omega
          simp only [heq, Nat.sub_self, List.getElem_cons_zero] at hv
          exact ⟨init, hv ▸ hinit, heq⟩
    obtain ⟨init, hinit, rfl⟩ := hlast
    have hset : s.writes.set init.length w' = init ++ [w'] := by
      rw [hinit, List.set_append_right _ _ (Nat.le_refl _)]
      simp
    constructor
    . intro v hv
      cases List.mem_or_eq_of_mem_set hv with
      | inl hv => exact h.faithful v hv
      | inr heq => exact heq ▸ (h.faithful w hmem).step hwrite
    . intro init' v heq u hu
      dsimp only at heq
      rw [hset] at heq
      obtain ⟨hinit', -⟩ := List.append_inj' heq rfl
      exact h.reported init w hinit u (hinit' ▸ hu)
    . dsimp only
      rw [h.arrived, hset, hinit]
      simp [hreceived]
  | read e =>
    obtain ⟨reader, hreader, rfl⟩ := step_read hstep
    exact ⟨h.faithful, h.reported, h.arrived⟩

theorem arrived_prefix (h : Written writing s) : s.arrived <+: s.writes.flatMap (·.buffer) := by
  rw [h.arrived]
  cases List.eq_nil_or_concat s.writes with
  | inl hnil => simp [hnil]
  | inr hconcat =>
    obtain ⟨init, w, hinit⟩ := hconcat
    rw [List.concat_eq_append] at hinit
    have hreceived : init.flatMap (·.received) = init.flatMap (·.buffer) := by
      apply List.flatMap_congr
      intro v hv
      apply (h.faithful v (by simp [hinit, hv])).received_of_reported
      exact h.reported init w hinit v hv
    have hw := (h.faithful w (by simp [hinit])).deliversBuffer.received_prefix
    simpa [hinit, hreceived] using hw

theorem arrived_eq (h : Written writing s) (hall : ∀ w ∈ s.writes, IoWrite.Reported w)
    : s.arrived = s.writes.flatMap (·.buffer) := by
  rw [h.arrived]
  apply List.flatMap_congr
  intro w hw
  exact (h.faithful w hw).received_of_reported (hall w hw)

end Written

structure Carries (s : State) : Prop where
  read_prefix : s.reader.reads.flatMap (·.2) <+: s.writes.flatMap (·.buffer)
  exact : ∀ r ∈ s.reader.reads, ∀ call, s.reader.calls[r.1]? = some call → ¬ call.Live →
    call.reported = r.2
  answered : (∀ w ∈ s.writes, IoWrite.Reported w) → (∀ call ∈ s.reader.calls, ¬ call.Live) →
    s.reader.unread = [] → s.reader.answered = s.writes.flatMap (·.buffer)

structure Carried (writing : Backing) (reading : Io) (s : State) : Prop where
  written : Written writing s
  read : IoRead.Whole reading s.arrived s.reader

namespace Carried

theorem new (writing : Backing) (reading : Io) : Carried writing reading .new where
  written := .new writing
  read := .new reading

theorem step (h : Carried writing reading s) {e : Event} (hturn : InTurn s e)
    (hkeeps : KeepsAll reading s e) (hstep : Pipe.step writing reading s e = some s')
    : Carried writing reading s' := by
  refine ⟨h.written.step hturn hstep, ?_⟩
  cases e with
  | ioWrite =>
    obtain rfl := Option.some.inj hstep
    exact h.read
  | write i e =>
    obtain ⟨w, w', taken, -, -, -, rfl⟩ := step_write hstep
    exact h.read.feed taken
  | read e =>
    obtain ⟨reader, hreader, rfl⟩ := step_read hstep
    exact h.read.step hkeeps hreader

theorem reads_append (h : Carried writing reading s)
    : s.reader.reads.flatMap (·.2) ++ s.reader.unread = s.arrived :=
  h.read.pieces.2 h.read.isOpen

theorem exact (h : Carried writing reading s) {r : Nat × List Byte} (hr : r ∈ s.reader.reads)
    {call : IoRead.Call} (hcall : s.reader.calls[r.1]? = some call) (hended : ¬ call.Live)
    : call.reported = r.2 := by
  rw [← call.holds_of_ended hended r.2]
  exact h.read.holds_eq hr hcall

theorem carries (h : Carried writing reading s) : Carries s where
  read_prefix := by
    have hprefix : s.reader.reads.flatMap (·.2) <+: s.arrived := ⟨_, h.reads_append⟩
    exact hprefix.trans h.written.arrived_prefix
  exact _ hr _ hcall hended := h.exact hr hcall hended
  answered hall hended hunread := by
    have hanswered : s.reader.answered = s.reader.reads.flatMap (·.2) := by
      apply List.flatMap_congr
      intro r hr
      have hcall := List.getElem?_eq_getElem (h.read.sane.owner r hr)
      rw [hcall]
      exact h.exact hr hcall (hended _ (List.getElem_mem _))
    have happend := h.reads_append
    rw [hunread, List.append_nil] at happend
    rw [hanswered, happend, h.written.arrived_eq hall]

end Carried

/--
Fibers that write buffers one after the other, each after the last has been reported as written, and
fibers whose reads may overlap, as long as the reading end stays open and each read goes to a call that asks
for all of it: what is read is at any moment the first part of what was written, and each call reports its
piece of it. They report all of it once every write has reported, no read is under way and the pipe is empty.
-/
theorem pipe_carries (writing : Backing) (reading : Io) (es : List Event)
    (hturn : Lts.Along (step writing reading) InTurn .new es)
    (hkeeps : Lts.Along (step writing reading) (KeepsAll reading) .new es)
    : Lts.Always (step writing reading) Carries .new es := by
  refine Lts.Along.always (J := Carried writing reading) ?_ ?_ (.new writing reading) (hturn.and hkeeps)
  . intro s e s' h hC hstep
    exact h.step hC.1 hC.2 hstep
  . intro s h
    exact h.carries

def pipe : Io := ⟨.object "IO" 0, 7, .file, by decide⟩

def pipeEnv : NewEnv := { tryConvert := .ok pipe.value, fileno := .ok 7 }

def twoReaders : List Event := [
  .read (.ioRead [0] 0 0 pipeEnv),
  .read (.ioRead [0] 0 0 pipeEnv),
  .ioWrite [114, 98] 0 0,
  .read (.poll 0 {}),
  .read (.poll 1 {}),
  .write 0 (.poll {}),
  .write 0 (.work (.data 1)),
  .read (.work 1 (.data 1)),
  .write 0 (.work (.data 1)),
  .read (.work 0 (.data 1)),
  .write 0 (.poll {}),
  .read (.poll 0 {}),
  .read (.poll 1 {})
]

theorem pipe_carries_twoReaders
    : Lts.Always (step .file pipe) Carries .new twoReaders ∧
        (Lts.run (step .file pipe) .new twoReaders).any
          fun s => s.reader.answered = [114, 98] ∧ s.reader.calls.map (·.reported) = [[98], [114]] := by
  refine ⟨pipe_carries .file pipe twoReaders ?_ ?_, ?_⟩
  all_goals decide

end Pipe
end Shreduler
