import Mathlib.Data.List.Nodup
import Mathlib.Data.List.Perm.Basic

/-!
This module contains `waitpid(2)` on the children of a process.
-/

namespace Posix

abbrev Pid := Int32

abbrev Errno := Int32

def echild : Errno := 10

inductive ChildState where
  -- Nothing has happened that `waitpid` has yet to report.
  | quiet
  | stopped (status : Int32)
  | continued (status : Int32)
  | exited (status : Int32)
  deriving DecidableEq, Repr

def ChildState.isExited : ChildState → Bool
  | .exited _ => true
  | _ => false

structure Child where
  pid : Pid
  pgid : Pid
  state : ChildState
  deriving DecidableEq, Repr

structure WaitOptions where
  noHang : Bool
  untraced : Bool
  continued : Bool
  deriving DecidableEq, Repr

def Child.change (child : Child) (options : WaitOptions) : Option Int32 :=
  match child.state with
  | .quiet => none
  | .stopped status => if options.untraced then some status else none
  | .continued status => if options.continued then some status else none
  | .exited status => some status

/-- The children that the first argument of `waitpid` names, in a process of the group `pgrp`. -/
def Selects (pgrp pid : Pid) (child : Child) : Prop :=
  if 0 < pid then
    child.pid = pid
  else if pid = 0 then
    child.pgid = pgrp
  else if pid = -1 then
    True
  else
    child.pgid.toInt = -pid.toInt

instance (pgrp pid : Pid) (child : Child) : Decidable (Selects pgrp pid child) := by
  unfold Selects
  infer_instance

/--
What the outside decides: which of the children that changed is reported, and whether a signal or
anything else makes the call fail.
-/
structure WaitEnv where
  pick : Nat := 0
  error : Option Errno := none
  deriving DecidableEq, Repr

inductive Waited where
  | blocks
  | none
  | failed (errno : Errno)
  | child (child : Child) (status : Int32)
  deriving DecidableEq, Repr

def changed (pgrp : Pid) (children : List Child) (pid : Pid) (options : WaitOptions)
    : List (Child × Int32) :=
  (children.filter fun child => Selects pgrp pid child).filterMap fun child =>
    (child.change options).map fun status => (child, status)

def waitpid (pgrp : Pid) (children : List Child) (pid : Pid) (options : WaitOptions) (env : WaitEnv)
    : Waited :=
  match env.error with
  | some errno => .failed errno
  | none =>
    if ∀ child ∈ children, ¬ Selects pgrp pid child then
      .failed echild
    else
      let changed := changed pgrp children pid options
      match changed[env.pick % changed.length]? with
      | some (child, status) => .child child status
      | none => if options.noHang then .none else .blocks

def reap (children : List Child) (child : Child) : List Child :=
  match child.state with
  | .exited _ => children.filter fun other => other.pid ≠ child.pid
  | _ =>
    children.map fun other => if other.pid = child.pid then { other with state := .quiet } else other

variable {pgrp pid : Pid} {children : List Child} {options : WaitOptions} {env : WaitEnv}

def Unchanged (pgrp : Pid) (children : List Child) (pid : Pid) (options : WaitOptions) : Prop :=
  (∃ child ∈ children, Selects pgrp pid child) ∧
    ∀ child ∈ children, Selects pgrp pid child → child.change options = none

instance : Decidable (Unchanged pgrp children pid options) := inferInstanceAs (Decidable (_ ∧ _))

theorem changed_eq_nil_iff
    : changed pgrp children pid options = [] ↔
        ∀ child ∈ children, Selects pgrp pid child → child.change options = none := by
  simp [changed, List.filterMap_eq_nil_iff]

theorem getElem?_pick_eq_none_iff {α : Type} {l : List α} {pick : Nat}
    : l[pick % l.length]? = none ↔ l = [] := by
  rw [List.getElem?_eq_none_iff]
  constructor
  . intro h
    by_contra hne
    have hpos := List.length_pos_iff.mpr hne
    exact absurd (Nat.mod_lt pick hpos) (Nat.not_lt.mpr h)
  . rintro rfl
    exact Nat.zero_le _

theorem waitpid_of_error {errno : Errno} (h : env.error = some errno)
    : waitpid pgrp children pid options env = .failed errno := by
  simp [waitpid, h]

theorem waitpid_of_not_selects (herror : env.error = none)
    (h : ∀ child ∈ children, ¬ Selects pgrp pid child)
    : waitpid pgrp children pid options env = .failed echild := by
  simp only [waitpid, herror]
  exact if_pos h

theorem waitpid_of_unchanged (herror : env.error = none)
    (h : Unchanged pgrp children pid options)
    : waitpid pgrp children pid options env = if options.noHang then .none else .blocks := by
  obtain ⟨⟨child, hmem, hselects⟩, hquiet⟩ := h
  have hnot : ¬ ∀ child ∈ children, ¬ Selects pgrp pid child := fun h => h child hmem hselects
  simp only [waitpid, herror]
  rw [if_neg hnot, getElem?_pick_eq_none_iff.mpr (changed_eq_nil_iff.mpr hquiet)]

theorem waitpid_of_changed (env : WaitEnv) (herror : env.error = none)
    (h : ∃ child ∈ children, Selects pgrp pid child ∧ child.change options ≠ none)
    : ∃ child status, waitpid pgrp children pid options env = .child child status ∧
        child ∈ children ∧ Selects pgrp pid child ∧ child.change options = some status := by
  obtain ⟨child₀, hmem₀, hselects₀, hchange₀⟩ := h
  have hnot : ¬ ∀ child ∈ children, ¬ Selects pgrp pid child := fun h => h child₀ hmem₀ hselects₀
  have hne : changed pgrp children pid options ≠ [] := by
    intro hnil
    exact hchange₀ (changed_eq_nil_iff.mp hnil child₀ hmem₀ hselects₀)
  cases hpick :
      (changed pgrp children pid options)[env.pick % (changed pgrp children pid options).length]? with
  | none => exact absurd (getElem?_pick_eq_none_iff.mp hpick) hne
  | some reported =>
    obtain ⟨child, status⟩ := reported
    refine ⟨child, status, ?_, ?_⟩
    . simp only [waitpid, herror]
      rw [if_neg hnot, hpick]
    . have hmem := List.mem_of_getElem? hpick
      simp only [changed, List.mem_filterMap, List.mem_filter, decide_eq_true_eq,
        Option.map_eq_some_iff, Prod.mk.injEq] at hmem
      obtain ⟨child', ⟨hmem, hselects⟩, status', hchange, rfl, rfl⟩ := hmem
      exact ⟨hmem, hselects, hchange⟩

theorem mem_of_waitpid {child : Child} {status : Int32}
    (h : waitpid pgrp children pid options env = .child child status)
    : child ∈ children ∧ Selects pgrp pid child ∧ child.change options = some status := by
  by_cases hchange : env.error = none ∧
      ∃ child ∈ children, Selects pgrp pid child ∧ child.change options ≠ none
  . obtain ⟨child', status', hreports, hmem⟩ := waitpid_of_changed env hchange.1 hchange.2
    rw [hreports] at h
    injection h with hchild hstatus
    exact hchild ▸ hstatus ▸ hmem
  . cases herror : env.error with
    | some errno =>
      rw [waitpid_of_error herror] at h
      contradiction
    | none =>
      simp only [herror, true_and, not_exists, not_and, not_not] at hchange
      by_cases hnone : ∀ child ∈ children, ¬ Selects pgrp pid child
      . rw [waitpid_of_not_selects herror hnone] at h
        contradiction
      . simp only [not_forall, not_not, exists_prop] at hnone
        rw [waitpid_of_unchanged herror ⟨hnone, hchange⟩] at h
        split at h <;> contradiction

theorem waitpid_eq_blocks_iff
    : waitpid pgrp children pid options env = .blocks ↔
        options.noHang = false ∧ env.error = none ∧ Unchanged pgrp children pid options := by
  constructor
  . intro h
    have herror : env.error = none := by
      by_contra hsome
      obtain ⟨errno, hsome⟩ := Option.ne_none_iff_exists'.mp hsome
      rw [waitpid_of_error hsome] at h
      contradiction
    have hunchanged : Unchanged pgrp children pid options := by
      constructor
      . by_contra hnone
        simp only [not_exists, not_and] at hnone
        rw [waitpid_of_not_selects herror hnone] at h
        contradiction
      . intro child hmem hselects
        by_contra hchange
        obtain ⟨child', status, hreports, -⟩ :=
          waitpid_of_changed env herror ⟨child, hmem, hselects, hchange⟩
        rw [hreports] at h
        contradiction
    rw [waitpid_of_unchanged herror hunchanged] at h
    cases hnohang : options.noHang with
    | true => simp [hnohang] at h
    | false => exact ⟨rfl, herror, hunchanged⟩
  . rintro ⟨hnohang, herror, hunchanged⟩
    rw [waitpid_of_unchanged herror hunchanged, hnohang]
    rfl

theorem error_of_waitpid_none (h : waitpid pgrp children pid options env = .none)
    : env.error = none := by
  by_contra hsome
  obtain ⟨errno, hsome⟩ := Option.ne_none_iff_exists'.mp hsome
  rw [waitpid_of_error hsome] at h
  contradiction

theorem mem_reap {child other : Child} (hmem : other ∈ children) (hpid : other.pid ≠ child.pid)
    : other ∈ reap children child := by
  unfold reap
  split
  . exact List.mem_filter.mpr ⟨hmem, decide_eq_true hpid⟩
  . exact List.mem_map.mpr ⟨other, hmem, if_neg hpid⟩

theorem map_pid_reap_sublist (children : List Child) (child : Child)
    : ((reap children child).map (·.pid)).Sublist (children.map (·.pid)) := by
  unfold reap
  split
  . exact List.filter_sublist.map _
  . have hpid (other : Child)
        : (if other.pid = child.pid then { other with state := .quiet } else other).pid = other.pid := by
      split <;> rfl
    simp [List.map_map, Function.comp_def, hpid]

/-! ### Children that have exited -/

def Child.exit (child : Child) : Option (Pid × Int32) :=
  match child.state with
  | .exited status => some (child.pid, status)
  | .quiet | .stopped _ | .continued _ => none

def exits (children : List Child) : List (Pid × Int32) := children.filterMap Child.exit

theorem Child.exit_eq_none_iff {child : Child} : child.exit = none ↔ child.state.isExited = false := by
  unfold exit ChildState.isExited
  cases child.state <;> simp

theorem Child.eq_of_change {child : Child} {status : Int32} {exit : Pid × Int32}
    (hchange : child.change options = some status) (hexit : child.exit = some exit)
    : exit = (child.pid, status) := by
  unfold Child.exit at hexit
  split at hexit
  . next status' hstate =>
    simp only [Child.change, hstate, Option.some.injEq] at hchange
    rw [hchange] at hexit
    exact (Option.some.inj hexit).symm
  all_goals contradiction

theorem exits_append (children children' : List Child)
    : exits (children ++ children') = exits children ++ exits children' :=
  List.filterMap_append

theorem exits_map {f : Child → Child} (hf : ∀ child ∈ children, (f child).exit = child.exit)
    : exits (children.map f) = exits children := by
  unfold exits
  rw [List.filterMap_map]
  apply List.filterMap_congr
  exact hf

theorem exits_cons (child : Child) (children : List Child)
    : exits (child :: children) = child.exit.toList ++ exits children := by
  unfold exits
  cases hexit : child.exit with
  | none => rw [List.filterMap_cons_none hexit, Option.toList_none, List.nil_append]
  | some exit => rw [List.filterMap_cons_some hexit, Option.toList_some, List.singleton_append]

theorem eq_of_nodup (hnodup : (children.map (·.pid)).Nodup) {child other : Child}
    (hmem : child ∈ children) (hother : other ∈ children) (hpid : other.pid = child.pid)
    : other = child :=
  List.inj_on_of_nodup_map hnodup hother hmem hpid

theorem perm_cons_filter (hnodup : (children.map (·.pid)).Nodup) {child : Child} (hmem : child ∈ children)
    : children.Perm (child :: children.filter fun other => other.pid ≠ child.pid) := by
  induction children with
  | nil => contradiction
  | cons head children ih =>
    rw [List.map_cons, List.nodup_cons, List.mem_map, not_exists] at hnodup
    obtain ⟨hhead, hnodup⟩ := hnodup
    cases List.mem_cons.mp hmem with
    | inl heq =>
      subst heq
      rw [List.filter_cons_of_neg (by simp), List.filter_eq_self.mpr]
      intro other hother
      apply decide_eq_true
      intro hpid
      exact hhead other ⟨hother, hpid⟩
    | inr hmem =>
      have hne : head.pid ≠ child.pid := fun hpid => hhead child ⟨hmem, hpid.symm⟩
      rw [List.filter_cons_of_pos (by simp [hne])]
      exact ((ih hnodup hmem).cons head).trans (List.Perm.swap _ _ _)

theorem exits_update (hnodup : (children.map (·.pid)).Nodup) (pid : Pid) (f : Child → Child)
    (hquiet : ∀ child ∈ children, child.pid = pid → child.exit = none)
    : (exits (children.map fun child => if child.pid = pid then f child else child)).Perm
        (((children.find? (·.pid = pid)).bind fun child => (f child).exit).toList ++ exits children) := by
  cases hfind : children.find? (·.pid = pid) with
  | none =>
    have hne := List.find?_eq_none.mp hfind
    rw [exits_map]
    . exact .refl _
    . intro child hmem
      rw [if_neg (by simpa using hne child hmem)]
  | some child =>
    have hmem := List.mem_of_find?_eq_some hfind
    have hpid : child.pid = pid := by simpa using List.find?_some hfind
    have hperm := perm_cons_filter hnodup hmem
    have hrest : exits ((children.filter fun other => other.pid ≠ child.pid).map
        fun child => if child.pid = pid then f child else child)
          = exits (children.filter fun other => other.pid ≠ child.pid) := by
      apply exits_map
      intro other hother
      have hne := of_decide_eq_true (List.mem_filter.mp hother).2
      rw [if_neg (hpid ▸ hne)]
    have hchildren := hperm.filterMap Child.exit
    have hupdated := (hperm.map fun child => if child.pid = pid then f child else child).filterMap Child.exit
    change (exits _).Perm (exits _) at hchildren
    change (exits _).Perm (exits _) at hupdated
    rw [exits_cons, hquiet child hmem hpid, Option.toList_none, List.nil_append] at hchildren
    rw [List.map_cons, if_pos hpid, exits_cons, hrest] at hupdated
    exact hupdated.trans (hchildren.symm.append_left _)

theorem exits_reap (hnodup : (children.map (·.pid)).Nodup) {child : Child} (hmem : child ∈ children)
    : (exits children).Perm (child.exit.toList ++ exits (reap children child)) := by
  unfold reap
  split
  . have hperm := (perm_cons_filter hnodup hmem).filterMap Child.exit
    change (exits _).Perm (exits _) at hperm
    rw [exits_cons] at hperm
    exact hperm
  . next hstate =>
    have hexit : child.exit = none := by
      unfold Child.exit
      split
      . next status hexited => exact absurd hexited (hstate status)
      all_goals rfl
    rw [hexit, Option.toList_none, List.nil_append, exits_map]
    intro other hother
    split
    . next hpid =>
      rw [eq_of_nodup hnodup hmem hother hpid, hexit]
      rfl
    . rfl

end Posix
