import Mathlib.Algebra.Order.Group.Multiset
import Mathlib.Data.List.Range

/-! Numbered tasks that are submitted, taken from a queue in order, and finished: the histories
that are legal, and what they leave to do. -/
namespace TaskLedger

inductive Op
  | submit (task : ℕ)
  | take (task : ℕ)
  | finish (task : ℕ)

/-- The number of the next task, and the tasks that are waiting or under way. -/
structure Ledger where
  submitted : ℕ
  waiting : List ℕ
  underWay : Multiset ℕ

/-- A legal history, with the ledger that it leads to. -/
inductive Accepts : List Op → Ledger → Prop
  | start : Accepts [] ⟨0, [], 0⟩
  | submit {ops : List Op} {n : ℕ} {waiting : List ℕ} {underWay : Multiset ℕ}
    (h : Accepts ops ⟨n, waiting, underWay⟩) :
    Accepts (ops ++ [.submit n]) ⟨n + 1, waiting ++ [n], underWay⟩
  | take {ops : List Op} {n task : ℕ} {waiting : List ℕ} {underWay : Multiset ℕ}
    (h : Accepts ops ⟨n, task :: waiting, underWay⟩) :
    Accepts (ops ++ [.take task]) ⟨n, waiting, task ::ₘ underWay⟩
  | finish {ops : List Op} {n task : ℕ} {waiting : List ℕ} {underWay : Multiset ℕ}
    (h : Accepts ops ⟨n, waiting, task ::ₘ underWay⟩) :
    Accepts (ops ++ [.finish task]) ⟨n, waiting, underWay⟩

def Op.submitted : Op → Option ℕ
  | .submit task => some task
  | _ => none

def Op.taken : Op → Option ℕ
  | .take task => some task
  | _ => none

def Op.finished : Op → Option ℕ
  | .finish task => some task
  | _ => none

def submitted (ops : List Op) : List ℕ := ops.filterMap Op.submitted

def taken (ops : List Op) : List ℕ := ops.filterMap Op.taken

def finished (ops : List Op) : List ℕ := ops.filterMap Op.finished

@[simp] theorem submitted_concat (ops : List Op) (op : Op) :
    submitted (ops ++ [op]) = submitted ops ++ op.submitted.toList := by
  unfold submitted
  cases h : op.submitted <;> simp [h]

@[simp] theorem taken_concat (ops : List Op) (op : Op) :
    taken (ops ++ [op]) = taken ops ++ op.taken.toList := by
  unfold taken
  cases h : op.taken <;> simp [h]

@[simp] theorem finished_concat (ops : List Op) (op : Op) :
    finished (ops ++ [op]) = finished ops ++ op.finished.toList := by
  unfold finished
  cases h : op.finished <;> simp [h]

variable {ops : List Op} {ledger : Ledger}

namespace Accepts

theorem submitted_eq (h : Accepts ops ledger) :
    submitted ops = List.range ledger.submitted := by
  induction h with
  | start => rfl
  | submit h ih =>
    rw [submitted_concat, ih, List.range_succ]
    rfl
  | take h ih =>
    rw [submitted_concat, ih]
    exact List.append_nil _
  | finish h ih =>
    rw [submitted_concat, ih]
    exact List.append_nil _

/-- The tasks are taken in the order in which they were submitted. -/
theorem taken_append (h : Accepts ops ledger) :
    taken ops ++ ledger.waiting = List.range ledger.submitted := by
  induction h with
  | start => rfl
  | submit h ih =>
    rw [taken_concat, List.range_succ, ← ih]
    simp [Op.taken]
  | take h ih =>
    rw [taken_concat, ← ih]
    simp [Op.taken]
  | finish h ih =>
    rw [taken_concat, ← ih]
    simp [Op.taken]

/-- A task that was taken is finished or under way. -/
theorem finished_add (h : Accepts ops ledger) :
    (finished ops : Multiset ℕ) + ledger.underWay = taken ops := by
  induction h with
  | start => rfl
  | submit h ih =>
    rw [taken_concat, finished_concat]
    simpa [Op.taken, Op.finished] using ih
  | @take ops n task waiting underWay h ih =>
    have hone : ((Op.take task).taken.toList : Multiset ℕ) = {task} := rfl
    have hnone : ((Op.take task).finished.toList : Multiset ℕ) = 0 := rfl
    rw [taken_concat, ← Multiset.coe_add, ← ih, finished_concat, ← Multiset.coe_add, hone, hnone,
      add_zero, add_assoc, add_comm underWay, Multiset.singleton_add]
  | @finish ops n task waiting underWay h ih =>
    have hone : ((Op.finish task).finished.toList : Multiset ℕ) = {task} := rfl
    have hnone : ((Op.finish task).taken.toList : Multiset ℕ) = 0 := rfl
    rw [taken_concat, ← Multiset.coe_add, ← ih, finished_concat, ← Multiset.coe_add, hone, hnone,
      add_zero, add_assoc, Multiset.singleton_add]

theorem taken_nodup (h : Accepts ops ledger) : (taken ops).Nodup := by
  have hall : (taken ops ++ ledger.waiting).Nodup := by
    rw [h.taken_append]
    exact List.nodup_range
  exact (List.nodup_append.mp hall).1

/-- No task is finished twice. -/
theorem finished_nodup (h : Accepts ops ledger) : (finished ops).Nodup := by
  have hle : (finished ops : Multiset ℕ) ≤ taken ops := by
    rw [← h.finished_add]
    exact Multiset.le_add_right _ _
  exact Multiset.coe_nodup.mp (Multiset.nodup_of_le hle (Multiset.coe_nodup.mpr h.taken_nodup))

/-- Where nothing is left to do, all tasks are finished. -/
theorem finished_perm {n : ℕ} (h : Accepts ops ⟨n, [], 0⟩) :
    (finished ops).Perm (submitted ops) := by
  have htaken : taken ops = submitted ops := by
    rw [h.submitted_eq, ← h.taken_append, List.append_nil]
  have hall : (finished ops : Multiset ℕ) + 0 = taken ops := h.finished_add
  rw [← Multiset.coe_eq_coe, ← htaken, ← hall, add_zero]

end Accepts

end TaskLedger
