import Mathlib.Data.List.Basic

/-! The queue of bounded length as a sequential object: the histories of its operations that are
legal, and what they leave in it. -/
namespace BoundedFifo

inductive Op (T : Type)
  | push (value : T)
  | pop (value : T)
  /-- A push was refused. -/
  | full
  /-- A pop found nothing. -/
  | empty

variable {T : Type}

/-- A legal history of an initially empty queue, with its contents from the oldest element on. -/
inductive Accepts (capacity : ℕ) : List (Op T) → List T → Prop
  | start : Accepts capacity [] []
  | push {ops : List (Op T)} {contents : List T} {value : T} (h : Accepts capacity ops contents)
    (hroom : contents.length < capacity) :
    Accepts capacity (ops ++ [.push value]) (contents ++ [value])
  | pop {ops : List (Op T)} {contents : List T} {value : T}
    (h : Accepts capacity ops (value :: contents)) :
    Accepts capacity (ops ++ [.pop value]) contents
  | full {ops : List (Op T)} {contents : List T} (h : Accepts capacity ops contents)
    (hfull : contents.length = capacity) : Accepts capacity (ops ++ [.full]) contents
  | empty {ops : List (Op T)} (h : Accepts capacity ops []) :
    Accepts capacity (ops ++ [.empty]) []

def Op.pushed : Op T → Option T
  | .push value => some value
  | _ => none

def Op.popped : Op T → Option T
  | .pop value => some value
  | _ => none

def pushed (ops : List (Op T)) : List T := ops.filterMap Op.pushed

def popped (ops : List (Op T)) : List T := ops.filterMap Op.popped

@[simp] theorem pushed_concat (ops : List (Op T)) (op : Op T) :
    pushed (ops ++ [op]) = pushed ops ++ op.pushed.toList := by
  unfold pushed
  cases h : op.pushed <;> simp [h]

@[simp] theorem popped_concat (ops : List (Op T)) (op : Op T) :
    popped (ops ++ [op]) = popped ops ++ op.popped.toList := by
  unfold popped
  cases h : op.popped <;> simp [h]

variable {capacity : ℕ} {ops : List (Op T)} {contents : List T}

/-- First in, first out: what was pushed is what was popped and then what is still there. -/
theorem Accepts.pushed_eq (h : Accepts capacity ops contents) :
    pushed ops = popped ops ++ contents := by
  induction h with
  | start => rfl
  | push h hroom ih =>
    rw [pushed_concat, popped_concat, ih]
    simp [Op.pushed, Op.popped]
  | pop h ih =>
    rw [pushed_concat, popped_concat, ih]
    simp [Op.pushed, Op.popped]
  | full h hfull ih =>
    rw [pushed_concat, popped_concat, ih]
    simp [Op.pushed, Op.popped]
  | empty h ih =>
    rw [pushed_concat, popped_concat, ih]
    simp [Op.pushed, Op.popped]

theorem Accepts.popped_prefix (h : Accepts capacity ops contents) : popped ops <+: pushed ops :=
  ⟨contents, h.pushed_eq.symm⟩

end BoundedFifo
