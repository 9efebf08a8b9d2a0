import GeminiCpp.Lib.OrderedMap

/-! The map of bounded size that forgets what was not used for the longest time: its entries are
in order from the most to the least recently used. -/
namespace Recency
open OrderedMap

abbrev Map (Key Value : Type) := AList fun _ : Key => Value

variable {Key Value : Type} [DecidableEq Key]

def get (m : Map Key Value) (key : Key) : Map Key Value × Option Value :=
  match m.lookup key with
  | none => (m, none)
  | some value => (m.insert key value, some value)

def put (capacity : ℕ) (m : Map Key Value) (key : Key) (value : Value) : Map Key Value :=
  if capacity = 0 then m
  else if key ∉ m ∧ m.entries.length = capacity then (dropLast m).insert key value
  else m.insert key value

theorem length_get (m : Map Key Value) (key : Key) :
    (get m key).1.entries.length = m.entries.length := by
  unfold get
  cases hlookup : m.lookup key with
  | none => rfl
  | some value =>
    have hmem : key ∈ m := AList.lookup_isSome.mp (Option.isSome_of_mem hlookup)
    exact length_insert_of_mem value hmem

theorem length_put_le {capacity : ℕ} {m : Map Key Value} (h : m.entries.length ≤ capacity)
    (key : Key) (value : Value) : (put capacity m key value).entries.length ≤ capacity := by
  unfold put
  by_cases hzero : capacity = 0
  · rw [if_pos hzero]
    exact h
  · rw [if_neg hzero]
    by_cases hmem : key ∈ m
    · rw [if_neg (fun hfull => hfull.1 hmem), length_insert_of_mem value hmem]
      exact h
    · by_cases hfull : m.entries.length = capacity
      · have hnew : key ∉ dropLast m := fun hold => hmem (mem_of_mem_dropLast hold)
        rw [if_pos ⟨hmem, hfull⟩, length_insert_of_notMem value hnew, entries_dropLast,
          List.length_dropLast]
        omega
      · rw [if_neg (fun hboth => hfull hboth.2), length_insert_of_notMem value hmem]
        omega

end Recency
