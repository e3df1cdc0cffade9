import Elfshaker.Library.HashSet

namespace Elfshaker.Library

/-- A set of changes that turns one set into another. -/
structure Delta (α : Type) where
  added : List α
  removed : List α
  deriving DecidableEq, Repr

namespace Delta

variable {α : Type}

/-- The changes are strict: what is removed is there, and what is added is not
there once the removals are done. -/
structure Leads (d : Delta α) (s t : Set α) : Prop where
  removed_nodup : d.removed.Nodup
  removed_mem : ∀ x ∈ d.removed, x ∈ s
  added_nodup : d.added.Nodup
  added_new : ∀ x ∈ d.added, x ∈ s → x ∈ d.removed
  result : ∀ x, x ∈ t ↔ (x ∈ s ∧ x ∉ d.removed) ∨ x ∈ d.added

theorem Leads.unique {d : Delta α} {s t u : Set α} (h : d.Leads s t) (h' : d.Leads s u) :
    t = u := by
  ext x
  rw [h.result, h'.result]

/-- The sets visited when deltas are applied one after the other. -/
inductive Chain : Set α → List (Delta α) → List (Set α) → Prop where
  | nil (s : Set α) : Chain s [] []
  | cons {s t : Set α} {d : Delta α} {ds : List (Delta α)} {ts : List (Set α)}
      (lead : d.Leads s t) (rest : Chain t ds ts) : Chain s (d :: ds) (t :: ts)

theorem Chain.length_eq {s : Set α} {ds : List (Delta α)} {ts : List (Set α)}
    (h : Chain s ds ts) : ds.length = ts.length := by
  induction h with
  | nil s => rfl
  | cons _ _ ih => simpa using ih

/-- A delta between the last visited set and a new one prolongs a chain. -/
theorem Chain.append {s t : Set α} {ds : List (Delta α)} {ts : List (Set α)} {d : Delta α}
    (h : Chain s ds ts) (hd : d.Leads (ts.getLast?.getD s) t) :
    Chain s (ds ++ [d]) (ts ++ [t]) := by
  induction h with
  | nil s => exact .cons hd (.nil t)
  | cons lead rest ih =>
    refine .cons lead (ih ?_)
    rw [List.getLast?_cons] at hd
    exact hd

end Delta

end Elfshaker.Library
