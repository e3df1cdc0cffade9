import Mathlib.Algebra.BigOperators.Group.List.Basic
import Mathlib.Algebra.GroupWithZero.Nat
import Mathlib.Logic.Relation

namespace Elfshaker.Library.ForkJoin

variable {Item Output : Type}

/-- A thread that goes through its items. -/
structure Worker (Item Output : Type) where
  pending : List Item
  done : List Output

/-- The items that are not handed out yet, the workers that are not joined yet in the
order they were spawned, and what those before them have returned. -/
structure State (Item Output : Type) where
  items : List Item
  workers : List (Worker Item Output)
  joined : List (List Output)

def start (items : List Item) : State Item Output := ⟨items, [], []⟩

/-- One thread goes on: the main one spawns the next worker, or waits for the first
that is left, or a worker handles an item. -/
inductive Step (n : Nat) (f : Item → Output) : State Item Output → State Item Output → Prop where
  | spawn {s : State Item Output} (rest : s.items ≠ []) :
    Step n f s ⟨s.items.drop n, s.workers ++ [⟨s.items.take n, []⟩], s.joined⟩
  | work {s : State Item Output} {before after : List (Worker Item Output)} {x : Item}
      {pending : List Item} {done : List Output}
      (at_work : s.workers = before ++ ⟨x :: pending, done⟩ :: after) :
    Step n f s ⟨s.items, before ++ ⟨pending, done ++ [f x]⟩ :: after, s.joined⟩
  | join {s : State Item Output} {after : List (Worker Item Output)} {done : List Output}
      (handed : s.items = []) (first : s.workers = ⟨[], done⟩ :: after) :
    Step n f s ⟨s.items, after, s.joined ++ [done]⟩

/-- Any order in which the threads go on. -/
abbrev Reaches (n : Nat) (f : Item → Output) : State Item Output → State Item Output → Prop :=
  Relation.ReflTransGen (Step n f)

namespace State

variable {n : Nat} {f : Item → Output} {s s' : State Item Output} {items : List Item}

/-- All workers are joined. -/
def Finished (s : State Item Output) : Prop := s.items = [] ∧ s.workers = []

/-- What the concatenated results are going to be. -/
def outputs (f : Item → Output) (s : State Item Output) : List Output :=
  s.joined.flatten ++ (s.workers.flatMap fun w => w.done ++ w.pending.map f) ++ s.items.map f

/-- More than the steps that are left: an item is handed out, handled and joined. -/
def work (s : State Item Output) : Nat :=
  3 * s.items.length + (s.workers.map fun w => w.pending.length + 1).sum

theorem step_outputs (h : Step n f s s') : s'.outputs f = s.outputs f := by
  cases h with
  | spawn rest => simp [outputs]
  | work at_work => simp [outputs, at_work]
  | join handed first => simp [outputs, handed, first]

theorem reaches_outputs (h : Reaches n f s s') : s'.outputs f = s.outputs f := by
  induction h with
  | refl => rfl
  | tail _ step ih => exact (step_outputs step).trans ih

theorem step_work (hn : 0 < n) (h : Step n f s s') : s'.work < s.work := by
  cases h with
  | spawn rest =>
    have hlength := List.length_pos_of_ne_nil rest
    simp [work]
    omega
  | work at_work =>
    simp [work, at_work]
  | join handed first =>
    simp [work, handed, first]

/-- Some thread can go on until all have been joined. -/
theorem progress (h : ¬ s.Finished) : ∃ s', Step n f s s' := by
  obtain ⟨items, workers, joined⟩ := s
  cases items with
  | cons x items => exact ⟨_, .spawn (List.cons_ne_nil x items)⟩
  | nil =>
    cases workers with
    | nil => exact absurd ⟨rfl, rfl⟩ h
    | cons w after =>
      obtain ⟨pending, done⟩ := w
      cases pending with
      | nil => exact ⟨_, .join rfl rfl⟩
      | cons x pending =>
        have hfirst : (⟨x :: pending, done⟩ : Worker Item Output) :: after =
            [] ++ ⟨x :: pending, done⟩ :: after := rfl
        exact ⟨_, .work hfirst⟩

/-- However the threads take turns, they come to an end. -/
theorem no_endless_run (hn : 0 < n) (run : Nat → State Item Output) :
    ¬ ∀ k, Step n f (run k) (run (k + 1)) := by
  intro h
  have hbound : ∀ k, (run k).work + k ≤ (run 0).work := by
    intro k
    induction k with
    | zero => exact Nat.le_refl _
    | succ k ih =>
      have hless := step_work hn (h k)
      omega
  have := hbound ((run 0).work + 1)
  omega

/-- What is returned in the end does not depend on the turns. -/
theorem finished_outputs (h : Reaches n f (start items) s) (hdone : s.Finished) :
    s.joined.flatten = items.map f := by
  have houtputs := reaches_outputs h
  simpa [outputs, start, hdone.1, hdone.2] using houtputs

end State

end Elfshaker.Library.ForkJoin
