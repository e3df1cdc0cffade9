import Mathlib.Data.List.Nodup
import Mathlib.Data.List.Perm.Basic
import Mathlib.Data.Set.Basic

namespace Elfshaker.Library

/-- A hash set: a finite set whose elements can be listed, in no order a caller
may rely on. The list is the order of insertion. -/
structure HashSet (α : Type) where
  elems : List α
  nodup : elems.Nodup

/-- The order in which walks over hash sets and hash maps happen to visit them. -/
structure IterOrder (α : Type) where
  visit : List α → List α
  perm : ∀ xs, (visit xs).Perm xs

namespace IterOrder

def insertion : IterOrder α := ⟨id, fun _ => .refl _⟩

/-- The last first. -/
def reversed : IterOrder α := ⟨List.reverse, List.reverse_perm⟩

theorem mem_visit (ord : IterOrder α) {xs : List α} {x : α} : x ∈ ord.visit xs ↔ x ∈ xs :=
  (ord.perm xs).mem_iff

end IterOrder

namespace HashSet

variable {α : Type}

def empty : HashSet α := ⟨[], List.nodup_nil⟩

instance : Membership α (HashSet α) := ⟨fun s x => x ∈ s.elems⟩

theorem mem_def {s : HashSet α} {x : α} : x ∈ s ↔ x ∈ s.elems := Iff.rfl

/-- The set itself, without the order of insertion. -/
def toSet (s : HashSet α) : Set α := {x | x ∈ s}

@[simp] theorem mem_toSet {s : HashSet α} {x : α} : x ∈ s.toSet ↔ x ∈ s := Iff.rfl

@[simp] theorem not_mem_empty (x : α) : x ∉ (empty : HashSet α) := by
  simp [mem_def, empty]

/-- The elements in the order of one walk. -/
def iter (ord : IterOrder α) (s : HashSet α) : List α :=
  ord.visit s.elems

theorem mem_iter (ord : IterOrder α) {s : HashSet α} {x : α} : x ∈ s.iter ord ↔ x ∈ s :=
  ord.mem_visit

theorem nodup_iter (ord : IterOrder α) (s : HashSet α) : (s.iter ord).Nodup :=
  (ord.perm s.elems).nodup_iff.mpr s.nodup

variable [DecidableEq α]

instance (s : HashSet α) (x : α) : Decidable (x ∈ s) := inferInstanceAs (Decidable (x ∈ s.elems))

/-- Inserts an element and reports whether it is new. -/
def insert (s : HashSet α) (x : α) : HashSet α × Bool :=
  if h : x ∈ s.elems then (s, false)
  else (⟨s.elems ++ [x], List.concat_eq_append ▸ s.nodup.concat h⟩, true)

/-- Removes an element and reports whether it was there. -/
def remove (s : HashSet α) (x : α) : HashSet α × Bool :=
  (⟨s.elems.erase x, s.nodup.erase x⟩, decide (x ∈ s))

/-- Collects a list into a set. -/
def ofList (xs : List α) : HashSet α :=
  xs.foldl (fun s x => (s.insert x).1) empty

@[simp] theorem mem_insert {s : HashSet α} {x y : α} : y ∈ (s.insert x).1 ↔ y ∈ s ∨ y = x := by
  unfold insert
  split
  · rename_i h
    exact ⟨Or.inl, fun hy => hy.elim id fun he => he ▸ h⟩
  · simp [mem_def]

@[simp] theorem insert_new {s : HashSet α} {x : α} : (s.insert x).2 = true ↔ x ∉ s := by
  unfold insert
  split <;> simp_all [mem_def]

@[simp] theorem mem_remove {s : HashSet α} {x y : α} : y ∈ (s.remove x).1 ↔ y ∈ s ∧ y ≠ x := by
  simp only [remove, mem_def]
  rw [s.nodup.mem_erase_iff]
  exact And.comm

@[simp] theorem remove_found {s : HashSet α} {x : α} : (s.remove x).2 = true ↔ x ∈ s := by
  simp [remove]

theorem mem_foldl_insert {xs : List α} {s : HashSet α} {y : α} :
    y ∈ xs.foldl (fun s x => (s.insert x).1) s ↔ y ∈ s ∨ y ∈ xs := by
  induction xs generalizing s with
  | nil => simp
  | cons x xs ih =>
    rw [List.foldl_cons, ih, mem_insert, List.mem_cons]
    exact or_assoc

@[simp] theorem mem_ofList {xs : List α} {y : α} : y ∈ ofList xs ↔ y ∈ xs := by
  simp [ofList, mem_foldl_insert]

end HashSet

end Elfshaker.Library
