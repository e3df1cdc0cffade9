import Elfshaker.Format.Entry
import Elfshaker.Library.Delta
import Elfshaker.Library.Exec

namespace Elfshaker.Format

open Elfshaker.Library

/-- A set of changes that can be applied to a set of items to get another set. -/
abbrev ChangeSet (α : Type) := Delta α

namespace ChangeSet

def map (f : List α → Exec ε (List β)) (changes : ChangeSet α) : Exec ε (ChangeSet β) := do
  let added ← f changes.added
  let removed ← f changes.removed
  .ok ⟨added, removed⟩

end ChangeSet

namespace Snapshot

variable {α : Type} [DecidableEq α]

/-- `assert!(set.insert(x))`. -/
def insertNew (set : HashSet α) (x : α) : Exec ε (HashSet α) := do
  let (set, new) := set.insert x
  Exec.assert new
  .ok set

/-- `assert!(set.remove(x))`. -/
def removeOld (set : HashSet α) (x : α) : Exec ε (HashSet α) := do
  let (set, found) := set.remove x
  Exec.assert found
  .ok set

def insertAll (set : HashSet α) : List α → Exec ε (HashSet α)
  | [] => .ok set
  | x :: xs => do
    let set ← insertNew set x
    insertAll set xs

def removeAll (set : HashSet α) : List α → Exec ε (HashSet α)
  | [] => .ok set
  | x :: xs => do
    let set ← removeOld set x
    removeAll set xs

def applyChanges (set : HashSet α) (changes : ChangeSet α) : Exec ε (HashSet α) := do
  let set ← removeAll set changes.removed
  insertAll set changes.added

/-- The changes from `set` to `next`, and `set` with them applied. -/
def getChanges (ord : IterOrder α) (set next : HashSet α) :
    Exec ε (HashSet α × ChangeSet α) := do
  let removed := (set.iter ord).filter fun file => file ∉ next
  let added := (next.iter ord).filter fun file => file ∉ set
  let set ← insertAll set added
  let set ← removeAll set removed
  .ok (set, ⟨added, removed⟩)

theorem insertNew_eq_ok {s t : HashSet α} {x : α} :
    insertNew (ε := ε) s x = .ok t ↔ x ∉ s ∧ t = (s.insert x).1 := by
  simp only [insertNew, Exec.bind_eq_ok, Exec.assert_eq_ok, HashSet.insert_new]
  constructor
  · rintro ⟨_, hx, ht⟩
    exact ⟨hx, (Except.ok.inj ht).symm⟩
  · rintro ⟨hx, rfl⟩
    exact ⟨(), hx, rfl⟩

theorem removeOld_eq_ok {s t : HashSet α} {x : α} :
    removeOld (ε := ε) s x = .ok t ↔ x ∈ s ∧ t = (s.remove x).1 := by
  simp only [removeOld, Exec.bind_eq_ok, Exec.assert_eq_ok, HashSet.remove_found]
  constructor
  · rintro ⟨_, hx, ht⟩
    exact ⟨hx, (Except.ok.inj ht).symm⟩
  · rintro ⟨hx, rfl⟩
    exact ⟨(), hx, rfl⟩

theorem insertAll_ok {s t : HashSet α} {xs : List α} (h : insertAll (ε := ε) s xs = .ok t) :
    xs.Nodup ∧ (∀ x ∈ xs, x ∉ s) ∧ ∀ y, y ∈ t ↔ y ∈ s ∨ y ∈ xs := by
  induction xs generalizing s with
  | nil =>
    cases h
    simp
  | cons x xs ih =>
    obtain ⟨u, hu, h⟩ := Exec.bind_eq_ok.mp h
    obtain ⟨hx, rfl⟩ := insertNew_eq_ok.mp hu
    obtain ⟨hnodup, hnew, hmem⟩ := ih h
    simp only [HashSet.mem_insert, not_or] at hnew hmem
    refine ⟨List.nodup_cons.mpr ⟨fun hxs => (hnew x hxs).2 rfl, hnodup⟩, ?_, fun y => ?_⟩
    · intro y hy
      rcases List.mem_cons.mp hy with rfl | hy
      · exact hx
      · exact (hnew y hy).1
    · rw [hmem, List.mem_cons, or_assoc]

theorem insertAll_of_new {s : HashSet α} {xs : List α} (hnodup : xs.Nodup)
    (hnew : ∀ x ∈ xs, x ∉ s) : ∃ t, insertAll (ε := ε) s xs = .ok t := by
  induction xs generalizing s with
  | nil => exact ⟨s, rfl⟩
  | cons x xs ih =>
    obtain ⟨hx, hnodup⟩ := List.nodup_cons.mp hnodup
    obtain ⟨t, ht⟩ := ih (s := (s.insert x).1) hnodup fun y hy hmem => by
      rcases HashSet.mem_insert.mp hmem with hs | rfl
      · exact hnew y (List.mem_cons_of_mem _ hy) hs
      · exact hx hy
    have hstep : insertNew (ε := ε) s x = .ok (s.insert x).1 :=
      insertNew_eq_ok.mpr ⟨hnew x List.mem_cons_self, rfl⟩
    exact ⟨t, Exec.bind_eq_ok.mpr ⟨_, hstep, ht⟩⟩

theorem removeAll_ok {s t : HashSet α} {xs : List α} (h : removeAll (ε := ε) s xs = .ok t) :
    xs.Nodup ∧ (∀ x ∈ xs, x ∈ s) ∧ ∀ y, y ∈ t ↔ y ∈ s ∧ y ∉ xs := by
  induction xs generalizing s with
  | nil =>
    cases h
    simp
  | cons x xs ih =>
    obtain ⟨u, hu, h⟩ := Exec.bind_eq_ok.mp h
    obtain ⟨hx, rfl⟩ := removeOld_eq_ok.mp hu
    obtain ⟨hnodup, hold, hmem⟩ := ih h
    simp only [HashSet.mem_remove] at hold hmem
    refine ⟨List.nodup_cons.mpr ⟨fun hxs => (hold x hxs).2 rfl, hnodup⟩, ?_, fun y => ?_⟩
    · intro y hy
      rcases List.mem_cons.mp hy with rfl | hy
      · exact hx
      · exact (hold y hy).1
    · rw [hmem, List.mem_cons, not_or, and_assoc]

theorem removeAll_of_old {s : HashSet α} {xs : List α} (hnodup : xs.Nodup)
    (hold : ∀ x ∈ xs, x ∈ s) : ∃ t, removeAll (ε := ε) s xs = .ok t := by
  induction xs generalizing s with
  | nil => exact ⟨s, rfl⟩
  | cons x xs ih =>
    obtain ⟨hx, hnodup⟩ := List.nodup_cons.mp hnodup
    obtain ⟨t, ht⟩ := ih (s := (s.remove x).1) hnodup fun y hy =>
      HashSet.mem_remove.mpr ⟨hold y (List.mem_cons_of_mem _ hy), fun he => hx (he ▸ hy)⟩
    have hstep : removeOld (ε := ε) s x = .ok (s.remove x).1 :=
      removeOld_eq_ok.mpr ⟨hold x List.mem_cons_self, rfl⟩
    exact ⟨t, Exec.bind_eq_ok.mpr ⟨_, hstep, ht⟩⟩

theorem applyChanges_leads {s t : HashSet α} {d : ChangeSet α}
    (h : applyChanges (ε := ε) s d = .ok t) : d.Leads s.toSet t.toSet := by
  obtain ⟨u, hu, ht⟩ := Exec.bind_eq_ok.mp h
  obtain ⟨hremoved, hold, hu⟩ := removeAll_ok hu
  obtain ⟨hadded, hnew, ht⟩ := insertAll_ok ht
  refine ⟨hremoved, hold, hadded, fun x hx hs => ?_, fun x => ?_⟩
  · by_contra hkept
    exact hnew x hx ((hu x).mpr ⟨hs, hkept⟩)
  · rw [HashSet.mem_toSet, ht, hu, HashSet.mem_toSet]

theorem applyChanges_of_leads {s : HashSet α} {d : ChangeSet α} {u : Set α}
    (h : d.Leads s.toSet u) : ∃ t, applyChanges (ε := ε) s d = .ok t ∧ t.toSet = u := by
  obtain ⟨v, hv⟩ := removeAll_of_old (ε := ε) h.removed_nodup h.removed_mem
  have hmem := (removeAll_ok hv).2.2
  obtain ⟨t, ht⟩ := insertAll_of_new (ε := ε) (s := v) h.added_nodup fun x hx hxv =>
    ((hmem x).mp hxv).2 (h.added_new x hx ((hmem x).mp hxv).1)
  have hok : applyChanges (ε := ε) s d = .ok t := Exec.bind_eq_ok.mpr ⟨v, hv, ht⟩
  exact ⟨t, hok, (applyChanges_leads hok).unique h⟩

/-- The assertions hold for any two sets, and the changes lead from one to the other. -/
theorem getChanges_leads (ord : IterOrder α) (s t : HashSet α) :
    ∃ set d, getChanges (ε := ε) ord s t = .ok (set, d) ∧ d.Leads s.toSet t.toSet := by
  have mem_removed (x : α) : x ∈ (s.iter ord).filter (fun x => x ∉ t) ↔ x ∈ s ∧ x ∉ t := by
    simp [HashSet.mem_iter]
  have mem_added (x : α) : x ∈ (t.iter ord).filter (fun x => x ∉ s) ↔ x ∈ t ∧ x ∉ s := by
    simp [HashSet.mem_iter]
  have hremoved := (HashSet.nodup_iter ord s).filter fun x => decide (x ∉ t)
  have hadded := (HashSet.nodup_iter ord t).filter fun x => decide (x ∉ s)
  obtain ⟨u, hu⟩ := insertAll_of_new (ε := ε) (s := s) hadded fun x hx => ((mem_added x).mp hx).2
  obtain ⟨v, hv⟩ := removeAll_of_old (ε := ε) (s := u) hremoved fun x hx =>
    ((insertAll_ok hu).2.2 x).mpr (.inl ((mem_removed x).mp hx).1)
  refine ⟨v, ⟨_, _⟩, Exec.bind_eq_ok.mpr ⟨u, hu, Exec.bind_eq_ok.mpr ⟨v, hv, rfl⟩⟩, ?_⟩
  refine ⟨hremoved, fun x hx => ((mem_removed x).mp hx).1, hadded, ?_, fun x => ?_⟩
  · intro x hx hs
    exact absurd hs ((mem_added x).mp hx).2
  · rw [mem_removed, mem_added, HashSet.mem_toSet, HashSet.mem_toSet]
    tauto

end Snapshot

end Elfshaker.Format
