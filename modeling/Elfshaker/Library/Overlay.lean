import Mathlib.Data.List.Nodup
import Mathlib.Data.Set.Basic
import Mathlib.Logic.Function.Basic

namespace Elfshaker.Library

variable {α β : Type}

/-- A map that is `base` but for some entries, which have been put where it has none and
outside of `kept`. -/
structure Overlay (kept : Set α) (base : α → Option β) (entries : List (α × β))
    (m : α → Option β) : Prop where
  entry : ∀ x ∈ entries, m x.1 = some x.2
  other : ∀ a, a ∉ entries.map Prod.fst → m a = base a
  nodup : (entries.map Prod.fst).Nodup
  free : ∀ x ∈ entries, x.1 ∉ kept ∧ base x.1 = none

namespace Overlay

variable {kept : Set α} {base m : α → Option β} {entries entries' : List (α × β)} {a : α} {b : β}

theorem refl (kept : Set α) (base : α → Option β) : Overlay kept base [] base :=
  ⟨nofun, fun _ _ => rfl, List.nodup_nil, nofun⟩

theorem perm (h : Overlay kept base entries m) (hperm : entries.Perm entries') :
    Overlay kept base entries' m :=
  ⟨fun x hx => h.entry x (hperm.mem_iff.mpr hx),
    fun a ha => h.other a fun hin => ha ((hperm.map Prod.fst).mem_iff.mp hin),
    (hperm.map Prod.fst).nodup_iff.mp h.nodup, fun x hx => h.free x (hperm.mem_iff.mpr hx)⟩

theorem notMem (h : Overlay kept base entries m) (ha : a ∈ kept) : a ∉ entries.map Prod.fst := by
  intro hin
  obtain ⟨x, hx, rfl⟩ := List.mem_map.mp hin
  exact (h.free x hx).1 ha

/-- What is kept is as it is in the base. -/
theorem kept_eq (h : Overlay kept base entries m) (ha : a ∈ kept) : m a = base a :=
  h.other a (h.notMem ha)

theorem notMem_of_none (h : Overlay kept base entries m) (ha : m a = none) :
    a ∉ entries.map Prod.fst := by
  intro hin
  obtain ⟨x, hx, rfl⟩ := List.mem_map.mp hin
  rw [h.entry x hx] at ha
  cases ha

theorem eq_base (h : Overlay kept base [] m) : m = base :=
  funext fun a => h.other a List.not_mem_nil

/-- With an entry it is not the base. -/
theorem ne_base {x : α × β} (h : Overlay kept base (x :: entries) m) : m ≠ base := by
  intro heq
  have hentry := h.entry x List.mem_cons_self
  rw [heq, (h.free x List.mem_cons_self).2] at hentry
  cases hentry

theorem ne_of_mem {x : α × β} (ha : a ∉ entries.map Prod.fst) (hx : x ∈ entries) : x.1 ≠ a :=
  fun heq => ha (heq ▸ List.mem_map_of_mem hx)

variable [DecidableEq α]

theorem add (h : Overlay kept base entries m) (hnone : m a = none) (hkept : a ∉ kept) (b : β) :
    Overlay kept base ((a, b) :: entries) (Function.update m a (some b)) := by
  have hnew := h.notMem_of_none hnone
  refine ⟨fun x hx => ?_, fun c hc => ?_, ?_, fun x hx => ?_⟩
  · rcases List.mem_cons.mp hx with rfl | hx
    · exact Function.update_self ..
    · rw [Function.update_of_ne (ne_of_mem hnew hx), h.entry x hx]
  · rw [List.map_cons, List.mem_cons, not_or] at hc
    rw [Function.update_of_ne hc.1, h.other c hc.2]
  · exact List.nodup_cons.mpr ⟨hnew, h.nodup⟩
  · rcases List.mem_cons.mp hx with rfl | hx
    · exact ⟨hkept, (h.other a hnew).symm.trans hnone⟩
    · exact h.free x hx

/-- An entry gets another value. -/
theorem set (h : Overlay kept base ((a, b) :: entries) m) (c : β) :
    Overlay kept base ((a, c) :: entries) (Function.update m a (some c)) := by
  obtain ⟨hnew, hnodup⟩ := List.nodup_cons.mp h.nodup
  refine ⟨fun x hx => ?_, fun d hd => ?_, h.nodup, fun x hx => ?_⟩
  · rcases List.mem_cons.mp hx with rfl | hx
    · exact Function.update_self ..
    · rw [Function.update_of_ne (ne_of_mem hnew hx), h.entry x (List.mem_cons_of_mem _ hx)]
  · have hne : d ≠ a := fun heq => hd (heq ▸ List.mem_cons_self)
    rw [Function.update_of_ne hne, h.other d hd]
  · rcases List.mem_cons.mp hx with rfl | hx
    · exact h.free (a, b) List.mem_cons_self
    · exact h.free x (List.mem_cons_of_mem _ hx)

theorem remove (h : Overlay kept base ((a, b) :: entries) m) :
    Overlay kept base entries (Function.update m a none) := by
  obtain ⟨hnew, hnodup⟩ := List.nodup_cons.mp h.nodup
  refine ⟨fun x hx => ?_, fun d hd => ?_, hnodup, fun x hx => h.free x (List.mem_cons_of_mem _ hx)⟩
  · rw [Function.update_of_ne (ne_of_mem hnew hx), h.entry x (List.mem_cons_of_mem _ hx)]
  · by_cases hda : d = a
    · subst hda
      rw [Function.update_self]
      exact (h.free (d, b) List.mem_cons_self).2.symm
    · rw [Function.update_of_ne hda]
      refine h.other d ?_
      rw [List.map_cons, List.mem_cons, not_or]
      exact ⟨hda, hd⟩

/-- A value of the base is replaced. -/
theorem update (h : Overlay kept base entries m) (ha : a ∈ kept) (v : Option β) :
    Overlay kept (Function.update base a v) entries (Function.update m a v) := by
  have hne : ∀ x ∈ entries, x.1 ≠ a := fun x hx heq => (h.free x hx).1 (heq ▸ ha)
  refine ⟨fun x hx => ?_, fun d hd => ?_, h.nodup, fun x hx => ?_⟩
  · rw [Function.update_of_ne (hne x hx), h.entry x hx]
  · by_cases hda : d = a
    · subst hda
      rw [Function.update_self, Function.update_self]
    · rw [Function.update_of_ne hda, Function.update_of_ne hda, h.other d hd]
  · rw [Function.update_of_ne (hne x hx)]
    exact h.free x hx

end Overlay

end Elfshaker.Library
