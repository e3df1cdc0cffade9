import Mathlib.Data.List.Infix

namespace Elfshaker.Library.PrefixOrder

variable {α : Type} [LT α] [Std.Asymm (α := α) (· < ·)] [Std.Trichotomous (α := α) (· < ·)]

/-- Nothing stands between a list and one that starts with it but such lists. -/
theorem prefix_of_between {query xs ys : List α} (hlow : query ≤ xs) (hhigh : xs ≤ ys)
    (h : query <+: ys) : query <+: xs := by
  induction query generalizing xs ys with
  | nil => exact List.nil_prefix
  | cons a query ih =>
    obtain ⟨rest, rfl⟩ := h
    cases xs with
    | nil => exact absurd (List.nil_lt_cons a query) hlow
    | cons b xs =>
      rw [List.cons_append] at hhigh
      rcases List.cons_le_cons_iff.mp hlow with hlt | ⟨rfl, hrest⟩
      · rcases List.cons_le_cons_iff.mp hhigh with hgt | ⟨rfl, -⟩
        · exact absurd hgt (Std.Asymm.asymm _ _ hlt)
        · exact absurd hlt (Std.Asymm.asymm _ _ hlt)
      · rcases List.cons_le_cons_iff.mp hhigh with hgt | ⟨-, hhigh⟩
        · exact absurd hgt (Std.Asymm.asymm _ _ hgt)
        · exact List.cons_prefix_cons.mpr ⟨rfl, ih hrest hhigh (List.prefix_append query rest)⟩

/-- The start of a list comes before it, and after it only where it is the whole. -/
theorem eq_of_prefix_of_le {xs query : List α} (hstart : xs <+: query) (h : query ≤ xs) :
    xs = query :=
  List.le_antisymm hstart.le h

end Elfshaker.Library.PrefixOrder
