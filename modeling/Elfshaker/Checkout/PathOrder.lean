import Elfshaker.Checkout.Preflight
import Mathlib.Data.List.Dedup

namespace Elfshaker.Checkout

open Elfshaker.Library Elfshaker.Format

/-- In lexicographic order, what begins with a list stands right behind it. -/
theorem prefix_of_between {a b c : List (List UInt8)} (h : a <+: c) (hab : a ≤ b) (hbc : b ≤ c) :
    a <+: b := by
  induction a generalizing b c with
  | nil => exact List.nil_prefix
  | cons x a ih =>
    obtain ⟨more, rfl⟩ := h
    cases b with
    | nil => exact absurd hab (by simp)
    | cons y b =>
      rw [List.cons_le_cons_iff] at hab
      rw [List.cons_append, List.cons_le_cons_iff] at hbc
      rcases hab with hlt | ⟨rfl, hab⟩
      · rcases hbc with hgt | ⟨rfl, hbc⟩
        · exact absurd hgt (List.lt_asymm hlt)
        · exact absurd hlt (List.lt_irrefl _)
      · rcases hbc with hgt | ⟨_, hbc⟩
        · exact absurd hgt (List.lt_irrefl _)
        · exact List.prefix_cons_inj _ |>.mpr (ih (List.prefix_append _ _) hab hbc)

theorem pairwise_sorted {α β : Type} [LE β] [DecidableLE β] (key : α → β)
    (htotal : ∀ x y : β, x ≤ y ∨ y ≤ x) (htrans : ∀ x y z : β, x ≤ y → y ≤ z → x ≤ z)
    (xs : List α) : (xs.insertionSort fun x y => key x ≤ key y).Pairwise
      fun x y => key x ≤ key y := by
  have : Std.Total fun x y : α => key x ≤ key y := ⟨fun x y => htotal (key x) (key y)⟩
  have : IsTrans α fun x y => key x ≤ key y := ⟨fun x y z => htrans (key x) (key y) (key z)⟩
  exact List.pairwise_insertionSort _ _

section Policy

variable {paths : List PackPath}

theorem isComponentPrefix_iff {left right : List (List UInt8)} :
    isComponentPrefix left right = true ↔ left <+: right ∧ left ≠ right := by
  rw [isComponentPrefix, Bool.and_eq_true, decide_eq_true_eq, List.isPrefixOf_iff_prefix]
  constructor
  · rintro ⟨hlength, hstarts⟩
    exact ⟨hstarts, fun heq => absurd hlength (by rw [heq]; exact lt_irrefl _)⟩
  · rintro ⟨hstarts, hne⟩
    refine ⟨?_, hstarts⟩
    by_contra hlength
    exact hne (hstarts.eq_of_length_le (by omega))

/-- Sorted paths are apart from each other where neighbours are. -/
theorem checkNeighbours_apart
    (hsorted : paths.Pairwise fun left right => targetPathKey left ≤ targetPathKey right)
    (h : checkNeighbours paths = .ok ()) :
    paths.Pairwise fun left right => ¬ native left <+: native right := by
  induction paths with
  | nil => exact .nil
  | cons left rest ih =>
    obtain ⟨hfirst, hrest⟩ := List.pairwise_cons.mp hsorted
    cases rest with
    | nil => exact List.pairwise_singleton _ _
    | cons right rest =>
      rw [checkNeighbours] at h
      split at h
      · cases h
      · rename_i hsame
        split at h
        · cases h
        · rename_i hstarts
          have hneighbour : ¬ native left <+: native right := by
            intro hle
            exact hstarts (isComponentPrefix_iff.mpr ⟨hle, hsame⟩)
          refine List.pairwise_cons.mpr ⟨?_, ih hrest h⟩
          intro path hpath hle
          apply hneighbour
          rcases List.mem_cons.mp hpath with rfl | hlater
          · exact hle
          · exact prefix_of_between hle (hfirst right List.mem_cons_self)
              ((List.pairwise_cons.mp hrest).1 path hlater)

/-- No path of a target that passes the policy is at or above another one. -/
theorem preflightPathPolicy_apart (h : preflightPathPolicy paths = .ok ()) {left right : PackPath}
    (hleft : left ∈ paths) (hright : right ∈ paths) (hstarts : native left <+: native right) :
    left = right := by
  unfold preflightPathPolicy at h
  split at h
  · cases h
  · have hsorted : (sortByKey paths).Pairwise fun left right =>
        targetPathKey left ≤ targetPathKey right :=
      pairwise_sorted targetPathKey List.le_total (fun _ _ _ => List.le_trans) paths
    have hboth := hsorted.and (checkNeighbours_apart hsorted h)
    have hbefore : (sortByKey paths).Pairwise fun left right =>
        native left <+: native right → left = right :=
      hboth.imp fun hpair hle => absurd hle hpair.2
    have hafter : (sortByKey paths).Pairwise fun left right =>
        native right <+: native left → right = left := by
      apply hboth.imp
      intro left right hpair hle
      exact PackPath.components_injective (List.le_antisymm hle.le hpair.1)
    exact hbefore.forall_of_forall_of_flip (fun _ _ _ => rfl) hafter
      ((List.mem_insertionSort _).mpr hleft) ((List.mem_insertionSort _).mpr hright) hstarts

end Policy

section Removed

theorem intercalate_starts {sep : List UInt8} {xs ys : List (List UInt8)} (h : xs <+: ys) :
    sep.intercalate xs <+: sep.intercalate ys := by
  induction xs generalizing ys with
  | nil => exact List.nil_prefix
  | cons x xs ih =>
    obtain ⟨more, rfl⟩ := h
    rw [List.cons_append]
    cases xs with
    | nil =>
      cases more with
      | nil => exact List.prefix_rfl
      | cons y more =>
        rw [List.nil_append, List.intercalate_cons_cons, List.append_assoc]
        simp
    | cons y xs =>
      rw [List.cons_append, List.intercalate_cons_cons, List.intercalate_cons_cons]
      exact List.prefix_append_right_inj _ |>.mpr (ih ⟨more, rfl⟩)

/-- A path comes before all paths below it. -/
theorem bytes_le_of_native {left right : PackPath} (h : native left <+: native right) :
    left.bytes ≤ right.bytes := by
  have joined (path : PackPath) : [slash].intercalate path.components = path.bytes :=
    List.intercalate_splitOn slash
  rw [← joined left, ← joined right]
  exact (intercalate_starts h).le

/-- No path is removed after what lies below it. -/
theorem removedPaths_ordered (newEntries oldEntries : List FileEntry) :
    ((removedPaths newEntries oldEntries).map native).Pairwise fun earlier later =>
      later <+: earlier → later = earlier := by
  rw [List.pairwise_map]
  have hsorted := pairwise_sorted PackPath.bytes List.le_total (fun _ _ _ => List.le_trans)
    ((pathsOf oldEntries).filter fun path => path ∉ pathsOf newEntries)
  apply hsorted.imp
  intro earlier later hle hstarts
  rw [PackPath.ext_bytes (List.le_antisymm (bytes_le_of_native hstarts) hle)]

end Removed

end Elfshaker.Checkout
