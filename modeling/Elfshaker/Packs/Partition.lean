import Elfshaker.Library.Exec

namespace Elfshaker.Packs

open Elfshaker.Library

section Partition

variable {α ε : Type} (eval : α → Exec ε UInt64)

/-- The items from the front that fit in the bound together, and the others. -/
def takeWithin (bound : UInt64) : UInt64 → List α → Exec ε (List α × List α)
  | _, [] => .ok ([], [])
  | curr, x :: xs => do
    let v ← eval x
    let sum ← Exec.checkedAdd curr v
    if sum ≤ bound then
      let (front, rest) ← takeWithin bound sum xs
      .ok (x :: front, rest)
    else .ok ([], x :: xs)

/-- Up to `n` partitions that fit in the bound, and one of what is left. -/
def partitions (bound : UInt64) : Nat → List α → Exec ε (List (List α))
  | 0, rest => .ok (if rest.isEmpty then [] else [rest])
  | n + 1, rest => do
    let (front, rest) ← takeWithin eval bound 0 rest
    let parts ← partitions bound n rest
    .ok (if front.isEmpty then parts else front :: parts)

def addSizes : UInt64 → List α → Exec ε UInt64
  | total, [] => .ok total
  | total, x :: xs => do
    let v ← eval x
    let total ← Exec.checkedAdd total v
    addSizes total xs

/-- Partitions a list into up to `n` parts of about the same size. -/
def partitionByU64 (xs : List α) (n : UInt32) : Exec ε (List (List α)) :=
  if xs.isEmpty then .ok []
  else do
    let n := max (min n (UInt32.ofNat xs.length)) 1
    let total ← addSizes eval 0 xs
    let bound := total / n.toUInt64
    partitions eval bound (n.toNat - 1) xs

variable {eval}

theorem takeWithin_append {bound curr : UInt64} {xs front rest : List α}
    (h : takeWithin eval bound curr xs = .ok (front, rest)) : front ++ rest = xs := by
  induction xs generalizing curr front with
  | nil =>
    cases h
    rfl
  | cons x xs ih =>
    obtain ⟨v, -, h⟩ := Exec.bind_eq_ok.mp h
    obtain ⟨sum, -, h⟩ := Exec.bind_eq_ok.mp h
    split at h
    · obtain ⟨⟨front', rest'⟩, hfront, h⟩ := Exec.bind_eq_ok.mp h
      cases h
      rw [List.cons_append, ih hfront]
    · cases h
      rfl

theorem partitions_flatten {bound : UInt64} {n : Nat} {xs : List α} {parts : List (List α)}
    (h : partitions eval bound n xs = .ok parts) : parts.flatten = xs := by
  induction n generalizing xs parts with
  | zero =>
    cases h
    cases xs with
    | nil => rfl
    | cons x xs => simp
  | succ n ih =>
    obtain ⟨⟨front, rest⟩, hfront, h⟩ := Exec.bind_eq_ok.mp h
    obtain ⟨parts', hparts, h⟩ := Exec.bind_eq_ok.mp h
    cases h
    rw [← takeWithin_append hfront, ← ih hparts]
    cases front with
    | nil => rfl
    | cons x front => rfl

/-- Partitioning neither loses an item nor moves one. -/
theorem partitionByU64_flatten {xs : List α} {n : UInt32} {parts : List (List α)}
    (h : partitionByU64 eval xs n = .ok parts) : parts.flatten = xs := by
  unfold partitionByU64 at h
  split at h
  · rename_i hempty
    cases h
    rw [List.isEmpty_iff.mp hempty]
    rfl
  · obtain ⟨total, -, h⟩ := Exec.bind_eq_ok.mp h
    exact partitions_flatten h

example : partitionByU64 (ε := Unit) .ok [1, 2, 999] 4 = .ok [[1, 2], [999]] := by decide

end Partition

section Bounded

variable {α ε : Type} {size : α → UInt64}

/-- The sum of the sizes, as a number without bound. -/
def sizeSum (size : α → UInt64) (xs : List α) : Nat := (xs.map fun x => (size x).toNat).sum

@[simp] theorem sizeSum_nil : sizeSum size [] = 0 := rfl

@[simp] theorem sizeSum_cons (x : α) (xs : List α) :
    sizeSum size (x :: xs) = (size x).toNat + sizeSum size xs := by
  simp [sizeSum]

theorem sizeSum_append (xs ys : List α) :
    sizeSum size (xs ++ ys) = sizeSum size xs + sizeSum size ys := by
  simp [sizeSum]

/-- The number of parts that are aimed for. The number of items is cut to 32 bits. -/
def effectiveParts (n : UInt32) (xs : List α) : UInt32 := max (min n (UInt32.ofNat xs.length)) 1

theorem toNat_min (a b : UInt32) : (min a b).toNat = min a.toNat b.toNat := by
  change (if a ≤ b then a else b).toNat = _
  split
  · rename_i h
    exact (Nat.min_eq_left (UInt32.le_iff_toNat_le.mp h)).symm
  · rename_i h
    exact (Nat.min_eq_right (UInt32.le_iff_toNat_le.mp ((UInt32.le_total a b).resolve_left h))).symm

theorem toNat_max (a b : UInt32) : (max a b).toNat = max a.toNat b.toNat := by
  change (if a ≤ b then b else a).toNat = _
  split
  · rename_i h
    exact (Nat.max_eq_right (UInt32.le_iff_toNat_le.mp h)).symm
  · rename_i h
    exact (Nat.max_eq_left (UInt32.le_iff_toNat_le.mp ((UInt32.le_total a b).resolve_left h))).symm

theorem effectiveParts_toNat (n : UInt32) (xs : List α) :
    (effectiveParts n xs).toNat = max (min n.toNat (xs.length % 2 ^ 32)) 1 := by
  rw [effectiveParts, toNat_max, toNat_min, UInt32.toNat_ofNat']
  rfl

theorem effectiveParts_eq {n : UInt32} {xs : List α} (h : xs.length < 2 ^ 32) :
    (effectiveParts n xs).toNat = max 1 (min n.toNat xs.length) := by
  rw [effectiveParts_toNat, Nat.mod_eq_of_lt h, Nat.max_comm]

theorem effectiveParts_le (n : UInt32) (xs : List α) :
    (effectiveParts n xs).toNat ≤ max 1 (min n.toNat xs.length) := by
  rw [effectiveParts_toNat]
  have := Nat.mod_le xs.length (2 ^ 32)
  omega

theorem effectiveParts_pos (n : UInt32) (xs : List α) : 0 < (effectiveParts n xs).toNat := by
  rw [effectiveParts_toNat]
  omega

theorem addSizes_ok {total : UInt64} {xs : List α} (h : total.toNat + sizeSum size xs < 2 ^ 64) :
    ∃ sum, addSizes (ε := ε) (fun x => .ok (size x)) total xs = .ok sum ∧
      sum.toNat = total.toNat + sizeSum size xs := by
  induction xs generalizing total with
  | nil => exact ⟨total, rfl, rfl⟩
  | cons x xs ih =>
    rw [sizeSum_cons, ← Nat.add_assoc] at h
    obtain ⟨next, hnext, hnat⟩ := Exec.checkedAdd_ok (ε := ε)
      (Nat.lt_of_le_of_lt (Nat.le_add_right _ _) h)
    rw [← hnat] at h
    obtain ⟨sum, hsum, hsumNat⟩ := ih h
    refine ⟨sum, ?_, ?_⟩
    · rw [addSizes, Exec.ok_bind, hnext, Exec.ok_bind, hsum]
    · rw [hsumNat, hnat, sizeSum_cons, Nat.add_assoc]

/-- What is taken is all there is to take: an overflow cannot be met before the
bound is, and nothing but the bound ends it. -/
theorem takeWithin_ok {bound curr : UInt64} {xs : List α}
    (h : curr.toNat + sizeSum size xs < 2 ^ 64) (hcurr : curr ≤ bound) :
    ∃ front rest, takeWithin (ε := ε) (fun x => .ok (size x)) bound curr xs = .ok (front, rest) ∧
      curr.toNat + sizeSum size front ≤ bound.toNat := by
  induction xs generalizing curr with
  | nil => exact ⟨[], [], rfl, UInt64.le_iff_toNat_le.mp hcurr⟩
  | cons x xs ih =>
    rw [sizeSum_cons, ← Nat.add_assoc] at h
    obtain ⟨sum, hsum, hnat⟩ := Exec.checkedAdd_ok (ε := ε)
      (Nat.lt_of_le_of_lt (Nat.le_add_right _ _) h)
    by_cases hle : sum ≤ bound
    · rw [← hnat] at h
      obtain ⟨front, rest, hrest, hbound⟩ := ih h hle
      refine ⟨x :: front, rest, ?_, ?_⟩
      · rw [takeWithin, Exec.ok_bind, hsum, Exec.ok_bind, if_pos hle, hrest]
        rfl
      · rw [sizeSum_cons, ← Nat.add_assoc, ← hnat]
        exact hbound
    · refine ⟨[], x :: xs, ?_, ?_⟩
      · rw [takeWithin, Exec.ok_bind, hsum, Exec.ok_bind, if_neg hle]
      · exact UInt64.le_iff_toNat_le.mp hcurr

/-- Parts that are not empty, and that fit in the bound, the last of them apart. -/
structure Partition (size : α → UInt64) (bound count : Nat) (parts : List (List α)) : Prop where
  nonempty : ∀ part ∈ parts, part ≠ []
  length_le : parts.length ≤ count
  within : ∀ part ∈ parts.dropLast, sizeSum size part ≤ bound

theorem partitions_ok (bound : UInt64) (n : Nat) {xs : List α} (h : sizeSum size xs < 2 ^ 64) :
    ∃ parts, partitions (ε := ε) (fun x => .ok (size x)) bound n xs = .ok parts ∧
      Partition size bound.toNat (n + 1) parts := by
  induction n generalizing xs with
  | zero =>
    cases xs with
    | nil => exact ⟨[], rfl, ⟨nofun, Nat.zero_le _, nofun⟩⟩
    | cons x xs => exact ⟨[x :: xs], rfl, ⟨by simp, Nat.le_refl _, by simp⟩⟩
  | succ n ih =>
    have hstart : (0 : UInt64).toNat + sizeSum size xs < 2 ^ 64 := by simpa using h
    have hzero : (0 : UInt64) ≤ bound := UInt64.zero_le
    obtain ⟨front, rest, htake, hbound⟩ := takeWithin_ok (ε := ε) hstart hzero
    have happend := takeWithin_append htake
    rw [← happend, sizeSum_append] at h
    obtain ⟨parts, hparts, hgood⟩ := ih (Nat.lt_of_le_of_lt (Nat.le_add_left _ _) h)
    refine ⟨if front.isEmpty then parts else front :: parts, ?_, ?_⟩
    · rw [partitions, htake, Exec.ok_bind]
      dsimp only
      rw [hparts]
      rfl
    · cases front with
      | nil => exact ⟨hgood.nonempty, Nat.le_succ_of_le hgood.length_le, hgood.within⟩
      | cons x front =>
        refine ⟨?_, Nat.succ_le_succ hgood.length_le, ?_⟩
        · intro part hpart
          rcases List.mem_cons.mp hpart with rfl | hpart
          · exact List.cons_ne_nil _ _
          · exact hgood.nonempty part hpart
        · intro part hpart
          cases parts with
          | nil => cases hpart
          | cons next parts =>
            rcases List.mem_cons.mp hpart with rfl | hpart
            · simpa using hbound
            · exact hgood.within part hpart

/-- Sizes whose sum fits in 64 bits are partitioned without an overflow. -/
theorem partition_by_u64_bounded {xs : List α} {n : UInt32} (h : sizeSum size xs < 2 ^ 64) :
    ∃ parts, partitionByU64 (ε := ε) (fun x => .ok (size x)) xs n = .ok parts ∧
      parts.flatten = xs ∧ (∀ part ∈ parts, part ≠ []) ∧
      parts.length ≤ max 1 (min n.toNat xs.length) ∧
      (∀ part ∈ parts.dropLast,
        sizeSum size part ≤ sizeSum size xs / (effectiveParts n xs).toNat) ∧
      (xs.length < 2 ^ 32 →
        (effectiveParts n xs).toNat = max 1 (min n.toNat xs.length)) := by
  unfold partitionByU64
  cases xs with
  | nil => exact ⟨[], rfl, rfl, nofun, Nat.zero_le _, nofun, effectiveParts_eq⟩
  | cons x xs =>
    rw [if_neg (by simp)]
    have hstart : (0 : UInt64).toNat + sizeSum size (x :: xs) < 2 ^ 64 := by simpa using h
    obtain ⟨total, htotal, hnat⟩ := addSizes_ok (ε := ε) hstart
    have hcount := effectiveParts_pos n (x :: xs)
    obtain ⟨parts, hparts, hgood⟩ := partitions_ok (ε := ε)
      (total / (effectiveParts n (x :: xs)).toUInt64) ((effectiveParts n (x :: xs)).toNat - 1) h
    refine ⟨parts, ?_, partitions_flatten hparts, hgood.nonempty, ?_, ?_, effectiveParts_eq⟩
    · exact Exec.bind_eq_ok.mpr ⟨total, htotal, hparts⟩
    · have hlength := hgood.length_le
      have := effectiveParts_le n (x :: xs)
      omega
    · intro part hpart
      have hwithin := hgood.within part hpart
      rw [UInt64.toNat_div, UInt32.toNat_toUInt64, hnat] at hwithin
      simpa using hwithin

theorem partition_by_u64_bounded_three : sizeSum id [1, 2, 999] < 2 ^ 64 ∧
    ∃ parts, partitionByU64 (ε := Unit) (fun size => .ok (id size)) [1, 2, 999] 4 = .ok parts ∧
      parts.flatten = [1, 2, 999] ∧ parts.length ≤ 3 := by
  have hsum : sizeSum id [1, 2, 999] < 2 ^ 64 := by decide
  obtain ⟨parts, hparts, hflatten, -, hlength, -⟩ := partition_by_u64_bounded (ε := Unit) hsum
  exact ⟨hsum, parts, hparts, hflatten, hlength⟩

end Bounded

end Elfshaker.Packs
