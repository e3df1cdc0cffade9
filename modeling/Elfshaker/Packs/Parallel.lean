import Elfshaker.Library.Exec
import Elfshaker.Library.ForkJoin

namespace Elfshaker.Packs

open Elfshaker.Library

section Parallel

variable {Item Output ε : Type}

/-- The groups of `n` that the loop takes off the items, and a smaller one at the
end. Nothing is returned where the fuel does not last. -/
def takeGroups (n : Nat) : Nat → List Item → Option (List (List Item))
  | _, [] => some []
  | 0, _ :: _ => none
  | fuel + 1, items => (takeGroups n fuel (items.drop n)).map (items.take n :: ·)

def itemsPerThread (nthread len : Nat) : Nat :=
  if nthread > len then 1 else len / nthread

/-- What each of the workers is given. -/
def threadGroups (nthread : Nat) (items : List Item) : Option (List (List Item)) :=
  takeGroups (itemsPerThread nthread items.length) items.length items

/-- Runs the workload on every item, with one thread for each group. -/
def runInParallel (nthread : Nat) (items : List Item) (workload : Item → Output) :
    Exec ε (List Output) := do
  Exec.assert (nthread != 0)
  let groups ← Exec.unwrap (threadGroups nthread items)
  .ok (groups.map (List.map workload)).flatten

/-- No two of the groups differ by more than one item. -/
def Balanced (groups : List (List Item)) : Prop :=
  ∀ a ∈ groups, ∀ b ∈ groups, a.length ≤ b.length + 1

theorem itemsPerThread_pos {nthread : Nat} (h : nthread ≠ 0) (len : Nat) :
    0 < itemsPerThread nthread len := by
  unfold itemsPerThread
  split
  · exact Nat.one_pos
  · exact Nat.div_pos (by omega) (Nat.pos_of_ne_zero h)

@[simp] theorem takeGroups_nil (n fuel : Nat) : takeGroups n fuel ([] : List Item) = some [] := by
  cases fuel <;> rfl

theorem takeGroups_succ {n fuel : Nat} {items : List Item} (h : items ≠ []) :
    takeGroups n (fuel + 1) items =
      (takeGroups n fuel (items.drop n)).map (items.take n :: ·) := by
  cases items with
  | nil => exact absurd rfl h
  | cons x xs => rfl

/-- Each round takes an item, so that as much fuel as there are items is enough. -/
theorem takeGroups_ends {n : Nat} (hn : 0 < n) {fuel : Nat} {items : List Item}
    (h : items.length ≤ fuel) : ∃ groups, takeGroups n fuel items = some groups := by
  induction fuel, items using takeGroups.induct n with
  | case1 => exact ⟨[], takeGroups_nil n _⟩
  | case2 => cases h
  | case3 fuel items hne ih =>
    have hrest : (items.drop n).length ≤ fuel := by
      rw [List.length_drop]
      omega
    obtain ⟨groups, hgroups⟩ := ih hrest
    exact ⟨items.take n :: groups, by rw [takeGroups_succ hne, hgroups]; rfl⟩

theorem takeGroups_flatten {n fuel : Nat} {items : List Item} {groups : List (List Item)}
    (h : takeGroups n fuel items = some groups) : groups.flatten = items := by
  induction fuel, items using takeGroups.induct n generalizing groups with
  | case1 =>
    rw [takeGroups_nil] at h
    cases h
    rfl
  | case2 => cases h
  | case3 fuel items hne ih =>
    obtain ⟨rest, hrest, rfl⟩ := Option.map_eq_some_iff.mp ((takeGroups_succ hne).symm.trans h)
    rw [List.flatten_cons, ih hrest, List.take_append_drop]

theorem takeGroups_length_le {n fuel : Nat} {items : List Item} {groups : List (List Item)}
    (h : takeGroups n fuel items = some groups) : ∀ group ∈ groups, group.length ≤ n := by
  induction fuel, items using takeGroups.induct n generalizing groups with
  | case1 =>
    rw [takeGroups_nil] at h
    cases h
    exact nofun
  | case2 => cases h
  | case3 fuel items hne ih =>
    obtain ⟨rest, hrest, rfl⟩ := Option.map_eq_some_iff.mp ((takeGroups_succ hne).symm.trans h)
    intro group hgroup
    rcases List.mem_cons.mp hgroup with rfl | hgroup
    · exact List.length_take_le n items
    · exact ih hrest group hgroup

/-- Where the size of a group divides the number of items, no group is smaller. -/
theorem takeGroups_length_eq {n fuel : Nat} {items : List Item} {groups : List (List Item)}
    (h : takeGroups n fuel items = some groups) (hn : n ∣ items.length) :
    ∀ group ∈ groups, group.length = n := by
  induction fuel, items using takeGroups.induct n generalizing groups with
  | case1 =>
    rw [takeGroups_nil] at h
    cases h
    exact nofun
  | case2 => cases h
  | case3 fuel items hne ih =>
    obtain ⟨rest, hrest, rfl⟩ := Option.map_eq_some_iff.mp ((takeGroups_succ hne).symm.trans h)
    have hle : n ≤ items.length := Nat.le_of_dvd (List.length_pos_of_ne_nil hne) hn
    have hdrop : n ∣ (items.drop n).length := by
      rw [List.length_drop]
      exact Nat.dvd_sub hn (Nat.dvd_refl n)
    intro group hgroup
    rcases List.mem_cons.mp hgroup with rfl | hgroup
    · rw [List.length_take, Nat.min_eq_left hle]
    · exact ih hrest hdrop group hgroup

theorem length_flatten_le {groups : List (List Item)} {n : Nat}
    (h : ∀ group ∈ groups, group.length ≤ n) : groups.flatten.length ≤ groups.length * n := by
  induction groups with
  | nil => exact Nat.zero_le _
  | cons group groups ih =>
    have hgroup := h group List.mem_cons_self
    have hgroups := ih fun group hgroup => h group (List.mem_cons_of_mem _ hgroup)
    rw [List.flatten_cons, List.length_append, List.length_cons, Nat.succ_mul]
    omega

theorem length_flatten_eq {groups : List (List Item)} {n : Nat}
    (h : ∀ group ∈ groups, group.length = n) : groups.flatten.length = groups.length * n := by
  induction groups with
  | nil => exact (Nat.zero_mul n).symm
  | cons group groups ih =>
    have hgroup := h group List.mem_cons_self
    have hgroups := ih fun group hgroup => h group (List.mem_cons_of_mem _ hgroup)
    rw [List.flatten_cons, List.length_append, List.length_cons, Nat.succ_mul]
    omega

/-- The outputs stand in the order of the items, however they are grouped. -/
theorem runInParallel_eq {nthread : Nat} (h : nthread ≠ 0) (items : List Item)
    (workload : Item → Output) :
    runInParallel (ε := ε) nthread items workload = .ok (items.map workload) := by
  obtain ⟨groups, hgroups⟩ :=
    takeGroups_ends (itemsPerThread_pos h items.length) (Nat.le_refl items.length)
  have hassert : (nthread != 0) = true := by simpa using h
  have hflatten := takeGroups_flatten hgroups
  rw [runInParallel, threadGroups, hassert, hgroups, Exec.assert_true, Exec.ok_bind,
    Exec.unwrap_some, Exec.ok_bind, ← List.map_flatten, hflatten]

/-- The threads of a run, in any order in which they go on. -/
abbrev ThreadRun (nthread : Nat) (items : List Item) (workload : Item → Output) :
    ForkJoin.State Item Output → Prop :=
  ForkJoin.Reaches (itemsPerThread nthread items.length) workload (ForkJoin.start items)

theorem run_in_parallel_is_map {nthread : Nat} (h : 1 ≤ nthread) (items : List Item)
    (workload : Item → Output) :
    runInParallel (ε := ε) nthread items workload = .ok (items.map workload) ∧
      (∃ groups, threadGroups nthread items = some groups ∧ groups.flatten = items) ∧
      (∀ s, ThreadRun nthread items workload s → s.Finished →
        s.joined.flatten = items.map workload) ∧
      (∀ s, ThreadRun nthread items workload s → ¬ s.Finished →
        ∃ s', ForkJoin.Step (itemsPerThread nthread items.length) workload s s') ∧
      ∀ run : Nat → ForkJoin.State Item Output,
        ¬ ∀ k, ForkJoin.Step (itemsPerThread nthread items.length) workload (run k) (run (k + 1)) := by
  have hthreads : nthread ≠ 0 := Nat.ne_of_gt h
  have hpos := itemsPerThread_pos hthreads items.length
  obtain ⟨groups, hgroups⟩ := takeGroups_ends hpos (Nat.le_refl items.length)
  refine ⟨runInParallel_eq hthreads items workload,
    ⟨groups, hgroups, takeGroups_flatten hgroups⟩, ?_, ?_, ?_⟩
  · intro s hrun hdone
    exact ForkJoin.State.finished_outputs hrun hdone
  · intro s _ hleft
    exact ForkJoin.State.progress hleft
  · exact ForkJoin.State.no_endless_run hpos

theorem run_in_parallel_is_map_doubled :
    runInParallel (ε := Unit) 2 [1, 2, 3] (fun x => x * 2) = .ok ([1, 2, 3].map fun x => x * 2) ∧
      (∃ groups, threadGroups 2 [1, 2, 3] = some groups ∧ groups.flatten = [1, 2, 3]) ∧
      (∀ s, ThreadRun 2 [1, 2, 3] (fun x => x * 2) s → s.Finished →
        s.joined.flatten = [1, 2, 3].map fun x => x * 2) ∧
      (∀ s, ThreadRun 2 [1, 2, 3] (fun x => x * 2) s → ¬ s.Finished →
        ∃ s', ForkJoin.Step (itemsPerThread 2 3) (fun x => x * 2) s s') ∧
      ∀ run : Nat → ForkJoin.State Nat Nat,
        ¬ ∀ k, ForkJoin.Step (itemsPerThread 2 3) (fun x => x * 2) (run k) (run (k + 1)) :=
  run_in_parallel_is_map (by decide) [1, 2, 3] fun x => x * 2

/-- The size that was chosen divides the number of items only where that is less
than the number of threads or a multiple of it. -/
theorem itemsPerThread_dvd {nthread len : Nat} (h : len < nthread ∨ nthread ∣ len) :
    itemsPerThread nthread len ∣ len ∧ len ≤ nthread * itemsPerThread nthread len := by
  unfold itemsPerThread
  rcases h with h | h
  · rw [if_pos h, Nat.mul_one]
    exact ⟨Nat.one_dvd len, Nat.le_of_lt h⟩
  · split
    · rename_i hlt
      rw [Nat.mul_one]
      exact ⟨Nat.one_dvd len, Nat.le_of_lt hlt⟩
    · rw [Nat.mul_div_cancel' h]
      exact ⟨Nat.div_dvd_of_dvd h, Nat.le_refl len⟩

/-- The limit on the threads, and the balance, are kept exactly where no items are
left over. -/
theorem run_in_parallel_balanced_iff {nthread : Nat} (items : List Item) (h : nthread ≠ 0) :
    ∃ groups, threadGroups nthread items = some groups ∧
      (groups.length ≤ nthread ∧ Balanced groups ↔
        items.length < nthread ∨ nthread ∣ items.length) := by
  have hpos := itemsPerThread_pos h items.length
  obtain ⟨groups, hgroups⟩ := takeGroups_ends hpos (Nat.le_refl items.length)
  have hflatten := takeGroups_flatten hgroups
  refine ⟨groups, hgroups, ?_, ?_⟩
  · rintro ⟨hcount, -⟩
    by_cases hlt : items.length < nthread
    · exact .inl hlt
    · have hsize : itemsPerThread nthread items.length = items.length / nthread := if_neg hlt
      have hlength := length_flatten_le (takeGroups_length_le hgroups)
      rw [hflatten, hsize] at hlength
      -- As many groups as threads hold no more than the quotient says.
      have hthreads : items.length ≤ nthread * (items.length / nthread) :=
        Nat.le_trans hlength (Nat.mul_le_mul_right _ hcount)
      have hexact := Nat.le_antisymm (Nat.mul_div_le items.length nthread) hthreads
      exact .inr ⟨_, hexact.symm⟩
  · intro hcondition
    obtain ⟨hdvd, hle⟩ := itemsPerThread_dvd hcondition
    have hsizes := takeGroups_length_eq hgroups hdvd
    have hlength := length_flatten_eq hsizes
    rw [hflatten] at hlength
    refine ⟨Nat.le_of_mul_le_mul_right (hlength ▸ hle) hpos, ?_⟩
    intro a ha b hb
    rw [hsizes a ha, hsizes b hb]
    exact Nat.le_succ _

theorem run_in_parallel_balanced_eight : ∃ groups, threadGroups 4 (List.range 8) = some groups ∧
    groups.length ≤ 4 ∧ Balanced groups := by
  have hthreads : 4 ≠ 0 := by decide
  obtain ⟨groups, hgroups, hiff⟩ := run_in_parallel_balanced_iff (List.range 8) hthreads
  exact ⟨groups, hgroups, hiff.mpr (.inr ⟨2, rfl⟩)⟩

/-- Nineteen items for five threads make seven groups, the last a third of the others. -/
theorem run_in_parallel_unbalanced : ¬ ∀ (nthread : Nat) (items : List Nat), nthread ≠ 0 →
    ∃ groups, threadGroups nthread items = some groups ∧
      groups.length ≤ nthread ∧ Balanced groups := by
  intro h
  obtain ⟨groups, hgroups, hcount, -⟩ := h 5 (List.range 19) (by decide)
  have hseven : (threadGroups 5 (List.range 19)).map List.length = some 7 := by decide
  rw [hgroups, Option.map_some, Option.some.injEq] at hseven
  omega

end Parallel

end Elfshaker.Packs
