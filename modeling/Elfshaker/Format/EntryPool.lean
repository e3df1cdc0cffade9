import Mathlib.Algebra.GroupWithZero.Nat
import Mathlib.Data.List.AList
import Mathlib.Data.List.Induction
import Mathlib.Data.List.Perm.Subperm
import Mathlib.Tactic.SplitIfs

namespace Elfshaker.Format

abbrev Handle := UInt32

/-- The handles there are. -/
def handleCount : Nat := 2 ^ 32

/-- `n as Handle`. -/
def toHandle (n : Nat) : Handle := UInt32.ofNat n

theorem toHandle_toNat (n : Nat) : (toHandle n).toNat = n % handleCount := by
  simp [toHandle, handleCount]

theorem toHandle_injOn {m n : Nat} (hm : m < handleCount) (hn : n < handleCount)
    (h : toHandle m = toHandle n) : m = n := by
  have := congrArg UInt32.toNat h
  rwa [toHandle_toNat, toHandle_toNat, Nat.mod_eq_of_lt hm, Nat.mod_eq_of_lt hn] at this

/-- Interned values. The map is a hash lookup for the list: it leads each value
to its position, cut to the width of a handle. -/
structure EntryPool (α : Type) [DecidableEq α] where
  entries : List α
  entryMap : AList fun _ : α => Handle
  nodup : entries.Nodup
  map_eq : ∀ x, entryMap.lookup x =
    if x ∈ entries then some (toHandle (entries.idxOf x)) else none

namespace EntryPool

variable {α : Type} [DecidableEq α]

def new : EntryPool α := ⟨[], ∅, List.nodup_nil, fun x => by simp⟩

def get (pool : EntryPool α) (x : α) : Option Handle :=
  pool.entryMap.lookup x

theorem get_of_mem {pool : EntryPool α} {x : α} (h : x ∈ pool.entries) :
    pool.get x = some (toHandle (pool.entries.idxOf x)) := by
  simp [get, pool.map_eq, h]

theorem get_eq_none {pool : EntryPool α} {x : α} : pool.get x = none ↔ x ∉ pool.entries := by
  simp [get, pool.map_eq]

/-- Adds a value that is not in the pool yet. -/
def push (pool : EntryPool α) (x : α) (new : x ∉ pool.entries) : EntryPool α where
  entries := pool.entries ++ [x]
  entryMap := pool.entryMap.insert x (toHandle pool.entries.length)
  nodup := List.concat_eq_append ▸ pool.nodup.concat new
  map_eq := by
    intro y
    rcases eq_or_ne y x with rfl | hne
    · simp [AList.lookup_insert, List.idxOf_append_of_notMem new]
    · rw [AList.lookup_insert_ne hne, pool.map_eq]
      by_cases hy : y ∈ pool.entries
      · simp [hy, List.idxOf_append_of_mem hy]
      · simp [hy, hne]

/-- The handle of a value, which is added when it is not there. -/
def getOrInsert (pool : EntryPool α) (x : α) : EntryPool α × Handle :=
  match h : pool.get x with
  | some handle => (pool, handle)
  | none => (pool.push x (get_eq_none.mp h), toHandle pool.entries.length)

def lookup (pool : EntryPool α) (h : Handle) : Option α :=
  pool.entries[h.toNat]?

/-- Interns a list of values, one by one. -/
def internAll (pool : EntryPool α) (xs : List α) : EntryPool α :=
  xs.foldl (fun pool x => (pool.getOrInsert x).1) pool

/-- A pool read from a list interns its elements one by one. -/
def deserialize (xs : List α) : EntryPool α :=
  new.internAll xs

/-- The handle a pool gives to a value. -/
def handleOf (pool : EntryPool α) (x : α) : Handle :=
  toHandle (pool.entries.idxOf x)

/-- The pool has as many handles as it needs. -/
def Fits (pool : EntryPool α) : Prop :=
  pool.entries.length ≤ handleCount

theorem getOrInsert_of_mem {pool : EntryPool α} {x : α} (h : x ∈ pool.entries) :
    pool.getOrInsert x = (pool, pool.handleOf x) := by
  unfold getOrInsert
  split
  · rename_i handle hget
    rw [get_of_mem h] at hget
    cases hget
    rfl
  · rename_i hget
    exact absurd h (get_eq_none.mp hget)

theorem getOrInsert_of_notMem {pool : EntryPool α} {x : α} (h : x ∉ pool.entries) :
    pool.getOrInsert x = (pool.push x h, toHandle pool.entries.length) := by
  unfold getOrInsert
  split
  · rename_i handle hget
    rw [get_eq_none.mpr h] at hget
    cases hget
  · rfl

theorem getOrInsert_entries (pool : EntryPool α) (x : α) :
    (pool.getOrInsert x).1.entries =
      if x ∈ pool.entries then pool.entries else pool.entries ++ [x] := by
  split_ifs with h
  · rw [getOrInsert_of_mem h]
  · rw [getOrInsert_of_notMem h]
    rfl

theorem getOrInsert_grows (pool : EntryPool α) (x : α) :
    pool.entries <+: (pool.getOrInsert x).1.entries := by
  rw [getOrInsert_entries]
  split_ifs
  · exact List.prefix_rfl
  · exact List.prefix_append _ _

theorem mem_getOrInsert {pool : EntryPool α} {x y : α} :
    y ∈ (pool.getOrInsert x).1.entries ↔ y ∈ pool.entries ∨ y = x := by
  rw [getOrInsert_entries]
  split_ifs with h
  · exact ⟨Or.inl, fun hy => hy.elim id fun he => he ▸ h⟩
  · simp

theorem getOrInsert_handle (pool : EntryPool α) (x : α) :
    (pool.getOrInsert x).2 = (pool.getOrInsert x).1.handleOf x := by
  by_cases h : x ∈ pool.entries
  · rw [getOrInsert_of_mem h]
  · rw [getOrInsert_of_notMem h]
    simp [handleOf, push, List.idxOf_append_of_notMem h]

/-- A value keeps its handle when others are added. -/
theorem handleOf_of_grows {pool pool' : EntryPool α} (h : pool.entries <+: pool'.entries) {x : α}
    (hx : x ∈ pool.entries) : pool'.handleOf x = pool.handleOf x := by
  obtain ⟨rest, hrest⟩ := h
  rw [handleOf, handleOf, ← hrest, List.idxOf_append_of_mem hx]

theorem lookup_handleOf {pool : EntryPool α} (fits : pool.Fits) {x : α} (hx : x ∈ pool.entries) :
    pool.lookup (pool.handleOf x) = some x := by
  have hlt := List.idxOf_lt_length_iff.mpr hx
  rw [lookup, handleOf, toHandle_toNat, Nat.mod_eq_of_lt (lt_of_lt_of_le hlt fits)]
  exact List.getElem?_idxOf hx

theorem lookup_injective {pool : EntryPool α} {h h' : Handle} {x : α}
    (hx : pool.lookup h = some x) (hx' : pool.lookup h' = some x) : h = h' := by
  obtain ⟨hlt, hget⟩ := List.getElem?_eq_some_iff.mp hx
  obtain ⟨hlt', hget'⟩ := List.getElem?_eq_some_iff.mp hx'
  exact UInt32.toNat.inj ((pool.nodup.getElem_inj_iff).mp (hget.trans hget'.symm))

theorem handleOf_injOn {pool : EntryPool α} (fits : pool.Fits) {x y : α} (hx : x ∈ pool.entries)
    (hy : y ∈ pool.entries) (h : pool.handleOf x = pool.handleOf y) : x = y := by
  have hxl := lookup_handleOf fits hx
  rw [h, lookup_handleOf fits hy] at hxl
  exact (Option.some.inj hxl).symm

theorem lookup_mem {pool : EntryPool α} {h : Handle} {x : α} (hx : pool.lookup h = some x) :
    x ∈ pool.entries :=
  List.mem_of_getElem? hx

theorem mem_internAll {pool : EntryPool α} {xs : List α} {y : α} :
    y ∈ (pool.internAll xs).entries ↔ y ∈ pool.entries ∨ y ∈ xs := by
  induction xs generalizing pool with
  | nil => simp [internAll]
  | cons x xs ih =>
    rw [List.mem_cons, ← or_assoc, ← mem_getOrInsert]
    exact ih

theorem internAll_append (pool : EntryPool α) (xs ys : List α) :
    pool.internAll (xs ++ ys) = (pool.internAll xs).internAll ys :=
  List.foldl_append

theorem mem_deserialize {xs : List α} {y : α} : y ∈ (deserialize xs).entries ↔ y ∈ xs := by
  rw [deserialize, mem_internAll]
  simp [new]

theorem internAll_grows (pool : EntryPool α) (xs : List α) :
    pool.entries <+: (pool.internAll xs).entries := by
  induction xs generalizing pool with
  | nil => exact List.prefix_rfl
  | cons x xs ih => exact (getOrInsert_grows pool x).trans (ih _)

theorem internAll_of_nodup {pool : EntryPool α} {xs : List α}
    (h : (pool.entries ++ xs).Nodup) : (pool.internAll xs).entries = pool.entries ++ xs := by
  induction xs generalizing pool with
  | nil => rw [List.append_nil]; rfl
  | cons x xs ih =>
    have hx : x ∉ pool.entries := fun hm =>
      (List.nodup_append.mp h).2.2 x hm x List.mem_cons_self rfl
    have hpush : (pool.getOrInsert x).1.entries = pool.entries ++ [x] := by
      rw [getOrInsert_entries, if_neg hx]
    rw [List.append_cons, ← hpush] at h ⊢
    exact ih h

/-- An interned list keeps the element at a position exactly when nothing up to
there was interned before. -/
theorem getElem?_internAll_iff {xs : List α} {p : Nat} (hp : p < xs.length) :
    (new.internAll xs).entries[p]? = xs[p]? ↔ (xs.take (p + 1)).Nodup := by
  have hsplit : new.internAll xs = (new.internAll (xs.take (p + 1))).internAll (xs.drop (p + 1)) := by
    rw [← internAll_append, List.take_append_drop]
  have hprefix : (new.internAll (xs.take (p + 1))).entries <+: (new.internAll xs).entries := by
    rw [hsplit]
    exact internAll_grows _ _
  have hlen : (xs.take (p + 1)).length = p + 1 := by
    rw [List.length_take]
    omega
  constructor
  · intro heq
    have hlast : xs[p] ∈ (new.internAll (xs.take (p + 1))).entries :=
      mem_internAll.mpr (.inr (List.mem_take_iff_getElem.mpr ⟨p, by omega, rfl⟩))
    obtain ⟨i, hi, hget⟩ := List.mem_iff_getElem.mp hlast
    have hi' : (new.internAll xs).entries[i]? = some xs[p] := by
      rw [← hget, ← List.getElem?_eq_getElem hi]
      exact (List.prefix_iff_getElem?.mp hprefix i hi).trans (List.getElem?_eq_getElem hi).symm
    rw [List.getElem?_eq_getElem hp] at heq
    obtain ⟨hil, -⟩ := List.getElem?_eq_some_iff.mp hi'
    have hip : i = p := (List.getElem?_inj hil (nodup _)).mp (hi'.trans heq.symm)
    have hsub : (new.internAll (xs.take (p + 1))).entries.Subperm (xs.take (p + 1)) :=
      List.subperm_of_subset (nodup _) fun y hy => (mem_internAll.mp hy).resolve_left (by simp [new])
    have hperm := hsub.perm_of_length_le (by omega)
    exact hperm.nodup_iff.mp (nodup _)
  · intro hnodup
    have hentries : (new.internAll (xs.take (p + 1))).entries = xs.take (p + 1) :=
      internAll_of_nodup (by simpa [new] using hnodup)
    rw [hentries] at hprefix
    have hget := List.prefix_iff_getElem?.mp hprefix p (by omega)
    rw [hget, List.getElem_take, List.getElem?_eq_getElem hp]

/-- Interning the images of an interned list is interning the images of the list. -/
theorem internAll_map_internAll {β : Type} [DecidableEq β] (f : α → β) (xs : List α) :
    new.internAll ((new.internAll xs).entries.map f) = new.internAll (xs.map f) := by
  induction xs using List.reverseRecOn with
  | nil => rfl
  | append_singleton xs x ih =>
    rw [internAll_append, List.map_append, internAll_append, ← ih]
    change new.internAll (((new.internAll xs).getOrInsert x).1.entries.map f) =
      ((new.internAll ((new.internAll xs).entries.map f)).getOrInsert (f x)).1
    rw [getOrInsert_entries]
    split_ifs with hx
    · have hfx : f x ∈ (new.internAll ((new.internAll xs).entries.map f)).entries :=
        mem_internAll.mpr (.inr (List.mem_map_of_mem hx))
      rw [getOrInsert_of_mem hfx]
    · rw [List.map_append, internAll_append]
      rfl

end EntryPool

end Elfshaker.Format
