import Elfshaker.Format.MessagePack
import Mathlib.Data.List.Dedup

namespace Elfshaker.Format

open Elfshaker.Library

/-- How a data format writes and reads a sequence of values. -/
structure SeqFormat (α β : Type) where
  write : List α → β
  read : β → Option (List α)

namespace EntryPool

variable {α β : Type} [DecidableEq α]

/-- A run of `get_or_insert` calls, with the handles they return. -/
def getOrInsertAll (pool : EntryPool α) : List α → EntryPool α × List Handle
  | [] => (pool, [])
  | x :: xs =>
    let (pool, handle) := pool.getOrInsert x
    let (pool, handles) := getOrInsertAll pool xs
    (pool, handle :: handles)

/-- Only the entries are written. -/
def serialize (format : SeqFormat α β) (pool : EntryPool α) : β := format.write pool.entries

def deserializeFrom (format : SeqFormat α β) (bytes : β) : Option (EntryPool α) := do
  let xs ← format.read bytes
  some (deserialize xs)

section Runs

variable {pool pool' : EntryPool α} {xs ys zs : List α} {x : α} {h : Handle}

@[simp] theorem getOrInsertAll_fst (pool : EntryPool α) (xs : List α) :
    (pool.getOrInsertAll xs).1 = pool.internAll xs := by
  induction xs generalizing pool with
  | nil => rfl
  | cons x xs ih => exact ih _

theorem getOrInsertAll_cons (pool : EntryPool α) (x : α) (xs : List α) :
    (pool.getOrInsertAll (x :: xs)).2 =
      (pool.getOrInsert x).2 :: ((pool.getOrInsert x).1.getOrInsertAll xs).2 := rfl

/-- The pool of a run holds the values that were given to it, each once. -/
theorem entries_perm_dedup (xs : List α) : (new.internAll xs).entries.Perm xs.dedup := by
  refine (List.perm_ext_iff_of_nodup (nodup _) (List.nodup_dedup xs)).mpr fun x => ?_
  rw [mem_internAll, List.mem_dedup]
  simp [new]

theorem fits_internAll (h : xs.dedup.length ≤ handleCount) : (new.internAll xs).Fits := by
  rw [Fits, (entries_perm_dedup xs).length_eq]
  exact h

/-- Positions are handles as long as there are enough of these. -/
theorem toNat_toHandle_of_lt (fits : pool.Fits) {i : Nat} (hi : i < pool.entries.length) :
    (toHandle i).toNat = i := by
  rw [toHandle_toNat, Nat.mod_eq_of_lt (Nat.lt_of_lt_of_le hi fits)]

/-- The map leads to a handle exactly where the list holds the value there. -/
theorem get_eq_some_iff (fits : pool.Fits) :
    pool.get x = some h ↔ pool.entries[h.toNat]? = some x := by
  constructor
  · intro hget
    have hmem : x ∈ pool.entries := by
      by_contra hne
      rw [get_eq_none.mpr hne] at hget
      cases hget
    rw [get_of_mem hmem] at hget
    cases hget
    exact lookup_handleOf fits hmem
  · intro hlookup
    have hmem := lookup_mem hlookup
    rw [get_of_mem hmem]
    exact congrArg some (lookup_injective (lookup_handleOf fits hmem) hlookup)

theorem lookup_of_grows (grows : pool.entries <+: pool'.entries) (hx : pool.lookup h = some x) :
    pool'.lookup h = some x := by
  obtain ⟨hlt, -⟩ := List.getElem?_eq_some_iff.mp hx
  exact (List.prefix_iff_getElem?.mp grows _ hlt).trans
    ((List.getElem?_eq_getElem hlt).symm.trans hx)

/-- A handle leads to the value that it was returned for, whatever comes later. -/
theorem getOrInsertAll_lookup (fits : (pool.internAll xs).Fits) :
    List.Forall₂ (fun h x => (pool.internAll xs).lookup h = some x) (pool.getOrInsertAll xs).2
      xs := by
  induction xs generalizing pool with
  | nil => exact .nil
  | cons x xs ih =>
    rw [getOrInsertAll_cons]
    refine .cons ?_ (ih fits)
    have grows := internAll_grows (pool.getOrInsert x).1 xs
    have hmem : x ∈ (pool.getOrInsert x).1.entries := mem_getOrInsert.mpr (.inr rfl)
    have hfits : (pool.getOrInsert x).1.Fits := Nat.le_trans grows.length_le fits
    rw [getOrInsert_handle]
    exact lookup_of_grows grows (lookup_handleOf hfits hmem)

theorem deserialize_entries (pool : EntryPool α) :
    (deserialize pool.entries).entries = pool.entries :=
  internAll_of_nodup pool.nodup

end Runs

/-- List and map are inverses of each other. -/
structure Coherent (pool : EntryPool α) : Prop where
  nodup : pool.entries.Nodup
  map : ∀ x h, pool.entryMap.lookup x = some h ↔ pool.entries[h.toNat]? = some x
  all : ∀ i x, pool.entries[i]? = some x → (toHandle i).toNat = i
  lookup_get : ∀ x h, pool.get x = some h → pool.lookup h = some x
  get_lookup : ∀ x h, pool.lookup h = some x → pool.get x = some h

theorem coherent {pool : EntryPool α} (fits : pool.Fits) : pool.Coherent where
  nodup := pool.nodup
  map _ _ := get_eq_some_iff fits
  all _ _ hi := toNat_toHandle_of_lt fits (List.getElem?_eq_some_iff.mp hi).1
  lookup_get _ _ := (get_eq_some_iff fits).mp
  get_lookup _ _ := (get_eq_some_iff fits).mpr

theorem entry_pool_runs_coherent (xs : List α) (few : xs.dedup.length ≤ handleCount)
    (format : SeqFormat α β)
    (reads_back : format.read (format.write (new.getOrInsertAll xs).1.entries) =
      some (new.getOrInsertAll xs).1.entries) :
    (new.getOrInsertAll xs).1.Coherent ∧
      List.Forall₂ (fun h x => (new.getOrInsertAll xs).1.lookup h = some x)
        (new.getOrInsertAll xs).2 xs ∧
      (∀ ys zs, xs = ys ++ zs → ∀ h x, (new.getOrInsertAll ys).1.lookup h = some x →
        (new.getOrInsertAll xs).1.lookup h = some x) ∧
      ∃ pool, deserializeFrom format ((new.getOrInsertAll xs).1.serialize format) = some pool ∧
        ∀ h, pool.lookup h = (new.getOrInsertAll xs).1.lookup h := by
  have fits := fits_internAll few
  rw [getOrInsertAll_fst]
  refine ⟨coherent fits, getOrInsertAll_lookup fits, ?_, ?_⟩
  · intro ys zs hsplit h x hx
    rw [getOrInsertAll_fst] at hx
    rw [hsplit, internAll_append]
    exact lookup_of_grows (internAll_grows _ zs) hx
  · rw [getOrInsertAll_fst] at reads_back
    refine ⟨deserialize (new.internAll xs).entries, ?_, fun h => ?_⟩
    · rw [deserializeFrom, serialize, reads_back]
      rfl
    · rw [lookup, deserialize_entries, lookup]

/-- The object pool of an index as MessagePack. -/
def objectFormat : SeqFormat ObjectChecksum (List UInt8) where
  write := messagePackWriter.objectPool
  read := fun bytes => (messagePack.objectPool bytes).map fun decoded => decoded.1.elems

theorem objectFormat_reads_back {checksums : List ObjectChecksum}
    (h : checksums.length < handleCount) :
    objectFormat.read (objectFormat.write checksums) = some checksums := by
  have hread := messagePack_readBack.objectPool ⟨checksums, h⟩ []
  rw [List.append_nil] at hread
  exact congrArg (Option.map fun decoded => decoded.1.elems) hread

namespace PoolSample

def first : ObjectChecksum := ⟨List.replicate 20 1, List.length_replicate⟩

/-- The first value comes once more after another one. -/
def values : List ObjectChecksum := [first, .zero, first]

theorem values_few : values.dedup.length ≤ handleCount :=
  Nat.le_trans (List.dedup_sublist values).length_le (by simp [values, handleCount])

theorem entries_few : (new.getOrInsertAll values).1.entries.length < handleCount := by
  rw [getOrInsertAll_fst, (entries_perm_dedup values).length_eq]
  exact Nat.lt_of_le_of_lt (List.dedup_sublist values).length_le (by simp [values, handleCount])

end PoolSample

open PoolSample in
theorem entry_pool_runs_coherent_objects :
    (new.getOrInsertAll values).1.Coherent ∧
      List.Forall₂ (fun h x => (new.getOrInsertAll values).1.lookup h = some x)
        (new.getOrInsertAll values).2 values ∧
      (∀ ys zs, values = ys ++ zs → ∀ h x, (new.getOrInsertAll ys).1.lookup h = some x →
        (new.getOrInsertAll values).1.lookup h = some x) ∧
      ∃ pool, deserializeFrom objectFormat
          ((new.getOrInsertAll values).1.serialize objectFormat) = some pool ∧
        ∀ h, pool.lookup h = (new.getOrInsertAll values).1.lookup h :=
  entry_pool_runs_coherent values values_few objectFormat (objectFormat_reads_back entries_few)

end EntryPool

end Elfshaker.Format
