import Elfshaker.Format.Identity
import Elfshaker.Format.MessagePack
import Elfshaker.Format.PushSnapshot
import Elfshaker.Format.Serialize

namespace Elfshaker.Format

open Elfshaker.Library

namespace PackIndex

/-- The metadata table has a record for each object and no other, as far as there
are handles. -/
def Aligned (index : PackIndex) : Prop :=
  ∀ h : Handle, (index.objectMetadata.lookup h).isSome ↔ h.toNat < index.objectPool.entries.length

/-- Handles lead to the same in both indexes. -/
structure SameTables (index index' : PackIndex) : Prop where
  paths : index'.pathPool.entries = index.pathPool.entries
  objects : index'.objectPool.entries = index.objectPool.entries
  metadata : ∀ h, index'.objectMetadata.lookup h = index.objectMetadata.lookup h

/-- The same snapshots over the same tables. -/
structure Agrees (index index' : PackIndex) : Prop extends SameTables index index' where
  tags : index'.snapshotTags = index.snapshotTags
  deltas : index'.snapshotDeltas = index.snapshotDeltas

theorem aligned_new : Aligned .new := by
  intro h
  simp [new, EntryPool.new]

theorem entryToHandle_aligned {index : PackIndex} (h : index.Aligned) (e : FileEntry) :
    (index.entryToHandle e).1.Aligned := by
  intro k
  have hobjects : (index.entryToHandle e).1.objectPool.entries =
      (index.objectPool.getOrInsert e.checksum).1.entries := rfl
  rw [entryToHandle_metadata, hobjects]
  by_cases hmem : e.checksum ∈ index.objectPool.entries
  · rw [EntryPool.getOrInsert_of_mem hmem]
    by_cases hk : k = index.objectPool.handleOf e.checksum
    · have hlt := List.idxOf_lt_length_iff.mpr hmem
      have hle := Nat.mod_le (index.objectPool.entries.idxOf e.checksum) handleCount
      rw [hk, AList.lookup_insert, EntryPool.handleOf, toHandle_toNat]
      simp only [Option.isSome_some, true_iff]
      omega
    · rw [AList.lookup_insert_ne hk]
      exact h k
  · rw [EntryPool.getOrInsert_of_notMem hmem]
    have hlength : (index.objectPool.push e.checksum hmem).entries.length =
        index.objectPool.entries.length + 1 := by
      simp [EntryPool.push]
    rw [hlength]
    by_cases hk : k = toHandle index.objectPool.entries.length
    · have hle := Nat.mod_le index.objectPool.entries.length handleCount
      rw [hk, AList.lookup_insert, toHandle_toNat]
      simp only [Option.isSome_some, true_iff]
      omega
    · rw [AList.lookup_insert_ne hk, h k]
      have hne : k.toNat ≠ index.objectPool.entries.length % handleCount := by
        intro heq
        rw [← toHandle_toNat] at heq
        exact hk (UInt32.toNat.inj heq)
      have hlt : k.toNat < handleCount := k.toNat_lt
      -- where the handles have run out, every one of them is below the length
      rcases Nat.lt_or_ge index.objectPool.entries.length handleCount with hfit | hfull
      · rw [Nat.mod_eq_of_lt hfit] at hne
        omega
      · omega

theorem entriesToHandles_aligned {index : PackIndex} (h : index.Aligned) (entries : List FileEntry) :
    (index.entriesToHandles entries).1.Aligned := by
  induction entries generalizing index with
  | nil => exact h
  | cons e entries ih => exact ih (entryToHandle_aligned h e)

theorem pushSnapshot_aligned {ord : IterOrder FileHandle} {index index' : PackIndex} {tag : String}
    {input : List FileEntry} (h : index.Aligned)
    (hpush : index.pushSnapshot ord tag input = .ok index') : index'.Aligned := by
  unfold pushSnapshot at hpush
  split_ifs at hpush
  · cases hpush
  · obtain ⟨_, -, hindex⟩ := Exec.bind_eq_ok.mp hpush
    cases hindex
    exact entriesToHandles_aligned h input

end PackIndex

theorem pushAll_aligned {index index' : PackIndex} {pushes : List Push} (h : index.Aligned)
    (hpushes : pushAll index pushes = .ok index') : index'.Aligned := by
  induction pushes generalizing index with
  | nil =>
    cases hpushes
    exact h
  | cons push pushes ih =>
    obtain ⟨mid, hmid, hpushes⟩ := Exec.bind_eq_ok.mp hpushes
    exact ih (PackIndex.pushSnapshot_aligned h hmid) hpushes

/-- A sorted list of the numbers below a bound, each once, counts up to it. -/
theorem eq_range_of_sorted {ns : List Nat} {m : Nat} (sorted : ns.Pairwise (· ≤ ·))
    (nodup : ns.Nodup) (mem : ∀ n, n ∈ ns ↔ n < m) : ns = List.range m := by
  have hperm : ns.Perm (List.range m) := by
    rw [List.perm_ext_iff_of_nodup nodup List.nodup_range]
    intro n
    rw [mem, List.mem_range]
  have hrange : (List.range m).Pairwise (· ≤ ·) := List.pairwise_lt_range.imp le_of_lt
  exact hperm.eq_of_pairwise (fun a b _ _ hab hba => le_antisymm hab hba) sorted hrange

namespace PackIndex

/-- The metadata records in the order they are written in. -/
def sortedMetadata (index : PackIndex) : List (Sigma fun _ : Handle => ObjectMetadata) :=
  index.objectMetadata.entries.insertionSort fun a b => a.1 ≤ b.1

theorem sortedMetadata_keys {index : PackIndex} (h : index.Aligned) :
    index.sortedMetadata.map (fun entry => entry.1.toNat) =
      List.range (min index.objectPool.entries.length handleCount) := by
  have hperm : index.sortedMetadata.Perm index.objectMetadata.entries := List.perm_insertionSort _ _
  apply eq_range_of_sorted
  · have hsorted : index.sortedMetadata.Pairwise fun a b => a.1 ≤ b.1 :=
      List.pairwise_insertionSort _ _
    rw [List.pairwise_map]
    exact hsorted.imp fun hle => hle
  · have hkeys : (index.sortedMetadata.map fun entry => entry.1).Nodup := by
      rw [(hperm.map _).nodup_iff]
      exact index.objectMetadata.nodupKeys
    have hnodup := hkeys.map fun a b hab => UInt32.toNat.inj hab
    rwa [List.map_map] at hnodup
  · intro n
    rw [List.mem_map, lt_min_iff]
    constructor
    · rintro ⟨⟨handle, metadata⟩, hentry, rfl⟩
      have hlookup := AList.mem_lookup_iff.mpr (hperm.mem_iff.mp hentry)
      exact ⟨(h handle).mp (Option.isSome_of_mem hlookup), handle.toNat_lt⟩
    · rintro ⟨hobjects, hhandles⟩
      have hn : (toHandle n).toNat = n := by
        rw [toHandle_toNat, Nat.mod_eq_of_lt hhandles]
      have hsome := (h (toHandle n)).mpr (by rwa [hn])
      obtain ⟨metadata, hlookup⟩ := Option.isSome_iff_exists.mp hsome
      exact ⟨⟨toHandle n, metadata⟩, hperm.mem_iff.mpr (AList.mem_lookup_iff.mp hlookup), hn⟩

/-- The record written at the position of a handle is the record of the handle. -/
theorem metadataValues_getElem? {index : PackIndex} (h : index.Aligned) (handle : Handle) :
    index.metadataValues[handle.toNat]? = index.objectMetadata.lookup handle := by
  have hkeys := sortedMetadata_keys h
  have hvalues : index.metadataValues = index.sortedMetadata.map fun entry => entry.2 := rfl
  rw [hvalues, List.getElem?_map]
  cases hlookup : index.objectMetadata.lookup handle with
  | none =>
    have hout : ¬ handle.toNat < index.objectPool.entries.length := by
      rw [← h handle, hlookup]
      simp
    have hlength := congrArg List.length hkeys
    rw [List.length_map, List.length_range] at hlength
    rw [List.getElem?_eq_none (by omega), Option.map_none]
  | some metadata =>
    have hin : handle.toNat < index.objectPool.entries.length := by
      rw [← h handle, hlookup]
      rfl
    have hat := congrArg (fun keys => keys[handle.toNat]?) hkeys
    simp only [List.getElem?_map] at hat
    have hbound : handle.toNat < min index.objectPool.entries.length handleCount :=
      lt_min hin handle.toNat_lt
    rw [List.getElem?_range hbound, Option.map_eq_some_iff] at hat
    obtain ⟨⟨handle', metadata'⟩, hentry, heq⟩ := hat
    have hsame : handle' = handle := UInt32.toNat.inj heq
    subst hsame
    have hmem : ⟨handle', metadata'⟩ ∈ index.objectMetadata.entries :=
      (List.perm_insertionSort _ _).mem_iff.mp (List.mem_of_getElem? hentry)
    rw [AList.mem_lookup_iff.mpr hmem] at hlookup
    rw [hentry, Option.map_some, hlookup]

/-- What is loaded from the file of an index is what was written. -/
theorem reloaded_agrees {index : PackIndex} (h : index.Aligned) : index.Agrees index.reloaded where
  tags := rfl
  deltas := rfl
  paths := EntryPool.internAll_of_nodup (by simpa [EntryPool.new] using index.pathPool.nodup)
  objects := EntryPool.internAll_of_nodup (by simpa [EntryPool.new] using index.objectPool.nodup)
  metadata := by
    intro handle
    have hlength := congrArg List.length (sortedMetadata_keys h)
    rw [List.length_map, List.length_range] at hlength
    have hshort : index.metadataValues.length ≤ handleCount := by
      have hvalues : index.metadataValues.length = index.sortedMetadata.length := List.length_map _
      omega
    have hreloaded : index.reloaded.objectMetadata = metadataTable index.metadataValues := rfl
    rw [hreloaded, lookup_metadataTable hshort, metadataValues_getElem? h]

section Agrees

variable {index index' : PackIndex}

theorem SameTables.pathPool_lookup (h : index.SameTables index') (handle : Handle) :
    index'.pathPool.lookup handle = index.pathPool.lookup handle := by
  rw [EntryPool.lookup, h.paths, EntryPool.lookup]

theorem SameTables.objectPool_lookup (h : index.SameTables index') (handle : Handle) :
    index'.objectPool.lookup handle = index.objectPool.lookup handle := by
  rw [EntryPool.lookup, h.objects, EntryPool.lookup]

theorem SameTables.handleToEntry (h : index.SameTables index') (handle : FileHandle) :
    index'.handleToEntry handle = index.handleToEntry handle := by
  simp only [PackIndex.handleToEntry, h.pathPool_lookup, h.objectPool_lookup, h.metadata]

theorem SameTables.entriesFromHandles (h : index.SameTables index') (handles : List FileHandle) :
    index'.entriesFromHandles handles = index.entriesFromHandles handles := by
  rw [PackIndex.entriesFromHandles, PackIndex.entriesFromHandles, funext h.handleToEntry]

theorem Agrees.resolveSnapshot (h : index.Agrees index') (ord : IterOrder FileHandle)
    (tag : String) : index'.resolveSnapshot (ε := ε) ord tag = index.resolveSnapshot ord tag := by
  rw [PackIndex.resolveSnapshot, PackIndex.resolveSnapshot, h.tags, h.deltas]

theorem Agrees.computeSnapshotChecksum (h : index.Agrees index')
    (sha1 : List UInt8 → ObjectChecksum) (ord : IterOrder FileHandle) (tag : String) :
    index'.computeSnapshotChecksum (ε := ε) sha1 ord tag =
      index.computeSnapshotChecksum sha1 ord tag := by
  have hentries : index'.identityEntries (ε := ε) ord tag = index.identityEntries ord tag := by
    simp only [identityEntries, h.resolveSnapshot, h.entriesFromHandles]
  rw [PackIndex.computeSnapshotChecksum, PackIndex.computeSnapshotChecksum, hentries]

end Agrees

/-- Some change of the index is about a symbolic link. -/
def HasSymlink (index : PackIndex) : Prop :=
  ∃ delta ∈ index.snapshotDeltas, ∃ handle ∈ delta.added ++ delta.removed,
    handle.metadata.isSymlink

theorem requiredFeaturesOf_ne_zero {index : PackIndex} :
    index.requiredFeaturesOf ≠ 0 ↔ index.HasSymlink := by
  have hany : (index.snapshotDeltas.flatMap fun delta => delta.added ++ delta.removed).any
      (fun handle => handle.metadata.isSymlink) = true ↔ index.HasSymlink := by
    simp only [HasSymlink, List.any_eq_true, List.mem_flatMap]
    constructor
    · rintro ⟨handle, ⟨delta, hdelta, hhandle⟩, hlink⟩
      exact ⟨delta, hdelta, handle, hhandle, hlink⟩
    · rintro ⟨delta, hdelta, handle, hhandle, hlink⟩
      exact ⟨handle, ⟨delta, hdelta, hhandle⟩, hlink⟩
  rw [requiredFeaturesOf, ← hany]
  split_ifs with hlink
  · simp only [hlink, iff_true]
    decide
  · simp only [hlink]
    simp

end PackIndex

namespace SavedSample

open PackIndex

/-- A snapshot with a file and a link of one object. -/
def pushes : List Push :=
  [⟨.insertion, "t", [⟨.a, .zero, ⟨0, 3⟩, .regular 420⟩,
    ⟨.b, .zero, ⟨0, 3⟩, .symlink .portableUtf8 .file⟩]⟩]

def index : PackIndex :=
  match pushAll .new pushes with
  | .ok index => index
  | .error _ => .new

theorem built : pushAll .new pushes = .ok index := rfl

theorem writable : index.Writable where
  tags := ⟨by decide, by decide⟩
  deltas := by decide
  added := by decide
  removed := by decide
  paths := by decide
  pathBytes := by decide
  objects := by decide
  metadata := by decide

theorem library : index.RoundTrips messagePackWriter messagePack :=
  roundTrips_of_writable messagePack_readBack writable

end SavedSample

end Elfshaker.Format
