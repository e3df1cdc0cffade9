import Elfshaker.Format.Reload
import Elfshaker.Packs.CreatePack

namespace Elfshaker.Packs

open Elfshaker.Library Elfshaker.Format Elfshaker.Format.PackIndex

/-- An index that pushes have built, and that may have been laid out for a pack. -/
inductive Built (pushes : List Push) : PackIndex → Prop where
  | pushed {index : PackIndex} (h : pushAll .new pushes = .ok index) : Built pushes index
  | laidOut {index packed : PackIndex} {ordering : List Handle} (h : pushAll .new pushes = .ok index)
      (layout : computeObjectOffsetsAndOrdering (ε := PackError) index = .ok (packed, ordering)) :
      Built pushes packed

theorem assignOffsets_isSome {table table' : MetadataTable} {offset : UInt64}
    {items : List (UInt64 × Handle)} (h : assignOffsets (ε := ε) table offset items = .ok table')
    (handle : Handle) : (table'.lookup handle).isSome ↔ (table.lookup handle).isSome := by
  induction items generalizing table offset with
  | nil =>
    cases h
    rfl
  | cons item items ih =>
    obtain ⟨size, first⟩ := item
    obtain ⟨metadata, hmetadata, h⟩ := Exec.bind_eq_ok.mp h
    obtain ⟨next, -, h⟩ := Exec.bind_eq_ok.mp h
    rw [Exec.unwrap_eq_ok] at hmetadata
    rw [ih h]
    by_cases heq : handle = first
    · rw [heq, AList.lookup_insert, hmetadata]
      simp
    · rw [AList.lookup_insert_ne heq]

theorem computeObjectOffsetsAndOrdering_aligned {index packed : PackIndex} {ordering : List Handle}
    (aligned : index.Aligned)
    (h : computeObjectOffsetsAndOrdering (ε := ε) index = .ok (packed, ordering)) :
    packed.Aligned := by
  obtain ⟨table, htable, h⟩ := Exec.bind_eq_ok.mp h
  cases h
  intro handle
  exact (assignOffsets_isSome htable handle).trans (aligned handle)

theorem Built.aligned {pushes : List Push} {index : PackIndex} (built : Built pushes index) :
    index.Aligned := by
  cases built with
  | pushed h => exact pushAll_aligned aligned_new h
  | laidOut h layout =>
    exact computeObjectOffsetsAndOrdering_aligned (pushAll_aligned aligned_new h) layout

/-- The file of an index that was built by pushes loads, and every handle, snapshot
and checksum means what it did before. -/
theorem saved_index_reloads {pushes : List Push} {index : PackIndex} (built : Built pushes index)
    {writer : RmpWriter} {rmp : Rmp} (library : index.RoundTrips writer rmp) :
    ∃ loaded, parse rmp (index.serialize writer) = .ok loaded ∧
      loaded.snapshotTags = index.snapshotTags ∧
      loaded.snapshotDeltas = index.snapshotDeltas ∧
      (∀ handle, loaded.pathPool.lookup handle = index.pathPool.lookup handle) ∧
      (∀ handle, loaded.objectPool.lookup handle = index.objectPool.lookup handle) ∧
      (∀ handle, loaded.objectMetadata.lookup handle = index.objectMetadata.lookup handle) ∧
      (∀ ord tag, loaded.resolveSnapshot (ε := PackError) ord tag =
        index.resolveSnapshot ord tag) ∧
      (∀ handles, loaded.entriesFromHandles handles = index.entriesFromHandles handles) ∧
      (∀ sha1 ord tag, loaded.computeSnapshotChecksum (ε := PackError) sha1 ord tag =
        index.computeSnapshotChecksum sha1 ord tag) ∧
      (index.requiredFeaturesOf ≠ 0 ↔ index.HasSymlink) := by
  have agrees := reloaded_agrees built.aligned
  exact ⟨index.reloaded, library.parse_serialize, agrees.tags, agrees.deltas,
    agrees.pathPool_lookup, agrees.objectPool_lookup, agrees.metadata, agrees.resolveSnapshot,
    agrees.entriesFromHandles, agrees.computeSnapshotChecksum, requiredFeaturesOf_ne_zero⟩

theorem saved_index_reloads_link :
    ∃ loaded, parse messagePack (SavedSample.index.serialize messagePackWriter) = .ok loaded ∧
      loaded.snapshotTags = ["t"] ∧ SavedSample.index.requiredFeaturesOf ≠ 0 := by
  obtain ⟨loaded, hparse, htags, -⟩ :=
    saved_index_reloads (.pushed SavedSample.built) SavedSample.library
  exact ⟨loaded, hparse, htags, by decide⟩

end Elfshaker.Packs
