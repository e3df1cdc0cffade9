import Elfshaker.Packs.SavedIndex
import Elfshaker.Packs.SoundStore

namespace Elfshaker.Packs

open Elfshaker.Library Elfshaker.Format Elfshaker.Store

section Gathered

variable {crates : Crates} {zstd : Zstd} {content : ObjectChecksum → List UInt8}
  {torn : PackId → Prop} {dd : DataDir} {index : PackIndex}

/-- An index that was made out of entries of the loose indexes there are, and that is
not longer than a file can say. -/
structure Gathered (crates : Crates) (dd : DataDir) (index : PackIndex) : Prop where
  pushes : ∃ pushes, pushAll .new pushes = .ok index ∧
    ∀ push ∈ pushes, ∀ e ∈ push.entries, ∃ id loaded handle,
      (Text.stripPrefix loosePrefix id.name).isSome = true ∧
        loadIndex crates dd id = .ok loaded ∧ loaded.handleToEntry handle = .ok e
  writable : index.Writable

/-- An entry of a loose index that is described has an object, or needs none. -/
theorem Sound.entry_held (sound : Sound crates zstd content torn dd)
    (regular : ∀ id, torn id → Text.stripPrefix loosePrefix id.name = none) {id : PackId}
    {loaded : PackIndex} {handle : FileHandle} {e : FileEntry}
    (hloose : (Text.stripPrefix loosePrefix id.name).isSome = true)
    (hload : loadIndex crates dd id = .ok loaded) (hentry : loaded.handleToEntry handle = .ok e) :
    Placeholder e.checksum e.objectMetadata ∨
      HeldLoose crates.sha1 dd e.checksum e.objectMetadata := by
  obtain ⟨bytes, hopen, hparse⟩ := loadIndex_eq_ok.mp hload
  have hbytes : bytes ≠ [] := by
    rintro rfl
    rw [PackIndex.parse_empty] at hparse
    cases hparse
  have htorn : ¬ torn id := by
    intro h
    rw [regular id h] at hloose
    cases hloose
  obtain ⟨loaded', hparse', hpresent⟩ :=
    sound.indexes id bytes (openIndex_eq_ok.mp hopen).2 hbytes htorn
  rw [hparse] at hparse'
  cases hparse'
  rw [DataPresent, if_pos hloose] at hpresent
  obtain ⟨-, hchecksum, hmetadata, -⟩ := PackIndex.handleToEntry_eq_ok.mp hentry
  obtain ⟨metadata, hmetadata', hheld⟩ := hpresent _ _ hchecksum
  rw [hmetadata] at hmetadata'
  cases hmetadata'
  exact hheld

/-- The objects of such an index are in a sound directory. -/
theorem Gathered.looseObjects (h : Gathered crates dd index)
    (sound : Sound crates zstd content torn dd)
    (regular : ∀ id, torn id → Text.stripPrefix loosePrefix id.name = none)
    (empty : content .zero = []) :
    LooseObjects crates.sha1 (openLooseObject dd) index content := by
  obtain ⟨pushes, hpushes, hentries⟩ := h.pushes
  have hheld : ∀ push ∈ pushes, ∀ e ∈ push.entries, Placeholder e.checksum e.objectMetadata ∨
      HeldLoose crates.sha1 dd e.checksum e.objectMetadata := by
    intro push hpush e he
    obtain ⟨id, loaded, handle, hloose, hload, hentry⟩ := hentries push hpush e he
    exact sound.entry_held regular hloose hload hentry
  have hcontent : ∀ checksum metadata, HeldLoose crates.sha1 dd checksum metadata →
      openLooseObject dd checksum = .ok (content checksum) ∧
        crates.sha1 (content checksum) = checksum ∧
        (content checksum).length = metadata.size.toNat := by
    rintro checksum metadata ⟨bytes, hopen, hsha, hlength⟩
    have harchived := (sound.objects _ _ (openLooseObject_eq_ok.mp hopen)).2.content
    rw [hsha] at harchived
    rw [harchived]
    exact ⟨hopen, hsha, hlength⟩
  have hobject : ∀ checksum ∈ index.objectPool.entries, checksum ≠ .zero →
      ∃ metadata, HeldLoose crates.sha1 dd checksum metadata := by
    intro checksum hchecksum hzero
    obtain ⟨push, hpush, e, he, rfl⟩ := (pushed_of_pushAll hpushes).1.objects checksum hchecksum
    rcases hheld push hpush e he with hplaceholder | hheld
    · exact absurd hplaceholder.1 hzero
    · exact ⟨e.objectMetadata, hheld⟩
  have hrecords := pushAll_records (R := fun checksum metadata => Placeholder checksum metadata ∨
    HeldLoose crates.sha1 dd checksum metadata) PackIndex.records_new hpushes
      h.writable.objects.le hheld
  refine ⟨empty, ?_, ?_, ?_⟩
  · intro checksum hchecksum hzero
    obtain ⟨metadata, hheld⟩ := hobject checksum hchecksum hzero
    exact (hcontent checksum metadata hheld).1
  · intro checksum hchecksum hzero
    obtain ⟨metadata, hheld⟩ := hobject checksum hchecksum hzero
    exact (hcontent checksum metadata hheld).2.1
  · intro handle checksum metadata hchecksum hmetadata
    rcases hrecords handle checksum metadata hchecksum hmetadata with ⟨rfl, hsize⟩ | hheld
    · rw [empty, hsize]
      rfl
    · exact (hcontent checksum metadata hheld).2.2

end Gathered

section Pack

variable {crates : Crates} {packWriter : PackWriter} {content : ObjectChecksum → List UInt8}
  {torn : PackId → Prop} {writer : RmpWriter} {index : PackIndex} {opts : PackOptions}
  {pack : PackContent} {id : PackId} {dd : DataDir}

/-- A pack that holds the objects of an index, which can be saved and read back. -/
structure PackOf (crates : Crates) (packWriter : PackWriter)
    (content : ObjectChecksum → List UInt8) (index : PackIndex) (pack : PackContent) : Prop where
  packed : ∃ ordering contents, Packed packWriter.zstd index content pack ordering contents
  aligned : pack.index.Aligned
  writable : pack.index.Writable
  zero : content .zero = []
  sha1 : ∀ checksum ∈ index.objectPool.entries, checksum ≠ .zero →
    crates.sha1 (content checksum) = checksum

theorem compressPack_index {loose : ObjectChecksum → Exec IoError (List UInt8)}
    (h : compressPack packWriter.zstd loose index opts = .ok pack) :
    ∃ ordering, computeObjectOffsetsAndOrdering (ε := IoError) index =
      .ok (pack.index, ordering) := by
  obtain ⟨⟨packed, ordering⟩, hordering, h⟩ := Exec.bind_eq_ok.mp h
  obtain ⟨_, -, h⟩ := Exec.bind_eq_ok.mp h
  obtain ⟨_, -, h⟩ := Exec.bind_eq_ok.mp h
  obtain ⟨_, -, h⟩ := Exec.bind_eq_ok.mp h
  obtain ⟨_, -, h⟩ := Exec.bind_eq_ok.mp h
  cases h
  exact ⟨ordering, hordering⟩

/-- Laying out the objects leaves the other tables alone. -/
theorem writable_laidOut {packed : PackIndex} {ordering : List Handle}
    (h : computeObjectOffsetsAndOrdering (ε := IoError) index = .ok (packed, ordering))
    (aligned : packed.Aligned) (writable : index.Writable) : packed.Writable := by
  obtain ⟨table, -, h⟩ := Exec.bind_eq_ok.mp h
  cases h
  refine ⟨writable.tags, writable.deltas, writable.added, writable.removed, writable.paths,
    writable.pathBytes, writable.objects, ?_⟩
  rw [PackIndex.sortedMetadata_length aligned]
  exact Nat.lt_of_le_of_lt (Nat.min_le_left _ _) writable.objects

theorem packOf_compressPack (loose : LooseObjects crates.sha1 (openLooseObject dd) index content)
    (aligned : index.Aligned) (writable : index.Writable)
    (h : compressPack packWriter.zstd (openLooseObject dd) index opts = .ok pack) :
    PackOf crates packWriter content index pack := by
  obtain ⟨ordering, hordering⟩ := compressPack_index h
  have haligned := computeObjectOffsetsAndOrdering_aligned aligned hordering
  exact ⟨compressPack_ok loose h, haligned, writable_laidOut hordering haligned writable,
    loose.zero, loose.sha1⟩

/-- What is saved of such a pack is described by the pack file beside it. -/
theorem PackOf.described (laws : writer.ReadBackBy crates.rmp) (hzstd : packWriter.zstd.Inverts)
    (h : PackOf crates packWriter content index pack)
    (hregular : Text.stripPrefix loosePrefix id.name = none)
    (hfile : (id.packPath, pack.file packWriter) ∈ dd.packs.files) :
    Described crates packWriter.zstd Placeholder dd id (pack.index.serialize writer) := by
  have agrees := PackIndex.reloaded_agrees h.aligned
  refine ⟨_, (PackIndex.roundTrips_of_writable laws h.writable).parse_serialize, ?_⟩
  have hnone : ¬ (Text.stripPrefix loosePrefix id.name).isSome = true := by simp [hregular]
  rw [DataPresent, if_neg hnone]
  refine ⟨packWriter.header pack.header, pack.frames.flatten, hfile, ?_⟩
  intro handle checksum hlookup
  rw [agrees.objectPool_lookup] at hlookup
  obtain ⟨metadata, hmetadata⟩ := Option.isSome_iff_exists.mp ((h.aligned handle).mpr
    (List.getElem?_eq_some_iff.mp hlookup).1)
  refine ⟨metadata, by rw [agrees.metadata, hmetadata], ?_⟩
  obtain ⟨ordering, contents, packed⟩ := h.packed
  have hplaced := packed.laidOut.placed handle metadata hmetadata
  have hordering : ordering ≠ [] := by
    obtain ⟨before, after, hsplit, -⟩ := hplaced
    rw [hsplit]
    simp
  obtain ⟨compression, hcompressed⟩ := packed.compressed
  have hstream : packWriter.zstd.decompress pack.frames.flatten =
      ordering.flatMap (blob index content) := by
    rw [hzstd compression contents pack.frames (packed.frames hordering) hcompressed,
      packed.flatten]
  have hwithin := hplaced.within packed.lengths
  have hslice := hplaced.slice_eq packed.lengths
  rw [packed.laidOut.objectPool] at hlookup
  rw [blob, hlookup, Option.map_some, Option.getD_some] at hslice
  by_cases hzero : checksum = .zero
  · left
    refine ⟨hzero, UInt64.toNat.inj ?_⟩
    have hlength := Extent.slice_length hwithin
    rw [hslice, hzero, h.zero] at hlength
    exact hlength.symm
  · right
    rw [HeldAt, hstream, hslice]
    exact ⟨hwithin, h.sha1 checksum (EntryPool.lookup_mem hlookup) hzero⟩

end Pack

end Elfshaker.Packs
