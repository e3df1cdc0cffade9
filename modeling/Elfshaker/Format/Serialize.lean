import Elfshaker.Format.Parse
import Elfshaker.Library.Bytes
import Mathlib.Data.List.Sort

namespace Elfshaker.Format

open Elfshaker.Library

/-- The MessagePack encoder, one writer for each type an index is made of. -/
structure RmpWriter where
  arrayLen : UInt32 → List UInt8
  requiredFeatures : UInt64 → List UInt8
  snapshotTags : List String → List UInt8
  snapshotDeltas : List (ChangeSet FileHandle) → List UInt8
  pathPool : List (List UInt8) → List UInt8
  objectPool : List ObjectChecksum → List UInt8
  objectMetadata : List ObjectMetadata → List UInt8
  extensions : List OptionalExtension → List UInt8

/-- Tags that can be told from what follows them. -/
structure ShortTags (tags : List String) : Prop where
  length : tags.length < handleCount
  bytes : ∀ tag ∈ tags, tag.utf8ByteSize < handleCount

/-- What is written is read back where its lengths fit into the 32 bits they are
written in. -/
structure RmpWriter.ReadBackBy (writer : RmpWriter) (rmp : Rmp) : Prop where
  arrayLen : ∀ n rest, rmp.arrayLen (writer.arrayLen n ++ rest) = some (n, rest)
  requiredFeatures : ∀ features rest,
    rmp.requiredFeatures (writer.requiredFeatures features ++ rest) = some (features, rest)
  snapshotTags : ∀ tags rest, ShortTags tags →
    rmp.snapshotTags (writer.snapshotTags tags ++ rest) = some (tags, rest)
  snapshotDeltas : ∀ (deltas : WireSeq (WireChanges FileHandle)) rest,
    rmp.snapshotDeltas (writer.snapshotDeltas (deltas.elems.map WireChanges.deserialize) ++ rest) =
      some (deltas, rest)
  pathPool : ∀ (paths : WireSeq (WireSeq UInt8)) rest,
    rmp.pathPool (writer.pathPool (paths.elems.map WireSeq.elems) ++ rest) = some (paths, rest)
  objectPool : ∀ (objects : WireSeq ObjectChecksum) rest,
    rmp.objectPool (writer.objectPool objects.elems ++ rest) = some (objects, rest)
  objectMetadata : ∀ (metadata : WireSeq ObjectMetadata) rest,
    rmp.objectMetadata (writer.objectMetadata metadata.elems ++ rest) = some (metadata, rest)
  noExtensions : ∀ rest, rmp.extensions (writer.extensions [] ++ rest) = some ([], rest)

def writeVersion : Nat := 3

def writeMagic : List UInt8 :=
  magic ++ beBytes 4 writeVersion

namespace PackIndex

def requiredFeaturesOf (index : PackIndex) : UInt64 :=
  let handles := index.snapshotDeltas.flatMap fun delta => delta.added ++ delta.removed
  if handles.any fun handle => handle.metadata.isSymlink then featureSymlinks else 0

/-- The metadata of the objects in the order of their handles. -/
def metadataValues (index : PackIndex) : List ObjectMetadata :=
  (index.objectMetadata.entries.insertionSort fun a b => a.1 ≤ b.1).map fun entry => entry.2

/-- The fields of a version 3 file. Encoding into memory does not fail. -/
def serialize (writer : RmpWriter) (index : PackIndex) : List UInt8 :=
  writeMagic ++ (writer.arrayLen 7 ++
    (writer.requiredFeatures index.requiredFeaturesOf ++
      (writer.snapshotTags index.snapshotTags ++
        (writer.snapshotDeltas index.snapshotDeltas ++
          (writer.pathPool (index.pathPool.entries.map PackPath.bytes) ++
            (writer.objectPool index.objectPool.entries ++
              (writer.objectMetadata index.metadataValues ++
                (writer.extensions [] ++ []))))))))

/-- The library reads back the values that an index is written as, whatever
follows them. -/
structure RoundTrips (index : PackIndex) (writer : RmpWriter) (rmp : Rmp) : Prop where
  arrayLen : ∀ rest, rmp.arrayLen (writer.arrayLen 7 ++ rest) = some (7, rest)
  requiredFeatures : ∀ rest,
    rmp.requiredFeatures (writer.requiredFeatures index.requiredFeaturesOf ++ rest) =
      some (index.requiredFeaturesOf, rest)
  snapshotTags : ∀ rest,
    rmp.snapshotTags (writer.snapshotTags index.snapshotTags ++ rest) =
      some (index.snapshotTags, rest)
  snapshotDeltas : ∃ deltas : WireSeq (WireChanges FileHandle),
    deltas.elems.map WireChanges.deserialize = index.snapshotDeltas ∧ ∀ rest,
      rmp.snapshotDeltas (writer.snapshotDeltas index.snapshotDeltas ++ rest) =
        some (deltas, rest)
  pathPool : ∃ paths : WireSeq (WireSeq UInt8),
    paths.elems.map WireSeq.elems = index.pathPool.entries.map PackPath.bytes ∧ ∀ rest,
      rmp.pathPool (writer.pathPool (index.pathPool.entries.map PackPath.bytes) ++ rest) =
        some (paths, rest)
  objectPool : ∃ objects : WireSeq ObjectChecksum,
    objects.elems = index.objectPool.entries ∧ ∀ rest,
      rmp.objectPool (writer.objectPool index.objectPool.entries ++ rest) = some (objects, rest)
  objectMetadata : ∃ metadata : WireSeq ObjectMetadata,
    metadata.elems = index.metadataValues ∧ ∀ rest,
      rmp.objectMetadata (writer.objectMetadata index.metadataValues ++ rest) =
        some (metadata, rest)
  noExtensions : ∀ rest, rmp.extensions (writer.extensions [] ++ rest) = some ([], rest)

/-- No table of the index is longer than a file can say. -/
structure Writable (index : PackIndex) : Prop where
  tags : ShortTags index.snapshotTags
  deltas : index.snapshotDeltas.length < handleCount
  added : ∀ delta ∈ index.snapshotDeltas, delta.added.length < handleCount
  removed : ∀ delta ∈ index.snapshotDeltas, delta.removed.length < handleCount
  paths : index.pathPool.entries.length < handleCount
  pathBytes : ∀ path ∈ index.pathPool.entries, path.bytes.length < handleCount
  objects : index.objectPool.entries.length < handleCount
  metadata : index.objectMetadata.entries.length < handleCount

/-- The index that a file written from an index stands for. -/
def reloaded (index : PackIndex) : PackIndex :=
  fromParts index.snapshotTags index.snapshotDeltas (.deserialize index.pathPool.entries)
    (.deserialize index.objectPool.entries) index.metadataValues

theorem readMagic_writeMagic (bytes : List UInt8) :
    readMagic (writeMagic ++ bytes) = .ok (3, bytes) := by
  rfl

theorem decode_some {reader : Reader α} {bytes rest : List UInt8} {a : α}
    (h : reader bytes = some (a, rest)) : decode reader bytes = .ok (a, rest) := by
  rw [decode, h]
  rfl

variable {writer : RmpWriter} {rmp : Rmp} {index : PackIndex}

theorem readV3Tags_serialize (laws : writer.ReadBackBy rmp) (short : ShortTags index.snapshotTags)
    (rest : List UInt8) :
    readV3Tags rmp (writer.arrayLen 7 ++ (writer.requiredFeatures index.requiredFeaturesOf ++
        (writer.snapshotTags index.snapshotTags ++ rest))) =
      .ok (7, index.requiredFeaturesOf, index.snapshotTags, rest) := by
  have hfields : ¬ (7 : UInt32) < 2 := by decide
  simp only [readV3Tags, decode_some (laws.arrayLen _ _), Exec.ok_bind, if_neg hfields,
    decode_some (laws.requiredFeatures _ _), decode_some (laws.snapshotTags _ _ short)]

/-- The tags of a written index are read without its tables. -/
theorem loadOnlySnapshots_serialize (laws : writer.ReadBackBy rmp)
    (short : ShortTags index.snapshotTags) :
    loadOnlySnapshots rmp (index.serialize writer) = .ok index.snapshotTags := by
  have hversion : ¬ ((3 : UInt32) = 1 ∨ (3 : UInt32) = 2) := by decide
  simp only [loadOnlySnapshots, parseMode, serialize, readMagic_writeMagic, Exec.ok_bind,
    if_neg hversion, parseV3, readV3Tags_serialize laws short]

theorem exists_wireSeq {xs : List α} {f : β → α} (hlen : xs.length < handleCount)
    (h : ∀ x ∈ xs, ∃ y, f y = x) : ∃ seq : WireSeq β, seq.elems.map f = xs := by
  suffices ∃ ys : List β, ys.map f = xs by
    obtain ⟨ys, rfl⟩ := this
    exact ⟨⟨ys, by simpa using hlen⟩, rfl⟩
  clear hlen
  induction xs with
  | nil => exact ⟨[], rfl⟩
  | cons x xs ih =>
    obtain ⟨y, rfl⟩ := h x List.mem_cons_self
    obtain ⟨ys, rfl⟩ := ih fun z hz => h z (List.mem_cons_of_mem _ hz)
    exact ⟨y :: ys, rfl⟩

theorem deserializePath_bytes {bytes : WireSeq UInt8} {path : PackPath}
    (h : bytes.elems = path.bytes) : deserializePath bytes = .ok path := by
  rw [deserializePath, h, PackPath.new_bytes]

theorem metadataValues_length (index : PackIndex) :
    index.metadataValues.length = index.objectMetadata.entries.length := by
  rw [metadataValues, List.length_map, (List.perm_insertionSort _ _).length_eq]

/-- A library that reads back what is short reads back an index with short tables. -/
theorem roundTrips_of_writable (laws : writer.ReadBackBy rmp) (writable : index.Writable) :
    index.RoundTrips writer rmp where
  arrayLen := laws.arrayLen 7
  requiredFeatures := laws.requiredFeatures _
  snapshotTags := fun rest => laws.snapshotTags _ rest writable.tags
  snapshotDeltas := by
    obtain ⟨deltas, hdeltas⟩ := exists_wireSeq (f := WireChanges.deserialize) writable.deltas
      fun delta hdelta => ⟨⟨⟨delta.added, writable.added delta hdelta⟩,
        ⟨delta.removed, writable.removed delta hdelta⟩⟩, rfl⟩
    rw [← hdeltas]
    exact ⟨deltas, rfl, laws.snapshotDeltas deltas⟩
  pathPool := by
    have hlen : (index.pathPool.entries.map PackPath.bytes).length < handleCount := by
      simpa using writable.paths
    obtain ⟨paths, hpaths⟩ := exists_wireSeq (f := WireSeq.elems) hlen fun bytes hbytes => by
      obtain ⟨path, hpath, rfl⟩ := List.mem_map.mp hbytes
      exact ⟨⟨path.bytes, writable.pathBytes path hpath⟩, rfl⟩
    rw [← hpaths]
    exact ⟨paths, rfl, laws.pathPool paths⟩
  objectPool := ⟨⟨_, writable.objects⟩, rfl, laws.objectPool ⟨_, writable.objects⟩⟩
  objectMetadata := by
    have hlen : index.metadataValues.length < handleCount := by
      rw [metadataValues_length]
      exact writable.metadata
    exact ⟨⟨_, hlen⟩, rfl, laws.objectMetadata ⟨_, hlen⟩⟩
  noExtensions := laws.noExtensions

theorem RoundTrips.readTags (library : index.RoundTrips writer rmp) (rest : List UInt8) :
    readV3Tags rmp (writer.arrayLen 7 ++ (writer.requiredFeatures index.requiredFeaturesOf ++
        (writer.snapshotTags index.snapshotTags ++ rest))) =
      .ok (7, index.requiredFeaturesOf, index.snapshotTags, rest) := by
  have hfields : ¬ (7 : UInt32) < 2 := by decide
  simp only [readV3Tags, decode_some (library.arrayLen _), Exec.ok_bind, if_neg hfields,
    decode_some (library.requiredFeatures _), decode_some (library.snapshotTags _)]

theorem RoundTrips.readTables (library : index.RoundTrips writer rmp) :
    ∃ wire, readV3Tables rmp index.snapshotTags
        (writer.snapshotDeltas index.snapshotDeltas ++
          (writer.pathPool (index.pathPool.entries.map PackPath.bytes) ++
            (writer.objectPool index.objectPool.entries ++
              (writer.objectMetadata index.metadataValues ++
                (writer.extensions [] ++ []))))) = .ok wire ∧
      fromV3 wire = index.reloaded := by
  obtain ⟨deltas, hdeltas, readDeltas⟩ := library.snapshotDeltas
  obtain ⟨paths, hpaths, readPaths⟩ := library.pathPool
  obtain ⟨objects, hobjects, readObjects⟩ := library.objectPool
  obtain ⟨metadata, hmetadata, readMetadata⟩ := library.objectMetadata
  have hdecoded : paths.elems.mapM deserializePath = .ok index.pathPool.entries := by
    apply Exec.mapM_eq_ok.mpr
    have hforall := List.forall₂_map_left_iff.mp
      (List.forall₂_map_right_iff.mp (List.forall₂_eq_eq_eq.symm ▸ hpaths))
    exact hforall.imp fun bytes path h => deserializePath_bytes h
  refine ⟨⟨index.snapshotTags, deltas, index.pathPool.entries, objects, metadata⟩, ?_, ?_⟩
  · simp only [readV3Tables, Exec.ok_bind, decode_some (readDeltas _), decode_some (readPaths _),
      hdecoded, decode_some (readObjects _), decode_some (readMetadata _),
      decode_some (library.noExtensions _)]
  · rw [fromV3, reloaded, hdeltas, hobjects, hmetadata]

theorem supported_requiredFeatures (index : PackIndex) :
    index.requiredFeaturesOf &&& ~~~supportedRequiredFeatures = 0 := by
  rw [requiredFeaturesOf]
  split_ifs <;> rfl

/-- A written index loads. -/
theorem RoundTrips.parse_serialize (library : index.RoundTrips writer rmp) :
    parse rmp (index.serialize writer) = .ok index.reloaded := by
  have hversion : ¬ ((3 : UInt32) = 1 ∨ (3 : UInt32) = 2) := by decide
  have hsupported : ¬ index.requiredFeaturesOf &&& ~~~supportedRequiredFeatures ≠ 0 :=
    not_not.mpr index.supported_requiredFeatures
  have hfields : ¬ (7 : UInt32) ≠ 7 := by decide
  obtain ⟨wire, hwire, hreloaded⟩ := library.readTables
  simp only [parse, parseMode, serialize, readMagic_writeMagic, Exec.ok_bind, if_neg hversion,
    parseV3, library.readTags, if_neg hsupported, if_neg hfields, hwire, hreloaded]

end PackIndex

end Elfshaker.Format
