import Elfshaker.Format.MessagePack
import Elfshaker.Format.Parse

namespace Elfshaker.Format

open Elfshaker.Library

namespace EntryPool

variable {α : Type} [DecidableEq α] {xs : List α}

theorem deserialize_of_nodup (h : xs.Nodup) : (deserialize xs).entries = xs :=
  internAll_of_nodup h

/-- A pool that is read leads every handle to the element at its position exactly when
nothing stands in it twice. -/
theorem lookup_deserialize_iff (short : xs.length ≤ handleCount) :
    (∀ h : Handle, (deserialize xs).lookup h = xs[h.toNat]?) ↔ xs.Nodup := by
  constructor
  · intro hall
    have hsub : (deserialize xs).entries.Subperm xs :=
      List.subperm_of_subset (nodup _) fun x hx => mem_deserialize.mp hx
    have heq : (deserialize xs).entries = xs := by
      refine List.ext_getElem? fun i => ?_
      rcases Nat.lt_or_ge i handleCount with hlt | hge
      · have hi := hall (toHandle i)
        rwa [lookup, toHandle_toNat, Nat.mod_eq_of_lt hlt] at hi
      · have hlength := hsub.length_le
        rw [List.getElem?_eq_none (by omega), List.getElem?_eq_none (by omega)]
    exact heq ▸ nodup (deserialize xs)
  · intro hnodup h
    rw [lookup, deserialize_of_nodup hnodup]

end EntryPool

/-- The tables of a version 3 file, as they are written. -/
def v3Wire (rmp : Rmp) (file : List UInt8) : Exec PackError V3Wire := do
  let (_, bytes) ← readMagic file
  let (_, _, snapshotTags, bytes) ← readV3Tags rmp bytes
  readV3Tables rmp snapshotTags bytes

/-- The lists that the handles of a file count in. The paths are those of version 3. -/
structure HandleTables where
  paths : Option (List PackPath)
  objects : List ObjectChecksum
  metadata : List ObjectMetadata
  deriving DecidableEq

def LegacyWire.handleTables (wire : LegacyWire) : HandleTables :=
  ⟨none, wire.objectPool.elems, wire.objectMetadata.elems⟩

def V3Wire.handleTables (wire : V3Wire) : HandleTables :=
  ⟨some wire.pathPool, wire.objectPool.elems, wire.objectMetadata.elems⟩

/-- The lists in a file of any version. -/
def handleTables (rmp : Rmp) (file : List UInt8) : Exec PackError HandleTables := do
  let (version, _) ← readMagic file
  if version = 1 ∨ version = 2 then (legacyWire rmp file).map LegacyWire.handleTables
  else (v3Wire rmp file).map V3Wire.handleTables

namespace HandleTables

/-- Every handle of an index leads to what stands at its position in the file, and an
object comes with the metadata at that position. -/
structure KeptBy (tables : HandleTables) (index : PackIndex) : Prop where
  path : ∀ paths, tables.paths = some paths → ∀ h : Handle,
    index.pathPool.lookup h = paths[h.toNat]?
  object : ∀ h : Handle, index.objectPool.lookup h = tables.objects[h.toNat]?
  metadata : ∀ h : Handle, h.toNat < tables.objects.length →
    ∃ metadata, tables.metadata[h.toNat]? = some metadata ∧
      index.objectMetadata.lookup h = some metadata

/-- Nothing stands in a pool twice, and every object has metadata. -/
structure Distinct (tables : HandleTables) : Prop where
  paths : ∀ paths, tables.paths = some paths → paths.Nodup
  objects : tables.objects.Nodup
  metadata : tables.objects.length ≤ tables.metadata.length

/-- The tables of an index that was made of lists of a file. -/
structure ReadInto (tables : HandleTables) (index : PackIndex) : Prop where
  paths : ∀ paths, tables.paths = some paths →
    paths.length ≤ handleCount ∧ index.pathPool = .deserialize paths
  objects : tables.objects.length ≤ handleCount ∧ index.objectPool = .deserialize tables.objects
  metadata : tables.metadata.length ≤ handleCount ∧
    index.objectMetadata = PackIndex.metadataTable tables.metadata

theorem ReadInto.kept_iff {tables : HandleTables} {index : PackIndex} (h : tables.ReadInto index) :
    tables.KeptBy index ↔ tables.Distinct := by
  obtain ⟨hobjects, hpool⟩ := h.objects
  obtain ⟨hrecords, htable⟩ := h.metadata
  have hmetadata (handle : Handle) :
      index.objectMetadata.lookup handle = tables.metadata[handle.toNat]? := by
    rw [htable, PackIndex.lookup_metadataTable hrecords]
  constructor
  · intro kept
    refine ⟨fun paths hpaths => ?_, ?_, ?_⟩
    · obtain ⟨hshort, hread⟩ := h.paths paths hpaths
      exact (EntryPool.lookup_deserialize_iff hshort).mp (hread ▸ kept.path paths hpaths)
    · exact (EntryPool.lookup_deserialize_iff hobjects).mp (hpool ▸ kept.object)
    · -- the last object is the one to run out of metadata
      by_contra hmissing
      have hlt : tables.metadata.length < handleCount := by omega
      have hhandle : (toHandle tables.metadata.length).toNat = tables.metadata.length := by
        rw [toHandle_toNat, Nat.mod_eq_of_lt hlt]
      obtain ⟨metadata, hat, -⟩ := kept.metadata (toHandle tables.metadata.length) (by omega)
      rw [hhandle, List.getElem?_eq_none le_rfl] at hat
      cases hat
  · intro distinct
    refine ⟨fun paths hpaths => ?_, ?_, fun handle hhandle => ?_⟩
    · obtain ⟨hshort, hread⟩ := h.paths paths hpaths
      exact hread ▸ (EntryPool.lookup_deserialize_iff hshort).mpr (distinct.paths paths hpaths)
    · exact hpool ▸ (EntryPool.lookup_deserialize_iff hobjects).mpr distinct.objects
    · have hlt := lt_of_lt_of_le hhandle distinct.metadata
      exact ⟨_, List.getElem?_eq_getElem hlt,
        (hmetadata handle).trans (List.getElem?_eq_getElem hlt)⟩

end HandleTables

theorem readInto_legacy {wire : LegacyWire} {index : PackIndex}
    (h : PackIndex.fromLegacy wire.deserialize = .ok index) : wire.handleTables.ReadInto index := by
  obtain ⟨-, -, hobjects, hmetadata⟩ := PackIndex.fromLegacy_ok h
  exact ⟨nofun, ⟨wire.objectPool.short.le, hobjects⟩, ⟨wire.objectMetadata.short.le, hmetadata⟩⟩

theorem readV3Tables_short {rmp : Rmp} {tags : List String} {bytes : List UInt8} {wire : V3Wire}
    (h : readV3Tables rmp tags bytes = .ok wire) : wire.pathPool.length < handleCount := by
  obtain ⟨⟨deltas, bytes⟩, -, h⟩ := Exec.bind_eq_ok.mp h
  obtain ⟨⟨paths, bytes⟩, -, h⟩ := Exec.bind_eq_ok.mp h
  obtain ⟨pool, hpool, h⟩ := Exec.bind_eq_ok.mp h
  obtain ⟨⟨objects, bytes⟩, -, h⟩ := Exec.bind_eq_ok.mp h
  obtain ⟨⟨metadata, bytes⟩, -, h⟩ := Exec.bind_eq_ok.mp h
  obtain ⟨⟨_, bytes⟩, -, h⟩ := Exec.bind_eq_ok.mp h
  cases h
  rw [← (Exec.mapM_eq_ok.mp hpool).length_eq]
  exact paths.short

theorem readInto_v3 {rmp : Rmp} {tags : List String} {bytes : List UInt8} {wire : V3Wire}
    (h : readV3Tables rmp tags bytes = .ok wire) :
    wire.handleTables.ReadInto (PackIndex.fromV3 wire) where
  paths := by
    intro paths hpaths
    cases hpaths
    exact ⟨(readV3Tables_short h).le, rfl⟩
  objects := ⟨wire.objectPool.short.le, rfl⟩
  metadata := ⟨wire.objectMetadata.short.le, rfl⟩

/-- An index that loads is made of the lists in its file. -/
theorem parse_readInto {rmp : Rmp} {file : List UInt8} {index : PackIndex}
    (h : PackIndex.parse rmp file = .ok index) :
    ∃ tables, handleTables rmp file = .ok tables ∧ tables.ReadInto index := by
  obtain ⟨⟨version, bytes⟩, hmagic, h⟩ := Exec.bind_eq_ok.mp h
  dsimp only at h
  split_ifs at h with hversion
  · obtain ⟨⟨tags, rest⟩, htags, h⟩ := Exec.bind_eq_ok.mp h
    obtain ⟨wire, hwire, h⟩ := Exec.bind_eq_ok.mp h
    have hlegacy : legacyWire rmp file = .ok wire :=
      Exec.bind_eq_ok.mpr ⟨_, hmagic, Exec.bind_eq_ok.mpr ⟨_, htags, hwire⟩⟩
    refine ⟨wire.handleTables, Exec.bind_eq_ok.mpr ⟨_, hmagic, ?_⟩, readInto_legacy h⟩
    dsimp only
    rw [if_pos hversion, hlegacy]
    rfl
  · obtain ⟨⟨fields, features, tags, rest⟩, htags, h⟩ := Exec.bind_eq_ok.mp h
    dsimp only at h
    split_ifs at h
    · cases h
    · cases h
    obtain ⟨wire, hwire, h⟩ := Exec.bind_eq_ok.mp h
    cases h
    have hv3 : v3Wire rmp file = .ok wire :=
      Exec.bind_eq_ok.mpr ⟨_, hmagic, Exec.bind_eq_ok.mpr ⟨_, htags, hwire⟩⟩
    refine ⟨wire.handleTables, Exec.bind_eq_ok.mpr ⟨_, hmagic, ?_⟩, readInto_v3 hwire⟩
    dsimp only
    rw [if_neg hversion, hv3]
    rfl

/-- The handles of an index that loads keep what they count in its file exactly when
nothing stands in a pool of it twice and every object has metadata. -/
theorem handles_keep_wire_meaning_iff {rmp : Rmp} {file : List UInt8} {index : PackIndex}
    (h : PackIndex.parse rmp file = .ok index) :
    ∃ tables, handleTables rmp file = .ok tables ∧ (tables.KeptBy index ↔ tables.Distinct) := by
  obtain ⟨tables, htables, hread⟩ := parse_readInto h
  exact ⟨tables, htables, hread.kept_iff⟩

namespace PoolSample

/-- One snapshot of one file of the last path, with the path pool as given. -/
def file (paths : List PackPath) : List UInt8 :=
  writeMagic ++ (messagePackWriter.arrayLen 7 ++
    (messagePackWriter.requiredFeatures 0 ++
      (messagePackWriter.snapshotTags ["t"] ++
        (messagePackWriter.snapshotDeltas
            [⟨[⟨toHandle (paths.length - 1), 0, .regular 420⟩], []⟩] ++
          (messagePackWriter.pathPool (paths.map PackPath.bytes) ++
            (messagePackWriter.objectPool [.zero] ++
              (messagePackWriter.objectMetadata [⟨0, 3⟩] ++
                messagePackWriter.extensions [])))))))

theorem parses_distinct :
    (PackIndex.parse messagePack (file [.a, .b])).isOk = true := by rfl

theorem parses_repeated :
    (PackIndex.parse messagePack (file [.a, .a, .b])).isOk = true := by rfl

theorem tables_repeated : handleTables messagePack (file [.a, .a, .b]) =
    .ok ⟨some [.a, .a, .b], [.zero], [⟨0, 3⟩]⟩ := by rfl

end PoolSample

theorem handles_keep_wire_meaning_distinct : ∃ index tables,
    PackIndex.parse messagePack (PoolSample.file [.a, .b]) = .ok index ∧
      handleTables messagePack (PoolSample.file [.a, .b]) = .ok tables ∧
      (tables.KeptBy index ↔ tables.Distinct) := by
  cases h : PackIndex.parse messagePack (PoolSample.file [.a, .b]) with
  | error e =>
    have hok := PoolSample.parses_distinct
    rw [h] at hok
    cases hok
  | ok index =>
    obtain ⟨tables, htables, hiff⟩ := handles_keep_wire_meaning_iff h
    exact ⟨index, tables, rfl, htables, hiff⟩

/-- A path that stands in the pool twice is interned once, and every handle behind it
is shifted. -/
theorem repeated_path_shifts_handles : ¬ ∀ (rmp : Rmp) (file : List UInt8) (index : PackIndex)
    (tables : HandleTables), PackIndex.parse rmp file = .ok index →
    handleTables rmp file = .ok tables → tables.KeptBy index := by
  intro hclaim
  cases h : PackIndex.parse messagePack (PoolSample.file [.a, .a, .b]) with
  | error e =>
    have hok := PoolSample.parses_repeated
    rw [h] at hok
    cases hok
  | ok index =>
    have kept := hclaim _ _ _ _ h PoolSample.tables_repeated
    have hfirst : index.pathPool.lookup 0 = some .a := kept.path _ rfl 0
    have hsecond : index.pathPool.lookup 1 = some .a := kept.path _ rfl 1
    have heq := EntryPool.lookup_injective hfirst hsecond
    cases heq

end Elfshaker.Format
