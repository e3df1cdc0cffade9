import Elfshaker.Format.Legacy

namespace Elfshaker.Format

open Elfshaker.Library

/-- Takes a value off the front of a byte stream, or reports a decoding error. -/
abbrev Reader (α : Type) := List UInt8 → Option (α × List UInt8)

structure OptionalExtension where
  kind : UInt32
  payload : List UInt8
  deriving DecidableEq, Repr

/-- The MessagePack decoder, one reader for each type an index is made of. -/
structure Rmp where
  arrayLen : Reader UInt32
  requiredFeatures : Reader UInt64
  snapshotTags : Reader (List String)
  snapshotDeltas : Reader (WireSeq (WireChanges FileHandle))
  pathPool : Reader (WireSeq (WireSeq UInt8))
  objectPool : Reader (WireSeq ObjectChecksum)
  objectMetadata : Reader (WireSeq ObjectMetadata)
  extensions : Reader (List OptionalExtension)
  legacyDeltas : Reader (WireSeq (WireChanges LegacyWireHandle))
  legacyPaths : Reader (WireSeq EncodedLegacyPath)

inductive LoadMode where
  | full
  | onlySnapshots
  deriving DecidableEq, Repr

def maxVersion : UInt32 := 3

def featureSymlinks : UInt64 := 1

def supportedRequiredFeatures : UInt64 := featureSymlinks

/-- The bytes `b"ELFS"`. -/
def magic : List UInt8 := [69, 76, 70, 83]

/-- `u32::from_be_bytes`. -/
def fromBeBytes (bytes : List UInt8) : UInt32 :=
  bytes.foldl (fun n b => n * 256 + b.toUInt32) 0

/-- `Read::read_exact`. -/
def readExact (n : Nat) (bytes : List UInt8) : Exec PackError (List UInt8 × List UInt8) :=
  if bytes.length < n then Exec.fail (.ioError .unexpectedEof)
  else .ok (bytes.take n, bytes.drop n)

def readMagic (bytes : List UInt8) : Exec PackError (UInt32 × List UInt8) := do
  let (mark, bytes) ← readExact 4 bytes
  if mark ≠ magic then
    Exec.fail .badMagic
  else
    let (version, bytes) ← readExact 4 bytes
    if 1 ≤ fromBeBytes version ∧ fromBeBytes version ≤ maxVersion then
      .ok (fromBeBytes version, bytes)
    else Exec.fail (.badPackVersion version)

/-- `rmp_serde::from_read`. -/
def decode (reader : Reader α) (bytes : List UInt8) : Exec PackError (α × List UInt8) :=
  Exec.okOr .deserializeError (reader bytes)

def readLegacyTags (rmp : Rmp) (bytes : List UInt8) :
    Exec PackError (List String × List UInt8) := do
  let (fields, bytes) ← decode rmp.arrayLen bytes
  if fields ≠ 5 then Exec.fail .deserializeError
  else decode rmp.snapshotTags bytes

def readLegacyTables (rmp : Rmp) (snapshotTags : List String) (bytes : List UInt8) :
    Exec PackError LegacyWire := do
  let (snapshotDeltas, bytes) ← decode rmp.legacyDeltas bytes
  let (pathPool, bytes) ← decode rmp.legacyPaths bytes
  let (objectPool, bytes) ← decode rmp.objectPool bytes
  let (objectMetadata, _) ← decode rmp.objectMetadata bytes
  .ok { snapshotTags, snapshotDeltas, pathPool, objectPool, objectMetadata }

/-- The fields of a version 3 file as they are written. -/
structure V3Wire where
  snapshotTags : List String
  snapshotDeltas : WireSeq (WireChanges FileHandle)
  pathPool : List PackPath
  objectPool : WireSeq ObjectChecksum
  objectMetadata : WireSeq ObjectMetadata

/-- A path of a version 3 pool, refused when it is not canonical. -/
def deserializePath (bytes : WireSeq UInt8) : Exec PackError PackPath :=
  match PackPath.new bytes.elems with
  | .ok path => .ok path
  | .error _ => Exec.fail .deserializeError

def readV3Tags (rmp : Rmp) (bytes : List UInt8) :
    Exec PackError (UInt32 × UInt64 × List String × List UInt8) := do
  let (fields, bytes) ← decode rmp.arrayLen bytes
  if fields < 2 then Exec.fail .deserializeError
  else
    let (requiredFeatures, bytes) ← decode rmp.requiredFeatures bytes
    let (snapshotTags, bytes) ← decode rmp.snapshotTags bytes
    .ok (fields, requiredFeatures, snapshotTags, bytes)

def readV3Tables (rmp : Rmp) (snapshotTags : List String) (bytes : List UInt8) :
    Exec PackError V3Wire := do
  let (snapshotDeltas, bytes) ← decode rmp.snapshotDeltas bytes
  let (paths, bytes) ← decode rmp.pathPool bytes
  let pathPool ← paths.elems.mapM deserializePath
  let (objectPool, bytes) ← decode rmp.objectPool bytes
  let (objectMetadata, bytes) ← decode rmp.objectMetadata bytes
  let _ ← decode rmp.extensions bytes
  .ok { snapshotTags, snapshotDeltas, pathPool, objectPool, objectMetadata }

namespace PackIndex

def fromV3 (wire : V3Wire) : PackIndex :=
  fromParts wire.snapshotTags (wire.snapshotDeltas.elems.map WireChanges.deserialize)
    (.deserialize wire.pathPool) (.deserialize wire.objectPool.elems) wire.objectMetadata.elems

def parseLegacy (rmp : Rmp) (mode : LoadMode) (bytes : List UInt8) : Exec PackError PackIndex := do
  let (snapshotTags, bytes) ← readLegacyTags rmp bytes
  match mode with
  | .onlySnapshots => .ok { new with snapshotTags }
  | .full =>
    let wire ← readLegacyTables rmp snapshotTags bytes
    fromLegacy wire.deserialize

def parseV3 (rmp : Rmp) (mode : LoadMode) (bytes : List UInt8) : Exec PackError PackIndex := do
  let (fields, requiredFeatures, snapshotTags, bytes) ← readV3Tags rmp bytes
  match mode with
  | .onlySnapshots => .ok { new with snapshotTags }
  | .full =>
    let unsupported := requiredFeatures &&& ~~~supportedRequiredFeatures
    if unsupported ≠ 0 then Exec.fail (.unknownRequiredFeatures unsupported)
    else if fields ≠ 7 then Exec.fail .deserializeError
    else
      let wire ← readV3Tables rmp snapshotTags bytes
      .ok (fromV3 wire)

def parseMode (rmp : Rmp) (mode : LoadMode) (bytes : List UInt8) : Exec PackError PackIndex := do
  let (version, bytes) ← readMagic bytes
  if version = 1 ∨ version = 2 then parseLegacy rmp mode bytes
  else parseV3 rmp mode bytes

def parse (rmp : Rmp) (bytes : List UInt8) : Exec PackError PackIndex :=
  parseMode rmp .full bytes

/-- The tags alone, without the tables behind them. -/
def loadOnlySnapshots (rmp : Rmp) (bytes : List UInt8) : Exec PackError (List String) := do
  let index ← parseMode rmp .onlySnapshots bytes
  .ok index.snapshotTags

theorem parse_empty (rmp : Rmp) : parse rmp [] = .error (.error (.ioError .unexpectedEof)) := rfl

theorem loadOnlySnapshots_empty (rmp : Rmp) :
    loadOnlySnapshots rmp [] = .error (.error (.ioError .unexpectedEof)) := rfl

theorem fromLegacy_tags {wire : LegacyWire} {index : PackIndex}
    (h : fromLegacy wire.deserialize = .ok index) : index.snapshotTags = wire.snapshotTags := by
  obtain ⟨pool, -, hindex⟩ := Exec.bind_eq_ok.mp h
  cases hindex
  rfl

/-- A file that loads lists the tags that are read without its tables. -/
theorem loadOnlySnapshots_of_parse {rmp : Rmp} {file : List UInt8} {index : PackIndex}
    (h : parse rmp file = .ok index) : loadOnlySnapshots rmp file = .ok index.snapshotTags := by
  obtain ⟨⟨version, bytes⟩, hmagic, h⟩ := Exec.bind_eq_ok.mp h
  refine Exec.bind_eq_ok.mpr ⟨{ new with snapshotTags := index.snapshotTags }, ?_, rfl⟩
  refine Exec.bind_eq_ok.mpr ⟨_, hmagic, ?_⟩
  dsimp only at h ⊢
  split_ifs at h ⊢
  · obtain ⟨⟨tags, bytes⟩, htags, h⟩ := Exec.bind_eq_ok.mp h
    obtain ⟨wire, hwire, h⟩ := Exec.bind_eq_ok.mp h
    have hwireTags : wire.snapshotTags = tags := by
      obtain ⟨_, -, hwire⟩ := Exec.bind_eq_ok.mp hwire
      obtain ⟨_, -, hwire⟩ := Exec.bind_eq_ok.mp hwire
      obtain ⟨_, -, hwire⟩ := Exec.bind_eq_ok.mp hwire
      obtain ⟨_, -, hwire⟩ := Exec.bind_eq_ok.mp hwire
      cases hwire
      rfl
    rw [fromLegacy_tags h, hwireTags]
    exact Exec.bind_eq_ok.mpr ⟨_, htags, rfl⟩
  · obtain ⟨⟨fields, features, tags, bytes⟩, htags, h⟩ := Exec.bind_eq_ok.mp h
    dsimp only at h
    split_ifs at h
    · cases h
    · cases h
    obtain ⟨wire, hwire, h⟩ := Exec.bind_eq_ok.mp h
    have hwireTags : wire.snapshotTags = tags := by
      obtain ⟨_, -, hwire⟩ := Exec.bind_eq_ok.mp hwire
      obtain ⟨_, -, hwire⟩ := Exec.bind_eq_ok.mp hwire
      obtain ⟨_, -, hwire⟩ := Exec.bind_eq_ok.mp hwire
      obtain ⟨_, -, hwire⟩ := Exec.bind_eq_ok.mp hwire
      obtain ⟨_, -, hwire⟩ := Exec.bind_eq_ok.mp hwire
      obtain ⟨_, -, hwire⟩ := Exec.bind_eq_ok.mp hwire
      cases hwire
      rfl
    cases h
    rw [← hwireTags] at htags
    exact Exec.bind_eq_ok.mpr ⟨_, htags, rfl⟩

end PackIndex

/-- The tables of a version 1 or 2 file, as they are written. -/
def legacyWire (rmp : Rmp) (file : List UInt8) : Exec PackError LegacyWire := do
  let (_, bytes) ← readMagic file
  let (snapshotTags, bytes) ← readLegacyTags rmp bytes
  readLegacyTables rmp snapshotTags bytes

/-- The file says that it has version 1 or 2. -/
def IsLegacy (file : List UInt8) : Prop :=
  ∃ version bytes, readMagic file = .ok (version, bytes) ∧ (version = 1 ∨ version = 2)

theorem parse_legacy_ok {rmp : Rmp} {file : List UInt8} {index : PackIndex}
    (legacy : IsLegacy file) (h : PackIndex.parse rmp file = .ok index) :
    ∃ wire, legacyWire rmp file = .ok wire ∧ PackIndex.fromLegacy wire.deserialize = .ok index := by
  obtain ⟨version, bytes, hmagic, hversion⟩ := legacy
  obtain ⟨⟨version', bytes'⟩, hmagic', h⟩ := Exec.bind_eq_ok.mp h
  rw [hmagic] at hmagic'
  cases hmagic'
  dsimp only at h
  rw [if_pos hversion] at h
  obtain ⟨⟨tags, rest⟩, htags, h⟩ := Exec.bind_eq_ok.mp h
  obtain ⟨wire, hwire, h⟩ := Exec.bind_eq_ok.mp h
  refine ⟨wire, ?_, h⟩
  exact Exec.bind_eq_ok.mpr ⟨_, hmagic, Exec.bind_eq_ok.mpr ⟨_, htags, hwire⟩⟩

/-- In a version 1 or 2 file that parses, a handle leads to what it names exactly
when the pools had nothing to drop before its positions. -/
theorem legacy_handle_meaning_iff {rmp : Rmp} {file : List UInt8} {index : PackIndex}
    (legacy : IsLegacy file) (h : PackIndex.parse rmp file = .ok index) :
    ∃ wire, legacyWire rmp file = .ok wire ∧
      ∀ handle ∈ wire.handles, handle.path.toNat < wire.paths.length →
        ((∃ entry, index.handleToEntry handle.deserialize.toFileHandle = .ok entry ∧
          wire.Names handle.deserialize entry) ↔ wire.Unambiguous handle.deserialize) := by
  obtain ⟨wire, hwire, hindex⟩ := parse_legacy_ok legacy h
  exact ⟨wire, hwire, fun handle _ hp => PackIndex.fromLegacy_names_iff hindex hp⟩

/-- A reader that knows one encoding. -/
def readsAs (encoding : List UInt8) (value : α) : Reader α := fun bytes =>
  if encoding.isPrefixOf bytes then some (value, bytes.drop encoding.length) else none

def noReader : Reader α := fun _ => none

namespace LegacySample

def tags : List UInt8 := [0x91, 0xA1, 0x74]

/-- One snapshot of one version 1 handle. -/
def deltas (path : UInt8) : List UInt8 := [0x91, 0x92, 0x91, 0x92, path, 0, 0x90]

def objects : List UInt8 := [0x91, 0xDC, 0, 20] ++ List.replicate 20 0

def metadata : List UInt8 := [0x91, 0x92, 0, 0]

/-- The wire paths `Unix("a")` and `Windows("b\c")`. -/
def mixedPaths : List UInt8 :=
  [0x92, 0x81, 0xA4, 85, 110, 105, 120, 0x91, 97,
    0x81, 0xA7, 87, 105, 110, 100, 111, 119, 115, 0x93, 98, 92, 99]

/-- The wire paths `Unix("a")`, `Windows("a")` and `Unix("b")`. -/
def aliasedPaths : List UInt8 :=
  [0x93, 0x81, 0xA4, 85, 110, 105, 120, 0x91, 97,
    0x81, 0xA7, 87, 105, 110, 100, 111, 119, 115, 0x91, 97,
    0x81, 0xA4, 85, 110, 105, 120, 0x91, 98]

def file (paths : List UInt8) (path : UInt8) : List UInt8 :=
  magic ++ [0, 0, 0, 1] ++ [0x95] ++ tags ++ deltas path ++ paths ++ objects ++ metadata

def handle (path : UInt8) : LegacyWireHandle := ⟨path.toUInt32, 0, none⟩

def rmp (paths : List UInt8) (path : UInt8) (wirePaths : WireSeq EncodedLegacyPath) : Rmp where
  arrayLen := readsAs [0x95] 5
  requiredFeatures := noReader
  snapshotTags := readsAs tags ["t"]
  snapshotDeltas := noReader
  pathPool := noReader
  objectPool := readsAs objects (.single .zero)
  objectMetadata := readsAs metadata (.single ⟨0, 0⟩)
  extensions := noReader
  legacyDeltas := readsAs (deltas path) (.single ⟨.single (handle path), .nil⟩)
  legacyPaths := readsAs paths wirePaths

def mixedRmp : Rmp :=
  rmp mixedPaths 1 ⟨[.unix (.single 97), .windows ⟨[98, 92, 99], by decide⟩], by decide⟩

def aliasedRmp : Rmp :=
  rmp aliasedPaths 2 ⟨[.unix (.single 97), .windows (.single 97), .unix (.single 98)], by decide⟩

end LegacySample

/-- A Windows path after a Unix path keeps its handle. -/
theorem legacy_handle_meaning_mixed : ∃ index wire,
    PackIndex.parse LegacySample.mixedRmp (LegacySample.file LegacySample.mixedPaths 1) = .ok index ∧
    legacyWire LegacySample.mixedRmp (LegacySample.file LegacySample.mixedPaths 1) = .ok wire ∧
    ∀ handle ∈ wire.handles, handle.path.toNat < wire.paths.length →
      ((∃ entry, index.handleToEntry handle.deserialize.toFileHandle = .ok entry ∧
        wire.Names handle.deserialize entry) ↔ wire.Unambiguous handle.deserialize) := by
  obtain ⟨index, hindex⟩ : ∃ index, PackIndex.parse LegacySample.mixedRmp
      (LegacySample.file LegacySample.mixedPaths 1) = .ok index := ⟨_, rfl⟩
  obtain ⟨wire, hwire, h⟩ := legacy_handle_meaning_iff ⟨1, _, rfl, .inl rfl⟩ hindex
  exact ⟨index, wire, hindex, hwire, h⟩

/-- The two spellings of one path are interned as one, and the handle of the path
behind them leads nowhere. -/
theorem legacy_handle_shifted : ¬ ∀ (rmp : Rmp) (file : List UInt8) (index : PackIndex)
    (wire : LegacyWire), IsLegacy file → PackIndex.parse rmp file = .ok index →
    legacyWire rmp file = .ok wire → ∀ handle ∈ wire.handles,
      handle.path.toNat < wire.paths.length →
        ∃ entry, index.handleToEntry handle.deserialize.toFileHandle = .ok entry ∧
          wire.Names handle.deserialize entry := by
  intro h
  obtain ⟨index, hindex⟩ : ∃ index, PackIndex.parse LegacySample.aliasedRmp
      (LegacySample.file LegacySample.aliasedPaths 2) = .ok index := ⟨_, rfl⟩
  have legacy : IsLegacy (LegacySample.file LegacySample.aliasedPaths 2) :=
    ⟨1, _, rfl, .inl rfl⟩
  obtain ⟨wire, hwire, hfrom⟩ := parse_legacy_ok legacy hindex
  have hentry := h _ _ index wire legacy hindex hwire
  cases hwire
  have hpaths := ((PackIndex.fromLegacy_names_iff hfrom (by decide)).mp
    (hentry (LegacySample.handle 2) List.mem_cons_self (by decide))).paths
  have same : (LegacyWirePath.unix [97]).decode = (LegacyWirePath.windows [97]).decode := rfl
  exact (List.nodup_cons.mp hpaths).1 (same ▸ List.mem_cons_self)

end Elfshaker.Format
