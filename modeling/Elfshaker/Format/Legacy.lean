import Elfshaker.Format.PackIndex

namespace Elfshaker.Format

open Elfshaker.Library

inductive LegacyPathError where
  | unsupportedWindowsUtf16 (units : List UInt16)
  | invalidLogicalPath (e : PackPathError)
  deriving DecidableEq, Repr

/-- The platform's own path encoding in index versions 1 and 2. -/
inductive LegacyWirePath where
  | unix (bytes : List UInt8)
  | windows (units : List UInt16)
  deriving DecidableEq, Repr

/-- A backslash, `b'\\'`. -/
def backslash : UInt8 := 92

/-- The byte `b':'`. -/
def colon : UInt8 := 58

/-- `String::from_utf16`: a surrogate stands only as the half of a pair. -/
def fromUtf16 : List UInt16 → Option (List Char)
  | [] => some []
  | unit :: units =>
    if unit < 0xD800 ∨ 0xDFFF < unit then
      (fromUtf16 units).map (Char.ofNat unit.toNat :: ·)
    else if unit ≤ 0xDBFF then
      match units with
      | [] => none
      | low :: units =>
        if 0xDC00 ≤ low ∧ low ≤ 0xDFFF then
          (fromUtf16 units).map
            (Char.ofNat (0x10000 + (unit.toNat - 0xD800) * 0x400 + (low.toNat - 0xDC00)) :: ·)
        else none
    else none

def isAsciiAlphabetic (b : UInt8) : Bool :=
  (65 ≤ b ∧ b ≤ 90) ∨ (97 ≤ b ∧ b ≤ 122)

def hasWindowsPrefix : List UInt8 → Bool
  | drive :: mark :: _ => isAsciiAlphabetic drive && mark == colon
  | _ => false

def startsWithSeparator : List UInt8 → Bool
  | b :: _ => b == slash || b == backslash
  | [] => false

def decodeWindows (units : List UInt16) : Except LegacyPathError (List UInt8) :=
  match fromUtf16 units with
  | none => .error (.unsupportedWindowsUtf16 units)
  | some path =>
    let bytes := path.flatMap String.utf8EncodeChar
    if startsWithSeparator bytes || hasWindowsPrefix bytes then
      .error (.invalidLogicalPath .absolute)
    else .ok (bytes.map fun byte => if byte = backslash then slash else byte)

def LegacyWirePath.bytes : LegacyWirePath → Except LegacyPathError (List UInt8)
  | .unix bytes => .ok bytes
  | .windows units => decodeWindows units

def LegacyWirePath.decode (wire : LegacyWirePath) : Except LegacyPathError PackPath := do
  let bytes ← wire.bytes
  (PackPath.new bytes).mapError .invalidLogicalPath

structure LegacyFileMetadata where
  mode : UInt32
  deriving DecidableEq, Repr

instance : Inhabited LegacyFileMetadata := ⟨⟨EntryMetadata.defaultMode⟩⟩

structure LegacyFileHandle where
  path : Handle
  object : Handle
  fileMetadata : LegacyFileMetadata
  deriving DecidableEq, Repr

def LegacyFileHandle.toFileHandle (handle : LegacyFileHandle) : FileHandle :=
  ⟨handle.path, handle.object, .regular handle.fileMetadata.mode⟩

def legacyChanges (changes : ChangeSet LegacyFileHandle) : ChangeSet FileHandle :=
  ⟨changes.added.map LegacyFileHandle.toFileHandle, changes.removed.map LegacyFileHandle.toFileHandle⟩

structure LegacyIndex where
  snapshotTags : List String
  snapshotDeltas : List (ChangeSet LegacyFileHandle)
  pathPool : EntryPool LegacyWirePath
  objectPool : EntryPool ObjectChecksum
  objectMetadata : List ObjectMetadata

def legacyPathError : LegacyPathError → PackError
  | .unsupportedWindowsUtf16 units => .unsupportedPathEncoding units
  | .invalidLogicalPath e => .invalidLogicalPath e

/-- Decodes wire paths one by one and interns what they decode to. -/
def internDecoded (pool : EntryPool PackPath) : List LegacyWirePath →
    Exec PackError (EntryPool PackPath)
  | [] => .ok pool
  | wire :: wires =>
    match wire.decode with
    | .error e => Exec.fail (legacyPathError e)
    | .ok path => internDecoded (pool.getOrInsert path).1 wires

namespace PackIndex

/-- Every metadata record under the handle of its position. -/
def metadataTable (records : List ObjectMetadata) : AList fun _ : Handle => ObjectMetadata :=
  records.zipIdx.foldl (fun table record => table.insert (toHandle record.2) record.1) ∅

def fromParts (snapshotTags : List String) (snapshotDeltas : List (ChangeSet FileHandle))
    (pathPool : EntryPool PackPath) (objectPool : EntryPool ObjectChecksum)
    (objectMetadata : List ObjectMetadata) : PackIndex :=
  { snapshotTags, snapshotDeltas, pathPool, objectPool,
    objectMetadata := metadataTable objectMetadata
    current := .empty }

def fromLegacy (wire : LegacyIndex) : Exec PackError PackIndex := do
  let pathPool ← internDecoded .new wire.pathPool.entries
  .ok (fromParts wire.snapshotTags (wire.snapshotDeltas.map legacyChanges) pathPool
    wire.objectPool wire.objectMetadata)

end PackIndex

/-- A sequence in a file, where the number of elements is written in 32 bits. -/
structure WireSeq (α : Type) where
  elems : List α
  short : elems.length < handleCount

namespace WireSeq

def nil : WireSeq α := ⟨[], Nat.two_pow_pos 32⟩

def single (x : α) : WireSeq α := ⟨[x], by rw [List.length_singleton]; decide⟩

end WireSeq

structure WireChanges (α : Type) where
  added : WireSeq α
  removed : WireSeq α

def WireChanges.deserialize (changes : WireChanges α) : ChangeSet α :=
  ⟨changes.added.elems, changes.removed.elems⟩

/-- A legacy path as it is written. -/
inductive EncodedLegacyPath where
  | unix (bytes : WireSeq UInt8)
  | windows (units : WireSeq UInt16)

def EncodedLegacyPath.deserialize : EncodedLegacyPath → LegacyWirePath
  | .unix bytes => .unix bytes.elems
  | .windows units => .windows units.elems

/-- A handle in a version 1 or 2 file; version 1 has no metadata. -/
structure LegacyWireHandle where
  path : Handle
  object : Handle
  fileMetadata : Option LegacyFileMetadata
  deriving DecidableEq, Repr

def LegacyWireHandle.deserialize (handle : LegacyWireHandle) : LegacyFileHandle :=
  ⟨handle.path, handle.object, handle.fileMetadata.getD default⟩

/-- The fields of a version 1 or 2 file as they are written. -/
structure LegacyWire where
  snapshotTags : List String
  snapshotDeltas : WireSeq (WireChanges LegacyWireHandle)
  pathPool : WireSeq EncodedLegacyPath
  objectPool : WireSeq ObjectChecksum
  objectMetadata : WireSeq ObjectMetadata

namespace LegacyWire

def paths (wire : LegacyWire) : List LegacyWirePath :=
  wire.pathPool.elems.map EncodedLegacyPath.deserialize

def deserialize (wire : LegacyWire) : LegacyIndex where
  snapshotTags := wire.snapshotTags
  snapshotDeltas := wire.snapshotDeltas.elems.map fun changes =>
    ⟨changes.added.elems.map LegacyWireHandle.deserialize,
      changes.removed.elems.map LegacyWireHandle.deserialize⟩
  pathPool := .deserialize wire.paths
  objectPool := .deserialize wire.objectPool.elems
  objectMetadata := wire.objectMetadata.elems

/-- The handles that occur in the deltas. -/
def handles (wire : LegacyWire) : List LegacyWireHandle :=
  wire.snapshotDeltas.elems.flatMap fun changes => changes.added.elems ++ changes.removed.elems

/-- A handle names the path and the object at its positions in the file. -/
structure Names (wire : LegacyWire) (handle : LegacyFileHandle) (entry : FileEntry) : Prop where
  path : wire.paths[handle.path.toNat]?.map LegacyWirePath.decode = some (.ok entry.path)
  checksum : wire.objectPool.elems[handle.object.toNat]? = some entry.checksum
  objectMetadata : wire.objectMetadata.elems[handle.object.toNat]? = some entry.objectMetadata
  mode : entry.metadata = .regular handle.fileMetadata.mode

/-- Up to the positions of a handle, no two wire paths mean the same path and no
object stands twice, and the file has the object and its metadata. -/
structure Unambiguous (wire : LegacyWire) (handle : LegacyFileHandle) : Prop where
  paths : ((wire.paths.take (handle.path.toNat + 1)).map LegacyWirePath.decode).Nodup
  object : handle.object.toNat < wire.objectPool.elems.length
  objects : (wire.objectPool.elems.take (handle.object.toNat + 1)).Nodup
  metadata : handle.object.toNat < wire.objectMetadata.elems.length

end LegacyWire

theorem internDecoded_ok {pool pool' : EntryPool PackPath} {wires : List LegacyWirePath}
    (h : internDecoded pool wires = .ok pool') :
    ∃ paths, List.Forall₂ (fun wire path => wire.decode = .ok path) wires paths ∧
      pool' = pool.internAll paths := by
  induction wires generalizing pool with
  | nil =>
    cases h
    exact ⟨[], .nil, rfl⟩
  | cons wire wires ih =>
    rw [internDecoded] at h
    cases hd : wire.decode with
    | error e =>
      rw [hd] at h
      cases h
    | ok path =>
      rw [hd] at h
      obtain ⟨paths, hall, rfl⟩ := ih h
      exact ⟨path :: paths, .cons hd hall, rfl⟩

/-- What a wire path decodes to, and some path where it does not. -/
def LegacyWirePath.decoded (wire : LegacyWirePath) : PackPath :=
  match wire.decode with
  | .ok path => path
  | .error _ => .a

theorem LegacyWirePath.decoded_of_ok {wire : LegacyWirePath} {path : PackPath}
    (h : wire.decode = .ok path) : wire.decoded = path := by
  rw [decoded, h]

theorem forall₂_decoded {wires : List LegacyWirePath} {paths : List PackPath}
    (h : List.Forall₂ (fun wire path => wire.decode = .ok path) wires paths) :
    (∀ wire ∈ wires, wire.decode = .ok wire.decoded) ∧ paths = wires.map LegacyWirePath.decoded := by
  induction h with
  | nil => simp
  | @cons wire path wires paths hd _ ih =>
    obtain ⟨hall, rfl⟩ := ih
    refine ⟨fun w hw => ?_, by rw [List.map_cons, LegacyWirePath.decoded_of_ok hd]⟩
    rcases List.mem_cons.mp hw with rfl | hw
    · rw [hd, LegacyWirePath.decoded_of_ok hd]
    · exact hall w hw

namespace PackIndex

theorem lookup_metadataTable {records : List ObjectMetadata} (short : records.length ≤ handleCount)
    (h : Handle) : (metadataTable records).lookup h = records[h.toNat]? := by
  induction records using List.reverseRecOn with
  | nil => rfl
  | append_singleton records record ih =>
    have hlen : records.length < handleCount := by
      rwa [List.length_append, List.length_singleton] at short
    have hstep : metadataTable (records ++ [record]) =
        (metadataTable records).insert (toHandle records.length) record := by
      simp [metadataTable, List.zipIdx_append]
    have hlast : (toHandle records.length).toNat = records.length := by
      rw [toHandle_toNat, Nat.mod_eq_of_lt hlen]
    rw [hstep]
    by_cases heq : h = toHandle records.length
    · rw [heq, AList.lookup_insert, hlast, List.getElem?_concat_length]
    · rw [AList.lookup_insert_ne heq, ih hlen.le]
      have hne : h.toNat ≠ records.length := fun he => heq (UInt32.toNat.inj (he.trans hlast.symm))
      rcases Nat.lt_or_ge h.toNat records.length with hlt | hge
      · rw [List.getElem?_append_left hlt]
      · rw [List.getElem?_eq_none hge, List.getElem?_eq_none (by simp; omega)]

/-- The tables of a converted index. -/
theorem fromLegacy_ok {wire : LegacyWire} {index : PackIndex}
    (h : fromLegacy wire.deserialize = .ok index) :
    (∀ w ∈ wire.paths, w.decode = .ok w.decoded) ∧
      index.pathPool = .deserialize (wire.paths.map LegacyWirePath.decoded) ∧
      index.objectPool = .deserialize wire.objectPool.elems ∧
      index.objectMetadata = metadataTable wire.objectMetadata.elems := by
  obtain ⟨pool, hpool, hindex⟩ := Exec.bind_eq_ok.mp h
  obtain ⟨paths, hall, rfl⟩ := internDecoded_ok hpool
  obtain ⟨hdecode, rfl⟩ := forall₂_decoded hall
  cases hindex
  refine ⟨fun w hw => hdecode w (EntryPool.mem_internAll.mpr (.inr hw)), ?_, rfl, rfl⟩
  exact EntryPool.internAll_map_internAll LegacyWirePath.decoded wire.paths

/-- What a converted handle leads to is what it names exactly when nothing before
its positions was interned away. -/
theorem fromLegacy_names_iff {wire : LegacyWire} {index : PackIndex}
    (h : fromLegacy wire.deserialize = .ok index) {handle : LegacyFileHandle}
    (hp : handle.path.toNat < wire.paths.length) :
    (∃ entry, index.handleToEntry handle.toFileHandle = .ok entry ∧ wire.Names handle entry) ↔
      wire.Unambiguous handle := by
  obtain ⟨hdecode, hpaths, hobjects, hmetadata⟩ := fromLegacy_ok h
  have hlookup := lookup_metadataTable wire.objectMetadata.short.le handle.object
  have hpl : handle.path.toNat < (wire.paths.map LegacyWirePath.decoded).length := by
    simpa using hp
  have hat : wire.paths[handle.path.toNat]?.map LegacyWirePath.decode =
      (wire.paths.map LegacyWirePath.decoded)[handle.path.toNat]?.map .ok := by
    rw [List.getElem?_map, List.getElem?_eq_getElem hp]
    simp [hdecode _ (List.getElem_mem hp)]
  have hnodup : ((wire.paths.take (handle.path.toNat + 1)).map
      LegacyWirePath.decode).Nodup ↔
      ((wire.paths.map LegacyWirePath.decoded).take (handle.path.toNat + 1)).Nodup := by
    have heq : (wire.paths.take (handle.path.toNat + 1)).map LegacyWirePath.decode =
        ((wire.paths.map LegacyWirePath.decoded).take (handle.path.toNat + 1)).map .ok := by
      rw [← List.map_take, List.map_map]
      exact List.map_congr_left fun w hw => hdecode w (List.mem_of_mem_take hw)
    rw [heq, List.nodup_map_iff fun _ _ => Except.ok.inj]
  simp only [handleToEntry_eq_ok, LegacyFileHandle.toFileHandle, EntryPool.lookup, hpaths,
    hobjects, hmetadata, hlookup, EntryPool.deserialize]
  constructor
  · rintro ⟨entry, ⟨hpath, hobject, hmeta, -⟩, hnames⟩
    have hwirePath := hnames.path
    rw [hat, Option.map_eq_some_iff] at hwirePath
    obtain ⟨path, hwirePath, heq⟩ := hwirePath
    cases heq
    obtain ⟨hol, -⟩ := List.getElem?_eq_some_iff.mp hnames.checksum
    obtain ⟨hml, -⟩ := List.getElem?_eq_some_iff.mp hmeta
    refine ⟨hnodup.mpr ?_, hol, ?_, hml⟩
    · exact (EntryPool.getElem?_internAll_iff hpl).mp (hpath.trans hwirePath.symm)
    · exact (EntryPool.getElem?_internAll_iff hol).mp (hobject.trans hnames.checksum.symm)
  · rintro ⟨hpathNodup, hol, hobjectNodup, hml⟩
    have hpath := (EntryPool.getElem?_internAll_iff hpl).mpr (hnodup.mp hpathNodup)
    have hobject := (EntryPool.getElem?_internAll_iff hol).mpr hobjectNodup
    rw [List.getElem?_eq_getElem hpl] at hat hpath
    rw [List.getElem?_eq_getElem hol] at hobject
    exact ⟨⟨_, _, _, .regular handle.fileMetadata.mode⟩,
      ⟨hpath, hobject, List.getElem?_eq_getElem hml, rfl⟩,
      ⟨hat, List.getElem?_eq_getElem hol, List.getElem?_eq_getElem hml, rfl⟩⟩

end PackIndex

end Elfshaker.Format
