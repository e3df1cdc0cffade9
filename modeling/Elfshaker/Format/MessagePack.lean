import Elfshaker.Format.Serialize
import Elfshaker.Library.MessagePack

namespace Elfshaker.Format

open Elfshaker.Library Elfshaker.Library.MessagePack

-- The types of an index as `serde` derives them: a structure is the array of its
-- fields, and an enumeration the name of its case, with the fields it has.
namespace Wire

def expect (mark : UInt8) : Decoder Unit
  | [] => none
  | b :: bytes => if b = mark then some ((), bytes) else none

def readNat (limit : Nat) : Decoder Nat := fun bytes => do
  let (n, bytes) ← uintMarks.read bytes
  if n < limit then some (n, bytes) else none

def readByte : Decoder UInt8 := fun bytes => do
  let (n, bytes) ← readNat (2 ^ 8) bytes
  some (UInt8.ofNat n, bytes)

def readU16 : Decoder UInt16 := fun bytes => do
  let (n, bytes) ← readNat (2 ^ 16) bytes
  some (UInt16.ofNat n, bytes)

def readU32 : Decoder UInt32 := fun bytes => do
  let (n, bytes) ← readNat (2 ^ 32) bytes
  some (UInt32.ofNat n, bytes)

def readU64 : Decoder UInt64 := fun bytes => do
  let (n, bytes) ← readNat (2 ^ 64) bytes
  some (UInt64.ofNat n, bytes)

def writeByte (b : UInt8) : List UInt8 := uintMarks.write b.toNat

def writeU32 (n : UInt32) : List UInt8 := uintMarks.write n.toNat

def writeU64 (n : UInt64) : List UInt8 := uintMarks.write n.toNat

def toSeq (xs : List α) : Option (WireSeq α) :=
  if h : xs.length < handleCount then some ⟨xs, h⟩ else none

def readSeq (decode : Decoder α) : Decoder (WireSeq α) := fun bytes => do
  let (xs, bytes) ← readArray decode bytes
  let seq ← toSeq xs
  some (seq, bytes)

def encodingName : SymlinkTargetEncoding → String
  | .portableUtf8 => "PortableUtf8"
  | .unixBytes => "UnixBytes"
  | .windowsUtf16Le => "WindowsUtf16Le"

def kindName : SymlinkTargetKind → String
  | .file => "File"
  | .directory => "Directory"
  | .unknown => "Unknown"

def encodingOf (name : String) : Option SymlinkTargetEncoding :=
  if name = "PortableUtf8" then some .portableUtf8
  else if name = "UnixBytes" then some .unixBytes
  else if name = "WindowsUtf16Le" then some .windowsUtf16Le
  else none

def kindOf (name : String) : Option SymlinkTargetKind :=
  if name = "File" then some .file
  else if name = "Directory" then some .directory
  else if name = "Unknown" then some .unknown
  else none

def writeMetadata : EntryMetadata → List UInt8
  | .regular mode => 0x81 :: (writeString "Regular" ++ 0x91 :: writeU32 mode)
  | .symlink encoding kind =>
    0x81 :: (writeString "Symlink" ++
      0x92 :: (writeString (encodingName encoding) ++ writeString (kindName kind)))

def readRegular : Decoder EntryMetadata := fun bytes => do
  let (_, bytes) ← expect 0x91 bytes
  let (mode, bytes) ← readU32 bytes
  some (.regular mode, bytes)

def readSymlink : Decoder EntryMetadata := fun bytes => do
  let (_, bytes) ← expect 0x92 bytes
  let (encodingText, bytes) ← readString bytes
  let (kindText, bytes) ← readString bytes
  let encoding ← encodingOf encodingText
  let kind ← kindOf kindText
  some (.symlink encoding kind, bytes)

def readMetadata : Decoder EntryMetadata := fun bytes => do
  let (_, bytes) ← expect 0x81 bytes
  let (name, bytes) ← readString bytes
  if name = "Regular" then readRegular bytes
  else if name = "Symlink" then readSymlink bytes
  else none

def writeHandle (handle : FileHandle) : List UInt8 :=
  0x93 :: (writeU32 handle.path ++ (writeU32 handle.object ++ writeMetadata handle.metadata))

def readHandle : Decoder FileHandle := fun bytes => do
  let (_, bytes) ← expect 0x93 bytes
  let (path, bytes) ← readU32 bytes
  let (object, bytes) ← readU32 bytes
  let (metadata, bytes) ← readMetadata bytes
  some (⟨path, object, metadata⟩, bytes)

def writeChanges (changes : ChangeSet FileHandle) : List UInt8 :=
  0x92 :: (writeArray writeHandle changes.added ++ writeArray writeHandle changes.removed)

def readChanges (decode : Decoder α) : Decoder (WireChanges α) := fun bytes => do
  let (_, bytes) ← expect 0x92 bytes
  let (added, bytes) ← readSeq decode bytes
  let (removed, bytes) ← readSeq decode bytes
  some (⟨added, removed⟩, bytes)

def readPath : Decoder (WireSeq UInt8) := fun bytes => do
  let (path, bytes) ← readBlob binMarks bytes
  let path ← toSeq path
  some (path, bytes)

def writeChecksum (checksum : ObjectChecksum) : List UInt8 :=
  writeArray writeByte checksum.bytes

def readChecksum : Decoder ObjectChecksum := fun bytes => do
  let (digest, bytes) ← readArray readByte bytes
  if h : digest.length = 20 then some (⟨digest, h⟩, bytes) else none

def writeObjectMetadata (metadata : ObjectMetadata) : List UInt8 :=
  0x92 :: (writeU64 metadata.offset ++ writeU64 metadata.size)

def readObjectMetadata : Decoder ObjectMetadata := fun bytes => do
  let (_, bytes) ← expect 0x92 bytes
  let (offset, bytes) ← readU64 bytes
  let (size, bytes) ← readU64 bytes
  some (⟨offset, size⟩, bytes)

def writeExtension (ext : OptionalExtension) : List UInt8 :=
  0x92 :: (writeU32 ext.kind ++ writeArray writeByte ext.payload)

def readExtension : Decoder OptionalExtension := fun bytes => do
  let (_, bytes) ← expect 0x92 bytes
  let (kind, bytes) ← readU32 bytes
  let (payload, bytes) ← readArray readByte bytes
  some (⟨kind, payload⟩, bytes)

def readLegacyMode : Decoder LegacyFileMetadata := fun bytes => do
  let (_, bytes) ← expect 0x91 bytes
  let (mode, bytes) ← readU32 bytes
  some (⟨mode⟩, bytes)

/-- A handle of version 2, or one of version 1 that has no metadata. -/
def readLegacyHandle : Decoder LegacyWireHandle := fun bytes => do
  let (fields, bytes) ← arrayMarks.read bytes
  let (path, bytes) ← readU32 bytes
  let (object, bytes) ← readU32 bytes
  if fields = 2 then some (⟨path, object, none⟩, bytes)
  else if fields = 3 then
    let (mode, bytes) ← readLegacyMode bytes
    some (⟨path, object, some mode⟩, bytes)
  else none

def readLegacyPath : Decoder EncodedLegacyPath := fun bytes => do
  let (_, bytes) ← expect 0x81 bytes
  let (name, bytes) ← readString bytes
  if name = "Unix" then
    let (path, bytes) ← readSeq readByte bytes
    some (.unix path, bytes)
  else if name = "Windows" then
    let (path, bytes) ← readSeq readU16 bytes
    some (.windows path, bytes)
  else none

def readArrayLen : Decoder UInt32 := fun bytes => do
  let (n, bytes) ← arrayMarks.read bytes
  some (UInt32.ofNat n, bytes)

theorem expect_cons (mark : UInt8) (bytes : List UInt8) :
    expect mark (mark :: bytes) = some ((), bytes) := by
  rw [expect, if_pos rfl]

theorem readNat_write {limit n : Nat} (hlimit : limit ≤ 2 ^ 64) (h : n < limit) :
    Inverts (readNat limit) uintMarks.write n := by
  intro rest
  rw [readNat, Marks.read_write uintMarks_proper (lt_of_lt_of_le h hlimit)]
  dsimp only [Option.bind_eq_bind, Option.bind_some]
  rw [if_pos h]

theorem readByte_write (b : UInt8) : Inverts readByte writeByte b := by
  intro rest
  rw [readByte, writeByte, readNat_write (by decide) b.toNat_lt]
  simp

theorem readU32_write (n : UInt32) : Inverts readU32 writeU32 n := by
  intro rest
  rw [readU32, writeU32, readNat_write (by decide) n.toNat_lt]
  simp

theorem readU64_write (n : UInt64) : Inverts readU64 writeU64 n := by
  intro rest
  rw [readU64, writeU64, readNat_write (le_refl _) n.toNat_lt]
  simp

theorem toSeq_elems (seq : WireSeq α) : toSeq seq.elems = some seq := by
  rw [toSeq, dif_pos seq.short]

theorem readSeq_write {decode : Decoder β} {encode : α → List UInt8} {f : β → α}
    (one : ∀ y rest, decode (encode (f y) ++ rest) = some (y, rest)) (seq : WireSeq β)
    (rest : List UInt8) :
    readSeq decode (writeArray encode (seq.elems.map f) ++ rest) = some (seq, rest) := by
  have harray : writeArray encode (seq.elems.map f) =
      writeArray (fun y => encode (f y)) seq.elems := by
    rw [writeArray, writeArray, List.length_map, List.flatMap_map]
  rw [readSeq, harray, readArray_writeArray seq.short fun y _ => one y]
  dsimp only [Option.bind_eq_bind, Option.bind_some]
  rw [toSeq_elems]
  rfl

theorem readSeq_write_self {decode : Decoder α} {encode : α → List UInt8}
    (one : ∀ x, Inverts decode encode x) (seq : WireSeq α) (rest : List UInt8) :
    readSeq decode (writeArray encode seq.elems ++ rest) = some (seq, rest) := by
  have hmap := readSeq_write (f := id) one seq rest
  rwa [List.map_id] at hmap

theorem readString_name (name : String) (h : name.utf8ByteSize < 2 ^ 32) (rest : List UInt8) :
    readString (writeString name ++ rest) = some (name, rest) :=
  readString_writeString h rest

theorem readMetadata_write (metadata : EntryMetadata) :
    Inverts readMetadata writeMetadata metadata := by
  intro rest
  cases metadata with
  | regular mode =>
    have hname := readString_name "Regular" (by decide) ((0x91 :: writeU32 mode) ++ rest)
    simp only [readMetadata, writeMetadata, List.cons_append, List.append_assoc, expect_cons,
      Option.bind_eq_bind, Option.bind_some] at hname ⊢
    simp only [hname, Option.bind_some, if_true, readRegular, expect_cons, Option.bind_eq_bind,
      readU32_write mode rest]
  | symlink encoding kind =>
    have hencoding : (encodingName encoding).utf8ByteSize < 2 ^ 32 := by cases encoding <;> decide
    have hkind : (kindName kind).utf8ByteSize < 2 ^ 32 := by cases kind <;> decide
    have hencodingOf : encodingOf (encodingName encoding) = some encoding := by
      cases encoding <;> decide
    have hkindOf : kindOf (kindName kind) = some kind := by cases kind <;> decide
    have hname := readString_name "Symlink" (by decide) ((0x92 :: (writeString
      (encodingName encoding) ++ writeString (kindName kind))) ++ rest)
    have hne : ¬ "Symlink" = "Regular" := by decide
    simp only [readMetadata, writeMetadata, List.cons_append, List.append_assoc, expect_cons,
      Option.bind_eq_bind, Option.bind_some] at hname ⊢
    simp only [hname, Option.bind_some, if_neg hne, if_true, readSymlink, expect_cons,
      Option.bind_eq_bind, readString_name _ hencoding, readString_name _ hkind, hencodingOf,
      hkindOf]

theorem readHandle_write (handle : FileHandle) : Inverts readHandle writeHandle handle := by
  intro rest
  simp only [readHandle, writeHandle, List.cons_append, List.append_assoc, expect_cons,
    Option.bind_eq_bind, Option.bind_some, readU32_write _ _, readMetadata_write _ _]

theorem readChanges_write (changes : WireChanges FileHandle) (rest : List UInt8) :
    readChanges readHandle (writeChanges changes.deserialize ++ rest) = some (changes, rest) := by
  have hadded := readSeq_write_self readHandle_write changes.added
  have hremoved := readSeq_write_self readHandle_write changes.removed
  simp only [readChanges, writeChanges, WireChanges.deserialize, List.cons_append,
    List.append_assoc, expect_cons, Option.bind_eq_bind, Option.bind_some, hadded, hremoved]

theorem readPath_write (path : WireSeq UInt8) (rest : List UInt8) :
    readPath (writeBlob binMarks path.elems ++ rest) = some (path, rest) := by
  simp only [readPath, readBlob_writeBlob binMarks_proper path.short rest, Option.bind_eq_bind,
    Option.bind_some, toSeq_elems]

theorem readChecksum_write (checksum : ObjectChecksum) :
    Inverts readChecksum writeChecksum checksum := by
  intro rest
  have hshort : checksum.bytes.length < 2 ^ 32 := by
    rw [checksum.length_eq]
    decide
  simp only [readChecksum, writeChecksum,
    readArray_writeArray hshort (fun b _ => readByte_write b) rest, Option.bind_eq_bind,
    Option.bind_some, dif_pos checksum.length_eq]

theorem readObjectMetadata_write (metadata : ObjectMetadata) :
    Inverts readObjectMetadata writeObjectMetadata metadata := by
  intro rest
  simp only [readObjectMetadata, writeObjectMetadata, List.cons_append, List.append_assoc,
    expect_cons, Option.bind_eq_bind, Option.bind_some, readU64_write _ _]

theorem readArrayLen_write (n : UInt32) (rest : List UInt8) :
    readArrayLen (arrayMarks.write n.toNat ++ rest) = some (n, rest) := by
  rw [readArrayLen, Marks.read_write arrayMarks_proper n.toNat_lt]
  simp

end Wire

open Wire

def messagePack : Rmp where
  arrayLen := readArrayLen
  requiredFeatures := readU64
  snapshotTags := readArray readString
  snapshotDeltas := readSeq (readChanges readHandle)
  pathPool := readSeq readPath
  objectPool := readSeq readChecksum
  objectMetadata := readSeq readObjectMetadata
  extensions := readArray readExtension
  legacyDeltas := readSeq (readChanges readLegacyHandle)
  legacyPaths := readSeq readLegacyPath

def messagePackWriter : RmpWriter where
  arrayLen := fun n => arrayMarks.write n.toNat
  requiredFeatures := writeU64
  snapshotTags := writeArray writeString
  snapshotDeltas := writeArray writeChanges
  pathPool := writeArray (writeBlob binMarks)
  objectPool := writeArray writeChecksum
  objectMetadata := writeArray writeObjectMetadata
  extensions := writeArray writeExtension

/-- MessagePack as it is specified reads back what it writes. -/
theorem messagePack_readBack : messagePackWriter.ReadBackBy messagePack where
  arrayLen := readArrayLen_write
  requiredFeatures := readU64_write
  snapshotTags := fun _ rest short =>
    readArray_writeArray short.length (fun tag htag => readString_writeString (short.bytes tag htag))
      rest
  snapshotDeltas := readSeq_write readChanges_write
  pathPool := readSeq_write readPath_write
  objectPool := readSeq_write_self readChecksum_write
  objectMetadata := readSeq_write_self readObjectMetadata_write
  noExtensions := fun rest => readArray_writeArray (by decide) (by simp) rest

end Elfshaker.Format
