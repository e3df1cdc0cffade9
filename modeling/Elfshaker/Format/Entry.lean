import Elfshaker.Format.EntryPool
import Elfshaker.Format.PackPath
import Elfshaker.Library.HashSet

namespace Elfshaker.Format

/-- The content checksum of an object. -/
structure ObjectChecksum where
  bytes : List UInt8
  length_eq : bytes.length = 20
  deriving DecidableEq

namespace ObjectChecksum

/-- The checksum of the placeholder for an empty file that could not be read. -/
def zero : ObjectChecksum := ⟨List.replicate 20 0, rfl⟩

/-- The digest of no bytes at all. -/
def ofNothing : ObjectChecksum :=
  ⟨[218, 57, 163, 238, 94, 107, 75, 13, 50, 85, 191, 239, 149, 96, 24, 144, 175, 216, 7, 9], rfl⟩

end ObjectChecksum

/-- What the operating system reports when a file operation fails. -/
inductive IoError where
  | notFound
  | alreadyExists
  | notADirectory
  | isADirectory
  | directoryNotEmpty
  | filesystemLoop
  | invalidInput
  | unexpectedEof
  | other (message : String)
  deriving DecidableEq, Repr

inductive SymlinkTargetEncoding where
  | portableUtf8
  | unixBytes
  | windowsUtf16Le
  deriving DecidableEq, Repr

inductive SymlinkTargetKind where
  | file
  | directory
  | unknown
  deriving DecidableEq, Repr

def SymlinkTargetEncoding.identityTag : SymlinkTargetEncoding → UInt8
  | .portableUtf8 => 0
  | .unixBytes => 1
  | .windowsUtf16Le => 2

def SymlinkTargetKind.identityTag : SymlinkTargetKind → UInt8
  | .file => 0
  | .directory => 1
  | .unknown => 2

inductive EntryMetadata where
  | regular (mode : UInt32)
  | symlink (targetEncoding : SymlinkTargetEncoding) (targetKind : SymlinkTargetKind)
  deriving DecidableEq, Repr

namespace EntryMetadata

/-- The mode of files in indexes that carry none, `0o100664`. -/
def defaultMode : UInt32 := 33204

instance : Inhabited EntryMetadata := ⟨.regular defaultMode⟩

def isSymlink : EntryMetadata → Bool
  | .regular _ => false
  | .symlink _ _ => true

end EntryMetadata

structure ObjectMetadata where
  offset : UInt64
  size : UInt64
  deriving DecidableEq, Repr

/-- The offset of an object that is not in a pack file. -/
def looseObjectOffset : UInt64 := 18446744073709551615

/-- A file in an index: the handles of its path and of its object. -/
structure FileHandle where
  path : Handle
  object : Handle
  metadata : EntryMetadata
  deriving DecidableEq, Repr

/-- A file with its path and object spelled out. -/
structure FileEntry where
  path : PackPath
  checksum : ObjectChecksum
  objectMetadata : ObjectMetadata
  metadata : EntryMetadata
  deriving DecidableEq

/-- What a snapshot says of one file, wherever its object is stored. -/
@[ext] structure Triple where
  path : PackPath
  checksum : ObjectChecksum
  metadata : EntryMetadata
  deriving DecidableEq

def FileEntry.triple (e : FileEntry) : Triple := ⟨e.path, e.checksum, e.metadata⟩

/-- What the entries of a snapshot say, without where their objects are. -/
def triples (entries : List FileEntry) : List Triple :=
  entries.map FileEntry.triple

inductive PackError where
  | pathNotFound (path : Handle)
  | objectNotFound
  | snapshotNotFound (tag : String)
  | snapshotAlreadyExists (pack tag : String)
  | checksumMismatch (expected got : ObjectChecksum)
  | ioError (e : IoError)
  | deserializeError
  | serializeError
  | badMagic
  | badPackVersion (version : List UInt8)
  | unknownRequiredFeatures (bits : UInt64)
  | unsupportedPathEncoding (units : List UInt16)
  | invalidLogicalPath (e : PackPathError)
  | pathNotRepresentable (path : PackPath) (e : PackPathError)
  | duplicateLogicalPath (path : PackPath)
  | pathPrefixConflict (parent child : PackPath)
  | targetPathCollision (first second : PackPath)
  | symlinkedDestination (path : List (List UInt8))
  | unsupportedSymlinkTargetEncoding (path : PackPath) (encoding : SymlinkTargetEncoding)
  | invalidSymlinkTarget (path : PackPath) (reason : String)
  | symlinkCreationUnsupported (path : List (List UInt8)) (reason : String)
  deriving DecidableEq

end Elfshaker.Format
