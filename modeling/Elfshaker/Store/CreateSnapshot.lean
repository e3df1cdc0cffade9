import Elfshaker.Format.Serialize
import Elfshaker.Format.Symlink
import Elfshaker.Store.Files

namespace Elfshaker.Store

open Elfshaker.Library Elfshaker.Format

/-- What the system says of an input file when it is read. -/
inductive Source where
  | symlink (target : List UInt8) (kind : SymlinkTargetKind)
  | regular (content : List UInt8) (mode : UInt32)
  | denied (size : Nat) (mode : UInt32)
  | failing (e : IoError)
  deriving DecidableEq

structure InputFile where
  path : PackPath
  source : Source

/-- A failed system call is an error of the repository. -/
def io (x : Io α) : Call α := Effect.mapError Error.ioError x

section AtomicCreate

/-- A unique path in the directory of another. -/
def createTempPath (path : String) (random : List UInt8) : String :=
  let dir := ((DirTree.ancestors path).getLast?.map (· ++ "/")).getD ""
  dir ++ ".elfshakertmp_" ++ String.ofList (hexEncode random)

/-- A reserved path, and the name of the file that is to take its place. -/
structure AtomicCreateFile where
  path : String
  random : List UInt8

def AtomicCreateFile.temp (file : AtomicCreateFile) : String :=
  createTempPath file.path file.random

/-- Opens the file, and makes its directories where they are missing. -/
def openForWrite (path : String) : Io Unit :=
  (Io.onPacks (DirTree.openCreate path)).orElse fun e =>
    if e = .notFound then some do
      Io.createDirAll Io.onPacks (DirTree.ancestors path)
      Io.onPacks (DirTree.openCreate path)
    else none

def checkEmpty (bytes : List UInt8) : Exec IoError Unit :=
  if bytes = [] then .ok () else Exec.fail .alreadyExists

namespace AtomicCreateFile

/-- The path is taken: the file is there, it is empty, and it is locked. -/
def reserve (path : String) : Io Unit := do
  openForWrite path
  Io.passing
  let bytes ← Io.look fun dd => dd.packs.readFile path
  Effect.lift (checkEmpty bytes)

def createTemp (path : String) (random : List UInt8) : Io AtomicCreateFile := do
  let file := ⟨path, random⟩
  Io.onPacks (DirTree.createNew (temp file))
  Io.passing
  pure file

def new (path : String) (random : List UInt8) : Io AtomicCreateFile := do
  reserve path
  createTemp path random

/-- Everything up to the renaming. -/
def fill (file : AtomicCreateFile) (bytes : List UInt8) : Io Unit := do
  Io.writeToPacks file.temp bytes
  Effect.lift (Exec.assert (!bytes.isEmpty))
  Io.passing

def commitContent (file : AtomicCreateFile) (bytes : List UInt8) : Io Unit := do
  file.fill bytes
  Io.onPacks (DirTree.rename file.temp file.path)

end AtomicCreateFile

end AtomicCreate

section Objects

def isFile (tree : DirTree) (path : String) : Bool :=
  match tree.lookup path with
  | some (.file _ _) => true
  | _ => false

/-- The renaming of a finished object, which may be there by now. -/
def publishOrExisting (path : String) (bytes : List UInt8) : Io Unit :=
  (Io.onLoose (DirTree.publish path bytes)).orElse fun e => some do
    let existing ← Io.look fun dd => .ok (isFile dd.loose path)
    Effect.lift (if existing then .ok () else Exec.fail e)

def writeLooseObject (checksum : ObjectChecksum) (bytes : List UInt8) : Io Unit := do
  let path := looseObjectPath checksum
  Io.createDirAll Io.onLoose (DirTree.ancestors path)
  let existing ← Io.look fun dd => .ok (isFile dd.loose path)
  if existing then pure ()
  else do
    Io.prepareAtomicWrite
    publishOrExisting path bytes

variable (crates : Crates)

/-- Stores what one file holds. A file of no bytes that may not be read is stored
without an object. -/
def storeFile (file : InputFile) : Io FileEntry := do
  Io.passing
  match file.source with
  | .symlink target kind => do
    let (bytes, encoding) := encodeTarget target
    let checksum := crates.sha1 bytes
    writeLooseObject checksum bytes
    pure ⟨file.path, checksum, ⟨looseObjectOffset, UInt64.ofNat bytes.length⟩,
      .symlink encoding kind⟩
  | .regular content mode => do
    let checksum := crates.sha1 content
    writeLooseObject checksum content
    pure ⟨file.path, checksum, ⟨looseObjectOffset, UInt64.ofNat content.length⟩, .regular mode⟩
  | .denied size mode =>
    if size ≠ 0 then Effect.lift (Exec.fail (.other "permission denied"))
    else pure ⟨file.path, .zero, ⟨looseObjectOffset, 0⟩, .regular mode⟩
  | .failing e => Effect.lift (Exec.fail e)

end Objects

section Create

variable (crates : Crates) (writer : RmpWriter) (ord : IterOrder FileHandle)

def snapshotPath (snapshot : SnapshotId) : String :=
  (PackId.looseOf snapshot.tag).indexPath

def checkExistingTags (snapshot : SnapshotId) : List String → Exec Error Unit
  | [existing] =>
    if existing = snapshot.tag then .ok ()
    else Exec.fail (.looseSnapshotPathCollision (snapshotPath snapshot) snapshot.tag existing)
  | _ => Exec.fail .corruptPackIndex

/-- The index file of a loose snapshot must not be that of another. -/
def checkSnapshotPath (snapshot : SnapshotId) (dd : DataDir) : Exec Error Unit :=
  match dd.packs.lookup (snapshotPath snapshot) with
  | none => .ok ()
  | some .dir => Exec.fail (.packError (.ioError .isADirectory))
  | some (.file bytes _) =>
    if bytes = [] then .ok ()
    else do
      let existingTags ← (PackIndex.loadOnlySnapshots crates.rmp bytes).mapError .packError
      checkExistingTags snapshot existingTags

def prepareSnapshot (snapshot : SnapshotId) : Call Unit := do
  io Io.passing
  io (Io.ensureDir Io.onPacks (DirTree.ancestors (snapshotPath snapshot)))
  Effect.asks fun s => checkSnapshotPath crates snapshot s.state.dataDir

/-- A snapshot that is not there yet, up to where its index is reserved. -/
def reserveSnapshot (snapshot : SnapshotId) : Call Unit := do
  prepareSnapshot crates snapshot
  io (AtomicCreateFile.reserve (snapshotPath snapshot))

/-- Stores the files, and makes the index of the snapshot. -/
def snapshotIndex (snapshot : SnapshotId) (files : List InputFile) : Call PackIndex := do
  io Io.passing
  let entries ← io (Effect.runAll (storeFile crates) files)
  Effect.lift ((PackIndex.new.pushSnapshot ord snapshot.tag entries).mapError .packError)

/-- What is left to do before the index is published. -/
def fillSnapshot (random : List UInt8) (snapshot : SnapshotId) (files : List InputFile) :
    Call AtomicCreateFile := do
  let output ← io (AtomicCreateFile.createTemp (snapshotPath snapshot) random)
  let index ← snapshotIndex crates ord snapshot files
  io (output.fill (index.serialize writer))
  pure output

def writeSnapshot (random : List UInt8) (snapshot : SnapshotId) (files : List InputFile) :
    Call Unit := do
  let output ← fillSnapshot crates writer ord random snapshot files
  io (Io.onPacks (DirTree.rename output.temp output.path))

/-- `update_head`, in a repository that is not read-only. -/
def updateHead (snapshot : SnapshotId) : Call Unit := do
  io Io.passing
  io Io.prepareAtomicWrite
  io (Io.setHead (snapshot.display ++ "\n"))

def createSnapshot (random : List UInt8) (snapshot : SnapshotId) (files : List InputFile) :
    Call Unit := do
  reserveSnapshot crates snapshot
  writeSnapshot crates writer ord random snapshot files
  updateHead snapshot

/-- Replaces the index where it is there. -/
def createSnapshotForce (snapshot : SnapshotId) (files : List InputFile) : Call Unit := do
  prepareSnapshot crates snapshot
  let index ← snapshotIndex crates ord snapshot files
  io Io.prepareAtomicWrite
  io (Io.onPacks (DirTree.publish (snapshotPath snapshot) (index.serialize writer)))
  updateHead snapshot

end Create

end Elfshaker.Store
