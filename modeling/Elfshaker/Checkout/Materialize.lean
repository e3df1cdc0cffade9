import Elfshaker.Checkout.World

namespace Elfshaker.Checkout

open Elfshaker.Library Elfshaker.Format Elfshaker.Store Elfshaker.Packs

/-- What an extraction takes from outside: the crates, the names that are drawn for
temporary files, which files the user may read, and the orders of hash maps. -/
structure Env where
  crates : Crates
  randomName : FileTree → Name
  mayRead : Permissions → Bool
  ord : IterOrder FileHandle
  entryOrd : IterOrder FileEntry
  /-- Whether the system reports when a file was changed. -/
  timestamps : Bool
  /-- The frames of a pack that is there, and their readers. -/
  openPack : DataDir → PackId → Exec Error (List PackFrame × List (List UInt8))
  /-- What is there after a pack was fetched from a remote. -/
  fetchPack : DataDir → PackId → Exec Error DataDir

section Materialize

variable (env : Env) (repo : Repository)

/-- `create_temp_path`. -/
def createTempPath (dir : List Name) : FsCall (List Name) :=
  Effect.asks fun s => .ok (dir ++ [env.randomName s.state.tree])

def removeLeafNode (names : List Name) : FileNode → FsCall Unit
  | .dir => removeDir repo names
  | _ => removeFile repo names

/-- `remove_leaf`. -/
def removeLeaf (names : List Name) : FsCall Unit :=
  (symlinkMetadata repo names >>= removeLeafNode repo names).orElse fun e =>
    if e = .notFound then some (pure ()) else none

/-- `replace`, on Unix: a destination that the renaming does not replace is removed. -/
def replace (temporary destination : List Name) : FsCall Unit :=
  (rename repo temporary destination).orElse fun e => some do
    let present ← isPresent repo destination
    if present then do
      removeLeaf repo destination
      rename repo temporary destination
    else Effect.lift (Exec.fail e)

/-- Goes on with an error after a temporary file was removed, or could not be. -/
def discard (temporary : List Name) (x : FsCall Unit) : FsCall Unit :=
  x.orElse fun e => some do
    (removeFile repo temporary).orElse fun _ => some (pure ())
    Effect.lift (Exec.fail e)

def materializeRegular (bytes : List UInt8) (destination : List Name) (mode : UInt32) :
    FsCall Unit := do
  createDirAll repo destination.dropLast
  let temporary ← createTempPath env destination.dropLast
  createFile repo temporary mode
  discard repo temporary (copyInto repo temporary bytes)
  discard repo temporary (replace repo temporary destination)

/-- The text of an error of the system. -/
def describe : IoError → String
  | .notFound => "No such file or directory (os error 2)"
  | .alreadyExists => "File exists (os error 17)"
  | .notADirectory => "Not a directory (os error 20)"
  | .isADirectory => "Is a directory (os error 21)"
  | .directoryNotEmpty => "Directory not empty (os error 39)"
  | .filesystemLoop => "Too many levels of symbolic links (os error 40)"
  | .invalidInput => "Invalid argument (os error 22)"
  | .unexpectedEof => "failed to fill whole buffer"
  | .other message => message

/-- A path as the system takes it. -/
def absolute (names : List Name) : List Name := (repo.path.below names).reverse

def createLink (target : List UInt8) (names destination : List Name) : Work Unit :=
  Effect.mapError
    (fun e => .packError (.symlinkCreationUnsupported (absolute repo destination) (describe e)))
    (createNative repo target names)

def materialize (entryPath : PackPath) (bytes : List UInt8) (encoding : SymlinkTargetEncoding)
    (destination : List Name) : Work Unit := do
  let target ← packResult (decodeTarget entryPath bytes encoding)
  packIo (createDirAll repo destination.dropLast)
  let temporary ← packIo (createTempPath env destination.dropLast)
  createLink repo target temporary destination
  packIo (discard repo temporary (replace repo temporary destination))

def verifyMaterialized (entryPath : PackPath) (destination : List Name)
    (encoding : SymlinkTargetEncoding) (expectedChecksum : ObjectChecksum) : Work Unit := do
  let target ← packIo (readLink repo destination)
  let bytes ← packResult (encodeTargetAs entryPath target encoding)
  packResult (if env.crates.sha1 bytes = expectedChecksum then .ok ()
    else Exec.fail (.checksumMismatch expectedChecksum (env.crates.sha1 bytes)))

def probeResult : Except IoError Unit → Exec Error Unit
  | .ok () => .ok ()
  | .error e => Exec.fail (.packError (.symlinkCreationUnsupported (absolute repo []) (describe e)))

/-- One kind of link is tried in a directory of its own. -/
def probeKind (directory : List Name) : Work Unit := do
  let result ← Effect.attempt (createNative repo "elfshaker-symlink-probe-target".toUTF8.toList
    (directory ++ ["link".toUTF8.toList]))
  packIo (removeDirAll repo directory)
  Effect.lift (probeResult repo result)

def probeKinds : List SymlinkTargetKind → Work Unit
  | [] => pure ()
  | _ :: kinds => do
    let directory ← packIo (createTempPath env [])
    packIo (createDir repo directory)
    probeKind repo directory
    probeKinds kinds

def linkKind (entry : FileEntry) : Option SymlinkTargetKind :=
  match entry.metadata with
  | .symlink _ targetKind => some targetKind
  | .regular _ => none

/-- `symlink::probe`: each kind that is asked for is tried once. -/
def probe (entries : List FileEntry) : Work Unit :=
  let kinds := (entries.filterMap linkKind).dedup
  if kinds = [] then pure ()
  else do
    packIo (createDirAll repo [])
    probeKinds env repo kinds

end Materialize

end Elfshaker.Checkout
