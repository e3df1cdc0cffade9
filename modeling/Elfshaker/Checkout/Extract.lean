import Elfshaker.Checkout.Preflight
import Elfshaker.Packs.WritePack

namespace Elfshaker.Checkout

open Elfshaker.Library Elfshaker.Format Elfshaker.Store Elfshaker.Packs

structure ExtractOptions where
  verify : Bool
  reset : Bool
  force : Bool
  numWorkers : UInt32
  deriving DecidableEq, Repr

structure ExtractResult where
  modifiedFileCount : UInt32
  addedFileCount : UInt32
  removedFileCount : UInt32
  deriving DecidableEq, Repr

section Removal

variable (repo : Repository)

/-- `remove_empty_dirs`, up to the working directory; the leaf is given from its last
name on. -/
def removeEmptyDirsFrom : List Name → FsCall Unit
  | [] => pure ()
  | name :: above => do
    match ← Effect.attempt (removeDir repo (name :: above).reverse) with
    | .ok () => removeEmptyDirsFrom above
    | .error e =>
      if e = .directoryNotEmpty ∨ e = .notFound then pure () else Effect.lift (Exec.fail e)

def removeEmptyDirs (leaf : List Name) : FsCall Unit := removeEmptyDirsFrom repo leaf.reverse

/-- `EmptyDirectoryCleanupQueue::enqueue`; the queue holds one directory at most. -/
def enqueue (leaf : List Name) : Option (List Name) → FsCall (Option (List Name))
  | none => pure (some leaf)
  | some last =>
    if last.isPrefixOf leaf then pure (some leaf)
    else do
      removeEmptyDirs repo last
      pure (some leaf)

/-- `EmptyDirectoryCleanupQueue::process`. -/
def process : Option (List Name) → FsCall Unit
  | none => pure ()
  | some last => removeEmptyDirs repo last

def removeLink (names : List Name) (isSymlink : Bool) : FsCall Unit :=
  if isSymlink then removeLeaf repo names else removeFile repo names

/-- What an error of the removal of a tracked path comes to. -/
def afterRemoval (names : List Name) : Except IoError Unit → FsCall Unit
  | .ok () => pure ()
  | .error .notFound => pure ()
  | .error .isADirectory => removeDirAll repo names
  | .error e => Effect.lift (Exec.fail e)

def removePath (names : List Name) : FsCall Unit := do
  let found ← Effect.attempt (symlinkMetadata repo names)
  let removed ← Effect.attempt (removeLink repo names (found.toOption.any FileNode.isLink))
  afterRemoval repo names removed

/-- The removal of the tracked paths. The queue is processed when it is dropped, also
where a removal fails. -/
def removePaths (queue : Option (List Name)) : List (List Name) → FsCall Unit
  | [] => process repo queue
  | names :: rest => do
    Effect.onError (removePath repo names) (process repo queue)
    let next ← Effect.onError (enqueue repo names.dropLast queue) (process repo queue)
    removePaths next rest

end Removal

section Entries

variable (env : Env) (repo : Repository)

def openObject (checksum : ObjectChecksum) : FsCall (List UInt8) :=
  inspectData fun dataDir => openLooseObject dataDir checksum

def writeLink (verify : Bool) (entry : FileEntry) (target : List UInt8)
    (encoding : SymlinkTargetEncoding) : Work Unit := do
  materialize env repo entry.path target encoding (native entry.path)
  if verify then
    verifyMaterialized env repo entry.path (native entry.path) encoding entry.checksum

/-- The bytes of a regular file; those of an empty one are not looked up. -/
def regularBytes (entry : FileEntry) : FsCall (List UInt8) :=
  if entry.objectMetadata.size = 0 then pure [] else openObject entry.checksum

/-- What is done for one entry of a loose snapshot, and what is to be verified after. -/
def copyLooseEntry (verify : Bool) (entry : FileEntry) :
    Work (Option (List Name × ObjectChecksum)) := do
  fs (createDirAll repo (native entry.path).dropLast)
  match entry.metadata with
  | .symlink encoding _ => do
    let target ← fs (openObject entry.checksum)
    Effect.lift (checkObject env.crates.sha1 verify target entry.checksum)
    writeLink env repo verify entry target encoding
    pure none
  | .regular mode => do
    let bytes ← fs (regularBytes entry)
    fs (materializeRegular env repo bytes (native entry.path) mode)
    pure (some (native entry.path, entry.checksum))

def readable (node : FileNode) : Exec IoError (List UInt8) :=
  match node with
  | .file bytes mode _ =>
    if env.mayRead mode then .ok bytes else Exec.fail (.other "Permission denied (os error 13)")
  | .dir => Exec.fail .isADirectory
  | .link _ _ => Exec.fail .filesystemLoop

/-- `fs::read`. -/
def readFile (names : List Name) : FsCall (List UInt8) := do
  let node ← inspect fun tree => tree.find true repo.path names
  Effect.lift (readable env node)

def computeChecksum (names : List Name) : FsCall ObjectChecksum := do
  let bytes ← readFile env repo names
  pure (env.crates.sha1 bytes)

def compareChecksums : List (ObjectChecksum × ObjectChecksum) → Exec Error Unit
  | [] => .ok ()
  | (expected, actual) :: rest =>
    if expected ≠ actual then Exec.fail (.packError (.checksumMismatch expected actual))
    else compareChecksums rest

def verifyRegular (destinations : List (List Name × ObjectChecksum)) : Work Unit := do
  let checksums ← fs (Effect.runAll (computeChecksum env repo) (destinations.map Prod.fst))
  Effect.lift (compareChecksums ((destinations.map Prod.snd).zip checksums))

/-- `copy_loose_entries`. -/
def copyLooseEntries (verify : Bool) (entries : List FileEntry) (threads : UInt32) :
    Work Unit := do
  Effect.lift (Exec.assert (threads != 0))
  let destinations ← Effect.runAll (copyLooseEntry env repo verify) entries
  if verify then verifyRegular env repo destinations.reduceOption

def writePackedEntry (verify : Bool) (entry : FileEntry) (buf : List UInt8) : Work Unit :=
  match entry.metadata with
  | .regular mode =>
    fs (materializeRegular env repo (if entry.objectMetadata.size = 0 then [] else buf)
      (native entry.path) mode)
  | .symlink encoding _ => writeLink env repo verify entry buf encoding

/-- One read of a pack file, which the system may fail. -/
def reading (x : Exec Error α) : Work α := do
  fs (inspect fun _ => .ok ())
  Effect.lift x

def extractFilesFrom (verify : Bool) (reader buf : List UInt8) (pos : UInt64) :
    List FileEntry → Work Unit
  | [] => pure ()
  | entry :: entries =>
    let metadata := entry.objectMetadata
    if pos ≤ metadata.offset then do
      let (buf, reader) ← reading (readExact (seek reader (metadata.offset - pos)) metadata.size)
      let pos ← Effect.lift (Exec.checkedAdd metadata.offset metadata.size)
      Effect.lift (checkObject env.crates.sha1 verify buf entry.checksum)
      writePackedEntry env repo verify entry buf
      extractFilesFrom verify reader buf pos entries
    else do
      writePackedEntry env repo verify entry buf
      extractFilesFrom verify reader buf pos entries

/-- `extract_files` for one frame. -/
def extractFrame (verify : Bool) (task : List UInt8 × List FileEntry) : Work Unit :=
  extractFilesFrom env repo verify task.1 [] 0 (sortByOffset task.2)

def extractTasks (verify : Bool) (readers : List (List UInt8)) (assigned : List (List FileEntry)) :
    Work Unit := do
  let _ ← Effect.runAll (extractFrame env repo verify)
    ((readers.zip assigned).filter fun task => !task.2.isEmpty)
  pure ()

/-- `Pack::extract_entries`. -/
def extractPacked (verify : Bool) (numWorkers : UInt32)
    (pack : List PackFrame × List (List UInt8)) (entries : List FileEntry) : Work Unit :=
  if entries = [] then pure ()
  else do
    Effect.lift (Exec.assert (numWorkers != 0))
    Effect.lift (Exec.assert (!pack.1.isEmpty))
    let assigned ← Effect.lift (assignToFrames pack.1 entries)
    let _ ← Effect.lift (bytesToDecompress assigned)
    extractTasks env repo verify pack.2 assigned

/-- A call on the data directory, with the files it may have written. -/
def onDisk (files : List (List Name)) (x : Call α) : Work α := fun s =>
  ((x ⟨s.state.disk, s.faults⟩).1,
    ⟨{ s.state with
        disk := (x ⟨s.state.disk, s.faults⟩).2.state
        touched := s.state.touched ++ files.map .repository },
      (x ⟨s.state.disk, s.faults⟩).2.faults⟩)

def openPack (pack : PackId) : Work (List PackFrame × List (List UInt8)) := do
  fs (inspect fun _ => .ok ())
  Effect.asks fun s => env.openPack s.state.disk.dataDir pack

def fetched (pack : PackId) : Call Unit := fun s =>
  match env.fetchPack s.state.dataDir pack with
  | .ok dataDir => (.ok (), ⟨{ s.state with dataDir }, s.faults⟩)
  | .error e => (.error e, s)

def packsDir : Name := "packs".toUTF8.toList

/-- `update_remote_pack`. -/
def updateRemotePack (pack : PackId) : Work Unit :=
  onDisk [[packsDir, pack.packPath.toUTF8.toList]] (fetched env pack)

/-- A pack that is there, or else that was fetched. -/
def obtainPack (pack : PackId) : Work (List PackFrame × List (List UInt8)) :=
  (openPack env pack).orElse fun _ => some do
    updateRemotePack env pack
    openPack env pack

/-- `extract_entries_preflighted`. -/
def extractEntriesPreflighted (pack : PackId) (entries : List FileEntry) (opts : ExtractOptions) :
    Work Unit := do
  let loose ← Effect.asks fun s => .ok (isPackLoose env.crates s.state.disk.dataDir pack)
  if loose then copyLooseEntries env repo opts.verify entries opts.numWorkers
  else do
    let opened ← obtainPack env pack
    extractPacked env repo opts.verify opts.numWorkers opened entries

def readTargets : List FileEntry → Work (List (FileEntry × List UInt8))
  | [] => pure []
  | entry :: entries => do
    let target ← fs (openObject entry.checksum)
    let targets ← readTargets entries
    pure ((entry, target) :: targets)

def readPackedTargets (pack : List PackFrame × List (List UInt8)) (entries : List FileEntry) :
    Exec Error (List (FileEntry × List UInt8)) := do
  let assigned ← assignToFrames pack.1 entries
  let frames ← readFrames pack.2 assigned
  .ok frames.flatten

def decodeTargets : List (FileEntry × List UInt8) → Exec PackError Unit
  | [] => .ok ()
  | (entry, target) :: rest =>
    match entry.metadata with
    | .symlink encoding _ => do
      let _ ← decodeTarget entry.path target encoding
      decodeTargets rest
    | .regular _ => decodeTargets rest

def linkTargets (pack : PackId) (symlinks : List FileEntry) :
    Work (List (FileEntry × List UInt8)) := do
  let loose ← Effect.asks fun s => .ok (isPackLoose env.crates s.state.disk.dataDir pack)
  if loose then readTargets symlinks
  else do
    let opened ← obtainPack env pack
    reading (readPackedTargets opened symlinks)

/-- `preflight_symlink_targets`. -/
def preflightSymlinkTargets (pack : PackId) (entries : List FileEntry) : Work Unit :=
  let symlinks := entries.filter fun entry => entry.metadata.isSymlink
  if symlinks = [] then pure ()
  else do
    let targets ← linkTargets env pack symlinks
    packResult (decodeTargets targets)

end Entries

section Snapshot

variable (env : Env) (repo : Repository)

def withoutSuffix (stop s : String) : String := (Text.stripSuffix stop s).getD s

/-- `read_head`: the snapshot that is checked out, and since when. -/
def readHead (dataDir : DataDir) : Exec Error (Option SnapshotId × Option Nat) :=
  match dataDir.head with
  | none => .ok (none, none)
  | some (text, time) => do
    let id ← (SnapshotId.fromStr env.crates.unicode
      (withoutSuffix "\r" (withoutSuffix "\n" text))).mapError fun _ => .corruptHead
    .ok (some id, if env.timestamps then some time else none)

/-- The entries of a snapshot of an index. -/
def snapshotEntries (index : PackIndex) (tag : String) : Exec Error (List FileEntry) := do
  let found ← index.resolveSnapshot env.ord tag
  let handles ← Exec.unwrap found
  (index.entriesFromHandles handles).mapError .packError

def brokenHead (x : Exec Error α) : Exec Error α := x.mapError .brokenHeadRef

def headIndex (dataDir : DataDir) (pack : PackId) (sourceIndex : PackIndex) (head : SnapshotId) :
    Exec Error PackIndex :=
  if pack = head.pack then .ok sourceIndex else brokenHead (loadIndex env.crates dataDir head.pack)

/-- The entries of HEAD. -/
def headEntriesOf (dataDir : DataDir) (pack : PackId) (sourceIndex : PackIndex)
    (head : SnapshotId) : Exec Error (List FileEntry) := do
  let index ← headIndex env dataDir pack sourceIndex head
  let found ← index.resolveSnapshot env.ord head.tag
  let handles ← brokenHead (Exec.okOr (.packError (.snapshotNotFound head.tag)) found)
  (index.entriesFromHandles handles).mapError .packError

def loadHeadEntries (dataDir : DataDir) (opts : ExtractOptions) (pack : PackId)
    (sourceIndex : PackIndex) (head : Option SnapshotId) : Exec Error (List FileEntry) :=
  if opts.reset && opts.force then .ok []
  else match head with
  | some head => headEntriesOf env dataDir pack sourceIndex head
  | none => .ok []

/-- What an extraction is to do, before it looks at the working directory. -/
structure Plan where
  headTime : Option Nat
  headEntries : List FileEntry
  newEntries : List FileEntry
  oldEntries : List FileEntry

/-- The tracked paths that the target does not have. -/
def Plan.removed (plan : Plan) : List PackPath := removedPaths plan.newEntries plan.oldEntries

def planEntries (opts : ExtractOptions) (head : Option SnapshotId)
    (headEntries entries : List FileEntry) : List FileEntry × List FileEntry :=
  if opts.reset || head.isNone then (entries, [])
  else computeEntryDiff env.entryOrd headEntries entries

def plan (snapshot : SnapshotId) (opts : ExtractOptions) (dataDir : DataDir) : Exec Error Plan := do
  let (head, headTime) ← readHead env dataDir
  if head.isSome && headTime.isNone && !opts.force then Exec.fail .dirtyWorkDir
  else do
    let sourceIndex ← loadIndex env.crates dataDir snapshot.pack
    let entries ← snapshotEntries env sourceIndex snapshot.tag
    (preflightPathPolicy (entries.map FileEntry.path)).mapError .packError
    let headEntries ← loadHeadEntries env dataDir opts snapshot.pack sourceIndex head
    let (newEntries, oldEntries) := planEntries env opts head headEntries entries
    .ok ⟨headTime, headEntries, newEntries, oldEntries⟩

/-- The checks against the changes of a user. -/
def preflightUnforced (opts : ExtractOptions) (plan : Plan) : Work Unit :=
  if opts.force then pure ()
  else do
    checkEntriesUnchangedSince env repo plan.headTime plan.oldEntries
    preflightUntrackedCollisions repo plan.removed plan.newEntries plan.headEntries

/-- All that is checked before anything is removed. -/
def preflight (snapshot : SnapshotId) (opts : ExtractOptions) (plan : Plan) : Work Unit := do
  preflightDestinationAncestors repo plan.removed
    (plan.newEntries.map FileEntry.path ++ plan.removed)
  probe env repo plan.newEntries
  preflightSymlinkTargets env snapshot.pack plan.newEntries
  preflightUnforced env repo opts plan

/-- `update_head`. -/
def updateHead (snapshot : SnapshotId) : Work Unit :=
  if repo.readOnly then pure ()
  else onDisk [["trash".toUTF8.toList], ["HEAD".toUTF8.toList]] (Store.updateHead snapshot)

/-- What is changed once all checks have passed. -/
def mutate (snapshot : SnapshotId) (opts : ExtractOptions) (plan : Plan) : Work Unit := do
  fs (removePaths repo none (plan.removed.map native))
  extractEntriesPreflighted env repo snapshot.pack plan.newEntries opts
  updateHead repo snapshot

def Plan.result (plan : Plan) : ExtractResult :=
  let updated := (updatedPaths plan.newEntries plan.oldEntries).length
  ⟨UInt32.ofNat updated, UInt32.ofNat (plan.newEntries.length - updated),
    UInt32.ofNat plan.removed.length⟩

/-- `extract_snapshot`. -/
def extractSnapshot (snapshot : SnapshotId) (opts : ExtractOptions) : Work ExtractResult := do
  fs (inspect fun _ => .ok ())
  let plan ← Effect.asks fun s => plan env snapshot opts s.state.disk.dataDir
  preflight env repo snapshot opts plan
  mutate env repo snapshot opts plan
  pure plan.result

end Snapshot

end Elfshaker.Checkout
