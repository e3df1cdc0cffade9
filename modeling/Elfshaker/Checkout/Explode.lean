import Elfshaker.Checkout.Preflight
import Elfshaker.Packs.Reader
import Elfshaker.Store.LooseDir

namespace Elfshaker.Checkout.Explode

open Elfshaker.Library Elfshaker.Format Elfshaker.Store Elfshaker.Packs

/-- What an unpacking takes from outside: the crates, the packs that are there or that a
remote has, and the names that are drawn for temporary files. -/
structure Env where
  crates : Crates
  /-- The frames of a pack that is there, and their readers. -/
  openPack : DataDir → PackId → Exec Error (List PackFrame × List (List UInt8))
  /-- The packs directory after a pack was fetched. -/
  fetchPack : DataDir → PackId → Exec Error DirTree
  random : ObjectChecksum → LooseDir.RandomName

section Entries

def pathBytes (checksum : ObjectChecksum) : List UInt8 :=
  (looseObjectPath checksum).toList.map fun c => UInt8.ofNat c.toNat

def objectPath (checksum : ObjectChecksum) : Exec Error PackPath :=
  match PackPath.new (pathBytes checksum) with
  | .ok path => .ok path
  | .error _ => Exec.panic

/-- `PackPath::to_native`, for a path of letters, digits and slashes. -/
def toNative (path : PackPath) : String :=
  String.ofList (path.bytes.map fun b => Char.ofNat b.toNat)

def objectEntry (index : PackIndex) (checksum : ObjectChecksum) : Exec Error FileEntry := do
  let handle ← Exec.unwrap (index.objectPool.get checksum)
  let metadata ← Exec.unwrap (index.objectMetadata.lookup handle)
  let path ← objectPath checksum
  .ok ⟨path, checksum, metadata, .regular 0o644⟩

/-- An entry for each object of an index, at the path of the loose object. -/
def objectEntries (index : PackIndex) : Exec Error (List FileEntry) :=
  index.objectPool.entries.mapM (objectEntry index)

end Entries

section Extract

variable (env : Env)

def checkAncestors : List String → Call Unit
  | [] => pure ()
  | dir :: below => do
    match ← Effect.attempt (Io.look fun dd => .ok (dd.loose.present dir)) with
    | .ok true => checkAncestors below
    | .ok false => pure ()
    | .error e =>
      if isMissing e then pure () else Effect.lift (Exec.fail (.packError (.ioError e)))

/-- `preflight_destination_ancestors`; nothing in the loose directory is a link. -/
def preflightDestinationAncestors : List FileEntry → Call Unit
  | [] => pure ()
  | entry :: entries => do
    checkAncestors (DirTree.ancestors (toNative entry.path))
    preflightDestinationAncestors entries

def materialize (entry : FileEntry) (bytes : List UInt8) : Call Unit :=
  io (LooseDir.materializeRegular (env.random entry.checksum) bytes (toNative entry.path))

/-- The bytes of a loose object; those of an empty one are not looked up. -/
def looseBytes (entry : FileEntry) : Io (List UInt8) :=
  if entry.objectMetadata.size = 0 then pure []
  else Io.look fun dd => dd.loose.readFile (looseObjectPath entry.checksum)

def copyLooseEntry (entry : FileEntry) : Call Unit := do
  io (Io.createDirAll Io.onLoose (DirTree.ancestors (toNative entry.path)))
  let bytes ← io (looseBytes entry)
  materialize env entry bytes

/-- `copy_loose_entries` without a verification. -/
def copyLooseEntries (entries : List FileEntry) : Call Unit := do
  let _ ← Effect.runAll (copyLooseEntry env) entries
  pure ()

/-- What is written for an entry; an empty file is not taken from the buffer. -/
def contentOf (entry : FileEntry) (buf : List UInt8) : List UInt8 :=
  if entry.objectMetadata.size = 0 then [] else buf

/-- One read of a pack file, which the system may fail. -/
def reading (x : Exec Error α) : Call α := do
  io Io.passing
  Effect.lift x

def extractFilesFrom (verify : Bool) (reader buf : List UInt8) (pos : UInt64) :
    List FileEntry → Call Unit
  | [] => pure ()
  | entry :: entries =>
    let metadata := entry.objectMetadata
    if pos ≤ metadata.offset then do
      let (buf, reader) ← reading (readExact (seek reader (metadata.offset - pos)) metadata.size)
      let pos ← Effect.lift (Exec.checkedAdd metadata.offset metadata.size)
      Effect.lift (checkObject env.crates.sha1 verify buf entry.checksum)
      materialize env entry (contentOf entry buf)
      extractFilesFrom verify reader buf pos entries
    else do
      materialize env entry (contentOf entry buf)
      extractFilesFrom verify reader buf pos entries

/-- `extract_files` for one frame. -/
def extractFrame (verify : Bool) (task : List UInt8 × List FileEntry) : Call Unit :=
  extractFilesFrom env verify task.1 [] 0 (sortByOffset task.2)

/-- The frames that entries are read from, with their entries. -/
def tasksOf (readers : List (List UInt8)) (assigned : List (List FileEntry)) :
    List (List UInt8 × List FileEntry) :=
  (readers.zip assigned).filter fun task => !task.2.isEmpty

/-- `Pack::extract_entries`. -/
def extractPacked (verify : Bool) (pack : List PackFrame × List (List UInt8))
    (entries : List FileEntry) : Call Unit :=
  if entries = [] then pure ()
  else do
    Effect.lift (Exec.assert (!pack.1.isEmpty))
    let assigned ← Effect.lift (assignToFrames pack.1 entries)
    let _ ← Effect.lift (bytesToDecompress assigned)
    let _ ← Effect.runAll (extractFrame env verify) (tasksOf pack.2 assigned)
    pure ()

def openPack (pack : PackId) : Call (List PackFrame × List (List UInt8)) := do
  io Io.passing
  Effect.asks fun s => env.openPack s.state.dataDir pack

/-- `update_remote_pack`. -/
def updateRemotePack (pack : PackId) : Call Unit := fun s =>
  match env.fetchPack s.state.dataDir pack with
  | .ok packs => (.ok (), ⟨{ s.state with dataDir := { s.state.dataDir with packs } }, s.faults⟩)
  | .error e => (.error e, s)

/-- A pack that is there, or else that was fetched. -/
def obtainPack (pack : PackId) : Call (List PackFrame × List (List UInt8)) :=
  (openPack env pack).orElse fun _ => some do
    updateRemotePack env pack
    openPack env pack

/-- `extract_entries_preflighted`. -/
def extractEntriesPreflighted (pack : PackId) (entries : List FileEntry) (verify : Bool) :
    Call Unit := do
  let loose ← Effect.asks fun s => .ok (isPackLoose env.crates s.state.dataDir pack)
  if loose then copyLooseEntries env entries
  else do
    let opened ← obtainPack env pack
    extractPacked env verify opened entries

/-- `extract_entries` of regular files into the loose directory. No link is among them
that would be probed for. -/
def extractEntries (pack : PackId) (entries : List FileEntry) (verify : Bool) : Call Unit := do
  Effect.lift ((preflightPathPolicy (entries.map FileEntry.path)).mapError .packError)
  preflightDestinationAncestors entries
  extractEntriesPreflighted env pack entries verify

/-- `explode_pack`. What is written is not verified. -/
def explodePack (pack : PackId) : Call Unit := do
  io Io.passing
  let index ← Effect.asks fun s => loadIndex env.crates s.state.dataDir pack
  let entries ← Effect.lift (objectEntries index)
  extractEntries env pack entries false

end Extract

end Elfshaker.Checkout.Explode
