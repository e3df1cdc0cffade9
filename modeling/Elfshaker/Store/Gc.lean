import Elfshaker.Library.Numerals
import Elfshaker.Store.Repository

namespace Elfshaker.Store

open Elfshaker.Library Elfshaker.Format

structure GcOptions where
  dryRun : Bool
  looseSnapshots : Bool
  looseObjects : Bool
  deriving DecidableEq, Repr

/-- The orders in which threads and hash maps hand over what is to be deleted. -/
structure GcOrders where
  snapshots : IterOrder SnapshotId
  objects : IterOrder ObjectChecksum

abbrev Groups := AList fun _ : ObjectChecksum => List SnapshotId

section Objects

/-- The file of a loose object, relative to the loose directory. -/
def looseObjectPath (checksum : ObjectChecksum) : String :=
  let hex := hexEncode checksum.bytes
  String.ofList (hex.take 2 ++ '/' :: ((hex.drop 2).take 2 ++ '/' :: hex.drop 4))

/-- The checksum that the last three components of a path spell. Above the loose
directory there is nothing that could be read as one. -/
def looseObjectChecksum (path : String) : Exec Error ObjectChecksum :=
  match (path.toList.splitOn '/').reverse with
  | hex4 :: hex2 :: hex0 :: _ =>
    match hexDecode hex0, hexDecode hex2, hexDecode hex4 with
    | some bytes0, some bytes2, some bytes4 =>
      if h : (bytes0 ++ bytes2 ++ bytes4).length = 20 then .ok ⟨bytes0 ++ bytes2 ++ bytes4, h⟩
      else Exec.fail (.badLooseObject path)
    | _, _, _ => Exec.fail (.badLooseObject path)
  | _ => Exec.fail (.badLooseObject path)

end Objects

section Collection

variable (crates : Crates) (ord : IterOrder FileHandle)

/-- The snapshots of one pack with their checksums; each tag counts once. -/
def snapshotChecksums (dd : DataDir) (id : PackId) :
    Exec Error (List (SnapshotId × ObjectChecksum)) := do
  let index ← loadIndex crates dd id
  index.snapshotTags.dedup.mapM fun tag => do
    let found ← index.computeSnapshotChecksum crates.sha1 ord tag
    let checksum ← Exec.unwrap found
    Exec.assert (SnapshotId.isValid crates.unicode tag)
    .ok (⟨id, tag⟩, checksum)

def addToGroup (groups : Groups) (entry : SnapshotId × ObjectChecksum) : Groups :=
  groups.insert entry.2 ((groups.lookup entry.2).getD [] ++ [entry.1])

def findDuplicateSnapshots (dd : DataDir) (ids : List PackId) : Exec Error Groups := do
  let found ← ids.mapM (snapshotChecksums crates ord dd)
  .ok (found.flatten.foldl addToGroup ∅)

/-- The loose snapshots of a group of equal ones that has a packed one. -/
def looseDuplicates (dd : DataDir) (group : List SnapshotId) : List SnapshotId :=
  if 1 < group.length ∧ group.any (fun s => !isPackLoose crates dd s.pack) then
    group.filter fun s => isPackLoose crates dd s.pack
  else []

def duplicatesOf (dd : DataDir) (groups : Groups) : List SnapshotId :=
  groups.entries.flatMap fun group => looseDuplicates crates dd group.2

/-- The pack of a loose snapshot is named after it. -/
def loosePackOf (snapshot : SnapshotId) : Exec Error PackId := do
  Exec.assert (snapshot.pack = PackId.looseOf snapshot.tag)
  .ok snapshot.pack

def findRedundantLoosePacks (orders : GcOrders) (dd : DataDir) : Exec Error (List PackId) := do
  let ids ← packs crates dd
  let groups ← findDuplicateSnapshots crates ord dd ids
  (orders.snapshots.visit (duplicatesOf crates dd groups)).mapM loosePackOf

/-- Deletes the index of a pack, and the pack where it is not loose. -/
def deletePack (dd : DataDir) (id : PackId) : Exec Error DataDir := do
  (id.validate crates.unicode).mapError fun _ => .ioError .invalidInput
  let isLoose := isPackLoose crates dd id
  let packExists := dd.packs.present id.packPath
  if isLoose && packExists then
    Exec.fail (.ioError (.other "Unexpected .pack for loose"))
  else if !isLoose && !packExists then
    Exec.fail (.ioError .notFound)
  else
    let tree ← (dd.packs.removeFile id.indexPath).mapError .ioError
    if isLoose then
      let dirs := (DirTree.ancestors id.indexPath).tail.reverse
      let tree ← (tree.removeEmptyDirs dirs).mapError .ioError
      .ok { dd with packs := tree }
    else
      let tree ← (tree.removeFile id.packPath).mapError .ioError
      .ok { dd with packs := tree }

/-- The sizes that are reported for a pack, from files that have to be there. -/
def getPackDiskStats (dd : DataDir) (id : PackId) : Exec Error Nat := do
  (id.validate crates.unicode).mapError fun _ => .ioError .invalidInput
  match dd.packs.lookup id.indexPath with
  | none => Exec.fail (.ioError .notFound)
  | some index =>
    let size : Node → Nat
      | .file bytes _ => bytes.length
      | .dir => 0
    let packSize :=
      if isPackLoose crates dd id then 0 else ((dd.packs.lookup id.packPath).map size).getD 0
    .ok (packSize + size index)

/-- Deletes redundant packs one by one, and keeps the roots that are left. -/
def collectSnapshots (dryRun : Bool) : DataDir → List PackId → List PackId →
    Exec Error (DataDir × List PackId)
  | dd, roots, [] => .ok (dd, roots)
  | dd, roots, id :: rest => do
    Exec.assert (id ∈ roots)
    let _ ← getPackDiskStats crates dd id
    let dd ← if dryRun then .ok dd else deletePack crates dd id
    collectSnapshots dryRun dd (roots.erase id) rest

def findUnreferencedObjects (dd : DataDir) (roots : List PackId) :
    Exec Error (HashSet ObjectChecksum) := do
  let onDisk ← dd.loose.files.mapM fun file => looseObjectChecksum file.1
  let indexes ← roots.mapM (loadIndex crates dd)
  let referenced := indexes.flatMap fun index => index.objectPool.entries
  .ok (referenced.foldl (fun objects checksum => (objects.remove checksum).1)
    (HashSet.ofList onDisk))

def deleteObject (dd : DataDir) (checksum : ObjectChecksum) : Exec Error DataDir := do
  let tree ← (dd.loose.removeFile (looseObjectPath checksum)).mapError .ioError
  .ok { dd with loose := tree }

def getObjectDiskStats (dd : DataDir) (checksum : ObjectChecksum) : Exec Error Nat :=
  match dd.loose.lookup (looseObjectPath checksum) with
  | some (.file bytes _) => .ok bytes.length
  | some .dir => .ok 0
  | none => Exec.fail (.ioError .notFound)

def collectObjects (dryRun : Bool) : DataDir → List ObjectChecksum → Exec Error DataDir
  | dd, [] => .ok dd
  | dd, checksum :: rest => do
    let _ ← getObjectDiskStats dd checksum
    let dd ← if dryRun then .ok dd else deleteObject dd checksum
    collectObjects dryRun dd rest

/-- The snapshot phase of a collection: what it leaves, with the roots for the
object phase. -/
def gcSnapshots (orders : GcOrders) (opts : GcOptions) (dd : DataDir) :
    Exec Error (DataDir × List PackId) := do
  let roots ← loosePacks crates dd
  if opts.looseSnapshots then
    let redundant ← findRedundantLoosePacks crates ord orders dd
    collectSnapshots crates opts.dryRun dd roots redundant
  else .ok (dd, roots)

def gc (orders : GcOrders) (opts : GcOptions) (dd : DataDir) : Exec Error DataDir :=
  if !opts.looseSnapshots && !opts.looseObjects then Exec.fail .invalidOptions
  else do
    let (dd, roots) ← gcSnapshots crates ord orders opts dd
    if opts.looseObjects then
      let objects ← findUnreferencedObjects crates dd roots
      collectObjects opts.dryRun dd (objects.iter orders.objects)
    else .ok dd

end Collection

end Elfshaker.Store
