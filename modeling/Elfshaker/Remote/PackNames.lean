import Elfshaker.Packs.CrashConsistency
import Elfshaker.Remote.RemoteIndex

namespace Elfshaker.Remote

open Elfshaker.Library Elfshaker.Format Elfshaker.Store Elfshaker.Packs

/-- A server, and what makes of its URLs. There is one answer for each entry. -/
structure Server (Url : Type) where
  urls : Urls Url
  answer : Nat → Except String Reply

/-- `Path::join`, for a name with no separator. -/
def joinName (base name : String) : String :=
  if name = "" then base else base ++ "/" ++ name

section Update

variable (crates : Crates) (server : Server Url)

/-- The name of the file in which the index of a pack is kept. -/
def packIndexFileName (pack : RemotePack) : Option String :=
  (server.urls.parse (pack.url ++ ".idx")).bind server.urls.lastSegment

/-- What comes of reading a file that may not be there. -/
def compareChecksum (checksum : ObjectChecksum) : Except IoError (List UInt8) → Exec Error Bool
  | .ok bytes => .ok (decide (crates.sha1 bytes = checksum))
  | .error .notFound => .ok false
  | .error e => Exec.fail (.ioError e)

def verifyChecksumIn (path : String) (checksum : ObjectChecksum) : Call Bool := do
  let read ← Effect.attempt (Io.look fun dd => dd.packs.readFile path)
  Effect.lift (compareChecksum crates checksum read)

/-- `fs::write`. -/
def writeIn (path : String) (bytes : List UInt8) : Io Unit := do
  Io.onPacks (DirTree.openCreate path)
  Io.writeToPacks path bytes

/-- A body that is no pack index is not written, but that is not an error. -/
def installIn (path : String) (bytes : List UInt8) : Call Unit :=
  match PackIndex.parse crates.rmp bytes with
  | .ok _ => io (writeIn path bytes)
  | .error (.error _) => pure ()
  | .error .panic => Effect.lift Exec.panic

def acceptIn (path : String) (expectedSize : Option UInt64) : RemoteResource → Call Unit
  | .found bytes =>
    if SizeFits expectedSize bytes then installIn crates path bytes
    else Effect.lift (Exec.fail .corruptPackIndex)
  | .notModified => pure ()
  | .notFound => Effect.lift (Exec.fail (.httpError (httpFailure httpStatusNotFound)))

def updatePackIndexIn (n : Nat) (path : String) (expectedSize : Option UInt64) : Call Unit := do
  let resource ← Effect.lift (readRemoteResource (server.answer n))
  acceptIn crates path expectedSize resource

def updateEntryIn (base : String) (n : Nat) (pack : RemotePack) : Call Unit := do
  let name ← Effect.lift (Exec.unwrap (packIndexFileName server pack))
  let path := joinName base name
  let upToDate ← verifyChecksumIn crates path pack.indexChecksum
  if upToDate then pure () else updatePackIndexIn crates server n path pack.indexSize

def updateEntriesIn (base : String) : List (RemotePack × Nat) → Call Unit
  | [] => pure ()
  | (pack, n) :: rest => do
    updateEntryIn crates server base n pack
    let _ ← Effect.lift pack.fileName
    updateEntriesIn base rest

/-- `update_remote_pack_indexes`, in a directory below that of the packs. The directory
is made where it is missing. -/
def updateRemotePackIndexesIn (base : String) (remote : RemoteIndex) : Call Unit := do
  io (Io.createDirAll Io.onPacks (DirTree.ancestors (base ++ "/")))
  updateEntriesIn crates server base remote.packs.zipIdx

/-- What the files are named after are identifiers of packs, where discovery takes them
for indexes. -/
def NamesPacks (base : String) (remote : RemoteIndex) : Prop :=
  ∀ pack ∈ remote.packs, ∀ name, packIndexFileName server pack = some name →
    ∀ id, PackId.fromIndexPath (joinName base name) = some id → PackId.isValidRegular id.name = true

end Update

section Keeps

variable {crates : Crates} {server : Server Url} {P : Disk → Prop}

theorem keeps_acceptIn {path : String} {expectedSize : Option UInt64} {resource : RemoteResource}
    (writes : ∀ bytes, Io.KeepsDisk P (writeIn path bytes)) :
    Io.KeepsDisk P (acceptIn crates path expectedSize resource) := by
  cases resource with
  | found bytes =>
    dsimp only [acceptIn]
    split_ifs
    · unfold installIn
      split
      · exact keeps_io (writes bytes)
      · exact .pure ()
      · exact .lift _
    · exact .lift _
  | notModified => exact .pure ()
  | notFound => exact .lift _

/-- The file of an entry is all that is written. -/
theorem keeps_updateEntryIn {base : String} {n : Nat} {pack : RemotePack}
    (writes : ∀ name, packIndexFileName server pack = some name → ∀ bytes,
      Io.KeepsDisk P (writeIn (joinName base name) bytes)) :
    Io.KeepsDisk P (updateEntryIn crates server base n pack) := by
  refine (Effect.Keeps.lift _).bind_ok fun name s s' hname => ?_
  have hwrite := writes name (Exec.unwrap_eq_ok.mp (Effect.lift_eq_ok.mp hname).1)
  have hverify : Io.KeepsDisk P (verifyChecksumIn crates (joinName base name) pack.indexChecksum) :=
    (Io.keeps_look _).attempt.bind fun _ => .lift _
  refine hverify.bind fun upToDate => ?_
  split_ifs
  · exact .pure ()
  exact (Effect.Keeps.lift _).bind fun resource => keeps_acceptIn hwrite

theorem keeps_updateRemotePackIndexesIn {base : String} {remote : RemoteIndex}
    (dirs : ∀ dir isLast, Io.KeepsDisk P (Io.onPacks (DirTree.makeDir dir isLast)))
    (writes : ∀ pack ∈ remote.packs, ∀ name, packIndexFileName server pack = some name →
      ∀ bytes, Io.KeepsDisk P (writeIn (joinName base name) bytes)) :
    Io.KeepsDisk P (updateRemotePackIndexesIn crates server base remote) := by
  have hentries (entries : List (RemotePack × Nat)) (hentries : ∀ entry ∈ entries, entry.1 ∈ remote.packs) :
      Io.KeepsDisk P (updateEntriesIn crates server base entries) := by
    induction entries with
    | nil => exact .pure ()
    | cons entry rest ih =>
      obtain ⟨pack, n⟩ := entry
      have hpack := hentries (pack, n) List.mem_cons_self
      refine (keeps_updateEntryIn (writes pack hpack)).bind fun _ => (Effect.Keeps.lift _).bind fun _ => ?_
      exact ih fun entry hentry => hentries entry (List.mem_cons_of_mem _ hentry)
  refine (keeps_io (Io.keeps_createDirAll dirs)).bind fun _ => hentries _ fun entry hentry => ?_
  have hmem := List.mem_map_of_mem (f := Prod.fst) hentry
  rwa [List.zipIdx_map_fst] at hmem

end Keeps

end Elfshaker.Remote
