import Elfshaker.Format.Entry
import Elfshaker.Library.Effect
import Elfshaker.Library.Numerals
import Elfshaker.Library.Text
import Mathlib.Logic.Function.Basic

namespace Elfshaker.Esi

open Elfshaker.Library Elfshaker.Format

structure DocumentWrite where
  path : String
  contents : List UInt8
  backup : Bool

/-- A regular file. -/
structure File where
  bytes : List UInt8
  permissions : UInt32
  deriving DecidableEq

/-- What the system is asked to do before there is anything to undo. -/
inductive Operation where
  | canonicalize
  | read
  | metadata
  | create
  | write
  | sync
  | setPermissions
  | replace
  deriving DecidableEq, Repr

/-- The operation that fails, which comes after `after` others of its kind. A file that
is there is not said to be missing. -/
structure Failing where
  operation : Operation
  after : Nat
  error : IoError
  /-- How much of a write is done. -/
  written : Nat
  present : error ≠ .notFound

/-- The files, how many names have been drawn, and what is still to fail. -/
structure Disk where
  files : String → Option File
  drawn : Nat
  failing : Option Failing

structure System where
  random : Nat → List UInt8
  random_length : ∀ n, (random n).length = 16
  /-- Where a path leads. -/
  canonical : String → String
  currentDir : Except IoError String
  newPermissions : UInt32
  display : IoError → String

inductive CommitError where
  | system (error : IoError)
  | invalidInput (message : String)
  | alreadyExists (message : String)
  | other (message : String)

def CommitError.text (system : System) : CommitError → String
  | .system error => system.display error
  | .invalidInput message => message
  | .alreadyExists message => message
  | .other message => message

abbrev Commit (α : Type) := Effect Disk CommitError α

def Disk.put (path : String) (file : Option File) (s : Disk) : Disk :=
  { s with files := Function.update s.files path file }

section Operations

/-- An operation, and what is left of it where it is the one that fails. -/
def os (operation : Operation) (broken : Failing → Disk → Disk)
    (run : Disk → Exec CommitError α × Disk) : Commit α := fun s =>
  match s.failing with
  | none => run s
  | some failing =>
    if failing.operation = operation then
      match failing.after with
      | 0 => (Exec.fail (.system failing.error), broken failing { s with failing := none })
      | n + 1 => run { s with failing := some { failing with after := n } }
    else run s

/-- An operation on a file that is there. -/
def onFile (operation : Operation) (path : String) (broken : Failing → Disk → Disk)
    (run : File → Disk → α × Disk) : Commit α :=
  os operation broken fun s =>
    match s.files path with
    | some file => (.ok (run file s).1, (run file s).2)
    | none => (Exec.fail (.system .notFound), s)

/-- `fs::canonicalize`. -/
def canonicalize (system : System) (path : String) : Commit String :=
  onFile .canonicalize path (fun _ s => s) fun _ s => (system.canonical path, s)

/-- `fs::read`. -/
def read (path : String) : Commit (List UInt8) :=
  onFile .read path (fun _ s => s) fun file s => (file.bytes, s)

/-- `fs::metadata`. -/
def metadata (path : String) : Commit UInt32 :=
  onFile .metadata path (fun _ s => s) fun file s => (file.permissions, s)

/-- Opens a file that must not be there. -/
def createNew (system : System) (path : String) : Commit Unit :=
  os .create (fun _ s => s) fun s =>
    match s.files path with
    | some _ => (Exec.fail (.system .alreadyExists), s)
    | none => (.ok (), s.put path (some ⟨[], system.newPermissions⟩))

/-- What a write that fails leaves in the file. -/
def writeBroken (path : String) (contents : List UInt8) (failing : Failing) (s : Disk) : Disk :=
  s.put path ((s.files path).map fun file => { file with bytes := contents.take failing.written })

/-- `write_all`, to a file that has just been made. -/
def writeAll (path : String) (contents : List UInt8) : Commit Unit :=
  onFile .write path (writeBroken path contents) fun file s =>
    ((), s.put path (some { file with bytes := contents }))

def syncData (path : String) : Commit Unit :=
  onFile .sync path (fun _ s => s) fun _ s => ((), s)

def setPermissions (path : String) (permissions : UInt32) : Commit Unit :=
  onFile .setPermissions path (fun _ s => s) fun file s =>
    ((), s.put path (some { file with permissions }))

/-- `fs::rename`, where it replaces a file. -/
def replaceFile (source target : String) : Commit Unit :=
  onFile .replace source (fun _ s => s) fun file s => ((), (s.put source none).put target (some file))

/-- `fs::remove_file`, which only undoes and cleans up, and does not fail then. -/
def removeFile (path : String) : Commit Unit := Effect.modify (Disk.put path none)

def draw (system : System) : Commit (List UInt8) := fun s =>
  (.ok (system.random s.drawn), { s with drawn := s.drawn + 1 })

end Operations

def backupPath (path : String) : String := path ++ ".bak"

/-- The text up to the last separator, with it. -/
def directory (path : String) : String :=
  match Text.rsplitOnce '/' path.toList with
  | some (before, _) => String.ofList before ++ "/"
  | none => ""

/-- The name of a staging file beside its target. -/
def stagingPath (target : String) (random : List UInt8) : String :=
  directory target ++ ".elfshaker-esi-" ++ String.ofList (hexEncode random)

def createStagingFile (system : System) (target : String) : Nat → Commit String
  | 0 => Effect.lift (Exec.fail (.alreadyExists "could not allocate a unique ESI staging file"))
  | n + 1 => do
    let random ← draw system
    let path := stagingPath target random
    match ← Effect.attempt (createNew system path) with
    | .ok _ => pure path
    | .error (.system .alreadyExists) => createStagingFile system target n
    | .error error => Effect.lift (Exec.fail error)

/-- The path of a staging file, which is empty once it has been published. -/
structure StagedFile where
  path : String

namespace StagedFile

def setAny (path : String) : Option UInt32 → Commit Unit
  | some permissions => setPermissions path permissions
  | none => pure ()

/-- Where a step after the first one fails, nothing owns the file yet. -/
def new (system : System) (target : String) (contents : List UInt8)
    (permissions : Option UInt32) : Commit StagedFile := do
  let path ← createStagingFile system target 100
  writeAll path contents
  syncData path
  setAny path permissions
  pure ⟨path⟩

def publish (staged : StagedFile) (target : String) : Commit StagedFile := do
  replaceFile staged.path target
  pure ⟨""⟩

def drop (staged : StagedFile) : Commit Unit :=
  if staged.path = "" then pure () else removeFile staged.path

end StagedFile

/-- A file that is to be replaced: itself or a backup. -/
structure PendingFile where
  path : String
  replacement : StagedFile
  restore : Option StagedFile
  existed : Bool
  published : Bool

abbrev PendingBackup := PendingFile

structure PendingWrite extends PendingFile where
  backup : Option PendingBackup

def dropOption : Option StagedFile → Commit Unit
  | some staged => staged.drop
  | none => pure ()

def PendingFile.drop (pending : PendingFile) : Commit Unit := do
  pending.replacement.drop
  dropOption pending.restore

def PendingWrite.drop (pending : PendingWrite) : Commit Unit := do
  pending.toPendingFile.drop
  match pending.backup with
  | some backup => backup.drop
  | none => pure ()

def dropAll : List PendingWrite → Commit Unit
  | [] => pure ()
  | pending :: rest => do
    pending.drop
    dropAll rest

def readExisting (path : String) : Commit (Option File) := do
  match ← Effect.attempt (read path) with
  | .ok bytes =>
    let permissions ← metadata path
    pure (some ⟨bytes, permissions⟩)
  | .error (.system .notFound) => pure none
  | .error error => Effect.lift (Exec.fail error)

def pathIdentity (system : System) (path : String) : Commit String := do
  match ← Effect.attempt (canonicalize system path) with
  | .ok identity => pure identity
  | .error (.system .notFound) =>
    if path.toList.head? = some '/' then pure path
    else match system.currentDir with
    | .ok dir => pure (dir ++ "/" ++ path)
    | .error error => Effect.lift (Exec.fail (.system error))
  | .error error => Effect.lift (Exec.fail error)

/-- The identities of paths, none of which has been seen. -/
def checkPaths (system : System) (message : String → String) (seen : List String) :
    List String → Commit (List String)
  | [] => pure seen
  | path :: rest => do
    let identity ← pathIdentity system path
    if identity ∈ seen then Effect.lift (Exec.fail (.invalidInput (message path)))
    else checkPaths system message (identity :: seen) rest

def backups (writes : List DocumentWrite) : List String :=
  (writes.filter DocumentWrite.backup).map fun write => backupPath write.path

def validateDocumentWrites (system : System) (writes : List DocumentWrite) : Commit Unit := do
  let seen ← checkPaths system (fun path => s!"duplicate ESI target '{path}'") []
    (writes.map DocumentWrite.path)
  let _ ← checkPaths system
    (fun path => s!"ESI backup destination '{path}' aliases an operation target or backup") seen
    (backups writes)

section Stage

variable (system : System)

/-- The old file at a path is staged as well, so that it can be put back. -/
def stageRestore (path : String) (old : Option File) (owned : Commit Unit) :
    Commit (Option StagedFile) :=
  match old with
  | some state => do
    let restore ← Effect.onError
      (StagedFile.new system path state.bytes (some state.permissions)) owned
    pure (some restore)
  | none => pure none

def stageBackup (write : DocumentWrite) (original : File) : Commit PendingBackup := do
  let path := backupPath write.path
  let previous ← readExisting path
  let permissions := (previous.map File.permissions).getD original.permissions
  let replacement ← StagedFile.new system path original.bytes (some permissions)
  let restore ← stageRestore system path previous replacement.drop
  pure ⟨path, replacement, restore, previous.isSome, false⟩

/-- There is a backup where it is asked for and there is something to keep. -/
def stageAnyBackup (write : DocumentWrite) (original : Option File) (owned : Commit Unit) :
    Commit (Option PendingBackup) :=
  match write.backup, original with
  | true, some original => do
    let backup ← Effect.onError (stageBackup system write original) owned
    pure (some backup)
  | _, _ => pure none

def stage (write : DocumentWrite) : Commit PendingWrite := do
  let original ← readExisting write.path
  let replacement ← StagedFile.new system write.path write.contents (original.map File.permissions)
  let restore ← stageRestore system write.path original replacement.drop
  let backup ← stageAnyBackup system write original do
    dropOption restore
    replacement.drop
  pure ⟨⟨write.path, replacement, restore, original.isSome, false⟩, backup⟩

def stageAll (pending : List PendingWrite) : List DocumentWrite → Commit (List PendingWrite)
  | [] => pure pending
  | write :: writes => do
    let item ← Effect.onError (stage system write) (dropAll pending)
    stageAll (pending ++ [item]) writes

end Stage

section Publish

def PendingFile.publish (pending : PendingFile) : Commit PendingFile := do
  let replacement ← pending.replacement.publish pending.path
  pure { pending with replacement, published := true }

/-- The backup comes first. What has been done is known also where it fails. -/
def PendingWrite.publish (pending : PendingWrite) :
    Commit (PendingWrite × Except CommitError Unit) := do
  match ← Effect.attempt (pending.backup.mapM PendingFile.publish) with
  | .error error => pure (pending, .error error)
  | .ok backup =>
    match ← Effect.attempt pending.toPendingFile.publish with
    | .error error => pure (⟨pending.toPendingFile, backup⟩, .error error)
    | .ok file => pure (⟨file, backup⟩, .ok ())

def publishAll (done : List PendingWrite) : List PendingWrite →
    Commit (List PendingWrite × Except CommitError Unit)
  | [] => pure (done, .ok ())
  | item :: rest => do
    match ← item.publish with
    | (item, .ok ()) => publishAll (done ++ [item]) rest
    | (item, .error error) => pure (done ++ item :: rest, .error error)

/-- A call, and its error. -/
def keepError (x : Commit Unit) : Commit (Option CommitError) := do
  match ← Effect.attempt x with
  | .ok _ => pure none
  | .error error => pure (some error)

def PendingFile.rollback (pending : PendingFile) : Commit (PendingFile × Option CommitError) := do
  if pending.published then
    match pending.restore with
    | some restore =>
      match ← Effect.attempt (restore.publish pending.path) with
      | .ok restore => pure ({ pending with restore := some restore }, none)
      | .error error => pure (pending, some error)
    | none =>
      if pending.existed then pure (pending, none)
      else
        let error ← keepError (removeFile pending.path)
        pure (pending, error)
  else pure (pending, none)

def PendingWrite.rollback (pending : PendingWrite) :
    Commit (PendingWrite × Option CommitError) := do
  let (file, error) ← pending.toPendingFile.rollback
  match pending.backup with
  | some backup =>
    let (backup, backupError) ← backup.rollback
    pure (⟨file, some backup⟩, error.or backupError)
  | none => pure (⟨file, none⟩, error)

/-- From the last to the first; the first error is the result. -/
def rollback : List PendingWrite → Commit (List PendingWrite × Option CommitError)
  | [] => pure ([], none)
  | item :: rest => do
    let (rest, error) ← rollback rest
    let (item, itemError) ← item.rollback
    pure (item :: rest, error.or itemError)

end Publish

/-- What comes after the publication. -/
def conclude (system : System) (pending : List PendingWrite) : Except CommitError Unit → Commit Unit
  | .ok () => dropAll pending
  | .error error => do
    let (pending, rollbackError) ← rollback pending
    dropAll pending
    match rollbackError with
    | none => Effect.lift (Exec.fail error)
    | some rollbackError =>
      let error := error.text system
      let rollbackError := rollbackError.text system
      Effect.lift (Exec.fail (.other s!"{error}; rollback failed: {rollbackError}"))

def commitDocuments (system : System) (writes : List DocumentWrite) : Commit Unit := do
  validateDocumentWrites system writes
  let pending ← stageAll system [] writes
  let (pending, result) ← publishAll [] pending
  conclude system pending result

end Elfshaker.Esi
