import Elfshaker.Library.FileTree
import Elfshaker.Packs.Reader
import Elfshaker.Store.CreateSnapshot

namespace Elfshaker.Checkout

open Elfshaker.Library Elfshaker.Format Elfshaker.Store

/-- Where a repository is: its working directory, and its data directory, which
may lie inside of that or anywhere else. -/
structure Repository where
  path : Place
  dataDir : Place
  readOnly : Bool

/-- Something that a step has created, replaced or removed. -/
inductive Touch where
  /-- What a path in the working directory led to. -/
  | workTree (names : List Name) (place : Place)
  /-- A file of the repository itself. -/
  | repository (names : List Name)
  deriving DecidableEq

/-- The file system, the data directory with the time, and what was touched so far. -/
structure World where
  tree : FileTree
  disk : Disk
  touched : List Touch

abbrev FsCall (α : Type) := Effect (Session World Fault) IoError α

abbrev Work (α : Type) := Effect (Session World Fault) Error α

/-- A failed system call is an error of the repository. -/
def fs (x : FsCall α) : Work α := Effect.mapError Error.ioError x

/-- A failed system call is an error about a pack. -/
def packIo (x : FsCall α) : Work α := Effect.mapError (fun e => .packError (.ioError e)) x

def packResult (x : Exec PackError α) : Work α := Effect.lift (x.mapError .packError)

def Refusal.toIoError : Refusal → IoError
  | .notFound => .notFound
  | .alreadyExists => .alreadyExists
  | .notADirectory => .notADirectory
  | .isADirectory => .isADirectory
  | .directoryNotEmpty => .directoryNotEmpty
  | .filesystemLoop => .filesystemLoop
  | .invalidInput => .invalidInput
  | .busy => .other "Device or resource busy (os error 16)"

/-- What the system says where it fails for a reason that is not in the tree. -/
def faultError (fault : Fault) : IoError :=
  match fault.error with
  | .other message => .other message
  | _ => .other "Input/output error (os error 5)"

def refuse : Except Refusal α → Exec IoError α
  | .ok a => .ok a
  | .error e => Exec.fail (Refusal.toIoError e)

section Calls

/-- A step that only looks at the file system. -/
def inspect (f : FileTree → Except Refusal α) : FsCall α :=
  Session.os faultError (fun _ world => world) fun world => (refuse (f world.tree), world)

/-- A step that only looks at the data directory. -/
def inspectData (f : DataDir → Exec IoError α) : FsCall α :=
  Session.os faultError (fun _ world => world) fun world => (f world.disk.dataDir, world)

/-- The file system after a step, with a note of what the step touched. -/
def World.updated (world : World) (tree : FileTree) (touch : List Touch) : World :=
  ⟨tree, { world.disk with clock := world.disk.clock + 1 }, world.touched ++ touch⟩

def runChange (base : Place) (follow : Bool) (names : List Name)
    (op : Nat → Place → FileTree → Except Refusal FileTree) (world : World) :
    Exec IoError Unit × World :=
  match world.tree.resolve follow base names with
  | .error e => (Exec.fail (Refusal.toIoError e), world)
  | .ok place =>
    match op (world.disk.clock + 1) place world.tree with
    | .error e => (Exec.fail (Refusal.toIoError e), world)
    | .ok tree => (.ok (), world.updated tree [.workTree names place])

variable (repo : Repository)

/-- A step that changes what a path in the working directory leads to. -/
def change (follow : Bool) (names : List Name)
    (op : Nat → Place → FileTree → Except Refusal FileTree) : FsCall Unit :=
  Session.os faultError (fun _ world => world) (runChange repo.path follow names op)

/-- `fs::symlink_metadata`. -/
def symlinkMetadata (names : List Name) : FsCall FileNode :=
  inspect fun tree => tree.find false repo.path names

/-- `Path::is_dir`. -/
def isDir (names : List Name) : FsCall Bool := do
  let found ← Effect.attempt (inspect fun tree => tree.find true repo.path names)
  pure (found.toOption.any FileNode.isDir)

/-- `Result::is_ok` of a look at a path. -/
def isPresent (names : List Name) : FsCall Bool := do
  let found ← Effect.attempt (symlinkMetadata repo names)
  pure found.toOption.isSome

def readLinkNode : FileNode → Except Refusal (List UInt8)
  | .link target _ => .ok target
  | _ => .error .invalidInput

/-- `fs::read_link`. -/
def readLink (names : List Name) : FsCall (List UInt8) :=
  inspect fun tree => tree.find false repo.path names >>= readLinkNode

def createDir (names : List Name) : FsCall Unit :=
  change repo false names fun _ place tree => tree.add place .dir

def removeFile (names : List Name) : FsCall Unit :=
  change repo false names fun _ place tree => tree.unlink place

def removeDir (names : List Name) : FsCall Unit :=
  change repo false names fun _ place tree => tree.rmdir place

def makeLink (target : List UInt8) (now : Nat) (place : Place) (tree : FileTree) :
    Except Refusal FileTree :=
  if target = [] then .error .notFound
  else if 0 ∈ target then .error .invalidInput
  else tree.add place (.link target now)

/-- `symlink::create_native` on Unix. -/
def createNative (target : List UInt8) (names : List Name) : FsCall Unit :=
  change repo false names (makeLink target)

/-- What a new file may be used for before its mode is set. -/
def defaultMode : Permissions := 420

/-- `File::create`; what is there already is cut off. -/
def openTruncated (now : Nat) (place : Place) (tree : FileTree) : Except Refusal FileTree :=
  match tree.lookup place with
  | none => tree.add place (.file [] defaultMode now)
  | some (.file _ mode _) => tree.alter place (.file [] mode now)
  | some .dir => .error .isADirectory
  | some (.link _ _) => .error .filesystemLoop

def chmod (mode : UInt32) (place : Place) (tree : FileTree) : Except Refusal FileTree :=
  match tree.lookup place with
  | some (.file bytes _ mtime) => tree.alter place (.file bytes (Fin.ofNat 4096 mode.toNat) mtime)
  | some _ => .error .invalidInput
  | none => .error .notFound

/-- `create_file` with a mode. -/
def createFile (names : List Name) (mode : UInt32) : FsCall Unit := do
  change repo true names openTruncated
  change repo true names fun _ => chmod mode

def fillFile (bytes : List UInt8) (now : Nat) (place : Place) (tree : FileTree) :
    Except Refusal FileTree :=
  match tree.lookup place with
  | some (.file _ mode _) => tree.alter place (.file bytes mode now)
  | some _ => .error .invalidInput
  | none => .error .notFound

/-- `io::copy` into an open file; where it fails, a part is there. -/
def copyInto (names : List Name) (bytes : List UInt8) : FsCall Unit :=
  Session.os faultError
    (fun fault world => (runChange repo.path true names (fillFile (bytes.take fault.written)) world).2)
    (runChange repo.path true names (fillFile bytes))

def runRename (base : Place) (source dest : List Name) (world : World) :
    Exec IoError Unit × World :=
  match world.tree.resolve false base source, world.tree.resolve false base dest with
  | .ok sourcePlace, .ok destPlace =>
    match world.tree.move sourcePlace destPlace with
    | .error e => (Exec.fail (Refusal.toIoError e), world)
    | .ok tree =>
      (.ok (), world.updated tree [.workTree source sourcePlace, .workTree dest destPlace])
  | .error e, _ => (Exec.fail (Refusal.toIoError e), world)
  | _, .error e => (Exec.fail (Refusal.toIoError e), world)

/-- `fs::rename`. -/
def rename (source dest : List Name) : FsCall Unit :=
  Session.os faultError (fun _ world => world) (runRename repo.path source dest)

/-- `Path::is_dir` decides over an error. -/
def orIsDir (names : List Name) (e : IoError) : FsCall Unit := do
  let dir ← isDir repo names
  if dir then pure () else Effect.lift (Exec.fail e)

/-- `fs::create_dir_all`; the path is given from its last name on. -/
def createDirAllFrom : List Name → FsCall Unit
  | [] => (createDir repo []).orElse fun e => some (orIsDir repo [] e)
  | name :: above => (createDir repo (name :: above).reverse).orElse fun e =>
    if e = .notFound then some do
      createDirAllFrom above
      (createDir repo (name :: above).reverse).orElse fun e =>
        some (orIsDir repo (name :: above).reverse e)
    else some (orIsDir repo (name :: above).reverse e)

def createDirAll (names : List Name) : FsCall Unit := createDirAllFrom repo names.reverse

/-- What is at and below a place, what is deepest first. -/
def subtree (tree : FileTree) (place : Place) : List Place :=
  ((tree.nodes.keys.filter fun p => decide (place <:+ p))).insertionSort fun p q =>
    q.length ≤ p.length

/-- The names that lead from a place to one below it. -/
def namesFrom (place p : Place) : List Name := (p.take (p.length - place.length)).reverse

def runRemoveAt (names : List Name) (place p : Place) (world : World) :
    Exec IoError Unit × World :=
  let removed := match world.tree.lookup p with
    | some .dir => world.tree.rmdir p
    | _ => world.tree.unlink p
  match removed with
  | .error e => (Exec.fail (Refusal.toIoError e), world)
  | .ok tree => (.ok (), world.updated tree [.workTree (names ++ namesFrom place p) p])

def removeEach (names : List Name) (place : Place) : List Place → FsCall Unit
  | [] => pure ()
  | p :: rest => do
    Session.os faultError (fun _ world => world) (runRemoveAt names place p)
    removeEach names place rest

/-- `fs::remove_dir_all`. A link is removed itself, and none is followed. -/
def removeDirAll (names : List Name) : FsCall Unit := do
  match ← symlinkMetadata repo names with
  | .link _ _ => removeFile repo names
  | .file _ _ _ => Effect.lift (Exec.fail .notADirectory)
  | .dir => do
    let place ← inspect fun tree => tree.resolve false repo.path names
    let places ← inspect fun tree => .ok (subtree tree place)
    removeEach names place places

end Calls

end Elfshaker.Checkout
