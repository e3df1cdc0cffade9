import Elfshaker.Checkout.Materialize

namespace Elfshaker.Checkout

open Elfshaker.Library Elfshaker.Format Elfshaker.Store

/-- `PackPath::to_native` on Unix, where every path has a native form. -/
def native (path : PackPath) : List Name := path.components

section PathPolicy

/-- The first path that was there before. -/
def firstRepeated (seen : List PackPath) : List PackPath → Option PackPath
  | [] => none
  | path :: paths => if path ∈ seen then some path else firstRepeated (path :: seen) paths

/-- `target_path_key` on Unix. -/
def targetPathKey (path : PackPath) : List (List UInt8) := path.components

def isComponentPrefix (left right : List (List UInt8)) : Bool :=
  left.length < right.length && left.isPrefixOf right

def checkNeighbours : List PackPath → Exec PackError Unit
  | left :: right :: rest =>
    if targetPathKey left = targetPathKey right then Exec.fail (.targetPathCollision left right)
    else if isComponentPrefix (targetPathKey left) (targetPathKey right) then
      Exec.fail (.pathPrefixConflict left right)
    else checkNeighbours (right :: rest)
  | _ => .ok ()

def sortByKey (paths : List PackPath) : List PackPath :=
  paths.insertionSort fun left right => targetPathKey left ≤ targetPathKey right

/-- `preflight_path_policy`. -/
def preflightPathPolicy (paths : List PackPath) : Exec PackError Unit :=
  match firstRepeated [] paths with
  | some path => Exec.fail (.duplicateLogicalPath path)
  | none => checkNeighbours (sortByKey paths)

end PathPolicy

section Diff

/-- What tells entries apart: not where their objects lie. -/
def entryKey (entry : FileEntry) : PackPath × ObjectChecksum × EntryMetadata :=
  (entry.path, entry.checksum, entry.metadata)

/-- The values of a hash map that is filled with entries under their keys. -/
def collectByKey : List FileEntry → List FileEntry
  | [] => []
  | entry :: entries =>
    if entryKey entry ∈ entries.map entryKey then collectByKey entries
    else entry :: collectByKey entries

/-- The entries of the first list whose keys are not in the second. -/
def missingFrom (entryOrd : IterOrder FileEntry) (entries others : List FileEntry) :
    List FileEntry :=
  (entryOrd.visit (collectByKey entries)).filter fun entry =>
    entryKey entry ∉ others.map entryKey

/-- `compute_entry_diff`: the added entries and the removed ones. -/
def computeEntryDiff (entryOrd : IterOrder FileEntry) (fromEntries toEntries : List FileEntry) :
    List FileEntry × List FileEntry :=
  (missingFrom entryOrd toEntries fromEntries, missingFrom entryOrd fromEntries toEntries)

def pathsOf (entries : List FileEntry) : List PackPath := (entries.map FileEntry.path).dedup

/-- The paths that are in both lists. -/
def updatedPaths (newEntries oldEntries : List FileEntry) : List PackPath :=
  (pathsOf newEntries).filter fun path => path ∈ pathsOf oldEntries

/-- The paths that only the old entries have, in ascending order. -/
def removedPaths (newEntries oldEntries : List FileEntry) : List PackPath :=
  ((pathsOf oldEntries).filter fun path => path ∉ pathsOf newEntries).insertionSort
    fun left right => left.bytes ≤ right.bytes

end Diff

section Tree

variable (env : Env) (repo : Repository) (removable : List PackPath)

/-- Whether a look at a path found nothing there. -/
def isMissing (e : IoError) : Bool := e = .notFound || e = .notADirectory

/-- `check_destination_ancestors`, behind the names that are checked already. -/
def checkDestinationAncestors (checked : List Name) : List Name → Work Unit
  | [] => pure ()
  | [_] => pure ()
  | name :: rest => do
    match ← Effect.attempt (symlinkMetadata repo (checked ++ [name])) with
    | .ok node =>
      if node.isLink && !decide (checked ++ [name] ∈ removable.map native) then
        packResult (Exec.fail (.symlinkedDestination (absolute repo (checked ++ [name]))))
      else checkDestinationAncestors (checked ++ [name]) rest
    | .error e => if isMissing e then pure () else packResult (Exec.fail (.ioError e))

/-- `preflight_destination_ancestors`. -/
def preflightDestinationAncestors : List PackPath → Work Unit
  | [] => pure ()
  | path :: paths => do
    checkDestinationAncestors repo removable [] (native path)
    preflightDestinationAncestors paths

def lastModified : FileNode → Option Nat
  | .dir => none
  | .file _ _ mtime => some mtime
  | .link _ mtime => some mtime

def failDirty : Work α := Effect.lift (Exec.fail .dirtyWorkDir)

def checkKind (entry : FileEntry) (names : List Name) (node : FileNode) : Work Bool :=
  match entry.metadata with
  | .regular _ => pure node.isFile
  | .symlink encoding _ =>
    if node.isLink then do
      let verified ← Effect.attempt (verifyMaterialized env repo entry.path names encoding
        entry.checksum)
      pure verified.toOption.isSome
    else pure false

/-- `check_entry_unchanged_since`. -/
def checkEntryUnchangedSince (headTime : Nat) (entry : FileEntry) : Work Unit := do
  match ← Effect.attempt (symlinkMetadata repo (native entry.path)) with
  | .error _ => failDirty
  | .ok node => do
    let kindMatches ← checkKind env repo entry (native entry.path) node
    if kindMatches then
      match if env.timestamps then lastModified node else none with
      | none => failDirty
      | some time => if headTime < time then failDirty else pure ()
    else failDirty

def checkEntriesUnchangedSince (headTime : Option Nat) : List FileEntry → Work Unit
  | [] => pure ()
  | entry :: entries => do
    let time ← Effect.lift (Exec.unwrap headTime)
    checkEntryUnchangedSince env repo time entry
    checkEntriesUnchangedSince headTime entries

/-- Whether HEAD knows what is at a path: a directory is known by what is below. -/
def isOwned (headEntries : List FileEntry) (names : List Name) (node : FileNode) : Bool :=
  if node.isDir then
    headEntries.any fun entry => isComponentPrefix names (targetPathKey entry.path)
  else headEntries.any fun entry => targetPathKey entry.path = names

/-- The nodes at and below a place, with the names that lead to them; a walk does not
go on below a directory that HEAD does not know. -/
def collisionsAt (headEntries : List FileEntry) (names : List Name) (place : Place)
    (tree : FileTree) : List (List Name) :=
  let nodes := tree.nodes.entries.filter fun entry => decide (place <:+ entry.1)
  let foreign := (nodes.filter fun entry =>
    !isOwned headEntries (names ++ namesFrom place entry.1) entry.2).map fun entry => entry.1
  (foreign.filter fun p => !foreign.any fun q => decide (q <:+ p ∧ q ≠ p)).map fun p =>
    names ++ namesFrom place p

/-- What is untracked at one output. -/
def outputCollisions (headEntries : List FileEntry) (names : List Name) :
    Work (List (List Name)) :=
  if removable.any fun path => isComponentPrefix (native path) names then pure []
  else do
    match ← Effect.attempt (symlinkMetadata repo names) with
    | .error e => if isMissing e then pure [] else fs (Effect.lift (Exec.fail e))
    | .ok _ =>
      fs (inspect fun tree => do
        let place ← tree.resolve false repo.path names
        pure (collisionsAt headEntries names place tree))

def allCollisions (headEntries : List FileEntry) : List FileEntry → Work (List (List Name))
  | [] => pure []
  | entry :: entries => do
    let here ← outputCollisions repo removable headEntries (native entry.path)
    let there ← allCollisions headEntries entries
    pure (here ++ there)

/-- `preflight_untracked_collisions`. -/
def preflightUntrackedCollisions (entries headEntries : List FileEntry) : Work Unit := do
  let collisions ← allCollisions repo removable headEntries entries
  let sorted := (collisions.insertionSort (· ≤ ·)).dedup
  if sorted = [] then pure () else Effect.lift (Exec.fail (.untrackedPaths sorted))

end Tree

end Elfshaker.Checkout
