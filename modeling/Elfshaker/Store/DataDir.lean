import Elfshaker.Format.Identity
import Elfshaker.Store.Ids

namespace Elfshaker.Store

open Elfshaker.Library Elfshaker.Format

/-- What other crates do for the repository. -/
structure Crates where
  rmp : Rmp
  sha1 : List UInt8 → ObjectChecksum
  unicode : Unicode

inductive Error where
  | ioError (e : IoError)
  | packError (e : PackError)
  | idError (e : IdError)
  | corruptHead
  | brokenHeadRef (e : Error)
  | corruptPack
  | corruptPackIndex
  | httpError (message : String)
  | ambiguousSnapshotMatch (snapshot : String) (packs : List PackId)
  | looseSnapshotPathCollision (path requested existing : String)
  | dirtyWorkDir
  | untrackedPaths (paths : List (List (List UInt8)))
  | packNotFound (pack : String)
  | badLooseObject (path : String)
  | invalidOptions
  deriving DecidableEq

/-- What a name in the data directory stands for. -/
inductive Node where
  | dir
  | file (bytes : List UInt8) (mtime : Nat)
  deriving DecidableEq, Repr

/-- A directory with everything below it, under slash-separated relative paths,
listed in the order the system lists it. -/
abbrev DirTree := AList fun _ : String => Node

namespace DirTree

/-- The directories above a path, the outermost first. -/
def ancestorsOf (above : List Char) : List Char → List String
  | [] => []
  | c :: rest =>
    if c = '/' then String.ofList above :: ancestorsOf (above ++ [c]) rest
    else ancestorsOf (above ++ [c]) rest

def ancestors (path : String) : List String :=
  ancestorsOf [] path.toList

/-- `Path::exists`. -/
def present (tree : DirTree) (path : String) : Bool :=
  (tree.lookup path).isSome

def fileOf : String × Node → Option (String × List UInt8)
  | (path, .file bytes _) => some (path, bytes)
  | (_, .dir) => none

/-- The regular files that a walk meets. -/
def files (tree : DirTree) : List (String × List UInt8) :=
  tree.entries.filterMap fun entry => fileOf (entry.1, entry.2)

def readFile (tree : DirTree) (path : String) : Exec IoError (List UInt8) :=
  match tree.lookup path with
  | some (.file bytes _) => .ok bytes
  | some .dir => Exec.fail .isADirectory
  | none => Exec.fail .notFound

def mtime (tree : DirTree) (path : String) : Option Nat :=
  match tree.lookup path with
  | some (.file _ mtime) => some mtime
  | _ => none

/-- `fs::remove_file`. -/
def removeFile (tree : DirTree) (path : String) : Exec IoError DirTree :=
  match tree.lookup path with
  | some (.file _ _) => .ok (tree.erase path)
  | some .dir => Exec.fail .isADirectory
  | none => Exec.fail .notFound

def hasChildren (tree : DirTree) (dir : String) : Bool :=
  tree.keys.any fun path => (dir ++ "/").toList.isPrefixOf path.toList

/-- Removes directories from the innermost outwards, up to one that is not empty. -/
def removeEmptyDirs (tree : DirTree) : List String → Exec IoError DirTree
  | [] => .ok tree
  | dir :: above =>
    match tree.lookup dir with
    | none => .ok tree
    | some (.file _ _) => Exec.fail .notADirectory
    | some .dir =>
      if tree.hasChildren dir then .ok tree
      else removeEmptyDirs (tree.erase dir) above

theorem mem_files {tree : DirTree} {path : String} {bytes : List UInt8} :
    (path, bytes) ∈ tree.files ↔ ∃ mtime, tree.lookup path = some (.file bytes mtime) := by
  simp only [files, List.mem_filterMap]
  constructor
  · rintro ⟨⟨p, node⟩, hmem, hfile⟩
    cases node with
    | dir => cases hfile
    | file b m =>
      cases hfile
      exact ⟨m, AList.mem_lookup_iff.mpr hmem⟩
  · rintro ⟨m, hlookup⟩
    exact ⟨⟨path, .file bytes m⟩, AList.mem_lookup_iff.mp hlookup, rfl⟩

theorem readFile_eq_ok {tree : DirTree} {path : String} {bytes : List UInt8} :
    tree.readFile path = .ok bytes ↔ (path, bytes) ∈ tree.files := by
  rw [mem_files]
  unfold readFile
  split <;> simp_all [Exec.fail]

/-- A path names one file only. -/
theorem files_unique {tree : DirTree} {path : String} {bytes bytes' : List UInt8}
    (h : (path, bytes) ∈ tree.files) (h' : (path, bytes') ∈ tree.files) : bytes = bytes' := by
  rw [← readFile_eq_ok] at h h'
  exact Except.ok.inj (h.symm.trans h')

theorem files_nodup (tree : DirTree) : (tree.files.map Prod.fst).Nodup := by
  have hkeys : (tree.files.map Prod.fst).Sublist tree.keys := by
    simp only [files, AList.keys, List.keys]
    induction tree.entries with
    | nil => simp
    | cons entry entries ih =>
      obtain ⟨path, node⟩ := entry
      cases node with
      | dir => exact ih.cons _
      | file bytes mtime => exact ih.cons_cons _
  exact hkeys.nodup tree.keys_nodup

theorem mem_files_erase {tree : DirTree} {removed path : String} {bytes : List UInt8} :
    (path, bytes) ∈ files (tree.erase removed) ↔ (path, bytes) ∈ tree.files ∧ path ≠ removed := by
  rw [mem_files, mem_files]
  by_cases h : path = removed
  · subst h
    simp [AList.lookup_erase]
  · simp [h, AList.lookup_erase_ne h]

theorem removeFile_eq_ok {tree tree' : DirTree} {path : String} :
    tree.removeFile path = .ok tree' ↔
      (∃ bytes, (path, bytes) ∈ tree.files) ∧ tree' = tree.erase path := by
  unfold removeFile
  split
  · rename_i bytes mtime hlookup
    rw [Except.ok.injEq, eq_comm]
    exact ⟨fun h => ⟨⟨bytes, mem_files.mpr ⟨mtime, hlookup⟩⟩, h⟩, fun h => h.2⟩
  · rename_i hlookup
    simp [Exec.fail, mem_files, hlookup]
  · rename_i hlookup
    simp [Exec.fail, mem_files, hlookup]

/-- Removing empty directories leaves every file. -/
theorem removeEmptyDirs_files {tree tree' : DirTree} {dirs : List String}
    (h : tree.removeEmptyDirs dirs = .ok tree') {file : String × List UInt8} :
    file ∈ tree'.files ↔ file ∈ tree.files := by
  induction dirs generalizing tree with
  | nil =>
    cases h
    rfl
  | cons dir above ih =>
    unfold removeEmptyDirs at h
    split at h
    · cases h
      rfl
    · cases h
    · rename_i hdir
      split_ifs at h
      · cases h
        rfl
      · obtain ⟨path, bytes⟩ := file
        rw [ih h, mem_files_erase]
        refine and_iff_left_of_imp fun hfile => ?_
        rintro rfl
        obtain ⟨mtime, hlookup⟩ := mem_files.mp hfile
        rw [hdir] at hlookup
        cases hlookup

end DirTree

/-- The data directory: the indexes and packs, the loose objects, and HEAD with
the time it was written. -/
structure DataDir where
  packs : DirTree
  loose : DirTree
  head : Option (String × Nat)

end Elfshaker.Store
