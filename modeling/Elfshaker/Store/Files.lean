import Elfshaker.Library.Effect
import Elfshaker.Store.Gc

namespace Elfshaker.Store

open Elfshaker.Library Elfshaker.Format

namespace DirTree

/-- No system takes a path that is as long as this. -/
def pathLimit : Nat := 2 ^ 32

/-- The directories that a path is looked up through, the outermost first. -/
def checkParents (tree : DirTree) : List String → Exec IoError Unit
  | [] => .ok ()
  | dir :: below =>
    match tree.lookup dir with
    | some .dir => checkParents tree below
    | some (.file _ _) => Exec.fail .notADirectory
    | none => Exec.fail .notFound

/-- A new file. -/
def create (now : Nat) (tree : DirTree) (path : String) : Exec IoError DirTree := do
  tree.checkParents (ancestors path)
  .ok (tree.insert path (.file [] now))

/-- Opens a file for writing, and creates it where there is none. -/
def openCreate (path : String) (now : Nat) (tree : DirTree) : Exec IoError DirTree :=
  if pathLimit ≤ path.utf8ByteSize then Exec.fail (.other "File name too long")
  else match tree.lookup path with
    | some (.file _ _) => .ok tree
    | some .dir => Exec.fail .isADirectory
    | none => create now tree path

/-- Creates a file that must not be there. -/
def createNew (path : String) (now : Nat) (tree : DirTree) : Exec IoError DirTree :=
  if pathLimit ≤ path.utf8ByteSize then Exec.fail (.other "File name too long")
  else if tree.present path then Exec.fail .alreadyExists
  else create now tree path

/-- Gives a file that is open its content. -/
def write (path : String) (bytes : List UInt8) (now : Nat) (tree : DirTree) :
    Exec IoError DirTree :=
  match tree.lookup path with
  | some (.file _ _) => .ok (tree.insert path (.file bytes now))
  | some .dir => Exec.fail .isADirectory
  | none => Exec.fail .notFound

/-- `fs::create_dir` for one directory of those that `fs::create_dir_all` makes. -/
def makeDir (dir : String) (isLast : Bool) (_now : Nat) (tree : DirTree) : Exec IoError DirTree :=
  match tree.lookup dir with
  | none => .ok (tree.insert dir .dir)
  | some .dir => .ok tree
  | some (.file _ _) => Exec.fail (if isLast then .alreadyExists else .notADirectory)

/-- `fs::rename` of a file. -/
def rename (source dest : String) (_now : Nat) (tree : DirTree) : Exec IoError DirTree :=
  match tree.lookup source, tree.lookup dest with
  | some (.file _ _), some .dir => Exec.fail .isADirectory
  | some (.file bytes mtime), _ => do
    tree.checkParents (ancestors dest)
    .ok (AList.insert dest (.file bytes mtime) (tree.erase source))
  | _, _ => Exec.fail .notFound

/-- Puts a finished temporary file in the place of a path. -/
def publish (path : String) (bytes : List UInt8) (now : Nat) (tree : DirTree) :
    Exec IoError DirTree :=
  match tree.lookup path with
  | some .dir => Exec.fail .isADirectory
  | _ => do
    tree.checkParents (ancestors path)
    .ok (tree.insert path (.file bytes now))

theorem mem_files_insert_file {tree : DirTree} {path p : String} {bytes b : List UInt8}
    {mtime : Nat} : (p, b) ∈ files (tree.insert path (.file bytes mtime)) ↔
      if p = path then b = bytes else (p, b) ∈ tree.files := by
  rw [mem_files]
  split_ifs with h
  · subst h
    rw [AList.lookup_insert]
    constructor
    · rintro ⟨m, hm⟩
      cases hm
      rfl
    · rintro rfl
      exact ⟨mtime, rfl⟩
  · rw [AList.lookup_insert_ne h, ← mem_files]

theorem mem_files_insert_dir {tree : DirTree} {dir : String} (h : tree.lookup dir = none)
    {file : String × List UInt8} : file ∈ files (tree.insert dir .dir) ↔ file ∈ tree.files := by
  obtain ⟨p, b⟩ := file
  rw [mem_files, mem_files]
  by_cases hp : p = dir
  · subst hp
    simp [h]
  · rw [AList.lookup_insert_ne hp]

theorem create_ok {path : String} {now : Nat} {tree tree' : DirTree}
    (h : create now tree path = .ok tree') : tree' = tree.insert path (.file [] now) := by
  obtain ⟨_, -, h⟩ := Exec.bind_eq_ok.mp h
  cases h
  rfl

/-- A file that is there is opened as it is. -/
theorem openCreate_ok {path : String} {now : Nat} {tree tree' : DirTree}
    (h : openCreate path now tree = .ok tree') : path.utf8ByteSize < pathLimit ∧
      ((∃ bytes, (path, bytes) ∈ tree.files) ∧ tree' = tree ∨
        tree.lookup path = none ∧ tree' = tree.insert path (.file [] now)) := by
  unfold openCreate at h
  split_ifs at h with hlimit
  · cases h
  · refine ⟨Nat.lt_of_not_le hlimit, ?_⟩
    split at h
    · rename_i bytes mtime hlookup
      cases h
      exact .inl ⟨⟨bytes, mem_files.mpr ⟨mtime, hlookup⟩⟩, rfl⟩
    · cases h
    · rename_i hnone
      exact .inr ⟨hnone, create_ok h⟩

theorem createNew_ok {path : String} {now : Nat} {tree tree' : DirTree}
    (h : createNew path now tree = .ok tree') : tree' = tree.insert path (.file [] now) := by
  unfold createNew at h
  split_ifs at h
  · cases h
  · cases h
  · exact create_ok h

theorem createNew_vacant {path : String} {now : Nat} {tree tree' : DirTree}
    (h : createNew path now tree = .ok tree') : tree.lookup path = none := by
  unfold createNew at h
  split_ifs at h with hlimit hpresent
  · cases h
  · cases h
  · rw [present, Bool.not_eq_true, Option.isSome_eq_false_iff] at hpresent
    exact Option.isNone_iff_eq_none.mp hpresent

theorem write_ok {path : String} {bytes : List UInt8} {now : Nat} {tree tree' : DirTree}
    (h : write path bytes now tree = .ok tree') : tree' = tree.insert path (.file bytes now) := by
  unfold write at h
  split at h
  · cases h
    rfl
  · cases h
  · cases h

theorem makeDir_files {dir : String} {isLast : Bool} {now : Nat} {tree tree' : DirTree}
    (h : makeDir dir isLast now tree = .ok tree') {file : String × List UInt8} :
    file ∈ tree'.files ↔ file ∈ tree.files := by
  unfold makeDir at h
  split at h
  · rename_i hnone
    cases h
    exact mem_files_insert_dir hnone
  · cases h
    rfl
  · cases h

theorem rename_ok {source dest : String} {now : Nat} {tree tree' : DirTree}
    (h : rename source dest now tree = .ok tree') : ∃ bytes mtime,
      tree.lookup source = some (.file bytes mtime) ∧
        tree' = AList.insert dest (.file bytes mtime) (tree.erase source) := by
  unfold rename at h
  split at h
  · cases h
  · rename_i bytes mtime hsource _
    obtain ⟨_, -, h⟩ := Exec.bind_eq_ok.mp h
    cases h
    exact ⟨bytes, mtime, hsource, rfl⟩
  · cases h

/-- A temporary file that is put in the place of another. -/
theorem rename_files {source dest : String} {now : Nat} {tree tree' : DirTree}
    (h : rename source dest now tree = .ok tree') {bytes : List UInt8}
    (hsource : (source, bytes) ∈ tree.files) {p : String} {b : List UInt8} (hp : p ≠ source) :
    (p, b) ∈ tree'.files ↔ if p = dest then b = bytes else (p, b) ∈ tree.files := by
  obtain ⟨bytes', mtime, hlookup, rfl⟩ := rename_ok h
  obtain rfl : bytes = bytes' := files_unique hsource (mem_files.mpr ⟨mtime, hlookup⟩)
  rw [mem_files_insert_file]
  split_ifs with hdest
  · rfl
  · rw [mem_files_erase]
    exact and_iff_left hp

theorem publish_ok {path : String} {bytes : List UInt8} {now : Nat} {tree tree' : DirTree}
    (h : publish path bytes now tree = .ok tree') :
    tree' = tree.insert path (.file bytes now) := by
  unfold publish at h
  split at h
  · cases h
  · obtain ⟨_, -, h⟩ := Exec.bind_eq_ok.mp h
    cases h
    rfl

end DirTree

/-- How the system fails at a step. Of a write, some bytes are done. -/
structure Fault where
  error : IoError
  written : Nat
  deriving DecidableEq, Repr

/-- The data directory, and the time. -/
structure Disk where
  dataDir : DataDir
  clock : Nat

abbrev Io (α : Type) := Effect (Session Disk Fault) IoError α

abbrev Call (α : Type) := Effect (Session Disk Fault) Error α

namespace Io

/-- A step that changes nothing that the repository looks at, such as one in the
directory for temporary files. -/
def passing : Io Unit :=
  Session.os Fault.error (fun _ disk => disk) fun disk => (.ok (), disk)

def look (f : DataDir → Exec IoError α) : Io α :=
  Session.os Fault.error (fun _ disk => disk) fun disk => (f disk.dataDir, disk)

def runOnPacks (op : Nat → DirTree → Exec IoError DirTree) (disk : Disk) :
    Exec IoError Unit × Disk :=
  match op (disk.clock + 1) disk.dataDir.packs with
  | .ok packs => (.ok (), ⟨{ disk.dataDir with packs }, disk.clock + 1⟩)
  | .error e => (.error e, disk)

def onPacks (op : Nat → DirTree → Exec IoError DirTree) : Io Unit :=
  Session.os Fault.error (fun _ disk => disk) (runOnPacks op)

/-- Writes to a file in the packs directory. -/
def writeToPacks (path : String) (bytes : List UInt8) : Io Unit :=
  Session.os Fault.error
    (fun fault disk => (runOnPacks (DirTree.write path (bytes.take fault.written)) disk).2)
    (runOnPacks (DirTree.write path bytes))

def runOnLoose (op : Nat → DirTree → Exec IoError DirTree) (disk : Disk) :
    Exec IoError Unit × Disk :=
  match op (disk.clock + 1) disk.dataDir.loose with
  | .ok loose => (.ok (), ⟨{ disk.dataDir with loose }, disk.clock + 1⟩)
  | .error e => (.error e, disk)

def onLoose (op : Nat → DirTree → Exec IoError DirTree) : Io Unit :=
  Session.os Fault.error (fun _ disk => disk) (runOnLoose op)

def setHead (text : String) : Io Unit :=
  Session.os Fault.error (fun _ disk => disk) fun disk =>
    (.ok (), ⟨{ disk.dataDir with head := some (text, disk.clock + 1) }, disk.clock + 1⟩)

/-- `fs::create_dir_all`, one directory after another. -/
def createDirAll (onTree : (Nat → DirTree → Exec IoError DirTree) → Io Unit) :
    List String → Io Unit
  | [] => pure ()
  | [dir] => onTree (DirTree.makeDir dir true)
  | dir :: below => do
    onTree (DirTree.makeDir dir false)
    createDirAll onTree below

def ensureDir (onTree : (Nat → DirTree → Exec IoError DirTree) → Io Unit) (dirs : List String) :
    Io Unit :=
  (createDirAll onTree dirs).orElse fun e => if e = .alreadyExists then some (pure ()) else none

/-- Writes a temporary file and closes it: it is created, locked, filled and synced. -/
def prepareAtomicWrite : Io Unit := do
  passing
  passing
  passing
  passing

theorem passing_ok {s s' : Session Disk Fault} (h : passing s = (.ok (), s')) :
    s'.state = s.state := by
  have hrun := Session.os_eq_ok h
  exact (Prod.mk.inj hrun).2.symm

theorem look_ok {f : DataDir → Exec IoError α} {s s' : Session Disk Fault} {a : α}
    (h : look f s = (.ok a, s')) : f s.state.dataDir = .ok a ∧ s'.state = s.state := by
  have hrun := Session.os_eq_ok h
  obtain ⟨hf, hs⟩ := Prod.mk.inj hrun
  exact ⟨hf, hs.symm⟩

theorem runOnPacks_ok {op : Nat → DirTree → Exec IoError DirTree} {disk disk' : Disk}
    (h : runOnPacks op disk = (.ok (), disk')) :
    ∃ packs, op (disk.clock + 1) disk.dataDir.packs = .ok packs ∧
      disk' = ⟨{ disk.dataDir with packs }, disk.clock + 1⟩ := by
  unfold runOnPacks at h
  split at h
  · rename_i packs hop
    cases h
    exact ⟨packs, hop, rfl⟩
  · cases h

theorem onPacks_ok {op : Nat → DirTree → Exec IoError DirTree} {s s' : Session Disk Fault}
    (h : onPacks op s = (.ok (), s')) :
    ∃ packs, op (s.state.clock + 1) s.state.dataDir.packs = .ok packs ∧
      s'.state = ⟨{ s.state.dataDir with packs }, s.state.clock + 1⟩ :=
  runOnPacks_ok (Session.os_eq_ok h)

/-- A step that fails on the packs directory leaves it as it was. -/
theorem onPacks_error {op : Nat → DirTree → Exec IoError DirTree} {s s' : Session Disk Fault}
    {e : Failure IoError} (h : onPacks op s = (.error e, s')) : s'.state = s.state := by
  rcases Session.os_error h with h | h
  · exact h
  · unfold runOnPacks at h
    split at h
    · cases h
    · exact (Prod.mk.inj h).2.symm

theorem runOnLoose_ok {op : Nat → DirTree → Exec IoError DirTree} {disk disk' : Disk}
    (h : runOnLoose op disk = (.ok (), disk')) :
    ∃ loose, op (disk.clock + 1) disk.dataDir.loose = .ok loose ∧
      disk' = ⟨{ disk.dataDir with loose }, disk.clock + 1⟩ := by
  unfold runOnLoose at h
  split at h
  · rename_i loose hop
    cases h
    exact ⟨loose, hop, rfl⟩
  · cases h

theorem onLoose_ok {op : Nat → DirTree → Exec IoError DirTree} {s s' : Session Disk Fault}
    (h : onLoose op s = (.ok (), s')) :
    ∃ loose, op (s.state.clock + 1) s.state.dataDir.loose = .ok loose ∧
      s'.state = ⟨{ s.state.dataDir with loose }, s.state.clock + 1⟩ :=
  runOnLoose_ok (Session.os_eq_ok h)

theorem onLoose_error {op : Nat → DirTree → Exec IoError DirTree} {s s' : Session Disk Fault}
    {e : Failure IoError} (h : onLoose op s = (.error e, s')) : s'.state = s.state := by
  rcases Session.os_error h with h | h
  · exact h
  · unfold runOnLoose at h
    split at h
    · cases h
    · exact (Prod.mk.inj h).2.symm

/-- What is looked up is known after it, and nothing is changed. -/
theorem look_known {P : Disk → Prop} (f : DataDir → Exec IoError α) :
    Effect.Triple (fun s => P s.state) (look f)
      (fun a s => P s.state ∧ f s.state.dataDir = .ok a) fun s => P s.state := by
  refine .intro (fun s s' a hs h => ?_) fun s s' e hs h => ?_
  · obtain ⟨hf, hstate⟩ := look_ok h
    rw [hstate]
    exact ⟨hs, hf⟩
  · rcases Session.os_error h with hstate | hrun
    · exact hstate ▸ hs
    · exact (Prod.mk.inj hrun).2 ▸ hs

theorem writeToPacks_ok {path : String} {bytes : List UInt8} {s s' : Session Disk Fault}
    (h : writeToPacks path bytes s = (.ok (), s')) : (path, bytes) ∈ s'.state.dataDir.packs.files := by
  obtain ⟨packs, hwrite, hs⟩ := runOnPacks_ok (Session.os_eq_ok h)
  rw [hs, DirTree.write_ok hwrite]
  exact DirTree.mem_files_insert_file.mpr (by rw [if_pos rfl])

section Keeps

variable {P : Disk → Prop}

/-- What holds of every disk that a step can leave. -/
def KeepsDisk (P : Disk → Prop) (x : Effect (Session Disk Fault) ε α) : Prop :=
  Effect.Keeps (fun s => P s.state) x

theorem keeps_passing : KeepsDisk P passing :=
  Session.keeps_os (fun _ _ h => h) fun _ h => h

theorem keeps_look (f : DataDir → Exec IoError α) : KeepsDisk P (look f) :=
  Session.keeps_os (fun _ _ h => h) fun _ h => h

theorem keeps_prepareAtomicWrite : KeepsDisk P prepareAtomicWrite :=
  keeps_passing.bind fun _ => keeps_passing.bind fun _ => keeps_passing.bind fun _ => keeps_passing

theorem runOnPacks_state {op : Nat → DirTree → Exec IoError DirTree} {disk : Disk}
    (h : ∀ now packs, op now disk.dataDir.packs = .ok packs →
      P ⟨{ disk.dataDir with packs }, now⟩) (hdisk : P disk) : P (runOnPacks op disk).2 := by
  unfold runOnPacks
  split
  · rename_i packs hop
    exact h _ packs hop
  · exact hdisk

theorem keeps_onPacks {op : Nat → DirTree → Exec IoError DirTree}
    (h : ∀ disk now packs, P disk → op now disk.dataDir.packs = .ok packs →
      P ⟨{ disk.dataDir with packs }, now⟩) : KeepsDisk P (onPacks op) :=
  Session.keeps_os (fun _ _ hdisk => hdisk) fun disk hdisk =>
    runOnPacks_state (fun now packs => h disk now packs hdisk) hdisk

theorem keeps_writeToPacks {path : String} {bytes : List UInt8}
    (h : ∀ disk now bytes packs, P disk → DirTree.write path bytes now disk.dataDir.packs =
      .ok packs → P ⟨{ disk.dataDir with packs }, now⟩) : KeepsDisk P (writeToPacks path bytes) :=
  Session.keeps_os
    (fun _ disk hdisk => runOnPacks_state (fun now packs => h disk now _ packs hdisk) hdisk)
    fun disk hdisk => runOnPacks_state (fun now packs => h disk now _ packs hdisk) hdisk

theorem keeps_onLoose {op : Nat → DirTree → Exec IoError DirTree}
    (h : ∀ disk now loose, P disk → op now disk.dataDir.loose = .ok loose →
      P ⟨{ disk.dataDir with loose }, now⟩) : KeepsDisk P (onLoose op) :=
  Session.keeps_os (fun _ _ hdisk => hdisk) fun disk hdisk => by
    unfold runOnLoose
    split
    · rename_i loose hop
      exact h disk _ loose hdisk hop
    · exact hdisk

theorem keeps_setHead {text : String} (h : ∀ disk head now, P disk →
    P ⟨{ disk.dataDir with head }, now⟩) : KeepsDisk P (setHead text) :=
  Session.keeps_os (fun _ _ hdisk => hdisk) fun disk hdisk => h disk _ _ hdisk

theorem keeps_createDirAll_of {onTree : (Nat → DirTree → Exec IoError DirTree) → Io Unit}
    {dirs : List String}
    (h : ∀ dir ∈ dirs, ∀ isLast, KeepsDisk P (onTree (DirTree.makeDir dir isLast))) :
    KeepsDisk P (createDirAll onTree dirs) := by
  induction dirs with
  | nil => exact .pure ()
  | cons dir below ih =>
    have hbelow := ih fun d hd => h d (List.mem_cons_of_mem dir hd)
    cases below with
    | nil => exact h dir List.mem_cons_self true
    | cons next below => exact (h dir List.mem_cons_self false).bind fun _ => hbelow

theorem keeps_createDirAll {onTree : (Nat → DirTree → Exec IoError DirTree) → Io Unit}
    {dirs : List String} (h : ∀ dir isLast, KeepsDisk P (onTree (DirTree.makeDir dir isLast))) :
    KeepsDisk P (createDirAll onTree dirs) :=
  keeps_createDirAll_of fun dir _ => h dir

theorem keeps_ensureDir_of {onTree : (Nat → DirTree → Exec IoError DirTree) → Io Unit}
    {dirs : List String}
    (h : ∀ dir ∈ dirs, ∀ isLast, KeepsDisk P (onTree (DirTree.makeDir dir isLast))) :
    KeepsDisk P (ensureDir onTree dirs) := by
  refine (keeps_createDirAll_of h).orElse fun e y hy => ?_
  split_ifs at hy
  cases hy
  exact .pure ()

theorem keeps_ensureDir {onTree : (Nat → DirTree → Exec IoError DirTree) → Io Unit}
    {dirs : List String} (h : ∀ dir isLast, KeepsDisk P (onTree (DirTree.makeDir dir isLast))) :
    KeepsDisk P (ensureDir onTree dirs) :=
  keeps_ensureDir_of fun dir _ => h dir

end Keeps

end Io

end Elfshaker.Store
