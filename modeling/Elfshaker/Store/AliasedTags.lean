import Elfshaker.Format.MessagePack
import Elfshaker.Store.Reservation

namespace Elfshaker.Store.Aliased

open Elfshaker.Library Elfshaker.Format

section FileSystem

variable (stored : String → String)

/-- Where a file system that stores names in a form of its own has a path. -/
def storedPath (path : String) : String :=
  String.ofList <| ['/'].intercalate <|
    (path.toList.splitOn '/').map fun name => (stored (String.ofList name)).toList

def resolve (path : String) : Exec IoError String :=
  if DirTree.pathLimit ≤ path.utf8ByteSize then Exec.fail (.other "File name too long")
  else .ok (storedPath stored path)

def onPath (path : String) (call : String → Io α) : Io α := do
  let place ← Effect.lift (resolve stored path)
  call place

/-- `AtomicCreateFile`, on such a file system. -/
def createTemp (path : String) (random : List UInt8) : Io AtomicCreateFile := do
  let file := ⟨path, random⟩
  onPath stored (AtomicCreateFile.temp file) fun temp => Io.onPacks (DirTree.createNew temp)
  Io.passing
  pure file

def fill (file : AtomicCreateFile) (bytes : List UInt8) : Io Unit := do
  onPath stored file.temp fun temp => Io.writeToPacks temp bytes
  Effect.lift (Exec.assert (!bytes.isEmpty))
  Io.passing

def renameFilled (file : AtomicCreateFile) : Io Unit :=
  onPath stored file.temp fun temp => onPath stored file.path fun path =>
    Io.onPacks (DirTree.rename temp path)

end FileSystem

section Create

variable (stored : String → String) (crates : Crates) (writer : RmpWriter)
  (ord : IterOrder FileHandle)

/-- What `metadata` says of a path: an error is as good as no file. -/
def nodeAt (path : String) (dd : DataDir) : Option Node :=
  match resolve stored path with
  | .ok place => dd.packs.lookup place
  | .error _ => none

/-- The index file that the path of a snapshot denotes must not be that of another. -/
def checkSnapshotPath (snapshot : SnapshotId) (dd : DataDir) : Exec Error Unit :=
  match nodeAt stored (snapshotPath snapshot) dd with
  | none => .ok ()
  | some .dir => Exec.fail (.packError (.ioError .isADirectory))
  | some (.file bytes _) =>
    if bytes = [] then .ok ()
    else do
      let existingTags ← (PackIndex.loadOnlySnapshots crates.rmp bytes).mapError .packError
      checkExistingTags snapshot existingTags

def prepareSnapshot (snapshot : SnapshotId) : Call Unit := do
  io Io.passing
  io (Io.ensureDir Io.onPacks
    ((DirTree.ancestors (snapshotPath snapshot)).map (storedPath stored)))
  Effect.asks fun s => checkSnapshotPath stored crates snapshot s.state.dataDir

def reserveSnapshot (snapshot : SnapshotId) : Call Unit := do
  prepareSnapshot stored crates snapshot
  io (onPath stored (snapshotPath snapshot) AtomicCreateFile.reserve)

def fillSnapshot (random : List UInt8) (snapshot : SnapshotId) (files : List InputFile) :
    Call AtomicCreateFile := do
  let output ← io (createTemp stored (snapshotPath snapshot) random)
  let index ← snapshotIndex crates ord snapshot files
  io (fill stored output (index.serialize writer))
  pure output

def writeSnapshot (random : List UInt8) (snapshot : SnapshotId) (files : List InputFile) :
    Call Unit := do
  let output ← fillSnapshot stored crates writer ord random snapshot files
  io (renameFilled stored output)

def createSnapshot (random : List UInt8) (snapshot : SnapshotId) (files : List InputFile) :
    Call Unit := do
  reserveSnapshot stored crates snapshot
  writeSnapshot stored crates writer ord random snapshot files
  updateHead snapshot

/-- Replaces the index where it is there. -/
def createSnapshotForce (snapshot : SnapshotId) (files : List InputFile) : Call Unit := do
  prepareSnapshot stored crates snapshot
  let index ← snapshotIndex crates ord snapshot files
  io Io.prepareAtomicWrite
  io (onPath stored (snapshotPath snapshot) fun path =>
    Io.onPacks (DirTree.publish path (index.serialize writer)))
  updateHead snapshot

end Create

/-- One of the calls that store a snapshot. The temporary name and the order of the
hash maps are new in each. -/
structure StoreCall where
  force : Bool
  random : List UInt8
  ord : IterOrder FileHandle
  snapshot : SnapshotId
  files : List InputFile

def StoreCall.run (stored : String → String) (crates : Crates) (writer : RmpWriter)
    (call : StoreCall) : Call Unit :=
  if call.force then createSnapshotForce stored crates writer call.ord call.snapshot call.files
  else createSnapshot stored crates writer call.ord call.random call.snapshot call.files

/-- Calls one after another, each whether or not those before it have failed. -/
def runCalls (stored : String → String) (crates : Crates) (writer : RmpWriter) :
    List StoreCall → Session Disk Fault → Session Disk Fault
  | [], s => s
  | call :: calls, s => runCalls stored crates writer calls (call.run stored crates writer s).2

section Resolve

variable {stored : String → String} {path : String} {P : Disk → Prop}

theorem resolve_eq_ok {place : String} : resolve stored path = .ok place ↔
    path.utf8ByteSize < DirTree.pathLimit ∧ storedPath stored path = place := by
  unfold resolve
  split_ifs with h
  · simp [Exec.fail, Nat.not_lt_of_le h]
  · simp [Nat.lt_of_not_le h]

theorem onPath_eq_ok {call : String → Io α} {s s' : Session Disk Fault} {a : α} :
    onPath stored path call s = (.ok a, s') ↔
      path.utf8ByteSize < DirTree.pathLimit ∧ call (storedPath stored path) s = (.ok a, s') := by
  constructor
  · intro h
    obtain ⟨place, t, hresolve, h⟩ := Effect.bind_eq_ok.mp h
    obtain ⟨hplace, rfl⟩ := Effect.lift_eq_ok.mp hresolve
    obtain ⟨hshort, rfl⟩ := resolve_eq_ok.mp hplace
    exact ⟨hshort, h⟩
  · intro ⟨hshort, h⟩
    exact Effect.bind_eq_ok.mpr
      ⟨_, s, Effect.lift_eq_ok.mpr ⟨resolve_eq_ok.mpr ⟨hshort, rfl⟩, rfl⟩, h⟩

theorem keeps_onPath {call : String → Io α}
    (h : path.utf8ByteSize < DirTree.pathLimit → Io.KeepsDisk P (call (storedPath stored path))) :
    Io.KeepsDisk P (onPath stored path call) := by
  refine (Effect.Keeps.lift _).bind_ok fun place s s' hresolve => ?_
  obtain ⟨hshort, rfl⟩ := resolve_eq_ok.mp (Effect.lift_eq_ok.mp hresolve).1
  exact h hshort

end Resolve

section Kept

variable {stored : String → String} {crates : Crates} {writer : RmpWriter}
  {ord : IterOrder FileHandle} {random : List UInt8} {snapshot : SnapshotId}
  {files : List InputFile} {path tag : String} {Good : List UInt8 → Prop}

/-- A place holds a file of some kind. -/
def Holds (path : String) (Good : List UInt8 → Prop) (disk : Disk) : Prop :=
  ∃ bytes, Good bytes ∧ (path, bytes) ∈ disk.dataDir.packs.files

/-- The index of one snapshot. -/
def Lists (crates : Crates) (tag : String) (bytes : List UInt8) : Prop :=
  PackIndex.loadOnlySnapshots crates.rmp bytes = .ok [tag]

theorem Lists.ne_nil {bytes : List UInt8} (h : Lists crates tag bytes) : bytes ≠ [] := by
  intro hnil
  rw [Lists, hnil, PackIndex.loadOnlySnapshots_empty] at h
  cases h

theorem fromFiles_holds : FromFiles (Holds path Good) :=
  fun _ _ same ⟨bytes, hgood, hmem⟩ => ⟨bytes, hgood, (same _).mpr hmem⟩

theorem Holds.lookup {disk : Disk} (h : Holds path Good disk) :
    disk.dataDir.packs.lookup path ≠ none := by
  obtain ⟨bytes, -, hmem⟩ := h
  obtain ⟨mtime, hlookup⟩ := DirTree.mem_files.mp hmem
  rw [hlookup]
  exact Option.some_ne_none _

theorem Holds.insert {disk : Disk} (h : Holds path Good disk) {other : String}
    (hne : path ≠ other) (bytes : List UInt8) (mtime now : Nat) : Holds path Good
      ⟨{ disk.dataDir with packs := disk.dataDir.packs.insert other (.file bytes mtime) }, now⟩ := by
  obtain ⟨content, hgood, hmem⟩ := h
  refine ⟨content, hgood, DirTree.mem_files_insert_file.mpr ?_⟩
  rwa [if_neg hne]

/-- A reservation leaves every file. -/
theorem keeps_reserve (other : String) :
    Io.KeepsDisk (Holds path Good) (AtomicCreateFile.reserve other) := by
  refine keeps_reserve_of (keeps_makeDir fromFiles_holds) (Io.keeps_onPacks ?_)
  intro disk now packs ⟨bytes, hgood, hmem⟩ hop
  exact ⟨bytes, hgood, (openCreate_opened hop path bytes).mpr (.inl hmem)⟩

theorem keeps_createTemp (name : String) :
    Io.KeepsDisk (Holds path Good) (createTemp stored name random) := by
  refine Effect.Keeps.bind (keeps_onPath fun _ => Io.keeps_onPacks ?_) fun _ =>
    Io.keeps_passing.bind fun _ => .pure _
  intro disk now packs hdisk hop
  rw [DirTree.createNew_ok hop]
  refine hdisk.insert (fun heq => ?_) _ _ _
  exact hdisk.lookup (heq ▸ DirTree.createNew_vacant hop)

/-- A temporary file comes to a place where nothing was. -/
theorem createTemp_ok {name : String} {file : AtomicCreateFile} {s s' : Session Disk Fault}
    (h : createTemp stored name random s = (.ok file, s')) : file.path = name ∧
      s.state.dataDir.packs.lookup (storedPath stored file.temp) = none := by
  obtain ⟨_, t, hcreate, h⟩ := Effect.bind_eq_ok.mp h
  obtain ⟨_, u, -, h⟩ := Effect.bind_eq_ok.mp h
  obtain ⟨rfl, -⟩ := Effect.pure_eq_ok.mp h
  obtain ⟨packs, hop, -⟩ := Io.onPacks_ok (onPath_eq_ok.mp hcreate).2
  exact ⟨rfl, DirTree.createNew_vacant hop⟩

theorem keeps_fill {file : AtomicCreateFile} (apart : path ≠ storedPath stored file.temp)
    (bytes : List UInt8) : Io.KeepsDisk (Holds path Good) (fill stored file bytes) := by
  refine Effect.Keeps.bind (keeps_onPath fun _ => Io.keeps_writeToPacks ?_) fun _ =>
    (Effect.Keeps.lift _).bind fun _ => Io.keeps_passing
  intro disk now written packs hdisk hop
  rw [DirTree.write_ok hop]
  exact hdisk.insert apart _ _ _

theorem keeps_renameFilled {file : AtomicCreateFile} (temp : path ≠ storedPath stored file.temp)
    (dest : path ≠ storedPath stored file.path) :
    Io.KeepsDisk (Holds path Good) (renameFilled stored file) := by
  refine keeps_onPath fun _ => keeps_onPath fun _ => Io.keeps_onPacks ?_
  intro disk now packs ⟨bytes, hgood, hmem⟩ hop
  obtain ⟨content, mtime, -, rfl⟩ := DirTree.rename_ok hop
  refine ⟨bytes, hgood, DirTree.mem_files_insert_file.mpr ?_⟩
  rw [if_neg dest]
  exact DirTree.mem_files_erase.mpr ⟨hmem, temp⟩

theorem keeps_fillSnapshot : Effect.Triple (fun s : Session Disk Fault => Holds path Good s.state)
    (fillSnapshot stored crates writer ord random snapshot files)
    (fun output s => Holds path Good s.state ∧
      (output.path = snapshotPath snapshot ∧ path ≠ storedPath stored output.temp))
    fun s => Holds path Good s.state := by
  have hcreate : Effect.Triple (fun s : Session Disk Fault => Holds path Good s.state)
      (io (createTemp stored (snapshotPath snapshot) random))
      (fun output s => Holds path Good s.state ∧
        (output.path = snapshotPath snapshot ∧ path ≠ storedPath stored output.temp))
      fun s => Holds path Good s.state :=
    .intro (fun s s' output hs hrun => by
      obtain ⟨hpath, hvacant⟩ := createTemp_ok (io_eq_ok.mp hrun)
      exact ⟨(keeps_io (keeps_createTemp _)).ok hs hrun, hpath, fun heq => hs.lookup (heq ▸ hvacant)⟩)
      fun s s' e hs hrun => (keeps_io (keeps_createTemp _)).error hs hrun
  refine Effect.Triple.bind_fact hcreate fun output houtput => ?_
  refine Effect.Triple.bind (keeps_snapshotIndex fromFiles_holds.fromPacks crates ord snapshot files) ?_
  intro index
  refine Effect.Triple.bind (keeps_io (keeps_fill houtput.2 _)) fun _ => ?_
  exact .pure fun s hs => ⟨hs, houtput⟩

/-- A snapshot with an index in another place. -/
theorem keeps_writeSnapshot (apart : path ≠ storedPath stored (snapshotPath snapshot)) :
    Io.KeepsDisk (Holds path Good)
      (writeSnapshot stored crates writer ord random snapshot files) := by
  refine Effect.Triple.bind_fact keeps_fillSnapshot fun output houtput => ?_
  obtain ⟨hpath, htemp⟩ := houtput
  have hdest : path ≠ storedPath stored output.path := hpath ▸ apart
  exact keeps_io (keeps_renameFilled htemp hdest)

theorem keeps_prepareSnapshot :
    Io.KeepsDisk (Holds path Good) (prepareSnapshot stored crates snapshot) :=
  (keeps_io Io.keeps_passing).bind fun _ =>
    (keeps_io (Io.keeps_ensureDir (keeps_makeDir fromFiles_holds))).bind fun _ => .asks _

theorem keeps_reserveSnapshot :
    Io.KeepsDisk (Holds path Good) (reserveSnapshot stored crates snapshot) :=
  keeps_prepareSnapshot.bind fun _ => keeps_io (keeps_onPath fun _ => keeps_reserve _)

/-- The path of a snapshot, as long as a system takes it. -/
def ShortPath (snapshot : SnapshotId) : Prop :=
  (snapshotPath snapshot).utf8ByteSize < DirTree.pathLimit

/-- The check passes over an index only where it lists the snapshot itself. -/
theorem checkSnapshotPath_holds {disk : Disk} (short : ShortPath snapshot)
    (holds : Holds (storedPath stored (snapshotPath snapshot)) (Lists crates tag) disk) :
    checkSnapshotPath stored crates snapshot disk.dataDir =
      if tag = snapshot.tag then .ok ()
      else Exec.fail (.looseSnapshotPathCollision (snapshotPath snapshot) snapshot.tag tag) := by
  obtain ⟨bytes, hlists, hmem⟩ := holds
  obtain ⟨mtime, hlookup⟩ := DirTree.mem_files.mp hmem
  have hnode : nodeAt stored (snapshotPath snapshot) disk.dataDir = some (.file bytes mtime) := by
    rw [nodeAt, resolve_eq_ok.mpr ⟨short, rfl⟩]
    exact hlookup
  simp only [checkSnapshotPath, hnode]
  rw [if_neg hlists.ne_nil, hlists]
  rfl

theorem prepareSnapshot_ok {s s' : Session Disk Fault}
    (h : prepareSnapshot stored crates snapshot s = (.ok (), s')) :
    checkSnapshotPath stored crates snapshot s'.state.dataDir = .ok () := by
  obtain ⟨_, t, -, h⟩ := Effect.bind_eq_ok.mp h
  obtain ⟨_, u, -, h⟩ := Effect.bind_eq_ok.mp h
  obtain ⟨hcheck, rfl⟩ := Effect.asks_eq_ok.mp h
  exact hcheck

section Other

variable (lists : ∀ bytes, Good bytes → Lists crates tag bytes) (differs : snapshot.tag ≠ tag)

include lists differs

/-- A snapshot of another tag goes on only where its index has another place. -/
theorem prepareSnapshot_apart :
    Effect.Triple (fun s : Session Disk Fault => Holds path Good s.state)
      (prepareSnapshot stored crates snapshot)
      (fun _ s => Holds path Good s.state ∧
        (ShortPath snapshot → path ≠ storedPath stored (snapshotPath snapshot)))
      fun s => Holds path Good s.state := by
  refine .intro (fun s s' _ hs hrun => ?_) fun s s' e hs hrun => keeps_prepareSnapshot.error hs hrun
  obtain ⟨bytes, hgood, hmem⟩ := keeps_prepareSnapshot.ok hs hrun
  refine ⟨⟨bytes, hgood, hmem⟩, ?_⟩
  rintro hshort rfl
  have hcheck := checkSnapshotPath_holds hshort ⟨bytes, lists bytes hgood, hmem⟩
  rw [prepareSnapshot_ok hrun, if_neg differs.symm] at hcheck
  cases hcheck

theorem keeps_createSnapshot : Io.KeepsDisk (Holds path Good)
    (createSnapshot stored crates writer ord random snapshot files) := by
  have hreserve : Effect.Triple (fun s : Session Disk Fault => Holds path Good s.state)
      (reserveSnapshot stored crates snapshot)
      (fun _ s => Holds path Good s.state ∧ path ≠ storedPath stored (snapshotPath snapshot))
      fun s => Holds path Good s.state := by
    refine Effect.Triple.bind_fact (prepareSnapshot_apart lists differs) fun _ hapart => ?_
    have hkeeps : Io.KeepsDisk (Holds path Good)
        (io (onPath stored (snapshotPath snapshot) AtomicCreateFile.reserve)) :=
      keeps_io (keeps_onPath fun _ => keeps_reserve _)
    refine .intro (fun s s' _ hs hrun => ⟨hkeeps.ok hs hrun, ?_⟩) fun s s' e hs hrun =>
      hkeeps.error hs hrun
    exact hapart (onPath_eq_ok.mp (io_eq_ok.mp hrun)).1
  refine Effect.Triple.bind_fact hreserve fun _ hapart => ?_
  exact Effect.Keeps.bind (keeps_writeSnapshot hapart) fun _ =>
    keeps_updateHead fromFiles_holds.fromPacks snapshot

theorem keeps_createSnapshotForce : Io.KeepsDisk (Holds path Good)
    (createSnapshotForce stored crates writer ord snapshot files) := by
  refine Effect.Triple.bind_fact (prepareSnapshot_apart lists differs) fun _ hapart => ?_
  refine Effect.Keeps.bind (keeps_snapshotIndex fromFiles_holds.fromPacks crates ord snapshot files) ?_
  intro index
  refine Effect.Keeps.bind (keeps_io Io.keeps_prepareAtomicWrite) fun _ => ?_
  refine Effect.Keeps.bind (keeps_io (keeps_onPath fun hshort => Io.keeps_onPacks ?_)) fun _ =>
    keeps_updateHead fromFiles_holds.fromPacks snapshot
  intro disk now packs hdisk hop
  rw [DirTree.publish_ok hop]
  exact hdisk.insert (hapart hshort) _ _ _

end Other

/-- A path with an index is not reserved once more. -/
theorem keeps_createSnapshot_same :
    Io.KeepsDisk (Holds (storedPath stored (snapshotPath snapshot)) (Lists crates snapshot.tag))
      (createSnapshot stored crates writer ord random snapshot files) := by
  have hreserve : Effect.Triple (fun s : Session Disk Fault =>
      Holds (storedPath stored (snapshotPath snapshot)) (Lists crates snapshot.tag) s.state)
      (reserveSnapshot stored crates snapshot) (fun _ _ => False) fun s =>
      Holds (storedPath stored (snapshotPath snapshot)) (Lists crates snapshot.tag) s.state := by
    refine .intro (fun s s' _ hs hrun => ?_) fun s s' e hs hrun =>
      keeps_reserveSnapshot.error hs hrun
    obtain ⟨_, t, hprepare, hrun⟩ := Effect.bind_eq_ok.mp hrun
    obtain ⟨bytes, hlists, hmem⟩ := keeps_prepareSnapshot.ok hs hprepare
    have hreserved := reserve_ok (onPath_eq_ok.mp (io_eq_ok.mp hrun)).2
    exact hlists.ne_nil (hreserved.empty bytes hmem)
  refine Effect.Triple.bind hreserve fun _ => ?_
  exact .intro (fun _ _ _ hs _ => hs.elim) fun _ _ _ hs _ => hs.elim

theorem fill_ok {file : AtomicCreateFile} {bytes : List UInt8} {s s' : Session Disk Fault}
    (h : fill stored file bytes s = (.ok (), s')) :
    (storedPath stored file.temp, bytes) ∈ s'.state.dataDir.packs.files := by
  obtain ⟨_, t, hwrite, h⟩ := Effect.bind_eq_ok.mp h
  obtain ⟨_, u, hassert, h⟩ := Effect.bind_eq_ok.mp h
  obtain ⟨-, rfl⟩ := Effect.lift_eq_ok.mp hassert
  rw [Io.passing_ok h]
  exact Io.writeToPacks_ok (onPath_eq_ok.mp hwrite).2

theorem renameFilled_ok {file : AtomicCreateFile} {bytes : List UInt8} {s s' : Session Disk Fault}
    (h : renameFilled stored file s = (.ok (), s'))
    (filled : (storedPath stored file.temp, bytes) ∈ s.state.dataDir.packs.files) :
    (storedPath stored file.path, bytes) ∈ s'.state.dataDir.packs.files := by
  obtain ⟨packs, hop, hstate⟩ := Io.onPacks_ok (onPath_eq_ok.mp (onPath_eq_ok.mp h).2).2
  obtain ⟨content, mtime, hlookup, rfl⟩ := DirTree.rename_ok hop
  have hcontent := DirTree.files_unique filled (DirTree.mem_files.mpr ⟨mtime, hlookup⟩)
  rw [hstate]
  exact DirTree.mem_files_insert_file.mpr (by rw [if_pos rfl, hcontent])

section Same

variable (laws : writer.ReadBackBy crates.rmp)

include laws

theorem lists_serialize {index : PackIndex} (short : ShortPath snapshot)
    (htags : index.snapshotTags = [snapshot.tag]) :
    Lists crates snapshot.tag (index.serialize writer) := by
  have hload := PackIndex.loadOnlySnapshots_serialize laws
    (htags ▸ shortTags_of_path short : ShortTags index.snapshotTags)
  rwa [htags] at hload

theorem publish_lists {index : PackIndex} (htags : index.snapshotTags = [snapshot.tag])
    (short : ShortPath snapshot) {disk : Disk} {now mtime : Nat} {packs : DirTree}
    (h : DirTree.publish (storedPath stored (snapshotPath snapshot)) (index.serialize writer) mtime
      disk.dataDir.packs = .ok packs) :
    Holds (storedPath stored (snapshotPath snapshot)) (Lists crates snapshot.tag)
      ⟨{ disk.dataDir with packs }, now⟩ := by
  rw [DirTree.publish_ok h]
  refine ⟨_, lists_serialize laws short htags, DirTree.mem_files_insert_file.mpr ?_⟩
  rw [if_pos rfl]

/-- A snapshot that replaces its own index. -/
theorem keeps_createSnapshotForce_same :
    Io.KeepsDisk (Holds (storedPath stored (snapshotPath snapshot)) (Lists crates snapshot.tag))
      (createSnapshotForce stored crates writer ord snapshot files) := by
  refine Effect.Keeps.bind keeps_prepareSnapshot fun _ => ?_
  refine (keeps_snapshotIndex fromFiles_holds.fromPacks crates ord snapshot files).bind_ok ?_
  intro index s s' hindex
  refine Effect.Keeps.bind (keeps_io Io.keeps_prepareAtomicWrite) fun _ => ?_
  refine Effect.Keeps.bind (keeps_io (keeps_onPath fun hshort => Io.keeps_onPacks ?_)) fun _ =>
    keeps_updateHead fromFiles_holds.fromPacks snapshot
  intro disk now packs _ hop
  exact publish_lists laws (snapshotIndex_tags hindex) hshort hop

theorem createSnapshotForce_ok {s s' : Session Disk Fault}
    (h : createSnapshotForce stored crates writer ord snapshot files s = (.ok (), s')) :
    Holds (storedPath stored (snapshotPath snapshot)) (Lists crates snapshot.tag) s'.state := by
  obtain ⟨_, _, -, h⟩ := Effect.bind_eq_ok.mp h
  obtain ⟨index, _, hindex, h⟩ := Effect.bind_eq_ok.mp h
  obtain ⟨_, _, -, h⟩ := Effect.bind_eq_ok.mp h
  obtain ⟨_, t, hpublish, hhead⟩ := Effect.bind_eq_ok.mp h
  obtain ⟨hshort, hpublish⟩ := onPath_eq_ok.mp (io_eq_ok.mp hpublish)
  obtain ⟨packs, hop, hstate⟩ := Io.onPacks_ok hpublish
  refine (keeps_updateHead fromFiles_holds.fromPacks snapshot).ok ?_ hhead
  rw [hstate]
  exact publish_lists laws (snapshotIndex_tags hindex) hshort hop

theorem createSnapshot_ok {s s' : Session Disk Fault}
    (h : createSnapshot stored crates writer ord random snapshot files s = (.ok (), s')) :
    Holds (storedPath stored (snapshotPath snapshot)) (Lists crates snapshot.tag) s'.state := by
  obtain ⟨_, t, hreserve, h⟩ := Effect.bind_eq_ok.mp h
  obtain ⟨_, u, hwrite, hhead⟩ := Effect.bind_eq_ok.mp h
  obtain ⟨_, _, -, hreserve⟩ := Effect.bind_eq_ok.mp hreserve
  have hshort : ShortPath snapshot := (onPath_eq_ok.mp (io_eq_ok.mp hreserve)).1
  obtain ⟨output, v, hfill, hrename⟩ := Effect.bind_eq_ok.mp hwrite
  obtain ⟨file, _, htemp, hfill⟩ := Effect.bind_eq_ok.mp hfill
  obtain ⟨index, _, hindex, hfill⟩ := Effect.bind_eq_ok.mp hfill
  obtain ⟨_, w, hfilled, hfill⟩ := Effect.bind_eq_ok.mp hfill
  obtain ⟨rfl, rfl⟩ := Effect.pure_eq_ok.mp hfill
  have hmem := renameFilled_ok (io_eq_ok.mp hrename) (fill_ok (io_eq_ok.mp hfilled))
  rw [(createTemp_ok (io_eq_ok.mp htemp)).1] at hmem
  refine (keeps_updateHead fromFiles_holds.fromPacks snapshot).ok ?_ hhead
  exact ⟨_, lists_serialize laws hshort (snapshotIndex_tags hindex), hmem⟩

end Same

end Kept

section Collision

theorem bind_eq_error {x : Call α} {f : α → Call β} {s s' : Session Disk Fault}
    {e : Failure Error} (h : (x >>= f) s = (.error e, s')) :
    x s = (.error e, s') ∨ ∃ a t, x s = (.ok a, t) ∧ f a t = (.error e, s') := by
  cases hx : x s with
  | mk result t =>
    cases result with
    | ok a =>
      rw [Effect.bind_of_ok hx] at h
      exact .inr ⟨a, t, rfl, h⟩
    | error e' =>
      rw [Effect.bind_of_error hx] at h
      cases h
      exact .inl rfl

/-- A call that returns, with a result or an error. -/
def Returns (x : Io α) : Prop := ∀ s, Exec.NoPanic (x s).1

theorem Returns.bind {x : Io α} {f : α → Io β} (hx : Returns x) (hf : ∀ a, Returns (f a)) :
    Returns (x >>= f) := by
  intro s
  have hxs := hx s
  cases hrun : x s with
  | mk result t =>
    rw [hrun] at hxs
    cases result with
    | ok a =>
      rw [Effect.bind_of_ok hrun]
      exact hf a t
    | error e =>
      rw [Effect.bind_of_error hrun]
      intro hpanic
      cases hpanic
      exact hxs rfl

theorem Returns.orElse {x : Io α} {f : IoError → Option (Io α)} (hx : Returns x)
    (hf : ∀ e y, f e = some y → Returns y) : Returns (x.orElse f) := by
  intro s
  have hxs := hx s
  unfold Effect.orElse
  split
  · rename_i e t _
    cases hfe : f e with
    | none => exact Exec.noPanic_fail e
    | some y => exact hf e y hfe t
  · exact hxs

theorem returns_makeDir (dir : String) (isLast : Bool) :
    Returns (Io.onPacks (DirTree.makeDir dir isLast)) := by
  intro s hpanic
  rcases Session.os_fails (Prod.ext hpanic rfl) with ⟨fault, hfault⟩ | hrun
  · cases hfault
  · unfold Io.runOnPacks DirTree.makeDir at hrun
    split at hrun
    · cases hrun
    · rename_i hmake
      split at hmake <;> cases hmake
      cases hrun

theorem returns_createDirAll (dirs : List String) : Returns (Io.createDirAll Io.onPacks dirs) := by
  induction dirs with
  | nil => exact fun s => Exec.noPanic_ok ()
  | cons dir below ih =>
    cases below with
    | nil => exact returns_makeDir dir true
    | cons next below => exact (returns_makeDir dir false).bind fun _ => ih

theorem returns_ensureDir (dirs : List String) : Returns (Io.ensureDir Io.onPacks dirs) := by
  refine (returns_createDirAll dirs).orElse fun e y hy => ?_
  split_ifs at hy
  cases hy
  exact fun s => Exec.noPanic_ok ()

theorem Returns.io_error {x : Io α} (h : Returns x) {s s' : Session Disk Fault} {e : Failure Error}
    (hrun : io x s = (.error e, s')) : ∃ e', e = .error (.ioError e') := by
  have hxs := h s
  have hresult := (Prod.mk.inj hrun).1
  cases hx : (x s).1 with
  | ok a =>
    rw [hx] at hresult
    cases hresult
  | error e' =>
    rw [hx] at hresult hxs
    cases e' with
    | error e' =>
      cases hresult
      exact ⟨e', rfl⟩
    | panic => exact absurd rfl hxs

section

variable {stored : String → String} {crates : Crates} {snapshot : SnapshotId} {tag : String}

/-- What a call returns where the index of another tag is in its place. -/
theorem prepareSnapshot_collides (short : ShortPath snapshot) (differs : tag ≠ snapshot.tag)
    {s s' : Session Disk Fault} {e : Failure Error}
    (holds : Holds (storedPath stored (snapshotPath snapshot)) (Lists crates tag) s.state)
    (h : prepareSnapshot stored crates snapshot s = (.error e, s')) :
    e = .error (.looseSnapshotPathCollision (snapshotPath snapshot) snapshot.tag tag) ∨
      ∃ e', e = .error (.ioError e') := by
  have hpassing : Returns Io.passing := by
    intro s hpanic
    rcases Session.os_fails (Prod.ext hpanic rfl) with ⟨fault, hfault⟩ | hrun
    · cases hfault
    · cases hrun
  rcases bind_eq_error h with hlock | ⟨_, t, hlock, h⟩
  · exact .inr (hpassing.io_error hlock)
  rcases bind_eq_error h with hdirs | ⟨_, u, hdirs, h⟩
  · exact .inr ((returns_ensureDir _).io_error hdirs)
  have ht := (keeps_io Io.keeps_passing).ok holds hlock
  have hu := (keeps_io (Io.keeps_ensureDir (keeps_makeDir fromFiles_holds))).ok ht hdirs
  have hcheck : checkSnapshotPath stored crates snapshot u.state.dataDir = .error e :=
    (Prod.mk.inj h).1
  rw [checkSnapshotPath_holds short hu, if_neg differs] at hcheck
  cases hcheck
  exact .inl rfl

end

end Collision

section Plain

variable {crates : Crates} {writer : RmpWriter} {ord : IterOrder FileHandle}
  {random : List UInt8} {snapshot : SnapshotId} {files : List InputFile}

/-- Every name is stored as it is. -/
theorem storedPath_id (path : String) : storedPath id path = path := by
  have hnames : (path.toList.splitOn '/').map (fun name => (id (String.ofList name)).toList) =
      path.toList.splitOn '/' := by simp
  rw [storedPath, hnames, List.intercalate_splitOn, String.ofList_toList]

theorem onPath_id {path : String} (h : path.utf8ByteSize < DirTree.pathLimit)
    (call : String → Io α) : onPath id path call = call path := by
  rw [onPath, resolve_eq_ok.mpr ⟨h, storedPath_id path⟩]
  rfl

theorem prepareSnapshot_id (short : ShortPath snapshot) :
    prepareSnapshot id crates snapshot = Store.prepareSnapshot crates snapshot := by
  have hdirs : (DirTree.ancestors (snapshotPath snapshot)).map (storedPath id) =
      DirTree.ancestors (snapshotPath snapshot) := by
    simp [funext storedPath_id]
  have hcheck : checkSnapshotPath id crates snapshot = Store.checkSnapshotPath crates snapshot := by
    funext dd
    rw [checkSnapshotPath, nodeAt, resolve_eq_ok.mpr ⟨short, storedPath_id _⟩]
    rfl
  rw [prepareSnapshot, hdirs, hcheck]
  rfl

theorem createSnapshotForce_id (short : ShortPath snapshot) :
    createSnapshotForce id crates writer ord snapshot files =
      Store.createSnapshotForce crates writer ord snapshot files := by
  simp only [createSnapshotForce, prepareSnapshot_id short, onPath_id short]
  rfl

theorem bind_congr {x : Call α} {f g : α → Call β}
    (h : ∀ a s s', x s = (.ok a, s') → f a = g a) : x >>= f = x >>= g := by
  funext s
  cases hx : x s with
  | mk result t =>
    cases result with
    | ok a => rw [Effect.bind_of_ok hx, Effect.bind_of_ok hx, h a s t hx]
    | error e => rw [Effect.bind_of_error hx, Effect.bind_of_error hx]

theorem writeSnapshot_id (short : ShortPath snapshot)
    (shortTemp : (AtomicCreateFile.temp ⟨snapshotPath snapshot, random⟩).utf8ByteSize <
      DirTree.pathLimit) :
    writeSnapshot id crates writer ord random snapshot files =
      Store.writeSnapshot crates writer ord random snapshot files := by
  have hcreate : createTemp id (snapshotPath snapshot) random =
      AtomicCreateFile.createTemp (snapshotPath snapshot) random := by
    rw [createTemp, onPath_id shortTemp]
    rfl
  have pure_bind {α β : Type} (a : α) (f : α → Call β) : (pure a : Call α) >>= f = f a := rfl
  simp only [writeSnapshot, fillSnapshot, Store.writeSnapshot, Store.fillSnapshot,
    Effect.bind_assoc, pure_bind, hcreate]
  apply bind_congr
  intro output s s' htemp
  rw [Store.createTemp_ok (io_eq_ok.mp htemp)]
  simp only [fill, renameFilled, onPath_id shortTemp, onPath_id short, AtomicCreateFile.fill]

/-- Where names are stored as they are, these are the calls of the repository. -/
theorem createSnapshot_id (short : ShortPath snapshot)
    (shortTemp : (AtomicCreateFile.temp ⟨snapshotPath snapshot, random⟩).utf8ByteSize <
      DirTree.pathLimit) :
    createSnapshot id crates writer ord random snapshot files =
      Store.createSnapshot crates writer ord random snapshot files := by
  simp only [createSnapshot, reserveSnapshot, prepareSnapshot_id short, onPath_id short,
    writeSnapshot_id short shortTemp]
  rfl

end Plain

section Runs

variable {stored : String → String} {crates : Crates} {writer : RmpWriter}
  {snapshot : SnapshotId} {path tag : String} {Good : List UInt8 → Prop} {call : StoreCall}
  {s s' : Session Disk Fault}

/-- A call for another tag leaves the index, whatever path it has. -/
theorem keeps_run_other (lists : ∀ bytes, Good bytes → Lists crates tag bytes)
    (differs : call.snapshot.tag ≠ tag) :
    Io.KeepsDisk (Holds path Good) (call.run stored crates writer) := by
  unfold StoreCall.run
  split_ifs
  · exact keeps_createSnapshotForce lists differs
  · exact keeps_createSnapshot lists differs

variable (laws : writer.ReadBackBy crates.rmp)

include laws

theorem run_ok (h : call.run stored crates writer s = (.ok (), s')) :
    Holds (storedPath stored (snapshotPath call.snapshot)) (Lists crates call.snapshot.tag)
      s'.state := by
  unfold StoreCall.run at h
  split_ifs at h
  · exact createSnapshotForce_ok laws h
  · exact createSnapshot_ok laws h

theorem keeps_run : Io.KeepsDisk
    (Holds (storedPath stored (snapshotPath snapshot)) (Lists crates snapshot.tag))
    (call.run stored crates writer) := by
  by_cases htag : call.snapshot.tag = snapshot.tag
  · have hpath : snapshotPath call.snapshot = snapshotPath snapshot := by
      rw [snapshotPath, htag, snapshotPath]
    rw [← htag, ← hpath]
    unfold StoreCall.run
    split_ifs
    · exact keeps_createSnapshotForce_same laws
    · exact keeps_createSnapshot_same
  · exact keeps_run_other (fun _ => id) htag

/-- An index that is there stays there, as one of its tag. -/
theorem runCalls_keeps {calls : List StoreCall}
    (holds : Holds (storedPath stored (snapshotPath snapshot)) (Lists crates snapshot.tag)
      s.state) :
    Holds (storedPath stored (snapshotPath snapshot)) (Lists crates snapshot.tag)
      (runCalls stored crates writer calls s).state := by
  induction calls generalizing s with
  | nil => exact holds
  | cons call calls ih => exact ih ((keeps_run laws).state holds)

omit laws in
theorem run_of_error {e : Failure Error}
    (h : prepareSnapshot stored crates call.snapshot s = (.error e, s')) :
    call.run stored crates writer s = (.error e, s') := by
  unfold StoreCall.run
  split_ifs
  · exact Effect.bind_of_error h
  · exact Effect.bind_of_error (Effect.bind_of_error h)

/-- A call for another tag whose index would be the same file. -/
theorem run_collides (differs : call.snapshot.tag ≠ snapshot.tag)
    (same : storedPath stored (snapshotPath call.snapshot) =
      storedPath stored (snapshotPath snapshot))
    (holds : Holds (storedPath stored (snapshotPath snapshot)) (Lists crates snapshot.tag)
      s.state) :
    ∃ e, (call.run stored crates writer s).1 = .error e ∧ (ShortPath call.snapshot →
      e = .error (.looseSnapshotPathCollision (snapshotPath call.snapshot) call.snapshot.tag
        snapshot.tag) ∨ ∃ e', e = .error (.ioError e')) := by
  by_cases hshort : ShortPath call.snapshot
  · cases hprepare : prepareSnapshot stored crates call.snapshot s with
    | mk result t =>
      cases result with
      | ok _ =>
        have hapart := (prepareSnapshot_apart (fun _ => id) differs).ok holds hprepare
        exact absurd same.symm (hapart.2 hshort)
      | error e =>
        refine ⟨e, by rw [run_of_error hprepare], fun _ => ?_⟩
        rw [← same] at holds
        exact prepareSnapshot_collides hshort differs.symm holds hprepare
  · cases hrun : call.run stored crates writer s with
    | mk result t =>
      cases result with
      | ok _ =>
        obtain ⟨bytes, hlists, hmem⟩ := (keeps_run_other (fun _ => id) differs).ok holds hrun
        obtain ⟨bytes', hlists', hmem'⟩ := run_ok laws hrun
        rw [same] at hmem'
        obtain rfl := DirTree.files_unique hmem hmem'
        have htags := Except.ok.inj (hlists.symm.trans hlists')
        exact absurd (List.singleton_inj.mp htags.symm) differs
      | error e => exact ⟨e, rfl, fun h => absurd h hshort⟩

end Runs

/-- Once an index is stored, no call for another tag replaces it, whatever the names
that the file system takes for the same; and where it would, the call fails. -/
theorem stored_index_kept {crates : Crates} {writer : RmpWriter}
    (laws : writer.ReadBackBy crates.rmp) (stored : String → String) (first other : StoreCall)
    (between : List StoreCall) {s s₁ s₂ s₃ : Session Disk Fault} {result : Exec Error Unit}
    (hfirst : first.run stored crates writer s = (.ok (), s₁))
    (hbetween : runCalls stored crates writer between s₁ = s₂)
    (hother : other.run stored crates writer s₂ = (result, s₃))
    (differs : other.snapshot.tag ≠ first.snapshot.tag) :
    (∃ bytes, Lists crates first.snapshot.tag bytes ∧
      (storedPath stored (snapshotPath first.snapshot), bytes) ∈ s₂.state.dataDir.packs.files ∧
      (storedPath stored (snapshotPath first.snapshot), bytes) ∈ s₃.state.dataDir.packs.files) ∧
    (storedPath stored (snapshotPath other.snapshot) =
        storedPath stored (snapshotPath first.snapshot) →
      ∃ e, result = .error e ∧ (ShortPath other.snapshot →
        e = .error (.looseSnapshotPathCollision (snapshotPath other.snapshot) other.snapshot.tag
          first.snapshot.tag) ∨ ∃ e', e = .error (.ioError e'))) := by
  have holds : Holds (storedPath stored (snapshotPath first.snapshot))
      (Lists crates first.snapshot.tag) s₂.state := by
    rw [← hbetween]
    exact runCalls_keeps laws (run_ok laws hfirst)
  obtain ⟨bytes, hlists, hmem⟩ := id holds
  constructor
  · have hsame : ∀ content, content = bytes → Lists crates first.snapshot.tag content :=
      fun content heq => heq ▸ hlists
    have hkeeps : Io.KeepsDisk (Holds (storedPath stored (snapshotPath first.snapshot)) (· = bytes))
        (other.run stored crates writer) := keeps_run_other hsame differs
    have hkept := hkeeps.state ⟨bytes, rfl, hmem⟩
    rw [hother] at hkept
    obtain ⟨content, rfl, hmem'⟩ := hkept
    exact ⟨content, hlists, hmem, hmem'⟩
  · intro hplace
    have hcollides := run_collides laws differs hplace holds
    rwa [hother] at hcollides

namespace FoldingSample

def category (c : Char) : Char := if c.isAlpha then 'L' else 'C'

theorem category_return : category '\r' = 'C' := by decide

theorem digest_length : (List.replicate 20 (1 : UInt8)).length = 20 := List.length_replicate

def digest : ObjectChecksum := ⟨List.replicate 20 1, digest_length⟩

def crates : Crates := ⟨messagePack, fun _ => digest, ⟨category, category_return⟩⟩

/-- A file system that does not tell small letters from capitals. -/
def folded (name : String) : String := String.ofList (name.toList.map Char.toLower)

def session : Session Disk Fault := ⟨⟨⟨∅, ∅, none⟩, 0⟩, []⟩

def files : List InputFile := [⟨.x, .regular [1] 0o644⟩]

def small : StoreCall := ⟨false, [1], .insertion, ⟨⟨"loose/rc"⟩, "rc"⟩, files⟩

def capital : StoreCall := ⟨true, [2], .insertion, ⟨⟨"loose/RC"⟩, "RC"⟩, files⟩

def afterSmall : Session Disk Fault := (small.run folded crates messagePackWriter session).2

theorem run_eq {x : Exec Error Unit × Session Disk Fault} {result : Exec Error Unit}
    (h : x.1 = result) : x = (result, x.2) :=
  Prod.ext h rfl

theorem small_run : small.run folded crates messagePackWriter session = (.ok (), afterSmall) := by
  have hok : (small.run folded crates messagePackWriter session).1 = .ok () := by decide +kernel
  rw [run_eq hok, afterSmall]

theorem same_file : storedPath folded (snapshotPath capital.snapshot) =
    storedPath folded (snapshotPath small.snapshot) := by
  decide +kernel

theorem differs : capital.snapshot.tag ≠ small.snapshot.tag := by decide

end FoldingSample

/-- A tag in capitals does not replace the same one in small letters, not even by force. -/
theorem stored_index_kept_folded :
    (∃ bytes, Lists FoldingSample.crates "rc" bytes ∧
      (storedPath FoldingSample.folded (snapshotPath FoldingSample.small.snapshot), bytes) ∈
        (FoldingSample.capital.run FoldingSample.folded FoldingSample.crates messagePackWriter
          FoldingSample.afterSmall).2.state.dataDir.packs.files) ∧
    ∃ e, (FoldingSample.capital.run FoldingSample.folded FoldingSample.crates messagePackWriter
      FoldingSample.afterSmall).1 = .error e := by
  have hlaws : messagePackWriter.ReadBackBy FoldingSample.crates.rmp := messagePack_readBack
  have hbetween : runCalls FoldingSample.folded FoldingSample.crates messagePackWriter []
      FoldingSample.afterSmall = FoldingSample.afterSmall := rfl
  have hother := FoldingSample.run_eq (x := FoldingSample.capital.run FoldingSample.folded
    FoldingSample.crates messagePackWriter FoldingSample.afterSmall) rfl
  have hkept := stored_index_kept hlaws FoldingSample.folded FoldingSample.small
    FoldingSample.capital [] FoldingSample.small_run hbetween hother FoldingSample.differs
  obtain ⟨⟨bytes, hlists, -, hmem⟩, hcollides⟩ := hkept
  obtain ⟨e, he, -⟩ := hcollides FoldingSample.same_file
  exact ⟨⟨bytes, hlists, hmem⟩, e, he⟩

end Elfshaker.Store.Aliased
