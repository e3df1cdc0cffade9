import Elfshaker.Format.PushSnapshot
import Elfshaker.Store.IndexFiles

namespace Elfshaker.Store

open Elfshaker.Library Elfshaker.Format

theorem io_eq_ok {x : Io α} {a : α} {s s' : Session Disk Fault} :
    io x s = (.ok a, s') ↔ x s = (.ok a, s') :=
  Effect.mapError_eq_ok

theorem io_error {x : Io α} {e : Failure Error} {s s' : Session Disk Fault}
    (h : io x s = (.error e, s')) : ∃ e', x s = (.error e', s') := by
  obtain ⟨hresult, rfl⟩ := Prod.mk.inj h
  cases hx : (x s).1 with
  | ok a =>
    rw [hx] at hresult
    cases hresult
  | error e' => exact ⟨e', Prod.ext hx rfl⟩

section Calls

variable {P : Disk → Prop}

theorem keeps_io {x : Io α} (h : Io.KeepsDisk P x) : Io.KeepsDisk P (io x) :=
  Effect.Keeps.mapError h

/-- A reservation makes directories and opens one file. -/
theorem keeps_reserve_of {path : String}
    (dirs : ∀ dir isLast, Io.KeepsDisk P (Io.onPacks (DirTree.makeDir dir isLast)))
    (opens : Io.KeepsDisk P (Io.onPacks (DirTree.openCreate path))) :
    Io.KeepsDisk P (AtomicCreateFile.reserve path) := by
  have hopen : Io.KeepsDisk P (openForWrite path) := by
    refine opens.orElse fun e y hy => ?_
    split_ifs at hy
    cases hy
    exact (Io.keeps_createDirAll dirs).bind fun _ => opens
  exact hopen.bind fun _ => Io.keeps_passing.bind fun _ => (Io.keeps_look _).bind fun _ => .lift _

theorem keeps_createTemp_of {path : String} {random : List UInt8}
    (creates : ∀ disk now packs, P disk →
      DirTree.createNew (createTempPath path random) now disk.dataDir.packs = .ok packs →
        P ⟨{ disk.dataDir with packs }, now⟩) :
    Io.KeepsDisk P (AtomicCreateFile.createTemp path random) :=
  Effect.Keeps.bind (Io.keeps_onPacks creates) fun _ => Io.keeps_passing.bind fun _ => .pure _

theorem keeps_fill_of {file : AtomicCreateFile} {bytes : List UInt8}
    (writes : ∀ disk now bytes packs, P disk →
      DirTree.write file.temp bytes now disk.dataDir.packs = .ok packs →
        P ⟨{ disk.dataDir with packs }, now⟩) : Io.KeepsDisk P (file.fill bytes) :=
  Effect.Keeps.bind (Io.keeps_writeToPacks writes) fun _ =>
    (Effect.Keeps.lift _).bind fun _ => Io.keeps_passing

/-- What is stored of a file is written under its checksum. -/
theorem keeps_storeFile_of {crates : Crates}
    (writes : ∀ bytes, Io.KeepsDisk P (writeLooseObject (crates.sha1 bytes) bytes))
    (file : InputFile) : Io.KeepsDisk P (storeFile crates file) := by
  refine Io.keeps_passing.bind fun _ => ?_
  cases file.source with
  | symlink target kind => exact (writes (encodeTarget target).1).bind fun _ => .pure _
  | regular content mode => exact (writes content).bind fun _ => .pure _
  | denied size mode =>
    dsimp only
    split_ifs
    · exact .lift _
    · exact .pure _
  | failing e => exact .lift _

theorem keeps_snapshotIndex_of {crates : Crates}
    (writes : ∀ bytes, Io.KeepsDisk P (writeLooseObject (crates.sha1 bytes) bytes))
    (ord : IterOrder FileHandle) (snapshot : SnapshotId) (files : List InputFile) :
    Io.KeepsDisk P (snapshotIndex crates ord snapshot files) :=
  (keeps_io Io.keeps_passing).bind fun _ =>
    (keeps_io (.runAll fun file _ => keeps_storeFile_of writes file)).bind fun _ => .lift _

end Calls

section Files

/-- The packs directory holds the files of another. -/
def SameFiles (dd dd' : DataDir) : Prop :=
  ∀ file, file ∈ dd'.packs.files ↔ file ∈ dd.packs.files

/-- A property of a disk that its packs directory decides. -/
def FromPacks (P : Disk → Prop) : Prop :=
  ∀ disk disk', disk'.dataDir.packs = disk.dataDir.packs → P disk → P disk'

/-- A property of a disk that the files of its packs directory decide. -/
def FromFiles (P : Disk → Prop) : Prop :=
  ∀ disk disk', SameFiles disk.dataDir disk'.dataDir → P disk → P disk'

variable {P : Disk → Prop}

theorem FromFiles.fromPacks (fromFiles : FromFiles P) : FromPacks P :=
  fun disk disk' same hdisk => fromFiles disk disk' (fun file => by rw [same]) hdisk

theorem keeps_makeDir (fromFiles : FromFiles P) (dir : String) (isLast : Bool) :
    Io.KeepsDisk P (Io.onPacks (DirTree.makeDir dir isLast)) :=
  Io.keeps_onPacks fun disk _ _ hdisk hop =>
    fromFiles disk _ (fun _ => DirTree.makeDir_files hop) hdisk

variable (fromPacks : FromPacks P)

include fromPacks

theorem keeps_loose (op : Nat → DirTree → Exec IoError DirTree) :
    Io.KeepsDisk P (Io.onLoose op) :=
  Io.keeps_onLoose fun disk _ _ hdisk _ => fromPacks disk _ rfl hdisk

theorem keeps_head (text : String) : Io.KeepsDisk P (Io.setHead text) :=
  Io.keeps_setHead fun disk _ _ hdisk => fromPacks disk _ rfl hdisk

theorem keeps_writeLooseObject (checksum : ObjectChecksum) (bytes : List UInt8) :
    Io.KeepsDisk P (writeLooseObject checksum bytes) := by
  have hpublish (path : String) : Io.KeepsDisk P (publishOrExisting path bytes) := by
    refine (keeps_loose fromPacks _).orElse fun e y hy => ?_
    cases hy
    exact (Io.keeps_look _).bind fun _ => .lift _
  apply Effect.Keeps.bind (Io.keeps_createDirAll fun _ _ => keeps_loose fromPacks _)
  intro _
  apply (Io.keeps_look _).bind
  intro existing
  split_ifs
  · exact .pure _
  · exact Io.keeps_prepareAtomicWrite.bind fun _ => hpublish _

theorem keeps_snapshotIndex (crates : Crates) (ord : IterOrder FileHandle) (snapshot : SnapshotId)
    (files : List InputFile) : Io.KeepsDisk P (snapshotIndex crates ord snapshot files) :=
  keeps_snapshotIndex_of (fun _ => keeps_writeLooseObject fromPacks _ _) ord snapshot files

/-- HEAD is no index. -/
theorem keeps_updateHead (snapshot : SnapshotId) : Io.KeepsDisk P (updateHead snapshot) :=
  (keeps_io Io.keeps_passing).bind fun _ =>
    (keeps_io Io.keeps_prepareAtomicWrite).bind fun _ =>
      keeps_io (keeps_head fromPacks _)

end Files

section Other

/-- A property of a disk that its index files decide. -/
def FromIndexes (P : Disk → Prop) : Prop :=
  ∀ disk disk', SameIndexes disk.dataDir disk'.dataDir → P disk → P disk'

theorem FromIndexes.fromFiles {P : Disk → Prop} (indexes : FromIndexes P) : FromFiles P :=
  fun disk disk' same hdisk => indexes disk disk' (fun p b _ => same (p, b)) hdisk

theorem fromIndexes_holdsIndex (dd : DataDir) (path : String) (bytes : List UInt8) :
    FromIndexes fun disk => HoldsIndex dd path bytes disk.dataDir :=
  fun _ _ same h => h.trans_same same

theorem sameIndexes_insert {dd : DataDir} {path : String} (other : ¬ IsIndexPath path)
    (bytes : List UInt8) (mtime : Nat) :
    SameIndexes dd { dd with packs := dd.packs.insert path (.file bytes mtime) } := by
  intro p b hp
  have hne : p ≠ path := fun heq => other (heq ▸ hp)
  exact DirTree.mem_files_insert_file.trans (by rw [if_neg hne])

variable {P : Disk → Prop} (indexes : FromIndexes P)

include indexes

theorem keeps_openCreate {path : String} (other : ¬ IsIndexPath path) :
    Io.KeepsDisk P (Io.onPacks (DirTree.openCreate path)) := by
  refine Io.keeps_onPacks fun disk now packs hdisk hop => ?_
  rcases (DirTree.openCreate_ok hop).2 with ⟨-, rfl⟩ | ⟨-, rfl⟩
  · exact indexes.fromFiles disk _ (fun _ => Iff.rfl) hdisk
  · exact indexes disk _ (sameIndexes_insert other _ _) hdisk

theorem keeps_reserve {path : String} (other : ¬ IsIndexPath path) :
    Io.KeepsDisk P (AtomicCreateFile.reserve path) :=
  keeps_reserve_of (keeps_makeDir indexes.fromFiles) (keeps_openCreate indexes other)

theorem keeps_createTemp (path : String) (random : List UInt8) :
    Io.KeepsDisk P (AtomicCreateFile.createTemp path random) :=
  keeps_createTemp_of fun disk now packs hdisk hop => by
    have other : ¬ IsIndexPath (createTempPath path random) := not_isIndexPath_temp ⟨path, random⟩
    rw [DirTree.createNew_ok hop]
    exact indexes disk _ (sameIndexes_insert other _ _) hdisk

theorem keeps_fill (file : AtomicCreateFile) (bytes : List UInt8) : Io.KeepsDisk P (file.fill bytes) :=
  keeps_fill_of fun disk now _ packs hdisk hop => by
    rw [DirTree.write_ok hop]
    exact indexes disk _ (sameIndexes_insert (not_isIndexPath_temp file) _ _) hdisk

theorem keeps_commitContent (file : AtomicCreateFile) (other : ¬ IsIndexPath file.path)
    (bytes : List UInt8) : Io.KeepsDisk P (file.commitContent bytes) := by
  refine (keeps_fill indexes file bytes).bind fun _ =>
    Io.keeps_onPacks fun disk now packs hdisk hop => indexes disk _ (fun p b hp => ?_) hdisk
  obtain ⟨content, mtime, -, rfl⟩ := DirTree.rename_ok hop
  have hsource : p ≠ file.temp := fun heq => not_isIndexPath_temp file (heq ▸ hp)
  have hdest : p ≠ file.path := fun heq => other (heq ▸ hp)
  refine DirTree.mem_files_insert_file.trans ?_
  rw [if_neg hdest, DirTree.mem_files_erase]
  exact and_iff_left hsource

end Other

section Reserve

/-- The path was free or held an empty file, and holds an empty file now. -/
structure Reserved (dd : DataDir) (path : String) (dd' : DataDir) : Prop where
  holds : HoldsIndex dd path [] dd'
  empty : ∀ bytes, (path, bytes) ∈ dd.packs.files → bytes = []
  short : path.utf8ByteSize < DirTree.pathLimit

/-- The files of a directory, and an empty one where there was none. -/
def Opened (dd : DataDir) (path : String) (dd' : DataDir) : Prop :=
  ∀ p b, (p, b) ∈ dd'.packs.files ↔ (p, b) ∈ dd.packs.files ∨
    p = path ∧ b = [] ∧ ∀ bytes, (path, bytes) ∉ dd.packs.files

theorem openCreate_opened {path : String} {now : Nat} {dd : DataDir} {packs : DirTree}
    (h : DirTree.openCreate path now dd.packs = .ok packs) : Opened dd path { dd with packs } := by
  intro p b
  rcases (DirTree.openCreate_ok h).2 with ⟨⟨bytes, hbytes⟩, rfl⟩ | ⟨hnone, rfl⟩
  · exact ⟨Or.inl, fun hb => hb.elim id fun hfree => absurd hbytes (hfree.2.2 bytes)⟩
  · have hfree : ∀ bytes, (path, bytes) ∉ dd.packs.files := by
      intro bytes hbytes
      obtain ⟨mtime, hlookup⟩ := DirTree.mem_files.mp hbytes
      rw [hnone] at hlookup
      cases hlookup
    refine DirTree.mem_files_insert_file.trans ?_
    split_ifs with hp
    · subst hp
      exact ⟨fun hb => .inr ⟨rfl, hb, hfree⟩, fun hb => hb.elim (absurd · (hfree b)) fun h => h.2.1⟩
    · exact ⟨Or.inl, fun hb => hb.elim id fun h => absurd h.1 hp⟩

theorem Opened.of_sameFiles {dd dd' dd'' : DataDir} {path : String} (same : SameFiles dd dd')
    (h : Opened dd' path dd'') : Opened dd path dd'' := by
  intro p b
  rw [h p b, same]
  simp only [same _]

theorem keeps_sameFiles (dd : DataDir) (dir : String) (isLast : Bool) :
    Io.KeepsDisk (fun disk => SameFiles dd disk.dataDir) (Io.onPacks (DirTree.makeDir dir isLast)) :=
  Io.keeps_onPacks fun _ _ _ hdisk hop file => (DirTree.makeDir_files hop).trans (hdisk file)

theorem openForWrite_ok {path : String} {s s' : Session Disk Fault}
    (h : openForWrite path s = (.ok (), s')) :
    path.utf8ByteSize < DirTree.pathLimit ∧ Opened s.state.dataDir path s'.state.dataDir := by
  have opens {t t' : Session Disk Fault} (h : Io.onPacks (DirTree.openCreate path) t = (.ok (), t')) :
      path.utf8ByteSize < DirTree.pathLimit ∧ Opened t.state.dataDir path t'.state.dataDir := by
    obtain ⟨packs, hop, hstate⟩ := Io.onPacks_ok h
    rw [hstate]
    exact ⟨(DirTree.openCreate_ok hop).1, openCreate_opened hop⟩
  rcases Effect.orElse_eq_ok.mp h with h | ⟨e, t, retry, herror, hretry, h⟩
  · exact opens h
  · split_ifs at hretry
    cases hretry
    obtain ⟨_, u, hdirs, h⟩ := Effect.bind_eq_ok.mp h
    have hsame : SameFiles s.state.dataDir t.state.dataDir := by
      rw [Io.onPacks_error herror]
      exact fun _ => Iff.rfl
    have hsame' := (Io.keeps_createDirAll (keeps_sameFiles s.state.dataDir)).ok hsame hdirs
    exact ⟨(opens h).1, (opens h).2.of_sameFiles hsame'⟩

theorem reserve_ok {path : String} {s s' : Session Disk Fault}
    (h : AtomicCreateFile.reserve path s = (.ok (), s')) :
    Reserved s.state.dataDir path s'.state.dataDir := by
  obtain ⟨_, t, hopen, h⟩ := Effect.bind_eq_ok.mp h
  obtain ⟨_, u, hlock, h⟩ := Effect.bind_eq_ok.mp h
  obtain ⟨bytes, v, hlook, h⟩ := Effect.bind_eq_ok.mp h
  obtain ⟨hempty, rfl⟩ := Effect.lift_eq_ok.mp h
  obtain ⟨hread, hv⟩ := Io.look_ok hlook
  obtain ⟨hshort, hopened⟩ := openForWrite_ok hopen
  rw [hv]
  rw [Io.passing_ok hlock] at hread ⊢
  unfold checkEmpty at hempty
  split_ifs at hempty with hbytes
  · subst hbytes
    have hmem := DirTree.readFile_eq_ok.mp hread
    refine ⟨fun p b _ => ?_, fun bytes hbytes => ?_, hshort⟩
    · split_ifs with hp
      · subst hp
        exact ⟨fun hb => DirTree.files_unique hb hmem, fun hb => hb ▸ hmem⟩
      · rw [hopened p b]
        exact ⟨fun hb => hb.elim id fun h => absurd h.1 hp, Or.inl⟩
    · exact DirTree.files_unique ((hopened path bytes).mpr (.inl hbytes)) hmem
  · cases hempty

theorem Reserved.of_sameFiles {dd dd' dd'' : DataDir} {path : String} (same : SameFiles dd dd')
    (h : Reserved dd' path dd'') : Reserved dd path dd'' := by
  refine ⟨fun p b hp => ?_, fun bytes hbytes => h.empty bytes ((same _).mpr hbytes), h.short⟩
  rw [h.holds p b hp, same]

theorem prepareSnapshot_ok {crates : Crates} {snapshot : SnapshotId} {s s' : Session Disk Fault}
    (h : prepareSnapshot crates snapshot s = (.ok (), s')) :
    SameFiles s.state.dataDir s'.state.dataDir := by
  obtain ⟨_, t, hlock, h⟩ := Effect.bind_eq_ok.mp h
  obtain ⟨_, u, hdirs, h⟩ := Effect.bind_eq_ok.mp h
  obtain ⟨-, rfl⟩ := Effect.asks_eq_ok.mp h
  have hsame : SameFiles s.state.dataDir t.state.dataDir := by
    rw [Io.passing_ok (io_eq_ok.mp hlock)]
    exact fun _ => Iff.rfl
  exact (Io.keeps_ensureDir (keeps_sameFiles s.state.dataDir)).ok hsame (io_eq_ok.mp hdirs)

theorem reserveSnapshot_ok {crates : Crates} {snapshot : SnapshotId} {s s' : Session Disk Fault}
    (h : reserveSnapshot crates snapshot s = (.ok (), s')) :
    Reserved s.state.dataDir (snapshotPath snapshot) s'.state.dataDir := by
  obtain ⟨_, t, hprepare, h⟩ := Effect.bind_eq_ok.mp h
  exact (reserve_ok (io_eq_ok.mp h)).of_sameFiles (prepareSnapshot_ok hprepare)

end Reserve

/-- A tag that a path is made of is short enough to be written. -/
theorem shortTags_of_path {snapshot : SnapshotId}
    (h : (snapshotPath snapshot).utf8ByteSize < DirTree.pathLimit) : ShortTags [snapshot.tag] := by
  refine ⟨by simp [handleCount], fun tag htag => ?_⟩
  rw [List.mem_singleton.mp htag]
  rw [snapshotPath, PackId.indexPath, PackId.looseOf, String.utf8ByteSize_append,
    String.utf8ByteSize_append] at h
  exact Nat.lt_of_le_of_lt (by omega) h

section Write

variable {crates : Crates} {writer : RmpWriter} {ord : IterOrder FileHandle} {random : List UInt8}
  {snapshot : SnapshotId} {files : List InputFile}

theorem createTemp_ok {path : String} {file : AtomicCreateFile} {s s' : Session Disk Fault}
    (h : AtomicCreateFile.createTemp path random s = (.ok file, s')) :
    file = ⟨path, random⟩ := by
  obtain ⟨_, _, -, h⟩ := Effect.bind_eq_ok.mp h
  obtain ⟨_, _, -, h⟩ := Effect.bind_eq_ok.mp h
  exact (Effect.pure_eq_ok.mp h).1.symm

theorem fill_ok {file : AtomicCreateFile} {bytes : List UInt8} {s s' : Session Disk Fault}
    (h : file.fill bytes s = (.ok (), s')) : (file.temp, bytes) ∈ s'.state.dataDir.packs.files := by
  obtain ⟨_, t, hwrite, h⟩ := Effect.bind_eq_ok.mp h
  obtain ⟨_, u, hassert, h⟩ := Effect.bind_eq_ok.mp h
  obtain ⟨-, rfl⟩ := Effect.lift_eq_ok.mp hassert
  rw [Io.passing_ok h]
  exact Io.writeToPacks_ok hwrite

theorem snapshotIndex_tags {index : PackIndex} {s s' : Session Disk Fault}
    (h : snapshotIndex crates ord snapshot files s = (.ok index, s')) :
    index.snapshotTags = [snapshot.tag] := by
  obtain ⟨_, _, -, h⟩ := Effect.bind_eq_ok.mp h
  obtain ⟨entries, _, -, h⟩ := Effect.bind_eq_ok.mp h
  obtain ⟨hpush, -⟩ := Effect.lift_eq_ok.mp h
  rw [(PackIndex.pushSnapshot_tags (Exec.mapError_eq_ok.mp hpush)).2]
  rfl

theorem keeps_fillSnapshot {P : Disk → Prop} (indexes : FromIndexes P) :
    Io.KeepsDisk P (fillSnapshot crates writer ord random snapshot files) :=
  (keeps_io (keeps_createTemp indexes _ _)).bind fun output =>
    (keeps_snapshotIndex indexes.fromFiles.fromPacks crates ord snapshot files).bind fun _ =>
      (keeps_io (keeps_fill indexes output _)).bind fun _ => .pure _

theorem fillSnapshot_ok {file : AtomicCreateFile} {s s' : Session Disk Fault}
    (h : fillSnapshot crates writer ord random snapshot files s = (.ok file, s')) :
    file.path = snapshotPath snapshot ∧ ∃ index : PackIndex, index.snapshotTags = [snapshot.tag] ∧
      (file.temp, index.serialize writer) ∈ s'.state.dataDir.packs.files := by
  obtain ⟨output, _, htemp, h⟩ := Effect.bind_eq_ok.mp h
  obtain ⟨index, _, hindex, h⟩ := Effect.bind_eq_ok.mp h
  obtain ⟨_, t, hfill, h⟩ := Effect.bind_eq_ok.mp h
  obtain ⟨rfl, rfl⟩ := Effect.pure_eq_ok.mp h
  refine ⟨?_, index, snapshotIndex_tags hindex, fill_ok (io_eq_ok.mp hfill)⟩
  rw [createTemp_ok (io_eq_ok.mp htemp)]

/-- The renaming of a filled file puts its content in the place of the reservation. -/
theorem publish_holdsIndex {dd : DataDir} {file : AtomicCreateFile} {bytes : List UInt8}
    {s s' : Session Disk Fault} (h : Io.onPacks (DirTree.rename file.temp file.path) s = (.ok (), s'))
    (reserved : HoldsIndex dd file.path [] s.state.dataDir)
    (filled : (file.temp, bytes) ∈ s.state.dataDir.packs.files) :
    HoldsIndex dd file.path bytes s'.state.dataDir := by
  obtain ⟨packs, hop, hstate⟩ := Io.onPacks_ok h
  rw [hstate]
  intro p b hp
  have hne : p ≠ file.temp := fun heq => not_isIndexPath_temp file (heq ▸ hp)
  rw [DirTree.rename_files hop filled hne]
  split_ifs with hpath
  · rfl
  · rw [reserved p b hp, if_neg hpath]

/-- Where the last renaming fails, the packs directory is as it was before it. -/
theorem publishing_error {P : Disk → Prop} {x : Call AtomicCreateFile} (keeps : Io.KeepsDisk P x) :
    Effect.Triple (fun s => P s.state)
      (x >>= fun output => io (Io.onPacks (DirTree.rename output.temp output.path)))
      (fun _ _ => True) fun s => P s.state := by
  refine Effect.Triple.bind keeps fun output => .intro (fun _ _ _ _ _ => trivial) ?_
  intro t t' e ht herror
  obtain ⟨e', herror⟩ := io_error herror
  rw [Io.onPacks_error herror]
  exact ht

/-- A write that fails after the reservation leaves the empty index. -/
theorem writeSnapshot_error {dd : DataDir} {e : Failure Error} {s s' : Session Disk Fault}
    (reserved : HoldsIndex dd (snapshotPath snapshot) [] s.state.dataDir)
    (h : writeSnapshot crates writer ord random snapshot files s = (.error e, s')) :
    HoldsIndex dd (snapshotPath snapshot) [] s'.state.dataDir := by
  have hkeeps : Io.KeepsDisk (fun disk => HoldsIndex dd (snapshotPath snapshot) [] disk.dataDir)
      (fillSnapshot crates writer ord random snapshot files) :=
    keeps_fillSnapshot (fromIndexes_holdsIndex _ _ _)
  exact (publishing_error hkeeps).error reserved h

theorem writeSnapshot_ok {dd : DataDir} {s s' : Session Disk Fault}
    (reserved : HoldsIndex dd (snapshotPath snapshot) [] s.state.dataDir)
    (h : writeSnapshot crates writer ord random snapshot files s = (.ok (), s')) :
    ∃ index : PackIndex, index.snapshotTags = [snapshot.tag] ∧
      HoldsIndex dd (snapshotPath snapshot) (index.serialize writer) s'.state.dataDir := by
  obtain ⟨output, t, hfill, h⟩ := Effect.bind_eq_ok.mp h
  obtain ⟨hpath, index, htags, hfilled⟩ := fillSnapshot_ok hfill
  have hreserved := (keeps_fillSnapshot (fromIndexes_holdsIndex dd _ _)).ok reserved hfill
  refine ⟨index, htags, ?_⟩
  rw [← hpath] at hreserved ⊢
  exact publish_holdsIndex (io_eq_ok.mp h) hreserved hfilled

end Write

end Elfshaker.Store
