import Elfshaker.Remote.PackNames

namespace Elfshaker.Remote

open Elfshaker.Library Elfshaker.Format Elfshaker.Store Elfshaker.Packs

section Canonical

variable {crates : Crates}

/-- The name of an index is that of a pack, or that of the one snapshot it lists. -/
def Named (crates : Crates) (id : PackId) (bytes : List UInt8) : Prop :=
  PackId.isValidRegular id.name = true ∨
    ∃ tag, id = PackId.looseOf tag ∧ SnapshotId.isValid crates.unicode tag = true ∧
      ∀ tags, PackIndex.loadOnlySnapshots crates.rmp bytes = .ok tags → tags = [tag]

def Canonical (crates : Crates) (disk : Disk) : Prop :=
  ∀ id bytes, (id.indexPath, bytes) ∈ disk.dataDir.packs.files → Named crates id bytes

theorem fromIndexes_canonical : FromIndexes (Canonical crates) :=
  fun _ _ same h id bytes hfile => h id bytes ((same _ _ (isIndexPath_indexPath id)).mp hfile)

/-- An index with nothing in it lists no snapshot. -/
theorem named_empty {snapshot : SnapshotId}
    (valid : SnapshotId.isValid crates.unicode snapshot.tag = true) :
    Named crates (PackId.looseOf snapshot.tag) [] := by
  refine .inr ⟨snapshot.tag, rfl, valid, fun tags htags => ?_⟩
  rw [PackIndex.loadOnlySnapshots_empty] at htags
  cases htags

theorem named_serialize {writer : RmpWriter} (laws : writer.ReadBackBy crates.rmp)
    {snapshot : SnapshotId} (valid : SnapshotId.isValid crates.unicode snapshot.tag = true)
    (short : ShortTags [snapshot.tag]) {index : PackIndex}
    (htags : index.snapshotTags = [snapshot.tag]) :
    Named crates (PackId.looseOf snapshot.tag) (index.serialize writer) := by
  rw [← htags] at short
  refine .inr ⟨snapshot.tag, rfl, valid, fun tags hload => ?_⟩
  rw [PackIndex.loadOnlySnapshots_serialize laws short] at hload
  cases hload
  exact htags

/-- The name fits what is written under it. -/
def NamedAt (crates : Crates) (path : String) (bytes : List UInt8) : Prop :=
  ∀ id : PackId, path = id.indexPath → Named crates id bytes

theorem namedAt_indexPath {id : PackId} {bytes : List UInt8} (h : Named crates id bytes) :
    NamedAt crates id.indexPath bytes := by
  intro other heq
  rwa [← PackId.indexPath_injective heq]

theorem namedAt_packPath (id : PackId) (bytes : List UInt8) : NamedAt crates id.packPath bytes :=
  fun other heq => absurd (heq ▸ isIndexPath_indexPath other) (not_isIndexPath_packPath id)

theorem Canonical.puts {disk disk' : Disk} {path : String} {bytes : List UInt8}
    (h : Canonical crates disk) (named : NamedAt crates path bytes)
    (puts : Puts disk.dataDir path bytes disk'.dataDir) : Canonical crates disk' := by
  intro id content hfile
  rw [puts.files _ _ ⟨id, .inl rfl⟩] at hfile
  split_ifs at hfile with hpath
  · rw [hfile]
    exact named id hpath.symm
  · exact h id content hfile

section Steps

variable {path : String}

theorem keeps_openCreate_named (named : NamedAt crates path []) :
    Io.KeepsDisk (Canonical crates) (Io.onPacks (DirTree.openCreate path)) := by
  refine Io.keeps_onPacks fun disk now packs hdisk hop id bytes hfile => ?_
  rcases (openCreate_opened hop _ _).mp hfile with hold | ⟨hpath, rfl, -⟩
  · exact hdisk id bytes hold
  · exact named id hpath.symm

theorem keeps_reserve_named (named : NamedAt crates path []) :
    Io.KeepsDisk (Canonical crates) (AtomicCreateFile.reserve path) :=
  keeps_reserve_of (keeps_makeDir fromIndexes_canonical.fromFiles) (keeps_openCreate_named named)

theorem keeps_publish_named {bytes : List UInt8} (named : NamedAt crates path bytes) :
    Io.KeepsDisk (Canonical crates) (Io.onPacks (DirTree.publish path bytes)) :=
  Io.keeps_onPacks fun _ _ _ hdisk hop => hdisk.puts named (puts_publish rfl hop)

/-- A name that fits whatever is written under it. -/
theorem keeps_writeIn_named (named : ∀ bytes, NamedAt crates path bytes) (bytes : List UInt8) :
    Io.KeepsDisk (Canonical crates) (writeIn path bytes) := by
  refine (keeps_openCreate_named (named [])).bind fun _ => ?_
  refine Io.keeps_writeToPacks fun disk now written packs hdisk hop id content hfile => ?_
  rw [DirTree.write_ok hop, DirTree.mem_files_insert_file] at hfile
  split_ifs at hfile with hpath
  · exact named content id hpath.symm
  · exact hdisk id content hfile

/-- The file that takes the place of a reservation fits it. -/
theorem keeps_rename_named {file : AtomicCreateFile} {bytes : List UInt8}
    (named : NamedAt crates file.path bytes) :
    Effect.Triple (fun s : Session Disk Fault => Canonical crates s.state ∧
        (file.temp, bytes) ∈ s.state.dataDir.packs.files)
      (io (Io.onPacks (DirTree.rename file.temp file.path)))
      (fun _ s => Canonical crates s.state) fun s => Canonical crates s.state := by
  refine .intro (fun s s' _ hs hrun => ?_) fun s s' e hs hrun => ?_
  · obtain ⟨packs, hop, hstate⟩ := Io.onPacks_ok (io_eq_ok.mp hrun)
    exact hs.1.puts named (puts_rename hstate hop hs.2)
  · obtain ⟨e', herror⟩ := io_error hrun
    rw [Io.onPacks_error herror]
    exact hs.1

theorem keeps_rename_any {file : AtomicCreateFile}
    (named : ∀ bytes, NamedAt crates file.path bytes) :
    Io.KeepsDisk (Canonical crates) (Io.onPacks (DirTree.rename file.temp file.path)) := by
  refine Io.keeps_onPacks fun disk now packs hdisk hop => ?_
  obtain ⟨bytes, mtime, hsource, -⟩ := DirTree.rename_ok hop
  have hfilled := DirTree.mem_files.mpr ⟨mtime, hsource⟩
  exact hdisk.puts (named bytes) (puts_rename rfl hop hfilled)

end Steps

section Calls

variable {writer : RmpWriter} {packWriter : PackWriter} {ord : IterOrder FileHandle}
  {random : List UInt8} {snapshot : SnapshotId} {files : List InputFile}
  {randoms : List UInt8 × List UInt8} {pack : PackId} {index : PackIndex} {opts : PackOptions}

theorem keeps_prepareSnapshot_named :
    Io.KeepsDisk (Canonical crates) (prepareSnapshot crates snapshot) :=
  (keeps_io Io.keeps_passing).bind fun _ =>
    (keeps_io (Io.keeps_ensureDir (keeps_makeDir fromIndexes_canonical.fromFiles))).bind fun _ => .asks _

theorem keeps_writeSnapshot_named (laws : writer.ReadBackBy crates.rmp)
    (valid : SnapshotId.isValid crates.unicode snapshot.tag = true)
    (short : ShortTags [snapshot.tag]) :
    Io.KeepsDisk (Canonical crates) (writeSnapshot crates writer ord random snapshot files) := by
  have hkeeps : Io.KeepsDisk (Canonical crates)
      (fillSnapshot crates writer ord random snapshot files) :=
    keeps_fillSnapshot fromIndexes_canonical
  have hfills : Effect.Triple (fun s : Session Disk Fault => Canonical crates s.state)
      (fillSnapshot crates writer ord random snapshot files)
      (fun output s => ∃ bytes, NamedAt crates output.path bytes ∧ Canonical crates s.state ∧
        (output.temp, bytes) ∈ s.state.dataDir.packs.files) fun s => Canonical crates s.state := by
    refine .intro (fun s s' output hs hrun => ?_) fun s s' e hs hrun => hkeeps.error hs hrun
    obtain ⟨hpath, index, htags, hfilled⟩ := fillSnapshot_ok hrun
    refine ⟨_, ?_, hkeeps.ok hs hrun, hfilled⟩
    rw [hpath]
    exact namedAt_indexPath (named_serialize laws valid short htags)
  refine Effect.Triple.bind hfills fun output => ?_
  refine .intro (fun s s' u hs hrun => ?_) fun s s' e hs hrun => ?_
  · obtain ⟨bytes, hnamed, hs⟩ := hs
    exact (keeps_rename_named hnamed).ok hs hrun
  · obtain ⟨bytes, hnamed, hs⟩ := hs
    exact (keeps_rename_named hnamed).error hs hrun

theorem keeps_createSnapshot_named (laws : writer.ReadBackBy crates.rmp)
    (valid : SnapshotId.isValid crates.unicode snapshot.tag = true) :
    Io.KeepsDisk (Canonical crates) (createSnapshot crates writer ord random snapshot files) := by
  have hreserve : Io.KeepsDisk (Canonical crates) (reserveSnapshot crates snapshot) :=
    keeps_prepareSnapshot_named.bind fun _ =>
      keeps_io (keeps_reserve_named (namedAt_indexPath (named_empty valid)))
  refine hreserve.bind_ok fun _ s s' hrun => ?_
  have short := shortTags_of_path (reserveSnapshot_ok hrun).short
  exact (keeps_writeSnapshot_named laws valid short).bind fun _ =>
    keeps_updateHead fromIndexes_canonical.fromFiles.fromPacks snapshot

theorem keeps_createSnapshotForce_named (laws : writer.ReadBackBy crates.rmp)
    (valid : SnapshotId.isValid crates.unicode snapshot.tag = true)
    (short : ShortTags [snapshot.tag]) :
    Io.KeepsDisk (Canonical crates) (createSnapshotForce crates writer ord snapshot files) := by
  refine keeps_prepareSnapshot_named.bind fun _ => ?_
  refine (keeps_snapshotIndex fromIndexes_canonical.fromFiles.fromPacks crates ord snapshot files).bind_ok
    fun index s s' hindex => ?_
  have hnamed := named_serialize laws valid short (snapshotIndex_tags hindex)
  exact (keeps_io Io.keeps_prepareAtomicWrite).bind fun _ =>
    (keeps_io (keeps_publish_named (namedAt_indexPath hnamed))).bind fun _ =>
      keeps_updateHead fromIndexes_canonical.fromFiles.fromPacks snapshot

theorem fillPack_path {file : AtomicCreateFile} {s s' : Session Disk Fault}
    (h : fillPack writer packWriter randoms pack index opts s = (.ok file, s')) :
    file.path = pack.indexPath := by
  obtain ⟨output, _, htemp, h⟩ := Effect.bind_eq_ok.mp h
  obtain ⟨content, _, -, h⟩ := Effect.bind_eq_ok.mp h
  obtain ⟨packOutput, _, -, h⟩ := Effect.bind_eq_ok.mp h
  obtain ⟨_, _, -, h⟩ := Effect.bind_eq_ok.mp h
  obtain ⟨_, _, -, h⟩ := Effect.bind_eq_ok.mp h
  obtain ⟨_, _, -, h⟩ := Effect.bind_eq_ok.mp h
  rw [← (Effect.pure_eq_ok.mp h).1, createTemp_ok (io_eq_ok.mp htemp)]

theorem keeps_createPack_named :
    Io.KeepsDisk (Canonical crates) (createPack writer packWriter randoms pack index opts) := by
  have hreserve : Io.KeepsDisk (Canonical crates) (reservePack pack) := by
    refine preparePack_keeps.bind_ok fun _ s s' hprepare => ?_
    have hnamed : Named crates pack [] := .inl (preparePack_valid hprepare)
    exact (keeps_io (Io.keeps_look _)).bind fun _ =>
      keeps_io (keeps_reserve_named (namedAt_indexPath hnamed))
  refine hreserve.bind_ok fun _ s s' hrun => ?_
  have hvalid := (reservePack_ok hrun).1
  have hfill : Io.KeepsDisk (Canonical crates)
      (fillPack writer packWriter randoms pack index opts) :=
    keeps_fillPack fromIndexes_canonical
  refine hfill.bind_ok fun output t t' hfilled => keeps_io (keeps_rename_any fun bytes => ?_)
  rw [fillPack_path hfilled]
  exact namedAt_indexPath (.inl hvalid)

theorem keeps_createPackForce_named :
    Io.KeepsDisk (Canonical crates) (createPackForce writer packWriter pack index opts) := by
  refine preparePack_keeps.bind_ok fun _ s s' hprepare => ?_
  have hvalid := preparePack_valid hprepare
  exact keeps_buildPack.bind fun content =>
    (keeps_io (keeps_publish_named (namedAt_packPath pack _))).bind fun _ =>
      (keeps_io Io.keeps_prepareAtomicWrite).bind fun _ =>
        keeps_io (keeps_publish_named (namedAt_indexPath (.inl hvalid)))

end Calls

end Canonical

end Elfshaker.Remote
