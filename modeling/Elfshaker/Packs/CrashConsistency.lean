import Elfshaker.Packs.SoundPack

namespace Elfshaker.Packs

open Elfshaker.Library Elfshaker.Format Elfshaker.Store

section Commands

variable {crates : Crates} {writer : RmpWriter} {packWriter : PackWriter}
  {ord : IterOrder FileHandle} {content : ObjectChecksum → List UInt8} {torn torn' : PackId → Prop}

theorem snapshotOf_grows (index : PackIndex) :
    Grows fun disk => SnapshotOf crates content index disk.dataDir := by
  intro disk disk' gains h
  refine ⟨h.writable, h.aligned, ?_⟩
  rw [gains.loose]
  exact h.records

theorem Grows.and {P Q : Disk → Prop} (hP : Grows P) (hQ : Grows Q) :
    Grows fun disk => P disk ∧ Q disk :=
  fun disk disk' gains h => ⟨hP disk disk' gains h.1, hQ disk disk' gains h.2⟩

theorem present_grows {path : String} (published : Published path) (bytes : List UInt8) :
    Grows fun disk => (path, bytes) ∈ disk.dataDir.packs.files :=
  fun _ _ gains h => gains.stays _ _ published h

theorem known_grows (P : Prop) : Grows fun _ => P := fun _ _ _ h => h

section Temporary

variable {P : Disk → Prop} (grows : Grows P) (path : String) (random : List UInt8)

include grows

theorem Grows.createTemp_named :
    Effect.Triple (fun s : Session Disk Fault => P s.state)
      (io (AtomicCreateFile.createTemp path random))
      (fun output s => P s.state ∧ output.path = path) fun s => P s.state := by
  have hkeeps := keeps_io (grows.keeps_createTemp path random)
  refine .intro (fun s s' output hs hrun => ⟨hkeeps.ok hs hrun, ?_⟩)
    fun s s' e hs hrun => hkeeps.error hs hrun
  rw [createTemp_ok (io_eq_ok.mp hrun)]

theorem Grows.createNew_named :
    Effect.Triple (fun s : Session Disk Fault => P s.state)
      (io (AtomicCreateFile.new path random))
      (fun output s => P s.state ∧ output.path = path) fun s => P s.state := by
  have hkeeps := keeps_io (grows.keeps_new path random)
  refine .intro (fun s s' output hs hrun => ⟨hkeeps.ok hs hrun, ?_⟩)
    fun s s' e hs hrun => hkeeps.error hs hrun
  rw [createNew_path (io_eq_ok.mp hrun)]

end Temporary

section Snapshot

variable {random : List UInt8} {snapshot : SnapshotId} {files : List InputFile}

theorem loose_snapshotPath (snapshot : SnapshotId) :
    (Text.stripPrefix loosePrefix (PackId.looseOf snapshot.tag).name).isSome = true := by
  rw [PackId.looseOf, Text.stripPrefix_append]
  rfl

theorem prepareSnapshot_keeps {P : Disk → Prop} (grows : Grows P) :
    Io.KeepsDisk P (prepareSnapshot crates snapshot) :=
  (keeps_io Io.keeps_passing).bind fun _ =>
    (keeps_io (grows.keeps_ensureDir _)).bind fun _ => .asks _

/-- The index that is about to be published, and all that it is about. -/
def ReadySnapshot (crates : Crates) (zstd : Zstd) (writer : RmpWriter)
    (content : ObjectChecksum → List UInt8) (torn : PackId → Prop) (snapshot : SnapshotId)
    (output : AtomicCreateFile) (disk : Disk) : Prop :=
  ∃ index, (Sound crates zstd content torn disk.dataDir ∧
      SnapshotOf crates content index disk.dataDir) ∧
    (output.temp, index.serialize writer) ∈ disk.dataDir.packs.files ∧
    output.path = snapshotPath snapshot

theorem fillSnapshot_ready (storable : Storable crates content snapshot files) :
    Effect.Triple
      (fun s : Session Disk Fault => Sound crates packWriter.zstd content torn s.state.dataDir)
      (fillSnapshot crates writer ord random snapshot files)
      (fun output s =>
        ReadySnapshot crates packWriter.zstd writer content torn snapshot output s.state)
      fun s => Sound crates packWriter.zstd content torn s.state.dataDir := by
  have hsound : Grows fun disk => Sound crates packWriter.zstd content torn disk.dataDir :=
    grows_sound
  apply Effect.Triple.bind_fact (hsound.createTemp_named (snapshotPath snapshot) random)
  intro output hpath
  apply Effect.Triple.bind (snapshotIndex_sound storable)
  intro index
  have hgrows : Grows fun disk => Sound crates packWriter.zstd content torn disk.dataDir ∧
      SnapshotOf crates content index disk.dataDir := hsound.and (snapshotOf_grows index)
  have hfill := (hgrows.fill_fills output (index.serialize writer)).mapError (f := Error.ioError)
  refine Effect.Triple.bind (hfill.weaken (fun _ hs => hs) (fun _ _ hs => hs) fun _ hs => hs.1)
    fun _ => .pure fun s hs => ⟨index, hs.1, hs.2, hpath⟩

/-- An index whose objects are there may take its place. -/
theorem SnapshotOf.put {index : PackIndex} {dd dd' : DataDir} (laws : writer.ReadBackBy crates.rmp)
    (sound : Sound crates packWriter.zstd content torn dd) (h : SnapshotOf crates content index dd)
    (puts : Puts dd (snapshotPath snapshot) (index.serialize writer) dd') :
    Sound crates packWriter.zstd content torn dd' := by
  refine Sound.putIndex sound puts ?_ fun _ h => .inl h
  have hafter : SnapshotOf crates content index dd' := by
    refine ⟨h.writable, h.aligned, ?_⟩
    rw [puts.loose]
    exact h.records
  exact hafter.described laws (loose_snapshotPath snapshot)

/-- The renaming of the index of a snapshot. -/
theorem renameSnapshot_sound (laws : writer.ReadBackBy crates.rmp) {index : PackIndex}
    {output : AtomicCreateFile} (hpath : output.path = snapshotPath snapshot) : Effect.Triple
      (fun s : Session Disk Fault => (Sound crates packWriter.zstd content torn s.state.dataDir ∧
        SnapshotOf crates content index s.state.dataDir) ∧
          (output.temp, index.serialize writer) ∈ s.state.dataDir.packs.files)
      (io (Io.onPacks (DirTree.rename output.temp output.path)))
      (fun _ s => Sound crates packWriter.zstd content torn s.state.dataDir)
      fun s => Sound crates packWriter.zstd content torn s.state.dataDir := by
  refine .intro (fun s s' _ hs hrun => ?_) fun s s' e hs hrun => ?_
  · obtain ⟨⟨hsound, hindex⟩, hfilled⟩ := hs
    obtain ⟨packs, hop, hstate⟩ := Io.onPacks_ok (io_eq_ok.mp hrun)
    have hputs := puts_rename hstate hop hfilled
    rw [hpath] at hputs
    exact hindex.put laws hsound hputs
  · obtain ⟨e', herror⟩ := io_error hrun
    rw [Io.onPacks_error herror]
    exact hs.1.1

theorem publishSnapshot_sound (laws : writer.ReadBackBy crates.rmp) {index : PackIndex} :
    Effect.Triple
      (fun s : Session Disk Fault => Sound crates packWriter.zstd content torn s.state.dataDir ∧
        SnapshotOf crates content index s.state.dataDir)
      (io (Io.onPacks (DirTree.publish (snapshotPath snapshot) (index.serialize writer))))
      (fun _ s => Sound crates packWriter.zstd content torn s.state.dataDir)
      fun s => Sound crates packWriter.zstd content torn s.state.dataDir := by
  refine .intro (fun s s' _ hs hrun => ?_) fun s s' e hs hrun => ?_
  · obtain ⟨packs, hop, hstate⟩ := Io.onPacks_ok (io_eq_ok.mp hrun)
    exact hs.2.put laws hs.1 (puts_publish hstate hop)
  · obtain ⟨e', herror⟩ := io_error hrun
    rw [Io.onPacks_error herror]
    exact hs.1

theorem writeSnapshot_keeps (laws : writer.ReadBackBy crates.rmp)
    (storable : Storable crates content snapshot files) :
    Io.KeepsDisk (fun disk => Sound crates packWriter.zstd content torn disk.dataDir)
      (writeSnapshot crates writer ord random snapshot files) := by
  apply Effect.Triple.bind (fillSnapshot_ready storable)
  intro output
  refine Effect.Triple.of_run fun s hs => ?_
  obtain ⟨index, hready, hfilled, hpath⟩ := hs
  exact (renameSnapshot_sound laws hpath).run ⟨hready, hfilled⟩

theorem createSnapshot_keeps (laws : writer.ReadBackBy crates.rmp)
    (storable : Storable crates content snapshot files) :
    Io.KeepsDisk (fun disk => Sound crates packWriter.zstd content torn disk.dataDir)
      (createSnapshot crates writer ord random snapshot files) := by
  have hreserve : Io.KeepsDisk
      (fun disk => Sound crates packWriter.zstd content torn disk.dataDir)
      (reserveSnapshot crates snapshot) :=
    (prepareSnapshot_keeps grows_sound).bind fun _ => keeps_io (grows_sound.keeps_reserve _)
  exact hreserve.bind fun _ => (writeSnapshot_keeps laws storable).bind fun _ =>
    grows_sound.keeps_updateHead snapshot

theorem createSnapshotForce_keeps (laws : writer.ReadBackBy crates.rmp)
    (storable : Storable crates content snapshot files) :
    Io.KeepsDisk (fun disk => Sound crates packWriter.zstd content torn disk.dataDir)
      (createSnapshotForce crates writer ord snapshot files) := by
  apply (prepareSnapshot_keeps grows_sound).bind
  intro _
  apply Effect.Triple.bind (snapshotIndex_sound storable)
  intro index
  have hprepare := keeps_io (Io.keeps_prepareAtomicWrite (P := fun disk =>
    Sound crates packWriter.zstd content torn disk.dataDir ∧
      SnapshotOf crates content index disk.dataDir))
  apply Effect.Triple.bind (hprepare.weaken (fun _ hs => hs) (fun _ _ hs => hs) fun _ hs => hs.1)
  intro _
  exact Effect.Triple.bind (publishSnapshot_sound laws) fun _ => grows_sound.keeps_updateHead snapshot

end Snapshot

section Pack

variable {randoms : List UInt8 × List UInt8} {pack : PackId} {index : PackIndex}
  {opts : PackOptions} {built : PackContent}

/-- What a pack is made from: a sound directory with the objects of the index. -/
def Supplied (crates : Crates) (zstd : Zstd) (content : ObjectChecksum → List UInt8)
    (torn : PackId → Prop) (index : PackIndex) (disk : Disk) : Prop :=
  Sound crates zstd content torn disk.dataDir ∧
    LooseObjects crates.sha1 (openLooseObject disk.dataDir) index content

theorem supplied_grows :
    Grows (Supplied crates packWriter.zstd content torn index) := by
  refine grows_sound.and fun disk disk' gains h => ?_
  have hopen : openLooseObject disk'.dataDir = openLooseObject disk.dataDir := by
    funext checksum
    rw [openLooseObject, openLooseObject, gains.loose]
  rwa [hopen]

/-- The index of a pack is not there, or it is empty. -/
def Hidden (pack : PackId) (disk : Disk) : Prop :=
  ∀ bytes, (pack.indexPath, bytes) ∈ disk.dataDir.packs.files → bytes = []

theorem hidden_grows (pack : PackId) : Grows (Hidden pack) := by
  intro disk disk' gains h bytes hfile
  exact (gains.fresh _ _ ⟨pack, .inl rfl⟩ hfile).elim id (h bytes)

theorem reserved_hidden {disk : Disk}
    (h : (pack.indexPath, []) ∈ disk.dataDir.packs.files) : Hidden pack disk :=
  fun _ hfile => DirTree.files_unique hfile h

theorem preparePack_keeps {P : Disk → Prop} : Io.KeepsDisk P (preparePack pack) :=
  (Effect.Keeps.lift _).bind fun _ => keeps_io Io.keeps_passing

theorem preparePack_regular {s s' : Session Disk Fault} (h : preparePack pack s = (.ok (), s')) :
    Text.stripPrefix loosePrefix pack.name = none := by
  have hregular := preparePack_valid h
  simp only [PackId.isValidRegular, Bool.and_eq_true, Option.isNone_iff_eq_none] at hregular
  exact hregular.1.2

/-- A pack that is built holds the objects of the index. -/
theorem buildPack_built {P : Disk → Prop} (aligned : index.Aligned) (writable : index.Writable)
    (supplied : ∀ disk, P disk →
      LooseObjects crates.sha1 (openLooseObject disk.dataDir) index content) :
    Effect.Triple (fun s : Session Disk Fault => P s.state) (buildPack packWriter index opts)
      (fun built s => P s.state ∧ PackOf crates packWriter content index built)
      fun s => P s.state := by
  have hpassing : Effect.Triple (fun s : Session Disk Fault => P s.state) (io Io.passing)
      (fun _ s => P s.state) fun s => P s.state := keeps_io Io.keeps_passing
  apply Effect.Triple.bind hpassing
  intro _
  have hlook := (Io.look_known (P := P) fun dd =>
    compressPack packWriter.zstd (openLooseObject dd) index opts).mapError (f := Error.ioError)
  have hcompressed : ∀ (built : PackContent) (s : Session Disk Fault),
      P s.state ∧ compressPack packWriter.zstd (openLooseObject s.state.dataDir) index opts =
        .ok built → P s.state ∧ PackOf crates packWriter content index built :=
    fun built s hs => ⟨hs.1, packOf_compressPack (supplied _ hs.1) aligned writable hs.2⟩
  apply Effect.Triple.bind_fact (hlook.weaken (fun _ hs => hs) hcompressed fun _ hs => hs)
  intro built hbuilt
  exact Effect.Triple.bind hpassing fun _ => Effect.Triple.bind hpassing fun _ =>
    .pure fun s hs => ⟨hs, hbuilt⟩

/-- A pack file that is there, and all its index is about. -/
def ReadyPack (crates : Crates) (packWriter : PackWriter) (content : ObjectChecksum → List UInt8)
    (torn : PackId → Prop) (pack : PackId) (index : PackIndex) (built : PackContent)
    (disk : Disk) : Prop :=
  Sound crates packWriter.zstd content torn disk.dataDir ∧
    PackOf crates packWriter content index built ∧
    (pack.packPath, built.file packWriter) ∈ disk.dataDir.packs.files

theorem readyPack_grows : Grows (ReadyPack crates packWriter content torn pack index built) :=
  grows_sound.and ((known_grows _).and (present_grows ⟨pack, .inr rfl⟩ _))

/-- When the pack is there its index may be published. -/
theorem ReadyPack.putIndex {disk disk' : Disk} (laws : writer.ReadBackBy crates.rmp)
    (hzstd : packWriter.zstd.Inverts)
    (regular : Text.stripPrefix loosePrefix pack.name = none)
    (h : ReadyPack crates packWriter content torn pack index built disk)
    (puts : Puts disk.dataDir pack.indexPath (built.index.serialize writer) disk'.dataDir)
    (mended : ∀ other, torn other → torn' other ∨ other = pack) :
    Sound crates packWriter.zstd content torn' disk'.dataDir := by
  obtain ⟨hsound, hbuilt, hfile⟩ := h
  refine hsound.putIndex puts (hbuilt.described laws hzstd regular ?_) mended
  refine (puts.files _ _ ⟨pack, .inr rfl⟩).mpr ?_
  rwa [if_neg (indexPath_ne_packPath pack pack).symm]

section Create

/-- What a reservation leads to: the index is empty from now on. -/
def Reserving (crates : Crates) (zstd : Zstd) (content : ObjectChecksum → List UInt8)
    (torn : PackId → Prop) (pack : PackId) (index : PackIndex) (disk : Disk) : Prop :=
  Supplied crates zstd content torn index disk ∧
    (pack.indexPath, []) ∈ disk.dataDir.packs.files

theorem reserving_grows : Grows (Reserving crates packWriter.zstd content torn pack index) :=
  supplied_grows.and (present_grows ⟨pack, .inl rfl⟩ [])

theorem reservePack_reserving :
    Effect.Triple
      (fun s : Session Disk Fault => Supplied crates packWriter.zstd content torn index s.state)
      (reservePack pack)
      (fun _ s => Reserving crates packWriter.zstd content torn pack index s.state ∧
        Text.stripPrefix loosePrefix pack.name = none)
      fun s => Supplied crates packWriter.zstd content torn index s.state := by
  have hkeeps : Io.KeepsDisk (Supplied crates packWriter.zstd content torn index)
      (reservePack pack) :=
    preparePack_keeps.bind fun _ => (keeps_io (Io.keeps_look _)).bind fun _ =>
      keeps_io (supplied_grows.keeps_reserve _)
  refine .intro (fun s s' _ hs hrun => ?_) fun s s' e hs hrun => hkeeps.error hs hrun
  have hempty := (reservePack_ok hrun).2.holds.mem (isIndexPath_indexPath pack)
  obtain ⟨_, t, hprepare, -⟩ := Effect.bind_eq_ok.mp hrun
  exact ⟨⟨hkeeps.ok hs hrun, hempty⟩, preparePack_regular hprepare⟩

/-- The pack takes its place while its index is reserved. -/
theorem commitContent_ready (hbuilt : PackOf crates packWriter content index built)
    {output : AtomicCreateFile} (hpath : output.path = pack.packPath) :
    Effect.Triple
      (fun s : Session Disk Fault =>
        Reserving crates packWriter.zstd content torn pack index s.state)
      (output.commitContent (built.file packWriter))
      (fun _ s => ReadyPack crates packWriter content torn pack index built s.state)
      fun s => Sound crates packWriter.zstd content torn s.state.dataDir := by
  refine Effect.Triple.bind ((reserving_grows.fill_fills output _).weaken (fun _ hs => hs)
    (fun _ _ hs => hs) fun _ hs => hs.1.1) fun _ => ?_
  refine .intro (fun s s' _ hs hrun => ?_) fun s s' e hs hrun => ?_
  · obtain ⟨⟨⟨hsound, -⟩, hempty⟩, hfilled⟩ := hs
    obtain ⟨packs, hop, hstate⟩ := Io.onPacks_ok hrun
    have hputs := puts_rename hstate hop hfilled
    rw [hpath] at hputs
    refine ⟨hsound.putPack hputs (fun _ h => h) (.inr (reserved_hidden hempty)), hbuilt, ?_⟩
    exact (hputs.files _ _ ⟨pack, .inr rfl⟩).mpr (by rw [if_pos rfl])
  · rw [Io.onPacks_error hrun]
    exact hs.1.1.1

/-- The index that is about to be published, and the pack it is about. -/
def ReadyIndex (crates : Crates) (packWriter : PackWriter) (writer : RmpWriter)
    (content : ObjectChecksum → List UInt8) (torn : PackId → Prop) (pack : PackId)
    (index : PackIndex) (output : AtomicCreateFile) (disk : Disk) : Prop :=
  ∃ built, ReadyPack crates packWriter content torn pack index built disk ∧
    (output.temp, built.index.serialize writer) ∈ disk.dataDir.packs.files ∧
    output.path = pack.indexPath

theorem fillPack_ready (aligned : index.Aligned) (writable : index.Writable) :
    Effect.Triple
      (fun s : Session Disk Fault =>
        Reserving crates packWriter.zstd content torn pack index s.state)
      (fillPack writer packWriter randoms pack index opts)
      (fun output s => ReadyIndex crates packWriter writer content torn pack index output s.state)
      fun s => Sound crates packWriter.zstd content torn s.state.dataDir := by
  have hgrows : Grows (Reserving crates packWriter.zstd content torn pack index) :=
    reserving_grows
  have toSound : ∀ s : Session Disk Fault,
      Reserving crates packWriter.zstd content torn pack index s.state →
        Sound crates packWriter.zstd content torn s.state.dataDir := fun _ hs => hs.1.1
  apply Effect.Triple.bind_fact ((hgrows.createTemp_named pack.indexPath randoms.1).weaken
    (fun _ hs => hs) (fun _ _ hs => hs) toSound)
  intro output hpath
  apply Effect.Triple.bind_fact ((buildPack_built aligned writable fun _ h => h.1.2).weaken
    (fun _ hs => hs) (fun _ _ hs => hs) toSound)
  intro built hbuilt
  apply Effect.Triple.bind_fact ((hgrows.createNew_named pack.packPath randoms.2).weaken
    (fun _ hs => hs) (fun _ _ hs => hs) toSound)
  intro packOutput hpackPath
  have hready : Grows (ReadyPack crates packWriter content torn pack index built) :=
    readyPack_grows
  apply Effect.Triple.bind (commitContent_ready hbuilt hpackPath).mapError
  intro _
  have hpassing := keeps_io (Io.keeps_passing
    (P := ReadyPack crates packWriter content torn pack index built))
  apply Effect.Triple.bind (hpassing.weaken (fun _ hs => hs) (fun _ _ hs => hs) fun _ hs => hs.1)
  intro _
  have hfill := (hready.fill_fills output (built.index.serialize writer)).mapError
    (f := Error.ioError)
  refine Effect.Triple.bind (hfill.weaken (fun _ hs => hs) (fun _ _ hs => hs) fun _ hs => hs.1)
    fun _ => .pure fun s hs => ⟨built, hs.1, hs.2, hpath⟩

theorem createPack_keeps (laws : writer.ReadBackBy crates.rmp) (hzstd : packWriter.zstd.Inverts)
    (aligned : index.Aligned) (writable : index.Writable) :
    Effect.Triple
      (fun s : Session Disk Fault => Supplied crates packWriter.zstd content torn index s.state)
      (createPack writer packWriter randoms pack index opts)
      (fun _ s => Sound crates packWriter.zstd content torn s.state.dataDir)
      fun s => Sound crates packWriter.zstd content torn s.state.dataDir := by
  apply Effect.Triple.bind_fact (reservePack_reserving.weaken (fun _ hs => hs)
    (fun _ _ hs => hs) fun _ hs => hs.1)
  intro _ hregular
  apply Effect.Triple.bind (fillPack_ready aligned writable)
  intro output
  refine .intro (fun s s' _ hs hrun => ?_) fun s s' e hs hrun => ?_
  · obtain ⟨built, hready, hfilled, hpath⟩ := hs
    obtain ⟨packs, hop, hstate⟩ := Io.onPacks_ok (io_eq_ok.mp hrun)
    have hputs := puts_rename hstate hop hfilled
    rw [hpath] at hputs
    exact hready.putIndex laws hzstd hregular hputs fun _ h => .inl h
  · obtain ⟨e', herror⟩ := io_error hrun
    rw [Io.onPacks_error herror]
    obtain ⟨built, hready, -⟩ := hs
    exact hready.1

end Create

section Replace

/-- A forced replacement up to its first renaming. -/
def replacePack (packWriter : PackWriter) (pack : PackId) (index : PackIndex)
    (opts : PackOptions) : Call PackContent := do
  preparePack pack
  let content ← buildPack packWriter index opts
  io (Io.onPacks (DirTree.publish pack.packPath (content.file packWriter)))
  pure content

/-- The rest of a forced replacement. -/
def replaceIndex (writer : RmpWriter) (pack : PackId) (content : PackContent) : Call Unit := do
  io Io.prepareAtomicWrite
  io (Io.onPacks (DirTree.publish pack.indexPath (content.index.serialize writer)))

theorem createPackForce_eq : createPackForce writer packWriter pack index opts =
    replacePack packWriter pack index opts >>= replaceIndex writer pack := by
  rw [createPackForce, replacePack, Effect.bind_assoc]
  congr 1
  funext _
  rw [Effect.bind_assoc]
  congr 1
  funext content
  rw [Effect.bind_assoc]
  rfl

/-- Where the index is there, the pack is not that of the index between the renamings. -/
theorem replacePack_ready (aligned : index.Aligned) (writable : index.Writable)
    (wider : ∀ other, torn other → torn' other) {P : Disk → Prop}
    (supplied : ∀ disk, P disk → Supplied crates packWriter.zstd content torn index disk ∧
      (torn' pack ∨ Hidden pack disk)) :
    Effect.Triple (fun s : Session Disk Fault => P s.state)
      (replacePack packWriter pack index opts)
      (fun built s => ReadyPack crates packWriter content torn' pack index built s.state)
      fun s => P s.state := by
  apply Effect.Triple.bind (preparePack_keeps (P := P))
  intro _
  apply Effect.Triple.bind_fact (buildPack_built aligned writable fun _ h => (supplied _ h).1.2)
  intro built hbuilt
  refine Effect.Triple.bind ?_ fun _ => .pure fun s hs => hs
  refine .intro (fun s s' _ hs hrun => ?_) fun s s' e hs hrun => ?_
  · obtain ⟨⟨hsound, -⟩, hhidden⟩ := supplied _ hs
    obtain ⟨packs, hop, hstate⟩ := Io.onPacks_ok (io_eq_ok.mp hrun)
    have hputs := puts_publish hstate hop
    refine ⟨hsound.putPack hputs wider hhidden, hbuilt, ?_⟩
    exact (hputs.files _ _ ⟨pack, .inr rfl⟩).mpr (by rw [if_pos rfl])
  · obtain ⟨e', herror⟩ := io_error hrun
    rw [Io.onPacks_error herror]
    exact hs

/-- The second renaming mends what the first one has torn. -/
theorem replaceIndex_mends (laws : writer.ReadBackBy crates.rmp) (hzstd : packWriter.zstd.Inverts)
    (regular : Text.stripPrefix loosePrefix pack.name = none)
    (mended : ∀ other, torn' other → torn other ∨ other = pack) :
    Effect.Triple
      (fun s : Session Disk Fault =>
        ReadyPack crates packWriter content torn' pack index built s.state)
      (replaceIndex writer pack built)
      (fun _ s => Sound crates packWriter.zstd content torn s.state.dataDir)
      fun s => Sound crates packWriter.zstd content torn' s.state.dataDir := by
  have hprepare := keeps_io (Io.keeps_prepareAtomicWrite
    (P := ReadyPack crates packWriter content torn' pack index built))
  apply Effect.Triple.bind (hprepare.weaken (fun _ hs => hs) (fun _ _ hs => hs) fun _ hs => hs.1)
  intro _
  refine .intro (fun s s' _ hs hrun => ?_) fun s s' e hs hrun => ?_
  · obtain ⟨packs, hop, hstate⟩ := Io.onPacks_ok (io_eq_ok.mp hrun)
    exact hs.putIndex laws hzstd regular (puts_publish hstate hop) mended
  · obtain ⟨e', herror⟩ := io_error hrun
    rw [Io.onPacks_error herror]
    exact hs.1

end Replace

end Pack

end Commands

/-- A run of one of the calls that publish indexes. -/
inductive Command where
  | createSnapshot (random : List UInt8) (snapshot : SnapshotId) (files : List InputFile)
  | createSnapshotForce (snapshot : SnapshotId) (files : List InputFile)
  | createPack (randoms : List UInt8 × List UInt8) (pack : PackId) (index : PackIndex)
      (opts : PackOptions)
  | createPackForce (pack : PackId) (index : PackIndex) (opts : PackOptions)

namespace Command

section Run

variable (crates : Crates) (writer : RmpWriter) (packWriter : PackWriter)
  (content : ObjectChecksum → List UInt8)

def call (ord : IterOrder FileHandle) : Command → Call Unit
  | .createSnapshot random snapshot files =>
    Store.createSnapshot crates writer ord random snapshot files
  | .createSnapshotForce snapshot files =>
    Store.createSnapshotForce crates writer ord snapshot files
  | .createPack randoms pack index opts =>
    Packs.createPack writer packWriter randoms pack index opts
  | .createPackForce pack index opts => Packs.createPackForce writer packWriter pack index opts

/-- What a call is given is what it is called with: files that can be stored, and an
index that was made out of loose ones. -/
def Fit (dd : DataDir) : Command → Prop
  | .createSnapshot _ snapshot files => Storable crates content snapshot files
  | .createSnapshotForce snapshot files => Storable crates content snapshot files
  | .createPack _ _ index _ => Gathered crates dd index
  | .createPackForce _ index _ => Gathered crates dd index

/-- A forced replacement of a pack whose index is there stops between its renamings. -/
def Tears (s : Session Disk Fault) : Command → PackId → Prop
  | .createPackForce pack index opts, id => id = pack ∧ ¬ Hidden pack s.state ∧
    ∃ built t e t', replacePack packWriter pack index opts s = (.ok built, t) ∧
      replaceIndex writer pack built t = (.error e, t')
  | .createSnapshot _ _ _, _ => False
  | .createSnapshotForce _ _, _ => False
  | .createPack _ _ _ _, _ => False

/-- The disks that runs lead to, each with its own failures, and the packs that they
have torn. A run that is stopped is one whose further steps all fail. -/
inductive Runs (start : Disk) : (PackId → Prop) → Disk → Prop where
  | start : Runs start (fun _ => False) start
  | run {torn : PackId → Prop} {disk : Disk} (before : Runs start torn disk)
      (ord : IterOrder FileHandle) (command : Command) (faults : List (Option Fault))
      (fit : command.Fit crates content disk.dataDir) :
      Runs start (fun id => torn id ∨ command.Tears writer packWriter ⟨disk, faults⟩ id)
        (command.call crates writer packWriter ord ⟨disk, faults⟩).2.state

end Run

section Step

variable {crates : Crates} {writer : RmpWriter} {packWriter : PackWriter}
  {content : ObjectChecksum → List UInt8} {ord : IterOrder FileHandle} {torn : PackId → Prop}
  {s : Session Disk Fault}

theorem tears_regular {command : Command} {id : PackId}
    (h : command.Tears writer packWriter s id) : Text.stripPrefix loosePrefix id.name = none := by
  cases command with
  | createPackForce pack index opts =>
    obtain ⟨rfl, -, built, t, e, t', hreplace, -⟩ := h
    obtain ⟨_, _, hprepare, -⟩ := Effect.bind_eq_ok.mp hreplace
    exact preparePack_regular hprepare
  | createSnapshot random snapshot files => exact h.elim
  | createSnapshotForce snapshot files => exact h.elim
  | createPack randoms pack index opts => exact h.elim

theorem gathered_aligned {dd : DataDir} {index : PackIndex} (h : Gathered crates dd index) :
    index.Aligned := by
  obtain ⟨pushes, hpushes, -⟩ := h.pushes
  exact pushAll_aligned PackIndex.aligned_new hpushes

/-- A forced replacement tears at most its own pack, and only where it stops between
the renamings over an index that is there. -/
theorem createPackForce_sound {pack : PackId} {index : PackIndex} {opts : PackOptions}
    (laws : writer.ReadBackBy crates.rmp) (hzstd : packWriter.zstd.Inverts)
    (aligned : index.Aligned) (writable : index.Writable)
    (supplied : Supplied crates packWriter.zstd content torn index s.state) :
    Sound crates packWriter.zstd content
      (fun id => torn id ∨ (Command.createPackForce pack index opts).Tears writer packWriter s id)
      (Packs.createPackForce writer packWriter pack index opts s).2.state.dataDir := by
  rw [createPackForce_eq]
  -- nothing is torn where there is no index, or else the pack is
  let torn' : PackId → Prop := fun id => torn id ∨ id = pack ∧ ¬ Hidden pack s.state
  let Starting : Disk → Prop := fun disk =>
    Supplied crates packWriter.zstd content torn index disk ∧ (torn' pack ∨ Hidden pack disk)
  have hreplace : Effect.Triple (fun s => Starting s.state)
      (replacePack packWriter pack index opts)
      (fun built s => ReadyPack crates packWriter content torn' pack index built s.state)
      fun s => Starting s.state :=
    replacePack_ready aligned writable (fun _ h => .inl h) fun _ h => h
  have hstart : torn' pack ∨ Hidden pack s.state := by
    by_cases hhidden : Hidden pack s.state
    · exact .inr hhidden
    · exact .inl (.inr ⟨rfl, hhidden⟩)
  cases hrun : replacePack packWriter pack index opts s with
  | mk result t =>
    cases result with
    | error e =>
      rw [Effect.bind_of_error hrun]
      exact (hreplace.error ⟨supplied, hstart⟩ hrun).1.1.wider fun _ h => .inl h
    | ok built =>
      rw [Effect.bind_of_ok hrun]
      obtain ⟨_, _, hprepare, -⟩ := Effect.bind_eq_ok.mp hrun
      have hready := hreplace.ok ⟨supplied, hstart⟩ hrun
      have hindex : Effect.Triple
          (fun s => ReadyPack crates packWriter content torn' pack index built s.state)
          (replaceIndex writer pack built)
          (fun _ s => Sound crates packWriter.zstd content torn s.state.dataDir)
          fun s => Sound crates packWriter.zstd content torn' s.state.dataDir :=
        replaceIndex_mends laws hzstd (preparePack_regular hprepare) fun other h =>
          h.imp_right And.left
      cases hrest : replaceIndex writer pack built t with
      | mk result t' =>
        cases result with
        | ok u => exact (hindex.ok hready hrest).wider fun _ h => .inl h
        | error e =>
          refine (hindex.error hready hrest).wider fun id h => h.imp_right fun htorn => ?_
          exact ⟨htorn.1, htorn.2, built, t, e, t', hrun, hrest⟩

/-- What one run does to a sound directory. -/
theorem call_sound (laws : writer.ReadBackBy crates.rmp) (hzstd : packWriter.zstd.Inverts)
    (empty : content .zero = [])
    (regular : ∀ id, torn id → Text.stripPrefix loosePrefix id.name = none) {command : Command}
    (fit : command.Fit crates content s.state.dataDir)
    (sound : Sound crates packWriter.zstd content torn s.state.dataDir) :
    Sound crates packWriter.zstd content
      (fun id => torn id ∨ command.Tears writer packWriter s id)
      (command.call crates writer packWriter ord s).2.state.dataDir := by
  cases command with
  | createSnapshot random snapshot files =>
    exact ((createSnapshot_keeps laws fit).state sound).wider fun _ h => .inl h
  | createSnapshotForce snapshot files =>
    exact ((createSnapshotForce_keeps laws fit).state sound).wider fun _ h => .inl h
  | createPack randoms pack index opts =>
    have hsupplied : Supplied crates packWriter.zstd content torn index s.state :=
      ⟨sound, Gathered.looseObjects fit sound regular empty⟩
    have hcreate : Effect.Triple
        (fun s => Supplied crates packWriter.zstd content torn index s.state)
        (Packs.createPack writer packWriter randoms pack index opts)
        (fun _ s => Sound crates packWriter.zstd content torn s.state.dataDir)
        fun s => Sound crates packWriter.zstd content torn s.state.dataDir :=
      createPack_keeps laws hzstd (gathered_aligned fit) (Gathered.writable fit)
    suffices hsound : Sound crates packWriter.zstd content torn
        ((Command.createPack randoms pack index opts).call crates writer packWriter ord
          s).2.state.dataDir from hsound.wider fun _ h => .inl h
    cases hrun : Packs.createPack writer packWriter randoms pack index opts s with
    | mk result t =>
      have hcall : ((Command.createPack randoms pack index opts).call crates writer packWriter
          ord s).2 = t := by
        rw [call, hrun]
      rw [hcall]
      cases result with
      | ok u => exact hcreate.ok hsupplied hrun
      | error e => exact hcreate.error hsupplied hrun
  | createPackForce pack index opts =>
    exact createPackForce_sound laws hzstd (gathered_aligned fit) (Gathered.writable fit)
      ⟨sound, Gathered.looseObjects fit sound regular empty⟩

end Step

end Command

namespace CrashSample

theorem digest_length (bytes : List UInt8) :
    (bytes.headD 1 :: List.replicate 19 1).length = 20 := by
  rw [List.length_cons, List.length_replicate]

def digest (bytes : List UInt8) : ObjectChecksum :=
  ⟨bytes.headD 1 :: List.replicate 19 1, digest_length bytes⟩

def crates : Crates := ⟨messagePack, digest, CreationSample.crates.unicode⟩

def packWriter : PackWriter := ⟨fun _ => [], PackSample.zstd⟩

def content (checksum : ObjectChecksum) : List UInt8 :=
  if checksum = digest [7] then [7] else []

def empty : Disk := ⟨⟨∅, ∅, none⟩, 0⟩

/-- What a run leaves of a disk. -/
def after (command : Command) (disk : Disk) (faults : List (Option Fault)) : Disk :=
  (command.call crates messagePackWriter packWriter .insertion ⟨disk, faults⟩).2.state

def pack : PackId := ⟨"p"⟩

def opts : PackOptions := ⟨3, 20, 1, 1⟩

def entry : FileEntry := ⟨.x, digest [7], ⟨looseObjectOffset, 1⟩, .regular 420⟩

/-- The index that pushes make. -/
def made (pushes : List Push) : PackIndex :=
  match pushAll .new pushes with
  | .ok index => index
  | .error _ => .new

def old : List Push := [⟨.insertion, "a", [entry]⟩]

def next : List Push := [⟨.insertion, "b", []⟩]

def createSnapshot (source : Source) : Command :=
  .createSnapshot [1] CreationSample.snapshot [⟨.x, source⟩]

def stored : Disk := after (createSnapshot (.regular [7] 420)) empty []

def packed : Disk := after (.createPack ([1], [2]) pack (made old) opts) stored []

/-- An empty file that may not be read is in the index. -/
def denied : Disk := after (createSnapshot (.denied 0 420)) empty []

theorem sound_empty : Sound crates packWriter.zstd content (fun _ => False) empty.dataDir :=
  ⟨nofun, nofun⟩

theorem fit_createSnapshot {source : Source} (dd : DataDir)
    (h : ∀ bytes, bodyOf source = some bytes → bytes = [7]) :
    (createSnapshot source).Fit crates content dd := by
  refine ⟨?_, (by decide : 1 < handleCount), ?_, by decide⟩
  · intro file hfile bytes hbody
    obtain rfl := List.mem_singleton.mp hfile
    obtain rfl := h bytes hbody
    exact ⟨by decide, by decide, by decide⟩
  · intro file hfile
    obtain rfl := List.mem_singleton.mp hfile
    exact (by decide : PackPath.x.bytes.length < handleCount)

theorem fit_old : Gathered crates stored.dataDir (made old) := by
  refine ⟨⟨old, rfl, ?_⟩, ⟨⟨by decide, by decide⟩, ?_, ?_, ?_, ?_, ?_, ?_, ?_⟩⟩
  · intro push hpush e he
    obtain rfl := List.mem_singleton.mp hpush
    obtain rfl := List.mem_singleton.mp he
    refine ⟨⟨"loose/a"⟩, _, ⟨0, 0, .regular 420⟩, ?_, rfl, ?_⟩
    all_goals rfl
  all_goals decide

theorem runs_createSnapshot {source : Source}
    (h : ∀ bytes, bodyOf source = some bytes → bytes = [7]) :
    ∃ torn, Command.Runs crates messagePackWriter packWriter content empty torn
      (after (createSnapshot source) empty []) ∧ ∀ id, ¬ torn id := by
  refine ⟨_, .run .start .insertion (createSnapshot source) [] ?_, fun _ htorn => htorn.elim id id⟩
  exact fit_createSnapshot empty.dataDir h

theorem runs_stored : ∃ torn,
    Command.Runs crates messagePackWriter packWriter content empty torn stored ∧
      ∀ id, ¬ torn id :=
  runs_createSnapshot fun _ h => (Option.some.inj h).symm

theorem runs_packed : ∃ torn,
    Command.Runs crates messagePackWriter packWriter content empty torn packed := by
  obtain ⟨torn, hstored, -⟩ := runs_stored
  exact ⟨_, .run hstored .insertion (.createPack ([1], [2]) pack (made old) opts) [] fit_old⟩

end CrashSample

end Elfshaker.Packs
