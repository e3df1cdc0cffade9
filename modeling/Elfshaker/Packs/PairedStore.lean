import Elfshaker.Packs.CrashConsistency
import Elfshaker.Packs.Layout

namespace Elfshaker.Packs

open Elfshaker.Library Elfshaker.Format Elfshaker.Store

/-- A pack that holds the objects of an index, in frames of the sizes that it records. -/
structure MadePack (crates : Crates) (packWriter : PackWriter)
    (content : ObjectChecksum → List UInt8) (index : PackIndex) (pack : PackContent) : Prop extends
    PackOf crates packWriter content index pack where
  recorded : Recorded pack.header pack.frames

section Paired

variable (crates : Crates) (writer : RmpWriter) (packWriter : PackWriter)
  (content : ObjectChecksum → List UInt8)

/-- The bytes are those of the index that was saved with the pack beside it. -/
def PairedWith (dd : DataDir) (id : PackId) (bytes : List UInt8) : Prop :=
  ∃ index built, MadePack crates packWriter content index built ∧
    bytes = built.index.serialize writer ∧ (id.packPath, built.file packWriter) ∈ dd.packs.files

/-- Every visible index of a pack is beside its pack, but for those that are torn. -/
def Paired (torn : PackId → Prop) (dd : DataDir) : Prop :=
  ∀ id bytes, Text.stripPrefix loosePrefix id.name = none → (id.indexPath, bytes) ∈ dd.packs.files →
    bytes ≠ [] → ¬ torn id → PairedWith crates writer packWriter content dd id bytes

variable {crates writer packWriter content} {torn torn' : PackId → Prop} {dd dd' : DataDir}
  {id : PackId} {bytes : List UInt8}

theorem PairedWith.mono (h : PairedWith crates writer packWriter content dd id bytes)
    (packs : ∀ bytes, (id.packPath, bytes) ∈ dd.packs.files → (id.packPath, bytes) ∈ dd'.packs.files) :
    PairedWith crates writer packWriter content dd' id bytes := by
  obtain ⟨index, built, hbuilt, hbytes, hfile⟩ := h
  exact ⟨index, built, hbuilt, hbytes, packs _ hfile⟩

theorem grows_paired : Grows fun disk => Paired crates writer packWriter content torn disk.dataDir := by
  intro disk disk' gains h id bytes hregular hfile hbytes htorn
  have hold := (gains.fresh _ _ ⟨id, .inl rfl⟩ hfile).resolve_left hbytes
  exact (h id bytes hregular hold hbytes htorn).mono fun b hb => gains.stays _ b ⟨id, .inr rfl⟩ hb

theorem fromFiles_paired :
    FromFiles fun disk => Paired crates writer packWriter content torn disk.dataDir := by
  intro disk disk' same h id bytes hregular hfile hbytes htorn
  exact (h id bytes hregular ((same _).mp hfile) hbytes htorn).mono fun b hb => (same _).mpr hb

theorem Paired.wider (h : Paired crates writer packWriter content torn dd)
    (wider : ∀ other, torn other → torn' other) : Paired crates writer packWriter content torn' dd :=
  fun id bytes hregular hfile hbytes htorn =>
    h id bytes hregular hfile hbytes fun htorn' => htorn (wider id htorn')

/-- The index of a loose snapshot is beside no pack. -/
theorem Paired.putLoose (h : Paired crates writer packWriter content torn dd)
    (hloose : (Text.stripPrefix loosePrefix id.name).isSome = true)
    (puts : Puts dd id.indexPath bytes dd') : Paired crates writer packWriter content torn dd' := by
  intro other b hregular hfile hb htorn
  have hne : other ≠ id := by
    rintro rfl
    rw [hregular] at hloose
    cases hloose
  rw [puts.files _ _ ⟨other, .inl rfl⟩, if_neg fun heq => hne (PackId.indexPath_injective heq)] at hfile
  refine (h other b hregular hfile hb htorn).mono fun b' hb' => ?_
  rwa [puts.files _ _ ⟨other, .inr rfl⟩, if_neg (indexPath_ne_packPath id other).symm]

theorem Paired.putPack (h : Paired crates writer packWriter content torn dd)
    (puts : Puts dd id.packPath bytes dd') (wider : ∀ other, torn other → torn' other)
    (hidden : torn' id ∨ ∀ b, (id.indexPath, b) ∈ dd.packs.files → b = []) :
    Paired crates writer packWriter content torn' dd' := by
  intro other b hregular hfile hb htorn
  rw [puts.files _ _ ⟨other, .inl rfl⟩, if_neg (indexPath_ne_packPath other id)] at hfile
  have hne : other ≠ id := by
    rintro rfl
    exact hidden.elim htorn fun hempty => hb (hempty b hfile)
  refine (h other b hregular hfile hb fun h => htorn (wider other h)).mono fun b' hb' => ?_
  rwa [puts.files _ _ ⟨other, .inr rfl⟩, if_neg fun heq => hne (packPath_injective heq)]

/-- An index that is put beside its pack is not torn then. -/
theorem Paired.putIndex (h : Paired crates writer packWriter content torn dd)
    (puts : Puts dd id.indexPath bytes dd')
    (beside : PairedWith crates writer packWriter content dd id bytes)
    (mended : ∀ other, torn other → torn' other ∨ other = id) :
    Paired crates writer packWriter content torn' dd' := by
  have hpack : ∀ other bytes', (PackId.packPath other, bytes') ∈ dd.packs.files →
      (PackId.packPath other, bytes') ∈ dd'.packs.files := by
    intro other bytes' hpack
    rwa [puts.files _ _ ⟨other, .inr rfl⟩, if_neg (indexPath_ne_packPath id other).symm]
  intro other b hregular hfile hb htorn
  rw [puts.files _ _ ⟨other, .inl rfl⟩] at hfile
  split_ifs at hfile with hpath
  · rw [PackId.indexPath_injective hpath, hfile]
    exact beside.mono (hpack id)
  · have hwhole : ¬ torn other := by
      intro htorn'
      rcases mended other htorn' with htorn' | rfl
      · exact htorn htorn'
      · exact hpath rfl
    exact (h other b hregular hfile hb hwhole).mono (hpack other)

end Paired

section Calls

variable {crates : Crates} {writer : RmpWriter} {packWriter : PackWriter}
  {content : ObjectChecksum → List UInt8} {ord : IterOrder FileHandle} {torn torn' : PackId → Prop}

section Snapshot

variable {random : List UInt8} {snapshot : SnapshotId} {files : List InputFile}

theorem keeps_renameLoose {output : AtomicCreateFile} (hpath : output.path = snapshotPath snapshot) :
    Io.KeepsDisk (fun disk => Paired crates writer packWriter content torn disk.dataDir)
      (Io.onPacks (DirTree.rename output.temp output.path)) := by
  refine Io.keeps_onPacks fun disk now packs hdisk hop => ?_
  obtain ⟨bytes, mtime, hsource, -⟩ := DirTree.rename_ok hop
  have hputs : Puts disk.dataDir output.path bytes { disk.dataDir with packs } :=
    puts_rename rfl hop (DirTree.mem_files.mpr ⟨mtime, hsource⟩)
  rw [hpath] at hputs
  exact hdisk.putLoose (loose_snapshotPath snapshot) hputs

theorem createSnapshot_paired :
    Io.KeepsDisk (fun disk => Paired crates writer packWriter content torn disk.dataDir)
      (createSnapshot crates writer ord random snapshot files) := by
  have hreserve : Io.KeepsDisk
      (fun disk => Paired crates writer packWriter content torn disk.dataDir)
      (reserveSnapshot crates snapshot) :=
    (prepareSnapshot_keeps grows_paired).bind fun _ => keeps_io (grows_paired.keeps_reserve _)
  have hfill (output : AtomicCreateFile) (index : PackIndex) : Io.KeepsDisk
      (fun disk => Paired crates writer packWriter content torn disk.dataDir)
      (io (output.fill (index.serialize writer))) :=
    keeps_io (grows_paired.keeps_fill output _)
  have hfills : Effect.Triple
      (fun s : Session Disk Fault => Paired crates writer packWriter content torn s.state.dataDir)
      (fillSnapshot crates writer ord random snapshot files)
      (fun output s => Paired crates writer packWriter content torn s.state.dataDir ∧
        output.path = snapshotPath snapshot)
      fun s => Paired crates writer packWriter content torn s.state.dataDir := by
    apply Effect.Triple.bind_fact (grows_paired.createTemp_named _ random)
    intro output hpath
    apply Effect.Triple.bind (keeps_snapshotIndex fromFiles_paired.fromPacks crates ord snapshot files)
    intro index
    exact Effect.Triple.bind (hfill output index) fun _ => .pure fun s hs => ⟨hs, hpath⟩
  refine hreserve.bind fun _ => Effect.Keeps.bind ?_ fun _ => grows_paired.keeps_updateHead snapshot
  apply Effect.Triple.bind_fact hfills
  exact fun output hpath => keeps_io (keeps_renameLoose hpath)

theorem createSnapshotForce_paired :
    Io.KeepsDisk (fun disk => Paired crates writer packWriter content torn disk.dataDir)
      (createSnapshotForce crates writer ord snapshot files) := by
  refine (prepareSnapshot_keeps grows_paired).bind fun _ => ?_
  apply Effect.Keeps.bind
    (keeps_snapshotIndex fromFiles_paired.fromPacks crates ord snapshot files)
  intro index
  have hpublish : Io.KeepsDisk
      (fun disk => Paired crates writer packWriter content torn disk.dataDir)
      (Io.onPacks (DirTree.publish (snapshotPath snapshot) (index.serialize writer))) :=
    Io.keeps_onPacks fun _ _ _ hdisk hop =>
      hdisk.putLoose (loose_snapshotPath snapshot) (puts_publish rfl hop)
  have hprepare : Io.KeepsDisk
      (fun disk => Paired crates writer packWriter content torn disk.dataDir)
      (io Io.prepareAtomicWrite) := keeps_io Io.keeps_prepareAtomicWrite
  exact hprepare.bind fun _ => (keeps_io hpublish).bind fun _ =>
    grows_paired.keeps_updateHead snapshot

end Snapshot

section Pack

variable {randoms : List UInt8 × List UInt8} {pack : PackId} {index : PackIndex}
  {opts : PackOptions} {built : PackContent}

/-- What a pack is made from, in a directory whose packs are beside their indexes. -/
def PairedSupply (crates : Crates) (writer : RmpWriter) (packWriter : PackWriter)
    (content : ObjectChecksum → List UInt8) (torn : PackId → Prop) (index : PackIndex)
    (disk : Disk) : Prop :=
  Paired crates writer packWriter content torn disk.dataDir ∧
    LooseObjects crates.sha1 (openLooseObject disk.dataDir) index content

theorem grows_supply : Grows (PairedSupply crates writer packWriter content torn index) := by
  refine grows_paired.and fun disk disk' gains h => ?_
  have hopen : openLooseObject disk'.dataDir = openLooseObject disk.dataDir := by
    funext checksum
    rw [openLooseObject, openLooseObject, gains.loose]
  rwa [hopen]

/-- The pack is in its place. -/
def PairedPack (crates : Crates) (writer : RmpWriter) (packWriter : PackWriter)
    (content : ObjectChecksum → List UInt8) (torn : PackId → Prop) (pack : PackId)
    (index : PackIndex) (built : PackContent) (disk : Disk) : Prop :=
  Paired crates writer packWriter content torn disk.dataDir ∧
    MadePack crates packWriter content index built ∧
    (pack.packPath, built.file packWriter) ∈ disk.dataDir.packs.files

theorem grows_pairedPack :
    Grows (PairedPack crates writer packWriter content torn pack index built) :=
  grows_paired.and ((known_grows _).and (present_grows ⟨pack, .inr rfl⟩ _))

theorem PairedPack.putIndex {disk disk' : Disk}
    (h : PairedPack crates writer packWriter content torn pack index built disk)
    (puts : Puts disk.dataDir pack.indexPath (built.index.serialize writer) disk'.dataDir)
    (mended : ∀ other, torn other → torn' other ∨ other = pack) :
    Paired crates writer packWriter content torn' disk'.dataDir :=
  h.1.putIndex puts ⟨index, built, h.2.1, rfl, h.2.2⟩ mended

/-- The index is reserved, and empty from now on. -/
def PairedReserve (crates : Crates) (writer : RmpWriter) (packWriter : PackWriter)
    (content : ObjectChecksum → List UInt8) (torn : PackId → Prop) (pack : PackId)
    (index : PackIndex) (disk : Disk) : Prop :=
  PairedSupply crates writer packWriter content torn index disk ∧
    (pack.indexPath, []) ∈ disk.dataDir.packs.files

theorem grows_reserve :
    Grows (PairedReserve crates writer packWriter content torn pack index) :=
  grows_supply.and (present_grows ⟨pack, .inl rfl⟩ [])

theorem reservePack_paired : Effect.Triple
    (fun s : Session Disk Fault => PairedSupply crates writer packWriter content torn index s.state)
    (reservePack pack)
    (fun _ s => PairedReserve crates writer packWriter content torn pack index s.state)
    fun s => PairedSupply crates writer packWriter content torn index s.state := by
  have hkeeps : Io.KeepsDisk (PairedSupply crates writer packWriter content torn index)
      (reservePack pack) :=
    preparePack_keeps.bind fun _ => (keeps_io (Io.keeps_look _)).bind fun _ =>
      keeps_io (grows_supply.keeps_reserve _)
  refine .intro (fun s s' _ hs hrun => ⟨hkeeps.ok hs hrun, ?_⟩)
    fun s s' e hs hrun => hkeeps.error hs hrun
  exact (reservePack_ok hrun).2.holds.mem (isIndexPath_indexPath pack)

/-- The pack takes its place while its index is empty. -/
theorem commitContent_paired (hbuilt : MadePack crates packWriter content index built)
    {output : AtomicCreateFile} (hpath : output.path = pack.packPath) : Effect.Triple
      (fun s : Session Disk Fault =>
        PairedReserve crates writer packWriter content torn pack index s.state)
      (output.commitContent (built.file packWriter))
      (fun _ s => PairedPack crates writer packWriter content torn pack index built s.state)
      fun s => Paired crates writer packWriter content torn s.state.dataDir := by
  apply Effect.Triple.bind ((grows_reserve.fill_fills output _).mono_error fun _ hs => hs.1.1)
  intro _
  refine .intro (fun s s' _ hs hrun => ?_) fun s s' e hs hrun => ?_
  · obtain ⟨⟨⟨hpaired, -⟩, hempty⟩, hfilled⟩ := hs
    obtain ⟨packs, hop, hstate⟩ := Io.onPacks_ok hrun
    have hputs := puts_rename hstate hop hfilled
    rw [hpath] at hputs
    refine ⟨hpaired.putPack hputs (fun _ h => h) (.inr (reserved_hidden hempty)), hbuilt, ?_⟩
    exact (hputs.files _ _ ⟨pack, .inr rfl⟩).mpr (by rw [if_pos rfl])
  · rw [Io.onPacks_error hrun]
    exact hs.1.1.1

theorem buildPack_made {P : Disk → Prop} (aligned : index.Aligned) (writable : index.Writable)
    (supplied : ∀ disk, P disk →
      LooseObjects crates.sha1 (openLooseObject disk.dataDir) index content) : Effect.Triple
      (fun s : Session Disk Fault => P s.state) (buildPack packWriter index opts)
      (fun built s => P s.state ∧ MadePack crates packWriter content index built)
      fun s => P s.state := by
  have hbuilt : Effect.Triple (fun s : Session Disk Fault => P s.state)
      (buildPack packWriter index opts)
      (fun built s => P s.state ∧ PackOf crates packWriter content index built)
      fun s => P s.state := buildPack_built aligned writable supplied
  refine .intro (fun s s' built hs hrun => ?_) fun s s' e hs hrun => hbuilt.error hs hrun
  obtain ⟨hP, hpackOf⟩ := hbuilt.ok hs hrun
  obtain ⟨_, t, -, hrun⟩ := Effect.bind_eq_ok.mp hrun
  obtain ⟨content', u, hlook, hrun⟩ := Effect.bind_eq_ok.mp hrun
  obtain ⟨_, _, -, hrun⟩ := Effect.bind_eq_ok.mp hrun
  obtain ⟨_, _, -, hrun⟩ := Effect.bind_eq_ok.mp hrun
  obtain ⟨rfl, -⟩ := Effect.pure_eq_ok.mp hrun
  exact ⟨hP, hpackOf, compressPack_recorded (Io.look_ok (io_eq_ok.mp hlook)).1⟩

theorem fillPack_paired (aligned : index.Aligned) (writable : index.Writable) : Effect.Triple
    (fun s : Session Disk Fault =>
      PairedReserve crates writer packWriter content torn pack index s.state)
    (fillPack writer packWriter randoms pack index opts)
    (fun output s => ∃ built,
      PairedPack crates writer packWriter content torn pack index built s.state ∧
      (output.temp, built.index.serialize writer) ∈ s.state.dataDir.packs.files ∧
      output.path = pack.indexPath)
    fun s => Paired crates writer packWriter content torn s.state.dataDir := by
  have hgrows : Grows (PairedReserve crates writer packWriter content torn pack index) :=
    grows_reserve
  apply Effect.Triple.bind_fact
    ((hgrows.createTemp_named pack.indexPath randoms.1).mono_error fun _ hs => hs.1.1)
  intro output hpath
  apply Effect.Triple.bind_fact
    ((buildPack_made aligned writable fun _ h => h.1.2).mono_error fun _ hs => hs.1.1)
  intro built hbuilt
  apply Effect.Triple.bind_fact
    ((hgrows.createNew_named pack.packPath randoms.2).mono_error fun _ hs => hs.1.1)
  intro packOutput hpackPath
  apply Effect.Triple.bind (commitContent_paired hbuilt hpackPath).mapError
  intro _
  have hpassing : Io.KeepsDisk (PairedPack crates writer packWriter content torn pack index built)
      (io Io.passing) := keeps_io Io.keeps_passing
  apply Effect.Triple.bind_keeps hpassing fun _ hs => hs.1
  intro _
  have hpack : Grows (PairedPack crates writer packWriter content torn pack index built) :=
    grows_pairedPack
  have hfill := (hpack.fill_fills output (built.index.serialize writer)).mapError
    (f := Error.ioError)
  apply Effect.Triple.bind (hfill.mono_error fun _ hs => hs.1)
  exact fun _ => .pure fun s hs => ⟨built, hs.1, hs.2, hpath⟩

theorem createPack_paired (aligned : index.Aligned) (writable : index.Writable) : Effect.Triple
    (fun s : Session Disk Fault => PairedSupply crates writer packWriter content torn index s.state)
    (createPack writer packWriter randoms pack index opts)
    (fun _ s => Paired crates writer packWriter content torn s.state.dataDir)
    fun s => Paired crates writer packWriter content torn s.state.dataDir := by
  apply Effect.Triple.bind (reservePack_paired.mono_error fun _ hs => hs.1)
  intro _
  apply Effect.Triple.bind (fillPack_paired aligned writable)
  intro output
  refine .intro (fun s s' _ hs hrun => ?_) fun s s' e hs hrun => ?_
  · obtain ⟨built, hready, hfilled, hpath⟩ := hs
    obtain ⟨packs, hop, hstate⟩ := Io.onPacks_ok (io_eq_ok.mp hrun)
    have hputs := puts_rename hstate hop hfilled
    rw [hpath] at hputs
    exact hready.putIndex hputs fun _ h => .inl h
  · obtain ⟨e', herror⟩ := io_error hrun
    rw [Io.onPacks_error herror]
    obtain ⟨built, hready, -⟩ := hs
    exact hready.1

/-- Where the index is there, the pack is not that of the index between the renamings. -/
theorem replacePack_paired (aligned : index.Aligned) (writable : index.Writable)
    (wider : ∀ other, torn other → torn' other) : Effect.Triple
      (fun s : Session Disk Fault => PairedSupply crates writer packWriter content torn index s.state ∧
        (torn' pack ∨ Hidden pack s.state))
      (replacePack packWriter pack index opts)
      (fun built s => PairedPack crates writer packWriter content torn' pack index built s.state)
      fun s => Paired crates writer packWriter content torn s.state.dataDir := by
  let Starting : Disk → Prop := fun disk =>
    PairedSupply crates writer packWriter content torn index disk ∧ (torn' pack ∨ Hidden pack disk)
  have hprepare : Io.KeepsDisk Starting (preparePack pack) := preparePack_keeps
  apply Effect.Triple.bind_keeps hprepare fun _ hs => hs.1.1
  intro _
  have hbuild : Effect.Triple (fun s : Session Disk Fault => Starting s.state)
      (buildPack packWriter index opts)
      (fun built s => Starting s.state ∧ MadePack crates packWriter content index built)
      fun s => Starting s.state := buildPack_made aligned writable fun _ h => h.1.2
  apply Effect.Triple.bind_fact (hbuild.mono_error fun _ hs => hs.1.1)
  intro built hbuilt
  refine Effect.Triple.bind ?_ fun _ => .pure fun s hs => hs
  refine .intro (fun s s' _ hs hrun => ?_) fun s s' e hs hrun => ?_
  · obtain ⟨⟨hpaired, -⟩, hhidden⟩ := hs
    obtain ⟨packs, hop, hstate⟩ := Io.onPacks_ok (io_eq_ok.mp hrun)
    have hputs := puts_publish hstate hop
    refine ⟨hpaired.putPack hputs wider hhidden, hbuilt, ?_⟩
    exact (hputs.files _ _ ⟨pack, .inr rfl⟩).mpr (by rw [if_pos rfl])
  · obtain ⟨e', herror⟩ := io_error hrun
    rw [Io.onPacks_error herror]
    exact hs.1.1

/-- The second renaming mends what the first one has torn. -/
theorem replaceIndex_paired (mended : ∀ other, torn' other → torn other ∨ other = pack) :
    Effect.Triple
      (fun s : Session Disk Fault =>
        PairedPack crates writer packWriter content torn' pack index built s.state)
      (replaceIndex writer pack built)
      (fun _ s => Paired crates writer packWriter content torn s.state.dataDir)
      fun s => Paired crates writer packWriter content torn' s.state.dataDir := by
  have hprepare : Io.KeepsDisk
      (PairedPack crates writer packWriter content torn' pack index built)
      (io Io.prepareAtomicWrite) := keeps_io Io.keeps_prepareAtomicWrite
  apply Effect.Triple.bind_keeps hprepare fun _ hs => hs.1
  intro _
  refine .intro (fun s s' _ hs hrun => ?_) fun s s' e hs hrun => ?_
  · obtain ⟨packs, hop, hstate⟩ := Io.onPacks_ok (io_eq_ok.mp hrun)
    exact hs.putIndex (puts_publish hstate hop) mended
  · obtain ⟨e', herror⟩ := io_error hrun
    rw [Io.onPacks_error herror]
    exact hs.1

end Pack

end Calls

namespace Command

variable {crates : Crates} {writer : RmpWriter} {packWriter : PackWriter}
  {content : ObjectChecksum → List UInt8} {ord : IterOrder FileHandle} {torn : PackId → Prop}
  {s : Session Disk Fault}

theorem createPackForce_paired {pack : PackId} {index : PackIndex} {opts : PackOptions}
    (aligned : index.Aligned) (writable : index.Writable)
    (supplied : PairedSupply crates writer packWriter content torn index s.state) :
    Paired crates writer packWriter content
      (fun id => torn id ∨ (Command.createPackForce pack index opts).Tears writer packWriter s id)
      (Packs.createPackForce writer packWriter pack index opts s).2.state.dataDir := by
  rw [createPackForce_eq]
  -- nothing is torn where there is no index, or else the pack is
  let torn' : PackId → Prop := fun id => torn id ∨ id = pack ∧ ¬ Hidden pack s.state
  have hreplace : Effect.Triple
      (fun s : Session Disk Fault => PairedSupply crates writer packWriter content torn index s.state ∧
        (torn' pack ∨ Hidden pack s.state))
      (replacePack packWriter pack index opts)
      (fun built s => PairedPack crates writer packWriter content torn' pack index built s.state)
      fun s => Paired crates writer packWriter content torn s.state.dataDir :=
    replacePack_paired aligned writable fun _ h => .inl h
  have hstart : torn' pack ∨ Hidden pack s.state := by
    by_cases hhidden : Hidden pack s.state
    · exact .inr hhidden
    · exact .inl (.inr ⟨rfl, hhidden⟩)
  cases hrun : replacePack packWriter pack index opts s with
  | mk result t =>
    cases result with
    | error e =>
      rw [Effect.bind_of_error hrun]
      exact (hreplace.error ⟨supplied, hstart⟩ hrun).wider fun _ h => .inl h
    | ok built =>
      rw [Effect.bind_of_ok hrun]
      have hready := hreplace.ok ⟨supplied, hstart⟩ hrun
      have hindex : Effect.Triple
          (fun s : Session Disk Fault =>
            PairedPack crates writer packWriter content torn' pack index built s.state)
          (replaceIndex writer pack built)
          (fun _ s => Paired crates writer packWriter content torn s.state.dataDir)
          fun s => Paired crates writer packWriter content torn' s.state.dataDir :=
        replaceIndex_paired fun other h => h.imp_right And.left
      cases hrest : replaceIndex writer pack built t with
      | mk result t' =>
        cases result with
        | ok u => exact (hindex.ok hready hrest).wider fun _ h => .inl h
        | error e =>
          refine (hindex.error hready hrest).wider fun id h => h.imp_right fun htorn => ?_
          exact ⟨htorn.1, htorn.2, built, t, e, t', hrun, hrest⟩

/-- What one run does to packs beside their indexes. -/
theorem call_paired (empty : content .zero = [])
    (regular : ∀ id, torn id → Text.stripPrefix loosePrefix id.name = none) {command : Command}
    (fit : command.Fit crates content s.state.dataDir)
    (sound : Sound crates packWriter.zstd content torn s.state.dataDir)
    (paired : Paired crates writer packWriter content torn s.state.dataDir) :
    Paired crates writer packWriter content
      (fun id => torn id ∨ command.Tears writer packWriter s id)
      (command.call crates writer packWriter ord s).2.state.dataDir := by
  cases command with
  | createSnapshot random snapshot files =>
    exact (createSnapshot_paired.state paired).wider fun _ h => .inl h
  | createSnapshotForce snapshot files =>
    exact (createSnapshotForce_paired.state paired).wider fun _ h => .inl h
  | createPack randoms pack index opts =>
    have hsupplied : PairedSupply crates writer packWriter content torn index s.state :=
      ⟨paired, Gathered.looseObjects fit sound regular empty⟩
    have hcreate : Effect.Triple
        (fun s : Session Disk Fault =>
          PairedSupply crates writer packWriter content torn index s.state)
        (Packs.createPack writer packWriter randoms pack index opts)
        (fun _ s => Paired crates writer packWriter content torn s.state.dataDir)
        fun s => Paired crates writer packWriter content torn s.state.dataDir :=
      createPack_paired (gathered_aligned fit) (Gathered.writable fit)
    refine Paired.wider ?_ fun _ h => .inl h
    change Paired crates writer packWriter content torn
      (Packs.createPack writer packWriter randoms pack index opts s).2.state.dataDir
    cases hrun : Packs.createPack writer packWriter randoms pack index opts s with
    | mk result t =>
      cases result with
      | ok u => exact hcreate.ok hsupplied hrun
      | error e => exact hcreate.error hsupplied hrun
  | createPackForce pack index opts =>
    exact createPackForce_paired (gathered_aligned fit) (Gathered.writable fit)
      ⟨paired, Gathered.looseObjects fit sound regular empty⟩

end Command

end Elfshaker.Packs
