import Elfshaker.Format.Records
import Elfshaker.Packs.Consistency

namespace Elfshaker.Packs

open Elfshaker.Library Elfshaker.Format Elfshaker.Store

/-- The bytes that are stored for an input file. -/
def bodyOf : Source → Option (List UInt8)
  | .symlink target _ => some (encodeTarget target).1
  | .regular content _ => some content
  | .denied _ _ => none
  | .failing _ => none

section Objects

variable (crates : Crates) (zstd : Zstd) (content : ObjectChecksum → List UInt8)
  (torn : PackId → Prop)

/-- A sound directory that has the objects of some checksums. -/
structure Stocked (objects : ObjectChecksum → Prop) (dd : DataDir) : Prop where
  sound : Sound crates zstd content torn dd
  stock : ∀ checksum, objects checksum →
    (looseObjectPath checksum, content checksum) ∈ dd.loose.files

variable {crates zstd content torn} {objects : ObjectChecksum → Prop} {dd : DataDir}
  {loose : DirTree} {now : Nat} {bytes : List UInt8}

theorem Stocked.drop {fewer : ObjectChecksum → Prop}
    (h : Stocked crates zstd content torn objects dd) (hfewer : ∀ c, fewer c → objects c) :
    Stocked crates zstd content torn fewer dd :=
  ⟨h.sound, fun c hc => h.stock c (hfewer c hc)⟩

theorem Stocked.makeDir {dir : String} {isLast : Bool}
    (h : Stocked crates zstd content torn objects dd)
    (hop : DirTree.makeDir dir isLast now dd.loose = .ok loose) :
    Stocked crates zstd content torn objects { dd with loose } := by
  have hfiles : ∀ file, file ∈ loose.files ↔ file ∈ dd.loose.files :=
    fun _ => DirTree.makeDir_files hop
  refine ⟨⟨?_, ?_⟩, ?_⟩
  · intro checksum b hfile
    exact h.sound.objects checksum b ((hfiles _).mp hfile)
  · intro id b hfile hb htorn
    exact (h.sound.indexes id b hfile hb htorn).mono
      (fun checksum b hfile => (hfiles _).mpr hfile) fun _ hpack => hpack
  · intro checksum hchecksum
    exact (hfiles _).mpr (h.stock checksum hchecksum)

/-- An object that is published has its own name. -/
theorem Stocked.publish (h : Stocked crates zstd content torn objects dd)
    (archived : Archived crates.sha1 content bytes)
    (hop : DirTree.publish (looseObjectPath (crates.sha1 bytes)) bytes now dd.loose = .ok loose) :
    Stocked crates zstd content torn (fun c => objects c ∨ c = crates.sha1 bytes)
      { dd with loose } := by
  have hfiles : ∀ p b, (p, b) ∈ loose.files ↔
      if p = looseObjectPath (crates.sha1 bytes) then b = bytes else (p, b) ∈ dd.loose.files := by
    have hloose := DirTree.publish_ok hop
    subst hloose
    exact fun p b => DirTree.mem_files_insert_file
  have hkeeps : KeepsObjects dd { dd with loose } := by
    intro checksum b hfile
    refine (hfiles _ _).mpr ?_
    split_ifs with hpath
    · obtain rfl := looseObjectPath_injective hpath
      obtain ⟨hsha, harchived⟩ := h.sound.objects _ _ hfile
      rw [← harchived.content, hsha, archived.content]
    · exact hfile
  refine ⟨⟨?_, ?_⟩, ?_⟩
  · intro checksum b hfile
    have hfile' := (hfiles _ _).mp hfile
    split_ifs at hfile' with hpath
    · obtain rfl := looseObjectPath_injective hpath
      rw [hfile']
      exact ⟨rfl, archived⟩
    · exact h.sound.objects checksum b hfile'
  · intro id b hfile hb htorn
    exact (h.sound.indexes id b hfile hb htorn).mono hkeeps fun _ hpack => hpack
  · intro checksum hchecksum
    rcases hchecksum with hchecksum | rfl
    · exact hkeeps _ _ (h.stock checksum hchecksum)
    · rw [archived.content]
      exact (hfiles _ _).mpr (by rw [if_pos rfl])

/-- An object that is there already has the content. -/
theorem Stocked.existing (h : Stocked crates zstd content torn objects dd)
    (hfile : isFile dd.loose (looseObjectPath (crates.sha1 bytes)) = true) :
    Stocked crates zstd content torn (fun c => objects c ∨ c = crates.sha1 bytes) dd := by
  refine ⟨h.sound, fun checksum hchecksum => ?_⟩
  rcases hchecksum with hchecksum | rfl
  · exact h.stock checksum hchecksum
  · unfold isFile at hfile
    split at hfile
    · rename_i b mtime hlookup
      have hmem := DirTree.mem_files.mpr ⟨mtime, hlookup⟩
      obtain ⟨hsha, harchived⟩ := h.sound.objects _ _ hmem
      rw [← hsha, harchived.content, hsha]
      exact hmem
    · cases hfile

theorem keeps_makeLooseDir (dir : String) (isLast : Bool) :
    Io.KeepsDisk (fun disk => Stocked crates zstd content torn objects disk.dataDir)
      (Io.onLoose (DirTree.makeDir dir isLast)) :=
  Io.keeps_onLoose fun _ _ _ hdisk hop => hdisk.makeDir hop

theorem publishOrExisting_stocks (archived : Archived crates.sha1 content bytes) :
    Effect.Triple (fun s : Session Disk Fault =>
        Stocked crates zstd content torn objects s.state.dataDir)
      (publishOrExisting (looseObjectPath (crates.sha1 bytes)) bytes)
      (fun _ s => Stocked crates zstd content torn (fun c => objects c ∨ c = crates.sha1 bytes)
        s.state.dataDir)
      fun s => Stocked crates zstd content torn objects s.state.dataDir := by
  apply Effect.Triple.orElse
  · refine .intro (fun s s' _ hs hrun => ?_) fun s s' e hs hrun => ?_
    · obtain ⟨loose, hop, hstate⟩ := Io.onLoose_ok hrun
      rw [hstate]
      exact hs.publish archived hop
    · rw [Io.onLoose_error hrun]
      exact hs
  · intro e y hy
    cases hy
    have hlook : Effect.Triple _ (Io.look fun dd => .ok (isFile dd.loose
        (looseObjectPath (crates.sha1 bytes)))) _ _ :=
      Io.look_known (P := fun disk => Stocked crates zstd content torn objects disk.dataDir) _
    apply Effect.Triple.bind hlook
    intro existing
    cases existing with
    | false =>
      refine Effect.Triple.intro (fun s s' _ hs hrun => ?_) fun s s' e hs hrun => ?_
      · cases (Effect.lift_eq_ok.mp hrun).1
      · cases hrun
        exact hs.1
    | true =>
      refine .pure fun s hs => ?_
      exact hs.1.existing (Except.ok.inj hs.2)

/-- After an object is written it is there. -/
theorem writeLooseObject_stocks (archived : Archived crates.sha1 content bytes) :
    Effect.Triple (fun s : Session Disk Fault =>
        Stocked crates zstd content torn objects s.state.dataDir)
      (writeLooseObject (crates.sha1 bytes) bytes)
      (fun _ s => Stocked crates zstd content torn (fun c => objects c ∨ c = crates.sha1 bytes)
        s.state.dataDir)
      fun s => Stocked crates zstd content torn objects s.state.dataDir := by
  apply Effect.Triple.bind (Io.keeps_createDirAll fun dir isLast => keeps_makeLooseDir dir isLast)
  intro _
  have hlook : Effect.Triple _ (Io.look fun dd => .ok (isFile dd.loose
      (looseObjectPath (crates.sha1 bytes)))) _ _ :=
    Io.look_known (P := fun disk => Stocked crates zstd content torn objects disk.dataDir) _
  apply Effect.Triple.bind hlook
  intro existing
  cases existing with
  | true => exact .pure fun s hs => hs.1.existing (Except.ok.inj hs.2)
  | false =>
    apply Effect.Triple.bind (R := fun _ s =>
      Stocked crates zstd content torn objects s.state.dataDir)
    · exact (Io.keeps_prepareAtomicWrite
        (P := fun disk => Stocked crates zstd content torn objects disk.dataDir)).weaken
          (fun _ hs => hs.1) (fun _ _ hs => hs) fun _ hs => hs
    · exact fun _ => publishOrExisting_stocks archived

/-- What is entered for a file: no object, or the one that its bytes make. -/
def Entered (crates : Crates) (file : InputFile) (entry : FileEntry) : Prop :=
  entry.path = file.path ∧
    (bodyOf file.source = none ∧ Placeholder entry.checksum entry.objectMetadata ∨
      ∃ bytes, bodyOf file.source = some bytes ∧ entry.checksum = crates.sha1 bytes ∧
        entry.objectMetadata.size = UInt64.ofNat bytes.length)

theorem storeFile_entered {file : InputFile} {entry : FileEntry} {s s' : Session Disk Fault}
    (h : storeFile crates file s = (.ok entry, s')) : Entered crates file entry := by
  obtain ⟨_, t, -, h⟩ := Effect.bind_eq_ok.mp h
  cases hsource : file.source with
  | symlink target kind =>
    rw [hsource] at h
    obtain ⟨_, u, -, h⟩ := Effect.bind_eq_ok.mp h
    obtain ⟨rfl, -⟩ := Effect.pure_eq_ok.mp h
    exact ⟨rfl, .inr ⟨_, by rw [hsource]; rfl, rfl, rfl⟩⟩
  | regular body mode =>
    rw [hsource] at h
    obtain ⟨_, u, -, h⟩ := Effect.bind_eq_ok.mp h
    obtain ⟨rfl, -⟩ := Effect.pure_eq_ok.mp h
    exact ⟨rfl, .inr ⟨_, by rw [hsource]; rfl, rfl, rfl⟩⟩
  | denied size mode =>
    rw [hsource] at h
    dsimp only at h
    split_ifs at h
    · cases (Effect.lift_eq_ok.mp h).1
    · obtain ⟨rfl, -⟩ := Effect.pure_eq_ok.mp h
      exact ⟨rfl, .inl ⟨by rw [hsource]; rfl, rfl, rfl⟩⟩
  | failing e =>
    rw [hsource] at h
    cases (Effect.lift_eq_ok.mp h).1

/-- The object that a file is stored with. -/
def ObjectOf (crates : Crates) (file : InputFile) (checksum : ObjectChecksum) : Prop :=
  ∃ bytes, bodyOf file.source = some bytes ∧ checksum = crates.sha1 bytes

theorem storeFile_stocks {file : InputFile}
    (archived : ∀ bytes, bodyOf file.source = some bytes → Archived crates.sha1 content bytes) :
    Effect.Triple (fun s : Session Disk Fault =>
        Stocked crates zstd content torn objects s.state.dataDir)
      (storeFile crates file)
      (fun _ s => Stocked crates zstd content torn
        (fun c => objects c ∨ ObjectOf crates file c) s.state.dataDir)
      fun s => Stocked crates zstd content torn objects s.state.dataDir := by
  have writes : ∀ bytes (entry : FileEntry), bodyOf file.source = some bytes →
      Effect.Triple (fun s : Session Disk Fault =>
          Stocked crates zstd content torn objects s.state.dataDir)
        (writeLooseObject (crates.sha1 bytes) bytes >>= fun _ => pure entry)
        (fun _ s => Stocked crates zstd content torn
          (fun c => objects c ∨ ObjectOf crates file c) s.state.dataDir)
        fun s => Stocked crates zstd content torn objects s.state.dataDir := by
    intro bytes entry hbody
    apply Effect.Triple.bind (writeLooseObject_stocks (archived bytes hbody))
    refine fun _ => .pure fun s hs => hs.drop fun c hc => hc.imp_right ?_
    rintro ⟨bytes', hbody', rfl⟩
    rw [hbody] at hbody'
    cases hbody'
    rfl
  apply Effect.Triple.bind (Io.keeps_passing
    (P := fun disk => Stocked crates zstd content torn objects disk.dataDir))
  intro _
  have hempty : bodyOf file.source = none → ∀ s : Session Disk Fault,
      Stocked crates zstd content torn objects s.state.dataDir →
        Stocked crates zstd content torn (fun c => objects c ∨ ObjectOf crates file c)
          s.state.dataDir := by
    intro hnone s hs
    refine hs.drop fun c hc => hc.resolve_right ?_
    rintro ⟨bytes, hbody, -⟩
    rw [hnone] at hbody
    cases hbody
  cases hsource : file.source with
  | symlink target kind => exact writes _ _ (by rw [hsource]; rfl)
  | regular body mode => exact writes _ _ (by rw [hsource]; rfl)
  | denied size mode =>
    dsimp only
    split_ifs
    · exact .fails
    · exact .pure (hempty (by rw [hsource]; rfl))
  | failing e => exact .fails

end Objects

section Snapshot

variable {crates : Crates} {zstd : Zstd} {content : ObjectChecksum → List UInt8}
  {torn : PackId → Prop} {ord : IterOrder FileHandle} {writer : RmpWriter} {snapshot : SnapshotId}
  {files : List InputFile}

/-- Files that can be stored: their contents are told apart, and there are no more
of them, and no longer paths, than an index can say. -/
structure Storable (crates : Crates) (content : ObjectChecksum → List UInt8)
    (snapshot : SnapshotId) (files : List InputFile) : Prop where
  archived : ∀ file ∈ files, ∀ bytes, bodyOf file.source = some bytes →
    Archived crates.sha1 content bytes
  count : files.length < handleCount
  paths : ∀ file ∈ files, file.path.bytes.length < handleCount
  tag : snapshot.tag.utf8ByteSize < handleCount

/-- An index that is well formed, and has an object or needs none for all it lists. -/
structure SnapshotOf (crates : Crates) (content : ObjectChecksum → List UInt8)
    (index : PackIndex) (dd : DataDir) : Prop where
  writable : index.Writable
  aligned : index.Aligned
  records : index.Records fun checksum metadata => Placeholder checksum metadata ∨
    (looseObjectPath checksum, content checksum) ∈ dd.loose.files ∧
      crates.sha1 (content checksum) = checksum ∧
      (content checksum).length = metadata.size.toNat

/-- The index of files whose objects are there. -/
theorem snapshotOf_stored {entries : List FileEntry} {index : PackIndex} {dd : DataDir}
    (storable : Storable crates content snapshot files)
    (hpush : PackIndex.new.pushSnapshot ord snapshot.tag entries = .ok index)
    (entered : List.Forall₂ (Entered crates) files entries)
    (stock : ∀ checksum, (∃ file ∈ files, ObjectOf crates file checksum) →
      (looseObjectPath checksum, content checksum) ∈ dd.loose.files) :
    SnapshotOf crates content index dd := by
  have hentered : ∀ entry ∈ entries, ∃ file ∈ files, Entered crates file entry := by
    intro entry hentry
    obtain ⟨k, hk⟩ := List.mem_iff_getElem?.mp hentry
    obtain ⟨file, hfile, hok⟩ := forall₂_getElem? entered hk
    exact ⟨file, List.mem_of_getElem? hfile, hok⟩
  have hwritable : index.Writable := by
    refine PackIndex.writable_pushSnapshot hpush storable.tag ?_ ?_
    · rw [← entered.length_eq]
      exact storable.count
    · intro entry hentry
      obtain ⟨file, hfile, hpath, -⟩ := hentered entry hentry
      rw [hpath]
      exact storable.paths file hfile
  refine ⟨hwritable, PackIndex.pushSnapshot_aligned PackIndex.aligned_new hpush,
    PackIndex.pushSnapshot_records PackIndex.records_new hpush hwritable.objects.le ?_⟩
  intro entry hentry
  obtain ⟨file, hfile, -, hentry | ⟨bytes, hbody, hchecksum, hsize⟩⟩ := hentered entry hentry
  · exact .inl hentry.2
  · have harchived := storable.archived file hfile bytes hbody
    right
    rw [hchecksum, harchived.content, hsize, UInt64.toNat_ofNat_of_lt' harchived.short]
    refine ⟨?_, rfl, rfl⟩
    have hstock := stock (crates.sha1 bytes) ⟨file, hfile, bytes, hbody, rfl⟩
    rwa [harchived.content] at hstock

/-- Storing the files keeps a directory sound, and leads to such an index. -/
theorem snapshotIndex_sound (storable : Storable crates content snapshot files) :
    Effect.Triple (fun s : Session Disk Fault => Sound crates zstd content torn s.state.dataDir)
      (snapshotIndex crates ord snapshot files)
      (fun index s => Sound crates zstd content torn s.state.dataDir ∧
        SnapshotOf crates content index s.state.dataDir)
      fun s => Sound crates zstd content torn s.state.dataDir := by
  have hfiles : ∀ file ∈ files, ∀ objects : ObjectChecksum → Prop, Effect.Triple
      (fun s : Session Disk Fault => Stocked crates zstd content torn objects s.state.dataDir)
      (storeFile crates file)
      (fun _ s => Stocked crates zstd content torn
        (fun c => objects c ∨ ObjectOf crates file c) s.state.dataDir)
      fun s => Stocked crates zstd content torn objects s.state.dataDir :=
    fun file hfile objects => storeFile_stocks (storable.archived file hfile)
  have hall := Effect.Triple.runAll
    (P := fun objects (s : Session Disk Fault) =>
      Stocked crates zstd content torn objects s.state.dataDir)
    (fun _ _ _ hfewer hs => hs.drop hfewer) hfiles fun _ => False
  have start : ∀ s : Session Disk Fault, Sound crates zstd content torn s.state.dataDir →
      Stocked crates zstd content torn (fun _ => False) s.state.dataDir :=
    fun s hs => ⟨hs, fun _ h => h.elim⟩
  refine .intro (fun s s' index hs hrun => ?_) fun s s' e hs hrun => ?_
  · obtain ⟨_, t, hdir, hrun⟩ := Effect.bind_eq_ok.mp hrun
    obtain ⟨entries, u, hstore, hrun⟩ := Effect.bind_eq_ok.mp hrun
    obtain ⟨hpush, rfl⟩ := Effect.lift_eq_ok.mp hrun
    rw [Exec.mapError_eq_ok] at hpush
    rw [io_eq_ok] at hdir hstore
    rw [← Io.passing_ok hdir] at hs
    have hstocked := hall.ok (start t hs) hstore
    refine ⟨hstocked.sound, snapshotOf_stored storable hpush ?_ fun c h => hstocked.stock c (.inr h)⟩
    refine (Effect.runAll_ok hstore).imp fun file entry hok => ?_
    obtain ⟨_, _, hok⟩ := hok
    exact storeFile_entered hok
  · have hkeeps : Effect.Triple
        (fun s : Session Disk Fault => Sound crates zstd content torn s.state.dataDir)
        (snapshotIndex crates ord snapshot files) (fun _ _ => True)
        fun s => Sound crates zstd content torn s.state.dataDir := by
      apply Effect.Triple.bind (keeps_io (Io.keeps_passing
        (P := fun disk => Sound crates zstd content torn disk.dataDir)))
      intro _
      have hstores := hall.mapError (f := Error.ioError)
      refine Effect.Triple.bind (hstores.weaken start (fun _ _ h => h) fun _ h => h.sound)
        fun entries => .intro (fun _ _ _ _ _ => trivial) fun u u' e hu hrun => ?_
      obtain ⟨-, rfl⟩ := Prod.mk.inj hrun
      exact hu.sound
    exact hkeeps.error hs hrun

/-- What is saved of such an index is described by its loose objects. -/
theorem SnapshotOf.described {index : PackIndex} {dd : DataDir} {id : PackId}
    (laws : writer.ReadBackBy crates.rmp) (h : SnapshotOf crates content index dd)
    (hloose : (Text.stripPrefix loosePrefix id.name).isSome = true) :
    Described crates zstd Placeholder dd id (index.serialize writer) := by
  have agrees := PackIndex.reloaded_agrees h.aligned
  refine ⟨_, (PackIndex.roundTrips_of_writable laws h.writable).parse_serialize, ?_⟩
  rw [DataPresent, if_pos hloose]
  intro handle checksum hlookup
  rw [agrees.objectPool_lookup] at hlookup
  obtain ⟨metadata, hmetadata⟩ := Option.isSome_iff_exists.mp ((h.aligned handle).mpr
    (List.getElem?_eq_some_iff.mp hlookup).1)
  refine ⟨metadata, by rw [agrees.metadata, hmetadata], ?_⟩
  refine (h.records handle checksum metadata hlookup hmetadata).imp_right fun hheld => ?_
  exact ⟨_, openLooseObject_eq_ok.mpr hheld.1, hheld.2.1, hheld.2.2⟩

end Snapshot

end Elfshaker.Packs
