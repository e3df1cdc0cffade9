import Elfshaker.Packs.FailedCreation
import Elfshaker.Packs.RoundTrip
import Elfshaker.Store.GcObjects

namespace Elfshaker.Packs

open Elfshaker.Library Elfshaker.Format Elfshaker.Store

/-- Every object of an index is recorded, and is held unless it is exempt. -/
def Describes (exempt held : ObjectChecksum → ObjectMetadata → Prop) (index : PackIndex) : Prop :=
  ∀ handle checksum, index.objectPool.lookup handle = some checksum →
    ∃ metadata, index.objectMetadata.lookup handle = some metadata ∧
      (exempt checksum metadata ∨ held checksum metadata)

/-- The loose object is there, and it has the content of its checksum. -/
def HeldLoose (sha1 : List UInt8 → ObjectChecksum) (dd : DataDir) (checksum : ObjectChecksum)
    (metadata : ObjectMetadata) : Prop :=
  ∃ bytes, openLooseObject dd checksum = .ok bytes ∧ sha1 bytes = checksum ∧
    bytes.length = metadata.size.toNat

/-- A stream has, at the offset and of the size that are recorded, the content of the
checksum. -/
def HeldAt (sha1 : List UInt8 → ObjectChecksum) (stream : List UInt8) (checksum : ObjectChecksum)
    (metadata : ObjectMetadata) : Prop :=
  (extent metadata).Within stream ∧ sha1 ((extent metadata).slice stream) = checksum

/-- An unreadable file of no bytes has no object. -/
def Placeholder (checksum : ObjectChecksum) (metadata : ObjectMetadata) : Prop :=
  checksum = .zero ∧ metadata.size = 0

section Described

variable (crates : Crates) (zstd : Zstd) (exempt : ObjectChecksum → ObjectMetadata → Prop)

/-- The data that an index is about: loose objects, or the pack file beside it. -/
def DataPresent (dd : DataDir) (id : PackId) (index : PackIndex) : Prop :=
  if (Text.stripPrefix loosePrefix id.name).isSome then
    Describes exempt (HeldLoose crates.sha1 dd) index
  else ∃ header frames, (id.packPath, skippableFrame header ++ frames) ∈ dd.packs.files ∧
    Describes exempt (HeldAt crates.sha1 (zstd.decompress frames)) index

/-- The bytes of an index load, and what they are about is there. -/
def Described (dd : DataDir) (id : PackId) (bytes : List UInt8) : Prop :=
  ∃ index, PackIndex.parse crates.rmp bytes = .ok index ∧
    DataPresent crates zstd exempt dd id index

/-- Every visible index that is not empty is described, but for those that are torn. -/
def Consistent (torn : PackId → Prop) (dd : DataDir) : Prop :=
  ∀ id bytes, (id.indexPath, bytes) ∈ dd.packs.files → bytes ≠ [] → ¬ torn id →
    Described crates zstd exempt dd id bytes

end Described

/-- Content that is told from all other stored content by its checksum, which is not
the one that stands for no object. -/
structure Archived (sha1 : List UInt8 → ObjectChecksum) (content : ObjectChecksum → List UInt8)
    (bytes : List UInt8) : Prop where
  content : content (sha1 bytes) = bytes
  nonzero : sha1 bytes ≠ .zero
  short : bytes.length < 2 ^ 64

/-- What holds of a data directory between two steps: its loose objects are what
their names say, and its indexes are described. -/
structure Sound (crates : Crates) (zstd : Zstd) (content : ObjectChecksum → List UInt8)
    (torn : PackId → Prop) (dd : DataDir) : Prop where
  objects : ∀ checksum bytes, (looseObjectPath checksum, bytes) ∈ dd.loose.files →
    crates.sha1 bytes = checksum ∧ Archived crates.sha1 content bytes
  indexes : Consistent crates zstd Placeholder torn dd

section Frame

variable {crates : Crates} {zstd : Zstd} {exempt : ObjectChecksum → ObjectMetadata → Prop}
  {content : ObjectChecksum → List UInt8} {torn torn' : PackId → Prop} {dd dd' : DataDir}
  {id : PackId}

theorem openLooseObject_eq_ok {checksum : ObjectChecksum} {bytes : List UInt8} :
    openLooseObject dd checksum = .ok bytes ↔
      (looseObjectPath checksum, bytes) ∈ dd.loose.files :=
  DirTree.readFile_eq_ok

theorem Describes.imp {held held' : ObjectChecksum → ObjectMetadata → Prop} {index : PackIndex}
    (h : Describes exempt held index)
    (himp : ∀ checksum metadata, held checksum metadata → held' checksum metadata) :
    Describes exempt held' index := by
  intro handle checksum hlookup
  obtain ⟨metadata, hmetadata, hheld⟩ := h handle checksum hlookup
  exact ⟨metadata, hmetadata, hheld.imp_right (himp checksum metadata)⟩

/-- Loose objects are not taken away. -/
def KeepsObjects (dd dd' : DataDir) : Prop :=
  ∀ checksum bytes, (looseObjectPath checksum, bytes) ∈ dd.loose.files →
    (looseObjectPath checksum, bytes) ∈ dd'.loose.files

theorem KeepsObjects.of_eq (h : dd'.loose = dd.loose) : KeepsObjects dd dd' := by
  intro checksum bytes hfile
  rwa [h]

theorem DataPresent.mono {index : PackIndex} (h : DataPresent crates zstd exempt dd id index)
    (objects : KeepsObjects dd dd')
    (pack : ∀ bytes, (id.packPath, bytes) ∈ dd.packs.files →
      (id.packPath, bytes) ∈ dd'.packs.files) :
    DataPresent crates zstd exempt dd' id index := by
  unfold DataPresent at h ⊢
  split_ifs at h ⊢ with hloose
  · refine h.imp fun checksum metadata hheld => ?_
    obtain ⟨bytes, hopen, hrest⟩ := hheld
    exact ⟨bytes, openLooseObject_eq_ok.mpr (objects _ _ (openLooseObject_eq_ok.mp hopen)), hrest⟩
  · obtain ⟨header, frames, hfile, hdescribes⟩ := h
    exact ⟨header, frames, pack _ hfile, hdescribes⟩

theorem Described.mono {bytes : List UInt8} (h : Described crates zstd exempt dd id bytes)
    (objects : KeepsObjects dd dd')
    (pack : ∀ bytes, (id.packPath, bytes) ∈ dd.packs.files →
      (id.packPath, bytes) ∈ dd'.packs.files) :
    Described crates zstd exempt dd' id bytes := by
  obtain ⟨index, hparse, hpresent⟩ := h
  exact ⟨index, hparse, hpresent.mono objects pack⟩

/-- The index and pack files are looked at; any other file of the directory is not. -/
def Published (path : String) : Prop :=
  ∃ id : PackId, path = id.indexPath ∨ path = id.packPath

theorem not_published_temp (file : AtomicCreateFile) : ¬ Published file.temp := by
  rintro ⟨id, hindex | hpack⟩
  · exact not_isIndexPath_temp file (hindex ▸ isIndexPath_indexPath id)
  · exact temp_ne_packPath file id hpack.symm

/-- Nothing is lost, and a published file that is new is empty. -/
structure Gains (dd dd' : DataDir) : Prop where
  loose : dd'.loose = dd.loose
  stays : ∀ p bytes, Published p → (p, bytes) ∈ dd.packs.files → (p, bytes) ∈ dd'.packs.files
  fresh : ∀ p bytes, Published p → (p, bytes) ∈ dd'.packs.files →
    bytes = [] ∨ (p, bytes) ∈ dd.packs.files

theorem gains_of_files {packs : DirTree} {now : Nat} {disk : Disk}
    (h : ∀ file, file ∈ packs.files ↔ file ∈ disk.dataDir.packs.files) :
    Gains disk.dataDir (Disk.mk { disk.dataDir with packs } now).dataDir :=
  ⟨rfl, fun _ _ _ hfile => (h _).mpr hfile, fun _ _ _ hfile => .inr ((h _).mp hfile)⟩

theorem gains_insert {path : String} (other : ¬ Published path) (bytes : List UInt8) (mtime : Nat) :
    Gains dd { dd with packs := dd.packs.insert path (.file bytes mtime) } := by
  have hother : ∀ p b, Published p →
      ((p, b) ∈ DirTree.files (dd.packs.insert path (.file bytes mtime)) ↔
        (p, b) ∈ dd.packs.files) := by
    intro p b hp
    have hne : p ≠ path := fun heq => other (heq ▸ hp)
    exact DirTree.mem_files_insert_file.trans (by rw [if_neg hne])
  exact ⟨rfl, fun p b hp hfile => (hother p b hp).mpr hfile,
    fun p b hp hfile => .inr ((hother p b hp).mp hfile)⟩

/-- What is true of a directory stays true when it gains files. -/
def Grows (P : Disk → Prop) : Prop :=
  ∀ disk disk', Gains disk.dataDir disk'.dataDir → P disk → P disk'

section Steps

variable {P : Disk → Prop} (grows : Grows P)

include grows

theorem Grows.keeps_makeDir (dir : String) (isLast : Bool) :
    Io.KeepsDisk P (Io.onPacks (DirTree.makeDir dir isLast)) :=
  Io.keeps_onPacks fun disk _ _ hdisk hop =>
    grows disk _ (gains_of_files fun _ => DirTree.makeDir_files hop) hdisk

theorem Grows.keeps_reserve (path : String) : Io.KeepsDisk P (AtomicCreateFile.reserve path) := by
  refine keeps_reserve_of grows.keeps_makeDir (Io.keeps_onPacks fun disk now packs hdisk hop => ?_)
  have hopened := openCreate_opened hop
  refine grows disk _ ⟨rfl, fun p b _ hfile => (hopened p b).mpr (.inl hfile), ?_⟩ hdisk
  intro p b _ hfile
  exact ((hopened p b).mp hfile).symm.imp_left fun h => h.2.1

theorem Grows.keeps_createTemp (path : String) (random : List UInt8) :
    Io.KeepsDisk P (AtomicCreateFile.createTemp path random) := by
  refine keeps_createTemp_of fun disk now packs hdisk hop => ?_
  have other : ¬ Published (createTempPath path random) := not_published_temp ⟨path, random⟩
  rw [DirTree.createNew_ok hop]
  exact grows disk _ (gains_insert other _ _) hdisk

theorem Grows.keeps_new (path : String) (random : List UInt8) :
    Io.KeepsDisk P (AtomicCreateFile.new path random) :=
  (grows.keeps_reserve path).bind fun _ => grows.keeps_createTemp path random

theorem Grows.keeps_fill (file : AtomicCreateFile) (bytes : List UInt8) :
    Io.KeepsDisk P (file.fill bytes) := by
  refine keeps_fill_of fun disk now _ packs hdisk hop => ?_
  rw [DirTree.write_ok hop]
  exact grows disk _ (gains_insert (not_published_temp file) _ _) hdisk

theorem Grows.keeps_setHead (text : String) : Io.KeepsDisk P (Io.setHead text) :=
  Io.keeps_setHead fun disk _ _ hdisk =>
    grows disk _ ⟨rfl, fun _ _ _ => id, fun _ _ _ => .inr⟩ hdisk

theorem Grows.keeps_ensureDir (dirs : List String) : Io.KeepsDisk P (Io.ensureDir Io.onPacks dirs) :=
  Io.keeps_ensureDir grows.keeps_makeDir

theorem Grows.keeps_updateHead (snapshot : SnapshotId) : Io.KeepsDisk P (updateHead snapshot) :=
  (keeps_io Io.keeps_passing).bind fun _ =>
    (keeps_io Io.keeps_prepareAtomicWrite).bind fun _ => keeps_io (grows.keeps_setHead _)

/-- A file is filled before it takes its place. -/
theorem Grows.fill_fills (file : AtomicCreateFile) (bytes : List UInt8) :
    Effect.Triple (fun s : Session Disk Fault => P s.state) (file.fill bytes)
      (fun _ s => P s.state ∧ (file.temp, bytes) ∈ s.state.dataDir.packs.files)
      fun s => P s.state :=
  .intro (fun _ _ _ hs hrun => ⟨(grows.keeps_fill file bytes).ok hs hrun, fill_ok hrun⟩)
    fun _ _ _ hs hrun => (grows.keeps_fill file bytes).error hs hrun

end Steps

theorem Sound.gains (h : Sound crates zstd content torn dd) (gains : Gains dd dd') :
    Sound crates zstd content torn dd' := by
  refine ⟨?_, fun id bytes hfile hbytes htorn => ?_⟩
  · intro checksum bytes hfile
    rw [gains.loose] at hfile
    exact h.objects checksum bytes hfile
  · have hold := (gains.fresh _ _ ⟨id, .inl rfl⟩ hfile).resolve_left hbytes
    exact (h.indexes id bytes hold hbytes htorn).mono (.of_eq gains.loose)
      fun b hb => gains.stays _ b ⟨id, .inr rfl⟩ hb

theorem grows_sound : Grows fun disk => Sound crates zstd content torn disk.dataDir :=
  fun _ _ gains h => h.gains gains

/-- One published file takes the place of another, or of none. -/
structure Puts (dd : DataDir) (path : String) (bytes : List UInt8) (dd' : DataDir) : Prop where
  loose : dd'.loose = dd.loose
  files : ∀ p b, Published p → ((p, b) ∈ dd'.packs.files ↔
    if p = path then b = bytes else (p, b) ∈ dd.packs.files)

theorem puts_rename {disk disk' : Disk} {file : AtomicCreateFile} {now : Nat} {packs : DirTree}
    {bytes : List UInt8} (hstate : disk' = ⟨{ disk.dataDir with packs }, now⟩)
    (hop : DirTree.rename file.temp file.path now disk.dataDir.packs = .ok packs)
    (filled : (file.temp, bytes) ∈ disk.dataDir.packs.files) :
    Puts disk.dataDir file.path bytes disk'.dataDir := by
  subst hstate
  refine ⟨rfl, fun p b hp => DirTree.rename_files hop filled ?_⟩
  exact fun heq => not_published_temp file (heq ▸ hp)

theorem puts_publish {disk disk' : Disk} {path : String} {now : Nat} {packs : DirTree}
    {bytes : List UInt8} (hstate : disk' = ⟨{ disk.dataDir with packs }, now⟩)
    (hop : DirTree.publish path bytes now disk.dataDir.packs = .ok packs) :
    Puts disk.dataDir path bytes disk'.dataDir := by
  subst hstate
  refine ⟨rfl, fun p b _ => ?_⟩
  have hpacks := DirTree.publish_ok hop
  subst hpacks
  exact DirTree.mem_files_insert_file

theorem packPath_injective {id id' : PackId} (h : id.packPath = id'.packPath) : id = id' := by
  have hlist := congrArg String.toList h
  rw [PackId.packPath, PackId.packPath, String.toList_append, String.toList_append,
    List.append_cancel_right_eq] at hlist
  obtain ⟨name⟩ := id
  obtain ⟨name'⟩ := id'
  exact congrArg PackId.mk (String.toList_inj.mp hlist)

theorem indexPath_ne_packPath (id id' : PackId) : id.indexPath ≠ id'.packPath := by
  intro h
  exact not_isIndexPath_packPath id' (h ▸ isIndexPath_indexPath id)

/-- An index that is described may be published, and is not torn then. -/
theorem Sound.putIndex {bytes : List UInt8} (h : Sound crates zstd content torn dd)
    (puts : Puts dd id.indexPath bytes dd')
    (described : Described crates zstd Placeholder dd' id bytes)
    (mended : ∀ other, torn other → torn' other ∨ other = id) :
    Sound crates zstd content torn' dd' := by
  refine ⟨?_, fun other b hfile hb htorn => ?_⟩
  · intro checksum b hfile
    rw [puts.loose] at hfile
    exact h.objects checksum b hfile
  · have hother := (puts.files _ _ ⟨other, .inl rfl⟩).mp hfile
    split_ifs at hother with hpath
    · rw [PackId.indexPath_injective hpath, hother]
      exact described
    · have hwhole : ¬ torn other := by
        intro h
        rcases mended other h with h | rfl
        · exact htorn h
        · exact hpath rfl
      refine (h.indexes other b hother hb hwhole).mono (.of_eq puts.loose) fun bytes' hpack => ?_
      have hne : other.packPath ≠ id.indexPath := (indexPath_ne_packPath id other).symm
      refine (puts.files _ _ ⟨other, .inr rfl⟩).mpr ?_
      rwa [if_neg hne]

theorem Sound.wider (h : Sound crates zstd content torn dd)
    (wider : ∀ other, torn other → torn' other) : Sound crates zstd content torn' dd :=
  ⟨h.objects, fun id bytes hfile hbytes htorn =>
    h.indexes id bytes hfile hbytes fun h => htorn (wider id h)⟩

/-- A pack may be published as long as its index is none, or torn. -/
theorem Sound.putPack {bytes : List UInt8} (h : Sound crates zstd content torn dd)
    (puts : Puts dd id.packPath bytes dd') (wider : ∀ other, torn other → torn' other)
    (hidden : torn' id ∨ ∀ b, (id.indexPath, b) ∈ dd.packs.files → b = []) :
    Sound crates zstd content torn' dd' := by
  refine ⟨?_, fun other b hfile hb htorn => ?_⟩
  · intro checksum b hfile
    rw [puts.loose] at hfile
    exact h.objects checksum b hfile
  · have hother := (puts.files _ _ ⟨other, .inl rfl⟩).mp hfile
    rw [if_neg (indexPath_ne_packPath other id)] at hother
    have hdescribed := h.indexes other b hother hb fun htorn' => htorn (wider other htorn')
    refine hdescribed.mono (.of_eq puts.loose) fun bytes' hpack => ?_
    have hne : other.packPath ≠ id.packPath := by
      intro heq
      rw [packPath_injective heq] at hother htorn
      rcases hidden with htorn' | hempty
      · exact htorn htorn'
      · exact hb (hempty b hother)
    refine (puts.files _ _ ⟨other, .inr rfl⟩).mpr ?_
    rwa [if_neg hne]

end Frame

end Elfshaker.Packs
