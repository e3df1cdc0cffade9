import Elfshaker.Store.DataDir
import Mathlib.Data.List.ReduceOption

namespace Elfshaker.Store

open Elfshaker.Library Elfshaker.Format

section Discovery

variable (crates : Crates)

def ioFailure : IoError → Error := fun e => .packError (.ioError e)

/-- The identifier that one file of the packs directory stands for. -/
def discover (file : String × List UInt8) : Exec Error (Option PackId) := do
  match PackId.fromIndexPath file.1 with
  | none => .ok none
  | some discovered =>
    if (Text.stripPrefix loosePrefix discovered.name).isSome then
      let tags ← (PackIndex.loadOnlySnapshots crates.rmp file.2).mapError .packError
      match tags with
      | [tag] =>
        let id ← (PackId.forLooseSnapshot crates.unicode tag).mapError .idError
        .ok (some id)
      | _ => Exec.fail .corruptPackIndex
    else .ok (some discovered)

def sortIds (ids : List PackId) : List PackId :=
  ids.insertionSort fun a b => a.name ≤ b.name

def packs (dd : DataDir) : Exec Error (List PackId) := do
  let found ← dd.packs.files.mapM (discover crates)
  .ok (sortIds found.reduceOption)

def isPackLoose (dd : DataDir) (id : PackId) : Bool :=
  (id.validate crates.unicode).isOk && (Text.stripPrefix loosePrefix id.name).isSome &&
    dd.packs.present id.indexPath

/-- Oldest first, and by name where the time of the index cannot be told apart. -/
def loosePacks (dd : DataDir) : Exec Error (List PackId) := do
  let ids ← packs crates dd
  let key (id : PackId) := (dd.packs.mtime id.indexPath).getD 0
  .ok ((ids.filter fun id => isPackLoose crates dd id).insertionSort fun a b =>
    key a < key b ∨ key a = key b ∧ a.name ≤ b.name)

/-- The bytes of an index file. -/
def openIndex (dd : DataDir) (id : PackId) : Exec Error (List UInt8) := do
  (id.validate crates.unicode).mapError .idError
  (dd.packs.readFile id.indexPath).mapError ioFailure

def loadIndex (dd : DataDir) (id : PackId) : Exec Error PackIndex := do
  let bytes ← openIndex crates dd id
  (PackIndex.parse crates.rmp bytes).mapError .packError

def loadIndexSnapshots (dd : DataDir) (id : PackId) : Exec Error (List String) := do
  let bytes ← openIndex crates dd id
  (PackIndex.loadOnlySnapshots crates.rmp bytes).mapError .packError

end Discovery

section Lookup

variable (crates : Crates) (ord : IterOrder FileHandle)

/-- The identifier of a pack when it lists the snapshot. -/
def listing (dd : DataDir) (snapshot : String) (id : PackId) : Exec Error (Option PackId) := do
  let tags ← loadIndexSnapshots crates dd id
  .ok (if snapshot ∈ tags then some id else none)

/-- The checksum of a snapshot in a pack; what does not load is a panic. -/
def checksumIn (dd : DataDir) (snapshot : String) (id : PackId) :
    Exec Error (Option ObjectChecksum) :=
  match loadIndex crates dd id with
  | .ok index => index.computeSnapshotChecksum crates.sha1 ord snapshot
  | .error _ => Exec.panic

/-- Compares checksums one by one, up to the first that differs. -/
def allChecksumsAre (dd : DataDir) (snapshot : String) (first : Option ObjectChecksum) :
    List PackId → Exec Error Bool
  | [] => .ok true
  | id :: rest => do
    let checksum ← checksumIn crates ord dd snapshot id
    if checksum = first then allChecksumsAre dd snapshot first rest
    else .ok false

def areSnapshotsEqual (dd : DataDir) (ids : List PackId) (snapshot : String) : Exec Error Bool :=
  match ids with
  | [] => Exec.panic
  | id :: rest => do
    let first ← checksumIn crates ord dd snapshot id
    allChecksumsAre crates ord dd snapshot first rest

def disambiguateSnapshot (dd : DataDir) (id : PackId) (ids : List PackId) (snapshot : String) :
    Exec Error PackId := do
  let equal ← areSnapshotsEqual crates ord dd (id :: ids) snapshot
  if equal then .ok (((id :: ids).find? fun id => isPackLoose crates dd id).getD id)
  else Exec.fail (.ambiguousSnapshotMatch snapshot (id :: ids))

/-- One of the packs that list a snapshot. -/
def choosePack (dd : DataDir) (snapshot : String) : List PackId → Exec Error PackId
  | [] => Exec.fail (.packError (.snapshotNotFound snapshot))
  | [id] => .ok id
  | id :: ids => disambiguateSnapshot crates ord dd id ids snapshot

def findPackWithSnapshot (dd : DataDir) (snapshot : String) : Exec Error PackId := do
  let ids ← packs crates dd
  let hits ← ids.mapM (listing crates dd snapshot)
  choosePack crates ord dd snapshot hits.reduceOption

/-- Parses `[pack:]tag`; a bare tag is looked up. -/
def findSnapshot (dd : DataDir) (maybeCanonicalTag : String) : Exec Error SnapshotId :=
  match SnapshotId.fromStr crates.unicode maybeCanonicalTag with
  | .ok id => .ok id
  | .error _ => do
    let pack ← findPackWithSnapshot crates ord dd maybeCanonicalTag
    (SnapshotId.new crates.unicode pack maybeCanonicalTag).mapError .idError

end Lookup

section Facts

variable {crates : Crates} {ord : IterOrder FileHandle} {dd : DataDir}

theorem openIndex_eq_ok {id : PackId} {bytes : List UInt8} :
    openIndex crates dd id = .ok bytes ↔
      id.validate crates.unicode = .ok () ∧ (id.indexPath, bytes) ∈ dd.packs.files := by
  simp only [openIndex, Exec.bind_eq_ok, Exec.mapError_eq_ok, DirTree.readFile_eq_ok]
  exact ⟨fun ⟨_, h, h'⟩ => ⟨h, h'⟩, fun ⟨h, h'⟩ => ⟨(), h, h'⟩⟩

theorem loadIndex_eq_ok {id : PackId} {index : PackIndex} :
    loadIndex crates dd id = .ok index ↔
      ∃ bytes, openIndex crates dd id = .ok bytes ∧
        PackIndex.parse crates.rmp bytes = .ok index := by
  simp only [loadIndex, Exec.bind_eq_ok, Exec.mapError_eq_ok]

theorem loadIndexSnapshots_eq_ok {id : PackId} {tags : List String} :
    loadIndexSnapshots crates dd id = .ok tags ↔
      ∃ bytes, openIndex crates dd id = .ok bytes ∧
        PackIndex.loadOnlySnapshots crates.rmp bytes = .ok tags := by
  simp only [loadIndexSnapshots, Exec.bind_eq_ok, Exec.mapError_eq_ok]

theorem mem_sortIds {ids : List PackId} {id : PackId} : id ∈ sortIds ids ↔ id ∈ ids :=
  List.mem_insertionSort _

/-- Discovery succeeds when every file is understood. -/
theorem packs_ok_iff : (∃ ids, packs crates dd = .ok ids) ↔
    ∀ file ∈ dd.packs.files, ∃ found, discover crates file = .ok found := by
  constructor
  · rintro ⟨ids, h⟩ file hfile
    obtain ⟨found, hfound, -⟩ := Exec.bind_eq_ok.mp h
    obtain ⟨id, -, hid⟩ := Exec.mapM_mem hfound hfile
    exact ⟨id, hid⟩
  · intro h
    obtain ⟨found, hfound⟩ := Exec.mapM_exists h
    exact ⟨_, Exec.bind_eq_ok.mpr ⟨found, hfound, rfl⟩⟩

theorem mem_packs {ids : List PackId} (h : packs crates dd = .ok ids) {id : PackId} :
    id ∈ ids ↔ ∃ file ∈ dd.packs.files, discover crates file = .ok (some id) := by
  obtain ⟨found, hfound, hids⟩ := Exec.bind_eq_ok.mp h
  cases hids
  rw [mem_sortIds, List.reduceOption_mem_iff]
  constructor
  · exact fun hmem => Exec.mem_of_mapM hfound hmem
  · rintro ⟨file, hfile, hdiscover⟩
    obtain ⟨found', hmem, hfound'⟩ := Exec.mapM_mem hfound hfile
    rw [hdiscover] at hfound'
    cases hfound'
    exact hmem

/-- A file below `packs/loose` stands for the tag that is in it. -/
theorem discover_loose {path : String} {bytes : List UInt8} {name : String}
    (hpath : path = (PackId.looseOf name).indexPath) {found : Option PackId} :
    discover crates (path, bytes) = .ok found ↔
      ∃ tag, PackIndex.loadOnlySnapshots crates.rmp bytes = .ok [tag] ∧
        SnapshotId.isValid crates.unicode tag = true ∧ found = some (PackId.looseOf tag) := by
  have hid := PackId.fromIndexPath_eq_some.mpr hpath
  have hloose : (Text.stripPrefix loosePrefix (PackId.looseOf name).name).isSome = true := by
    rw [PackId.looseOf, Text.stripPrefix_append]
    rfl
  simp only [discover, hid, hloose, if_true, Exec.bind_eq_ok, Exec.mapError_eq_ok]
  constructor
  · rintro ⟨tags, htags, h⟩
    rcases tags with _ | ⟨tag, _ | ⟨second, more⟩⟩
    · cases h
    · obtain ⟨id, hfor, hfound⟩ := Exec.bind_eq_ok.mp h
      rw [Exec.mapError_eq_ok] at hfor
      unfold PackId.forLooseSnapshot at hfor
      split_ifs at hfor with hvalid
      · cases hfor
        cases hfound
        exact ⟨tag, htags, hvalid, rfl⟩
      · cases hfor
    · cases h
  · rintro ⟨tag, htags, hvalid, rfl⟩
    refine ⟨[tag], htags, Exec.bind_eq_ok.mpr ⟨PackId.looseOf tag, ?_, rfl⟩⟩
    rw [PackId.forLooseSnapshot, if_pos hvalid]
    rfl

/-- Any other index file stands for its own path. -/
theorem discover_regular {path : String} {bytes : List UInt8} {id : PackId}
    (hpath : path = id.indexPath) (hregular : Text.stripPrefix loosePrefix id.name = none) :
    discover crates (path, bytes) = .ok (some id) := by
  simp [discover, PackId.fromIndexPath_eq_some.mpr hpath, hregular]

/-- What is not an index file is passed over. -/
theorem discover_other {path : String} {bytes : List UInt8}
    (hpath : PackId.fromIndexPath path = none) : discover crates (path, bytes) = .ok none := by
  simp [discover, hpath]

/-- A pack that lists a tag. -/
def Lists (crates : Crates) (dd : DataDir) (id : PackId) (tag : String) : Prop :=
  ∃ tags, loadIndexSnapshots crates dd id = .ok tags ∧ tag ∈ tags

theorem loadIndexSnapshots_of_loadIndex {id : PackId} {index : PackIndex}
    (h : loadIndex crates dd id = .ok index) :
    loadIndexSnapshots crates dd id = .ok index.snapshotTags := by
  obtain ⟨bytes, hbytes, hparse⟩ := loadIndex_eq_ok.mp h
  exact loadIndexSnapshots_eq_ok.mpr ⟨bytes, hbytes, PackIndex.loadOnlySnapshots_of_parse hparse⟩

theorem listing_eq_ok {tag : String} {id : PackId} {found : Option PackId} :
    listing crates dd tag id = .ok found ↔
      ∃ tags, loadIndexSnapshots crates dd id = .ok tags ∧
        (if tag ∈ tags then some id else none) = found := by
  simp only [listing, Exec.bind_eq_ok, Except.ok.injEq]

theorem allChecksumsAre_true {tag : String} {first : Option ObjectChecksum} {ids : List PackId} :
    allChecksumsAre crates ord dd tag first ids = .ok true ↔
      ∀ id ∈ ids, checksumIn crates ord dd tag id = .ok first := by
  induction ids with
  | nil => simp [allChecksumsAre]
  | cons id ids ih =>
    rw [allChecksumsAre, Exec.bind_eq_ok, List.forall_mem_cons]
    constructor
    · rintro ⟨checksum, hchecksum, h⟩
      split_ifs at h with heq
      · exact ⟨heq ▸ hchecksum, ih.mp h⟩
      · cases h
    · rintro ⟨hchecksum, h⟩
      exact ⟨first, hchecksum, by rw [if_pos rfl]; exact ih.mpr h⟩

theorem areSnapshotsEqual_true {tag : String} {id : PackId} {ids : List PackId} :
    areSnapshotsEqual crates ord dd (id :: ids) tag = .ok true ↔
      ∃ first, ∀ q ∈ id :: ids, checksumIn crates ord dd tag q = .ok first := by
  simp only [areSnapshotsEqual, Exec.bind_eq_ok, allChecksumsAre_true, List.forall_mem_cons]

/-- The packs that a lookup chooses from. -/
theorem listing_hits {tag : String} {ids : List PackId} {hits : List (Option PackId)}
    (h : ids.mapM (listing crates dd tag) = .ok hits) {id : PackId} :
    id ∈ hits.reduceOption ↔ id ∈ ids ∧ Lists crates dd id tag := by
  rw [List.reduceOption_mem_iff]
  constructor
  · intro hmem
    obtain ⟨q, hq, hlisting⟩ := Exec.mem_of_mapM h hmem
    obtain ⟨tags, htags, hhit⟩ := listing_eq_ok.mp hlisting
    split_ifs at hhit with htag
    cases hhit
    exact ⟨hq, tags, htags, htag⟩
  · rintro ⟨hid, tags, htags, htag⟩
    obtain ⟨hit, hmem, hlisting⟩ := Exec.mapM_mem h hid
    obtain ⟨tags', htags', hhit⟩ := listing_eq_ok.mp hlisting
    rw [htags] at htags'
    cases htags'
    rw [if_pos htag] at hhit
    rwa [hhit]

section Choice

variable {tag : String} {p : PackId} {listed : List PackId}

theorem looseOrFirst_mem (id : PackId) (ids : List PackId) :
    ((id :: ids).find? fun id => isPackLoose crates dd id).getD id ∈ id :: ids := by
  cases hfind : (id :: ids).find? fun id => isPackLoose crates dd id with
  | none => exact List.mem_cons_self
  | some q => exact List.mem_of_find?_eq_some hfind

/-- A chosen pack is the only one to choose from, or all have one checksum. -/
theorem choosePack_ok (h : choosePack crates ord dd tag listed = .ok p) :
    p ∈ listed ∧ ((∀ q ∈ listed, q = p) ∨
      ∃ c, ∀ q ∈ listed, checksumIn crates ord dd tag q = .ok c) := by
  cases listed with
  | nil => cases h
  | cons first rest =>
    cases rest with
    | nil =>
      cases h
      exact ⟨List.mem_cons_self, .inl fun q hq => List.mem_singleton.mp hq⟩
    | cons second rest =>
      obtain ⟨equal, hequal, h⟩ := Exec.bind_eq_ok.mp h
      cases equal with
      | false => cases h
      | true =>
        cases h
        exact ⟨looseOrFirst_mem first (second :: rest), .inr (areSnapshotsEqual_true.mp hequal)⟩

theorem choosePack_of_agree (some_listed : listed ≠ []) {c : Option ObjectChecksum}
    (agree : ∀ q ∈ listed, checksumIn crates ord dd tag q = .ok c) :
    ∃ p ∈ listed, choosePack crates ord dd tag listed = .ok p := by
  cases listed with
  | nil => exact absurd rfl some_listed
  | cons first rest =>
    cases rest with
    | nil => exact ⟨first, List.mem_cons_self, rfl⟩
    | cons second rest =>
      have hequal : areSnapshotsEqual crates ord dd (first :: second :: rest) tag = .ok true :=
        areSnapshotsEqual_true.mpr ⟨c, agree⟩
      have hchosen : choosePack crates ord dd tag (first :: second :: rest) =
          .ok (((first :: second :: rest).find? fun id => isPackLoose crates dd id).getD first) := by
        simp only [choosePack, disambiguateSnapshot, hequal, Exec.ok_bind, if_true]
      exact ⟨_, looseOrFirst_mem first (second :: rest), hchosen⟩

end Choice

/-- What a successful lookup says about all the packs. -/
theorem findPackWithSnapshot_ok {tag : String} {p : PackId}
    (h : findPackWithSnapshot crates ord dd tag = .ok p) :
    ∃ ids, packs crates dd = .ok ids ∧
      (∀ q ∈ ids, ∃ tags, loadIndexSnapshots crates dd q = .ok tags) ∧
      p ∈ ids ∧ Lists crates dd p tag ∧
      ((∀ q ∈ ids, Lists crates dd q tag → q = p) ∨
        ∃ c, ∀ q ∈ ids, Lists crates dd q tag → checksumIn crates ord dd tag q = .ok c) := by
  obtain ⟨ids, hids, h⟩ := Exec.bind_eq_ok.mp h
  obtain ⟨hits, hhits, h⟩ := Exec.bind_eq_ok.mp h
  have mem {q : PackId} : q ∈ hits.reduceOption ↔ q ∈ ids ∧ Lists crates dd q tag :=
    listing_hits hhits
  have loads : ∀ q ∈ ids, ∃ tags, loadIndexSnapshots crates dd q = .ok tags := fun q hq => by
    obtain ⟨hit, -, hlisting⟩ := Exec.mapM_mem hhits hq
    obtain ⟨tags, htags, -⟩ := listing_eq_ok.mp hlisting
    exact ⟨tags, htags⟩
  obtain ⟨hpmem, hchosen⟩ := choosePack_ok h
  obtain ⟨hp, hlists⟩ := mem.mp hpmem
  refine ⟨ids, hids, loads, hp, hlists, ?_⟩
  rcases hchosen with hsingle | ⟨c, hc⟩
  · exact .inl fun q hq hlist => hsingle q (mem.mpr ⟨hq, hlist⟩)
  · exact .inr ⟨c, fun q hq hlist => hc q (mem.mpr ⟨hq, hlist⟩)⟩

/-- A lookup succeeds where some pack lists the tag and all that do agree. -/
theorem findPackWithSnapshot_of_agree {tag : String} {ids : List PackId}
    (hids : packs crates dd = .ok ids)
    (loads : ∀ q ∈ ids, ∃ tags, loadIndexSnapshots crates dd q = .ok tags)
    (some_lists : ∃ q ∈ ids, Lists crates dd q tag) {c : Option ObjectChecksum}
    (agree : ∀ q ∈ ids, Lists crates dd q tag → checksumIn crates ord dd tag q = .ok c) :
    ∃ p ∈ ids, Lists crates dd p tag ∧ findPackWithSnapshot crates ord dd tag = .ok p := by
  obtain ⟨hits, hhits⟩ := Exec.mapM_exists (f := listing crates dd tag) fun q hq => by
    obtain ⟨tags, htags⟩ := loads q hq
    exact ⟨_, listing_eq_ok.mpr ⟨tags, htags, rfl⟩⟩
  have mem {q : PackId} : q ∈ hits.reduceOption ↔ q ∈ ids ∧ Lists crates dd q tag :=
    listing_hits hhits
  obtain ⟨q, hq⟩ := some_lists
  obtain ⟨p, hpmem, hchosen⟩ := choosePack_of_agree (List.ne_nil_of_mem (mem.mpr hq))
    fun q hq => agree q (mem.mp hq).1 (mem.mp hq).2
  obtain ⟨hp, hlists⟩ := mem.mp hpmem
  refine ⟨p, hp, hlists, ?_⟩
  rw [findPackWithSnapshot, hids, Exec.ok_bind, hhits, Exec.ok_bind, hchosen]

section Frame

variable {dd' : DataDir}

/-- What the packs directory does not change is found as before. -/
theorem packs_frame (h : dd'.packs = dd.packs) : packs crates dd' = packs crates dd := by
  rw [packs, packs, h]

theorem isPackLoose_frame (h : dd'.packs = dd.packs) :
    isPackLoose crates dd' = isPackLoose crates dd := by
  funext id
  rw [isPackLoose, isPackLoose, h]

theorem loosePacks_frame (h : dd'.packs = dd.packs) :
    loosePacks crates dd' = loosePacks crates dd := by
  rw [loosePacks, loosePacks, packs_frame h, isPackLoose_frame h, h]

end Frame

end Facts

end Elfshaker.Store
