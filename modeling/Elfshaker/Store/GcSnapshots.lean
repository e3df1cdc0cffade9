import Elfshaker.Store.Gc
import Mathlib.Data.List.Dedup

namespace Elfshaker.Store

open Elfshaker.Library Elfshaker.Format

variable {crates : Crates} {ord : IterOrder FileHandle} {dd dd' : DataDir}

theorem isPackLoose_iff {id : PackId} :
    isPackLoose crates dd id = true ↔
      ∃ tag, id = PackId.looseOf tag ∧ SnapshotId.isValid crates.unicode tag = true ∧
        dd.packs.present id.indexPath = true := by
  have hok : (id.validate crates.unicode).isOk = true ↔ id.validate crates.unicode = .ok () := by
    cases id.validate crates.unicode <;> simp [Except.isOk, Except.toBool]
  simp only [isPackLoose, Bool.and_eq_true, hok, Option.isSome_iff_exists, Text.stripPrefix_eq_some]
  constructor
  · rintro ⟨⟨hvalid, tag, hname⟩, hpresent⟩
    have hid : id = PackId.looseOf tag := congrArg PackId.mk hname
    subst hid
    exact ⟨tag, rfl, PackId.validate_looseOf.mp hvalid, hpresent⟩
  · rintro ⟨tag, rfl, hvalid, hpresent⟩
    exact ⟨⟨PackId.validate_looseOf.mpr hvalid, tag, rfl⟩, hpresent⟩

theorem present_of_file {tree : DirTree} {path : String} {bytes : List UInt8}
    (h : (path, bytes) ∈ tree.files) : tree.present path = true := by
  obtain ⟨mtime, hlookup⟩ := DirTree.mem_files.mp h
  simp [DirTree.present, hlookup]

/-- What is left when files are deleted from the packs directory. -/
structure Without (dd : DataDir) (removed : List PackId) (dd' : DataDir) : Prop where
  files : ∀ file, file ∈ dd'.packs.files ↔
    file ∈ dd.packs.files ∧ ∀ id ∈ removed, file.1 ≠ id.indexPath
  loose : dd'.loose = dd.loose
  head : dd'.head = dd.head

theorem Without.refl (dd : DataDir) : Without dd [] dd :=
  ⟨fun file => by simp, rfl, rfl⟩

/-- Deleting a loose pack removes its index file and nothing else. -/
theorem deletePack_loose {tag : String} (h : deletePack crates dd (PackId.looseOf tag) = .ok dd') :
    (∃ bytes, ((PackId.looseOf tag).indexPath, bytes) ∈ dd.packs.files) ∧
      Without dd [PackId.looseOf tag] dd' := by
  obtain ⟨_, hvalid, h⟩ := Exec.bind_eq_ok.mp h
  rw [Exec.mapError_eq_ok] at hvalid
  have loose_of_file {bytes : List UInt8}
      (hfile : ((PackId.looseOf tag).indexPath, bytes) ∈ dd.packs.files) :
      isPackLoose crates dd (PackId.looseOf tag) = true :=
    isPackLoose_iff.mpr ⟨tag, rfl, PackId.validate_looseOf.mp hvalid, present_of_file hfile⟩
  dsimp only at h
  split_ifs at h with hboth hneither hloose
  · cases h
  · cases h
  · obtain ⟨tree, htree, h⟩ := Exec.bind_eq_ok.mp h
    rw [Exec.mapError_eq_ok, DirTree.removeFile_eq_ok] at htree
    obtain ⟨hfile, rfl⟩ := htree
    obtain ⟨tree, htree, h⟩ := Exec.bind_eq_ok.mp h
    rw [Exec.mapError_eq_ok] at htree
    cases h
    refine ⟨hfile, fun file => ?_, rfl, rfl⟩
    rw [DirTree.removeEmptyDirs_files htree, DirTree.mem_files_erase, List.forall_mem_singleton]
  · obtain ⟨tree, htree, h⟩ := Exec.bind_eq_ok.mp h
    rw [Exec.mapError_eq_ok, DirTree.removeFile_eq_ok] at htree
    obtain ⟨⟨bytes, hfile⟩, rfl⟩ := htree
    exact absurd (loose_of_file hfile) hloose

/-- A collection that deletes finds every index once, and leaves the others. -/
theorem collectSnapshots_ok {roots ids rest : List PackId}
    (loose : ∀ id ∈ ids, ∃ tag, id = PackId.looseOf tag)
    (h : collectSnapshots crates false dd roots ids = .ok (dd', rest)) :
    ids.Nodup ∧ (∀ id ∈ ids, ∃ bytes, (id.indexPath, bytes) ∈ dd.packs.files) ∧
      Without dd ids dd' ∧ rest = ids.foldl List.erase roots := by
  induction ids generalizing dd roots with
  | nil =>
    cases h
    exact ⟨.nil, by simp, .refl _, rfl⟩
  | cons id ids ih =>
    obtain ⟨_, -, h⟩ := Exec.bind_eq_ok.mp h
    obtain ⟨_, -, h⟩ := Exec.bind_eq_ok.mp h
    obtain ⟨mid, hmid, h⟩ := Exec.bind_eq_ok.mp h
    obtain ⟨tag, rfl⟩ := loose id List.mem_cons_self
    obtain ⟨hfile, hwithout⟩ := deletePack_loose hmid
    obtain ⟨hnodup, hfiles, hwithout', hrest⟩ :=
      ih (fun id hid => loose id (List.mem_cons_of_mem _ hid)) h
    have hnew : PackId.looseOf tag ∉ ids := fun hmem => by
      obtain ⟨bytes, hbytes⟩ := hfiles _ hmem
      exact ((hwithout.files _).mp hbytes).2 _ List.mem_cons_self rfl
    refine ⟨List.nodup_cons.mpr ⟨hnew, hnodup⟩, List.forall_mem_cons.mpr ⟨hfile, ?_⟩, ⟨?_, ?_, ?_⟩,
      hrest⟩
    · intro id hid
      obtain ⟨bytes, hbytes⟩ := hfiles id hid
      exact ⟨bytes, ((hwithout.files _).mp hbytes).1⟩
    · intro file
      rw [hwithout'.files, hwithout.files, List.forall_mem_singleton, List.forall_mem_cons]
      exact and_assoc
    · exact hwithout'.loose.trans hwithout.loose
    · exact hwithout'.head.trans hwithout.head

/-- A snapshot of a pack and its checksum. -/
def HasChecksum (crates : Crates) (ord : IterOrder FileHandle) (dd : DataDir) (id : PackId)
    (tag : String) (checksum : ObjectChecksum) : Prop :=
  ∃ index, loadIndex crates dd id = .ok index ∧ tag ∈ index.snapshotTags ∧
    index.computeSnapshotChecksum (ε := Error) crates.sha1 ord tag = .ok (some checksum)

theorem HasChecksum.unique {id : PackId} {tag : String} {c c' : ObjectChecksum}
    (h : HasChecksum crates ord dd id tag c) (h' : HasChecksum crates ord dd id tag c') : c = c' := by
  obtain ⟨index, hload, -, hc⟩ := h
  obtain ⟨index', hload', -, hc'⟩ := h'
  rw [hload] at hload'
  cases hload'
  rw [hc] at hc'
  cases hc'
  rfl

theorem HasChecksum.lists {id : PackId} {tag : String} {c : ObjectChecksum}
    (h : HasChecksum crates ord dd id tag c) : Lists crates dd id tag := by
  obtain ⟨index, hload, htag, -⟩ := h
  exact ⟨_, loadIndexSnapshots_of_loadIndex hload, htag⟩

theorem HasChecksum.checksumIn {id : PackId} {tag : String} {c : ObjectChecksum}
    (h : HasChecksum crates ord dd id tag c) :
    checksumIn crates ord dd tag id = .ok (some c) := by
  obtain ⟨index, hload, -, hc⟩ := h
  rw [Store.checksumIn, hload]
  exact hc

/-- Every tag of a pack has its checksum among those of the pack. -/
theorem snapshotChecksums_ok {id : PackId} {entries : List (SnapshotId × ObjectChecksum)}
    (h : snapshotChecksums crates ord dd id = .ok entries) :
    (∀ s c, (s, c) ∈ entries ↔ s.pack = id ∧ HasChecksum crates ord dd id s.tag c) ∧
      ∀ tag, Lists crates dd id tag → ∃ c, HasChecksum crates ord dd id tag c := by
  obtain ⟨index, hload, h⟩ := Exec.bind_eq_ok.mp h
  have step {tag : String} {entry : SnapshotId × ObjectChecksum} (hstep : (do
        let found ← index.computeSnapshotChecksum (ε := Error) crates.sha1 ord tag
        let checksum ← Exec.unwrap found
        Exec.assert (SnapshotId.isValid crates.unicode tag)
        (.ok (⟨id, tag⟩, checksum) : Exec Error (SnapshotId × ObjectChecksum))) = .ok entry) :
      index.computeSnapshotChecksum (ε := Error) crates.sha1 ord tag = .ok (some entry.2) ∧
        entry.1 = ⟨id, tag⟩ := by
    obtain ⟨found, hfound, hstep⟩ := Exec.bind_eq_ok.mp hstep
    obtain ⟨checksum, hchecksum, hstep⟩ := Exec.bind_eq_ok.mp hstep
    obtain ⟨_, -, hstep⟩ := Exec.bind_eq_ok.mp hstep
    rw [Exec.unwrap_eq_ok] at hchecksum
    cases hstep
    rw [hfound, hchecksum]
    exact ⟨rfl, rfl⟩
  have every : ∀ tag ∈ index.snapshotTags, ∃ c, (⟨id, tag⟩, c) ∈ entries ∧
      HasChecksum crates ord dd id tag c := by
    intro tag htag
    obtain ⟨⟨s, c⟩, hmem, hstep⟩ := Exec.mapM_mem h (List.mem_dedup.mpr htag)
    obtain ⟨hc, rfl⟩ := step hstep
    exact ⟨c, hmem, index, hload, htag, hc⟩
  constructor
  · intro s c
    constructor
    · intro hmem
      obtain ⟨tag, htag, hstep⟩ := Exec.mem_of_mapM h hmem
      obtain ⟨hc, rfl⟩ := step hstep
      exact ⟨rfl, index, hload, List.mem_dedup.mp htag, hc⟩
    · rintro ⟨rfl, hhas⟩
      obtain ⟨index', hload', htag, -⟩ := id hhas
      rw [hload] at hload'
      cases hload'
      obtain ⟨c', hmem, hhas'⟩ := every s.tag htag
      rwa [hhas.unique hhas']
  · rintro tag ⟨tags, htags, htag⟩
    rw [loadIndexSnapshots_of_loadIndex hload] at htags
    cases htags
    obtain ⟨c, -, hhas⟩ := every tag htag
    exact ⟨c, hhas⟩

/-- The group of a checksum holds the snapshots that have it. -/
theorem lookup_addToGroup {entries : List (SnapshotId × ObjectChecksum)} {groups : Groups}
    {c : ObjectChecksum} :
    ((entries.foldl addToGroup groups).lookup c).getD [] =
      (groups.lookup c).getD [] ++ (entries.filter fun e => e.2 = c).map Prod.fst := by
  induction entries generalizing groups with
  | nil => simp
  | cons e entries ih =>
    rw [List.foldl_cons, ih, addToGroup, List.filter_cons]
    by_cases hc : e.2 = c
    · subst hc
      simp [AList.lookup_insert]
    · simp [AList.lookup_insert_ne (Ne.symm hc), hc]

theorem loosePackOf_eq_ok {s : SnapshotId} {id : PackId} :
    loosePackOf s = .ok id ↔ s.pack = PackId.looseOf s.tag ∧ id = s.pack := by
  simp only [loosePackOf, Exec.bind_eq_ok, Exec.assert_eq_ok, decide_eq_true_eq, Except.ok.injEq]
  exact ⟨fun ⟨_, h, h'⟩ => ⟨h, h'.symm⟩, fun ⟨h, h'⟩ => ⟨(), h, h'.symm⟩⟩

/-- The group that a checksum has among the snapshots of some packs. -/
theorem findDuplicateSnapshots_ok {ids : List PackId} {groups : Groups}
    (h : findDuplicateSnapshots crates ord dd ids = .ok groups) :
    (∀ id ∈ ids, ∀ tag, Lists crates dd id tag → ∃ c, HasChecksum crates ord dd id tag c) ∧
      (∀ s c, s ∈ (groups.lookup c).getD [] ↔
        s.pack ∈ ids ∧ HasChecksum crates ord dd s.pack s.tag c) ∧
      ∀ s c, HasChecksum crates ord dd s.pack s.tag c →
        ids.count s.pack ≤ ((groups.lookup c).getD []).count s := by
  obtain ⟨found, hfound, h⟩ := Exec.bind_eq_ok.mp h
  cases h
  have lookup (c : ObjectChecksum) : ((found.flatten.foldl addToGroup ∅).lookup c).getD [] =
      (found.flatten.filter fun e => e.2 = c).map Prod.fst := by
    rw [lookup_addToGroup]
    simp
  have mem (s : SnapshotId) (c : ObjectChecksum) :
      (s, c) ∈ found.flatten ↔ s.pack ∈ ids ∧ HasChecksum crates ord dd s.pack s.tag c := by
    rw [List.mem_flatten]
    constructor
    · rintro ⟨entries, hentries, hmem⟩
      obtain ⟨id, hid, hok⟩ := Exec.mem_of_mapM hfound hentries
      obtain ⟨rfl, hhas⟩ := ((snapshotChecksums_ok hok).1 s c).mp hmem
      exact ⟨hid, hhas⟩
    · rintro ⟨hid, hhas⟩
      obtain ⟨entries, hentries, hok⟩ := Exec.mapM_mem hfound hid
      exact ⟨entries, hentries, ((snapshotChecksums_ok hok).1 s c).mpr ⟨rfl, hhas⟩⟩
  refine ⟨fun id hid tag htag => ?_, fun s c => ?_, fun s c hhas => ?_⟩
  · obtain ⟨entries, -, hok⟩ := Exec.mapM_mem hfound hid
    exact (snapshotChecksums_ok hok).2 tag htag
  · rw [lookup, ← mem, List.mem_map]
    simp only [List.mem_filter, decide_eq_true_eq]
    constructor
    · rintro ⟨⟨s', c'⟩, ⟨hmem, rfl⟩, rfl⟩
      exact hmem
    · exact fun hmem => ⟨(s, c), ⟨hmem, rfl⟩, rfl⟩
  · have hflat : ids.count s.pack ≤ found.flatten.count (s, c) :=
      Exec.count_le_of_mapM hfound fun entries hok =>
        ((snapshotChecksums_ok hok).1 s c).mpr ⟨rfl, hhas⟩
    rw [lookup]
    calc ids.count s.pack ≤ found.flatten.count (s, c) := hflat
      _ = (found.flatten.filter fun e => e.2 = c).count (s, c) := by
        rw [List.count_filter (by simp)]
      _ ≤ ((found.flatten.filter fun e => e.2 = c).map Prod.fst).count s :=
        List.count_le_count_map (f := Prod.fst)

/-- A loose snapshot that the collection takes for a copy of a packed one. -/
structure Redundant (crates : Crates) (ord : IterOrder FileHandle) (dd : DataDir)
    (ids : List PackId) (tag : String) : Prop where
  listed : PackId.looseOf tag ∈ ids
  loose : isPackLoose crates dd (PackId.looseOf tag) = true
  copy : ∃ c, HasChecksum crates ord dd (PackId.looseOf tag) tag c ∧
    ∃ q ∈ ids, isPackLoose crates dd q = false ∧ ∃ u, HasChecksum crates ord dd q u c

theorem looseDuplicates_eq {group : List SnapshotId} {s q : SnapshotId} (hs : s ∈ group)
    (hq : q ∈ group) (hloose : isPackLoose crates dd s.pack = true)
    (hpacked : isPackLoose crates dd q.pack = false) :
    looseDuplicates crates dd group = group.filter fun s => isPackLoose crates dd s.pack := by
  have hne : s ≠ q := by
    rintro rfl
    rw [hloose] at hpacked
    cases hpacked
  have hsub : [s, q].Subperm group :=
    List.subperm_of_subset (by simp [hne]) (by simp [hs, hq])
  have hlen : 1 < group.length := hsub.length_le
  rw [looseDuplicates, if_pos ⟨hlen, List.any_eq_true.mpr ⟨q, hq, by rw [hpacked]; rfl⟩⟩]

theorem mem_looseDuplicates {group : List SnapshotId} {s : SnapshotId} :
    s ∈ looseDuplicates crates dd group ↔ s ∈ group ∧ isPackLoose crates dd s.pack = true ∧
      ∃ q ∈ group, isPackLoose crates dd q.pack = false := by
  constructor
  · intro h
    unfold looseDuplicates at h
    split_ifs at h with hgroup
    · obtain ⟨hs, hloose⟩ := List.mem_filter.mp h
      obtain ⟨q, hq, hpacked⟩ := List.any_eq_true.mp hgroup.2
      exact ⟨hs, hloose, q, hq, by simpa using hpacked⟩
    · cases h
  · rintro ⟨hs, hloose, q, hq, hpacked⟩
    rw [looseDuplicates_eq hs hq hloose hpacked, List.mem_filter]
    exact ⟨hs, hloose⟩

theorem lookup_of_entry {groups : Groups} {c : ObjectChecksum} {group : List SnapshotId}
    (h : ⟨c, group⟩ ∈ groups.entries) : (groups.lookup c).getD [] = group := by
  have hlookup : groups.lookup c = some group := AList.mem_lookup_iff.mpr h
  rw [hlookup, Option.getD_some]

theorem entry_of_lookup {groups : Groups} {c : ObjectChecksum} {s : SnapshotId}
    (hs : s ∈ (groups.lookup c).getD []) : ⟨c, (groups.lookup c).getD []⟩ ∈ groups.entries := by
  cases hlookup : groups.lookup c with
  | none => simp [hlookup] at hs
  | some group => exact AList.mem_lookup_iff.mp hlookup

theorem mem_duplicatesOf {groups : Groups} {s : SnapshotId} :
    s ∈ duplicatesOf crates dd groups ↔ ∃ c, s ∈ (groups.lookup c).getD [] ∧
      isPackLoose crates dd s.pack = true ∧
      ∃ q ∈ (groups.lookup c).getD [], isPackLoose crates dd q.pack = false := by
  rw [duplicatesOf, List.mem_flatMap]
  constructor
  · rintro ⟨⟨c, group⟩, hentry, hs⟩
    have hgroup := lookup_of_entry hentry
    refine ⟨c, ?_⟩
    rw [hgroup]
    exact mem_looseDuplicates.mp hs
  · rintro ⟨c, hs, h⟩
    exact ⟨_, entry_of_lookup hs, mem_looseDuplicates.mpr ⟨hs, h⟩⟩

theorem count_duplicatesOf {groups : Groups} {s q : SnapshotId} {c : ObjectChecksum}
    (hs : s ∈ (groups.lookup c).getD []) (hq : q ∈ (groups.lookup c).getD [])
    (hloose : isPackLoose crates dd s.pack = true)
    (hpacked : isPackLoose crates dd q.pack = false) :
    ((groups.lookup c).getD []).count s ≤ (duplicatesOf crates dd groups).count s := by
  have hmem : looseDuplicates crates dd ((groups.lookup c).getD []) ∈
      groups.entries.map fun group => looseDuplicates crates dd group.2 :=
    List.mem_map.mpr ⟨_, entry_of_lookup hs, rfl⟩
  have hfilter : (looseDuplicates crates dd ((groups.lookup c).getD [])).count s =
      ((groups.lookup c).getD []).count s := by
    rw [looseDuplicates_eq hs hq hloose hpacked]
    exact List.count_filter hloose
  have hflat : duplicatesOf crates dd groups =
      (groups.entries.map fun group => looseDuplicates crates dd group.2).flatten :=
    List.flatMap_def
  rw [← hfilter, hflat]
  exact (List.sublist_flatten_of_mem hmem).count_le s

/-- The packs to remove are those of the redundant snapshots, each at least as
often as it is discovered. -/
theorem findRedundantLoosePacks_ok {orders : GcOrders} {ids redundant : List PackId}
    (hids : packs crates dd = .ok ids)
    (h : findRedundantLoosePacks crates ord orders dd = .ok redundant) :
    (∀ id ∈ ids, ∀ tag, Lists crates dd id tag → ∃ c, HasChecksum crates ord dd id tag c) ∧
      (∀ id, id ∈ redundant ↔ ∃ tag, id = PackId.looseOf tag ∧ Redundant crates ord dd ids tag) ∧
      ∀ id ∈ redundant, ids.count id ≤ redundant.count id := by
  rw [findRedundantLoosePacks, hids, Exec.ok_bind] at h
  obtain ⟨groups, hgroups, h⟩ := Exec.bind_eq_ok.mp h
  obtain ⟨has, mem, count⟩ := findDuplicateSnapshots_ok hgroups
  have mem_redundant (id : PackId) : id ∈ redundant ↔
      ∃ tag, id = PackId.looseOf tag ∧ ⟨id, tag⟩ ∈ duplicatesOf crates dd groups := by
    constructor
    · intro hid
      obtain ⟨s, hs, hok⟩ := Exec.mem_of_mapM h hid
      obtain ⟨hpack, rfl⟩ := loosePackOf_eq_ok.mp hok
      exact ⟨s.tag, hpack, orders.snapshots.mem_visit.mp hs⟩
    · rintro ⟨tag, -, hmem⟩
      obtain ⟨id', hid', hok⟩ := Exec.mapM_mem h (orders.snapshots.mem_visit.mpr hmem)
      obtain ⟨-, rfl⟩ := loosePackOf_eq_ok.mp hok
      exact hid'
  refine ⟨has, fun id => ?_, fun id hid => ?_⟩
  · rw [mem_redundant]
    refine exists_congr fun tag => and_congr_right fun heq => ?_
    subst heq
    rw [mem_duplicatesOf]
    constructor
    · rintro ⟨c, hs, hloose, q, hq, hpacked⟩
      obtain ⟨hid, hhas⟩ := (mem _ c).mp hs
      obtain ⟨hqid, hqhas⟩ := (mem q c).mp hq
      exact ⟨hid, hloose, c, hhas, q.pack, hqid, hpacked, q.tag, hqhas⟩
    · rintro ⟨hid, hloose, c, hhas, q, hq, hpacked, u, hu⟩
      exact ⟨c, (mem _ c).mpr ⟨hid, hhas⟩, hloose, ⟨q, u⟩, (mem ⟨q, u⟩ c).mpr ⟨hq, hu⟩, hpacked⟩
  · obtain ⟨tag, -, hmem⟩ := (mem_redundant id).mp hid
    obtain ⟨c, hs, hloose, q, hq, hpacked⟩ := mem_duplicatesOf.mp hmem
    obtain ⟨-, hhas⟩ := (mem _ c).mp hs
    have hmapped : redundant =
        (orders.snapshots.visit (duplicatesOf crates dd groups)).map SnapshotId.pack :=
      Exec.mapM_eq_map h fun s id hok => (loosePackOf_eq_ok.mp hok).2
    calc ids.count id ≤ ((groups.lookup c).getD []).count ⟨id, tag⟩ := count ⟨id, tag⟩ c hhas
      _ ≤ (duplicatesOf crates dd groups).count ⟨id, tag⟩ := count_duplicatesOf hs hq hloose hpacked
      _ = (orders.snapshots.visit (duplicatesOf crates dd groups)).count ⟨id, tag⟩ :=
        ((orders.snapshots.perm _).count_eq _).symm
      _ ≤ redundant.count id := by
        rw [hmapped]
        exact List.count_le_count_map (f := SnapshotId.pack)

end Elfshaker.Store
