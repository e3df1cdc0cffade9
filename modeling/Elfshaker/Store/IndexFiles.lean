import Elfshaker.Store.CreateSnapshot
import Mathlib.Data.List.Find

namespace Elfshaker.Store

open Elfshaker.Library Elfshaker.Format

/-- What discovery takes for the index of a pack. -/
def IsIndexPath (path : String) : Prop := (PackId.fromIndexPath path).isSome = true

instance : DecidablePred IsIndexPath := fun path =>
  inferInstanceAs (Decidable ((PackId.fromIndexPath path).isSome = true))

theorem isIndexPath_indexPath (id : PackId) : IsIndexPath id.indexPath := by
  rw [IsIndexPath, PackId.fromIndexPath_eq_some.mpr rfl]
  rfl

theorem isIndexPath_last {path : String} (h : IsIndexPath path) :
    path.toList.getLast? = some 'x' := by
  obtain ⟨id, hid⟩ := Option.isSome_iff_exists.mp h
  rw [PackId.fromIndexPath_eq_some.mp hid, PackId.indexPath, String.toList_append,
    List.getLast?_append]
  rfl

/-- The name of a temporary file ends in a hexadecimal digit, or in the mark. -/
theorem temp_last (file : AtomicCreateFile) {d : Char} (hd : ∀ n < 16, Nat.digitChar n ≠ d)
    (hmark : d ≠ '_') : file.temp.toList.getLast? ≠ some d := by
  intro hlast
  have hofList : (String.ofList (hexEncode file.random)).toList = hexEncode file.random :=
    String.toList_ofList
  rw [AtomicCreateFile.temp, createTempPath, String.toList_append, String.toList_append, hofList,
    List.getLast?_append, List.getLast?_append] at hlast
  cases hhex : (hexEncode file.random).getLast? with
  | none =>
    have hend : ".elfshakertmp_".toList.getLast? = some '_' := by decide
    rw [hhex, hend] at hlast
    exact hmark (Option.some.inj hlast).symm
  | some c =>
    rw [hhex] at hlast
    exact hexEncode_ne hd (List.mem_of_getLast? hhex) (Option.some.inj hlast)

/-- A temporary file is not taken for an index. -/
theorem not_isIndexPath_temp (file : AtomicCreateFile) : ¬ IsIndexPath file.temp := by
  intro h
  have hdigit : ∀ n < 16, Nat.digitChar n ≠ 'x' := by decide
  exact temp_last file hdigit (by decide) (isIndexPath_last h)

theorem packPath_last (id : PackId) : id.packPath.toList.getLast? = some 'k' := by
  have hk : dotPackExtension.toList.getLast? = some 'k' := by decide
  rw [PackId.packPath, String.toList_append, List.getLast?_append, hk]
  rfl

theorem not_isIndexPath_packPath (id : PackId) : ¬ IsIndexPath id.packPath := by
  intro h
  have hlast := isIndexPath_last h
  rw [packPath_last] at hlast
  cases hlast

theorem temp_ne_packPath (file : AtomicCreateFile) (id : PackId) : id.packPath ≠ file.temp := by
  intro h
  have hdigit : ∀ n < 16, Nat.digitChar n ≠ 'k' := by decide
  exact temp_last file hdigit (by decide) (h ▸ packPath_last id)

/-- The index files of a data directory are those of another, and one path that
holds some bytes. -/
def HoldsIndex (dd : DataDir) (path : String) (bytes : List UInt8) (dd' : DataDir) : Prop :=
  ∀ p b, IsIndexPath p →
    ((p, b) ∈ dd'.packs.files ↔ if p = path then b = bytes else (p, b) ∈ dd.packs.files)

/-- Two data directories have the same index files. -/
def SameIndexes (dd dd' : DataDir) : Prop :=
  ∀ p b, IsIndexPath p → ((p, b) ∈ dd'.packs.files ↔ (p, b) ∈ dd.packs.files)

theorem SameIndexes.refl (dd : DataDir) : SameIndexes dd dd := fun _ _ _ => Iff.rfl

theorem SameIndexes.symm {dd dd' : DataDir} (h : SameIndexes dd dd') : SameIndexes dd' dd :=
  fun p b hp => (h p b hp).symm

theorem HoldsIndex.trans_same {dd dd' dd'' : DataDir} {path : String} {bytes : List UInt8}
    (h : HoldsIndex dd path bytes dd') (hsame : SameIndexes dd' dd'') :
    HoldsIndex dd path bytes dd'' :=
  fun p b hp => (hsame p b hp).trans (h p b hp)

theorem HoldsIndex.mem {dd dd' : DataDir} {path : String} {bytes : List UInt8}
    (h : HoldsIndex dd path bytes dd') (hpath : IsIndexPath path) :
    (path, bytes) ∈ dd'.packs.files :=
  (h path bytes hpath).mpr (by rw [if_pos rfl])

/-- An index that was there with the same bytes is not a change. -/
theorem HoldsIndex.same_of_mem {dd dd' : DataDir} {path : String} {bytes : List UInt8}
    (h : HoldsIndex dd path bytes dd') (hmem : (path, bytes) ∈ dd.packs.files) :
    SameIndexes dd dd' := by
  intro p b hp
  rw [h p b hp]
  split_ifs with heq
  · subst heq
    exact ⟨fun hb => hb ▸ hmem, fun hb => DirTree.files_unique hb hmem⟩
  · rfl

section Observation

variable {crates : Crates} {ord : IterOrder FileHandle} {dd dd' : DataDir}

/-- A file that discovery does not understand. -/
def Unreadable (crates : Crates) (file : String × List UInt8) : Prop :=
  ¬ ∃ found, discover crates file = .ok found

theorem Unreadable.isIndexPath {file : String × List UInt8} (h : Unreadable crates file) :
    IsIndexPath file.1 := by
  by_contra hother
  rw [IsIndexPath, Bool.not_eq_true, Option.isSome_eq_false_iff, Option.isNone_iff_eq_none] at hother
  exact h ⟨none, discover_other hother⟩

theorem isIndexPath_of_discover {file : String × List UInt8} {id : PackId}
    (h : discover crates file = .ok (some id)) : IsIndexPath file.1 := by
  by_contra hother
  rw [IsIndexPath, Bool.not_eq_true, Option.isSome_eq_false_iff, Option.isNone_iff_eq_none] at hother
  rw [discover_other hother] at h
  cases h

theorem packs_fail_iff : (¬ ∃ ids, packs crates dd = .ok ids) ↔
    ∃ file ∈ dd.packs.files, Unreadable crates file := by
  rw [packs_ok_iff]
  simp only [not_forall, Unreadable, exists_prop]

/-- An empty file cannot be the index of a loose snapshot. -/
theorem unreadable_empty_loose (tag : String) :
    Unreadable crates ((PackId.looseOf tag).indexPath, []) := by
  rintro ⟨found, h⟩
  obtain ⟨_, hload, -⟩ := (discover_loose rfl).mp h
  rw [PackIndex.loadOnlySnapshots_empty] at hload
  cases hload

/-- What one file adds to the packs. -/
def discovered (crates : Crates) (file : String × List UInt8) : Option PackId :=
  match discover crates file with
  | .ok found => found
  | .error _ => none

theorem discovered_other {file : String × List UInt8} (h : ¬ IsIndexPath file.1) :
    discovered crates file = none := by
  rw [IsIndexPath, Bool.not_eq_true, Option.isSome_eq_false_iff, Option.isNone_iff_eq_none] at h
  rw [discovered, discover_other h]

def indexFiles (dd : DataDir) : List (String × List UInt8) :=
  dd.packs.files.filter fun file => IsIndexPath file.1

theorem indexFiles_nodup (dd : DataDir) : (indexFiles dd).Nodup :=
  (List.Nodup.of_map _ dd.packs.files_nodup).filter _

theorem mem_indexFiles {file : String × List UInt8} :
    file ∈ indexFiles dd ↔ file ∈ dd.packs.files ∧ IsIndexPath file.1 := by
  simp [indexFiles]

theorem packs_eq_ok {ids : List PackId} (h : packs crates dd = .ok ids) :
    ids = sortIds ((indexFiles dd).filterMap (discovered crates)) := by
  obtain ⟨found, hfound, hids⟩ := Exec.bind_eq_ok.mp h
  cases hids
  have hmap : found = dd.packs.files.map (discovered crates) :=
    Exec.mapM_eq_map hfound fun file id hid => by rw [discovered, hid]
  have hskip (files : List (String × List UInt8)) : (files.map (discovered crates)).reduceOption =
      (files.filter fun file => IsIndexPath file.1).filterMap (discovered crates) := by
    induction files with
    | nil => rfl
    | cons file files ih =>
      by_cases hindex : IsIndexPath file.1
      · rw [List.filter_cons_of_pos (by simpa using hindex), List.filterMap_cons, List.map_cons]
        cases discovered crates file with
        | none => exact ih
        | some id => exact congrArg (id :: ·) ih
      · rw [List.filter_cons_of_neg (by simpa using hindex), List.map_cons, discovered_other hindex]
        exact ih
  rw [hmap, hskip]
  rfl

/-- Each index file that is understood stands for a pack. -/
theorem packs_length {ids : List PackId} (h : packs crates dd = .ok ids) :
    ids.length = (indexFiles dd).length := by
  have hall := packs_ok_iff.mp ⟨ids, h⟩
  rw [packs_eq_ok h, sortIds, (List.perm_insertionSort _ _).length_eq]
  have hsome : ∀ file ∈ indexFiles dd, (discovered crates file).isSome := by
    intro file hfile
    obtain ⟨hmem, hindex⟩ := mem_indexFiles.mp hfile
    obtain ⟨found, hfound⟩ := hall file hmem
    obtain ⟨id, hid⟩ := Option.isSome_iff_exists.mp hindex
    rw [discovered, hfound]
    cases hloose : (Text.stripPrefix loosePrefix id.name) with
    | none =>
      rw [discover_regular (PackId.fromIndexPath_eq_some.mp hid) hloose] at hfound
      cases hfound
      rfl
    | some name =>
      have hid' : id = PackId.looseOf name :=
        PackId.mk.injEq .. |>.mpr (Text.stripPrefix_eq_some.mp hloose)
      subst hid'
      obtain ⟨_, _, _, rfl⟩ := (discover_loose (PackId.fromIndexPath_eq_some.mp hid)).mp hfound
      rfl
  clear h hall
  generalize indexFiles dd = files at hsome
  induction files with
  | nil => rfl
  | cons file files ih =>
    obtain ⟨id, hid⟩ := Option.isSome_iff_exists.mp (hsome file List.mem_cons_self)
    rw [List.filterMap_cons, hid]
    simpa using ih fun f hf => hsome f (List.mem_cons_of_mem _ hf)

theorem sortIds_perm {ids ids' : List PackId} (h : ids.Perm ids') : sortIds ids = sortIds ids' := by
  have hsorted (ids : List PackId) : (sortIds ids).Pairwise fun a b => a.name ≤ b.name := by
    have htotal : Std.Total fun a b : PackId => a.name ≤ b.name :=
      ⟨fun a b => String.le_total a.name b.name⟩
    have htrans : IsTrans PackId fun a b => a.name ≤ b.name :=
      ⟨fun _ _ _ hab hbc => String.le_trans hab hbc⟩
    exact List.pairwise_insertionSort _ ids
  have hperm : (sortIds ids).Perm (sortIds ids') :=
    (List.perm_insertionSort _ _).trans (h.trans (List.perm_insertionSort _ _).symm)
  refine hperm.eq_of_pairwise (fun a b _ _ hab hba => ?_) (hsorted ids) (hsorted ids')
  exact congrArg PackId.mk (String.le_antisymm hab hba)

/-- What the callers of `packs` and `find_snapshot` get for the tags that are not
their own: a result, or that there is none. -/
def Unchanged (crates : Crates) (ord : IterOrder FileHandle) (own : List String)
    (dd dd' : DataDir) : Prop :=
  (packs crates dd').toOption = (packs crates dd).toOption ∧
    ∀ tag, tag ∉ own →
      (findSnapshot crates ord dd' tag).toOption = (findSnapshot crates ord dd tag).toOption

theorem toOption_congr {α : Type} {ε : Type} {x y : Except ε α} (h : ∀ a, x = .ok a ↔ y = .ok a) :
    x.toOption = y.toOption := by
  cases x with
  | ok a => rw [(h a).mp rfl]
  | error e =>
    cases y with
    | ok b => cases (h b).mpr rfl
    | error e => rfl

theorem ok_iff_of_toOption {α : Type} {ε : Type} {x y : Except ε α} (h : x.toOption = y.toOption)
    {a : α} : x = .ok a ↔ y = .ok a := by
  cases x <;> cases y <;> simp_all [Except.toOption]

section Same

variable (same : SameIndexes dd dd')

include same

theorem SameIndexes.packs_ok (ids : List PackId) (h : packs crates dd = .ok ids) :
    packs crates dd' = .ok ids := by
  have hall := packs_ok_iff.mp ⟨ids, h⟩
  obtain ⟨ids', h'⟩ : ∃ ids', packs crates dd' = .ok ids' := by
    refine packs_ok_iff.mpr fun file hfile => ?_
    by_cases hindex : IsIndexPath file.1
    · exact hall file ((same _ _ hindex).mp hfile)
    · by_contra hunreadable
      exact hindex (Unreadable.isIndexPath hunreadable)
  have hperm : (indexFiles dd').Perm (indexFiles dd) := by
    refine (List.perm_ext_iff_of_nodup (indexFiles_nodup _) (indexFiles_nodup _)).mpr fun file => ?_
    rw [mem_indexFiles, mem_indexFiles]
    exact and_congr_left fun hindex => same _ _ hindex
  rw [h', packs_eq_ok h', packs_eq_ok h, sortIds_perm (hperm.filterMap _)]

theorem SameIndexes.openIndex_ok (id : PackId) (bytes : List UInt8) :
    openIndex crates dd' id = .ok bytes ↔ openIndex crates dd id = .ok bytes := by
  rw [openIndex_eq_ok, openIndex_eq_ok, same _ _ (isIndexPath_indexPath id)]

theorem SameIndexes.loadIndexSnapshots_ok (id : PackId) (tags : List String) :
    loadIndexSnapshots crates dd' id = .ok tags ↔ loadIndexSnapshots crates dd id = .ok tags := by
  simp only [loadIndexSnapshots_eq_ok, same.openIndex_ok]

theorem SameIndexes.checksumIn_eq : checksumIn crates ord dd' = checksumIn crates ord dd := by
  have hload (id : PackId) (index : PackIndex) :
      loadIndex crates dd' id = .ok index ↔ loadIndex crates dd id = .ok index := by
    simp only [loadIndex_eq_ok, same.openIndex_ok]
  funext tag id
  unfold checksumIn
  cases h : loadIndex crates dd id with
  | ok index => rw [(hload id index).mpr h]
  | error e =>
    cases h' : loadIndex crates dd' id with
    | ok index =>
      rw [(hload id index).mp h'] at h
      cases h
    | error e => rfl

theorem SameIndexes.areSnapshotsEqual_eq (tag : String) (ids : List PackId) :
    areSnapshotsEqual crates ord dd' ids tag = areSnapshotsEqual crates ord dd ids tag := by
  have hall (first : Option ObjectChecksum) (ids : List PackId) :
      allChecksumsAre crates ord dd' tag first ids = allChecksumsAre crates ord dd tag first ids := by
    induction ids with
    | nil => rfl
    | cons id ids ih => rw [allChecksumsAre, allChecksumsAre, same.checksumIn_eq, ih]
  cases ids with
  | nil => rfl
  | cons id ids => simp only [areSnapshotsEqual, same.checksumIn_eq, hall]

/-- A pack whose index is there is loose in both directories or in none. -/
theorem SameIndexes.isPackLoose_eq {id : PackId} {bytes : List UInt8}
    (h : (id.indexPath, bytes) ∈ dd.packs.files) :
    isPackLoose crates dd' id = isPackLoose crates dd id := by
  have hpresent {tree : DirTree} (hfile : (id.indexPath, bytes) ∈ tree.files) :
      tree.present id.indexPath = true := by
    obtain ⟨mtime, hlookup⟩ := DirTree.mem_files.mp hfile
    rw [DirTree.present, hlookup]
    rfl
  rw [isPackLoose, isPackLoose, hpresent h,
    hpresent ((same _ _ (isIndexPath_indexPath id)).mpr h)]

theorem SameIndexes.choosePack_eq (tag : String) {ids : List PackId}
    (h : ∀ id ∈ ids, ∃ bytes, (id.indexPath, bytes) ∈ dd.packs.files) :
    choosePack crates ord dd' tag ids = choosePack crates ord dd tag ids := by
  match ids with
  | [] => rfl
  | [id] => rfl
  | id :: next :: rest =>
    have hfind : (id :: next :: rest).find? (fun id => isPackLoose crates dd' id) =
        (id :: next :: rest).find? fun id => isPackLoose crates dd id := by
      refine List.find?_congr fun q hq => ?_
      obtain ⟨bytes, hbytes⟩ := h q hq
      rw [same.isPackLoose_eq hbytes]
    simp only [choosePack, disambiguateSnapshot, same.areSnapshotsEqual_eq, hfind]

theorem SameIndexes.findPackWithSnapshot_ok (tag : String) (p : PackId)
    (h : findPackWithSnapshot crates ord dd tag = .ok p) :
    findPackWithSnapshot crates ord dd' tag = .ok p := by
  obtain ⟨ids, hids, h⟩ := Exec.bind_eq_ok.mp h
  obtain ⟨hits, hhits, h⟩ := Exec.bind_eq_ok.mp h
  have hhits' : ids.mapM (listing crates dd' tag) = .ok hits := by
    refine Exec.mapM_eq_ok.mpr ((Exec.mapM_eq_ok.mp hhits).imp fun id found hfound => ?_)
    obtain ⟨tags, htags, rfl⟩ := listing_eq_ok.mp hfound
    exact listing_eq_ok.mpr ⟨tags, (same.loadIndexSnapshots_ok id tags).mpr htags, rfl⟩
  have hfiles : ∀ id ∈ hits.reduceOption, ∃ bytes, (id.indexPath, bytes) ∈ dd.packs.files := by
    intro id hid
    obtain ⟨-, tags, htags, -⟩ := (listing_hits hhits).mp hid
    obtain ⟨bytes, hbytes, -⟩ := loadIndexSnapshots_eq_ok.mp htags
    exact ⟨bytes, (openIndex_eq_ok.mp hbytes).2⟩
  rw [findPackWithSnapshot, same.packs_ok ids hids, Exec.ok_bind, hhits', Exec.ok_bind,
    same.choosePack_eq tag hfiles, h]

omit same in
/-- A lookup depends on the directory only through the pack it finds. -/
theorem findSnapshot_congr {tag : String}
    (h : ∀ p, findPackWithSnapshot crates ord dd' tag = .ok p ↔
      findPackWithSnapshot crates ord dd tag = .ok p) :
    (findSnapshot crates ord dd' tag).toOption = (findSnapshot crates ord dd tag).toOption := by
  apply toOption_congr
  intro id
  unfold findSnapshot
  cases SnapshotId.fromStr crates.unicode tag with
  | ok id => rfl
  | error e => simp only [Exec.bind_eq_ok, h]

/-- Packs and snapshots are found through the index files alone. -/
theorem SameIndexes.unchanged (own : List String) : Unchanged crates ord own dd dd' := by
  refine ⟨toOption_congr fun ids => ⟨same.symm.packs_ok ids, same.packs_ok ids⟩, fun tag _ => ?_⟩
  exact findSnapshot_congr fun p =>
    ⟨same.symm.findPackWithSnapshot_ok tag p, same.findPackWithSnapshot_ok tag p⟩

end Same

/-- Where nothing could be found before, nothing is found after. -/
theorem unchanged_of_unreadable {own : List String} {file file' : String × List UInt8}
    (hfile : file ∈ dd.packs.files) (h : Unreadable crates file)
    (hfile' : file' ∈ dd'.packs.files) (h' : Unreadable crates file') :
    Unchanged crates ord own dd dd' := by
  have hfail := packs_fail_iff.mpr ⟨file, hfile, h⟩
  have hfail' := packs_fail_iff.mpr ⟨file', hfile', h'⟩
  refine ⟨toOption_congr fun ids => ⟨fun h => absurd ⟨ids, h⟩ hfail', fun h => absurd ⟨ids, h⟩ hfail⟩,
    fun tag _ => findSnapshot_congr fun p => ⟨fun h => ?_, fun h => ?_⟩⟩
  · obtain ⟨ids, hids, -⟩ := findPackWithSnapshot_ok h
    exact absurd ⟨ids, hids⟩ hfail'
  · obtain ⟨ids, hids, -⟩ := findPackWithSnapshot_ok h
    exact absurd ⟨ids, hids⟩ hfail

theorem Unchanged.packs_ok {own : List String} (h : Unchanged crates ord own dd dd')
    {ids : List PackId} : packs crates dd' = .ok ids ↔ packs crates dd = .ok ids :=
  ok_iff_of_toOption h.1

end Observation

end Elfshaker.Store
