import Elfshaker.Store.GcTags

namespace Elfshaker.Store

open Elfshaker.Library Elfshaker.Format

variable {crates : Crates} {ord : IterOrder FileHandle} {dd dd' : DataDir}

theorem hexEncode_separator (bytes : List UInt8) : '/' ∉ hexEncode bytes :=
  fun h => hexEncode_ne (by decide) h rfl

/-- The path of an object spells its checksum. -/
theorem looseObjectChecksum_path (checksum : ObjectChecksum) :
    looseObjectChecksum (looseObjectPath checksum) = .ok checksum := by
  obtain ⟨bytes, hlength⟩ := checksum
  match bytes, hlength with
  | b :: c :: rest, hlength =>
    have hpath : (looseObjectPath ⟨b :: c :: rest, hlength⟩).toList =
        ['/'].intercalate [hexEncode [b], hexEncode [c], hexEncode rest] := by
      simp [looseObjectPath, hexEncode, List.intercalate]
    have hsplit : (looseObjectPath ⟨b :: c :: rest, hlength⟩).toList.splitOn '/' =
        [hexEncode [b], hexEncode [c], hexEncode rest] := by
      rw [hpath]
      refine List.splitOn_intercalate '/' (fun component hcomponent => ?_) (by simp)
      simp only [List.mem_cons, List.not_mem_nil, or_false] at hcomponent
      rcases hcomponent with rfl | rfl | rfl <;> exact hexEncode_separator _
    simp only [looseObjectChecksum, hsplit, List.reverse_cons, List.reverse_nil, List.nil_append,
      List.cons_append, hexDecode_hexEncode, hlength, dif_pos]

theorem looseObjectPath_injective {c c' : ObjectChecksum}
    (h : looseObjectPath c = looseObjectPath c') : c = c' := by
  have hc := looseObjectChecksum_path c
  rw [h, looseObjectChecksum_path c'] at hc
  exact (Except.ok.inj hc).symm

theorem mem_foldl_remove {α : Type} [DecidableEq α] {xs : List α} {s : HashSet α} {y : α} :
    y ∈ xs.foldl (fun s x => (s.remove x).1) s ↔ y ∈ s ∧ y ∉ xs := by
  induction xs generalizing s with
  | nil => simp
  | cons x xs ih =>
    rw [List.foldl_cons, ih, HashSet.mem_remove, List.mem_cons, not_or, and_assoc]

/-- What is not referenced is on disk and in none of the roots. -/
theorem findUnreferencedObjects_ok {roots : List PackId} {objects : HashSet ObjectChecksum}
    (h : findUnreferencedObjects crates dd roots = .ok objects) :
    (∀ id ∈ roots, ∃ index, loadIndex crates dd id = .ok index) ∧
      ∀ c, c ∈ objects ↔ (∃ file ∈ dd.loose.files, looseObjectChecksum file.1 = .ok c) ∧
        ∀ id ∈ roots, ∀ index, loadIndex crates dd id = .ok index →
          c ∉ index.objectPool.entries := by
  obtain ⟨onDisk, honDisk, h⟩ := Exec.bind_eq_ok.mp h
  obtain ⟨indexes, hindexes, h⟩ := Exec.bind_eq_ok.mp h
  cases h
  refine ⟨fun id hid => ?_, fun c => ?_⟩
  · obtain ⟨index, -, hload⟩ := Exec.mapM_mem hindexes hid
    exact ⟨index, hload⟩
  · rw [mem_foldl_remove, HashSet.mem_ofList, List.mem_flatMap]
    refine and_congr ?_ ?_
    · constructor
      · exact fun hmem => Exec.mem_of_mapM honDisk hmem
      · rintro ⟨file, hfile, hok⟩
        obtain ⟨c', hmem, hok'⟩ := Exec.mapM_mem honDisk hfile
        rw [hok] at hok'
        cases hok'
        exact hmem
    · constructor
      · intro hnone id hid index hload hc
        obtain ⟨index', hmem, hload'⟩ := Exec.mapM_mem hindexes hid
        rw [hload] at hload'
        cases hload'
        exact hnone ⟨index, hmem, hc⟩
      · rintro hall ⟨index, hmem, hc⟩
        obtain ⟨id, hid, hload⟩ := Exec.mem_of_mapM hindexes hmem
        exact hall id hid index hload hc

/-- The objects that are handed over are deleted, and no other file. -/
theorem collectObjects_files {objects : List ObjectChecksum}
    (h : collectObjects false dd objects = .ok dd') {file : String × List UInt8} :
    file ∈ dd'.loose.files ↔
      file ∈ dd.loose.files ∧ ∀ c ∈ objects, file.1 ≠ looseObjectPath c := by
  induction objects generalizing dd with
  | nil =>
    cases h
    simp
  | cons c objects ih =>
    obtain ⟨_, -, h⟩ := Exec.bind_eq_ok.mp h
    obtain ⟨mid, hmid, h⟩ := Exec.bind_eq_ok.mp h
    obtain ⟨tree, htree, hmid⟩ := Exec.bind_eq_ok.mp hmid
    rw [Exec.mapError_eq_ok, DirTree.removeFile_eq_ok] at htree
    obtain ⟨-, rfl⟩ := htree
    cases hmid
    obtain ⟨path, bytes⟩ := file
    rw [ih h, DirTree.mem_files_erase, List.forall_mem_cons, and_assoc]

/-- An index file below `packs/loose`, at whatever name, has the object in its pool. -/
def Referenced (crates : Crates) (dd : DataDir) (c : ObjectChecksum) : Prop :=
  ∃ name bytes index, ((PackId.looseOf name).indexPath, bytes) ∈ dd.packs.files ∧
    PackIndex.parse crates.rmp bytes = .ok index ∧ c ∈ index.objectPool.entries

/-- The snapshot phase, where it runs, deletes the index of this pack. -/
def Removes (crates : Crates) (ord : IterOrder FileHandle) (opts : GcOptions) (dd : DataDir)
    (ids : List PackId) (id : PackId) : Prop :=
  opts.looseSnapshots = true ∧ ∃ tag, id = PackId.looseOf tag ∧ Redundant crates ord dd ids tag

/-- A loose pack that is a root of the object phase. -/
structure Root (crates : Crates) (ord : IterOrder FileHandle) (opts : GcOptions) (dd : DataDir)
    (ids : List PackId) (id : PackId) : Prop where
  listed : id ∈ ids
  loose : isPackLoose crates dd id = true
  stays : ¬ Removes crates ord opts dd ids id

/-- Every object on disk that a loose index file refers to is in an index that the
tag of some loose index file leads back to. -/
def Rooted (crates : Crates) (ord : IterOrder FileHandle) (opts : GcOptions) (dd : DataDir)
    (ids : List PackId) : Prop :=
  ∀ name bytes index c, ((PackId.looseOf name).indexPath, bytes) ∈ dd.packs.files →
    ¬ Removes crates ord opts dd ids (PackId.looseOf name) →
    PackIndex.parse crates.rmp bytes = .ok index → c ∈ index.objectPool.entries →
    (∃ content, (looseObjectPath c, content) ∈ dd.loose.files) →
      ∃ id index', Root crates ord opts dd ids id ∧ loadIndex crates dd id = .ok index' ∧
        c ∈ index'.objectPool.entries

theorem mem_foldl_erase {α : Type} [BEq α] [LawfulBEq α] {xs removed : List α} {x : α}
    (once : ∀ r ∈ removed, xs.count r ≤ 1) :
    x ∈ removed.foldl List.erase xs ↔ x ∈ xs ∧ x ∉ removed := by
  induction removed generalizing xs with
  | nil => simp
  | cons r removed ih =>
    have hrest : ∀ r' ∈ removed, (xs.erase r).count r' ≤ 1 := fun r' hr' =>
      le_trans (List.erase_sublist.count_le r') (once r' (List.mem_cons_of_mem _ hr'))
    rw [List.foldl_cons, ih hrest, List.mem_cons, not_or, ← and_assoc]
    refine and_congr_left fun _ => ?_
    by_cases hx : x = r
    · subst hx
      have hnone : x ∉ xs.erase x := by
        have := once x List.mem_cons_self
        rw [← List.count_eq_zero, List.count_erase_self]
        omega
      simp [hnone]
    · rw [List.mem_erase_of_ne hx]
      exact (and_iff_left hx).symm

/-- What the snapshot phase leaves to the object phase. -/
structure Phase (crates : Crates) (ord : IterOrder FileHandle) (opts : GcOptions) (dd : DataDir)
    (ids : List PackId) (mid : DataDir) (rest : List PackId) : Prop where
  discovered : packs crates dd = .ok ids
  loose : mid.loose = dd.loose
  files : ∀ file, file ∈ mid.packs.files ↔ file ∈ dd.packs.files ∧
    ∀ id, Removes crates ord opts dd ids id → file.1 ≠ id.indexPath
  roots : ∀ id, id ∈ rest ↔ Root crates ord opts dd ids id

theorem gcSnapshots_phase {orders : GcOrders} {opts : GcOptions} {mid : DataDir}
    {rest : List PackId} (hdry : opts.dryRun = false)
    (h : gcSnapshots crates ord orders opts dd = .ok (mid, rest)) :
    ∃ ids, Phase crates ord opts dd ids mid rest := by
  obtain ⟨roots, hroots, hphase⟩ := Exec.bind_eq_ok.mp h
  obtain ⟨ids, hids, hsorted⟩ := Exec.bind_eq_ok.mp hroots
  have hperm : roots.Perm (ids.filter fun id => isPackLoose crates dd id) := by
    cases hsorted
    exact List.perm_insertionSort _ _
  have mem_roots (id : PackId) : id ∈ roots ↔ id ∈ ids ∧ isPackLoose crates dd id = true := by
    rw [hperm.mem_iff, List.mem_filter]
  refine ⟨ids, ?_⟩
  cases hsnapshots : opts.looseSnapshots with
  | false =>
    simp only [hsnapshots, Bool.false_eq_true, if_false] at hphase
    cases hphase
    have hnone (id : PackId) : ¬ Removes crates ord opts dd ids id := fun hremoves => by
      rw [Removes, hsnapshots] at hremoves
      cases hremoves.1
    refine ⟨hids, rfl, fun file => ?_, fun id => ?_⟩
    · exact (and_iff_left fun id hremoves => absurd hremoves (hnone id)).symm
    · rw [mem_roots]
      exact ⟨fun hid => ⟨hid.1, hid.2, hnone id⟩, fun hid => ⟨hid.listed, hid.loose⟩⟩
  | true =>
    obtain ⟨ids', removed, hcollected, hrest⟩ := gcSnapshots_collected hsnapshots hdry hroots h
    have hsame := hcollected.discovered
    rw [hids] at hsame
    cases hsame
    have mem_removed (id : PackId) : id ∈ removed ↔ Removes crates ord opts dd ids id := by
      rw [hcollected.redundant, Removes, hsnapshots]
      exact (and_iff_right rfl).symm
    refine ⟨hids, hcollected.without.loose, fun file => ?_, fun id => ?_⟩
    · rw [hcollected.without.files]
      simp only [mem_removed]
    · have honce : ∀ r ∈ removed, roots.count r ≤ 1 := fun r hr => by
        rw [hperm.count_eq]
        exact le_trans (List.filter_sublist.count_le r) (hcollected.once r hr)
      rw [hrest, mem_foldl_erase honce, mem_roots, mem_removed, and_assoc]
      exact ⟨fun hid => ⟨hid.1, hid.2.1, hid.2.2⟩, fun hid => ⟨hid.listed, hid.loose, hid.stays⟩⟩

namespace Phase

variable {opts : GcOptions} {ids rest : List PackId} {mid : DataDir}

/-- A root reads after the snapshot phase what it read before. -/
theorem loadIndex_root (h : Phase crates ord opts dd ids mid rest) {id : PackId}
    (hroot : Root crates ord opts dd ids id) {index : PackIndex} :
    loadIndex crates mid id = .ok index ↔ loadIndex crates dd id = .ok index := by
  have hopen (bytes : List UInt8) :
      openIndex crates mid id = .ok bytes ↔ openIndex crates dd id = .ok bytes := by
    rw [openIndex_eq_ok, openIndex_eq_ok, h.files]
    refine and_congr_right fun _ => and_iff_left fun id' hremoves hpath => hroot.stays ?_
    rwa [PackId.indexPath_injective hpath]
  simp only [loadIndex_eq_ok, hopen]

/-- A loose index file that is left, in terms of the state before. -/
theorem referenced_iff (h : Phase crates ord opts dd ids mid rest) {c : ObjectChecksum} :
    Referenced crates mid c ↔ ∃ name bytes index,
      ((PackId.looseOf name).indexPath, bytes) ∈ dd.packs.files ∧
      ¬ Removes crates ord opts dd ids (PackId.looseOf name) ∧
      PackIndex.parse crates.rmp bytes = .ok index ∧ c ∈ index.objectPool.entries := by
  refine exists_congr fun name => exists_congr fun bytes => exists_congr fun index => ?_
  rw [h.files, and_assoc]
  refine and_congr_right fun _ => and_congr_left fun _ => ?_
  constructor
  · exact fun hkept hremoves => hkept _ hremoves rfl
  · exact fun hstays id hremoves hpath => hstays (PackId.indexPath_injective hpath ▸ hremoves)

end Phase

/-- What a collection of objects has done when it deletes and succeeds. -/
structure Swept (crates : Crates) (ord : IterOrder FileHandle) (opts : GcOptions) (dd : DataDir)
    (ids : List PackId) (dd' : DataDir) : Prop where
  discovered : packs crates dd = .ok ids
  loads : ∀ id, Root crates ord opts dd ids id → ∃ index, loadIndex crates dd id = .ok index
  referenced : ∀ c, Referenced crates dd' c ↔ ∃ name bytes index,
    ((PackId.looseOf name).indexPath, bytes) ∈ dd.packs.files ∧
    ¬ Removes crates ord opts dd ids (PackId.looseOf name) ∧
    PackIndex.parse crates.rmp bytes = .ok index ∧ c ∈ index.objectPool.entries
  kept : ∀ c content, (looseObjectPath c, content) ∈ dd'.loose.files ↔
    (looseObjectPath c, content) ∈ dd.loose.files ∧ ∃ id index, Root crates ord opts dd ids id ∧
      loadIndex crates dd id = .ok index ∧ c ∈ index.objectPool.entries

/-- An object file stays when a root has its checksum, whatever else is there. -/
theorem gc_swept {orders : GcOrders} {opts : GcOptions} (hobjects : opts.looseObjects = true)
    (hdry : opts.dryRun = false) (h : gc crates ord orders opts dd = .ok dd') :
    ∃ ids, Swept crates ord opts dd ids dd' := by
  obtain ⟨mid, rest, hmid, objects, hfound, hcollect⟩ : ∃ mid rest,
      gcSnapshots crates ord orders opts dd = .ok (mid, rest) ∧ ∃ objects,
        findUnreferencedObjects crates mid rest = .ok objects ∧
          collectObjects false mid (objects.iter orders.objects) = .ok dd' := by
    rw [gc, hobjects, hdry] at h
    simp only [Bool.not_true, Bool.and_false, Bool.false_eq_true, if_false, if_true] at h
    obtain ⟨⟨mid, rest⟩, hmid, h⟩ := Exec.bind_eq_ok.mp h
    obtain ⟨objects, hfound, h⟩ := Exec.bind_eq_ok.mp h
    exact ⟨mid, rest, hmid, objects, hfound, h⟩
  obtain ⟨ids, hphase⟩ := gcSnapshots_phase hdry hmid
  obtain ⟨loads, mem⟩ := findUnreferencedObjects_ok hfound
  have hpacks : dd'.packs = mid.packs := by rw [collectObjects_frame hcollect]
  refine ⟨ids, hphase.discovered, fun id hroot => ?_, fun c => ?_, fun c content => ?_⟩
  · obtain ⟨index, hload⟩ := loads id ((hphase.roots id).mpr hroot)
    exact ⟨index, (hphase.loadIndex_root hroot).mp hload⟩
  · rw [← hphase.referenced_iff, Referenced, hpacks, Referenced]
  · rw [collectObjects_files hcollect, hphase.loose]
    refine and_congr_right fun hfile => ?_
    have hmem : (∀ c' ∈ objects.iter orders.objects, looseObjectPath c ≠ looseObjectPath c') ↔
        c ∉ objects := by
      constructor
      · exact fun hall hc => hall c ((HashSet.mem_iter _).mpr hc) rfl
      · intro hc c' hc' hpath
        rw [looseObjectPath_injective hpath] at hc
        exact hc ((HashSet.mem_iter _).mp hc')
    have hspelled : ∃ file ∈ mid.loose.files, looseObjectChecksum file.1 = .ok c := by
      rw [hphase.loose]
      exact ⟨(looseObjectPath c, content), hfile, looseObjectChecksum_path c⟩
    rw [hmem, mem, and_iff_right hspelled]
    constructor
    · intro hnot
      by_contra hnone
      refine hnot fun id hid index hload hc => hnone ?_
      have hroot := (hphase.roots id).mp hid
      exact ⟨id, index, hroot, (hphase.loadIndex_root hroot).mp hload, hc⟩
    · rintro ⟨id, index, hroot, hload, hc⟩ hall
      exact hall id ((hphase.roots id).mpr hroot) index ((hphase.loadIndex_root hroot).mpr hload) hc

/-- A root is itself a loose index file that is left. -/
theorem Swept.root_referenced {opts : GcOptions} {ids : List PackId}
    (h : Swept crates ord opts dd ids dd') {id : PackId} {index : PackIndex} {c : ObjectChecksum}
    (hroot : Root crates ord opts dd ids id) (hload : loadIndex crates dd id = .ok index)
    (hc : c ∈ index.objectPool.entries) : Referenced crates dd' c := by
  obtain ⟨tag, rfl, -, -⟩ := isPackLoose_iff.mp hroot.loose
  obtain ⟨bytes, hopen, hparse⟩ := loadIndex_eq_ok.mp hload
  exact (h.referenced c).mpr ⟨tag, bytes, index, (openIndex_eq_ok.mp hopen).2, hroot.stays, hparse, hc⟩

/-- A successful collection of objects deletes what no loose index file refers to
and nothing else, if and only if the roots lead to all that such files refer to. -/
theorem gc_objects_exact_iff {orders : GcOrders} {opts : GcOptions}
    (hobjects : opts.looseObjects = true) (hdry : opts.dryRun = false)
    (h : gc crates ord orders opts dd = .ok dd') :
    ((∀ c content, Referenced crates dd' c → (looseObjectPath c, content) ∈ dd.loose.files →
        (looseObjectPath c, content) ∈ dd'.loose.files) ∧
      ∀ c content, ¬ Referenced crates dd' c → (looseObjectPath c, content) ∉ dd'.loose.files) ↔
      ∃ ids, packs crates dd = .ok ids ∧ Rooted crates ord opts dd ids := by
  obtain ⟨ids, hswept⟩ := gc_swept hobjects hdry h
  constructor
  · rintro ⟨sound, -⟩
    refine ⟨ids, hswept.discovered, fun name bytes index c hfile hstays hparse hc hdisk => ?_⟩
    obtain ⟨content, hcontent⟩ := hdisk
    have hreferenced := (hswept.referenced c).mpr ⟨name, bytes, index, hfile, hstays, hparse, hc⟩
    exact ((hswept.kept c content).mp (sound c content hreferenced hcontent)).2
  · rintro ⟨ids', hids', hrooted⟩
    rw [hswept.discovered] at hids'
    cases hids'
    constructor
    · intro c content hreferenced hcontent
      obtain ⟨name, bytes, index, hfile, hstays, hparse, hc⟩ := (hswept.referenced c).mp hreferenced
      exact (hswept.kept c content).mpr
        ⟨hcontent, hrooted name bytes index c hfile hstays hparse hc ⟨content, hcontent⟩⟩
    · intro c content hnot hkept
      obtain ⟨-, id, index, hroot, hload, hc⟩ := (hswept.kept c content).mp hkept
      exact hnot (hswept.root_referenced hroot hload hc)

namespace CollectionSample

def looseObjects : GcOptions := ⟨false, false, true⟩

/-- The index of tag `b` alone, at some name below `packs/loose`, with its object. -/
def unpacked (path : String) : DataDir where
  packs := [("loose", .dir), (path, .file (index 98) 1)].foldl
    (fun tree node => tree.insert node.1 node.2) ∅
  loose := [("da", .dir), ("da/39", .dir), (looseObjectPath emptyObject, .file [] 1)].foldl
    (fun tree node => tree.insert node.1 node.2) ∅
  head := none

end CollectionSample

/-- An index under the name of its tag keeps its object. -/
theorem gc_objects_exact_canonical : ∃ dd', gc CollectionSample.sampleCrates
      CollectionSample.sampleOrd CollectionSample.orders CollectionSample.looseObjects
      (CollectionSample.unpacked "loose/b.pack.idx") = .ok dd' ∧
    (((∀ c content, Referenced CollectionSample.sampleCrates dd' c →
        (looseObjectPath c, content) ∈ (CollectionSample.unpacked "loose/b.pack.idx").loose.files →
        (looseObjectPath c, content) ∈ dd'.loose.files) ∧
      ∀ c content, ¬ Referenced CollectionSample.sampleCrates dd' c →
        (looseObjectPath c, content) ∉ dd'.loose.files) ↔
      ∃ ids, packs CollectionSample.sampleCrates (CollectionSample.unpacked "loose/b.pack.idx") =
          .ok ids ∧ Rooted CollectionSample.sampleCrates CollectionSample.sampleOrd
            CollectionSample.looseObjects (CollectionSample.unpacked "loose/b.pack.idx") ids) := by
  obtain ⟨dd', hgc⟩ : ∃ dd', gc CollectionSample.sampleCrates CollectionSample.sampleOrd
      CollectionSample.orders CollectionSample.looseObjects
      (CollectionSample.unpacked "loose/b.pack.idx") = .ok dd' := ⟨_, rfl⟩
  exact ⟨dd', hgc, gc_objects_exact_iff rfl rfl hgc⟩

/-- An index under another name than that of its tag is no root, and loses its object. -/
theorem gc_deletes_referenced : ¬ ∀ (crates : Crates) (ord : IterOrder FileHandle)
    (orders : GcOrders) (opts : GcOptions) (dd dd' : DataDir),
    opts.looseObjects = true → opts.dryRun = false → gc crates ord orders opts dd = .ok dd' →
    (∀ c content, Referenced crates dd' c → (looseObjectPath c, content) ∈ dd.loose.files →
        (looseObjectPath c, content) ∈ dd'.loose.files) ∧
      ∀ c content, ¬ Referenced crates dd' c →
        (looseObjectPath c, content) ∉ dd'.loose.files := by
  intro h
  obtain ⟨dd', hgc⟩ : ∃ dd', gc CollectionSample.sampleCrates CollectionSample.sampleOrd
      CollectionSample.orders CollectionSample.looseObjects
      (CollectionSample.unpacked "loose/foo.pack.idx") = .ok dd' := ⟨_, rfl⟩
  have hsound := (h _ _ _ _ _ dd' rfl rfl hgc).1 CollectionSample.emptyObject []
  cases hgc
  refine absurd (hsound ⟨"foo", CollectionSample.index 98, _, ?_, rfl, ?_⟩ ?_) ?_ <;> decide

end Elfshaker.Store
