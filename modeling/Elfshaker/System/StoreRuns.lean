import Elfshaker.Remote.UsableIds

namespace Elfshaker.System

open Elfshaker.Library Elfshaker.Format Elfshaker.Store Elfshaker.Packs Elfshaker.Remote

section Collection

variable (crates : Crates) (ord : IterOrder FileHandle) (orders : GcOrders) (opts : GcOptions)
  (dd : DataDir)

/-- The states that a collection which deletes goes through, one deletion after another. Of
the pack that comes next the index may be gone, with some of its directories. -/
inductive Collecting : DataDir → Prop where
  | snapshots {roots removed rest roots' : List PackId} {mid : DataDir}
      (selected : opts.looseSnapshots = true) (hroots : loosePacks crates dd = .ok roots)
      (redundant : findRedundantLoosePacks crates ord orders dd = .ok (removed ++ rest))
      (collected : collectSnapshots crates false dd roots removed = .ok (mid, roots')) :
      Collecting mid
  | index {roots removed rest roots' : List PackId} {id : PackId} {mid : DataDir}
      {tree packs : DirTree} (dirs : Nat)
      (selected : opts.looseSnapshots = true) (hroots : loosePacks crates dd = .ok roots)
      (redundant : findRedundantLoosePacks crates ord orders dd = .ok (removed ++ id :: rest))
      (collected : collectSnapshots crates false dd roots removed = .ok (mid, roots'))
      (deleted : mid.packs.removeFile id.indexPath = .ok tree)
      (emptied : tree.removeEmptyDirs
        ((DirTree.ancestors id.indexPath).tail.reverse.take dirs) = .ok packs) :
      Collecting { mid with packs }
  | objects {roots : List PackId} {objects : HashSet ObjectChecksum}
      {removed rest : List ObjectChecksum} {mid dd' : DataDir}
      (phase : gcSnapshots crates ord orders opts dd = .ok (mid, roots))
      (unreferenced : findUnreferencedObjects crates mid roots = .ok objects)
      (visited : objects.iter orders.objects = removed ++ rest)
      (collected : collectObjects false mid removed = .ok dd') : Collecting dd'

end Collection

section Pruned

variable {crates : Crates} {ord : IterOrder FileHandle} {orders : GcOrders} {opts : GcOptions}
  {dd dd' mid : DataDir}

/-- Indexes have gone, and objects that no loose index is left for. -/
structure Pruned (crates : Crates) (dd dd' : DataDir) : Prop where
  indexes : ∀ (id : PackId) bytes, (id.indexPath, bytes) ∈ dd'.packs.files →
    (id.indexPath, bytes) ∈ dd.packs.files
  packs : ∀ (id : PackId) bytes, (id.packPath, bytes) ∈ dd.packs.files →
    (id.packPath, bytes) ∈ dd'.packs.files
  objects : ∀ checksum bytes, (looseObjectPath checksum, bytes) ∈ dd'.loose.files →
    (looseObjectPath checksum, bytes) ∈ dd.loose.files
  kept : ∀ checksum bytes, Referenced crates dd' checksum →
    (looseObjectPath checksum, bytes) ∈ dd.loose.files →
      (looseObjectPath checksum, bytes) ∈ dd'.loose.files

theorem Pruned.of_without {removed : List PackId} (h : Without dd removed dd') :
    Pruned crates dd dd' where
  indexes := fun _ _ hfile => ((h.files _).mp hfile).1
  packs := fun id bytes hfile => (h.files _).mpr
    ⟨hfile, fun other _ => (Packs.indexPath_ne_packPath other id).symm⟩
  objects := fun checksum bytes hfile => by rwa [h.loose] at hfile
  kept := fun checksum bytes _ hfile => by rwa [h.loose]

theorem isSome_stripPrefix_loose {id : PackId}
    (h : (Text.stripPrefix loosePrefix id.name).isSome = true) :
    ∃ name, id = PackId.looseOf name := by
  obtain ⟨name, hname⟩ := Option.isSome_iff_exists.mp h
  exact ⟨name, congrArg PackId.mk (Text.stripPrefix_eq_some.mp hname)⟩

variable {zstd : Zstd} {content : ObjectChecksum → List UInt8} {torn : PackId → Prop}

/-- What is left describes data that is left. -/
theorem Pruned.sound (h : Pruned crates dd dd') (sound : Sound crates zstd content torn dd) :
    Sound crates zstd content torn dd' := by
  refine ⟨fun checksum bytes hfile => sound.objects checksum bytes (h.objects _ _ hfile),
    fun id bytes hfile hbytes htorn => ?_⟩
  obtain ⟨index, hparse, hpresent⟩ := sound.indexes id bytes (h.indexes id bytes hfile) hbytes htorn
  refine ⟨index, hparse, ?_⟩
  unfold DataPresent at hpresent ⊢
  split_ifs at hpresent ⊢ with hloose
  · obtain ⟨name, rfl⟩ := isSome_stripPrefix_loose hloose
    intro handle checksum hlookup
    obtain ⟨metadata, hmetadata, hheld⟩ := hpresent handle checksum hlookup
    refine ⟨metadata, hmetadata, hheld.imp_right fun hobject => ?_⟩
    obtain ⟨stored, hopen, hrest⟩ := hobject
    have hreferenced : Referenced crates dd' checksum :=
      ⟨name, bytes, index, hfile, hparse, EntryPool.lookup_mem hlookup⟩
    exact ⟨stored, openLooseObject_eq_ok.mpr
      (h.kept _ _ hreferenced (openLooseObject_eq_ok.mp hopen)), hrest⟩
  · obtain ⟨header, frames, hpack, hdescribes⟩ := hpresent
    exact ⟨header, frames, h.packs id _ hpack, hdescribes⟩

theorem Pruned.canonical {disk disk' : Disk} (h : Pruned crates disk.dataDir disk'.dataDir)
    (canonical : Canonical crates disk) : Canonical crates disk' :=
  fun id bytes hfile => canonical id bytes (h.indexes id bytes hfile)

theorem not_isValidRegular_looseOf (name : String) :
    ¬ PackId.isValidRegular (PackId.looseOf name).name = true := by
  intro h
  simp only [PackId.isValidRegular, Bool.and_eq_true, Option.isNone_iff_eq_none] at h
  have hprefix := h.1.2
  rw [PackId.looseOf, Text.stripPrefix_append] at hprefix
  cases hprefix

/-- Under canonical names every loose index is a root. -/
theorem canonical_rooted {disk : Disk} (canonical : Canonical crates disk) {ids : List PackId}
    (hids : packs crates disk.dataDir = .ok ids) : Rooted crates ord opts disk.dataDir ids := by
  intro name bytes index c hfile hstays hparse hc _
  obtain ⟨found, hfound⟩ := packs_ok_iff.mp ⟨ids, hids⟩ _ hfile
  obtain ⟨tag, hload, hvalid, -⟩ := (discover_loose rfl).mp hfound
  obtain rfl : tag = name := by
    rcases canonical _ _ hfile with hregular | ⟨other, hother, -, htags⟩
    · exact absurd hregular (not_isValidRegular_looseOf name)
    · rw [PackId.looseOf_injective hother]
      exact List.singleton_inj.mp (htags _ hload)
  have hlisted : PackId.looseOf tag ∈ ids :=
    (mem_packs hids).mpr ⟨_, hfile, (discover_loose rfl).mpr ⟨tag, hload, hvalid, rfl⟩⟩
  have hloose : isPackLoose crates disk.dataDir (PackId.looseOf tag) = true :=
    isPackLoose_iff.mpr ⟨tag, rfl, hvalid, present_of_file hfile⟩
  have hopen : openIndex crates disk.dataDir (PackId.looseOf tag) = .ok bytes :=
    openIndex_eq_ok.mpr ⟨PackId.validate_looseOf.mpr hvalid, hfile⟩
  exact ⟨_, index, ⟨hlisted, hloose, hstays⟩, loadIndex_eq_ok.mpr ⟨bytes, hopen, hparse⟩, hc⟩

theorem collectSnapshots_without {roots removed rest rest' : List PackId}
    (redundant : findRedundantLoosePacks crates ord orders dd = .ok (removed ++ rest))
    (h : collectSnapshots crates false dd roots removed = .ok (mid, rest')) :
    Without dd removed mid := by
  obtain ⟨ids, hids, -⟩ := Exec.bind_eq_ok.mp redundant
  obtain ⟨-, hloose, -⟩ := findRedundantLoosePacks_ok hids redundant
  refine (collectSnapshots_ok (fun id hid => ?_) h).2.2.1
  obtain ⟨tag, htag, -⟩ := (hloose id).mp (List.mem_append_left _ hid)
  exact ⟨tag, htag⟩

/-- The index of one more pack goes, and directories that are empty. -/
theorem without_deleteIndex {removed : List PackId} {id : PackId} {tree packs : DirTree}
    {dirs : List String} (h : Without dd removed mid)
    (deleted : mid.packs.removeFile id.indexPath = .ok tree)
    (emptied : tree.removeEmptyDirs dirs = .ok packs) :
    Without dd (removed ++ [id]) { mid with packs } := by
  obtain ⟨-, rfl⟩ := DirTree.removeFile_eq_ok.mp deleted
  refine ⟨fun file => ?_, h.loose, h.head⟩
  rw [DirTree.removeEmptyDirs_files emptied, DirTree.mem_files_erase, h.files, and_assoc,
    List.forall_mem_append, List.forall_mem_singleton]

/-- Wherever a collection under canonical names stops, it has only pruned. -/
theorem Collecting.pruned {disk : Disk} (canonical : Canonical crates disk)
    (hdry : opts.dryRun = false) (h : Collecting crates ord orders opts disk.dataDir dd') :
    Pruned crates disk.dataDir dd' := by
  cases h with
  | snapshots _ _ redundant collected =>
    exact .of_without (collectSnapshots_without redundant collected)
  | index dirs _ _ redundant collected deleted emptied =>
    exact .of_without
      (without_deleteIndex (collectSnapshots_without redundant collected) deleted emptied)
  | @objects roots objects removed rest mid _ phase unreferenced visited collected =>
    obtain ⟨ids, hphase⟩ := gcSnapshots_phase hdry phase
    obtain ⟨-, mem⟩ := findUnreferencedObjects_ok unreferenced
    have hpacks : dd'.packs = mid.packs := by rw [collectObjects_frame collected]
    refine ⟨fun id bytes hfile => ?_, fun id bytes hfile => ?_, fun c bytes hfile => ?_,
      fun c bytes hreferenced hfile => ?_⟩
    · rw [hpacks] at hfile
      exact ((hphase.files _).mp hfile).1
    · rw [hpacks]
      exact (hphase.files _).mpr ⟨hfile, fun other _ => (Packs.indexPath_ne_packPath other id).symm⟩
    · rw [← hphase.loose]
      exact ((collectObjects_files collected).mp hfile).1
    · rw [Referenced, hpacks] at hreferenced
      obtain ⟨name, stored, index, hindex, hstays, hparse, hc⟩ := hphase.referenced_iff.mp hreferenced
      obtain ⟨id, index', hroot, hload, hc'⟩ := canonical_rooted canonical hphase.discovered name
        stored index c hindex hstays hparse hc ⟨bytes, hfile⟩
      refine (collectObjects_files collected).mpr ⟨by rwa [hphase.loose], fun c' hc'' hpath => ?_⟩
      have hunreferenced : c' ∈ objects :=
        (HashSet.mem_iter _).mp (visited ▸ List.mem_append_left rest hc'')
      rw [← looseObjectPath_injective hpath, mem] at hunreferenced
      exact hunreferenced.2 id ((hphase.roots id).mpr hroot) index'
        ((hphase.loadIndex_root hroot).mpr hload) hc'

/-- A collection that succeeds has come to the end of what it goes through. -/
theorem gc_collecting (hdry : opts.dryRun = false) (h : gc crates ord orders opts dd = .ok dd') :
    Collecting crates ord orders opts dd dd' := by
  unfold gc at h
  split_ifs at h with hnothing hobjects
  · cases h
  · obtain ⟨⟨mid, roots⟩, hphase, h⟩ := Exec.bind_eq_ok.mp h
    obtain ⟨objects, hfound, h⟩ := Exec.bind_eq_ok.mp h
    rw [hdry] at h
    exact .objects hphase hfound (List.append_nil _).symm h
  · obtain ⟨⟨mid, roots⟩, hphase, h⟩ := Exec.bind_eq_ok.mp h
    cases h
    have hsnapshots : opts.looseSnapshots = true := by
      simpa [Bool.eq_false_of_not_eq_true hobjects] using hnothing
    obtain ⟨loose, hloose, hphase⟩ := Exec.bind_eq_ok.mp hphase
    rw [if_pos hsnapshots, hdry] at hphase
    obtain ⟨redundant, hredundant, hphase⟩ := Exec.bind_eq_ok.mp hphase
    have hwhole : redundant = redundant ++ [] := (List.append_nil _).symm
    exact .snapshots hsnapshots hloose (hwhole ▸ hredundant) hphase

end Pruned

section Runs

variable (crates : Crates) (writer : RmpWriter) (packWriter : PackWriter)
  (content : ObjectChecksum → List UInt8)

/-- The disks that calls lead to, each with its own failures, and collections that come to an
end or not, with the packs that the calls have torn. -/
inductive StoreRuns (start : Disk) : (PackId → Prop) → Disk → Prop where
  | start : StoreRuns start (fun _ => False) start
  | publish {torn : PackId → Prop} {disk : Disk} (before : StoreRuns start torn disk)
      (ord : IterOrder FileHandle) (command : Command) (faults : List (Option Fault))
      (fit : command.Fit crates content disk.dataDir) (tagged : Tagged crates command) :
      StoreRuns start (fun id => torn id ∨ command.Tears writer packWriter ⟨disk, faults⟩ id)
        (command.call crates writer packWriter ord ⟨disk, faults⟩).2.state
  | collect {torn : PackId → Prop} {disk : Disk} (before : StoreRuns start torn disk)
      (ord : IterOrder FileHandle) (orders : GcOrders) (opts : GcOptions) (dataDir : DataDir)
      (deletes : opts.dryRun = false)
      (h : Collecting crates ord orders opts disk.dataDir dataDir) :
      StoreRuns start torn ⟨dataDir, disk.clock + 1⟩

variable {crates writer packWriter content}

/-- What holds of a disk between two calls. -/
structure Orderly (crates : Crates) (zstd : Zstd) (content : ObjectChecksum → List UInt8)
    (torn : PackId → Prop) (disk : Disk) : Prop where
  sound : Sound crates zstd content torn disk.dataDir
  canonical : Canonical crates disk
  regular : ∀ id, torn id → Text.stripPrefix loosePrefix id.name = none

theorem StoreRuns.orderly (laws : writer.ReadBackBy crates.rmp) (hzstd : packWriter.zstd.Inverts)
    (empty : content .zero = []) {start disk : Disk} {torn : PackId → Prop}
    (orderly : Orderly crates packWriter.zstd content (fun _ => False) start)
    (runs : StoreRuns crates writer packWriter content start torn disk) :
    Orderly crates packWriter.zstd content torn disk := by
  induction runs with
  | start => exact orderly
  | publish before ord command faults fit tagged ih =>
    exact ⟨Command.call_sound laws hzstd empty ih.regular fit ih.sound,
      (keeps_call_canonical laws ord tagged).state ih.canonical,
      fun id htorn => htorn.elim (ih.regular id) Command.tears_regular⟩
  | collect before ord orders opts dataDir deletes h ih =>
    have hpruned := h.pruned ih.canonical deletes
    exact ⟨hpruned.sound ih.sound, hpruned.canonical ih.canonical, ih.regular⟩

/-- Whatever is published and collected, and wherever that stops, every index that is not empty
loads and is about data that is there, but for the indexes of torn packs; and a collection of
objects that succeeds leaves just those that some loose index is about. -/
theorem store_runs_lose_nothing (laws : writer.ReadBackBy crates.rmp)
    (hzstd : packWriter.zstd.Inverts) (empty : content .zero = []) {start disk : Disk}
    {torn : PackId → Prop}
    (orderly : Orderly crates packWriter.zstd content (fun _ => False) start)
    (runs : StoreRuns crates writer packWriter content start torn disk) :
    Consistent crates packWriter.zstd Placeholder torn disk.dataDir ∧
      ∀ (ord : IterOrder FileHandle) (orders : GcOrders) (opts : GcOptions) (dd' : DataDir),
        opts.dryRun = false → opts.looseObjects = true →
        gc crates ord orders opts disk.dataDir = .ok dd' → ∀ checksum bytes,
          (looseObjectPath checksum, bytes) ∈ dd'.loose.files ↔
            (looseObjectPath checksum, bytes) ∈ disk.dataDir.loose.files ∧
              Referenced crates dd' checksum := by
  have horderly := runs.orderly laws hzstd empty orderly
  refine ⟨horderly.sound.indexes, fun ord orders opts dd' hdry hobjects h checksum bytes => ?_⟩
  obtain ⟨ids, hswept⟩ := gc_swept hobjects hdry h
  have hrooted : Rooted crates ord opts disk.dataDir ids :=
    canonical_rooted horderly.canonical hswept.discovered
  rw [hswept.kept]
  refine and_congr_right fun hfile => ⟨?_, fun hreferenced => ?_⟩
  · rintro ⟨id, index, hroot, hload, hc⟩
    exact hswept.root_referenced hroot hload hc
  · obtain ⟨name, stored, index, hindex, hstays, hparse, hc⟩ :=
      (hswept.referenced checksum).mp hreferenced
    exact hrooted name stored index checksum hindex hstays hparse hc ⟨bytes, hfile⟩

/-- The data of an index that loads is there. -/
theorem Orderly.present {zstd : Zstd} {torn : PackId → Prop} {disk : Disk}
    (h : Orderly crates zstd content torn disk) {id : PackId} (whole : ¬ torn id)
    {index : PackIndex} (hload : loadIndex crates disk.dataDir id = .ok index) :
    DataPresent crates zstd Placeholder disk.dataDir id index := by
  obtain ⟨bytes, hopen, hparse⟩ := loadIndex_eq_ok.mp hload
  have hbytes : bytes ≠ [] := by
    rintro rfl
    rw [PackIndex.parse_empty] at hparse
    cases hparse
  obtain ⟨index', hparse', hpresent⟩ :=
    h.sound.indexes id bytes (openIndex_eq_ok.mp hopen).2 hbytes whole
  rw [hparse] at hparse'
  cases hparse'
  exact hpresent

end Runs

namespace CollectedSample

open CrashSample

def orders : GcOrders := ⟨.insertion, .insertion⟩

def opts : GcOptions := ⟨false, true, true⟩

theorem orderly_empty :
    Orderly crates packWriter.zstd content (fun _ => False) CrashSample.empty :=
  ⟨sound_empty, nofun, fun _ h => h.elim⟩

theorem runs_stored : ∃ torn,
    StoreRuns crates messagePackWriter packWriter content CrashSample.empty torn stored := by
  have hvalid : SnapshotId.isValid crates.unicode CreationSample.snapshot.tag = true := by rfl
  exact ⟨_, .publish .start .insertion (createSnapshot (.regular [7] 420)) []
    (fit_createSnapshot _ fun _ h => (Option.some.inj h).symm) hvalid⟩

theorem runs_packed : ∃ torn,
    StoreRuns crates messagePackWriter packWriter content CrashSample.empty torn packed := by
  obtain ⟨torn, runs⟩ := runs_stored
  exact ⟨_, .publish runs .insertion (.createPack ([1], [2]) pack (made old) CrashSample.opts) []
    fit_old trivial⟩

theorem gc_packed : ∃ dd', gc crates .insertion orders opts packed.dataDir = .ok dd' := by
  have hok : (gc crates .insertion orders opts packed.dataDir).toOption.isSome = true := by rfl
  cases hgc : gc crates .insertion orders opts packed.dataDir with
  | ok dd' => exact ⟨dd', rfl⟩
  | error e =>
    rw [hgc] at hok
    cases hok

def entries : List Triple := [⟨.x, CrashSample.digest [7], .regular 420⟩]

end CollectedSample

/-- A snapshot that is packed is collected with its object. -/
theorem store_runs_lose_nothing_packed : ∃ torn dd',
    gc CrashSample.crates .insertion CollectedSample.orders CollectedSample.opts
      CrashSample.packed.dataDir = .ok dd' ∧
    Consistent CrashSample.crates CrashSample.packWriter.zstd Placeholder torn dd' := by
  obtain ⟨torn, runs⟩ := CollectedSample.runs_packed
  obtain ⟨dd', hgc⟩ := CollectedSample.gc_packed
  have hruns := runs.collect .insertion CollectedSample.orders CollectedSample.opts dd' rfl
    (gc_collecting rfl hgc)
  exact ⟨torn, dd', hgc, (store_runs_lose_nothing messagePack_readBack PackSample.zstd_inverts
    (by decide) CollectedSample.orderly_empty hruns).1⟩

end Elfshaker.System
