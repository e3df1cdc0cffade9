import Elfshaker.Remote.CanonicalNames
import Elfshaker.Store.UnambiguousTag

namespace Elfshaker.Remote

open Elfshaker.Library Elfshaker.Format Elfshaker.Store Elfshaker.Packs
open Elfshaker.Esi (Document MetaVersion)

/-- The call does not fail because of an identifier. -/
def NoIdError (x : Exec Error α) : Prop := ∀ e, x ≠ .error (.error (.idError e))

namespace NoIdError

theorem ok (a : α) : NoIdError (.ok a) := by
  intro e h
  cases h

theorem fail {error : Error} (h : ∀ e, error ≠ .idError e) : NoIdError (α := α) (Exec.fail error) := by
  intro e heq
  cases heq
  exact h e rfl

theorem panic : NoIdError (Exec.panic : Exec Error α) := by
  intro e h
  cases h

theorem assert (b : Bool) : NoIdError (Exec.assert b) := by
  cases b
  · exact panic
  · exact ok ()

theorem bind {x : Exec Error α} {f : α → Exec Error β} (hx : NoIdError x)
    (hf : ∀ a, x = .ok a → NoIdError (f a)) : NoIdError (x >>= f) :=
  fun e => Exec.bind_ne_error (hx e) fun a ha => hf a ha e

theorem mapM {f : α → Exec Error β} {xs : List α} (h : ∀ x ∈ xs, NoIdError (f x)) :
    NoIdError (xs.mapM f) :=
  fun e => Exec.mapM_ne_error fun x hx => h x hx e

theorem mapError {ε : Type} {f : ε → Error} {x : Exec ε α} (h : ∀ a e, f a ≠ .idError e) :
    NoIdError (x.mapError f) := by
  rcases x with (a | _) | a
  · exact fail (h a)
  · exact panic
  · exact ok a

theorem of_noError {x : Exec Error α} (h : Exec.NoError x) : NoIdError x := fun _ => h _

end NoIdError

section Lookup

variable {crates : Crates} {ord : IterOrder FileHandle} {dd : DataDir} {id : PackId}

def Valid (crates : Crates) (id : PackId) : Prop := id.validate crates.unicode = .ok ()

theorem Valid.openIndex (h : Valid crates id) : NoIdError (openIndex crates dd id) := by
  rw [Store.openIndex, h]
  exact .mapError (by simp [ioFailure])

theorem Valid.loadIndex (h : Valid crates id) : NoIdError (loadIndex crates dd id) :=
  h.openIndex.bind fun _ _ => .mapError (by simp)

theorem Valid.listing (h : Valid crates id) (tag : String) :
    NoIdError (listing crates dd tag id) :=
  (h.openIndex.bind fun _ _ => .mapError (by simp)).bind fun _ _ => .ok _

theorem noIdError_choosePack (tag : String) (ids : List PackId) :
    NoIdError (choosePack crates ord dd tag ids) := by
  match ids with
  | [] => exact .fail (by simp)
  | [id] => exact .ok id
  | id :: next :: rest =>
    refine (NoIdError.of_noError (noError_areSnapshotsEqual tag _)).bind fun equal _ => ?_
    split_ifs
    · exact .ok _
    · exact .fail (by simp)

end Lookup

/-- Every pack that is found can be opened, and nothing that goes through the packs
fails because of an identifier. -/
structure Usable (crates : Crates) (dd : DataDir) : Prop where
  ids : ∀ ids, packs crates dd = .ok ids → ∀ id ∈ ids,
    id.validate crates.unicode = .ok () ∧ dd.packs.present id.indexPath = true
  listing : NoIdError (packs crates dd)
  lookup : ∀ ord tag, NoIdError (findPackWithSnapshot crates ord dd tag)
  gc : ∀ ord orders opts, NoIdError (gc crates ord orders opts dd)

section Usable

variable {crates : Crates} {ord : IterOrder FileHandle} {dd : DataDir}

/-- What is found under canonical names has them. -/
theorem Canonical.discover {disk : Disk} (h : Canonical crates disk)
    {file : String × List UInt8} (hfile : file ∈ disk.dataDir.packs.files) :
    NoIdError (discover crates file) ∧ ∀ id, discover crates file = .ok (some id) →
      Valid crates id ∧ ∃ bytes, (id.indexPath, bytes) ∈ disk.dataDir.packs.files := by
  obtain ⟨path, bytes⟩ := file
  cases hid : PackId.fromIndexPath path with
  | none =>
    rw [discover_other hid]
    refine ⟨.ok none, fun id hid => ?_⟩
    cases hid
  | some id =>
    obtain rfl := PackId.fromIndexPath_eq_some.mp hid
    rcases h id bytes hfile with hregular | ⟨tag, rfl, hvalid, htags⟩
    · have hloose := hregular
      simp only [PackId.isValidRegular, Bool.and_eq_true, Option.isNone_iff_eq_none] at hloose
      rw [discover_regular rfl hloose.1.2]
      refine ⟨.ok _, fun id' hid' => ?_⟩
      cases hid'
      exact ⟨PackId.validate_eq_ok.mpr (.inr hregular), bytes, hfile⟩
    · constructor
      · have hloose : (Text.stripPrefix loosePrefix (PackId.looseOf tag).name).isSome = true :=
          loose_snapshotPath ⟨PackId.looseOf tag, tag⟩
        simp only [Store.discover, hid, hloose, if_true]
        refine NoIdError.bind (.mapError (by simp)) fun tags hload => ?_
        rw [htags tags (Exec.mapError_eq_ok.mp hload)]
        simp only [PackId.forLooseSnapshot, hvalid, if_true]
        exact .ok _
      · intro id hfound
        obtain ⟨tag', hload, hvalid', hid'⟩ := (discover_loose rfl).mp hfound
        obtain rfl := Option.some.inj hid'
        obtain rfl := List.singleton_inj.mp (htags _ hload)
        exact ⟨PackId.validate_looseOf.mpr hvalid', bytes, hfile⟩

theorem Canonical.packs {disk : Disk} (h : Canonical crates disk) :
    NoIdError (packs crates disk.dataDir) :=
  (NoIdError.mapM fun _ hfile => (h.discover hfile).1).bind fun _ _ => .ok _

theorem Canonical.found {disk : Disk} (h : Canonical crates disk) {ids : List PackId}
    (hids : Store.packs crates disk.dataDir = .ok ids) : ∀ id ∈ ids,
      Valid crates id ∧ disk.dataDir.packs.present id.indexPath = true := by
  intro id hid
  obtain ⟨file, hfile, hfound⟩ := (mem_packs hids).mp hid
  obtain ⟨hvalid, bytes, hindex⟩ := (h.discover hfile).2 id hfound
  obtain ⟨mtime, hlookup⟩ := DirTree.mem_files.mp hindex
  refine ⟨hvalid, ?_⟩
  rw [DirTree.present, hlookup]
  rfl

section Gc

variable {orders : GcOrders} {opts : GcOptions}

theorem noIdError_snapshotChecksums {id : PackId} (h : Valid crates id) :
    NoIdError (snapshotChecksums crates ord dd id) := by
  refine h.loadIndex.bind fun index _ => NoIdError.mapM fun tag _ => ?_
  refine (NoIdError.of_noError (noError_computeSnapshotChecksum index tag)).bind fun found _ => ?_
  refine NoIdError.bind ?_ fun checksum _ => (NoIdError.assert _).bind fun _ _ => .ok _
  cases found with
  | none => exact .panic
  | some checksum => exact .ok checksum

theorem noIdError_removeEmptyDirs (tree : DirTree) (dirs : List String) :
    NoIdError ((tree.removeEmptyDirs dirs).mapError .ioError) :=
  .mapError (by simp)

theorem noIdError_deletePack (id : PackId) : NoIdError (deletePack crates dd id) := by
  refine NoIdError.bind (.mapError (by simp)) fun _ _ => ?_
  dsimp only
  split_ifs
  · exact .fail (by simp)
  · exact .fail (by simp)
  · exact NoIdError.bind (.mapError (by simp)) fun _ _ =>
      NoIdError.bind (.mapError (by simp)) fun _ _ => .ok _
  · exact NoIdError.bind (.mapError (by simp)) fun _ _ =>
      NoIdError.bind (.mapError (by simp)) fun _ _ => .ok _

theorem noIdError_getPackDiskStats (id : PackId) : NoIdError (getPackDiskStats crates dd id) := by
  refine NoIdError.bind (.mapError (by simp)) fun _ _ => ?_
  dsimp only
  split
  · exact .fail (by simp)
  · exact .ok _

theorem noIdError_collectSnapshots (dryRun : Bool) (roots redundant : List PackId) :
    NoIdError (collectSnapshots crates dryRun dd roots redundant) := by
  induction redundant generalizing dd roots with
  | nil => exact .ok _
  | cons id rest ih =>
    refine (NoIdError.assert _).bind fun _ _ => (noIdError_getPackDiskStats id).bind fun _ _ => ?_
    dsimp only
    split_ifs
    · exact ih _
    · exact (noIdError_deletePack id).bind fun _ _ => ih _

/-- The roots that a collection keeps are among those it starts with. -/
theorem collectSnapshots_roots {dryRun : Bool} {roots redundant : List PackId}
    {result : DataDir × List PackId}
    (h : collectSnapshots crates dryRun dd roots redundant = .ok result) :
    ∀ id ∈ result.2, id ∈ roots := by
  induction redundant generalizing dd roots with
  | nil =>
    cases h
    exact fun _ hid => hid
  | cons id rest ih =>
    obtain ⟨_, -, h⟩ := Exec.bind_eq_ok.mp h
    obtain ⟨_, -, h⟩ := Exec.bind_eq_ok.mp h
    obtain ⟨dd', hrest⟩ : ∃ dd', collectSnapshots crates dryRun dd' (roots.erase id) rest =
        .ok result := by
      dsimp only at h
      split_ifs at h
      · exact ⟨_, h⟩
      · obtain ⟨dd', -, h⟩ := Exec.bind_eq_ok.mp h
        exact ⟨dd', h⟩
    exact fun other hother => List.mem_of_mem_erase (ih hrest other hother)

theorem noIdError_collectObjects (dryRun : Bool) (checksums : List ObjectChecksum) :
    NoIdError (collectObjects dryRun dd checksums) := by
  induction checksums generalizing dd with
  | nil => exact .ok _
  | cons checksum rest ih =>
    have hstats : NoIdError (getObjectDiskStats dd checksum) := by
      unfold getObjectDiskStats
      split
      · exact .ok _
      · exact .ok _
      · exact .fail (by simp)
    have hdelete : NoIdError (deleteObject dd checksum) :=
      NoIdError.bind (.mapError (by simp)) fun _ _ => .ok _
    refine hstats.bind fun _ _ => ?_
    dsimp only
    split_ifs
    · exact ih
    · exact hdelete.bind fun _ _ => ih

theorem noIdError_findUnreferencedObjects {roots : List PackId}
    (h : ∀ id ∈ roots, Valid crates id) : NoIdError (findUnreferencedObjects crates dd roots) := by
  refine NoIdError.bind (NoIdError.mapM fun file _ => ?_) fun _ _ => ?_
  · unfold looseObjectChecksum
    split
    · split
      · split_ifs
        · exact .ok _
        · exact .fail (by simp)
      · exact .fail (by simp)
    · exact .fail (by simp)
  · exact (NoIdError.mapM fun id hid => (h id hid).loadIndex).bind fun _ _ => .ok _

theorem Canonical.gc {disk : Disk} (h : Canonical crates disk) :
    NoIdError (gc crates ord orders opts disk.dataDir) := by
  have hloose : NoIdError (loosePacks crates disk.dataDir) := h.packs.bind fun _ _ => .ok _
  have hredundant : NoIdError (findRedundantLoosePacks crates ord orders disk.dataDir) := by
    refine h.packs.bind fun ids hids => NoIdError.bind ?_ fun _ _ => NoIdError.mapM fun _ _ =>
      (NoIdError.assert _).bind fun _ _ => .ok _
    exact (NoIdError.mapM fun id hid => noIdError_snapshotChecksums (h.found hids id hid).1).bind
      fun _ _ => .ok _
  have hroots : ∀ roots, loosePacks crates disk.dataDir = .ok roots →
      ∀ id ∈ roots, Valid crates id := by
    intro roots hroots id hid
    obtain ⟨ids, hids, hsorted⟩ := Exec.bind_eq_ok.mp hroots
    cases hsorted
    rw [List.mem_insertionSort] at hid
    exact (h.found hids id (List.mem_of_mem_filter hid)).1
  have hsnapshots : NoIdError (gcSnapshots crates ord orders opts disk.dataDir) := by
    refine hloose.bind fun roots _ => ?_
    split_ifs
    · exact hredundant.bind fun _ _ => noIdError_collectSnapshots _ _ _
    · exact .ok _
  have hkept : ∀ result, gcSnapshots crates ord orders opts disk.dataDir = .ok result →
      ∀ id ∈ result.2, Valid crates id := by
    intro result hresult id hid
    obtain ⟨roots, hloose, hresult⟩ := Exec.bind_eq_ok.mp hresult
    split_ifs at hresult
    · obtain ⟨redundant, -, hresult⟩ := Exec.bind_eq_ok.mp hresult
      exact hroots roots hloose id (collectSnapshots_roots hresult id hid)
    · cases hresult
      exact hroots roots hloose id hid
  unfold Store.gc
  split_ifs
  · exact .fail (by simp)
  · exact hsnapshots.bind fun result hresult =>
      (noIdError_findUnreferencedObjects (hkept result hresult)).bind fun _ _ =>
        noIdError_collectObjects _ _
  · exact hsnapshots.bind fun _ _ => .ok _

end Gc

theorem Canonical.usable {disk : Disk} (h : Canonical crates disk) : Usable crates disk.dataDir := by
  refine ⟨fun ids hids id hid => h.found hids id hid, h.packs, fun ord tag => ?_, fun ord orders opts => h.gc⟩
  refine h.packs.bind fun ids hids => NoIdError.bind ?_ fun _ _ => noIdError_choosePack tag _
  exact NoIdError.mapM fun id hid => (h.found hids id hid).1.listing tag

end Usable

section Runs

variable (crates : Crates) (writer : RmpWriter) (packWriter : PackWriter)

/-- What the calls are called with: a snapshot has a valid tag, and no file of a name
that is longer than the system takes is put in place. -/
def Tagged : Command → Prop
  | .createSnapshot _ snapshot _ => SnapshotId.isValid crates.unicode snapshot.tag = true
  | .createSnapshotForce snapshot _ => SnapshotId.isValid crates.unicode snapshot.tag = true ∧
    (snapshotPath snapshot).utf8ByteSize < DirTree.pathLimit
  | .createPack _ _ _ _ => True
  | .createPackForce _ _ _ => True

/-- The disks that runs lead to from a directory with no packs, each call with its own
failures. The remotes are read from documents, and `admits` says which there are. -/
inductive Runs (admits : Server Url → String → RemoteIndex → Prop) : Disk → Prop where
  | start {disk : Disk} (empty : disk.dataDir.packs = ∅) : Runs admits disk
  | command {disk : Disk} (before : Runs admits disk) (ord : IterOrder FileHandle)
      (command : Command) (faults : List (Option Fault)) (tagged : Tagged crates command) :
      Runs admits (command.call crates writer packWriter ord ⟨disk, faults⟩).2.state
  | update {disk : Disk} (before : Runs admits disk) (server : Server Url) (base : String)
      (document : List UInt8) (remote : RemoteIndex) (faults : List (Option Fault))
      (read : RemoteIndex.read server.urls document = .ok remote)
      (admitted : admits server base remote) :
      Runs admits (updateRemotePackIndexesIn crates server base remote ⟨disk, faults⟩).2.state

end Runs

theorem keeps_call_canonical {crates : Crates} {writer : RmpWriter} {packWriter : PackWriter}
    (laws : writer.ReadBackBy crates.rmp) (ord : IterOrder FileHandle) {command : Command}
    (tagged : Tagged crates command) :
    Io.KeepsDisk (Canonical crates) (command.call crates writer packWriter ord) := by
  cases command with
  | createSnapshot random snapshot files => exact keeps_createSnapshot_named laws tagged
  | createSnapshotForce snapshot files =>
    exact keeps_createSnapshotForce_named laws tagged.1 (shortTags_of_path tagged.2)
  | createPack randoms pack index opts => exact keeps_createPack_named
  | createPackForce pack index opts => exact keeps_createPackForce_named

theorem keeps_update_canonical {crates : Crates} {server : Server Url} {base : String}
    {remote : RemoteIndex} (names : NamesPacks server base remote) :
    Io.KeepsDisk (Canonical crates) (updateRemotePackIndexesIn crates server base remote) := by
  refine keeps_updateRemotePackIndexesIn (keeps_makeDir fromIndexes_canonical.fromFiles)
    fun pack hpack name hname => keeps_writeIn_named fun bytes id hid => .inl ?_
  exact names pack hpack name hname id (PackId.fromIndexPath_eq_some.mpr hid)

/-- Where every file that a remote has the update write is named after a pack, or is no
index, whatever identifier is found is one that can be used. -/
theorem discovered_ids_usable {crates : Crates} {writer : RmpWriter} {packWriter : PackWriter}
    (laws : writer.ReadBackBy crates.rmp) {disk : Disk}
    (runs : Runs crates writer packWriter (NamesPacks : Server Url → _) disk) :
    Usable crates disk.dataDir := by
  suffices hcanonical : Canonical crates disk from hcanonical.usable
  induction runs with
  | @start disk empty =>
    intro id bytes hfile
    rw [empty] at hfile
    cases hfile
  | command before ord command faults tagged ih =>
    exact (keeps_call_canonical laws ord tagged).state ih
  | update before server base document remote faults read names ih =>
    exact (keeps_update_canonical names).state ih

namespace NamesSample

def created : Document := {
  lines := [
    ⟨⟨Text.encodeUtf8 ("meta\t" ++ MetaVersion.v1.asStr), [Lines.lineFeed]⟩, .metaLine⟩,
    ⟨⟨Text.encodeUtf8 ("url\t" ++ (UrlSample.host ++ "index.esi")), [Lines.lineFeed]⟩, .urlLine⟩]
  version := .v1
  url := UrlSample.host ++ "index.esi" }

/-- The document of a remote with one pack. -/
def listed (name : String) : Document :=
  (Document.add UrlSample.urls.toUrlCrate ⟨.zero, .zero, name, none, none⟩ false created).2

def remote (name : String) : RemoteIndex :=
  ⟨.v1, UrlSample.host ++ "index.esi", [⟨.zero, .zero, UrlSample.host ++ name, none, none⟩]⟩

/-- There is an index with no snapshots for whatever is asked. -/
def server : Server String :=
  ⟨UrlSample.urls, fun _ => .ok ⟨200, .ok (PackIndex.new.serialize messagePackWriter)⟩⟩

theorem read_listed {name : String}
    (h : RemoteIndex.fromDocument UrlSample.urls (listed name).stored = .ok (remote name)) :
    RemoteIndex.read UrlSample.urls (listed name).toBytes = .ok (remote name) := by
  have hcreate : Document.create UrlSample.urls.toUrlCrate .v1 (UrlSample.host ++ "index.esi") =
      .ok created := rfl
  have hadd : Document.add UrlSample.urls.toUrlCrate ⟨.zero, .zero, name, none, none⟩ false created =
      ((Document.add UrlSample.urls.toUrlCrate ⟨.zero, .zero, name, none, none⟩ false created).1,
        listed name) := rfl
  exact RemoteIndex.read_reached (.add (.create hcreate) hadd) h

def updated (name : String) (disk : Disk) : Disk :=
  (updateRemotePackIndexesIn CrashSample.crates server "origin" (remote name) ⟨disk, []⟩).2.state

section

variable {admits : Server String → String → RemoteIndex → Prop}

theorem runs_after {disk : Disk}
    (before : Runs CrashSample.crates messagePackWriter CrashSample.packWriter admits disk)
    {command : Command} (tagged : Tagged CrashSample.crates command) :
    Runs CrashSample.crates messagePackWriter CrashSample.packWriter admits
      (CrashSample.after command disk []) :=
  .command before .insertion command [] tagged

theorem runs_updated {disk : Disk} {name : String}
    (before : Runs CrashSample.crates messagePackWriter CrashSample.packWriter admits disk)
    (h : RemoteIndex.fromDocument UrlSample.urls (listed name).stored = .ok (remote name))
    (admitted : admits server "origin" (remote name)) :
    Runs CrashSample.crates messagePackWriter CrashSample.packWriter admits
      (updated name disk) :=
  .update before server "origin" _ _ [] (read_listed h) admitted

end

end NamesSample

theorem discovered_ids_usable_updated : ∃ disk : Disk,
    packs CrashSample.crates disk.dataDir = .ok [⟨"loose/a"⟩, ⟨"origin/a"⟩] ∧
      Usable CrashSample.crates disk.dataDir := by
  have hempty : CrashSample.empty.dataDir.packs = ∅ := rfl
  have htag : Tagged CrashSample.crates (CrashSample.createSnapshot (.regular [7] 420)) :=
    (by decide : SnapshotId.isValid CrashSample.crates.unicode "a" = true)
  have hnames : NamesPacks NamesSample.server "origin" (NamesSample.remote "a.pack") := by
    intro pack hpack name hname id hid
    obtain rfl := List.mem_singleton.mp hpack
    have hfile : packIndexFileName NamesSample.server
        ⟨.zero, .zero, UrlSample.host ++ "a.pack", none, none⟩ = some "a.pack.idx" := by rfl
    obtain rfl := Option.some.inj (hfile.symm.trans hname)
    have hpath : PackId.fromIndexPath (joinName "origin" "a.pack.idx") = some ⟨"origin/a"⟩ := by
      rfl
    obtain rfl := Option.some.inj (hpath.symm.trans hid)
    rfl
  have hruns := NamesSample.runs_updated
    (NamesSample.runs_after (.start hempty) htag) (by rfl) hnames
  exact ⟨_, by decide +kernel, discovered_ids_usable messagePack_readBack hruns⟩

/-- A pack that the server calls `v1.2` has no valid identifier once its index is there. -/
theorem discovered_ids_not_always_usable : ¬ ∀ disk : Disk,
    Runs CrashSample.crates messagePackWriter CrashSample.packWriter
      (fun (_ : Server String) _ _ => True) disk → Usable CrashSample.crates disk.dataDir := by
  intro h
  have hempty : CrashSample.empty.dataDir.packs = ∅ := rfl
  have hfrom : RemoteIndex.fromDocument UrlSample.urls
      (NamesSample.listed "v1.2.pack").stored = .ok (NamesSample.remote "v1.2.pack") := by
    rfl
  have husable : Usable CrashSample.crates
      (NamesSample.updated "v1.2.pack" CrashSample.empty).dataDir :=
    h _ (NamesSample.runs_updated (.start hempty) hfrom trivial)
  have hpacks : packs CrashSample.crates
      (NamesSample.updated "v1.2.pack" CrashSample.empty).dataDir = .ok [⟨"origin/v1.2"⟩] := by
    decide +kernel
  have hinvalid : PackId.validate CrashSample.crates.unicode ⟨"origin/v1.2"⟩ ≠ .ok () := by
    decide
  exact hinvalid (husable.ids _ hpacks _ List.mem_cons_self).1

end Elfshaker.Remote
