import Elfshaker.Checkout.Checkouts
import Elfshaker.Packs.OpenPack
import Elfshaker.Packs.PairedStore
import Elfshaker.Store.LooseTree
import Elfshaker.System.StoreRuns

namespace Elfshaker.System

open Elfshaker.Library Elfshaker.Format Elfshaker.Store Elfshaker.Packs Elfshaker.Remote
  Elfshaker.Checkout

section Paired

variable {crates : Crates} {writer : RmpWriter} {packWriter : PackWriter}
  {content : ObjectChecksum → List UInt8} {torn : PackId → Prop} {start disk : Disk}

theorem Pruned.paired {dd dd' : DataDir} (h : Pruned crates dd dd')
    (paired : Paired crates writer packWriter content torn dd) :
    Paired crates writer packWriter content torn dd' :=
  fun id bytes hregular hfile hbytes htorn =>
    (paired id bytes hregular (h.indexes id bytes hfile) hbytes htorn).mono (h.packs id)

/-- Whatever is published and collected, an index of a pack stays beside its pack. -/
theorem StoreRuns.paired (laws : writer.ReadBackBy crates.rmp) (hzstd : packWriter.zstd.Inverts)
    (empty : content .zero = [])
    (orderly : Orderly crates packWriter.zstd content (fun _ => False) start)
    (paired : Paired crates writer packWriter content (fun _ => False) start.dataDir)
    (runs : StoreRuns crates writer packWriter content start torn disk) :
    Paired crates writer packWriter content torn disk.dataDir := by
  induction runs with
  | start => exact paired
  | publish before ord command faults fit tagged ih =>
    have horderly := before.orderly laws hzstd empty orderly
    exact Command.call_paired empty horderly.regular fit horderly.sound ih
  | collect before ord orders opts dataDir deletes h ih =>
    have hpruned := h.pruned (before.orderly laws hzstd empty orderly).canonical deletes
    exact hpruned.paired ih

end Paired

section Serving

variable {env : Env} {decoder : PackDecoder} {writer : RmpWriter} {packWriter : PackWriter}
  {content : ObjectChecksum → List UInt8} {torn : PackId → Prop} {dd dd' : DataDir}
  {id : SnapshotId} {pack : PackId} {index : PackIndex} {entries : List FileEntry}

/-- The published files and the objects are those of another directory. -/
structure SameStore (dd dd' : DataDir) : Prop where
  packs : ∀ p bytes, Published p → ((p, bytes) ∈ dd'.packs.files ↔ (p, bytes) ∈ dd.packs.files)
  loose : dd'.loose = dd.loose

theorem SameStore.refl (dd : DataDir) : SameStore dd dd := ⟨fun _ _ _ => Iff.rfl, rfl⟩

theorem SameStore.loadIndex (same : SameStore dd dd')
    (hload : Store.loadIndex env.crates dd pack = .ok index) :
    Store.loadIndex env.crates dd' pack = .ok index := by
  obtain ⟨bytes, hopen, hparse⟩ := loadIndex_eq_ok.mp hload
  obtain ⟨hvalid, hfile⟩ := openIndex_eq_ok.mp hopen
  exact loadIndex_eq_ok.mpr ⟨bytes, openIndex_eq_ok.mpr ⟨hvalid,
    (same.packs _ _ ⟨pack, .inl rfl⟩).mpr hfile⟩, hparse⟩

/-- How the packs of a store are opened: each is what it was written as, on a system that has
files of this length, and a remote has no other one of its name. -/
structure Opens (env : Env) (decoder : PackDecoder) (packWriter : PackWriter) (dd : DataDir)
    (pack : PackId) : Prop where
  reads : decoder.Reads packWriter
  opens : ∀ dd', env.openPack dd' pack = decoder.openPack dd' pack
  remote : ∀ dd' dd'', SameStore dd dd' → env.fetchPack dd' pack = .ok dd'' → SameStore dd dd''
  header : ∀ built : PackContent, (pack.packPath, built.file packWriter) ∈ dd.packs.files →
    built.header.length < handleCount ∧ (packWriter.header built.header).length < 2 ^ 32
  short : ∀ bytes, (pack.packPath, bytes) ∈ dd.packs.files → bytes.length < 2 ^ 63

/-- The pack that an index was saved with. -/
structure HasPack (env : Env) (packWriter : PackWriter) (content : ObjectChecksum → List UInt8)
    (dd : DataDir) (pack : PackId) (index : PackIndex) (built : PackContent) : Prop where
  made : ∃ source, MadePack env.crates packWriter content source built
  file : (pack.packPath, built.file packWriter) ∈ dd.packs.files
  regular : PackId.isValidRegular pack.name = true
  handles : ∀ handle, index.handleToEntry handle = built.index.handleToEntry handle

theorem HasPack.length {built : PackContent} (h : HasPack env packWriter content dd pack index built)
    {handle : FileHandle} {e : FileEntry} (he : index.handleToEntry handle = .ok e) :
    (content e.checksum).length = e.objectMetadata.size.toNat := by
  obtain ⟨source, made⟩ := h.made
  obtain ⟨ordering, contents, packed⟩ := made.packed
  have hreadable : Readable contents.flatten content [e] := by
    apply packed.readable
    intro d hd
    rw [List.mem_singleton.mp hd]
    exact ⟨handle, by rw [← h.handles, he]⟩
  rw [← hreadable.slice e List.mem_cons_self,
    Extent.slice_length (hreadable.within e List.mem_cons_self)]
  rfl

/-- What is opened of the pack can be read for any of its entries. -/
theorem HasPack.frames {built : PackContent} (h : HasPack env packWriter content dd pack index built)
    (hzstd : packWriter.zstd.Inverts) (opens : Opens env decoder packWriter dd pack)
    (same : SameStore dd dd') (hentries : ∀ e ∈ entries, ∃ handle, index.handleToEntry handle = .ok e)
    {opened : List PackFrame × List (List UInt8)} (hopen : env.openPack dd' pack = .ok opened)
    {assigned : List (List FileEntry)} (hassigned : assignToFrames opened.1 entries = .ok assigned) :
    FramesReadable opened.2 content entries assigned := by
  obtain ⟨source, made⟩ := h.made
  obtain ⟨ordering, contents, packed⟩ := made.packed
  have hfile : (pack.packPath, built.file packWriter) ∈ dd'.packs.files :=
    (same.packs _ _ ⟨pack, .inr rfl⟩).mpr h.file
  obtain ⟨hframes, hheader⟩ := opens.header built h.file
  have hwritten := openPack_written opens.reads made.recorded h.regular hfile hframes hheader
    (opens.short _ h.file)
  rw [opens.opens, hwritten] at hopen
  cases hopen
  have hbuilt : ∀ e ∈ entries, ∃ handle, built.index.handleToEntry handle = .ok e := by
    intro e he
    obtain ⟨handle, hok⟩ := hentries e he
    exact ⟨handle, by rw [← h.handles, hok]⟩
  obtain ⟨found, hfound, hframes⟩ := packed.assignToFrames_ok hzstd hbuilt
  rw [hfound] at hassigned
  cases hassigned
  exact hframes

end Serving

section Stored

variable {crates : Crates} {writer : RmpWriter} {ord : IterOrder FileHandle} {random : List UInt8}
  {snapshot : SnapshotId} {files : List InputFile} {content : ObjectChecksum → List UInt8}
  {s s' : Session Disk Fault}

/-- The triple of what is stored for a file. -/
inductive StoredAs (crates : Crates) : InputFile → Triple → Prop
  | symlink (path : PackPath) (target : List UInt8) (kind : SymlinkTargetKind) :
      StoredAs crates ⟨path, .symlink target kind⟩
        ⟨path, crates.sha1 (encodeTarget target).1, .symlink (encodeTarget target).2 kind⟩
  | regular (path : PackPath) (body : List UInt8) (mode : UInt32) :
      StoredAs crates ⟨path, .regular body mode⟩ ⟨path, crates.sha1 body, .regular mode⟩
  | denied (path : PackPath) (mode : UInt32) :
      StoredAs crates ⟨path, .denied 0 mode⟩ ⟨path, .zero, .regular mode⟩

/-- What was pushed is resolved, with any error type. -/
theorem pushed_entries {ε : Type} {tag : String} {input : List FileEntry} {index : PackIndex}
    (ord' : IterOrder FileHandle) (hpush : PackIndex.new.pushSnapshot ord tag input = .ok index) (hpaths : index.pathPool.Fits)
    (hobjects : index.objectPool.Fits) : ∃ handles entries,
      index.resolveSnapshot (ε := ε) ord' tag = .ok (some handles) ∧
        index.entriesFromHandles handles = .ok entries ∧
          ∀ t, t ∈ triples entries ↔ t ∈ triples input := by
  have fresh : (⟨ord, tag, input⟩ : Push).tag ∉ PackIndex.new.snapshotTags := List.not_mem_nil
  obtain ⟨index', hpush', pushed⟩ := Pushed.new.push fresh
  rw [hpush] at hpush'
  cases hpush'
  have htag : index.snapshotTags[0]? = some tag := by
    rw [pushed.tags]
    rfl
  obtain ⟨current, hreplay, hset⟩ := PackIndex.replay_of_chain (ε := ε)
    (u := index.handleSet input) pushed.chain_empty 0 htag (fun j hj => absurd hj (Nat.not_lt_zero j)) rfl
  have hmem : ∀ handle, handle ∈ current.iter ord' ↔ handle ∈ index.handleSet input := by
    intro handle
    rw [HashSet.mem_iter, ← HashSet.mem_toSet, hset]
  have interns := pushed.interns ⟨ord, tag, input⟩ (List.mem_append_right _ (List.mem_singleton_self _))
  obtain ⟨found, hfound, -, htriples⟩ := PackIndex.entriesFromHandles_of_handleSet hpaths hobjects
    interns (current.nodup_iter ord') hmem
  exact ⟨_, found, PackIndex.resolveSnapshot_eq_some.mpr ⟨current, hreplay, rfl⟩, hfound, htriples⟩

/-- The index that a snapshot is saved as, and what was stored for its files. -/
structure SavedAs (crates : Crates) (writer : RmpWriter) (ord : IterOrder FileHandle)
    (snapshot : SnapshotId) (files : List InputFile) (index : PackIndex)
    (entries : List FileEntry) (dd : DataDir) : Prop where
  file : (snapshotPath snapshot, index.serialize writer) ∈ dd.packs.files
  pushed : PackIndex.new.pushSnapshot ord snapshot.tag entries = .ok index
  writable : index.Writable
  stored : List.Forall₂ (fun file (entry : FileEntry) => StoredAs crates file entry.triple) files entries

theorem StoredAs.path {file : InputFile} {t : Triple} (h : StoredAs crates file t) :
    t.path = file.path := by
  cases h <;> rfl

theorem StoredAs.unique {file : InputFile} {t u : Triple} (h : StoredAs crates file t)
    (h' : StoredAs crates file u) : t = u := by
  cases h <;> cases h' <;> rfl

/-- The triples of a snapshot that is saved are those of its files. -/
theorem SavedAs.triples {index : PackIndex} {entries : List FileEntry} {dd : DataDir}
    (saved : SavedAs crates writer ord snapshot files index entries dd)
    (laws : writer.ReadBackBy crates.rmp) {ord' : IterOrder FileHandle} {ts : List Triple}
    (h : snapshotTriples crates ord' dd ⟨PackId.looseOf snapshot.tag, snapshot.tag⟩ = .ok ts) :
    ∀ t, t ∈ ts ↔ ∃ file ∈ files, StoredAs crates file t := by
  obtain ⟨loaded, hload, h⟩ := Exec.bind_eq_ok.mp h
  obtain ⟨found, hfound, h⟩ := Exec.bind_eq_ok.mp h
  obtain ⟨handles, hhandles, h⟩ := Exec.bind_eq_ok.mp h
  obtain ⟨entries', hentries', h⟩ := Exec.bind_eq_ok.mp h
  cases h
  obtain ⟨bytes, hopen, hparse⟩ := loadIndex_eq_ok.mp hload
  obtain rfl := DirTree.files_unique (openIndex_eq_ok.mp hopen).2 saved.file
  rw [(PackIndex.roundTrips_of_writable laws saved.writable).parse_serialize] at hparse
  cases hparse
  have agrees := PackIndex.reloaded_agrees
    (PackIndex.pushSnapshot_aligned PackIndex.aligned_new saved.pushed)
  obtain ⟨resolved, found', hresolved, hfound', htriples⟩ := pushed_entries (ε := Error) ord'
    saved.pushed saved.writable.paths.le saved.writable.objects.le
  rw [agrees.resolveSnapshot, hresolved] at hfound
  cases hfound
  cases hhandles
  rw [agrees.entriesFromHandles, hfound'] at hentries'
  cases hentries'
  intro t
  rw [htriples]
  constructor
  · intro ht
    obtain ⟨entry, hentry, rfl⟩ := List.mem_map.mp ht
    obtain ⟨k, hk⟩ := List.mem_iff_getElem?.mp hentry
    obtain ⟨file, hfile, hstored⟩ := forall₂_getElem? saved.stored hk
    exact ⟨file, List.mem_of_getElem? hfile, hstored⟩
  · rintro ⟨file, hfile, hstored⟩
    obtain ⟨k, hk⟩ := List.mem_iff_getElem?.mp hfile
    obtain ⟨entry, hentry, hstored'⟩ := forall₂_getElem? saved.stored.flip hk
    obtain rfl := hstored'.unique hstored
    exact List.mem_map_of_mem (List.mem_of_getElem? hentry)

end Stored

section RoundTrip

variable {env : Env} {repo : Repository} {decoder : PackDecoder} {writer : RmpWriter}
  {packWriter : PackWriter} {content : ObjectChecksum → List UInt8} {torn : PackId → Prop}
  {snapshot id : SnapshotId} {files : List InputFile} {opts : ExtractOptions}

/-- What is made of a file that was stored; its time is not stored. -/
inductive Restored : Source → FileNode → Prop
  | symlink (target : List UInt8) (kind : SymlinkTargetKind) (mtime : Nat) :
      Restored (.symlink target kind) (.link target mtime)
  | regular (body : List UInt8) (mode : UInt32) (mtime : Nat) :
      Restored (.regular body mode) (.file body (Fin.ofNat 4096 mode.toNat) mtime)
  | denied (mode : UInt32) (mtime : Nat) :
      Restored (.denied 0 mode) (.file [] (Fin.ofNat 4096 mode.toNat) mtime)

/-- A link that the system has made leads somewhere. -/
def Leads (files : List InputFile) : Prop :=
  ∀ file ∈ files, ∀ target kind, file.source = .symlink target kind → target ≠ [] ∧ 0 ∉ target

/-- The bytes of a file are found under the checksum that it is stored with. -/
theorem StoredAs.restored {file : InputFile} {e : FileEntry} {node : FileNode}
    (storable : Storable env.crates content snapshot files) (empty : content .zero = [])
    (leads : Leads files) (hfile : file ∈ files) (stored : StoredAs env.crates file e.triple)
    (stands : StandsFor content e node) : Restored file.source node := by
  have archived := storable.archived file hfile
  have hleads := leads file hfile
  obtain ⟨path, checksum, objectMetadata, metadata⟩ := e
  cases stored with
  | symlink _ target kind =>
    obtain ⟨target', hdecode, mtime, rfl⟩ := stands
    rw [(archived _ rfl).content, decodeTarget_encodeTarget _ (hleads target kind rfl).2] at hdecode
    cases hdecode
    exact .symlink target kind mtime
  | regular _ body mode =>
    obtain ⟨mtime, rfl⟩ := stands
    rw [(archived _ rfl).content]
    exact .regular body mode mtime
  | denied _ mode =>
    obtain ⟨mtime, rfl⟩ := stands
    change Restored (.denied 0 mode) (.file (content .zero) (Fin.ofNat 4096 mode.toNat) mtime)
    rw [empty]
    exact .denied mode mtime

theorem StoredAs.linked {file : InputFile} {e : FileEntry}
    (storable : Storable env.crates content snapshot files) (leads : Leads files)
    (hfile : file ∈ files) (stored : StoredAs env.crates file e.triple)
    (hlink : e.metadata.isSymlink = true) : content e.checksum ≠ [] := by
  have archived := storable.archived file hfile
  have hleads := leads file hfile
  obtain ⟨path, checksum, objectMetadata, metadata⟩ := e
  cases stored with
  | symlink _ target kind =>
    have hdecode := decodeTarget_encodeTarget path (hleads target kind rfl).2
    rw [(archived _ rfl).content, ← decodeTarget_bytes hdecode]
    exact (hleads target kind rfl).1
  | regular _ body mode => cases hlink
  | denied _ mode => cases hlink

end RoundTrip

namespace ReadBackSample

open CrashSample

def packWriter : PackWriter := ⟨writeHeader, PackSample.zstd⟩

def decoder : PackDecoder := ⟨readHeader, PackSample.zstd⟩

def files : List InputFile := [⟨.x, .regular [7] 420⟩]

def stored : Session Disk Fault :=
  (Store.createSnapshot crates messagePackWriter .insertion [1] CreationSample.snapshot files
    ⟨CrashSample.empty, []⟩).2

def packed : Disk :=
  ((Command.createPack ([1], [2]) pack (made old) CrashSample.opts).call crates messagePackWriter
    packWriter .insertion ⟨stored.state, []⟩).2.state

def sampleEnv : Checkout.Env :=
  { CheckoutSample.sampleEnv with crates := crates, openPack := decoder.openPack }

def id : SnapshotId := ⟨pack, "a"⟩

def opts : ExtractOptions := ⟨true, true, false, 1⟩

def begun : Session World Fault := ⟨⟨CheckoutSample.bare, packed, []⟩, []⟩

theorem orderly_empty :
    Orderly crates packWriter.zstd content (fun _ => False) CrashSample.empty :=
  ⟨sound_empty, nofun, fun _ h => h.elim⟩

theorem runs_packed : ∃ torn,
    StoreRuns crates messagePackWriter packWriter content CrashSample.empty torn packed ∧
      ∀ other, ¬ torn other := by
  have hvalid : SnapshotId.isValid crates.unicode CreationSample.snapshot.tag = true := by rfl
  have hstored : StoreRuns crates messagePackWriter packWriter content CrashSample.empty _
      stored.state :=
    .publish .start .insertion (createSnapshot (.regular [7] 420)) []
      (fit_createSnapshot _ fun _ h => (Option.some.inj h).symm) hvalid
  have hpacked := hstored.publish .insertion
    (.createPack ([1], [2]) pack (made old) CrashSample.opts) [] fit_old trivial
  exact ⟨_, hpacked, fun _ h => h.elim (fun h => h.elim (fun h => h) fun h => h) fun h => h⟩

theorem started : Start sampleEnv CheckoutSample.apart id opts begun where
  root := CheckoutSample.w_dir
  untouched := rfl
  fresh := by
    intro plan hplan
    have hways : (Checkout.plan sampleEnv id opts packed.dataDir).map Plan.ways = .ok [[[120]]] := by
      rfl
    have hdataDir : begun.state.disk.dataDir = packed.dataDir := rfl
    rw [hdataDir] at hplan
    rw [hplan] at hways
    have hways : plan.ways = [[[120]]] := Except.ok.inj hways
    refine ⟨CheckoutSample.longName_unused, ?_⟩
    intro tree path hpath
    rw [hways, List.mem_singleton] at hpath
    rw [hpath]
    exact CheckoutSample.longName_ne (by decide)

theorem extracted : ∃ r s',
    extractSnapshot sampleEnv CheckoutSample.apart id opts begun = (.ok r, s') := ⟨_, _, rfl⟩

end ReadBackSample

end Elfshaker.System
