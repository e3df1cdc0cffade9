import Elfshaker.Store.GcSnapshots

namespace Elfshaker.Store

open Elfshaker.Library Elfshaker.Format

variable {crates : Crates} {ord : IterOrder FileHandle} {dd dd' : DataDir}

/-- A loose index has one tag, and its file stands for the pack of that tag. -/
theorem loose_single {ids : List PackId} (hids : packs crates dd = .ok ids) {name tag : String}
    (h : Lists crates dd (PackId.looseOf name) tag) :
    ∃ bytes, ((PackId.looseOf name).indexPath, bytes) ∈ dd.packs.files ∧
      discover crates ((PackId.looseOf name).indexPath, bytes) =
        .ok (some (PackId.looseOf tag)) ∧
      ∀ u, Lists crates dd (PackId.looseOf name) u → u = tag := by
  obtain ⟨tags, htags, htag⟩ := h
  obtain ⟨bytes, hbytes, hload⟩ := loadIndexSnapshots_eq_ok.mp htags
  obtain ⟨-, hfile⟩ := openIndex_eq_ok.mp hbytes
  obtain ⟨found, hfound⟩ := packs_ok_iff.mp ⟨ids, hids⟩ _ hfile
  obtain ⟨only, honly, hvalid, rfl⟩ := (discover_loose rfl).mp hfound
  rw [hload] at honly
  cases honly
  obtain rfl := List.mem_singleton.mp htag
  refine ⟨bytes, hfile, hfound, fun u hu => ?_⟩
  obtain ⟨tags', htags', hu⟩ := hu
  rw [htags] at htags'
  cases htags'
  exact List.mem_singleton.mp hu

theorem count_reduceOption {α : Type} [DecidableEq α] {xs : List (Option α)} {x : α} :
    xs.reduceOption.count x = xs.count (some x) := by
  induction xs with
  | nil => rfl
  | cons y ys ih =>
    cases y with
    | none =>
      rw [List.reduceOption_cons_of_none, ih, List.count_cons]
      simp
    | some y =>
      rw [List.reduceOption_cons_of_some, List.count_cons, List.count_cons, ih]
      simp

/-- A pack that is discovered at two places is listed twice. -/
theorem two_le_count_packs {ids : List PackId} (hids : packs crates dd = .ok ids)
    {file file' : String × List UInt8} {id : PackId} (hfile : file ∈ dd.packs.files)
    (hfile' : file' ∈ dd.packs.files) (hne : file ≠ file')
    (h : discover crates file = .ok (some id)) (h' : discover crates file' = .ok (some id)) :
    2 ≤ ids.count id := by
  obtain ⟨found, hfound, hids⟩ := Exec.bind_eq_ok.mp hids
  cases hids
  rw [sortIds, (List.perm_insertionSort _ _).count_eq, count_reduceOption]
  exact Exec.two_le_count_of_mapM hfound hfile hfile' hne h h'

/-- What the snapshot phase has done when it deletes and succeeds. -/
structure Collected (crates : Crates) (ord : IterOrder FileHandle) (dd : DataDir)
    (ids removed : List PackId) (dd' : DataDir) : Prop where
  discovered : packs crates dd = .ok ids
  checksums : ∀ id ∈ ids, ∀ tag, Lists crates dd id tag →
    ∃ c, HasChecksum crates ord dd id tag c
  redundant : ∀ id, id ∈ removed ↔ ∃ tag, id = PackId.looseOf tag ∧ Redundant crates ord dd ids tag
  once : ∀ id ∈ removed, ids.count id ≤ 1
  without : Without dd removed dd'

theorem gcSnapshots_collected {orders : GcOrders} {opts : GcOptions} {roots rest : List PackId}
    (hsnapshots : opts.looseSnapshots = true) (hdry : opts.dryRun = false)
    (hroots : loosePacks crates dd = .ok roots)
    (h : gcSnapshots crates ord orders opts dd = .ok (dd', rest)) :
    ∃ ids removed, Collected crates ord dd ids removed dd' ∧
      rest = removed.foldl List.erase roots := by
  rw [gcSnapshots, hroots, Exec.ok_bind, if_pos hsnapshots] at h
  obtain ⟨removed, hremoved, h⟩ := Exec.bind_eq_ok.mp h
  obtain ⟨ids, hids, -⟩ := Exec.bind_eq_ok.mp hremoved
  obtain ⟨hchecksums, hredundant, hcount⟩ := findRedundantLoosePacks_ok hids hremoved
  rw [hdry] at h
  obtain ⟨hnodup, -, hwithout, hrest⟩ := collectSnapshots_ok
    (fun id hid => ((hredundant id).mp hid).imp fun tag htag => htag.1) h
  refine ⟨ids, removed, ⟨hids, hchecksums, hredundant, fun id hid => ?_, hwithout⟩, hrest⟩
  exact le_trans (hcount id hid) (List.nodup_iff_count_le_one.mp hnodup id)

namespace Collected

variable {ids removed : List PackId}

/-- The file of a removed pack is the only one that stands for it. -/
theorem only_file (h : Collected crates ord dd ids removed dd') {id : PackId} (hid : id ∈ removed)
    {file : String × List UInt8} (hfile : file ∈ dd.packs.files) :
    discover crates file = .ok (some id) ↔ file.1 = id.indexPath := by
  obtain ⟨tag, rfl, hredundant⟩ := (h.redundant id).mp hid
  obtain ⟨c, hhas, -⟩ := hredundant.copy
  obtain ⟨bytes, hown, hdiscover, -⟩ := loose_single h.discovered hhas.lists
  constructor
  · intro hfound
    by_contra hne
    have htwice := two_le_count_packs h.discovered hfile hown
      (fun heq => hne (congrArg Prod.fst heq)) hfound hdiscover
    have := h.once _ hid
    omega
  · intro hpath
    obtain ⟨path, bytes'⟩ := file
    dsimp only at hpath
    subst hpath
    rwa [DirTree.files_unique hfile hown]

theorem packs_ok (h : Collected crates ord dd ids removed dd') :
    ∃ ids', packs crates dd' = .ok ids' ∧ ∀ id, id ∈ ids' ↔ id ∈ ids ∧ id ∉ removed := by
  have hall := packs_ok_iff.mp ⟨ids, h.discovered⟩
  obtain ⟨ids', hids'⟩ := packs_ok_iff.mpr fun file hfile =>
    hall file ((h.without.files file).mp hfile).1
  refine ⟨ids', hids', fun id => ?_⟩
  rw [mem_packs hids', mem_packs h.discovered]
  constructor
  · rintro ⟨file, hfile, hfound⟩
    obtain ⟨hfile, hkept⟩ := (h.without.files file).mp hfile
    refine ⟨⟨file, hfile, hfound⟩, fun hid => ?_⟩
    exact hkept id hid ((h.only_file hid hfile).mp hfound)
  · rintro ⟨⟨file, hfile, hfound⟩, hid⟩
    refine ⟨file, (h.without.files file).mpr ⟨hfile, fun id' hid' hpath => hid ?_⟩, hfound⟩
    have hfound' := (h.only_file hid' hfile).mpr hpath
    rw [hfound] at hfound'
    cases hfound'
    exact hid'

theorem openIndex_iff (h : Collected crates ord dd ids removed dd') {id : PackId}
    {bytes : List UInt8} : openIndex crates dd' id = .ok bytes ↔
      openIndex crates dd id = .ok bytes ∧ id ∉ removed := by
  rw [openIndex_eq_ok, openIndex_eq_ok, h.without.files, and_assoc]
  refine and_congr_right fun _ => and_congr_right fun _ => ?_
  constructor
  · exact fun hkept hid => hkept id hid rfl
  · exact fun hid id' hid' hpath => hid (PackId.indexPath_injective hpath ▸ hid')

theorem lists_iff (h : Collected crates ord dd ids removed dd') {id : PackId} {tag : String} :
    Lists crates dd' id tag ↔ Lists crates dd id tag ∧ id ∉ removed := by
  simp only [Lists, loadIndexSnapshots_eq_ok, h.openIndex_iff]
  constructor
  · rintro ⟨tags, ⟨bytes, ⟨hopen, hid⟩, hload⟩, htag⟩
    exact ⟨⟨tags, ⟨bytes, hopen, hload⟩, htag⟩, hid⟩
  · rintro ⟨⟨tags, ⟨bytes, hopen, hload⟩, htag⟩, hid⟩
    exact ⟨tags, ⟨bytes, ⟨hopen, hid⟩, hload⟩, htag⟩

theorem loadIndex_iff (h : Collected crates ord dd ids removed dd') {id : PackId}
    {index : PackIndex} : loadIndex crates dd' id = .ok index ↔
      loadIndex crates dd id = .ok index ∧ id ∉ removed := by
  simp only [loadIndex_eq_ok, h.openIndex_iff]
  constructor
  · rintro ⟨bytes, ⟨hopen, hid⟩, hparse⟩
    exact ⟨⟨bytes, hopen, hparse⟩, hid⟩
  · rintro ⟨⟨bytes, hopen, hparse⟩, hid⟩
    exact ⟨bytes, ⟨hopen, hid⟩, hparse⟩

theorem hasChecksum (h : Collected crates ord dd ids removed dd') {id : PackId} {tag : String}
    {c : ObjectChecksum} (hid : id ∉ removed) (hhas : HasChecksum crates ord dd id tag c) :
    HasChecksum crates ord dd' id tag c := by
  obtain ⟨index, hload, htag, hc⟩ := hhas
  exact ⟨index, h.loadIndex_iff.mpr ⟨hload, hid⟩, htag, hc⟩

/-- A removed pack lists no tag but the one it is named after. -/
theorem removed_lists (h : Collected crates ord dd ids removed dd') {id : PackId} {tag : String}
    (hid : id ∈ removed) (hlists : Lists crates dd id tag) : id = PackId.looseOf tag := by
  obtain ⟨own, rfl, hredundant⟩ := (h.redundant id).mp hid
  obtain ⟨c, hhas, -⟩ := hredundant.copy
  obtain ⟨_, _, _, honly⟩ := loose_single h.discovered hhas.lists
  rw [honly tag hlists]

end Collected

/-- The set of what the entries of a snapshot say. -/
def snapshotTriples (crates : Crates) (ord : IterOrder FileHandle) (dd : DataDir)
    (id : SnapshotId) : Exec Error (List Triple) := do
  let index ← loadIndex crates dd id.pack
  let found ← index.resolveSnapshot ord id.tag
  let handles ← Exec.okOr (.packError (.snapshotNotFound id.tag)) found
  let entries ← (index.entriesFromHandles handles).mapError .packError
  .ok (triples entries)

/-- The bytes that the snapshots of a repository are hashed as. -/
def identityStreams (crates : Crates) (ord : IterOrder FileHandle) (dd : DataDir) :
    Set (List UInt8) :=
  {s | ∃ id tag index ts, loadIndex crates dd id = .ok index ∧
    index.identityEntries (ε := Error) ord tag = .ok (some ts) ∧ s = identityStream ts}

/-- Two snapshots, each of its own repository, resolve to the same entries. -/
def SameSnapshot (crates : Crates) (ord : IterOrder FileHandle) (dd : DataDir) (id : SnapshotId)
    (dd' : DataDir) (id' : SnapshotId) : Prop :=
  ∃ ts ts', snapshotTriples crates ord dd id = .ok ts ∧
    snapshotTriples crates ord dd' id' = .ok ts' ∧ ∀ t, t ∈ ts ↔ t ∈ ts'

/-- A snapshot with a checksum resolves, and the checksum is that of its entries. -/
theorem HasChecksum.triples {id : PackId} {tag : String} {c : ObjectChecksum}
    (h : HasChecksum crates ord dd id tag c) :
    ∃ index file ts ts', loadIndex crates dd id = .ok index ∧
      PackIndex.parse crates.rmp file = .ok index ∧
      index.identityEntries (ε := Error) ord tag = .ok (some ts) ∧
      c = crates.sha1 (identityStream ts) ∧
      snapshotTriples crates ord dd ⟨id, tag⟩ = .ok ts' ∧ ∀ t, t ∈ ts ↔ t ∈ ts' := by
  obtain ⟨index, hload, -, hc⟩ := h
  obtain ⟨file, -, hparse⟩ := loadIndex_eq_ok.mp hload
  obtain ⟨found, hfound, hc⟩ := Exec.bind_eq_ok.mp hc
  obtain ⟨ts, rfl, hts⟩ := Option.map_eq_some_iff.mp (Except.ok.inj hc)
  obtain ⟨resolved, hresolved, hentries⟩ := Exec.bind_eq_ok.mp hfound
  cases resolved with
  | none => cases hentries
  | some handles =>
    cases hhandles : index.entriesFromHandles handles with
    | error e =>
      cases e with
      | error e => simp [hhandles] at hentries
      | panic => simp [hhandles, Exec.panic] at hentries
    | ok entries =>
      simp only [hhandles, Except.ok.injEq, Option.some.injEq] at hentries
      refine ⟨index, file, ts, Format.triples entries, hload, hparse, hfound, hts.symm, ?_, ?_⟩
      · simp only [snapshotTriples, hload, Exec.ok_bind, hresolved, Exec.okOr_some, hhandles,
          Exec.mapError_ok]
      · intro t
        rw [← hentries]
        exact mem_sortByPath

/-- Packs of one repository that agree on the checksum of a tag agree on its entries. -/
theorem HasChecksum.same {id id' : PackId} {tag : String} {c : ObjectChecksum}
    (sha1 : Set.InjOn crates.sha1 (identityStreams crates ord dd))
    (h : HasChecksum crates ord dd id tag c) (h' : HasChecksum crates ord dd id' tag c) :
    SameSnapshot crates ord dd ⟨id, tag⟩ dd ⟨id', tag⟩ := by
  obtain ⟨index, file, ts, us, hload, hparse, hts, hc, hus, hmem⟩ := h.triples
  obtain ⟨index', file', ts', us', hload', hparse', hts', hc', hus', hmem'⟩ := h'.triples
  have hstream : identityStream ts = identityStream ts' :=
    sha1 ⟨id, tag, index, ts, hload, hts, rfl⟩ ⟨id', tag, index', ts', hload', hts', rfl⟩
      (hc.symm.trans hc')
  have hsame := PackIndex.identityEntries_unique hparse hparse' hts hts' hstream
  refine ⟨us, us', hus, hus', fun t => ?_⟩
  rw [← hmem, ← hmem', hsame]

/-- A bare tag is looked up in the packs. -/
theorem findSnapshot_tag {tag : String} (valid : SnapshotId.isValid crates.unicode tag = true)
    {id : SnapshotId} : findSnapshot crates ord dd tag = .ok id ↔
      findPackWithSnapshot crates ord dd tag = .ok id.pack ∧ id.tag = tag := by
  rw [findSnapshot, SnapshotId.fromStr_tag valid]
  simp only [Exec.fail, Exec.bind_eq_ok, Exec.mapError_eq_ok, SnapshotId.new, valid, if_true,
    Except.ok.injEq]
  constructor
  · rintro ⟨pack, hpack, rfl⟩
    exact ⟨hpack, rfl⟩
  · rintro ⟨hpack, rfl⟩
    exact ⟨id.pack, hpack, rfl⟩

/-- Where a tag is found, all the packs that list it have one checksum for it. -/
theorem findPackWithSnapshot_checksum {ids : List PackId} {tag : String} {p : PackId}
    (hids : packs crates dd = .ok ids)
    (checksums : ∀ id ∈ ids, ∀ tag, Lists crates dd id tag →
      ∃ c, HasChecksum crates ord dd id tag c)
    (h : findPackWithSnapshot crates ord dd tag = .ok p) :
    p ∈ ids ∧ Lists crates dd p tag ∧
      (∀ q ∈ ids, ∃ tags, loadIndexSnapshots crates dd q = .ok tags) ∧
      ∃ c, ∀ q ∈ ids, Lists crates dd q tag → HasChecksum crates ord dd q tag c := by
  obtain ⟨ids', hids', loads, hp, hlists, hagree⟩ := findPackWithSnapshot_ok h
  rw [hids] at hids'
  cases hids'
  refine ⟨hp, hlists, loads, ?_⟩
  obtain ⟨c, hc⟩ := checksums p hp tag hlists
  refine ⟨c, fun q hq hqlists => ?_⟩
  rcases hagree with hall | ⟨first, hfirst⟩
  · rwa [hall q hq hqlists]
  · obtain ⟨c', hc'⟩ := checksums q hq tag hqlists
    have hsame : some c = some c' := by
      have hp' := hfirst p hp hlists
      have hq' := hfirst q hq hqlists
      rw [hc.checksumIn] at hp'
      rw [hc'.checksumIn] at hq'
      exact Except.ok.inj (hp'.trans hq'.symm)
    cases hsame
    exact hc'

/-- The loose pack of a tag is the only one that lists it, and a snapshot of
another tag in a pack file has the same checksum. -/
structure OnlyAsDuplicate (crates : Crates) (ord : IterOrder FileHandle) (dd : DataDir)
    (ids : List PackId) (tag : String) : Prop where
  only : ∀ q ∈ ids, Lists crates dd q tag → q = PackId.looseOf tag
  redundant : Redundant crates ord dd ids tag

namespace Collected

variable {ids removed : List PackId} {tag : String} {id : SnapshotId}

/-- A tag is lost with the only pack that lists it. -/
theorem lost (h : Collected crates ord dd ids removed dd')
    (only : OnlyAsDuplicate crates ord dd ids tag) {p : PackId} :
    findPackWithSnapshot crates ord dd' tag ≠ .ok p := by
  intro hfound
  obtain ⟨ids', hids', -, hp, hlists, -⟩ := findPackWithSnapshot_ok hfound
  obtain ⟨ids'', hids'', hmem⟩ := h.packs_ok
  rw [hids'] at hids''
  cases hids''
  obtain ⟨hids, hkept⟩ := (hmem p).mp hp
  have hp := only.only p hids (h.lists_iff.mp hlists).1
  exact hkept ((h.redundant p).mpr ⟨tag, hp, only.redundant⟩)

/-- Some pack that lists the tag is left. -/
theorem survivor (h : Collected crates ord dd ids removed dd') {p : PackId} (hp : p ∈ ids)
    (hlists : Lists crates dd p tag) (kept : ¬ OnlyAsDuplicate crates ord dd ids tag) :
    ∃ q ∈ ids, Lists crates dd q tag ∧ q ∉ removed := by
  by_contra hnone
  have hall : ∀ q ∈ ids, Lists crates dd q tag → q ∈ removed := fun q hq hqlists => by
    by_contra hq'
    exact hnone ⟨q, hq, hqlists, hq'⟩
  refine kept ⟨fun q hq hqlists => h.removed_lists (hall q hq hqlists) hqlists, ?_⟩
  have hremoved := hall p hp hlists
  obtain ⟨own, hown, hredundant⟩ := (h.redundant p).mp hremoved
  have hname := h.removed_lists hremoved hlists
  rwa [PackId.looseOf_injective (hname.symm.trans hown)]

/-- A tag that is not only a duplicate is found again with the entries it had. -/
theorem found (h : Collected crates ord dd ids removed dd')
    (sha1 : Set.InjOn crates.sha1 (identityStreams crates ord dd))
    (valid : SnapshotId.isValid crates.unicode tag = true)
    (hfind : findSnapshot crates ord dd tag = .ok id)
    (kept : ¬ OnlyAsDuplicate crates ord dd ids tag) :
    ∃ id', findSnapshot crates ord dd' tag = .ok id' ∧ SameSnapshot crates ord dd id dd' id' := by
  obtain ⟨hpack, htag⟩ := (findSnapshot_tag valid).mp hfind
  obtain ⟨hp, hlists, loads, c, hc⟩ :=
    findPackWithSnapshot_checksum h.discovered h.checksums hpack
  obtain ⟨s, hs, hslists, hskept⟩ := h.survivor hp hlists kept
  obtain ⟨ids', hids', hmem⟩ := h.packs_ok
  have loads' : ∀ q ∈ ids', ∃ tags, loadIndexSnapshots crates dd' q = .ok tags := fun q hq => by
    obtain ⟨hq, hqkept⟩ := (hmem q).mp hq
    obtain ⟨tags, htags⟩ := loads q hq
    obtain ⟨bytes, hopen, hload⟩ := loadIndexSnapshots_eq_ok.mp htags
    exact ⟨tags, loadIndexSnapshots_eq_ok.mpr ⟨bytes, h.openIndex_iff.mpr ⟨hopen, hqkept⟩, hload⟩⟩
  have agree : ∀ q ∈ ids', Lists crates dd' q tag →
      checksumIn crates ord dd' tag q = .ok (some c) := fun q hq hqlists => by
    obtain ⟨hq, hqkept⟩ := (hmem q).mp hq
    exact (h.hasChecksum hqkept (hc q hq (h.lists_iff.mp hqlists).1)).checksumIn
  obtain ⟨p', hp', hlists', hfound⟩ := findPackWithSnapshot_of_agree hids' loads'
    ⟨s, (hmem s).mpr ⟨hs, hskept⟩, h.lists_iff.mpr ⟨hslists, hskept⟩⟩ agree
  refine ⟨⟨p', tag⟩, (findSnapshot_tag valid).mpr ⟨hfound, rfl⟩, ?_⟩
  obtain ⟨hp', hkept'⟩ := (hmem p').mp hp'
  have hc' := hc p' hp' (h.lists_iff.mp hlists').1
  obtain ⟨ts, ts', hts, hts', hsame⟩ := (hc id.pack hp hlists).same sha1 hc'
  refine ⟨ts, ts', ?_, ?_, hsame⟩
  · rw [← hts, ← htag]
  · rw [← hts', snapshotTriples, snapshotTriples]
    obtain ⟨index, hload, -⟩ := hc'
    rw [hload, h.loadIndex_iff.mpr ⟨hload, hkept'⟩]

end Collected

/-- Collecting objects touches nothing but the loose objects. -/
theorem collectObjects_frame {dryRun : Bool} {objects : List ObjectChecksum}
    (h : collectObjects dryRun dd objects = .ok dd') : dd' = { dd with loose := dd'.loose } := by
  induction objects generalizing dd with
  | nil =>
    cases h
    rfl
  | cons checksum rest ih =>
    obtain ⟨_, -, h⟩ := Exec.bind_eq_ok.mp h
    cases dryRun with
    | true => exact ih h
    | false =>
      obtain ⟨mid, hmid, h⟩ := Exec.bind_eq_ok.mp h
      obtain ⟨tree, -, hmid⟩ := Exec.bind_eq_ok.mp hmid
      cases hmid
      rw [ih h]

namespace CollectionSample

/-- The category of the characters that the samples are spelled with. -/
def category (c : Char) : Char :=
  if c.isAlpha then 'L' else if c.isDigit then 'N' else 'C'

/-- A version 1 index of one snapshot, with one empty file `x` that is readable. -/
def tags (tag : UInt8) : List UInt8 := [0x91, 0xA1, tag]

def deltas : List UInt8 := [0x91, 0x92, 0x91, 0x92, 0, 0, 0x90]

def paths : List UInt8 := [0x91, 0x81, 0xA4, 85, 110, 105, 120, 0x91, 120]

def emptyObject : ObjectChecksum := .ofNothing

def objects : List UInt8 :=
  [0x91, 0xDC, 0, 20] ++ emptyObject.bytes.flatMap fun b => if b < 128 then [b] else [0xCC, b]

def metadata : List UInt8 := [0x91, 0x92, 0, 0]

def index (tag : UInt8) : List UInt8 :=
  magic ++ [0, 0, 0, 1] ++ [0x95] ++ tags tag ++ deltas ++ paths ++ objects ++ metadata

def handle : LegacyWireHandle := ⟨0, 0, none⟩

def rmp : Rmp where
  arrayLen := readsAs [0x95] 5
  requiredFeatures := noReader
  snapshotTags := fun bytes => readsAs (tags 97) ["a"] bytes <|> readsAs (tags 98) ["b"] bytes
  snapshotDeltas := noReader
  pathPool := noReader
  objectPool := readsAs objects (.single emptyObject)
  objectMetadata := readsAs metadata (.single ⟨0, 0⟩)
  extensions := noReader
  legacyDeltas := readsAs deltas (.single ⟨.single handle, .nil⟩)
  legacyPaths := readsAs paths (.single (.unix (.single 120)))

/-- The digest of the one list of entries that the samples have. -/
def digest : ObjectChecksum :=
  ⟨[13, 48, 4, 195, 38, 211, 193, 183, 43, 48, 134, 216, 184, 63, 12, 85, 197, 9, 136, 57], rfl⟩

def sampleCrates : Crates where
  rmp := rmp
  sha1 := fun _ => digest
  unicode := ⟨category, by decide⟩

def sampleOrd : IterOrder FileHandle := .insertion

def orders : GcOrders := ⟨.insertion, .insertion⟩

def looseSnapshots : GcOptions := ⟨false, true, false⟩

/-- A pack `p` of the tag `a`, and a loose index. -/
def dataDir (loose : String) (tag : UInt8) : DataDir where
  packs := [("p.pack.idx", .file (index 97) 1), ("p.pack", .file [] 1), ("loose", .dir),
    (loose, .file (index tag) 2)].foldl (fun tree node => tree.insert node.1 node.2) ∅
  loose := ∅
  head := none

def loaded (tag : String) : PackIndex :=
  .fromParts [tag] [⟨[handle.deserialize.toFileHandle], []⟩]
    (EntryPool.new.internAll [.x]) (.deserialize [emptyObject]) [⟨0, 0⟩]

def entries : List Triple := [⟨.x, emptyObject, default⟩]

theorem loaded_entries {own tag : String} {ts : List Triple}
    (h : (loaded own).identityEntries (ε := Error) sampleOrd tag = .ok (some ts)) :
    ts = entries := by
  obtain ⟨found, hfound, h⟩ := Exec.bind_eq_ok.mp h
  obtain ⟨current, hcurrent, hfound⟩ := Exec.bind_eq_ok.mp hfound
  obtain ⟨set, hset, hcurrent⟩ := Exec.bind_eq_ok.mp hcurrent
  cases hset
  split_ifs at hcurrent
  · cases hcurrent
    cases hfound
    cases h
    rfl
  · cases hcurrent
    cases hfound
    cases h

theorem parse_index {bytes : List UInt8} {parsed : PackIndex}
    (hbytes : bytes = index 97 ∨ bytes = index 98 ∨ bytes = [])
    (h : PackIndex.parse rmp bytes = .ok parsed) : ∃ own, parsed = loaded own := by
  rcases hbytes with rfl | rfl | rfl
  · cases h
    exact ⟨"a", rfl⟩
  · cases h
    exact ⟨"b", rfl⟩
  · cases h

/-- There is one list of entries, so the digest cannot collide. -/
theorem sample_sha1 {dd : DataDir}
    (hdd : dd = dataDir "loose/a.pack.idx" 97 ∨ dd = dataDir "loose/b.pack.idx" 98) :
    Set.InjOn sampleCrates.sha1 (identityStreams sampleCrates sampleOrd dd) := by
  have stream : ∀ s ∈ identityStreams sampleCrates sampleOrd dd, s = identityStream entries := by
    rintro s ⟨id, tag', parsed, ts, hload, hts, rfl⟩
    obtain ⟨bytes, hopen, hparse⟩ := loadIndex_eq_ok.mp hload
    obtain ⟨-, hfile⟩ := openIndex_eq_ok.mp hopen
    have hbytes : bytes = index 97 ∨ bytes = index 98 ∨ bytes = [] := by
      rcases hdd with rfl | rfl
      · have hfiles : (dataDir "loose/a.pack.idx" 97).packs.files =
            [("loose/a.pack.idx", index 97), ("p.pack", []), ("p.pack.idx", index 97)] := rfl
        rw [hfiles] at hfile
        grind
      · have hfiles : (dataDir "loose/b.pack.idx" 98).packs.files =
            [("loose/b.pack.idx", index 98), ("p.pack", []), ("p.pack.idx", index 97)] := rfl
        rw [hfiles] at hfile
        grind
    obtain ⟨own, rfl⟩ := parse_index hbytes hparse
    rw [loaded_entries hts]
  intro s hs s' hs' _
  rw [stream s hs, stream s' hs']

end CollectionSample

end Elfshaker.Store
