import Elfshaker.Format.Snapshot

namespace Elfshaker.Format

open Elfshaker.Library

/-- The metadata needed to extract files from a pack file. -/
structure PackIndex where
  snapshotTags : List String
  snapshotDeltas : List (ChangeSet FileHandle)
  pathPool : EntryPool PackPath
  objectPool : EntryPool ObjectChecksum
  objectMetadata : AList fun _ : Handle => ObjectMetadata
  current : HashSet FileHandle

namespace PackIndex

def new : PackIndex where
  snapshotTags := []
  snapshotDeltas := []
  pathPool := .new
  objectPool := .new
  objectMetadata := ∅
  current := .empty

def handleToChecksum (index : PackIndex) (h : Handle) : Exec ε ObjectChecksum :=
  Exec.unwrap (index.objectPool.lookup h)

def handleToEntry (index : PackIndex) (handle : FileHandle) : Exec PackError FileEntry := do
  let path ← Exec.okOr (.pathNotFound handle.path) (index.pathPool.lookup handle.path)
  let checksum ← Exec.okOr .objectNotFound (index.objectPool.lookup handle.object)
  let objectMetadata ← Exec.unwrap (index.objectMetadata.lookup handle.object)
  .ok ⟨path, checksum, objectMetadata, handle.metadata⟩

def entryToHandle (index : PackIndex) (entry : FileEntry) : PackIndex × FileHandle :=
  let (objectPool, object) := index.objectPool.getOrInsert entry.checksum
  let (pathPool, path) := index.pathPool.getOrInsert entry.path
  let objectMetadata := index.objectMetadata.insert object entry.objectMetadata
  ({ index with pathPool, objectPool, objectMetadata }, ⟨path, object, entry.metadata⟩)

def entriesToHandles (index : PackIndex) : List FileEntry → PackIndex × List FileHandle
  | [] => (index, [])
  | entry :: entries =>
    let (index, handle) := index.entryToHandle entry
    let (index, handles) := index.entriesToHandles entries
    (index, handle :: handles)

def hasSnapshot (index : PackIndex) (needle : String) : Bool :=
  index.snapshotTags.contains needle

/-- Replays deltas over a set until the snapshot is met. -/
def replay (needle : String) : HashSet FileHandle → List (String × ChangeSet FileHandle) →
    Exec ε (Option (HashSet FileHandle))
  | _, [] => .ok none
  | current, (tag, delta) :: rest => do
    let current ← Snapshot.applyChanges current delta
    if tag = needle then .ok (some current)
    else replay needle current rest

def resolveSnapshot (ord : IterOrder FileHandle) (index : PackIndex) (needle : String) :
    Exec ε (Option (List FileHandle)) := do
  let current ← replay needle .empty (index.snapshotTags.zip index.snapshotDeltas)
  .ok (current.map (HashSet.iter ord))

def entriesFromHandles (index : PackIndex) (handles : List FileHandle) :
    Exec PackError (List FileEntry) :=
  handles.mapM index.handleToEntry

/-- Adds a snapshot as the changes to the one pushed last. -/
def pushSnapshot (ord : IterOrder FileHandle) (index : PackIndex) (tag : String)
    (input : List FileEntry) : Exec PackError PackIndex := do
  if tag ∈ index.snapshotTags then
    Exec.fail (.snapshotAlreadyExists "<unknown>" tag)
  else
    let (index, handles) := index.entriesToHandles input
    let files := HashSet.ofList handles
    let (_, delta) ← Snapshot.getChanges ord index.current files
    .ok { index with
      current := files
      snapshotTags := index.snapshotTags ++ [tag]
      snapshotDeltas := index.snapshotDeltas ++ [delta] }

theorem handleToEntry_eq_ok {index : PackIndex} {handle : FileHandle} {entry : FileEntry} :
    index.handleToEntry handle = .ok entry ↔
      index.pathPool.lookup handle.path = some entry.path ∧
      index.objectPool.lookup handle.object = some entry.checksum ∧
      index.objectMetadata.lookup handle.object = some entry.objectMetadata ∧
      handle.metadata = entry.metadata := by
  simp only [handleToEntry, Exec.bind_eq_ok, Exec.okOr_eq_ok, Exec.unwrap_eq_ok]
  constructor
  · rintro ⟨path, hpath, checksum, hsum, metadata, hmeta, he⟩
    cases he
    exact ⟨hpath, hsum, hmeta, rfl⟩
  · rintro ⟨hpath, hsum, hmeta, hm⟩
    refine ⟨_, hpath, _, hsum, _, hmeta, ?_⟩
    rw [hm]

/-- Two handles that lead to one file are the same. -/
theorem handleToEntry_injective {index : PackIndex} {handle handle' : FileHandle}
    {e : FileEntry} (h : index.handleToEntry handle = .ok e)
    (h' : index.handleToEntry handle' = .ok e) : handle = handle' := by
  obtain ⟨hpath, hchecksum, -, hmetadata⟩ := handleToEntry_eq_ok.mp h
  obtain ⟨hpath', hchecksum', -, hmetadata'⟩ := handleToEntry_eq_ok.mp h'
  obtain ⟨p, o, m⟩ := handle
  obtain ⟨p', o', m'⟩ := handle'
  rw [FileHandle.mk.injEq]
  exact ⟨EntryPool.lookup_injective hpath hpath', EntryPool.lookup_injective hchecksum hchecksum',
    hmetadata.trans hmetadata'.symm⟩

theorem resolveSnapshot_eq_some {ord : IterOrder FileHandle} {index : PackIndex} {needle : String}
    {handles : List FileHandle} :
    index.resolveSnapshot (ε := ε) ord needle = .ok (some handles) ↔
      ∃ current, replay (ε := ε) needle .empty (index.snapshotTags.zip index.snapshotDeltas) =
        .ok (some current) ∧ current.iter ord = handles := by
  simp only [resolveSnapshot, Exec.bind_eq_ok, Except.ok.injEq, Option.map_eq_some_iff]
  constructor
  · rintro ⟨_, h, current, rfl, hv⟩
    exact ⟨current, h, hv⟩
  · rintro ⟨current, h, hv⟩
    exact ⟨_, h, current, rfl, hv⟩

/-- Where every delta leads from one set to the next, the replay stops at the
set of the first snapshot that has the tag. -/
theorem replay_of_chain {needle : String} {s : HashSet FileHandle} {tags : List String}
    {deltas : List (ChangeSet FileHandle)} {sets : List (Set FileHandle)}
    (chain : Delta.Chain s.toSet deltas sets) (i : Nat) (htag : tags[i]? = some needle)
    (first : ∀ j < i, tags[j]? ≠ some needle) {u : Set FileHandle} (hset : sets[i]? = some u) :
    ∃ t, replay (ε := ε) needle s (tags.zip deltas) = .ok (some t) ∧ t.toSet = u := by
  induction i generalizing s tags deltas sets with
  | zero =>
    cases chain with
    | nil => simp at hset
    | cons lead rest =>
      cases tags with
      | nil => simp at htag
      | cons tag tags =>
        obtain ⟨t, ht, heq⟩ := Snapshot.applyChanges_of_leads (ε := ε) lead
        simp only [List.getElem?_cons_zero, Option.some.injEq] at htag hset
        refine ⟨t, ?_, heq.trans hset⟩
        rw [List.zip_cons_cons, replay, ht, Exec.ok_bind, if_pos htag]
  | succ i ih =>
    cases chain with
    | nil => simp at hset
    | cons lead rest =>
      cases tags with
      | nil => simp at htag
      | cons tag tags =>
        obtain ⟨t, ht, rfl⟩ := Snapshot.applyChanges_of_leads (ε := ε) lead
        have hne : tag ≠ needle := by simpa using first 0 (Nat.succ_pos i)
        obtain ⟨u', hu', heq⟩ := ih rest (by simpa using htag)
          (fun j hj => by simpa using first (j + 1) (Nat.succ_lt_succ hj)) (by simpa using hset)
        refine ⟨u', ?_, heq⟩
        rw [List.zip_cons_cons, replay, ht, Exec.ok_bind, if_neg hne, hu']

theorem replay_of_absent {needle : String} {s : HashSet FileHandle} {tags : List String}
    {deltas : List (ChangeSet FileHandle)} {sets : List (Set FileHandle)}
    (chain : Delta.Chain s.toSet deltas sets) (absent : needle ∉ tags) :
    replay (ε := ε) needle s (tags.zip deltas) = .ok none := by
  induction tags generalizing s deltas sets with
  | nil => rfl
  | cons tag tags ih =>
    cases chain with
    | nil => rfl
    | cons lead rest =>
      obtain ⟨t, ht, rfl⟩ := Snapshot.applyChanges_of_leads (ε := ε) lead
      rw [List.mem_cons, not_or] at absent
      rw [List.zip_cons_cons, replay, ht, Exec.ok_bind, if_neg (Ne.symm absent.1)]
      exact ih rest absent.2

end PackIndex

end Elfshaker.Format
