import Elfshaker.Format.PackIndex
import Mathlib.Data.Finset.Card
import Mathlib.Data.Nat.Digits.Lemmas

namespace Elfshaker.Format

open Elfshaker.Library

namespace PackIndex

/-- The handle an index gives to a file. -/
def fileHandle (index : PackIndex) (e : FileEntry) : FileHandle :=
  ⟨index.pathPool.handleOf e.path, index.objectPool.handleOf e.checksum, e.metadata⟩

/-- The handles of a list of files, as a set. -/
def handleSet (index : PackIndex) (entries : List FileEntry) : Set FileHandle :=
  {h | ∃ e ∈ entries, index.fileHandle e = h}

/-- The pools and the metadata table know a file. -/
structure Interns (index : PackIndex) (e : FileEntry) : Prop where
  path : e.path ∈ index.pathPool.entries
  object : e.checksum ∈ index.objectPool.entries
  metadata : (index.objectMetadata.lookup (index.objectPool.handleOf e.checksum)).isSome

/-- The pools only grow, and no object loses its metadata. -/
structure Extends (index index' : PackIndex) : Prop where
  paths : index.pathPool.entries <+: index'.pathPool.entries
  objects : index.objectPool.entries <+: index'.objectPool.entries
  metadata : ∀ h, (index.objectMetadata.lookup h).isSome → (index'.objectMetadata.lookup h).isSome

theorem Extends.refl (index : PackIndex) : index.Extends index :=
  ⟨List.prefix_rfl, List.prefix_rfl, fun _ => id⟩

theorem Extends.trans {a b c : PackIndex} (h : a.Extends b) (h' : b.Extends c) : a.Extends c :=
  ⟨h.paths.trans h'.paths, h.objects.trans h'.objects, fun k hk => h'.metadata k (h.metadata k hk)⟩

theorem Extends.fileHandle {a b : PackIndex} (h : a.Extends b) {e : FileEntry}
    (he : a.Interns e) : b.fileHandle e = a.fileHandle e := by
  rw [PackIndex.fileHandle, EntryPool.handleOf_of_grows h.paths he.path,
    EntryPool.handleOf_of_grows h.objects he.object]
  rfl

theorem Extends.interns {a b : PackIndex} (h : a.Extends b) {e : FileEntry}
    (he : a.Interns e) : b.Interns e := by
  refine ⟨h.paths.subset he.path, h.objects.subset he.object, ?_⟩
  rw [EntryPool.handleOf_of_grows h.objects he.object]
  exact h.metadata _ he.metadata

theorem Extends.handleSet {a b : PackIndex} (h : a.Extends b) {entries : List FileEntry}
    (he : ∀ e ∈ entries, a.Interns e) : b.handleSet entries = a.handleSet entries := by
  ext handle
  constructor
  · rintro ⟨e, hm, rfl⟩
    exact ⟨e, hm, (h.fileHandle (he e hm)).symm⟩
  · rintro ⟨e, hm, rfl⟩
    exact ⟨e, hm, h.fileHandle (he e hm)⟩

theorem entryToHandle_metadata (index : PackIndex) (e : FileEntry) :
    (index.entryToHandle e).1.objectMetadata =
      index.objectMetadata.insert (index.objectPool.getOrInsert e.checksum).2 e.objectMetadata :=
  rfl

theorem entryToHandle_extends (index : PackIndex) (e : FileEntry) :
    index.Extends (index.entryToHandle e).1 := by
  refine ⟨EntryPool.getOrInsert_grows _ _, EntryPool.getOrInsert_grows _ _, fun h hh => ?_⟩
  rw [entryToHandle_metadata]
  by_cases heq : h = (index.objectPool.getOrInsert e.checksum).2
  · rw [heq, AList.lookup_insert]
    rfl
  · rwa [AList.lookup_insert_ne heq]

theorem entryToHandle_interns (index : PackIndex) (e : FileEntry) :
    (index.entryToHandle e).1.Interns e := by
  refine ⟨EntryPool.mem_getOrInsert.mpr (.inr rfl), EntryPool.mem_getOrInsert.mpr (.inr rfl), ?_⟩
  have hpool : (index.entryToHandle e).1.objectPool =
      (index.objectPool.getOrInsert e.checksum).1 := rfl
  rw [entryToHandle_metadata, hpool, EntryPool.getOrInsert_handle, AList.lookup_insert]
  rfl

theorem entryToHandle_handle (index : PackIndex) (e : FileEntry) :
    (index.entryToHandle e).2 = (index.entryToHandle e).1.fileHandle e := by
  simp only [entryToHandle, fileHandle, EntryPool.getOrInsert_handle]

/-- What interning a list of files does to the pools. -/
structure Interned (index : PackIndex) (entries : List FileEntry) (index' : PackIndex) : Prop where
  extended : index.Extends index'
  interns : ∀ e ∈ entries, index'.Interns e
  paths : ∀ x ∈ index'.pathPool.entries, x ∈ index.pathPool.entries ∨ ∃ e ∈ entries, e.path = x
  objects : ∀ x ∈ index'.objectPool.entries,
    x ∈ index.objectPool.entries ∨ ∃ e ∈ entries, e.checksum = x

/-- The pools do not depend on the snapshots. -/
theorem Interned.withSnapshots {index index' : PackIndex} {entries : List FileEntry}
    (h : index.Interned entries index') (tags : List String) (deltas : List (ChangeSet FileHandle))
    (files : HashSet FileHandle) :
    index.Interned entries
      { index' with snapshotTags := tags, snapshotDeltas := deltas, current := files } where
  extended := ⟨h.extended.paths, h.extended.objects, h.extended.metadata⟩
  interns := fun e he => ⟨(h.interns e he).path, (h.interns e he).object, (h.interns e he).metadata⟩
  paths := h.paths
  objects := h.objects

theorem entriesToHandles_snapshots (index : PackIndex) (entries : List FileEntry) :
    (index.entriesToHandles entries).1.snapshotTags = index.snapshotTags ∧
    (index.entriesToHandles entries).1.snapshotDeltas = index.snapshotDeltas ∧
    (index.entriesToHandles entries).1.current = index.current := by
  induction entries generalizing index with
  | nil => exact ⟨rfl, rfl, rfl⟩
  | cons e entries ih => exact ih (index.entryToHandle e).1

theorem entriesToHandles_interned (index : PackIndex) (entries : List FileEntry) :
    index.Interned entries (index.entriesToHandles entries).1 := by
  induction entries generalizing index with
  | nil => exact ⟨.refl index, by simp, fun x hx => .inl hx, fun x hx => .inl hx⟩
  | cons e entries ih =>
    have step := entryToHandle_extends index e
    obtain ⟨hext, hinterns, hpaths, hobjects⟩ := ih (index.entryToHandle e).1
    refine ⟨step.trans hext, fun e' he' => ?_, fun x hx => ?_, fun x hx => ?_⟩
    · rcases List.mem_cons.mp he' with rfl | he'
      · exact hext.interns (entryToHandle_interns index e')
      · exact hinterns e' he'
    · rcases hpaths x hx with hx | ⟨e', he', rfl⟩
      · rcases EntryPool.mem_getOrInsert.mp hx with hx | rfl
        · exact .inl hx
        · exact .inr ⟨e, List.mem_cons_self, rfl⟩
      · exact .inr ⟨e', List.mem_cons_of_mem _ he', rfl⟩
    · rcases hobjects x hx with hx | ⟨e', he', rfl⟩
      · rcases EntryPool.mem_getOrInsert.mp hx with hx | rfl
        · exact .inl hx
        · exact .inr ⟨e, List.mem_cons_self, rfl⟩
      · exact .inr ⟨e', List.mem_cons_of_mem _ he', rfl⟩

theorem entriesToHandles_handles (index : PackIndex) (entries : List FileEntry) :
    (index.entriesToHandles entries).2 =
      entries.map (index.entriesToHandles entries).1.fileHandle := by
  induction entries generalizing index with
  | nil => rfl
  | cons e entries ih =>
    have hext := (entriesToHandles_interned (index.entryToHandle e).1 entries).extended
    have hfile := hext.fileHandle (entryToHandle_interns index e)
    simp only [entriesToHandles, List.map_cons]
    rw [entryToHandle_handle, ← hfile, ih]

/-- What a push does to an index. -/
theorem pushSnapshot_tags {ord : IterOrder FileHandle} {index index' : PackIndex} {tag : String}
    {input : List FileEntry} (h : index.pushSnapshot ord tag input = .ok index') :
    tag ∉ index.snapshotTags ∧ index'.snapshotTags = index.snapshotTags ++ [tag] := by
  unfold pushSnapshot at h
  split_ifs at h with htag
  · cases h
  · obtain ⟨_, -, hindex⟩ := Exec.bind_eq_ok.mp h
    cases hindex
    exact ⟨htag, congrArg (· ++ [tag]) (entriesToHandles_snapshots index input).1⟩

theorem pushSnapshot_ok (ord : IterOrder FileHandle) (index : PackIndex) {tag : String}
    (input : List FileEntry) (fresh : tag ∉ index.snapshotTags) :
    ∃ index' delta, index.pushSnapshot ord tag input = .ok index' ∧
      index.Interned input index' ∧
      index'.snapshotTags = index.snapshotTags ++ [tag] ∧
      index'.snapshotDeltas = index.snapshotDeltas ++ [delta] ∧
      index'.current.toSet = index'.handleSet input ∧
      delta.Leads index.current.toSet index'.current.toSet := by
  obtain ⟨htags, hdeltas, hcurrent⟩ := entriesToHandles_snapshots index input
  obtain ⟨set, delta, hchanges, hleads⟩ := Snapshot.getChanges_leads (ε := PackError) ord
    (index.entriesToHandles input).1.current (HashSet.ofList (index.entriesToHandles input).2)
  have hok : index.pushSnapshot ord tag input = .ok { (index.entriesToHandles input).1 with
      current := HashSet.ofList (index.entriesToHandles input).2
      snapshotTags := index.snapshotTags ++ [tag]
      snapshotDeltas := index.snapshotDeltas ++ [delta] } := by
    rw [pushSnapshot, if_neg fresh]
    simp only [hchanges, Exec.ok_bind, htags, hdeltas]
  refine ⟨_, delta, hok, (entriesToHandles_interned index input).withSnapshots _ _ _, rfl, rfl,
    ?_, ?_⟩
  · ext h
    rw [HashSet.mem_toSet, HashSet.mem_ofList, entriesToHandles_handles, List.mem_map]
    rfl
  · rwa [hcurrent] at hleads

end PackIndex

/-- One call of `push_snapshot`; the hash sets it walks have an order of their own. -/
structure Push where
  ord : IterOrder FileHandle
  tag : String
  entries : List FileEntry

def pushAll (index : PackIndex) : List Push → Exec PackError PackIndex
  | [] => .ok index
  | push :: pushes => do
    let index ← index.pushSnapshot push.ord push.tag push.entries
    pushAll index pushes

/-- The state of an index that a list of pushes has built. -/
structure Pushed (index : PackIndex) (pushes : List Push) : Prop where
  tags : index.snapshotTags = pushes.map Push.tag
  interns : ∀ push ∈ pushes, ∀ e ∈ push.entries, index.Interns e
  chain : Delta.Chain ∅ index.snapshotDeltas (pushes.map fun push => index.handleSet push.entries)
  current : index.current.toSet =
    ((pushes.map fun push => index.handleSet push.entries).getLast?).getD ∅
  paths : ∀ x ∈ index.pathPool.entries, ∃ push ∈ pushes, ∃ e ∈ push.entries, e.path = x
  objects : ∀ x ∈ index.objectPool.entries, ∃ push ∈ pushes, ∃ e ∈ push.entries, e.checksum = x

theorem Pushed.new : Pushed .new [] where
  tags := rfl
  interns := by simp
  chain := .nil ∅
  current := by
    ext h
    simp [PackIndex.new]
  paths := by simp [PackIndex.new, EntryPool.new]
  objects := by simp [PackIndex.new, EntryPool.new]

theorem Pushed.push {index : PackIndex} {pushes : List Push} (h : Pushed index pushes)
    {push : Push} (fresh : push.tag ∉ index.snapshotTags) :
    ∃ index', index.pushSnapshot push.ord push.tag push.entries = .ok index' ∧
      Pushed index' (pushes ++ [push]) := by
  obtain ⟨index', delta, hok, interned, htags, hdeltas, hcurrent, hleads⟩ :=
    PackIndex.pushSnapshot_ok push.ord index push.entries fresh
  have same : (pushes.map fun p => index'.handleSet p.entries) =
      pushes.map fun p => index.handleSet p.entries :=
    List.map_congr_left fun p hp => interned.extended.handleSet (h.interns p hp)
  refine ⟨index', hok, ?_, fun p hp e he => ?_, ?_, ?_, fun x hx => ?_, fun x hx => ?_⟩
  · rw [htags, h.tags, List.map_append, List.map_singleton]
  · rcases List.mem_append.mp hp with hp | hp
    · exact interned.extended.interns (h.interns p hp e he)
    · rw [List.mem_singleton.mp hp] at he
      exact interned.interns e he
  · rw [h.current] at hleads
    rw [List.map_append, List.map_singleton, same, hdeltas, ← hcurrent]
    exact h.chain.append hleads
  · rw [List.map_append, List.map_singleton, List.getLast?_append]
    exact hcurrent
  · rcases interned.paths x hx with hx | ⟨e, he, rfl⟩
    · obtain ⟨p, hp, e, he, rfl⟩ := h.paths x hx
      exact ⟨p, List.mem_append_left _ hp, e, he, rfl⟩
    · exact ⟨push, by simp, e, he, rfl⟩
  · rcases interned.objects x hx with hx | ⟨e, he, rfl⟩
    · obtain ⟨p, hp, e, he, rfl⟩ := h.objects x hx
      exact ⟨p, List.mem_append_left _ hp, e, he, rfl⟩
    · exact ⟨push, by simp, e, he, rfl⟩

theorem Pushed.pushAll {index : PackIndex} {done pushes : List Push} (h : Pushed index done)
    (distinct : ((done ++ pushes).map Push.tag).Nodup) :
    ∃ index', Format.pushAll index pushes = .ok index' ∧ Pushed index' (done ++ pushes) := by
  induction pushes generalizing index done with
  | nil => exact ⟨index, rfl, by simpa using h⟩
  | cons push pushes ih =>
    have fresh : push.tag ∉ index.snapshotTags := by
      rw [h.tags]
      rw [List.map_append, List.map_cons] at distinct
      exact fun hm => (List.nodup_append.mp distinct).2.2 _ hm _ List.mem_cons_self rfl
    obtain ⟨mid, hmid, hpushed⟩ := h.push fresh
    rw [List.append_cons] at distinct ⊢
    obtain ⟨index', hok, hpushed'⟩ := ih hpushed distinct
    exact ⟨index', Exec.bind_eq_ok.mpr ⟨mid, hmid, hok⟩, hpushed'⟩

/-- Resolving a tag and then its handles gives a set of triples, each once. -/
def PackIndex.Yields (index : PackIndex) (tag : String) (wanted : List Triple) : Prop :=
  ∀ ord : IterOrder FileHandle, ∃ handles entries,
    index.resolveSnapshot (ε := PackError) ord tag = .ok (some handles) ∧
    index.entriesFromHandles handles = .ok entries ∧
    (triples entries).Nodup ∧
    ∀ t, t ∈ triples entries ↔ t ∈ wanted

/-- No push fails, and every snapshot comes back as it was pushed. -/
def PushRoundTrips (pushes : List Push) : Prop :=
  ∃ index, pushAll .new pushes = .ok index ∧
    ∀ push ∈ pushes, index.Yields push.tag (triples push.entries)

def pushedPaths (pushes : List Push) : List PackPath :=
  pushes.flatMap fun push => push.entries.map FileEntry.path

def pushedObjects (pushes : List Push) : List ObjectChecksum :=
  pushes.flatMap fun push => push.entries.map FileEntry.checksum

/-- There are handles for all the paths and for all the objects. -/
def PoolsFit (pushes : List Push) : Prop :=
  (pushedPaths pushes).toFinset.card ≤ handleCount ∧
  (pushedObjects pushes).toFinset.card ≤ handleCount

theorem mem_pushedPaths {pushes : List Push} {x : PackPath} :
    x ∈ pushedPaths pushes ↔ ∃ push ∈ pushes, ∃ e ∈ push.entries, e.path = x := by
  simp [pushedPaths]

theorem mem_pushedObjects {pushes : List Push} {x : ObjectChecksum} :
    x ∈ pushedObjects pushes ↔ ∃ push ∈ pushes, ∃ e ∈ push.entries, e.checksum = x := by
  simp [pushedObjects]

theorem EntryPool.fits_of_subset {α : Type} [DecidableEq α] {pool : EntryPool α} {xs : List α}
    (hsub : ∀ x ∈ pool.entries, x ∈ xs) (hcard : xs.toFinset.card ≤ handleCount) : pool.Fits := by
  refine le_trans ?_ hcard
  rw [← List.toFinset_card_of_nodup pool.nodup]
  exact Finset.card_le_card fun x hx => by
    rw [List.mem_toFinset] at hx ⊢
    exact hsub x hx

/-- Handles reach no more values than there are handles. -/
theorem EntryPool.card_le_of_lookup {α : Type} [DecidableEq α] (pool : EntryPool α)
    {xs : List α} (h : ∀ x ∈ xs, ∃ handle, pool.lookup handle = some x) : xs.toFinset.card ≤ handleCount := by
  have hsub : xs.toFinset ⊆ (pool.entries.take handleCount).toFinset := by
    intro x hx
    rw [List.mem_toFinset] at hx ⊢
    obtain ⟨handle, hlookup⟩ := h x hx
    have hlt : handle.toNat < handleCount := handle.toNat_lt
    have htake : (pool.entries.take handleCount)[handle.toNat]? = some x := by
      rw [List.getElem?_take_of_lt hlt]
      exact hlookup
    exact List.mem_of_getElem? htake
  calc xs.toFinset.card ≤ (pool.entries.take handleCount).toFinset.card := Finset.card_le_card hsub
    _ ≤ (pool.entries.take handleCount).length := List.toFinset_card_le _
    _ ≤ handleCount := List.length_take_le _ _

theorem Pushed.poolsFit {index : PackIndex} {pushes : List Push} (h : Pushed index pushes)
    (fit : PoolsFit pushes) : index.pathPool.Fits ∧ index.objectPool.Fits :=
  ⟨EntryPool.fits_of_subset (fun x hx => mem_pushedPaths.mpr (h.paths x hx)) fit.1,
    EntryPool.fits_of_subset (fun x hx => mem_pushedObjects.mpr (h.objects x hx)) fit.2⟩

namespace PackIndex

/-- The handle of a file depends on its triple only. -/
theorem fileHandle_congr {index : PackIndex} {e e' : FileEntry} (h : e.triple = e'.triple) :
    index.fileHandle e = index.fileHandle e' := by
  obtain ⟨hpath, hsum, hmeta⟩ := Triple.mk.inj h
  rw [fileHandle, fileHandle, hpath, hsum, hmeta]

theorem handleToEntry_fileHandle {index : PackIndex} (hpaths : index.pathPool.Fits)
    (hobjects : index.objectPool.Fits) {e : FileEntry} (he : index.Interns e) :
    ∃ e', index.handleToEntry (index.fileHandle e) = .ok e' ∧ e'.triple = e.triple := by
  obtain ⟨metadata, hmetadata⟩ := Option.isSome_iff_exists.mp he.metadata
  refine ⟨⟨e.path, e.checksum, metadata, e.metadata⟩, handleToEntry_eq_ok.mpr ?_, rfl⟩
  exact ⟨EntryPool.lookup_handleOf hpaths he.path, EntryPool.lookup_handleOf hobjects he.object,
    hmetadata, rfl⟩

/-- Handles of interned files lead back to these files, each once. -/
theorem entriesFromHandles_of_handleSet {index : PackIndex} (hpaths : index.pathPool.Fits)
    (hobjects : index.objectPool.Fits) {entries : List FileEntry}
    (interns : ∀ e ∈ entries, index.Interns e) {handles : List FileHandle}
    (hnodup : handles.Nodup) (hmem : ∀ h, h ∈ handles ↔ h ∈ index.handleSet entries) :
    ∃ found, index.entriesFromHandles handles = .ok found ∧ (triples found).Nodup ∧
      ∀ t, t ∈ triples found ↔ t ∈ triples entries := by
  have each : ∀ h ∈ handles, ∃ e ∈ entries, ∃ e', index.handleToEntry h = .ok e' ∧
      e'.triple = e.triple ∧ index.fileHandle e' = h := by
    intro h hh
    obtain ⟨e, he, rfl⟩ := (hmem h).mp hh
    obtain ⟨e', hok, htriple⟩ := handleToEntry_fileHandle hpaths hobjects (interns e he)
    exact ⟨e, he, e', hok, htriple, fileHandle_congr htriple⟩
  obtain ⟨found, hfound⟩ := Exec.mapM_exists fun h hh =>
    let ⟨_, _, e', hok, _⟩ := each h hh
    ⟨e', hok⟩
  have back : handles = found.map index.fileHandle := by
    have hall := Exec.mapM_eq_ok.mp hfound
    clear hfound hnodup hmem
    induction hall with
    | nil => rfl
    | @cons h e' hs es hstep _ ih =>
      obtain ⟨_, _, e'', hok, _, hfile⟩ := each h List.mem_cons_self
      rw [hstep] at hok
      cases hok
      rw [List.map_cons, hfile, ih fun h hh => each h (List.mem_cons_of_mem _ hh)]
  refine ⟨found, hfound, ?_, fun t => ?_⟩
  · refine List.Nodup.of_map (fun t => index.fileHandle ⟨t.path, t.checksum, ⟨0, 0⟩, t.metadata⟩) ?_
    rw [triples, List.map_map]
    have same : (fun t : Triple => index.fileHandle ⟨t.path, t.checksum, ⟨0, 0⟩, t.metadata⟩) ∘
        FileEntry.triple = index.fileHandle := rfl
    rwa [same, ← back]
  · simp only [triples, List.mem_map]
    constructor
    · rintro ⟨e', he', rfl⟩
      obtain ⟨h, hh, hok⟩ := Exec.mem_of_mapM hfound he'
      obtain ⟨e, he, e'', hok', htriple, _⟩ := each h hh
      rw [hok] at hok'
      cases hok'
      exact ⟨e, he, htriple.symm⟩
    · rintro ⟨e, he, rfl⟩
      have hh : index.fileHandle e ∈ handles := (hmem _).mpr ⟨e, he, rfl⟩
      obtain ⟨e', he', hok⟩ := Exec.mapM_mem hfound hh
      obtain ⟨e'', hok', htriple⟩ := handleToEntry_fileHandle hpaths hobjects (interns e he)
      rw [hok] at hok'
      cases hok'
      exact ⟨e', he', htriple⟩

end PackIndex

theorem Pushed.chain_empty {index : PackIndex} {pushes : List Push} (h : Pushed index pushes) :
    Delta.Chain (HashSet.empty : HashSet FileHandle).toSet index.snapshotDeltas
      (pushes.map fun push => index.handleSet push.entries) := by
  convert h.chain
  ext
  simp

/-- A tag resolves to the files it was pushed with, or to nothing. -/
theorem Pushed.resolveSnapshot {index : PackIndex} {pushes : List Push} (h : Pushed index pushes)
    (distinct : (pushes.map Push.tag).Nodup) (ord : IterOrder FileHandle) (tag : String) :
    (tag ∉ pushes.map Push.tag ∧ index.resolveSnapshot (ε := PackError) ord tag = .ok none) ∨
      ∃ push ∈ pushes, push.tag = tag ∧ ∃ handles,
        index.resolveSnapshot (ε := PackError) ord tag = .ok (some handles) ∧
        ∀ handle, handle ∈ handles ↔ handle ∈ index.handleSet push.entries := by
  by_cases htag : tag ∈ pushes.map Push.tag
  · right
    obtain ⟨push, hpush, rfl⟩ := List.mem_map.mp htag
    obtain ⟨i, hi⟩ := List.mem_iff_getElem?.mp hpush
    have hat : index.snapshotTags[i]? = some push.tag := by
      rw [h.tags, List.getElem?_map, hi]
      rfl
    have first : ∀ j < i, index.snapshotTags[j]? ≠ some push.tag := by
      intro j hj heq
      rw [h.tags] at heq hat
      obtain ⟨hjl, -⟩ := List.getElem?_eq_some_iff.mp heq
      exact hj.ne ((List.getElem?_inj hjl distinct).mp (heq.trans hat.symm))
    obtain ⟨t, ht, hset⟩ := PackIndex.replay_of_chain (ε := PackError)
      (u := index.handleSet push.entries) h.chain_empty i hat first (by rw [List.getElem?_map, hi]; rfl)
    refine ⟨push, hpush, rfl, t.iter ord, PackIndex.resolveSnapshot_eq_some.mpr ⟨t, ht, rfl⟩, ?_⟩
    intro handle
    rw [HashSet.mem_iter, ← HashSet.mem_toSet, hset]
  · left
    refine ⟨htag, ?_⟩
    rw [← h.tags] at htag
    rw [PackIndex.resolveSnapshot, PackIndex.replay_of_absent h.chain_empty htag]
    rfl

theorem Pushed.yields {index : PackIndex} {pushes : List Push} (h : Pushed index pushes)
    (distinct : (pushes.map Push.tag).Nodup) (fit : PoolsFit pushes) {push : Push}
    (hpush : push ∈ pushes) : index.Yields push.tag (triples push.entries) := by
  intro ord
  obtain ⟨hpaths, hobjects⟩ := h.poolsFit fit
  rcases h.resolveSnapshot distinct ord push.tag with ⟨habsent, -⟩ | hpresent
  · exact absurd (List.mem_map_of_mem hpush) habsent
  · obtain ⟨push', hpush', htag, handles, hresolve, hmem⟩ := hpresent
    have hsame : push' = push := List.inj_on_of_nodup_map distinct hpush' hpush htag
    subst hsame
    have hnodup : handles.Nodup := by
      obtain ⟨t, -, rfl⟩ := PackIndex.resolveSnapshot_eq_some.mp hresolve
      exact HashSet.nodup_iter ord t
    obtain ⟨found, hfound, hfiles, htriples⟩ :=
      PackIndex.entriesFromHandles_of_handleSet hpaths hobjects (h.interns push' hpush') hnodup hmem
    exact ⟨handles, found, hresolve, hfound, hfiles, htriples⟩

/-- A snapshot that comes back needs a handle for each of its paths and objects. -/
theorem PushRoundTrips.poolsFit {pushes : List Push} (h : PushRoundTrips pushes) :
    PoolsFit pushes := by
  obtain ⟨index, -, hyields⟩ := h
  have found : ∀ push ∈ pushes, ∀ e ∈ push.entries, ∃ handle e',
      index.handleToEntry handle = .ok e' ∧ e'.triple = e.triple := by
    intro push hpush e he
    obtain ⟨handles, entries, -, hfound, -, hmem⟩ := hyields push hpush .insertion
    have ht : e.triple ∈ triples entries := (hmem _).mpr (List.mem_map_of_mem he)
    obtain ⟨e', he', htriple⟩ := List.mem_map.mp ht
    obtain ⟨handle, -, hok⟩ := Exec.mem_of_mapM hfound he'
    exact ⟨handle, e', hok, htriple⟩
  constructor
  · refine EntryPool.card_le_of_lookup index.pathPool fun x hx => ?_
    obtain ⟨push, hpush, e, he, rfl⟩ := mem_pushedPaths.mp hx
    obtain ⟨handle, e', hok, htriple⟩ := found push hpush e he
    exact ⟨handle.path, (PackIndex.handleToEntry_eq_ok.mp hok).1.trans
      (congrArg some (Triple.mk.inj htriple).1)⟩
  · refine EntryPool.card_le_of_lookup index.objectPool fun x hx => ?_
    obtain ⟨push, hpush, e, he, rfl⟩ := mem_pushedObjects.mp hx
    obtain ⟨handle, e', hok, htriple⟩ := found push hpush e he
    exact ⟨handle.object, (PackIndex.handleToEntry_eq_ok.mp hok).2.1.trans
      (congrArg some (Triple.mk.inj htriple).2.1)⟩

/-- No push fails when the tags are distinct, and the snapshots come back as
pushed exactly when there are handles for their paths and objects. -/
theorem push_round_trip_iff (pushes : List Push) (distinct : (pushes.map Push.tag).Nodup) :
    (∃ index, pushAll .new pushes = .ok index) ∧ (PushRoundTrips pushes ↔ PoolsFit pushes) := by
  have hdistinct : (([] ++ pushes).map Push.tag).Nodup := distinct
  obtain ⟨index, hok, hpushed⟩ := Pushed.new.pushAll hdistinct
  rw [List.nil_append] at hpushed
  refine ⟨⟨index, hok⟩, PushRoundTrips.poolsFit, fun fit => ⟨index, hok, fun push hpush => ?_⟩⟩
  exact hpushed.yields distinct fit hpush

/-- Two snapshots that share a file, the second one with a file given twice. -/
theorem push_round_trip_shared : PushRoundTrips
    [⟨.insertion, "first", [⟨.a, .zero, ⟨0, 0⟩, default⟩]⟩,
      ⟨.insertion, "second", [⟨.b, .zero, ⟨0, 0⟩, default⟩,
        ⟨.a, .zero, ⟨0, 0⟩, default⟩, ⟨.b, .zero, ⟨0, 0⟩, default⟩]⟩] :=
  (push_round_trip_iff _ (by decide)).2.mpr
    ⟨le_trans (List.toFinset_card_le _) (by decide), le_trans (List.toFinset_card_le _) (by decide)⟩

/-- A file named by letters, the digits of `n + 1` to the base 16. -/
def letters (n : Nat) : List UInt8 :=
  (Nat.digits 16 (n + 1)).map fun d => UInt8.ofNat (97 + d)

theorem letter_toNat {n d : Nat} (hd : d ∈ Nat.digits 16 n) :
    (UInt8.ofNat (97 + d)).toNat = 97 + d := by
  have := Nat.digits_lt_base (by decide) hd
  simp only [UInt8.toNat_ofNat']
  omega

theorem letters_injective {m n : Nat} (h : letters m = letters n) : m = n := by
  have values (k : Nat) : (letters k).map (fun b => b.toNat - 97) = Nat.digits 16 (k + 1) := by
    rw [letters, List.map_map]
    conv_rhs => rw [← List.map_id (Nat.digits 16 (k + 1))]
    refine List.map_congr_left fun d hd => ?_
    rw [Function.comp_apply, letter_toNat hd, Nat.add_sub_cancel_left]
    rfl
  have hdigits := congrArg (List.map fun b : UInt8 => b.toNat - 97) h
  rw [values, values] at hdigits
  exact Nat.succ_injective (Nat.digits_inj_iff.mp hdigits)

theorem letters_valid (n : Nat) : validate (letters n) = .ok () := by
  have hge : ∀ b ∈ letters n, 97 ≤ b.toNat := by
    intro b hb
    obtain ⟨d, hd, rfl⟩ := List.mem_map.mp hb
    rw [letter_toNat hd]
    exact Nat.le_add_right 97 d
  have hslash : slash ∉ letters n := fun h => absurd (hge _ h) (by decide)
  have hdot : dot ∉ letters n := fun h => absurd (hge _ h) (by decide)
  have hnul : 0 ∉ letters n := fun h => absurd (hge _ h) (by decide)
  have hne : letters n ≠ [] := by
    simp [letters]
  cases hl : letters n with
  | nil => exact absurd hl hne
  | cons b rest =>
    have hb : b ≠ slash := fun h => hslash (by rw [hl, h]; exact List.mem_cons_self)
    rw [validate, if_neg hb, ← hl, if_neg hnul, componentsOf, List.splitOn_eq_singleton hslash]
    refine validateComponents_ok.mpr fun c hc => ?_
    rw [List.mem_singleton.mp hc]
    exact ⟨hne, fun h => hdot (by simp [h]), fun h => hdot (by simp [h])⟩

def lettersEntry (n : Nat) : FileEntry :=
  ⟨⟨letters n, letters_valid n⟩, .zero, ⟨0, 0⟩, default⟩

/-- One snapshot with a path more than there are handles. -/
def crowdedPush : Push :=
  ⟨.insertion, "crowded", (List.range (handleCount + 1)).map lettersEntry⟩

theorem crowded_paths : (pushedPaths [crowdedPush]).toFinset.card = handleCount + 1 := by
  have hpaths : pushedPaths [crowdedPush] =
      (List.range (handleCount + 1)).map fun n => (lettersEntry n).path := by
    simp only [pushedPaths, crowdedPush, List.flatMap_cons, List.flatMap_nil, List.append_nil,
      List.map_map]
    rfl
  have hnodup : (pushedPaths [crowdedPush]).Nodup := by
    rw [hpaths]
    refine List.Nodup.map (fun m n h => ?_) List.nodup_range
    exact letters_injective (congrArg PackPath.bytes h)
  rw [List.toFinset_card_of_nodup hnodup, hpaths, List.length_map, List.length_range]

/-- The handle after the last one is the first again, and a path is lost. -/
theorem push_loses_crowded_path :
    ¬ ∀ pushes : List Push, (pushes.map Push.tag).Nodup → PushRoundTrips pushes := by
  intro h
  have fit := (h [crowdedPush] (List.nodup_singleton _)).poolsFit.1
  rw [crowded_paths] at fit
  exact Nat.not_succ_le_self _ fit

end Elfshaker.Format
