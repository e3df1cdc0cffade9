import Elfshaker.Format.Reload

namespace Elfshaker.Format

open Elfshaker.Library

namespace PackIndex

/-- What is recorded for the objects of an index. -/
def Records (index : PackIndex) (R : ObjectChecksum → ObjectMetadata → Prop) : Prop :=
  ∀ handle checksum metadata, index.objectPool.lookup handle = some checksum →
    index.objectMetadata.lookup handle = some metadata → R checksum metadata

section Records

variable {R : ObjectChecksum → ObjectMetadata → Prop} {index : PackIndex}

theorem records_new : Records .new R := by
  intro handle checksum metadata hpool
  simp [new, EntryPool.new, EntryPool.lookup] at hpool

/-- A new object is recorded for its own handle, as long as there is one. -/
theorem entryToHandle_records {e : FileEntry} (h : index.Records R)
    (fits : (index.entryToHandle e).1.objectPool.Fits) (he : R e.checksum e.objectMetadata) :
    (index.entryToHandle e).1.Records R := by
  have hpool : (index.entryToHandle e).1.objectPool =
      (index.objectPool.getOrInsert e.checksum).1 := rfl
  intro handle checksum metadata hchecksum hmetadata
  rw [entryToHandle_metadata, EntryPool.getOrInsert_handle] at hmetadata
  rw [hpool] at hchecksum fits
  by_cases hhandle : handle = (index.objectPool.getOrInsert e.checksum).1.handleOf e.checksum
  · have hmem : e.checksum ∈ (index.objectPool.getOrInsert e.checksum).1.entries :=
      EntryPool.mem_getOrInsert.mpr (.inr rfl)
    rw [hhandle, EntryPool.lookup_handleOf fits hmem] at hchecksum
    rw [hhandle, AList.lookup_insert] at hmetadata
    cases hchecksum
    cases hmetadata
    exact he
  · rw [AList.lookup_insert_ne hhandle] at hmetadata
    refine h handle checksum metadata ?_ hmetadata
    by_cases hmem : e.checksum ∈ index.objectPool.entries
    · rwa [EntryPool.getOrInsert_of_mem hmem] at hchecksum
    · rw [EntryPool.getOrInsert_of_notMem hmem] at hchecksum hhandle
      have hentries : (index.objectPool.push e.checksum hmem).entries =
          index.objectPool.entries ++ [e.checksum] := rfl
      have hlast : (index.objectPool.push e.checksum hmem).handleOf e.checksum =
          toHandle index.objectPool.entries.length := by
        rw [EntryPool.handleOf, hentries, List.idxOf_append_of_notMem hmem]
        simp
      rw [EntryPool.lookup, hentries, List.getElem?_append] at hchecksum
      split_ifs at hchecksum with hlt
      · exact hchecksum
      · have hzero : handle.toNat - index.objectPool.entries.length = 0 := by
          by_contra hne
          rw [List.getElem?_eq_none (by simp; omega)] at hchecksum
          cases hchecksum
        have hcount : handle.toNat < handleCount := handle.toNat_lt
        refine absurd (UInt32.toNat.inj ?_) hhandle
        rw [hlast, toHandle_toNat, Nat.mod_eq_of_lt (by omega)]
        omega

theorem fits_of_grows {α : Type} [DecidableEq α] {pool pool' : EntryPool α}
    (h : pool.entries <+: pool'.entries) (fits : pool'.Fits) : pool.Fits :=
  h.length_le.trans fits

theorem entriesToHandles_records {entries : List FileEntry} (h : index.Records R)
    (fits : (index.entriesToHandles entries).1.objectPool.Fits)
    (he : ∀ e ∈ entries, R e.checksum e.objectMetadata) :
    (index.entriesToHandles entries).1.Records R := by
  induction entries generalizing index with
  | nil => exact h
  | cons e entries ih =>
    have hgrows := (entriesToHandles_interned (index.entryToHandle e).1 entries).extended.objects
    refine ih (entryToHandle_records h ?_ (he e List.mem_cons_self)) fits
      fun e' he' => he e' (List.mem_cons_of_mem _ he')
    exact fits_of_grows hgrows fits

theorem pushSnapshot_records {ord : IterOrder FileHandle} {index' : PackIndex} {tag : String}
    {input : List FileEntry} (h : index.Records R)
    (hpush : index.pushSnapshot ord tag input = .ok index') (fits : index'.objectPool.Fits)
    (he : ∀ e ∈ input, R e.checksum e.objectMetadata) : index'.Records R := by
  unfold pushSnapshot at hpush
  split_ifs at hpush
  · cases hpush
  · obtain ⟨_, -, hindex⟩ := Exec.bind_eq_ok.mp hpush
    cases hindex
    exact entriesToHandles_records h fits he

/-- What a successful push does, whatever the order of the walks. -/
theorem pushSnapshot_interned {ord : IterOrder FileHandle} {index' : PackIndex} {tag : String}
    {input : List FileEntry} (hpush : index.pushSnapshot ord tag input = .ok index') :
    index.Interned input index' := by
  obtain ⟨_, _, hok, interned, -⟩ := pushSnapshot_ok ord index input (pushSnapshot_tags hpush).1
  rw [hpush] at hok
  cases hok
  exact interned

end Records

end PackIndex

/-- What pushes leave as it was. -/
theorem pushAll_extends {index index' : PackIndex} {pushes : List Push}
    (h : pushAll index pushes = .ok index') :
    index.Extends index' ∧ ∃ deltas, index'.snapshotTags = index.snapshotTags ++ pushes.map Push.tag ∧
      index'.snapshotDeltas = index.snapshotDeltas ++ deltas := by
  induction pushes generalizing index with
  | nil =>
    cases h
    exact ⟨.refl _, [], by simp, by simp⟩
  | cons push pushes ih =>
    obtain ⟨mid, hmid, h⟩ := Exec.bind_eq_ok.mp h
    obtain ⟨mid', delta, hmid', interned, htags, hdeltas, -, -⟩ :=
      PackIndex.pushSnapshot_ok push.ord index push.entries (PackIndex.pushSnapshot_tags hmid).1
    rw [hmid] at hmid'
    cases hmid'
    obtain ⟨hextends, deltas, htags', hdeltas'⟩ := ih h
    refine ⟨interned.extended.trans hextends, delta :: deltas, ?_, ?_⟩
    · rw [htags', htags, List.map_cons, List.append_assoc, List.singleton_append]
    · rw [hdeltas', hdeltas, List.append_assoc, List.singleton_append]

theorem pushAll_nodup {index index' : PackIndex} {pushes : List Push}
    (nodup : index.snapshotTags.Nodup) (h : pushAll index pushes = .ok index') :
    index'.snapshotTags.Nodup := by
  induction pushes generalizing index with
  | nil =>
    cases h
    exact nodup
  | cons push pushes ih =>
    obtain ⟨mid, hmid, h⟩ := Exec.bind_eq_ok.mp h
    obtain ⟨fresh, htags⟩ := PackIndex.pushSnapshot_tags hmid
    refine ih ?_ h
    rw [htags, ← List.concat_eq_append]
    exact nodup.concat fresh

/-- The state of an index that has been built without an error. -/
theorem pushed_of_pushAll {index : PackIndex} {pushes : List Push}
    (h : pushAll .new pushes = .ok index) : Pushed index pushes ∧ (pushes.map Push.tag).Nodup := by
  suffices ∀ (start : PackIndex) (before : List Push), Pushed start before →
      pushAll start pushes = .ok index → Pushed index (before ++ pushes) by
    have hpushed := this .new [] Pushed.new h
    have nodup := pushAll_nodup List.nodup_nil h
    rw [List.nil_append] at hpushed
    rw [hpushed.tags] at nodup
    exact ⟨hpushed, nodup⟩
  clear h
  induction pushes with
  | nil =>
    intro start before hpushed hok
    cases hok
    simpa using hpushed
  | cons push pushes ih =>
    intro start before hpushed hok
    obtain ⟨mid, hmid, hok⟩ := Exec.bind_eq_ok.mp hok
    obtain ⟨mid', hmid', hpushed'⟩ := hpushed.push (PackIndex.pushSnapshot_tags hmid).1
    rw [hmid] at hmid'
    cases hmid'
    rw [List.append_cons]
    exact ih mid _ hpushed' hok

/-- An index records what its entries say of their objects. -/
theorem pushAll_records {R : ObjectChecksum → ObjectMetadata → Prop} {index index' : PackIndex}
    {pushes : List Push} (h : index.Records R) (hpushes : pushAll index pushes = .ok index')
    (fits : index'.objectPool.Fits)
    (he : ∀ push ∈ pushes, ∀ e ∈ push.entries, R e.checksum e.objectMetadata) :
    index'.Records R := by
  induction pushes generalizing index with
  | nil =>
    cases hpushes
    exact h
  | cons push pushes ih =>
    obtain ⟨mid, hmid, hpushes⟩ := Exec.bind_eq_ok.mp hpushes
    have hfits := PackIndex.fits_of_grows (pushAll_extends hpushes).1.objects fits
    exact ih (PackIndex.pushSnapshot_records h hmid hfits (he push List.mem_cons_self)) hpushes
      fun p hp => he p (List.mem_cons_of_mem _ hp)

namespace PackIndex

/-- A pool holds no more than the list its values come from. -/
theorem pool_length_le {α : Type} [DecidableEq α] {pool : EntryPool α} {xs : List α}
    (h : ∀ x ∈ pool.entries, x ∈ xs) : pool.entries.length ≤ xs.length :=
  (pool.nodup.subperm h).length_le

theorem sortedMetadata_length {index : PackIndex} (h : index.Aligned) :
    index.objectMetadata.entries.length = min index.objectPool.entries.length handleCount := by
  have hlength := congrArg List.length (sortedMetadata_keys h)
  rw [List.length_map, List.length_range] at hlength
  have hperm : index.sortedMetadata.Perm index.objectMetadata.entries := List.perm_insertionSort _ _
  rw [← hlength, hperm.length_eq]

/-- The index of one snapshot is no longer than its files. -/
theorem writable_pushSnapshot {ord : IterOrder FileHandle} {index : PackIndex} {tag : String}
    {input : List FileEntry} (hpush : PackIndex.new.pushSnapshot ord tag input = .ok index)
    (tags : tag.utf8ByteSize < handleCount) (count : input.length < handleCount)
    (paths : ∀ e ∈ input, e.path.bytes.length < handleCount) : index.Writable := by
  obtain ⟨_, delta, hok, interned, htags, hdeltas, hcurrent, hleads⟩ :=
    pushSnapshot_ok ord .new input (pushSnapshot_tags hpush).1
  rw [hpush] at hok
  cases hok
  have hremoved : delta.removed = [] :=
    List.eq_nil_iff_forall_not_mem.mpr fun x hx => by simpa [new] using hleads.removed_mem x hx
  have hadded : delta.added.length ≤ input.length := by
    have hsub : ∀ x ∈ delta.added, x ∈ input.map index.fileHandle := by
      intro x hx
      have hset := (hleads.result x).mpr (.inr hx)
      rw [hcurrent] at hset
      exact List.mem_map.mpr hset
    have hle := (hleads.added_nodup.subperm hsub).length_le
    rwa [List.length_map] at hle
  have hpath : ∀ x ∈ index.pathPool.entries, ∃ e ∈ input, e.path = x := by
    intro x hx
    rcases interned.paths x hx with hx | he
    · cases hx
    · exact he
  have hobject : ∀ x ∈ index.objectPool.entries, ∃ e ∈ input, e.checksum = x := by
    intro x hx
    rcases interned.objects x hx with hx | he
    · cases hx
    · exact he
  have hpaths : index.pathPool.entries.length ≤ (input.map FileEntry.path).length :=
    pool_length_le fun x hx => List.mem_map.mpr (hpath x hx)
  have hobjects : index.objectPool.entries.length ≤ (input.map FileEntry.checksum).length :=
    pool_length_le fun x hx => List.mem_map.mpr (hobject x hx)
  have haligned := pushSnapshot_aligned aligned_new hpush
  rw [List.length_map] at hpaths hobjects
  refine ⟨⟨?_, ?_⟩, ?_, ?_, ?_, by omega, ?_, by omega, ?_⟩
  · rw [htags]
    simp [new, handleCount]
  · rw [htags]
    simpa [new] using tags
  · rw [hdeltas]
    simp [new, handleCount]
  · rw [hdeltas]
    simp only [new, List.nil_append, List.mem_singleton, forall_eq]
    omega
  · rw [hdeltas]
    simp [new, hremoved, handleCount]
  · intro path hpath'
    obtain ⟨e, he, rfl⟩ := hpath path hpath'
    exact paths e he
  · rw [sortedMetadata_length haligned]
    omega

end PackIndex

end Elfshaker.Format
