import Elfshaker.Format.Readers
import Elfshaker.Format.Records

namespace Elfshaker.Format

open Elfshaker.Library

/-- What a snapshot says of one file, with the size of its object. -/
abbrev Sized := Triple × UInt64

def FileEntry.sized (e : FileEntry) : Sized := (e.triple, e.objectMetadata.size)

namespace PackIndex

/-- What handles say of the files they lead to. -/
def saidBy (index : PackIndex) (handles : Set FileHandle) : Set Sized :=
  {x | ∃ e ∈ index.entriesOf handles, e.sized = x}

/-- The tag resolves to handles that all lead to files, and this is said of them. -/
def Means (index : PackIndex) (tag : String) (said : Set Sized) : Prop :=
  ∃ ord handles entries,
    index.resolveSnapshot (ε := PackError) ord tag = .ok (some handles) ∧
      index.entriesFromHandles handles = .ok entries ∧ ∀ x, x ∈ said ↔ ∃ e ∈ entries, e.sized = x

section Means

variable {index index' : PackIndex} {tag : String} {said said' : Set Sized}

theorem saidBy_of_entries {current : HashSet FileHandle} {ord : IterOrder FileHandle}
    {entries : List FileEntry} (h : index.entriesFromHandles (current.iter ord) = .ok entries)
    (x : Sized) : x ∈ index.saidBy current.toSet ↔ ∃ e ∈ entries, e.sized = x := by
  refine exists_congr fun e => and_congr_left fun _ => ?_
  rw [mem_entriesOf_list h]
  exact exists_congr fun handle => and_congr_left fun _ => (HashSet.mem_iter ord).symm

theorem means_iff : index.Means tag said ↔ ∃ current,
    replay (ε := PackError) tag .empty (index.snapshotTags.zip index.snapshotDeltas) =
      .ok (some current) ∧
    (∀ handle ∈ current, ∃ e, index.handleToEntry handle = .ok e) ∧
      said = index.saidBy current.toSet := by
  constructor
  · rintro ⟨ord, handles, entries, hresolve, hentries, hsaid⟩
    obtain ⟨current, hreplay, rfl⟩ := resolveSnapshot_eq_some.mp hresolve
    refine ⟨current, hreplay, fun handle hhandle => ?_, ?_⟩
    · obtain ⟨e, -, he⟩ := Exec.mapM_mem hentries ((HashSet.mem_iter ord).mpr hhandle)
      exact ⟨e, he⟩
    · ext x
      rw [hsaid x, saidBy_of_entries hentries]
  · rintro ⟨current, hreplay, hall, rfl⟩
    obtain ⟨entries, hentries⟩ := Exec.mapM_exists (f := index.handleToEntry)
      fun handle hhandle => hall handle ((HashSet.mem_iter .insertion).mp hhandle)
    exact ⟨.insertion, _, entries, resolveSnapshot_eq_some.mpr ⟨current, hreplay, rfl⟩, hentries,
      saidBy_of_entries hentries⟩

theorem Means.unique (h : index.Means tag said) (h' : index.Means tag said') : said = said' := by
  obtain ⟨current, hreplay, -, rfl⟩ := means_iff.mp h
  obtain ⟨current', hreplay', -, rfl⟩ := means_iff.mp h'
  rw [hreplay] at hreplay'
  cases hreplay'
  rfl

/-- The order of the walks is no matter. -/
theorem Means.resolves (h : index.Means tag said) (ord : IterOrder FileHandle) :
    ∃ handles entries, index.resolveSnapshot (ε := PackError) ord tag = .ok (some handles) ∧
      index.entriesFromHandles handles = .ok entries ∧ ∀ x, x ∈ said ↔ ∃ e ∈ entries, e.sized = x := by
  obtain ⟨current, hreplay, hall, rfl⟩ := means_iff.mp h
  obtain ⟨entries, hentries⟩ := Exec.mapM_exists (f := index.handleToEntry)
    fun handle hhandle => hall handle ((HashSet.mem_iter ord).mp hhandle)
  exact ⟨_, entries, resolveSnapshot_eq_some.mpr ⟨current, hreplay, rfl⟩, hentries,
    saidBy_of_entries hentries⟩

/-- The tables are alike but for where the objects are. -/
structure Alike (index index' : PackIndex) : Prop where
  tags : index'.snapshotTags = index.snapshotTags
  deltas : index'.snapshotDeltas = index.snapshotDeltas
  paths : ∀ handle, index'.pathPool.lookup handle = index.pathPool.lookup handle
  objects : ∀ handle, index'.objectPool.lookup handle = index.objectPool.lookup handle
  sizes : ∀ handle, (index'.objectMetadata.lookup handle).map ObjectMetadata.size =
    (index.objectMetadata.lookup handle).map ObjectMetadata.size

theorem Alike.symm (h : Alike index index') : Alike index' index :=
  ⟨h.tags.symm, h.deltas.symm, fun handle => (h.paths handle).symm,
    fun handle => (h.objects handle).symm, fun handle => (h.sizes handle).symm⟩

theorem Alike.trans {index'' : PackIndex} (h : Alike index index') (h' : Alike index' index'') :
    Alike index index'' :=
  ⟨h'.tags.trans h.tags, h'.deltas.trans h.deltas,
    fun handle => (h'.paths handle).trans (h.paths handle),
    fun handle => (h'.objects handle).trans (h.objects handle),
    fun handle => (h'.sizes handle).trans (h.sizes handle)⟩

theorem Alike.handleToEntry (h : Alike index index') {handle : FileHandle} {e : FileEntry}
    (hentry : index.handleToEntry handle = .ok e) :
    ∃ e', index'.handleToEntry handle = .ok e' ∧ e'.sized = e.sized := by
  obtain ⟨hpath, hchecksum, hmetadata, hkind⟩ := handleToEntry_eq_ok.mp hentry
  have hsize := h.sizes handle.object
  rw [hmetadata, Option.map_some, Option.map_eq_some_iff] at hsize
  obtain ⟨metadata, hmetadata', hsize⟩ := hsize
  refine ⟨⟨e.path, e.checksum, metadata, e.metadata⟩, handleToEntry_eq_ok.mpr ?_, ?_⟩
  · exact ⟨(h.paths _).trans hpath, (h.objects _).trans hchecksum, hmetadata', hkind⟩
  · exact Prod.ext rfl hsize

theorem Alike.saidBy_subset (h : Alike index index') (handles : Set FileHandle) :
    index.saidBy handles ⊆ index'.saidBy handles := by
  rintro x ⟨e, ⟨handle, hhandle, hentry⟩, rfl⟩
  obtain ⟨e', hentry', hsized⟩ := h.handleToEntry hentry
  exact ⟨e', ⟨handle, hhandle, hentry'⟩, hsized⟩

theorem Alike.means (h : Alike index index') (hmeans : index.Means tag said) :
    index'.Means tag said := by
  obtain ⟨current, hreplay, hall, rfl⟩ := means_iff.mp hmeans
  refine means_iff.mpr ⟨current, by rwa [h.tags, h.deltas], fun handle hhandle => ?_, ?_⟩
  · obtain ⟨e, he⟩ := hall handle hhandle
    obtain ⟨e', he', -⟩ := h.handleToEntry he
    exact ⟨e', he'⟩
  · exact Set.Subset.antisymm (h.saidBy_subset _) (h.symm.saidBy_subset _)

/-- The size that an index records for an object. -/
def RecordedSize (index : PackIndex) (checksum : ObjectChecksum) (size : UInt64) : Prop :=
  ∃ handle metadata, index.objectPool.lookup handle = some checksum ∧
    index.objectMetadata.lookup handle = some metadata ∧ metadata.size = size

theorem RecordedSize.unique {checksum : ObjectChecksum} {size size' : UInt64}
    (h : index.RecordedSize checksum size) (h' : index.RecordedSize checksum size') :
    size = size' := by
  obtain ⟨handle, metadata, hchecksum, hmetadata, rfl⟩ := h
  obtain ⟨handle', metadata', hchecksum', hmetadata', rfl⟩ := h'
  obtain rfl := EntryPool.lookup_injective hchecksum hchecksum'
  rw [hmetadata] at hmetadata'
  cases hmetadata'
  rfl

theorem recordedSize_of_entry {handle : FileHandle} {e : FileEntry}
    (h : index.handleToEntry handle = .ok e) :
    index.RecordedSize e.checksum e.objectMetadata.size := by
  obtain ⟨-, hchecksum, hmetadata, -⟩ := handleToEntry_eq_ok.mp h
  exact ⟨handle.object, e.objectMetadata, hchecksum, hmetadata, rfl⟩

theorem Means.recorded (h : index.Means tag said) {x : Sized} (hx : x ∈ said) :
    index.RecordedSize x.1.checksum x.2 := by
  obtain ⟨current, -, -, rfl⟩ := means_iff.mp h
  obtain ⟨e, ⟨handle, -, hentry⟩, rfl⟩ := hx
  exact recordedSize_of_entry hentry

theorem Means.tag_mem (h : index.Means tag said) : tag ∈ index.snapshotTags := by
  obtain ⟨current, hreplay, -, -⟩ := means_iff.mp h
  exact List.mem_of_mem_take (tag_of_replay hreplay)

theorem recordedSize_of_interns (hobjects : index.objectPool.Fits) {e : FileEntry}
    (h : index.Interns e) : ∃ size, index.RecordedSize e.checksum size := by
  obtain ⟨metadata, hmetadata⟩ := Option.isSome_iff_exists.mp h.metadata
  exact ⟨metadata.size, _, metadata, EntryPool.lookup_handleOf hobjects h.object, hmetadata, rfl⟩

end Means

end PackIndex

/-- A tag means the files it was pushed with, with the sizes that were recorded last. -/
theorem Pushed.means {index : PackIndex} {pushes : List Push} (h : Pushed index pushes)
    (distinct : (pushes.map Push.tag).Nodup) (hpaths : index.pathPool.Fits)
    (hobjects : index.objectPool.Fits) {push : Push} (hpush : push ∈ pushes) :
    index.Means push.tag
      {x | x.1 ∈ triples push.entries ∧ index.RecordedSize x.1.checksum x.2} := by
  rcases h.resolveSnapshot distinct .insertion push.tag with
    ⟨habsent, -⟩ | ⟨other, hother, htag, handles, hresolve, hmem⟩
  · exact absurd (List.mem_map_of_mem hpush) habsent
  obtain rfl := List.inj_on_of_nodup_map distinct hother hpush htag
  have hnodup : handles.Nodup := by
    obtain ⟨current, -, rfl⟩ := PackIndex.resolveSnapshot_eq_some.mp hresolve
    exact HashSet.nodup_iter _ current
  obtain ⟨found, hfound, -, htriples⟩ := PackIndex.entriesFromHandles_of_handleSet hpaths hobjects
    (h.interns other hpush) hnodup hmem
  refine ⟨.insertion, handles, found, hresolve, hfound, fun x => ?_⟩
  constructor
  · rintro ⟨htriple, hsize⟩
    obtain ⟨e, he, heq⟩ := List.mem_map.mp ((htriples x.1).mpr htriple)
    obtain ⟨handle, -, hentry⟩ := Exec.mem_of_mapM hfound he
    refine ⟨e, he, Prod.ext heq ?_⟩
    rw [← heq] at hsize
    exact (PackIndex.recordedSize_of_entry hentry).unique hsize
  · rintro ⟨e, he, rfl⟩
    obtain ⟨handle, -, hentry⟩ := Exec.mem_of_mapM hfound he
    exact ⟨(htriples _).mp (List.mem_map_of_mem he), PackIndex.recordedSize_of_entry hentry⟩

end Elfshaker.Format
