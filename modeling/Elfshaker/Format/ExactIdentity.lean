import Elfshaker.Format.Identity
import Elfshaker.Format.Reload

namespace Elfshaker.Format

open Elfshaker.Library

section Sorting

variable {xs ys : List Triple} {x y : Triple}

instance : Std.Total fun left right : Triple => left.path.bytes ≤ right.path.bytes :=
  ⟨fun left right => List.le_total left.path.bytes right.path.bytes⟩

instance : IsTrans Triple fun left right => left.path.bytes ≤ right.path.bytes :=
  ⟨fun _ _ _ => List.le_trans⟩

/-- The order does not matter where no two entries share a path. -/
theorem sortByPath_eq (perm : xs.Perm ys)
    (distinct : ∀ x ∈ xs, ∀ y ∈ xs, x.path = y.path → x = y) : sortByPath xs = sortByPath ys := by
  have hperm : (sortByPath xs).Perm (sortByPath ys) :=
    (List.perm_insertionSort _ xs).trans (perm.trans (List.perm_insertionSort _ ys).symm)
  refine hperm.eq_of_pairwise ?_ (List.pairwise_insertionSort _ xs)
    (List.pairwise_insertionSort _ ys)
  intro x y hx hy hxy hyx
  have hpath := PackPath.ext_bytes (List.le_antisymm hxy hyx)
  exact distinct x (mem_sortByPath.mp hx) y (perm.mem_iff.mpr (mem_sortByPath.mp hy)) hpath

/-- Entries of one path are left in the order in which they came. -/
theorem sortByPath_stable (h : [x, y].Sublist xs) (same : x.path = y.path) :
    [x, y].Sublist (sortByPath xs) := by
  refine List.pair_sublist_insertionSort ?_ h
  rw [same]
  exact List.le_refl _

theorem not_sublist_swap (nodup : xs.Nodup) (h : [x, y].Sublist xs) : ¬ [y, x].Sublist xs := by
  intro hswap
  induction xs with
  | nil => cases h
  | cons z xs ih =>
    obtain ⟨hz, hnodup⟩ := List.nodup_cons.mp nodup
    cases h with
    | cons _ h =>
      cases hswap with
      | cons _ hswap => exact ih hnodup h hswap
      | cons_cons _ hswap => exact hz (h.subset (by simp))
    | cons_cons _ h =>
      cases hswap with
      | cons _ hswap => exact hz (hswap.subset (by simp))
      | cons_cons _ hswap => exact hz (h.subset (by simp))

/-- Two entries of one path are hashed in one order or in the other. -/
theorem sortByPath_reverse_ne (nodup : xs.Nodup) (hx : x ∈ xs) (hy : y ∈ xs) (hne : x ≠ y)
    (same : x.path = y.path) : sortByPath xs ≠ sortByPath xs.reverse := by
  intro heq
  have hsorted : (sortByPath xs).Nodup := (List.perm_insertionSort _ xs).nodup_iff.mpr nodup
  have hpair : ∀ {x y : Triple}, [x, y].Sublist xs → x.path = y.path → False := by
    intro x y h same
    have hreverse : [y, x].Sublist xs.reverse := List.reverse_sublist.mpr h
    refine not_sublist_swap hsorted (sortByPath_stable h same) ?_
    rw [heq]
    exact sortByPath_stable hreverse same.symm
  obtain ⟨before, rest, rfl⟩ := List.append_of_mem hx
  rcases List.mem_append.mp hy with hy | hy
  · refine hpair (x := y) (y := x) ?_ same.symm
    exact (List.singleton_sublist.mpr hy).append (List.cons_sublist_cons.mpr (List.nil_sublist _))
  · have hy : y ∈ rest := (List.mem_cons.mp hy).resolve_left hne.symm
    refine hpair (x := x) (y := y) ?_ same
    exact ((List.singleton_sublist.mpr hy).cons_cons x).trans (List.sublist_append_right _ _)

end Sorting

namespace PackIndex

/-- What a snapshot says: the entries of its files, in no order. -/
def entrySet (index : PackIndex) (snapshot : String) : Set Triple :=
  {t | ∃ handles entries,
    index.resolveSnapshot (ε := PackError) .insertion snapshot = .ok (some handles) ∧
      index.entriesFromHandles handles = .ok entries ∧ t ∈ triples entries}

/-- No two files of the snapshot are at one path. -/
def DistinctPaths (index : PackIndex) (snapshot : String) : Prop :=
  ∀ x ∈ index.entrySet snapshot, ∀ y ∈ index.entrySet snapshot, x.path = y.path → x = y

section Entries

variable {index index' : PackIndex} {ord ord' : IterOrder FileHandle} {tag tag' : String}
  {ts ts' : List Triple} {handles handles' : List FileHandle} {entries : List FileEntry}

/-- What a handle says of a file. -/
def tripleAt (index : PackIndex) (handle : FileHandle) : Option Triple :=
  (index.pathPool.lookup handle.path).bind fun path =>
    (index.objectPool.lookup handle.object).map fun checksum => ⟨path, checksum, handle.metadata⟩

theorem tripleAt_of_entry {handle : FileHandle} {entry : FileEntry}
    (h : index.handleToEntry handle = .ok entry) : index.tripleAt handle = some entry.triple := by
  obtain ⟨hpath, hchecksum, -, hmetadata⟩ := handleToEntry_eq_ok.mp h
  simp [tripleAt, hpath, hchecksum, hmetadata, FileEntry.triple]

theorem tripleAt_injective {handle handle' : FileHandle} {t : Triple}
    (h : t ∈ index.tripleAt handle) (h' : t ∈ index.tripleAt handle') : handle = handle' := by
  simp only [tripleAt, Option.mem_def, Option.bind_eq_some_iff, Option.map_eq_some_iff] at h h'
  obtain ⟨path, hpath, checksum, hchecksum, rfl⟩ := h
  obtain ⟨path', hpath', checksum', hchecksum', ht⟩ := h'
  obtain ⟨rfl, rfl, hmetadata⟩ := Triple.mk.inj ht
  obtain ⟨p, o, m⟩ := handle
  obtain ⟨p', o', m'⟩ := handle'
  rw [FileHandle.mk.injEq]
  exact ⟨EntryPool.lookup_injective hpath hpath', EntryPool.lookup_injective hchecksum hchecksum',
    hmetadata.symm⟩

theorem triples_of_handles (h : index.entriesFromHandles handles = .ok entries) :
    triples entries = handles.filterMap index.tripleAt := by
  have hall := Exec.mapM_eq_ok.mp h
  clear h
  induction hall with
  | nil => rfl
  | cons hentry _ ih =>
    rw [List.filterMap_cons_some (tripleAt_of_entry hentry), ← ih]
    rfl

theorem entriesFromHandles_of_perm (perm : handles.Perm handles')
    (h : index.entriesFromHandles handles = .ok entries) :
    ∃ entries', index.entriesFromHandles handles' = .ok entries' := by
  apply Exec.mapM_exists
  intro handle hhandle
  obtain ⟨entry, -, hentry⟩ := Exec.mapM_mem h (perm.mem_iff.mpr hhandle)
  exact ⟨entry, hentry⟩

/-- A snapshot that has entries can be hashed. -/
theorem hashed_of_mem {t : Triple} (h : t ∈ index.entrySet tag) :
    ∃ ts, index.identityEntries (ε := PackError) .insertion tag = .ok (some ts) := by
  obtain ⟨handles, entries, hresolve, hentries, -⟩ := h
  refine ⟨sortByPath (triples entries), Exec.bind_eq_ok.mpr ⟨some handles, hresolve, ?_⟩⟩
  simp [hentries]

theorem identityEntries_eq_some :
    index.identityEntries (ε := PackError) ord tag = .ok (some ts) ↔
      ∃ current entries, replay (ε := PackError) tag .empty
          (index.snapshotTags.zip index.snapshotDeltas) = .ok (some current) ∧
        index.entriesFromHandles (current.iter ord) = .ok entries ∧
        sortByPath (triples entries) = ts := by
  rw [identityEntries, Exec.bind_eq_ok]
  constructor
  · rintro ⟨found, hresolve, h⟩
    cases found with
    | none => cases h
    | some handles =>
      obtain ⟨current, hreplay, rfl⟩ := resolveSnapshot_eq_some.mp hresolve
      dsimp only at h
      split at h
      · rename_i entries hentries
        exact ⟨current, entries, hreplay, hentries, Option.some.inj (Except.ok.inj h)⟩
      · cases h
      · cases h
  · rintro ⟨current, entries, hreplay, hentries, rfl⟩
    refine ⟨_, resolveSnapshot_eq_some.mpr ⟨current, hreplay, rfl⟩, ?_⟩
    simp [hentries]

/-- The files of a snapshot, in the order in which they came into the set. -/
def foundIn (index : PackIndex) (current : HashSet FileHandle) : List Triple :=
  current.elems.filterMap index.tripleAt

theorem foundIn_nodup (current : HashSet FileHandle) : (index.foundIn current).Nodup :=
  current.nodup.filterMap fun _ _ _ => tripleAt_injective

theorem iter_perm (current : HashSet FileHandle) :
    ((current.iter ord).filterMap index.tripleAt).Perm (index.foundIn current) :=
  (ord.perm current.elems).filterMap _

/-- A snapshot that is hashed is hashed in any order of a walk over its files. -/
theorem identityEntries_any (h : index.identityEntries (ε := PackError) ord tag = .ok (some ts)) :
    ∃ current : HashSet FileHandle,
      (∀ ord, index.identityEntries (ε := PackError) ord tag =
        .ok (some (sortByPath ((current.iter ord).filterMap index.tripleAt)))) ∧
      ∀ t, t ∈ index.entrySet tag ↔ t ∈ index.foundIn current := by
  obtain ⟨current, entries, hreplay, hentries, -⟩ := identityEntries_eq_some.mp h
  have hall : ∀ ord' : IterOrder FileHandle,
      ∃ entries, index.entriesFromHandles (current.iter ord') = .ok entries := fun ord' =>
    entriesFromHandles_of_perm ((ord.perm current.elems).trans (ord'.perm current.elems).symm)
      hentries
  refine ⟨current, fun ord' => ?_, fun t => ?_⟩
  · obtain ⟨entries', hentries'⟩ := hall ord'
    refine identityEntries_eq_some.mpr ⟨current, entries', hreplay, hentries', ?_⟩
    rw [triples_of_handles hentries']
  · constructor
    · rintro ⟨handles, entries', hresolve, hentries', ht⟩
      obtain ⟨current', hreplay', rfl⟩ := resolveSnapshot_eq_some.mp hresolve
      rw [hreplay] at hreplay'
      cases hreplay'
      rwa [triples_of_handles hentries'] at ht
    · intro ht
      obtain ⟨entries', hentries'⟩ := hall .insertion
      refine ⟨_, entries', resolveSnapshot_eq_some.mpr ⟨current, hreplay, rfl⟩, hentries', ?_⟩
      rwa [triples_of_handles hentries']

end Entries

/-- The identity of a snapshot is that of another, in any order of the walks, exactly
when the two have the same entries. -/
def ExactIdentity (rmp : Rmp) (index : PackIndex) (tag : String) : Prop :=
  ∀ file' index' tag' ord ord' ts ts', parse rmp file' = .ok index' →
    index.identityEntries (ε := PackError) ord tag = .ok (some ts) →
    index'.identityEntries (ε := PackError) ord' tag' = .ok (some ts') →
      (identityStream ts = identityStream ts' ↔ index.entrySet tag = index'.entrySet tag')

end PackIndex

open PackIndex

/-- The identity of a snapshot is exact when no two of its files are at one path, and
else it is not. -/
theorem snapshot_identity_exact_iff {rmp : Rmp} {file : List UInt8} {index : PackIndex}
    {tag : String} (h : parse rmp file = .ok index) :
    index.ExactIdentity rmp tag ↔ index.DistinctPaths tag := by
  constructor
  · intro exact x hx y hy same
    by_contra hne
    obtain ⟨ts, hts⟩ := hashed_of_mem hx
    obtain ⟨current, hany, hmem⟩ := identityEntries_any hts
    have hstream := (exact file index tag _ _ _ _ h (hany .insertion) (hany .reversed)).mpr rfl
    have hsorted := identityEntries_unique h h (hany .insertion) (hany .reversed) hstream
    refine sortByPath_reverse_ne (foundIn_nodup current) ((hmem x).mp hx) ((hmem y).mp hy) hne same ?_
    rw [foundIn, ← List.filterMap_reverse]
    exact hsorted
  · intro distinct file' index' tag' ord ord' ts ts' h' hts hts'
    obtain ⟨current, hany, hmem⟩ := identityEntries_any hts
    obtain ⟨current', hany', hmem'⟩ := identityEntries_any hts'
    cases hts.symm.trans (hany ord)
    cases hts'.symm.trans (hany' ord')
    have hperm : ((current.iter ord).filterMap index.tripleAt).Perm (index.foundIn current) :=
      iter_perm current
    have hperm' : ((current'.iter ord').filterMap index'.tripleAt).Perm
        (index'.foundIn current') :=
      iter_perm current'
    constructor
    · intro hstream
      have hsorted := identityEntries_unique h h' hts hts' hstream
      ext t
      rw [hmem t, hmem' t, ← hperm.mem_iff, ← hperm'.mem_iff, ← mem_sortByPath, hsorted,
        mem_sortByPath]
    · intro hset
      have hfound : (index.foundIn current).Perm (index'.foundIn current') := by
        refine (List.perm_ext_iff_of_nodup (foundIn_nodup _) (foundIn_nodup _)).mpr fun t => ?_
        rw [← hmem t, ← hmem' t, hset]
      rw [sortByPath_eq (hperm.trans (hfound.trans hperm'.symm))]
      intro x hx y hy
      exact distinct x ((hmem x).mpr (hperm.mem_iff.mp hx)) y ((hmem y).mpr (hperm.mem_iff.mp hy))

theorem snapshot_identity_exact_reloaded : ∃ index,
    parse messagePack (SavedSample.index.serialize messagePackWriter) = .ok index ∧
      (index.ExactIdentity messagePack "t" ↔ index.DistinctPaths "t") :=
  ⟨_, SavedSample.library.parse_serialize,
    snapshot_identity_exact_iff SavedSample.library.parse_serialize⟩

namespace TwicePathSample

/-- A snapshot with two files at one path. -/
def index : PackIndex :=
  match PackIndex.new.pushSnapshot .insertion "t"
    [⟨.a, .zero, ⟨0, 3⟩, .regular 420⟩, ⟨.a, .zero, ⟨0, 3⟩, .regular 421⟩] with
  | .ok index => index
  | .error _ => .new

def file : List UInt8 := index.serialize messagePackWriter

/-- The entries as one walk meets them. -/
def hashed (ord : IterOrder FileHandle) : Exec PackError (Option (List Triple)) := do
  let index ← parse messagePack file
  index.identityEntries ord "t"

end TwicePathSample

/-- Two files at one path are hashed in the order in which the set is walked. -/
theorem snapshot_identity_not_exact : ¬ ∀ (rmp : Rmp) (file : List UInt8) (index : PackIndex)
    (tag : String), parse rmp file = .ok index → index.ExactIdentity rmp tag := by
  intro h
  have first : TwicePathSample.hashed .insertion =
      .ok (some [⟨.a, .zero, .regular 420⟩, ⟨.a, .zero, .regular 421⟩]) := by rfl
  have last : TwicePathSample.hashed .reversed =
      .ok (some [⟨.a, .zero, .regular 421⟩, ⟨.a, .zero, .regular 420⟩]) := by rfl
  obtain ⟨index, hparse, hfirst⟩ := Exec.bind_eq_ok.mp first
  obtain ⟨index', hparse', hlast⟩ := Exec.bind_eq_ok.mp last
  rw [hparse] at hparse'
  cases hparse'
  have hstream := (h _ _ _ "t" hparse _ _ _ _ _ _ _ hparse hfirst hlast).mpr rfl
  exact absurd hstream (by decide)

end Elfshaker.Format
