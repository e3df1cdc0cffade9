import Elfshaker.Format.Identity
import Elfshaker.Format.Reload
import Mathlib.Data.Fintype.EquivFin

namespace Elfshaker.Format

open Elfshaker.Library

/-- A file with its path and checksum lent by the index. -/
abbrev FileEntryRef := FileEntry

/-- What a callback says of going on. -/
inductive ControlFlow (S : Type) where
  | next
  | stop (output : S)

namespace PackIndex

def handleToEntryRef (index : PackIndex) (handle : FileHandle) : Exec PackError FileEntryRef :=
  index.handleToEntry handle

def entryRefsFromHandles (index : PackIndex) (handles : List FileHandle) :
    Exec PackError (List FileEntryRef) :=
  handles.mapM index.handleToEntryRef

section ForEach

variable {σ S : Type} (f : σ → String → HashSet FileEntryRef → σ × ControlFlow S)

/-- The loop over the snapshots. The callback has a state of its own. -/
def forEachFrom (index : PackIndex) : HashSet FileEntryRef →
    List (String × ChangeSet FileHandle) → σ → Exec PackError (σ × Option S)
  | _, [], s => .ok (s, none)
  | complete, (snapshot, deltas) :: rest, s => do
    let deltas ← deltas.map index.entryRefsFromHandles
    let complete ← Snapshot.applyChanges complete deltas
    match f s snapshot complete with
    | (s, .stop output) => .ok (s, some output)
    | (s, .next) => forEachFrom index complete rest s

/-- Calls `f` with the entries of each snapshot, until it says to stop. -/
def forEachSnapshot (index : PackIndex) (s : σ) : Exec PackError (σ × Option S) :=
  index.forEachFrom f .empty (index.snapshotTags.zip index.snapshotDeltas) s

end ForEach

/-- Every listed tag leads to a snapshot, and no reader stops the program. -/
structure ReadersSafe (index : PackIndex) : Prop where
  resolves : ∀ tag ∈ index.snapshotTags, ∀ ord, ∃ handles,
    index.resolveSnapshot (ε := PackError) ord tag = .ok (some handles)
  resolveSnapshot : ∀ ord needle, Exec.NoPanic (index.resolveSnapshot (ε := PackError) ord needle)
  entriesFromHandles : ∀ handles, Exec.NoPanic (index.entriesFromHandles handles)
  entryRefsFromHandles : ∀ handles, Exec.NoPanic (index.entryRefsFromHandles handles)
  forEachSnapshot : ∀ (σ S : Type) (f : σ → String → HashSet FileEntryRef → σ × ControlFlow S)
    (s : σ), Exec.NoPanic (index.forEachSnapshot f s)
  computeSnapshotChecksum : ∀ sha1 ord tag,
    Exec.NoPanic (index.computeSnapshotChecksum (ε := PackError) sha1 ord tag)

/-- What the tables of an index have to say of each other: each listed tag is that of a
delta, each delta can be applied where it stands, and an object that a file can have
has metadata. -/
structure Coherent (index : PackIndex) : Prop where
  tags : ∀ tag ∈ index.snapshotTags, tag ∈ index.snapshotTags.take index.snapshotDeltas.length
  deltas : ∃ sets, Delta.Chain ∅ (index.snapshotDeltas.take index.snapshotTags.length) sets
  metadata : index.pathPool.entries = [] ∨ ∀ handle, (index.objectPool.lookup handle).isSome →
    (index.objectMetadata.lookup handle).isSome

section Replay

variable {needle : String} {s : HashSet FileHandle} {tags : List String}
  {deltas : List (ChangeSet FileHandle)}

/-- A replay that meets no tag has applied every delta. -/
theorem chain_of_replay (h : replay (ε := ε) needle s (tags.zip deltas) = .ok none) :
    ∃ sets, Delta.Chain s.toSet (deltas.take tags.length) sets := by
  induction tags generalizing s deltas with
  | nil => exact ⟨[], .nil _⟩
  | cons tag tags ih =>
    cases deltas with
    | nil => exact ⟨[], .nil _⟩
    | cons delta deltas =>
      obtain ⟨t, ht, h⟩ := Exec.bind_eq_ok.mp h
      split_ifs at h
      · cases h
      · obtain ⟨sets, hsets⟩ := ih h
        exact ⟨t.toSet :: sets, .cons (Snapshot.applyChanges_leads ht) hsets⟩

theorem tag_of_replay {current : HashSet FileHandle}
    (h : replay (ε := ε) needle s (tags.zip deltas) = .ok (some current)) :
    needle ∈ tags.take deltas.length := by
  induction tags generalizing s deltas with
  | nil => cases h
  | cons tag tags ih =>
    cases deltas with
    | nil => cases h
    | cons delta deltas =>
      obtain ⟨t, -, h⟩ := Exec.bind_eq_ok.mp h
      rw [List.length_cons, List.take_succ_cons, List.mem_cons]
      split_ifs at h with htag
      · exact .inl htag.symm
      · exact .inr (ih h)

/-- Where every delta can be applied a replay finds the tags of the deltas. -/
theorem replay_found {sets : List (Set FileHandle)}
    (chain : Delta.Chain s.toSet (deltas.take tags.length) sets) :
    ∃ found, replay (ε := ε) needle s (tags.zip deltas) = .ok found ∧
      (found.isSome ↔ needle ∈ tags.take deltas.length) := by
  induction tags generalizing s deltas sets with
  | nil => exact ⟨none, rfl, by simp⟩
  | cons tag tags ih =>
    cases deltas with
    | nil => exact ⟨none, rfl, by simp⟩
    | cons delta deltas =>
      cases chain with
      | cons lead rest =>
        obtain ⟨t, ht, rfl⟩ := Snapshot.applyChanges_of_leads (ε := ε) lead
        rw [List.zip_cons_cons, replay, ht, Exec.ok_bind]
        by_cases htag : tag = needle
        · exact ⟨some t, if_pos htag, by simp [htag]⟩
        · obtain ⟨found, hfound, hiff⟩ := ih rest
          refine ⟨found, by rw [if_neg htag, hfound], ?_⟩
          simp [hiff, Ne.symm htag]

theorem noError_insertAll [DecidableEq α] (s : HashSet α) (xs : List α) :
    Exec.NoError (Snapshot.insertAll (ε := ε) s xs) := by
  induction xs generalizing s with
  | nil => exact Exec.noError_ok s
  | cons x xs ih =>
    exact ((Exec.noError_assert _).bind fun _ => Exec.noError_ok _).bind fun _ => ih _

theorem noError_removeAll [DecidableEq α] (s : HashSet α) (xs : List α) :
    Exec.NoError (Snapshot.removeAll (ε := ε) s xs) := by
  induction xs generalizing s with
  | nil => exact Exec.noError_ok s
  | cons x xs ih =>
    exact ((Exec.noError_assert _).bind fun _ => Exec.noError_ok _).bind fun _ => ih _

/-- A replay has no error to return. -/
theorem noError_replay (deltas : List (String × ChangeSet FileHandle)) :
    Exec.NoError (replay (ε := ε) needle s deltas) := by
  induction deltas generalizing s with
  | nil => exact Exec.noError_ok none
  | cons delta deltas ih =>
    refine Exec.NoError.bind ((noError_removeAll _ _).bind fun _ => noError_insertAll _ _) fun t => ?_
    split_ifs
    · exact Exec.noError_ok _
    · exact ih

end Replay

section Entries

variable {index : PackIndex}

/-- The entries that the handles of a set lead to. -/
def entriesOf (index : PackIndex) (handles : Set FileHandle) : Set FileEntryRef :=
  {e | ∃ handle ∈ handles, index.handleToEntry handle = .ok e}

theorem mem_entriesOf_list {handles : List FileHandle} {entries : List FileEntryRef}
    (h : index.entryRefsFromHandles handles = .ok entries) {e : FileEntryRef} :
    e ∈ entries ↔ ∃ handle ∈ handles, index.handleToEntry handle = .ok e := by
  constructor
  · exact Exec.mem_of_mapM h
  · rintro ⟨handle, hhandle, hentry⟩
    obtain ⟨e', he', hentry'⟩ := Exec.mapM_mem h hhandle
    rw [handleToEntryRef, hentry] at hentry'
    cases hentry'
    exact he'

/-- Changes to handles are the same changes to the entries. -/
theorem leads_entriesOf {delta : ChangeSet FileHandle} {deltas : ChangeSet FileEntryRef}
    {s t : Set FileHandle} (lead : delta.Leads s t)
    (h : delta.map index.entryRefsFromHandles = .ok deltas) :
    deltas.Leads (index.entriesOf s) (index.entriesOf t) := by
  obtain ⟨added, hadded, h⟩ := Exec.bind_eq_ok.mp h
  obtain ⟨removed, hremoved, h⟩ := Exec.bind_eq_ok.mp h
  cases h
  have inj : ∀ x x' y, index.handleToEntryRef x = .ok y → index.handleToEntryRef x' = .ok y →
      x = x' := fun _ _ _ => handleToEntry_injective
  refine ⟨(Exec.mapM_nodup_iff hremoved inj).mp lead.removed_nodup, ?_,
    (Exec.mapM_nodup_iff hadded inj).mp lead.added_nodup, ?_, ?_⟩
  · intro e he
    obtain ⟨handle, hhandle, hentry⟩ := (mem_entriesOf_list hremoved).mp he
    exact ⟨handle, lead.removed_mem handle hhandle, hentry⟩
  · rintro e he ⟨handle, hhandle, hentry⟩
    obtain ⟨handle', hhandle', hentry'⟩ := (mem_entriesOf_list hadded).mp he
    obtain rfl := handleToEntry_injective hentry hentry'
    exact (mem_entriesOf_list hremoved).mpr ⟨handle, lead.added_new handle hhandle' hhandle, hentry⟩
  · intro e
    rw [mem_entriesOf_list hadded, mem_entriesOf_list hremoved]
    constructor
    · rintro ⟨handle, hhandle, hentry⟩
      refine ((lead.result handle).mp hhandle).imp (fun hold => ?_) fun hnew => ⟨handle, hnew, hentry⟩
      refine ⟨⟨handle, hold.1, hentry⟩, ?_⟩
      rintro ⟨handle', hhandle', hentry'⟩
      obtain rfl := handleToEntry_injective hentry hentry'
      exact hold.2 hhandle'
    · rintro (⟨⟨handle, hhandle, hentry⟩, hkept⟩ | ⟨handle, hhandle, hentry⟩)
      · exact ⟨handle, (lead.result handle).mpr (.inl ⟨hhandle, fun h => hkept ⟨handle, h, hentry⟩⟩),
          hentry⟩
      · exact ⟨handle, (lead.result handle).mpr (.inr hhandle), hentry⟩

/-- Changes to the entries are the same changes to the handles that lead to them. -/
theorem leads_handles {delta : ChangeSet FileHandle} {deltas : ChangeSet FileEntryRef}
    {s : Set FileHandle} {t : Set FileEntryRef}
    (all : ∀ handle ∈ s, ∃ e, index.handleToEntry handle = .ok e)
    (h : delta.map index.entryRefsFromHandles = .ok deltas)
    (lead : deltas.Leads (index.entriesOf s) t) :
    ∃ u, delta.Leads s u ∧ index.entriesOf u = t ∧
      ∀ handle ∈ u, ∃ e, index.handleToEntry handle = .ok e := by
  have hmap := h
  obtain ⟨added, hadded, h⟩ := Exec.bind_eq_ok.mp h
  obtain ⟨removed, hremoved, h⟩ := Exec.bind_eq_ok.mp h
  cases h
  have inj : ∀ x x' y, index.handleToEntryRef x = .ok y → index.handleToEntryRef x' = .ok y →
      x = x' := fun _ _ _ => handleToEntry_injective
  have hlead : delta.Leads s {x | (x ∈ s ∧ x ∉ delta.removed) ∨ x ∈ delta.added} := by
    refine ⟨(Exec.mapM_nodup_iff hremoved inj).mpr lead.removed_nodup, ?_,
      (Exec.mapM_nodup_iff hadded inj).mpr lead.added_nodup, ?_, fun x => Iff.rfl⟩
    · intro handle hhandle
      obtain ⟨e, he, hentry⟩ := Exec.mapM_mem hremoved hhandle
      obtain ⟨handle', hhandle', hentry'⟩ := lead.removed_mem e he
      obtain rfl := handleToEntry_injective hentry hentry'
      exact hhandle'
    · intro handle hhandle hs
      obtain ⟨e, he, hentry⟩ := Exec.mapM_mem hadded hhandle
      obtain ⟨handle', hhandle', hentry'⟩ :=
        (mem_entriesOf_list hremoved).mp (lead.added_new e he ⟨handle, hs, hentry⟩)
      obtain rfl := handleToEntry_injective hentry hentry'
      exact hhandle'
  refine ⟨_, hlead, (leads_entriesOf hlead hmap).unique lead, ?_⟩
  rintro handle (hkept | hnew)
  · exact all handle hkept.1
  · obtain ⟨e, -, hentry⟩ := Exec.mapM_mem hadded hnew
    exact ⟨e, hentry⟩

theorem noPanic_handleToEntry (h : index.Coherent) (handle : FileHandle) :
    Exec.NoPanic (index.handleToEntry handle) := by
  refine (Exec.noPanic_okOr _ _).bind fun path hpath => (Exec.noPanic_okOr _ _).bind fun c hc => ?_
  rw [Exec.okOr_eq_ok] at hpath hc
  rcases h.metadata with hempty | hall
  · have hmem := EntryPool.lookup_mem hpath
    rw [hempty] at hmem
    cases hmem
  · obtain ⟨metadata, hmetadata⟩ :=
      Option.isSome_iff_exists.mp (hall handle.object (by rw [hc]; rfl))
    rw [hmetadata]
    exact Exec.noPanic_ok _

theorem noPanic_entryRefs (h : index.Coherent) (handles : List FileHandle) :
    Exec.NoPanic (index.entryRefsFromHandles handles) :=
  Exec.noPanic_mapM fun handle _ => noPanic_handleToEntry h handle

theorem noPanic_forEachFrom {σ S : Type} (h : index.Coherent)
    (f : σ → String → HashSet FileEntryRef → σ × ControlFlow S) {tags : List String}
    {deltas : List (ChangeSet FileHandle)} {s : Set FileHandle} {complete : HashSet FileEntryRef}
    {sets : List (Set FileHandle)} (chain : Delta.Chain s (deltas.take tags.length) sets)
    (hcomplete : complete.toSet = index.entriesOf s) (state : σ) :
    Exec.NoPanic (index.forEachFrom f complete (tags.zip deltas) state) := by
  induction tags generalizing s deltas sets complete state with
  | nil => exact Exec.noPanic_ok _
  | cons tag tags ih =>
    cases deltas with
    | nil => exact Exec.noPanic_ok _
    | cons delta deltas =>
      cases chain with
      | cons lead rest =>
        rw [List.zip_cons_cons, forEachFrom]
        refine Exec.NoPanic.bind ?_ fun entries hentries => ?_
        · exact (noPanic_entryRefs h _).bind fun _ _ => (noPanic_entryRefs h _).bind fun _ _ =>
            Exec.noPanic_ok _
        have hlead := leads_entriesOf lead hentries
        rw [← hcomplete] at hlead
        obtain ⟨next, hnext, hset⟩ := Snapshot.applyChanges_of_leads (ε := PackError) hlead
        rw [hnext, Exec.ok_bind]
        split
        · exact Exec.noPanic_ok _
        · exact ih rest hset _

end Entries

section Safe

variable {index : PackIndex}

theorem toSet_empty : (HashSet.empty : HashSet α).toSet = ∅ :=
  Set.eq_empty_of_forall_notMem HashSet.not_mem_empty

theorem Coherent.replay (h : index.Coherent) (needle : String) :
    ∃ found, replay (ε := ε) needle .empty (index.snapshotTags.zip index.snapshotDeltas) =
      .ok found ∧
      (found.isSome ↔ needle ∈ index.snapshotTags.take index.snapshotDeltas.length) := by
  obtain ⟨sets, chain⟩ := h.deltas
  rw [← toSet_empty] at chain
  exact replay_found chain

theorem noPanic_resolveSnapshot (h : index.Coherent) (ord : IterOrder FileHandle)
    (needle : String) : Exec.NoPanic (index.resolveSnapshot (ε := ε) ord needle) := by
  obtain ⟨found, hfound, -⟩ := h.replay (ε := ε) needle
  rw [resolveSnapshot, hfound]
  exact Exec.noPanic_ok _

theorem noPanic_computeSnapshotChecksum (h : index.Coherent) (sha1 : List UInt8 → ObjectChecksum)
    (ord : IterOrder FileHandle) (tag : String) :
    Exec.NoPanic (index.computeSnapshotChecksum (ε := ε) sha1 ord tag) := by
  refine Exec.NoPanic.bind ?_ fun entries _ => Exec.noPanic_ok _
  refine (noPanic_resolveSnapshot h ord tag).bind fun found _ => ?_
  cases found with
  | none => exact Exec.noPanic_ok none
  | some handles =>
    have hentries := noPanic_entryRefs h handles
    dsimp only
    split
    · exact Exec.noPanic_ok _
    · exact Exec.noPanic_ok none
    · rename_i hpanic
      exact absurd hpanic hentries

theorem resolveSnapshot_listed (h : index.Coherent) {tag : String} (htag : tag ∈ index.snapshotTags)
    (ord : IterOrder FileHandle) :
    ∃ handles, index.resolveSnapshot (ε := ε) ord tag = .ok (some handles) := by
  obtain ⟨found, hfound, hiff⟩ := h.replay (ε := ε) tag
  obtain ⟨current, rfl⟩ := Option.isSome_iff_exists.mp (hiff.mpr (h.tags tag htag))
  exact ⟨current.iter ord, resolveSnapshot_eq_some.mpr ⟨current, hfound, rfl⟩⟩

theorem readersSafe_of_coherent (h : index.Coherent) : index.ReadersSafe where
  resolves := fun _ htag ord => resolveSnapshot_listed h htag ord
  resolveSnapshot := noPanic_resolveSnapshot h
  entriesFromHandles := noPanic_entryRefs h
  entryRefsFromHandles := noPanic_entryRefs h
  forEachSnapshot := by
    intro σ S f s
    obtain ⟨sets, chain⟩ := h.deltas
    refine noPanic_forEachFrom h f chain ?_ s
    ext e
    simp [entriesOf]
  computeSnapshotChecksum := noPanic_computeSnapshotChecksum h

/-- There is a tag that a list does not have. -/
theorem exists_absent (tags : List String) : ∃ needle, needle ∉ tags := by
  have inj : Function.Injective fun n : Nat => String.ofList (List.replicate n 'a') := by
    intro m n h
    have hlength := congrArg List.length (String.ofList_injective h)
    simpa using hlength
  have : Infinite String := .of_injective _ inj
  obtain ⟨needle, hneedle⟩ := Infinite.exists_notMem_finset tags.toFinset
  exact ⟨needle, by simpa using hneedle⟩

theorem coherent_of_readersSafe (h : index.ReadersSafe) : index.Coherent := by
  have hdeltas : ∃ sets, Delta.Chain ∅ (index.snapshotDeltas.take index.snapshotTags.length)
      sets := by
    obtain ⟨needle, hneedle⟩ := exists_absent index.snapshotTags
    have hpanic := h.resolveSnapshot .insertion needle
    have herror : Exec.NoError (replay (ε := PackError) needle .empty
        (index.snapshotTags.zip index.snapshotDeltas)) :=
      noError_replay _
    obtain ⟨found, hfound⟩ := herror.ok fun hreplay => by
      rw [PackIndex.resolveSnapshot, hreplay] at hpanic
      exact hpanic rfl
    cases found with
    | none =>
      have hchain := chain_of_replay hfound
      rwa [toSet_empty] at hchain
    | some current => exact absurd (List.mem_of_mem_take (tag_of_replay hfound)) hneedle
  refine ⟨fun tag htag => ?_, hdeltas, ?_⟩
  · obtain ⟨handles, hhandles⟩ := h.resolves tag htag .insertion
    obtain ⟨current, hreplay, -⟩ := resolveSnapshot_eq_some.mp hhandles
    exact tag_of_replay hreplay
  · by_contra hnone
    rw [not_or, not_forall] at hnone
    obtain ⟨hpaths, handle, hhandle⟩ := hnone
    rw [Classical.not_imp, Option.not_isSome_iff_eq_none] at hhandle
    obtain ⟨path, paths, hpool⟩ := List.exists_cons_of_ne_nil hpaths
    obtain ⟨checksum, hchecksum⟩ := Option.isSome_iff_exists.mp hhandle.1
    apply h.entriesFromHandles [⟨0, handle, .regular 0⟩]
    have hpath : index.pathPool.lookup 0 = some path := by
      rw [EntryPool.lookup, hpool]
      rfl
    have hentry : index.handleToEntry ⟨0, handle, .regular 0⟩ = Exec.panic := by
      rw [handleToEntry, hpath, hchecksum, hhandle.2]
      rfl
    rw [PackIndex.entriesFromHandles, List.mapM_cons, hentry]
    rfl

theorem readersSafe_iff : index.ReadersSafe ↔ index.Coherent :=
  ⟨coherent_of_readersSafe, readersSafe_of_coherent⟩

end Safe

end PackIndex

open PackIndex

/-- The readers of an index that parses are safe exactly when its tables fit together. -/
theorem accepted_index_readers_safe_iff {rmp : Rmp} {file : List UInt8} {index : PackIndex}
    (_ : parse rmp file = .ok index) : index.ReadersSafe ↔ index.Coherent :=
  readersSafe_iff

theorem accepted_index_readers_safe_reloaded : ∃ index,
    parse messagePack (SavedSample.index.serialize messagePackWriter) = .ok index ∧
      (index.ReadersSafe ↔ index.Coherent) :=
  ⟨_, SavedSample.library.parse_serialize,
    accepted_index_readers_safe_iff SavedSample.library.parse_serialize⟩

namespace TornDeltaSample

/-- Its only delta removes a file of a snapshot before, and there is none. -/
def index : PackIndex :=
  { PackIndex.new with
    snapshotTags := ["t"]
    snapshotDeltas := [⟨[], [⟨0, 0, .regular 420⟩]⟩] }

def file : List UInt8 := index.serialize messagePackWriter

end TornDeltaSample

/-- A delta that does not fit its snapshot stops the program. -/
theorem accepted_index_stops_readers : ¬ ∀ (rmp : Rmp) (file : List UInt8) (index : PackIndex),
    parse rmp file = .ok index → index.ReadersSafe := by
  intro h
  have hpanic : (parse messagePack TornDeltaSample.file >>= fun index =>
      index.resolveSnapshot .insertion "t") = Exec.panic := by rfl
  cases hparse : parse messagePack TornDeltaSample.file with
  | error e =>
    have haccepted : (parse messagePack TornDeltaSample.file).isOk = true := by rfl
    rw [hparse] at haccepted
    cases haccepted
  | ok index =>
    rw [hparse] at hpanic
    exact (h messagePack _ index hparse).resolveSnapshot .insertion "t" hpanic

end Elfshaker.Format
