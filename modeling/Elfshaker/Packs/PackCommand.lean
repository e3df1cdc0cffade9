import Elfshaker.Format.Meaning
import Elfshaker.Packs.SoundPack

namespace Elfshaker.Packs

open Elfshaker.Library Elfshaker.Format Elfshaker.Store

section Gather

variable (entryOrd : IterOrder FileEntryRef) (ord : IterOrder FileHandle)

/-- The callback for one snapshot. It stops the loop with the error of a push. -/
def pushEntries (newIndex : PackIndex) (snapshot : String) (entries : HashSet FileEntryRef) :
    PackIndex × ControlFlow (Exec PackError Unit) :=
  match newIndex.pushSnapshot ord snapshot (entries.iter entryOrd) with
  | .ok newIndex => (newIndex, .next)
  | .error e => (newIndex, .stop (.error e))

/-- Adds the snapshots of an index. What the loop returns when it was stopped is
dropped; a panic of the callback goes through. -/
def packIndex (newIndex index : PackIndex) : Exec PackError PackIndex := do
  let (newIndex, output) ← index.forEachSnapshot (pushEntries entryOrd ord) newIndex
  match output with
  | some (.error .panic) => Exec.panic
  | _ => .ok newIndex

def packIndexes (newIndex : PackIndex) : List PackIndex → Exec PackError PackIndex
  | [] => .ok newIndex
  | index :: rest => do
    let newIndex ← packIndex entryOrd ord newIndex index
    packIndexes newIndex rest

variable (crates : Crates) (writer : RmpWriter) (packWriter : PackWriter)

/-- `assert!(repo.is_pack_loose(pack_id))`, and then the index. -/
def loadLooseIndex (dd : DataDir) (id : PackId) : Exec Error PackIndex := do
  Exec.assert (isPackLoose crates dd id)
  loadIndex crates dd id

/-- The loop over the selected indexes. -/
def gatherSnapshots (newIndex : PackIndex) : List PackId → Call PackIndex
  | [] => pure newIndex
  | id :: rest => do
    io Io.passing
    let index ← Effect.asks fun s => loadLooseIndex crates s.state.dataDir id
    let newIndex ← Effect.lift ((packIndex entryOrd ord newIndex index).mapError .packError)
    gatherSnapshots newIndex rest

/-- The pack command from the selected indexes to the pack. Neither the choice of the
indexes before it nor the change of HEAD after it touches the packs. -/
def runPack (randoms : List UInt8 × List UInt8) (force : Bool) (pack : PackId)
    (snapshots : List PackId) (opts : PackOptions) : Call Unit := do
  let newIndex ← gatherSnapshots entryOrd ord crates .new snapshots
  if force then createPackForce writer packWriter pack newIndex opts
  else createPack writer packWriter randoms pack newIndex opts

end Gather

/-- The tags up to the first one that has been met before. -/
def keptTags (met : List String) : List String → List String
  | [] => []
  | tag :: rest => if tag ∈ met then [] else tag :: keptTags (met ++ [tag]) rest

/-- The tags that have a delta. -/
def listedTags (index : PackIndex) : List String :=
  index.snapshotTags.take index.snapshotDeltas.length

/-- The snapshots of the indexes, without those that are listed after a tag that has
been met before. -/
def keptSnapshots (met : List String) : List PackIndex → List (PackIndex × String)
  | [] => []
  | index :: rest =>
    let kept := keptTags met (listedTags index)
    kept.map (fun tag => (index, tag)) ++ keptSnapshots (met ++ kept) rest

/-- What a push says of its files. -/
def said (push : Push) : Set Sized := {x | ∃ e ∈ push.entries, e.sized = x}

section Loop

variable {entryOrd : IterOrder FileEntryRef} {ord : IterOrder FileHandle}
  {index newIndex newIndex' : PackIndex} {output : Option (Exec PackError Unit)}

theorem not_met_of_kept {met tags : List String} {tag : String} (h : tag ∈ keptTags met tags) :
    tag ∉ met := by
  induction tags generalizing met with
  | nil => cases h
  | cons first tags ih =>
    rw [keptTags] at h
    split_ifs at h with hmet
    · cases h
    · rcases List.mem_cons.mp h with rfl | h
      · exact hmet
      · exact fun htag => ih h (List.mem_append_left _ htag)

/-- The snapshots that the loop pushes: those of the tags that are kept, as the index
itself replays them. -/
theorem forEachFrom_pushes {current : HashSet FileHandle} {complete : HashSet FileEntryRef}
    {tags : List String} {deltas : List (ChangeSet FileHandle)}
    (hcomplete : complete.toSet = index.entriesOf current.toSet)
    (all : ∀ handle ∈ current.toSet, ∃ e, index.handleToEntry handle = .ok e)
    (h : index.forEachFrom (pushEntries entryOrd ord) complete (tags.zip deltas) newIndex =
      .ok (newIndex', output)) :
    ∃ pushes, pushAll newIndex pushes = .ok newIndex' ∧
      pushes.map Push.tag = keptTags newIndex.snapshotTags (tags.take deltas.length) ∧
      ∀ push ∈ pushes, ∃ t,
        PackIndex.replay (ε := PackError) push.tag current (tags.zip deltas) = .ok (some t) ∧
          (∀ handle ∈ t.toSet, ∃ e, index.handleToEntry handle = .ok e) ∧
          said push = index.saidBy t.toSet := by
  induction tags generalizing current complete deltas newIndex with
  | nil =>
    cases h
    exact ⟨[], rfl, by rw [List.take_nil]; rfl, nofun⟩
  | cons tag tags ih =>
    cases deltas with
    | nil =>
      cases h
      exact ⟨[], rfl, rfl, nofun⟩
    | cons delta deltas =>
      obtain ⟨entries, hentries, h⟩ := Exec.bind_eq_ok.mp h
      obtain ⟨next, hnext, h⟩ := Exec.bind_eq_ok.mp h
      have hlead := Snapshot.applyChanges_leads hnext
      rw [hcomplete] at hlead
      obtain ⟨u, hu, hset, hall⟩ := PackIndex.leads_handles all hentries hlead
      obtain ⟨t, ht, rfl⟩ := Snapshot.applyChanges_of_leads (ε := PackError) hu
      rw [List.length_cons, List.take_succ_cons, keptTags]
      by_cases hmet : tag ∈ newIndex.snapshotTags
      · rw [pushEntries, PackIndex.pushSnapshot, if_pos hmet] at h
        cases h
        exact ⟨[], rfl, by rw [if_pos hmet]; rfl, nofun⟩
      · obtain ⟨mid, _, hmid, -, htags, -⟩ :=
          PackIndex.pushSnapshot_ok ord newIndex (next.iter entryOrd) hmet
        rw [pushEntries, hmid] at h
        obtain ⟨pushes, hpushes, hkept, hmeans⟩ := ih hset.symm hall h
        refine ⟨⟨ord, tag, next.iter entryOrd⟩ :: pushes, ?_, ?_, ?_⟩
        · exact Exec.bind_eq_ok.mpr ⟨mid, hmid, hpushes⟩
        · rw [if_neg hmet, List.map_cons, hkept, htags]
        · intro push hpush
          rcases List.mem_cons.mp hpush with rfl | hpush
          · refine ⟨t, Exec.bind_eq_ok.mpr ⟨t, ht, if_pos rfl⟩, hall, ?_⟩
            ext x
            refine exists_congr fun e => and_congr_left fun _ => ?_
            rw [hset]
            exact HashSet.mem_iter entryOrd
          · obtain ⟨t', hreplay, hrest⟩ := hmeans push hpush
            refine ⟨t', Exec.bind_eq_ok.mpr ⟨t, ht, ?_⟩, hrest⟩
            have hne : tag ≠ push.tag := by
              intro heq
              have hkeptTag : push.tag ∈ keptTags mid.snapshotTags (tags.take deltas.length) :=
                hkept ▸ List.mem_map_of_mem hpush
              refine not_met_of_kept hkeptTag ?_
              rw [htags, heq]
              exact List.mem_append_right _ List.mem_cons_self
            exact (if_neg hne).trans hreplay

theorem packIndex_pushes (h : packIndex entryOrd ord newIndex index = .ok newIndex') :
    ∃ pushes, pushAll newIndex pushes = .ok newIndex' ∧
      pushes.map Push.tag = keptTags newIndex.snapshotTags (listedTags index) ∧
      ∀ push ∈ pushes, index.Means push.tag (said push) := by
  obtain ⟨⟨mid, output⟩, hloop, h⟩ := Exec.bind_eq_ok.mp h
  have hmid : mid = newIndex' := by
    dsimp only at h
    split at h
    · cases h
    · exact Except.ok.inj h
  subst hmid
  have hempty : (HashSet.empty : HashSet FileEntryRef).toSet =
      index.entriesOf (HashSet.empty : HashSet FileHandle).toSet := by
    ext e
    simp [PackIndex.entriesOf]
  obtain ⟨pushes, hpushes, hkept, hmeans⟩ :=
    forEachFrom_pushes hempty (fun handle hhandle => by simp at hhandle) hloop
  refine ⟨pushes, hpushes, hkept, fun push hpush => ?_⟩
  obtain ⟨t, hreplay, hall, hsaid⟩ := hmeans push hpush
  exact PackIndex.means_iff.mpr ⟨t, hreplay, hall, hsaid⟩

theorem pushAll_append {pushes more : List Push} (h : pushAll index pushes = .ok newIndex)
    (hmore : pushAll newIndex more = .ok newIndex') :
    pushAll index (pushes ++ more) = .ok newIndex' := by
  induction pushes generalizing index with
  | nil =>
    cases h
    exact hmore
  | cons push pushes ih =>
    obtain ⟨mid, hmid, h⟩ := Exec.bind_eq_ok.mp h
    exact Exec.bind_eq_ok.mpr ⟨mid, hmid, ih h⟩

/-- A push, and the index that it comes from. -/
abbrev Kept := PackIndex × Push

theorem packIndexes_pushes {indexes : List PackIndex}
    (h : packIndexes entryOrd ord newIndex indexes = .ok newIndex') :
    ∃ kept : List Kept, pushAll newIndex (kept.map Prod.snd) = .ok newIndex' ∧
      kept.map (fun k => (k.1, k.2.tag)) = keptSnapshots newIndex.snapshotTags indexes ∧
      ∀ k ∈ kept, k.1 ∈ indexes ∧ k.1.Means k.2.tag (said k.2) := by
  induction indexes generalizing newIndex with
  | nil =>
    cases h
    exact ⟨[], rfl, rfl, nofun⟩
  | cons index indexes ih =>
    obtain ⟨mid, hmid, h⟩ := Exec.bind_eq_ok.mp h
    obtain ⟨pushes, hpushes, htags, hmeans⟩ := packIndex_pushes hmid
    obtain ⟨kept, hkept, hsnapshots, hall⟩ := ih h
    obtain ⟨-, _, hmidTags, -⟩ := pushAll_extends hpushes
    refine ⟨pushes.map (fun push => (index, push)) ++ kept, ?_, ?_, ?_⟩
    · have hsnd : (pushes.map fun push => (index, push)).map Prod.snd = pushes := by
        rw [List.map_map]
        exact List.map_id pushes
      rw [List.map_append, hsnd]
      exact pushAll_append hpushes hkept
    · rw [List.map_append, hsnapshots, keptSnapshots, hmidTags, htags, ← htags]
      simp [List.map_map, Function.comp_def]
    · intro k hk
      rcases List.mem_append.mp hk with hk | hk
      · obtain ⟨push, hpush, rfl⟩ := List.mem_map.mp hk
        exact ⟨List.mem_cons_self, hmeans push hpush⟩
      · exact ⟨List.mem_cons_of_mem _ (hall k hk).1, (hall k hk).2⟩

end Loop

/-- Each snapshot is kept, or another index adds the same one under its tag, and no two
that are kept say different sizes of one object. -/
structure Mergeable (indexes : List PackIndex) : Prop where
  kept : ∀ index ∈ indexes, ∀ tag said, index.Means tag said →
    ∃ index', (index', tag) ∈ keptSnapshots [] indexes ∧ index'.Means tag said
  sizes : ∀ snapshot ∈ keptSnapshots [] indexes, ∀ snapshot' ∈ keptSnapshots [] indexes,
    ∀ said said', snapshot.1.Means snapshot.2 said → snapshot'.1.Means snapshot'.2 said' →
      ∀ x ∈ said, ∀ y ∈ said', x.1.checksum = y.1.checksum → x.2 = y.2

section Merge

variable {entryOrd : IterOrder FileEntryRef} {ord : IterOrder FileHandle}
  {newIndex : PackIndex} {indexes : List PackIndex}

/-- The index of a push says what is pushed, where the sizes agree. -/
theorem means_of_mergeable {kept : List Kept}
    (hpushes : pushAll .new (kept.map Prod.snd) = .ok newIndex)
    (hpaths : newIndex.pathPool.Fits) (hobjects : newIndex.objectPool.Fits)
    (sizes : ∀ k ∈ kept, ∀ k' ∈ kept, ∀ x ∈ said k.2, ∀ y ∈ said k'.2,
      x.1.checksum = y.1.checksum → x.2 = y.2) {k : Kept} (hk : k ∈ kept) :
    newIndex.Means k.2.tag (said k.2) := by
  obtain ⟨pushed, distinct⟩ := pushed_of_pushAll hpushes
  have hrecords : newIndex.Records fun checksum metadata =>
      ∃ k ∈ kept, ∃ e ∈ k.2.entries, e.checksum = checksum ∧ e.objectMetadata.size = metadata.size := by
    refine pushAll_records PackIndex.records_new hpushes hobjects fun push hpush e he => ?_
    obtain ⟨k, hk, rfl⟩ := List.mem_map.mp hpush
    exact ⟨k, hk, e, he, rfl, rfl⟩
  have hsize : ∀ e ∈ k.2.entries, ∀ size, newIndex.RecordedSize e.checksum size →
      e.objectMetadata.size = size := by
    rintro e he size ⟨handle, metadata, hchecksum, hmetadata, rfl⟩
    obtain ⟨k', hk', e', he', hsame, hrecorded⟩ := hrecords handle _ metadata hchecksum hmetadata
    rw [← hrecorded]
    exact sizes k hk k' hk' e.sized ⟨e, he, rfl⟩ e'.sized ⟨e', he', rfl⟩ hsame.symm
  have hpush : k.2 ∈ kept.map Prod.snd := List.mem_map_of_mem hk
  have hall := pushed.means distinct hpaths hobjects hpush
  convert hall using 1
  ext x
  constructor
  · rintro ⟨e, he, rfl⟩
    obtain ⟨size, hrecorded⟩ :=
      PackIndex.recordedSize_of_interns hobjects (pushed.interns _ hpush e he)
    refine ⟨List.mem_map_of_mem he, ?_⟩
    have heq := hsize e he size hrecorded
    rwa [← heq] at hrecorded
  · rintro ⟨htriple, hrecorded⟩
    obtain ⟨e, he, htriple⟩ := List.mem_map.mp htriple
    refine ⟨e, he, Prod.ext htriple (hsize e he x.2 ?_)⟩
    rwa [← htriple] at hrecorded

theorem merged_means_iff (h : packIndexes entryOrd ord .new indexes = .ok newIndex)
    (hpaths : newIndex.pathPool.Fits) (hobjects : newIndex.objectPool.Fits) :
    (∀ index ∈ indexes, ∀ tag ∈ index.snapshotTags, ∀ said, index.Means tag said →
      newIndex.Means tag said) ↔ Mergeable indexes := by
  obtain ⟨kept, hpushes, hsnapshots, hkept⟩ := packIndexes_pushes h
  have hmem : ∀ index tag, (index, tag) ∈ keptSnapshots [] indexes ↔
      ∃ k ∈ kept, k.1 = index ∧ k.2.tag = tag := by
    intro index tag
    have hnew : PackIndex.new.snapshotTags = [] := rfl
    rw [← hnew, ← hsnapshots, List.mem_map]
    simp only [Prod.mk.injEq]
  constructor
  · intro preserves
    have hown : ∀ k ∈ kept, newIndex.Means k.2.tag (said k.2) := by
      intro k hk
      obtain ⟨hindex, hmeans⟩ := hkept k hk
      exact preserves k.1 hindex _ hmeans.tag_mem _ hmeans
    refine ⟨?_, ?_⟩
    · intro index hindex tag said' hmeans
      have hnew := preserves index hindex tag hmeans.tag_mem said' hmeans
      obtain ⟨pushed, -⟩ := pushed_of_pushAll hpushes
      have htag := hnew.tag_mem
      rw [pushed.tags, List.mem_map] at htag
      obtain ⟨push, hpush, rfl⟩ := htag
      obtain ⟨k, hk, rfl⟩ := List.mem_map.mp hpush
      refine ⟨k.1, (hmem _ _).mpr ⟨k, hk, rfl, rfl⟩, ?_⟩
      rw [hnew.unique (hown k hk)]
      exact (hkept k hk).2
    · rintro ⟨index, tag⟩ hsnapshot ⟨index', tag'⟩ hsnapshot' said₁ said₂ hmeans hmeans' x hx y hy hsame
      obtain ⟨k, hk, rfl, rfl⟩ := (hmem _ _).mp hsnapshot
      obtain ⟨k', hk', rfl, rfl⟩ := (hmem _ _).mp hsnapshot'
      rw [hmeans.unique (hkept k hk).2] at hx
      rw [hmeans'.unique (hkept k' hk').2] at hy
      have hsize := (hown k hk).recorded hx
      rw [hsame] at hsize
      exact hsize.unique ((hown k' hk').recorded hy)
  · intro mergeable index hindex tag _ said' hmeans
    obtain ⟨index', hsnapshot, hmeans'⟩ := mergeable.kept index hindex tag said' hmeans
    obtain ⟨k, hk, rfl, rfl⟩ := (hmem _ _).mp hsnapshot
    rw [hmeans'.unique (hkept k hk).2]
    refine means_of_mergeable hpushes hpaths hobjects ?_ hk
    intro k hk k' hk' x hx y hy
    exact mergeable.sizes _ ((hmem _ _).mpr ⟨k, hk, rfl, rfl⟩) _ ((hmem _ _).mpr ⟨k', hk', rfl, rfl⟩)
      _ _ (hkept k hk).2 (hkept k' hk').2 x hx y hy

end Merge

section Written

variable {writer : RmpWriter} {packWriter : PackWriter} {pack : PackId} {index : PackIndex}
  {opts : PackOptions} {s s' : Session Disk Fault}

/-- Laying out the objects leaves what the index means. -/
theorem alike_laidOut {packed : PackIndex} {ordering : List Handle}
    (h : computeObjectOffsetsAndOrdering (ε := ε) index = .ok (packed, ordering)) :
    index.Alike packed := by
  obtain ⟨table, htable, h⟩ := Exec.bind_eq_ok.mp h
  cases h
  obtain ⟨hother, hplaced, -⟩ := assignOffsets_ok (sizeHandles_nodup index) htable
  refine ⟨rfl, rfl, fun _ => rfl, fun _ => rfl, fun handle => ?_⟩
  by_cases hlisted : handle ∈ (sizeHandles index).map Prod.snd
  · obtain ⟨⟨size, _⟩, hitem, rfl⟩ := List.mem_map.mp hlisted
    obtain ⟨before, after, hsplit⟩ := List.append_of_mem hitem
    obtain ⟨metadata, o, hlookup, hresult, -⟩ := hplaced before size _ after hsplit
    rw [hlookup, hresult]
    rfl
  · rw [hother handle hlisted]

theorem alike_reloaded (aligned : index.Aligned) : index.Alike index.reloaded := by
  have agrees := PackIndex.reloaded_agrees aligned
  exact ⟨agrees.tags, agrees.deltas, agrees.pathPool_lookup, agrees.objectPool_lookup,
    fun handle => by rw [agrees.metadata]⟩

theorem buildPack_index {built : PackContent}
    (h : buildPack packWriter index opts s = (.ok built, s')) : ∃ ordering,
      computeObjectOffsetsAndOrdering (ε := IoError) index = .ok (built.index, ordering) := by
  obtain ⟨_, _, -, h⟩ := Effect.bind_eq_ok.mp h
  obtain ⟨content, _, hlook, h⟩ := Effect.bind_eq_ok.mp h
  obtain ⟨_, _, -, h⟩ := Effect.bind_eq_ok.mp h
  obtain ⟨_, _, -, h⟩ := Effect.bind_eq_ok.mp h
  obtain ⟨rfl, -⟩ := Effect.pure_eq_ok.mp h
  exact compressPack_index (Io.look_ok (io_eq_ok.mp hlook)).1

/-- The index that is in place when a pack has been created. -/
def Written (writer : RmpWriter) (pack : PackId) (index : PackIndex) (dd : DataDir) : Prop :=
  PackId.isValidRegular pack.name = true ∧ ∃ packed ordering,
    computeObjectOffsetsAndOrdering (ε := IoError) index = .ok (packed, ordering) ∧
      (pack.indexPath, packed.serialize writer) ∈ dd.packs.files

theorem createPack_written {randoms : List UInt8 × List UInt8}
    (h : createPack writer packWriter randoms pack index opts s = (.ok (), s')) :
    Written writer pack index s'.state.dataDir := by
  obtain ⟨_, _, hreserve, h⟩ := Effect.bind_eq_ok.mp h
  obtain ⟨output, _, hfill, hrename⟩ := Effect.bind_eq_ok.mp h
  obtain ⟨_, _, hprepare, -⟩ := Effect.bind_eq_ok.mp hreserve
  obtain ⟨file, _, htemp, hfill⟩ := Effect.bind_eq_ok.mp hfill
  obtain ⟨built, _, hbuild, hfill⟩ := Effect.bind_eq_ok.mp hfill
  obtain ⟨_, _, -, hfill⟩ := Effect.bind_eq_ok.mp hfill
  obtain ⟨_, _, -, hfill⟩ := Effect.bind_eq_ok.mp hfill
  obtain ⟨_, _, -, hfill⟩ := Effect.bind_eq_ok.mp hfill
  obtain ⟨_, _, hbytes, hfill⟩ := Effect.bind_eq_ok.mp hfill
  obtain ⟨rfl, rfl⟩ := Effect.pure_eq_ok.mp hfill
  obtain ⟨ordering, hordering⟩ := buildPack_index hbuild
  obtain rfl := createTemp_ok (io_eq_ok.mp htemp)
  obtain ⟨packs, hop, hstate⟩ := Io.onPacks_ok (io_eq_ok.mp hrename)
  have hputs := puts_rename hstate hop (fill_ok (io_eq_ok.mp hbytes))
  refine ⟨preparePack_valid hprepare, built.index, ordering, hordering, ?_⟩
  exact (hputs.files _ _ ⟨pack, .inl rfl⟩).mpr (by rw [if_pos rfl])

theorem createPackForce_written
    (h : createPackForce writer packWriter pack index opts s = (.ok (), s')) :
    Written writer pack index s'.state.dataDir := by
  obtain ⟨_, _, hprepare, h⟩ := Effect.bind_eq_ok.mp h
  obtain ⟨built, _, hbuild, h⟩ := Effect.bind_eq_ok.mp h
  obtain ⟨_, _, -, h⟩ := Effect.bind_eq_ok.mp h
  obtain ⟨_, _, -, hpublish⟩ := Effect.bind_eq_ok.mp h
  obtain ⟨ordering, hordering⟩ := buildPack_index hbuild
  obtain ⟨packs, hop, hstate⟩ := Io.onPacks_ok (io_eq_ok.mp hpublish)
  have hputs := puts_publish hstate hop
  refine ⟨preparePack_valid hprepare, built.index, ordering, hordering, ?_⟩
  exact (hputs.files _ _ ⟨pack, .inl rfl⟩).mpr (by rw [if_pos rfl])

end Written

section Run

variable {entryOrd : IterOrder FileEntryRef} {ord : IterOrder FileHandle} {crates : Crates}
  {writer : RmpWriter} {packWriter : PackWriter} {randoms : List UInt8 × List UInt8} {force : Bool}
  {pack : PackId} {snapshots : List PackId} {opts : PackOptions} {s s' : Session Disk Fault}

theorem gatherSnapshots_ok {newIndex newIndex' : PackIndex}
    (h : gatherSnapshots entryOrd ord crates newIndex snapshots s = (.ok newIndex', s')) :
    ∃ indexes, snapshots.mapM (loadLooseIndex crates s.state.dataDir) = .ok indexes ∧
      packIndexes entryOrd ord newIndex indexes = .ok newIndex' := by
  induction snapshots generalizing newIndex s with
  | nil =>
    obtain ⟨rfl, rfl⟩ := Effect.pure_eq_ok.mp h
    exact ⟨[], rfl, rfl⟩
  | cons id snapshots ih =>
    obtain ⟨_, t, hpassing, h⟩ := Effect.bind_eq_ok.mp h
    obtain ⟨index, u, hload, h⟩ := Effect.bind_eq_ok.mp h
    obtain ⟨mid, v, hpack, h⟩ := Effect.bind_eq_ok.mp h
    obtain ⟨hindex, rfl⟩ := Effect.asks_eq_ok.mp hload
    obtain ⟨hmid, rfl⟩ := Effect.lift_eq_ok.mp hpack
    obtain ⟨indexes, hindexes, hall⟩ := ih h
    have hstate : t.state = s.state := Io.passing_ok (io_eq_ok.mp hpassing)
    rw [hstate] at hindex hindexes
    rw [Exec.mapError_eq_ok] at hmid
    refine ⟨index :: indexes, ?_, Exec.bind_eq_ok.mpr ⟨mid, hmid, hall⟩⟩
    exact Exec.mapM_eq_ok.mpr (.cons hindex (Exec.mapM_eq_ok.mp hindexes))

theorem runPack_written
    (h : runPack entryOrd ord crates writer packWriter randoms force pack snapshots opts s =
      (.ok (), s')) :
    ∃ indexes newIndex, snapshots.mapM (loadLooseIndex crates s.state.dataDir) = .ok indexes ∧
      packIndexes entryOrd ord .new indexes = .ok newIndex ∧
      Written writer pack newIndex s'.state.dataDir := by
  obtain ⟨newIndex, t, hgather, h⟩ := Effect.bind_eq_ok.mp h
  obtain ⟨indexes, hindexes, hmerged⟩ := gatherSnapshots_ok hgather
  refine ⟨indexes, newIndex, hindexes, hmerged, ?_⟩
  split_ifs at h
  · exact createPackForce_written h
  · exact createPack_written h

/-- After a pack command that succeeds, each tag of each selected index means in the new
index what it meant in that one, exactly when the selected indexes can be merged. -/
theorem packing_preserves_meaning_iff (laws : writer.ReadBackBy crates.rmp)
    (short : ∀ indexes newIndex, snapshots.mapM (loadLooseIndex crates s.state.dataDir) =
      .ok indexes → packIndexes entryOrd ord .new indexes = .ok newIndex → newIndex.Writable)
    (h : runPack entryOrd ord crates writer packWriter randoms force pack snapshots opts s =
      (.ok (), s')) :
    ∃ indexes loaded, snapshots.mapM (loadLooseIndex crates s.state.dataDir) = .ok indexes ∧
      loadIndex crates s'.state.dataDir pack = .ok loaded ∧
      ((∀ index ∈ indexes, ∀ tag ∈ index.snapshotTags, ∀ said, index.Means tag said →
        loaded.Means tag said) ↔ Mergeable indexes) := by
  obtain ⟨indexes, newIndex, hindexes, hmerged, hvalid, packed, ordering, hordering, hfile⟩ :=
    runPack_written h
  have hwritable := short indexes newIndex hindexes hmerged
  obtain ⟨kept, hpushes, -⟩ := packIndexes_pushes hmerged
  have haligned : packed.Aligned := computeObjectOffsetsAndOrdering_aligned
    (pushAll_aligned PackIndex.aligned_new hpushes) hordering
  have hparse := (PackIndex.roundTrips_of_writable laws
    (writable_laidOut hordering haligned hwritable)).parse_serialize
  have hpack : pack.validate crates.unicode = .ok () := PackId.validate_eq_ok.mpr (.inr hvalid)
  refine ⟨indexes, packed.reloaded, hindexes,
    loadIndex_eq_ok.mpr ⟨_, openIndex_eq_ok.mpr ⟨hpack, hfile⟩, hparse⟩, ?_⟩
  have halike : newIndex.Alike packed.reloaded :=
    (alike_laidOut hordering).trans (alike_reloaded haligned)
  rw [← merged_means_iff hmerged hwritable.paths.le hwritable.objects.le]
  refine forall₅_congr fun index _ tag _ said => imp_congr_right fun _ => ?_
  exact ⟨halike.symm.means, halike.means⟩

end Run

namespace ClashSample

/-- The index that pushes make. -/
def made (pushes : List Push) : PackIndex :=
  match pushAll .new pushes with
  | .ok index => index
  | .error _ => .new

def crates : Crates := ⟨messagePack, fun _ => .zero, CreationSample.crates.unicode⟩

def packWriter : PackWriter := ⟨fun _ => [], PackSample.zstd⟩

/-- An empty file that may not be read. -/
def entry : FileEntry := ⟨.x, .zero, ⟨looseObjectOffset, 0⟩, .regular 420⟩

def first : PackIndex := made [⟨.insertion, "a", []⟩]

/-- The tag of the first index, and then one of its own. -/
def second : PackIndex := made [⟨.insertion, "a", []⟩, ⟨.insertion, "b", [entry]⟩]

def file (index : PackIndex) : Node := .file (index.serialize messagePackWriter) 0

def session : Session Disk Fault :=
  ⟨⟨⟨(AList.insert "loose/a.pack.idx" (file first) ∅).insert "loose/b.pack.idx" (file second),
    ∅, none⟩, 0⟩, []⟩

def both : List PackId := [⟨"loose/a"⟩, ⟨"loose/b"⟩]

def opts : PackOptions := ⟨3, 20, 1, 1⟩

def run : Exec Error Unit × Session Disk Fault :=
  runPack .insertion .insertion crates messagePackWriter packWriter ([1], [2]) false ⟨"p"⟩ both
    opts session

theorem run_ok : ∃ s', run = (.ok (), s') := ⟨_, rfl⟩

def loaded : List PackIndex := [first.reloaded, second.reloaded]

theorem both_load : both.mapM (loadLooseIndex crates session.state.dataDir) = .ok loaded := rfl

def merged : PackIndex :=
  match packIndexes .insertion .insertion .new loaded with
  | .ok index => index
  | .error _ => .new

theorem loaded_merge : packIndexes .insertion .insertion .new loaded = .ok merged := rfl

theorem merged_writable : merged.Writable := by
  refine ⟨⟨?_, ?_⟩, ?_, ?_, ?_, ?_, ?_, ?_, ?_⟩
  all_goals decide

theorem second_means_b : ∃ said, second.reloaded.Means "b" said :=
  ⟨_, .insertion, _, _, rfl, rfl, fun _ => Iff.rfl⟩

end ClashSample

theorem packing_preserves_meaning_clash : ∃ s' indexes loaded,
    ClashSample.run = (.ok (), s') ∧
    ClashSample.both.mapM (loadLooseIndex ClashSample.crates ClashSample.session.state.dataDir) =
      .ok indexes ∧
    loadIndex ClashSample.crates s'.state.dataDir ⟨"p"⟩ = .ok loaded ∧
      ((∀ index ∈ indexes, ∀ tag ∈ index.snapshotTags, ∀ said, index.Means tag said →
        loaded.Means tag said) ↔ Mergeable indexes) := by
  obtain ⟨s', hrun⟩ := ClashSample.run_ok
  have hlaws : messagePackWriter.ReadBackBy ClashSample.crates.rmp := messagePack_readBack
  have short : ∀ indexes newIndex, ClashSample.both.mapM
      (loadLooseIndex ClashSample.crates ClashSample.session.state.dataDir) = .ok indexes →
      packIndexes .insertion .insertion .new indexes = .ok newIndex → newIndex.Writable := by
    intro indexes newIndex hindexes hmerged
    rw [ClashSample.both_load] at hindexes
    cases hindexes
    rw [ClashSample.loaded_merge] at hmerged
    cases hmerged
    exact ClashSample.merged_writable
  obtain ⟨indexes, loaded, hindexes, hloaded, hiff⟩ := packing_preserves_meaning_iff hlaws short hrun
  exact ⟨s', indexes, loaded, hrun, hindexes, hloaded, hiff⟩

/-- The tags of an index that are listed after one of another index are dropped. -/
theorem packing_drops_snapshots : ¬ ∀ (entryOrd : IterOrder FileEntryRef)
    (ord : IterOrder FileHandle) (crates : Crates) (writer : RmpWriter) (packWriter : PackWriter)
    (randoms : List UInt8 × List UInt8) (force : Bool) (pack : PackId) (snapshots : List PackId)
    (opts : PackOptions) (s s' : Session Disk Fault) (indexes : List PackIndex)
    (loaded : PackIndex), writer.ReadBackBy crates.rmp →
    runPack entryOrd ord crates writer packWriter randoms force pack snapshots opts s =
      (.ok (), s') →
    snapshots.mapM (loadLooseIndex crates s.state.dataDir) = .ok indexes →
    loadIndex crates s'.state.dataDir pack = .ok loaded →
      ∀ index ∈ indexes, ∀ tag ∈ index.snapshotTags, ∀ said, index.Means tag said →
        loaded.Means tag said := by
  intro h
  have hrun : ClashSample.run = (.ok (), ClashSample.run.2) := by
    obtain ⟨s', hrun⟩ := ClashSample.run_ok
    rw [hrun]
  have hnew : (loadIndex ClashSample.crates ClashSample.run.2.state.dataDir ⟨"p"⟩ >>= fun index =>
      .ok index.snapshotTags) = .ok ["a"] := by rfl
  obtain ⟨loaded, hloaded, htags⟩ := Exec.bind_eq_ok.mp hnew
  obtain ⟨said, hsaid⟩ := ClashSample.second_means_b
  have hmeans := h _ _ _ _ _ _ _ _ _ _ _ _ _ loaded messagePack_readBack hrun
    ClashSample.both_load hloaded _ (List.mem_cons_of_mem _ List.mem_cons_self) "b"
    hsaid.tag_mem said hsaid
  have htag := hmeans.tag_mem
  rw [Except.ok.inj htags] at htag
  exact absurd htag (by decide)

end Elfshaker.Packs
