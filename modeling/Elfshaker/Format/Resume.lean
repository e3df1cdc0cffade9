import Elfshaker.Format.Records

namespace Elfshaker.Format

open Elfshaker.Library

/-- What a push is given, without the order its sets are walked in. -/
def Push.input (push : Push) : String × List FileEntry := (push.tag, push.entries)

/-- The files of the last push. -/
def lastEntries (pushes : List Push) : List FileEntry :=
  (pushes.getLast?.map Push.entries).getD []

namespace PackIndex

/-- Both results are no snapshot, or the same set of files. -/
inductive SameFiles (index index' : PackIndex) : Option (List FileHandle) →
    Option (List FileHandle) → Prop where
  | absent : SameFiles index index' none none
  | present {handles handles' : List FileHandle} {entries entries' : List FileEntry}
      (resolved : index.entriesFromHandles handles = .ok entries)
      (resolved' : index'.entriesFromHandles handles' = .ok entries')
      (same : ∀ e, e ∈ entries ↔ e ∈ entries') :
      SameFiles index index' (some handles) (some handles')

/-- Every tag resolves in both indexes, and to the same files. -/
def ResolveAlike (index index' : PackIndex) : Prop :=
  ∀ ord ord' tag, ∃ found found',
    index.resolveSnapshot (ε := PackError) ord tag = .ok found ∧
    index'.resolveSnapshot (ε := PackError) ord' tag = .ok found' ∧
    SameFiles index index' found found'

/-- A replay that ends at a tag has led from the set before it. -/
theorem replay_leads {needle : String} {s t : HashSet FileHandle} {tags : List String}
    {deltas : List (ChangeSet FileHandle)} {sets : List (Set FileHandle)}
    {delta : ChangeSet FileHandle} {rest : List (String × ChangeSet FileHandle)}
    (chain : Delta.Chain s.toSet deltas sets) (hlength : tags.length = deltas.length)
    (absent : needle ∉ tags)
    (h : replay (ε := ε) needle s (tags.zip deltas ++ (needle, delta) :: rest) = .ok (some t)) :
    delta.Leads (sets.getLast?.getD s.toSet) t.toSet := by
  induction tags generalizing s deltas sets with
  | nil =>
    cases chain with
    | nil =>
      obtain ⟨u, hu, h⟩ := Exec.bind_eq_ok.mp h
      rw [if_pos rfl] at h
      cases h
      exact Snapshot.applyChanges_leads hu
    | cons lead rest => simp at hlength
  | cons tag tags ih =>
    cases chain with
    | nil => simp at hlength
    | cons lead chain =>
      obtain ⟨u, hu, rfl⟩ := Snapshot.applyChanges_of_leads (ε := ε) lead
      rw [List.mem_cons, not_or] at absent
      rw [List.zip_cons_cons, List.cons_append, replay, hu, Exec.ok_bind,
        if_neg (Ne.symm absent.1)] at h
      rw [List.getLast?_cons, Option.getD_some]
      exact ih chain (by simpa using hlength) absent.2 h

/-- The handle that a file has been given leads to a file. -/
theorem handleToEntry_interned {index : PackIndex} {e : FileEntry} (he : index.Interns e) :
    ∃ e', index.handleToEntry (index.fileHandle e) = .ok e' := by
  have lookup {α : Type} [DecidableEq α] {pool : EntryPool α} {x : α} (hx : x ∈ pool.entries) :
      ∃ y, pool.lookup (pool.handleOf x) = some y := by
    have hlt := List.idxOf_lt_length_iff.mpr hx
    have hle := Nat.mod_le (pool.entries.idxOf x) handleCount
    rw [EntryPool.lookup, EntryPool.handleOf, toHandle_toNat]
    exact ⟨_, List.getElem?_eq_getElem (by omega)⟩
  obtain ⟨path, hpath⟩ := lookup he.path
  obtain ⟨checksum, hsum⟩ := lookup he.object
  obtain ⟨metadata, hmetadata⟩ := Option.isSome_iff_exists.mp he.metadata
  exact ⟨⟨path, checksum, metadata, e.metadata⟩,
    handleToEntry_eq_ok.mpr ⟨hpath, hsum, hmetadata, rfl⟩⟩

section SameTables

variable {index index' : PackIndex}

theorem SameTables.fileHandle (h : index.SameTables index') (e : FileEntry) :
    index'.fileHandle e = index.fileHandle e := by
  rw [PackIndex.fileHandle, PackIndex.fileHandle, EntryPool.handleOf, EntryPool.handleOf,
    EntryPool.handleOf, EntryPool.handleOf, h.paths, h.objects]

theorem SameTables.handleSet (h : index.SameTables index') (entries : List FileEntry) :
    index'.handleSet entries = index.handleSet entries := by
  simp only [PackIndex.handleSet, h.fileHandle]

theorem SameTables.interns (h : index.SameTables index') {e : FileEntry} (he : index.Interns e) :
    index'.Interns e := by
  refine ⟨h.paths ▸ he.path, h.objects ▸ he.object, ?_⟩
  have hhandle : index'.objectPool.handleOf e.checksum = index.objectPool.handleOf e.checksum := by
    rw [EntryPool.handleOf, EntryPool.handleOf, h.objects]
  rw [hhandle, h.metadata]
  exact he.metadata

theorem getOrInsert_congr {α : Type} [DecidableEq α] {pool pool' : EntryPool α}
    (h : pool'.entries = pool.entries) (x : α) :
    (pool'.getOrInsert x).1.entries = (pool.getOrInsert x).1.entries ∧
      (pool'.getOrInsert x).2 = (pool.getOrInsert x).2 := by
  have hentries : (pool'.getOrInsert x).1.entries = (pool.getOrInsert x).1.entries := by
    rw [EntryPool.getOrInsert_entries, EntryPool.getOrInsert_entries, h]
  refine ⟨hentries, ?_⟩
  rw [EntryPool.getOrInsert_handle, EntryPool.getOrInsert_handle, EntryPool.handleOf,
    EntryPool.handleOf, hentries]

theorem SameTables.entryToHandle (h : index.SameTables index') (e : FileEntry) :
    (index.entryToHandle e).1.SameTables (index'.entryToHandle e).1 := by
  obtain ⟨hpaths, -⟩ := getOrInsert_congr h.paths e.path
  obtain ⟨hobjects, hobject⟩ := getOrInsert_congr h.objects e.checksum
  refine ⟨hpaths, hobjects, fun k => ?_⟩
  rw [entryToHandle_metadata, entryToHandle_metadata, hobject]
  by_cases hk : k = (index.objectPool.getOrInsert e.checksum).2
  · rw [hk, AList.lookup_insert, AList.lookup_insert]
  · rw [AList.lookup_insert_ne hk, AList.lookup_insert_ne hk, h.metadata]

theorem SameTables.entriesToHandles (h : index.SameTables index') (entries : List FileEntry) :
    (index.entriesToHandles entries).1.SameTables (index'.entriesToHandles entries).1 := by
  induction entries generalizing index index' with
  | nil => exact h
  | cons e entries ih => exact ih (h.entryToHandle e)

/-- The tables after a push. -/
theorem pushSnapshot_tables {ord : IterOrder FileHandle} {tag : String} {input : List FileEntry}
    (h : index.pushSnapshot ord tag input = .ok index') :
    (index.entriesToHandles input).1.SameTables index' := by
  unfold pushSnapshot at h
  split_ifs at h
  · cases h
  · obtain ⟨_, -, hindex⟩ := Exec.bind_eq_ok.mp h
    cases hindex
    exact ⟨rfl, rfl, fun _ => rfl⟩

theorem SameTables.trans {a b c : PackIndex} (h : a.SameTables b) (h' : b.SameTables c) :
    a.SameTables c :=
  ⟨h'.paths.trans h.paths, h'.objects.trans h.objects,
    fun k => (h'.metadata k).trans (h.metadata k)⟩

theorem SameTables.symm (h : index.SameTables index') : index'.SameTables index :=
  ⟨h.paths.symm, h.objects.symm, fun k => (h.metadata k).symm⟩

theorem SameTables.push {ord ord' : IterOrder FileHandle} {tag : String} {input : List FileEntry}
    {next next' : PackIndex} (h : index.SameTables index')
    (hpush : index.pushSnapshot ord tag input = .ok next)
    (hpush' : index'.pushSnapshot ord' tag input = .ok next') : next.SameTables next' :=
  ((pushSnapshot_tables hpush).symm.trans (h.entriesToHandles input)).trans
    (pushSnapshot_tables hpush')

end SameTables

end PackIndex

open PackIndex

theorem lastEntries_of_input {pushes pushes' : List Push}
    (same : pushes'.map Push.input = pushes.map Push.input) :
    pushes'.map Push.tag = pushes.map Push.tag ∧ pushes'.map Push.entries = pushes.map Push.entries := by
  have tags := congrArg (List.map Prod.fst) same
  have entries := congrArg (List.map Prod.snd) same
  rw [List.map_map, List.map_map] at tags entries
  exact ⟨tags, entries⟩

/-- Equal pushes keep the tables of two indexes equal. -/
theorem pushAll_sameTables {index index' final final' : PackIndex} {more more' : List Push}
    (h : index.SameTables index') (same : more'.map Push.input = more.map Push.input)
    (hmore : pushAll index more = .ok final) (hmore' : pushAll index' more' = .ok final') :
    final.SameTables final' := by
  induction more generalizing index index' more' with
  | nil =>
    rw [List.map_nil, List.map_eq_nil_iff] at same
    subst same
    cases hmore
    cases hmore'
    exact h
  | cons push more ih =>
    cases more' with
    | nil => simp at same
    | cons push' more' =>
      simp only [List.map_cons, List.cons.injEq, Push.input, Prod.mk.injEq] at same
      obtain ⟨⟨htag, hentries⟩, hrest⟩ := same
      obtain ⟨mid, hmid, hmore⟩ := Exec.bind_eq_ok.mp hmore
      obtain ⟨mid', hmid', hmore'⟩ := Exec.bind_eq_ok.mp hmore'
      rw [htag, hentries] at hmid'
      exact ih (h.push hmid hmid') hrest hmore hmore'

theorem Pushed.entriesFromHandles {index : PackIndex} {pushes : List Push} (h : Pushed index pushes)
    {push : Push} (hpush : push ∈ pushes) {handles : List FileHandle}
    (mem : ∀ handle, handle ∈ handles ↔ handle ∈ index.handleSet push.entries) :
    ∃ entries, index.entriesFromHandles handles = .ok entries := by
  apply Exec.mapM_exists
  intro handle hhandle
  obtain ⟨e, he, rfl⟩ := (mem handle).mp hhandle
  exact handleToEntry_interned (h.interns push hpush e he)

/-- Equal pushes give indexes that resolve alike. -/
theorem Pushed.resolveAlike {index index' : PackIndex} {pushes pushes' : List Push}
    (h : Pushed index pushes) (h' : Pushed index' pushes') (tables : index.SameTables index')
    (distinct : (pushes.map Push.tag).Nodup)
    (same : pushes'.map Push.input = pushes.map Push.input) : index.ResolveAlike index' := by
  obtain ⟨htags, -⟩ := lastEntries_of_input same
  have distinct' : (pushes'.map Push.tag).Nodup := by rwa [htags]
  intro ord ord' tag
  rcases h.resolveSnapshot distinct ord tag with ⟨habsent, hnone⟩ | hfound
  · rcases h'.resolveSnapshot distinct' ord' tag with ⟨-, hnone'⟩ | ⟨push', hpush', rfl, -⟩
    · exact ⟨none, none, hnone, hnone', .absent⟩
    · rw [← htags] at habsent
      exact absurd (List.mem_map_of_mem hpush') habsent
  · obtain ⟨push, hpush, rfl, handles, hsome, hmem⟩ := hfound
    rcases h'.resolveSnapshot distinct' ord' push.tag with ⟨habsent, -⟩ | hfound'
    · rw [htags] at habsent
      exact absurd (List.mem_map_of_mem hpush) habsent
    · obtain ⟨push', hpush', htag, handles', hsome', hmem'⟩ := hfound'
      have hentries : push'.entries = push.entries := by
        have hin : push'.input ∈ pushes.map Push.input := same ▸ List.mem_map_of_mem hpush'
        obtain ⟨other, hother, heq⟩ := List.mem_map.mp hin
        obtain ⟨htag', hentries⟩ := Prod.mk.inj heq
        have hsame : other = push :=
          List.inj_on_of_nodup_map distinct hother hpush (htag'.trans htag)
        rw [← hentries, hsame]
      obtain ⟨entries, hok⟩ := h.entriesFromHandles hpush hmem
      obtain ⟨entries', hok'⟩ := h'.entriesFromHandles hpush' hmem'
      refine ⟨some handles, some handles', hsome, hsome', .present hok hok' fun e => ?_⟩
      have hhandles : ∀ handle, handle ∈ handles ↔ handle ∈ handles' := by
        intro handle
        rw [hmem, hmem', tables.handleSet, hentries]
      rw [tables.entriesFromHandles] at hok'
      constructor
      · intro he
        obtain ⟨handle, hhandle, hstep⟩ := Exec.mem_of_mapM hok he
        obtain ⟨e', he', hstep'⟩ := Exec.mapM_mem hok' ((hhandles handle).mp hhandle)
        rw [hstep] at hstep'
        cases hstep'
        exact he'
      · intro he
        obtain ⟨handle, hhandle, hstep⟩ := Exec.mem_of_mapM hok' he
        obtain ⟨e', he', hstep'⟩ := Exec.mapM_mem hok ((hhandles handle).mpr hhandle)
        rw [hstep] at hstep'
        cases hstep'
        exact he'

theorem last_handleSet (index : PackIndex) (pushes : List Push) :
    ((pushes.map fun push => index.handleSet push.entries).getLast?).getD ∅ =
      index.handleSet (lastEntries pushes) := by
  rw [List.getLast?_map, lastEntries]
  cases pushes.getLast? with
  | none => simp [PackIndex.handleSet]
  | some push => rfl

/-- Where the last push was empty, nothing is lost with the set of its files. -/
theorem Pushed.reloaded {index : PackIndex} {pushes : List Push} (h : Pushed index pushes)
    (aligned : index.Aligned) (empty : lastEntries pushes = []) : Pushed index.reloaded pushes := by
  have agrees := reloaded_agrees aligned
  have sets : (pushes.map fun push => index.reloaded.handleSet push.entries) =
      pushes.map fun push => index.handleSet push.entries := by
    simp only [agrees.toSameTables.handleSet]
  refine ⟨agrees.tags.trans h.tags, fun push hpush e he => ?_, ?_, ?_, ?_, ?_⟩
  · exact agrees.toSameTables.interns (h.interns push hpush e he)
  · rw [sets, agrees.deltas]
    exact h.chain
  · rw [last_handleSet, empty]
    ext handle
    simp [PackIndex.handleSet, PackIndex.reloaded, fromParts]
  · rw [agrees.paths]
    exact h.paths
  · rw [agrees.objects]
    exact h.objects

/-- The first push after a reload is written as if nothing had been there, so that its
tag resolves to the files of the push before it as well, if at all. -/
theorem resolve_after_reload {index final : PackIndex} {pushes more : List Push} {push : Push}
    {ord : IterOrder FileHandle} {handles : List FileHandle} (h : Pushed index pushes)
    (aligned : index.Aligned) (hmore : pushAll index.reloaded (push :: more) = .ok final)
    (hresolve : final.resolveSnapshot (ε := PackError) ord push.tag = .ok (some handles)) :
    ∀ e ∈ lastEntries pushes, index.fileHandle e ∈ handles ∧
      index.fileHandle e ∉ final.handleSet push.entries := by
  have agrees := reloaded_agrees aligned
  obtain ⟨mid, hmid, hmore⟩ := Exec.bind_eq_ok.mp hmore
  have fresh := (pushSnapshot_tags hmid).1
  obtain ⟨mid', delta, hmid', interned, htags, hdeltas, hcurrent, hleads⟩ :=
    pushSnapshot_ok push.ord index.reloaded push.entries fresh
  rw [hmid] at hmid'
  cases hmid'
  obtain ⟨hextends, deltas, htags', hdeltas'⟩ := pushAll_extends hmore
  rw [hextends.handleSet interned.interns, ← hcurrent]
  have hlength : index.snapshotTags.length = index.snapshotDeltas.length := by
    rw [h.tags, h.chain.length_eq, List.length_map, List.length_map]
  have hzip : final.snapshotTags.zip final.snapshotDeltas =
      index.snapshotTags.zip index.snapshotDeltas ++
        (push.tag, delta) :: (more.map Push.tag).zip deltas := by
    rw [htags', hdeltas', htags, hdeltas, agrees.tags, agrees.deltas, List.append_assoc,
      List.append_assoc, List.zip_append hlength]
    rfl
  obtain ⟨t, ht, rfl⟩ := resolveSnapshot_eq_some.mp hresolve
  rw [hzip] at ht
  rw [agrees.tags] at fresh
  have hdelta := replay_leads h.chain_empty hlength fresh ht
  have hempty : (HashSet.empty : HashSet FileHandle).toSet = ∅ := by
    ext handle
    simp
  rw [hempty, last_handleSet] at hdelta
  have hnone : delta.removed = [] := by
    apply List.eq_nil_iff_forall_not_mem.mpr
    intro handle hhandle
    exact HashSet.not_mem_empty handle (hleads.removed_mem handle hhandle)
  intro e he
  have hold : index.fileHandle e ∈ index.handleSet (lastEntries pushes) := ⟨e, he, rfl⟩
  rw [HashSet.mem_iter, ← HashSet.mem_toSet, hdelta.result, hleads.result, hnone]
  refine ⟨.inl ⟨hold, List.not_mem_nil⟩, ?_⟩
  rintro (⟨hin, -⟩ | hadded)
  · exact HashSet.not_mem_empty _ hin
  · have hremoved := hdelta.added_new _ hadded hold
    rw [hnone] at hremoved
    exact List.not_mem_nil hremoved

section Resumed

variable {pushes more more' : List Push} {index : PackIndex} {writer : RmpWriter} {rmp : Rmp}

theorem not_alike_after_reload {final final' : PackIndex}
    (built : pushAll .new pushes = .ok index) (fresh : ((pushes ++ more).map Push.tag).Nodup)
    (same : more'.map Push.input = more.map Push.input) (hmore : more ≠ [])
    (hlast : lastEntries pushes ≠ []) (hfinal : pushAll index more = .ok final)
    (hfinal' : pushAll index.reloaded more' = .ok final') : ¬ final.ResolveAlike final' := by
  intro alike
  obtain ⟨pushed, -⟩ := pushed_of_pushAll built
  have aligned := pushAll_aligned aligned_new built
  obtain ⟨final₁, hfinal₁, pushedFinal⟩ := pushed.pushAll fresh
  rw [hfinal] at hfinal₁
  cases hfinal₁
  have tables := pushAll_sameTables (reloaded_agrees aligned).toSameTables same hfinal hfinal'
  obtain ⟨push, more, rfl⟩ := List.exists_cons_of_ne_nil hmore
  cases more' with
  | nil => simp at same
  | cons push' more' =>
    simp only [List.map_cons, List.cons.injEq, Push.input, Prod.mk.injEq] at same
    obtain ⟨⟨htag, hentries⟩, -⟩ := same
    obtain ⟨found, found', hfound, hfound', hsame⟩ := alike .insertion .insertion push'.tag
    rcases pushedFinal.resolveSnapshot fresh .insertion push'.tag with ⟨habsent, -⟩ | hpresent
    · rw [htag] at habsent
      exact absurd (List.mem_map_of_mem (by simp)) habsent
    · obtain ⟨push₁, hpush₁, htag₁, handles, hresolve, hmem⟩ := hpresent
      have hpush : push₁ = push :=
        List.inj_on_of_nodup_map fresh hpush₁ (by simp) (htag₁.trans htag)
      subst hpush
      rw [hfound] at hresolve
      cases hresolve
      cases hsame with
      | present hok hok' hentry =>
        obtain ⟨e, he⟩ := List.exists_mem_of_ne_nil _ hlast
        obtain ⟨hin, hout⟩ := resolve_after_reload pushed aligned hfinal' hfound' e he
        obtain ⟨entry, hentry', hstep⟩ := Exec.mapM_mem hok' hin
        obtain ⟨handle, hhandle, hstep'⟩ := Exec.mem_of_mapM hok ((hentry entry).mpr hentry')
        rw [tables.handleToEntry] at hstep
        rw [handleToEntry_injective hstep hstep', tables.handleSet, hentries] at hout
        exact hout ((hmem handle).mp hhandle)

theorem alike_after_reload (built : pushAll .new pushes = .ok index)
    (fresh : ((pushes ++ more).map Push.tag).Nodup)
    (same : more'.map Push.input = more.map Push.input)
    (hcondition : more = [] ∨ lastEntries pushes = []) :
    ∃ final final', pushAll index more = .ok final ∧ pushAll index.reloaded more' = .ok final' ∧
      final.ResolveAlike final' := by
  obtain ⟨pushed, distinct⟩ := pushed_of_pushAll built
  have aligned := pushAll_aligned aligned_new built
  have agrees := reloaded_agrees aligned
  rcases hcondition with rfl | hlast
  · rw [List.map_nil, List.map_eq_nil_iff] at same
    subst same
    refine ⟨index, index.reloaded, rfl, rfl, fun ord ord' tag => ?_⟩
    obtain ⟨found, found', hfound, hfound', hsame⟩ :=
      pushed.resolveAlike pushed ⟨rfl, rfl, fun _ => rfl⟩ distinct rfl ord ord' tag
    refine ⟨found, found', hfound, by rwa [agrees.resolveSnapshot], ?_⟩
    cases hsame with
    | absent => exact .absent
    | present hok hok' hentry =>
      exact .present hok (by rwa [agrees.toSameTables.entriesFromHandles]) hentry
  · obtain ⟨htags, -⟩ := lastEntries_of_input same
    have fresh' : ((pushes ++ more').map Push.tag).Nodup := by
      rwa [List.map_append, htags, ← List.map_append]
    obtain ⟨final, hfinal, pushedFinal⟩ := pushed.pushAll fresh
    obtain ⟨final', hfinal', pushedFinal'⟩ := (pushed.reloaded aligned hlast).pushAll fresh'
    have tables := pushAll_sameTables agrees.toSameTables same hfinal hfinal'
    refine ⟨final, final', hfinal, hfinal', ?_⟩
    refine pushedFinal.resolveAlike pushedFinal' tables fresh ?_
    rw [List.map_append, List.map_append, same]

/-- Pushes on the saved and loaded index give what they give on the index itself
exactly when there is none, or when the last snapshot before them has no files. -/
theorem further_pushes_alike_iff (built : pushAll .new pushes = .ok index)
    (library : index.RoundTrips writer rmp) (fresh : ((pushes ++ more).map Push.tag).Nodup)
    (same : more'.map Push.input = more.map Push.input) :
    (∃ loaded final final', parse rmp (index.serialize writer) = .ok loaded ∧
      pushAll index more = .ok final ∧ pushAll loaded more' = .ok final' ∧
      final.ResolveAlike final') ↔ more = [] ∨ lastEntries pushes = [] := by
  have hparse := library.parse_serialize
  constructor
  · rintro ⟨loaded, final, final', hloaded, hfinal, hfinal', alike⟩
    rw [hparse] at hloaded
    cases hloaded
    by_contra hcondition
    rw [not_or] at hcondition
    exact not_alike_after_reload built fresh same hcondition.1 hcondition.2 hfinal hfinal' alike
  · intro hcondition
    obtain ⟨final, final', hfinal, hfinal', alike⟩ :=
      alike_after_reload built fresh same hcondition
    exact ⟨index.reloaded, final, final', hparse, hfinal, hfinal', alike⟩

end Resumed

namespace SavedSample

/-- The same files once more. -/
def more : List Push :=
  [⟨.insertion, "u", lastEntries pushes⟩]

end SavedSample

theorem further_pushes_not_alike : ¬ ∃ loaded final final',
    parse messagePack (SavedSample.index.serialize messagePackWriter) = .ok loaded ∧
      pushAll SavedSample.index SavedSample.more = .ok final ∧
      pushAll loaded SavedSample.more = .ok final' ∧ final.ResolveAlike final' := by
  rw [further_pushes_alike_iff SavedSample.built SavedSample.library (by decide) rfl]
  simp [SavedSample.more, SavedSample.pushes, lastEntries]

/-- A second snapshot of the same files cannot be resolved after a reload. -/
theorem reload_forgets_files : ¬ ∀ (pushes more : List Push) (index : PackIndex)
    (writer : RmpWriter) (rmp : Rmp), pushAll .new pushes = .ok index →
    index.RoundTrips writer rmp → ((pushes ++ more).map Push.tag).Nodup →
    ∃ loaded final final', parse rmp (index.serialize writer) = .ok loaded ∧
      pushAll index more = .ok final ∧ pushAll loaded more = .ok final' ∧
      final.ResolveAlike final' := by
  intro h
  obtain ⟨loaded, final, final', hloaded, hfinal, hfinal', alike⟩ :=
    h SavedSample.pushes SavedSample.more SavedSample.index _ _ SavedSample.built
      SavedSample.library (by decide)
  rw [SavedSample.library.parse_serialize] at hloaded
  cases hloaded
  refine not_alike_after_reload SavedSample.built (by decide) rfl ?_ ?_ hfinal
    hfinal' alike
  · simp [SavedSample.more]
  · simp [SavedSample.pushes, lastEntries]

end Elfshaker.Format
