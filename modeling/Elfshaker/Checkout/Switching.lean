import Elfshaker.Checkout.Extraction

namespace Elfshaker.Checkout

open Elfshaker.Library Elfshaker.Format Elfshaker.Store Elfshaker.Packs

section Diff

variable {env : Env} {repo : Repository} {snapshot : SnapshotId} {opts : ExtractOptions}
  {dd : DataDir} {plan : Plan} {entries : List FileEntry}

/-- The entries of a snapshot of a repository. -/
def SnapshotIs (env : Env) (dd : DataDir) (snapshot : SnapshotId) (entries : List FileEntry) :
    Prop :=
  ∃ index, loadIndex env.crates dd snapshot.pack = .ok index ∧
    snapshotEntries env index snapshot.tag = .ok entries

/-- The entries of the snapshot that HEAD names. -/
def Tracked (env : Env) (dd : DataDir) (entries : List FileEntry) : Prop :=
  ∃ head time, readHead env dd = .ok (some head, time) ∧ SnapshotIs env dd head entries

theorem SnapshotIs.unique {others : List FileEntry} (h : SnapshotIs env dd snapshot entries)
    (h' : SnapshotIs env dd snapshot others) : entries = others := by
  obtain ⟨index, hload, hentries⟩ := h
  obtain ⟨index', hload', hentries'⟩ := h'
  rw [hload] at hload'
  cases hload'
  rw [hentries] at hentries'
  exact Except.ok.inj hentries'

/-- What is planned is the snapshot, or what tells it from the one of HEAD. -/
inductive Planned (env : Env) (opts : ExtractOptions) (dd : DataDir) (plan : Plan)
    (entries : List FileEntry) : Prop
  | whole : (opts.reset = false → ∀ old, ¬ Tracked env dd old) → plan.newEntries = entries →
      plan.oldEntries = [] → Planned env opts dd plan entries
  | diff : opts.reset = false → Tracked env dd plan.headEntries →
      plan.newEntries = missingFrom env.entryOrd entries plan.headEntries →
      plan.oldEntries = missingFrom env.entryOrd plan.headEntries entries →
      Planned env opts dd plan entries

theorem headEntries_tracked {sourceIndex : PackIndex} {head : SnapshotId} {time : Option Nat}
    {headEntries : List FileEntry} (hhead : readHead env dd = .ok (some head, time))
    (hsource : loadIndex env.crates dd snapshot.pack = .ok sourceIndex)
    (h : headEntriesOf env dd snapshot.pack sourceIndex head = .ok headEntries) :
    Tracked env dd headEntries := by
  obtain ⟨index, hindex, h⟩ := Exec.bind_eq_ok.mp h
  obtain ⟨found, hfound, h⟩ := Exec.bind_eq_ok.mp h
  obtain ⟨handles, hhandles, h⟩ := Exec.bind_eq_ok.mp h
  have hload : loadIndex env.crates dd head.pack = .ok index := by
    unfold headIndex at hindex
    split at hindex
    · rename_i hsame
      rw [← hsame, hsource, Except.ok.inj hindex]
    · exact mapError_ok hindex
  rw [Exec.okOr_eq_ok.mp (mapError_ok hhandles)] at hfound
  refine ⟨head, time, hhead, index, hload, ?_⟩
  exact Exec.bind_eq_ok.mpr ⟨_, hfound, Exec.bind_eq_ok.mpr ⟨handles, rfl, h⟩⟩

theorem plan_is (h : Checkout.plan env snapshot opts dd = .ok plan) :
    ∃ entries, SnapshotIs env dd snapshot entries ∧
      preflightPathPolicy (entries.map FileEntry.path) = .ok () ∧
      Planned env opts dd plan entries := by
  obtain ⟨⟨head, time⟩, hhead, h⟩ := Exec.bind_eq_ok.mp h
  simp only at h
  split at h
  · cases h
  · obtain ⟨sourceIndex, hsource, h⟩ := Exec.bind_eq_ok.mp h
    obtain ⟨entries, hentries, h⟩ := Exec.bind_eq_ok.mp h
    obtain ⟨u, hpolicy, h⟩ := Exec.bind_eq_ok.mp h
    obtain ⟨headEntries, hheads, h⟩ := Exec.bind_eq_ok.mp h
    cases h
    refine ⟨entries, ⟨sourceIndex, hsource, hentries⟩, mapError_ok hpolicy, ?_⟩
    cases hreset : opts.reset with
    | true =>
      apply Planned.whole
      · intro hnot
        rw [hreset] at hnot
        cases hnot
      · simp [planEntries, hreset]
      · simp [planEntries, hreset]
    | false =>
      cases head with
      | none =>
        apply Planned.whole
        · rintro - old ⟨head, time', hread, -⟩
          rw [hhead] at hread
          cases hread
        · simp [planEntries]
        · simp [planEntries]
      | some head =>
        rw [loadHeadEntries, hreset, if_neg (by simp)] at hheads
        apply Planned.diff hreset (headEntries_tracked hhead hsource hheads)
        · simp [planEntries, hreset, computeEntryDiff]
        · simp [planEntries, hreset, computeEntryDiff]

theorem mem_missingFrom {entryOrd : IterOrder FileEntry} {others : List FileEntry}
    {entry : FileEntry} (h : entry ∈ missingFrom entryOrd entries others) :
    entry ∈ entries ∧ entryKey entry ∉ others.map entryKey := by
  refine ⟨missingFrom_subset h, ?_⟩
  simpa using (List.mem_filter.mp h).2

theorem collectByKey_keys {key : PackPath × ObjectChecksum × EntryMetadata}
    (h : key ∈ entries.map entryKey) : key ∈ (collectByKey entries).map entryKey := by
  induction entries with
  | nil => exact h
  | cons first entries ih =>
    rw [collectByKey]
    rw [List.map_cons, List.mem_cons] at h
    split
    · rename_i hagain
      rcases h with rfl | h
      · exact ih hagain
      · exact ih h
    · rw [List.map_cons, List.mem_cons]
      exact h.imp_right ih

/-- What is only in the first list is found there under its key. -/
theorem missingFrom_complete {entryOrd : IterOrder FileEntry} {others : List FileEntry}
    {entry : FileEntry} (h : entry ∈ entries) (hnot : entryKey entry ∉ others.map entryKey) :
    ∃ kept ∈ missingFrom entryOrd entries others, entryKey kept = entryKey entry := by
  obtain ⟨kept, hkept, hkey⟩ := List.mem_map.mp (collectByKey_keys (List.mem_map_of_mem h))
  refine ⟨kept, List.mem_filter.mpr ⟨entryOrd.mem_visit.mpr hkept, ?_⟩, hkey⟩
  rw [hkey]
  simpa using hnot

end Diff

section Switch

variable {env : Env} {repo : Repository} {snapshot : SnapshotId} {opts : ExtractOptions}
  {dd : DataDir} {plan : Plan} {entries : List FileEntry} {before after : FileTree}
  {content : ObjectChecksum → List UInt8}

/-- What is at no path of a snapshot, nor above or below one. -/
def ApartFrom (entries : List FileEntry) (ns : List Name) : Prop :=
  ∀ e ∈ entries, ¬ native e.path <+: ns ∧ ¬ ns <+: native e.path

theorem entry_unique {e d : FileEntry} (h : preflightPathPolicy (entries.map FileEntry.path) = .ok ())
    (he : e ∈ entries) (hd : d ∈ entries) (hpath : e.path = d.path) : e = d :=
  List.inj_on_of_nodup_map (preflightPathPolicy_nodup h) he hd hpath

theorem StandsFor.ne_dir {e : FileEntry} {node : FileNode} (h : StandsFor content e node) :
    node ≠ .dir := by
  rintro rfl
  unfold StandsFor at h
  split at h
  · obtain ⟨mtime, hfile⟩ := h
    cases hfile
  · obtain ⟨target, -, mtime, hlink⟩ := h
    cases hlink

theorem Materialized.ne_dir {e : FileEntry} {t : FileTree} (h : Materialized content repo e t) :
    t.lookup (repo.path.below (native e.path)) ≠ some .dir := by
  obtain ⟨node, hnode, hstands⟩ := h
  rw [hnode]
  exact fun heq => hstands.ne_dir (Option.some.inj heq)

theorem Materialized.of_key {e d : FileEntry} {t : FileTree} (hkey : entryKey e = entryKey d)
    (h : Materialized content repo e t) : Materialized content repo d t := by
  obtain ⟨hpath, hrest⟩ := Prod.mk.inj hkey
  obtain ⟨hchecksum, hmetadata⟩ := Prod.mk.inj hrest
  exact h.of_triple (Triple.ext hpath hchecksum hmetadata)

theorem Planned.news (h : Planned env opts dd plan entries) : plan.newEntries ⊆ entries := by
  cases h with
  | whole _ hnew _ =>
    rw [hnew]
    exact List.Subset.refl _
  | diff _ _ hnew _ =>
    rw [hnew]
    exact missingFrom_subset

/-- What HEAD has checked out is in the tree, at paths that are told apart. -/
structure Clean (content : ObjectChecksum → List UInt8) (repo : Repository)
    (entries : List FileEntry) (t : FileTree) : Prop where
  policy : preflightPathPolicy (entries.map FileEntry.path) = .ok ()
  held : AllMaterialized content repo entries t

/-- What is in both snapshots is not touched. -/
theorem unchanged_not_allowed (clean : Clean content repo plan.headEntries before)
    (policy : preflightPathPolicy (entries.map FileEntry.path) = .ok ())
    (hnew : plan.newEntries = missingFrom env.entryOrd entries plan.headEntries)
    (hold : plan.oldEntries = missingFrom env.entryOrd plan.headEntries entries) {e : FileEntry}
    (he : e ∈ entries) (hsame : entryKey e ∈ plan.headEntries.map entryKey) :
    ¬ Allowed env repo before plan (native e.path) := by
  obtain ⟨twin, htwin, hkey⟩ := List.mem_map.mp hsame
  have hheld : Materialized content repo e before := (clean.held twin htwin).of_key hkey
  have hold' : ∀ r ∈ plan.doomed, ∃ d ∈ plan.headEntries, native d.path = r ∧
      entryKey d ∉ entries.map entryKey := by
    intro r hr
    obtain ⟨path, rfl, -, hpath⟩ := mem_doomed.mp hr
    obtain ⟨d, hd, rfl⟩ := List.mem_map.mp hpath
    rw [hold] at hd
    obtain ⟨hmem, hnot⟩ := mem_missingFrom hd
    exact ⟨d, hmem, rfl, hnot⟩
  rintro (hcreated | ⟨-, hlicensed⟩)
  · obtain ⟨node, hnode, -⟩ := hheld
    rw [hcreated.2.1] at hnode
    cases hnode
  · cases hlicensed with
    | removed hr =>
      obtain ⟨d, hd, hpath, hnot⟩ := hold' _ hr
      have hpaths : d.path = twin.path := by
        rw [PackPath.components_injective hpath, (Prod.mk.inj hkey).1]
      rw [entry_unique clean.policy hd htwin hpaths, hkey] at hnot
      exact hnot (List.mem_map_of_mem he)
    | emptied hr _ hdir =>
      obtain ⟨d, hd, rfl, -⟩ := hold' _ hr
      exact (clean.held d hd).ne_dir hdir
    | cleaned _ _ hdir => exact hheld.ne_dir hdir
    | output hq =>
      obtain ⟨d, hd, hpath⟩ := mem_outputs.mp hq
      rw [hnew] at hd
      obtain ⟨hmem, hnot⟩ := mem_missingFrom hd
      rw [entry_unique policy hmem he (PackPath.components_injective hpath)] at hnot
      exact hnot hsame

/-- After an extraction that succeeds the tree has the snapshot. -/
theorem Planned.clean (planned : Planned env opts dd plan entries)
    (policy : preflightPathPolicy (entries.map FileEntry.path) = .ok ())
    (clean : opts.reset = false → ∀ old, Tracked env dd old → Clean content repo old before)
    (extracted : Extracted repo content plan before after)
    (unchanged : ∀ ns, ¬ Allowed env repo before plan ns →
      after.lookup (repo.path.below ns) = before.lookup (repo.path.below ns)) :
    Clean content repo entries after := by
  refine ⟨policy, fun e he => ?_⟩
  cases planned with
  | whole _ hnew _ => exact extracted.delivered e (hnew ▸ he)
  | diff hreset tracked hnew hold =>
    have hclean := clean hreset _ tracked
    by_cases hsame : entryKey e ∈ plan.headEntries.map entryKey
    · obtain ⟨twin, htwin, hkey⟩ := List.mem_map.mp hsame
      have hkept := unchanged _ (unchanged_not_allowed hclean policy hnew hold he hsame)
      have hheld : Materialized content repo e before := (hclean.held twin htwin).of_key hkey
      rw [Materialized, hkept]
      exact hheld
    · obtain ⟨kept, hkept, hkey⟩ := missingFrom_complete he hsame
      rw [← hnew] at hkept
      exact (extracted.delivered kept hkept).of_key hkey

/-- What only the snapshot of HEAD has is to be removed. -/
theorem Planned.dooms (planned : Planned env opts dd plan entries) (hreset : opts.reset = false)
    {old : List FileEntry} (tracked : Tracked env dd old) {d : FileEntry} (hd : d ∈ old)
    (hnot : d.path ∉ entries.map FileEntry.path) : native d.path ∈ plan.doomed := by
  have hnews := planned.news
  cases planned with
  | whole hnone _ _ => exact absurd tracked (hnone hreset old)
  | diff _ tracked' hnew hold =>
    obtain ⟨head, time, hread, hsnapshot⟩ := tracked
    obtain ⟨head', time', hread', hsnapshot'⟩ := tracked'
    rw [hread] at hread'
    cases hread'
    obtain rfl := hsnapshot.unique hsnapshot'
    have hkey : entryKey d ∉ entries.map entryKey := by
      intro hmem
      obtain ⟨e, he, hkey⟩ := List.mem_map.mp hmem
      exact hnot (List.mem_map.mpr ⟨e, he, (Prod.mk.inj hkey).1⟩)
    obtain ⟨kept, hkept, hkeys⟩ := missingFrom_complete hd hkey
    rw [← hold] at hkept
    have hpath : kept.path = d.path := (Prod.mk.inj hkeys).1
    refine mem_doomed.mpr ⟨d.path, rfl, fun hmem => ?_, hpath ▸ List.mem_map_of_mem hkept⟩
    obtain ⟨e, he, heq⟩ := List.mem_map.mp hmem
    exact hnot (List.mem_map.mpr ⟨e, hnews he, heq⟩)

/-- What stays where no entry is: it was there before, and was not tracked. -/
theorem Planned.untracked (planned : Planned env opts dd plan entries)
    (extracted : Extracted repo content plan before after) {ns : List Name} {node : FileNode}
    (hnode : after.lookup (repo.path.below ns) = some node) (hne : node ≠ .dir)
    (hnot : ∀ e ∈ entries, native e.path ≠ ns) :
    before.lookup (repo.path.below ns) = some node ∧
      (opts.reset = false → ∀ old, Tracked env dd old → ∀ d ∈ old, native d.path ≠ ns) := by
  rcases extracted.within _ _ hnode with ⟨hbefore, hkept⟩ | ⟨q, hq, heq⟩ | ⟨hdir, -⟩
  · refine ⟨hbefore, fun hreset old htracked d hd hpath => ?_⟩
    apply hkept _ (planned.dooms hreset htracked hd _) (congrArg repo.path.below hpath.symm)
    intro hmem
    obtain ⟨e, he, hsame⟩ := List.mem_map.mp hmem
    exact hnot e he (by rw [hsame, hpath])
  · obtain ⟨e, he, rfl⟩ := mem_outputs.mp hq
    exact absurd (Place.below_injective heq).symm (hnot e (planned.news he))
  · exact absurd hdir hne

/-- What is there, with no path of either snapshot near, is not touched. -/
theorem Planned.apart_not_allowed (planned : Planned env opts dd plan entries) {ns : List Name}
    (apart : ApartFrom entries ns) (olds : ∀ old, Tracked env dd old → ApartFrom old ns)
    (present : before.lookup (repo.path.below ns) ≠ none) : ¬ Allowed env repo before plan ns := by
  have houtput : ∀ q ∈ plan.outputs, ¬ q <+: ns ∧ ¬ ns <+: q := by
    intro q hq
    obtain ⟨e, he, rfl⟩ := mem_outputs.mp hq
    exact apart e (planned.news he)
  have hdoomed : ∀ r ∈ plan.doomed, ¬ r <+: ns ∧ ¬ ns <+: r := by
    intro r hr
    obtain ⟨path, rfl, -, hpath⟩ := mem_doomed.mp hr
    obtain ⟨d, hd, rfl⟩ := List.mem_map.mp hpath
    cases planned with
    | whole _ _ hold =>
      rw [hold] at hd
      cases hd
    | diff _ tracked _ hold =>
      rw [hold] at hd
      exact olds _ tracked d (mem_missingFrom hd).1
  rintro (⟨-, hfree, -⟩ | ⟨-, hlicensed⟩)
  · exact present hfree
  · cases hlicensed with
    | removed hr => exact (hdoomed _ hr).1 List.prefix_rfl
    | emptied hr hstarts _ => exact (hdoomed _ hr).1 hstarts
    | cleaned hr hstarts _ => exact (hdoomed _ hr).2 hstarts
    | output hq => exact (houtput _ hq).1 List.prefix_rfl

variable {D : DataDir → Prop} {s s' : Session World Fault} {r : ExtractResult}

theorem extractSnapshot_unchanged (start : Start env repo snapshot opts s)
    (hplan : Checkout.plan env snapshot opts s.state.disk.dataDir = .ok plan)
    (h : extractSnapshot env repo snapshot opts s = (.ok r, s')) {ns : List Name}
    (hns : ¬ Allowed env repo s.state.tree plan ns) :
    s'.state.tree.lookup (repo.path.below ns) = s.state.tree.lookup (repo.path.below ns) := by
  have hending := extractSnapshot_ending env repo snapshot opts start
  rw [h] at hending
  cases hending with
  | unplanned hnot _ => exact absurd rfl (hnot r)
  | refused _ _ hnot _ => exact absurd rfl (hnot r)
  | mutated plan' hplan' _ hguarded =>
    rw [hplan] at hplan'
    cases hplan'
    apply hguarded.unchanged
    intro names hnames
    rwa [← Place.below_injective hnames]

/-- What a tree is after an extraction: the snapshot is there, any other file was there before
and was not tracked, and what no snapshot has is as it was. -/
structure Switched (env : Env) (repo : Repository) (content : ObjectChecksum → List UInt8)
    (opts : ExtractOptions) (dd : DataDir) (entries : List FileEntry) (before after : FileTree) :
    Prop where
  clean : (opts.reset = false → ∀ old, Tracked env dd old → Clean content repo old before) →
    Clean content repo entries after
  untracked : ∀ ns node, after.lookup (repo.path.below ns) = some node → node ≠ .dir →
    (∀ e ∈ entries, native e.path ≠ ns) → before.lookup (repo.path.below ns) = some node ∧
      (opts.reset = false → ∀ old, Tracked env dd old → ∀ d ∈ old, native d.path ≠ ns)
  apart : ∀ ns node, before.lookup (repo.path.below ns) = some node → ApartFrom entries ns →
    (∀ old, Tracked env dd old → ApartFrom old ns) → after.lookup (repo.path.below ns) = some node

/-- A store of which some snapshots and their objects stay what they are while they are
read. -/
structure ServedStore (env : Env) (content : ObjectChecksum → List UInt8) (D : DataDir → Prop)
    (Known : SnapshotId → Prop) : Prop where
  headless : Headless D
  stable : ∀ dd dd' snapshot, Known snapshot → D dd → D dd' →
    loadIndex env.crates dd snapshot.pack = loadIndex env.crates dd' snapshot.pack
  served : ∀ dd snapshot entries, Known snapshot → D dd → SnapshotIs env dd snapshot entries →
    ∀ selection, selection ⊆ entries → Served env content D snapshot.pack selection

variable {Known : SnapshotId → Prop} (store : ServedStore env content D Known)
  (known : Known snapshot)
include store known

theorem extractSnapshot_served (start : Start env repo snapshot opts s)
    (hD : D s.state.disk.dataDir) : Effect.Triple
      (fun t : Session World Fault => t.state = s.state)
      (extractSnapshot env repo snapshot opts)
      (fun _ t => ∃ plan, Checkout.plan env snapshot opts s.state.disk.dataDir = .ok plan ∧
        Extracted repo content plan s.state.tree t.state.tree ∧ D t.state.disk.dataDir ∧
        HeadSet repo snapshot t.state.disk.dataDir)
      fun t => D t.state.disk.dataDir := by
  apply extractSnapshot_extracts start hD store.headless
  intro plan hplan
  obtain ⟨entries, target, -, planned⟩ := plan_is hplan
  exact store.served _ _ _ known hD target _ planned.news

/-- An extraction that succeeds from a tree with the snapshot of HEAD leaves the tree with
the other one, and HEAD says so. -/
theorem extraction_switches (start : Start env repo snapshot opts s)
    (hD : D s.state.disk.dataDir)
    (h : extractSnapshot env repo snapshot opts s = (.ok r, s')) :
    ∃ entries, SnapshotIs env s.state.disk.dataDir snapshot entries ∧
      Switched env repo content opts s.state.disk.dataDir entries s.state.tree s'.state.tree ∧
      D s'.state.disk.dataDir ∧ HeadSet repo snapshot s'.state.disk.dataDir := by
  obtain ⟨plan, hplan, extracted, hdisk, hhead⟩ :=
    (extractSnapshot_served store known start hD).ok rfl h
  obtain ⟨entries, target, policy, planned⟩ := plan_is hplan
  have unchanged : ∀ ns, ¬ Allowed env repo s.state.tree plan ns →
      s'.state.tree.lookup (repo.path.below ns) = s.state.tree.lookup (repo.path.below ns) :=
    fun _ => extractSnapshot_unchanged start hplan h
  refine ⟨entries, target, ⟨fun clean => planned.clean policy clean extracted unchanged,
    fun ns node hnode hne hnot => planned.untracked extracted hnode hne hnot,
    fun ns node hnode hnew hold => ?_⟩, hdisk, hhead⟩
  have hpresent : s.state.tree.lookup (repo.path.below ns) ≠ none := by
    rw [hnode]
    exact Option.some_ne_none node
  rw [unchanged ns (planned.apart_not_allowed hnew hold hpresent), hnode]

end Switch

end Elfshaker.Checkout
