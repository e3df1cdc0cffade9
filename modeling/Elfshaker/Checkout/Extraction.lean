import Elfshaker.Checkout.Delivery
import Elfshaker.Checkout.Traceless
import Elfshaker.Checkout.Head
import Elfshaker.Checkout.PathPolicy

namespace Elfshaker.Checkout

open Elfshaker.Library Elfshaker.Format Elfshaker.Store Elfshaker.Packs

section Removed

variable {repo : Repository} {before : FileTree} {Ok noted : List Name → Prop}
  {paths pending : List (List Name)}

theorem shrinks_gone {names : List Name} : Shrinks (Gone repo names) :=
  fun _ _ _ touch herases hgone => herases.gone_of_gone hgone touch

theorem succeeds_trivially {ς ε α : Type} {P : ς → Prop} {x : Effect ς ε α} :
    Effect.Triple P x (fun _ _ => True) fun _ => True :=
  .intro (fun _ _ _ _ _ => trivial) fun _ _ _ _ _ => trivial

/-- Nothing is left at a path that is removed. -/
theorem removePath_gone (rooted : Rooted repo before Ok) {rs : List (List Name)}
    (doomed : Doomed repo before Ok paths rs) {r : List Name} (hr : r ∈ rs)
    (behind : Behind (r :: pending) r) : Effect.Triple
      (fun s : Session World Fault => Safe repo before Ok paths (r :: pending) noted s.state)
      (removePath repo r)
      (fun _ s => Safe repo before Ok paths pending
        (fun ns => noted ns ∨ Present repo before r ns) s.state ∧ Gone repo r s.state)
      fun s => Safe repo before Ok paths (r :: pending) noted s.state := by
  have hpath := doomed.among r hr
  have hclears : Clears repo (Safe repo before Ok paths (r :: pending) noted) r
      (removePath repo r) :=
    removePath_clears (Safe.leadsTo_behind rooted hpath behind List.prefix_rfl)
      (Safe.reaches_behind rooted hpath behind)
      fun ns hns => Safe.keptAt (doomed.below r hr ns hns)
  exact hclears.weaken (fun _ hs => hs) (fun _ _ hs => ⟨hs.1.dropped hs.2, hs.2⟩) fun _ hs => hs

/-- After the removal of all paths nothing is at any of them. -/
theorem removePaths_gone (rooted : Rooted repo before Ok) {rs : List (List Name)}
    (doomed : Doomed repo before Ok paths rs) (rest : List (List Name)) (hrest : rest ⊆ rs)
    (ordered : rest.Pairwise fun earlier later => later <+: earlier → later = earlier)
    {queue : Option (List Name)} (queued : Queued rs rest queue) (noted : List Name → Prop) :
    Effect.Triple (fun s : Session World Fault => Safe repo before Ok paths rest noted s.state)
      (removePaths repo queue rest) (fun _ s => ∀ r ∈ rest, Gone repo r s.state)
      fun _ => True := by
  induction rest generalizing queue noted with
  | nil =>
    exact succeeds_trivially.weaken (fun _ _ => trivial)
      (fun _ _ _ r hr => absurd hr List.not_mem_nil) fun _ hs => hs
  | cons r rest ih =>
    obtain ⟨hlater, ordered⟩ := List.pairwise_cons.mp ordered
    have hr := hrest List.mem_cons_self
    have behind : Behind (r :: rest) r := by
      intro p hp hstarts
      rcases List.mem_cons.mp hp with rfl | hp
      · rfl
      · exact hlater p hp hstarts
    have behindRest : Behind rest r := fun p hp => behind p (List.mem_cons_of_mem _ hp)
    have hgone : Shrinks (Gone repo r) := shrinks_gone
    have henqueue : Effect.Triple
        (fun s : Session World Fault => Safe repo before Ok paths rest
          (fun ns => noted ns ∨ Present repo before r ns) s.state ∧ Gone repo r s.state)
        (Effect.onError (enqueue repo r.dropLast queue) (process repo queue))
        (fun next s => (Safe repo before Ok paths rest
          (fun ns => noted ns ∨ Present repo before r ns) s.state ∧ Gone repo r s.state) ∧
          Queued rs rest next) fun _ => True := by
      apply Effect.Triple.weaken (Effect.Triple.onError
        ((enqueue_queued rooted doomed queued.tail hr behindRest).and
          (shrinks_enqueue hgone queue)) succeeds_trivially)
      · exact fun _ hs => hs
      · exact fun _ _ hs => ⟨⟨hs.1.1, hs.2⟩, hs.1.2⟩
      · exact fun _ hs => hs
    apply Effect.Triple.bind
    · exact Effect.Triple.onError (removePath_gone rooted doomed hr behind) succeeds_trivially
    · intro _
      apply Effect.Triple.bind_fact henqueue
      intro next hnext
      have hrestGone := ih (fun p hp => hrest (List.mem_cons_of_mem _ hp)) ordered hnext
        fun ns => noted ns ∨ Present repo before r ns
      apply (hrestGone.and (shrinks_removePaths hgone next rest)).weaken
      · exact fun _ hs => hs
      · exact fun _ s hs => List.forall_mem_cons.mpr ⟨hs.2, hs.1⟩
      · exact fun _ _ => trivial

end Removed

section Head

/-- A property of a data directory that says nothing of its HEAD. -/
def Headless (D : DataDir → Prop) : Prop := ∀ dd head, D dd → D { dd with head }

/-- A data directory with its HEAD set, unless it may not be. -/
def HeadSet (repo : Repository) (snapshot : SnapshotId) (dd : DataDir) : Prop :=
  repo.readOnly = false → ∃ time, dd.head = some (snapshot.display ++ "\n", time)

variable {repo : Repository} {snapshot : SnapshotId} {T : FileTree → Prop} {D : DataDir → Prop}

theorem keeps_storeUpdateHead (headless : Headless D) :
    Io.KeepsDisk (fun disk => D disk.dataDir) (Store.updateHead snapshot) := by
  have hpassing : Io.KeepsDisk (fun disk => D disk.dataDir) Io.passing := Io.keeps_passing
  have hprepare : Io.KeepsDisk (fun disk => D disk.dataDir) Io.prepareAtomicWrite :=
    Io.keeps_prepareAtomicWrite
  have hset : Io.KeepsDisk (fun disk => D disk.dataDir)
      (Io.setHead (snapshot.display ++ "\n")) :=
    Io.keeps_setHead fun _ _ _ hdisk => headless _ _ hdisk
  exact hpassing.mapError.bind fun _ => hprepare.mapError.bind fun _ => hset.mapError

theorem keeps_headless (headless : Headless D) :
    KeepsWorld (fun world => T world.tree ∧ D world.disk.dataDir) (updateHead repo snapshot) := by
  unfold updateHead
  split
  · exact .pure _
  · apply Effect.Keeps.of_state
    exact fun s hs => ⟨hs.1, (keeps_storeUpdateHead headless).state hs.2⟩

theorem updateHead_sets (headless : Headless D) : Effect.Triple
    (fun s : Session World Fault => T s.state.tree ∧ D s.state.disk.dataDir)
    (updateHead repo snapshot)
    (fun _ s => T s.state.tree ∧ D s.state.disk.dataDir ∧ HeadSet repo snapshot s.state.disk.dataDir)
    fun s => D s.state.disk.dataDir := by
  apply Effect.Triple.intro
  · intro s s' _ hs hrun
    obtain ⟨hT, hD⟩ := (keeps_headless headless).ok hs hrun
    exact ⟨hT, hD, fun hwritable => updateHead_head hwritable hrun⟩
  · exact fun s s' e hs hrun => ((keeps_headless headless).error hs hrun).2

end Head

section Checks

variable {env : Env} {repo : Repository} {P : World → Prop}

theorem keeps_checkAncestors {removable : List PackPath} (paths : List PackPath) :
    KeepsWorld P (preflightDestinationAncestors repo removable paths) := by
  induction paths with
  | nil => exact .pure _
  | cons path paths ih => exact .bind (keeps_checkDestinationAncestors _ _) fun _ => ih

theorem keeps_symlinkTargets {pack : PackId} {entries : List FileEntry} {D : DataDir → Prop}
    (hD : ∀ {world}, P world → D world.disk.dataDir)
    (fetch : MayBePacked env D pack → KeepsWorld P (updateRemotePack env pack)) :
    KeepsWorld P (preflightSymlinkTargets env pack entries) := by
  have hopen : KeepsWorld P (openPack env pack) :=
    .bind (.mapError (keeps_inspect _)) fun _ => .asks _
  have hobtain (packed : MayBePacked env D pack) : KeepsWorld P (obtainPack env pack) := by
    apply Effect.Keeps.orElse hopen
    rintro e y ⟨⟩
    exact .bind (fetch packed) fun _ => hopen
  unfold preflightSymlinkTargets
  simp only
  split
  · exact .pure _
  · apply Effect.Keeps.bind
    · apply Effect.Triple.bind_fact (asks_loose hD)
      intro loose hloose
      cases loose with
      | true => exact keeps_readTargets _
      | false => exact .bind (hobtain (hloose rfl)) fun _ => keeps_reading
    · exact fun _ => .lift _

theorem keeps_unforced {opts : ExtractOptions} {plan : Plan} :
    KeepsWorld P (preflightUnforced env repo opts plan) := by
  apply Effect.Keeps.of_state
  intro s hs
  have hchecks : Effect.Triple _ (preflightUnforced env repo opts plan) _ _ :=
    preflightUnforced_unchanged (P := fun world => P world ∧ world.tree = s.state.tree)
      fun _ h => h.2
  cases hrun : preflightUnforced env repo opts plan s with
  | mk result t =>
    cases result with
    | ok u => exact (hchecks.ok ⟨hs, rfl⟩ hrun).1.1
    | error e => exact (hchecks.error ⟨hs, rfl⟩ hrun).1

theorem keeps_fetch {T : FileTree → Prop} {D : DataDir → Prop} {pack : PackId}
    (fetched : ∀ dd dd', D dd → env.fetchPack dd pack = .ok dd' → D dd') :
    KeepsWorld (fun world => T world.tree ∧ D world.disk.dataDir) (updateRemotePack env pack) := by
  apply Effect.Keeps.of_state
  rintro s ⟨hT, hD⟩
  refine ⟨hT, ?_⟩
  change D (Disk.dataDir (Session.state (Checkout.fetched env pack ⟨s.state.disk, s.faults⟩).2))
  unfold Checkout.fetched
  split
  · rename_i dd hfetch
    exact fetched _ dd hD hfetch
  · exact hD

/-- The checks that succeed leave nothing behind. -/
theorem preflight_traceless {before : FileTree} {plan : Plan} {snapshot : SnapshotId}
    {opts : ExtractOptions} {D : DataDir → Prop} (root : before.lookup repo.path = some .dir)
    (fresh : FreshNames env plan.ways)
    (fetched : MayBePacked env D snapshot.pack →
      ∀ dd dd', D dd → env.fetchPack dd snapshot.pack = .ok dd' → D dd') :
    Effect.Triple (fun s : Session World Fault => (s.state.tree = before ∧ s.state.touched = []) ∧
        D s.state.disk.dataDir)
      (preflight env repo snapshot opts plan)
      (fun _ s => Lessened before s.state.tree ∧ D s.state.disk.dataDir)
      fun s => D s.state.disk.dataDir := by
  have hsteady : Steady fun world => D world.disk.dataDir := fun _ _ _ hworld => hworld
  apply Effect.Triple.bind (R := fun _ s => (Checked env repo before plan s.state ∧
    s.state.tree = before) ∧ D s.state.disk.dataDir)
  · have hdisk : KeepsWorld (fun world => D world.disk.dataDir)
        (preflightDestinationAncestors repo plan.removed
          (plan.newEntries.map FileEntry.path ++ plan.removed)) := keeps_checkAncestors _
    exact ((ancestors_checked root).and hdisk).mono_error fun _ hs => hs.2
  · intro _
    apply Effect.Triple.bind (R := fun _ s => Lessened before s.state.tree ∧
      D s.state.disk.dataDir)
    · apply ((probe_traceless (new_rooted root) fresh (mayProbe root) _).and
        (hsteady.keeps_probe _)).weaken
      · rintro s ⟨⟨hchecked, htree⟩, hD⟩
        refine ⟨⟨hchecked, ?_⟩, hD⟩
        rw [htree]
        exact Lessened.refl before
      · exact fun _ _ hs => ⟨hs.1.2, hs.2⟩
      · exact fun _ hs => hs.2
    · intro _
      have hunforced : KeepsWorld (fun world => Lessened before world.tree ∧
          D world.disk.dataDir) (preflightUnforced env repo opts plan) := keeps_unforced
      apply Effect.Triple.bind
      · apply (keeps_symlinkTargets (P := fun world => Lessened before world.tree ∧
          D world.disk.dataDir) (fun hs => hs.2) _).mono_error fun _ hs => hs.2
        exact fun packed => keeps_fetch (fetched packed)
      · exact fun _ => hunforced.mono_error fun _ hs => hs.2

end Checks

section Mutation

variable {env : Env} {repo : Repository} {before : FileTree} {plan : Plan}
  {snapshot : SnapshotId} {opts : ExtractOptions} {content : ObjectChecksum → List UInt8}
  {D : DataDir → Prop}

/-- A node that was there before, at no path that is removed. -/
def Kept (repo : Repository) (plan : Plan) (start : FileTree) (p : Place) (node : FileNode) : Prop :=
  start.lookup p = some node ∧ ∀ r ∈ plan.doomed, p ≠ repo.path.below r

/-- What an extraction that succeeds has made of a tree. -/
structure Extracted (repo : Repository) (content : ObjectChecksum → List UInt8) (plan : Plan)
    (start t : FileTree) : Prop where
  delivered : AllMaterialized content repo plan.newEntries t
  within : Within repo plan.outputs (Kept repo plan start) t

theorem mem_doomed {r : List Name} : r ∈ plan.doomed ↔ ∃ path, native path = r ∧
    path ∉ plan.newEntries.map FileEntry.path ∧ path ∈ plan.oldEntries.map FileEntry.path := by
  unfold Plan.doomed Plan.removed removedPaths pathsOf
  simp only [List.mem_map, List.mem_insertionSort, List.mem_filter, List.mem_dedup,
    decide_eq_true_eq]
  constructor
  · rintro ⟨path, ⟨hold, hnew⟩, rfl⟩
    exact ⟨path, rfl, hnew, hold⟩
  · rintro ⟨path, rfl, hnew, hold⟩
    exact ⟨path, ⟨hold, hnew⟩, rfl⟩

theorem doomed_ne_output {r q : List Name} (hr : r ∈ plan.doomed) (hq : q ∈ plan.outputs) :
    r ≠ q := by
  rintro rfl
  obtain ⟨path, rfl, hnew, -⟩ := mem_doomed.mp hr
  obtain ⟨entry, hentry, heq⟩ := mem_outputs.mp hq
  exact hnew (List.mem_map.mpr ⟨entry, hentry, PackPath.components_injective heq⟩)

theorem mutate_extracts (root : before.lookup repo.path = some .dir)
    (fresh : FreshNames env plan.ways)
    (policy : ∀ q ∈ plan.outputs, ∀ path ∈ plan.outputs, q <+: path → q = path)
    (distinct : plan.newEntries.Pairwise fun e d => native e.path ≠ native d.path)
    (headless : Headless D) (served : Served env content D snapshot.pack plan.newEntries)
    (start : FileTree) :
    Effect.Triple
      (fun s : Session World Fault => Checked env repo before plan s.state ∧
        Lessened start s.state.tree ∧ D s.state.disk.dataDir)
      (mutate env repo snapshot opts plan)
      (fun _ s => Extracted repo content plan start s.state.tree ∧ D s.state.disk.dataDir ∧
        HeadSet repo snapshot s.state.disk.dataDir)
      fun s => D s.state.disk.dataDir := by
  have rooted : Rooted repo before (Allowed env repo before plan) := allowed_rooted root
  have out := plan_outputs root fresh policy
  have delivered : Delivered repo plan.outputs
      (Within repo plan.outputs (Kept repo plan start)) plan.newEntries := by
    refine ⟨fun e he => List.mem_map_of_mem he, distinct, fun e he => ?_⟩
    have hq : native e.path ∈ plan.outputs := List.mem_map_of_mem he
    exact Spared.within hq (native_ne_nil e.path) _
  apply Effect.Triple.bind (R := fun _ s => Sparing repo before (Allowed env repo before plan)
    plan.outputs (fun ns => ∃ r ∈ plan.doomed, Present repo before r ns)
    (Within repo plan.outputs (Kept repo plan start)) D s.state)
  · have hstays : Shrinks fun world => Lessened start world.tree ∧ D world.disk.dataDir :=
      fun _ _ _ _ herases hworld => ⟨herases.lessened hworld.1, hworld.2⟩
    have hordered := removedPaths_ordered plan.newEntries plan.oldEntries
    apply Effect.Triple.mapError
    apply (((removePaths_safe rooted plan_doomed plan.doomed (List.Subset.refl _) hordered
      noneQueued fun _ => False).and (removePaths_gone rooted plan_doomed plan.doomed
        (List.Subset.refl _) hordered noneQueued fun _ => False)).and
      (shrinks_removePaths hstays none plan.doomed)).weaken
    · exact fun s hs => ⟨⟨hs.1.mono fun _ => .inl, hs.1.mono fun _ => .inl⟩, hs.2⟩
    · rintro _ s ⟨⟨hsafe, hgone⟩, hless, hD⟩
      have hclear := hsafe.subset (List.subset_append_left plan.outputs plan.doomed)
      refine ⟨Clear.note hclear fun ns hns => .inr hns, fun p node hnode => .inl ?_, hD⟩
      refine ⟨hless p node hnode, fun r hr heq => ?_⟩
      have hnone : s.state.tree.lookup (repo.path.below r) = none := hgone r hr
      rw [← heq, hnode] at hnone
      cases hnone
    · exact fun _ hs => hs.2.2
  · intro _
    apply Effect.Triple.bind (R := fun _ s => Extracted repo content plan start s.state.tree ∧
      D s.state.disk.dataDir)
    · apply (extractEntries_holds rooted out delivered served).weaken (fun _ hs => hs) _
        fun _ hs => hs.2
      exact fun _ s hs => ⟨⟨hs.2.1.2, hs.2.1.1⟩, hs.2.2⟩
    · exact fun _ => updateHead_sets headless

/-- A plan whose outputs are told apart. -/
structure Plan.Sorted (plan : Plan) : Prop where
  separate : ∀ q ∈ plan.outputs, ∀ path ∈ plan.outputs, q <+: path → q = path
  distinct : plan.newEntries.Pairwise fun e d => native e.path ≠ native d.path

theorem collectByKey_sublist (entries : List FileEntry) :
    (collectByKey entries).Sublist entries := by
  induction entries with
  | nil => exact List.Sublist.slnil
  | cons entry entries ih =>
    rw [collectByKey]
    split
    · exact ih.cons _
    · exact ih.cons_cons _

theorem preflightPathPolicy_nodup {paths : List PackPath} (h : preflightPathPolicy paths = .ok ()) :
    paths.Nodup := by
  unfold preflightPathPolicy at h
  split at h
  · cases h
  · rename_i hnone
    exact (firstRepeated_eq_none.mp hnone).2

theorem pairwise_native {entries : List FileEntry} (h : (entries.map FileEntry.path).Nodup) :
    entries.Pairwise fun e d => native e.path ≠ native d.path := by
  have hpaths : entries.Pairwise fun e d => e.path ≠ d.path := List.pairwise_map.mp h
  exact hpaths.imp fun hne heq => hne (PackPath.components_injective heq)

theorem planEntries_nodup {head : Option SnapshotId} {headEntries entries : List FileEntry}
    (h : (entries.map FileEntry.path).Nodup) :
    ((planEntries env opts head headEntries entries).1.map FileEntry.path).Nodup := by
  unfold planEntries
  split
  · exact h
  · have hsub := (collectByKey_sublist entries).map FileEntry.path
    have hperm := (env.entryOrd.perm (collectByKey entries)).map FileEntry.path
    have hvisit := hperm.nodup_iff.mpr (h.sublist hsub)
    exact hvisit.sublist (List.filter_sublist.map _)

theorem plan_sorted {dataDir : DataDir}
    (h : Checkout.plan env snapshot opts dataDir = .ok plan) : plan.Sorted := by
  obtain ⟨entries, planned⟩ := plan_planned h
  refine ⟨planned.separate, ?_⟩
  obtain ⟨⟨head, time⟩, hhead, h⟩ := Exec.bind_eq_ok.mp h
  simp only at h
  split at h
  · cases h
  · obtain ⟨sourceIndex, hsource, h⟩ := Exec.bind_eq_ok.mp h
    obtain ⟨entries, -, h⟩ := Exec.bind_eq_ok.mp h
    obtain ⟨u, hpolicy, h⟩ := Exec.bind_eq_ok.mp h
    obtain ⟨headEntries, hheads, h⟩ := Exec.bind_eq_ok.mp h
    cases h
    exact pairwise_native (planEntries_nodup (preflightPathPolicy_nodup (mapError_ok hpolicy)))

/-- An extraction that succeeds has written and removed what it had planned to, and nothing
else. -/
theorem extractSnapshot_extracts {s : Session World Fault} (start : Start env repo snapshot opts s)
    (hD : D s.state.disk.dataDir) (headless : Headless D)
    (served : ∀ plan, Checkout.plan env snapshot opts s.state.disk.dataDir = .ok plan →
      Served env content D snapshot.pack plan.newEntries) : Effect.Triple
      (fun t : Session World Fault => t.state = s.state)
      (extractSnapshot env repo snapshot opts)
      (fun _ t => ∃ plan, Checkout.plan env snapshot opts s.state.disk.dataDir = .ok plan ∧
        Extracted repo content plan s.state.tree t.state.tree ∧ D t.state.disk.dataDir ∧
        HeadSet repo snapshot t.state.disk.dataDir)
      fun t => D t.state.disk.dataDir := by
  have hsame {t : Session World Fault} (ht : t.state = s.state) : D t.state.disk.dataDir :=
    ht ▸ hD
  have hlook : KeepsWorld (fun world => world = s.state) (inspect fun _ => .ok ()) :=
    keeps_inspect _
  apply Effect.Triple.bind_keeps hlook.mapError fun _ => hsame
  intro _
  have hasks : Effect.Triple (fun t : Session World Fault => t.state = s.state)
      (Effect.asks fun t => Checkout.plan env snapshot opts t.state.disk.dataDir) _ _ :=
    Effect.Triple.asks_known fun t ht => by rw [ht]
  apply Effect.Triple.bind_fact (hasks.mono_error fun _ => hsame)
  intro plan hplan
  have sorted := plan_sorted hplan
  have fresh := start.fresh plan hplan
  apply Effect.Triple.bind (R := fun _ t => Checked env repo s.state.tree plan t.state ∧
    Lessened s.state.tree t.state.tree ∧ D t.state.disk.dataDir)
  · apply ((preflight_checked start.root fresh).and (preflight_traceless start.root fresh
      (served plan hplan).fetched)).weaken
    · exact fun t ht => ⟨by rw [ht]; exact ⟨rfl, start.untouched⟩,
        by rw [ht]; exact ⟨rfl, start.untouched⟩, hsame ht⟩
    · exact fun _ _ ht => ⟨ht.1.1, ht.2⟩
    · exact fun _ ht => ht.2
  · intro _
    apply Effect.Triple.bind
    · exact mutate_extracts start.root fresh sorted.separate sorted.distinct headless
        (served plan hplan) _
    · exact fun _ => .pure fun t ht => ⟨plan, hplan, ht⟩

end Mutation

end Elfshaker.Checkout
