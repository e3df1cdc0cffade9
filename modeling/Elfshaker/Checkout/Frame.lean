import Elfshaker.Checkout.Checks
import Elfshaker.Checkout.Probe
import Elfshaker.Checkout.Removals

namespace Elfshaker.Checkout

open Elfshaker.Library Elfshaker.Format Elfshaker.Store Elfshaker.Packs

/-- The paths that an extraction writes and removes. -/
def Plan.outputs (plan : Plan) : List (List Name) :=
  plan.newEntries.map fun entry => native entry.path

def Plan.doomed (plan : Plan) : List (List Name) := plan.removed.map native

def Plan.ways (plan : Plan) : List (List Name) := plan.outputs ++ plan.doomed

section Licence

variable (env : Env) (repo : Repository) (before : FileTree) (plan : Plan)

/-- Names under which something new may come to be. -/
inductive Created : List Name → Prop
  | above {q ns : List Name} : q ∈ plan.outputs → ns <+: q → Created ns
  | beside {q : List Name} (tree : FileTree) : q ∈ plan.outputs →
      Created (q.dropLast ++ [env.randomName tree])
  | probed (tree : FileTree) {ns : List Name} : [env.randomName tree] <+: ns → Created ns

/-- Names under which what was there may be changed. -/
inductive Licensed : List Name → Prop
  | removed {r : List Name} : r ∈ plan.doomed → Licensed r
  | emptied {r ns : List Name} : r ∈ plan.doomed → r <+: ns →
      before.lookup (repo.path.below r) = some .dir → Licensed ns
  | cleaned {r ns : List Name} : r ∈ plan.doomed → ns <+: r →
      before.lookup (repo.path.below ns) = some .dir → Licensed ns
  | output {q : List Name} : q ∈ plan.outputs → Licensed q

/-- Where nothing was, the names of new things may be touched. -/
def New (ns : List Name) : Prop :=
  ns ≠ [] ∧ before.lookup (repo.path.below ns) = none ∧ Created env plan ns

def Allowed (ns : List Name) : Prop :=
  New env repo before plan ns ∨ ns ≠ [] ∧ Licensed repo before plan ns

end Licence

variable {env : Env} {repo : Repository} {before : FileTree} {plan : Plan}

theorem native_ne_nil (path : PackPath) : native path ≠ [] := path.components_ne_nil

theorem mem_outputs {q : List Name} :
    q ∈ plan.outputs ↔ ∃ entry ∈ plan.newEntries, native entry.path = q := List.mem_map

theorem ne_nil_of_outputs {q : List Name} (hq : q ∈ plan.outputs) : q ≠ [] := by
  obtain ⟨entry, -, rfl⟩ := mem_outputs.mp hq
  exact native_ne_nil _

theorem ne_nil_of_doomed {r : List Name} (hr : r ∈ plan.doomed) : r ≠ [] := by
  obtain ⟨path, -, rfl⟩ := List.mem_map.mp hr
  exact native_ne_nil _

/-- What may be touched where nothing was. -/
theorem new_of_created (root : before.lookup repo.path = some .dir) {ns : List Name}
    (hnone : before.lookup (repo.path.below ns) = none) (hcreated : Created env plan ns) :
    New env repo before plan ns := by
  refine ⟨?_, hnone, hcreated⟩
  rintro rfl
  rw [Place.below_nil, root] at hnone
  cases hnone

theorem new_rooted (root : before.lookup repo.path = some .dir) :
    Rooted repo before (New env repo before plan) where
  dir := root
  untouched := fun h => h.1 rfl

theorem allowed_rooted (root : before.lookup repo.path = some .dir) :
    Rooted repo before (Allowed env repo before plan) where
  dir := root
  untouched := by
    rintro (h | h)
    · exact h.1 rfl
    · exact h.1 rfl

theorem mayProbe (root : before.lookup repo.path = some .dir) :
    MayProbe env repo before (New env repo before plan) :=
  fun tree _ hns hnone => new_of_created root hnone (.probed tree hns)

/-- The outputs of a plan whose target passes the path policy. -/
theorem plan_outputs (root : before.lookup repo.path = some .dir)
    (fresh : FreshNames env plan.ways)
    (policy : ∀ q ∈ plan.outputs, ∀ path ∈ plan.outputs, q <+: path → q = path) :
    Outputs env repo before (Allowed env repo before plan) plan.outputs where
  fresh := ⟨fresh.unused, fun tree path hpath => fresh.apart tree path (List.mem_append_left _ hpath)⟩
  named := fun _ => ne_nil_of_outputs
  separate := policy
  ok := fun _ hq => .inr ⟨ne_nil_of_outputs hq, .output hq⟩
  above := fun _ hq _ hns hnone => .inl (new_of_created root hnone (.above hq hns))
  beside := fun _ hq tree hnone => .inl (new_of_created root hnone (.beside tree hq))

/-- The removed paths of a plan, each before what lies below it. -/
theorem plan_doomed :
    Doomed repo before (Allowed env repo before plan) plan.ways plan.doomed where
  among := fun _ hr => List.mem_append_right _ hr
  ordered := removedPaths_ordered _ _
  below := by
    intro r hr ns hns hpresent
    right
    refine ⟨?_, ?_⟩
    · rintro rfl
      exact ne_nil_of_doomed hr (List.prefix_nil.mp hns)
    · by_cases heq : r = ns
      · rw [← heq]
        exact .removed hr
      · exact .emptied hr hns (before.around_dir hpresent (Place.below_suffix_iff.mpr hns)
          fun h => heq (Place.below_injective h))
  above := fun _ hr _ hns hne hdir => .inr ⟨hne, .cleaned hr hns hdir⟩

theorem guarded_start {world : World} {Ok : List Name → Prop} (htree : world.tree = before)
    (htouched : world.touched = []) : Guarded repo before Ok (fun _ => False) world where
  recorded := by
    intro p hp
    rw [htree] at hp
    exact absurd rfl hp
  direct := by
    intro names p hp
    rw [htouched] at hp
    cases hp
  seen := fun _ h => h.elim
  own := by
    intro names hnames
    rw [htouched] at hnames
    cases hnames

/-- What is there before is there after what only makes new things. -/
theorem Guarded.present {noted : List Name → Prop} {world : World}
    (h : Guarded repo before (New env repo before plan) noted world) {p : Place} {node : FileNode}
    (hnode : before.lookup p = some node) : world.tree.lookup p = some node := by
  rw [h.unchanged, hnode]
  rintro names rfl hnew
  rw [hnew.2.1] at hnode
  cases hnode

section Phases

variable {snapshot : SnapshotId} {opts : ExtractOptions}

/-- The state that the checks leave: nothing is changed that was there, and all links on
the way to the paths are among those to be removed. -/
def Checked (env : Env) (repo : Repository) (before : FileTree) (plan : Plan) (world : World) :
    Prop :=
  Safe repo before (New env repo before plan) plan.ways plan.doomed (fun _ => False) world

theorem checked_diskFree : DiskFree (Checked env repo before plan) :=
  fun _ disk _ hfiles hworld => hworld.onDisk disk hfiles

theorem Unchanged.earlier {t : FileTree} (h : Unchanged repo plan t)
    (hpresent : ∀ p node, before.lookup p = some node → t.lookup p = some node) :
    Unchanged repo plan before where
  noDirs := fun entry hentry hdir => h.noDirs entry hentry (hpresent _ _ hdir)
  untangled := by
    intro entry hentry
    apply (h.untangled entry hentry).imp_right
    exact fun howned ns hns node hnode => howned ns hns node (hpresent _ _ hnode)

theorem preflightUnforced_checked :
    Effect.Triple (fun s : Session World Fault => Checked env repo before plan s.state)
      (preflightUnforced env repo opts plan)
      (fun _ s => Checked env repo before plan s.state ∧
        (opts.force = false → Unchanged repo plan before))
      fun s => Checked env repo before plan s.state := by
  apply Effect.Triple.of_run
  intro s hs
  have htriple : Effect.Triple _ (preflightUnforced env repo opts plan) _ _ :=
    preflightUnforced_unchanged (P := fun world => Checked env repo before plan world ∧
      world.tree = s.state.tree) fun _ h => h.2
  have hhere := htriple.run ⟨hs, rfl⟩
  cases hrun : preflightUnforced env repo opts plan s with
  | mk result t =>
    rw [hrun] at hhere
    cases result with
    | ok u => exact ⟨hhere.1.1, fun hforce =>
        (hhere.2 hforce).earlier fun p node => hs.toGuarded.present⟩
    | error e => exact hhere.1

/-- The first check finds all links on the way to the paths among those to be removed. -/
theorem ancestors_checked (root : before.lookup repo.path = some .dir) :
    Effect.Triple (fun s : Session World Fault => s.state.tree = before ∧ s.state.touched = [])
      (preflightDestinationAncestors repo plan.removed
        (plan.newEntries.map FileEntry.path ++ plan.removed))
      (fun _ s => Checked env repo before plan s.state ∧ s.state.tree = before)
      fun s => s.state.tree = before ∧ s.state.touched = [] := by
  have hlinks : Effect.Triple _ (preflightDestinationAncestors repo plan.removed
      (plan.newEntries.map FileEntry.path ++ plan.removed)) _ _ :=
    preflightDestinationAncestors_links (P := fun world => world.tree = before ∧
      world.touched = []) (fun _ h => h.1) root _
  apply hlinks.weaken (fun _ hs => hs) _ fun _ hs => hs
  rintro _ s ⟨⟨htree, htouched⟩, hcovered⟩
  refine ⟨⟨guarded_start htree htouched, ?_⟩, htree⟩
  rw [htree]
  intro path hpath ns hns hne node hnode hlink
  have hmem : path ∈ (plan.newEntries.map FileEntry.path ++ plan.removed).map native := by
    rw [List.map_append, List.map_map]
    exact hpath
  obtain ⟨pack, hpack, rfl⟩ := List.mem_map.mp hmem
  exact hcovered pack hpack ns hns hne node hnode hlink

theorem preflight_checked (root : before.lookup repo.path = some .dir)
    (fresh : FreshNames env plan.ways) :
    Effect.Triple (fun s : Session World Fault => s.state.tree = before ∧ s.state.touched = [])
      (preflight env repo snapshot opts plan)
      (fun _ s => Checked env repo before plan s.state ∧
        (opts.force = false → Unchanged repo plan before))
      fun s => Guarded repo before (New env repo before plan) (fun _ => False) s.state := by
  apply Effect.Triple.bind (R := fun _ s => Checked env repo before plan s.state)
  · apply (ancestors_checked root).weaken (fun _ hs => hs) (fun _ _ hs => hs.1)
    exact fun _ hs => guarded_start hs.1 hs.2
  · intro _
    apply Effect.Triple.weaken (P := fun s => Checked env repo before plan s.state)
      (E := fun s => Checked env repo before plan s.state)
    · apply Effect.Triple.bind (keeps_probe (new_rooted root) fresh (mayProbe root) _)
      intro _
      apply Effect.Triple.bind (keeps_preflightSymlinkTargets checked_diskFree)
      exact fun _ => preflightUnforced_checked
    · exact fun _ hs => hs
    · exact fun _ _ hs => hs
    · exact fun _ hs => hs.toGuarded

theorem noneQueued {rs pending : List (List Name)} : Queued rs pending none := nofun

/-- What may have been touched after an extraction that succeeds. -/
def Reached (env : Env) (repo : Repository) (before : FileTree) (plan : Plan)
    (ns : List Name) : Prop :=
  (∃ r ∈ plan.doomed, Present repo before r ns) ∨ env.Paired ∧ ns ∈ plan.outputs

theorem mutate_allowed (root : before.lookup repo.path = some .dir)
    (fresh : FreshNames env plan.ways)
    (policy : ∀ q ∈ plan.outputs, ∀ path ∈ plan.outputs, q <+: path → q = path) :
    Effect.Triple (fun s : Session World Fault => Checked env repo before plan s.state)
      (mutate env repo snapshot opts plan)
      (fun _ s => Guarded repo before (Allowed env repo before plan) (Reached env repo before plan)
        s.state)
      fun s => Guarded repo before (Allowed env repo before plan) (fun _ => False) s.state := by
  have rooted : Rooted repo before (Allowed env repo before plan) := allowed_rooted root
  have out := plan_outputs root fresh policy
  apply Effect.Triple.bind (R := fun _ s => Clear repo before (Allowed env repo before plan)
    plan.outputs (fun ns => ∃ r ∈ plan.doomed, Present repo before r ns) s.state)
  · apply Effect.Triple.mapError
    apply (removePaths_safe rooted plan_doomed plan.doomed (List.Subset.refl _)
      (removedPaths_ordered _ _) noneQueued (fun _ => False)).weaken
    · exact fun s hs => hs.mono fun _ => .inl
    · intro _ s hs
      have hclear := hs.subset (List.subset_append_left plan.outputs plan.doomed)
      exact Clear.note hclear fun ns hns => .inr hns
    · exact fun _ hs => hs
  · intro _
    have hentries : ∀ entry ∈ plan.newEntries, native entry.path ∈ plan.outputs :=
      fun entry hentry => List.mem_map_of_mem hentry
    apply Effect.Triple.weaken (P := fun s => Clear repo before (Allowed env repo before plan)
      plan.outputs (fun ns => ∃ r ∈ plan.doomed, Present repo before r ns) s.state)
      (E := fun s => Clear repo before (Allowed env repo before plan)
        plan.outputs (fun ns => ∃ r ∈ plan.doomed, Present repo before r ns) s.state)
    · apply Touches.andThen (touches_extractEntries rooted out hentries)
      exact fun _ noted => keeps_updateHead clear_diskFree
    · exact fun _ hs => hs
    · intro _ s hs
      apply hs.toGuarded.note
      rintro ns (hns | ⟨hpaired, hns⟩)
      · exact hs.seen ns (.inl hns)
      · obtain ⟨entry, hentry, rfl⟩ := mem_outputs.mp hns
        exact hs.seen _ (.inr ⟨hpaired, entry, hentry, rfl⟩)
    · exact fun _ hs => hs.toGuarded.note fun _ h => h.elim

end Phases

section Planned

variable {snapshot : SnapshotId} {opts : ExtractOptions} {dataDir : DataDir}

/-- An entry of the snapshot that HEAD names. -/
def IsHeadEntry (env : Env) (dataDir : DataDir) (entry : FileEntry) : Prop :=
  ∃ head time index handles entries, readHead env dataDir = .ok (some head, time) ∧
    loadIndex env.crates dataDir head.pack = .ok index ∧
    index.resolveSnapshot (ε := Error) env.ord head.tag = .ok (some handles) ∧
    index.entriesFromHandles handles = .ok entries ∧ entry ∈ entries

theorem mapError_ok {ε δ α : Type} {f : ε → δ} {x : Exec ε α} {a : α}
    (h : x.mapError f = .ok a) : x = .ok a := Exec.mapError_eq_ok.mp h

theorem headEntriesOf_ok {pack : PackId} {sourceIndex : PackIndex} {head : SnapshotId}
    {time : Option Nat} {entries : List FileEntry}
    (hhead : readHead env dataDir = .ok (some head, time))
    (hsource : loadIndex env.crates dataDir pack = .ok sourceIndex)
    (h : headEntriesOf env dataDir pack sourceIndex head = .ok entries) :
    ∀ entry ∈ entries, IsHeadEntry env dataDir entry := by
  obtain ⟨index, hindex, h⟩ := Exec.bind_eq_ok.mp h
  obtain ⟨found, hfound, h⟩ := Exec.bind_eq_ok.mp h
  obtain ⟨handles, hhandles, h⟩ := Exec.bind_eq_ok.mp h
  have hload : loadIndex env.crates dataDir head.pack = .ok index := by
    unfold headIndex at hindex
    split at hindex
    · rename_i hsame
      rw [← hsame, hsource, Except.ok.inj hindex]
    · exact mapError_ok hindex
  rw [Exec.okOr_eq_ok.mp (mapError_ok hhandles)] at hfound
  intro entry hentry
  exact ⟨head, time, index, handles, entries, hhead, hload, hfound, mapError_ok h, hentry⟩

theorem collectByKey_subset (entries : List FileEntry) : collectByKey entries ⊆ entries := by
  induction entries with
  | nil => exact fun _ h => h
  | cons entry entries ih =>
    rw [collectByKey]
    split
    · exact fun e he => List.mem_cons_of_mem _ (ih he)
    · intro e he
      rcases List.mem_cons.mp he with rfl | he
      · exact List.mem_cons_self
      · exact List.mem_cons_of_mem _ (ih he)

theorem missingFrom_subset {entryOrd : IterOrder FileEntry} {entries others : List FileEntry} :
    missingFrom entryOrd entries others ⊆ entries := by
  intro entry hentry
  exact collectByKey_subset entries (entryOrd.mem_visit.mp (List.mem_of_mem_filter hentry))

theorem planEntries_subset {head : Option SnapshotId} {headEntries entries : List FileEntry} :
    (planEntries env opts head headEntries entries).1 ⊆ entries ∧
      (planEntries env opts head headEntries entries).2 ⊆ headEntries := by
  unfold planEntries
  split
  · exact ⟨fun _ h => h, List.nil_subset _⟩
  · exact ⟨missingFrom_subset, missingFrom_subset⟩

/-- What an extraction is to do, and where it has it from. -/
structure PlannedFrom (env : Env) (snapshot : SnapshotId) (opts : ExtractOptions)
    (dataDir : DataDir) (plan : Plan) (entries : List FileEntry) : Prop where
  policy : preflightPathPolicy (entries.map FileEntry.path) = .ok ()
  news : plan.newEntries ⊆ entries
  olds : plan.oldEntries ⊆ plan.headEntries
  heads : ∀ entry ∈ plan.headEntries, IsHeadEntry env dataDir entry

theorem plan_planned (h : Checkout.plan env snapshot opts dataDir = .ok plan) :
    ∃ entries, PlannedFrom env snapshot opts dataDir plan entries := by
  obtain ⟨⟨head, time⟩, hhead, h⟩ := Exec.bind_eq_ok.mp h
  simp only at h
  split at h
  · cases h
  · obtain ⟨sourceIndex, hsource, h⟩ := Exec.bind_eq_ok.mp h
    obtain ⟨entries, -, h⟩ := Exec.bind_eq_ok.mp h
    obtain ⟨u, hpolicy, h⟩ := Exec.bind_eq_ok.mp h
    obtain ⟨headEntries, hheads, h⟩ := Exec.bind_eq_ok.mp h
    cases h
    refine ⟨entries, mapError_ok hpolicy, planEntries_subset.1, planEntries_subset.2, ?_⟩
    unfold loadHeadEntries at hheads
    split at hheads
    · cases hheads
      exact fun entry hentry => absurd hentry List.not_mem_nil
    · cases head with
      | none =>
        cases hheads
        exact fun entry hentry => absurd hentry List.not_mem_nil
      | some head => exact headEntriesOf_ok hhead hsource hheads

theorem PlannedFrom.separate {entries : List FileEntry}
    (h : PlannedFrom env snapshot opts dataDir plan entries) :
    ∀ q ∈ plan.outputs, ∀ path ∈ plan.outputs, q <+: path → q = path := by
  intro q hq path hpath hstarts
  obtain ⟨left, hleft, rfl⟩ := mem_outputs.mp hq
  obtain ⟨right, hright, rfl⟩ := mem_outputs.mp hpath
  rw [preflightPathPolicy_apart h.policy (List.mem_map_of_mem (h.news hleft))
    (List.mem_map_of_mem (h.news hright)) hstarts]

end Planned

section Runs

variable (env : Env) (repo : Repository) (snapshot : SnapshotId) (opts : ExtractOptions)

/-- Where an extraction starts: the working directory is there, nothing was touched yet,
and the drawn names are new. -/
structure Start (s : Session World Fault) : Prop where
  root : s.state.tree.lookup repo.path = some .dir
  untouched : s.state.touched = []
  fresh : ∀ plan, Checkout.plan env snapshot opts s.state.disk.dataDir = .ok plan →
    FreshNames env plan.ways

/-- How an extraction may end. -/
inductive Ending (s s' : Session World Fault) (result : Exec Error ExtractResult) : Prop
  /-- Nothing was begun. -/
  | unplanned : (∀ r, result ≠ .ok r) →
      Guarded repo s.state.tree (fun _ => False) (fun _ => False) s'.state → Ending s s' result
  /-- The checks have failed. -/
  | refused (plan : Plan) : Checkout.plan env snapshot opts s.state.disk.dataDir = .ok plan →
      (∀ r, result ≠ .ok r) →
      Guarded repo s.state.tree (New env repo s.state.tree plan) (fun _ => False) s'.state →
      Ending s s' result
  /-- The checks have passed, and the rest failed or not. -/
  | mutated (plan : Plan) : Checkout.plan env snapshot opts s.state.disk.dataDir = .ok plan →
      (opts.force = false → Unchanged repo plan s.state.tree) →
      Guarded repo s.state.tree (Allowed env repo s.state.tree plan) (fun ns =>
        (∃ r, result = .ok r) ∧ Reached env repo s.state.tree plan ns) s'.state →
      Ending s s' result

theorem mutate_ending {plan : Plan} {s s₁ : Session World Fault}
    (start : Start env repo snapshot opts s)
    (hplan : Checkout.plan env snapshot opts s.state.disk.dataDir = .ok plan)
    (hchecked : Checked env repo s.state.tree plan s₁.state)
    (hunchanged : opts.force = false → Unchanged repo plan s.state.tree) :
    Ending env repo snapshot opts s
      ((mutate env repo snapshot opts plan >>= fun _ => pure plan.result) s₁).2
      ((mutate env repo snapshot opts plan >>= fun _ => pure plan.result) s₁).1 := by
  obtain ⟨entries, planned⟩ := plan_planned hplan
  have hmutate : Effect.Triple _ (mutate env repo snapshot opts plan) _ _ :=
    mutate_allowed start.root (start.fresh plan hplan) planned.separate
  have htriple := hmutate.run (s := s₁) hchecked
  cases hrun : mutate env repo snapshot opts plan s₁ with
  | mk result s₂ =>
    rw [hrun] at htriple
    cases result with
    | ok u =>
      rw [Effect.bind_of_ok hrun]
      exact .mutated plan hplan hunchanged (htriple.note fun ns hns => htriple.seen ns hns.2)
    | error e =>
      rw [Effect.bind_of_error hrun]
      refine .mutated plan hplan hunchanged (htriple.note fun ns hns => ?_)
      obtain ⟨r, hr⟩ := hns.1
      cases hr

/-- A world where nothing was touched yet. -/
def Untouched (s : Session World Fault) (world : World) : Prop :=
  world.tree = s.state.tree ∧ world.touched = [] ∧ world.disk = s.state.disk

theorem preflight_ending {plan : Plan} {s s₁ : Session World Fault}
    (start : Start env repo snapshot opts s)
    (hplan : Checkout.plan env snapshot opts s.state.disk.dataDir = .ok plan)
    (hs₁ : Untouched s s₁.state) :
    Ending env repo snapshot opts s
      ((preflight env repo snapshot opts plan >>= fun _ =>
        mutate env repo snapshot opts plan >>= fun _ => pure plan.result) s₁).2
      ((preflight env repo snapshot opts plan >>= fun _ =>
        mutate env repo snapshot opts plan >>= fun _ => pure plan.result) s₁).1 := by
  have hpreflight : Effect.Triple _ (preflight env repo snapshot opts plan) _ _ :=
    preflight_checked start.root (start.fresh plan hplan)
  have htriple := hpreflight.run (s := s₁) ⟨hs₁.1, hs₁.2.1⟩
  cases hrun : preflight env repo snapshot opts plan s₁ with
  | mk result s₂ =>
    rw [hrun] at htriple
    cases result with
    | ok u =>
      rw [Effect.bind_of_ok hrun]
      exact mutate_ending env repo snapshot opts start hplan htriple.1 htriple.2
    | error e =>
      rw [Effect.bind_of_error hrun]
      exact .refused plan hplan (fun r hr => by cases hr) htriple

theorem unplanned_ending {s s' : Session World Fault} {e : Failure Error}
    (hs' : Untouched s s'.state) : Ending env repo snapshot opts s s' (.error e) :=
  .unplanned (fun r hr => by cases hr) (guarded_start hs'.1 hs'.2.1)

/-- Every extraction ends in one of these ways, with whatever faults. -/
theorem extractSnapshot_ending {s : Session World Fault}
    (start : Start env repo snapshot opts s) :
    Ending env repo snapshot opts s (extractSnapshot env repo snapshot opts s).2
      (extractSnapshot env repo snapshot opts s).1 := by
  have hlook : KeepsWorld (Untouched s) (fs (inspect fun _ => .ok ())) :=
    Effect.Keeps.mapError (keeps_inspect _)
  unfold extractSnapshot
  cases hrun : fs (inspect fun _ => .ok ()) s with
  | mk result s₀ =>
    have hs₀ : Untouched s s₀.state := by
      have hstate := hlook.state ⟨rfl, start.untouched, rfl⟩
      rwa [hrun] at hstate
    cases result with
    | error e =>
      rw [Effect.bind_of_error hrun]
      exact unplanned_ending env repo snapshot opts hs₀
    | ok u =>
      rw [Effect.bind_of_ok hrun]
      have hasks : Effect.asks (fun s : Session World Fault =>
          Checkout.plan env snapshot opts s.state.disk.dataDir) s₀ =
          (Checkout.plan env snapshot opts s.state.disk.dataDir, s₀) := by
        rw [Effect.asks, hs₀.2.2]
      cases hplan : Checkout.plan env snapshot opts s.state.disk.dataDir with
      | error e =>
        rw [hplan] at hasks
        rw [Effect.bind_of_error hasks]
        exact unplanned_ending env repo snapshot opts hs₀
      | ok plan =>
        rw [hplan] at hasks
        rw [Effect.bind_of_ok hasks]
        exact preflight_ending env repo snapshot opts start hplan hs₀

end Runs

end Elfshaker.Checkout
