import Elfshaker.Checkout.Writes

namespace Elfshaker.Checkout

open Elfshaker.Library Elfshaker.Format Elfshaker.Store Elfshaker.Packs

section Probe

variable {env : Env} {repo : Repository} {before : FileTree} {Ok noted : List Name → Prop}
  {paths pending : List (List Name)}

/-- Names that begin with a drawn name may be touched where nothing was. -/
def MayProbe (env : Env) (repo : Repository) (before : FileTree) (Ok : List Name → Prop) : Prop :=
  ∀ tree ns, [env.randomName tree] <+: ns → before.lookup (repo.path.below ns) = none → Ok ns

theorem leadsTo_top (rooted : Rooted repo before Ok) {name : Name} :
    LeadsTo repo (Safe repo before Ok paths pending noted) false [name] := by
  apply Safe.leadsTo rooted
  intro ns hns hne hnil
  rcases List.prefix_cons_iff.mp hns with rfl | ⟨more, rfl, hmore⟩
  · exact absurd rfl hnil
  · rw [List.prefix_nil.mp hmore] at hne
    exact absurd rfl hne

/-- A directory with a new name may be touched with all there will be in it. -/
theorem probeDirectory_ok (fresh : FreshNames env paths) (may : MayProbe env repo before Ok) :
    Effect.Triple (fun s : Session World Fault => Safe repo before Ok paths pending noted s.state)
      (createTempPath env [])
      (fun directory s => Safe repo before Ok paths pending noted s.state ∧
        ∃ tree, directory = [env.randomName tree] ∧
          ∀ ns, [env.randomName tree] <+: ns → Ok ns)
      fun s => Safe repo before Ok paths pending noted s.state := by
  apply Effect.Triple.of_run
  intro s hs
  refine ⟨hs, s.state.tree, rfl, fun ns hns => hs.toGuarded.ok_of_same fun hsame => ?_⟩
  apply may _ _ hns
  rw [← hsame]
  by_contra hpresent
  apply fresh.unused s.state.tree _ (Option.isSome_iff_ne_none.mpr hpresent)
  rw [Place.below]
  apply List.mem_append_left
  rw [List.mem_reverse]
  exact hns.subset (List.mem_singleton.mpr rfl)

/-- What is in a directory is reached through it. -/
theorem leadsTo_inside (rooted : Rooted repo before Ok) {name link : Name} {world : World}
    (hworld : Safe repo before Ok paths pending noted world)
    (hdirectory : ∀ node, world.tree.lookup (repo.path.below [name]) = some node →
      node.isLink = false) {place : Place}
    (hresolve : world.tree.resolve false repo.path [name, link] = .ok place) :
    place = repo.path.below [name, link] := by
  have hroot := hworld.toGuarded.root rooted
  have hplain : world.tree.Plain repo.path (repo.path.below [name, link]) := by
    intro d hbase hd hne node hnode
    obtain ⟨ns, hns, rfl⟩ := Place.exists_below hbase hd
    rcases List.prefix_cons_iff.mp hns with rfl | ⟨more, rfl, hmore⟩
    · rw [Place.below_nil, hroot] at hnode
      rw [← Option.some.inj hnode]
      rfl
    · rcases List.prefix_cons_iff.mp hmore with rfl | ⟨last, rfl, hlast⟩
      · exact hdirectory node hnode
      · rw [List.prefix_nil.mp hlast] at hne
        exact absurd rfl hne
  exact FileTree.resolve_plain hroot hplain FileTree.endsPlain_false hresolve

/-- A link in a directory with a new name is on no way. -/
theorem keeps_probeLink (rooted : Rooted repo before Ok) (fresh : FreshNames env paths)
    {tree : FileTree} (hok : ∀ ns, [env.randomName tree] <+: ns → Ok ns) {target : List UInt8}
    {link : Name} :
    KeepsWorld (fun world => Safe repo before Ok paths pending noted world ∧
        ∀ node, world.tree.lookup (repo.path.below [env.randomName tree]) = some node →
          node.isLink = false)
      (createNative repo target [env.randomName tree, link]) := by
  have hdistinct : repo.path.below [env.randomName tree] ≠
      repo.path.below [env.randomName tree, link] := by
    intro heq
    have hnames := Place.below_injective heq
    cases hnames
  apply keeps_change
  rintro world place tree' ⟨hworld, hdirectory⟩ hresolve hop
  rw [leadsTo_inside rooted hworld hdirectory hresolve] at hop ⊢
  have hothers := add_others (makeLink_adds hop)
  refine ⟨⟨?_, ?_⟩, ?_⟩
  · apply hworld.toGuarded.updated
    · intro others p hp
      rw [List.mem_singleton, Touch.workTree.injEq] at hp
      obtain ⟨rfl, rfl⟩ := hp
      exact ⟨rfl, hok _ ⟨[link], rfl⟩⟩
    · simp
    · intro p hp
      apply hothers
      intro heq
      exact hp _ (by rw [heq, List.mem_singleton])
  · apply hworld.links.of_changes
    intro path hpath ns hns hne node hnode _
    rw [← hothers _ _]
    · exact hnode
    · intro heq
      apply fresh.apart tree path hpath
      apply hns.subset
      rw [Place.below_injective heq]
      exact List.mem_cons_self
  · intro node hnode
    rw [World.updated_tree, hothers _ hdistinct] at hnode
    exact hdirectory node hnode

theorem keeps_probeKind (rooted : Rooted repo before Ok) (fresh : FreshNames env paths)
    {tree : FileTree} (hok : ∀ ns, [env.randomName tree] <+: ns → Ok ns) :
    Effect.Triple
      (fun s : Session World Fault => Safe repo before Ok paths pending noted s.state ∧
        ∀ node, s.state.tree.lookup (repo.path.below [env.randomName tree]) = some node →
          node.isLink = false)
      (probeKind repo [env.randomName tree])
      (fun _ s => Safe repo before Ok paths pending noted s.state)
      fun s => Safe repo before Ok paths pending noted s.state := by
  apply Effect.Triple.bind
  · apply Effect.Triple.weaken (Effect.Keeps.attempt (keeps_probeLink rooted fresh hok))
    · exact fun _ hs => hs
    · exact fun _ _ hs => hs
    · exact fun _ hs => hs.1
  · intro result
    apply Effect.Triple.bind
    · apply Effect.Triple.mapError
      apply Effect.Triple.weaken (keeps_removeDirAll
        (P := Safe repo before Ok paths pending noted) (leadsTo_top rooted)
        fun ns hns => Safe.keptAt fun _ => hok ns hns)
      · exact fun _ hs => hs.1
      · exact fun _ _ hs => hs
      · exact fun _ hs => hs
    · exact fun _ => Effect.Keeps.lift _

/-- A directory that was just made is not a link. -/
theorem createDir_noLink (rooted : Rooted repo before Ok) {name : Name} (hok : Ok [name]) :
    Effect.Triple (fun s : Session World Fault => Safe repo before Ok paths pending noted s.state)
      (createDir repo [name])
      (fun _ s => Safe repo before Ok paths pending noted s.state ∧
        ∀ node, s.state.tree.lookup (repo.path.below [name]) = some node → node.isLink = false)
      fun s => Safe repo before Ok paths pending noted s.state := by
  have hkeeps : KeepsWorld (Safe repo before Ok paths pending noted) (createDir repo [name]) :=
    Safe.keeps_createDir (leadsTo_top rooted) fun _ => hok
  apply Effect.Triple.intro
  · intro s s' u hs hrun
    refine ⟨hkeeps.ok hs hrun, fun node hnode => ?_⟩
    obtain ⟨place, tree, hplace, htree, hstate⟩ := change_ok hrun
    rw [leadsTo_top rooted s.state place hs hplace] at htree
    rw [hstate] at hnode
    exact (add_places rfl htree).noLink node hnode
  · intro s s' e hs hrun
    exact hkeeps.error hs hrun

theorem keeps_probeKinds (rooted : Rooted repo before Ok) (fresh : FreshNames env paths)
    (may : MayProbe env repo before Ok) (kinds : List SymlinkTargetKind) :
    KeepsWorld (Safe repo before Ok paths pending noted) (probeKinds env repo kinds) := by
  induction kinds with
  | nil => exact .pure _
  | cons kind kinds ih =>
    apply Effect.Triple.bind_fact (probeDirectory_ok fresh may).mapError
    rintro directory ⟨tree, rfl, hok⟩
    apply Effect.Triple.bind (createDir_noLink rooted (hok _ List.prefix_rfl)).mapError
    intro _
    apply Effect.Triple.bind (keeps_probeKind rooted fresh hok)
    exact fun _ => ih

theorem keeps_probe (rooted : Rooted repo before Ok) (fresh : FreshNames env paths)
    (may : MayProbe env repo before Ok) (entries : List FileEntry) :
    KeepsWorld (Safe repo before Ok paths pending noted) (probe env repo entries) := by
  unfold probe
  simp only
  split
  · exact .pure _
  · apply Effect.Keeps.bind
    · apply Effect.Keeps.mapError
      apply keeps_createDirAll
      intro ns hns
      rw [List.prefix_nil.mp hns]
      apply Safe.keeps_createDir
      · apply Safe.leadsTo rooted
        intro m hm _ hnil
        exact absurd (List.prefix_nil.mp hm) hnil
      · intro hnone
        rw [Place.below_nil, rooted.dir] at hnone
        cases hnone
    · exact fun _ => keeps_probeKinds rooted fresh may _

end Probe

section Targets

variable {env : Env} {P : World → Prop}

theorem keeps_readTargets (entries : List FileEntry) : KeepsWorld P (readTargets entries) := by
  induction entries with
  | nil => exact .pure _
  | cons entry entries ih =>
    apply Effect.Keeps.bind (.mapError (keeps_inspectData _))
    exact fun _ => .bind ih fun _ => .pure _

theorem keeps_preflightSymlinkTargets (hP : DiskFree P) {pack : PackId}
    {entries : List FileEntry} : KeepsWorld P (preflightSymlinkTargets env pack entries) := by
  unfold preflightSymlinkTargets
  simp only
  split
  · exact .pure _
  · apply Effect.Keeps.bind
    · apply Effect.Keeps.bind (.asks _)
      intro loose
      cases loose with
      | true => exact keeps_readTargets _
      | false =>
        apply Effect.Triple.bind_fact (obtainPack_known hP)
        exact fun _ _ => keeps_reading
    · exact fun _ => .lift _

end Targets

end Elfshaker.Checkout
