import Elfshaker.Checkout.Confined
import Elfshaker.Checkout.Switching
import Mathlib.Logic.Relation

namespace Elfshaker.Checkout

open Elfshaker.Library Elfshaker.Format Elfshaker.Store Elfshaker.Packs

/-- What is known of a working directory: it has what HEAD names and nothing else, it has that,
or an extraction has failed in it. -/
inductive Standing
  | exact (head : Option SnapshotId)
  | holding (head : SnapshotId)
  | unknown
  deriving DecidableEq

namespace Standing

/-- The HEAD that a standing is about. -/
def head : Standing → Option (Option SnapshotId)
  | exact head => some head
  | holding head => some (some head)
  | unknown => none

/-- What an extraction that succeeds makes of it. With `reset` nothing is removed. -/
def switched (snapshot : SnapshotId) : Bool → Standing → Standing
  | true, _ => holding snapshot
  | false, exact _ => exact (some snapshot)
  | false, holding _ => holding snapshot
  | false, unknown => unknown

variable {standing : Standing} {snapshot : SnapshotId} {reset : Bool}

theorem switched_head {id : Option SnapshotId}
    (h : (standing.switched snapshot reset).head = some id) : id = some snapshot := by
  cases reset with
  | true => exact (Option.some.inj h).symm
  | false =>
    cases standing with
    | exact head => exact (Option.some.inj h).symm
    | holding head => exact (Option.some.inj h).symm
    | unknown => cases h

theorem known_of_switched (h : standing.switched snapshot false ≠ unknown) :
    standing ≠ unknown := by
  rintro rfl
  exact h rfl

theorem exact_of_switched {id : Option SnapshotId}
    (h : standing.switched snapshot reset = exact id) :
    reset = false ∧ ∃ old, standing = exact old := by
  cases reset with
  | true => cases h
  | false =>
    cases standing with
    | exact head => exact ⟨rfl, head, rfl⟩
    | holding head => cases h
    | unknown => cases h

end Standing

section Runs

variable (env : Env) (repo : Repository) (Known : SnapshotId → Prop) (mine : List Name → Prop)

/-- The world in which a program begins to run. -/
def begun (world : World) (faults : List (Option Fault)) : Session World Fault :=
  ⟨{ world with touched := [] }, faults⟩

/-- An identifier that has been parsed. -/
structure Named (id : SnapshotId) : Prop where
  pack : id.pack.validate env.crates.unicode = .ok ()
  tag : SnapshotId.isValid env.crates.unicode id.tag = true

/-- An extraction of one of the known snapshots, which has none of the paths of a user. -/
structure Asked (world : World) (snapshot : SnapshotId) (opts : ExtractOptions) : Prop where
  known : Known snapshot
  named : Named env snapshot
  fresh : ∀ plan, Checkout.plan env snapshot opts world.disk.dataDir = .ok plan →
    FreshNames env plan.ways
  theirs : ∀ entries, SnapshotIs env world.disk.dataDir snapshot entries →
    ∀ e ∈ entries, ¬ mine (native e.path)

/-- What may happen to a working directory: a user changes what is at paths of their own, and
snapshots are extracted, with success or without. -/
inductive CheckoutStep : Standing × World → Standing × World → Prop
  | edited (standing : Standing) (world : World) (tree : FileTree) :
      tree.lookup repo.path = some .dir →
      (∀ ns, ¬ mine ns → tree.lookup (repo.path.below ns) = world.tree.lookup (repo.path.below ns)) →
      CheckoutStep (standing, world) (standing, { world with tree })
  | extracted (standing : Standing) (world : World) (snapshot : SnapshotId)
      (opts : ExtractOptions) (faults : List (Option Fault)) (r : ExtractResult)
      (s' : Session World Fault) :
      Asked env Known mine world snapshot opts →
      extractSnapshot env repo snapshot opts (begun world faults) = (.ok r, s') →
      CheckoutStep (standing, world) (standing.switched snapshot opts.reset, s'.state)
  | failed (standing : Standing) (world : World) (snapshot : SnapshotId)
      (opts : ExtractOptions) (faults : List (Option Fault)) (e : Failure Error)
      (s' : Session World Fault) :
      Asked env Known mine world snapshot opts →
      extractSnapshot env repo snapshot opts (begun world faults) = (.error e, s') →
      CheckoutStep (standing, world) (.unknown, s'.state)

/-- All that is there is at paths of a user, or a directory, or a file of the snapshot of
HEAD. -/
def OnlyTracked (world : World) : Prop :=
  ∀ ns node, ¬ mine ns → world.tree.lookup (repo.path.below ns) = some node → node ≠ .dir →
    ∃ old, Tracked env world.disk.dataDir old ∧ ∃ e ∈ old, native e.path = ns

/-- What a standing says of a world. -/
structure Stands (content : ObjectChecksum → List UInt8) (D : DataDir → Prop)
    (standing : Standing) (world : World) : Prop where
  root : world.tree.lookup repo.path = some .dir
  store : D world.disk.dataDir
  head : ∀ id, standing.head = some id → ∃ time, readHead env world.disk.dataDir = .ok (id, time)
  tracked : ∀ id, standing.head = some (some id) →
    Known id ∧ ∃ entries, SnapshotIs env world.disk.dataDir id entries
  clean : standing ≠ .unknown → ∀ old, Tracked env world.disk.dataDir old →
    Clean content repo old world.tree ∧ ∀ e ∈ old, ¬ mine (native e.path)
  only : ∀ id, standing = .exact id → OnlyTracked env repo mine world

end Runs

section Steps

variable {env : Env} {repo : Repository} {Known : SnapshotId → Prop} {mine : List Name → Prop} {D : DataDir → Prop}
  {content : ObjectChecksum → List UInt8} {standing : Standing} {world : World}
  {snapshot : SnapshotId} {opts : ExtractOptions} {faults : List (Option Fault)}

theorem Asked.start (asked : Asked env Known mine world snapshot opts)
    (root : world.tree.lookup repo.path = some .dir) :
    Start env repo snapshot opts (begun world faults) :=
  ⟨root, rfl, asked.fresh⟩

theorem Clean.edited {old : List FileEntry} {tree : FileTree}
    (clean : Clean content repo old world.tree) (theirs : ∀ e ∈ old, ¬ mine (native e.path))
    (same : ∀ ns, ¬ mine ns →
      tree.lookup (repo.path.below ns) = world.tree.lookup (repo.path.below ns)) :
    Clean content repo old tree := by
  refine ⟨clean.policy, fun e he => ?_⟩
  rw [Materialized, same _ (theirs e he)]
  exact clean.held e he

theorem Stands.edited (stands : Stands env repo Known mine content D standing world) {tree : FileTree}
    (root : tree.lookup repo.path = some .dir)
    (same : ∀ ns, ¬ mine ns →
      tree.lookup (repo.path.below ns) = world.tree.lookup (repo.path.below ns)) :
    Stands env repo Known mine content D standing { world with tree } where
  root := root
  store := stands.store
  head := stands.head
  tracked := stands.tracked
  clean := by
    intro hknown old htracked
    obtain ⟨clean, theirs⟩ := stands.clean hknown old htracked
    exact ⟨clean.edited theirs same, theirs⟩
  only := by
    intro id hexact ns node hns hnode hne
    rw [same ns hns] at hnode
    exact stands.only id hexact ns node hns hnode hne

/-- Where HEAD names a snapshot, only its entries are tracked. -/
theorem tracked_unique {dd : DataDir} {id : SnapshotId} {time : Option Nat}
    {entries old : List FileEntry} (hhead : readHead env dd = .ok (some id, time))
    (hid : SnapshotIs env dd id entries) (htracked : Tracked env dd old) : old = entries := by
  obtain ⟨id', time', hhead', hold⟩ := htracked
  rw [hhead] at hhead'
  cases hhead'
  exact hold.unique hid

theorem SnapshotIs.stable (store : ServedStore env content D Known) (known : Known snapshot)
    {dd dd' : DataDir} {entries : List FileEntry} (hD : D dd) (hD' : D dd')
    (h : SnapshotIs env dd snapshot entries) : SnapshotIs env dd' snapshot entries := by
  obtain ⟨index, hload, hentries⟩ := h
  exact ⟨index, by rw [← hload, store.stable dd dd' _ known hD hD'], hentries⟩

/-- However an extraction ends, the working directory is still there. -/
theorem extractSnapshot_root {s : Session World Fault} (start : Start env repo snapshot opts s) :
    (extractSnapshot env repo snapshot opts s).2.state.tree.lookup repo.path = some .dir := by
  cases extractSnapshot_ending env repo snapshot opts start with
  | unplanned _ hguarded => exact hguarded.root ⟨start.root, fun h => h⟩
  | refused plan _ _ hguarded => exact hguarded.root (new_rooted start.root)
  | mutated plan _ _ hguarded => exact hguarded.root (allowed_rooted start.root)

variable (store : ServedStore env content D Known)
include store

/-- An extraction that succeeds keeps the standing true. -/
theorem Stands.extracted (stands : Stands env repo Known mine content D standing world)
    (asked : Asked env Known mine world snapshot opts) {r : ExtractResult} {s' : Session World Fault}
    (writable : repo.readOnly = false)
    (h : extractSnapshot env repo snapshot opts (begun world faults) = (.ok r, s')) :
    Stands env repo Known mine content D (standing.switched snapshot opts.reset) s'.state := by
  have hstart : Start env repo snapshot opts (begun world faults) := asked.start stands.root
  obtain ⟨entries, target, switched, hD, hset⟩ :=
    extraction_switches store asked.known hstart stands.store h
  have hroot := extractSnapshot_root hstart
  rw [h] at hroot
  obtain ⟨time, hhead⟩ := hset writable
  have hread := readHead_display asked.named.pack asked.named.tag hhead
  have hnow := target.stable store asked.known stands.store hD
  have hunique {old : List FileEntry} (htracked : Tracked env s'.state.disk.dataDir old) :
      old = entries := tracked_unique hread hnow htracked
  refine ⟨hroot, hD, fun id hid => ?_, fun id hid => ?_, fun hknown old htracked => ?_,
    fun id hexact ns node hns hnode hne => ?_⟩
  · rw [Standing.switched_head hid]
    exact ⟨_, hread⟩
  · cases Standing.switched_head hid
    exact ⟨asked.known, entries, hnow⟩
  · obtain rfl := hunique htracked
    refine ⟨switched.clean fun hreset old hold => ?_, asked.theirs _ target⟩
    exact (stands.clean (Standing.known_of_switched (hreset ▸ hknown)) old hold).1
  · refine ⟨entries, ⟨_, _, hread, hnow⟩, ?_⟩
    obtain ⟨hreset, old, hold⟩ := Standing.exact_of_switched hexact
    by_contra hnot
    obtain ⟨hbefore, huntracked⟩ := switched.untracked ns node hnode hne
      fun e he heq => hnot ⟨e, he, heq⟩
    obtain ⟨others, htracked, d, hd, hpath⟩ := stands.only old hold ns node hns hbefore hne
    exact huntracked hreset others htracked d hd hpath

theorem Stands.failed (stands : Stands env repo Known mine content D standing world)
    (asked : Asked env Known mine world snapshot opts) {e : Failure Error} {s' : Session World Fault}
    (h : extractSnapshot env repo snapshot opts (begun world faults) = (.error e, s')) :
    Stands env repo Known mine content D .unknown s'.state := by
  have hstart : Start env repo snapshot opts (begun world faults) := asked.start stands.root
  have hroot := extractSnapshot_root hstart
  rw [h] at hroot
  have hD := (extractSnapshot_served store asked.known hstart stands.store).error rfl h
  exact ⟨hroot, hD, fun _ hid => absurd hid (Option.some_ne_none _).symm,
    fun _ hid => absurd hid (Option.some_ne_none _).symm, fun hknown => absurd rfl hknown,
    fun _ hexact => absurd hexact.symm (Standing.noConfusion)⟩

variable (writable : repo.readOnly = false)
include writable

theorem CheckoutStep.stands {now next : Standing × World}
    (step : CheckoutStep env repo Known mine now next)
    (stands : Stands env repo Known mine content D now.1 now.2) :
    Stands env repo Known mine content D next.1 next.2 := by
  cases step with
  | edited standing world tree root same => exact stands.edited root same
  | extracted standing world snapshot opts faults r s' asked h =>
    exact stands.extracted store asked writable h
  | failed standing world snapshot opts faults e s' asked h => exact stands.failed store asked h

end Steps

section Origin

variable {env : Env} {repo : Repository} {Known : SnapshotId → Prop} {mine : List Name → Prop}
  {D : DataDir → Prop} {content : ObjectChecksum → List UInt8}

/-- A working directory in which nothing was ever checked out: at paths that are not a user's
there are only directories. -/
structure Unborn (env : Env) (repo : Repository) (mine : List Name → Prop) (world : World) :
    Prop where
  root : world.tree.lookup repo.path = some .dir
  head : ∃ time, readHead env world.disk.dataDir = .ok (none, time)
  bare : ∀ ns node, ¬ mine ns → world.tree.lookup (repo.path.below ns) = some node → node = .dir

theorem Unborn.stands {world : World} (unborn : Unborn env repo mine world)
    (hD : D world.disk.dataDir) : Stands env repo Known mine content D (.exact none) world := by
  obtain ⟨time, hread⟩ := unborn.head
  refine ⟨unborn.root, hD, fun id hid => ?_, fun id hid => ?_, fun _ old htracked => ?_,
    fun _ _ ns node hns hnode hne => absurd (unborn.bare ns node hns hnode) hne⟩
  · obtain rfl := Option.some.inj hid
    exact ⟨time, hread⟩
  · cases hid
  · obtain ⟨head, time', hhead, -⟩ := htracked
    rw [hread] at hhead
    cases hhead

/-- Where HEAD names a snapshot, the snapshot is there. -/
theorem Stands.holds {standing : Standing} {world : World}
    (stands : Stands env repo Known mine content D standing world) {id : SnapshotId}
    (hid : standing.head = some (some id)) :
    ∃ entries time, readHead env world.disk.dataDir = .ok (some id, time) ∧
      SnapshotIs env world.disk.dataDir id entries ∧ Clean content repo entries world.tree ∧
      (standing = .exact (some id) → ∀ ns node, ¬ mine ns →
        world.tree.lookup (repo.path.below ns) = some node → node ≠ .dir →
          ∃ e ∈ entries, native e.path = ns) := by
  obtain ⟨time, hread⟩ := stands.head _ hid
  obtain ⟨-, entries, hentries⟩ := stands.tracked id hid
  have hknown : standing ≠ .unknown := by
    rintro rfl
    cases hid
  refine ⟨entries, time, hread, hentries, (stands.clean hknown _ ⟨id, time, hread, hentries⟩).1,
    fun hexact ns node hns hnode hne => ?_⟩
  obtain ⟨old, htracked, e, he, hpath⟩ := stands.only _ hexact ns node hns hnode hne
  rw [tracked_unique hread hentries htracked] at he
  exact ⟨e, he, hpath⟩

namespace CheckoutSample

/-- The store that is extracted from. -/
def IsStore (dd : DataDir) : Prop := dd.packs = dataDir.packs ∧ dd.loose = ∅

def world : World := ⟨tree, ⟨dataDir, 5⟩, []⟩

/-- The file `u` is the user's. -/
def IsUser (ns : List Name) : Prop := ns = [u]

theorem loadIndex_same {dd : DataDir} (h : IsStore dd) (pack : PackId) :
    loadIndex sampleEnv.crates dd pack = loadIndex sampleEnv.crates dataDir pack := by
  unfold loadIndex openIndex
  rw [h.1]

theorem target_entries : ∃ e, SnapshotIs sampleEnv dataDir target [e] ∧
    native e.path = [d, [120]] ∧ e.metadata.isSymlink = false ∧ e.objectMetadata.size = 0 :=
  ⟨_, ⟨_, rfl, rfl⟩, rfl, rfl, rfl⟩

theorem target_is {dd : DataDir} (h : IsStore dd) {entries : List FileEntry}
    (hentries : SnapshotIs sampleEnv dd target entries) : ∃ e, entries = [e] ∧
      native e.path = [d, [120]] ∧ e.metadata.isSymlink = false ∧ e.objectMetadata.size = 0 := by
  obtain ⟨e, he, hpath, hlink, hsize⟩ := target_entries
  obtain ⟨index, hload, hindex⟩ := hentries
  rw [loadIndex_same h] at hload
  exact ⟨e, SnapshotIs.unique ⟨index, hload, hindex⟩ he, hpath, hlink, hsize⟩

theorem unborn : Unborn sampleEnv apart IsUser world where
  root := by decide
  head := ⟨none, rfl⟩
  bare := by
    intro ns node hns hnode
    have hentries : ∀ entry ∈ tree.nodes.entries, entry.2 = .dir ∨ entry.1 = [u, w] := by decide
    have hentry : ⟨apart.path.below ns, node⟩ ∈ tree.nodes.entries := AList.mem_lookup_iff.mp hnode
    rcases hentries _ hentry with hdir | huser
    · exact hdir
    · have hplace : apart.path.below ns = apart.path.below [u] := huser
      exact absurd (Place.below_injective hplace) hns

theorem asked (tree : FileTree) :
    Asked sampleEnv (· = target) IsUser { world with tree } target unforced where
  known := rfl
  named := ⟨rfl, rfl⟩
  fresh := (started apart rfl).fresh
  theirs := by
    intro entries hentries e he huser
    obtain ⟨e', rfl, hpath, -, -⟩ := target_is ⟨rfl, rfl⟩ hentries
    rw [List.mem_singleton.mp he, hpath] at huser
    cases huser

theorem extracted : ∃ later, CheckoutStep sampleEnv apart (· = target) IsUser
    (.exact none, world) (.exact (some target), later) :=
  ⟨_, .extracted _ _ _ _ [] _ _ (asked tree) rfl⟩

/-- The user removes the file. -/
theorem edited : CheckoutStep sampleEnv apart (· = target) IsUser (.exact none, world)
    (.exact none, { world with tree := withDir }) := by
  apply CheckoutStep.edited _ _ _ (by decide)
  intro ns hns
  have hput : tree.lookup (apart.path.below ns) =
      if apart.path.below ns = [u, w] then some (.file [1] defaultMode 1)
      else withDir.lookup (apart.path.below ns) := FileTree.lookup_put _
  have hne : apart.path.below ns ≠ [u, w] := fun heq => hns (Place.below_injective heq)
  rw [if_neg hne] at hput
  exact hput.symm

end CheckoutSample

/-- What a file or a link is, but for its time; of a directory nothing. -/
def nodeContents : FileNode → Option ((List UInt8 × Permissions) ⊕ List UInt8)
  | .file bytes mode _ => some (.inl (bytes, mode))
  | .link target _ => some (.inr target)
  | .dir => none

theorem StandsFor.contents {e : FileEntry} {node node' : FileNode}
    (h : StandsFor content e node) (h' : StandsFor content e node') :
    nodeContents node = nodeContents node' := by
  unfold StandsFor at h h'
  cases hmetadata : e.metadata with
  | regular mode =>
    rw [hmetadata] at h h'
    obtain ⟨mtime, rfl⟩ := h
    obtain ⟨mtime', rfl⟩ := h'
    rfl
  | symlink encoding kind =>
    rw [hmetadata] at h h'
    obtain ⟨target, hdecode, mtime, rfl⟩ := h
    obtain ⟨target', hdecode', mtime', rfl⟩ := h'
    rw [hdecode] at hdecode'
    cases hdecode'
    rfl

end Origin

end Elfshaker.Checkout
