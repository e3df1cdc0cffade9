import Elfshaker.Checkout.Frame
import Elfshaker.Store.GcTags
import Mathlib.Algebra.Order.BigOperators.Group.List

namespace Elfshaker.Checkout

open Elfshaker.Library Elfshaker.Format Elfshaker.Store Elfshaker.Packs

variable {env : Env} {repo : Repository} {snapshot : SnapshotId} {opts : ExtractOptions}
  {s : Session World Fault}

section Untracked

variable {plan : Plan} {before : FileTree} {entries : List FileEntry} {dataDir : DataDir}

end Untracked

namespace CheckoutSample

open CollectionSample in
/-- A version 1 index of one snapshot, with one empty file `d/x`. -/
def paths : List UInt8 := [0x91, 0x81, 0xA4, 85, 110, 105, 120, 0x93, 100, 47, 120]

def file : WireSeq UInt8 := ⟨[100, 47, 120], by decide⟩

open CollectionSample in
def index : List UInt8 :=
  magic ++ [0, 0, 0, 1] ++ [0x95] ++ tags 97 ++ deltas ++ paths ++ objects ++ metadata

open CollectionSample in
def crates : Crates :=
  { sampleCrates with
    rmp := { sampleCrates.rmp with legacyPaths := readsAs paths (.single (.unix file)) } }

/-- A name that is longer than all names there are. -/
def longName (tree : FileTree) : Name :=
  List.replicate (100 + (tree.nodes.entries.map fun entry => entry.1.flatten.length).sum) 48

def sampleEnv : Env where
  crates := crates
  randomName := longName
  mayRead := fun _ => true
  ord := .insertion
  entryOrd := .insertion
  timestamps := true
  openPack := fun _ _ => Exec.fail .corruptPack
  fetchPack := fun _ _ => Exec.fail .corruptPack

def dataDir : DataDir where
  packs := [("loose", .dir), ("loose/a.pack.idx", .file index 1)].foldl
    (fun tree node => tree.insert node.1 node.2) ∅
  loose := ∅
  head := none

def w : Name := [119]

def d : Name := [100]

def u : Name := [117]

theorem root_dir : FileTree.empty.lookup [] = some .dir := rfl

theorem w_free : FileTree.empty.lookup [w] ≠ some .dir := by decide

/-- A working directory with nothing in it. -/
def bare : FileTree := FileTree.empty.put w [] .dir root_dir w_free

theorem w_dir : bare.lookup [w] = some .dir := rfl

theorem d_free : bare.lookup [d, w] ≠ some .dir := by decide

def withDir : FileTree := bare.put d [w] .dir w_dir d_free

theorem withDir_dir : withDir.lookup [w] = some .dir := rfl

theorem u_free : withDir.lookup [u, w] ≠ some .dir := by decide

/-- A working directory `w` with a directory `d` and a file `u`. -/
def tree : FileTree := withDir.put u [w] (.file [1] defaultMode 1) withDir_dir u_free

def start : Session World Fault := ⟨⟨tree, ⟨dataDir, 5⟩, []⟩, []⟩

def target : SnapshotId := ⟨⟨"loose/a"⟩, "a"⟩

def unforced : ExtractOptions := ⟨false, false, false, 1⟩

/-- A repository whose data directory is `e`, beside the working directory. -/
def apart : Repository := ⟨[w], [[101]], false⟩

/-- A repository whose data directory is `d`, in the working directory. -/
def within : Repository := ⟨[w], [d, w], false⟩

theorem plan_ways : (Checkout.plan sampleEnv target unforced dataDir).map Plan.ways =
    .ok [[d, [120]]] := by
  rfl

theorem longName_unused (tree : FileTree) (p : Place) (hp : (tree.lookup p).isSome) :
    longName tree ∉ p := by
  intro hmem
  obtain ⟨node, hnode⟩ := Option.isSome_iff_exists.mp hp
  have hentry : ⟨p, node⟩ ∈ tree.nodes.entries := AList.mem_lookup_iff.mp hnode
  have hlength : (longName tree).length ≤ p.flatten.length := by
    rw [List.length_flatten]
    exact List.le_sum_of_mem (List.mem_map_of_mem hmem)
  have hsum : p.flatten.length ≤
      (tree.nodes.entries.map fun entry => entry.1.flatten.length).sum :=
    List.le_sum_of_mem (List.mem_map.mpr ⟨_, hentry, rfl⟩)
  rw [longName, List.length_replicate] at hlength
  omega

theorem longName_ne {tree : FileTree} {names : List Name} (h : ∀ name ∈ names, name.length < 100) :
    longName tree ∉ names := by
  intro hmem
  have hlength := h _ hmem
  rw [longName, List.length_replicate] at hlength
  omega

theorem started (repo : Repository) (hpath : repo.path = [w]) :
    Start sampleEnv repo target unforced start where
  root := by
    rw [hpath]
    decide
  untouched := rfl
  fresh := by
    intro plan hplan
    have hways := plan_ways
    have hdataDir : start.state.disk.dataDir = dataDir := rfl
    rw [hdataDir] at hplan
    rw [hplan] at hways
    have hways : plan.ways = [[d, [120]]] := Except.ok.inj hways
    refine ⟨longName_unused, ?_⟩
    intro tree path hpath'
    rw [hways, List.mem_singleton] at hpath'
    rw [hpath']
    exact longName_ne (by decide)

end CheckoutSample

section Inside

/-- Where something lies that was touched. -/
def Touch.place (repo : Repository) : Touch → Place
  | .workTree _ place => place
  | .repository names => repo.dataDir.below names

theorem Ending.guarded {s' : Session World Fault} {result : Exec Error ExtractResult}
    (h : Ending env repo snapshot opts s s' result) : ∃ Ok noted : List Name → Prop,
      (∀ names, Ok names → names ≠ []) ∧ Guarded repo s.state.tree Ok noted s'.state := by
  cases h with
  | unplanned _ hguarded => exact ⟨_, _, fun _ h => h.elim, hguarded⟩
  | refused plan _ _ hguarded => exact ⟨_, _, fun _ h => h.1, hguarded⟩
  | mutated plan _ _ hguarded =>
    refine ⟨_, _, fun names h => ?_, hguarded⟩
    rcases h with h | h
    · exact h.1
    · exact h.1

/-- In the working tree, an extraction touches only what lies in the working directory, and
reaches it through no link. Besides that it writes files of the repository. -/
theorem extract_stays_inside (start : Start env repo snapshot opts s) :
    (∀ touch ∈ (extractSnapshot env repo snapshot opts s).2.state.touched,
      (∃ names, names ≠ [] ∧ touch = .workTree names (repo.path.below names)) ∨
        ∃ names, touch = .repository names ∧ RepositoryFile names) ∧
    ∀ p, (extractSnapshot env repo snapshot opts s).2.state.tree.lookup p ≠
        s.state.tree.lookup p →
      ∃ names, names ≠ [] ∧ p = repo.path.below names ∧
        .workTree names p ∈ (extractSnapshot env repo snapshot opts s).2.state.touched := by
  obtain ⟨Ok, noted, hOk, hguarded⟩ := (extractSnapshot_ending env repo snapshot opts start).guarded
  constructor
  · intro touch htouch
    cases touch with
    | workTree names place =>
      obtain ⟨rfl, hok⟩ := hguarded.direct names place htouch
      exact .inl ⟨names, hOk names hok, rfl⟩
    | repository names => exact .inr ⟨names, rfl, hguarded.own names htouch⟩
  · intro p hp
    obtain ⟨names, hnames⟩ := hguarded.recorded p hp
    obtain ⟨hplace, hok⟩ := hguarded.direct names p hnames
    exact ⟨names, hOk names hok, hplace, hnames⟩

theorem extract_stays_inside_sample :
    (∀ touch ∈ (extractSnapshot CheckoutSample.sampleEnv CheckoutSample.apart
        CheckoutSample.target CheckoutSample.unforced CheckoutSample.start).2.state.touched,
      (∃ names, names ≠ [] ∧ touch = .workTree names (CheckoutSample.apart.path.below names)) ∨
        ∃ names, touch = .repository names ∧ RepositoryFile names) ∧
    ∀ p, (extractSnapshot CheckoutSample.sampleEnv CheckoutSample.apart CheckoutSample.target
        CheckoutSample.unforced CheckoutSample.start).2.state.tree.lookup p ≠
        CheckoutSample.start.state.tree.lookup p →
      ∃ names, names ≠ [] ∧ p = CheckoutSample.apart.path.below names ∧
        .workTree names p ∈ (extractSnapshot CheckoutSample.sampleEnv CheckoutSample.apart
          CheckoutSample.target CheckoutSample.unforced CheckoutSample.start).2.state.touched :=
  extract_stays_inside (CheckoutSample.started _ rfl)

/-- HEAD is written to the data directory, wherever that is. -/
theorem extract_leaves_working_directory : ¬ ∀ (env : Env) (repo : Repository)
    (snapshot : SnapshotId) (opts : ExtractOptions) (s : Session World Fault),
    Start env repo snapshot opts s →
    ∀ touch ∈ (extractSnapshot env repo snapshot opts s).2.state.touched,
      repo.path <:+ touch.place repo := by
  intro h
  have hhead : Touch.repository ["HEAD".toUTF8.toList] ∈ (extractSnapshot
      CheckoutSample.sampleEnv CheckoutSample.apart CheckoutSample.target CheckoutSample.unforced
      CheckoutSample.start).2.state.touched := by decide +kernel
  have hinside := h _ _ _ _ _ (CheckoutSample.started CheckoutSample.apart rfl) _ hhead
  revert hinside
  decide

end Inside

section DataDirectory

variable {plan : Plan} {dir : List Name}

namespace CheckoutSample

end CheckoutSample

end DataDirectory

end Elfshaker.Checkout
