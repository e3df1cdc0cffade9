import Elfshaker.Checkout.Steps

namespace Elfshaker.Checkout

open Elfshaker.Library Elfshaker.Format Elfshaker.Store Elfshaker.Packs

section Guard

variable (repo : Repository) (before : FileTree) (Ok : List Name → Prop)

/-- What differs from the tree before was touched, under names that may be. Some names
are known to have been touched. -/
structure Guarded (noted : List Name → Prop) (world : World) : Prop where
  recorded : ∀ p, world.tree.lookup p ≠ before.lookup p →
    ∃ names, Touch.workTree names p ∈ world.touched
  direct : ∀ names p, Touch.workTree names p ∈ world.touched →
    p = repo.path.below names ∧ Ok names
  seen : ∀ names, noted names → ∃ p, Touch.workTree names p ∈ world.touched
  own : ∀ names, Touch.repository names ∈ world.touched → RepositoryFile names

/-- The links on the way to some paths all wait to be removed. -/
def LinksIn (paths pending : List (List Name)) (tree : FileTree) : Prop :=
  ∀ path ∈ paths, ∀ ns, ns <+: path → ns ≠ path → ∀ node,
    tree.lookup (repo.path.below ns) = some node → node.isLink = true → ns ∈ pending

/-- A guarded world where no link is in the way. -/
structure Safe (paths pending : List (List Name)) (noted : List Name → Prop) (world : World) : Prop
    extends Guarded repo before Ok noted world where
  links : LinksIn repo paths pending world.tree

/-- The working directory is there, and never touched itself. -/
structure Rooted : Prop where
  dir : before.lookup repo.path = some .dir
  untouched : ¬ Ok []

end Guard

variable {repo : Repository} {before : FileTree} {Ok noted : List Name → Prop}

@[simp] theorem World.updated_tree {world : World} {tree : FileTree} {touch : List Touch} :
    (world.updated tree touch).tree = tree := rfl

@[simp] theorem World.updated_touched {world : World} {tree : FileTree} {touch : List Touch} :
    (world.updated tree touch).touched = world.touched ++ touch := rfl

namespace Guarded

variable {world : World}

theorem unchanged (h : Guarded repo before Ok noted world) {p : Place}
    (hp : ∀ names, p = repo.path.below names → ¬ Ok names) :
    world.tree.lookup p = before.lookup p := by
  by_contra hne
  obtain ⟨names, htouch⟩ := h.recorded p hne
  obtain ⟨hplace, hok⟩ := h.direct names p htouch
  exact hp names hplace hok

/-- What was changed already may be changed again. -/
theorem ok_of_same (h : Guarded repo before Ok noted world) {names : List Name}
    (hsame : world.tree.lookup (repo.path.below names) = before.lookup (repo.path.below names) →
      Ok names) : Ok names := by
  by_cases heq : world.tree.lookup (repo.path.below names) = before.lookup (repo.path.below names)
  · exact hsame heq
  · obtain ⟨others, htouch⟩ := h.recorded _ heq
    obtain ⟨hplace, hok⟩ := h.direct others _ htouch
    rw [Place.below_injective hplace]
    exact hok

theorem root (h : Guarded repo before Ok noted world) (rooted : Rooted repo before Ok) :
    world.tree.lookup repo.path = some .dir := by
  rw [h.unchanged, rooted.dir]
  intro names hnames hok
  have hnil : repo.path.below [] = repo.path.below names := hnames
  rw [← Place.below_injective hnil] at hok
  exact rooted.untouched hok

theorem updated (h : Guarded repo before Ok noted world) {tree : FileTree} {touch : List Touch}
    (htouch : ∀ names p, .workTree names p ∈ touch → p = repo.path.below names ∧ Ok names)
    (hown : ∀ names, Touch.repository names ∉ touch)
    (hothers : ∀ p, (∀ names, .workTree names p ∉ touch) → tree.lookup p = world.tree.lookup p) :
    Guarded repo before Ok noted (world.updated tree touch) where
  recorded := by
    intro p hp
    by_cases hnew : ∃ names, Touch.workTree names p ∈ touch
    · obtain ⟨names, hnames⟩ := hnew
      exact ⟨names, List.mem_append_right _ hnames⟩
    · have hold : world.tree.lookup p ≠ before.lookup p := by
        rw [← hothers p fun names hnames => hnew ⟨names, hnames⟩]
        exact hp
      obtain ⟨names, hnames⟩ := h.recorded p hold
      exact ⟨names, List.mem_append_left _ hnames⟩
  direct := by
    intro names p hp
    rcases List.mem_append.mp hp with hp | hp
    · exact h.direct names p hp
    · exact htouch names p hp
  seen := by
    intro names hnames
    obtain ⟨p, hp⟩ := h.seen names hnames
    exact ⟨p, List.mem_append_left _ hp⟩
  own := by
    intro names hnames
    rcases List.mem_append.mp hnames with hnames | hnames
    · exact h.own names hnames
    · exact absurd hnames (hown names)

theorem mono (h : Guarded repo before Ok noted world) {Ok' : List Name → Prop}
    (hOk : ∀ names, Ok names → Ok' names) : Guarded repo before Ok' noted world where
  recorded := h.recorded
  direct := fun names p hp => (h.direct names p hp).imp_right (hOk names)
  seen := h.seen
  own := h.own

theorem note (h : Guarded repo before Ok noted world) {noted' : List Name → Prop}
    (hnoted : ∀ names, noted' names → ∃ p, Touch.workTree names p ∈ world.touched) :
    Guarded repo before Ok noted' world where
  recorded := h.recorded
  direct := h.direct
  seen := hnoted
  own := h.own

/-- The files of the repository itself are apart from the working directory. -/
theorem onDisk (h : Guarded repo before Ok noted world) (disk : Disk) {files : List (List Name)}
    (hfiles : ∀ names ∈ files, RepositoryFile names) :
    Guarded repo before Ok noted
      { world with disk := disk, touched := world.touched ++ files.map .repository } where
  recorded := by
    intro p hp
    obtain ⟨names, hnames⟩ := h.recorded p hp
    exact ⟨names, List.mem_append_left _ hnames⟩
  direct := by
    intro names p hp
    rcases List.mem_append.mp hp with hp | hp
    · exact h.direct names p hp
    · obtain ⟨file, -, hfile⟩ := List.mem_map.mp hp
      cases hfile
  seen := by
    intro names hnames
    obtain ⟨p, hp⟩ := h.seen names hnames
    exact ⟨p, List.mem_append_left _ hp⟩
  own := by
    intro names hnames
    rcases List.mem_append.mp hnames with hnames | hnames
    · exact h.own names hnames
    · obtain ⟨file, hfile, heq⟩ := List.mem_map.mp hnames
      cases heq
      exact hfiles names hfile

/-- What is not as it was before was touched. -/
theorem touched (h : Guarded repo before Ok noted world) {names : List Name}
    (hne : world.tree.lookup (repo.path.below names) ≠ before.lookup (repo.path.below names)) :
    ∃ p, Touch.workTree names p ∈ world.touched := by
  obtain ⟨others, htouch⟩ := h.recorded _ hne
  obtain ⟨hplace, -⟩ := h.direct others _ htouch
  rw [← Place.below_injective hplace] at htouch
  exact ⟨_, htouch⟩

end Guarded

namespace LinksIn

variable {paths pending : List (List Name)} {tree tree' : FileTree}

theorem of_changes (h : LinksIn repo paths pending tree)
    (hnew : ∀ path ∈ paths, ∀ ns, ns <+: path → ns ≠ path → ∀ node,
      tree'.lookup (repo.path.below ns) = some node → node.isLink = true →
      tree.lookup (repo.path.below ns) = some node) : LinksIn repo paths pending tree' :=
  fun path hpath ns hns hne node hnode hlink =>
    h path hpath ns hns hne node (hnew path hpath ns hns hne node hnode hlink) hlink

theorem places (h : LinksIn repo paths pending tree) {p : Place} (hplaces : Places tree tree' p) :
    LinksIn repo paths pending tree' := by
  apply h.of_changes
  intro path hpath ns hns hne node hnode hlink
  by_cases heq : repo.path.below ns = p
  · rw [heq] at hnode
    rw [hplaces.noLink node hnode] at hlink
    cases hlink
  · rw [← hplaces.others _ heq]
    exact hnode

/-- No link is on a way that is a part of the way to one of the paths. -/
theorem plain (h : LinksIn repo paths pending tree) (hroot : tree.lookup repo.path = some .dir)
    {names : List Name} (hway : ∀ ns, ns <+: names → ns ≠ names → ns ≠ [] →
      ∃ path ∈ paths, ns <+: path ∧ ns ≠ path ∧ ns ∉ pending) :
    tree.Plain repo.path (repo.path.below names) := by
  intro d hbase hd hne node hnode
  obtain ⟨ns, hns, rfl⟩ := Place.exists_below hbase hd
  by_cases hnil : ns = []
  · subst hnil
    rw [Place.below_nil, hroot] at hnode
    rw [← Option.some.inj hnode]
    rfl
  · obtain ⟨path, hpath, hstarts, hproper, hpending⟩ :=
      hway ns hns (fun heq => hne (by rw [heq])) hnil
    by_contra hlink
    exact hpending (h path hpath ns hstarts hproper node hnode (by simpa using hlink))

end LinksIn

namespace Safe

variable {paths pending : List (List Name)} {world : World}

theorem places (h : Safe repo before Ok paths pending noted world) {names : List Name} (hok : Ok names)
    {tree : FileTree} (hplaces : Places world.tree tree (repo.path.below names)) :
    Safe repo before Ok paths pending noted
      (world.updated tree [.workTree names (repo.path.below names)]) where
  toGuarded := by
    apply h.toGuarded.updated
    · intro others p hp
      rw [List.mem_singleton, Touch.workTree.injEq] at hp
      obtain ⟨rfl, rfl⟩ := hp
      exact ⟨rfl, hok⟩
    · simp
    · intro p hp
      apply hplaces.others
      intro heq
      exact hp names (by rw [heq, List.mem_singleton])
  links := h.links.places hplaces

theorem onDisk (h : Safe repo before Ok paths pending noted world) (disk : Disk)
    {files : List (List Name)} (hfiles : ∀ names ∈ files, RepositoryFile names) :
    Safe repo before Ok paths pending noted
      { world with disk := disk, touched := world.touched ++ files.map .repository } where
  toGuarded := h.toGuarded.onDisk disk hfiles
  links := h.links

theorem placedAt {names : List Name} (hok : Ok names) :
    PlacedAt repo (Safe repo before Ok paths pending noted) names :=
  fun _ _ hworld hplaces => hworld.places hok hplaces

theorem mono (h : Safe repo before Ok paths pending noted world) {Ok' : List Name → Prop}
    (hOk : ∀ names, Ok names → Ok' names) : Safe repo before Ok' paths pending noted world where
  toGuarded := h.toGuarded.mono hOk
  links := h.links

theorem subset (h : Safe repo before Ok paths pending noted world) {paths' : List (List Name)}
    (hpaths : paths' ⊆ paths) : Safe repo before Ok paths' pending noted world where
  toGuarded := h.toGuarded
  links := fun path hpath => h.links path (hpaths hpath)

/-- What is there may be taken away where this could be done to what was there before. -/
theorem keptAt {names : List Name}
    (hok : (before.lookup (repo.path.below names)).isSome → Ok names) :
    KeptAt repo (Safe repo before Ok paths pending noted) names := by
  intro world tree hworld herases
  apply hworld.places _ herases.places
  apply hworld.ok_of_same
  intro hsame
  apply hok
  rw [← hsame]
  exact herases.present

/-- A path without links on the way leads to the place that it names. -/
theorem leadsTo (rooted : Rooted repo before Ok) {names : List Name}
    (hway : ∀ ns, ns <+: names → ns ≠ names → ns ≠ [] →
      ∃ path ∈ paths, ns <+: path ∧ ns ≠ path ∧ ns ∉ pending) :
    LeadsTo repo (Safe repo before Ok paths pending noted) false names := by
  intro world place hworld hresolve
  have hroot := hworld.toGuarded.root rooted
  exact FileTree.resolve_plain hroot (hworld.links.plain hroot hway) FileTree.endsPlain_false
    hresolve

theorem keeps_createDir {names : List Name}
    (hleads : LeadsTo repo (Safe repo before Ok paths pending noted) false names)
    (hok : before.lookup (repo.path.below names) = none → Ok names) :
    KeepsWorld (Safe repo before Ok paths pending noted) (createDir repo names) := by
  apply keeps_change
  intro world place tree hworld hresolve hop
  rw [hleads world place hworld hresolve] at hop ⊢
  apply hworld.places _ (add_places rfl hop)
  apply hworld.ok_of_same
  intro hsame
  apply hok
  rw [← hsame]
  exact (FileTree.add_ok hop).1

end Safe

end Elfshaker.Checkout
