import Elfshaker.Checkout.Contents
import Elfshaker.Checkout.Frame

namespace Elfshaker.Checkout

open Elfshaker.Library Elfshaker.Format Elfshaker.Store Elfshaker.Packs

section Shrinking

variable {repo : Repository} {P : World → Prop} {names : List Name}

/-- A tree that has nothing but what another one has. -/
def Lessened (start t : FileTree) : Prop :=
  ∀ p node, t.lookup p = some node → start.lookup p = some node

theorem Lessened.refl (t : FileTree) : Lessened t t := fun _ _ hnode => hnode

theorem Erases.lessened {start t t' : FileTree} {p : Place} (h : Erases t t' p)
    (hless : Lessened start t) : Lessened start t' := by
  intro q node hnode
  by_cases heq : q = p
  · rw [heq, h.erased] at hnode
    cases hnode
  · rw [h.others q heq] at hnode
    exact hless q node hnode

/-- A property that stays wherever something is taken away. -/
def Shrinks (P : World → Prop) : Prop :=
  ∀ world tree p touch, Erases world.tree tree p → P world → P (world.updated tree touch)

variable (shrinks : Shrinks P)
include shrinks

theorem keeps_takesAway {op : Nat → Place → FileTree → Except Refusal FileTree}
    (hop : TakesAway op) : KeepsWorld P (change repo false names op) := by
  apply keeps_change
  intro world place tree hworld _ htree
  exact shrinks _ _ _ _ (hop.erases _ _ _ _ htree) hworld

theorem shrinks_removeFile : KeepsWorld P (removeFile repo names) :=
  keeps_takesAway shrinks unlink_takesAway

theorem shrinks_removeDir : KeepsWorld P (removeDir repo names) :=
  keeps_takesAway shrinks rmdir_takesAway

theorem shrinks_removeLeaf : KeepsWorld P (removeLeaf repo names) := by
  apply Effect.Keeps.orElse
  · apply Effect.Keeps.bind keeps_symlinkMetadata
    intro node
    cases node with
    | dir => exact shrinks_removeDir shrinks
    | file bytes mode mtime => exact shrinks_removeFile shrinks
    | link target mtime => exact shrinks_removeFile shrinks
  · intro e y hy
    split at hy
    · cases hy
      exact .pure _
    · cases hy

theorem shrinks_removeEach {place : Place} (places : List Place) :
    KeepsWorld P (removeEach names place places) := by
  induction places with
  | nil => exact .pure _
  | cons p places ih =>
    apply Effect.Keeps.bind _ fun _ => ih
    apply Session.keeps_os fun _ _ hworld => hworld
    intro world hworld
    cases hrun : runRemoveAt names place p world with
    | mk result world' =>
      cases result with
      | ok u =>
        obtain ⟨tree, herases, rfl⟩ := runRemoveAt_ok hrun
        exact shrinks _ _ _ _ herases hworld
      | error e =>
        rw [runRemoveAt_error hrun]
        exact hworld

theorem shrinks_removeDirAll : KeepsWorld P (removeDirAll repo names) := by
  apply Effect.Keeps.bind keeps_symlinkMetadata
  intro node
  cases node with
  | link target mtime => exact shrinks_removeFile shrinks
  | file bytes mode mtime => exact .lift _
  | dir =>
    apply Effect.Keeps.bind (keeps_inspect _)
    intro place
    apply Effect.Keeps.bind (keeps_inspect _)
    exact fun places => shrinks_removeEach shrinks places

theorem shrinks_removePath : KeepsWorld P (removePath repo names) := by
  apply Effect.Keeps.bind (Effect.Keeps.attempt keeps_symlinkMetadata)
  intro found
  apply Effect.Keeps.bind
  · apply Effect.Keeps.attempt
    unfold removeLink
    split
    · exact shrinks_removeLeaf shrinks
    · exact shrinks_removeFile shrinks
  · intro result
    unfold afterRemoval
    split
    · exact .pure _
    · exact .pure _
    · exact shrinks_removeDirAll shrinks
    · exact .lift _

theorem shrinks_process (queue : Option (List Name)) :
    KeepsWorld P (process repo queue) := by
  cases queue with
  | none => exact .pure _
  | some leaf => exact keeps_removeEmptyDirs fun ns _ _ => shrinks_removeDir shrinks

theorem shrinks_enqueue (queue : Option (List Name)) :
    KeepsWorld P (enqueue repo names queue) := by
  cases queue with
  | none => exact .pure _
  | some last =>
    rw [enqueue]
    split
    · exact .pure _
    · exact .bind (shrinks_process shrinks (some last)) fun _ => .pure _

/-- The removal of paths brings nothing back. -/
theorem shrinks_removePaths (queue : Option (List Name)) (paths : List (List Name)) :
    KeepsWorld P (removePaths repo queue paths) := by
  induction paths generalizing queue with
  | nil => exact shrinks_process shrinks queue
  | cons names paths ih =>
    apply Effect.Keeps.bind
    · exact (shrinks_removePath shrinks).onError (shrinks_process shrinks queue)
    · intro _
      apply Effect.Keeps.bind
      · exact (shrinks_enqueue shrinks queue).onError (shrinks_process shrinks queue)
      · exact fun next => ih next

end Shrinking

section Probing

variable {env : Env} {repo : Repository} {before start : FileTree} {Ok noted : List Name → Prop}
  {paths pending : List (List Name)}

/-- A tree that has only what another one has, and what is at or below one path. -/
def Beyond (repo : Repository) (start : FileTree) (names : List Name) (t : FileTree) : Prop :=
  ∀ p node, t.lookup p = some node → start.lookup p = some node ∨ repo.path.below names <:+ p

theorem Lessened.beyond {names : List Name} {t : FileTree} (h : Lessened start t) :
    Beyond repo start names t :=
  fun p node hnode => .inl (h p node hnode)

/-- Once nothing is at the path, nothing is below it. -/
theorem Beyond.lessened {names : List Name} {world : World}
    (h : Beyond repo start names world.tree) (hgone : Gone repo names world) :
    Lessened start world.tree := by
  intro p node hnode
  rcases h p node hnode with hstart | hbelow
  · exact hstart
  · exfalso
    have hhere := world.tree.around_dir (Option.isSome_iff_exists.mpr ⟨node, hnode⟩) hbelow
    unfold Gone at hgone
    by_cases heq : repo.path.below names = p
    · rw [heq, hnode] at hgone
      cases hgone
    · rw [hhere heq] at hgone
      cases hgone

theorem shrinks_beyond {names : List Name} :
    Shrinks fun world => Beyond repo start names world.tree := by
  intro world tree p touch herases hworld q node hnode
  by_cases heq : q = p
  · rw [World.updated_tree, heq, herases.erased] at hnode
    cases hnode
  · rw [World.updated_tree, herases.others q heq] at hnode
    exact hworld q node hnode

theorem Beyond.add {names ns : List Name} {node : FileNode} {t t' : FileTree}
    (h : Beyond repo start names t) (hns : names <+: ns)
    (hadd : t.add (repo.path.below ns) node = .ok t') : Beyond repo start names t' := by
  obtain ⟨-, -, hlookup⟩ := FileTree.add_ok hadd
  intro p found hfound
  rw [hlookup] at hfound
  split at hfound
  · rename_i heq
    rw [heq]
    exact .inr (Place.below_suffix_iff.mpr hns)
  · exact h p found hfound

variable (rooted : Rooted repo before Ok) (fresh : FreshNames env paths)
include rooted fresh

/-- What one try puts into its directory is gone with it. -/
theorem probeKind_traceless {tree : FileTree}
    (hok : ∀ ns, [env.randomName tree] <+: ns → Ok ns) : Effect.Triple
      (fun s : Session World Fault => (Safe repo before Ok paths pending noted s.state ∧
        ∀ node, s.state.tree.lookup (repo.path.below [env.randomName tree]) = some node →
          node.isLink = false) ∧ Beyond repo start [env.randomName tree] s.state.tree)
      (probeKind repo [env.randomName tree])
      (fun _ s => Safe repo before Ok paths pending noted s.state ∧ Lessened start s.state.tree)
      fun _ => True := by
  have hlink : KeepsWorld (fun world => (Safe repo before Ok paths pending noted world ∧
      ∀ node, world.tree.lookup (repo.path.below [env.randomName tree]) = some node →
        node.isLink = false) ∧ Beyond repo start [env.randomName tree] world.tree)
      (createNative repo "elfshaker-symlink-probe-target".toUTF8.toList
        [env.randomName tree, "link".toUTF8.toList]) := by
    apply keeps_change_with (keeps_probeLink rooted fresh hok)
    rintro world place tree' ⟨hworld, hdirectory⟩ hbeyond hresolve hop
    rw [leadsTo_inside rooted hworld hdirectory hresolve] at hop
    exact hbeyond.add ⟨_, rfl⟩ (makeLink_adds hop)
  apply Effect.Triple.bind ((Effect.Keeps.attempt hlink).mono_error fun _ _ => trivial)
  intro result
  have hclears : Clears repo (Safe repo before Ok paths pending noted) [env.randomName tree]
      (removeDirAll repo [env.randomName tree]) :=
    removeDirAll_clears (leadsTo_top rooted) fun ns hns => Safe.keptAt fun _ => hok ns hns
  have hshrinks : KeepsWorld (fun world => Beyond repo start [env.randomName tree] world.tree)
      (removeDirAll repo [env.randomName tree]) := shrinks_removeDirAll shrinks_beyond
  apply Effect.Triple.bind (R := fun _ s => Safe repo before Ok paths pending noted s.state ∧
    Lessened start s.state.tree)
  · apply Effect.Triple.mapError
    apply (hclears.and hshrinks).weaken
    · exact fun _ hs => ⟨hs.1.1, hs.2⟩
    · exact fun _ _ hs => ⟨hs.1.1, hs.2.lessened hs.1.2⟩
    · exact fun _ _ => trivial
  · exact fun _ => (Effect.Keeps.lift _).mono_error fun _ _ => trivial

theorem probeKinds_traceless (may : MayProbe env repo before Ok)
    (kinds : List SymlinkTargetKind) : Effect.Triple
      (fun s : Session World Fault => Safe repo before Ok paths pending noted s.state ∧
        Lessened start s.state.tree)
      (probeKinds env repo kinds)
      (fun _ s => Safe repo before Ok paths pending noted s.state ∧ Lessened start s.state.tree)
      fun _ => True := by
  induction kinds with
  | nil => exact .pure fun _ hs => hs
  | cons kind kinds ih =>
    have hdirectory : Effect.Triple
        (fun s : Session World Fault => Safe repo before Ok paths pending noted s.state ∧
          Lessened start s.state.tree)
        (createTempPath env [])
        (fun directory s => (Safe repo before Ok paths pending noted s.state ∧
          Lessened start s.state.tree) ∧ ∃ tree, directory = [env.randomName tree] ∧
            ∀ ns, [env.randomName tree] <+: ns → Ok ns)
        fun _ => True := by
      have hless : KeepsWorld (fun world => Lessened start world.tree) (createTempPath env []) :=
        keeps_createTempPath
      apply ((probeDirectory_ok fresh may).and hless).weaken
      · exact fun _ hs => hs
      · exact fun _ _ hs => ⟨⟨hs.1.1, hs.2⟩, hs.1.2⟩
      · exact fun _ _ => trivial
    apply Effect.Triple.bind_fact hdirectory.mapError
    rintro directory ⟨tree, rfl, hok⟩
    have hcreate : KeepsWorld (fun world => Safe repo before Ok paths pending noted world ∧
        Beyond repo start [env.randomName tree] world.tree)
        (createDir repo [env.randomName tree]) := by
      apply keeps_change_with (Safe.keeps_createDir (leadsTo_top rooted)
        fun _ => hok _ List.prefix_rfl)
      intro world place tree' hworld hbeyond hresolve hop
      rw [leadsTo_top rooted world place hworld hresolve] at hop
      exact hbeyond.add List.prefix_rfl hop
    apply Effect.Triple.bind (R := fun _ s => (Safe repo before Ok paths pending noted s.state ∧
      ∀ node, s.state.tree.lookup (repo.path.below [env.randomName tree]) = some node →
        node.isLink = false) ∧ Beyond repo start [env.randomName tree] s.state.tree)
    · apply Effect.Triple.mapError
      apply ((createDir_noLink rooted (hok _ List.prefix_rfl)).and hcreate).weaken
      · exact fun _ hs => ⟨hs.1, hs.1, hs.2.beyond⟩
      · exact fun _ _ hs => ⟨hs.1, hs.2.2⟩
      · exact fun _ _ => trivial
    · intro _
      exact Effect.Triple.bind (probeKind_traceless rooted fresh hok) fun _ => ih

/-- A probe that succeeds leaves nothing behind. -/
theorem probe_traceless (may : MayProbe env repo before Ok) (entries : List FileEntry) :
    Effect.Triple
      (fun s : Session World Fault => Safe repo before Ok paths pending noted s.state ∧
        Lessened start s.state.tree)
      (probe env repo entries)
      (fun _ s => Safe repo before Ok paths pending noted s.state ∧ Lessened start s.state.tree)
      fun _ => True := by
  have hroot : KeepsWorld (fun world => Safe repo before Ok paths pending noted world ∧
      Lessened start world.tree) (createDirAll repo []) := by
    apply keeps_createDirAll
    intro ns hns
    rw [List.prefix_nil.mp hns]
    have hleads : LeadsTo repo (Safe repo before Ok paths pending noted) false [] :=
      Safe.leadsTo rooted fun m hm _ hnil => absurd (List.prefix_nil.mp hm) hnil
    apply keeps_change_with
    · apply Safe.keeps_createDir hleads
      intro hnone
      rw [Place.below_nil, rooted.dir] at hnone
      cases hnone
    · intro world place tree hworld hless hresolve hop
      rw [hleads world place hworld hresolve, Place.below_nil] at hop
      obtain ⟨hfree, -, -⟩ := FileTree.add_ok hop
      rw [hworld.toGuarded.root rooted] at hfree
      cases hfree
  unfold probe
  simp only
  split
  · exact .pure fun _ hs => hs
  · apply Effect.Triple.bind (hroot.mapError.mono_error fun _ _ => trivial)
    exact fun _ => probeKinds_traceless rooted fresh may _

end Probing

section Steady

variable {env : Env} {repo : Repository} {P : World → Prop}

/-- A property that says nothing of the tree. -/
def Steady (P : World → Prop) : Prop := ∀ world tree touch, P world → P (world.updated tree touch)

variable (steady : Steady P)
include steady

theorem Steady.shrinks : Shrinks P :=
  fun world tree _ touch _ hworld => steady world tree touch hworld

theorem Steady.keeps_change {follow : Bool} {names : List Name}
    {op : Nat → Place → FileTree → Except Refusal FileTree} :
    KeepsWorld P (change repo follow names op) :=
  Elfshaker.Checkout.keeps_change fun world _ tree hworld _ _ => steady world tree _ hworld

theorem Steady.keeps_probeKinds (kinds : List SymlinkTargetKind) :
    KeepsWorld P (probeKinds env repo kinds) := by
  induction kinds with
  | nil => exact .pure _
  | cons kind kinds ih =>
    apply Effect.Keeps.bind (.mapError keeps_createTempPath)
    intro directory
    apply Effect.Keeps.bind (.mapError steady.keeps_change)
    intro _
    apply Effect.Keeps.bind
    · apply Effect.Keeps.bind (.attempt steady.keeps_change)
      intro result
      apply Effect.Keeps.bind (.mapError (shrinks_removeDirAll steady.shrinks))
      exact fun _ => .lift _
    · exact fun _ => ih

theorem Steady.keeps_probe (entries : List FileEntry) :
    KeepsWorld P (probe env repo entries) := by
  unfold probe
  simp only
  split
  · exact .pure _
  · apply Effect.Keeps.bind
    · exact .mapError (keeps_createDirAll fun _ _ => steady.keeps_change)
    · exact fun _ => steady.keeps_probeKinds _

end Steady

end Elfshaker.Checkout
