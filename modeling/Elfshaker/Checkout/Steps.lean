import Elfshaker.Checkout.Extract

namespace Elfshaker.Checkout

open Elfshaker.Library Elfshaker.Format Elfshaker.Store Elfshaker.Packs

/-- A call that keeps a property of the world, also where it fails. -/
def KeepsWorld {ε α : Type} (P : World → Prop) (x : Effect (Session World Fault) ε α) : Prop :=
  Effect.Keeps (fun s => P s.state) x

/-- A tree in which one place is no longer there. -/
structure Erases (t t' : FileTree) (p : Place) : Prop where
  present : (t.lookup p).isSome
  erased : t'.lookup p = none
  others : ∀ q, q ≠ p → t'.lookup q = t.lookup q

/-- A tree in which what is not a link came to one place. -/
structure Places (t t' : FileTree) (p : Place) : Prop where
  noLink : ∀ node, t'.lookup p = some node → node.isLink = false
  others : ∀ q, q ≠ p → t'.lookup q = t.lookup q

theorem Erases.places {t t' : FileTree} {p : Place} (h : Erases t t' p) : Places t t' p where
  noLink := by
    intro node hnode
    rw [h.erased] at hnode
    cases hnode
  others := h.others

section Operations

variable {t t' : FileTree} {place : Place}

theorem unlink_erases (h : t.unlink place = .ok t') : Erases t t' place := by
  obtain ⟨⟨old, hold, -⟩, hlookup⟩ := FileTree.unlink_ok h
  constructor
  · rw [hold]
    rfl
  · rw [hlookup, if_pos rfl]
  · intro q hq
    rw [hlookup, if_neg hq]

theorem rmdir_erases (h : t.rmdir place = .ok t') : Erases t t' place := by
  obtain ⟨hdir, -, hlookup⟩ := FileTree.rmdir_ok h
  constructor
  · rw [hdir]
    rfl
  · rw [hlookup, if_pos rfl]
  · intro q hq
    rw [hlookup, if_neg hq]

theorem add_others {node : FileNode} (h : t.add place node = .ok t') (q : Place) (hq : q ≠ place) :
    t'.lookup q = t.lookup q := by
  obtain ⟨-, -, hlookup⟩ := FileTree.add_ok h
  rw [hlookup, if_neg hq]

theorem add_places {node : FileNode} (hnode : node.isLink = false) (h : t.add place node = .ok t') :
    Places t t' place := by
  obtain ⟨-, -, hlookup⟩ := FileTree.add_ok h
  constructor
  · intro found hfound
    rw [hlookup, if_pos rfl] at hfound
    rw [← Option.some.inj hfound]
    exact hnode
  · exact add_others h

theorem alter_places {node : FileNode} (hnode : node.isLink = false)
    (h : t.alter place node = .ok t') : Places t t' place := by
  obtain ⟨-, hlookup⟩ := FileTree.alter_ok h
  constructor
  · intro found hfound
    rw [hlookup, if_pos rfl] at hfound
    rw [← Option.some.inj hfound]
    exact hnode
  · intro q hq
    rw [hlookup, if_neg hq]

theorem openTruncated_places {now : Nat} (h : openTruncated now place t = .ok t') :
    Places t t' place := by
  unfold openTruncated at h
  split at h
  · exact add_places rfl h
  · exact alter_places rfl h
  · cases h
  · cases h

theorem chmod_places {mode : UInt32} (h : chmod mode place t = .ok t') : Places t t' place := by
  unfold chmod at h
  split at h
  · exact alter_places rfl h
  · cases h
  · cases h

theorem fillFile_places {bytes : List UInt8} {now : Nat} (h : fillFile bytes now place t = .ok t') :
    Places t t' place := by
  unfold fillFile at h
  split at h
  · exact alter_places rfl h
  · cases h
  · cases h

theorem makeLink_adds {target : List UInt8} {now : Nat} (h : makeLink target now place t = .ok t') :
    t.add place (.link target now) = .ok t' := by
  unfold makeLink at h
  split at h
  · cases h
  · split at h
    · cases h
    · exact h

end Operations

section Generic

variable {repo : Repository} {P : World → Prop} {names : List Name}

theorem keeps_inspect {α : Type} (f : FileTree → Except Refusal α) : KeepsWorld P (inspect f) :=
  Session.keeps_os (fun _ _ h => h) fun _ h => h

theorem keeps_inspectData {α : Type} (f : DataDir → Exec IoError α) : KeepsWorld P (inspectData f) :=
  Session.keeps_os (fun _ _ h => h) fun _ h => h

theorem keeps_symlinkMetadata : KeepsWorld P (symlinkMetadata repo names) := keeps_inspect _

theorem keeps_isDir : KeepsWorld P (isDir repo names) :=
  .bind (.attempt (keeps_inspect _)) fun _ => .pure _

theorem keeps_isPresent : KeepsWorld P (isPresent repo names) :=
  .bind (.attempt keeps_symlinkMetadata) fun _ => .pure _

theorem keeps_readLink : KeepsWorld P (readLink repo names) := keeps_inspect _

theorem keeps_readFile {env : Env} : KeepsWorld P (readFile env repo names) :=
  .bind (keeps_inspect _) fun _ => .lift _

theorem keeps_verifyRegular {env : Env} {destinations : List (List Name × ObjectChecksum)} :
    KeepsWorld P (verifyRegular env repo destinations) := by
  apply Effect.Keeps.bind (.mapError _)
  · exact fun _ => .lift _
  · exact .runAll fun _ _ => .bind keeps_readFile fun _ => .pure _

theorem keeps_verifyMaterialized {env : Env} {entryPath : PackPath}
    {encoding : SymlinkTargetEncoding} {checksum : ObjectChecksum} :
    KeepsWorld P (verifyMaterialized env repo entryPath names encoding checksum) :=
  .bind (.mapError keeps_readLink) fun _ => .bind (.lift _) fun _ => .lift _

theorem keeps_regularBytes {entry : FileEntry} : KeepsWorld P (regularBytes entry) := by
  unfold regularBytes
  split
  · exact .pure _
  · exact keeps_inspectData _

theorem keeps_reading {α : Type} {x : Exec Error α} : KeepsWorld P (reading x) :=
  .bind (.mapError (keeps_inspect _)) fun _ => .lift _

theorem keeps_createTempPath {env : Env} {dir : List Name} :
    KeepsWorld P (createTempPath env dir) :=
  .asks _

/-- What a step on a path does to the world, where it does something. -/
theorem keeps_runChange {follow : Bool}
    {op : Nat → Place → FileTree → Except Refusal FileTree} {world : World} (hworld : P world)
    (h : ∀ place tree, world.tree.resolve follow repo.path names = .ok place →
      op (world.disk.clock + 1) place world.tree = .ok tree →
      P (world.updated tree [.workTree names place])) :
    P (runChange repo.path follow names op world).2 := by
  unfold runChange
  split
  · exact hworld
  · rename_i place hplace
    split
    · exact hworld
    · rename_i tree htree
      exact h place tree hplace htree

theorem keeps_change {follow : Bool} {op : Nat → Place → FileTree → Except Refusal FileTree}
    (h : ∀ world place tree, P world → world.tree.resolve follow repo.path names = .ok place →
      op (world.disk.clock + 1) place world.tree = .ok tree →
      P (world.updated tree [.workTree names place])) :
    KeepsWorld P (change repo follow names op) :=
  Session.keeps_os (fun _ _ hworld => hworld) fun world hworld =>
    keeps_runChange hworld fun place tree => h world place tree hworld

theorem change_ok {follow : Bool} {op : Nat → Place → FileTree → Except Refusal FileTree}
    {s s' : Session World Fault} (h : change repo follow names op s = (.ok (), s')) :
    ∃ place tree, s.state.tree.resolve follow repo.path names = .ok place ∧
      op (s.state.disk.clock + 1) place s.state.tree = .ok tree ∧
      s'.state = s.state.updated tree [.workTree names place] := by
  have hrun := Session.os_eq_ok h
  unfold runChange at hrun
  split at hrun
  · cases hrun
  · rename_i place hplace
    split at hrun
    · cases hrun
    · rename_i tree htree
      exact ⟨place, tree, hplace, htree, (Prod.mk.inj hrun).2.symm⟩

theorem runRename_ok {base : Place} {source dest : List Name} {world world' : World}
    (h : runRename base source dest world = (.ok (), world')) :
    ∃ sourcePlace destPlace tree, world.tree.resolve false base source = .ok sourcePlace ∧
      world.tree.resolve false base dest = .ok destPlace ∧
      world.tree.move sourcePlace destPlace = .ok tree ∧
      world' = world.updated tree [.workTree source sourcePlace, .workTree dest destPlace] := by
  unfold runRename at h
  split at h
  · rename_i sourcePlace destPlace hsource hdest
    split at h
    · cases h
    · rename_i tree htree
      cases h
      exact ⟨sourcePlace, destPlace, tree, hsource, hdest, htree, rfl⟩
  · cases h
  · cases h

theorem runRename_error {base : Place} {source dest : List Name} {world world' : World}
    {e : Failure IoError} (h : runRename base source dest world = (.error e, world')) :
    world' = world := by
  unfold runRename at h
  split at h
  · split at h <;> cases h
    rfl
  · cases h
    rfl
  · cases h
    rfl

theorem keeps_rename {source dest : List Name}
    (h : ∀ world sourcePlace destPlace tree, P world →
      world.tree.resolve false repo.path source = .ok sourcePlace →
      world.tree.resolve false repo.path dest = .ok destPlace →
      world.tree.move sourcePlace destPlace = .ok tree →
      P (world.updated tree [.workTree source sourcePlace, .workTree dest destPlace])) :
    KeepsWorld P (rename repo source dest) := by
  apply Session.keeps_os (fun _ _ hworld => hworld)
  intro world hworld
  cases hrun : runRename repo.path source dest world with
  | mk result world' =>
    cases result with
    | ok u =>
      obtain ⟨sourcePlace, destPlace, tree, hsource, hdest, htree, rfl⟩ := runRename_ok hrun
      exact h world sourcePlace destPlace tree hworld hsource hdest htree
    | error e =>
      rw [runRename_error hrun]
      exact hworld

theorem keeps_orIsDir {e : IoError} : KeepsWorld P (orIsDir repo names e) := by
  apply Effect.Keeps.bind keeps_isDir
  intro dir
  cases dir with
  | true => exact .pure _
  | false => exact .lift _

theorem keeps_createDirAllFrom (above : List Name)
    (h : ∀ ns, ns <:+ above → KeepsWorld P (createDir repo ns.reverse)) :
    KeepsWorld P (createDirAllFrom repo above) := by
  induction above with
  | nil =>
    apply Effect.Keeps.orElse (h [] List.suffix_rfl)
    intro e y hy
    cases hy
    exact keeps_orIsDir
  | cons name above ih =>
    have hhere := h (name :: above) List.suffix_rfl
    apply Effect.Keeps.orElse hhere
    intro e y hy
    split at hy
    · cases hy
      apply Effect.Keeps.bind (ih fun ns hns => h ns (hns.trans (List.suffix_cons _ _)))
      intro _
      apply Effect.Keeps.orElse hhere
      intro e y hy
      cases hy
      exact keeps_orIsDir
    · cases hy
      exact keeps_orIsDir

theorem keeps_createDirAll (h : ∀ ns, ns <+: names → KeepsWorld P (createDir repo ns)) :
    KeepsWorld P (createDirAll repo names) := by
  apply keeps_createDirAllFrom
  intro ns hns
  apply h
  rw [← List.reverse_reverse names]
  exact List.reverse_prefix.mpr hns

theorem keeps_removeEmptyDirsFrom (above : List Name)
    (h : ∀ ns, ns <:+ above → ns ≠ [] → KeepsWorld P (removeDir repo ns.reverse)) :
    KeepsWorld P (removeEmptyDirsFrom repo above) := by
  induction above with
  | nil => exact .pure _
  | cons name above ih =>
    apply Effect.Keeps.bind (.attempt (h _ List.suffix_rfl (List.cons_ne_nil _ _)))
    intro result
    cases result with
    | ok u => exact ih fun ns hns => h ns (hns.trans (List.suffix_cons _ _))
    | error e =>
      simp only
      split
      · exact .pure _
      · exact .lift _

theorem keeps_removeEmptyDirs
    (h : ∀ ns, ns <+: names → ns ≠ [] → KeepsWorld P (removeDir repo ns)) :
    KeepsWorld P (removeEmptyDirs repo names) := by
  apply keeps_removeEmptyDirsFrom
  intro ns hns hne
  apply h
  · rw [← List.reverse_reverse names]
    exact List.reverse_prefix.mpr hns
  · simpa using hne

theorem below_namesFrom {base p : Place} (hp : base.below names <:+ p) :
    base.below (names ++ namesFrom (base.below names) p) = p := by
  obtain ⟨front, rfl⟩ := hp
  rw [Place.below_append, namesFrom, Place.below]
  simp

theorem runRemoveAt_ok {place p : Place} {world world' : World}
    (h : runRemoveAt names place p world = (.ok (), world')) :
    ∃ tree, Erases world.tree tree p ∧
      world' = world.updated tree [.workTree (names ++ namesFrom place p) p] := by
  unfold runRemoveAt at h
  simp only at h
  split at h
  · cases h
  · rename_i tree htree
    cases h
    refine ⟨tree, ?_, rfl⟩
    split at htree
    · exact rmdir_erases htree
    · exact unlink_erases htree

theorem runRemoveAt_error {place p : Place} {world world' : World} {e : Failure IoError}
    (h : runRemoveAt names place p world = (.error e, world')) : world' = world := by
  unfold runRemoveAt at h
  simp only at h
  split at h <;> cases h
  rfl

/-- A property that stays where what some names lead to is taken away. -/
def KeptAt (repo : Repository) (P : World → Prop) (names : List Name) : Prop :=
  ∀ world tree, P world → Erases world.tree tree (repo.path.below names) →
    P (world.updated tree [.workTree names (repo.path.below names)])

/-- A property that stays where what is at or below some names is taken away. -/
def KeptBelow (repo : Repository) (P : World → Prop) (names : List Name) : Prop :=
  ∀ ns, names <+: ns → KeptAt repo P ns

theorem keeps_removeEach (h : KeptBelow repo P names) {places : List Place}
    (hplaces : ∀ p ∈ places, repo.path.below names <:+ p) :
    KeepsWorld P (removeEach names (repo.path.below names) places) := by
  induction places with
  | nil => exact .pure _
  | cons p rest ih =>
    have hp := hplaces p List.mem_cons_self
    refine Effect.Keeps.bind ?_ fun _ => ih fun q hq => hplaces q (List.mem_cons_of_mem _ hq)
    apply Session.keeps_os (fun _ _ hworld => hworld)
    intro world hworld
    cases hrun : runRemoveAt names (repo.path.below names) p world with
    | mk result world' =>
      cases result with
      | error e =>
        rw [runRemoveAt_error hrun]
        exact hworld
      | ok u =>
        obtain ⟨tree, herases, rfl⟩ := runRemoveAt_ok hrun
        have hkept := h (names ++ namesFrom (repo.path.below names) p) (List.prefix_append _ _)
          world tree hworld
        rw [below_namesFrom hp] at hkept
        exact hkept herases

/-- The files of a repository that an extraction may write: HEAD, a temporary file and
packs that are fetched. -/
inductive RepositoryFile : List Name → Prop
  | temporary : RepositoryFile ["trash".toUTF8.toList]
  | head : RepositoryFile ["HEAD".toUTF8.toList]
  | pack (pack : PackId) : RepositoryFile [packsDir, pack.packPath.toUTF8.toList]

/-- A property that says nothing about the files of the repository itself. -/
def DiskFree (P : World → Prop) : Prop :=
  ∀ world disk files, (∀ names ∈ files, RepositoryFile names) → P world →
    P { world with disk := disk, touched := world.touched ++ List.map Touch.repository files }

theorem keeps_onDisk {α : Type} (hP : DiskFree P) {files : List (List Name)}
    (hfiles : ∀ names ∈ files, RepositoryFile names) {x : Call α} :
    KeepsWorld P (onDisk files x) :=
  Effect.Keeps.of_state fun s hs => hP s.state _ files hfiles hs

theorem keeps_updateRemotePack {env : Env} {pack : PackId} (hP : DiskFree P) :
    KeepsWorld P (updateRemotePack env pack) := by
  apply keeps_onDisk hP
  intro names hnames
  rw [List.mem_singleton.mp hnames]
  exact .pack pack

theorem keeps_updateHead {snapshot : SnapshotId} (hP : DiskFree P) :
    KeepsWorld P (updateHead repo snapshot) := by
  unfold updateHead
  split
  · exact .pure _
  · apply keeps_onDisk hP
    intro names hnames
    rcases List.mem_cons.mp hnames with rfl | hnames
    · exact .temporary
    · rw [List.mem_singleton.mp hnames]
      exact .head

/-- A pack that is opened is one that the environment has. -/
theorem openPack_known {env : Env} {pack : PackId} :
    Effect.Triple (fun s : Session World Fault => P s.state) (openPack env pack)
      (fun opened s => P s.state ∧ ∃ dataDir, env.openPack dataDir pack = .ok opened)
      fun s => P s.state := by
  apply Effect.Triple.bind (Effect.Keeps.mapError (keeps_inspect (P := P) _))
  intro _
  apply Effect.Triple.intro
  · intro s s' opened hs hrun
    obtain ⟨hopen, rfl⟩ := Effect.asks_eq_ok.mp hrun
    exact ⟨hs, _, hopen⟩
  · intro s s' e hs hrun
    exact (Effect.Keeps.asks (P := fun s => P s.state) _).error hs hrun

theorem obtainPack_known {env : Env} {pack : PackId} (hP : DiskFree P) :
    Effect.Triple (fun s : Session World Fault => P s.state) (obtainPack env pack)
      (fun opened s => P s.state ∧ ∃ dataDir, env.openPack dataDir pack = .ok opened)
      fun s => P s.state := by
  apply Effect.Triple.orElse openPack_known
  intro e y hy
  cases hy
  exact Effect.Triple.bind (keeps_updateRemotePack hP) fun _ => openPack_known

theorem refuse_eq_ok {α : Type} {x : Except Refusal α} {a : α} (h : refuse x = .ok a) :
    x = .ok a := by
  cases x with
  | ok b =>
    cases h
    rfl
  | error e => cases h

theorem inspect_ok {α : Type} {f : FileTree → Except Refusal α} {s s' : Session World Fault} {a : α}
    (h : inspect f s = (.ok a, s')) : f s.state.tree = .ok a ∧ s'.state = s.state := by
  have hrun := Session.os_eq_ok h
  obtain ⟨hresult, hstate⟩ := Prod.mk.inj hrun
  exact ⟨refuse_eq_ok hresult, hstate.symm⟩

/-- A look at the tree fails with a fault, or for a reason that is in the tree. -/
theorem inspect_fails {α : Type} {f : FileTree → Except Refusal α} {s s' : Session World Fault}
    {e : IoError} (h : inspect f s = (.error (.error e), s')) :
    (∃ fault, e = faultError fault) ∨
      ∃ refusal, f s.state.tree = .error refusal ∧ s'.state = s.state ∧
        e = Refusal.toIoError refusal := by
  rcases Session.os_fails h with ⟨fault, hfault⟩ | hrun
  · exact .inl ⟨fault, Failure.error.inj hfault⟩
  · obtain ⟨hresult, hstate⟩ := Prod.mk.inj hrun
    cases hf : f s.state.tree with
    | ok a =>
      rw [hf] at hresult
      cases hresult
    | error refusal =>
      rw [hf] at hresult
      exact .inr ⟨refusal, rfl, hstate.symm, (Failure.error.inj (Except.error.inj hresult)).symm⟩

/-- What a look at the tree found out. -/
theorem inspect_fact {α : Type} {f : FileTree → Except Refusal α} (known : α → World → Prop)
    (h : ∀ world a, P world → f world.tree = .ok a → known a world) :
    Effect.Triple (fun s : Session World Fault => P s.state) (inspect f)
      (fun a s => P s.state ∧ known a s.state) fun s => P s.state := by
  apply Effect.Triple.intro
  · intro s s' a hs hrun
    obtain ⟨hresult, hstate⟩ := inspect_ok hrun
    rw [hstate]
    exact ⟨hs, h s.state a hs hresult⟩
  · intro s s' e hs hrun
    exact (keeps_inspect f).error hs hrun

/-- A path that leads to the place it names. -/
def LeadsTo (repo : Repository) (P : World → Prop) (follow : Bool) (names : List Name) : Prop :=
  ∀ world place, P world → world.tree.resolve follow repo.path names = .ok place →
    place = repo.path.below names

theorem mem_subtree {tree : FileTree} {place p : Place} :
    p ∈ subtree tree place ↔ (tree.lookup p).isSome ∧ place <:+ p := by
  rw [subtree, List.mem_insertionSort, List.mem_filter, decide_eq_true_eq, FileTree.lookup,
    AList.lookup_isSome, AList.mem_keys]

theorem keeps_removeFile (hleads : LeadsTo repo P false names) (h : KeptAt repo P names) :
    KeepsWorld P (removeFile repo names) := by
  apply keeps_change
  intro world place tree hworld hresolve hop
  rw [hleads world place hworld hresolve] at hop ⊢
  exact h world tree hworld (unlink_erases hop)

theorem keeps_removeDir (hleads : LeadsTo repo P false names) (h : ∀ world tree, P world →
    world.tree.lookup (repo.path.below names) = some .dir →
    Erases world.tree tree (repo.path.below names) →
    P (world.updated tree [.workTree names (repo.path.below names)])) :
    KeepsWorld P (removeDir repo names) := by
  apply keeps_change
  intro world place tree hworld hresolve hop
  rw [hleads world place hworld hresolve] at hop ⊢
  exact h world tree hworld (FileTree.rmdir_ok hop).1 (rmdir_erases hop)

theorem keeps_removeLeaf (hleads : LeadsTo repo P false names) (h : KeptAt repo P names) :
    KeepsWorld P (removeLeaf repo names) := by
  apply Effect.Keeps.orElse
  · apply Effect.Keeps.bind keeps_symlinkMetadata
    intro node
    cases node with
    | dir => exact keeps_removeDir hleads fun world tree hworld _ => h world tree hworld
    | file bytes mode mtime => exact keeps_removeFile hleads h
    | link target mtime => exact keeps_removeFile hleads h
  · intro e y hy
    split at hy
    · cases hy
      exact .pure _
    · cases hy

theorem keeps_removeDirAll (hleads : LeadsTo repo P false names) (h : KeptBelow repo P names) :
    KeepsWorld P (removeDirAll repo names) := by
  apply Effect.Keeps.bind keeps_symlinkMetadata
  intro node
  cases node with
  | link target mtime => exact keeps_removeFile hleads (h names List.prefix_rfl)
  | file bytes mode mtime => exact .lift _
  | dir =>
    apply Effect.Triple.bind_fact (inspect_fact (fun place _ => place = repo.path.below names)
      fun world place hworld hplace => hleads world place hworld hplace)
    intro place hplace
    subst hplace
    apply Effect.Triple.bind_fact (inspect_fact
      (f := fun tree => .ok (subtree tree (repo.path.below names)))
      (fun (places : List Place) _ => ∀ p ∈ places, repo.path.below names <:+ p)
      fun world places _ hplaces p hp => by
        rw [← Except.ok.inj hplaces] at hp
        exact (mem_subtree.mp hp).2)
    intro places hplaces
    exact keeps_removeEach h hplaces

/-- A property that stays where something that is not a link comes to a path. -/
def PlacedAt (repo : Repository) (P : World → Prop) (names : List Name) : Prop :=
  ∀ world tree, P world → Places world.tree tree (repo.path.below names) →
    P (world.updated tree [.workTree names (repo.path.below names)])

theorem PlacedAt.kept (h : PlacedAt repo P names) : KeptAt repo P names :=
  fun world tree hworld herases => h world tree hworld herases.places

theorem keeps_createFile {mode : UInt32} (hleads : LeadsTo repo P true names)
    (h : PlacedAt repo P names) : KeepsWorld P (createFile repo names mode) := by
  apply Effect.Keeps.bind
  · apply keeps_change
    intro world place tree hworld hresolve hop
    rw [hleads world place hworld hresolve] at hop ⊢
    exact h world tree hworld (openTruncated_places hop)
  · intro _
    apply keeps_change
    intro world place tree hworld hresolve hop
    rw [hleads world place hworld hresolve] at hop ⊢
    exact h world tree hworld (chmod_places hop)

theorem keeps_copyInto {bytes : List UInt8} (hleads : LeadsTo repo P true names)
    (h : PlacedAt repo P names) : KeepsWorld P (copyInto repo names bytes) := by
  have hfill : ∀ world bytes, P world →
      P (runChange repo.path true names (fillFile bytes) world).2 := by
    intro world bytes hworld
    apply keeps_runChange hworld
    intro place tree hresolve hop
    rw [hleads world place hworld hresolve] at hop ⊢
    exact h world tree hworld (fillFile_places hop)
  exact Session.keeps_os (fun fault world => hfill world _) fun world => hfill world bytes

theorem keeps_discard {temporary : List Name} {x : FsCall Unit} (hx : KeepsWorld P x)
    (hleads : LeadsTo repo P false temporary) (h : KeptAt repo P temporary) :
    KeepsWorld P (discard repo temporary x) := by
  apply Effect.Keeps.orElse hx
  intro e y hy
  cases hy
  apply Effect.Keeps.bind
  · apply Effect.Keeps.orElse (keeps_removeFile hleads h)
    intro e y hy
    cases hy
    exact .pure _
  · exact fun _ => .lift _

theorem keeps_replace {temporary destination : List Name}
    (hrename : KeepsWorld P (rename repo temporary destination))
    (hleads : LeadsTo repo P false destination) (h : KeptAt repo P destination) :
    KeepsWorld P (replace repo temporary destination) := by
  apply Effect.Keeps.orElse hrename
  intro e y hy
  cases hy
  apply Effect.Keeps.bind keeps_isPresent
  intro present
  cases present with
  | true => exact .bind (keeps_removeLeaf hleads h) fun _ => hrename
  | false => exact .lift _

end Generic

end Elfshaker.Checkout
