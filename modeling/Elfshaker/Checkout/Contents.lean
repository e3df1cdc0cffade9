import Elfshaker.Checkout.Writes

namespace Elfshaker.Checkout

open Elfshaker.Library Elfshaker.Format Elfshaker.Store Elfshaker.Packs

section Steps

variable {repo : Repository} {C H : World → Prop} {names : List Name}

theorem runChange_error {base : Place} {follow : Bool}
    {op : Nat → Place → FileTree → Except Refusal FileTree} {world world' : World}
    {e : Failure IoError} (h : runChange base follow names op world = (.error e, world')) :
    world' = world := by
  unfold runChange at h
  split at h
  · cases h
    rfl
  · split at h <;> cases h
    rfl

/-- Of a step that keeps one property, only what it does to the tree matters for another. -/
theorem keeps_change_with {follow : Bool} {op : Nat → Place → FileTree → Except Refusal FileTree}
    (keeps : KeepsWorld C (change repo follow names op))
    (h : ∀ world place tree, C world → H world →
      world.tree.resolve follow repo.path names = .ok place →
      op (world.disk.clock + 1) place world.tree = .ok tree →
      H (world.updated tree [.workTree names place])) :
    KeepsWorld (fun world => C world ∧ H world) (change repo follow names op) := by
  apply Effect.Triple.intro
  · intro s s' u hs hrun
    obtain ⟨place, tree, hresolve, hop, hstate⟩ := change_ok hrun
    refine ⟨keeps.ok hs.1 hrun, ?_⟩
    rw [hstate]
    exact h s.state place tree hs.1 hs.2 hresolve hop
  · intro s s' e hs hrun
    refine ⟨keeps.error hs.1 hrun, ?_⟩
    rcases Session.os_error hrun with hstate | herror
    · rw [hstate]
      exact hs.2
    · rw [runChange_error herror]
      exact hs.2

theorem inspectData_ok {α : Type} {f : DataDir → Exec IoError α} {s s' : Session World Fault}
    {a : α} (h : inspectData f s = (.ok a, s')) :
    f s.state.disk.dataDir = .ok a ∧ s'.state = s.state := by
  have hrun := Session.os_eq_ok h
  obtain ⟨hresult, hstate⟩ := Prod.mk.inj hrun
  exact ⟨hresult, hstate.symm⟩

/-- A call that fails after a temporary file was removed does not succeed. -/
theorem discard_ok {temporary : List Name} {x : FsCall Unit} {s s' : Session World Fault}
    (h : discard repo temporary x s = (.ok (), s')) : x s = (.ok (), s') := by
  rcases Effect.orElse_eq_ok.mp h with hx | ⟨e, t, y, -, hy, hrun⟩
  · exact hx
  · cases hy
    obtain ⟨_, t', -, hfail⟩ := Effect.bind_eq_ok.mp hrun
    cases (Effect.lift_eq_ok.mp hfail).1

end Steps

section Operations

variable {t t' : FileTree} {place : Place} {now : Nat}

theorem openTruncated_ok (h : openTruncated now place t = .ok t') :
    ∃ mode mtime, t'.lookup place = some (.file [] mode mtime) := by
  unfold openTruncated at h
  split at h
  · obtain ⟨-, -, hlookup⟩ := FileTree.add_ok h
    exact ⟨defaultMode, now, by rw [hlookup, if_pos rfl]⟩
  · rename_i mode _ _
    obtain ⟨-, hlookup⟩ := FileTree.alter_ok h
    exact ⟨mode, now, by rw [hlookup, if_pos rfl]⟩
  · cases h
  · cases h

theorem chmod_ok {mode : UInt32} (h : chmod mode place t = .ok t') :
    ∃ bytes old mtime, t.lookup place = some (.file bytes old mtime) ∧
      t'.lookup place = some (.file bytes (Fin.ofNat 4096 mode.toNat) mtime) := by
  unfold chmod at h
  split at h
  · rename_i bytes old mtime hfile
    obtain ⟨-, hlookup⟩ := FileTree.alter_ok h
    exact ⟨bytes, old, mtime, hfile, by rw [hlookup, if_pos rfl]⟩
  · cases h
  · cases h

theorem fillFile_ok {bytes : List UInt8} (h : fillFile bytes now place t = .ok t') :
    ∃ old mode mtime, t.lookup place = some (.file old mode mtime) ∧
      t'.lookup place = some (.file bytes mode now) := by
  unfold fillFile at h
  split at h
  · rename_i old mode mtime hfile
    obtain ⟨-, hlookup⟩ := FileTree.alter_ok h
    exact ⟨old, mode, mtime, hfile, by rw [hlookup, if_pos rfl]⟩
  · cases h
  · cases h

theorem makeLink_ok {target : List UInt8} (h : makeLink target now place t = .ok t') :
    t'.lookup place = some (.link target now) := by
  obtain ⟨-, -, hlookup⟩ := FileTree.add_ok (makeLink_adds h)
  rw [hlookup, if_pos rfl]

end Operations

section Sparing

/-- A property of trees that stays where one output is written, with directories on the way
to it. -/
structure Spared (repo : Repository) (q : List Name) (H : FileTree → Prop) : Prop where
  parents : ∀ t t' ns, ns <+: q.dropLast → t.add (repo.path.below ns) .dir = .ok t' → H t → H t'
  output : ∀ t t', (∀ p, p ≠ repo.path.below q → t'.lookup p = t.lookup p) → H t → H t'

theorem Spared.and {repo : Repository} {q : List Name} {H H' : FileTree → Prop}
    (h : Spared repo q H) (h' : Spared repo q H') : Spared repo q fun t => H t ∧ H' t where
  parents := fun t t' ns hns hadd ht =>
    ⟨h.parents t t' ns hns hadd ht.1, h'.parents t t' ns hns hadd ht.2⟩
  output := fun t t' hsame ht => ⟨h.output t t' hsame ht.1, h'.output t t' hsame ht.2⟩

theorem Spared.trivial {repo : Repository} {q : List Name} : Spared repo q fun _ => True :=
  ⟨fun _ _ _ _ _ _ => True.intro, fun _ _ _ _ => True.intro⟩

theorem Spared.all {repo : Repository} {q : List Name} {ι : Type}
    {I : ι → Prop} {H : ι → FileTree → Prop} (h : ∀ i, I i → Spared repo q (H i)) :
    Spared repo q fun t => ∀ i, I i → H i t where
  parents := fun t t' ns hns hadd ht i hi => (h i hi).parents t t' ns hns hadd (ht i hi)
  output := fun t t' hsame ht i hi => (h i hi).output t t' hsame (ht i hi)

/-- What another place holds is spared. -/
theorem Spared.holds {repo : Repository} {q ns : List Name} (hne : ns ≠ q)
    (R : FileNode → Prop) :
    Spared repo q fun t => ∃ node, t.lookup (repo.path.below ns) = some node ∧ R node where
  parents := by
    rintro t t' above - hadd ⟨node, hnode, hR⟩
    obtain ⟨hfree, -, hlookup⟩ := FileTree.add_ok hadd
    refine ⟨node, ?_, hR⟩
    rw [hlookup, if_neg, hnode]
    intro heq
    rw [← heq, hnode] at hfree
    cases hfree
  output := by
    rintro t t' hsame ⟨node, hnode, hR⟩
    exact ⟨node, by rw [hsame _ fun heq => hne (Place.below_injective heq), hnode], hR⟩

/-- A tree of which any node is a kept one, at an output, or a directory on the way to one. -/
def Within (repo : Repository) (outputs : List (List Name)) (kept : Place → FileNode → Prop)
    (t : FileTree) : Prop :=
  ∀ p node, t.lookup p = some node → kept p node ∨ (∃ q ∈ outputs, p = repo.path.below q) ∨
    node = .dir ∧ ∃ q ∈ outputs, ∃ ns, p = repo.path.below ns ∧ ns <+: q ∧ ns ≠ q

theorem Spared.within {repo : Repository} {outputs : List (List Name)} {q : List Name}
    (hq : q ∈ outputs) (named : q ≠ []) (kept : Place → FileNode → Prop) :
    Spared repo q (Within repo outputs kept) where
  parents := by
    intro t t' ns hns hadd ht p node hnode
    obtain ⟨-, -, hlookup⟩ := FileTree.add_ok hadd
    rw [hlookup] at hnode
    split at hnode
    · rename_i heq
      exact .inr (.inr ⟨(Option.some.inj hnode).symm, q, hq, ns, heq, proper_of_dropLast named hns⟩)
    · exact ht p node hnode
  output := by
    intro t t' hsame ht p node hnode
    by_cases heq : p = repo.path.below q
    · exact .inr (.inl ⟨q, hq, heq⟩)
    · rw [hsame p heq] at hnode
      exact ht p node hnode

variable (repo : Repository) (before : FileTree) (Ok : List Name → Prop)
  (paths : List (List Name)) (noted : List Name → Prop) (H : FileTree → Prop) (D : DataDir → Prop)

/-- A world with clear ways, and a property of its data directory. -/
def Passable (world : World) : Prop :=
  Clear repo before Ok paths noted world ∧ D world.disk.dataDir

/-- Such a world with a property of its tree. -/
def Sparing (world : World) : Prop :=
  Clear repo before Ok paths noted world ∧ H world.tree ∧ D world.disk.dataDir

/-- Such a world with something of a kind under some names. -/
def SparingWith (ns : List Name) (R : FileNode → Prop) (world : World) : Prop :=
  Sparing repo before Ok paths noted H D world ∧
    ∃ node, world.tree.lookup (repo.path.below ns) = some node ∧ R node

end Sparing

section Writes

variable {env : Env} {repo : Repository} {before : FileTree} {Ok noted : List Name → Prop}
  {paths : List (List Name)} {q : List Name} {H : FileTree → Prop} {D : DataDir → Prop}

theorem Sparing.updated {world : World} {tree : FileTree} {touch : List Touch}
    (h : Sparing repo before Ok paths noted H D world)
    (clear : Clear repo before Ok paths noted (world.updated tree touch)) (hH : H tree) :
    Sparing repo before Ok paths noted H D (world.updated tree touch) :=
  ⟨clear, hH, h.2.2⟩

theorem Sparing.passable {world : World} (h : Sparing repo before Ok paths noted H D world) :
    Passable repo before Ok paths noted D world :=
  ⟨h.1, h.2.2⟩

/-- A call that may have any property of trees spared keeps the ways clear. -/
theorem keeps_passable {ε α : Type} {x : Effect (Session World Fault) ε α}
    {Q : α → Session World Fault → Prop} (h : Effect.Triple (fun s : Session World Fault =>
      Sparing repo before Ok paths noted (fun _ => True) D s.state) x Q
      fun s => Passable repo before Ok paths noted D s.state)
    (hQ : ∀ a s, Q a s → Passable repo before Ok paths noted D s.state) :
    KeepsWorld (Passable repo before Ok paths noted D) x :=
  h.weaken (fun _ hs => ⟨hs.1, trivial, hs.2⟩) hQ fun _ hs => hs

/-- A property that stays where a temporary file and an output change. -/
def Beside (repo : Repository) (q : List Name) (H : FileTree → Prop) (temporary : List Name) :
    Prop :=
  ∀ t t', (∀ p, p ≠ repo.path.below temporary → p ≠ repo.path.below q →
    t'.lookup p = t.lookup p) → H t → H t'

/-- A tree that differs from another one in a temporary file and an output only. -/
def Around (repo : Repository) (q temporary : List Name) (t t' : FileTree) : Prop :=
  ∀ p, p ≠ repo.path.below temporary → p ≠ repo.path.below q → t'.lookup p = t.lookup p

theorem around_beside {temporary : List Name} {t : FileTree} :
    Beside repo q (Around repo q temporary t) temporary :=
  fun _ _ hsame ht p hp hq => (hsame p hp hq).trans (ht p hp hq)

/-- Once the temporary file is gone, only the output has changed. -/
theorem Around.spared {temporary : List Name} {t t' : FileTree} (h : Around repo q temporary t t')
    (spared : Spared repo q H) (hfree : t.lookup (repo.path.below temporary) = none)
    (hgone : t'.lookup (repo.path.below temporary) = none) (ht : H t) : H t' := by
  refine spared.output t t' (fun p hp => ?_) ht
  by_cases heq : p = repo.path.below temporary
  · rw [heq, hfree, hgone]
  · exact h p heq hp

section Output

variable (rooted : Rooted repo before Ok) (out : Outputs env repo before Ok paths) (hq : q ∈ paths)
include rooted out hq

theorem keeps_parents (spared : Spared repo q H) :
    KeepsWorld (Sparing repo before Ok paths noted H D) (createDirAll repo q.dropLast) := by
  apply keeps_createDirAll
  intro ns hns
  have hstarts := hns.trans (List.dropLast_prefix q)
  have hleads : LeadsTo repo (Clear repo before Ok paths noted) false ns :=
    leadsTo_above rooted hq hstarts
  apply keeps_change_with (Safe.keeps_createDir hleads (out.above q hq ns hstarts))
  rintro world place tree hclear ⟨hH, hD⟩ hresolve hop
  rw [hleads world place hclear hresolve] at hop
  exact ⟨spared.parents _ _ ns hns hop hH, hD⟩

theorem parents_hold (spared : Spared repo q H) : Effect.Triple
    (fun s : Session World Fault => Sparing repo before Ok paths noted H D s.state)
    (createDirAll repo q.dropLast)
    (fun _ s => Sparing repo before Ok paths noted H D s.state)
    fun s => Passable repo before Ok paths noted D s.state :=
  (keeps_parents rooted out hq spared).mono_error fun _ hs => hs.passable

omit rooted in
/-- A temporary path is a new one, in a tree that stays around its file. -/
theorem temporary_around : Effect.Triple
    (fun s : Session World Fault => Sparing repo before Ok paths noted H D s.state)
    (createTempPath env q.dropLast)
    (fun temporary s => (∃ t, (H t ∧ t.lookup (repo.path.below temporary) = none) ∧
      Sparing repo before Ok paths noted (Around repo q temporary t) D s.state ∧
      s.state.tree.lookup (repo.path.below temporary) = none) ∧
      ∃ tree, temporary = q.dropLast ++ [env.randomName tree] ∧ Ok temporary)
    fun s => Passable repo before Ok paths noted D s.state := by
  apply Effect.Triple.of_run
  intro s hs
  have htemporary : Effect.Triple
      (fun s : Session World Fault => Clear repo before Ok paths noted s.state)
      (createTempPath env q.dropLast) _ _ := temporary_ok out hq
  obtain ⟨⟨-, hfree⟩, tree, htree, hok⟩ := htemporary.run hs.1
  exact ⟨⟨s.state.tree, ⟨hs.2.1, hfree⟩, ⟨hs.1, fun _ _ _ => rfl, hs.2.2⟩, hfree⟩, tree, htree,
    hok⟩

variable {name : Name} (hok : Ok (q.dropLast ++ [name]))
  (beside : Beside repo q H (q.dropLast ++ [name]))

omit rooted out hq in
theorem Beside.at_temporary (beside : Beside repo q H (q.dropLast ++ [name])) {t t' : FileTree}
    (h : ∀ p, p ≠ repo.path.below (q.dropLast ++ [name]) → t'.lookup p = t.lookup p) (ht : H t) :
    H t' :=
  beside t t' (fun p hp _ => h p hp) ht

omit rooted out hq in
theorem Beside.at_output (beside : Beside repo q H (q.dropLast ++ [name])) {t t' : FileTree}
    (h : ∀ p, p ≠ repo.path.below q → t'.lookup p = t.lookup p) (ht : H t) : H t' :=
  beside t t' (fun p _ hp => h p hp) ht

/-- A world where a temporary file is not a link. -/
def SparingFile (repo : Repository) (before : FileTree) (Ok : List Name → Prop)
    (paths : List (List Name)) (noted : List Name → Prop) (H : FileTree → Prop) (D : DataDir → Prop)
    (temporary : List Name) (world : World) : Prop :=
  Sparing repo before Ok paths noted H D world ∧
    ∀ node, world.tree.lookup (repo.path.below temporary) = some node → node.isLink = false

include beside hok in
omit rooted out hq in
theorem sparingFile_placedAt : PlacedAt repo
    (SparingFile repo before Ok paths noted H D (q.dropLast ++ [name])) (q.dropLast ++ [name]) :=
  fun _ _ hworld hplaces => ⟨hworld.1.updated (hworld.1.1.places hok hplaces)
    (beside.at_temporary hplaces.others hworld.1.2.1), hplaces.noLink⟩

theorem sparingFile_leadsTo {follow : Bool} : LeadsTo repo
    (SparingFile repo before Ok paths noted H D (q.dropLast ++ [name])) follow
    (q.dropLast ++ [name]) :=
  fun world place hworld hresolve =>
    clearBeside_leadsTo rooted out hq world place ⟨hworld.1.1, hworld.2⟩ hresolve

/-- A file with these bytes and these permissions. -/
def IsFile (bytes : List UInt8) (mode : Permissions) (node : FileNode) : Prop :=
  ∃ mtime, node = .file bytes mode mtime

include beside hok

theorem createFile_holds {mode : UInt32} : Effect.Triple
    (fun s : Session World Fault =>
      SparingFile repo before Ok paths noted H D (q.dropLast ++ [name]) s.state)
    (createFile repo (q.dropLast ++ [name]) mode)
    (fun _ s => SparingFile repo before Ok paths noted H D (q.dropLast ++ [name]) s.state ∧
      ∃ node, s.state.tree.lookup (repo.path.below (q.dropLast ++ [name])) = some node ∧
        IsFile [] (Fin.ofNat 4096 mode.toNat) node)
    fun s => SparingFile repo before Ok paths noted H D (q.dropLast ++ [name]) s.state := by
  have hplaced : PlacedAt repo (SparingFile repo before Ok paths noted H D _) _ :=
    sparingFile_placedAt hok beside
  have hleads : LeadsTo repo (SparingFile repo before Ok paths noted H D
    (q.dropLast ++ [name])) true (q.dropLast ++ [name]) := sparingFile_leadsTo rooted out hq
  have hopens : KeepsWorld (SparingFile repo before Ok paths noted H D (q.dropLast ++ [name]))
      (change repo true (q.dropLast ++ [name]) openTruncated) := by
    apply keeps_change
    intro world place tree hworld hresolve hop
    rw [hleads world place hworld hresolve] at hop ⊢
    exact hplaced world tree hworld (openTruncated_places hop)
  apply Effect.Triple.intro
  · intro s s' u hs hrun
    refine ⟨(keeps_createFile hleads hplaced).ok hs hrun, ?_⟩
    obtain ⟨_, t, hopen, hchmod⟩ := Effect.bind_eq_ok.mp hrun
    obtain ⟨place, tree, hresolve, hop, hstate⟩ := change_ok hopen
    rw [hleads s.state place hs hresolve] at hop
    obtain ⟨_, _, hempty⟩ := openTruncated_ok hop
    obtain ⟨place', tree', hresolve', hop', hstate'⟩ := change_ok hchmod
    rw [hleads t.state place' (hopens.ok hs hopen) hresolve'] at hop'
    obtain ⟨bytes, _, mtime, hold, hnew⟩ := chmod_ok hop'
    rw [hstate, World.updated_tree, hempty] at hold
    cases hold
    exact ⟨_, by rw [hstate', World.updated_tree, hnew], _, rfl⟩
  · intro s s' e hs hrun
    exact (keeps_createFile hleads hplaced).error hs hrun

theorem copyInto_holds {bytes : List UInt8} {mode : Permissions} : Effect.Triple
    (fun s : Session World Fault =>
      SparingFile repo before Ok paths noted H D (q.dropLast ++ [name]) s.state ∧
      ∃ node, s.state.tree.lookup (repo.path.below (q.dropLast ++ [name])) = some node ∧
        IsFile [] mode node)
    (discard repo (q.dropLast ++ [name]) (copyInto repo (q.dropLast ++ [name]) bytes))
    (fun _ s => SparingWith repo before Ok paths noted H D (q.dropLast ++ [name])
      (IsFile bytes mode) s.state)
    fun s => Sparing repo before Ok paths noted H D s.state := by
  have hplaced : PlacedAt repo (SparingFile repo before Ok paths noted H D _) _ :=
    sparingFile_placedAt hok beside
  have hleads (follow : Bool) : LeadsTo repo (SparingFile repo before Ok paths noted H D
    (q.dropLast ++ [name])) follow (q.dropLast ++ [name]) := sparingFile_leadsTo rooted out hq
  have hkeeps : KeepsWorld (SparingFile repo before Ok paths noted H D (q.dropLast ++ [name]))
      (discard repo (q.dropLast ++ [name]) (copyInto repo (q.dropLast ++ [name]) bytes)) :=
    keeps_discard (keeps_copyInto (hleads true) hplaced) (hleads false) hplaced.kept
  apply Effect.Triple.intro
  · rintro s s' u ⟨hs, node, hnode, mtime, rfl⟩ hrun
    refine ⟨(hkeeps.ok hs hrun).1, ?_⟩
    have hcopy := Session.os_eq_ok (discard_ok hrun)
    unfold runChange at hcopy
    split at hcopy
    · cases hcopy
    · rename_i place hresolve
      rw [hleads true s.state place hs hresolve] at hcopy
      split at hcopy
      · cases hcopy
      · rename_i tree hop
        obtain ⟨_, hstate⟩ := Prod.mk.inj hcopy
        obtain ⟨old, mode', mtime', hold, hnew⟩ := fillFile_ok hop
        rw [hnode] at hold
        cases hold
        exact ⟨_, by rw [← hstate, World.updated_tree, hnew], _, rfl⟩
  · rintro s s' e ⟨hs, -⟩ hrun
    exact (hkeeps.error hs hrun).1

variable {R : FileNode → Prop}

variable (hne : q.dropLast ++ [name] ≠ q)
include hne

/-- What is renamed is at the output then, and no longer where it was. -/
theorem rename_holds : Effect.Triple
    (fun s : Session World Fault =>
      SparingWith repo before Ok paths noted H D (q.dropLast ++ [name]) R s.state)
    (rename repo (q.dropLast ++ [name]) q)
    (fun _ s => SparingWith repo before Ok paths noted H D q R s.state ∧
      s.state.tree.lookup (repo.path.below (q.dropLast ++ [name])) = none)
    fun s => SparingWith repo before Ok paths noted H D (q.dropLast ++ [name]) R s.state := by
  apply Effect.Triple.intro
  · rintro s s' u ⟨hs, node, hnode, hR⟩ hrun
    obtain ⟨sourcePlace, destPlace, tree, hsource, hdest, hmove, hstate⟩ :=
      runRename_ok (Session.os_eq_ok hrun)
    have hclear := rename_clear rooted out hq hok hs.1 hsource hdest hmove
    rw [leadsTo_beside rooted out hq s.state sourcePlace hs.1 hsource] at hmove hstate hclear
    rw [leadsTo_above rooted hq List.prefix_rfl s.state destPlace hs.1 hdest] at hmove hstate hclear
    obtain ⟨moved, hmoved, -, -, hlookup⟩ := FileTree.move_ok hmove
    rw [hnode] at hmoved
    cases hmoved
    rw [hstate]
    refine ⟨⟨hs.updated (hclear.note fun _ => .inl) ?_, node, ?_, hR⟩, ?_⟩
    · exact beside _ _ (move_others hmove) hs.2.1
    · rw [World.updated_tree, hlookup, if_pos rfl]
    · rw [World.updated_tree, hlookup, if_neg fun heq => hne (Place.below_injective heq),
        if_pos rfl]
  · rintro s s' e hs hrun
    rcases Session.os_error hrun with heq | herror
    · rw [heq]
      exact hs
    · rw [runRename_error herror]
      exact hs

theorem replace_holds : Effect.Triple
    (fun s : Session World Fault =>
      SparingWith repo before Ok paths noted H D (q.dropLast ++ [name]) R s.state)
    (replace repo (q.dropLast ++ [name]) q)
    (fun _ s => SparingWith repo before Ok paths noted H D q R s.state ∧
      s.state.tree.lookup (repo.path.below (q.dropLast ++ [name])) = none)
    fun s => SparingWith repo before Ok paths noted H D (q.dropLast ++ [name]) R s.state := by
  have hrename : Effect.Triple
      (fun s : Session World Fault =>
        SparingWith repo before Ok paths noted H D (q.dropLast ++ [name]) R s.state)
      (rename repo (q.dropLast ++ [name]) q) _ _ := rename_holds rooted out hq hok beside hne
  apply Effect.Triple.orElse hrename
  intro e y hy
  cases hy
  apply Effect.Triple.bind keeps_isPresent
  intro present
  cases present with
  | true =>
    apply Effect.Triple.bind
    · apply keeps_removeLeaf
      · exact fun world place hworld =>
          leadsTo_above rooted hq List.prefix_rfl world place hworld.1.1
      · rintro world tree ⟨hworld, node, hnode, hR⟩ herases
        refine ⟨hworld.updated ((Safe.placedAt (out.ok q hq)).kept world tree hworld.1 herases)
          (beside.at_output herases.others hworld.2.1), node, ?_, hR⟩
        rw [World.updated_tree, herases.others _ fun heq => hne (Place.below_injective heq)]
        exact hnode
    · exact fun _ => hrename
  | false => exact .fails

/-- Where the replacement fails, the temporary file is removed. -/
theorem finish_holds : Effect.Triple
    (fun s : Session World Fault =>
      SparingWith repo before Ok paths noted H D (q.dropLast ++ [name]) R s.state)
    (discard repo (q.dropLast ++ [name]) (replace repo (q.dropLast ++ [name]) q))
    (fun _ s => SparingWith repo before Ok paths noted H D q R s.state ∧
      s.state.tree.lookup (repo.path.below (q.dropLast ++ [name])) = none)
    fun s => Sparing repo before Ok paths noted H D s.state := by
  have hreplace : Effect.Triple
      (fun s : Session World Fault =>
        SparingWith repo before Ok paths noted H D (q.dropLast ++ [name]) R s.state)
      (replace repo (q.dropLast ++ [name]) q) _ _ := replace_holds rooted out hq hok beside hne
  apply Effect.Triple.orElse (hreplace.weaken (fun _ hs => hs) (fun _ _ hs => hs) fun _ hs => hs.1)
  intro e y hy
  cases hy
  apply Effect.Triple.bind
  · apply Effect.Keeps.orElse
    · apply keeps_removeFile
      · exact fun world place hworld => leadsTo_beside rooted out hq world place hworld.1
      · intro world tree hworld herases
        exact hworld.updated ((Safe.placedAt hok).kept world tree hworld.1 herases)
          (beside.at_temporary herases.others hworld.2.1)
    · intro e y hy
      cases hy
      exact .pure _
  · exact fun _ => .fails

end Output

section Materialize

variable (rooted : Rooted repo before Ok) (out : Outputs env repo before Ok paths) (hq : q ∈ paths)
  (spared : Spared repo q H)
include rooted out hq

omit rooted in
theorem temporary_ne {tree : FileTree} : q.dropLast ++ [env.randomName tree] ≠ q := by
  intro heq
  apply out.fresh.apart tree q hq
  rw [← heq]
  simp

include spared

omit rooted out hq in
/-- A temporary file that has become the output leaves nothing else behind. -/
theorem SparingWith.arrived {temporary : List Name} {t : FileTree} {R : FileNode → Prop}
    {world : World} (known : H t ∧ t.lookup (repo.path.below temporary) = none)
    (h : SparingWith repo before Ok paths noted (Around repo q temporary t) D q R world)
    (hgone : world.tree.lookup (repo.path.below temporary) = none) :
    SparingWith repo before Ok paths noted H D q R world :=
  ⟨⟨h.1.1, h.1.2.1.spared spared known.2 hgone known.1, h.1.2.2⟩, h.2⟩

/-- A regular file that is written has its bytes and its permissions. -/
theorem materializeRegular_holds {bytes : List UInt8} {mode : UInt32} : Effect.Triple
    (fun s : Session World Fault => Sparing repo before Ok paths noted H D s.state)
    (materializeRegular env repo bytes q mode)
    (fun _ s => SparingWith repo before Ok paths noted H D q
      (IsFile bytes (Fin.ofNat 4096 mode.toNat)) s.state)
    fun s => Passable repo before Ok paths noted D s.state := by
  apply Effect.Triple.bind (parents_hold rooted out hq spared)
  intro _
  apply Effect.Triple.bind_fact (temporary_around out hq)
  rintro temporary ⟨tree, rfl, hok⟩
  apply Effect.Triple.of_known
  intro t known
  have hcreate : Effect.Triple (fun s : Session World Fault => SparingFile repo before Ok paths
      noted (Around repo q _ t) D (q.dropLast ++ [env.randomName tree]) s.state)
      (createFile repo (q.dropLast ++ [env.randomName tree]) mode) _ _ :=
    createFile_holds rooted out hq hok around_beside
  apply Effect.Triple.bind
  · apply hcreate.weaken _ (fun _ _ hs => hs) fun _ hs => hs.1.passable
    rintro s ⟨hs, hfree⟩
    refine ⟨hs, fun node hnode => ?_⟩
    rw [hfree] at hnode
    cases hnode
  · intro _
    apply Effect.Triple.bind
    · exact (copyInto_holds rooted out hq hok around_beside).mono_error fun _ hs => hs.passable
    · intro _
      exact (finish_holds rooted out hq hok around_beside (temporary_ne out hq)).weaken
        (fun _ hs => hs) (fun _ _ hs => hs.1.arrived spared known hs.2) fun _ hs => hs.passable

/-- A link to a target. -/
def IsLink (target : List UInt8) (node : FileNode) : Prop :=
  ∃ mtime, node = .link target mtime

omit spared in
theorem createLink_holds {target : List UInt8} {tree : FileTree}
    (hok : Ok (q.dropLast ++ [env.randomName tree]))
    (beside : Beside repo q H (q.dropLast ++ [env.randomName tree])) : Effect.Triple
    (fun s : Session World Fault => Sparing repo before Ok paths noted H D s.state)
    (createNative repo target (q.dropLast ++ [env.randomName tree]))
    (fun _ s => SparingWith repo before Ok paths noted H D
      (q.dropLast ++ [env.randomName tree]) (IsLink target) s.state)
    fun s => Sparing repo before Ok paths noted H D s.state := by
  have hkeeps : KeepsWorld (Sparing repo before Ok paths noted H D)
      (createNative repo target (q.dropLast ++ [env.randomName tree])) := by
    apply keeps_change_with (keeps_createNative rooted out hq hok)
    rintro world place tree' hclear ⟨hH, hD⟩ hresolve hop
    rw [leadsTo_beside rooted out hq world place hclear hresolve] at hop
    exact ⟨beside.at_temporary (add_others (makeLink_adds hop)) hH, hD⟩
  apply Effect.Triple.intro
  · intro s s' u hs hrun
    refine ⟨hkeeps.ok hs hrun, ?_⟩
    obtain ⟨place, tree', hresolve, hop, hstate⟩ := change_ok hrun
    rw [leadsTo_beside rooted out hq s.state place hs.1 hresolve] at hop
    exact ⟨_, by rw [hstate, World.updated_tree, makeLink_ok hop], _, rfl⟩
  · exact fun s s' e hs hrun => hkeeps.error hs hrun

/-- A link that is written has the target that its bytes stand for. -/
theorem materialize_holds {entryPath : PackPath} {bytes : List UInt8}
    {encoding : SymlinkTargetEncoding} : Effect.Triple
    (fun s : Session World Fault => Sparing repo before Ok paths noted H D s.state)
    (materialize env repo entryPath bytes encoding q)
    (fun _ s => SparingWith repo before Ok paths noted H D q
      (fun node => ∃ target, decodeTarget entryPath bytes encoding = .ok target ∧
        IsLink target node) s.state)
    fun s => Passable repo before Ok paths noted D s.state := by
  apply Effect.Triple.bind_fact
  · exact Effect.Triple.lift_known.mono_error fun _ hs => hs.passable
  intro target htarget
  apply Effect.Triple.bind (parents_hold rooted out hq spared).mapError
  intro _
  apply Effect.Triple.bind_fact (temporary_around out hq).mapError
  rintro temporary ⟨tree, rfl, hok⟩
  apply Effect.Triple.of_known
  intro t known
  apply Effect.Triple.bind
  · exact (createLink_holds rooted out hq hok around_beside).mapError.weaken (fun _ hs => hs.1)
      (fun _ _ hs => hs) fun _ hs => hs.passable
  · intro _
    apply (finish_holds rooted out hq hok around_beside (temporary_ne out hq)).mapError.weaken
      (fun _ hs => hs) _ fun _ hs => hs.passable
    rintro _ s ⟨hs, hgone⟩
    obtain ⟨hs, node, hnode, hlink⟩ := hs.arrived spared known hgone
    exact ⟨hs, node, hnode, target, Exec.mapError_eq_ok.mp htarget, hlink⟩

end Materialize

section Entries

/-- What an entry stands for: a file with its bytes and its mode, or a link to its target. -/
def StandsFor (content : ObjectChecksum → List UInt8) (entry : FileEntry) (node : FileNode) : Prop :=
  match entry.metadata with
  | .regular mode => IsFile (content entry.checksum) (Fin.ofNat 4096 mode.toNat) node
  | .symlink encoding _ => ∃ target,
    decodeTarget entry.path (content entry.checksum) encoding = .ok target ∧ IsLink target node

/-- A tree that has, at the path of an entry, what the entry stands for. -/
def Materialized (content : ObjectChecksum → List UInt8) (repo : Repository) (entry : FileEntry)
    (t : FileTree) : Prop :=
  ∃ node, t.lookup (repo.path.below (native entry.path)) = some node ∧
    StandsFor content entry node

variable {content : ObjectChecksum → List UInt8} {entry : FileEntry} {verify : Bool}
  {bytes : List UInt8}
variable (rooted : Rooted repo before Ok) (out : Outputs env repo before Ok paths)
  (hentry : native entry.path ∈ paths) (spared : Spared repo (native entry.path) H)

theorem openObject_known {checksum : ObjectChecksum} : Effect.Triple
    (fun s : Session World Fault => Sparing repo before Ok paths noted H D s.state)
    (openObject checksum)
    (fun bytes s => Sparing repo before Ok paths noted H D s.state ∧
      ∃ dd, D dd ∧ openLooseObject dd checksum = .ok bytes)
    fun s => Passable repo before Ok paths noted D s.state := by
  apply Effect.Triple.intro
  · intro s s' bytes hs hrun
    exact ⟨(keeps_inspectData _).ok hs hrun, _, hs.2.2, (inspectData_ok hrun).1⟩
  · exact fun s s' e hs hrun => ((keeps_inspectData _).error hs hrun).passable

/-- The bytes of a regular file are those of its checksum. -/
theorem regularBytes_known (empty : entry.objectMetadata.size = 0 → content entry.checksum = [])
    (intact : ∀ dd bytes, D dd → openLooseObject dd entry.checksum = .ok bytes →
      bytes = content entry.checksum) : Effect.Triple
    (fun s : Session World Fault => Sparing repo before Ok paths noted H D s.state)
    (regularBytes entry)
    (fun bytes s => Sparing repo before Ok paths noted H D s.state ∧
      bytes = content entry.checksum)
    fun s => Passable repo before Ok paths noted D s.state := by
  unfold regularBytes
  split
  · rename_i hsize
    exact .pure fun s hs => ⟨hs, (empty hsize).symm⟩
  · exact openObject_known.weaken (fun _ hs => hs) (fun bytes _ hs => by
      obtain ⟨hs, dd, hdd, hopen⟩ := hs
      exact ⟨hs, intact dd bytes hdd hopen⟩) fun _ hs => hs

include rooted out hentry spared

theorem writeLink_holds {encoding : SymlinkTargetEncoding} {kind : SymlinkTargetKind}
    (hlink : entry.metadata = .symlink encoding kind) (hbytes : bytes = content entry.checksum) :
    Effect.Triple
      (fun s : Session World Fault => Sparing repo before Ok paths noted H D s.state)
      (writeLink env repo verify entry bytes encoding)
      (fun _ s => Sparing repo before Ok paths noted H D s.state ∧
        Materialized content repo entry s.state.tree)
      fun s => Passable repo before Ok paths noted D s.state := by
  apply Effect.Triple.bind (R := fun _ s => Sparing repo before Ok paths noted H D s.state ∧
    Materialized content repo entry s.state.tree)
  · apply (materialize_holds rooted out hentry spared).weaken (fun _ hs => hs) _ fun _ hs => hs
    rintro _ s ⟨hs, node, hnode, target, htarget, hnode'⟩
    refine ⟨hs, node, hnode, ?_⟩
    rw [StandsFor, hlink]
    exact ⟨target, hbytes ▸ htarget, hnode'⟩
  · intro _
    cases verify with
    | true =>
      have hkeeps : KeepsWorld (fun world => Sparing repo before Ok paths noted H D world ∧
          Materialized content repo entry world.tree)
          (verifyMaterialized env repo entry.path (native entry.path) encoding entry.checksum) :=
        keeps_verifyMaterialized
      exact hkeeps.mono_error fun _ hs => hs.1.passable
    | false => exact .pure fun s hs => hs

theorem writeRegular_holds {mode : UInt32} (hregular : entry.metadata = .regular mode)
    (hbytes : bytes = content entry.checksum) : Effect.Triple
      (fun s : Session World Fault => Sparing repo before Ok paths noted H D s.state)
      (fs (materializeRegular env repo bytes (native entry.path) mode))
      (fun _ s => Sparing repo before Ok paths noted H D s.state ∧
        Materialized content repo entry s.state.tree)
      fun s => Passable repo before Ok paths noted D s.state := by
  apply Effect.Triple.mapError
  apply (materializeRegular_holds rooted out hentry spared).weaken (fun _ hs => hs) _ fun _ hs => hs
  rintro _ s ⟨hs, node, hnode, hfile⟩
  refine ⟨hs, node, hnode, ?_⟩
  rw [StandsFor, hregular, ← hbytes]
  exact hfile

theorem copyLooseEntry_holds
    (empty : entry.metadata.isSymlink = false → entry.objectMetadata.size = 0 →
      content entry.checksum = [])
    (intact : ∀ dd bytes, D dd → openLooseObject dd entry.checksum = .ok bytes →
      bytes = content entry.checksum) : Effect.Triple
      (fun s : Session World Fault => Sparing repo before Ok paths noted H D s.state)
      (copyLooseEntry env repo verify entry)
      (fun _ s => Sparing repo before Ok paths noted H D s.state ∧
        Materialized content repo entry s.state.tree)
      fun s => Passable repo before Ok paths noted D s.state := by
  apply Effect.Triple.bind (parents_hold rooted out hentry spared).mapError
  intro _
  cases hmetadata : entry.metadata with
  | symlink encoding kind =>
    apply Effect.Triple.bind_fact openObject_known.mapError
    rintro bytes ⟨dd, hdd, hopen⟩
    have hbytes := intact dd bytes hdd hopen
    apply Effect.Triple.bind_keeps (Effect.Keeps.lift _) fun _ hs => hs.passable
    intro _
    apply Effect.Triple.bind (writeLink_holds rooted out hentry spared hmetadata hbytes)
    exact fun _ => .pure fun s hs => hs
  | regular mode =>
    have hempty := empty (by rw [hmetadata]; rfl)
    apply Effect.Triple.bind_fact (regularBytes_known hempty intact).mapError
    intro bytes hbytes
    apply Effect.Triple.bind (writeRegular_holds rooted out hentry spared hmetadata hbytes)
    exact fun _ => .pure fun s hs => hs

end Entries

end Writes

end Elfshaker.Checkout
