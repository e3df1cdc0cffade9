import Elfshaker.Checkout.Guard

namespace Elfshaker.Checkout

open Elfshaker.Library Elfshaker.Format Elfshaker.Store Elfshaker.Packs

/-- The names that are drawn are new: nothing in the file system has them, and none of
the paths. -/
structure FreshNames (env : Env) (paths : List (List Name)) : Prop where
  unused : ∀ tree p, (FileTree.lookup tree p).isSome → env.randomName tree ∉ p
  apart : ∀ tree, ∀ path ∈ paths, env.randomName tree ∉ path

/-- Paths that are written, none of them in the way of another. -/
structure Outputs (env : Env) (repo : Repository) (before : FileTree) (Ok : List Name → Prop)
    (paths : List (List Name)) : Prop where
  fresh : FreshNames env paths
  named : ∀ q ∈ paths, q ≠ []
  separate : ∀ q ∈ paths, ∀ path ∈ paths, q <+: path → q = path
  ok : ∀ q ∈ paths, Ok q
  above : ∀ q ∈ paths, ∀ ns, ns <+: q → before.lookup (repo.path.below ns) = none → Ok ns
  beside : ∀ q ∈ paths, ∀ tree,
    before.lookup (repo.path.below (q.dropLast ++ [env.randomName tree])) = none →
    Ok (q.dropLast ++ [env.randomName tree])

/-- No link is on the way to any output. -/
abbrev Clear (repo : Repository) (before : FileTree) (Ok : List Name → Prop)
    (paths : List (List Name)) (noted : List Name → Prop) (world : World) : Prop :=
  Safe repo before Ok paths [] noted world

theorem proper_of_dropLast {ns q : List Name} (hne : q ≠ []) (h : ns <+: q.dropLast) :
    ns <+: q ∧ ns ≠ q := by
  refine ⟨h.trans (List.dropLast_prefix q), ?_⟩
  rintro rfl
  have hlength := h.length_le
  rw [List.length_dropLast] at hlength
  have hpos := List.length_pos_iff.mpr hne
  omega

theorem proper_of_concat {ns dir : List Name} {name : Name} (h : ns <+: dir ++ [name])
    (hne : ns ≠ dir ++ [name]) : ns <+: dir := by
  rcases List.prefix_concat_iff.mp h with heq | hdir
  · exact absurd heq hne
  · exact hdir

section Writes

variable {env : Env} {repo : Repository} {before : FileTree} {Ok noted : List Name → Prop}
  {paths : List (List Name)} {q : List Name}

theorem leadsTo_above (rooted : Rooted repo before Ok) (hq : q ∈ paths) {ns : List Name}
    (hns : ns <+: q) :
    LeadsTo repo (Clear repo before Ok paths noted) false ns := by
  apply Safe.leadsTo rooted
  intro m hm hne _
  refine ⟨q, hq, hm.trans hns, ?_, List.not_mem_nil⟩
  rintro rfl
  exact hne (hm.eq_of_length_le hns.length_le)

theorem leadsTo_beside (rooted : Rooted repo before Ok) (out : Outputs env repo before Ok paths)
    (hq : q ∈ paths) {name : Name} :
    LeadsTo repo (Clear repo before Ok paths noted) false (q.dropLast ++ [name]) := by
  apply Safe.leadsTo rooted
  intro m hm hne _
  obtain ⟨hstarts, hproper⟩ := proper_of_dropLast (out.named q hq) (proper_of_concat hm hne)
  exact ⟨q, hq, hstarts, hproper, List.not_mem_nil⟩

theorem keeps_createParents (rooted : Rooted repo before Ok)
    (out : Outputs env repo before Ok paths) (hq : q ∈ paths) :
    KeepsWorld (Clear repo before Ok paths noted) (createDirAll repo q.dropLast) := by
  apply keeps_createDirAll
  intro ns hns
  have hstarts := hns.trans (List.dropLast_prefix q)
  exact Safe.keeps_createDir (leadsTo_above rooted hq hstarts) (out.above q hq ns hstarts)

/-- A temporary file comes to a place where nothing is. -/
theorem temporary_ok (out : Outputs env repo before Ok paths) (hq : q ∈ paths) : Effect.Triple
    (fun s : Session World Fault => Clear repo before Ok paths noted s.state)
    (createTempPath env q.dropLast)
    (fun temporary s => (Clear repo before Ok paths noted s.state ∧
      s.state.tree.lookup (repo.path.below temporary) = none) ∧
      ∃ tree, temporary = q.dropLast ++ [env.randomName tree] ∧ Ok temporary)
    fun s => Clear repo before Ok paths noted s.state := by
  apply Effect.Triple.of_run
  intro s hs
  have hfree : s.state.tree.lookup
      (repo.path.below (q.dropLast ++ [env.randomName s.state.tree])) = none := by
    by_contra hpresent
    apply out.fresh.unused s.state.tree _ (Option.isSome_iff_ne_none.mpr hpresent)
    rw [Place.below_concat]
    exact List.mem_cons_self
  refine ⟨⟨hs, hfree⟩, s.state.tree, rfl, hs.toGuarded.ok_of_same fun hsame => ?_⟩
  apply out.beside q hq
  rw [← hsame]
  exact hfree

/-- A link that is put beside an output is in no way. -/
theorem keeps_createNative (rooted : Rooted repo before Ok)
    (out : Outputs env repo before Ok paths) (hq : q ∈ paths) {tree : FileTree}
    (hok : Ok (q.dropLast ++ [env.randomName tree])) {target : List UInt8} :
    KeepsWorld (Clear repo before Ok paths noted)
      (createNative repo target (q.dropLast ++ [env.randomName tree])) := by
  apply keeps_change
  intro world place tree' hworld hresolve hop
  rw [leadsTo_beside rooted out hq world place hworld hresolve] at hop ⊢
  have hothers := add_others (makeLink_adds hop)
  constructor
  · apply hworld.toGuarded.updated
    · intro others p hp
      rw [List.mem_singleton, Touch.workTree.injEq] at hp
      obtain ⟨rfl, rfl⟩ := hp
      exact ⟨rfl, hok⟩
    · simp
    · intro p hp
      apply hothers
      intro heq
      exact hp _ (by rw [heq, List.mem_singleton])
  · apply hworld.links.of_changes
    intro path hpath ns hns hne node hnode _
    rw [← hothers _ _]
    · exact hnode
    · intro heq
      apply out.fresh.apart tree path hpath
      apply hns.subset
      rw [Place.below_injective heq]
      simp

theorem move_others {t t' : FileTree} {source dest : Place} (h : t.move source dest = .ok t')
    (p : Place) (hsource : p ≠ source) (hdest : p ≠ dest) : t'.lookup p = t.lookup p := by
  obtain ⟨node, -, -, -, hlookup⟩ := FileTree.move_ok h
  rw [hlookup, if_neg hdest, if_neg hsource]

/-- What is renamed comes to an output, which is in no way. -/
theorem rename_clear (rooted : Rooted repo before Ok) (out : Outputs env repo before Ok paths)
    (hq : q ∈ paths) {name : Name} (hok : Ok (q.dropLast ++ [name])) {world : World}
    (hworld : Clear repo before Ok paths noted world) {sourcePlace destPlace : Place}
    {tree : FileTree}
    (hsource : world.tree.resolve false repo.path (q.dropLast ++ [name]) = .ok sourcePlace)
    (hdest : world.tree.resolve false repo.path q = .ok destPlace)
    (hmove : world.tree.move sourcePlace destPlace = .ok tree) :
    Clear repo before Ok paths (fun ns => noted ns ∨ ns = q) (world.updated tree
      [.workTree (q.dropLast ++ [name]) sourcePlace, .workTree q destPlace]) := by
  rw [leadsTo_beside rooted out hq world sourcePlace hworld hsource] at hmove ⊢
  rw [leadsTo_above rooted hq List.prefix_rfl world destPlace hworld hdest] at hmove ⊢
  have hothers := move_others hmove
  constructor
  · have hguarded : Guarded repo before Ok noted (world.updated tree
        [.workTree (q.dropLast ++ [name]) (repo.path.below (q.dropLast ++ [name])),
          .workTree q (repo.path.below q)]) := by
      apply hworld.toGuarded.updated
      · intro others p hp
        simp only [List.mem_cons, Touch.workTree.injEq, List.not_mem_nil, or_false] at hp
        rcases hp with ⟨rfl, rfl⟩ | ⟨rfl, rfl⟩
        · exact ⟨rfl, hok⟩
        · exact ⟨rfl, out.ok _ hq⟩
      · simp
      · intro p hp
        apply hothers
        · intro heq
          exact hp _ (by rw [heq]; exact List.mem_cons_self)
        · intro heq
          exact hp _ (by rw [heq]; exact List.mem_cons_of_mem _ List.mem_cons_self)
    apply hguarded.note
    rintro names (hnames | rfl)
    · exact hguarded.seen names hnames
    · exact ⟨_, List.mem_append_right _ (List.mem_cons_of_mem _ List.mem_cons_self)⟩
  · apply hworld.links.of_changes
    intro path hpath ns hns hne node hnode hlink
    obtain ⟨moved, -, -, -, hlookup⟩ := FileTree.move_ok hmove
    have hdestNe : repo.path.below ns ≠ repo.path.below q := by
      intro heq
      rw [Place.below_injective heq] at hns hne
      exact hne (out.separate q hq path hpath hns)
    rw [World.updated_tree, hlookup, if_neg hdestNe] at hnode
    split at hnode
    · cases hnode
    · exact hnode

/-- A call that keeps all ways clear, and has touched more names where it succeeds. -/
def Touches (repo : Repository) (before : FileTree) (Ok : List Name → Prop)
    (paths : List (List Name)) {ε α : Type} (x : Effect (Session World Fault) ε α)
    (more : List Name → Prop) : Prop :=
  ∀ noted, Effect.Triple (fun s => Clear repo before Ok paths noted s.state) x
    (fun _ s => Clear repo before Ok paths (fun ns => noted ns ∨ more ns) s.state)
    fun s => Clear repo before Ok paths noted s.state

theorem Clear.note {world : World} (h : Clear repo before Ok paths noted world)
    {noted' : List Name → Prop} (hnoted : ∀ ns, noted' ns → noted ns) :
    Clear repo before Ok paths noted' world where
  toGuarded := h.toGuarded.note fun ns hns => h.toGuarded.seen ns (hnoted ns hns)
  links := h.links

namespace Touches

variable {ε δ α β : Type} {x : Effect (Session World Fault) ε α}
  {f : α → Effect (Session World Fault) ε β} {more more' : List Name → Prop}

theorem of_keeps (hx : ∀ noted, KeepsWorld (Clear repo before Ok paths noted) x) :
    Touches repo before Ok paths x fun _ => False :=
  fun noted => (hx noted).weaken (fun _ hs => hs)
    (fun _ _ hs => hs.note fun _ hns => hns.resolve_right id) fun _ hs => hs

theorem weaken (hx : Touches repo before Ok paths x more) (h : ∀ ns, more' ns → more ns) :
    Touches repo before Ok paths x more' :=
  fun noted => (hx noted).weaken (fun _ hs => hs)
    (fun _ _ hs => hs.note fun ns hns => hns.imp_right (h ns)) fun _ hs => hs

theorem keeps (hx : Touches repo before Ok paths x more) :
    KeepsWorld (Clear repo before Ok paths noted) x :=
  (hx noted).weaken (fun _ hs => hs) (fun _ _ hs => hs.note fun _ hns => .inl hns) fun _ hs => hs

theorem after (hx : ∀ noted, KeepsWorld (Clear repo before Ok paths noted) x)
    (hf : ∀ a, Touches repo before Ok paths (f a) more) :
    Touches repo before Ok paths (x >>= f) more :=
  fun noted => Effect.Triple.bind (hx noted) fun a => hf a noted

theorem bind (hx : Touches repo before Ok paths x more)
    (hf : ∀ a, Touches repo before Ok paths (f a) more') :
    Touches repo before Ok paths (x >>= f) fun ns => more ns ∨ more' ns := by
  intro noted
  apply Effect.Triple.weaken (P := fun s => Clear repo before Ok paths noted s.state)
    (E := fun s => Clear repo before Ok paths noted s.state)
  · apply Effect.Triple.bind (hx noted)
    intro a
    exact (hf a _).weaken (fun _ hs => hs) (fun _ _ hs => hs) fun _ hs =>
      hs.note fun _ hns => .inl hns
  · exact fun _ hs => hs
  · exact fun _ _ hs => hs.note fun _ hns => or_assoc.mpr hns
  · exact fun _ hs => hs

theorem andThen (hx : Touches repo before Ok paths x more)
    (hf : ∀ a noted, KeepsWorld (Clear repo before Ok paths noted) (f a)) :
    Touches repo before Ok paths (x >>= f) more :=
  (hx.bind fun a => of_keeps (hf a)).weaken fun _ hns => .inl hns

theorem mapError (hx : Touches repo before Ok paths x more) {g : ε → δ} :
    Touches repo before Ok paths (Effect.mapError g x) more :=
  fun noted => (hx noted).mapError

theorem runAll {γ : Type} {g : γ → Effect (Session World Fault) ε β}
    {adds : γ → List Name → Prop} {xs : List γ}
    (h : ∀ y ∈ xs, Touches repo before Ok paths (g y) (adds y)) :
    Touches repo before Ok paths (Effect.runAll g xs) fun ns => ∃ y ∈ xs, adds y ns :=
  fun noted => Effect.Triple.runAll
    (P := fun c (s : Session World Fault) => Clear repo before Ok paths c s.state)
    (fun _ _ _ hcd hs => hs.note hcd) (fun y hy c => h y hy c) noted

end Touches

section Output

variable (rooted : Rooted repo before Ok) (out : Outputs env repo before Ok paths) (hq : q ∈ paths)
include rooted out hq

theorem touches_rename {name : Name} (hok : Ok (q.dropLast ++ [name])) :
    Touches repo before Ok paths (rename repo (q.dropLast ++ [name]) q) (· = q) := by
  intro noted
  apply Effect.Triple.intro
  · intro s s' _ hs hrun
    obtain ⟨sourcePlace, destPlace, tree, hsource, hdest, hmove, hstate⟩ :=
      runRename_ok (Session.os_eq_ok hrun)
    rw [hstate]
    exact rename_clear rooted out hq hok hs hsource hdest hmove
  · intro s s' e hs hrun
    rcases Session.os_error hrun with heq | herror
    · rw [heq]
      exact hs
    · rw [runRename_error herror]
      exact hs

theorem touches_replace {name : Name} (hok : Ok (q.dropLast ++ [name])) :
    Touches repo before Ok paths (replace repo (q.dropLast ++ [name]) q) (· = q) := by
  intro noted
  have hrename := touches_rename rooted out hq hok
  apply Effect.Triple.orElse (hrename noted)
  intro e y hy
  cases hy
  apply Effect.Triple.bind keeps_isPresent
  intro present
  cases present with
  | true =>
    apply Effect.Triple.bind
    · exact keeps_removeLeaf (leadsTo_above rooted hq List.prefix_rfl)
        (Safe.placedAt (out.ok q hq)).kept
    · exact fun _ => hrename noted
  | false => exact .fails

/-- Where the replacement fails, the temporary file is removed. -/
theorem touches_finish {name : Name} (hok : Ok (q.dropLast ++ [name])) :
    Touches repo before Ok paths
      (discard repo (q.dropLast ++ [name]) (replace repo (q.dropLast ++ [name]) q)) (· = q) := by
  intro noted
  apply Effect.Triple.orElse (touches_replace rooted out hq hok noted)
  intro e y hy
  cases hy
  apply Effect.Triple.bind
  · apply Effect.Keeps.orElse (keeps_removeFile (leadsTo_beside rooted out hq)
      (Safe.placedAt hok).kept)
    intro e y hy
    cases hy
    exact .pure _
  · exact fun _ => .fails

end Output

/-- A temporary file that is not a link, beside an output. -/
def ClearBeside (repo : Repository) (before : FileTree) (Ok : List Name → Prop)
    (paths : List (List Name)) (noted : List Name → Prop) (temporary : List Name)
    (world : World) : Prop :=
  Clear repo before Ok paths noted world ∧
    ∀ node, world.tree.lookup (repo.path.below temporary) = some node → node.isLink = false

theorem clearBeside_placedAt {temporary : List Name} (hok : Ok temporary) :
    PlacedAt repo (ClearBeside repo before Ok paths noted temporary) temporary :=
  fun _ _ hworld hplaces => ⟨hworld.1.places hok hplaces, hplaces.noLink⟩

theorem clearBeside_leadsTo (rooted : Rooted repo before Ok)
    (out : Outputs env repo before Ok paths) (hq : q ∈ paths) {name : Name} {follow : Bool} :
    LeadsTo repo (ClearBeside repo before Ok paths noted (q.dropLast ++ [name])) follow
      (q.dropLast ++ [name]) := by
  intro world place hworld hresolve
  have hroot := hworld.1.toGuarded.root rooted
  refine FileTree.resolve_plain hroot (hworld.1.links.plain hroot ?_) (fun _ => hworld.2) hresolve
  intro m hm hne _
  obtain ⟨hstarts, hproper⟩ := proper_of_dropLast (out.named q hq) (proper_of_concat hm hne)
  exact ⟨q, hq, hstarts, hproper, List.not_mem_nil⟩

section Output

variable (rooted : Rooted repo before Ok) (out : Outputs env repo before Ok paths) (hq : q ∈ paths)
include rooted out hq

/-- A regular file is written beside its destination, and then replaces it. -/
theorem touches_materializeRegular {bytes : List UInt8} {mode : UInt32} :
    Touches repo before Ok paths (materializeRegular env repo bytes q mode) (· = q) := by
  apply Touches.after fun noted => keeps_createParents rooted out hq
  intro _ noted
  apply Effect.Triple.bind_fact (temporary_ok out hq)
  rintro temporary ⟨tree, rfl, hok⟩
  have hplaced : PlacedAt repo (ClearBeside repo before Ok paths noted _) _ :=
    clearBeside_placedAt hok
  have hleads (follow : Bool) : LeadsTo repo (ClearBeside repo before Ok paths noted
      (q.dropLast ++ [env.randomName tree])) follow (q.dropLast ++ [env.randomName tree]) :=
    clearBeside_leadsTo rooted out hq
  apply Effect.Triple.bind (R := fun _ s => ClearBeside repo before Ok paths noted _ s.state)
  · apply (keeps_createFile (hleads true) hplaced).weaken
    · rintro s ⟨hs, hfree⟩
      refine ⟨hs, fun node hnode => ?_⟩
      rw [hfree] at hnode
      cases hnode
    · exact fun _ _ hs => hs
    · exact fun s hs => hs.1
  · intro _
    apply Effect.Triple.bind
    · exact (keeps_discard (keeps_copyInto (hleads true) hplaced) (hleads false) hplaced.kept).weaken
        (fun s hs => hs) (fun _ s hs => hs.1) fun s hs => hs.1
    · exact fun _ => touches_finish rooted out hq hok noted

/-- A link is made beside its destination, and then replaces it. -/
theorem touches_materialize {entryPath : PackPath} {bytes : List UInt8}
    {encoding : SymlinkTargetEncoding} :
    Touches repo before Ok paths (materialize env repo entryPath bytes encoding q) (· = q) := by
  apply Touches.after fun noted => Effect.Keeps.lift _
  intro target
  apply Touches.after fun noted => (keeps_createParents rooted out hq).mapError
  intro _ noted
  apply Effect.Triple.bind_fact (temporary_ok out hq).mapError
  rintro temporary ⟨tree, rfl, hok⟩
  apply Effect.Triple.bind
  · exact (keeps_createNative rooted out hq hok).mapError.weaken (fun s hs => hs.1)
      (fun _ s hs => hs) fun s hs => hs
  · exact fun _ => (touches_finish rooted out hq hok).mapError noted

end Output

section Entries

variable (rooted : Rooted repo before Ok) (out : Outputs env repo before Ok paths) {verify : Bool}
include rooted out

theorem touches_writeLink {entry : FileEntry} (hentry : native entry.path ∈ paths)
    {target : List UInt8} {encoding : SymlinkTargetEncoding} :
    Touches repo before Ok paths (writeLink env repo verify entry target encoding)
      (· = native entry.path) := by
  apply Touches.andThen (touches_materialize rooted out hentry)
  intro _ noted
  cases verify with
  | true => exact keeps_verifyMaterialized
  | false => exact .pure _

theorem touches_copyLooseEntry {entry : FileEntry} (hentry : native entry.path ∈ paths) :
    Touches repo before Ok paths (copyLooseEntry env repo verify entry)
      (· = native entry.path) := by
  apply Touches.after fun noted => (keeps_createParents rooted out hentry).mapError
  intro _
  cases entry.metadata with
  | symlink encoding kind =>
    apply Touches.after fun noted => Effect.Keeps.mapError (keeps_inspectData _)
    intro target
    apply Touches.after fun noted => Effect.Keeps.lift _
    intro _
    exact Touches.andThen (touches_writeLink rooted out hentry) fun _ noted => .pure _
  | regular mode =>
    apply Touches.after fun noted => Effect.Keeps.mapError keeps_regularBytes
    intro bytes
    apply Touches.andThen (Touches.mapError (touches_materializeRegular rooted out hentry))
    exact fun _ noted => .pure _

theorem touches_copyLooseEntries {entries : List FileEntry} {threads : UInt32}
    (hentries : ∀ entry ∈ entries, native entry.path ∈ paths) :
    Touches repo before Ok paths (copyLooseEntries env repo verify entries threads)
      fun ns => ∃ entry ∈ entries, ns = native entry.path := by
  apply Touches.after fun noted => Effect.Keeps.lift _
  intro _
  apply Touches.andThen
  · exact Touches.runAll fun entry hentry =>
      touches_copyLooseEntry rooted out (hentries entry hentry)
  · intro destinations noted
    cases verify with
    | true => exact keeps_verifyRegular
    | false => exact .pure _

theorem touches_writePackedEntry {entry : FileEntry} (hentry : native entry.path ∈ paths)
    {buf : List UInt8} :
    Touches repo before Ok paths (writePackedEntry env repo verify entry buf)
      (· = native entry.path) := by
  unfold writePackedEntry
  cases entry.metadata with
  | symlink encoding kind => exact touches_writeLink rooted out hentry
  | regular mode => exact (touches_materializeRegular rooted out hentry).mapError

theorem touches_extractFilesFrom {entries : List FileEntry}
    (hentries : ∀ entry ∈ entries, native entry.path ∈ paths) {reader buf : List UInt8}
    {pos : UInt64} :
    Touches repo before Ok paths (extractFilesFrom env repo verify reader buf pos entries)
      fun ns => ∃ entry ∈ entries, ns = native entry.path := by
  induction entries generalizing reader buf pos with
  | nil =>
    apply (Touches.of_keeps fun noted => Effect.Keeps.pure _).weaken
    simp
  | cons entry entries ih =>
    have hrest {reader buf : List UInt8} {pos : UInt64} : Touches repo before Ok paths
        (extractFilesFrom env repo verify reader buf pos entries) _ :=
      ih fun e he => hentries e (List.mem_cons_of_mem _ he)
    have hwrite {buf : List UInt8} : Touches repo before Ok paths
        (writePackedEntry env repo verify entry buf) _ :=
      touches_writePackedEntry rooted out (hentries entry List.mem_cons_self)
    have hall {reader buf buf' : List UInt8} {pos : UInt64} :
        Touches repo before Ok paths (do
          writePackedEntry env repo verify entry buf
          extractFilesFrom env repo verify reader buf' pos entries)
          fun ns => ∃ e ∈ entry :: entries, ns = native e.path := by
      apply (hwrite.bind fun _ => hrest).weaken
      simp
    rw [extractFilesFrom]
    simp only
    split
    · apply Touches.after fun noted => keeps_reading
      rintro ⟨buf, reader⟩
      apply Touches.after fun noted => Effect.Keeps.lift _
      intro pos
      apply Touches.after fun noted => Effect.Keeps.lift _
      exact fun _ => hall
    · exact hall

theorem touches_extractTasks {readers : List (List UInt8)} {assigned : List (List FileEntry)}
    (hassigned : ∀ es ∈ assigned, ∀ entry ∈ es, native entry.path ∈ paths) :
    Touches repo before Ok paths (extractTasks env repo verify readers assigned)
      fun ns => readers.length = assigned.length ∧
        ∃ es ∈ assigned, ∃ entry ∈ es, ns = native entry.path := by
  have hall : Touches repo before Ok paths (extractTasks env repo verify readers assigned)
      fun ns => ∃ task ∈ (readers.zip assigned).filter (fun task => !task.2.isEmpty),
        ∃ entry ∈ task.2, ns = native entry.path := by
    apply Touches.andThen _ fun _ noted => .pure _
    apply Touches.runAll
    intro task htask
    have hes : task.2 ∈ assigned := (List.of_mem_zip (List.mem_of_mem_filter htask)).2
    apply (touches_extractFilesFrom rooted out _).weaken
    · rintro ns ⟨entry, hentry, rfl⟩
      exact ⟨entry, (sortByOffset_perm _).mem_iff.mpr hentry, rfl⟩
    · intro entry hentry
      exact hassigned _ hes entry ((sortByOffset_perm _).mem_iff.mp hentry)
  apply hall.weaken
  rintro ns ⟨hlength, es, hes, entry, hentry, rfl⟩
  have hzip : ((readers.zip assigned).map Prod.snd) = assigned :=
    List.map_snd_zip hlength.ge
  rw [← hzip] at hes
  obtain ⟨task, htask, rfl⟩ := List.mem_map.mp hes
  refine ⟨task, List.mem_filter.mpr ⟨htask, ?_⟩, entry, hentry, rfl⟩
  simpa using List.ne_nil_of_mem hentry

theorem touches_extractPacked {entries : List FileEntry} {numWorkers : UInt32}
    {pack : List PackFrame × List (List UInt8)}
    (hentries : ∀ entry ∈ entries, native entry.path ∈ paths) :
    Touches repo before Ok paths (extractPacked env repo verify numWorkers pack entries)
      fun ns => pack.2.length = pack.1.length ∧ ∃ entry ∈ entries, ns = native entry.path := by
  unfold extractPacked
  split
  · rename_i hempty
    apply (Touches.of_keeps fun noted => Effect.Keeps.pure _).weaken
    simp [hempty]
  · apply Touches.after fun noted => Effect.Keeps.lift _
    intro _
    apply Touches.after fun noted => Effect.Keeps.lift _
    intro _ noted
    apply Effect.Triple.bind_fact Effect.Triple.lift_known
    intro assigned hassigned
    obtain ⟨hlength, hperm⟩ := assignToFrames_paths hassigned
    have hpath {path : PackPath} :
        (∃ es ∈ assigned, ∃ entry ∈ es, entry.path = path) ↔ ∃ entry ∈ entries, entry.path = path := by
      have hmem := hperm.mem_iff (a := path)
      simp only [List.mem_map, List.mem_flatten] at hmem
      rw [← hmem]
      constructor
      · rintro ⟨es, hes, entry, hentry, rfl⟩
        exact ⟨entry, ⟨es, hes, hentry⟩, rfl⟩
      · rintro ⟨entry, ⟨es, hes, hentry⟩, rfl⟩
        exact ⟨es, hes, entry, hentry, rfl⟩
    apply Touches.after fun noted => Effect.Keeps.lift _
    intro _
    apply Touches.weaken (touches_extractTasks rooted out _)
    · rintro ns ⟨hpaired, entry, hentry, rfl⟩
      obtain ⟨es, hes, found, hfound, hsame⟩ := hpath.mpr ⟨entry, hentry, rfl⟩
      exact ⟨by rw [hpaired, hlength], es, hes, found, hfound, by rw [hsame]⟩
    · intro es hes entry hentry
      obtain ⟨found, hfound, hsame⟩ := hpath.mp ⟨es, hes, entry, hentry, rfl⟩
      rw [← hsame]
      exact hentries found hfound

end Entries

/-- Each frame of a pack that is opened has its reader. -/
def Env.Paired (env : Env) : Prop :=
  ∀ dataDir pack opened, env.openPack dataDir pack = .ok opened →
    opened.2.length = opened.1.length

theorem clear_diskFree : DiskFree (Clear repo before Ok paths noted) :=
  fun _ disk _ hfiles hworld => hworld.onDisk disk hfiles

theorem touches_extractEntries (rooted : Rooted repo before Ok)
    (out : Outputs env repo before Ok paths) {pack : PackId} {entries : List FileEntry}
    {opts : ExtractOptions} (hentries : ∀ entry ∈ entries, native entry.path ∈ paths) :
    Touches repo before Ok paths (extractEntriesPreflighted env repo pack entries opts)
      fun ns => env.Paired ∧ ∃ entry ∈ entries, ns = native entry.path := by
  apply Touches.after fun noted => Effect.Keeps.asks _
  intro loose
  cases loose with
  | true => exact (touches_copyLooseEntries rooted out hentries).weaken fun _ hns => hns.2
  | false =>
    intro noted
    apply Effect.Triple.bind_fact (obtainPack_known clear_diskFree)
    rintro opened ⟨dataDir, hopened⟩
    apply Touches.weaken (touches_extractPacked rooted out hentries)
    rintro ns ⟨hpaired, hns⟩
    exact ⟨hpaired _ _ _ hopened, hns⟩

end Writes

end Elfshaker.Checkout
