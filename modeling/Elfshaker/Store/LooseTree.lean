import Elfshaker.Format.MessagePack
import Elfshaker.Store.GcSnapshots
import Elfshaker.Store.IndexPaths
import Elfshaker.Store.Reservation

namespace Elfshaker.Store

open Elfshaker.Library Elfshaker.Format

namespace DirTree

section Ancestors

variable {path dir : String}

theorem mem_ancestorsOf {above chars : List Char} : dir ∈ ancestorsOf above chars ↔
    ∃ rest, rest ++ ['/'] <+: chars ∧ dir = String.ofList (above ++ rest) := by
  induction chars generalizing above with
  | nil => simp [ancestorsOf]
  | cons c chars ih =>
    have hdeeper : dir ∈ ancestorsOf (above ++ [c]) chars ↔
        ∃ rest, (c :: rest) ++ ['/'] <+: c :: chars ∧ dir = String.ofList (above ++ c :: rest) := by
      rw [ih]
      simp
    unfold ancestorsOf
    split_ifs with hc
    · subst hc
      rw [List.mem_cons, hdeeper]
      constructor
      · rintro (rfl | ⟨rest, hrest⟩)
        · exact ⟨[], by simp⟩
        · exact ⟨'/' :: rest, hrest⟩
      · rintro ⟨rest, hpart, hdir⟩
        cases rest with
        | nil => exact .inl (by simpa using hdir)
        | cons d rest =>
          obtain rfl := (List.cons_prefix_cons.mp hpart).1
          exact .inr ⟨rest, hpart, hdir⟩
    · rw [hdeeper]
      constructor
      · rintro ⟨rest, hrest⟩
        exact ⟨c :: rest, hrest⟩
      · rintro ⟨rest, hpart, hdir⟩
        cases rest with
        | nil => exact absurd (List.cons_prefix_cons.mp hpart).1.symm hc
        | cons d rest =>
          obtain rfl := (List.cons_prefix_cons.mp hpart).1
          exact ⟨rest, hpart, hdir⟩

theorem mem_ancestors : dir ∈ ancestors path ↔ dir.toList ++ ['/'] <+: path.toList := by
  rw [ancestors, mem_ancestorsOf]
  constructor
  · rintro ⟨rest, hpart, rfl⟩
    simpa using hpart
  · intro hpart
    exact ⟨dir.toList, hpart, by simp⟩

theorem not_mem_ancestors_self : path ∉ ancestors path := by
  intro h
  have hlength := (mem_ancestors.mp h).length_le
  rw [List.length_append, List.length_singleton] at hlength
  omega

theorem ancestors_trans {outer : String} (h : outer ∈ ancestors dir) (hdir : dir ∈ ancestors path) :
    outer ∈ ancestors path := by
  rw [mem_ancestors] at h hdir ⊢
  exact (h.trans (List.prefix_append _ _)).trans hdir

theorem ancestors_pairwise (path : String) :
    (ancestors path).Pairwise fun outer inner => outer ∈ ancestors inner := by
  have hpairs (above chars : List Char) :
      (ancestorsOf above chars).Pairwise fun outer inner => outer ∈ ancestors inner := by
    induction chars generalizing above with
    | nil => exact .nil
    | cons c chars ih =>
      unfold ancestorsOf
      split_ifs with hc
      · refine List.pairwise_cons.mpr ⟨fun dir hdir => ?_, ih _⟩
        obtain ⟨rest, -, rfl⟩ := mem_ancestorsOf.mp hdir
        rw [mem_ancestors, hc]
        simp
      · exact ih _
  exact hpairs [] path.toList

end Ancestors

section Trees

variable {tree tree' : DirTree} {path dir : String}

theorem hasChildren_eq_true : tree.hasChildren dir = true ↔
    ∃ path, dir ∈ ancestors path ∧ tree.lookup path ≠ none := by
  simp only [hasChildren, List.any_eq_true, List.isPrefixOf_iff_prefix, mem_ancestors,
    String.toList_append]
  constructor
  · rintro ⟨path, hkey, hpart⟩
    refine ⟨path, hpart, fun hnone => ?_⟩
    exact AList.lookup_eq_none.mp hnone (AList.mem_keys.mp hkey)
  · rintro ⟨path, hpart, hsome⟩
    refine ⟨path, AList.mem_keys.mpr ?_, hpart⟩
    by_contra hkey
    exact hsome (AList.lookup_eq_none.mpr hkey)

theorem checkParents_eq_ok {dirs : List String} :
    tree.checkParents dirs = .ok () ↔ ∀ dir ∈ dirs, tree.lookup dir = some .dir := by
  induction dirs with
  | nil => simp [checkParents]
  | cons dir dirs ih =>
    rw [checkParents, List.forall_mem_cons, ← ih]
    cases hdir : tree.lookup dir with
    | none => simp [Exec.fail]
    | some node => cases node <;> simp [Exec.fail]

/-- A chain of directories is removed from the innermost outwards, up to one that
has something in it. -/
theorem removeEmptyDirs_chain {dirs : List String}
    (chain : dirs.Pairwise fun inner outer => outer ∈ ancestors inner)
    (hdirs : ∀ dir ∈ dirs, tree.lookup dir = some .dir) :
    ∃ tree', tree.removeEmptyDirs dirs = .ok tree' ∧
      (∀ path ∉ dirs, tree'.lookup path = tree.lookup path) ∧
      ∀ dir ∈ dirs, tree'.lookup dir = none ∨ tree'.hasChildren dir = true := by
  induction dirs generalizing tree with
  | nil => exact ⟨tree, rfl, fun _ _ => rfl, by simp⟩
  | cons dir above ih =>
    obtain ⟨hinner, chain⟩ := List.pairwise_cons.mp chain
    obtain ⟨hdir, habove⟩ := List.forall_mem_cons.mp hdirs
    simp only [removeEmptyDirs, hdir]
    split_ifs with hchildren
    · refine ⟨tree, rfl, fun _ _ => rfl, List.forall_mem_cons.mpr ⟨.inr hchildren, ?_⟩⟩
      intro outer houter
      refine .inr (hasChildren_eq_true.mpr ⟨dir, hinner outer houter, ?_⟩)
      rw [hdir]
      exact Option.some_ne_none _
    · have hne : ∀ outer ∈ above, outer ≠ dir := by
        rintro outer houter rfl
        exact not_mem_ancestors_self (hinner _ houter)
      have herased : ∀ outer ∈ above, (tree.erase dir).lookup outer = some .dir := by
        intro outer houter
        rw [AList.lookup_erase_ne (hne outer houter), habove outer houter]
      obtain ⟨tree', hrun, hother, hempty⟩ := ih chain herased
      refine ⟨tree', hrun, fun path hpath => ?_, List.forall_mem_cons.mpr ⟨.inl ?_, hempty⟩⟩
      · obtain ⟨hself, hpath⟩ := not_or.mp (mt List.mem_cons.mpr hpath)
        rw [hother path hpath, AList.lookup_erase_ne hself]
      · rw [hother dir fun hmem => hne dir hmem rfl, AList.lookup_erase]

end Trees

end DirTree

section Stored

/-- The directories above a path have been made where they were missing, and the path
itself may be anything. -/
def Made (before : DirTree) (path : String) (tree : DirTree) : Prop :=
  ∀ p, p ≠ path → tree.lookup p = before.lookup p ∨
    p ∈ DirTree.ancestors path ∧ before.lookup p = none ∧ tree.lookup p = some .dir

/-- A file has been put into its place. -/
structure Stored (before : DirTree) (path : String) (after : DirTree) : Prop where
  vacant : before.lookup path ≠ some .dir
  file : ∃ bytes mtime, after.lookup path = some (.file bytes mtime)
  parents : ∀ dir ∈ DirTree.ancestors path, after.lookup dir = some .dir
  made : Made before path after

variable {before tree tree' : DirTree} {path : String}

theorem Made.refl : Made before path before := fun _ _ => .inl rfl

theorem Made.makeDir (h : Made before path tree) {dir : String} {isLast : Bool} {now : Nat}
    (hdir : dir ∈ DirTree.ancestors path)
    (hop : DirTree.makeDir dir isLast now tree = .ok tree') : Made before path tree' := by
  unfold DirTree.makeDir at hop
  split at hop
  · rename_i hnone
    cases hop
    intro p hp
    by_cases heq : p = dir
    · subst heq
      rw [AList.lookup_insert]
      rcases h p hp with hsame | ⟨-, -, hmade⟩
      · exact .inr ⟨hdir, by rw [← hsame, hnone], rfl⟩
      · rw [hnone] at hmade
        cases hmade
    · rw [AList.lookup_insert_ne heq]
      exact h p hp
  · cases hop
    exact h
  · cases hop

/-- The path itself is not one of the directories above it. -/
theorem makeDir_path {dir : String} {isLast : Bool} {now : Nat}
    (hdir : dir ∈ DirTree.ancestors path)
    (hop : DirTree.makeDir dir isLast now tree = .ok tree') : tree'.lookup path = tree.lookup path := by
  have hne : path ≠ dir := by
    rintro rfl
    exact DirTree.not_mem_ancestors_self hdir
  unfold DirTree.makeDir at hop
  split at hop
  · cases hop
    exact AList.lookup_insert_ne hne
  · cases hop
    rfl
  · cases hop

/-- A tree on the way to a stored file: it has only got directories. -/
structure Prepared (before : DirTree) (path : String) (tree : DirTree) : Prop where
  made : Made before path tree
  same : tree.lookup path = before.lookup path

theorem keeps_makeDir_prepared {dir : String} (hdir : dir ∈ DirTree.ancestors path)
    (isLast : Bool) : Io.KeepsDisk (fun disk => Prepared before path disk.dataDir.packs)
      (Io.onPacks (DirTree.makeDir dir isLast)) :=
  Io.keeps_onPacks fun _ _ _ hdisk hop =>
    ⟨hdisk.made.makeDir hdir hop, (makeDir_path hdir hop).trans hdisk.same⟩

/-- A file that is put into its place with its parents there. -/
theorem Stored.insert (made : Made before path tree) (vacant : before.lookup path ≠ some .dir)
    (hparents : tree.checkParents (DirTree.ancestors path) = .ok ()) (bytes : List UInt8)
    (mtime : Nat) : Stored before path (tree.insert path (.file bytes mtime)) where
  vacant := vacant
  file := ⟨bytes, mtime, AList.lookup_insert tree⟩
  parents := by
    intro dir hdir
    have hne : dir ≠ path := by
      rintro rfl
      exact DirTree.not_mem_ancestors_self hdir
    rw [AList.lookup_insert_ne hne]
    exact DirTree.checkParents_eq_ok.mp hparents dir hdir
  made := by
    intro p hp
    rw [AList.lookup_insert_ne hp]
    exact made p hp

/-- A temporary file that nothing was in the place of is put into another. -/
theorem rename_stored {source : String} {filled : DirTree} {bytes : List UInt8} {mtime now : Nat}
    (made : Made before path tree) (vacant : before.lookup path ≠ some .dir)
    (hfree : tree.lookup source = none)
    (hfilled : filled.lookup source = some (.file bytes mtime))
    (hsame : ∀ p, p ≠ source → filled.lookup p = tree.lookup p)
    (hop : DirTree.rename source path now filled = .ok tree') : Stored before path tree' := by
  have hparents : filled.checkParents (DirTree.ancestors path) = .ok () := by
    unfold DirTree.rename at hop
    split at hop
    · cases hop
    · obtain ⟨_, hparents, -⟩ := Exec.bind_eq_ok.mp hop
      exact hparents
    · cases hop
  obtain ⟨content, mtime', -, rfl⟩ := DirTree.rename_ok hop
  refine .insert (fun p hp => ?_) vacant (DirTree.checkParents_eq_ok.mpr fun dir hdir => ?_) _ _
  · by_cases hsource : p = source
    · subst hsource
      rw [AList.lookup_erase]
      rcases made p hp with hold | ⟨-, -, hdir⟩
      · exact .inl (hfree.symm.trans hold)
      · rw [hfree] at hdir
        cases hdir
    · rw [AList.lookup_erase_ne hsource, hsame p hsource]
      exact made p hp
  · have hdir := DirTree.checkParents_eq_ok.mp hparents dir hdir
    have hne : dir ≠ source := by
      rintro rfl
      rw [hfilled] at hdir
      cases hdir
    rw [AList.lookup_erase_ne hne, hdir]

section Calls

variable {crates : Crates} {writer : RmpWriter} {ord : IterOrder FileHandle}
  {random : List UInt8} {snapshot : SnapshotId} {files : List InputFile}
  {s s' : Session Disk Fault}

theorem prepareSnapshot_prepared (h : prepareSnapshot crates snapshot s = (.ok (), s')) :
    Prepared s.state.dataDir.packs (snapshotPath snapshot) s'.state.dataDir.packs := by
  obtain ⟨_, t, hlock, h⟩ := Effect.bind_eq_ok.mp h
  obtain ⟨_, u, hdirs, h⟩ := Effect.bind_eq_ok.mp h
  obtain ⟨-, rfl⟩ := Effect.asks_eq_ok.mp h
  have hstart : Prepared s.state.dataDir.packs (snapshotPath snapshot) t.state.dataDir.packs := by
    rw [Io.passing_ok (io_eq_ok.mp hlock)]
    exact ⟨Made.refl, rfl⟩
  exact (Io.keeps_ensureDir_of fun dir hdir => keeps_makeDir_prepared hdir).ok hstart
    (io_eq_ok.mp hdirs)

/-- The packs directory is not where objects are stored. -/
theorem fromPacks_eq (packs : DirTree) : FromPacks fun disk => disk.dataDir.packs = packs :=
  fun _ _ same hdisk => same.trans hdisk

theorem snapshotIndex_packs {index : PackIndex}
    (h : snapshotIndex crates ord snapshot files s = (.ok index, s')) :
    s'.state.dataDir.packs = s.state.dataDir.packs :=
  (keeps_snapshotIndex (fromPacks_eq _) crates ord snapshot files).ok rfl h

theorem updateHead_packs (h : updateHead snapshot s = (.ok (), s')) :
    s'.state.dataDir.packs = s.state.dataDir.packs :=
  (keeps_updateHead (fromPacks_eq _) snapshot).ok rfl h

theorem publish_stored {path : String} {bytes : List UInt8} {now : Nat}
    (prepared : Prepared before path tree)
    (h : DirTree.publish path bytes now tree = .ok tree') : Stored before path tree' := by
  have hvacant : before.lookup path ≠ some .dir := by
    intro hdir
    rw [← prepared.same] at hdir
    simp [DirTree.publish, hdir, Exec.fail] at h
  have htree := DirTree.publish_ok h
  unfold DirTree.publish at h
  split at h
  · cases h
  · obtain ⟨_, hparents, -⟩ := Exec.bind_eq_ok.mp h
    rw [htree]
    exact .insert prepared.made hvacant hparents _ _

theorem createSnapshotForce_stored
    (h : createSnapshotForce crates writer ord snapshot files s = (.ok (), s')) :
    Stored s.state.dataDir.packs (snapshotPath snapshot) s'.state.dataDir.packs := by
  obtain ⟨_, t, hprepare, h⟩ := Effect.bind_eq_ok.mp h
  obtain ⟨index, u, hindex, h⟩ := Effect.bind_eq_ok.mp h
  obtain ⟨_, v, hwrite, h⟩ := Effect.bind_eq_ok.mp h
  obtain ⟨_, w, hpublish, hhead⟩ := Effect.bind_eq_ok.mp h
  have hprepared := prepareSnapshot_prepared hprepare
  have hv : v.state.dataDir.packs = t.state.dataDir.packs := by
    have hkeeps : Io.KeepsDisk (fun disk => disk.dataDir.packs = u.state.dataDir.packs)
        Io.prepareAtomicWrite := Io.keeps_prepareAtomicWrite
    exact (hkeeps.ok rfl (io_eq_ok.mp hwrite)).trans (snapshotIndex_packs hindex)
  obtain ⟨packs, hop, hstate⟩ := Io.onPacks_ok (io_eq_ok.mp hpublish)
  rw [updateHead_packs hhead, hstate]
  rw [hv] at hop
  exact publish_stored hprepared hop

theorem openForWrite_made {path : String} (prepared : Prepared before path s.state.dataDir.packs)
    (h : openForWrite path s = (.ok (), s')) :
    Made before path s'.state.dataDir.packs ∧ before.lookup path ≠ some .dir := by
  have opens {t : Session Disk Fault} (prepared : Prepared before path t.state.dataDir.packs)
      (h : Io.onPacks (DirTree.openCreate path) t = (.ok (), s')) :
      Made before path s'.state.dataDir.packs ∧ before.lookup path ≠ some .dir := by
    obtain ⟨packs, hop, hstate⟩ := Io.onPacks_ok h
    rw [hstate]
    constructor
    · rcases (DirTree.openCreate_ok hop).2 with ⟨-, rfl⟩ | ⟨-, rfl⟩
      · exact prepared.made
      · intro p hp
        rw [AList.lookup_insert_ne hp]
        exact prepared.made p hp
    · intro hdir
      rw [← prepared.same] at hdir
      unfold DirTree.openCreate at hop
      split_ifs at hop
      · cases hop
      · rw [hdir] at hop
        cases hop
  rcases Effect.orElse_eq_ok.mp h with h | ⟨e, t, retry, herror, hretry, h⟩
  · exact opens prepared h
  · split_ifs at hretry
    cases hretry
    obtain ⟨_, u, hdirs, h⟩ := Effect.bind_eq_ok.mp h
    have ht : Prepared before path t.state.dataDir.packs := by rwa [Io.onPacks_error herror]
    have hkeeps : Io.KeepsDisk (fun disk => Prepared before path disk.dataDir.packs)
        (Io.createDirAll Io.onPacks (DirTree.ancestors path)) :=
      Io.keeps_createDirAll_of fun dir hdir => keeps_makeDir_prepared hdir
    exact opens (hkeeps.ok ht hdirs) h

theorem reserve_made {path : String} (prepared : Prepared before path s.state.dataDir.packs)
    (h : AtomicCreateFile.reserve path s = (.ok (), s')) :
    Made before path s'.state.dataDir.packs ∧ before.lookup path ≠ some .dir := by
  obtain ⟨_, t, hopen, h⟩ := Effect.bind_eq_ok.mp h
  obtain ⟨_, u, hlock, h⟩ := Effect.bind_eq_ok.mp h
  obtain ⟨bytes, v, hlook, h⟩ := Effect.bind_eq_ok.mp h
  obtain ⟨-, rfl⟩ := Effect.lift_eq_ok.mp h
  rw [(Io.look_ok hlook).2, Io.passing_ok hlock]
  exact openForWrite_made prepared hopen

/-- A filled temporary file, where nothing else has changed. -/
theorem fillSnapshot_packs {file : AtomicCreateFile}
    (h : fillSnapshot crates writer ord random snapshot files s = (.ok file, s')) :
    file.path = snapshotPath snapshot ∧ s.state.dataDir.packs.lookup file.temp = none ∧
      (∃ bytes mtime, s'.state.dataDir.packs.lookup file.temp = some (.file bytes mtime)) ∧
      ∀ p, p ≠ file.temp → s'.state.dataDir.packs.lookup p = s.state.dataDir.packs.lookup p := by
  obtain ⟨output, t, htemp, h⟩ := Effect.bind_eq_ok.mp h
  obtain ⟨index, u, hindex, h⟩ := Effect.bind_eq_ok.mp h
  obtain ⟨_, v, hfill, h⟩ := Effect.bind_eq_ok.mp h
  obtain ⟨rfl, rfl⟩ := Effect.pure_eq_ok.mp h
  obtain rfl := createTemp_ok (io_eq_ok.mp htemp)
  obtain ⟨_, t', hcreate, htemp⟩ := Effect.bind_eq_ok.mp (io_eq_ok.mp htemp)
  obtain ⟨_, t'', hlock, htemp⟩ := Effect.bind_eq_ok.mp htemp
  obtain ⟨-, rfl⟩ := Effect.pure_eq_ok.mp htemp
  obtain ⟨created, hcreated, hstate⟩ := Io.onPacks_ok hcreate
  obtain ⟨_, w, hwrite, hfill⟩ := Effect.bind_eq_ok.mp (io_eq_ok.mp hfill)
  obtain ⟨_, w', hassert, hfill⟩ := Effect.bind_eq_ok.mp hfill
  obtain ⟨-, rfl⟩ := Effect.lift_eq_ok.mp hassert
  obtain ⟨written, hwritten, hstate'⟩ := Io.runOnPacks_ok (Session.os_eq_ok hwrite)
  rw [Io.passing_ok hfill, hstate']
  rw [snapshotIndex_packs hindex, Io.passing_ok hlock, hstate] at hwritten
  obtain rfl := DirTree.createNew_ok hcreated
  obtain rfl := DirTree.write_ok hwritten
  refine ⟨rfl, DirTree.createNew_vacant hcreated, ⟨_, _, AList.lookup_insert _⟩, fun p hp => ?_⟩
  rw [AList.lookup_insert_ne hp]
  exact AList.lookup_insert_ne hp

theorem createSnapshot_stored
    (h : createSnapshot crates writer ord random snapshot files s = (.ok (), s')) :
    Stored s.state.dataDir.packs (snapshotPath snapshot) s'.state.dataDir.packs := by
  obtain ⟨_, t, hreserve, h⟩ := Effect.bind_eq_ok.mp h
  obtain ⟨_, u, hwrite, hhead⟩ := Effect.bind_eq_ok.mp h
  obtain ⟨_, s₁, hprepare, hreserve⟩ := Effect.bind_eq_ok.mp hreserve
  obtain ⟨file, v, hfill, hrename⟩ := Effect.bind_eq_ok.mp hwrite
  obtain ⟨made, hvacant⟩ := reserve_made (prepareSnapshot_prepared hprepare) (io_eq_ok.mp hreserve)
  obtain ⟨hpath, hfree, ⟨content, mtime, hfilled⟩, hsame⟩ := fillSnapshot_packs hfill
  obtain ⟨packs, hop, hstate⟩ := Io.onPacks_ok (io_eq_ok.mp hrename)
  rw [updateHead_packs hhead, hstate]
  rw [hpath] at hop
  exact rename_stored made hvacant hfree hfilled hsame hop

end Calls

end Stored

section Tree

/-- Below the directory of the loose snapshots. -/
def InLoose (path : String) : Prop := "loose" ∈ DirTree.ancestors path

def tagIndex (tag : String) : String := (PackId.looseOf tag).indexPath

/-- Below the directory of the loose snapshots are the indexes of some tags, the
directories that they need, and nothing else. -/
structure LooseTree (tags : List String) (tree : DirTree) : Prop where
  files : ∀ path bytes mtime, InLoose path → tree.lookup path = some (.file bytes mtime) →
    ∃ tag ∈ tags, path = tagIndex tag
  dirs : ∀ path, InLoose path → tree.lookup path = some .dir →
    ∃ tag ∈ tags, path ∈ DirTree.ancestors (tagIndex tag)
  index : ∀ tag ∈ tags, ∃ bytes mtime, tree.lookup (tagIndex tag) = some (.file bytes mtime)
  parents : ∀ tag ∈ tags, ∀ dir ∈ DirTree.ancestors (tagIndex tag), tree.lookup dir = some .dir

/-- The packs directories that successful calls leave, from one with nothing loose. -/
inductive Built (crates : Crates) (writer : RmpWriter) : List String → DirTree → Prop
  | empty {tree : DirTree} (vacant : ∀ path, InLoose path → tree.lookup path = none) :
      Built crates writer [] tree
  | created {tags : List String} {s s' : Session Disk Fault} {ord : IterOrder FileHandle}
      {random : List UInt8} {snapshot : SnapshotId} {files : List InputFile}
      (before : Built crates writer tags s.state.dataDir.packs)
      (valid : SnapshotId.isValid crates.unicode snapshot.tag = true)
      (stores : createSnapshot crates writer ord random snapshot files s = (.ok (), s')) :
      Built crates writer (snapshot.tag :: tags) s'.state.dataDir.packs
  | replaced {tags : List String} {s s' : Session Disk Fault} {ord : IterOrder FileHandle}
      {snapshot : SnapshotId} {files : List InputFile}
      (before : Built crates writer tags s.state.dataDir.packs)
      (valid : SnapshotId.isValid crates.unicode snapshot.tag = true)
      (stores : createSnapshotForce crates writer ord snapshot files s = (.ok (), s')) :
      Built crates writer (snapshot.tag :: tags) s'.state.dataDir.packs

variable {crates : Crates} {writer : RmpWriter} {tags : List String} {tag : String}
  {tree tree' : DirTree}

theorem LooseTree.empty (vacant : ∀ path, InLoose path → tree.lookup path = none) :
    LooseTree [] tree where
  files := fun path bytes mtime hin hfile => by
    rw [vacant path hin] at hfile
    cases hfile
  dirs := fun path hin hdir => by
    rw [vacant path hin] at hdir
    cases hdir
  index := by simp
  parents := by simp

theorem LooseTree.stored (h : LooseTree tags tree) (stored : Stored tree (tagIndex tag) tree') :
    LooseTree (tag :: tags) tree' := by
  have hold : ∀ path, path ≠ tagIndex tag → tree.lookup path ≠ none →
      tree'.lookup path = tree.lookup path := by
    intro path hpath hsome
    rcases stored.made path hpath with hsame | ⟨-, hnone, -⟩
    · exact hsame
    · exact absurd hnone hsome
  refine ⟨?_, ?_, List.forall_mem_cons.mpr ⟨stored.file, ?_⟩,
    List.forall_mem_cons.mpr ⟨stored.parents, ?_⟩⟩
  · intro path bytes mtime hin hfile
    by_cases hpath : path = tagIndex tag
    · exact ⟨tag, List.mem_cons_self, hpath⟩
    · rcases stored.made path hpath with hsame | ⟨-, -, hdir⟩
      · rw [hsame] at hfile
        obtain ⟨other, hother, heq⟩ := h.files path bytes mtime hin hfile
        exact ⟨other, List.mem_cons_of_mem tag hother, heq⟩
      · rw [hdir] at hfile
        cases hfile
  · intro path hin hdir
    by_cases hpath : path = tagIndex tag
    · subst hpath
      obtain ⟨bytes, mtime, hfile⟩ := stored.file
      rw [hfile] at hdir
      cases hdir
    · rcases stored.made path hpath with hsame | ⟨hparent, -, -⟩
      · rw [hsame] at hdir
        obtain ⟨other, hother, hparent⟩ := h.dirs path hin hdir
        exact ⟨other, List.mem_cons_of_mem tag hother, hparent⟩
      · exact ⟨tag, List.mem_cons_self, hparent⟩
  · intro other hother
    by_cases hpath : tagIndex other = tagIndex tag
    · rw [hpath]
      exact stored.file
    · obtain ⟨bytes, mtime, hfile⟩ := h.index other hother
      refine ⟨bytes, mtime, ?_⟩
      rw [hold _ hpath (by simp [hfile]), hfile]
  · intro other hother dir hparent
    have hdir := h.parents other hother dir hparent
    have hpath : dir ≠ tagIndex tag := by
      rintro rfl
      exact stored.vacant hdir
    rw [hold dir hpath (by simp [hdir]), hdir]

theorem Built.looseTree (h : Built crates writer tags tree) : LooseTree tags tree := by
  induction h with
  | empty vacant => exact .empty vacant
  | created _ _ stores ih => exact ih.stored (createSnapshot_stored stores)
  | replaced _ _ stores ih => exact ih.stored (createSnapshotForce_stored stores)

theorem Built.valid (h : Built crates writer tags tree) :
    ∀ tag ∈ tags, SnapshotId.isValid crates.unicode tag = true := by
  induction h with
  | empty => simp
  | created _ valid _ ih => exact List.forall_mem_cons.mpr ⟨valid, ih⟩
  | replaced _ valid _ ih => exact List.forall_mem_cons.mpr ⟨valid, ih⟩

/-- The tag needs a directory where the pack of another would be. -/
def BelowPack (tag other : String) : Prop := (tag ++ ".pack/").toList <+: other.toList

theorem tagIndex_toList (tag : String) : (tagIndex tag).toList =
    loosePrefix.toList ++ (tag.toList ++ dotPackIndexExtension.toList) := by
  rw [tagIndex, PackId.indexPath, PackId.looseOf, String.toList_append, String.toList_append,
    List.append_assoc]

theorem prefix_of_off {front front' back : List Char} (h : front ++ ['/'] <+: front' ++ back)
    (hback : '/' ∉ back) : front ++ ['/'] <+: front' := by
  rcases List.prefix_or_prefix_of_prefix h (List.prefix_append front' back) with hshort | hlong
  · exact hshort
  · obtain ⟨rest, hrest⟩ := hlong
    rw [← hrest, List.prefix_append_right_inj] at h
    cases hlast : rest.getLast? with
    | none =>
      rw [List.getLast?_eq_none_iff] at hlast
      rw [← hrest, hlast, List.append_nil]
    | some c =>
      have hc : (front' ++ rest).getLast? = some '/' := by rw [hrest, List.getLast?_concat]
      rw [List.getLast?_append, hlast] at hc
      cases hc
      exact absurd (h.subset (List.mem_of_getLast? hlast)) hback

theorem packPath_ancestor_iff {other : String} :
    (PackId.looseOf tag).packPath ∈ DirTree.ancestors (tagIndex other) ↔ BelowPack tag other := by
  have hpack : (PackId.looseOf tag).packPath.toList ++ ['/'] =
      loosePrefix.toList ++ (tag ++ ".pack/").toList := by
    rw [PackId.packPath, PackId.looseOf, String.toList_append, String.toList_append,
      String.toList_append, List.append_assoc, List.append_assoc]
    rfl
  have hsplit : (tag ++ ".pack/").toList = (tag ++ ".pack").toList ++ ['/'] := by
    rw [String.toList_append, String.toList_append, List.append_assoc]
    rfl
  rw [DirTree.mem_ancestors, hpack, tagIndex_toList, List.prefix_append_right_inj, BelowPack]
  constructor
  · intro h
    rw [hsplit] at h ⊢
    exact prefix_of_off h extension_offSlash
  · exact fun h => h.trans (List.prefix_append _ _)

theorem inLoose_tag {path suffix : String} (h : path = (PackId.looseOf tag).name ++ suffix) :
    InLoose path := by
  rw [InLoose, DirTree.mem_ancestors, h, PackId.looseOf, String.toList_append,
    String.toList_append, List.append_assoc]
  exact List.prefix_append _ _

theorem packPath_present_iff (h : LooseTree tags tree) :
    tree.present (PackId.looseOf tag).packPath = true ↔ ∃ other ∈ tags, BelowPack tag other := by
  rw [DirTree.present, Option.isSome_iff_exists]
  constructor
  · rintro ⟨node, hnode⟩
    have hin : InLoose (PackId.looseOf tag).packPath := inLoose_tag rfl
    cases node with
    | file bytes mtime =>
      obtain ⟨other, -, hpath⟩ := h.files _ bytes mtime hin hnode
      exact absurd hpath.symm (indexPath_ne_packPath _ _)
    | dir =>
      obtain ⟨other, hother, hparent⟩ := h.dirs _ hin hnode
      exact ⟨other, hother, packPath_ancestor_iff.mp hparent⟩
  · rintro ⟨other, hother, hbelow⟩
    exact ⟨.dir, h.parents other hother _ (packPath_ancestor_iff.mpr hbelow)⟩

end Tree

section Delete

variable {crates : Crates} {tag : String} {dd : DataDir}

/-- Deleting a loose snapshot is stopped by anything in the place of its pack. -/
theorem deletePack_blocked (valid : SnapshotId.isValid crates.unicode tag = true)
    (hindex : dd.packs.present (tagIndex tag) = true)
    (hpack : dd.packs.present (PackId.looseOf tag).packPath = true) :
    deletePack crates dd (PackId.looseOf tag) =
      Exec.fail (.ioError (.other "Unexpected .pack for loose")) := by
  rw [deletePack, PackId.validate_looseOf.mpr valid, isPackLoose_iff.mpr ⟨tag, rfl, valid, hindex⟩, hpack]
  rfl

theorem deletePack_clear (valid : SnapshotId.isValid crates.unicode tag = true)
    {bytes : List UInt8} {mtime : Nat}
    (hindex : dd.packs.lookup (tagIndex tag) = some (.file bytes mtime))
    (hpack : dd.packs.present (PackId.looseOf tag).packPath = false) {packs : DirTree}
    (hdirs : DirTree.removeEmptyDirs (dd.packs.erase (tagIndex tag))
      (DirTree.ancestors (tagIndex tag)).tail.reverse = .ok packs) :
    deletePack crates dd (PackId.looseOf tag) = .ok { dd with packs } := by
  have hpresent : dd.packs.present (tagIndex tag) = true := by rw [DirTree.present, hindex]; rfl
  have hremove : dd.packs.removeFile (PackId.looseOf tag).indexPath =
      .ok (dd.packs.erase (tagIndex tag)) :=
    DirTree.removeFile_eq_ok.mpr ⟨⟨bytes, DirTree.mem_files.mpr ⟨mtime, hindex⟩⟩, rfl⟩
  rw [deletePack, PackId.validate_looseOf.mpr valid, isPackLoose_iff.mpr ⟨tag, rfl, valid, hpresent⟩, hpack,
    hremove]
  unfold tagIndex at hdirs ⊢
  simp only [Exec.mapError_ok, Exec.ok_bind, hdirs]
  rfl

theorem ancestors_tagIndex (tag : String) :
    ∃ rest, DirTree.ancestors (tagIndex tag) = "loose" :: rest := by
  have hloose : loosePrefix.toList = ['l', 'o', 'o', 's', 'e', '/'] := rfl
  rw [DirTree.ancestors, tagIndex_toList, hloose]
  exact ⟨_, rfl⟩

/-- The index of a tag is gone; every other file is as it was, and below the loose
directory these are the indexes of the other tags; and a directory that is left on the
way to the index has something in it. -/
def DeletesIndex (crates : Crates) (dd : DataDir) (tags : List String) (tag : String) : Prop :=
  ∃ dd', deletePack crates dd (PackId.looseOf tag) = .ok dd' ∧
    (∀ path bytes, (path, bytes) ∈ dd'.packs.files ↔
      (path, bytes) ∈ dd.packs.files ∧ path ≠ tagIndex tag) ∧
    (∀ path, InLoose path → ((∃ bytes, (path, bytes) ∈ dd'.packs.files) ↔
      ∃ other ∈ tags, other ≠ tag ∧ path = tagIndex other)) ∧
    ∀ dir ∈ DirTree.ancestors (tagIndex tag), InLoose dir → dd'.packs.lookup dir = some .dir →
      dd'.packs.hasChildren dir = true

theorem LooseTree.indexes {tags : List String} {tree : DirTree} (h : LooseTree tags tree)
    {path : String} (hin : InLoose path) :
    (∃ bytes, (path, bytes) ∈ tree.files) ↔ ∃ other ∈ tags, path = tagIndex other := by
  constructor
  · rintro ⟨bytes, hfile⟩
    obtain ⟨mtime, hlookup⟩ := DirTree.mem_files.mp hfile
    exact h.files path bytes mtime hin hlookup
  · rintro ⟨other, hother, rfl⟩
    obtain ⟨bytes, mtime, hlookup⟩ := h.index other hother
    exact ⟨bytes, DirTree.mem_files.mpr ⟨mtime, hlookup⟩⟩

theorem LooseTree.deletes {tags : List String} (h : LooseTree tags dd.packs) (htag : tag ∈ tags)
    (valid : SnapshotId.isValid crates.unicode tag = true)
    (clear : ∀ other ∈ tags, ¬ BelowPack tag other) : DeletesIndex crates dd tags tag := by
  obtain ⟨bytes, mtime, hindex⟩ := h.index tag htag
  obtain ⟨rest, hrest⟩ := ancestors_tagIndex tag
  have hpack : dd.packs.present (PackId.looseOf tag).packPath = false := by
    rw [Bool.eq_false_iff]
    intro hpresent
    obtain ⟨other, hother, hbelow⟩ := (packPath_present_iff h).mp hpresent
    exact clear other hother hbelow
  have hchain : (DirTree.ancestors (tagIndex tag)).tail.reverse.Pairwise
      fun inner outer => outer ∈ DirTree.ancestors inner :=
    List.pairwise_reverse.mpr ((DirTree.ancestors_pairwise (tagIndex tag)).tail)
  have hdirs : ∀ dir ∈ (DirTree.ancestors (tagIndex tag)).tail.reverse,
      (dd.packs.erase (tagIndex tag)).lookup dir = some .dir := by
    intro dir hdir
    have hparent := List.mem_of_mem_tail (List.mem_reverse.mp hdir)
    have hne : dir ≠ tagIndex tag := by
      rintro rfl
      exact DirTree.not_mem_ancestors_self hparent
    rw [AList.lookup_erase_ne hne, h.parents tag htag dir hparent]
  obtain ⟨packs, hrun, -, hempty⟩ := DirTree.removeEmptyDirs_chain hchain hdirs
  have hfiles (path : String) (content : List UInt8) : (path, content) ∈ packs.files ↔
      (path, content) ∈ dd.packs.files ∧ path ≠ tagIndex tag := by
    rw [DirTree.removeEmptyDirs_files hrun, DirTree.mem_files_erase]
  refine ⟨_, deletePack_clear valid hindex hpack hrun, hfiles, fun path hin => ?_, ?_⟩
  · simp only [hfiles, exists_and_right, h.indexes hin]
    constructor
    · rintro ⟨⟨other, hother, rfl⟩, hne⟩
      exact ⟨other, hother, fun heq => hne (heq ▸ rfl), rfl⟩
    · rintro ⟨other, hother, hne, rfl⟩
      refine ⟨⟨other, hother, rfl⟩, fun heq => hne ?_⟩
      exact PackId.looseOf_injective (PackId.indexPath_injective heq)
  · intro dir hparent hin hdir
    rw [hrest] at hparent hempty
    rcases List.mem_cons.mp hparent with rfl | hmem
    · exact absurd hin DirTree.not_mem_ancestors_self
    · rcases hempty dir (List.mem_reverse.mpr hmem) with hnone | hchildren
      · rw [hdir] at hnone
        cases hnone
      · exact hchildren

/-- The deletion of a loose snapshot does its work just where no other tag lies in a
directory that is named like the pack of the snapshot. -/
theorem deletePack_loose_iff {writer : RmpWriter} {tags : List String}
    (built : Built crates writer tags dd.packs) (htag : tag ∈ tags) :
    DeletesIndex crates dd tags tag ↔ ∀ other ∈ tags, ¬ BelowPack tag other := by
  have htree := built.looseTree
  have hvalid := built.valid tag htag
  refine ⟨fun hdeletes other hother hbelow => ?_, htree.deletes htag hvalid⟩
  obtain ⟨dd', hdelete, -⟩ := hdeletes
  obtain ⟨bytes, mtime, hindex⟩ := htree.index tag htag
  have hpresent : dd.packs.present (tagIndex tag) = true := by rw [DirTree.present, hindex]; rfl
  have hpack := (packPath_present_iff htree).mpr ⟨other, hother, hbelow⟩
  rw [deletePack_blocked hvalid hpresent hpack] at hdelete
  cases hdelete

end Delete

namespace NestedSample

theorem digest_length : (List.replicate 20 (1 : UInt8)).length = 20 := List.length_replicate

def digest : ObjectChecksum := ⟨List.replicate 20 1, digest_length⟩

def crates : Crates := ⟨messagePack, fun _ => digest, PathSample.unicode⟩

def session : Session Disk Fault := ⟨⟨⟨∅, ∅, none⟩, 0⟩, []⟩

def snapshot (tag : String) : SnapshotId := ⟨PackId.looseOf tag, tag⟩

def store (tag : String) : Call Unit :=
  createSnapshot crates messagePackWriter .insertion [1] (snapshot tag) []

def one : Session Disk Fault := (store "a" session).2

/-- A second snapshot, in a directory that is named like the pack of the first. -/
def two : Session Disk Fault := (store "a.pack/b" one).2

theorem run_eq {x : Exec Error Unit × Session Disk Fault} (h : x.1 = .ok ()) : x = (.ok (), x.2) :=
  Prod.ext h rfl

theorem store_one : (store "a" session).1 = .ok () := by rfl

theorem store_two : (store "a.pack/b" one).1 = .ok () := by rfl

theorem built_one : Built crates messagePackWriter ["a"] one.state.dataDir.packs := by
  have hvacant : ∀ path, InLoose path → session.state.dataDir.packs.lookup path = none :=
    fun path _ => AList.lookup_empty path
  have hvalid : SnapshotId.isValid crates.unicode (snapshot "a").tag = true := by rfl
  exact .created (.empty hvacant) hvalid (run_eq store_one)

theorem built_two :
    Built crates messagePackWriter ["a.pack/b", "a"] two.state.dataDir.packs := by
  have hvalid : SnapshotId.isValid crates.unicode (snapshot "a.pack/b").tag = true := by
    rfl
  exact .created built_one hvalid (run_eq store_two)

theorem delete_fails :
    (deletePack crates two.state.dataDir (PackId.looseOf "a")).isOk = false := by
  rfl

end NestedSample

theorem deletePack_loose_single : DeletesIndex NestedSample.crates
    NestedSample.one.state.dataDir ["a"] "a" := by
  refine (deletePack_loose_iff NestedSample.built_one List.mem_cons_self).mpr ?_
  intro other hother hbelow
  rw [List.mem_singleton.mp hother, BelowPack, String.toList_append] at hbelow
  have hlength := hbelow.length_le
  rw [List.length_append] at hlength
  simp at hlength

/-- A loose snapshot cannot be deleted while another tag needs a directory that has
the name of its pack. -/
theorem deletePack_loose_fails : ¬ ∀ (crates : Crates) (writer : RmpWriter) (tags : List String)
    (dd : DataDir) (tag : String), tags.Nodup → Built crates writer tags dd.packs → tag ∈ tags →
      DeletesIndex crates dd tags tag := by
  intro h
  have hnodup : ["a.pack/b", "a"].Nodup := by decide
  have hmem : "a" ∈ ["a.pack/b", "a"] := List.mem_cons_of_mem _ List.mem_cons_self
  obtain ⟨dd', hdelete, -⟩ := h NestedSample.crates messagePackWriter _
    NestedSample.two.state.dataDir "a" hnodup NestedSample.built_two hmem
  have hfails := NestedSample.delete_fails
  rw [hdelete] at hfails
  cases hfails

end Elfshaker.Store
