import Elfshaker.Esi.Pending

namespace Elfshaker.Esi

open Elfshaker.Library Elfshaker.Format

variable {system : System} {kept : Set String} {files base : String → Option File}
  {staged : List (String × File)} {fails : Bool} {limit : Nat} {s : Disk}

/-- The documents of a commit, each with what is staged of it. -/
abbrev Batch := List (PendingWrite × DocumentWrite)

def heldAll (system : System) (files : String → Option File) (batch : Batch) :
    List (String × File) :=
  batch.flatMap fun x => x.1.held system files x.2

def changedAll (batch : Batch) : List String :=
  batch.flatMap fun x => x.1.changed

theorem heldAll_append (batch batch' : Batch) :
    heldAll system files (batch ++ batch') =
      heldAll system files batch ++ heldAll system files batch' :=
  List.flatMap_append ..

theorem heldAll_cons (item : PendingWrite) (write : DocumentWrite) (batch : Batch) :
    heldAll system files ((item, write) :: batch) =
      item.held system files write ++ heldAll system files batch := rfl

theorem notMem_changedAll {done rest : Batch} {item : PendingWrite} {write : DocumentWrite}
    {path : String} : path ∉ changedAll (done ++ (item, write) :: rest) ↔
      path ∉ changedAll done ∧ path ∉ item.changed ∧ path ∉ changedAll rest := by
  simp only [changedAll, List.flatMap_append, List.flatMap_cons, List.mem_append, not_or]

section Lists

theorem drops_all {batch : Batch} (h : ∀ x ∈ batch, x.1.Droppable files x.2) :
    Drops system kept (dropAll (batch.map Prod.fst)) (heldAll system files batch) := by
  induction batch with
  | nil => exact .pure
  | cons x batch ih =>
    exact (drops_write (h x List.mem_cons_self)).bind
      (ih fun y hy => h y (List.mem_cons_of_mem _ hy))

/-- The staging files of some documents. -/
def allPermissions (files : String → Option File) (writes : List DocumentWrite) :
    List (Option UInt32) :=
  writes.flatMap (stagingPermissions files)

theorem stageAll_triple (hdraws : Draws system kept files limit) {writes : List DocumentWrite}
    (hkept : ∀ w ∈ writes, w.path ∈ kept ∧ (w.backup = true → backupPath w.path ∈ kept))
    {batch : Batch} (hbatch : ∀ x ∈ batch, x.1.Staged kept files x.2) :
    Effect.Triple
      (Ready system kept files fails limit (allPermissions files writes)
        (heldAll system files batch))
      (stageAll system (batch.map Prod.fst) writes)
      (fun pending s => ∃ batch' : Batch, pending = batch'.map Prod.fst ∧
        batch'.map Prod.snd = batch.map Prod.snd ++ writes ∧
        (∀ x ∈ batch', x.1.Staged kept files x.2) ∧
        Ready system kept files fails limit [] (heldAll system files batch') s)
      (Ends system kept files fails []) := by
  induction writes generalizing batch with
  | nil => exact .pure fun _ h => ⟨batch, rfl, (List.append_nil _).symm, hbatch, h⟩
  | cons write writes ih =>
    rw [stageAll]
    have hdrops : Drops system kept (dropAll (batch.map Prod.fst)) (heldAll system files batch) :=
      drops_all fun x hx => (hbatch x hx).toSound.droppable
    obtain ⟨hpath, hbackup⟩ := hkept write List.mem_cons_self
    have hstage : Effect.Triple
        (Ready system kept files fails limit (allPermissions files (write :: writes))
          (heldAll system files batch))
        (stage system write)
        (fun item s => Ready system kept files fails limit (allPermissions files writes)
          (item.held system files write ++ heldAll system files batch) s ∧
            item.Staged kept files write)
        (Ends system kept files fails (heldAll system files batch ++ [])) := by
      rw [List.append_nil]
      exact stage_triple hdraws hpath hbackup
    refine (hstage.onError hdrops.ends).bind_fact fun item hitem => ?_
    have hall : ∀ x ∈ batch ++ [(item, write)], x.1.Staged kept files x.2 := by
      intro x hx
      rcases List.mem_append.mp hx with hx | hx
      · exact hbatch x hx
      · rw [List.mem_singleton.mp hx]
        exact hitem
    have hnext := ih (fun w hw => hkept w (List.mem_cons_of_mem _ hw)) hall
    rw [List.map_append, List.map_append, List.append_assoc] at hnext
    refine hnext.weaken (fun s h => at_perm ?_ h) (fun _ _ h => h) fun _ h => h
    rw [heldAll_append]
    simpa [heldAll] using List.perm_append_comm

/-- The later of two documents is not written over the earlier one. -/
structure Apart (earlier later : DocumentWrite) : Prop where
  path : earlier.path ≠ later.path
  backup : later.backup = true → earlier.path ≠ backupPath later.path

/-- Nothing has been published but what the documents say. -/
structure PublishedAll (system : System) (kept : Set String) (files : String → Option File)
    (batch : Batch) (base : String → Option File) (s : Disk) : Prop where
  sound : ∀ x ∈ batch, x.1.Sound kept files x.2
  holds : Holds system kept base (heldAll system files batch) s
  same : ∀ path ∉ changedAll batch, base path = files path

theorem PendingWrite.Sound.changed_path {item : PendingWrite} {write : DocumentWrite} {path : String}
    (hsound : item.Sound kept files write) (hchanged : path ∈ item.changed) :
    path = write.path ∨ (write.backup = true ∧ path = backupPath write.path) := by
  obtain ⟨file, backup⟩ := item
  have hfile {pending : PendingFile} (h : path ∈ pending.changed) : path = pending.path := by
    unfold PendingFile.changed at h
    split at h
    · exact List.mem_singleton.mp h
    · cases h
  rcases List.mem_append.mp hchanged with h | h
  · cases backup with
    | none => cases h
    | some backup =>
      obtain ⟨hpath, -, hasked⟩ := hsound.backup backup rfl
      exact .inr ⟨hasked, (hfile h).trans hpath⟩
  · exact .inl ((hfile h).trans hsound.path)

theorem PendingWrite.Staged.changed {item : PendingWrite} {write : DocumentWrite}
    (h : item.Staged kept files write) : item.changed = [] := by
  obtain ⟨file, backup⟩ := item
  have hnot : file.published = false := h.unpublished
  have hfile : file.changed = [] := by simp [PendingFile.changed, hnot]
  have hbackup : changedBackup backup = [] := by
    cases backup with
    | none => rfl
    | some backup => simp [changedBackup, PendingFile.changed, h.backupUnpublished backup rfl]
  rw [PendingWrite.changed, hfile, hbackup, List.append_nil]

theorem publishAll_run {done rest : Batch} (hrest : ∀ x ∈ rest, x.1.Staged kept files x.2)
    (hapart : ((done ++ rest).map Prod.snd).Pairwise Apart)
    (hdone : PublishedAll system kept files (done ++ rest) base s)
    (htargets : ∀ x ∈ done, base x.2.path = some (newFile system files x.2)) :
    ∃ batch result t base', publishAll (done.map Prod.fst) (rest.map Prod.fst) s =
        (.ok (batch.map Prod.fst, result), t) ∧
      batch.map Prod.snd = (done ++ rest).map Prod.snd ∧
      PublishedAll system kept files batch base' t ∧
      (∀ e, result = .error e → t.failing = none) ∧
      (result = .ok () → ∀ x ∈ batch, base' x.2.path = some (newFile system files x.2)) := by
  induction rest generalizing done base s with
  | nil =>
    rw [List.append_nil] at hdone ⊢
    exact ⟨done, .ok (), s, base, rfl, rfl, hdone, nofun, fun _ => htargets⟩
  | cons x rest ih =>
    obtain ⟨item, write⟩ := x
    have hstaged : item.Staged kept files write := hrest _ List.mem_cons_self
    have hearlier : ∀ y ∈ done, Apart y.2 write := by
      rw [List.map_append, List.map_cons] at hapart
      exact fun y hy => (List.pairwise_append.mp hapart).2.2 y.2 (List.mem_map_of_mem hy) write
        List.mem_cons_self
    have hperm (item' : PendingWrite) : (heldAll system files (done ++ (item', write) :: rest)).Perm
        (item'.held system files write ++ heldAll system files (done ++ rest)) := by
      rw [heldAll_append, heldAll_append, heldAll_cons]
      exact List.perm_append_comm_assoc ..
    obtain ⟨item', result, t, base', hrun, hpublished⟩ :=
      publish_run hstaged (hdone.holds.perm (hperm item))
    have hnow : PublishedAll system kept files (done ++ (item', write) :: rest) base' t := by
      refine ⟨fun y hy => ?_, hpublished.holds.perm (hperm item').symm, fun path hpath => ?_⟩
      · rcases List.mem_append.mp hy with hy | hy
        · exact hdone.sound y (List.mem_append_left _ hy)
        rcases List.mem_cons.mp hy with rfl | hy
        · exact hpublished.sound
        · exact hdone.sound y (List.mem_append_right _ (List.mem_cons_of_mem _ hy))
      · obtain ⟨hbefore, hitem, hafter⟩ := notMem_changedAll.mp hpath
        rw [hpublished.same path hitem]
        refine hdone.same path (notMem_changedAll.mpr ⟨hbefore, ?_, hafter⟩)
        rw [hstaged.changed]
        exact List.not_mem_nil
    cases result with
    | error e =>
      refine ⟨done ++ (item', write) :: rest, .error e, t, base', ?_, ?_, hnow,
        fun _ _ => hpublished.stopped e rfl, nofun⟩
      · rw [List.map_append]
        exact Effect.bind_of_ok hrun
      · simp
    | ok =>
      rw [List.append_cons] at hnow
      have hwritten : ∀ y ∈ done ++ [(item', write)],
          base' y.2.path = some (newFile system files y.2) := by
        intro y hy
        rcases List.mem_append.mp hy with hy | hy
        · rw [← htargets y hy]
          refine hpublished.same _ fun hchanged => ?_
          rcases hpublished.sound.changed_path hchanged with hpath | ⟨hasked, hpath⟩
          · exact (hearlier y hy).path hpath
          · exact (hearlier y hy).backup hasked hpath
        · rw [List.mem_singleton.mp hy]
          exact hpublished.target rfl
      have hstill : ((done ++ [(item', write)] ++ rest).map Prod.snd).Pairwise Apart := by
        simpa using hapart
      obtain ⟨batch, result, u, base'', hrun', hwrites, hall, hstopped, htargets'⟩ :=
        ih (fun y hy => hrest y (List.mem_cons_of_mem _ hy)) hstill hnow hwritten
      refine ⟨batch, result, u, base'', ?_, ?_, hall, hstopped, htargets'⟩
      · rw [List.map_append] at hrun'
        exact (Effect.bind_of_ok hrun).trans hrun'
      · simpa using hwrites

/-- Everything that has been published is put back, so that each file is as it was. -/
theorem rollbackAll_run {batch : Batch} (hsound : ∀ x ∈ batch, x.1.Sound kept files x.2)
    (hnone : s.failing = none)
    (h : Holds system kept base (heldAll system files batch ++ staged) s) :
    ∃ undone : Batch, ∃ t base', rollback (batch.map Prod.fst) s =
        (.ok (undone.map Prod.fst, none), t) ∧
      (∀ x ∈ undone, x.1.Droppable files x.2) ∧
      Holds system kept base' (heldAll system files undone ++ staged) t ∧
      Restored files (changedAll batch) base base' ∧ t.failing = none := by
  induction batch generalizing staged with
  | nil => exact ⟨[], s, base, rfl, nofun, h, .refl files base, hnone⟩
  | cons x batch ih =>
    obtain ⟨item, write⟩ := x
    rw [heldAll_cons, List.append_assoc] at h
    obtain ⟨undone, t, base', hrun, hdrop, hholds, hrestored, hclear⟩ :=
      ih (fun y hy => hsound y (List.mem_cons_of_mem _ hy)) (h.perm (List.perm_append_comm_assoc ..))
    obtain ⟨item', u, base'', hrun', hdrop', hholds', hrestored', hclear'⟩ :=
      rollback_run (hsound _ List.mem_cons_self) hclear (hholds.perm (List.perm_append_comm_assoc ..))
    refine ⟨(item', write) :: undone, u, base'', (Effect.bind_of_ok hrun).trans
      (Effect.bind_of_ok hrun'), fun y hy => ?_, ?_, hrestored.trans hrestored', hclear'⟩
    · rcases List.mem_cons.mp hy with rfl | hy
      · exact hdrop'
      · exact hdrop y hy
    · rw [heldAll_cons, List.append_assoc]
      exact hholds'

end Lists

section Validate

variable {d : Demand}

/-- What a path is told apart by. -/
def identity (system : System) (files : String → Option File) (path : String) : String :=
  match files path with
  | some _ => system.canonical path
  | none =>
    if path.toList.head? = some '/' then path
    else match system.currentDir with
    | .ok dir => dir ++ "/" ++ path
    | .error _ => path

/-- The files, and whether one of the operations to come fails. -/
structure Untouched (s : Disk) (d : Demand) (t : Disk) : Prop extends SameFiles s t where
  fails : t.fails d = s.fails d

theorem pathIdentity_triple (hd : d .canonicalize = 0) (path : String) :
    Effect.Triple (Untouched s d) (pathIdentity system path)
      (fun found t => Untouched s d t ∧ found = identity system s.files path) (SameFiles s) := by
  have hstep {t u : Disk} (ht : Untouched s d t) (hsame : SameFiles t u)
      (hfails : u.fails d = t.fails d) : Untouched s d u :=
    ⟨ht.toSameFiles.trans hsame, hfails.trans ht.fails⟩
  refine .of_run fun t ht => ?_
  rcases onFile_free hd path (fun _ s => s) (fun _ s => (system.canonical path, s)) t with
    ⟨file, u, hfile, hrun, hsame, hfails⟩ | ⟨u, hnone, hrun, hsame, hfails⟩ |
      ⟨failing, u, hrun, hsame, -, -⟩
  · have hattempt := Effect.attempt_eq_ok (δ := CommitError).mpr hrun
    rw [pathIdentity, canonicalize, Effect.bind_of_ok hattempt]
    refine ⟨hstep ht hsame hfails, ?_⟩
    rw [identity, ← ht.files, hfile]
  · have hattempt := Effect.attempt_eq_error (δ := CommitError).mpr hrun
    rw [pathIdentity, canonicalize, Effect.bind_of_ok hattempt]
    rw [ht.files] at hnone
    simp only [identity, hnone]
    by_cases habsolute : path.toList.head? = some '/'
    · rw [if_pos habsolute, if_pos habsolute]
      exact ⟨hstep ht hsame hfails, rfl⟩
    · rw [if_neg habsolute, if_neg habsolute]
      cases system.currentDir with
      | ok dir => exact ⟨hstep ht hsame hfails, rfl⟩
      | error error => exact ht.toSameFiles.trans hsame
  · have hattempt := Effect.attempt_eq_error (δ := CommitError).mpr hrun
    rw [pathIdentity, canonicalize, Effect.bind_of_ok hattempt]
    obtain ⟨_, _, error, _, hpresent⟩ := failing
    cases error with
    | notFound => exact absurd rfl hpresent
    | _ => exact ht.toSameFiles.trans hsame

theorem checkPaths_triple (hd : d .canonicalize = 0) (message : String → String)
    (seen paths : List String) :
    Effect.Triple (Untouched s d) (checkPaths system message seen paths)
      (fun found t => Untouched s d t ∧
        found = (paths.map (identity system s.files)).reverse ++ seen ∧
        (seen.Nodup → found.Nodup)) (SameFiles s) := by
  induction paths generalizing seen with
  | nil => exact .pure fun _ ht => ⟨ht, rfl, id⟩
  | cons path paths ih =>
    rw [checkPaths]
    refine (pathIdentity_triple hd path).bind_fact fun found hfound => ?_
    split
    · exact Effect.Triple.fails.weaken (fun _ h => h) (fun _ _ h => h) fun _ h => h.toSameFiles
    · rename_i hnew
      refine (ih (found :: seen)).weaken (fun _ h => h) (fun found' t h => ?_) fun _ h => h
      obtain ⟨ht, hlist, hnodup⟩ := h
      refine ⟨ht, ?_, fun hseen => hnodup (List.nodup_cons.mpr ⟨hnew, hseen⟩)⟩
      rw [hlist, hfound]
      simp

/-- No two of the paths that a commit writes to are one. -/
theorem validate_triple (hd : d .canonicalize = 0) (writes : List DocumentWrite) :
    Effect.Triple (Untouched s d) (validateDocumentWrites system writes)
      (fun _ t => Untouched s d t ∧ (writes.map DocumentWrite.path ++ backups writes).Nodup)
      (SameFiles s) := by
  unfold validateDocumentWrites
  refine (checkPaths_triple hd _ [] _).bind_fact fun seen hseen => ?_
  refine (checkPaths_triple hd _ seen _).bind_fact fun seen' hseen' => .pure fun t ht => ⟨ht, ?_⟩
  have hnodup := hseen'.2 (hseen.2 List.nodup_nil)
  rw [hseen'.1, hseen.1, List.append_nil, ← List.reverse_append, List.nodup_reverse,
    ← List.map_append] at hnodup
  exact hnodup.of_map

theorem pairwise_apart {writes : List DocumentWrite}
    (h : (writes.map DocumentWrite.path ++ backups writes).Nodup) : writes.Pairwise Apart := by
  obtain ⟨hpaths, -, hapart⟩ := List.nodup_append'.mp h
  have hpairwise := List.pairwise_map.mp hpaths
  refine hpairwise.imp_of_mem fun {a b} ha hb hne => ⟨hne, fun hasked heq => ?_⟩
  refine hapart (List.mem_map_of_mem ha) ?_
  rw [heq]
  exact List.mem_map_of_mem (List.mem_filter.mpr ⟨hb, hasked⟩)

end Validate

section Commit

/-- The paths that a commit writes to. -/
def targets (writes : List DocumentWrite) : Set String :=
  {path | path ∈ writes.map DocumentWrite.path ++ backups writes}

/-- Where there is an error each file is as it was, and no staging file is left. -/
def AllOrNothing (system : System) (writes : List DocumentWrite) (s : Disk) : Prop :=
  match commitDocuments system writes s with
  | (.ok _, t) => ∀ w ∈ writes, ∃ file, t.files w.path = some file ∧ file.bytes = w.contents
  | (.error _, t) => t.files = s.files

/-- The names that a commit can draw are those of no files. -/
abbrev FreshNames (system : System) (writes : List DocumentWrite) (s : Disk) : Prop :=
  Draws system (targets writes) s.files (s.drawn + 100 * (allPermissions s.files writes).length)

theorem conclude_run {batch : Batch} {result : Except CommitError Unit}
    (hall : PublishedAll system kept files batch base s)
    (hstopped : ∀ e, result = .error e → s.failing = none)
    (htargets : result = .ok () → ∀ x ∈ batch, base x.2.path = some (newFile system files x.2)) :
    match conclude system (batch.map Prod.fst) result s with
    | (.ok _, t) => ∀ x ∈ batch, t.files x.2.path = some (newFile system files x.2)
    | (.error _, t) => t.files = files := by
  have hholds := hall.holds
  rw [← List.append_nil (heldAll system files batch)] at hholds
  cases result with
  | ok =>
    have hdrops : Drops system kept (dropAll (batch.map Prod.fst)) (heldAll system files batch) :=
      drops_all fun x hx => (hall.sound x hx).droppable
    obtain ⟨t, hrun, hdropped, -⟩ := hdrops base [] s hholds
    rw [conclude, hrun]
    intro x hx
    rw [hdropped.toOverlay.eq_base]
    exact htargets rfl x hx
  | error error =>
    obtain ⟨undone, t, base', hrun, hdroppable, hrest, hrestored, -⟩ :=
      rollbackAll_run hall.sound (hstopped error rfl) hholds
    have hdrops : Drops system kept (dropAll (undone.map Prod.fst)) (heldAll system files undone) :=
      drops_all hdroppable
    obtain ⟨u, hrun', hdropped, -⟩ := hdrops base' [] t hrest
    have hconclude : conclude system (batch.map Prod.fst) (.error error) s = (Exec.fail error, u) :=
      (Effect.bind_of_ok hrun).trans (Effect.bind_of_ok hrun')
    rw [hconclude]
    refine hdropped.toOverlay.eq_base.trans (funext fun path => ?_)
    by_cases hchanged : path ∈ changedAll batch
    · exact (hrestored path).1 hchanged
    · exact ((hrestored path).2 hchanged).trans (hall.same path hchanged)

theorem fails_demand_nil (s : Disk) : s.fails (demand []) = false := by
  have hnothing (operation : Operation) : demand [] operation = 0 := by cases operation <;> rfl
  unfold Disk.fails
  split
  · rw [hnothing]
    rfl
  · rfl

theorem Staged.published {batch : Batch} (hbatch : ∀ x ∈ batch, x.1.Staged kept files x.2)
    (h : Holds system kept files (heldAll system files batch) s) :
    PublishedAll system kept files batch files s :=
  ⟨fun x hx => (hbatch x hx).toSound, h, fun _ _ => rfl⟩

/-- A commit is all or nothing but where one of the steps fails that fill a staging file
after it has been made: nothing owns the file then. -/
theorem commit_all_or_nothing_iff (system : System) (writes : List DocumentWrite) (s : Disk)
    (hfresh : FreshNames system writes s)
    (hvalid : (validateDocumentWrites system writes s).1 = .ok ()) :
    AllOrNothing system writes s ↔
      s.fails (demand (allPermissions s.files writes)) = false := by
  obtain ⟨t, hrun⟩ : ∃ t, validateDocumentWrites system writes s = (.ok (), t) :=
    ⟨_, Prod.ext hvalid rfl⟩
  obtain ⟨ht, hnodup⟩ := (validate_triple (d := demand (allPermissions s.files writes)) rfl writes).ok
    (s := s) ⟨.refl s, rfl⟩ hrun
  have hready : Ready system (targets writes) s.files
      (s.fails (demand (allPermissions s.files writes)))
      (s.drawn + 100 * (allPermissions s.files writes).length) (allPermissions s.files writes)
      (heldAll system s.files []) t := by
    refine ⟨⟨?_, nofun⟩, ht.fails, by rw [ht.drawn]⟩
    rw [ht.files]
    exact .refl (targets writes) s.files
  have hkept : ∀ w ∈ writes, w.path ∈ targets writes ∧
      (w.backup = true → backupPath w.path ∈ targets writes) := by
    refine fun w hw => ⟨List.mem_append_left _ (List.mem_map_of_mem hw), fun hasked => ?_⟩
    exact List.mem_append_right _ (List.mem_map_of_mem (List.mem_filter.mpr ⟨hw, hasked⟩))
  have hnothing : ∀ x ∈ ([] : Batch), x.1.Staged (targets writes) s.files x.2 := nofun
  have hstage := (stageAll_triple hfresh hkept hnothing).run hready
  cases hstaged : stageAll system [] writes t with
  | mk result u =>
    rw [List.map_nil, hstaged] at hstage
    cases result with
    | error e =>
      have hcommit : commitDocuments system writes s = (.error e, u) :=
        (Effect.bind_of_ok hrun).trans (Effect.bind_of_error hstaged)
      obtain ⟨extra, hextra, hholds⟩ := hstage
      rw [List.append_nil] at hholds
      rw [AllOrNothing, hcommit, ← hextra]
      constructor
      · intro hsame
        cases extra with
        | nil => rfl
        | cons x extra => exact absurd hsame hholds.toOverlay.ne_base
      · rintro rfl
        exact hholds.toOverlay.eq_base
    | ok pending =>
      obtain ⟨batch, rfl, hwrites, hbatch, hat⟩ := hstage
      rw [List.map_nil, List.nil_append] at hwrites
      have hfails := hat.fails_eq.symm.trans (fails_demand_nil u)
      have hapart : (([] ++ batch).map Prod.snd).Pairwise Apart := by
        rw [List.nil_append, hwrites]
        exact pairwise_apart hnodup
      obtain ⟨done, result, v, base, hpublish, hsame, hall, hstopped, htargets⟩ :=
        publishAll_run hbatch hapart (Staged.published hbatch hat.holds) nofun
      have hcommit : commitDocuments system writes s =
          conclude system (done.map Prod.fst) result v :=
        (Effect.bind_of_ok hrun).trans
          ((Effect.bind_of_ok hstaged).trans (Effect.bind_of_ok hpublish))
      have hconclude := conclude_run hall hstopped htargets
      refine iff_of_true ?_ hfails
      rw [AllOrNothing, hcommit]
      cases hconcluded : conclude system (done.map Prod.fst) result v with
      | mk ended w =>
        rw [hconcluded] at hconclude
        cases ended with
        | error e => exact hconclude
        | ok =>
          intro write hwrite
          rw [← hwrites, ← List.nil_append batch, ← hsame] at hwrite
          obtain ⟨x, hx, rfl⟩ := List.mem_map.mp hwrite
          exact ⟨_, hconclude x hx, rfl⟩

namespace CommitSample

theorem random_length (n : Nat) : (List.replicate 15 (0 : UInt8) ++ [UInt8.ofNat n]).length = 16 := by
  simp

def host : System where
  random n := List.replicate 15 0 ++ [UInt8.ofNat n]
  random_length := random_length
  canonical path := path
  currentDir := .ok "/data"
  newPermissions := 420
  display _ := "no space left on device"

theorem present : IoError.other "no space left on device" ≠ .notFound := nofun

/-- The first operation of a kind fails. -/
def disk (operation : Operation) : Disk where
  files _ := none
  drawn := 0
  failing := some ⟨operation, 0, .other "no space left on device", 0, present⟩

def writes : List DocumentWrite := [⟨"remote.esi", [35], true⟩]

theorem fresh (operation : Operation) : FreshNames host writes (disk operation) := by
  have hlong (target : String) (random : List UInt8) : 14 < (stagingPath target random).length := by
    have hname : ".elfshaker-esi-".length = 15 := by decide
    rw [stagingPath, String.length_append, String.length_append]
    omega
  refine ⟨fun target k hin => ?_, fun target n hn => ⟨0, by decide, rfl, fun other k hk => ?_⟩⟩
  · have hshort : ∀ path ∈ writes.map DocumentWrite.path ++ backups writes, path.length ≤ 14 := by
      decide
    exact absurd (hshort _ hin) (Nat.not_le.mpr (hlong target _))
  · have hone : (allPermissions (disk operation).files writes).length = 1 := rfl
    rw [hone] at hn
    simp only [disk] at hn
    omega

theorem valid {operation : Operation} (h : operation ∈ [Operation.write, .replace]) :
    (validateDocumentWrites host writes (disk operation)).1 = .ok () := by
  have hall : ∀ operation ∈ [Operation.write, .replace],
      (validateDocumentWrites host writes (disk operation)).1.toOption = some () := by
    decide
  have hok := hall operation h
  cases hrun : (validateDocumentWrites host writes (disk operation)).1 with
  | ok => rfl
  | error e =>
    rw [hrun] at hok
    cases hok

theorem run_write :
    (commitDocuments host writes (disk .write)).1.toOption = none ∧
      (commitDocuments host writes (disk .write)).2.files
        ".elfshaker-esi-00000000000000000000000000000000" = some ⟨[], 420⟩ := by
  decide

end CommitSample

/-- A write that fails leaves its staging file. -/
theorem commit_leaves_staging_file :
    ¬ ∀ system writes s, FreshNames system writes s →
      (validateDocumentWrites system writes s).1 = .ok () → AllOrNothing system writes s := by
  intro h
  have hall := h _ _ _ (CommitSample.fresh .write) (CommitSample.valid (by decide))
  obtain ⟨hfailed, hleft⟩ := CommitSample.run_write
  unfold AllOrNothing at hall
  cases hrun : commitDocuments CommitSample.host CommitSample.writes (CommitSample.disk .write) with
  | mk result t =>
    rw [hrun] at hall hleft hfailed
    cases result with
    | ok => cases hfailed
    | error e =>
      rw [hall] at hleft
      cases hleft

theorem commit_all_or_nothing_replace :
    AllOrNothing CommitSample.host CommitSample.writes (CommitSample.disk .replace) :=
  (commit_all_or_nothing_iff CommitSample.host CommitSample.writes (CommitSample.disk .replace)
    (CommitSample.fresh .replace) (CommitSample.valid (by decide))).mpr (by rfl)

end Commit

end Elfshaker.Esi
