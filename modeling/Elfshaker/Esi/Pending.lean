import Elfshaker.Esi.Staging

namespace Elfshaker.Esi

open Elfshaker.Library

variable {system : System} {kept : Set String} {files base : String → Option File}
  {staged held : List (String × File)} {fails : Bool} {limit : Nat} {rest : List (Option UInt32)}
  {path : String}

/-- A file of which it is known what it was, and what stands ready. -/
structure PendingFile.Sound (kept : Set String) (files : String → Option File)
    (pending : PendingFile) : Prop where
  kept : pending.path ∈ kept
  existed : pending.existed = (files pending.path).isSome
  restore : pending.restore.isSome = (files pending.path).isSome
  ready : ∀ restore ∈ pending.restore, restore.path ≠ ""
  replacement : pending.replacement.path = "" ↔ pending.published = true

/-- There is a backup only where it is asked for. -/
def SoundBackup (kept : Set String) (files : String → Option File) (write : DocumentWrite)
    (backup : Option PendingBackup) : Prop :=
  ∀ b ∈ backup, b.path = backupPath write.path ∧ b.Sound kept files ∧ write.backup = true

/-- A document that has been staged. -/
structure PendingWrite.Sound (kept : Set String) (files : String → Option File)
    (write : DocumentWrite) (pending : PendingWrite) : Prop where
  path : pending.path = write.path
  file : pending.toPendingFile.Sound kept files
  backup : SoundBackup kept files write pending.backup

section Stage

theorem readExisting_triple (hpath : path ∈ kept) :
    Effect.Triple (Ready system kept files fails limit rest staged) (readExisting path)
      (fun old s => Ready system kept files fails limit rest staged s ∧ old = files path)
      (Ends system kept files fails staged) := by
  have hrun (s : Disk) := readExisting_run (d := demand rest) path rfl rfl s
  refine .intro (fun s s' old ⟨hholds, hfails, hsupply⟩ hx => ?_) (fun s s' e ⟨hholds, hfails, _⟩ hx => ?_)
  · rcases hrun s with ⟨t, hread, hsame, hnow⟩ | ⟨e, t, hread, -⟩
    · cases hread.symm.trans hx
      refine ⟨⟨hholds.same hsame, hnow.trans hfails, ?_⟩, hholds.toOverlay.kept_eq hpath⟩
      exact hsame.drawn.symm ▸ hsupply
    · cases hread.symm.trans hx
  · rcases hrun s with ⟨t, hread, -⟩ | ⟨e, t, hread, hsame, hnow⟩
    · cases hread.symm.trans hx
    · cases hread.symm.trans hx
      exact .of_holds (hholds.same hsame) (hfails.symm.trans hnow)

/-- The path of a staging file that has been made. -/
theorem new_held (hdraws : Draws system kept files limit) (target : String) (contents : List UInt8)
    (permissions : Option UInt32) :
    Effect.Triple (Ready system kept files fails limit (permissions :: rest) staged)
      (StagedFile.new system target contents permissions)
      (fun created s => Ready system kept files fails limit rest
        (created.held ⟨contents, permissions.getD system.newPermissions⟩ ++ staged) s ∧
          created.path ≠ "")
      (Ends system kept files fails staged) := by
  refine (new_triple hdraws target contents permissions).weaken (fun _ h => h)
    (fun created s hready => ?_) fun _ h => h
  have hne : created.path ≠ "" := hready.holds.path_ne_empty List.mem_cons_self
  rw [StagedFile.held, if_neg hne]
  exact ⟨hready, hne⟩

theorem stageRestore_triple (hdraws : Draws system kept files limit) (old : Option File)
    {owned : Commit Unit} (howned : Drops system kept owned held) :
    Effect.Triple (Ready system kept files fails limit (restorePermissions old ++ rest)
        (held ++ staged))
      (stageRestore system path old owned)
      (fun restore s => Ready system kept files fails limit rest
        (heldOption restore old ++ (held ++ staged)) s ∧
          restore.isSome = old.isSome ∧ ∀ staged ∈ restore, staged.path ≠ "")
      (Ends system kept files fails staged) := by
  cases old with
  | none => exact .pure fun _ h => ⟨h, rfl, nofun⟩
  | some state =>
    unfold stageRestore
    refine ((new_held hdraws path state.bytes (some state.permissions)).onError howned.ends).bind_fact
      fun restore hne => .pure fun s h => ⟨h, rfl, ?_⟩
    rintro _ ⟨⟩
    exact hne

theorem at_perm {staged' : List (String × File)} {budget : Nat} {d : Demand}
    (hperm : staged.Perm staged') {s : Disk} (h : At system kept files fails limit budget d staged s) :
    At system kept files fails limit budget d staged' s :=
  ⟨h.holds.perm hperm, h.fails_eq, h.supply⟩

theorem stageBackup_triple (hdraws : Draws system kept files limit) {write : DocumentWrite}
    (original : File) (hkept : backupPath write.path ∈ kept) :
    Effect.Triple (Ready system kept files fails limit
        (some (((files (backupPath write.path)).map File.permissions).getD original.permissions) ::
          (restorePermissions (files (backupPath write.path)) ++ rest)) staged)
      (stageBackup system write original)
      (fun backup s => Ready system kept files fails limit rest
        (backup.held ⟨original.bytes,
            ((files (backupPath write.path)).map File.permissions).getD original.permissions⟩
          (files (backupPath write.path)) ++ staged) s ∧
        backup.path = backupPath write.path ∧ backup.Sound kept files ∧ backup.published = false)
      (Ends system kept files fails staged) := by
  unfold stageBackup
  refine (readExisting_triple hkept).bind_fact fun previous hprevious => ?_
  subst hprevious
  refine (new_held hdraws _ original.bytes _).bind_fact fun replacement hne => ?_
  refine (stageRestore_triple hdraws _ (drops_staged replacement _)).bind_fact
    fun restore hrestore => ?_
  refine .pure fun s h => ⟨at_perm ?_ h, rfl, ⟨hkept, rfl, hrestore.1, hrestore.2, ?_⟩, rfl⟩
  · rw [PendingFile.held, List.append_assoc]
    exact List.perm_append_comm_assoc ..
  · simpa using hne

/-- The backup that there is after staging. -/
structure BackupStaged (kept : Set String) (files : String → Option File) (write : DocumentWrite)
    (backup : Option PendingBackup) : Prop where
  sound : SoundBackup kept files write backup
  unpublished : ∀ b ∈ backup, b.published = false

theorem stageAnyBackup_triple (hdraws : Draws system kept files limit) {write : DocumentWrite}
    (hkept : write.backup = true → backupPath write.path ∈ kept) {owned : Commit Unit}
    (howned : Drops system kept owned held) :
    Effect.Triple (Ready system kept files fails limit (backupPermissions files write ++ rest)
        (held ++ staged))
      (stageAnyBackup system write (files write.path) owned)
      (fun backup s => Ready system kept files fails limit rest
        (heldBackup files write backup ++ (held ++ staged)) s ∧
          BackupStaged kept files write backup)
      (Ends system kept files fails staged) := by
  obtain ⟨path, contents, asked⟩ := write
  cases asked with
  | false => exact .pure fun _ h => ⟨h, nofun, nofun⟩
  | true =>
    cases horiginal : files path with
    | none =>
      simp only [stageAnyBackup, backupPermissions, horiginal]
      exact .pure fun _ h => ⟨h, nofun, nofun⟩
    | some original =>
      simp only [stageAnyBackup, backupPermissions, horiginal]
      have hstage : Effect.Triple (Ready system kept files fails limit _ (held ++ staged))
          (stageBackup system ⟨path, contents, true⟩ original)
          (fun _ s => Ready system kept files fails limit rest _ s ∧ _) _ :=
        stageBackup_triple hdraws original (hkept rfl)
      refine (hstage.onError howned.ends).bind_fact fun backup hsound => .pure fun s h => ⟨?_, ?_, ?_⟩
      · simp only [heldBackup, backupFile, horiginal]
        exact h
      · rintro _ ⟨⟩
        exact ⟨hsound.1, hsound.2.1, rfl⟩
      · rintro _ ⟨⟩
        exact hsound.2.2

/-- A document has been staged and nothing of it published. -/
structure PendingWrite.Staged (kept : Set String) (files : String → Option File)
    (write : DocumentWrite) (pending : PendingWrite) : Prop extends
    pending.Sound kept files write where
  unpublished : pending.published = false
  backupUnpublished : ∀ backup ∈ pending.backup, backup.published = false

theorem stage_triple (hdraws : Draws system kept files limit) {write : DocumentWrite}
    (hpath : write.path ∈ kept) (hbackup : write.backup = true → backupPath write.path ∈ kept) :
    Effect.Triple (Ready system kept files fails limit (stagingPermissions files write ++ rest) staged)
      (stage system write)
      (fun item s => Ready system kept files fails limit rest
        (item.held system files write ++ staged) s ∧ item.Staged kept files write)
      (Ends system kept files fails staged) := by
  unfold stage
  refine (readExisting_triple hpath).bind_fact fun original horiginal => ?_
  subst horiginal
  rw [stagingPermissions, List.append_assoc, List.cons_append]
  refine (new_held hdraws write.path write.contents _).bind_fact fun replacement hne => ?_
  refine (stageRestore_triple hdraws _ (drops_staged replacement _)).bind_fact
    fun restore hrestore => ?_
  have howned : Drops system kept (do dropOption restore; replacement.drop)
      (heldOption restore (files write.path) ++ replacement.held (newFile system files write)) :=
    (drops_option hrestore.1).bind (drops_staged replacement _)
  refine ((stageAnyBackup_triple hdraws hbackup howned).weaken (fun s h => at_perm ?_ h)
    (fun _ _ h => h) fun _ h => h).bind_fact fun backup hstaged => ?_
  · rw [List.append_assoc]
    exact .refl _
  refine .pure fun s h => ⟨at_perm ?_ h, ⟨rfl, ⟨hpath, rfl, hrestore.1, hrestore.2, ?_⟩,
    hstaged.sound⟩, rfl, hstaged.unpublished⟩
  · rw [← List.append_assoc, PendingWrite.held, PendingFile.held]
    exact (List.perm_append_comm.trans (List.perm_append_comm.append_right _)).append_right _
  · simpa using hne

end Stage

/-- The paths where something has been published. -/
def PendingFile.changed (pending : PendingFile) : List String :=
  if pending.published then [pending.path] else []

def changedBackup : Option PendingBackup → List String
  | some backup => backup.changed
  | none => []

def PendingWrite.changed (pending : PendingWrite) : List String :=
  changedBackup pending.backup ++ pending.toPendingFile.changed

section Publish

variable {s : Disk} {source target : String} {file new : File} {pending : PendingFile}

theorem fails_of_none (hnone : s.failing = none) (d : Demand) : s.fails d = false := by
  rw [Disk.fails, hnone]

/-- An operation that runs leaves nothing to fail where nothing was. -/
theorem none_of_spent {operation : Operation} {t : Disk} (hnone : s.failing = none)
    (hspent : ∀ d : Demand, t.fails (d.spend operation) = s.fails d) : t.failing = none := by
  cases hfailing : t.failing with
  | none => rfl
  | some failing =>
    have hlater := (hspent fun _ => failing.after + 2).trans (fails_of_none hnone _)
    have hlt : failing.after < (Demand.spend (fun _ => failing.after + 2) operation)
        failing.operation := by
      by_cases hop : failing.operation = operation
      · simp [Demand.spend, hop]
      · simp [Demand.spend, Function.update_of_ne hop]
    simp [Disk.fails, hfailing, Nat.not_le.mpr hlt] at hlater

/-- A staging file takes the place of its target, or nothing happens. -/
theorem replaceFile_run (h : Holds system kept base ((source, file) :: staged) s)
    (htarget : target ∈ kept) :
    (∃ t, replaceFile source target s = (.ok (), t) ∧
      Holds system kept (Function.update base target (some file)) staged t ∧
      (s.failing = none → t.failing = none)) ∨
    ∃ e t, replaceFile source target s = (.error (.error e), t) ∧
      Holds system kept base ((source, file) :: staged) t ∧ t.failing = none ∧ s.failing ≠ none := by
  have hfile : s.files source = some file := h.entry (source, file) List.mem_cons_self
  rcases onFile_run .replace source (fun _ s => s)
    (fun file s => ((), (s.put source none).put target (some file))) s with
    ⟨other, t, hother, hrun, hsame, hfails⟩ | ⟨t, hnone, -⟩ |
      ⟨failing, t, hrun, hsame, hnone, hfails⟩
  · cases hother.symm.trans hfile
    refine .inl ⟨_, hrun, ⟨?_, fun x hx => (h.same hsame).drawn x (List.mem_cons_of_mem _ hx)⟩,
      fun hnone => ?_⟩
    · exact (h.same hsame).toOverlay.remove.update htarget _
    · exact none_of_spent hnone hfails
  · cases hnone.symm.trans hfile
  · refine .inr ⟨_, t, hrun, h.same hsame, hnone, fun hs => ?_⟩
    have hasked := (fails_of_none hs _).symm.trans (hfails fun _ => 1)
    simp at hasked

theorem held_unpublished (hsound : pending.Sound kept files) (hnot : pending.published = false)
    (new : File) (old : Option File) :
    pending.held new old = (pending.replacement.path, new) :: heldOption pending.restore old := by
  have hne : pending.replacement.path ≠ "" := fun h => by
    have := hsound.replacement.mp h
    rw [hnot] at this
    cases this
  rw [PendingFile.held, StagedFile.held, if_neg hne]
  rfl

/-- The file once it has been published. -/
def PendingFile.done (pending : PendingFile) : PendingFile :=
  { pending with replacement := ⟨""⟩, published := true }

theorem PendingFile.Sound.done (hsound : pending.Sound kept files) : pending.done.Sound kept files :=
  ⟨hsound.kept, hsound.existed, hsound.restore, hsound.ready, by simp [PendingFile.done]⟩

/-- What the file shows is the new one, or nothing happens. -/
theorem publish_file_run (hsound : pending.Sound kept files) (hnot : pending.published = false)
    {old : Option File} (h : Holds system kept base (pending.held new old ++ staged) s) :
    (∃ t, pending.publish s = (.ok pending.done, t) ∧
      Holds system kept (Function.update base pending.path (some new))
        (pending.done.held new old ++ staged) t) ∨
    ∃ e t, pending.publish s = (.error (.error e), t) ∧
      Holds system kept base (pending.held new old ++ staged) t ∧ t.failing = none := by
  rw [held_unpublished hsound hnot, List.cons_append] at h ⊢
  rcases replaceFile_run h hsound.kept with ⟨t, hrun, hholds, -⟩ | ⟨e, t, hrun, hholds, hnone, -⟩
  · have hreplaced : pending.replacement.publish pending.path s = (.ok ⟨""⟩, t) :=
      Effect.bind_of_ok hrun
    exact .inl ⟨t, Effect.bind_of_ok hreplaced, hholds⟩
  · have hreplaced : pending.replacement.publish pending.path s = (.error (.error e), t) :=
      Effect.bind_of_error hrun
    exact .inr ⟨e, t, Effect.bind_of_error hreplaced, hholds, hnone⟩

variable {write : DocumentWrite} {item : PendingWrite}

/-- Where a backup is published it is what the target was. -/
theorem publish_backup_run {backup : Option PendingBackup} (hsound : SoundBackup kept files write backup)
    (hnot : ∀ b ∈ backup, b.published = false)
    (h : Holds system kept base (heldBackup files write backup ++ staged) s) :
    (∃ done t base', backup.mapM PendingFile.publish s = (.ok done, t) ∧
      SoundBackup kept files write done ∧
      Holds system kept base' (heldBackup files write done ++ staged) t ∧
      ∀ path ∉ changedBackup done, base' path = base path) ∨
    ∃ e t, backup.mapM PendingFile.publish s = (.error (.error e), t) ∧
      Holds system kept base (heldBackup files write backup ++ staged) t ∧ t.failing = none := by
  cases backup with
  | none => exact .inl ⟨none, s, base, rfl, hsound, h, fun _ _ => rfl⟩
  | some backup =>
    obtain ⟨hpath, hb, hasked⟩ := hsound backup rfl
    rcases publish_file_run hb (hnot backup rfl) h with ⟨t, hrun, hholds⟩ | ⟨e, t, hrun, hholds, hnone⟩
    · refine .inl ⟨some backup.done, t, _, Effect.bind_of_ok hrun, ?_, hholds, fun path hpath => ?_⟩
      · rintro _ ⟨⟩
        exact ⟨hpath, hb.done, hasked⟩
      · exact Function.update_of_ne (by simpa [changedBackup, PendingFile.changed,
          PendingFile.done] using hpath) ..
    · exact .inr ⟨e, t, Effect.bind_of_error hrun, hholds, hnone⟩

/-- A document of which as much has been published as there was no error. -/
structure Published (system : System) (kept : Set String) (files base : String → Option File)
    (staged : List (String × File)) (write : DocumentWrite) (base' : String → Option File)
    (item : PendingWrite) (result : Except CommitError Unit) (t : Disk) : Prop where
  sound : item.Sound kept files write
  holds : Holds system kept base' (item.held system files write ++ staged) t
  same : ∀ path ∉ item.changed, base' path = base path
  stopped : ∀ e, result = .error e → t.failing = none
  target : result = .ok () → base' write.path = some (newFile system files write)

theorem held_perm (write : DocumentWrite) (file : PendingFile) (backup : Option PendingBackup)
    (staged : List (String × File)) :
    (PendingWrite.held system files write ⟨file, backup⟩ ++ staged).Perm
      (heldBackup files write backup ++
        (file.held (newFile system files write) (files write.path) ++ staged)) := by
  rw [PendingWrite.held, ← List.append_assoc]
  exact List.perm_append_comm.append_right staged

theorem publish_run (hstaged : item.Staged kept files write)
    (h : Holds system kept base (item.held system files write ++ staged) s) :
    ∃ done result t base', item.publish s = (.ok (done, result), t) ∧
      Published system kept files base staged write base' done result t := by
  obtain ⟨file, backup⟩ := item
  have hpath : file.path = write.path := hstaged.path
  rcases publish_backup_run hstaged.backup hstaged.backupUnpublished
    (h.perm (held_perm write file backup staged)) with
    ⟨done, t, base', hrun, hdone, hholds, hsame⟩ | ⟨e, t, hrun, hholds, hnone⟩
  · have hattempt := Effect.attempt_eq_ok (δ := CommitError).mpr hrun
    rcases publish_file_run hstaged.file hstaged.unpublished
      (hholds.perm (List.perm_append_comm_assoc ..)) with
      ⟨u, hrun', hholds'⟩ | ⟨e, u, hrun', hholds', hnone⟩
    · refine ⟨⟨file.done, done⟩, .ok (), u,
        Function.update base' file.path (some (newFile system files write)), ?_,
        ⟨hpath, hstaged.file.done, hdone⟩, ?_, fun path hnot => ?_, nofun, fun _ => ?_⟩
      · exact (Effect.bind_of_ok hattempt).trans
          (Effect.bind_of_ok (Effect.attempt_eq_ok.mpr hrun'))
      · exact (hholds'.perm (List.perm_append_comm_assoc ..)).perm (held_perm write _ done staged).symm
      · rw [PendingWrite.changed, List.mem_append, not_or] at hnot
        rw [Function.update_of_ne (by simpa [PendingFile.changed, PendingFile.done] using hnot.2)]
        exact hsame path hnot.1
      · rw [← hpath]
        exact Function.update_self ..
    · refine ⟨⟨file, done⟩, .error e, u, base', ?_, ⟨hpath, hstaged.file, hdone⟩, ?_,
        fun path hnot => ?_, fun _ _ => hnone, nofun⟩
      · exact (Effect.bind_of_ok hattempt).trans
          (Effect.bind_of_ok (Effect.attempt_eq_error.mpr hrun'))
      · exact (hholds'.perm (List.perm_append_comm_assoc ..)).perm (held_perm write _ done staged).symm
      · rw [PendingWrite.changed, List.mem_append, not_or] at hnot
        exact hsame path hnot.1
  · refine ⟨⟨file, backup⟩, .error e, t, base, ?_, hstaged.toSound, ?_, fun _ _ => rfl,
      fun _ _ => hnone, nofun⟩
    · exact Effect.bind_of_ok (Effect.attempt_eq_error.mpr hrun)
    · exact hholds.perm (held_perm write file backup staged).symm

end Publish

/-- Where something has been published it is as it was, and elsewhere nothing has
changed. -/
def Restored (files : String → Option File) (changed : List String)
    (base base' : String → Option File) : Prop :=
  ∀ path, (path ∈ changed → base' path = files path) ∧ (path ∉ changed → base' path = base path)

/-- What is staged of a document can be dropped. -/
structure PendingWrite.Droppable (files : String → Option File) (write : DocumentWrite)
    (pending : PendingWrite) : Prop where
  restore : pending.restore.isSome = (files write.path).isSome
  backup : ∀ backup ∈ pending.backup,
    backup.restore.isSome = (files (backupPath write.path)).isSome

section Rollback

variable {s : Disk} {new : File} {pending : PendingFile} {write : DocumentWrite}
  {item : PendingWrite}

theorem PendingWrite.Sound.droppable (hsound : item.Sound kept files write) :
    item.Droppable files write :=
  ⟨hsound.path ▸ hsound.file.restore, fun backup hbackup => by
    obtain ⟨hpath, hb, -⟩ := hsound.backup backup hbackup
    exact hpath ▸ hb.restore⟩

theorem Restored.refl (files base : String → Option File) : Restored files [] base base :=
  fun _ => ⟨nofun, fun _ => rfl⟩

theorem Restored.update (path : String) :
    Restored files [path] base (Function.update base path (files path)) := by
  intro other
  rw [List.mem_singleton]
  refine ⟨fun heq => ?_, fun hne => Function.update_of_ne hne ..⟩
  subst heq
  exact Function.update_self ..

theorem Restored.trans {changed changed' : List String} {base' base'' : String → Option File}
    (h : Restored files changed base base') (h' : Restored files changed' base' base'') :
    Restored files (changed' ++ changed) base base'' := by
  intro path
  rw [List.mem_append, not_or]
  by_cases hin : path ∈ changed'
  · exact ⟨fun _ => (h' path).1 hin, fun hnot => absurd hin hnot.1⟩
  · have hsame := (h' path).2 hin
    refine ⟨fun hchanged => hsame.trans ((h path).1 (hchanged.resolve_left hin)), fun hnot => ?_⟩
    exact hsame.trans ((h path).2 hnot.2)

/-- Without anything left to fail a file that has been published is put back. -/
theorem rollback_file_run (hsound : pending.Sound kept files) (hnone : s.failing = none)
    (h : Holds system kept base (pending.held new (files pending.path) ++ staged) s) :
    ∃ undone t base', pending.rollback s = (.ok (undone, none), t) ∧
      undone.restore.isSome = (files pending.path).isSome ∧
      Holds system kept base' (undone.held new (files pending.path) ++ staged) t ∧
      Restored files pending.changed base base' ∧ t.failing = none := by
  obtain ⟨path, replacement, restore, existed, published⟩ := pending
  cases published with
  | false => exact ⟨_, s, base, rfl, hsound.restore, h, .refl files base, hnone⟩
  | true =>
    have hempty : replacement.path = "" := hsound.replacement.mpr rfl
    have hexisted : existed = (files path).isSome := hsound.existed
    have hrestore : restore.isSome = (files path).isSome := hsound.restore
    cases restore with
    | some restore =>
      have hne : restore.path ≠ "" := hsound.ready restore rfl
      obtain ⟨old, hold⟩ := Option.isSome_iff_exists.mp hrestore.symm
      have hheld : PendingFile.held ⟨path, replacement, some restore, existed, true⟩ new (files path) =
          [(restore.path, old)] := by
        simp [PendingFile.held, StagedFile.held, heldOption, hempty, hne, hold]
      rw [hheld] at h
      rcases replaceFile_run h hsound.kept with ⟨t, hrun, hholds, hclear⟩ | ⟨e, t, -, -, -, hfailing⟩
      · have hrestored : restore.publish path s = (.ok ⟨""⟩, t) := Effect.bind_of_ok hrun
        refine ⟨⟨path, replacement, some ⟨""⟩, existed, true⟩, t, _, ?_, hrestore, ?_, .update path,
          hclear hnone⟩
        · exact Effect.bind_of_ok (Effect.attempt_eq_ok.mpr hrestored)
        · simpa [PendingFile.held, StagedFile.held, heldOption, hempty, hold] using hholds
      · exact absurd hnone hfailing
    | none =>
      have hgone : files path = none := by simpa using hrestore.symm
      have hnew : existed = false := by simpa [hgone] using hexisted
      subst hnew
      have hheld : PendingFile.held ⟨path, replacement, none, false, true⟩ new (files path) = [] := by
        simp [PendingFile.held, StagedFile.held, heldOption, hempty]
      refine ⟨⟨path, replacement, none, false, true⟩, s.put path none,
        Function.update base path (files path), rfl, hrestore, ?_, .update path, hnone⟩
      rw [hheld] at h ⊢
      rw [hgone]
      exact ⟨h.toOverlay.update hsound.kept none, h.drawn⟩

theorem rollback_run (hsound : item.Sound kept files write) (hnone : s.failing = none)
    (h : Holds system kept base (item.held system files write ++ staged) s) :
    ∃ undone t base', item.rollback s = (.ok (undone, none), t) ∧
      undone.Droppable files write ∧
      Holds system kept base' (undone.held system files write ++ staged) t ∧
      Restored files item.changed base base' ∧ t.failing = none := by
  obtain ⟨file, backup⟩ := item
  have hpath : file.path = write.path := hsound.path
  have hholds := (h.perm (held_perm write file backup staged)).perm (List.perm_append_comm_assoc ..)
  rw [← hpath] at hholds
  obtain ⟨undone, t, base', hrun, hrestore, hholds, hrestored, hclear⟩ :=
    rollback_file_run hsound.file hnone hholds
  replace hholds := hholds.perm (List.perm_append_comm_assoc ..)
  simp only [hpath] at hholds hrestore
  cases backup with
  | none =>
    refine ⟨⟨undone, none⟩, t, base', Effect.bind_of_ok hrun, ⟨hrestore, nofun⟩, ?_, hrestored, hclear⟩
    exact hholds.perm (held_perm write undone none staged).symm
  | some backup =>
    obtain ⟨hbackupPath, hbackup, -⟩ := hsound.backup backup rfl
    have hheld : Holds system kept base' (backup.held (backupFile files write) (files backup.path) ++
        (undone.held (newFile system files write) (files write.path) ++ staged)) t := by
      rw [hbackupPath]
      exact hholds
    obtain ⟨undoneBackup, u, base'', hrun', hrestore', hholds', hrestored', hclear'⟩ :=
      rollback_file_run hbackup hclear hheld
    rw [hbackupPath] at hholds' hrestore'
    refine ⟨⟨undone, some undoneBackup⟩, u, base'',
      (Effect.bind_of_ok hrun).trans (Effect.bind_of_ok hrun'), ⟨hrestore, ?_⟩, ?_,
      hrestored.trans hrestored', hclear'⟩
    · rintro _ ⟨⟩
      exact hrestore'
    · exact hholds'.perm (held_perm write undone (some undoneBackup) staged).symm

theorem drops_write (h : item.Droppable files write) :
    Drops system kept item.drop (item.held system files write) := by
  obtain ⟨file, backup⟩ := item
  have hfile : Drops system kept file.drop (file.held (newFile system files write) (files write.path)) :=
    drops_file _ h.restore
  cases backup with
  | none => exact hfile.bind .pure
  | some backup => exact hfile.bind (drops_file _ (h.backup backup rfl))

end Rollback

end Elfshaker.Esi
