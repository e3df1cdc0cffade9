import Elfshaker.Checkout.Extract
import Elfshaker.Packs.PackCommand
import Elfshaker.Store.Gc
import Elfshaker.Store.RepositoryLock

namespace Elfshaker.System

open Elfshaker.Library Elfshaker.Format Elfshaker.Store Elfshaker.Packs

section Steps

/-- A look at the data directory. -/
def look (f : DataDir → Exec Error α) : Call α := do
  io Io.passing
  Effect.asks fun s => f s.state.dataDir

def runAlter (f : DataDir → Exec Error DataDir) : Call Unit := fun s =>
  match f s.state.dataDir with
  | .ok dataDir => (.ok (), ⟨⟨dataDir, s.state.clock + 1⟩, s.faults⟩)
  | .error e => (.error e, s)

/-- A change of the data directory, which is as it was where that fails. -/
def alter (f : DataDir → Exec Error DataDir) : Call Unit := do
  io Io.passing
  runAlter f

variable (crates : Crates) (writer : RmpWriter) (packWriter : PackWriter)

section Store

variable (ord : IterOrder FileHandle) (random : List UInt8) (snapshot : SnapshotId)
  (files : List InputFile)

/-- `snapshotIndex`, one file after another. -/
def snapshotIndexSteps : Process PackIndex := do
  Program.lift (io Io.passing)
  let entries ← Program.callAll (fun file => io (storeFile crates file)) files
  .done ((PackIndex.new.pushSnapshot ord snapshot.tag entries).mapError .packError)

/-- `createSnapshot`, one step after another. -/
def createSnapshotSteps : Process Unit := do
  Program.lift (prepareSnapshot crates snapshot)
  Program.lift (io (AtomicCreateFile.reserve (snapshotPath snapshot)))
  let output ← Program.lift (io (AtomicCreateFile.createTemp (snapshotPath snapshot) random))
  let index ← snapshotIndexSteps crates ord snapshot files
  Program.lift (io (output.fill (index.serialize writer)))
  Program.lift (io (Io.onPacks (DirTree.rename output.temp output.path)))
  Program.lift (updateHead snapshot)

/-- `createSnapshotForce`, one step after another. -/
def createSnapshotForceSteps : Process Unit := do
  Program.lift (prepareSnapshot crates snapshot)
  let index ← snapshotIndexSteps crates ord snapshot files
  Program.lift (io Io.prepareAtomicWrite)
  Program.lift (io (Io.onPacks (DirTree.publish (snapshotPath snapshot) (index.serialize writer))))
  Program.lift (updateHead snapshot)

/-- The store command, from where the files are named. -/
def store (mutex : MutexFile) (force : Bool) : Process Unit := do
  let repo ← OpenRepository.openWithDataDir mutex
  let _ ← OpenRepository.lockExclusive repo
  if force then createSnapshotForceSteps crates writer ord snapshot files
  else createSnapshotSteps crates writer ord random snapshot files

end Store

section Collect

/-- What is checked before a pack is deleted, and whether it is loose. -/
def checkDeletion (id : PackId) (dd : DataDir) : Exec Error Bool := do
  (id.validate crates.unicode).mapError fun _ => .ioError .invalidInput
  let isLoose := isPackLoose crates dd id
  let packExists := dd.packs.present id.packPath
  if isLoose && packExists then Exec.fail (.ioError (.other "Unexpected .pack for loose"))
  else if !isLoose && !packExists then Exec.fail (.ioError .notFound)
  else .ok isLoose

def removeIndex (id : PackId) (dd : DataDir) : Exec Error DataDir := do
  let tree ← (dd.packs.removeFile id.indexPath).mapError .ioError
  .ok { dd with packs := tree }

/-- What else is there of a pack: directories of a loose one, or the pack file. -/
def removeRest (id : PackId) (isLoose : Bool) (dd : DataDir) : Exec Error DataDir :=
  if isLoose then do
    let dirs := (DirTree.ancestors id.indexPath).tail.reverse
    let tree ← (dd.packs.removeEmptyDirs dirs).mapError .ioError
    .ok { dd with packs := tree }
  else do
    let tree ← (dd.packs.removeFile id.packPath).mapError .ioError
    .ok { dd with packs := tree }

/-- `deletePack`, one step after another. -/
def deletePackSteps (id : PackId) : Process Unit := do
  let isLoose ← Program.lift (look (checkDeletion crates id))
  Program.lift (alter (removeIndex id))
  Program.lift (alter (removeRest id isLoose))

/-- A deletion, if it was asked for. -/
def unlessDry (dryRun : Bool) (deletion : Process Unit) : Process Unit :=
  if dryRun then pure () else deletion

/-- `collectSnapshots`, one step after another. -/
def collectSnapshotsSteps (dryRun : Bool) : List PackId → List PackId → Process (List PackId)
  | roots, [] => pure roots
  | roots, id :: rest => do
    .done (Exec.assert (id ∈ roots))
    let _ ← Program.lift (look fun dd => getPackDiskStats crates dd id)
    unlessDry dryRun (deletePackSteps crates id)
    collectSnapshotsSteps dryRun (roots.erase id) rest

/-- `collectObjects`, one step after another. -/
def collectObjectsSteps (dryRun : Bool) : List ObjectChecksum → Process Unit
  | [] => pure ()
  | checksum :: rest => do
    let _ ← Program.lift (look fun dd => getObjectDiskStats dd checksum)
    unlessDry dryRun (Program.lift (alter fun dd => deleteObject dd checksum))
    collectObjectsSteps dryRun rest

variable (ord : IterOrder FileHandle) (orders : GcOrders) (opts : GcOptions)

def gcSnapshotsSteps : Process (List PackId) := do
  let roots ← Program.lift (look (loosePacks crates))
  if opts.looseSnapshots then do
    let redundant ← Program.lift (look (findRedundantLoosePacks crates ord orders))
    collectSnapshotsSteps crates opts.dryRun roots redundant
  else pure roots

/-- `gc`, one step after another. -/
def gcSteps : Process Unit := do
  let roots ← gcSnapshotsSteps crates ord orders opts
  if opts.looseObjects then do
    let objects ← Program.lift (look fun dd => findUnreferencedObjects crates dd roots)
    collectObjectsSteps opts.dryRun (objects.iter orders.objects)
  else pure ()

/-- Where nothing is to be deleted the lock stays shared. -/
def lockForCollection (repo : OpenRepository) : Process OpenRepository :=
  if opts.dryRun then pure repo else repo.lockExclusive

/-- The gc command. -/
def collect (mutex : MutexFile) : Process Unit :=
  if !opts.looseSnapshots && !opts.looseObjects then .done (Exec.fail .invalidOptions)
  else do
    let repo ← OpenRepository.openWithDataDir mutex
    let _ ← lockForCollection opts repo
    gcSteps crates ord orders opts

end Collect

section Pack

variable (entryOrd : IterOrder FileEntryRef) (ord : IterOrder FileHandle)

/-- `gatherSnapshots`, one index after another. -/
def gatherSnapshotsSteps (newIndex : PackIndex) : List PackId → Process PackIndex
  | [] => pure newIndex
  | id :: rest => do
    let index ← Program.lift (look fun dd => loadLooseIndex crates dd id)
    let newIndex ← .done ((packIndex entryOrd ord newIndex index).mapError .packError)
    gatherSnapshotsSteps newIndex rest

/-- `createPack`, one step after another. -/
def createPackSteps (randoms : List UInt8 × List UInt8) (pack : PackId) (index : PackIndex)
    (opts : PackOptions) : Process Unit := do
  Program.lift (preparePack pack)
  Program.lift (io (Io.look (checkPackPath pack)))
  Program.lift (io (AtomicCreateFile.reserve pack.indexPath))
  let indexOutput ← Program.lift (io (AtomicCreateFile.createTemp pack.indexPath randoms.1))
  let content ← Program.lift (buildPack packWriter index opts)
  let packOutput ← Program.lift (io (AtomicCreateFile.new pack.packPath randoms.2))
  Program.lift (io (packOutput.fill (content.file packWriter)))
  Program.lift (io (Io.onPacks (DirTree.rename packOutput.temp packOutput.path)))
  Program.lift (io Io.passing)
  Program.lift (io (indexOutput.fill (content.index.serialize writer)))
  Program.lift (io (Io.onPacks (DirTree.rename indexOutput.temp indexOutput.path)))

/-- `createPackForce`, one step after another. -/
def createPackForceSteps (pack : PackId) (index : PackIndex) (opts : PackOptions) :
    Process Unit := do
  Program.lift (preparePack pack)
  let content ← Program.lift (buildPack packWriter index opts)
  Program.lift (io (Io.onPacks (DirTree.publish pack.packPath (content.file packWriter))))
  Program.lift (io Io.prepareAtomicWrite)
  Program.lift (io (Io.onPacks (DirTree.publish pack.indexPath (content.index.serialize writer))))

/-- `runPack`, one step after another. -/
def runPackSteps (randoms : List UInt8 × List UInt8) (force : Bool) (pack : PackId)
    (snapshots : List PackId) (opts : PackOptions) : Process Unit := do
  let newIndex ← gatherSnapshotsSteps crates entryOrd ord .new snapshots
  if force then createPackForceSteps writer packWriter pack newIndex opts
  else createPackSteps writer packWriter randoms pack newIndex opts

end Pack

end Steps

section Alone

variable {crates : Crates} {writer : RmpWriter} {packWriter : PackWriter}
  {ord : IterOrder FileHandle} {entryOrd : IterOrder FileEntryRef} {random : List UInt8}
  {snapshot : SnapshotId} {files : List InputFile} {randoms : List UInt8 × List UInt8}
  {pack : PackId} {index : PackIndex} {opts : PackOptions}

theorem mapError_runAll {ς ε δ α β : Type} (g : ε → δ) (f : α → Effect ς ε β) (xs : List α) :
    Effect.mapError g (Effect.runAll f xs) = Effect.runAll (fun x => Effect.mapError g (f x)) xs := by
  induction xs with
  | nil => rfl
  | cons x xs ih =>
    funext s
    have hrest := congrFun ih (f x s).2
    simp only [Effect.mapError, Effect.runAll_cons] at hrest ⊢
    rw [← hrest]
    rcases (f x s).1 with (e | - ) | y
    · rfl
    · rfl
    · rcases (Effect.runAll f xs (f x s).2).1 with (e | -) | ys <;> rfl

theorem io_bind {α β : Type} (x : Io α) (f : α → Io β) : io (x >>= f) = io x >>= fun a => io (f a) := by
  funext s
  have hbind {δ δ' ε : Type} (y : Effect (Session Disk Fault) ε δ)
      (h : δ → Effect (Session Disk Fault) ε δ') : y >>= h = Effect.bind y h := rfl
  simp only [hbind, io, Effect.mapError, Effect.bind]
  rcases x s with ⟨(e | -) | a, t⟩ <;> rfl

theorem alone_snapshotIndexSteps : (snapshotIndexSteps crates ord snapshot files).alone =
    snapshotIndex crates ord snapshot files := by
  simp only [snapshotIndexSteps, Program.alone_bind, Program.alone_lift, Program.alone_callAll,
    snapshotIndex, io, mapError_runAll]
  rfl

theorem alone_createSnapshotSteps :
    (createSnapshotSteps crates writer ord random snapshot files).alone =
      createSnapshot crates writer ord random snapshot files := by
  simp only [createSnapshotSteps, Program.alone_bind, Program.alone_lift, alone_snapshotIndexSteps,
    createSnapshot, reserveSnapshot, writeSnapshot, fillSnapshot, Effect.bind_assoc]
  rfl

theorem alone_createSnapshotForceSteps :
    (createSnapshotForceSteps crates writer ord snapshot files).alone =
      createSnapshotForce crates writer ord snapshot files := by
  simp only [createSnapshotForceSteps, Program.alone_bind, Program.alone_lift,
    alone_snapshotIndexSteps, createSnapshotForce]

theorem alone_createPackSteps : (createPackSteps writer packWriter randoms pack index opts).alone =
    createPack writer packWriter randoms pack index opts := by
  simp only [createPackSteps, Program.alone_bind, Program.alone_lift, createPack, reservePack,
    writePack, fillPack, AtomicCreateFile.commitContent, io_bind, Effect.bind_assoc]
  rfl

theorem alone_createPackForceSteps : (createPackForceSteps writer packWriter pack index opts).alone =
    createPackForce writer packWriter pack index opts := by
  simp only [createPackForceSteps, Program.alone_bind, Program.alone_lift, createPackForce]

theorem alone_gatherSnapshotsSteps {snapshots : List PackId} :
    (gatherSnapshotsSteps crates entryOrd ord index snapshots).alone =
      gatherSnapshots entryOrd ord crates index snapshots := by
  induction snapshots generalizing index with
  | nil => rfl
  | cons id rest ih =>
    simp only [gatherSnapshotsSteps, Program.alone_bind, Program.alone_lift, gatherSnapshots, look,
      ih, Effect.bind_assoc]
    rfl

/-- Without others in between, the steps of a packing are the packing. -/
theorem alone_runPackSteps {force : Bool} {snapshots : List PackId} :
    (runPackSteps crates writer packWriter entryOrd ord randoms force pack snapshots opts).alone =
      runPack entryOrd ord crates writer packWriter randoms force pack snapshots opts := by
  simp only [runPackSteps, Program.alone_bind, alone_gatherSnapshotsSteps, runPack]
  congr 1
  funext index
  cases force with
  | true => exact alone_createPackForceSteps
  | false => exact alone_createPackSteps

/-- Without others in between, the steps of the store command are those of a snapshot. -/
theorem alone_store {force : Bool} :
    (store crates writer ord random snapshot files .opened force).alone =
      if force then createSnapshotForce crates writer ord snapshot files
      else createSnapshot crates writer ord random snapshot files := by
  cases force with
  | true => exact alone_createSnapshotForceSteps
  | false => exact alone_createSnapshotSteps

end Alone

section Performs

variable {α β : Type}

/-- Where no step of the system fails, a call does what a function says. -/
structure Performs (x : Call α) (f : DataDir → Exec Error (DataDir × α)) : Prop where
  ok : ∀ disk : Disk, ∀ dataDir a, f disk.dataDir = .ok (dataDir, a) →
    ∃ clock, x ⟨disk, []⟩ = (.ok a, ⟨⟨dataDir, clock⟩, []⟩)
  error : ∀ disk : Disk, ∀ e, f disk.dataDir = .error e → (x ⟨disk, []⟩).1 = .error e

namespace Performs

theorem bind {x : Call α} {f : DataDir → Exec Error (DataDir × α)} {y : α → Call β}
    {g : α → DataDir → Exec Error (DataDir × β)} (hx : Performs x f) (hy : ∀ a, Performs (y a) (g a)) :
    Performs (x >>= y) fun dd => f dd >>= fun found => g found.2 found.1 where
  ok := by
    intro disk dataDir b hrun
    obtain ⟨⟨mid, a⟩, hf, hg⟩ := Exec.bind_eq_ok.mp hrun
    obtain ⟨clock, hx⟩ := hx.ok disk mid a hf
    rw [Effect.bind_of_ok hx]
    exact (hy a).ok ⟨mid, clock⟩ dataDir b hg
  error := by
    intro disk e hrun
    cases hf : f disk.dataDir with
    | error e' =>
      have hfirst : x ⟨disk, []⟩ = (.error e', (x ⟨disk, []⟩).2) :=
        Prod.ext (hx.error disk e' hf) rfl
      rw [Effect.bind_of_error hfirst]
      simp only [hf, Exec.error_bind, Except.error.injEq] at hrun
      rw [hrun]
    | ok found =>
      obtain ⟨clock, hx⟩ := hx.ok disk found.1 found.2 hf
      rw [Effect.bind_of_ok hx]
      simp only [hf, Exec.ok_bind] at hrun
      exact (hy found.2).error ⟨found.1, clock⟩ e hrun

theorem pure (a : α) : Performs (Pure.pure a) fun dd => .ok (dd, a) where
  ok := by
    intro disk dataDir b hrun
    cases hrun
    exact ⟨disk.clock, rfl⟩
  error := nofun

theorem congr {x : Call α} {f g : DataDir → Exec Error (DataDir × α)} (h : Performs x f)
    (heq : ∀ dd, g dd = f dd) : Performs x g := by
  rwa [funext heq]

end Performs

theorem performs_done (result : Exec Error α) : Performs (Program.done result : Process α).alone
    fun dd => result >>= fun a => .ok (dd, a) := by
  cases result with
  | ok a => exact .pure a
  | error e => exact ⟨nofun, fun _ _ h => by cases h; rfl⟩

theorem performs_look (f : DataDir → Exec Error α) :
    Performs (look f) fun dd => f dd >>= fun a => .ok (dd, a) where
  ok := by
    intro disk dataDir a h
    obtain ⟨b, hf, hb⟩ := Exec.bind_eq_ok.mp h
    cases hb
    exact ⟨disk.clock, Prod.ext hf rfl⟩
  error := by
    intro disk e h
    cases hf : f disk.dataDir with
    | ok a => simp [hf, Exec.ok_bind] at h
    | error e' =>
      simp only [hf, Exec.error_bind, Except.error.injEq] at h
      exact h ▸ hf

theorem performs_alter (f : DataDir → Exec Error DataDir) :
    Performs (alter f) fun dd => f dd >>= fun dd => .ok (dd, ()) where
  ok := by
    intro disk dataDir a h
    obtain ⟨dd, hf, hb⟩ := Exec.bind_eq_ok.mp h
    cases hb
    have hrun : alter f ⟨disk, []⟩ = runAlter f ⟨disk, []⟩ := rfl
    exact ⟨disk.clock + 1, by simp [hrun, runAlter, hf]⟩
  error := by
    intro disk e h
    have hrun : alter f ⟨disk, []⟩ = runAlter f ⟨disk, []⟩ := rfl
    cases hf : f disk.dataDir with
    | ok dd => simp [hf, Exec.ok_bind] at h
    | error e' => simpa [hf, hrun, runAlter, Exec.error_bind] using h

variable {crates : Crates} {ord : IterOrder FileHandle} {orders : GcOrders} {opts : GcOptions}

theorem performs_deletePackSteps (id : PackId) : Performs (deletePackSteps crates id).alone
    fun dd => deletePack crates dd id >>= fun dd => .ok (dd, ()) := by
  have hsteps := (performs_look (checkDeletion crates id)).bind fun isLoose =>
    (performs_alter (removeIndex id)).bind fun _ => performs_alter (removeRest id isLoose)
  simp only [deletePackSteps, Program.alone_bind, Program.alone_lift]
  refine hsteps.congr fun dd => ?_
  simp only [bind_assoc, Exec.ok_bind, deletePack, checkDeletion, removeIndex, removeRest]
  congr 1
  funext _
  cases isPackLoose crates dd id <;> cases dd.packs.present id.packPath
  · simp
    rfl
  · simp [Exec.ok_bind]
  · simp [Exec.ok_bind]
  · simp
    rfl

theorem performs_collectSnapshotsSteps (dryRun : Bool) (roots ids : List PackId) :
    Performs (collectSnapshotsSteps crates dryRun roots ids).alone
      fun dd => collectSnapshots crates dryRun dd roots ids := by
  induction ids generalizing roots with
  | nil => exact .pure roots
  | cons id rest ih =>
    have hdelete : Performs (unlessDry dryRun (deletePackSteps crates id)).alone
        fun dd => (if dryRun then .ok dd else deletePack crates dd id) >>= fun dd => .ok (dd, ()) := by
      cases dryRun with
      | true => exact .pure ()
      | false => exact performs_deletePackSteps id
    have hsteps := (performs_done (Exec.assert (id ∈ roots))).bind fun _ =>
      (performs_look fun dd => getPackDiskStats crates dd id).bind fun _ =>
        hdelete.bind fun _ => ih (roots.erase id)
    simp only [collectSnapshotsSteps, Program.alone_bind, Program.alone_lift]
    refine hsteps.congr fun dd => ?_
    simp only [bind_assoc, Exec.ok_bind, collectSnapshots]
    cases dryRun <;> rfl

theorem performs_collectObjectsSteps (dryRun : Bool) (objects : List ObjectChecksum) :
    Performs (collectObjectsSteps dryRun objects).alone
      fun dd => collectObjects dryRun dd objects >>= fun dd => .ok (dd, ()) := by
  induction objects with
  | nil => exact .pure ()
  | cons checksum rest ih =>
    have hdelete : Performs
        (unlessDry dryRun (Program.lift (alter fun dd => deleteObject dd checksum))).alone
        fun dd => (if dryRun then .ok dd else deleteObject dd checksum) >>= fun dd => .ok (dd, ()) := by
      cases dryRun with
      | true => exact .pure ()
      | false => exact performs_alter _
    have hsteps := (performs_look fun dd => getObjectDiskStats dd checksum).bind fun _ =>
      hdelete.bind fun _ => ih
    simp only [collectObjectsSteps, Program.alone_bind, Program.alone_lift]
    refine hsteps.congr fun dd => ?_
    simp only [bind_assoc, Exec.ok_bind, collectObjects]
    cases dryRun with
    | true => rfl
    | false => simp [bind_assoc]

theorem performs_gcSnapshotsSteps : Performs (gcSnapshotsSteps crates ord orders opts).alone
    (gcSnapshots crates ord orders opts) := by
  cases hsnapshots : opts.looseSnapshots with
  | true =>
    have hcollect (roots redundant : List PackId) :
        Performs (collectSnapshotsSteps crates opts.dryRun roots redundant).alone
          fun dd => collectSnapshots crates opts.dryRun dd roots redundant :=
      performs_collectSnapshotsSteps opts.dryRun roots redundant
    have hsteps := (performs_look (loosePacks crates)).bind fun roots =>
      (performs_look (findRedundantLoosePacks crates ord orders)).bind fun redundant =>
        hcollect roots redundant
    simp only [gcSnapshotsSteps, hsnapshots, if_true, Program.alone_bind, Program.alone_lift]
    refine hsteps.congr fun dd => ?_
    simp only [bind_assoc, Exec.ok_bind, gcSnapshots, hsnapshots, if_true]
  | false =>
    have hsteps := (performs_look (loosePacks crates)).bind fun roots => Performs.pure roots
    simp only [gcSnapshotsSteps, hsnapshots, Program.alone_bind, Program.alone_lift]
    refine hsteps.congr fun dd => ?_
    simp [bind_assoc, Exec.ok_bind, gcSnapshots, hsnapshots]

theorem performs_gcSteps : Performs (gcSteps crates ord orders opts).alone fun dd =>
    (do
      let (dd, roots) ← gcSnapshots crates ord orders opts dd
      if opts.looseObjects then
        let objects ← findUnreferencedObjects crates dd roots
        collectObjects opts.dryRun dd (objects.iter orders.objects)
      else .ok dd) >>= fun dd => .ok (dd, ()) := by
  have hsnapshots : Performs (gcSnapshotsSteps crates ord orders opts).alone
      (gcSnapshots crates ord orders opts) := performs_gcSnapshotsSteps
  cases hobjects : opts.looseObjects with
  | true =>
    have hsteps := hsnapshots.bind fun roots =>
      (performs_look fun dd => findUnreferencedObjects crates dd roots).bind fun objects =>
        performs_collectObjectsSteps opts.dryRun (objects.iter orders.objects)
    simp only [gcSteps, hobjects, if_true, Program.alone_bind, Program.alone_lift]
    refine hsteps.congr fun dd => ?_
    simp only [bind_assoc, Exec.ok_bind]
  | false =>
    have hsteps := hsnapshots.bind fun _ => Performs.pure ()
    simp only [gcSteps, hobjects, Program.alone_bind]
    refine hsteps.congr fun dd => ?_
    simp [bind_assoc, Exec.ok_bind]

/-- Without others in between, the steps of a collection are the collection. -/
theorem performs_collect : Performs (collect crates ord orders opts .opened).alone
    fun dd => gc crates ord orders opts dd >>= fun dd => .ok (dd, ()) := by
  by_cases hnothing : (!opts.looseSnapshots && !opts.looseObjects) = true
  · simp only [collect, gc, if_pos hnothing]
    exact performs_done (Exec.fail .invalidOptions)
  · have hopened : (OpenRepository.openWithDataDir .opened >>= fun repo =>
        lockForCollection opts repo >>= fun _ => gcSteps crates ord orders opts).alone =
          (gcSteps crates ord orders opts).alone := by
      unfold lockForCollection
      cases opts.dryRun <;> rfl
    simp only [collect, gc, if_neg hnothing, hopened]
    exact performs_gcSteps

end Performs

end Elfshaker.System
