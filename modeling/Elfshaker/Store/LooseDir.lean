import Elfshaker.Library.Addressed
import Elfshaker.Store.GcObjects
import Elfshaker.Store.Reservation

namespace Elfshaker.Store

open Elfshaker.Library Elfshaker.Format

namespace DirTree

/-- `File::create`: what the file held is gone. -/
def createFile (path : String) (now : Nat) (tree : DirTree) : Exec IoError DirTree := do
  let tree ← openCreate path now tree
  write path [] now tree

/-- `remove_leaf`, where nothing is a link. -/
def removeLeaf (path : String) (_now : Nat) (tree : DirTree) : Exec IoError DirTree :=
  match tree.lookup path with
  | none => .ok tree
  | some (.file _ _) => .ok (tree.erase path)
  | some .dir =>
    if tree.hasChildren path then Exec.fail .directoryNotEmpty else .ok (tree.erase path)

theorem createFile_ok {path : String} {now : Nat} {tree tree' : DirTree}
    (h : createFile path now tree = .ok tree') {p : String} (hp : p ≠ path) {b : List UInt8} :
    (p, b) ∈ tree'.files ↔ (p, b) ∈ tree.files := by
  obtain ⟨mid, hmid, h⟩ := Exec.bind_eq_ok.mp h
  rw [write_ok h, mem_files_insert_file, if_neg hp]
  obtain ⟨-, ⟨-, rfl⟩ | ⟨-, rfl⟩⟩ := openCreate_ok hmid
  · rfl
  · rw [mem_files_insert_file, if_neg hp]

theorem removeLeaf_ok {path : String} {now : Nat} {tree tree' : DirTree}
    (h : removeLeaf path now tree = .ok tree') : tree' = tree ∨ tree' = tree.erase path := by
  unfold removeLeaf at h
  split at h
  · cases h
    exact .inl rfl
  · cases h
    exact .inr rfl
  · split_ifs at h
    · cases h
    · cases h
      exact .inr rfl

end DirTree

section Objects

/-- What the loose directory holds under the checksums. -/
def objects (tree : DirTree) : Holdings ObjectChecksum (List UInt8) := fun checksum =>
  (tree.readFile (looseObjectPath checksum)).toOption

variable {tree tree' : DirTree} {checksum : ObjectChecksum} {bytes : List UInt8} {path : String}

theorem objects_eq_some :
    objects tree checksum = some bytes ↔ (looseObjectPath checksum, bytes) ∈ tree.files := by
  rw [objects, ← DirTree.readFile_eq_ok]
  cases tree.readFile (looseObjectPath checksum) <;> simp [Except.toOption]

/-- The path is not that of an object. -/
def OffObjects (path : String) : Prop := ∀ checksum, looseObjectPath checksum ≠ path

/-- Files that are not objects do not matter. -/
theorem objects_congr (h : ∀ checksum bytes, (looseObjectPath checksum, bytes) ∈ tree'.files ↔
    (looseObjectPath checksum, bytes) ∈ tree.files) : objects tree' = objects tree := by
  funext checksum
  apply Option.ext
  intro bytes
  rw [objects_eq_some, objects_eq_some, h]

theorem objects_insert {mtime : Nat} :
    objects (tree.insert (looseObjectPath checksum) (.file bytes mtime)) =
      Function.update (objects tree) checksum (some bytes) := by
  funext c
  apply Option.ext
  intro b
  rw [objects_eq_some, DirTree.mem_files_insert_file]
  by_cases heq : c = checksum
  · subst heq
    rw [if_pos rfl, Function.update_self, Option.some.injEq, eq_comm]
  · rw [if_neg fun hpath => heq (looseObjectPath_injective hpath), Function.update_of_ne heq,
      objects_eq_some]

theorem objects_erase :
    objects (tree.erase (looseObjectPath checksum)) =
      Function.update (objects tree) checksum none := by
  funext c
  apply Option.ext
  intro b
  rw [objects_eq_some, DirTree.mem_files_erase]
  by_cases heq : c = checksum
  · subst heq
    simp
  · rw [Function.update_of_ne heq, objects_eq_some]
    exact and_iff_left fun hpath => heq (looseObjectPath_injective hpath)

theorem objects_makeDir {dir : String} {isLast : Bool} {now : Nat}
    (h : DirTree.makeDir dir isLast now tree = .ok tree') : objects tree' = objects tree :=
  objects_congr fun _ _ => DirTree.makeDir_files h

theorem objects_createFile {now : Nat} (hoff : OffObjects path)
    (h : DirTree.createFile path now tree = .ok tree') : objects tree' = objects tree :=
  objects_congr fun c _ => DirTree.createFile_ok h (hoff c)

theorem objects_write {now : Nat} (hoff : OffObjects path)
    (h : DirTree.write path bytes now tree = .ok tree') : objects tree' = objects tree := by
  apply objects_congr
  intro c b
  rw [DirTree.write_ok h, DirTree.mem_files_insert_file, if_neg (hoff c)]

theorem objects_removeFile (hoff : OffObjects path)
    (h : tree.removeFile path = .ok tree') : objects tree' = objects tree := by
  apply objects_congr
  intro c b
  obtain ⟨-, rfl⟩ := DirTree.removeFile_eq_ok.mp h
  rw [DirTree.mem_files_erase]
  exact and_iff_left (hoff c)

/-- A finished file that is put in the place of an object. -/
theorem objects_rename {now : Nat} (hoff : OffObjects path) (hfile : (path, bytes) ∈ tree.files)
    (h : DirTree.rename path (looseObjectPath checksum) now tree = .ok tree') :
    objects tree' = Function.update (objects tree) checksum (some bytes) := by
  funext c
  apply Option.ext
  intro b
  rw [objects_eq_some, DirTree.rename_files h hfile (hoff c)]
  by_cases heq : c = checksum
  · subst heq
    rw [if_pos rfl, Function.update_self, Option.some.injEq, eq_comm]
  · rw [if_neg fun hpath => heq (looseObjectPath_injective hpath), Function.update_of_ne heq,
      objects_eq_some]

theorem objects_removeLeaf {now : Nat}
    (h : DirTree.removeLeaf (looseObjectPath checksum) now tree = .ok tree') :
    objects tree' = objects tree ∨ objects tree' = Function.update (objects tree) checksum none := by
  rcases DirTree.removeLeaf_ok h with rfl | rfl
  · exact .inl rfl
  · exact .inr objects_erase

end Objects

namespace LooseDir

/-- The bytes that the name of a temporary file is made of. -/
structure RandomName where
  bytes : List UInt8
  size : bytes.length = 16

/-- `create_temp_path` in the directory of a file. -/
def tempPath (random : RandomName) (destination : String) : String :=
  let dir := ((DirTree.ancestors destination).getLast?.map (· ++ "/")).getD ""
  dir ++ String.ofList (hexEncode random.bytes)

def write (path : String) (bytes : List UInt8) : Io Unit :=
  Session.os Fault.error
    (fun fault disk => (Io.runOnLoose (DirTree.write path (bytes.take fault.written)) disk).2)
    (Io.runOnLoose (DirTree.write path bytes))

def removeFile (path : String) : Io Unit :=
  Io.onLoose fun _ tree => tree.removeFile path

/-- Goes on with an error after a temporary file was removed, or could not be. -/
def discard (temporary : String) (x : Io Unit) : Io Unit :=
  x.orElse fun e => some do
    (removeFile temporary).orElse fun _ => some (pure ())
    Effect.lift (Exec.fail e)

def removeLeaf (path : String) : Io Unit := do
  Io.passing
  Io.onLoose (DirTree.removeLeaf path)

/-- `fs::symlink_metadata(path).is_ok()`. -/
def isPresent (path : String) : Io Bool :=
  (Io.look fun dd => .ok (dd.loose.present path)).orElse fun _ => some (pure false)

/-- `replace`, on Unix: a destination that the renaming does not replace is removed. -/
def replace (temporary destination : String) : Io Unit :=
  (Io.onLoose (DirTree.rename temporary destination)).orElse fun e => some do
    let present ← isPresent destination
    if present then do
      removeLeaf destination
      Io.onLoose (DirTree.rename temporary destination)
    else Effect.lift (Exec.fail e)

/-- `materialize_regular`; the file is created, then its permissions are set. -/
def materializeRegular (random : RandomName) (bytes : List UInt8) (destination : String) :
    Io Unit := do
  Io.createDirAll Io.onLoose (DirTree.ancestors destination)
  let temporary := tempPath random destination
  Io.onLoose (DirTree.createFile temporary)
  Io.passing
  discard temporary (write temporary bytes)
  discard temporary (replace temporary destination)

/-- The name of a temporary file is shorter than that of an object. -/
theorem tempPath_offObjects (random : RandomName) (destination : String) :
    OffObjects (tempPath random destination) := by
  intro checksum heq
  have hchars := congrArg String.toList heq
  rw [looseObjectPath, tempPath, String.toList_ofList, String.toList_append,
    String.toList_ofList] at hchars
  have hhex : '/' ∉ (hexEncode checksum.bytes).drop 4 := fun h =>
    hexEncode_separator _ (List.mem_of_mem_drop h)
  have hsplit := congrArg (Text.rsplitOnce '/') hchars
  have hobject : Text.rsplitOnce '/' ((hexEncode checksum.bytes).take 2 ++
      '/' :: (((hexEncode checksum.bytes).drop 2).take 2 ++ '/' :: (hexEncode checksum.bytes).drop 4))
        = some ((hexEncode checksum.bytes).take 2 ++ '/' :: ((hexEncode checksum.bytes).drop 2).take 2,
          (hexEncode checksum.bytes).drop 4) := by
    rw [← List.cons_append, ← List.append_assoc]
    exact Text.rsplitOnce_append hhex
  rw [hobject] at hsplit
  cases hdir : (DirTree.ancestors destination).getLast? with
  | none =>
    rw [hdir] at hsplit
    have hnone : Text.rsplitOnce '/' (hexEncode random.bytes) = none :=
      Text.rsplitOnce_none (hexEncode_separator _)
    simp [hnone] at hsplit
  | some dir =>
    rw [hdir] at hsplit
    have htemp : Text.rsplitOnce '/' (dir.toList ++ '/' :: hexEncode random.bytes) =
        some (dir.toList, hexEncode random.bytes) :=
      Text.rsplitOnce_append (hexEncode_separator _)
    simp only [Option.map_some, Option.getD_some, String.toList_append] at hsplit
    have hslash : "/".toList = ['/'] := rfl
    rw [hslash, List.append_assoc, List.singleton_append, htemp] at hsplit
    have hlast := congrArg List.length (Prod.mk.inj (Option.some.inj hsplit)).2
    rw [List.length_drop, hexEncode_length, hexEncode_length, checksum.length_eq, random.size]
      at hlast
    omega

/-- A property of what is held under the checksums. -/
def OfObjects (P : Holdings ObjectChecksum (List UInt8) → Prop) (disk : Disk) : Prop :=
  P (objects disk.dataDir.loose)

section Writers

variable {P : Holdings ObjectChecksum (List UInt8) → Prop} {path : String} {bytes : List UInt8}
  {checksum : ObjectChecksum}

/-- Nothing in the packs directory is an object. -/
theorem keeps_packs (op : Nat → DirTree → Exec IoError DirTree) :
    Io.KeepsDisk (OfObjects P) (Io.onPacks op) :=
  Io.keeps_onPacks fun _ _ _ hdisk _ => hdisk

theorem keeps_writeToPacks : Io.KeepsDisk (OfObjects P) (Io.writeToPacks path bytes) :=
  Io.keeps_writeToPacks fun _ _ _ _ hdisk _ => hdisk

/-- A step that leaves all objects as they are. -/
theorem keeps_apart {op : Nat → DirTree → Exec IoError DirTree}
    (h : ∀ now tree tree', op now tree = .ok tree' → objects tree' = objects tree) :
    Io.KeepsDisk (OfObjects P) (Io.onLoose op) := by
  refine Io.keeps_onLoose fun disk now loose hdisk hop => ?_
  rw [OfObjects, h now _ _ hop]
  exact hdisk

theorem keeps_makeDirs (dirs : List String) :
    Io.KeepsDisk (OfObjects P) (Io.createDirAll Io.onLoose dirs) :=
  Io.keeps_createDirAll fun _ _ => keeps_apart fun _ _ _ h => objects_makeDir h

/-- A temporary file of the loose directory holds some bytes. -/
def Filled (P : Holdings ObjectChecksum (List UInt8) → Prop) (temporary : String)
    (bytes : List UInt8) (disk : Disk) : Prop :=
  OfObjects P disk ∧ (temporary, bytes) ∈ disk.dataDir.loose.files

theorem write_filled (hoff : OffObjects path) :
    Effect.Triple (fun s => OfObjects P s.state) (write path bytes)
      (fun _ s => Filled P path bytes s.state) fun s => OfObjects P s.state := by
  have hwritten (content : List UInt8) (disk : Disk) (hdisk : OfObjects P disk) :
      OfObjects P (Io.runOnLoose (DirTree.write path content) disk).2 := by
    unfold Io.runOnLoose
    split
    · rename_i loose hop
      rw [OfObjects, objects_write hoff hop]
      exact hdisk
    · exact hdisk
  refine .intro (fun s s' _ hs h => ?_) fun s s' e hs h => ?_
  · have hrun := Session.os_eq_ok h
    have hkept := hwritten bytes s.state hs
    rw [hrun] at hkept
    obtain ⟨loose, hop, hstate⟩ := Io.runOnLoose_ok hrun
    refine ⟨hkept, ?_⟩
    rw [hstate, DirTree.write_ok hop]
    exact DirTree.mem_files_insert_file.mpr (by rw [if_pos rfl])
  · have hkeeps : Effect.Keeps (fun s => OfObjects P s.state) (write path bytes) :=
      Session.keeps_os (fun fault disk => hwritten _ disk) fun disk => hwritten _ disk
    exact hkeeps.error hs h

/-- An error that is passed on once the temporary file was removed, or could not be. -/
theorem discard_of {E : Disk → Prop} {Q : Unit → Session Disk Fault → Prop} {x : Io Unit}
    (hx : Effect.Triple (fun s => E s.state) x Q fun s => OfObjects P s.state)
    (hoff : OffObjects path) :
    Effect.Triple (fun s => E s.state) (discard path x) Q fun s => OfObjects P s.state := by
  have hremove : Io.KeepsDisk (OfObjects P) (removeFile path) :=
    keeps_apart fun _ _ _ h => objects_removeFile hoff h
  refine hx.orElse fun e y hy => ?_
  cases hy
  have hcleanup : Io.KeepsDisk (OfObjects P) ((removeFile path).orElse fun _ => some (pure ())) := by
    refine hremove.orElse fun e y hy => ?_
    cases hy
    exact .pure _
  exact Effect.Triple.bind hcleanup fun _ => .fails

end Writers

section Genuine

variable {names : ObjectChecksum → List UInt8 → Prop}
  {start : Holdings ObjectChecksum (List UInt8)} {temporary : String} {bytes : List UInt8}
  {checksum : ObjectChecksum}

/-- The file takes the place of the object, or everything stays. -/
theorem rename_kept (genuine : Holdings.Genuine names start checksum bytes)
    (hoff : OffObjects temporary) :
    Effect.Triple (fun s => Filled (Holdings.Kept names start) temporary bytes s.state)
      (Io.onLoose (DirTree.rename temporary (looseObjectPath checksum)))
      (fun _ s => OfObjects (Holdings.Kept names start) s.state)
      fun s => Filled (Holdings.Kept names start) temporary bytes s.state := by
  refine .intro (fun s s' _ hs h => ?_) fun s s' e hs h => ?_
  · obtain ⟨loose, hop, hstate⟩ := Io.onLoose_ok h
    rw [hstate, OfObjects, objects_rename hoff hs.2 hop]
    exact hs.1.put genuine
  · rw [Io.onLoose_error h]
    exact hs

theorem keeps_removeLeaf (hoff : OffObjects temporary) :
    Io.KeepsDisk (Filled (Holdings.Kept names start) temporary bytes)
      (removeLeaf (looseObjectPath checksum)) := by
  refine Effect.Keeps.bind Io.keeps_passing fun _ =>
    Io.keeps_onLoose fun disk now loose hdisk hop => ⟨?_, ?_⟩
  · rcases objects_removeLeaf hop with hsame | hgone
    · rw [OfObjects, hsame]
      exact hdisk.1
    · rw [OfObjects, hgone]
      exact hdisk.1.remove
  · rcases DirTree.removeLeaf_ok hop with rfl | rfl
    · exact hdisk.2
    · exact DirTree.mem_files_erase.mpr ⟨hdisk.2, (hoff checksum).symm⟩

theorem replace_kept (genuine : Holdings.Genuine names start checksum bytes)
    (hoff : OffObjects temporary) :
    Effect.Triple (fun s => Filled (Holdings.Kept names start) temporary bytes s.state)
      (replace temporary (looseObjectPath checksum))
      (fun _ s => OfObjects (Holdings.Kept names start) s.state)
      fun s => Filled (Holdings.Kept names start) temporary bytes s.state := by
  have hrename := rename_kept genuine hoff
  refine hrename.orElse fun e y hy => ?_
  cases hy
  have hpresent : Io.KeepsDisk (Filled (Holdings.Kept names start) temporary bytes)
      (isPresent (looseObjectPath checksum)) := by
    refine (Io.keeps_look _).orElse fun e y hy => ?_
    cases hy
    exact .pure _
  refine Effect.Triple.bind hpresent fun present => ?_
  cases present with
  | true => exact Effect.Triple.bind (keeps_removeLeaf hoff) fun _ => hrename
  | false => exact .fails

/-- Only genuine objects are put into the loose directory. -/
theorem keeps_materializeRegular (random : RandomName)
    (genuine : Holdings.Genuine names start checksum bytes) :
    Io.KeepsDisk (OfObjects (Holdings.Kept names start))
      (materializeRegular random bytes (looseObjectPath checksum)) := by
  have hoff := tempPath_offObjects random (looseObjectPath checksum)
  have hcreate : Io.KeepsDisk (OfObjects (Holdings.Kept names start))
      (Io.onLoose (DirTree.createFile (tempPath random (looseObjectPath checksum)))) :=
    keeps_apart fun _ _ _ h => objects_createFile hoff h
  refine Effect.Keeps.bind (keeps_makeDirs _) fun _ =>
    hcreate.bind fun _ => Io.keeps_passing.bind fun _ => ?_
  refine Effect.Triple.bind (discard_of (write_filled hoff) hoff) fun _ => ?_
  refine discard_of ?_ hoff
  exact (replace_kept genuine hoff).weaken (fun _ hs => hs) (fun _ _ hs => hs) fun _ hs => hs.1

end Genuine

section Stored

variable {names : ObjectChecksum → List UInt8 → Prop}
  {start : Holdings ObjectChecksum (List UInt8)} {bytes : List UInt8} {checksum : ObjectChecksum}

/-- No object is there yet. -/
def Vacant (names : ObjectChecksum → List UInt8 → Prop)
    (start : Holdings ObjectChecksum (List UInt8)) (checksum : ObjectChecksum)
    (disk : Disk) : Prop :=
  OfObjects (Holdings.Grown names start) disk ∧ objects disk.dataDir.loose checksum = none

theorem publish_grown (named : names checksum bytes) :
    Effect.Triple (fun s => Vacant names start checksum s.state)
      (publishOrExisting (looseObjectPath checksum) bytes)
      (fun _ s => OfObjects (Holdings.Grown names start) s.state)
      fun s => OfObjects (Holdings.Grown names start) s.state := by
  have hpublish : Effect.Triple (fun s => Vacant names start checksum s.state)
      (Io.onLoose (DirTree.publish (looseObjectPath checksum) bytes))
      (fun _ s => OfObjects (Holdings.Grown names start) s.state)
      fun s => OfObjects (Holdings.Grown names start) s.state := by
    refine .intro (fun s s' _ hs h => ?_) fun s s' e hs h => ?_
    · obtain ⟨loose, hop, hstate⟩ := Io.onLoose_ok h
      rw [hstate, OfObjects, DirTree.publish_ok hop, objects_insert]
      exact hs.1.put hs.2 named
    · rw [Io.onLoose_error h]
      exact hs.1
  refine hpublish.orElse fun e y hy => ?_
  cases hy
  exact Effect.Keeps.bind (Io.keeps_look _) fun _ => .lift _

theorem objects_eq_none {tree : DirTree} (h : isFile tree (looseObjectPath checksum) = false) :
    objects tree checksum = none := by
  by_contra hsome
  obtain ⟨bytes, hbytes⟩ := Option.ne_none_iff_exists'.mp hsome
  obtain ⟨mtime, hlookup⟩ := DirTree.mem_files.mp (objects_eq_some.mp hbytes)
  rw [isFile, hlookup] at h
  cases h

/-- An object that is there is not written again. -/
theorem keeps_writeLooseObject (named : names checksum bytes) :
    Io.KeepsDisk (OfObjects (Holdings.Grown names start)) (writeLooseObject checksum bytes) := by
  refine Effect.Keeps.bind (keeps_makeDirs _) fun _ => ?_
  refine Effect.Triple.bind (Io.look_known _) fun existing => ?_
  cases existing with
  | true => exact .pure fun _ hs => hs.1
  | false =>
    have hvacant : ∀ s : Session Disk Fault, OfObjects (Holdings.Grown names start) s.state ∧
        (.ok (isFile s.state.dataDir.loose (looseObjectPath checksum)) : Exec IoError Bool) =
          .ok false → Vacant names start checksum s.state :=
      fun s hs => ⟨hs.1, objects_eq_none (Except.ok.inj hs.2)⟩
    have hprepare : Io.KeepsDisk (Vacant names start checksum) Io.prepareAtomicWrite :=
      Io.keeps_prepareAtomicWrite
    refine Effect.Triple.weaken ?_ hvacant (fun _ _ hs => hs) fun _ hs => hs
    exact Effect.Triple.bind
      (hprepare.weaken (fun _ hs => hs) (fun _ _ hs => hs) fun _ hs => hs.1)
      fun _ => publish_grown named

end Stored

section Commands

variable {crates : Crates} {writer : RmpWriter} {ord : IterOrder FileHandle} {random : List UInt8}
  {snapshot : SnapshotId} {files : List InputFile}

section Create

variable {P : Holdings ObjectChecksum (List UInt8) → Prop}

theorem keeps_prepareSnapshot : Io.KeepsDisk (OfObjects P) (prepareSnapshot crates snapshot) :=
  (keeps_io Io.keeps_passing).bind fun _ =>
    (keeps_io (Io.keeps_ensureDir fun _ _ => keeps_packs _)).bind fun _ => .asks _

theorem keeps_updateHead : Io.KeepsDisk (OfObjects P) (updateHead snapshot) :=
  (keeps_io Io.keeps_passing).bind fun _ =>
    (keeps_io Io.keeps_prepareAtomicWrite).bind fun _ =>
      keeps_io (Io.keeps_setHead fun _ _ _ hdisk => hdisk)

variable (writes : ∀ bytes, Io.KeepsDisk (OfObjects P)
  (Store.writeLooseObject (crates.sha1 bytes) bytes))

include writes

theorem keeps_createSnapshot :
    Io.KeepsDisk (OfObjects P) (createSnapshot crates writer ord random snapshot files) := by
  have hfill : Io.KeepsDisk (OfObjects P)
      (fillSnapshot crates writer ord random snapshot files) :=
    (keeps_io (keeps_createTemp_of fun _ _ _ hdisk _ => hdisk)).bind fun _ =>
      (keeps_snapshotIndex_of writes ord snapshot files).bind fun _ =>
        (keeps_io (keeps_fill_of fun _ _ _ _ hdisk _ => hdisk)).bind fun _ => .pure _
  have hwrite : Io.KeepsDisk (OfObjects P)
      (writeSnapshot crates writer ord random snapshot files) :=
    hfill.bind fun _ => keeps_io (keeps_packs _)
  have hreserve : Io.KeepsDisk (OfObjects P) (reserveSnapshot crates snapshot) :=
    keeps_prepareSnapshot.bind fun _ =>
      keeps_io (keeps_reserve_of (fun _ _ => keeps_packs _) (keeps_packs _))
  exact hreserve.bind fun _ => hwrite.bind fun _ => keeps_updateHead

theorem keeps_createSnapshotForce :
    Io.KeepsDisk (OfObjects P) (createSnapshotForce crates writer ord snapshot files) :=
  keeps_prepareSnapshot.bind fun _ =>
    (keeps_snapshotIndex_of writes ord snapshot files).bind fun _ =>
      (keeps_io Io.keeps_prepareAtomicWrite).bind fun _ =>
        (keeps_io (keeps_packs _)).bind fun _ => keeps_updateHead

end Create

section Collect

variable {dd dd' dd'' : DataDir}

/-- A part of the loose files is left. -/
def Shrinks (dd dd' : DataDir) : Prop := ∀ file ∈ dd'.loose.files, file ∈ dd.loose.files

theorem Shrinks.refl (dd : DataDir) : Shrinks dd dd := fun _ hfile => hfile

theorem Shrinks.trans (h : Shrinks dd dd') (h' : Shrinks dd' dd'') : Shrinks dd dd'' :=
  fun file hfile => h file (h' file hfile)

theorem deletePack_shrinks {id : PackId} (h : deletePack crates dd id = .ok dd') :
    Shrinks dd dd' := by
  obtain ⟨_, -, h⟩ := Exec.bind_eq_ok.mp h
  dsimp only at h
  split_ifs at h
  · cases h
  · cases h
  · obtain ⟨tree, -, h⟩ := Exec.bind_eq_ok.mp h
    obtain ⟨_, -, h⟩ := Exec.bind_eq_ok.mp h
    cases h
    exact .refl dd
  · obtain ⟨tree, -, h⟩ := Exec.bind_eq_ok.mp h
    obtain ⟨_, -, h⟩ := Exec.bind_eq_ok.mp h
    cases h
    exact .refl dd

theorem deleteObject_shrinks {checksum : ObjectChecksum}
    (h : deleteObject dd checksum = .ok dd') : Shrinks dd dd' := by
  obtain ⟨tree, hremove, h⟩ := Exec.bind_eq_ok.mp h
  cases h
  obtain ⟨-, rfl⟩ := DirTree.removeFile_eq_ok.mp (Exec.mapError_eq_ok.mp hremove)
  exact fun file hfile => (DirTree.mem_files_erase.mp hfile).1

theorem collectSnapshots_shrinks {dryRun : Bool} {roots ids rest : List PackId}
    (h : collectSnapshots crates dryRun dd roots ids = .ok (dd', rest)) : Shrinks dd dd' := by
  induction ids generalizing dd roots with
  | nil =>
    cases h
    exact .refl _
  | cons id ids ih =>
    obtain ⟨_, -, h⟩ := Exec.bind_eq_ok.mp h
    obtain ⟨_, -, h⟩ := Exec.bind_eq_ok.mp h
    cases dryRun with
    | true => exact ih h
    | false =>
      obtain ⟨mid, hdelete, h⟩ := Exec.bind_eq_ok.mp h
      exact (deletePack_shrinks hdelete).trans (ih h)

theorem collectObjects_shrinks {dryRun : Bool} {objects : List ObjectChecksum}
    (h : collectObjects dryRun dd objects = .ok dd') : Shrinks dd dd' := by
  induction objects generalizing dd with
  | nil =>
    cases h
    exact .refl _
  | cons checksum rest ih =>
    obtain ⟨_, -, h⟩ := Exec.bind_eq_ok.mp h
    cases dryRun with
    | true => exact ih h
    | false =>
      obtain ⟨mid, hdelete, h⟩ := Exec.bind_eq_ok.mp h
      exact (deleteObject_shrinks hdelete).trans (ih h)

theorem gcSnapshots_shrinks {orders : GcOrders} {opts : GcOptions} {roots : List PackId}
    (h : gcSnapshots crates ord orders opts dd = .ok (dd', roots)) : Shrinks dd dd' := by
  obtain ⟨ids, -, h⟩ := Exec.bind_eq_ok.mp h
  split_ifs at h
  · obtain ⟨redundant, -, hcollect⟩ := Exec.bind_eq_ok.mp h
    exact collectSnapshots_shrinks hcollect
  · cases h
    exact .refl dd

theorem gc_shrinks {orders : GcOrders} {opts : GcOptions}
    (h : gc crates ord orders opts dd = .ok dd') : Shrinks dd dd' := by
  rw [gc] at h
  split_ifs at h with _ hobjects
  · cases h
  · obtain ⟨⟨mid, roots⟩, hsnapshots, h⟩ := Exec.bind_eq_ok.mp h
    obtain ⟨objects, -, hcollect⟩ := Exec.bind_eq_ok.mp h
    exact (gcSnapshots_shrinks hsnapshots).trans (collectObjects_shrinks hcollect)
  · obtain ⟨⟨mid, roots⟩, hsnapshots, h⟩ := Exec.bind_eq_ok.mp h
    cases h
    exact gcSnapshots_shrinks hsnapshots

theorem Shrinks.objects (h : Shrinks dd dd') (checksum : ObjectChecksum) (bytes : List UInt8)
    (hbytes : Store.objects dd'.loose checksum = some bytes) :
    Store.objects dd.loose checksum = some bytes :=
  objects_eq_some.mpr (h _ (objects_eq_some.mp hbytes))

end Collect

end Commands

end LooseDir

end Elfshaker.Store
