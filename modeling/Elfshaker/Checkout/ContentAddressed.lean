import Elfshaker.Checkout.Explode
import Elfshaker.Packs.CrashConsistency

namespace Elfshaker.Checkout.Explode

open Elfshaker.Library Elfshaker.Format Elfshaker.Store Elfshaker.Packs
open Elfshaker.Store.LooseDir (OfObjects)

section Paths

theorem hexDigit_char : ∀ n < 16,
    Char.ofNat (UInt8.ofNat (Nat.digitChar n).toNat).toNat = Nat.digitChar n := by
  decide

theorem mem_hexEncode {bytes : List UInt8} {c : Char} (h : c ∈ hexEncode bytes) :
    ∃ n < 16, c = Nat.digitChar n := by
  obtain ⟨b, -, hc⟩ := List.mem_flatMap.mp h
  have hb := b.toNat_lt
  rcases List.mem_pair.mp hc with rfl | rfl
  · exact ⟨_, by omega, rfl⟩
  · exact ⟨_, Nat.mod_lt _ (by omega), rfl⟩

/-- The path of an object is read as it was written. -/
theorem toNative_pathBytes {path : PackPath} {checksum : ObjectChecksum}
    (h : path.bytes = pathBytes checksum) : toNative path = looseObjectPath checksum := by
  have hchar : ∀ c ∈ (looseObjectPath checksum).toList,
      Char.ofNat (UInt8.ofNat c.toNat).toNat = c := by
    intro c hc
    rw [looseObjectPath, String.toList_ofList] at hc
    have hhex : c = '/' ∨ c ∈ hexEncode checksum.bytes := by
      simp only [List.mem_append, List.mem_cons] at hc
      rcases hc with hc | rfl | hc | rfl | hc
      · exact .inr (List.mem_of_mem_take hc)
      · exact .inl rfl
      · exact .inr (List.mem_of_mem_drop (List.mem_of_mem_take hc))
      · exact .inl rfl
      · exact .inr (List.mem_of_mem_drop hc)
    rcases hhex with rfl | hhex
    · rfl
    · obtain ⟨n, hn, rfl⟩ := mem_hexEncode hhex
      exact hexDigit_char n hn
  rw [toNative, h, pathBytes, List.map_map]
  have hmap : (looseObjectPath checksum).toList.map
      ((fun b : UInt8 => Char.ofNat b.toNat) ∘ fun c => UInt8.ofNat c.toNat) =
        (looseObjectPath checksum).toList := by
    exact (List.map_congr_left hchar).trans (List.map_id' _)
  rw [hmap, String.ofList_toList]

/-- An entry that is unpacked to the path of the object. -/
def Placed (entry : FileEntry) : Prop := toNative entry.path = looseObjectPath entry.checksum

theorem objectEntries_placed {index : PackIndex} {entries : List FileEntry}
    (h : objectEntries index = .ok entries) : ∀ entry ∈ entries, Placed entry := by
  intro entry hentry
  obtain ⟨checksum, -, h⟩ := Exec.mem_of_mapM h hentry
  obtain ⟨handle, -, h⟩ := Exec.bind_eq_ok.mp h
  obtain ⟨metadata, -, h⟩ := Exec.bind_eq_ok.mp h
  obtain ⟨path, hpath, h⟩ := Exec.bind_eq_ok.mp h
  cases h
  rw [objectPath] at hpath
  split at hpath
  · rename_i path' hnew
    cases hpath
    exact toNative_pathBytes (PackPath.new_eq_ok.mp hnew)
  · cases hpath

end Paths

section Packed

/-- What a frame hands over under the checksums of its entries. -/
def handedFrom (reader buf : List UInt8) (pos : UInt64) :
    List FileEntry → List (ObjectChecksum × List UInt8)
  | [] => []
  | entry :: entries =>
    let metadata := entry.objectMetadata
    if pos ≤ metadata.offset then
      match readExact (seek reader (metadata.offset - pos)) metadata.size,
        Exec.checkedAdd (ε := Error) metadata.offset metadata.size with
      | .ok (buf, reader), .ok pos =>
        (entry.checksum, contentOf entry buf) :: handedFrom reader buf pos entries
      | _, _ => []
    else (entry.checksum, contentOf entry buf) :: handedFrom reader buf pos entries

/-- What a pack hands over under the checksums of some entries. -/
def packedObjects (pack : List PackFrame × List (List UInt8)) (entries : List FileEntry) :
    List (ObjectChecksum × List UInt8) :=
  match assignToFrames pack.1 entries with
  | .ok assigned =>
    (tasksOf pack.2 assigned).flatMap fun task => handedFrom task.1 [] 0 (sortByOffset task.2)
  | .error _ => []

theorem placed_assigned {offsets : List UInt64} {assigned out : List (List FileEntry)}
    {entries : List FileEntry} (h : assignEntries offsets assigned entries = .ok out)
    (hassigned : ∀ task ∈ assigned, ∀ entry ∈ task, Placed entry)
    (hentries : ∀ entry ∈ entries, Placed entry) :
    ∀ task ∈ out, ∀ entry ∈ task, Placed entry := by
  induction entries generalizing assigned with
  | nil =>
    cases h
    exact hassigned
  | cons entry rest ih =>
    obtain ⟨hentry, hrest⟩ := List.forall_mem_cons.mp hentries
    obtain ⟨i, -, h⟩ := Exec.bind_eq_ok.mp h
    obtain ⟨start, -, h⟩ := Exec.bind_eq_ok.mp h
    refine ih h (fun task htask e he => ?_) hrest
    obtain ⟨j, hj⟩ := List.mem_iff_getElem?.mp htask
    rw [List.getElem?_modify] at hj
    obtain ⟨old, hold, rfl⟩ := Option.map_eq_some_iff.mp hj
    have hmem := List.mem_of_getElem? hold
    split_ifs at he
    · rcases List.mem_append.mp he with he | he
      · exact hassigned old hmem e he
      · rw [List.mem_singleton.mp he]
        exact hentry
    · exact hassigned old hmem e he

end Packed

section Keeps

variable {env : Env} {names : ObjectChecksum → List UInt8 → Prop}
  {start : Holdings ObjectChecksum (List UInt8)} {entry : FileEntry} {entries : List FileEntry}

theorem keeps_materialize (placed : Placed entry) {bytes : List UInt8}
    (genuine : Holdings.Genuine names start entry.checksum bytes) :
    Io.KeepsDisk (OfObjects (Holdings.Kept names start)) (materialize env entry bytes) := by
  rw [materialize, placed]
  exact keeps_io (LooseDir.keeps_materializeRegular _ genuine)

theorem reading_known {P : Disk → Prop} (x : Exec Error α) :
    Effect.Triple (fun s => P s.state) (reading x) (fun a s => P s.state ∧ x = .ok a)
      fun s => P s.state :=
  Effect.Triple.bind (keeps_io Io.keeps_passing) fun _ => .lift_known

theorem keeps_extractFilesFrom {verify : Bool} {reader buf : List UInt8} {pos : UInt64}
    (placed : ∀ entry ∈ entries, Placed entry)
    (genuine : ∀ object ∈ handedFrom reader buf pos entries,
      Holdings.Genuine names start object.1 object.2) :
    Io.KeepsDisk (OfObjects (Holdings.Kept names start))
      (extractFilesFrom env verify reader buf pos entries) := by
  induction entries generalizing reader buf pos with
  | nil => exact .pure _
  | cons entry entries ih =>
    obtain ⟨hentry, hentries⟩ := List.forall_mem_cons.mp placed
    rw [extractFilesFrom]
    rw [handedFrom] at genuine
    dsimp only at genuine ⊢
    split_ifs at genuine ⊢
    · refine Effect.Triple.bind_fact (reading_known _) fun read hread => ?_
      refine Effect.Triple.bind_fact .lift_known fun next hnext => ?_
      rw [hread, hnext] at genuine
      obtain ⟨hobject, hrest⟩ := List.forall_mem_cons.mp genuine
      exact Effect.Keeps.bind (.lift _) fun _ =>
        (keeps_materialize hentry hobject).bind fun _ => ih hentries hrest
    · obtain ⟨hobject, hrest⟩ := List.forall_mem_cons.mp genuine
      exact (keeps_materialize hentry hobject).bind fun _ => ih hentries hrest

theorem keeps_extractPacked {verify : Bool} {pack : List PackFrame × List (List UInt8)}
    (placed : ∀ entry ∈ entries, Placed entry)
    (genuine : ∀ object ∈ packedObjects pack entries,
      Holdings.Genuine names start object.1 object.2) :
    Io.KeepsDisk (OfObjects (Holdings.Kept names start)) (extractPacked env verify pack entries) := by
  unfold extractPacked
  split_ifs
  · exact .pure _
  · refine Effect.Keeps.bind (.lift _) fun _ => ?_
    refine Effect.Triple.bind_fact .lift_known fun assigned hassigned => ?_
    obtain ⟨offsets, -, hentries⟩ := Exec.bind_eq_ok.mp hassigned
    have hplaced := placed_assigned hentries (by simp) placed
    rw [packedObjects, hassigned] at genuine
    refine Effect.Keeps.bind (.lift _) fun _ => ?_
    refine Effect.Keeps.bind (.runAll fun task htask => ?_) fun _ => .pure _
    refine keeps_extractFilesFrom (fun e he => ?_) fun object hobject =>
      genuine object (List.mem_flatMap.mpr ⟨task, htask, hobject⟩)
    have hmem := (List.of_mem_zip (List.mem_filter.mp htask).1).2
    exact hplaced task.2 hmem e ((sortByOffset_perm task.2).mem_iff.mp he)

/-- The bytes of an object that is there are those that are there. -/
theorem looseBytes_known
    (hempty : entry.objectMetadata.size = 0 → Holdings.Genuine names start entry.checksum []) :
    Effect.Triple (fun s => OfObjects (Holdings.Kept names start) s.state) (looseBytes entry)
      (fun bytes s => OfObjects (Holdings.Kept names start) s.state ∧
        Holdings.Genuine names start entry.checksum bytes)
      fun s => OfObjects (Holdings.Kept names start) s.state := by
  unfold looseBytes
  split_ifs with hsize
  · exact .pure fun s hs => ⟨hs, hempty hsize⟩
  · refine (Io.look_known _).weaken (fun _ hs => hs) (fun bytes s hs => ⟨hs.1, ?_⟩) fun _ hs => hs
    exact hs.1.genuine (objects_eq_some.mpr (DirTree.readFile_eq_ok.mp hs.2))

theorem keeps_copyLooseEntries (placed : ∀ entry ∈ entries, Placed entry)
    (hempty : ∀ entry ∈ entries, entry.objectMetadata.size = 0 →
      Holdings.Genuine names start entry.checksum []) :
    Io.KeepsDisk (OfObjects (Holdings.Kept names start)) (copyLooseEntries env entries) := by
  refine Effect.Keeps.bind (.runAll fun entry hentry => ?_) fun _ => .pure _
  refine Effect.Keeps.bind (keeps_io (LooseDir.keeps_makeDirs _)) fun _ => ?_
  exact Effect.Triple.bind_fact (Effect.Triple.mapError (looseBytes_known (hempty entry hentry)))
    fun _ genuine => keeps_materialize (placed entry hentry) genuine

theorem keeps_preflightDestinationAncestors {P : Disk → Prop} (entries : List FileEntry) :
    Io.KeepsDisk P (preflightDestinationAncestors entries) := by
  have hcheck (dirs : List String) : Io.KeepsDisk P (checkAncestors dirs) := by
    induction dirs with
    | nil => exact .pure _
    | cons dir below ih =>
      refine Effect.Keeps.bind (.attempt (Io.keeps_look _)) fun found => ?_
      rcases found with e | present
      · dsimp only
        split_ifs
        · exact .pure _
        · exact .lift _
      · cases present with
        | true => exact ih
        | false => exact .pure _
  induction entries with
  | nil => exact .pure _
  | cons entry entries ih => exact (hcheck _).bind fun _ => ih

end Keeps

section Unpack

variable {env : Env} {names : ObjectChecksum → List UInt8 → Prop} {pack : PackId} {disk : Disk}

/-- A pack is opened where it is, or was fetched. -/
def Opens (env : Env) (dd : DataDir) (pack : PackId)
    (opened : List PackFrame × List (List UInt8)) : Prop :=
  env.openPack dd pack = .ok opened ∨ ∃ packs, env.fetchPack dd pack = .ok packs ∧
    env.openPack { dd with packs } pack = .ok opened

/-- What an index and its pack have under a checksum is that object, and no other that is
already there. -/
structure Honest (names : ObjectChecksum → List UInt8 → Prop) (env : Env) (dd : DataDir)
    (pack : PackId) (entries : List FileEntry) : Prop where
  empty : isPackLoose env.crates dd pack = true → ∀ entry ∈ entries,
    entry.objectMetadata.size = 0 →
      Holdings.Genuine names (objects dd.loose) entry.checksum []
  packed : isPackLoose env.crates dd pack = false → ∀ opened, Opens env dd pack opened →
    ∀ object ∈ packedObjects opened entries,
      Holdings.Genuine names (objects dd.loose) object.1 object.2

theorem asks_known {P : Disk → Prop} (f : DataDir → Exec Error α) :
    Effect.Triple (fun s => P s.state)
      (Effect.asks fun s : Session Disk Fault => f s.state.dataDir)
      (fun a s => P s.state ∧ f s.state.dataDir = .ok a) fun s => P s.state := by
  refine .intro (fun s s' a hs h => ?_) fun s s' e hs h => ?_
  · obtain ⟨hf, rfl⟩ := Effect.asks_eq_ok.mp h
    exact ⟨hs, hf⟩
  · rw [← (Prod.mk.inj h).2]
    exact hs

theorem openPack_state (env : Env) (pack : PackId) (s : Session Disk Fault) :
    (openPack env pack s).2.state = s.state := by
  have hpassing : Io.KeepsDisk (fun d => d = s.state) (io Io.passing) := keeps_io Io.keeps_passing
  have hkeeps : Io.KeepsDisk (fun d => d = s.state) (openPack env pack) :=
    hpassing.bind fun _ => .asks _
  exact hkeeps.state rfl

theorem openPack_ok {s s' : Session Disk Fault} {opened : List PackFrame × List (List UInt8)}
    (h : openPack env pack s = (.ok opened, s')) :
    s'.state = s.state ∧ env.openPack s.state.dataDir pack = .ok opened := by
  obtain ⟨_, t, hpassing, hasks⟩ := Effect.bind_eq_ok.mp h
  obtain ⟨hopen, rfl⟩ := Effect.asks_eq_ok.mp hasks
  have ht := Io.passing_ok (io_eq_ok.mp hpassing)
  rw [ht] at hopen
  exact ⟨ht, hopen⟩

theorem updateRemotePack_ok {s s' : Session Disk Fault}
    (h : updateRemotePack env pack s = (.ok (), s')) :
    ∃ packs, env.fetchPack s.state.dataDir pack = .ok packs ∧
      s'.state.dataDir = { s.state.dataDir with packs } := by
  unfold updateRemotePack at h
  split at h
  · rename_i packs hfetch
    cases h
    exact ⟨packs, hfetch, rfl⟩
  · cases h

theorem obtainPack_ok {s s' : Session Disk Fault} {opened : List PackFrame × List (List UInt8)}
    (h : obtainPack env pack s = (.ok opened, s')) : Opens env s.state.dataDir pack opened := by
  rcases Effect.orElse_eq_ok.mp h with h | ⟨e, t, y, herror, hy, h⟩
  · exact .inl (openPack_ok h).2
  · cases hy
    have ht : t.state = s.state := by
      have hstate := openPack_state env pack s
      rwa [herror] at hstate
    obtain ⟨_, u, hfetch, h⟩ := Effect.bind_eq_ok.mp h
    obtain ⟨packs, hpacks, hu⟩ := updateRemotePack_ok hfetch
    have hopen := (openPack_ok h).2
    rw [hu, ht] at hopen
    rw [ht] at hpacks
    exact .inr ⟨packs, hpacks, hopen⟩

/-- A pack is fetched into the packs directory only. -/
theorem keeps_obtainPack {P : Holdings ObjectChecksum (List UInt8) → Prop} :
    Io.KeepsDisk (OfObjects P) (obtainPack env pack) := by
  have hopen : Io.KeepsDisk (OfObjects P) (openPack env pack) :=
    (keeps_io Io.keeps_passing).bind fun _ => .asks _
  refine hopen.orElse fun e y hy => ?_
  cases hy
  refine Effect.Keeps.bind (.of_state fun s hs => ?_) fun _ => hopen
  unfold updateRemotePack
  split <;> exact hs

theorem keeps_extractEntriesPreflighted {entries : List FileEntry} {verify : Bool}
    (placed : ∀ entry ∈ entries, Placed entry)
    (honest : Honest names env disk.dataDir pack entries)
    (addressed : Holdings.Addressed names (objects disk.dataDir.loose)) :
    Effect.Triple (fun s => s.state = disk) (extractEntriesPreflighted env pack entries verify)
      (fun _ s => OfObjects (Holdings.Kept names (objects disk.dataDir.loose)) s.state)
      fun s => OfObjects (Holdings.Kept names (objects disk.dataDir.loose)) s.state := by
  have hstart : ∀ s : Session Disk Fault, s.state = disk →
      OfObjects (Holdings.Kept names (objects disk.dataDir.loose)) s.state := by
    rintro s rfl
    exact addressed.kept
  have hloose := asks_known (P := fun d => d = disk) fun dd => .ok (isPackLoose env.crates dd pack)
  refine Effect.Triple.bind (hloose.weaken (fun _ hs => hs) (fun _ _ hs => hs) hstart) fun loose => ?_
  refine .of_run fun s hs => ?_
  obtain ⟨rfl, hpack⟩ := hs
  have hpack := Except.ok.inj hpack
  cases loose with
  | true =>
    exact (keeps_copyLooseEntries placed (honest.empty hpack)).run (hstart s rfl)
  | false =>
    have hobtain : Effect.Triple (fun t => t.state = s.state) (obtainPack env pack)
        (fun opened t => OfObjects (Holdings.Kept names (objects s.state.dataDir.loose)) t.state ∧
          Opens env s.state.dataDir pack opened)
        fun t => OfObjects (Holdings.Kept names (objects s.state.dataDir.loose)) t.state := by
      refine .intro (fun t t' opened ht h => ?_) fun t t' e ht h => ?_
      · have hopens := obtainPack_ok h
        rw [ht] at hopens
        exact ⟨keeps_obtainPack.ok (hstart t ht) h, hopens⟩
      · exact keeps_obtainPack.error (hstart t ht) h
    exact (Effect.Triple.bind_fact hobtain fun opened hopened =>
      keeps_extractPacked placed (honest.packed hpack opened hopened)).run rfl

/-- An honest pack leaves a store addressed, and every object in it as it is. -/
theorem explodePack_kept
    (honest : ∀ index entries, loadIndex env.crates disk.dataDir pack = .ok index →
      objectEntries index = .ok entries → Honest names env disk.dataDir pack entries)
    (addressed : Holdings.Addressed names (objects disk.dataDir.loose)) :
    Effect.Triple (fun s => s.state = disk) (explodePack env pack)
      (fun _ s => OfObjects (Holdings.Kept names (objects disk.dataDir.loose)) s.state)
      fun s => OfObjects (Holdings.Kept names (objects disk.dataDir.loose)) s.state := by
  have hstart : ∀ s : Session Disk Fault, s.state = disk →
      OfObjects (Holdings.Kept names (objects disk.dataDir.loose)) s.state := by
    rintro s rfl
    exact addressed.kept
  have hpassing : Io.KeepsDisk (fun d => d = disk) (io Io.passing) := keeps_io Io.keeps_passing
  have hindex : Effect.Triple (fun s => s.state = disk)
      (Effect.asks fun s : Session Disk Fault => loadIndex env.crates s.state.dataDir pack)
      (fun index s => s.state = disk ∧ loadIndex env.crates disk.dataDir pack = .ok index)
      fun s => s.state = disk := by
    have hasks := asks_known (P := fun d => d = disk) fun dd => loadIndex env.crates dd pack
    refine hasks.weaken (fun _ hs => hs) ?_ fun _ hs => hs
    rintro index s ⟨rfl, hload⟩
    exact ⟨rfl, hload⟩
  have hpreflight {entries : List FileEntry} : Io.KeepsDisk (fun d => d = disk)
      (preflightDestinationAncestors entries) := keeps_preflightDestinationAncestors entries
  refine Effect.Triple.bind (hpassing.weaken (fun _ hs => hs) (fun _ _ hs => hs) hstart) fun _ => ?_
  refine Effect.Triple.bind_fact (hindex.weaken (fun _ hs => hs) (fun _ _ hs => hs) hstart)
    fun index hload => ?_
  refine Effect.Triple.bind_fact (Effect.Triple.lift_known.weaken (fun _ hs => hs)
    (fun _ _ hs => hs) hstart) fun entries hentries => ?_
  refine Effect.Triple.bind (Effect.Triple.lift_known.weaken (fun _ hs => hs)
    (fun _ _ hs => hs.1) hstart) fun _ => ?_
  refine Effect.Triple.bind (hpreflight.weaken (fun _ hs => hs) (fun _ _ hs => hs) hstart)
    fun _ => ?_
  exact keeps_extractEntriesPreflighted (objectEntries_placed hentries)
    (honest index entries hload hentries) addressed

end Unpack

/-- The bytes that a checksum names. The one of zeros stands for an empty file that may
not be read. -/
def Names (sha1 : List UInt8 → ObjectChecksum) (checksum : ObjectChecksum) (bytes : List UInt8) :
    Prop :=
  sha1 bytes = checksum ∨ checksum = .zero ∧ bytes = []

/-- What may be done to a repository. Packs and HEAD may become anything. -/
inductive Command where
  | createSnapshot (ord : IterOrder FileHandle) (random : List UInt8) (snapshot : SnapshotId)
    (files : List InputFile)
  | createSnapshotForce (ord : IterOrder FileHandle) (snapshot : SnapshotId)
    (files : List InputFile)
  | explodePack (pack : PackId)
  | gc (ord : IterOrder FileHandle) (orders : GcOrders) (opts : GcOptions)
  /-- A part of a collection that does not come to its end. -/
  | deletePack (pack : PackId)
  | deleteObject (checksum : ObjectChecksum)
  | tamper (packs : DirTree) (head : Option (String × Nat))

namespace Command

variable (env : Env) (writer : RmpWriter)

def collected (disk : Disk) : Exec Error DataDir → Disk
  | .ok dataDir => ⟨dataDir, disk.clock + 1⟩
  | .error _ => disk

/-- What a command leaves, whether it fails or not. -/
def run (faults : List (Option Fault)) (disk : Disk) : Command → Disk
  | createSnapshot ord random snapshot files =>
    (Store.createSnapshot env.crates writer ord random snapshot files ⟨disk, faults⟩).2.state
  | createSnapshotForce ord snapshot files =>
    (Store.createSnapshotForce env.crates writer ord snapshot files ⟨disk, faults⟩).2.state
  | explodePack pack => (Explode.explodePack env pack ⟨disk, faults⟩).2.state
  | gc ord orders opts => collected disk (Store.gc env.crates ord orders opts disk.dataDir)
  | deletePack pack => collected disk (Store.deletePack env.crates disk.dataDir pack)
  | deleteObject checksum => collected disk (Store.deleteObject disk.dataDir checksum)
  | tamper packs head => ⟨⟨packs, disk.dataDir.loose, head⟩, disk.clock + 1⟩

/-- A pack that is unpacked is honest. -/
def Fit (disk : Disk) : Command → Prop
  | explodePack pack => ∀ index entries, loadIndex env.crates disk.dataDir pack = .ok index →
      objectEntries index = .ok entries →
        Honest (Names env.crates.sha1) env disk.dataDir pack entries
  | _ => True

/-- The repositories that commands lead to where the loose directory was empty. -/
inductive Reached : Disk → Prop
  | start {disk : Disk} (empty : disk.dataDir.loose = ∅) : Reached disk
  | run {disk : Disk} (reached : Reached disk) (faults : List (Option Fault)) (command : Command)
      (fit : command.Fit env disk) : Reached (command.run env writer faults disk)

end Command

section Runs

variable {env : Env} {writer : RmpWriter} {disk : Disk}

/-- What is stored is written where nothing is, and under the checksum of its bytes. -/
theorem stores_grown (bytes : List UInt8) (start : Holdings ObjectChecksum (List UInt8)) :
    Io.KeepsDisk (OfObjects (Holdings.Grown (Names env.crates.sha1) start))
      (writeLooseObject (env.crates.sha1 bytes) bytes) :=
  LooseDir.keeps_writeLooseObject (.inl rfl)

theorem collected_kept {dd : Exec Error DataDir}
    (h : ∀ dataDir, dd = .ok dataDir → LooseDir.Shrinks disk.dataDir dataDir)
    (addressed : Holdings.Addressed (Names env.crates.sha1) (objects disk.dataDir.loose)) :
    Holdings.Kept (Names env.crates.sha1) (objects disk.dataDir.loose)
      (objects (Command.collected disk dd).dataDir.loose) := by
  cases dd with
  | error e => exact addressed.kept
  | ok dataDir => exact addressed.kept.mono fun k b => (h dataDir rfl).objects k b

theorem Command.run_kept (writer : RmpWriter) {command : Command} (faults : List (Option Fault))
    (fit : command.Fit env disk)
    (addressed : Holdings.Addressed (Names env.crates.sha1) (objects disk.dataDir.loose)) :
    Holdings.Kept (Names env.crates.sha1) (objects disk.dataDir.loose)
      (objects (command.run env writer faults disk).dataDir.loose) := by
  cases command with
  | createSnapshot ord random snapshot files =>
    have hkeeps : Io.KeepsDisk
        (OfObjects (Holdings.Grown (Names env.crates.sha1) (objects disk.dataDir.loose)))
        (Store.createSnapshot env.crates writer ord random snapshot files) :=
      LooseDir.keeps_createSnapshot fun bytes => stores_grown bytes _
    exact (hkeeps.state (s := ⟨disk, faults⟩) addressed.grown).kept
  | createSnapshotForce ord snapshot files =>
    have hkeeps : Io.KeepsDisk
        (OfObjects (Holdings.Grown (Names env.crates.sha1) (objects disk.dataDir.loose)))
        (Store.createSnapshotForce env.crates writer ord snapshot files) :=
      LooseDir.keeps_createSnapshotForce fun bytes => stores_grown bytes _
    exact (hkeeps.state (s := ⟨disk, faults⟩) addressed.grown).kept
  | explodePack pack =>
    have hrun := (explodePack_kept fit addressed).run (s := ⟨disk, faults⟩) rfl
    rw [Command.run]
    split at hrun
    · rename_i h
      rw [h]
      exact hrun
    · rename_i h
      rw [h]
      exact hrun
  | gc ord orders opts => exact collected_kept (fun _ h => LooseDir.gc_shrinks h) addressed
  | deletePack pack => exact collected_kept (fun _ h => LooseDir.deletePack_shrinks h) addressed
  | deleteObject checksum =>
    exact collected_kept (fun _ h => LooseDir.deleteObject_shrinks h) addressed
  | tamper packs head => exact addressed.kept

theorem Command.reached_addressed (reached : Command.Reached env writer disk) :
    Holdings.Addressed (Names env.crates.sha1) (objects disk.dataDir.loose) := by
  induction reached with
  | start empty =>
    intro checksum bytes hbytes
    rw [empty] at hbytes
    cases hbytes
  | run _ faults command fit ih => exact (Command.run_kept writer faults fit ih).addressed

/-- Where every pack that is unpacked is honest, each object is one that its checksum
names, and no command puts other bytes in its place. -/
theorem loose_store_addressed (reached : Command.Reached env writer disk) :
    (∀ checksum bytes, (looseObjectPath checksum, bytes) ∈ disk.dataDir.loose.files →
      Names env.crates.sha1 checksum bytes) ∧
    ∀ (faults : List (Option Fault)) (command : Command), command.Fit env disk →
      ∀ checksum bytes bytes', (looseObjectPath checksum, bytes) ∈ disk.dataDir.loose.files →
        (looseObjectPath checksum, bytes') ∈
            (command.run env writer faults disk).dataDir.loose.files →
          bytes' = bytes := by
  have addressed := Command.reached_addressed reached
  constructor
  · intro checksum bytes hbytes
    exact addressed checksum bytes (objects_eq_some.mpr hbytes)
  · intro faults command fit checksum bytes bytes' hbytes hbytes'
    have hkept := Command.run_kept writer faults fit addressed
    exact hkept.agrees checksum bytes bytes' (objects_eq_some.mpr hbytes)
      (objects_eq_some.mpr hbytes')

end Runs

namespace ExplodeSample

open CrashSample

def random (_ : ObjectChecksum) : LooseDir.RandomName := ⟨List.replicate 16 0, List.length_replicate⟩

/-- A pack of one frame with these bytes. -/
def env (content : List UInt8) : Env where
  crates := crates
  openPack := fun _ _ => .ok ([⟨1, 1⟩], [content])
  fetchPack := fun _ _ => Exec.fail .corruptPack
  random := random

def index : PackIndex := made [⟨.insertion, "a", [{ entry with objectMetadata := ⟨0, 1⟩ }]⟩]

/-- An index of the one object `7`, without loose objects. -/
def start : Disk :=
  ⟨⟨AList.insert "p.pack.idx" (.file (index.serialize messagePackWriter) 0) ∅, ∅, none⟩, 0⟩

def store : Command := .createSnapshot .insertion [1] CreationSample.snapshot [⟨.x, .regular [7] 420⟩]

def stored (content : List UInt8) : Disk := store.run (env content) messagePackWriter [] start

def exploded (content : List UInt8) : Disk :=
  (Command.explodePack pack).run (env content) messagePackWriter [] (stored content)

theorem not_loose : isPackLoose crates (stored [7]).dataDir pack = false := by rfl

theorem object_stored : objects (stored [7]).dataDir.loose (digest [7]) = some [7] := by rfl

/-- What the pack hands over of the objects that the index lists. -/
def handed : Exec Error (List (ObjectChecksum × List UInt8)) := do
  let index ← loadIndex crates (stored [7]).dataDir pack
  let entries ← objectEntries index
  .ok (packedObjects ([⟨1, 1⟩], [[7]]) entries)

theorem handed_ok : handed.toOption = some [(digest [7], [7])] := by rfl

theorem fit_exploded : Command.Fit (env [7]) (stored [7]) (.explodePack pack) := by
  intro index entries hload hentries
  refine ⟨fun hloose => ?_, fun _ opened hopens object hobject => ?_⟩
  · rw [show isPackLoose (env [7]).crates (stored [7]).dataDir pack = false from not_loose] at hloose
    cases hloose
  · have hopened : opened = ([⟨1, 1⟩], [[7]]) := by
      rcases hopens with h | ⟨packs, h, -⟩
      · exact (Except.ok.inj h).symm
      · cases h
    have hhanded : handed = .ok (packedObjects ([⟨1, 1⟩], [[7]]) entries) :=
      Exec.bind_eq_ok.mpr ⟨index, hload, Exec.bind_eq_ok.mpr ⟨entries, hentries, rfl⟩⟩
    have hobjects := handed_ok
    rw [hhanded, ← hopened] at hobjects
    rw [Option.some.inj hobjects, List.mem_singleton] at hobject
    rw [hobject]
    refine ⟨.inl rfl, fun bytes hbytes => ?_⟩
    rw [object_stored] at hbytes
    exact (Option.some.inj hbytes).symm

theorem reached_stored (content : List UInt8) :
    Command.Reached (env content) messagePackWriter (stored content) :=
  .run (.start rfl) [] store trivial

theorem reached_exploded (content : List UInt8)
    (fit : Command.Fit (env content) (stored content) (.explodePack pack)) :
    Command.Reached (env content) messagePackWriter (exploded content) :=
  .run (reached_stored content) [] (.explodePack pack) fit

end ExplodeSample

theorem loose_store_addressed_exploded : (looseObjectPath (CrashSample.digest [7]), [7]) ∈
    (ExplodeSample.exploded [7]).dataDir.loose.files ∧
    ∀ checksum bytes, (looseObjectPath checksum, bytes) ∈
        (ExplodeSample.exploded [7]).dataDir.loose.files →
      Names CrashSample.digest checksum bytes :=
  ⟨by decide +kernel, (loose_store_addressed (ExplodeSample.reached_exploded [7]
    ExplodeSample.fit_exploded)).1⟩

/-- A pack with another object takes the place of the one that was stored. -/
theorem loose_store_addressed_fails :
    (looseObjectPath (CrashSample.digest [7]), [7]) ∈
        (ExplodeSample.stored [8]).dataDir.loose.files ∧
      (looseObjectPath (CrashSample.digest [7]), [8]) ∈
        (ExplodeSample.exploded [8]).dataDir.loose.files ∧
      CrashSample.digest [8] ≠ CrashSample.digest [7] := by
  decide +kernel

end Elfshaker.Checkout.Explode
