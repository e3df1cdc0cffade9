import Elfshaker.Format.MessagePack
import Elfshaker.Packs.WritePack
import Elfshaker.Store.Reservation

namespace Elfshaker.Packs

open Elfshaker.Library Elfshaker.Format Elfshaker.Store

section Pack

variable {writer : RmpWriter} {packWriter : PackWriter} {randoms : List UInt8 × List UInt8}
  {pack : PackId} {index : PackIndex} {opts : PackOptions}

theorem createNew_path {path : String} {random : List UInt8} {file : AtomicCreateFile}
    {s s' : Session Disk Fault} (h : AtomicCreateFile.new path random s = (.ok file, s')) :
    file = ⟨path, random⟩ := by
  obtain ⟨_, _, -, h⟩ := Effect.bind_eq_ok.mp h
  exact createTemp_ok h

theorem keeps_buildPack {P : Disk → Prop} :
    Io.KeepsDisk P (buildPack packWriter index opts) :=
  (keeps_io Io.keeps_passing).bind fun _ => (keeps_io (Io.keeps_look _)).bind fun _ =>
    (keeps_io Io.keeps_passing).bind fun _ => (keeps_io Io.keeps_passing).bind fun _ => .pure _

/-- All that is done before the index is published is done elsewhere. -/
theorem keeps_fillPack {P : Disk → Prop} (indexes : FromIndexes P) :
    Io.KeepsDisk P (fillPack writer packWriter randoms pack index opts) := by
  have hpackPath : ¬ IsIndexPath pack.packPath := not_isIndexPath_packPath pack
  refine (keeps_io (keeps_createTemp indexes _ _)).bind fun indexOutput =>
    keeps_buildPack.bind fun content => ?_
  refine (keeps_io ((keeps_reserve indexes hpackPath).bind fun _ =>
    keeps_createTemp indexes _ _)).bind_ok fun packOutput s s' hnew => ?_
  have hother : ¬ IsIndexPath packOutput.path := by
    rwa [createNew_path (io_eq_ok.mp hnew)]
  exact (keeps_io (keeps_commitContent indexes _ hother _)).bind fun _ =>
    (keeps_io Io.keeps_passing).bind fun _ =>
      (keeps_io (keeps_fill indexes indexOutput _)).bind fun _ => .pure _

theorem preparePack_valid {s s' : Session Disk Fault} (h : preparePack pack s = (.ok (), s')) :
    PackId.isValidRegular pack.name = true := by
  obtain ⟨_, _, hlift, -⟩ := Effect.bind_eq_ok.mp h
  obtain ⟨hvalid, -⟩ := Effect.lift_eq_ok.mp hlift
  rw [Exec.mapError_eq_ok, PackId.validateRegular] at hvalid
  split_ifs at hvalid with hregular
  · exact hregular
  · cases hvalid

theorem reservePack_ok {s s' : Session Disk Fault} (h : reservePack pack s = (.ok (), s')) :
    PackId.isValidRegular pack.name = true ∧
      Reserved s.state.dataDir pack.indexPath s'.state.dataDir := by
  obtain ⟨_, t, hprepare, h⟩ := Effect.bind_eq_ok.mp h
  obtain ⟨_, u, hcheck, h⟩ := Effect.bind_eq_ok.mp h
  obtain ⟨_, v, hlift, hdir⟩ := Effect.bind_eq_ok.mp hprepare
  obtain ⟨-, rfl⟩ := Effect.lift_eq_ok.mp hlift
  have hreserved := reserve_ok (io_eq_ok.mp h)
  rw [(Io.look_ok (io_eq_ok.mp hcheck)).2, Io.passing_ok (io_eq_ok.mp hdir)] at hreserved
  exact ⟨preparePack_valid hprepare, hreserved⟩

/-- A pack whose creation fails after the reservation leaves the empty index. -/
theorem writePack_error {dd : DataDir} {e : Failure Error} {s s' : Session Disk Fault}
    (reserved : HoldsIndex dd pack.indexPath [] s.state.dataDir)
    (h : writePack writer packWriter randoms pack index opts s = (.error e, s')) :
    HoldsIndex dd pack.indexPath [] s'.state.dataDir := by
  have hkeeps : Io.KeepsDisk (fun disk => HoldsIndex dd pack.indexPath [] disk.dataDir)
      (fillPack writer packWriter randoms pack index opts) :=
    keeps_fillPack (fromIndexes_holdsIndex _ _ _)
  exact (publishing_error hkeeps).error reserved h

end Pack

section Observation

variable {crates : Crates} {ord : IterOrder FileHandle} {dd dd' : DataDir}

/-- An empty index of a loose snapshot hides every pack. -/
theorem unchanged_of_empty_loose_iff {tag : String} {own : List String}
    (holds : HoldsIndex dd (PackId.looseOf tag).indexPath [] dd') :
    Unchanged crates ord own dd dd' ↔ ¬ ∃ ids, packs crates dd = .ok ids := by
  have hmem := holds.mem (isIndexPath_indexPath _)
  have hunreadable : Unreadable crates ((PackId.looseOf tag).indexPath, []) :=
    unreadable_empty_loose tag
  constructor
  · rintro h ⟨ids, hids⟩
    exact packs_fail_iff.mpr ⟨_, hmem, hunreadable⟩ ⟨ids, h.packs_ok.mpr hids⟩
  · intro hfail
    obtain ⟨file, hfile, hbad⟩ := packs_fail_iff.mp hfail
    exact unchanged_of_unreadable hfile hbad hmem hunreadable

/-- An index of a loose snapshot that takes the place of none or of an empty one. -/
theorem unchanged_of_published_iff {tag : String} {own : List String} {bytes : List UInt8}
    (valid : SnapshotId.isValid crates.unicode tag = true)
    (reads : PackIndex.loadOnlySnapshots crates.rmp bytes = .ok [tag])
    (holds : HoldsIndex dd (PackId.looseOf tag).indexPath bytes dd')
    (empty : ∀ bytes, ((PackId.looseOf tag).indexPath, bytes) ∈ dd.packs.files → bytes = []) :
    Unchanged crates ord own dd dd' ↔
      ∃ file ∈ dd.packs.files, file.1 ≠ (PackId.looseOf tag).indexPath ∧ Unreadable crates file := by
  have hpath : IsIndexPath (PackId.looseOf tag).indexPath := isIndexPath_indexPath _
  have hmem := holds.mem hpath
  have hreadable : ¬ Unreadable crates ((PackId.looseOf tag).indexPath, bytes) := by
    rw [Unreadable, not_not]
    exact ⟨_, (discover_loose rfl).mpr ⟨tag, reads, valid, rfl⟩⟩
  constructor
  · intro h
    by_contra hothers
    push Not at hothers
    have hok : ∃ ids, packs crates dd' = .ok ids := by
      by_contra hfail
      obtain ⟨file, hfile, hbad⟩ := packs_fail_iff.mp hfail
      have hfile' := (holds file.1 file.2 hbad.isIndexPath).mp hfile
      split_ifs at hfile' with heq
      · have hsame : file = ((PackId.looseOf tag).indexPath, bytes) := Prod.ext heq hfile'
        exact hreadable (hsame ▸ hbad)
      · exact hothers file hfile' heq hbad
    obtain ⟨ids, hids⟩ := hok
    have hbefore := h.packs_ok.mp hids
    have hfree : ∀ b, ((PackId.looseOf tag).indexPath, b) ∉ dd.packs.files := by
      intro b hb
      obtain rfl := empty b hb
      exact packs_fail_iff.mpr ⟨_, hb, unreadable_empty_loose tag⟩ ⟨ids, hbefore⟩
    -- The directory has one index file more than before.
    have hperm : (indexFiles dd').Perm
        (((PackId.looseOf tag).indexPath, bytes) :: indexFiles dd) := by
      refine (List.perm_ext_iff_of_nodup (indexFiles_nodup _) (List.nodup_cons.mpr
        ⟨fun hin => hfree _ (mem_indexFiles.mp hin).1, indexFiles_nodup _⟩)).mpr fun file => ?_
      rw [List.mem_cons, mem_indexFiles, mem_indexFiles]
      constructor
      · rintro ⟨hfile, hindex⟩
        have hfile' := (holds file.1 file.2 hindex).mp hfile
        split_ifs at hfile' with heq
        · exact .inl (Prod.ext heq hfile')
        · exact .inr ⟨hfile', hindex⟩
      · rintro (rfl | ⟨hfile, hindex⟩)
        · exact ⟨hmem, hpath⟩
        · refine ⟨(holds file.1 file.2 hindex).mpr ?_, hindex⟩
          have hne : file.1 ≠ (PackId.looseOf tag).indexPath := fun heq =>
            hfree file.2 (heq ▸ hfile)
          rwa [if_neg hne]
    have hlength := packs_length hids
    rw [hperm.length_eq, List.length_cons, ← packs_length hbefore] at hlength
    omega
  · rintro ⟨file, hfile, hne, hbad⟩
    have hfile' : file ∈ dd'.packs.files := by
      refine (holds file.1 file.2 hbad.isIndexPath).mpr ?_
      rwa [if_neg hne]
    exact unchanged_of_unreadable hfile hbad hfile' hbad

/-- An empty index of a pack is listed, where it was not there before. -/
theorem unchanged_of_empty_pack_iff {pack : PackId} {own : List String}
    (regular : PackId.isValidRegular pack.name = true)
    (holds : HoldsIndex dd pack.indexPath [] dd')
    (empty : ∀ bytes, (pack.indexPath, bytes) ∈ dd.packs.files → bytes = []) :
    Unchanged crates ord own dd dd' ↔
      (pack.indexPath, []) ∈ dd.packs.files ∨ ¬ ∃ ids, packs crates dd = .ok ids := by
  have hname : Text.stripPrefix loosePrefix pack.name = none := by
    simp only [PackId.isValidRegular, Bool.and_eq_true, Option.isNone_iff_eq_none] at regular
    exact regular.1.2
  have hdiscover : discover crates (pack.indexPath, []) = .ok (some pack) :=
    discover_regular rfl hname
  have hmem := holds.mem (isIndexPath_indexPath pack)
  constructor
  · intro h
    by_contra hnot
    push Not at hnot
    obtain ⟨habsent, ids, hids⟩ := hnot
    have hlisted : pack ∈ ids :=
      (mem_packs (h.packs_ok.mpr hids)).mpr ⟨_, hmem, hdiscover⟩
    obtain ⟨⟨path, bytes⟩, hfile, hfound⟩ := (mem_packs hids).mp hlisted
    obtain ⟨id, hid⟩ := Option.isSome_iff_exists.mp (isIndexPath_of_discover hfound)
    have hpath := PackId.fromIndexPath_eq_some.mp hid
    cases hloose : Text.stripPrefix loosePrefix id.name with
    | none =>
      rw [discover_regular hpath hloose] at hfound
      cases hfound
      have hfile' : (pack.indexPath, bytes) ∈ dd.packs.files := hpath ▸ hfile
      obtain rfl := empty bytes hfile'
      exact habsent hfile'
    | some name =>
      have hid' : id = PackId.looseOf name :=
        PackId.mk.injEq .. |>.mpr (Text.stripPrefix_eq_some.mp hloose)
      subst hid'
      obtain ⟨tag, -, -, heq⟩ := (discover_loose hpath).mp hfound
      cases heq
      rw [PackId.looseOf, Text.stripPrefix_append] at hname
      cases hname
  · rintro (hthere | hfail)
    · exact (holds.same_of_mem hthere).unchanged own
    · obtain ⟨file, hfile, hbad⟩ := packs_fail_iff.mp hfail
      have hne : file.1 ≠ pack.indexPath := by
        intro heq
        have hfile' : file = (pack.indexPath, file.2) := Prod.ext heq rfl
        refine hbad ⟨some pack, ?_⟩
        rw [hfile']
        exact discover_regular rfl hname
      have hafter : file ∈ dd'.packs.files := by
        refine (holds file.1 file.2 hbad.isIndexPath).mpr ?_
        rwa [if_neg hne]
      exact unchanged_of_unreadable hfile hbad hafter hbad

end Observation

/-- What a creation that fails after its reservation changes for the others. The empty
index of a loose snapshot stops every lookup, that of a pack is listed, and a
snapshot that was published before HEAD was written stays. -/
theorem failed_creation_unchanged_iff {crates : Crates} {writer : RmpWriter}
    (laws : writer.ReadBackBy crates.rmp) (packWriter : PackWriter) (ord : IterOrder FileHandle) :
    (∀ (random : List UInt8) (snapshot : SnapshotId) (files : List InputFile)
      (s s₁ s₂ : Session Disk Fault) (e : Failure Error),
      reserveSnapshot crates snapshot s = (.ok (), s₁) →
      writeSnapshot crates writer ord random snapshot files s₁ = (.error e, s₂) →
        createSnapshot crates writer ord random snapshot files s = (.error e, s₂) ∧
        (Unchanged crates ord [snapshot.tag] s.state.dataDir s₂.state.dataDir ↔
          ¬ ∃ ids, packs crates s.state.dataDir = .ok ids)) ∧
    (∀ (random : List UInt8) (snapshot : SnapshotId) (files : List InputFile)
      (s s₁ s₂ s₃ : Session Disk Fault) (e : Failure Error),
      SnapshotId.isValid crates.unicode snapshot.tag = true →
      reserveSnapshot crates snapshot s = (.ok (), s₁) →
      writeSnapshot crates writer ord random snapshot files s₁ = (.ok (), s₂) →
      updateHead snapshot s₂ = (.error e, s₃) →
        createSnapshot crates writer ord random snapshot files s = (.error e, s₃) ∧
        (Unchanged crates ord [snapshot.tag] s.state.dataDir s₃.state.dataDir ↔
          ∃ file ∈ s.state.dataDir.packs.files, file.1 ≠ snapshotPath snapshot ∧
            Unreadable crates file)) ∧
    (∀ (randoms : List UInt8 × List UInt8) (pack : PackId) (index : PackIndex) (opts : PackOptions)
      (s s₁ s₂ : Session Disk Fault) (e : Failure Error),
      reservePack pack s = (.ok (), s₁) →
      writePack writer packWriter randoms pack index opts s₁ = (.error e, s₂) →
        createPack writer packWriter randoms pack index opts s = (.error e, s₂) ∧
        (Unchanged crates ord index.snapshotTags s.state.dataDir s₂.state.dataDir ↔
          (pack.indexPath, []) ∈ s.state.dataDir.packs.files ∨
            ¬ ∃ ids, packs crates s.state.dataDir = .ok ids)) := by
  refine ⟨?_, ?_, ?_⟩
  · intro random snapshot files s s₁ s₂ e hreserve hwrite
    have hreserved := reserveSnapshot_ok hreserve
    refine ⟨?_, unchanged_of_empty_loose_iff (writeSnapshot_error hreserved.holds hwrite)⟩
    rw [createSnapshot, Effect.bind_of_ok hreserve, Effect.bind_of_error hwrite]
  · intro random snapshot files s s₁ s₂ s₃ e hvalid hreserve hwrite hhead
    have hreserved := reserveSnapshot_ok hreserve
    obtain ⟨index, htags, hholds⟩ := writeSnapshot_ok hreserved.holds hwrite
    have hholds' : HoldsIndex s.state.dataDir (snapshotPath snapshot) (index.serialize writer)
        s₃.state.dataDir :=
      (keeps_updateHead (fromIndexes_holdsIndex _ _ _).fromFiles.fromPacks snapshot).error hholds hhead
    have hshort : ShortTags index.snapshotTags := by
      rw [htags]
      exact shortTags_of_path hreserved.short
    have hreads := PackIndex.loadOnlySnapshots_serialize laws hshort
    rw [htags] at hreads
    refine ⟨?_, unchanged_of_published_iff hvalid hreads hholds' hreserved.empty⟩
    rw [createSnapshot, Effect.bind_of_ok hreserve, Effect.bind_of_ok hwrite, hhead]
  · intro randoms pack index opts s s₁ s₂ e hreserve hwrite
    obtain ⟨hregular, hreserved⟩ := reservePack_ok hreserve
    refine ⟨?_, unchanged_of_empty_pack_iff hregular (writePack_error hreserved.holds hwrite)
      hreserved.empty⟩
    rw [createPack, Effect.bind_of_ok hreserve, hwrite]

namespace CreationSample

def category (c : Char) : Char := if c.isAlpha then 'L' else 'C'

def digest : ObjectChecksum := ⟨List.replicate 20 1, rfl⟩

def crates : Crates := ⟨messagePack, fun _ => digest, ⟨category, by decide⟩⟩

def packWriter : PackWriter := ⟨fun _ => [], fun _ bytes => .ok bytes, id⟩

def ord : IterOrder FileHandle := .insertion

/-- An empty repository, and no failures of the system. -/
def session : Session Disk Fault := ⟨⟨⟨∅, ∅, none⟩, 0⟩, []⟩

def snapshot : SnapshotId := ⟨⟨"loose/a"⟩, "a"⟩

/-- A file that is listed and not there. -/
def missing : List InputFile := [⟨.x, .failing .notFound⟩]

theorem missing_fails : ∃ s₁ s₂ e, reserveSnapshot crates snapshot session = (.ok (), s₁) ∧
    writeSnapshot crates messagePackWriter ord [] snapshot missing s₁ = (.error e, s₂) :=
  ⟨_, _, _, rfl, rfl⟩

end CreationSample

theorem failed_creation_unchanged_missing : ∃ s₁ s₂ e,
    reserveSnapshot CreationSample.crates CreationSample.snapshot CreationSample.session =
      (.ok (), s₁) ∧
    writeSnapshot CreationSample.crates messagePackWriter CreationSample.ord []
      CreationSample.snapshot CreationSample.missing s₁ = (.error e, s₂) ∧
    (Unchanged CreationSample.crates CreationSample.ord ["a"]
        CreationSample.session.state.dataDir s₂.state.dataDir ↔
      ¬ ∃ ids, packs CreationSample.crates CreationSample.session.state.dataDir = .ok ids) := by
  obtain ⟨s₁, s₂, e, hreserve, hwrite⟩ := CreationSample.missing_fails
  have hlaws : messagePackWriter.ReadBackBy CreationSample.crates.rmp := messagePack_readBack
  exact ⟨s₁, s₂, e, hreserve, hwrite,
    ((failed_creation_unchanged_iff hlaws CreationSample.packWriter CreationSample.ord).1
      _ _ _ _ _ _ _ hreserve hwrite).2⟩

/-- A snapshot of a missing file leaves an empty index, and no pack is found any more. -/
theorem failed_creation_hides_packs : ¬ ∀ (crates : Crates) (writer : RmpWriter)
    (ord : IterOrder FileHandle) (random : List UInt8) (snapshot : SnapshotId)
    (files : List InputFile) (s s₁ s₂ : Session Disk Fault) (e : Failure Error),
    SnapshotId.isValid crates.unicode snapshot.tag = true →
    reserveSnapshot crates snapshot s = (.ok (), s₁) →
    createSnapshot crates writer ord random snapshot files s = (.error e, s₂) →
      Unchanged crates ord [snapshot.tag] s.state.dataDir s₂.state.dataDir := by
  intro h
  have hunchanged := h CreationSample.crates messagePackWriter CreationSample.ord []
    CreationSample.snapshot CreationSample.missing CreationSample.session _ _ _ (by decide) rfl rfl
  have hbefore : packs CreationSample.crates CreationSample.session.state.dataDir = .ok [] := rfl
  cases hunchanged.packs_ok.mpr hbefore

end Elfshaker.Packs
