import Elfshaker.Checkout.Contents
import Elfshaker.Packs.RoundTrip
import Mathlib.Data.List.Flatten

namespace Elfshaker.Checkout

open Elfshaker.Library Elfshaker.Format Elfshaker.Store Elfshaker.Packs

variable {env : Env} {repo : Repository} {before : FileTree} {Ok noted : List Name → Prop}
  {paths : List (List Name)} {H : FileTree → Prop} {D : DataDir → Prop}
  {content : ObjectChecksum → List UInt8} {verify : Bool} {entries : List FileEntry}

/-- Each of some entries is materialized. -/
def AllMaterialized (content : ObjectChecksum → List UInt8) (repo : Repository)
    (entries : List FileEntry) (t : FileTree) : Prop :=
  ∀ e ∈ entries, Materialized content repo e t

/-- Entries that go to outputs of their own. -/
structure Delivered (repo : Repository) (paths : List (List Name))
    (H : FileTree → Prop) (entries : List FileEntry) : Prop where
  outputs : ∀ e ∈ entries, native e.path ∈ paths
  distinct : entries.Pairwise fun e d => native e.path ≠ native d.path
  spared : ∀ e ∈ entries, Spared repo (native e.path) H

/-- A reading of all of the bytes is one of those of each checksum. -/
structure Honest (content : ObjectChecksum → List UInt8) (entries : List FileEntry) : Prop where
  empty : ∀ e ∈ entries, e.metadata.isSymlink = false → e.objectMetadata.size = 0 →
    content e.checksum = []
  links : ∀ e ∈ entries, e.metadata.isSymlink = true → e.objectMetadata.size ≠ 0

section Delivered

variable {entry : FileEntry}

/-- What was written for other entries is spared, too. -/
theorem Spared.materialized {q : List Name}
    (spared : Spared repo q H) {done : List FileEntry}
    (others : ∀ e ∈ done, native e.path ≠ q) :
    Spared repo q fun t => H t ∧ AllMaterialized content repo done t :=
  spared.and (Spared.all fun e he => Spared.holds (others e he) (StandsFor content e))

theorem Delivered.tail (h : Delivered repo paths H (entry :: entries)) :
    Delivered repo paths H entries where
  outputs := fun e he => h.outputs e (List.mem_cons_of_mem _ he)
  distinct := (List.pairwise_cons.mp h.distinct).2
  spared := fun e he => h.spared e (List.mem_cons_of_mem _ he)

theorem Sparing.all_concat {done : List FileEntry} {world : World}
    (h : Sparing repo before Ok paths noted (fun t => H t ∧ AllMaterialized content repo done t) D
      world) (hentry : Materialized content repo entry world.tree) :
    Sparing repo before Ok paths noted
      (fun t => H t ∧ AllMaterialized content repo (done ++ [entry]) t) D world := by
  refine ⟨h.1, ⟨h.2.1.1, fun e he => ?_⟩, h.2.2⟩
  rcases List.mem_append.mp he with he | he
  · exact h.2.1.2 e he
  · rw [List.mem_singleton.mp he]
    exact hentry

theorem Sparing.base {K : FileTree → Prop} {world : World}
    (h : Sparing repo before Ok paths noted (fun t => H t ∧ K t) D world) :
    Sparing repo before Ok paths noted H D world :=
  ⟨h.1, h.2.1.1, h.2.2⟩

end Delivered

section Loose

/-- Entries of a loose snapshot are all written. -/
theorem copyLooseEntries_holds (rooted : Rooted repo before Ok)
    (out : Outputs env repo before Ok paths) (delivered : Delivered repo paths H entries)
    (honest : Honest content entries)
    (intact : ∀ dd c bytes, D dd → openLooseObject dd c = .ok bytes → bytes = content c)
    {threads : UInt32} : Effect.Triple
      (fun s : Session World Fault => Sparing repo before Ok paths noted H D s.state)
      (copyLooseEntries env repo verify entries threads)
      (fun _ s => Sparing repo before Ok paths noted
        (fun t => H t ∧ AllMaterialized content repo entries t) D s.state)
      fun s => Passable repo before Ok paths noted D s.state := by
  have hcopy {K : FileTree → Prop} (entry : FileEntry) (hentry : entry ∈ entries)
      (spared : Spared repo (native entry.path) K) : Effect.Triple
        (fun s : Session World Fault => Sparing repo before Ok paths noted K D s.state)
        (copyLooseEntry env repo verify entry) _ _ :=
    copyLooseEntry_holds rooted out (delivered.outputs entry hentry) spared
      (honest.empty entry hentry) fun dd bytes => intact dd _ bytes
  apply Effect.Triple.bind_keeps (Effect.Keeps.lift _) fun _ hs => hs.passable
  intro _
  apply Effect.Triple.bind (R := fun _ s => Sparing repo before Ok paths noted
    (fun t => H t ∧ AllMaterialized content repo entries t) D s.state)
  · apply Effect.Triple.weaken (Effect.Triple.runAll_each
      (P := fun done (s : Session World Fault) => Sparing repo before Ok paths noted
        (fun t => H t ∧ AllMaterialized content repo done t) D s.state)
      (E := fun s => Passable repo before Ok paths noted D s.state) _ _)
    · exact fun s hs => ⟨hs.1, ⟨hs.2.1, fun e he => absurd he List.not_mem_nil⟩, hs.2.2⟩
    · exact fun _ _ hs => hs
    · exact fun _ hs => hs
    · intro done entry rest hsplit
      have hentry : entry ∈ entries := by
        rw [hsplit]
        exact List.mem_append_right _ List.mem_cons_self
      have hdistinct := delivered.distinct
      rw [hsplit, List.pairwise_append] at hdistinct
      have spared : Spared repo (native entry.path)
          fun t => H t ∧ AllMaterialized content repo done t :=
        (delivered.spared entry hentry).materialized
          fun e he => hdistinct.2.2 e he entry List.mem_cons_self
      exact (hcopy entry hentry spared).weaken (fun _ hs => hs)
        (fun _ s hs => hs.1.all_concat hs.2) fun _ hs => hs
    · intro entry hentry
      exact keeps_passable (hcopy entry hentry Spared.trivial) fun _ _ hs => hs.1.passable
  · intro destinations
    cases verify with
    | true =>
      have hkeeps : KeepsWorld (Sparing repo before Ok paths noted
          (fun t => H t ∧ AllMaterialized content repo entries t) D)
          (verifyRegular env repo destinations.reduceOption) := keeps_verifyRegular
      exact hkeeps.mono_error fun _ hs => hs.passable
    | false => exact .pure fun s hs => hs

end Loose

section Packed

theorem writePackedEntry_holds (rooted : Rooted repo before Ok)
    (out : Outputs env repo before Ok paths) {entry : FileEntry} {buf : List UInt8}
    (hentry : native entry.path ∈ paths) (spared : Spared repo (native entry.path) H)
    (empty : entry.objectMetadata.size = 0 → content entry.checksum = [])
    (link : entry.metadata.isSymlink = true → entry.objectMetadata.size ≠ 0)
    (hbuf : entry.objectMetadata.size ≠ 0 → buf = content entry.checksum) : Effect.Triple
      (fun s : Session World Fault => Sparing repo before Ok paths noted H D s.state)
      (writePackedEntry env repo verify entry buf)
      (fun _ s => Sparing repo before Ok paths noted H D s.state ∧
        Materialized content repo entry s.state.tree)
      fun s => Passable repo before Ok paths noted D s.state := by
  unfold writePackedEntry
  cases hmetadata : entry.metadata with
  | symlink encoding kind =>
    have hsize : entry.objectMetadata.size ≠ 0 := link (by rw [hmetadata]; rfl)
    exact writeLink_holds rooted out hentry spared hmetadata (hbuf hsize)
  | regular mode =>
    apply writeRegular_holds rooted out hentry spared hmetadata
    split
    · rename_i hsize
      exact (empty hsize).symm
    · rename_i hsize
      exact hbuf hsize

/-- A read that is known to succeed. -/
theorem reading_known {α : Type} {x : Exec Error α} {a : α} {P : World → Prop} (hx : x = .ok a) :
    Effect.Triple (fun s : Session World Fault => P s.state) (reading x)
      (fun b s => P s.state ∧ b = a) fun s => P s.state := by
  apply Effect.Triple.bind (Effect.Keeps.mapError (keeps_inspect _))
  intro _
  apply Effect.Triple.lift_known.weaken (fun _ hs => hs) _ fun _ hs => hs
  intro b s hs
  rw [hx] at hs
  exact ⟨hs.1, (Except.ok.inj hs.2).symm⟩

variable {stream buf reader : List UInt8} {pos : UInt64}

theorem readable_tail {entry : FileEntry} (h : Readable stream content (entry :: entries)) :
    Readable stream content entries where
  within := fun e he => h.within e (List.mem_cons_of_mem _ he)
  slice := fun e he => h.slice e (List.mem_cons_of_mem _ he)
  apart := fun e he d hd => h.apart e (List.mem_cons_of_mem _ he) d (List.mem_cons_of_mem _ hd)
  fits := fun e he => h.fits e (List.mem_cons_of_mem _ he)

theorem Delivered.after {entry : FileEntry}
    (h : Delivered repo paths H (entry :: entries)) :
    Delivered repo paths (fun t => H t ∧ Materialized content repo entry t) entries where
  outputs := h.tail.outputs
  distinct := h.tail.distinct
  spared := fun e he => (h.tail.spared e he).and
    (Spared.holds ((List.pairwise_cons.mp h.distinct).1 e he) (StandsFor content entry))

/-- Reading forward gives each entry its bytes. -/
theorem extractFilesFrom_holds (rooted : Rooted repo before Ok)
    (out : Outputs env repo before Ok paths) (delivered : Delivered repo paths H entries)
    (readable : Readable stream content entries)
    (links : ∀ e ∈ entries, e.metadata.isSymlink = true → e.objectMetadata.size ≠ 0)
    (sorted : entries.Pairwise fun x y => x.objectMetadata.offset ≤ y.objectMetadata.offset)
    (ahead : AheadOf stream entries pos buf reader) : Effect.Triple
      (fun s : Session World Fault => Sparing repo before Ok paths noted H D s.state)
      (extractFilesFrom env repo verify reader buf pos entries)
      (fun _ s => Sparing repo before Ok paths noted
        (fun t => H t ∧ AllMaterialized content repo entries t) D s.state)
      fun s => Passable repo before Ok paths noted D s.state := by
  induction entries generalizing H reader buf pos with
  | nil =>
    exact .pure fun s hs => ⟨hs.1, ⟨hs.2.1, fun e he => absurd he List.not_mem_nil⟩, hs.2.2⟩
  | cons entry entries ih =>
    obtain ⟨hfirst, hsorted⟩ := List.pairwise_cons.mp sorted
    have hsize : entry.objectMetadata.size = 0 → content entry.checksum = [] := by
      intro hzero
      rw [← readable.slice entry List.mem_cons_self]
      exact bytesIn_of_empty hzero
    have hrest {reader buf : List UInt8} {pos : UInt64}
        (hahead : AheadOf stream entries pos buf reader) : Effect.Triple
          (fun s : Session World Fault => Sparing repo before Ok paths noted H D s.state ∧
            Materialized content repo entry s.state.tree)
          (extractFilesFrom env repo verify reader buf pos entries)
          (fun _ s => Sparing repo before Ok paths noted
            (fun t => H t ∧ AllMaterialized content repo (entry :: entries) t) D s.state)
          fun s => Passable repo before Ok paths noted D s.state := by
      apply (ih (delivered.after) (readable_tail readable)
        (fun e he => links e (List.mem_cons_of_mem _ he)) hsorted hahead).weaken
      · exact fun s hs => ⟨hs.1.1, ⟨hs.1.2.1, hs.2⟩, hs.1.2.2⟩
      · intro _ s hs
        exact ⟨hs.1, ⟨hs.2.1.1.1, List.forall_mem_cons.mpr ⟨hs.2.1.1.2, hs.2.1.2⟩⟩, hs.2.2⟩
      · exact fun _ hs => hs
    have hwrite {buf : List UInt8} (hbuf : entry.objectMetadata.size ≠ 0 →
        buf = content entry.checksum) : Effect.Triple
          (fun s : Session World Fault => Sparing repo before Ok paths noted H D s.state)
          (writePackedEntry env repo verify entry buf) _ _ :=
      writePackedEntry_holds rooted out (delivered.outputs entry List.mem_cons_self)
        (delivered.spared entry List.mem_cons_self) hsize (links entry List.mem_cons_self) hbuf
    have hslice : bytesIn stream entry = content entry.checksum :=
      readable.slice entry List.mem_cons_self
    rw [extractFilesFrom]
    simp only
    split
    · rename_i hpos
      obtain ⟨rest, next, hread, hnext, hahead⟩ :=
        read_next readable.sliced hfirst ahead hpos
      apply Effect.Triple.bind_fact ((reading_known hread).mono_error fun _ hs => hs.passable)
      rintro _ rfl
      rw [hnext]
      apply Effect.Triple.bind_fact (Effect.Triple.lift_known.mono_error fun _ hs => hs.passable)
      rintro _ ⟨⟩
      apply Effect.Triple.bind_keeps (Effect.Keeps.lift _) fun _ hs => hs.passable
      intro _
      apply Effect.Triple.bind (hwrite fun _ => hslice)
      exact fun _ => hrest hahead
    · rename_i hpos
      apply Effect.Triple.bind (hwrite fun hne => by rw [read_kept ahead hpos hne, hslice])
      exact fun _ => hrest ahead.skip

theorem extractFrame_holds (rooted : Rooted repo before Ok)
    (out : Outputs env repo before Ok paths) {task : List UInt8 × List FileEntry}
    (delivered : Delivered repo paths H task.2) (readable : Readable task.1 content task.2)
    (links : ∀ e ∈ task.2, e.metadata.isSymlink = true → e.objectMetadata.size ≠ 0) : Effect.Triple
      (fun s : Session World Fault => Sparing repo before Ok paths noted H D s.state)
      (extractFrame env repo verify task)
      (fun _ s => Sparing repo before Ok paths noted
        (fun t => H t ∧ AllMaterialized content repo task.2 t) D s.state)
      fun s => Passable repo before Ok paths noted D s.state := by
  have hperm := sortByOffset_perm task.2
  have hmem {e : FileEntry} : e ∈ sortByOffset task.2 ↔ e ∈ task.2 := hperm.mem_iff
  have sorted : Delivered repo paths H (sortByOffset task.2) :=
    ⟨fun e he => delivered.outputs e (hmem.mp he),
      hperm.symm.pairwise delivered.distinct fun h => h.symm,
      fun e he => delivered.spared e (hmem.mp he)⟩
  have hreadable : Readable task.1 content (sortByOffset task.2) :=
    ⟨fun e he => readable.within e (hmem.mp he), fun e he => readable.slice e (hmem.mp he),
      fun e he d hd => readable.apart e (hmem.mp he) d (hmem.mp hd),
      fun e he => readable.fits e (hmem.mp he)⟩
  apply (extractFilesFrom_holds rooted out sorted hreadable (fun e he => links e (hmem.mp he))
    (sortByOffset_sorted task.2) (Ahead.start task.1 _)).weaken (fun _ hs => hs) _ fun _ hs => hs
  exact fun _ s hs => ⟨hs.1, ⟨hs.2.1.1, fun e he => hs.2.1.2 e (hmem.mpr he)⟩, hs.2.2⟩

theorem Delivered.sublist {entries' : List FileEntry} (h : Delivered repo paths H entries)
    (hsub : entries'.Sublist entries) : Delivered repo paths H entries' where
  outputs := fun e he => h.outputs e (hsub.subset he)
  distinct := h.distinct.sublist hsub
  spared := fun e he => h.spared e (hsub.subset he)

theorem extractFrames_holds (rooted : Rooted repo before Ok)
    (out : Outputs env repo before Ok paths) {tasks : List (List UInt8 × List FileEntry)}
    (delivered : Delivered repo paths H (tasks.map Prod.snd).flatten)
    (readable : ∀ task ∈ tasks, Readable task.1 content task.2)
    (links : ∀ task ∈ tasks, ∀ e ∈ task.2, e.metadata.isSymlink = true →
      e.objectMetadata.size ≠ 0) : Effect.Triple
      (fun s : Session World Fault => Sparing repo before Ok paths noted H D s.state)
      (Effect.runAll (extractFrame env repo verify) tasks)
      (fun _ s => Sparing repo before Ok paths noted
        (fun t => H t ∧ AllMaterialized content repo (tasks.map Prod.snd).flatten t) D s.state)
      fun s => Passable repo before Ok paths noted D s.state := by
  apply Effect.Triple.weaken (Effect.Triple.runAll_each
    (P := fun done (s : Session World Fault) => Sparing repo before Ok paths noted
      (fun t => H t ∧ AllMaterialized content repo (done.map Prod.snd).flatten t) D s.state)
    (E := fun s => Passable repo before Ok paths noted D s.state) _ _)
  · exact fun s hs => ⟨hs.1, ⟨hs.2.1, fun e he => absurd he List.not_mem_nil⟩, hs.2.2⟩
  · exact fun _ _ hs => hs
  · exact fun _ hs => hs
  · intro done task rest hsplit
    have htask : task ∈ tasks := by
      rw [hsplit]
      exact List.mem_append_right _ List.mem_cons_self
    rw [hsplit, List.map_append, List.flatten_append, List.map_cons, List.flatten_cons] at delivered
    have hown := (delivered.sublist (List.sublist_append_right _ _)).sublist
      (List.sublist_append_left task.2 _)
    have spared : Delivered repo paths
        (fun t => H t ∧ AllMaterialized content repo (done.map Prod.snd).flatten t) task.2 :=
      ⟨hown.outputs, hown.distinct, fun e he => (hown.spared e he).materialized
        fun d hd => (List.pairwise_append.mp delivered.distinct).2.2 d hd e
          (List.mem_append_left _ he)⟩
    apply (extractFrame_holds rooted out spared (readable task htask) (links task htask)).weaken
      (fun _ hs => hs) _ fun _ hs => hs
    intro _ s hs
    refine ⟨hs.1, ⟨hs.2.1.1.1, ?_⟩, hs.2.2⟩
    rw [List.map_append, List.flatten_append, List.map_singleton, List.flatten_singleton]
    exact fun e he => (List.mem_append.mp he).elim (hs.2.1.1.2 e) (hs.2.1.2 e)
  · intro task htask
    have hown := delivered.sublist (List.sublist_flatten_of_mem (List.mem_map_of_mem htask))
    have free : Delivered repo paths (fun _ => True) task.2 :=
      ⟨hown.outputs, hown.distinct, fun _ _ => Spared.trivial⟩
    exact keeps_passable (extractFrame_holds rooted out free (readable task htask) (links task htask))
      fun _ _ hs => hs.passable

theorem Materialized.of_triple {e d : FileEntry} {t : FileTree} (heq : e.triple = d.triple)
    (h : Materialized content repo e t) : Materialized content repo d t := by
  obtain ⟨hpath, hchecksum, hmetadata⟩ := Triple.mk.inj heq
  unfold Materialized StandsFor at h ⊢
  rwa [hpath, hchecksum, hmetadata] at h

/-- Entries with the same triples in another order. -/
theorem Delivered.of_triples {others : List FileEntry} (h : Delivered repo paths H entries)
    (hperm : (others.map FileEntry.triple).Perm (entries.map FileEntry.triple)) :
    Delivered repo paths H others := by
  have hmem : ∀ e ∈ others, ∃ d ∈ entries, d.path = e.path := by
    intro e he
    obtain ⟨d, hd, heq⟩ := List.mem_map.mp (hperm.mem_iff.mp (List.mem_map_of_mem he))
    exact ⟨d, hd, congrArg Triple.path heq⟩
  refine ⟨fun e he => ?_, ?_, fun e he => ?_⟩
  · obtain ⟨d, hd, heq⟩ := hmem e he
    exact heq ▸ h.outputs d hd
  · have hdistinct : (entries.map FileEntry.triple).Pairwise
        fun x y => native x.path ≠ native y.path := List.pairwise_map.mpr h.distinct
    have hothers := hperm.symm.pairwise hdistinct fun h => h.symm
    rwa [List.pairwise_map] at hothers
  · obtain ⟨d, hd, heq⟩ := hmem e he
    exact heq ▸ h.spared d hd

/-- Entries of a pack are all written, where its frames can be read. -/
theorem extractPacked_holds (rooted : Rooted repo before Ok)
    (out : Outputs env repo before Ok paths) (delivered : Delivered repo paths H entries)
    (links : ∀ e ∈ entries, e.metadata.isSymlink = true → e.objectMetadata.size ≠ 0)
    {numWorkers : UInt32} {pack : List PackFrame × List (List UInt8)}
    (served : ∀ assigned, assignToFrames pack.1 entries = .ok assigned →
      FramesReadable pack.2 content entries assigned) : Effect.Triple
      (fun s : Session World Fault => Sparing repo before Ok paths noted H D s.state)
      (extractPacked env repo verify numWorkers pack entries)
      (fun _ s => Sparing repo before Ok paths noted
        (fun t => H t ∧ AllMaterialized content repo entries t) D s.state)
      fun s => Passable repo before Ok paths noted D s.state := by
  unfold extractPacked
  split
  · rename_i hempty
    rw [hempty]
    exact .pure fun s hs => ⟨hs.1, ⟨hs.2.1, fun e he => absurd he List.not_mem_nil⟩, hs.2.2⟩
  · apply Effect.Triple.bind_keeps (Effect.Keeps.lift _) fun _ hs => hs.passable
    intro _
    apply Effect.Triple.bind_keeps (Effect.Keeps.lift _) fun _ hs => hs.passable
    intro _
    apply Effect.Triple.bind_fact (Effect.Triple.lift_known.mono_error fun _ hs => hs.passable)
    intro assigned hassigned
    have hframes := served assigned hassigned
    apply Effect.Triple.bind_keeps (Effect.Keeps.lift _) fun _ hs => hs.passable
    intro _
    have hzip : (pack.2.zip assigned).map Prod.snd = assigned :=
      List.map_snd_zip hframes.length.ge
    have hsub : (((pack.2.zip assigned).filter fun task => !task.2.isEmpty).map Prod.snd).Sublist
        assigned := by
      have hfilter := (List.filter_sublist (p := fun task => !task.2.isEmpty)
        (l := pack.2.zip assigned)).map Prod.snd
      rwa [hzip] at hfilter
    have hdelivered := (delivered.of_triples hframes.perm).sublist hsub.flatten
    have hlinks : ∀ es ∈ assigned, ∀ e ∈ es, e.metadata.isSymlink = true →
        e.objectMetadata.size ≠ 0 := by
      intro es hes e he hlink
      obtain ⟨d, hd, start, rfl⟩ := hframes.source es hes e he
      exact links d hd hlink
    apply Effect.Triple.bind (R := fun _ s => Sparing repo before Ok paths noted
      (fun t => H t ∧ AllMaterialized content repo entries t) D s.state)
    · apply (extractFrames_holds rooted out hdelivered
        (fun task htask => hframes.readable task (List.mem_of_mem_filter htask))
        (fun task htask => hlinks task.2 (List.of_mem_zip (List.mem_of_mem_filter htask)).2)).weaken
        (fun _ hs => hs) _ fun _ hs => hs
      intro _ s hs
      refine ⟨hs.1, ⟨hs.2.1.1, fun e he => ?_⟩, hs.2.2⟩
      obtain ⟨d, hd, heq⟩ := List.mem_map.mp (hframes.perm.mem_iff.mpr (List.mem_map_of_mem he))
      obtain ⟨es, hes, hdes⟩ := List.mem_flatten.mp hd
      rw [← hzip] at hes
      obtain ⟨task, htask, rfl⟩ := List.mem_map.mp hes
      refine (hs.2.1.2 d ?_).of_triple heq
      refine List.mem_flatten_of_mem (List.mem_map_of_mem (List.mem_filter.mpr ⟨htask, ?_⟩)) hdes
      simpa using List.ne_nil_of_mem hdes
    · exact fun _ => .pure fun s hs => hs

end Packed

section Entries

/-- Some data directory does not have a pack as a loose one. -/
def MayBePacked (env : Env) (D : DataDir → Prop) (pack : PackId) : Prop :=
  ∃ dd, D dd ∧ isPackLoose env.crates dd pack = false

/-- Where the objects of some entries are read from, each has the bytes of its checksum. -/
structure Served (env : Env) (content : ObjectChecksum → List UInt8) (D : DataDir → Prop)
    (pack : PackId) (entries : List FileEntry) : Prop extends Honest content entries where
  fetched : MayBePacked env D pack →
    ∀ dd dd', D dd → env.fetchPack dd pack = .ok dd' → D dd'
  intact : ∀ dd c bytes, D dd → openLooseObject dd c = .ok bytes → bytes = content c
  frames : MayBePacked env D pack →
    ∀ dd opened assigned, D dd → env.openPack dd pack = .ok opened →
      assignToFrames opened.1 entries = .ok assigned →
        FramesReadable opened.2 content entries assigned

/-- A pack that is not loose in some data directory may be packed. -/
theorem asks_loose {pack : PackId} {P : World → Prop} (hD : ∀ {world}, P world → D world.disk.dataDir) :
    Effect.Triple (fun s : Session World Fault => P s.state)
      (Effect.asks (ε := Error) fun s =>
        .ok (isPackLoose env.crates s.state.disk.dataDir pack))
      (fun loose s => P s.state ∧ (loose = false → MayBePacked env D pack))
      fun s => P s.state := by
  apply Effect.Triple.intro
  · intro s s' loose hs hrun
    obtain ⟨hloose, rfl⟩ := Effect.asks_eq_ok.mp hrun
    refine ⟨hs, fun hfalse => ⟨_, hD hs, ?_⟩⟩
    rw [Except.ok.inj hloose, hfalse]
  · intro s s' e hs hrun
    obtain ⟨-, rfl⟩ := Prod.mk.inj hrun
    exact hs

theorem obtainPack_served {pack : PackId}
    (keeps : ∀ dd dd', D dd → env.fetchPack dd pack = .ok dd' → D dd') : Effect.Triple
      (fun s : Session World Fault => Sparing repo before Ok paths noted H D s.state)
      (obtainPack env pack)
      (fun opened s => Sparing repo before Ok paths noted H D s.state ∧
        ∃ dd, D dd ∧ env.openPack dd pack = .ok opened)
      fun s => Sparing repo before Ok paths noted H D s.state := by
  have hopen : Effect.Triple
      (fun s : Session World Fault => Sparing repo before Ok paths noted H D s.state)
      (openPack env pack)
      (fun opened s => Sparing repo before Ok paths noted H D s.state ∧
        ∃ dd, D dd ∧ env.openPack dd pack = .ok opened)
      fun s => Sparing repo before Ok paths noted H D s.state := by
    apply Effect.Triple.bind (Effect.Keeps.mapError (keeps_inspect _))
    intro _
    apply Effect.Triple.intro
    · intro s s' opened hs hrun
      obtain ⟨hopened, rfl⟩ := Effect.asks_eq_ok.mp hrun
      exact ⟨hs, _, hs.2.2, hopened⟩
    · intro s s' e hs hrun
      obtain ⟨-, rfl⟩ := Prod.mk.inj hrun
      exact hs
  have hfetch : KeepsWorld (Sparing repo before Ok paths noted H D) (updateRemotePack env pack) := by
    apply Effect.Keeps.of_state
    rintro s ⟨hclear, hH, hD⟩
    refine ⟨hclear.onDisk _ ?_, hH, ?_⟩
    · intro names hnames
      rw [List.mem_singleton.mp hnames]
      exact .pack pack
    · change D (Disk.dataDir (Session.state (fetched env pack ⟨s.state.disk, s.faults⟩).2))
      unfold fetched
      split
      · rename_i dd hfetch
        exact keeps _ dd hD hfetch
      · exact hD
  apply Effect.Triple.orElse hopen
  rintro e y ⟨⟩
  exact Effect.Triple.bind hfetch fun _ => hopen

/-- Whether the pack is loose or not, all entries are written. -/
theorem extractEntries_holds (rooted : Rooted repo before Ok)
    (out : Outputs env repo before Ok paths) (delivered : Delivered repo paths H entries)
    {pack : PackId} {opts : ExtractOptions} (served : Served env content D pack entries) :
    Effect.Triple
      (fun s : Session World Fault => Sparing repo before Ok paths noted H D s.state)
      (extractEntriesPreflighted env repo pack entries opts)
      (fun _ s => Sparing repo before Ok paths noted
        (fun t => H t ∧ AllMaterialized content repo entries t) D s.state)
      fun s => Passable repo before Ok paths noted D s.state := by
  have hasks : Effect.Triple
      (fun s : Session World Fault => Sparing repo before Ok paths noted H D s.state)
      (Effect.asks fun s => .ok (isPackLoose env.crates s.state.disk.dataDir pack))
      (fun loose s => Sparing repo before Ok paths noted H D s.state ∧
        (loose = false → MayBePacked env D pack))
      fun s => Passable repo before Ok paths noted D s.state :=
    (asks_loose fun s => s.2.2).mono_error fun _ hs => hs.passable
  unfold extractEntriesPreflighted
  apply Effect.Triple.bind_fact hasks
  intro loose hloose
  cases loose with
  | true => exact copyLooseEntries_holds rooted out delivered served.toHonest served.intact
  | false =>
    have packed := hloose rfl
    apply Effect.Triple.bind_fact
      ((obtainPack_served (served.fetched packed)).mono_error fun _ hs => hs.passable)
    rintro opened ⟨dd, hdd, hopened⟩
    exact extractPacked_holds rooted out delivered served.links fun assigned =>
      served.frames packed dd opened assigned hdd hopened

end Entries

end Elfshaker.Checkout
