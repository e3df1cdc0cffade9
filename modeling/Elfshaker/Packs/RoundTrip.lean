import Elfshaker.Packs.Reader

namespace Elfshaker.Packs

open Elfshaker.Library Elfshaker.Format Elfshaker.Store

section Assignment

theorem rposition_some {p : α → Bool} {xs : List α} {i : Nat} (h : rposition p xs = some i) :
    ∃ x, xs[i]? = some x ∧ p x = true := by
  induction xs generalizing i with
  | nil => cases h
  | cons x xs ih =>
    unfold rposition at h
    cases hlast : rposition p xs with
    | some j =>
      rw [hlast] at h
      cases h
      exact ih hlast
    | none =>
      rw [hlast] at h
      simp only [Option.ite_none_right_eq_some, Option.some.injEq] at h
      obtain ⟨hx, rfl⟩ := h
      exact ⟨x, rfl, hx⟩

theorem rposition_exists {p : α → Bool} {x : α} (hx : p x = true) (xs : List α) :
    ∃ i, rposition p (x :: xs) = some i := by
  unfold rposition
  cases rposition p xs with
  | some j => exact ⟨j + 1, rfl⟩
  | none => exact ⟨0, by simp [hx]⟩

/-- The entries of each frame, counted from its start. -/
def localGroups (offsets : List UInt64) (groups : List (List FileEntry)) :
    List (List FileEntry) :=
  List.zipWith (fun start group => group.map (localEntry start)) offsets groups

/-- The entries so far by the frames they are given to, which start before their objects. -/
structure Grouped (offsets : List UInt64) (done : List FileEntry)
    (groups : List (List FileEntry)) : Prop where
  starts : List.Forall₂ (fun start group => ∀ e ∈ group, start ≤ e.objectMetadata.offset)
    offsets groups
  perm : groups.flatten.Perm done

theorem localGroups_modify {offsets : List UInt64} {groups : List (List FileEntry)} {k : Nat}
    {start : UInt64} (hk : offsets[k]? = some start) (entry : FileEntry) :
    localGroups offsets (groups.modify k (· ++ [entry])) =
      (localGroups offsets groups).modify k (· ++ [localEntry start entry]) := by
  induction offsets generalizing groups k with
  | nil => cases hk
  | cons first offsets ih =>
    cases groups with
    | nil => simp [localGroups]
    | cons group groups =>
      cases k with
      | zero =>
        cases hk
        simp [localGroups]
      | succ k => exact congrArg (group.map (localEntry first) :: ·) (ih hk)

theorem Grouped.step {offsets : List UInt64} {done : List FileEntry}
    {groups : List (List FileEntry)} (h : Grouped offsets done groups) {entry : FileEntry}
    {k : Nat} {start : UInt64} (hk : offsets[k]? = some start)
    (hstart : start ≤ entry.objectMetadata.offset) :
    Grouped offsets (entry :: done) (groups.modify k (· ++ [entry])) := by
  have hlt : k < groups.length := by
    rw [← h.starts.length_eq]
    exact (List.getElem?_eq_some_iff.mp hk).1
  refine ⟨?_, (flatten_modify hlt entry).trans (h.perm.cons _)⟩
  have hstarts := h.starts
  clear hlt h
  induction hstarts generalizing k with
  | nil => cases hk
  | @cons first group offsets groups hgroup hrest ih =>
    cases k with
    | zero =>
      cases hk
      refine .cons (fun e he => ?_) hrest
      rcases List.mem_append.mp he with hold | hnew
      · exact hgroup e hold
      · rw [List.mem_singleton.mp hnew]
        exact hstart
    | succ k => exact .cons hgroup (ih hk)

theorem assignEntries_ok {first : UInt64} {offsets : List UInt64} (hfirst : first = 0)
    {done : List FileEntry} {groups : List (List FileEntry)}
    (h : Grouped (first :: offsets) done groups) (entries : List FileEntry) :
    ∃ result, assignEntries (first :: offsets) (localGroups (first :: offsets) groups) entries =
        .ok (localGroups (first :: offsets) result) ∧
      Grouped (first :: offsets) (entries.reverse ++ done) result := by
  induction entries generalizing done groups with
  | nil => exact ⟨groups, rfl, h⟩
  | cons entry entries ih =>
    have hzero : first ≤ entry.objectMetadata.offset := by
      rw [hfirst, UInt64.le_iff_toNat_le]
      exact Nat.zero_le _
    obtain ⟨k, hk⟩ := rposition_exists
      (p := fun x => decide (x ≤ entry.objectMetadata.offset)) (decide_eq_true hzero) offsets
    obtain ⟨start, hstart, hle⟩ := rposition_some hk
    rw [decide_eq_true_eq] at hle
    obtain ⟨result, hresult, hgrouped⟩ := ih (h.step hstart hle)
    refine ⟨result, ?_, ?_⟩
    · rw [assignEntries, hk, Exec.okOr_some, Exec.ok_bind, hstart, Exec.unwrap_some, Exec.ok_bind,
        ← localGroups_modify hstart, hresult]
    · rw [List.reverse_cons, List.append_assoc]
      exact hgrouped

theorem Grouped.empty (offsets : List UInt64) :
    Grouped offsets [] (offsets.map fun _ => []) := by
  induction offsets with
  | nil => exact ⟨.nil, .refl _⟩
  | cons start offsets ih => exact ⟨.cons (by simp) ih.starts, ih.perm⟩

theorem localGroups_empty (offsets : List UInt64) :
    localGroups offsets (offsets.map fun _ => []) = offsets.map fun _ => [] := by
  induction offsets with
  | nil => rfl
  | cons start offsets ih => exact congrArg ([] :: ·) ih

/-- Where there is a frame, every entry is given to one that starts before its object. -/
theorem assignToFrames_grouped {frames : List PackFrame} {offsets : List UInt64}
    {entries : List FileEntry} (hoffsets : frameDecompressedOffsets (ε := Error) 0 frames = .ok offsets)
    (hhead : entries ≠ [] → ∃ rest, offsets = 0 :: rest) :
    ∃ groups, assignToFrames frames entries = .ok (localGroups offsets groups) ∧
      Grouped offsets entries groups := by
  have hstart : (frames.map fun _ => ([] : List FileEntry)) =
      localGroups offsets (offsets.map fun _ => []) := by
    rw [localGroups_empty, List.map_const', List.map_const',
      frameDecompressedOffsets_length hoffsets]
  cases entries with
  | nil =>
    refine ⟨_, Exec.bind_eq_ok.mpr ⟨offsets, hoffsets, ?_⟩, Grouped.empty offsets⟩
    rw [hstart, assignEntries]
  | cons entry entries =>
    obtain ⟨rest, rfl⟩ := hhead (List.cons_ne_nil _ _)
    obtain ⟨groups, hok, hgrouped⟩ := assignEntries_ok rfl (Grouped.empty (0 :: rest)) (entry :: entries)
    rw [List.append_nil] at hgrouped
    refine ⟨groups, Exec.bind_eq_ok.mpr ⟨_, hoffsets, ?_⟩,
      hgrouped.starts, hgrouped.perm.trans (List.reverse_perm _)⟩
    rw [hstart, hok]

/-- The entries that are assigned have the paths, checksums and metadata of those given. -/
theorem Grouped.triples {offsets : List UInt64} {entries : List FileEntry}
    {groups : List (List FileEntry)} (h : Grouped offsets entries groups) :
    ((localGroups offsets groups).flatten.map FileEntry.triple).Perm
      (entries.map FileEntry.triple) := by
  refine List.Perm.trans (.of_eq ?_) (h.perm.map FileEntry.triple)
  have hstarts := h.starts
  clear h
  induction hstarts with
  | nil => rfl
  | @cons start group offsets groups _ _ ih =>
    have hgroup : (group.map (localEntry start)).map FileEntry.triple =
        group.map FileEntry.triple := by
      rw [List.map_map]
      rfl
    rw [localGroups, List.zipWith_cons_cons, List.flatten_cons, List.flatten_cons,
      List.map_append, List.map_append, hgroup]
    exact congrArg (_ ++ ·) ih

end Assignment

section Readers

variable {zstd : Zstd}

/-- Readers of frames with these contents, where each goes on with the frames behind. -/
def frameStreams : List (List UInt8) → List (List UInt8)
  | [] => []
  | content :: contents => (content :: contents).flatten :: frameStreams contents

theorem frameReaders_eq (hzstd : zstd.Inverts) {opts : CompressionOptions}
    {contents frames : List (List UInt8)}
    (hcompress : contents.mapM (zstd.compress opts) = .ok frames) :
    frameReaders zstd frames = frameStreams contents := by
  induction contents generalizing frames with
  | nil =>
    cases hcompress
    rfl
  | cons content contents ih =>
    have hreader := hzstd opts (content :: contents) frames (List.cons_ne_nil _ _) hcompress
    rw [Exec.mapM_eq_ok, List.forall₂_cons_left_iff] at hcompress
    obtain ⟨frame, rest, -, hrest, rfl⟩ := hcompress
    rw [frameReaders, frameStreams, hreader, ih (Exec.mapM_eq_ok.mpr hrest)]

/-- Each reader yields the stream from the start of its frame on. -/
theorem frameStreams_ok {contents : List (List UInt8)} {header : List PackFrame} {base : UInt64}
    (hheader : header.map (fun frame => frame.decompressedSize.toNat) = contents.map List.length)
    (fits : base.toNat + contents.flatten.length < 2 ^ 64) :
    ∃ offsets, frameDecompressedOffsets (ε := Error) base header = .ok offsets ∧
      (contents ≠ [] → ∃ rest, offsets = base :: rest) ∧
      List.Forall₂ (fun start reader => base.toNat ≤ start.toNat ∧
        reader = contents.flatten.drop (start.toNat - base.toNat))
        offsets (frameStreams contents) := by
  induction contents generalizing header base with
  | nil =>
    rw [List.map_nil, List.map_eq_nil_iff] at hheader
    subst hheader
    exact ⟨[], rfl, fun h => absurd rfl h, .nil⟩
  | cons content contents ih =>
    cases header with
    | nil => cases hheader
    | cons first header =>
      rw [List.map_cons, List.map_cons, List.cons.injEq] at hheader
      obtain ⟨hfirst, hheader⟩ := hheader
      rw [List.flatten_cons, List.length_append] at fits
      have hlt : first.decompressedSize.toNat + base.toNat < 2 ^ 64 := by omega
      obtain ⟨next, hnext⟩ : ∃ next : UInt64,
          next.toNat = first.decompressedSize.toNat + base.toNat :=
        ⟨UInt64.ofNat _, UInt64.toNat_ofNat_of_lt' hlt⟩
      have hfits : next.toNat + contents.flatten.length < 2 ^ 64 := by omega
      obtain ⟨offsets, hoffsets, hhead, hall⟩ := ih hheader hfits
      have hshift : List.Forall₂ (fun start reader => base.toNat ≤ start.toNat ∧
          reader = (content :: contents).flatten.drop (start.toNat - base.toNat))
          offsets (frameStreams contents) := by
        refine hall.imp fun start reader hstart => ⟨by omega, ?_⟩
        rw [hstart.2, List.flatten_cons, List.drop_append]
        have hpast : content.length ≤ start.toNat - base.toNat := by omega
        rw [List.drop_eq_nil_of_le hpast, List.nil_append]
        congr 1
        omega
      have hown : base.toNat ≤ base.toNat ∧ (content :: contents).flatten =
          (content :: contents).flatten.drop (base.toNat - base.toNat) := by
        rw [Nat.sub_self, List.drop_zero]
        exact ⟨Nat.le_refl _, rfl⟩
      cases header with
      | nil =>
        cases contents with
        | cons content' contents => cases hheader
        | nil => exact ⟨[base], rfl, fun _ => ⟨[], rfl⟩, .cons hown .nil⟩
      | cons second header =>
        refine ⟨base :: offsets, ?_, fun _ => ⟨offsets, rfl⟩, .cons hown hshift⟩
        rw [frameDecompressedOffsets, Exec.checkedAdd_eq_ok.mpr hnext, Exec.ok_bind, hoffsets]
        rfl

end Readers

section Selection

variable {zstd : Zstd} {sha1 : List UInt8 → ObjectChecksum} {index : PackIndex}
  {content : ObjectChecksum → List UInt8} {pack : PackContent} {ordering : List Handle}
  {contents : List (List UInt8)} {entries : List FileEntry}

/-- The objects of entries from the index of a pack lie in its stream. -/
theorem Packed.readable (h : Packed zstd index content pack ordering contents)
    (hentries : ∀ e ∈ entries, ∃ handle, pack.index.handleToEntry handle = .ok e) :
    Readable contents.flatten content entries := by
  have place : ∀ e ∈ entries, ∃ handle, index.objectPool.lookup handle = some e.checksum ∧
      Placed (sizeOf index) ordering handle (extent e.objectMetadata) := by
    intro e he
    obtain ⟨handle, hok⟩ := hentries e he
    obtain ⟨-, hchecksum, hmetadata, -⟩ := PackIndex.handleToEntry_eq_ok.mp hok
    rw [h.laidOut.objectPool] at hchecksum
    exact ⟨handle.object, hchecksum, h.laidOut.placed _ _ hmetadata⟩
  refine ⟨?_, ?_, ?_, ?_⟩
  · intro e he
    obtain ⟨handle, -, hplaced⟩ := place e he
    rw [h.flatten]
    exact hplaced.within h.lengths
  · intro e he
    obtain ⟨handle, hchecksum, hplaced⟩ := place e he
    rw [h.flatten, hplaced.slice_eq h.lengths, blob, hchecksum]
    rfl
  · intro e he d hd
    obtain ⟨handle, -, hplaced⟩ := place e he
    obtain ⟨handle', -, hplaced'⟩ := place d hd
    exact hplaced.apart hplaced'
  · intro e he
    obtain ⟨handle, -, hplaced⟩ := place e he
    exact Nat.lt_of_le_of_lt hplaced.stop_le h.laidOut.total

theorem extent_localEntry {start : UInt64} {e : FileEntry}
    (h : start ≤ e.objectMetadata.offset) :
    extent (localEntry start e).objectMetadata =
      (extent e.objectMetadata).relativeTo start.toNat := by
  simp only [localEntry, extent, Extent.relativeTo, Extent.mk.injEq, and_true]
  exact UInt64.toNat_sub_of_le _ _ h

/-- Entries that are counted from a later start are read from there. -/
theorem Readable.localize {stream : List UInt8} (h : Readable stream content entries)
    {start : UInt64} {es : List FileEntry}
    (source : ∀ e' ∈ es, ∃ e ∈ entries, start ≤ e.objectMetadata.offset ∧
      e' = localEntry start e) : Readable (stream.drop start.toNat) content es := by
  refine ⟨?_, ?_, ?_, ?_⟩
  · intro e' he'
    obtain ⟨e, he, hle, rfl⟩ := source e' he'
    rw [extent_localEntry hle]
    exact Extent.within_relativeTo (UInt64.le_iff_toNat_le.mp hle) (h.within e he)
  · intro e' he'
    obtain ⟨e, he, hle, rfl⟩ := source e' he'
    rw [extent_localEntry hle, Extent.slice_relativeTo (UInt64.le_iff_toNat_le.mp hle)]
    exact h.slice e he
  · intro e' he' d' hd'
    obtain ⟨e, he, hle, rfl⟩ := source e' he'
    obtain ⟨d, hd, hle', rfl⟩ := source d' hd'
    rw [extent_localEntry hle, extent_localEntry hle']
    exact Extent.apart_relativeTo (h.apart e he d hd) (UInt64.le_iff_toNat_le.mp hle)
      (UInt64.le_iff_toNat_le.mp hle')
  · intro e' he'
    obtain ⟨e, he, hle, rfl⟩ := source e' he'
    rw [extent_localEntry hle]
    have := h.fits e he
    simp only [Extent.stop, Extent.relativeTo] at this ⊢
    omega

theorem forall₂_getElem? {R : α → β → Prop} {xs : List α} {ys : List β}
    (h : List.Forall₂ R xs ys) {k : Nat} {y : β} (hy : ys[k]? = some y) :
    ∃ x, xs[k]? = some x ∧ R x y := by
  induction h generalizing k with
  | nil => simp at hy
  | @cons x z xs ys hxz _ ih =>
    cases k with
    | zero =>
      rw [List.getElem?_cons_zero, Option.some.injEq] at hy
      subst hy
      exact ⟨x, rfl, hxz⟩
    | succ k => exact ih hy

/-- What the assignment of entries to frames leads to. -/
structure FramesReadable (readers : List (List UInt8)) (content : ObjectChecksum → List UInt8)
    (entries : List FileEntry) (assigned : List (List FileEntry)) : Prop where
  length : readers.length = assigned.length
  perm : (assigned.flatten.map FileEntry.triple).Perm (entries.map FileEntry.triple)
  readable : ∀ task ∈ readers.zip assigned, Readable task.1 content task.2
  source : ∀ es ∈ assigned, ∀ e' ∈ es, ∃ e ∈ entries, ∃ start, e' = localEntry start e

/-- An assigned entry is one of those given, in a frame that starts before its object. -/
theorem Grouped.source {offsets : List UInt64} {groups : List (List FileEntry)}
    (h : Grouped offsets entries groups) {k : Nat} {es : List FileEntry}
    (hes : (localGroups offsets groups)[k]? = some es) : ∃ start, offsets[k]? = some start ∧
      ∀ e' ∈ es, ∃ e ∈ entries, start ≤ e.objectMetadata.offset ∧ e' = localEntry start e := by
  rw [localGroups, List.getElem?_zipWith_eq_some] at hes
  obtain ⟨start, group, hstart, hgroup, rfl⟩ := hes
  obtain ⟨start', hstart', hle⟩ := forall₂_getElem? h.starts hgroup
  rw [hstart] at hstart'
  cases hstart'
  refine ⟨start, hstart, fun e' he' => ?_⟩
  obtain ⟨e, he, rfl⟩ := List.mem_map.mp he'
  exact ⟨e, h.perm.mem_iff.mp (List.mem_flatten_of_mem (List.mem_of_getElem? hgroup) he),
    hle e he, rfl⟩

/-- Every selection of entries of a pack is assigned to frames that can read it. -/
theorem Packed.assignToFrames_ok (hzstd : zstd.Inverts)
    (h : Packed zstd index content pack ordering contents)
    (hentries : ∀ e ∈ entries, ∃ handle, pack.index.handleToEntry handle = .ok e) :
    ∃ assigned, assignToFrames pack.header entries = .ok assigned ∧
      FramesReadable (frameReaders zstd pack.frames) content entries assigned := by
  have hreadable := h.readable hentries
  obtain ⟨opts, hcompress⟩ := h.compressed
  have hfits : (0 : UInt64).toNat + contents.flatten.length < 2 ^ 64 := by
    rw [h.flatten, Placed.length_flatMap h.lengths]
    simpa using h.laidOut.total
  obtain ⟨offsets, hoffsets, hhead, hall⟩ := frameStreams_ok h.header hfits
  have hcontents : entries ≠ [] → ∃ rest, offsets = 0 :: rest := by
    intro hne
    obtain ⟨entry, hentry⟩ := List.exists_mem_of_ne_nil entries hne
    refine hhead (h.frames ?_)
    obtain ⟨handle, hok⟩ := hentries entry hentry
    obtain ⟨-, -, hmetadata, -⟩ := PackIndex.handleToEntry_eq_ok.mp hok
    obtain ⟨before, after, hsplit, -⟩ := h.laidOut.placed _ _ hmetadata
    rw [hsplit]
    simp
  obtain ⟨groups, hassigned, hgrouped⟩ := assignToFrames_grouped hoffsets hcontents
  refine ⟨_, hassigned, ?_, hgrouped.triples, ?_, ?_⟩
  · rw [frameReaders_eq hzstd hcompress, localGroups, List.length_zipWith,
      ← hgrouped.starts.length_eq, Nat.min_self, hall.length_eq]
  · rintro ⟨reader, es⟩ htask
    rw [frameReaders_eq hzstd hcompress] at htask
    obtain ⟨k, hk⟩ := List.mem_iff_getElem?.mp htask
    obtain ⟨hreader, hes⟩ := List.getElem?_zip_eq_some.mp hk
    obtain ⟨start, hstart, hsource⟩ := hgrouped.source hes
    obtain ⟨start', hstart', -, hdrop⟩ := forall₂_getElem? hall hreader
    rw [hstart] at hstart'
    cases hstart'
    rw [hdrop]
    exact hreadable.localize hsource
  · intro es hes e' he'
    obtain ⟨k, hk⟩ := List.mem_iff_getElem?.mp hes
    obtain ⟨start, -, hsource⟩ := hgrouped.source hk
    obtain ⟨e, he, -, heq⟩ := hsource e' he'
    exact ⟨e, he, start, heq⟩

end Selection

section Reading

variable {sha1 : List UInt8 → ObjectChecksum} {content : ObjectChecksum → List UInt8}
  {readers : List (List UInt8)} {entries : List FileEntry} {assigned : List (List FileEntry)}

/-- Reading all frames gives every entry the bytes of its checksum, in some order. -/
theorem FramesReadable.readFrames_ok (h : FramesReadable readers content entries assigned) :
    ∃ objects, readFrames readers assigned = .ok objects ∧
      (objects.flatten.map fun object => (object.1.triple, object.2)).Perm
        (entries.map fun e => (e.triple, content e.checksum)) := by
  let read (task : List UInt8 × List FileEntry) : List (FileEntry × List UInt8) :=
    (sortByOffset task.2).map fun e => (e, content e.checksum)
  have hread : ∀ task ∈ (readers.zip assigned).filter (fun task => !task.2.isEmpty),
      readObjects task.1 task.2 = .ok (read task) := fun task htask =>
    readObjects_ok (h.readable task (List.mem_of_mem_filter htask))
  refine ⟨_, Exec.mapM_ok_of hread, ?_⟩
  have hnonempty (tasks : List (List UInt8 × List FileEntry)) :
      (((tasks.filter fun task => !task.2.isEmpty).map read).flatten.map fun object =>
        (object.1.triple, object.2)).Perm
        ((tasks.map Prod.snd).flatten.map fun e => (e.triple, content e.checksum)) := by
    induction tasks with
    | nil => exact .refl _
    | cons task tasks ih =>
      have hown : ((read task).map fun object => (object.1.triple, object.2)).Perm
          (task.2.map fun e => (e.triple, content e.checksum)) := by
        rw [List.map_map]
        exact (sortByOffset_perm task.2).map _
      rw [List.map_cons, List.flatten_cons, List.map_append, List.filter_cons]
      split
      · rw [List.map_cons, List.flatten_cons, List.map_append]
        exact hown.append ih
      · rename_i hempty
        have hnil : task.2 = [] := by simpa using hempty
        rw [hnil, List.map_nil, List.nil_append]
        exact ih
  have hsnd : (readers.zip assigned).map Prod.snd = assigned :=
    List.map_snd_zip (Nat.le_of_eq h.length.symm)
  have hperm := hnonempty (readers.zip assigned)
  rw [hsnd] at hperm
  refine hperm.trans ?_
  have hbytes := h.perm.map fun t => (t, content t.checksum)
  rw [List.map_map, List.map_map] at hbytes
  exact hbytes

/-- Reading back any selection of the entries of a new pack gives each of them
exactly the bytes of the loose object with its checksum. -/
theorem create_pack_reads_back {zstd : Zstd}
    {loose : ObjectChecksum → Exec IoError (List UInt8)} {index : PackIndex} {opts : PackOptions}
    {pack : PackContent} (hzstd : zstd.Inverts) (hloose : LooseObjects sha1 loose index content)
    (hpack : compressPack zstd loose index opts = .ok pack)
    (hentries : ∀ e ∈ entries, ∃ handle, pack.index.handleToEntry handle = .ok e)
    (hlinks : ∀ e ∈ entries, e.metadata.isSymlink = true → e.objectMetadata.size ≠ 0) :
    ∃ assigned, assignToFrames pack.header entries = .ok assigned ∧
      (assigned.flatten.map FileEntry.triple).Perm (entries.map FileEntry.triple) ∧
      (∃ objects, readFrames (frameReaders zstd pack.frames) assigned = .ok objects ∧
        (objects.flatten.map fun object => (object.1.triple, object.2)).Perm
          (entries.map fun e => (e.triple, content e.checksum))) ∧
      ∀ (ν σ : Type) (sink : Sink ν σ) (verify : Bool),
        (verify = true → ∀ e ∈ entries, e.checksum ≠ .zero) →
        ∀ task ∈ (frameReaders zstd pack.frames).zip assigned, ∀ s,
          extractFiles sha1 sink verify task.1 task.2 s =
              deliverAll sink verify content (sortByOffset task.2) s ∧
            ((∀ e ∈ task.2, ∀ s, ∃ s', deliver sink verify e (content e.checksum) s = .ok s') →
              ∃ s', extractFiles sha1 sink verify task.1 task.2 s = .ok s') := by
  obtain ⟨ordering, contents, hpacked⟩ := compressPack_ok hloose hpack
  obtain ⟨assigned, hassigned, hframes⟩ := hpacked.assignToFrames_ok hzstd hentries
  refine ⟨assigned, hassigned, hframes.perm, hframes.readFrames_ok, ?_⟩
  intro ν σ sink verify hverify task htask s
  have hmem := (List.of_mem_zip htask).2
  have links : ∀ e' ∈ task.2, e'.metadata.isSymlink = true → e'.objectMetadata.size ≠ 0 := by
    intro e' he'
    obtain ⟨e, he, start, rfl⟩ := hframes.source task.2 hmem e' he'
    exact hlinks e he
  have verified : verify = true → ∀ e' ∈ task.2, sha1 (content e'.checksum) = e'.checksum := by
    intro hon e' he'
    obtain ⟨e, he, start, rfl⟩ := hframes.source task.2 hmem e' he'
    obtain ⟨handle, hok⟩ := hentries e he
    have hchecksum := (PackIndex.handleToEntry_eq_ok.mp hok).2.1
    rw [hpacked.laidOut.objectPool] at hchecksum
    exact hloose.sha1 e.checksum (EntryPool.lookup_mem hchecksum) (hverify hon e he)
  have heq : extractFiles sha1 sink verify task.1 task.2 s =
      deliverAll sink verify content (sortByOffset task.2) s :=
    extractFiles_eq (hframes.readable task htask) links verified s
  refine ⟨heq, fun accepts => ?_⟩
  rw [heq]
  apply deliverAll_ok
  intro e he
  exact accepts e ((sortByOffset_perm task.2).mem_iff.mp he)

end Reading

namespace PackSample

/-- Zstandard frames of raw blocks of one byte each, ended by an empty raw block. -/
def rawFrame (bytes : List UInt8) : List UInt8 :=
  [0x28, 0xB5, 0x2F, 0xFD, 0, 0x58] ++ (bytes.flatMap (fun b => [8, 0, 0, b]) ++ [1, 0, 0])

def decodeRaw : Bool → List UInt8 → List UInt8
  | false, 0x28 :: 0xB5 :: 0x2F :: 0xFD :: _ :: _ :: rest => decodeRaw true rest
  | true, 8 :: 0 :: 0 :: b :: rest => b :: decodeRaw true rest
  | true, 1 :: 0 :: 0 :: rest => decodeRaw false rest
  | _, _ => []

def zstd : Zstd where
  compress := fun _ bytes => .ok (rawFrame bytes)
  decompress := decodeRaw false

theorem decodeRaw_frame (bytes rest : List UInt8) :
    decodeRaw false (rawFrame bytes ++ rest) = bytes ++ decodeRaw false rest := by
  have blocks : decodeRaw true (bytes.flatMap (fun b => [8, 0, 0, b]) ++ [1, 0, 0] ++ rest) =
      bytes ++ decodeRaw false rest := by
    induction bytes with
    | nil => rfl
    | cons b bytes ih => simpa [decodeRaw] using ih
  simpa [rawFrame, decodeRaw] using blocks

theorem zstd_inverts : zstd.Inverts := by
  intro opts bufs frames hne h
  have hframes : frames = bufs.map rawFrame :=
    Exec.mapM_eq_map h fun buf frame hok => (Except.ok.inj hok).symm
  rw [hframes]
  clear h hframes hne
  induction bufs with
  | nil => rfl
  | cons buf bufs ih =>
    rw [List.map_cons, List.flatten_cons, List.flatten_cons, ← ih]
    exact decodeRaw_frame buf _

/-- The digest of the bytes `abc`. -/
def abc : ObjectChecksum :=
  ⟨[169, 153, 62, 54, 71, 6, 129, 106, 186, 62, 37, 113, 120, 80, 194, 108, 156, 208, 216, 157],
    rfl⟩

def nothing : ObjectChecksum := .ofNothing

def sha1 (bytes : List UInt8) : ObjectChecksum :=
  if bytes = [97, 98, 99] then abc else nothing

def content (checksum : ObjectChecksum) : List UInt8 :=
  if checksum = abc then [97, 98, 99] else []

def loose (checksum : ObjectChecksum) : Exec IoError (List UInt8) :=
  if checksum = abc then .ok [97, 98, 99]
  else if checksum = nothing then .ok []
  else Exec.fail .notFound

/-- Two files with one object, and an empty one. -/
def files : List FileEntry :=
  [⟨.a, abc, ⟨looseObjectOffset, 3⟩, .regular 420⟩,
    ⟨.b, nothing, ⟨looseObjectOffset, 0⟩, .regular 420⟩,
    ⟨.c, abc, ⟨looseObjectOffset, 3⟩, .regular 420⟩]

def options : PackOptions := ⟨15, 28, 2, 2⟩

/-- The handles of the files, with one of them selected twice. -/
def selection : List FileHandle :=
  [⟨2, 0, .regular 420⟩, ⟨1, 1, .regular 420⟩, ⟨0, 0, .regular 420⟩, ⟨1, 1, .regular 420⟩]

theorem files_loose {index : PackIndex}
    (h : PackIndex.new.pushSnapshot .insertion "t" files = .ok index) :
    LooseObjects sha1 loose index content := by
  have hpool : index.objectPool.entries = [abc, nothing] := by
    cases h
    rfl
  have hmem {checksum : ObjectChecksum} (hc : checksum ∈ index.objectPool.entries) :
      checksum = abc ∨ checksum = nothing := by
    rw [hpool] at hc
    simpa using hc
  refine ⟨by decide, ?_, ?_, ?_⟩
  · intro checksum hc _
    rcases hmem hc with rfl | rfl <;> decide
  · intro checksum hc _
    rcases hmem hc with rfl | rfl <;> decide
  · intro handle checksum metadata hlookup hmetadata
    rw [EntryPool.lookup, hpool] at hlookup
    have hhandle : handle = 0 ∨ handle = 1 := by
      have hlt := (List.getElem?_eq_some_iff.mp hlookup).1
      have htwo : handle.toNat < 2 := hlt
      rw [← UInt32.toNat_inj, ← UInt32.toNat_inj]
      simp only [UInt32.toNat_ofNat]
      omega
    cases h
    rcases hhandle with rfl | rfl
    · cases hlookup
      cases hmetadata
      decide
    · cases hlookup
      cases hmetadata
      decide

/-- The selected files with the places of their objects in the pack. -/
def selected : List FileEntry :=
  [⟨.c, abc, ⟨0, 3⟩, .regular 420⟩, ⟨.b, nothing, ⟨0, 0⟩, .regular 420⟩,
    ⟨.a, abc, ⟨0, 3⟩, .regular 420⟩, ⟨.b, nothing, ⟨0, 0⟩, .regular 420⟩]

/-- A selection with a shared object and an empty one, over two frames, is read back. -/
theorem create_pack_reads_back_shared : ∃ index pack,
    PackIndex.new.pushSnapshot .insertion "t" files = .ok index ∧
    compressPack zstd loose index options = .ok pack ∧
    pack.index.entriesFromHandles selection = .ok selected ∧
    ∃ assigned, assignToFrames pack.header selected = .ok assigned ∧
      (assigned.flatten.map FileEntry.triple).Perm (selected.map FileEntry.triple) ∧
      (∃ objects, readFrames (frameReaders zstd pack.frames) assigned = .ok objects ∧
        (objects.flatten.map fun object => (object.1.triple, object.2)).Perm
          (selected.map fun e => (e.triple, content e.checksum))) ∧
      ∀ (ν σ : Type) (sink : Sink ν σ) (verify : Bool),
        (verify = true → ∀ e ∈ selected, e.checksum ≠ .zero) →
        ∀ task ∈ (frameReaders zstd pack.frames).zip assigned, ∀ s,
          extractFiles sha1 sink verify task.1 task.2 s =
              deliverAll sink verify content (sortByOffset task.2) s ∧
            ((∀ e ∈ task.2, ∀ s, ∃ s', deliver sink verify e (content e.checksum) s = .ok s') →
              ∃ s', extractFiles sha1 sink verify task.1 task.2 s = .ok s') := by
  have hrun : ((PackIndex.new.pushSnapshot .insertion "t" files).mapError (fun _ => .invalidInput) >>=
      fun index => compressPack zstd loose index options >>= fun pack =>
        (pack.index.entriesFromHandles selection).mapError fun _ => .invalidInput) =
      (.ok selected : Exec IoError (List FileEntry)) := by rfl
  obtain ⟨index, hindex, hrun⟩ := Exec.bind_eq_ok.mp hrun
  obtain ⟨pack, hpack, hentries⟩ := Exec.bind_eq_ok.mp hrun
  rw [Exec.mapError_eq_ok] at hindex hentries
  refine ⟨index, pack, hindex, hpack, hentries, ?_⟩
  refine create_pack_reads_back zstd_inverts (files_loose hindex) hpack (fun e he => ?_) ?_
  · obtain ⟨handle, -, hok⟩ := Exec.mem_of_mapM hentries he
    exact ⟨handle, hok⟩
  · decide

end PackSample

end Elfshaker.Packs
