import Elfshaker.Packs.RoundTrip

namespace Elfshaker.Packs

open Elfshaker.Library Elfshaker.Format Elfshaker.Store

section Slices

variable {stream : List UInt8} {entries group : List FileEntry} {entry : FileEntry}
  {start : UInt64}

theorem bytesIn_localEntry (h : start ≤ entry.objectMetadata.offset) :
    bytesIn (stream.drop start.toNat) (localEntry start entry) = bytesIn stream entry := by
  rw [bytesIn, extent_localEntry h]
  exact Extent.slice_relativeTo (UInt64.le_iff_toNat_le.mp h)

/-- Entries that are counted from a later start lie in the stream from there. -/
theorem Sliced.localize (h : Sliced stream group)
    (starts : ∀ e ∈ group, start ≤ e.objectMetadata.offset) :
    Sliced (stream.drop start.toNat) (group.map (localEntry start)) := by
  refine ⟨?_, ?_, ?_⟩
  · intro e' he'
    obtain ⟨e, he, rfl⟩ := List.mem_map.mp he'
    rw [extent_localEntry (starts e he)]
    exact Extent.within_relativeTo (UInt64.le_iff_toNat_le.mp (starts e he)) (h.within e he)
  · intro e' he' d' hd'
    obtain ⟨e, he, rfl⟩ := List.mem_map.mp he'
    obtain ⟨d, hd, rfl⟩ := List.mem_map.mp hd'
    rw [extent_localEntry (starts e he), extent_localEntry (starts d hd)]
    exact Extent.clear_relativeTo (h.clear e he d hd) (UInt64.le_iff_toNat_le.mp (starts e he))
      (UInt64.le_iff_toNat_le.mp (starts d hd))
  · intro e' he'
    obtain ⟨e, he, rfl⟩ := List.mem_map.mp he'
    rw [extent_localEntry (starts e he)]
    have := h.fits e he
    simp only [Extent.stop, Extent.relativeTo] at this ⊢
    omega

/-- The order of the offsets does not depend on where they are counted from. -/
theorem sortByOffset_localEntry (starts : ∀ e ∈ group, start ≤ e.objectMetadata.offset) :
    sortByOffset (group.map (localEntry start)) = (sortByOffset group).map (localEntry start) := by
  refine (List.map_insertionSort _ _ _ _ fun e he d hd => ?_).symm
  have hstart := UInt64.le_iff_toNat_le.mp (starts e he)
  have hstart' := UInt64.le_iff_toNat_le.mp (starts d hd)
  simp only [localEntry, UInt64.le_iff_toNat_le, UInt64.toNat_sub_of_le _ _ (starts e he),
    UInt64.toNat_sub_of_le _ _ (starts d hd)]
  omega

/-- Reading objects from the start of a frame is slicing the stream. -/
theorem readObjects_localized (h : Sliced stream group)
    (starts : ∀ e ∈ group, start ≤ e.objectMetadata.offset) :
    readObjects (stream.drop start.toNat) (group.map (localEntry start)) =
      .ok ((sortByOffset group).map fun e => (localEntry start e, bytesIn stream e)) := by
  rw [readObjects_slices (h.localize starts), sortByOffset_localEntry starts, List.map_map]
  congr 1
  refine List.map_congr_left fun e he => ?_
  have hle := starts e ((sortByOffset_perm group).mem_iff.mp he)
  rw [Function.comp_apply, bytesIn_localEntry hle]

variable {ν σ : Type} {sha1 : List UInt8 → ObjectChecksum} {sink : Sink ν σ} {verify : Bool}

theorem deliverEach_localEntry {bytes bytes' : FileEntry → List UInt8}
    (h : ∀ e ∈ entries, bytes (localEntry start e) = bytes' e) (s : σ) :
    deliverEach sink verify bytes (entries.map (localEntry start)) s =
      deliverEach sink verify bytes' entries s := by
  induction entries generalizing s with
  | nil => rfl
  | cons entry entries ih =>
    have hentry : deliver sink verify (localEntry start entry) (bytes (localEntry start entry)) s =
        deliver sink verify entry (bytes' entry) s := by
      rw [h entry List.mem_cons_self]
      rfl
    rw [List.map_cons, deliverEach, deliverEach, hentry]
    congr 1
    funext s'
    exact ih (fun e he => h e (List.mem_cons_of_mem _ he)) s'

/-- Extracting files from the start of a frame is slicing the stream. -/
theorem extractFiles_localized (h : Sliced stream group)
    (starts : ∀ e ∈ group, start ≤ e.objectMetadata.offset)
    (regular : ∀ e ∈ group, e.metadata.isSymlink = false)
    (verified : verify = true → ∀ e ∈ group, sha1 (bytesIn stream e) = e.checksum) (s : σ) :
    extractFiles sha1 sink verify (stream.drop start.toNat) (group.map (localEntry start)) s =
      deliverEach sink verify (bytesIn stream) (sortByOffset group) s := by
  have hlinks : ∀ e' ∈ group.map (localEntry start),
      e'.metadata.isSymlink = true → e'.objectMetadata.size ≠ 0 := by
    intro e' he' hlink
    obtain ⟨e, he, rfl⟩ := List.mem_map.mp he'
    have hregular := regular e he
    have hmetadata : (localEntry start e).metadata = e.metadata := rfl
    rw [← hmetadata, hlink] at hregular
    cases hregular
  have hverified : verify = true → ∀ e' ∈ group.map (localEntry start),
      sha1 (bytesIn (stream.drop start.toNat) e') = e'.checksum := by
    intro hverify e' he'
    obtain ⟨e, he, rfl⟩ := List.mem_map.mp he'
    rw [bytesIn_localEntry (starts e he)]
    exact verified hverify e he
  rw [extractFiles_slices (h.localize starts) hlinks hverified, sortByOffset_localEntry starts]
  refine deliverEach_localEntry (fun e he => ?_) s
  exact bytesIn_localEntry (starts e ((sortByOffset_perm group).mem_iff.mp he))

end Slices

section Frames

variable {stream : List UInt8} {entries : List FileEntry} {readers : List (List UInt8)}
  {groups : List (List FileEntry)}

/-- What the loops over one frame make of its entries: they slice the stream. -/
structure FrameSlices (stream : List UInt8) (task : List UInt8 × List FileEntry)
    (group : List FileEntry) : Prop where
  read : ∃ objects, readObjects task.1 task.2 = .ok objects ∧
    (objects.map fun object => (object.1.triple, object.2)) =
      (sortByOffset group).map fun e => (e.triple, bytesIn stream e)
  extract : ∀ (ν σ : Type) (sha1 : List UInt8 → ObjectChecksum) (sink : Sink ν σ) (verify : Bool),
    (∀ e ∈ group, e.metadata.isSymlink = false) →
    (verify = true → ∀ e ∈ group, sha1 (bytesIn stream e) = e.checksum) → ∀ s,
      extractFiles sha1 sink verify task.1 task.2 s =
        deliverEach sink verify (bytesIn stream) (sortByOffset group) s

theorem frameSlices {group : List FileEntry} {start : UInt64} (h : Sliced stream group)
    (starts : ∀ e ∈ group, start ≤ e.objectMetadata.offset) :
    FrameSlices stream (stream.drop start.toNat, group.map (localEntry start)) group where
  read := by
    refine ⟨_, readObjects_localized h starts, ?_⟩
    rw [List.map_map]
    rfl
  extract := fun _ _ _ _ _ regular verified s => extractFiles_localized h starts regular verified s

theorem Grouped.frameSlices {offsets : List UInt64} (h : Grouped offsets entries groups)
    (sliced : Sliced stream entries)
    (readers_ok : List.Forall₂ (fun start reader => reader = stream.drop start.toNat)
      offsets readers) :
    List.Forall₂ (FrameSlices stream) (readers.zip (localGroups offsets groups)) groups := by
  have hstarts := h.starts
  have hsub : ∀ group ∈ groups, ∀ e ∈ group, e ∈ entries := fun group hgroup e he =>
    h.perm.mem_iff.mp (List.mem_flatten_of_mem hgroup he)
  clear h
  induction hstarts generalizing readers with
  | nil =>
    cases readers_ok
    exact .nil
  | @cons start group offsets groups hgroup _ ih =>
    cases readers_ok with
    | cons hreader hrest =>
      subst hreader
      have hown := hsub group List.mem_cons_self
      have hsliced : Sliced stream group :=
        ⟨fun e he => sliced.within e (hown e he),
          fun e he d hd => sliced.clear e (hown e he) d (hown d hd),
          fun e he => sliced.fits e (hown e he)⟩
      exact .cons (Packs.frameSlices hsliced hgroup)
        (ih hrest fun group' hmem => hsub group' (List.mem_cons_of_mem _ hmem))

/-- Frame by frame, every entry is read once. -/
theorem readFrames_slices {tasks : List (List UInt8 × List FileEntry)}
    (h : List.Forall₂ (FrameSlices stream) tasks groups) :
    ∃ objects, ((tasks.filter fun task => !task.2.isEmpty).mapM fun task =>
        readObjects task.1 task.2) = .ok objects ∧
      (objects.flatten.map fun object => (object.1.triple, object.2)).Perm
        (groups.flatten.map fun e => (e.triple, bytesIn stream e)) := by
  induction h with
  | nil => exact ⟨[], rfl, .refl _⟩
  | @cons task group tasks groups hframe _ ih =>
    obtain ⟨objects, hobjects, hperm⟩ := ih
    obtain ⟨own, hown, hbytes⟩ := hframe.read
    have hgroup : (own.map fun object => (object.1.triple, object.2)).Perm
        (group.map fun e => (e.triple, bytesIn stream e)) := by
      rw [hbytes]
      exact (sortByOffset_perm group).map _
    rw [List.flatten_cons, List.map_append, List.filter_cons]
    split
    · refine ⟨own :: objects, ?_, ?_⟩
      · rw [List.mapM_cons, hown, Exec.ok_bind, hobjects]
        rfl
      · rw [List.flatten_cons, List.map_append]
        exact hgroup.append hperm
    · -- a frame without entries is not read
      rename_i hempty
      have hnil : task.2 = [] := by simpa using hempty
      rw [hnil] at hown
      cases hown
      exact ⟨objects, hobjects, hgroup.append hperm⟩

/-- Where 64-bit offsets lead everywhere in the stream of all frames, and there is a frame if
there is an entry, the frames read and extract every entry as a slice of the stream. -/
theorem multi_frame_reading_slices {frames : List PackFrame} {contents : List (List UInt8)}
    {entries : List FileEntry}
    (sizes : frames.map (fun frame => frame.decompressedSize.toNat) = contents.map List.length)
    (fits : contents.flatten.length < 2 ^ 64) (framed : entries ≠ [] → frames ≠ [])
    (within : ∀ e ∈ entries, (extent e.objectMetadata).Within contents.flatten)
    (clear : ∀ e ∈ entries, ∀ d ∈ entries,
      (extent e.objectMetadata).Clear (extent d.objectMetadata)) :
    ∃ assigned groups, assignToFrames frames entries = .ok assigned ∧ groups.flatten.Perm entries ∧
      (∃ objects, readFrames (frameStreams contents) assigned = .ok objects ∧
        (objects.flatten.map fun object => (object.1.triple, object.2)).Perm
          (entries.map fun e => (e.triple, bytesIn contents.flatten e))) ∧
      List.Forall₂ (FrameSlices contents.flatten) ((frameStreams contents).zip assigned) groups := by
  have hfits : (0 : UInt64).toNat + contents.flatten.length < 2 ^ 64 := by
    simpa using fits
  obtain ⟨offsets, hoffsets, hhead, hall⟩ := frameStreams_ok sizes hfits
  have hfirst : entries ≠ [] → ∃ rest, offsets = 0 :: rest := by
    intro hne
    refine hhead fun hnone => framed hne ?_
    rw [hnone, List.map_nil, List.map_eq_nil_iff] at sizes
    exact sizes
  obtain ⟨groups, hassigned, hgrouped⟩ := assignToFrames_grouped hoffsets hfirst
  have sliced : Sliced contents.flatten entries :=
    ⟨within, clear, fun e he => lt_of_le_of_lt (within e he) fits⟩
  have hreaders : List.Forall₂ (fun start reader => reader = contents.flatten.drop start.toNat)
      offsets (frameStreams contents) := hall.imp fun _ _ hreader => hreader.2
  have hslices := hgrouped.frameSlices sliced hreaders
  obtain ⟨objects, hobjects, hperm⟩ := readFrames_slices hslices
  exact ⟨_, groups, hassigned, hgrouped.perm, ⟨objects, hobjects, hperm.trans (hgrouped.perm.map _)⟩,
    hslices⟩

end Frames

namespace SplitSample

/-- An empty frame between two others. -/
def contents : List (List UInt8) := [[97, 98], [], [99]]

def frames : List PackFrame := [⟨20, 2⟩, ⟨9, 0⟩, ⟨18, 1⟩]

/-- Two files with one object that begins in the first frame and ends in the last, and an
empty file amid it. -/
def entries : List FileEntry :=
  [⟨.a, .zero, ⟨1, 2⟩, .regular 420⟩, ⟨.b, .zero, ⟨2, 0⟩, .regular 420⟩,
    ⟨.c, .zero, ⟨1, 2⟩, .regular 420⟩]

theorem entries_within : ∀ e ∈ entries,
    (extent e.objectMetadata).Within contents.flatten := by
  simp [entries, contents, extent, Extent.Within, Extent.stop]

theorem entries_clear : ∀ e ∈ entries, ∀ d ∈ entries,
    (extent e.objectMetadata).Clear (extent d.objectMetadata) := by
  simp [entries, extent, Extent.Clear, Extent.Apart]

end SplitSample

theorem multi_frame_reading_slices_split : ∃ assigned groups,
    assignToFrames SplitSample.frames SplitSample.entries = .ok assigned ∧
    groups.flatten.Perm SplitSample.entries ∧
    (∃ objects, readFrames (frameStreams SplitSample.contents) assigned = .ok objects ∧
      (objects.flatten.map fun object => (object.1.triple, object.2)).Perm
        (SplitSample.entries.map fun e => (e.triple, bytesIn SplitSample.contents.flatten e))) ∧
    List.Forall₂ (FrameSlices SplitSample.contents.flatten)
      ((frameStreams SplitSample.contents).zip assigned) groups :=
  multi_frame_reading_slices rfl (by decide) (fun _ => List.cons_ne_nil _ _)
    SplitSample.entries_within SplitSample.entries_clear

namespace FrameCountSample

/-- The only entry of a pack without frames. -/
def entries : List FileEntry := [⟨.a, .zero, ⟨0, 0⟩, .regular 420⟩]

/-- Frames whose third would start at 2^64. -/
def contents : List (List UInt8) :=
  [List.replicate (2 ^ 63) 0, List.replicate (2 ^ 63) 0, []]

def frames : List PackFrame := [⟨20, 0x8000000000000000⟩, ⟨20, 0x8000000000000000⟩, ⟨9, 0⟩]

theorem sizes : frames.map (fun frame => frame.decompressedSize.toNat) =
    contents.map List.length := by
  simp only [frames, contents, List.map_cons, List.map_nil, List.length_replicate, List.length_nil]
  rfl

theorem overflows : assignToFrames frames [] = Exec.panic := rfl

end FrameCountSample

/-- An entry is given to no frame where there is none, and the starts of the frames have to be
64-bit numbers. -/
theorem multi_frame_reading_fails :
    (¬ ∀ (frames : List PackFrame) (contents : List (List UInt8)) (entries : List FileEntry),
      frames.map (fun frame => frame.decompressedSize.toNat) = contents.map List.length →
      contents.flatten.length < 2 ^ 64 →
      (∀ e ∈ entries, (extent e.objectMetadata).Within contents.flatten) →
      (∀ e ∈ entries, ∀ d ∈ entries,
        (extent e.objectMetadata).Clear (extent d.objectMetadata)) →
      ∃ assigned, assignToFrames frames entries = .ok assigned) ∧
    ¬ ∀ (frames : List PackFrame) (contents : List (List UInt8)) (entries : List FileEntry),
      frames.map (fun frame => frame.decompressedSize.toNat) = contents.map List.length →
      (entries ≠ [] → frames ≠ []) →
      (∀ e ∈ entries, (extent e.objectMetadata).Within contents.flatten) →
      (∀ e ∈ entries, ∀ d ∈ entries,
        (extent e.objectMetadata).Clear (extent d.objectMetadata)) →
      ∃ assigned, assignToFrames frames entries = .ok assigned := by
  constructor
  · intro h
    obtain ⟨assigned, hassigned⟩ := h [] [] FrameCountSample.entries rfl (by decide)
      (by simp [FrameCountSample.entries, extent, Extent.Within, Extent.stop])
      (by simp [FrameCountSample.entries, extent, Extent.Clear])
    cases hassigned
  · intro h
    obtain ⟨assigned, hassigned⟩ := h FrameCountSample.frames FrameCountSample.contents []
      FrameCountSample.sizes (fun hne => absurd rfl hne) (fun _ he => absurd he List.not_mem_nil)
      (fun _ he => absurd he List.not_mem_nil)
    rw [FrameCountSample.overflows] at hassigned
    cases hassigned

end Elfshaker.Packs
