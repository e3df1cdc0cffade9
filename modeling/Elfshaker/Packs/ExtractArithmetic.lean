import Elfshaker.Packs.ExtractEntries

namespace Elfshaker.Packs

open Elfshaker.Library Elfshaker.Format Elfshaker.Store

section Frames

variable {frames : List PackFrame} {entries : List FileEntry} {offsets : List UInt64}

def decompressedStarts (frames : List PackFrame) : List Nat :=
  starts 0 (frames.map fun frame => frame.decompressedSize.toNat)

def compressedStarts (frames : List PackFrame) : List Nat :=
  starts 0 (frames.map fun frame => frame.frameSize.toNat)

/-- The last frame that starts no later than the object of the entry. -/
def frameOf (frames : List PackFrame) (entry : FileEntry) : Option Nat :=
  rposition (fun start => decide (start ≤ entry.objectMetadata.offset.toNat))
    (decompressedStarts frames)

def inFrame (frames : List PackFrame) (entries : List FileEntry) (i : Nat) : List FileEntry :=
  entries.filter fun entry => frameOf frames entry == some i

/-- Where the object of an entry lies in a frame that starts here. -/
def extentIn (start : Nat) (entry : FileEntry) : Extent :=
  (extent entry.objectMetadata).relativeTo start

theorem frameDecompressedOffsets_eq (offset : UInt64) (frames : List PackFrame) :
    frameDecompressedOffsets (ε := ε) offset frames =
      startsFrom offset (frames.map PackFrame.decompressedSize) := by
  induction offset, frames using frameDecompressedOffsets.induct with
  | case1 offset => rfl
  | case2 offset frame => rfl
  | case3 offset frame next rest ih =>
    rw [frameDecompressedOffsets, List.map_cons, List.map_cons, startsFrom]
    refine bind_congr fun nextOffset => ?_
    rw [ih nextOffset, List.map_cons]

theorem offsets_toNat (h : frameDecompressedOffsets (ε := ε) 0 frames = .ok offsets) :
    offsets.map UInt64.toNat = decompressedStarts frames := by
  rw [frameDecompressedOffsets_eq] at h
  rw [startsFrom_eq_ok h, List.map_map]
  rfl

theorem rposition_map {p : β → Bool} (f : α → β) (xs : List α) :
    rposition p (xs.map f) = rposition (fun x => p (f x)) xs := by
  induction xs with
  | nil => rfl
  | cons x xs ih => rw [List.map_cons, rposition, rposition, ih]

theorem frameOf_eq (h : frameDecompressedOffsets (ε := ε) 0 frames = .ok offsets)
    (entry : FileEntry) : frameOf frames entry =
      rposition (fun x => decide (x ≤ entry.objectMetadata.offset)) offsets := by
  rw [frameOf, ← offsets_toNat h, rposition_map]
  simp only [UInt64.le_iff_toNat_le]

/-- The entries that were assigned so far, frame by frame. -/
def assignedTo (frames : List PackFrame) (offsets : List UInt64) (entries : List FileEntry) :
    List (List FileEntry) :=
  offsets.mapIdx fun i start => (inFrame frames entries i).map (localEntry start)

theorem assignedTo_step {done : List FileEntry} {entry : FileEntry} {k : Nat} {start : UInt64}
    (hframe : frameOf frames entry = some k) (hstart : offsets[k]? = some start) :
    (assignedTo frames offsets done).modify k (· ++ [localEntry start entry]) =
      assignedTo frames offsets (done ++ [entry]) := by
  apply List.ext_getElem?
  intro i
  rw [List.getElem?_modify, assignedTo, assignedTo, List.getElem?_mapIdx, List.getElem?_mapIdx]
  have hfilter : inFrame frames (done ++ [entry]) i =
      inFrame frames done i ++ if k = i then [entry] else [] := by
    rw [inFrame, List.filter_append, inFrame, List.filter_singleton, hframe]
    simp
  rw [hfilter]
  split
  · rename_i heq
    subst heq
    simp [hstart]
  · simp

theorem assignEntries_eq (hoffsets : frameDecompressedOffsets (ε := ε) 0 frames = .ok offsets)
    (hframes : frames ≠ []) (done : List FileEntry) :
    assignEntries offsets (assignedTo frames offsets done) entries =
      .ok (assignedTo frames offsets (done ++ entries)) := by
  induction entries generalizing done with
  | nil => rw [assignEntries, List.append_nil]
  | cons entry entries ih =>
    obtain ⟨k, hk⟩ : ∃ k, frameOf frames entry = some k := by
      cases frames with
      | nil => exact absurd rfl hframes
      | cons frame frames =>
        have hzero : decide (0 ≤ entry.objectMetadata.offset.toNat) = true :=
          decide_eq_true (Nat.zero_le _)
        exact rposition_exists (p := fun start => decide (start ≤ _)) hzero _
    rw [frameOf_eq hoffsets] at hk
    obtain ⟨start, hstart, -⟩ := rposition_some hk
    rw [assignEntries, hk, Exec.okOr_some, Exec.ok_bind, hstart, Exec.unwrap_some, Exec.ok_bind,
      assignedTo_step ((frameOf_eq hoffsets entry).trans hk) hstart, ih, List.append_assoc,
      List.singleton_append]

/-- Every entry is given to its frame, in the order of the entries. -/
theorem assignToFrames_eq (hoffsets : frameDecompressedOffsets (ε := Error) 0 frames = .ok offsets)
    (hframes : frames ≠ []) (entries : List FileEntry) :
    assignToFrames frames entries = .ok (assignedTo frames offsets entries) := by
  have hstart : (frames.map fun _ => ([] : List FileEntry)) = assignedTo frames offsets [] := by
    rw [assignedTo, List.map_const', ← frameDecompressedOffsets_length hoffsets]
    apply List.ext_getElem?
    intro i
    rw [List.getElem?_replicate, List.getElem?_mapIdx]
    split
    · rename_i hlt
      rw [List.getElem?_eq_getElem hlt]
      rfl
    · rename_i hle
      rw [List.getElem?_eq_none (Nat.not_lt.mp hle)]
      rfl
  rw [assignToFrames, hoffsets, Exec.ok_bind, hstart, assignEntries_eq hoffsets hframes,
    List.nil_append]

theorem assignToFrames_none (entries : List FileEntry) : assignToFrames [] entries =
    if entries = [] then .ok [] else Exec.fail .corruptPack := by
  cases entries <;> rfl

theorem assignToFrames_noPanic_iff : (assignToFrames frames entries).NoPanic ↔
    ∀ s ∈ decompressedStarts frames, s < 2 ^ 64 := by
  have hstarts : (frameDecompressedOffsets (ε := Error) 0 frames).NoPanic ↔
      ∀ s ∈ decompressedStarts frames, s < 2 ^ 64 := by
    rw [frameDecompressedOffsets_eq, startsFrom_noPanic_iff, List.map_map]
    rfl
  rw [assignToFrames, Exec.noPanic_bind_iff, hstarts]
  refine and_iff_left fun offsets hoffsets => ?_
  cases frames with
  | nil =>
    cases hoffsets
    have hnone := assignToFrames_none entries
    rw [assignToFrames, frameDecompressedOffsets, Exec.ok_bind] at hnone
    rw [hnone]
    split
    · exact Exec.noPanic_ok _
    · exact Exec.noPanic_fail _
  | cons frame frames =>
    have hassign := assignToFrames_eq hoffsets (List.cons_ne_nil _ _) entries
    rw [assignToFrames, hoffsets, Exec.ok_bind] at hassign
    rw [hassign]
    exact Exec.noPanic_ok _

theorem start_le_of_mem {i : Nat} {start : UInt64} {entry : FileEntry}
    (hoffsets : frameDecompressedOffsets (ε := ε) 0 frames = .ok offsets)
    (hstart : offsets[i]? = some start) (hentry : entry ∈ inFrame frames entries i) :
    start ≤ entry.objectMetadata.offset := by
  have hframe : frameOf frames entry = some i := by
    have hmem := (List.mem_filter.mp hentry).2
    simpa using hmem
  rw [frameOf_eq hoffsets] at hframe
  obtain ⟨start', hstart', hle⟩ := rposition_some hframe
  rw [hstart] at hstart'
  cases hstart'
  simpa using hle

/-- The entries of a frame as they are assigned, seen as parts of its stream. -/
theorem extents_local (entries : List FileEntry) {i : Nat} {start : UInt64}
    (hoffsets : frameDecompressedOffsets (ε := ε) 0 frames = .ok offsets)
    (hstart : offsets[i]? = some start) :
    ((inFrame frames entries i).map (localEntry start)).map (fun e => extent e.objectMetadata) =
      (inFrame frames entries i).map (extentIn start.toNat) := by
  rw [List.map_map]
  refine List.map_congr_left fun entry hentry => ?_
  exact extent_localEntry (start_le_of_mem hoffsets hstart hentry)

end Frames

section Extents

variable {assigned : List (List FileEntry)} {entries : List FileEntry}

theorem max_toNat (a b : UInt64) : (max a b).toNat = max a.toNat b.toNat := by
  have hmax : max a b = if a ≤ b then b else a := rfl
  rw [hmax]
  split
  · rename_i hle
    exact (Nat.max_eq_right (UInt64.le_iff_toNat_le.mp hle)).symm
  · rename_i hlt
    have hle : b.toNat ≤ a.toNat := by
      rw [UInt64.le_iff_toNat_le] at hlt
      omega
    exact (Nat.max_eq_left hle).symm

theorem max?_toNat (xs : List UInt64) : xs.max?.map UInt64.toNat = (xs.map UInt64.toNat).max? := by
  cases xs with
  | nil => rfl
  | cons x xs =>
    rw [List.map_cons, List.max?_cons', List.max?_cons', Option.map_some, List.foldl_map]
    refine congrArg some (Eq.symm ?_)
    exact List.foldl_hom UInt64.toNat fun a b => (max_toNat a b).symm

def stops (entries : List FileEntry) : List Nat :=
  entries.map fun entry => (extent entry.objectMetadata).stop

theorem maxExtent_noPanic_iff : (maxExtent (ε := ε) entries).NoPanic ↔
    ∀ stop ∈ stops entries, stop < 2 ^ 64 := by
  rw [maxExtent, Exec.noPanic_bind_iff, and_iff_left fun _ _ => Exec.noPanic_ok _,
    Exec.noPanic_mapM_noError_iff fun _ => Exec.noError_checkedAdd _ _, stops,
    List.forall_mem_map]
  refine forall₂_congr fun entry _ => ?_
  exact Exec.noPanic_checkedAdd_iff

theorem maxExtent_noError : (maxExtent (ε := ε) entries).NoError :=
  (Exec.noError_mapM fun _ => Exec.noError_checkedAdd _ _).bind fun _ => Exec.noError_ok _

theorem maxExtent_eq_ok {reach : Option UInt64} (h : maxExtent (ε := ε) entries = .ok reach) :
    reach.map UInt64.toNat = (stops entries).max? := by
  obtain ⟨ends, hends, h⟩ := Exec.bind_eq_ok.mp h
  cases h
  have hstops : ends.map UInt64.toNat = stops entries := by
    have hall := Exec.mapM_eq_ok.mp hends
    clear hends h
    induction hall with
    | nil => rfl
    | cons hadd _ ih =>
      rw [List.map_cons, ih, Exec.checkedAdd_eq_ok.mp hadd]
      rfl
  rw [max?_toNat, hstops]

/-- How far the frames are read, for those that have entries. -/
def reaches (assigned : List (List FileEntry)) : List Nat :=
  assigned.filterMap fun entries => (stops entries).max?

theorem bytesToDecompress_noPanic_iff : (bytesToDecompress (ε := ε) assigned).NoPanic ↔
    (∀ entries ∈ assigned, ∀ stop ∈ stops entries, stop < 2 ^ 64) ∧
      (reaches assigned).sum < 2 ^ 64 := by
  rw [bytesToDecompress, Exec.noPanic_bind_iff,
    Exec.noPanic_mapM_noError_iff fun _ => maxExtent_noError]
  simp only [maxExtent_noPanic_iff, Exec.checkedSum_noPanic_iff]
  refine and_congr_right fun hfits => ?_
  obtain ⟨extents, hextents⟩ : ∃ extents, assigned.mapM (maxExtent (ε := ε)) = .ok extents :=
    (Exec.noError_mapM fun _ => maxExtent_noError).ok
      ((Exec.noPanic_mapM_noError_iff fun _ => maxExtent_noError).mpr fun entries hentries =>
        maxExtent_noPanic_iff.mpr (hfits entries hentries))
  have hreaches : (extents.filterMap id).map UInt64.toNat = reaches assigned := by
    have hall := Exec.mapM_eq_ok.mp hextents
    clear hextents hfits
    induction hall with
    | nil => rfl
    | @cons entries reach assigned extents hreach _ ih =>
      have hvalue := maxExtent_eq_ok hreach
      cases reach with
      | none =>
        simp only [reaches, List.filterMap_cons, ← hvalue, Option.map_none, id_eq]
        exact ih
      | some reach =>
        simp only [reaches, List.filterMap_cons, ← hvalue, Option.map_some, id_eq]
        exact congrArg (reach.toNat :: ·) ih
  constructor
  · intro h
    have hsum := h extents hextents
    rw [hreaches] at hsum
    simpa using hsum
  · intro h extents' hextents'
    rw [hextents] at hextents'
    cases hextents'
    rw [hreaches]
    simpa using h

end Extents

section Forward

variable {reader stream buf : List UInt8} {pos : UInt64} {entries : List FileEntry}

/-- The objects that a reader which only moves forward does not have in its buffer. -/
def readAhead : Nat → List Extent → List Extent
  | _, [] => []
  | pos, x :: xs => if pos ≤ x.offset then x :: readAhead x.stop xs else readAhead pos xs

theorem readAhead_ge {pos : Nat} {xs : List Extent} {x : Extent} (h : x ∈ readAhead pos xs) :
    pos ≤ x.offset := by
  induction xs generalizing pos with
  | nil => cases h
  | cons y ys ih =>
    rw [readAhead] at h
    split at h
    · rename_i hle
      rcases List.mem_cons.mp h with rfl | h
      · exact hle
      · have hstop := ih h
        simp only [Extent.stop] at hstop
        omega
    · exact ih h

/-- The places of the objects that are read: those that are not empty. -/
def objectExtents (entries : List FileEntry) : List Extent :=
  (entries.map fun entry => extent entry.objectMetadata).filter fun x => x.size != 0

theorem objectExtents_empty {entry : FileEntry} (h : entry.objectMetadata.size = 0) :
    objectExtents (entry :: entries) = objectExtents entries := by
  rw [objectExtents, List.map_cons, List.filter_cons_of_neg]
  · rfl
  · simp [extent, h]

theorem objectExtents_cons {entry : FileEntry} (h : entry.objectMetadata.size ≠ 0) :
    objectExtents (entry :: entries) = extent entry.objectMetadata :: objectExtents entries := by
  rw [objectExtents, List.map_cons, List.filter_cons_of_pos]
  · rfl
  · have hne : entry.objectMetadata.size.toNat ≠ 0 := fun hzero => h (UInt64.toNat.inj hzero)
    simpa [extent] using hne

/-- Objects behind the end of the stream are an error before their end is computed. -/
theorem readObjectsFrom_noPanic_iff (hreader : reader = stream.drop pos.toNat) :
    (readObjectsFrom reader buf pos entries).NoPanic ↔
      ∀ x ∈ readAhead pos.toNat (objectExtents entries), x.stop ≤ stream.length →
        x.stop < 2 ^ 64 := by
  have hreturn {α β : Type} (x : Exec Error α) (f : α → β) :
      (x >>= fun a => .ok (f a)).NoPanic ↔ x.NoPanic := by
    rw [Exec.noPanic_bind_iff]
    exact and_iff_left fun _ _ => Exec.noPanic_ok _
  induction entries generalizing reader buf pos with
  | nil => exact iff_of_true (Exec.noPanic_ok _) nofun
  | cons entry entries ih =>
    have hstop : (extent entry.objectMetadata).stop =
        entry.objectMetadata.offset.toNat + entry.objectMetadata.size.toNat := rfl
    rw [readObjectsFrom]
    split
    · rename_i hempty
      rw [hreturn, objectExtents_empty hempty]
      exact ih hreader
    · rename_i hsize
      rw [objectExtents_cons hsize, readAhead]
      have hne : entry.objectMetadata.size.toNat ≠ 0 := fun hzero =>
        hsize (UInt64.toNat.inj hzero)
      split
      · rename_i hle
        have hle' : pos.toNat ≤ (extent entry.objectMetadata).offset :=
          UInt64.le_iff_toNat_le.mp hle
        have hoffset : (extent entry.objectMetadata).offset =
            entry.objectMetadata.offset.toNat := rfl
        have hseek : seek reader (entry.objectMetadata.offset - pos) =
            stream.drop entry.objectMetadata.offset.toNat := by
          rw [seek, hreader, UInt64.toNat_sub_of_le _ _ hle, List.drop_drop]
          congr 1
          omega
        rw [if_pos hle', hseek, readExact, List.length_drop]
        split
        · rename_i hshort
          refine iff_of_true (Exec.noPanic_fail _) fun x hx hwithin => ?_
          have hbehind : (extent entry.objectMetadata).stop ≤ x.stop := by
            rcases List.mem_cons.mp hx with rfl | hx
            · exact Nat.le_refl _
            · exact Nat.le_trans (readAhead_ge hx) (Nat.le_add_right _ _)
          omega
        · rename_i hlong
          rw [Exec.ok_bind]
          dsimp only
          rw [Exec.noPanic_bind_iff, Exec.noPanic_checkedAdd_iff]
          simp only [hreturn, List.forall_mem_cons]
          rw [← hstop]
          have hwithin : (extent entry.objectMetadata).stop ≤ stream.length := by omega
          constructor
          · rintro ⟨hadd, hrest⟩
            obtain ⟨next, hnext, hvalue⟩ := Exec.checkedAdd_ok (ε := Error) (hstop ▸ hadd)
            have hdrop : (stream.drop entry.objectMetadata.offset.toNat).drop
                entry.objectMetadata.size.toNat = stream.drop next.toNat := by
              rw [List.drop_drop, hvalue]
            have hnext' := (ih hdrop).mp (hrest next hnext)
            rw [hvalue, ← hstop] at hnext'
            exact ⟨fun _ => hadd, hnext'⟩
          · rintro ⟨hfirst, hrest⟩
            refine ⟨hfirst hwithin, fun next hnext => ?_⟩
            have hvalue := Exec.checkedAdd_eq_ok.mp hnext
            have hdrop : (stream.drop entry.objectMetadata.offset.toNat).drop
                entry.objectMetadata.size.toNat = stream.drop next.toNat := by
              rw [List.drop_drop, hvalue]
            refine (ih hdrop).mpr ?_
            rw [hvalue, ← hstop]
            exact hrest
      · rename_i hlt
        have hlt' : ¬ pos.toNat ≤ (extent entry.objectMetadata).offset := fun hle =>
          hlt (UInt64.le_iff_toNat_le.mpr hle)
        rw [if_neg hlt', hreturn]
        exact ih hreader

theorem readObjects_noPanic_iff : (readObjects reader entries).NoPanic ↔
    ∀ x ∈ readAhead 0 (objectExtents (sortByOffset entries)), x.stop ≤ reader.length →
      x.stop < 2 ^ 64 :=
  readObjectsFrom_noPanic_iff (List.drop_zero).symm

variable {ν σ : Type} {sha1 : List UInt8 → ObjectChecksum} {sink : Sink ν σ} {verify : Bool}

/-- Nothing that is asked of the file system panics. -/
structure Sink.NoPanic (sink : Sink ν σ) : Prop where
  toNative : ∀ path, (sink.toNative path).NoPanic
  materializeRegular : ∀ bytes path mode s, (sink.materializeRegular bytes path mode s).NoPanic
  materialize : ∀ path bytes encoding kind native s,
    (sink.materialize path bytes encoding kind native s).NoPanic
  verifyMaterialized : ∀ path native encoding kind checksum s,
    (sink.verifyMaterialized path native encoding kind checksum s).NoPanic

theorem writeEntry_noPanic (hsink : sink.NoPanic) (entry : FileEntry) (buf : List UInt8) (s : σ) :
    (writeEntry sink verify entry buf s).NoPanic := by
  have hpath : (nativePath sink entry.path).NoPanic :=
    Exec.noPanic_mapError_iff.mpr (hsink.toNative entry.path)
  refine hpath.bind fun path _ => ?_
  cases entry.metadata with
  | regular mode =>
    dsimp only
    split <;> exact hsink.materializeRegular _ _ _ _
  | symlink targetEncoding targetKind =>
    refine Exec.NoPanic.bind (hsink.materialize _ _ _ _ _ _) fun s' _ => ?_
    cases verify with
    | false => exact Exec.noPanic_ok _
    | true =>
      exact Exec.NoPanic.bind (hsink.verifyMaterialized _ _ _ _ _ _) fun _ _ => Exec.noPanic_ok _

theorem extractFilesFrom_noPanic (hsink : sink.NoPanic) (hstops : ∀ stop ∈ stops entries, stop < 2 ^ 64)
    (reader buf : List UInt8) (pos : UInt64) (s : σ) :
    (extractFilesFrom sha1 sink verify reader buf pos entries s).NoPanic := by
  induction entries generalizing reader buf pos s with
  | nil => exact Exec.noPanic_ok s
  | cons entry entries ih =>
    obtain ⟨hstop, hrest⟩ := List.forall_mem_cons.mp hstops
    rw [extractFilesFrom]
    split
    · refine Exec.NoPanic.bind ?_ fun read _ => ?_
      · unfold readExact
        split
        · exact Exec.noPanic_fail _
        · exact Exec.noPanic_ok _
      refine Exec.NoPanic.bind (Exec.noPanic_checkedAdd_iff.mpr hstop) fun next _ => ?_
      refine Exec.NoPanic.bind ?_ fun _ _ => ?_
      · unfold checkObject verifyObject
        split
        · split
          · exact Exec.noPanic_ok _
          · exact Exec.noPanic_fail _
        · exact Exec.noPanic_ok _
      exact Exec.NoPanic.bind (writeEntry_noPanic hsink _ _ _) fun s' _ => ih hrest _ _ _ s'
    · exact Exec.NoPanic.bind (writeEntry_noPanic hsink _ _ _) fun s' _ => ih hrest _ _ _ s'

theorem stops_perm {other : List FileEntry} (h : other.Perm entries) :
    (∀ stop ∈ stops other, stop < 2 ^ 64) ↔ ∀ stop ∈ stops entries, stop < 2 ^ 64 := by
  simp only [stops, List.forall_mem_map, h.mem_iff]

theorem extractFiles_noPanic (hsink : sink.NoPanic) (hstops : ∀ stop ∈ stops entries, stop < 2 ^ 64)
    (s : σ) : (extractFiles sha1 sink verify reader entries s).NoPanic :=
  extractFilesFrom_noPanic hsink ((stops_perm (sortByOffset_perm entries)).mpr hstops) _ _ _ s

end Forward

section Opening

variable {file : PackFile}

theorem ioResult_noPanic (result : Except IoError α) : (ioResult result).NoPanic := by
  cases result with
  | error e => exact Exec.noPanic_fail _
  | ok a => exact Exec.noPanic_ok a

theorem readU32Le_noPanic (bytes : List UInt8) : (readU32Le bytes).NoPanic := by
  unfold readU32Le
  split
  · exact Exec.noPanic_fail _
  · exact Exec.noPanic_ok _

theorem readSkippableFrame_noPanic (bytes : List UInt8) : (readSkippableFrame bytes).NoPanic := by
  refine Exec.NoPanic.bind (readU32Le_noPanic bytes) fun read _ => ?_
  obtain ⟨magic, rest⟩ := read
  dsimp only
  split
  · exact Exec.noPanic_fail _
  · refine Exec.NoPanic.bind (readU32Le_noPanic rest) fun read _ => ?_
    obtain ⟨frameSize, rest⟩ := read
    dsimp only
    split
    · exact Exec.noPanic_fail _
    · exact Exec.noPanic_ok _

theorem readHeader_noPanic : file.readHeader.NoPanic := by
  refine Exec.NoPanic.bind (ioResult_noPanic _) fun bytes _ => ?_
  refine Exec.NoPanic.bind (readSkippableFrame_noPanic _) fun frame _ => ?_
  refine Exec.NoPanic.bind (Exec.noPanic_okOr _ _) fun header _ => ?_
  split
  · exact Exec.noPanic_ok _
  · exact Exec.noPanic_fail _

theorem openPackLegacy_noPanic : file.openPackLegacy.NoPanic := by
  refine Exec.NoPanic.bind (ioResult_noPanic _) fun bytes _ => ?_
  exact Exec.NoPanic.bind (ioResult_noPanic _) fun reader _ => Exec.noPanic_ok _

theorem orElse_noPanic_iff {first second : Exec ε α} (h : second.NoPanic) :
    (PackFile.orElse first second).NoPanic ↔ first.NoPanic := by
  cases first with
  | ok a => exact Iff.rfl
  | error e =>
    cases e with
    | error e => exact iff_of_true h (Exec.noPanic_fail e)
    | panic => exact Iff.rfl

/-- A frame that is looked for here, behind the header, can be read. -/
def PackFile.FoundAt (file : PackFile) (headerSize : UInt64) (start : Nat) : Prop :=
  headerSize.toNat + start < 2 ^ 64 ∧
    ∃ reader, file.decoder (headerSize + UInt64.ofNat start) = .ok reader

/-- All frames start in 64 bits, and so do those that are looked for behind the header: the
first of them that is not found ends the search. -/
def PackFile.OffsetsFit (file : PackFile) : Prop :=
  ∀ fileSize headerSize header, file.readHeader = .ok (fileSize, headerSize, header) →
    (∀ s ∈ compressedStarts header.frames, s < 2 ^ 64) ∧
      ∀ before s after, compressedStarts header.frames = before ++ s :: after →
        (∀ t ∈ before, file.FoundAt headerSize t) → headerSize.toNat + s < 2 ^ 64

theorem ioResult_eq_ok {result : Except IoError α} {a : α} :
    ioResult result = .ok a ↔ result = .ok a := by
  cases result with
  | error e => exact iff_of_false nofun nofun
  | ok b => exact ⟨fun h => congrArg Except.ok (Except.ok.inj h),
      fun h => congrArg Except.ok (Except.ok.inj h)⟩

theorem readHeader_opens {fileSize headerSize : UInt64} {header : PackHeader}
    (h : file.readHeader = .ok (fileSize, headerSize, header)) :
    ∃ bytes, ioResult file.bytes = .ok bytes := by
  obtain ⟨bytes, hbytes, -⟩ := Exec.bind_eq_ok.mp h
  exact ⟨bytes, hbytes⟩

variable {bytes : List UInt8} {headerSize offset : UInt64} {frames : List PackFrame}

theorem frameReader_noPanic_iff (hbytes : ioResult file.bytes = .ok bytes) :
    (file.frameReader headerSize offset).NoPanic ↔ headerSize.toNat + offset.toNat < 2 ^ 64 := by
  rw [PackFile.frameReader, hbytes, Exec.ok_bind, Exec.noPanic_bind_iff,
    Exec.noPanic_checkedAdd_iff]
  exact and_iff_left fun position _ => ioResult_noPanic _

theorem frameReader_found_iff (hbytes : ioResult file.bytes = .ok bytes) :
    (∃ reader, file.frameReader headerSize offset = .ok reader) ↔
      file.FoundAt headerSize offset.toNat := by
  rw [PackFile.frameReader, hbytes, Exec.ok_bind, PackFile.FoundAt, UInt64.ofNat_toNat]
  constructor
  · rintro ⟨reader, h⟩
    obtain ⟨position, hposition, h⟩ := Exec.bind_eq_ok.mp h
    have hvalue := Exec.checkedAdd_eq_ok.mp hposition
    have hlt : headerSize.toNat + offset.toNat < 2 ^ 64 := hvalue ▸ position.toNat_lt
    rw [Exec.checkedAdd, if_pos hlt] at hposition
    cases hposition
    exact ⟨hlt, reader, ioResult_eq_ok.mp h⟩
  · rintro ⟨hlt, reader, h⟩
    rw [Exec.checkedAdd, if_pos hlt, Exec.ok_bind]
    exact ⟨reader, ioResult_eq_ok.mpr h⟩

theorem computeFrameOffsets_noPanic_iff : (computeFrameOffsets (ε := ε) frames).NoPanic ↔
    ∀ s ∈ compressedStarts frames, s < 2 ^ 64 := by
  rw [computeFrameOffsets, startsFrom_noPanic_iff, List.map_map]
  rfl

theorem computeFrameOffsets_toNat {offsets : List UInt64}
    (h : computeFrameOffsets (ε := ε) frames = .ok offsets) :
    offsets.map UInt64.toNat = compressedStarts frames := by
  rw [startsFrom_eq_ok h, List.map_map]
  rfl

theorem frameReaders_noPanic_iff {offsets : List UInt64} (hbytes : ioResult file.bytes = .ok bytes) :
    (offsets.mapM (file.frameReader headerSize)).NoPanic ↔
      ∀ before s after, offsets.map UInt64.toNat = before ++ s :: after →
        (∀ t ∈ before, file.FoundAt headerSize t) → headerSize.toNat + s < 2 ^ 64 := by
  rw [Exec.noPanic_mapM_iff]
  constructor
  · intro h before s after heq hbefore
    obtain ⟨before', rest, rfl, rfl, hrest⟩ := List.map_eq_append_iff.mp heq
    obtain ⟨offset, after', rfl, rfl, rfl⟩ := List.map_eq_cons_iff.mp hrest
    refine (frameReader_noPanic_iff hbytes).mp (h before' offset after' rfl fun y hy => ?_)
    exact (frameReader_found_iff hbytes).mpr (hbefore _ (List.mem_map_of_mem hy))
  · intro h before offset after heq hbefore
    refine (frameReader_noPanic_iff hbytes).mpr (h (before.map UInt64.toNat) offset.toNat
      (after.map UInt64.toNat) ?_ ?_)
    · rw [heq, List.map_append, List.map_cons]
    · intro t ht
      obtain ⟨y, hy, rfl⟩ := List.mem_map.mp ht
      exact (frameReader_found_iff hbytes).mp (hbefore y hy)

theorem openPack_noPanic_iff : file.openPack.NoPanic ↔ file.OffsetsFit := by
  rw [PackFile.openPack, Exec.noPanic_bind_iff, and_iff_right readHeader_noPanic,
    PackFile.OffsetsFit]
  simp only [Prod.forall]
  refine forall₄_congr fun fileSize headerSize header hheader => ?_
  obtain ⟨bytes, hbytes⟩ := readHeader_opens hheader
  rw [Exec.noPanic_bind_iff, computeFrameOffsets_noPanic_iff]
  refine and_congr_right fun hfits => ?_
  obtain ⟨offsets, hoffsets⟩ : ∃ offsets,
      computeFrameOffsets (ε := Error) header.frames = .ok offsets :=
    startsFrom_noError.ok (computeFrameOffsets_noPanic_iff.mpr hfits)
  have hreaders : (offsets.mapM (file.frameReader headerSize) >>= fun readers =>
      .ok (fileSize, header, readers)).NoPanic ↔
      (offsets.mapM (file.frameReader headerSize)).NoPanic := by
    rw [Exec.noPanic_bind_iff]
    exact and_iff_left fun _ _ => Exec.noPanic_ok _
  rw [hoffsets, ← computeFrameOffsets_toNat hoffsets, ← frameReaders_noPanic_iff hbytes, ← hreaders]
  constructor
  · intro h
    exact h offsets rfl
  · intro h offsets' hoffsets'
    cases hoffsets'
    exact h

theorem validateRegular_noPanic (id : PackId) : id.validateRegular.NoPanic := by
  unfold PackId.validateRegular
  split
  · exact Exec.noPanic_ok _
  · exact Exec.noPanic_fail _

theorem open_noPanic_iff (packName : PackId) : (file.open' packName).NoPanic ↔
    (packName.validateRegular = .ok () → file.OffsetsFit) := by
  rw [PackFile.open', Exec.noPanic_bind_iff, Exec.noPanic_mapError_iff,
    and_iff_right (validateRegular_noPanic packName)]
  simp only [Exec.mapError_eq_ok]
  rw [← openPack_noPanic_iff, ← orElse_noPanic_iff openPackLegacy_noPanic]
  have hopened : (PackFile.orElse file.openPack file.openPackLegacy >>= fun opened =>
      .ok (⟨packName.name, opened.2.1, opened.2.2, opened.1⟩ : Pack)).NoPanic ↔
      (PackFile.orElse file.openPack file.openPackLegacy).NoPanic := by
    rw [Exec.noPanic_bind_iff]
    exact and_iff_left fun _ _ => Exec.noPanic_ok _
  rw [← hopened]
  constructor
  · intro h hvalid
    exact h () hvalid
  · intro h _ hvalid
    exact h hvalid

end Opening

section Selections

variable {frames : List PackFrame} {entries : List FileEntry} {pack : Pack}

/-- No addition is too large where entries are extracted; what is asked of the file system is
taken not to panic. -/
structure ExtractsInRange (pack : Pack) (entries : List FileEntry) : Prop where
  plan : entries ≠ [] → (planFrames pack.header.frames entries).NoPanic
  files : ∀ frameToEntries bytes, entries ≠ [] →
    planFrames pack.header.frames entries = .ok (frameToEntries, bytes) →
    ∀ task ∈ frameTasks pack frameToEntries, ∀ (ν σ : Type) (sha1 : List UInt8 → ObjectChecksum)
      (sink : Sink ν σ) (verify : Bool), sink.NoPanic → ∀ s,
        (extractFiles sha1 sink verify task.1 task.2 s).NoPanic

/-- No addition is too large where the objects of entries are read. -/
structure ReadsInRange (pack : Pack) (entries : List FileEntry) : Prop where
  assign : entries ≠ [] → (assignToFrames pack.header.frames entries).NoPanic
  objects : ∀ frameToEntries, entries ≠ [] →
    assignToFrames pack.header.frames entries = .ok frameToEntries →
    ∀ task ∈ frameTasks pack frameToEntries, (readObjects task.1 task.2).NoPanic

/-- How far the entries of a frame reach into it. -/
def stopsIn (frames : List PackFrame) (entries : List FileEntry) (i start : Nat) : List Nat :=
  (inFrame frames entries i).map fun entry => (extentIn start entry).stop

/-- The frames start in 64 bits, their entries end there, and so does all that is
decompressed for them. -/
structure ExtractFits (frames : List PackFrame) (entries : List FileEntry) : Prop where
  starts : ∀ s ∈ decompressedStarts frames, s < 2 ^ 64
  stops : ∀ i start, (decompressedStarts frames)[i]? = some start →
    ∀ stop ∈ stopsIn frames entries i start, stop < 2 ^ 64
  total : (((decompressedStarts frames).mapIdx fun i start =>
    (stopsIn frames entries i start).max?).filterMap id).sum < 2 ^ 64

/-- The frames start in 64 bits, and so do the objects end that are in their streams and
have to be read. -/
structure ReadFits (pack : Pack) (entries : List FileEntry) : Prop where
  starts : ∀ s ∈ decompressedStarts pack.header.frames, s < 2 ^ 64
  objects : ∀ i start reader, (decompressedStarts pack.header.frames)[i]? = some start →
    pack.frameReaders[i]? = some reader →
    ∀ x ∈ readAhead 0 (((sortByOffset (inFrame pack.header.frames entries i)).map
        (extentIn start)).filter fun x => x.size != 0),
      x.stop ≤ reader.length → x.stop < 2 ^ 64

theorem offsets_exist (h : ∀ s ∈ decompressedStarts frames, s < 2 ^ 64) :
    ∃ offsets, frameDecompressedOffsets (ε := Error) 0 frames = .ok offsets := by
  rw [frameDecompressedOffsets_eq]
  refine startsFrom_noError.ok (startsFrom_noPanic_iff.mpr ?_)
  rw [List.map_map]
  exact h

theorem planFrames_noPanic_iff : (planFrames frames entries).NoPanic ↔
    (assignToFrames frames entries).NoPanic ∧ ∀ assigned,
      assignToFrames frames entries = .ok assigned →
        (bytesToDecompress (ε := Error) assigned).NoPanic := by
  rw [planFrames, Exec.noPanic_bind_iff]
  refine and_congr_right fun _ => forall₂_congr fun assigned _ => ?_
  rw [Exec.noPanic_bind_iff]
  exact and_iff_left fun _ _ => Exec.noPanic_ok _

theorem stops_assigned (entries : List FileEntry) {offsets : List UInt64} {i : Nat} {start : UInt64}
    (hoffsets : frameDecompressedOffsets (ε := ε) 0 frames = .ok offsets)
    (hstart : offsets[i]? = some start) :
    stops ((inFrame frames entries i).map (localEntry start)) =
      stopsIn frames entries i start.toNat := by
  have hstops := congrArg (List.map Extent.stop) (extents_local entries hoffsets hstart)
  rw [List.map_map, List.map_map, List.map_map] at hstops
  rw [stops, stopsIn, List.map_map]
  exact hstops

theorem bytesToDecompress_assigned {offsets : List UInt64}
    (hoffsets : frameDecompressedOffsets (ε := Error) 0 frames = .ok offsets) :
    (bytesToDecompress (ε := Error) (assignedTo frames offsets entries)).NoPanic ↔
      (∀ i start, (decompressedStarts frames)[i]? = some start →
        ∀ stop ∈ stopsIn frames entries i start, stop < 2 ^ 64) ∧
      (((decompressedStarts frames).mapIdx fun i start =>
        (stopsIn frames entries i start).max?).filterMap id).sum < 2 ^ 64 := by
  have hvalues := offsets_toNat hoffsets
  have hreaches : reaches (assignedTo frames offsets entries) =
      ((decompressedStarts frames).mapIdx fun i start =>
        (stopsIn frames entries i start).max?).filterMap id := by
    have hmap (groups : List (List FileEntry)) : reaches groups =
        (groups.map fun group => (stops group).max?).filterMap id := by
      rw [List.filterMap_map]
      rfl
    rw [hmap, ← hvalues]
    congr 1
    apply List.ext_getElem?
    intro i
    rw [assignedTo, List.getElem?_map, List.getElem?_mapIdx, List.getElem?_mapIdx, List.getElem?_map]
    cases hstart : offsets[i]? with
    | none => rfl
    | some start => exact congrArg some (congrArg List.max? (stops_assigned entries hoffsets hstart))
  rw [bytesToDecompress_noPanic_iff, hreaches]
  refine and_congr_left fun _ => ?_
  constructor
  · intro h i start hstart
    rw [← hvalues, List.getElem?_map, Option.map_eq_some_iff] at hstart
    obtain ⟨offset, hoffset, rfl⟩ := hstart
    have hgroup : (inFrame frames entries i).map (localEntry offset) ∈
        assignedTo frames offsets entries := by
      refine List.mem_of_getElem? (i := i) ?_
      rw [assignedTo, List.getElem?_mapIdx, hoffset]
      rfl
    have hstops := h _ hgroup
    rw [stops_assigned entries hoffsets hoffset] at hstops
    exact hstops
  · intro h group hgroup
    obtain ⟨i, hi⟩ := List.mem_iff_getElem?.mp hgroup
    rw [assignedTo, List.getElem?_mapIdx, Option.map_eq_some_iff] at hi
    obtain ⟨offset, hoffset, rfl⟩ := hi
    rw [stops_assigned entries hoffsets hoffset]
    refine h i offset.toNat ?_
    rw [← hvalues, List.getElem?_map, hoffset]
    rfl

theorem extracts_in_range_iff : ExtractsInRange pack entries ↔
    (entries ≠ [] → ExtractFits pack.header.frames entries) := by
  constructor
  · intro h hentries
    obtain ⟨hassign, htotal⟩ := planFrames_noPanic_iff.mp (h.plan hentries)
    have hstarts := assignToFrames_noPanic_iff.mp hassign
    by_cases hframes : pack.header.frames = []
    · rw [hframes] at hstarts ⊢
      exact ⟨hstarts, nofun, Nat.two_pow_pos 64⟩
    · obtain ⟨offsets, hoffsets⟩ := offsets_exist hstarts
      rw [assignToFrames_eq hoffsets hframes] at htotal
      obtain ⟨hstops, hsum⟩ := (bytesToDecompress_assigned hoffsets).mp (htotal _ rfl)
      exact ⟨hstarts, hstops, hsum⟩
  · intro h
    have hplan (hentries : entries ≠ []) : (planFrames pack.header.frames entries).NoPanic := by
      have hfits := h hentries
      refine planFrames_noPanic_iff.mpr ⟨assignToFrames_noPanic_iff.mpr hfits.starts, ?_⟩
      intro assigned hassigned
      by_cases hframes : pack.header.frames = []
      · rw [hframes, assignToFrames_none, if_neg hentries] at hassigned
        cases hassigned
      · obtain ⟨offsets, hoffsets⟩ := offsets_exist hfits.starts
        rw [assignToFrames_eq hoffsets hframes] at hassigned
        cases hassigned
        exact (bytesToDecompress_assigned hoffsets).mpr ⟨hfits.stops, hfits.total⟩
    refine ⟨hplan, fun assigned bytes hentries hassigned task htask ν σ sha1 sink verify hsink s => ?_⟩
    obtain ⟨hassign, htotal⟩ := planFrames_noPanic_iff.mp (hplan hentries)
    obtain ⟨assigned', hassigned', hplanned⟩ := Exec.bind_eq_ok.mp hassigned
    obtain ⟨total, -, hplanned⟩ := Exec.bind_eq_ok.mp hplanned
    cases hplanned
    -- All that reaches the workers was added up before, and fits.
    have hstops := (bytesToDecompress_noPanic_iff.mp (htotal _ hassigned')).1
    refine extractFiles_noPanic hsink (hstops task.2 ?_) s
    exact (List.of_mem_zip (List.mem_filter.mp htask).1).2

theorem objectExtents_localized {offsets : List UInt64} {i : Nat} {start : UInt64}
    (hoffsets : frameDecompressedOffsets (ε := ε) 0 frames = .ok offsets)
    (hstart : offsets[i]? = some start) :
    objectExtents (sortByOffset ((inFrame frames entries i).map (localEntry start))) =
      ((sortByOffset (inFrame frames entries i)).map (extentIn start.toNat)).filter
        fun x => x.size != 0 := by
  have hstarts : ∀ e ∈ inFrame frames entries i, start ≤ e.objectMetadata.offset := fun e he =>
    start_le_of_mem hoffsets hstart he
  rw [objectExtents, sortByOffset_localEntry hstarts, List.map_map]
  congr 1
  refine List.map_congr_left fun entry hentry => ?_
  exact extent_localEntry (hstarts entry ((sortByOffset_perm _).mem_iff.mp hentry))

theorem reads_in_range_iff : ReadsInRange pack entries ↔
    (entries ≠ [] → ReadFits pack entries) := by
  constructor
  · intro h hentries
    have hstarts := assignToFrames_noPanic_iff.mp (h.assign hentries)
    refine ⟨hstarts, fun i start reader hstart hreader => ?_⟩
    obtain ⟨offsets, hoffsets⟩ := offsets_exist hstarts
    rw [← offsets_toNat hoffsets, List.getElem?_map, Option.map_eq_some_iff] at hstart
    obtain ⟨offset, hoffset, rfl⟩ := hstart
    rw [← objectExtents_localized hoffsets hoffset]
    by_cases hempty : inFrame pack.header.frames entries i = []
    · rw [hempty]
      exact nofun
    · have hframes : pack.header.frames ≠ [] := by
        intro hnone
        rw [hnone] at hoffsets
        cases hoffsets
        cases hoffset
      refine readObjects_noPanic_iff.mp (h.objects _ hentries
        (assignToFrames_eq hoffsets hframes entries)
        (reader, (inFrame pack.header.frames entries i).map (localEntry offset)) ?_)
      refine List.mem_filter.mpr ⟨List.mem_of_getElem? (i := i) ?_, by simp [hempty]⟩
      rw [List.getElem?_zip_eq_some, assignedTo, List.getElem?_mapIdx, hoffset]
      exact ⟨hreader, rfl⟩
  · intro h
    refine ⟨fun hentries => assignToFrames_noPanic_iff.mpr (h hentries).starts, ?_⟩
    intro assigned hentries hassigned task htask
    have hfits := h hentries
    obtain ⟨offsets, hoffsets⟩ := offsets_exist hfits.starts
    by_cases hframes : pack.header.frames = []
    · rw [hframes, assignToFrames_none, if_neg hentries] at hassigned
      cases hassigned
    · rw [assignToFrames_eq hoffsets hframes] at hassigned
      cases hassigned
      obtain ⟨i, hi⟩ := List.mem_iff_getElem?.mp (List.mem_filter.mp htask).1
      obtain ⟨hreader, hgroup⟩ := List.getElem?_zip_eq_some.mp hi
      rw [assignedTo, List.getElem?_mapIdx, Option.map_eq_some_iff] at hgroup
      obtain ⟨offset, hoffset, hgroup⟩ := hgroup
      rw [readObjects_noPanic_iff, ← hgroup, objectExtents_localized hoffsets hoffset]
      refine hfits.objects i offset.toNat task.1 ?_ hreader
      rw [← offsets_toNat hoffsets, List.getElem?_map, hoffset]
      rfl

theorem min_ne_zero {a b : UInt32} (ha : a ≠ 0) (hb : b ≠ 0) : (min a b).toNat ≠ 0 := by
  have hmin : min a b = if a ≤ b then a else b := rfl
  rw [hmin]
  split
  · exact fun hzero => ha (UInt32.toNat.inj hzero)
  · exact fun hzero => hb (UInt32.toNat.inj hzero)

/-- Apart from the assertions on the numbers of workers and frames, nothing panics then. -/
theorem extractEntries_noPanic {ν σ : Type} {sha1 : List UInt8 → ObjectChecksum} {sink : Sink ν σ}
    {verify : Bool} (h : ExtractsInRange pack entries) (hsink : sink.NoPanic) {numWorkers : UInt32}
    (hworkers : numWorkers ≠ 0) (hframes : UInt32.ofNat pack.header.frames.length ≠ 0) :
    (extractEntries sha1 sink verify pack entries numWorkers).NoPanic ∧
      ∀ outputs, extractEntries sha1 sink verify pack entries numWorkers = .ok outputs →
        ∀ output ∈ outputs, ∀ s, (output s).NoPanic := by
  unfold extractEntries
  split
  · refine ⟨Exec.noPanic_ok _, fun outputs houtputs => ?_⟩
    cases houtputs
    exact nofun
  · rename_i hentries
    have hnone : pack.header.frames.length ≠ 0 := fun hzero => hframes (by rw [hzero]; rfl)
    have hassert : (numWorkers != 0) = true := by simpa using hworkers
    have hassert' : (pack.header.frames.length != 0) = true := by simpa using hnone
    simp only [hassert, hassert', Exec.assert_true, Exec.ok_bind,
      runInParallel_eq (min_ne_zero hworkers hframes)]
    refine ⟨(h.plan hentries).bind fun plan _ => Exec.noPanic_ok _, fun outputs houtputs => ?_⟩
    obtain ⟨⟨assigned, bytes⟩, hplan, houtputs⟩ := Exec.bind_eq_ok.mp houtputs
    cases houtputs
    intro output houtput s
    obtain ⟨task, htask, rfl⟩ := List.mem_map.mp houtput
    exact h.files assigned bytes hentries hplan task htask ν σ sha1 sink verify hsink s

theorem readEntryObjects_noPanic (h : ReadsInRange pack entries) (numWorkers : UInt32)
    (htasks : ∀ assigned, assignToFrames pack.header.frames entries = .ok assigned →
      UInt32.ofNat (frameTasks pack assigned).length ≠ 0) :
    (readEntryObjects pack entries numWorkers).NoPanic ∧
      ∀ outputs, readEntryObjects pack entries numWorkers = .ok outputs →
        ∀ output ∈ outputs, output.NoPanic := by
  have hworkers : max numWorkers 1 ≠ 0 := by
    intro hzero
    have hvalue := congrArg UInt32.toNat hzero
    rw [toNat_max] at hvalue
    simp at hvalue
  unfold readEntryObjects
  split
  · refine ⟨Exec.noPanic_ok _, fun outputs houtputs => ?_⟩
    cases houtputs
    exact nofun
  · rename_i hentries
    have hrun {assigned : List (List FileEntry)}
        (hassigned : assignToFrames pack.header.frames entries = .ok assigned) :=
      runInParallel_eq (ε := Error) (min_ne_zero hworkers (htasks assigned hassigned))
        (frameTasks pack assigned) fun task => readObjects task.1 task.2
    refine ⟨(h.assign hentries).bind fun assigned hassigned => ?_, fun outputs houtputs => ?_⟩
    · rw [hrun hassigned]
      exact Exec.noPanic_ok _
    · obtain ⟨assigned, hassigned, houtputs⟩ := Exec.bind_eq_ok.mp houtputs
      rw [hrun hassigned] at houtputs
      cases houtputs
      intro output houtput
      obtain ⟨task, htask, rfl⟩ := List.mem_map.mp houtput
      exact h.objects assigned hentries hassigned task htask

/-- Opening a pack, extracting entries and reading their objects stay below 2^64 exactly where
the sizes in the header and in the index do. -/
theorem extraction_arithmetic_iff (file : PackFile) (packName : PackId) (pack : Pack)
    (entries : List FileEntry) :
    ((file.open' packName).NoPanic ↔ (packName.validateRegular = .ok () → file.OffsetsFit)) ∧
      (ExtractsInRange pack entries ↔
        (entries ≠ [] → ExtractFits pack.header.frames entries)) ∧
      (ReadsInRange pack entries ↔ (entries ≠ [] → ReadFits pack entries)) :=
  ⟨open_noPanic_iff packName, extracts_in_range_iff, reads_in_range_iff⟩

end Selections

namespace SentinelSample

open PackIndex

/-- An object of one byte that has the offset of a loose object. -/
def entry : FileEntry := ⟨.a, .zero, ⟨looseObjectOffset, 1⟩, .regular 420⟩

def index : PackIndex :=
  match pushAll .new [⟨.insertion, "t", [entry]⟩] with
  | .ok index => index
  | .error _ => .new

/-- A file that does not begin with a skippable frame. -/
def file : PackFile := ⟨.ok [0x28, 0xB5, 0x2F, 0xFD], fun _ => none, fun _ => .ok []⟩

def pack : Pack := ⟨"p", PackFile.legacyHeader 4, [[]], 4⟩

theorem writable : index.Writable where
  tags := ⟨by decide, by decide⟩
  deltas := by decide
  added := by decide
  removed := by decide
  paths := by decide
  pathBytes := by decide
  objects := by decide
  metadata := by decide

theorem opened : file.open' ⟨"p"⟩ = .ok pack := rfl

end SentinelSample

/-- The end of an object of a legacy pack is past 2^64, and nothing reports that. -/
theorem extraction_overflows : ¬ ∀ (rmp : Rmp) (bytes : List UInt8) (index : PackIndex)
    (handles : List FileHandle) (entries : List FileEntry) (file : PackFile) (packName : PackId)
    (pack : Pack), PackIndex.parse rmp bytes = .ok index →
      index.entriesFromHandles handles = .ok entries → file.open' packName = .ok pack →
      ExtractsInRange pack entries := by
  intro h
  have hsafe := h _ _ _ [⟨0, 0, .regular 420⟩] [SentinelSample.entry] SentinelSample.file ⟨"p"⟩
    SentinelSample.pack (PackIndex.roundTrips_of_writable messagePack_readBack
      SentinelSample.writable).parse_serialize rfl SentinelSample.opened
  exact hsafe.plan (List.cons_ne_nil _ _) rfl

end Elfshaker.Packs
