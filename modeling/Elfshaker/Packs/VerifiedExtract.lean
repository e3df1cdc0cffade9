import Elfshaker.Packs.RoundTrip

namespace Elfshaker.Packs

open Elfshaker.Library Elfshaker.Format Elfshaker.Store

variable {ν σ : Type}

/-- A file system that remembers the regular files it is given. -/
def Sink.recording (sink : Sink ν σ) : Sink ν (σ × List (ν × List UInt8)) where
  toNative := sink.toNative
  materializeRegular := fun bytes path mode s => do
    let next ← sink.materializeRegular bytes path mode s.1
    .ok (next, s.2 ++ [(path, bytes)])
  materialize := fun logical bytes targetEncoding targetKind path s => do
    let next ← sink.materialize logical bytes targetEncoding targetKind path s.1
    .ok (next, s.2)
  verifyMaterialized := fun logical path targetEncoding targetKind checksum s =>
    sink.verifyMaterialized logical path targetEncoding targetKind checksum s.1

/-- The entries that are not read, each with the one that was read last before it. -/
def passedOver : FileEntry → List FileEntry → List (FileEntry × FileEntry)
  | _, [] => []
  | last, entry :: entries =>
    if last.objectMetadata.offset + last.objectMetadata.size ≤ entry.objectMetadata.offset then
      passedOver entry entries
    else (last, entry) :: passedOver last entries

/-- The entries of an extraction that are not read. -/
def skipped (entries : List FileEntry) : List (FileEntry × FileEntry) :=
  match sortByOffset entries with
  | [] => []
  | first :: rest => passedOver first rest

section Verified

variable (sha1 : List UInt8 → ObjectChecksum) (sink : Sink ν σ)

/-- A regular entry that is not read has the checksum of the object in the buffer, or
that of an empty file. -/
def Covered (pair : FileEntry × FileEntry) : Prop :=
  pair.2.metadata.isSymlink = false →
    pair.2.checksum = if pair.2.objectMetadata.size = 0 then sha1 [] else pair.1.checksum

/-- The regular files that were written are those of the entries, with the bytes of
their checksums. -/
def WrittenAs (entries : List FileEntry) (written : List (ν × List UInt8)) : Prop :=
  List.Forall₂ (fun entry file => sink.toNative entry.path = .ok file.1 ∧
      sha1 file.2 = entry.checksum)
    (entries.filter fun entry => !entry.metadata.isSymlink) written

end Verified

section Recording

variable {sha1 : List UInt8 → ObjectChecksum} {sink : Sink ν σ} {verify : Bool}
  {reader buf : List UInt8} {pos : UInt64} {entries : List FileEntry} {entry : FileEntry}
  {s s' : σ} {log log' : List (ν × List UInt8)}

theorem nativePath_recording (path : PackPath) :
    nativePath sink.recording path = nativePath sink path :=
  rfl

/-- The bytes a regular entry is written with. -/
def fileBytes (entry : FileEntry) (buf : List UInt8) : List UInt8 :=
  if entry.objectMetadata.size = 0 then [] else buf

/-- The recording of one entry. -/
def recordOf (entry : FileEntry) (path : ν) (buf : List UInt8) : List (ν × List UInt8) :=
  if entry.metadata.isSymlink then [] else [(path, fileBytes entry buf)]

theorem nativePath_eq_ok {path : PackPath} {native : ν} :
    nativePath sink path = .ok native ↔ sink.toNative path = .ok native :=
  Exec.mapError_eq_ok

theorem writeEntry_recording : writeEntry sink.recording verify entry buf (s, log) =
    (writeEntry sink verify entry buf s >>= fun next => nativePath sink entry.path >>= fun path =>
      .ok (next, log ++ recordOf entry path buf)) := by
  unfold writeEntry
  rw [nativePath_recording]
  cases hpath : nativePath sink entry.path with
  | error e => rfl
  | ok path =>
    simp only [Exec.ok_bind]
    cases hmeta : entry.metadata with
    | regular mode =>
      have hrecord : recordOf entry path buf = [(path, fileBytes entry buf)] := by
        simp [recordOf, hmeta, EntryMetadata.isSymlink]
      rw [hrecord]
      unfold fileBytes
      split_ifs <;> rfl
    | symlink targetEncoding targetKind =>
      have hrecord : recordOf entry path buf = [] := by
        simp [recordOf, hmeta, EntryMetadata.isSymlink]
      rw [hrecord, List.append_nil]
      simp only [Sink.recording]
      cases sink.materialize entry.path buf targetEncoding targetKind path s with
      | error e => rfl
      | ok next =>
        simp only [Exec.ok_bind]
        cases verify with
        | false => rfl
        | true =>
          cases hverified : sink.verifyMaterialized entry.path path targetEncoding targetKind
              entry.checksum next with
          | error e => simp [Exec.error_bind]
          | ok _ => simp [Exec.ok_bind]

theorem writeEntry_recorded (h : writeEntry sink verify entry buf s = .ok s') :
    ∃ path, sink.toNative entry.path = .ok path ∧
      ∀ log, writeEntry sink.recording verify entry buf (s, log) =
        .ok (s', log ++ recordOf entry path buf) := by
  obtain ⟨path, hpath, -⟩ := Exec.bind_eq_ok.mp h
  refine ⟨path, nativePath_eq_ok.mp hpath, fun log => ?_⟩
  rw [writeEntry_recording, h, Exec.ok_bind, hpath, Exec.ok_bind]

/-- One more entry is written as it should be exactly when its own bytes are right. -/
theorem writtenAs_cons {path : ν} {written : List (ν × List UInt8)}
    (hpath : sink.toNative entry.path = .ok path) :
    WrittenAs sha1 sink (entry :: entries) (recordOf entry path buf ++ written) ↔
      (entry.metadata.isSymlink = false → sha1 (fileBytes entry buf) = entry.checksum) ∧
        WrittenAs sha1 sink entries written := by
  cases hlink : entry.metadata.isSymlink with
  | true => simp [WrittenAs, recordOf, hlink]
  | false => simp [WrittenAs, recordOf, hlink, hpath]

theorem readExact_eq_ok {size : UInt64} {taken rest : List UInt8}
    (h : readExact reader size = .ok (taken, rest)) : taken.length = size.toNat := by
  unfold readExact at h
  split_ifs at h with hshort
  · cases h
  · cases h
    rw [List.length_take]
    omega

/-- What is read and checked is written with the bytes of its checksum. -/
theorem fileBytes_of_read {size : UInt64} {rest : List UInt8}
    (hsize : entry.objectMetadata.size = size) (hread : readExact reader size = .ok (buf, rest)) :
    fileBytes entry buf = buf := by
  unfold fileBytes
  split_ifs with hzero
  · have hlength := readExact_eq_ok hread
    rw [← hsize, hzero] at hlength
    exact (List.length_eq_zero_iff.mp hlength).symm
  · rfl

theorem checkObject_eq_ok {expected : ObjectChecksum}
    (h : checkObject sha1 true buf expected = .ok ()) : sha1 buf = expected := by
  rw [checkObject, if_pos rfl, verifyObject] at h
  split_ifs at h with heq
  · exact heq
  · cases h

/-- The buffer holds the object that was read last, checked against its checksum. -/
theorem extractFilesFrom_recorded {last : FileEntry} (hbuf : sha1 buf = last.checksum)
    (hpos : pos = last.objectMetadata.offset + last.objectMetadata.size)
    (h : extractFilesFrom sha1 sink true reader buf pos entries s = .ok s')
    (log : List (ν × List UInt8)) :
    ∃ written, extractFilesFrom sha1 sink.recording true reader buf pos entries (s, log) =
        .ok (s', log ++ written) ∧
      (WrittenAs sha1 sink entries written ↔ ∀ pair ∈ passedOver last entries, Covered sha1 pair) := by
  induction entries generalizing reader buf pos last s log with
  | nil =>
    cases h
    refine ⟨[], by rw [List.append_nil]; rfl, ?_⟩
    simp [WrittenAs, passedOver]
  | cons entry entries ih =>
    rw [extractFilesFrom] at h ⊢
    rw [passedOver, ← hpos]
    split_ifs at h ⊢ with hahead
    · obtain ⟨⟨taken, rest⟩, hread, h⟩ := Exec.bind_eq_ok.mp h
      obtain ⟨next, hnext, h⟩ := Exec.bind_eq_ok.mp h
      obtain ⟨⟨⟩, hcheck, h⟩ := Exec.bind_eq_ok.mp h
      obtain ⟨mid, hwrite, h⟩ := Exec.bind_eq_ok.mp h
      have hsum := checkObject_eq_ok hcheck
      have hstop : next = entry.objectMetadata.offset + entry.objectMetadata.size := by
        apply UInt64.toNat.inj
        rw [Exec.checkedAdd_eq_ok] at hnext
        have hlt := next.toNat_lt
        rw [UInt64.toNat_add, ← hnext, Nat.mod_eq_of_lt hlt]
      obtain ⟨path, hpath, hrecord⟩ := writeEntry_recorded hwrite
      obtain ⟨written, hrun, hiff⟩ := ih hsum hstop h (log ++ recordOf entry path taken)
      refine ⟨recordOf entry path taken ++ written, ?_, ?_⟩
      · simp only [hread, Exec.ok_bind, hnext, hcheck, hrecord, hrun, List.append_assoc]
      · rw [writtenAs_cons hpath, hiff, fileBytes_of_read rfl hread]
        exact and_iff_right fun _ => hsum
    · obtain ⟨mid, hwrite, h⟩ := Exec.bind_eq_ok.mp h
      obtain ⟨path, hpath, hrecord⟩ := writeEntry_recorded hwrite
      obtain ⟨written, hrun, hiff⟩ := ih hbuf hpos h (log ++ recordOf entry path buf)
      refine ⟨recordOf entry path buf ++ written, ?_, ?_⟩
      · simp only [Exec.ok_bind, hrecord, hrun, List.append_assoc]
      · rw [writtenAs_cons hpath, hiff, List.forall_mem_cons]
        have hcovered : Covered sha1 (last, entry) ↔
            (entry.metadata.isSymlink = false → sha1 (fileBytes entry buf) = entry.checksum) := by
          unfold Covered fileBytes
          rw [← hbuf]
          split_ifs with hzero
          · exact imp_congr_right fun _ => eq_comm
          · exact imp_congr_right fun _ => eq_comm
        rw [hcovered]

end Recording

section Soundness

variable {sha1 : List UInt8 → ObjectChecksum} {sink : Sink ν σ} {stream : List UInt8}
  {entries : List FileEntry} {s s' : σ}

/-- An entry for an empty object at the start of the stream. -/
def emptyEntry (sha1 : List UInt8 → ObjectChecksum) (entry : FileEntry) : FileEntry :=
  { entry with checksum := sha1 [], objectMetadata := ⟨0, 0⟩ }

/-- When a checked extraction succeeds, every regular entry was written with bytes of
its checksum exactly when each entry that was not read is covered by the object read
last. -/
theorem verified_extraction_sound_iff
    (h : extractFiles sha1 sink true stream entries s = .ok s') :
    ∃ written, extractFiles sha1 sink.recording true stream entries (s, []) = .ok (s', written) ∧
      (WrittenAs sha1 sink (sortByOffset entries) written ↔
        ∀ pair ∈ skipped entries, Covered sha1 pair) := by
  unfold extractFiles at h ⊢
  unfold skipped
  cases hsorted : sortByOffset entries with
  | nil =>
    rw [hsorted] at h
    cases h
    exact ⟨[], rfl, by simp [WrittenAs]⟩
  | cons first rest =>
    -- the empty buffer at the start is as good as an empty object that has been read
    have hskipped : passedOver (emptyEntry sha1 first) (first :: rest) = passedOver first rest := by
      rw [passedOver]
      exact if_pos UInt64.zero_le
    have hbuf : sha1 [] = (emptyEntry sha1 first).checksum := rfl
    rw [hsorted] at h
    dsimp only
    rw [← hskipped]
    exact extractFilesFrom_recorded hbuf rfl h []

end Soundness

namespace OverlapSample

/-- Files as a list with the latest first. -/
def sink : Sink PackPath (List (PackPath × List UInt8)) where
  toNative := .ok
  materializeRegular := fun bytes path _ files => .ok ((path, bytes) :: files)
  materialize := fun _ bytes _ _ path files => .ok ((path, bytes) :: files)
  verifyMaterialized := fun _ _ _ _ _ _ => .ok ()

def stream : List UInt8 := [97, 98, 99]

/-- Two entries at one place, the second one under a checksum of its own. -/
def entries (checksum other : ObjectChecksum) : List FileEntry :=
  [⟨.a, checksum, ⟨0, 3⟩, .regular 420⟩, ⟨.b, other, ⟨0, 3⟩, .regular 420⟩]

theorem extracts (sha1 : List UInt8 → ObjectChecksum) (other : ObjectChecksum) :
    extractFiles sha1 sink.recording true stream (entries (sha1 stream) other) ([], []) =
      .ok ([(.b, stream), (.a, stream)],
        [(.a, stream), (.b, stream)]) := by
  have hsort : sortByOffset (entries (sha1 stream) other) = entries (sha1 stream) other := rfl
  have hread : readExact (seek stream (0 - 0)) 3 = .ok (stream, []) := rfl
  have hcheck : checkObject sha1 true stream (sha1 stream) = .ok () := by
    simp [checkObject, verifyObject]
  rw [extractFiles, hsort, entries, extractFilesFrom, if_pos UInt64.zero_le]
  dsimp only
  rw [hread, Exec.ok_bind]
  dsimp only
  have hadd : Exec.checkedAdd (ε := Error) 0 3 = .ok 3 := rfl
  rw [hadd, Exec.ok_bind, hcheck, Exec.ok_bind]
  rfl

/-- The same object under its own checksum, and an empty file inside of it. -/
def honest : List FileEntry :=
  entries PackSample.abc PackSample.abc ++
    [⟨.c, PackSample.nothing, ⟨1, 0⟩, .regular 420⟩]

end OverlapSample

theorem verified_extraction_sound_shared : ∃ files written,
    extractFiles PackSample.sha1 OverlapSample.sink.recording true OverlapSample.stream
      OverlapSample.honest ([], []) = .ok (files, written) ∧
      WrittenAs PackSample.sha1 OverlapSample.sink (sortByOffset OverlapSample.honest) written := by
  obtain ⟨files, hfiles⟩ : ∃ files, extractFiles PackSample.sha1 OverlapSample.sink true
      OverlapSample.stream OverlapSample.honest [] = .ok files := ⟨_, rfl⟩
  obtain ⟨written, hrun, hiff⟩ := verified_extraction_sound_iff hfiles
  refine ⟨files, written, hrun, hiff.mpr ?_⟩
  have hskipped : skipped OverlapSample.honest =
      [(OverlapSample.honest[0], OverlapSample.honest[1]),
        (OverlapSample.honest[0], OverlapSample.honest[2])] := rfl
  rw [hskipped]
  intro pair hpair
  simp only [List.mem_cons, List.not_mem_nil, or_false] at hpair
  rcases hpair with rfl | rfl
  · exact fun _ => rfl
  · exact fun _ => rfl

/-- An object under a second checksum is written without a check, whatever the hash. -/
theorem verified_extraction_unsound : ¬ ∃ sha1 : List UInt8 → ObjectChecksum,
    ∀ (stream : List UInt8) (entries : List FileEntry)
      (files files' written : List (PackPath × List UInt8)),
      extractFiles sha1 OverlapSample.sink.recording true stream entries (files, []) =
          .ok (files', written) →
        WrittenAs sha1 OverlapSample.sink (sortByOffset entries) written := by
  rintro ⟨sha1, h⟩
  obtain ⟨other, hother⟩ : ∃ other, sha1 OverlapSample.stream ≠ other := by
    by_cases hzero : sha1 OverlapSample.stream = .zero
    · exact ⟨PackSample.abc, hzero ▸ by decide⟩
    · exact ⟨.zero, hzero⟩
  have hwritten := h _ _ _ _ _ (OverlapSample.extracts sha1 other)
  cases hwritten with
  | cons _ hrest =>
    cases hrest with
    | cons hsecond _ => exact hother hsecond.2

end Elfshaker.Packs
