import Elfshaker.Library.Offsets
import Elfshaker.Packs.CreatePack
import Elfshaker.Store.DataDir

namespace Elfshaker.Packs

open Elfshaker.Library Elfshaker.Format Elfshaker.Store

section Frames

/-- Where each frame starts in the decompressed stream. -/
def frameDecompressedOffsets : UInt64 → List PackFrame → Exec ε (List UInt64)
  | _, [] => .ok []
  | offset, [_] => .ok [offset]
  | offset, frame :: next :: rest => do
    let nextOffset ← Exec.checkedAdd frame.decompressedSize offset
    let offsets ← frameDecompressedOffsets nextOffset (next :: rest)
    .ok (offset :: offsets)

/-- `Iterator::rposition`. -/
def rposition (p : α → Bool) : List α → Option Nat
  | [] => none
  | x :: xs =>
    match rposition p xs with
    | some i => some (i + 1)
    | none => if p x then some 0 else none

/-- The entry with its offset counted from the start of its frame. -/
def localEntry (start : UInt64) (entry : FileEntry) : FileEntry :=
  { entry with objectMetadata :=
      ⟨entry.objectMetadata.offset - start, entry.objectMetadata.size⟩ }

def assignEntries (offsets : List UInt64) : List (List FileEntry) → List FileEntry →
    Exec Error (List (List FileEntry))
  | assigned, [] => .ok assigned
  | assigned, entry :: rest => do
    let frameIndex ← Exec.okOr .corruptPack
      (rposition (fun x => decide (x ≤ entry.objectMetadata.offset)) offsets)
    let start ← Exec.unwrap offsets[frameIndex]?
    assignEntries offsets (assigned.modify frameIndex (· ++ [localEntry start entry])) rest

/-- The entries by the frame in which their objects start. -/
def assignToFrames (frames : List PackFrame) (entries : List FileEntry) :
    Exec Error (List (List FileEntry)) := do
  let offsets ← frameDecompressedOffsets 0 frames
  assignEntries offsets (frames.map fun _ => []) entries

/-- How far the entries of one frame reach into it, where there are any. -/
def maxExtent (entries : List FileEntry) : Exec ε (Option UInt64) := do
  let ends ← entries.mapM fun entry =>
    Exec.checkedAdd entry.objectMetadata.offset entry.objectMetadata.size
  .ok ends.max?

/-- The amount of decompression that is needed; the frames of the entries are read up to
where they reach. -/
def bytesToDecompress (assigned : List (List FileEntry)) : Exec ε UInt64 := do
  let extents ← assigned.mapM maxExtent
  Exec.checkedSum 0 (extents.filterMap id)

/-- One reader for each frame; it goes on with the frames behind. -/
def frameReaders (zstd : Zstd) : List (List UInt8) → List (List UInt8)
  | [] => []
  | frame :: rest => zstd.decompress (frame :: rest).flatten :: frameReaders zstd rest

end Frames

section Reading

/-- Consumes bytes from a reader, or all there are. -/
def seek (reader : List UInt8) (bytes : UInt64) : List UInt8 := reader.drop bytes.toNat

def readExact (reader : List UInt8) (size : UInt64) : Exec Error (List UInt8 × List UInt8) :=
  if reader.length < size.toNat then Exec.fail (.ioError .unexpectedEof)
  else .ok (reader.take size.toNat, reader.drop size.toNat)

def sortByOffset (entries : List FileEntry) : List FileEntry :=
  entries.insertionSort fun x y => x.objectMetadata.offset ≤ y.objectMetadata.offset

/-- Reads forward from `pos`; `buf` is the object that was read last. -/
def readObjectsFrom (reader buf : List UInt8) (pos : UInt64) :
    List FileEntry → Exec Error (List (FileEntry × List UInt8))
  | [] => .ok []
  | entry :: entries =>
    let metadata := entry.objectMetadata
    if metadata.size = 0 then do
      let objects ← readObjectsFrom reader buf pos entries
      .ok ((entry, []) :: objects)
    else if pos ≤ metadata.offset then do
      let (buf, reader) ← readExact (seek reader (metadata.offset - pos)) metadata.size
      let pos ← Exec.checkedAdd metadata.offset metadata.size
      let objects ← readObjectsFrom reader buf pos entries
      .ok ((entry, buf) :: objects)
    else do
      let objects ← readObjectsFrom reader buf pos entries
      .ok ((entry, buf) :: objects)

def readObjects (reader : List UInt8) (entries : List FileEntry) :
    Exec Error (List (FileEntry × List UInt8)) :=
  readObjectsFrom reader [] 0 (sortByOffset entries)

/-- Every frame that has entries is read on its own. -/
def readFrames (readers : List (List UInt8)) (assigned : List (List FileEntry)) :
    Exec Error (List (List (FileEntry × List UInt8))) :=
  ((readers.zip assigned).filter fun task => !task.2.isEmpty).mapM fun task =>
    readObjects task.1 task.2

/-- The file system that extracted files go to: its native paths `ν` and states `σ`. -/
structure Sink (ν σ : Type) where
  toNative : PackPath → Exec PackPathError ν
  materializeRegular : List UInt8 → ν → UInt32 → σ → Exec Error σ
  materialize : PackPath → List UInt8 → SymlinkTargetEncoding → SymlinkTargetKind → ν → σ →
    Exec Error σ
  verifyMaterialized : PackPath → ν → SymlinkTargetEncoding → SymlinkTargetKind →
    ObjectChecksum → σ → Exec Error Unit

variable {ν σ : Type} (sha1 : List UInt8 → ObjectChecksum) (sink : Sink ν σ) (verify : Bool)

def verifyObject (buf : List UInt8) (expected : ObjectChecksum) : Exec Error Unit :=
  if sha1 buf = expected then .ok ()
  else Exec.fail (.packError (.checksumMismatch expected (sha1 buf)))

def checkObject (buf : List UInt8) (expected : ObjectChecksum) : Exec Error Unit :=
  if verify then verifyObject sha1 buf expected else .ok ()

def nativePath (path : PackPath) : Exec Error ν :=
  (sink.toNative path).mapError fun e => .packError (.pathNotRepresentable path e)

/-- Writes one entry from the buffer; an empty file is not taken from it. -/
def writeEntry (entry : FileEntry) (buf : List UInt8) (s : σ) : Exec Error σ := do
  let path ← nativePath sink entry.path
  match entry.metadata with
  | .regular mode =>
    if entry.objectMetadata.size = 0 then sink.materializeRegular [] path mode s
    else sink.materializeRegular buf path mode s
  | .symlink targetEncoding targetKind =>
    let s ← sink.materialize entry.path buf targetEncoding targetKind path s
    if verify then
      sink.verifyMaterialized entry.path path targetEncoding targetKind entry.checksum s
    .ok s

def extractFilesFrom (reader buf : List UInt8) (pos : UInt64) :
    List FileEntry → σ → Exec Error σ
  | [], s => .ok s
  | entry :: entries, s =>
    let metadata := entry.objectMetadata
    if pos ≤ metadata.offset then do
      let (buf, reader) ← readExact (seek reader (metadata.offset - pos)) metadata.size
      let pos ← Exec.checkedAdd metadata.offset metadata.size
      checkObject sha1 verify buf entry.checksum
      let s ← writeEntry sink verify entry buf s
      extractFilesFrom reader buf pos entries s
    else do
      let s ← writeEntry sink verify entry buf s
      extractFilesFrom reader buf pos entries s

def extractFiles (reader : List UInt8) (entries : List FileEntry) (s : σ) : Exec Error σ :=
  extractFilesFrom sha1 sink verify reader [] 0 (sortByOffset entries) s

/-- Gives one entry these bytes. -/
def deliver (entry : FileEntry) (bytes : List UInt8) (s : σ) : Exec Error σ := do
  let path ← nativePath sink entry.path
  match entry.metadata with
  | .regular mode => sink.materializeRegular bytes path mode s
  | .symlink targetEncoding targetKind =>
    let s ← sink.materialize entry.path bytes targetEncoding targetKind path s
    if verify then
      sink.verifyMaterialized entry.path path targetEncoding targetKind entry.checksum s
    .ok s

/-- Gives every entry, one by one, the bytes that belong to its checksum. -/
def deliverAll (content : ObjectChecksum → List UInt8) : List FileEntry → σ → Exec Error σ
  | [], s => .ok s
  | entry :: entries, s => do
    let s ← deliver sink verify entry (content entry.checksum) s
    deliverAll content entries s

end Reading

/-- The bytes of a stream at the place of an entry's object. -/
def bytesIn (stream : List UInt8) (entry : FileEntry) : List UInt8 :=
  (extent entry.objectMetadata).slice stream

/-- Entries whose objects lie in a stream, and overlap only where they are the same. -/
structure Sliced (stream : List UInt8) (entries : List FileEntry) : Prop where
  within : ∀ e ∈ entries, (extent e.objectMetadata).Within stream
  clear : ∀ e ∈ entries, ∀ d ∈ entries,
    (extent e.objectMetadata).Clear (extent d.objectMetadata)
  fits : ∀ e ∈ entries, (extent e.objectMetadata).stop < 2 ^ 64

/-- Entries whose objects all lie in a stream, each at its own place. -/
structure Readable (stream : List UInt8) (content : ObjectChecksum → List UInt8)
    (entries : List FileEntry) : Prop where
  within : ∀ e ∈ entries, (extent e.objectMetadata).Within stream
  slice : ∀ e ∈ entries, (extent e.objectMetadata).slice stream = content e.checksum
  apart : ∀ e ∈ entries, ∀ d ∈ entries,
    (extent e.objectMetadata).Apart (extent d.objectMetadata)
  fits : ∀ e ∈ entries, (extent e.objectMetadata).stop < 2 ^ 64

theorem bytesIn_of_empty {stream : List UInt8} {entry : FileEntry}
    (hsize : entry.objectMetadata.size = 0) : bytesIn stream entry = [] := by
  apply Extent.slice_of_size_zero
  simp [extent, hsize]

namespace Sliced

variable {stream : List UInt8} {entries : List FileEntry} {entry : FileEntry}

theorem tail (h : Sliced stream (entry :: entries)) : Sliced stream entries :=
  ⟨fun e he => h.within e (List.mem_cons_of_mem _ he),
    fun e he d hd => h.clear e (List.mem_cons_of_mem _ he) d (List.mem_cons_of_mem _ hd),
    fun e he => h.fits e (List.mem_cons_of_mem _ he)⟩

theorem perm {other : List FileEntry} (h : Sliced stream entries) (hperm : other.Perm entries) :
    Sliced stream other :=
  ⟨fun e he => h.within e (hperm.mem_iff.mp he),
    fun e he d hd => h.clear e (hperm.mem_iff.mp he) d (hperm.mem_iff.mp hd),
    fun e he => h.fits e (hperm.mem_iff.mp he)⟩

end Sliced

theorem Readable.sliced {stream : List UInt8} {content : ObjectChecksum → List UInt8}
    {entries : List FileEntry} (h : Readable stream content entries) : Sliced stream entries :=
  ⟨h.within, fun e he d hd => (h.apart e he d hd).clear, h.fits⟩

section Forward

variable {stream buf reader : List UInt8} {content : ObjectChecksum → List UInt8}
  {entries : List FileEntry} {entry : FileEntry} {pos : UInt64}

/-- The reader ahead of some entries. -/
abbrev AheadOf (stream : List UInt8) (entries : List FileEntry) (pos : UInt64)
    (buf reader : List UInt8) : Prop :=
  Ahead stream (entries.map fun e => extent e.objectMetadata) pos.toNat buf reader

/-- Where the reader has not passed an object, it reads it and stops behind it. -/
theorem read_next (sliced : Sliced stream (entry :: entries))
    (sorted : ∀ d ∈ entries, entry.objectMetadata.offset ≤ d.objectMetadata.offset)
    (ahead : AheadOf stream (entry :: entries) pos buf reader)
    (hpos : pos ≤ entry.objectMetadata.offset) :
    ∃ rest next, readExact (seek reader (entry.objectMetadata.offset - pos))
        entry.objectMetadata.size = .ok (bytesIn stream entry, rest) ∧
      Exec.checkedAdd (ε := Error) entry.objectMetadata.offset entry.objectMetadata.size =
        .ok next ∧
      AheadOf stream entries next (bytesIn stream entry) rest := by
  have hle : pos.toNat ≤ (extent entry.objectMetadata).offset := UInt64.le_iff_toNat_le.mp hpos
  have hseek : seek reader (entry.objectMetadata.offset - pos) =
      reader.drop ((extent entry.objectMetadata).offset - pos.toNat) := by
    rw [seek, UInt64.toNat_sub_of_le _ _ hpos]
    rfl
  have henough : entry.objectMetadata.size.toNat ≤
      (reader.drop ((extent entry.objectMetadata).offset - pos.toNat)).length :=
    ahead.read_enough hle (sliced.within entry List.mem_cons_self)
  have hstop : (extent entry.objectMetadata).stop < 2 ^ 64 :=
    sliced.fits entry List.mem_cons_self
  obtain ⟨next, hnext⟩ : ∃ next : UInt64, next.toNat = (extent entry.objectMetadata).stop :=
    ⟨UInt64.ofNat _, UInt64.toNat_ofNat_of_lt' hstop⟩
  refine ⟨(reader.drop ((extent entry.objectMetadata).offset - pos.toNat)).drop
    entry.objectMetadata.size.toNat, next, ?_, ?_, ?_⟩
  · have hread : (reader.drop ((extent entry.objectMetadata).offset - pos.toNat)).take
        entry.objectMetadata.size.toNat = bytesIn stream entry := ahead.read_eq hle
    rw [readExact, hseek, if_neg (Nat.not_lt.mpr henough), hread]
  · exact Exec.checkedAdd_eq_ok.mpr hnext
  · have hsorted : ∀ d ∈ entries.map (fun e => extent e.objectMetadata),
        (extent entry.objectMetadata).offset ≤ d.offset := by
      intro d hd
      obtain ⟨e, he, rfl⟩ := List.mem_map.mp hd
      exact UInt64.le_iff_toNat_le.mp (sorted e he)
    have hclear : ∀ d ∈ entries.map (fun e => extent e.objectMetadata),
        (extent entry.objectMetadata).Clear d := by
      intro d hd
      obtain ⟨e, he, rfl⟩ := List.mem_map.mp hd
      exact sliced.clear entry List.mem_cons_self e (List.mem_cons_of_mem _ he)
    have hread := ahead.read hle hsorted hclear
    rw [← hnext] at hread
    exact hread

/-- Where the reader has passed an object, the buffer holds it. -/
theorem read_kept (ahead : AheadOf stream (entry :: entries) pos buf reader)
    (hpos : ¬ pos ≤ entry.objectMetadata.offset) (hsize : entry.objectMetadata.size ≠ 0) :
    buf = bytesIn stream entry := by
  have hnot : ¬ pos.toNat ≤ (extent entry.objectMetadata).offset := fun hle =>
    hpos (UInt64.le_iff_toNat_le.mpr hle)
  have hne : (extent entry.objectMetadata).size ≠ 0 := fun hzero =>
    hsize (UInt64.toNat.inj hzero)
  exact (ahead.kept hnot hne).symm

theorem readObjectsFrom_ok (sliced : Sliced stream entries)
    (sorted : entries.Pairwise fun x y => x.objectMetadata.offset ≤ y.objectMetadata.offset)
    (ahead : AheadOf stream entries pos buf reader) :
    readObjectsFrom reader buf pos entries =
      .ok (entries.map fun e => (e, bytesIn stream e)) := by
  induction entries generalizing reader buf pos with
  | nil => rfl
  | cons entry entries ih =>
    obtain ⟨hfirst, hsorted⟩ := List.pairwise_cons.mp sorted
    rw [readObjectsFrom]
    split
    · rename_i hsize
      rw [ih sliced.tail hsorted ahead.skip, List.map_cons, bytesIn_of_empty hsize]
      rfl
    · rename_i hsize
      split
      · rename_i hpos
        obtain ⟨rest, next, hread, hnext, hahead⟩ := read_next sliced hfirst ahead hpos
        rw [hread, Exec.ok_bind]
        dsimp only
        rw [hnext, Exec.ok_bind, ih sliced.tail hsorted hahead]
        rfl
      · rename_i hpos
        rw [ih sliced.tail hsorted ahead.skip, read_kept ahead hpos hsize]
        rfl

theorem flatten_modify {xss : List (List α)} {k : Nat} (h : k < xss.length) (x : α) :
    (xss.modify k (· ++ [x])).flatten.Perm (x :: xss.flatten) := by
  induction xss generalizing k with
  | nil => simp at h
  | cons xs xss ih =>
    cases k with
    | zero =>
      simp only [List.modify_zero_cons, List.flatten_cons]
      rw [List.append_assoc]
      exact List.perm_middle
    | succ k =>
      simp only [List.modify_succ_cons, List.flatten_cons]
      have hrest := ih (Nat.lt_of_succ_lt_succ h)
      exact (hrest.append_left xs).trans List.perm_middle

theorem frameDecompressedOffsets_length {ε : Type} {frames : List PackFrame} {offset : UInt64}
    {offsets : List UInt64} (h : frameDecompressedOffsets (ε := ε) offset frames = .ok offsets) :
    offsets.length = frames.length := by
  induction offset, frames using frameDecompressedOffsets.induct generalizing offsets with
  | case1 offset =>
    cases h
    rfl
  | case2 offset frame =>
    cases h
    rfl
  | case3 offset frame next rest ih =>
    obtain ⟨nextOffset, -, h⟩ := Exec.bind_eq_ok.mp h
    obtain ⟨later, hlater, h⟩ := Exec.bind_eq_ok.mp h
    cases h
    simp [ih nextOffset hlater]

/-- Each entry is assigned to one frame, under its own path. -/
theorem assignEntries_paths {offsets : List UInt64} {assigned : List (List FileEntry)}
    {entries : List FileEntry} {out : List (List FileEntry)}
    (hlength : offsets.length = assigned.length)
    (h : assignEntries offsets assigned entries = .ok out) : out.length = assigned.length ∧
      (out.flatten.map FileEntry.path).Perm
        ((assigned.flatten ++ entries).map FileEntry.path) := by
  induction entries generalizing assigned with
  | nil =>
    cases h
    simp
  | cons entry rest ih =>
    obtain ⟨i, -, h⟩ := Exec.bind_eq_ok.mp h
    obtain ⟨start, hstart, h⟩ := Exec.bind_eq_ok.mp h
    have hi : i < assigned.length := by
      rw [← hlength]
      exact (List.getElem?_eq_some_iff.mp (Exec.unwrap_eq_ok.mp hstart)).1
    have hflatten := flatten_modify hi (localEntry start entry)
    obtain ⟨hout, hperm⟩ := ih (by rw [List.length_modify, hlength]) h
    refine ⟨by rw [hout, List.length_modify], hperm.trans ?_⟩
    have hmoved := (hflatten.append_right rest).map FileEntry.path
    rw [List.cons_append, List.map_cons] at hmoved
    refine hmoved.trans ?_
    rw [List.map_append, List.map_append, List.map_cons]
    exact List.perm_middle.symm

theorem assignToFrames_paths {frames : List PackFrame} {entries : List FileEntry}
    {assigned : List (List FileEntry)} (h : assignToFrames frames entries = .ok assigned) :
    assigned.length = frames.length ∧
      (assigned.flatten.map FileEntry.path).Perm (entries.map FileEntry.path) := by
  obtain ⟨offsets, hoffsets, h⟩ := Exec.bind_eq_ok.mp h
  have hlength := frameDecompressedOffsets_length hoffsets
  obtain ⟨hout, hperm⟩ := assignEntries_paths (by rw [hlength, List.length_map]) h
  refine ⟨by rw [hout, List.length_map], ?_⟩
  have hempty : (frames.map fun _ => ([] : List FileEntry)).flatten = [] := by
    rw [List.flatten_eq_nil_iff]
    intro l hl
    obtain ⟨frame, -, rfl⟩ := List.mem_map.mp hl
    rfl
  rwa [hempty, List.nil_append] at hperm

theorem sortByOffset_perm (entries : List FileEntry) : (sortByOffset entries).Perm entries :=
  List.perm_insertionSort _ _

theorem sortByOffset_sorted (entries : List FileEntry) : (sortByOffset entries).Pairwise
    fun x y => x.objectMetadata.offset ≤ y.objectMetadata.offset := by
  have htotal : Std.Total fun x y : FileEntry => x.objectMetadata.offset ≤ y.objectMetadata.offset :=
    ⟨fun _ _ => UInt64.le_total _ _⟩
  have htrans : IsTrans FileEntry fun x y => x.objectMetadata.offset ≤ y.objectMetadata.offset :=
    ⟨fun _ _ _ => UInt64.le_trans⟩
  exact List.pairwise_insertionSort _ entries

/-- Reading objects gives every entry the bytes at its place. -/
theorem readObjects_slices (sliced : Sliced stream entries) :
    readObjects stream entries =
      .ok ((sortByOffset entries).map fun e => (e, bytesIn stream e)) :=
  readObjectsFrom_ok (sliced.perm (sortByOffset_perm entries)) (sortByOffset_sorted entries)
    (Ahead.start stream _)

/-- Reading objects gives every entry the bytes of its checksum. -/
theorem readObjects_ok (readable : Readable stream content entries) :
    readObjects stream entries =
      .ok ((sortByOffset entries).map fun e => (e, content e.checksum)) := by
  rw [readObjects_slices readable.sliced]
  congr 1
  refine List.map_congr_left fun e he => ?_
  rw [bytesIn, readable.slice e ((sortByOffset_perm entries).mem_iff.mp he)]

end Forward

/-- Gives every entry, one by one, bytes of its own. -/
def deliverEach {ν σ : Type} (sink : Sink ν σ) (verify : Bool) (bytes : FileEntry → List UInt8) :
    List FileEntry → σ → Exec Error σ
  | [], s => .ok s
  | entry :: entries, s => do
    let s ← deliver sink verify entry (bytes entry) s
    deliverEach sink verify bytes entries s

section Extraction

variable {ν σ : Type} {sha1 : List UInt8 → ObjectChecksum} {sink : Sink ν σ} {verify : Bool}
  {stream buf reader : List UInt8} {content : ObjectChecksum → List UInt8}
  {entries : List FileEntry} {entry : FileEntry} {pos : UInt64}

theorem deliverAll_eq {bytes : FileEntry → List UInt8}
    (h : ∀ e ∈ entries, bytes e = content e.checksum) (s : σ) :
    deliverEach sink verify bytes entries s = deliverAll sink verify content entries s := by
  induction entries generalizing s with
  | nil => rfl
  | cons entry entries ih =>
    rw [deliverEach, deliverAll, h entry List.mem_cons_self]
    congr 1
    funext s'
    exact ih (fun e he => h e (List.mem_cons_of_mem _ he)) s'

/-- The buffer matters for all but empty files. -/
theorem writeEntry_eq {bytes : List UInt8} (hempty : entry.objectMetadata.size = 0 → bytes = [])
    (hlink : entry.metadata.isSymlink = true → entry.objectMetadata.size ≠ 0)
    (hbuf : entry.objectMetadata.size ≠ 0 → buf = bytes) (s : σ) :
    writeEntry sink verify entry buf s = deliver sink verify entry bytes s := by
  unfold writeEntry deliver
  cases hmeta : entry.metadata with
  | regular mode =>
    by_cases hsize : entry.objectMetadata.size = 0
    · simp only [hsize, if_true, hempty hsize]
    · simp only [hsize, if_false, hbuf hsize]
  | symlink targetEncoding targetKind =>
    rw [hmeta] at hlink
    rw [hbuf (hlink rfl)]

theorem extractFilesFrom_eq (sliced : Sliced stream entries)
    (links : ∀ e ∈ entries, e.metadata.isSymlink = true → e.objectMetadata.size ≠ 0)
    (verified : verify = true → ∀ e ∈ entries, sha1 (bytesIn stream e) = e.checksum)
    (sorted : entries.Pairwise fun x y => x.objectMetadata.offset ≤ y.objectMetadata.offset)
    (ahead : AheadOf stream entries pos buf reader) (s : σ) :
    extractFilesFrom sha1 sink verify reader buf pos entries s =
      deliverEach sink verify (bytesIn stream) entries s := by
  induction entries generalizing reader buf pos s with
  | nil => rfl
  | cons entry entries ih =>
    obtain ⟨hfirst, hsorted⟩ := List.pairwise_cons.mp sorted
    have hlinks : ∀ e ∈ entries, e.metadata.isSymlink = true → e.objectMetadata.size ≠ 0 :=
      fun e he => links e (List.mem_cons_of_mem _ he)
    have hverified : verify = true → ∀ e ∈ entries, sha1 (bytesIn stream e) = e.checksum :=
      fun hverify e he => verified hverify e (List.mem_cons_of_mem _ he)
    have hempty : entry.objectMetadata.size = 0 → bytesIn stream entry = [] := bytesIn_of_empty
    have hlink := links entry List.mem_cons_self
    rw [extractFilesFrom, deliverEach]
    split
    · rename_i hpos
      obtain ⟨rest, next, hread, hnext, hahead⟩ := read_next sliced hfirst ahead hpos
      have hcheck : checkObject sha1 verify (bytesIn stream entry) entry.checksum = .ok () := by
        unfold checkObject
        split
        · rename_i hverify
          rw [verifyObject, if_pos (verified hverify entry List.mem_cons_self)]
        · rfl
      rw [hread, Exec.ok_bind]
      dsimp only
      rw [hnext, Exec.ok_bind, hcheck, Exec.ok_bind, writeEntry_eq hempty hlink fun _ => rfl]
      congr 1
      funext s'
      exact ih sliced.tail hlinks hverified hsorted hahead s'
    · rename_i hpos
      rw [writeEntry_eq hempty hlink (read_kept ahead hpos)]
      congr 1
      funext s'
      exact ih sliced.tail hlinks hverified hsorted ahead.skip s'

/-- Extracting files hands every entry the bytes at its place, and nothing else. -/
theorem extractFiles_slices (sliced : Sliced stream entries)
    (links : ∀ e ∈ entries, e.metadata.isSymlink = true → e.objectMetadata.size ≠ 0)
    (verified : verify = true → ∀ e ∈ entries, sha1 (bytesIn stream e) = e.checksum) (s : σ) :
    extractFiles sha1 sink verify stream entries s =
      deliverEach sink verify (bytesIn stream) (sortByOffset entries) s := by
  have hmem {e : FileEntry} : e ∈ sortByOffset entries ↔ e ∈ entries :=
    (sortByOffset_perm entries).mem_iff
  exact extractFilesFrom_eq (sliced.perm (sortByOffset_perm entries))
    (fun e he => links e (hmem.mp he)) (fun hverify e he => verified hverify e (hmem.mp he))
    (sortByOffset_sorted entries) (Ahead.start stream _) s

/-- Extracting files hands every entry the bytes of its checksum, and nothing else. -/
theorem extractFiles_eq (readable : Readable stream content entries)
    (links : ∀ e ∈ entries, e.metadata.isSymlink = true → e.objectMetadata.size ≠ 0)
    (verified : verify = true → ∀ e ∈ entries, sha1 (content e.checksum) = e.checksum) (s : σ) :
    extractFiles sha1 sink verify stream entries s =
      deliverAll sink verify content (sortByOffset entries) s := by
  have hbytes : ∀ e ∈ entries, bytesIn stream e = content e.checksum := readable.slice
  rw [extractFiles_slices readable.sliced links fun hverify e he => by
    rw [hbytes e he, verified hverify e he]]
  exact deliverAll_eq (fun e he => hbytes e ((sortByOffset_perm entries).mem_iff.mp he)) s

theorem deliverAll_ok {entries : List FileEntry}
    (accepts : ∀ e ∈ entries, ∀ s, ∃ s', deliver sink verify e (content e.checksum) s = .ok s')
    (s : σ) : ∃ s', deliverAll sink verify content entries s = .ok s' := by
  induction entries generalizing s with
  | nil => exact ⟨s, rfl⟩
  | cons entry entries ih =>
    obtain ⟨mid, hmid⟩ := accepts entry List.mem_cons_self s
    obtain ⟨s', hs'⟩ := ih (fun e he => accepts e (List.mem_cons_of_mem _ he)) mid
    exact ⟨s', Exec.bind_eq_ok.mpr ⟨mid, hmid, hs'⟩⟩

end Extraction

end Elfshaker.Packs
