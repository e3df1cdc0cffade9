import Elfshaker.Format.PackIndex
import Elfshaker.Library.Stream
import Elfshaker.Packs.Partition
import Mathlib.Data.List.Sort

namespace Elfshaker.Packs

open Elfshaker.Library Elfshaker.Format

abbrev MetadataTable := AList fun _ : Handle => ObjectMetadata

/-- The order in which objects go into a pack: by size, then as they were added. -/
def sizeHandles (index : PackIndex) : List (UInt64 × Handle) :=
  (index.objectMetadata.entries.map fun entry => (entry.2.size, entry.1)).insertionSort
    fun a b => a.1 < b.1 ∨ a.1 = b.1 ∧ a.2 ≤ b.2

def assignOffsets : MetadataTable → UInt64 → List (UInt64 × Handle) → Exec ε MetadataTable
  | table, _, [] => .ok table
  | table, offset, (size, handle) :: rest => do
    let metadata ← Exec.unwrap (table.lookup handle)
    let next ← Exec.checkedAdd offset size
    assignOffsets (table.insert handle { metadata with offset }) next rest

def computeObjectOffsetsAndOrdering (index : PackIndex) : Exec ε (PackIndex × List Handle) := do
  let objectMetadata ← assignOffsets index.objectMetadata 0 (sizeHandles index)
  .ok ({ index with objectMetadata }, (sizeHandles index).map Prod.snd)

def objectSize (index : PackIndex) (handle : Handle) : Exec ε UInt64 := do
  let metadata ← Exec.unwrap (index.objectMetadata.lookup handle)
  .ok metadata.size

def objectsPartitionedBySize (index : PackIndex) (n : UInt32) (handles : List Handle) :
    Exec ε (List (List Handle)) :=
  partitionByU64 (objectSize index) handles n

structure PackOptions where
  compressionLevel : Int
  compressionWindowLog : UInt32
  numWorkers : UInt32
  numFrames : UInt32
  deriving DecidableEq, Repr

structure CompressionOptions where
  level : Int
  windowLog : UInt32
  numWorkers : UInt32
  deriving DecidableEq, Repr

/-- The Zstandard encoder, and all that its decoder yields from some bytes. -/
structure Zstd where
  compress : CompressionOptions → List UInt8 → Exec IoError (List UInt8)
  decompress : List UInt8 → List UInt8

/-- Decompression inverts compression, and goes on from one frame to the next. -/
def Zstd.Inverts (zstd : Zstd) : Prop :=
  ∀ (opts : CompressionOptions) (bufs frames : List (List UInt8)), bufs ≠ [] →
    bufs.mapM (zstd.compress opts) = .ok frames →
      zstd.decompress frames.flatten = bufs.flatten

structure PackFrame where
  frameSize : UInt64
  decompressedSize : UInt64
  deriving DecidableEq, Repr

/-- The 32-bit arithmetic of the number of threads for one frame. -/
def workersPerTask (numWorkers : UInt32) (tasks : Nat) : Exec ε UInt32 := do
  let count := UInt32.ofNat tasks
  Exec.assert (decide (0 < numWorkers.toNat + count.toNat ∧
    numWorkers.toNat + count.toNat < 2 ^ 32))
  let divisor := UInt32.ofNat (max 1 tasks)
  Exec.assert (divisor != 0)
  .ok ((numWorkers + count - 1) / divisor)

def addLengths : UInt64 → List (List UInt8) → Exec ε UInt64
  | processed, [] => .ok processed
  | processed, object :: rest => do
    let processed ← Exec.checkedAdd processed (UInt64.ofNat object.length)
    addLengths processed rest

/-- The size of a frame before compression, and the frame. -/
def compressFiles (zstd : Zstd) (opts : CompressionOptions)
    (readers : List (Exec IoError (List UInt8))) : Exec IoError (UInt64 × List UInt8) := do
  Exec.assert (decide (0 < opts.numWorkers))
  let objects ← readers.mapM id
  let processed ← addLengths 0 objects
  let frame ← zstd.compress opts objects.flatten
  .ok (processed, frame)

/-- The bytes of an object; all zeros stand for one that is not on disk. -/
def objectReader (loose : ObjectChecksum → Exec IoError (List UInt8)) (index : PackIndex)
    (handle : Handle) : Exec IoError (List UInt8) := do
  let checksum ← index.handleToChecksum handle
  if checksum = .zero then .ok [] else loose checksum

/-- A pack before it is written: its index, and its frames with their sizes. -/
structure PackContent where
  index : PackIndex
  header : List PackFrame
  frames : List (List UInt8)

def packFrame (compressed : UInt64 × List UInt8) : PackFrame :=
  ⟨UInt64.ofNat compressed.2.length, compressed.1⟩

def compressPack (zstd : Zstd) (loose : ObjectChecksum → Exec IoError (List UInt8))
    (index : PackIndex) (opts : PackOptions) : Exec IoError PackContent := do
  let (index, ordering) ← computeObjectOffsetsAndOrdering index
  let partitions ← objectsPartitionedBySize index opts.numFrames ordering
  let numWorkers ← workersPerTask opts.numWorkers partitions.length
  let taskOpts := ⟨opts.compressionLevel, opts.compressionWindowLog, numWorkers⟩
  Exec.assert (opts.numWorkers != 0)
  let compressed ← partitions.mapM fun objects =>
    compressFiles zstd taskOpts (objects.map (objectReader loose index))
  .ok { index, header := compressed.map packFrame, frames := compressed.map Prod.snd }

/-- The size that an index records for an object. -/
def sizeOf (index : PackIndex) (handle : Handle) : Nat :=
  ((index.objectMetadata.lookup handle).map fun metadata => metadata.size.toNat).getD 0

/-- Where the data of an object lies in the decompressed stream. -/
def extent (metadata : ObjectMetadata) : Extent :=
  ⟨metadata.offset.toNat, metadata.size.toNat⟩

theorem assignOffsets_ok {table table' : MetadataTable} {offset : UInt64}
    {items : List (UInt64 × Handle)} (nodup : (items.map Prod.snd).Nodup)
    (h : assignOffsets (ε := ε) table offset items = .ok table') :
    (∀ handle, handle ∉ items.map Prod.snd → table'.lookup handle = table.lookup handle) ∧
      (∀ before size handle after, items = before ++ (size, handle) :: after →
        ∃ metadata o, table.lookup handle = some metadata ∧
          table'.lookup handle = some { metadata with offset := o } ∧
          o.toNat = offset.toNat + (before.map fun item => item.1.toNat).sum) ∧
      offset.toNat + (items.map fun item => item.1.toNat).sum < 2 ^ 64 := by
  induction items generalizing table offset with
  | nil =>
    cases h
    refine ⟨fun _ _ => rfl, ?_, ?_⟩
    · intro before size handle after heq
      simp at heq
    · simpa using offset.toNat_lt
  | cons item items ih =>
    obtain ⟨size, handle⟩ := item
    obtain ⟨metadata, hmetadata, h⟩ := Exec.bind_eq_ok.mp h
    obtain ⟨next, hnext, h⟩ := Exec.bind_eq_ok.mp h
    rw [Exec.unwrap_eq_ok] at hmetadata
    rw [Exec.checkedAdd_eq_ok] at hnext
    rw [List.map_cons, List.nodup_cons] at nodup
    obtain ⟨hother, hplaced, htotal⟩ := ih nodup.2 h
    refine ⟨?_, ?_, ?_⟩
    · intro handle' hnot
      rw [List.map_cons, List.mem_cons, not_or] at hnot
      rw [hother handle' hnot.2, AList.lookup_insert_ne hnot.1]
    · intro before size' handle' after hsplit
      cases before with
      | nil =>
        obtain ⟨hitem, -⟩ := List.cons.inj hsplit
        cases hitem
        refine ⟨metadata, offset, hmetadata, ?_, by simp⟩
        rw [hother handle nodup.1, AList.lookup_insert]
      | cons first before =>
        obtain ⟨hfirst, hrest⟩ := List.cons.inj hsplit
        subst hfirst
        obtain ⟨metadata', o, hlookup, hresult, ho⟩ := hplaced before size' handle' after hrest
        have hne : handle' ≠ handle := by
          intro heq
          apply nodup.1
          rw [hrest, heq]
          simp
        rw [AList.lookup_insert_ne hne] at hlookup
        refine ⟨metadata', o, hlookup, hresult, ?_⟩
        rw [List.map_cons, List.sum_cons, ho, hnext, Nat.add_assoc]
    · rw [List.map_cons, List.sum_cons, ← Nat.add_assoc, ← hnext]
      exact htotal

theorem sizeHandles_perm (index : PackIndex) : (sizeHandles index).Perm
    (index.objectMetadata.entries.map fun entry => (entry.2.size, entry.1)) :=
  List.perm_insertionSort _ _

theorem mem_sizeHandles {index : PackIndex} {size : UInt64} {handle : Handle} :
    (size, handle) ∈ sizeHandles index ↔
      ∃ metadata, index.objectMetadata.lookup handle = some metadata ∧ metadata.size = size := by
  rw [(sizeHandles_perm index).mem_iff, List.mem_map]
  constructor
  · rintro ⟨⟨handle', metadata⟩, hentry, heq⟩
    cases heq
    exact ⟨metadata, AList.mem_lookup_iff.mpr hentry, rfl⟩
  · rintro ⟨metadata, hlookup, rfl⟩
    exact ⟨⟨handle, metadata⟩, AList.mem_lookup_iff.mp hlookup, rfl⟩

theorem sizeHandles_nodup (index : PackIndex) : ((sizeHandles index).map Prod.snd).Nodup := by
  have hperm := (sizeHandles_perm index).map Prod.snd
  rw [hperm.nodup_iff, List.map_map]
  exact index.objectMetadata.nodupKeys

/-- The objects lie one after another in the order they are packed, each as long as
its recorded size. -/
structure LaidOut (index packed : PackIndex) (ordering : List Handle) : Prop where
  objectPool : packed.objectPool = index.objectPool
  total : (ordering.map (sizeOf index)).sum < 2 ^ 64
  placed : ∀ handle metadata, packed.objectMetadata.lookup handle = some metadata →
    Placed (sizeOf index) ordering handle (extent metadata)
  listed : ∀ handle ∈ ordering, ∃ metadata, index.objectMetadata.lookup handle = some metadata

theorem computeObjectOffsetsAndOrdering_ok {index packed : PackIndex} {ordering : List Handle}
    (h : computeObjectOffsetsAndOrdering (ε := ε) index = .ok (packed, ordering)) :
    LaidOut index packed ordering := by
  obtain ⟨table, htable, h⟩ := Exec.bind_eq_ok.mp h
  cases h
  obtain ⟨hother, hplaced, htotal⟩ := assignOffsets_ok (sizeHandles_nodup index) htable
  have size_eq : ∀ item ∈ sizeHandles index, sizeOf index item.2 = item.1.toNat := by
    intro item hitem
    obtain ⟨metadata, hlookup, hsize⟩ := mem_sizeHandles.mp hitem
    simp [sizeOf, hlookup, hsize]
  have sizes_eq : ∀ items : List (UInt64 × Handle), (∀ item ∈ items, item ∈ sizeHandles index) →
      (items.map Prod.snd).map (sizeOf index) = items.map fun item => item.1.toNat := by
    intro items hitems
    rw [List.map_map]
    exact List.map_congr_left fun item hitem => size_eq item (hitems item hitem)
  refine ⟨rfl, ?_, ?_, ?_⟩
  · rw [sizes_eq _ fun _ hitem => hitem]
    simpa using htotal
  · intro handle metadata hlookup
    have hlisted : handle ∈ (sizeHandles index).map Prod.snd := by
      by_contra hnot
      dsimp only at hlookup
      rw [hother handle hnot] at hlookup
      exact hnot (List.mem_map.mpr ⟨_, mem_sizeHandles.mpr ⟨metadata, hlookup, rfl⟩, rfl⟩)
    obtain ⟨⟨size, handle'⟩, hmem, rfl⟩ := List.mem_map.mp hlisted
    obtain ⟨before, after, hsplit⟩ := List.append_of_mem hmem
    obtain ⟨old, o, hold, hnew, ho⟩ := hplaced before size handle' after hsplit
    dsimp only at hlookup
    rw [hnew] at hlookup
    cases hlookup
    refine ⟨before.map Prod.snd, after.map Prod.snd, by rw [hsplit]; simp, ?_⟩
    have hbefore : ∀ item ∈ before, item ∈ sizeHandles index := by
      intro item hitem
      rw [hsplit]
      exact List.mem_append_left _ hitem
    rw [sizes_eq before hbefore, extent, Extent.mk.injEq]
    constructor
    · rw [ho]
      simp
    · simp [sizeOf, hold]
  · intro handle hhandle
    obtain ⟨⟨size, handle'⟩, hmem, rfl⟩ := List.mem_map.mp hhandle
    obtain ⟨metadata, hlookup, -⟩ := mem_sizeHandles.mp hmem
    exact ⟨metadata, hlookup⟩

/-- The loose object files of an index hold what their checksums and recorded sizes
say. All zeros are the checksum of an empty file that is not on disk. -/
structure LooseObjects (sha1 : List UInt8 → ObjectChecksum)
    (loose : ObjectChecksum → Exec IoError (List UInt8)) (index : PackIndex)
    (content : ObjectChecksum → List UInt8) : Prop where
  zero : content .zero = []
  read : ∀ checksum ∈ index.objectPool.entries, checksum ≠ .zero →
    loose checksum = .ok (content checksum)
  sha1 : ∀ checksum ∈ index.objectPool.entries, checksum ≠ .zero →
    sha1 (content checksum) = checksum
  size : ∀ handle checksum metadata, index.objectPool.lookup handle = some checksum →
    index.objectMetadata.lookup handle = some metadata →
      (content checksum).length = metadata.size.toNat

/-- The bytes that a handle stands for. -/
def blob (index : PackIndex) (content : ObjectChecksum → List UInt8) (handle : Handle) :
    List UInt8 :=
  ((index.objectPool.lookup handle).map content).getD []

section Frames

variable {zstd : Zstd} {sha1 : List UInt8 → ObjectChecksum}
  {loose : ObjectChecksum → Exec IoError (List UInt8)} {index packed : PackIndex}
  {content : ObjectChecksum → List UInt8} {ordering : List Handle}

theorem objectReader_ok (hloose : LooseObjects sha1 loose index content) {handle : Handle}
    {bytes : List UInt8} (h : objectReader loose index handle = .ok bytes) :
    (∃ checksum, index.objectPool.lookup handle = some checksum) ∧
      bytes = blob index content handle := by
  obtain ⟨checksum, hlookup, h⟩ := Exec.bind_eq_ok.mp h
  rw [PackIndex.handleToChecksum, Exec.unwrap_eq_ok] at hlookup
  refine ⟨⟨checksum, hlookup⟩, ?_⟩
  rw [blob, hlookup, Option.map_some, Option.getD_some]
  split at h
  · rename_i hzero
    cases h
    rw [hzero, hloose.zero]
  · rename_i hzero
    rw [hloose.read checksum (EntryPool.lookup_mem hlookup) hzero] at h
    cases h
    rfl

theorem blob_length (hloose : LooseObjects sha1 loose index content)
    (laidOut : LaidOut index packed ordering) {handle : Handle} (hhandle : handle ∈ ordering)
    {checksum : ObjectChecksum} (hlookup : index.objectPool.lookup handle = some checksum) :
    (blob index content handle).length = sizeOf index handle := by
  obtain ⟨metadata, hmetadata⟩ := laidOut.listed handle hhandle
  rw [blob, sizeOf, hlookup, hmetadata, Option.map_some, Option.getD_some, Option.map_some,
    Option.getD_some]
  exact hloose.size handle checksum metadata hlookup hmetadata

theorem sizeOf_lt (index : PackIndex) (handle : Handle) : sizeOf index handle < 2 ^ 64 := by
  unfold sizeOf
  cases index.objectMetadata.lookup handle with
  | none => simp
  | some metadata => exact metadata.size.toNat_lt

theorem addLengths_ok {processed total : UInt64} {objects : List (List UInt8)}
    (short : ∀ object ∈ objects, object.length < 2 ^ 64)
    (h : addLengths (ε := ε) processed objects = .ok total) :
    total.toNat = processed.toNat + objects.flatten.length := by
  induction objects generalizing processed with
  | nil =>
    cases h
    simp
  | cons object objects ih =>
    obtain ⟨next, hnext, h⟩ := Exec.bind_eq_ok.mp h
    rw [Exec.checkedAdd_eq_ok, UInt64.toNat_ofNat_of_lt' (short object List.mem_cons_self)] at hnext
    rw [ih (fun o ho => short o (List.mem_cons_of_mem _ ho)) h, hnext, List.flatten_cons,
      List.length_append, Nat.add_assoc]

theorem objectReaders_ok (hloose : LooseObjects sha1 loose index content)
    {handles : List Handle} {buffers : List (List UInt8)}
    (h : (handles.map (objectReader loose index)).mapM id = .ok buffers) :
    buffers = handles.map (blob index content) ∧
      ∀ handle ∈ handles, ∃ checksum, index.objectPool.lookup handle = some checksum := by
  rw [Exec.mapM_eq_ok] at h
  induction handles generalizing buffers with
  | nil =>
    cases h
    simp
  | cons handle handles ih =>
    rw [List.map_cons, List.forall₂_cons_left_iff] at h
    obtain ⟨buffer, rest, hbuffer, hrest, rfl⟩ := h
    obtain ⟨hlookup, rfl⟩ := objectReader_ok hloose hbuffer
    obtain ⟨rfl, hlookups⟩ := ih hrest
    exact ⟨rfl, List.forall_mem_cons.mpr ⟨hlookup, hlookups⟩⟩

/-- A frame holds its objects one after another. -/
theorem compressFiles_ok (hloose : LooseObjects sha1 loose index content)
    (laidOut : LaidOut index packed ordering) {opts : CompressionOptions} {objects : List Handle}
    (hobjects : ∀ handle ∈ objects, handle ∈ ordering) {processed : UInt64} {frame : List UInt8}
    (h : compressFiles zstd opts (objects.map (objectReader loose packed)) =
      .ok (processed, frame)) :
    processed.toNat = (objects.flatMap (blob index content)).length ∧
      zstd.compress opts (objects.flatMap (blob index content)) = .ok frame ∧
      ∀ handle ∈ objects, (blob index content handle).length = sizeOf index handle := by
  obtain ⟨_, -, h⟩ := Exec.bind_eq_ok.mp h
  obtain ⟨buffers, hbuffers, h⟩ := Exec.bind_eq_ok.mp h
  obtain ⟨total, htotal, h⟩ := Exec.bind_eq_ok.mp h
  obtain ⟨compressed, hcompressed, h⟩ := Exec.bind_eq_ok.mp h
  cases h
  have hreader : objectReader loose packed = objectReader loose index := by
    funext handle
    rw [objectReader, objectReader, PackIndex.handleToChecksum, PackIndex.handleToChecksum,
      laidOut.objectPool]
  rw [hreader] at hbuffers
  obtain ⟨rfl, hlookups⟩ := objectReaders_ok hloose hbuffers
  have hlength : ∀ handle ∈ objects,
      (blob index content handle).length = sizeOf index handle := by
    intro handle hhandle
    obtain ⟨checksum, hlookup⟩ := hlookups handle hhandle
    exact blob_length hloose laidOut (hobjects handle hhandle) hlookup
  have hflat : (objects.map (blob index content)).flatten = objects.flatMap (blob index content) :=
    List.flatMap_def.symm
  have hshort : ∀ object ∈ objects.map (blob index content), object.length < 2 ^ 64 := by
    intro object hobject
    obtain ⟨handle, hhandle, rfl⟩ := List.mem_map.mp hobject
    rw [hlength handle hhandle]
    exact sizeOf_lt index handle
  have htotal := addLengths_ok hshort htotal
  rw [hflat] at htotal hcompressed
  exact ⟨by simpa using htotal, hcompressed, hlength⟩

theorem compressParts_ok (hloose : LooseObjects sha1 loose index content)
    (laidOut : LaidOut index packed ordering) {opts : CompressionOptions}
    {parts : List (List Handle)} {compressed : List (UInt64 × List UInt8)}
    (hparts : ∀ objects ∈ parts, ∀ handle ∈ objects, handle ∈ ordering)
    (h : parts.mapM (fun objects =>
      compressFiles zstd opts (objects.map (objectReader loose packed))) = .ok compressed) :
    (compressed.map fun frame => frame.1.toNat) =
        parts.map (fun objects => (objects.flatMap (blob index content)).length) ∧
      (parts.map fun objects => objects.flatMap (blob index content)).mapM (zstd.compress opts) =
        .ok (compressed.map Prod.snd) ∧
      ∀ objects ∈ parts, ∀ handle ∈ objects,
        (blob index content handle).length = sizeOf index handle := by
  rw [Exec.mapM_eq_ok] at h ⊢
  induction h with
  | nil => simp
  | @cons objects frame parts compressed hframe _ ih =>
    obtain ⟨hsize, hcompress, hlength⟩ :=
      compressFiles_ok hloose laidOut (hparts objects List.mem_cons_self) hframe
    obtain ⟨hsizes, hall, hlengths⟩ := ih fun o ho => hparts o (List.mem_cons_of_mem _ ho)
    refine ⟨?_, .cons hcompress hall, List.forall_mem_cons.mpr ⟨hlength, hlengths⟩⟩
    rw [List.map_cons, List.map_cons, hsize, hsizes]

/-- What a pack consists of: frames whose contents, one after another, are the
objects in the order in which they are laid out. -/
structure Packed (zstd : Zstd) (index : PackIndex) (content : ObjectChecksum → List UInt8)
    (pack : PackContent) (ordering : List Handle) (contents : List (List UInt8)) : Prop where
  laidOut : LaidOut index pack.index ordering
  flatten : contents.flatten = ordering.flatMap (blob index content)
  frames : ordering ≠ [] → contents ≠ []
  lengths : ∀ handle ∈ ordering, (blob index content handle).length = sizeOf index handle
  header : pack.header.map (fun frame => frame.decompressedSize.toNat) = contents.map List.length
  compressed : ∃ opts, contents.mapM (zstd.compress opts) = .ok pack.frames

theorem compressPack_ok {opts : PackOptions} {pack : PackContent}
    (hloose : LooseObjects sha1 loose index content)
    (h : compressPack zstd loose index opts = .ok pack) :
    ∃ ordering contents, Packed zstd index content pack ordering contents := by
  obtain ⟨⟨packed, ordering⟩, hordering, h⟩ := Exec.bind_eq_ok.mp h
  obtain ⟨parts, hparts, h⟩ := Exec.bind_eq_ok.mp h
  obtain ⟨numWorkers, -, h⟩ := Exec.bind_eq_ok.mp h
  obtain ⟨_, -, h⟩ := Exec.bind_eq_ok.mp h
  obtain ⟨compressed, hcompressed, h⟩ := Exec.bind_eq_ok.mp h
  cases h
  have laidOut := computeObjectOffsetsAndOrdering_ok hordering
  have hflatten := partitionByU64_flatten hparts
  have hmem : ∀ objects ∈ parts, ∀ handle ∈ objects, handle ∈ ordering := by
    intro objects hobjects handle hhandle
    rw [← hflatten]
    exact List.mem_flatten.mpr ⟨objects, hobjects, hhandle⟩
  obtain ⟨hsizes, hcompress, hlengths⟩ := compressParts_ok hloose laidOut hmem hcompressed
  refine ⟨ordering, parts.map fun objects => objects.flatMap (blob index content), laidOut, ?_, ?_,
    ?_, ?_, _, hcompress⟩
  · rw [← hflatten, List.flatMap_def, List.map_flatten, List.flatten_flatten, List.map_map]
    rfl
  · intro hordering hparts
    rw [List.map_eq_nil_iff] at hparts
    apply hordering
    rw [← hflatten, hparts]
    rfl
  · intro handle hhandle
    rw [← hflatten] at hhandle
    obtain ⟨objects, hobjects, hmem⟩ := List.mem_flatten.mp hhandle
    exact hlengths objects hobjects handle hmem
  · simpa [packFrame, Function.comp_def] using hsizes

end Frames

end Elfshaker.Packs
