import Elfshaker.Format.MessagePack
import Elfshaker.Packs.Layout

namespace Elfshaker.Packs

open Elfshaker.Library Elfshaker.Format Elfshaker.Store

/-- What packs are opened with: the decoders of their headers and of their frames. -/
structure PackDecoder where
  header : List UInt8 → Option PackHeader
  zstd : Zstd

/-- `File::open`, and all there is in the file. -/
def openFile (tree : DirTree) (path : String) : Except IoError (List UInt8) :=
  match tree.lookup path with
  | some (.file bytes _) => .ok bytes
  | some .dir => .error .isADirectory
  | none => .error .notFound

/-- `SeekFrom::Start`; the system takes a signed number. -/
def seekStart (position : UInt64) (bytes : List UInt8) : Except IoError (List UInt8) :=
  if position.toNat < 2 ^ 63 then .ok (bytes.drop position.toNat) else .error .invalidInput

namespace PackDecoder

variable (decoder : PackDecoder) (dd : DataDir) (pack : PackId)

def file : PackFile where
  bytes := openFile dd.packs pack.packPath
  decodeHeader := decoder.header
  decoder := fun position => do
    let bytes ← openFile dd.packs pack.packPath
    let bytes ← seekStart position bytes
    .ok (decoder.zstd.decompress bytes)

/-- `Pack::open`, and what of the pack entries are extracted from. -/
def openPack : Exec Error (List PackFrame × List (List UInt8)) := do
  let opened ← (decoder.file dd pack).open' pack
  .ok (opened.header.frames, opened.frameReaders)

/-- The decoders read what a writer of packs writes. -/
structure Reads (decoder : PackDecoder) (packWriter : PackWriter) : Prop where
  header : ∀ frames : List PackFrame, frames.length < handleCount →
    decoder.header (packWriter.header frames) = some (PackHeader.new frames)
  zstd : decoder.zstd = packWriter.zstd

end PackDecoder

section Open

variable {decoder : PackDecoder} {packWriter : PackWriter} {dd : DataDir} {pack : PackId}
  {bytes : List UInt8} {bufs : List (List UInt8)}

theorem openFile_eq_ok {tree : DirTree} {path : String} :
    openFile tree path = .ok bytes ↔ (path, bytes) ∈ tree.files := by
  rw [DirTree.mem_files]
  unfold openFile
  split <;> simp_all

/-- Every frame is read from its place on. -/
theorem frameReaders_mapM {headerSize : UInt64} {before : List UInt8} {base : Nat}
    {offsets : List UInt64} (hoffsets : offsets.map UInt64.toNat = starts base (bufs.map List.length))
    (hfile : (pack.packPath, before ++ bufs.flatten) ∈ dd.packs.files)
    (hbase : headerSize.toNat + base = before.length)
    (short : (before ++ bufs.flatten).length < 2 ^ 63) :
    offsets.mapM ((decoder.file dd pack).frameReader headerSize) =
      .ok (frameReaders decoder.zstd bufs) := by
  induction bufs generalizing before base offsets with
  | nil =>
    obtain rfl : offsets = [] := List.map_eq_nil_iff.mp hoffsets
    rfl
  | cons buf bufs ih =>
    rw [List.map_cons, starts_cons, List.map_eq_cons_iff] at hoffsets
    obtain ⟨offset, rest, rfl, hoffset, hrest⟩ := hoffsets
    have hopen : openFile dd.packs pack.packPath = .ok (before ++ (buf :: bufs).flatten) :=
      openFile_eq_ok.mpr hfile
    have hlength : before.length < 2 ^ 63 :=
      Nat.lt_of_le_of_lt (by simp) short
    obtain ⟨position, hposition, hvalue⟩ := Exec.checkedAdd_ok (ε := Error) (a := headerSize)
      (b := offset) (by omega)
    have hdrop : position.toNat = before.length := by omega
    have hseek : seekStart position (before ++ (buf :: bufs).flatten) =
        .ok (buf :: bufs).flatten := by
      rw [seekStart, if_pos (by omega), hdrop, List.drop_left]
    have hdecode : (decoder.file dd pack).decoder position =
        .ok (decoder.zstd.decompress (buf :: bufs).flatten) := by
      change (openFile dd.packs pack.packPath >>= fun bytes => seekStart position bytes >>= fun bytes =>
        Except.ok (decoder.zstd.decompress bytes)) = _
      rw [hopen, Exec.ok_bind, hseek, Exec.ok_bind]
    have hreader : (decoder.file dd pack).frameReader headerSize offset =
        .ok (decoder.zstd.decompress (buf :: bufs).flatten) := by
      have hbytes : (decoder.file dd pack).bytes = .ok (before ++ (buf :: bufs).flatten) := hopen
      rw [PackFile.frameReader, hbytes, ioResult, Exec.ok_bind, hposition, Exec.ok_bind, hdecode,
        ioResult]
    have hsplit : before ++ (buf :: bufs).flatten = before ++ buf ++ bufs.flatten := by
      rw [List.flatten_cons, List.append_assoc]
    rw [hsplit] at hfile short
    have hnext := ih hrest hfile (by rw [List.length_append]; omega) short
    rw [List.mapM_cons, hreader, Exec.ok_bind, hnext, Exec.ok_bind]
    rfl

/-- A pack that was written is opened with the frames that it was written with. -/
theorem openPack_written (reads : decoder.Reads packWriter) {content : PackContent}
    (recorded : Recorded content.header content.frames)
    (regular : PackId.isValidRegular pack.name = true)
    (hfile : (pack.packPath, content.file packWriter) ∈ dd.packs.files)
    (hframes : content.header.length < handleCount)
    (hheader : (packWriter.header content.header).length < 2 ^ 32)
    (short : (content.file packWriter).length < 2 ^ 63) :
    decoder.openPack dd pack =
      .ok (content.header, frameReaders packWriter.zstd content.frames) := by
  have hbytes : (decoder.file dd pack).bytes = .ok (content.file packWriter) :=
    openFile_eq_ok.mpr hfile
  have hlength : (content.file packWriter).length =
      8 + (packWriter.header content.header).length + content.frames.flatten.length := by
    rw [PackContent.file, List.length_append, skippableFrame_length]
  have hread : (decoder.file dd pack).readHeader = .ok
      (UInt64.ofNat (content.file packWriter).length,
        UInt64.ofNat (8 + (packWriter.header content.header).length),
        PackHeader.new content.header) := by
    have hdecode : (decoder.file dd pack).decodeHeader (packWriter.header content.header) =
        some (PackHeader.new content.header) := reads.header _ hframes
    have hvalid : (PackHeader.new content.header).isValid = true := beq_self_eq_true _
    rw [PackFile.readHeader, hbytes, ioResult, Exec.ok_bind]
    rw [PackContent.file, readSkippableFrame_write hheader]
    simp only [Exec.ok_bind, hdecode, Exec.okOr_some, hvalid, if_true]
  obtain ⟨offsets, hoffsets, hstarts⟩ := computeFrameOffsets_recorded (ε := Error) recorded
    (by omega)
  have hreaders : offsets.mapM ((decoder.file dd pack).frameReader
      (UInt64.ofNat (8 + (packWriter.header content.header).length))) =
        .ok (frameReaders decoder.zstd content.frames) := by
    have hsize : (UInt64.ofNat (8 + (packWriter.header content.header).length)).toNat =
        8 + (packWriter.header content.header).length := by
      have hfits : 8 + (packWriter.header content.header).length < 2 ^ 64 := by omega
      exact UInt64.toNat_ofNat_of_lt' hfits
    apply frameReaders_mapM hstarts hfile _ short
    rw [hsize, skippableFrame_length]
    rfl
  have hopen : (decoder.file dd pack).openPack = .ok
      (UInt64.ofNat (content.file packWriter).length, PackHeader.new content.header,
        frameReaders decoder.zstd content.frames) := by
    have hframes : (PackHeader.new content.header).frames = content.header := rfl
    simp only [PackFile.openPack, hread, Exec.ok_bind, hframes, hoffsets, hreaders]
  have hregular : pack.validateRegular.mapError Error.idError = .ok () := by
    rw [PackId.validateRegular, if_pos regular]
    rfl
  rw [PackDecoder.openPack, PackFile.open', hregular, Exec.ok_bind, hopen, ← reads.zstd]
  rfl

/-- A file that starts with no header is opened as one frame. -/
theorem openPack_legacy {e : Error} (regular : PackId.isValidRegular pack.name = true)
    (hfile : (pack.packPath, bytes) ∈ dd.packs.files)
    (hheader : readSkippableFrame bytes = Exec.fail e) :
    decoder.openPack dd pack =
      .ok ((PackFile.legacyHeader (UInt64.ofNat bytes.length)).frames,
        [decoder.zstd.decompress bytes]) := by
  have hopen : openFile dd.packs pack.packPath = .ok bytes := openFile_eq_ok.mpr hfile
  have hbytes : (decoder.file dd pack).bytes = .ok bytes := hopen
  have hpack : (decoder.file dd pack).openPack = Exec.fail e := by
    rw [PackFile.openPack, PackFile.readHeader, hbytes, ioResult, Exec.ok_bind, hheader]
    rfl
  have hdecode : (decoder.file dd pack).decoder 0 = .ok (decoder.zstd.decompress bytes) := by
    change (openFile dd.packs pack.packPath >>= fun bytes => seekStart 0 bytes >>= fun bytes =>
      Except.ok (decoder.zstd.decompress bytes)) = _
    rw [hopen]
    rfl
  have hlegacy : (decoder.file dd pack).openPackLegacy = .ok
      (UInt64.ofNat bytes.length, PackFile.legacyHeader (UInt64.ofNat bytes.length),
        [decoder.zstd.decompress bytes]) := by
    rw [PackFile.openPackLegacy, hbytes, ioResult, Exec.ok_bind, hdecode]
    rfl
  have hregular : pack.validateRegular.mapError Error.idError = .ok () := by
    rw [PackId.validateRegular, if_pos regular]
    rfl
  rw [PackDecoder.openPack, PackFile.open', hregular, Exec.ok_bind, hpack]
  change ((decoder.file dd pack).openPackLegacy >>= _) >>= _ = _
  rw [hlegacy]
  rfl

end Open

section MessagePack

open Elfshaker.Library.MessagePack Elfshaker.Format.Wire

def writeFrame (frame : PackFrame) : List UInt8 :=
  0x92 :: (writeU64 frame.frameSize ++ writeU64 frame.decompressedSize)

def readFrame : Decoder PackFrame := fun bytes => do
  let (_, bytes) ← expect 0x92 bytes
  let (frameSize, bytes) ← readU64 bytes
  let (decompressedSize, bytes) ← readU64 bytes
  some (⟨frameSize, decompressedSize⟩, bytes)

def writeHeader (frames : List PackFrame) : List UInt8 :=
  0x92 :: (writeU64 PackHeader.packHeaderMagic ++ writeArray writeFrame frames)

/-- `rmp_serde::decode::from_read`; what follows the header is not looked at. -/
def readHeader (bytes : List UInt8) : Option PackHeader := do
  let (_, bytes) ← expect 0x92 bytes
  let (magic, bytes) ← readU64 bytes
  let (frames, _) ← readArray readFrame bytes
  some ⟨magic, frames⟩

end MessagePack

end Elfshaker.Packs
