import Elfshaker.Format.Readers
import Elfshaker.Packs.FrameSlices
import Elfshaker.Packs.Parallel
import Elfshaker.Packs.WritePack

namespace Elfshaker.Packs

open Elfshaker.Library Elfshaker.Format Elfshaker.Store

structure PackHeader where
  magic : UInt64
  frames : List PackFrame

namespace PackHeader

def packHeaderMagic : UInt64 := 848629801635942891

def new (frames : List PackFrame) : PackHeader := ⟨packHeaderMagic, frames⟩

def isValid (header : PackHeader) : Bool := header.magic == packHeaderMagic

end PackHeader

/-- `u32::from_le_bytes` of what is read. -/
def readU32Le (bytes : List UInt8) : Exec Error (UInt32 × List UInt8) :=
  if bytes.length < 4 then Exec.fail (.ioError .unexpectedEof)
  else .ok (fromBeBytes (bytes.take 4).reverse, bytes.drop 4)

/-- The size of the whole frame, and the user data in it. -/
def readSkippableFrame (bytes : List UInt8) : Exec Error (UInt64 × List UInt8) := do
  let (magic, bytes) ← readU32Le bytes
  if magic &&& UInt32.ofNat skippableMagicMask ≠ UInt32.ofNat skippableMagicMask then
    Exec.fail (.ioError (.other "Not a Zstandard skippable frame!"))
  else
    let (frameSize, bytes) ← readU32Le bytes
    if bytes.length < frameSize.toNat then Exec.fail (.ioError .unexpectedEof)
    else .ok (UInt64.ofNat (8 + frameSize.toNat), bytes.take frameSize.toNat)

/-- The file of a pack as it is opened: its bytes, the decoder of headers, and all that a
decoder yields which starts at some place of the file. -/
structure PackFile where
  bytes : Except IoError (List UInt8)
  decodeHeader : List UInt8 → Option PackHeader
  decoder : UInt64 → Except IoError (List UInt8)

structure Pack where
  name : String
  header : PackHeader
  frameReaders : List (List UInt8)
  fileSize : UInt64

def ioResult : Except IoError α → Exec Error α
  | .ok a => .ok a
  | .error e => Exec.fail (.ioError e)

/-- Where each frame starts in the file, behind the header. -/
def computeFrameOffsets (frames : List PackFrame) : Exec ε (List UInt64) :=
  startsFrom 0 (frames.map PackFrame.frameSize)

namespace PackFile

variable (file : PackFile)

/-- The file is opened once more for every frame. -/
def frameReader (headerSize offset : UInt64) : Exec Error (List UInt8) := do
  let _ ← ioResult file.bytes
  let position ← Exec.checkedAdd headerSize offset
  ioResult (file.decoder position)

def readHeader : Exec Error (UInt64 × UInt64 × PackHeader) := do
  let bytes ← ioResult file.bytes
  let (headerSize, data) ← readSkippableFrame bytes
  let header ← Exec.okOr .corruptPack (file.decodeHeader data)
  if header.isValid then .ok (UInt64.ofNat bytes.length, headerSize, header)
  else Exec.fail .corruptPack

def openPack : Exec Error (UInt64 × PackHeader × List (List UInt8)) := do
  let (fileSize, headerSize, header) ← file.readHeader
  let frameOffsets ← computeFrameOffsets header.frames
  let frameReaders ← frameOffsets.mapM (file.frameReader headerSize)
  .ok (fileSize, header, frameReaders)

/-- The header that is made up for a pack of the legacy format, which is one frame. -/
def legacyHeader (fileSize : UInt64) : PackHeader :=
  PackHeader.new [⟨fileSize, 0xFFFFFFFFFFFFFFFF⟩]

def openPackLegacy : Exec Error (UInt64 × PackHeader × List (List UInt8)) := do
  let bytes ← ioResult file.bytes
  let fileSize := UInt64.ofNat bytes.length
  let frameReader ← ioResult (file.decoder 0)
  .ok (fileSize, legacyHeader fileSize, [frameReader])

/-- `Result::or_else`: a panic is not handled. -/
def orElse (first second : Exec ε α) : Exec ε α :=
  match first with
  | .error (.error _) => second
  | result => result

/-- `Pack::open`. -/
def open' (packName : PackId) : Exec Error Pack := do
  packName.validateRegular.mapError .idError
  let (fileSize, header, frameReaders) ← orElse file.openPack file.openPackLegacy
  .ok ⟨packName.name, header, frameReaders, fileSize⟩

end PackFile

section Extract

variable {ν σ : Type} (sha1 : List UInt8 → ObjectChecksum) (sink : Sink ν σ) (verify : Bool)

/-- The entries by frames, and how much has to be decompressed for them. -/
def planFrames (frames : List PackFrame) (entries : List FileEntry) :
    Exec Error (List (List FileEntry) × UInt64) := do
  let frameToEntries ← assignToFrames frames entries
  let bytes ← bytesToDecompress frameToEntries
  .ok (frameToEntries, bytes)

def frameTasks (pack : Pack) (frameToEntries : List (List FileEntry)) :
    List (List UInt8 × List FileEntry) :=
  (pack.frameReaders.zip frameToEntries).filter fun task => !task.2.isEmpty

/-- What the workers do, frame by frame, to the files. -/
def extractEntries (pack : Pack) (entries : List FileEntry) (numWorkers : UInt32) :
    Exec Error (List (σ → Exec Error σ)) :=
  if entries = [] then .ok []
  else do
    let numFrames := pack.header.frames.length
    Exec.assert (numWorkers != 0)
    Exec.assert (numFrames != 0)
    let (frameToEntries, _) ← planFrames pack.header.frames entries
    runInParallel (min numWorkers (UInt32.ofNat numFrames)).toNat (frameTasks pack frameToEntries)
      fun task => extractFiles sha1 sink verify task.1 task.2

/-- What the workers read, frame by frame. -/
def readEntryObjects (pack : Pack) (entries : List FileEntry) (numWorkers : UInt32) :
    Exec Error (List (Exec Error (List (FileEntry × List UInt8)))) :=
  if entries = [] then .ok []
  else do
    let frameToEntries ← assignToFrames pack.header.frames entries
    let tasks := frameTasks pack frameToEntries
    runInParallel (min (max numWorkers 1) (UInt32.ofNat tasks.length)).toNat tasks
      fun task => readObjects task.1 task.2

end Extract

end Elfshaker.Packs
