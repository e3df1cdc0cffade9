import Elfshaker.Packs.CreatePack
import Elfshaker.Store.CreateSnapshot

namespace Elfshaker.Packs

open Elfshaker.Library Elfshaker.Format Elfshaker.Store

def skippableMagicMask : Nat := 0x184D2A50

/-- `u32::to_le_bytes`; the number is cut to its width. -/
def leBytes (n : Nat) : List UInt8 := (beBytes 4 n).reverse

/-- A Zstandard skippable frame with the given user data. -/
def skippableFrame (bytes : List UInt8) : List UInt8 :=
  leBytes skippableMagicMask ++ (leBytes bytes.length ++ bytes)

/-- What a pack file is made with: the encoder of its header, and the compressor. -/
structure PackWriter where
  header : List PackFrame → List UInt8
  zstd : Zstd

def PackContent.file (writer : PackWriter) (content : PackContent) : List UInt8 :=
  skippableFrame (writer.header content.header) ++ content.frames.flatten

section Create

variable (writer : RmpWriter) (packWriter : PackWriter)

/-- `open_file(self.loose_object_path(checksum))`, and all there is in it. -/
def openLooseObject (dd : DataDir) (checksum : ObjectChecksum) : Exec IoError (List UInt8) :=
  dd.loose.readFile (looseObjectPath checksum)

/-- A pack file with something in it is not replaced. -/
def checkPackPath (pack : PackId) (dd : DataDir) : Exec IoError Unit :=
  match dd.packs.lookup pack.packPath with
  | some (.file bytes _) => if bytes = [] then .ok () else Exec.fail .alreadyExists
  | some .dir => Exec.fail .alreadyExists
  | none => .ok ()

/-- The checks before anything is created. -/
def preparePack (pack : PackId) : Call Unit := do
  Effect.lift (pack.validateRegular.mapError .idError)
  io Io.passing

/-- A pack that is not there yet, up to where its index is reserved. -/
def reservePack (pack : PackId) : Call Unit := do
  preparePack pack
  io (Io.look (checkPackPath pack))
  io (AtomicCreateFile.reserve pack.indexPath)

/-- Compresses the objects of the index into a temporary file. -/
def buildPack (index : PackIndex) (opts : PackOptions) : Call PackContent := do
  io Io.passing
  let content ← io (Io.look fun dd =>
    compressPack packWriter.zstd (openLooseObject dd) index opts)
  io Io.passing
  io Io.passing
  pure content

/-- What is left to do before the index is published. `randoms` name the temporary
files of the index and of the pack. -/
def fillPack (randoms : List UInt8 × List UInt8) (pack : PackId) (index : PackIndex)
    (opts : PackOptions) : Call AtomicCreateFile := do
  let indexOutput ← io (AtomicCreateFile.createTemp pack.indexPath randoms.1)
  let content ← buildPack packWriter index opts
  let packOutput ← io (AtomicCreateFile.new pack.packPath randoms.2)
  io (packOutput.commitContent (content.file packWriter))
  io Io.passing
  io (indexOutput.fill (content.index.serialize writer))
  pure indexOutput

def writePack (randoms : List UInt8 × List UInt8) (pack : PackId) (index : PackIndex)
    (opts : PackOptions) : Call Unit := do
  let output ← fillPack writer packWriter randoms pack index opts
  io (Io.onPacks (DirTree.rename output.temp output.path))

def createPack (randoms : List UInt8 × List UInt8) (pack : PackId) (index : PackIndex)
    (opts : PackOptions) : Call Unit := do
  reservePack pack
  writePack writer packWriter randoms pack index opts

/-- Replaces the pack and its index where they are there. -/
def createPackForce (pack : PackId) (index : PackIndex) (opts : PackOptions) : Call Unit := do
  preparePack pack
  let content ← buildPack packWriter index opts
  io (Io.onPacks (DirTree.publish pack.packPath (content.file packWriter)))
  io Io.prepareAtomicWrite
  io (Io.onPacks (DirTree.publish pack.indexPath (content.index.serialize writer)))

end Create

end Elfshaker.Packs
