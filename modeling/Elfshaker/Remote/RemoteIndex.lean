import Elfshaker.Esi.Editing
import Elfshaker.Remote.UpdateIndexes

namespace Elfshaker.Remote

open Elfshaker.Library Elfshaker.Format Elfshaker.Esi

/-- What is asked of the `url` crate. -/
structure Urls (Url : Type) extends UrlCrate Url where
  /-- What `Url::parse` says of a text that is no URL. -/
  parseError : String → String
  display : Url → String
  path : Url → String
  setPath : Url → String → Url
  /-- The last of `Url::path_segments`, where there are any. -/
  lastSegment : Url → Option String

structure RemoteIndex where
  version : MetaVersion
  url : String
  packs : List RemotePack
  deriving DecidableEq

namespace RemoteIndex

variable (urls : Urls Url)

def packOf (document : Document) (entry : Entry) : Exec FormatError RemotePack := do
  let url ← document.resolvedEntryUrl urls.toUrlCrate entry
  .ok ⟨entry.indexChecksum, entry.packChecksum, urls.display url, entry.indexSize, entry.packSize⟩

def fromDocument (document : Document) : Exec FormatError RemoteIndex := do
  let packs ← document.entries.mapM (packOf urls document)
  .ok ⟨document.version, document.url, packs⟩

def read (bytes : List UInt8) : Exec FormatError RemoteIndex := do
  let document ← Document.parse urls.toUrlCrate bytes
  fromDocument urls document

/-- A document that was made by editing is read back. -/
theorem read_reached {urls : Urls Url} {document : Document} {index : RemoteIndex}
    (reached : Document.Reached urls.toUrlCrate document)
    (h : fromDocument urls document.stored = .ok index) :
    read urls document.toBytes = .ok index := by
  rw [read, reached.valid.parse, Exec.ok_bind, h]

end RemoteIndex

namespace UrlSample

def host : String := "https://example.test/"

def path (url : String) : String := ((Text.stripPrefix host url).map ("/" ++ ·)).getD "/"

/-- The URLs of one server, as they are written out. -/
def urls : Urls String where
  parse url := if (Text.stripPrefix host url).isSome then some url else none
  join _ name := some (host ++ name)
  parseError _ := "relative URL without a base"
  display url := url
  path := path
  setPath _ path := host ++ (Text.stripPrefix "/" path).getD path
  lastSegment url := (Text.rsplitOnce '/' (path url).toList).map fun split =>
    String.ofList split.2

end UrlSample

end Elfshaker.Remote
