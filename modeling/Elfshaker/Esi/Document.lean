import Elfshaker.Format.Entry
import Elfshaker.Library.Effect
import Elfshaker.Library.Lines
import Elfshaker.Library.Numerals
import Elfshaker.Library.Text

namespace Elfshaker.Esi

open Elfshaker.Library Elfshaker.Library.Lines Elfshaker.Format

abbrev Checksum := ObjectChecksum

structure FormatError where
  message : String
  deriving DecidableEq, Repr

inductive MetaVersion where
  | v1
  | v2
  deriving DecidableEq, Repr

def MetaVersion.asStr : MetaVersion → String
  | .v1 => "v1"
  | .v2 => "v2"

def MetaVersion.fromStr (value : String) : Exec FormatError MetaVersion :=
  if value = "v1" then .ok .v1
  else if value = "v2" then .ok .v2
  else Exec.fail ⟨s!"Unsupported ESI meta version '{value}'"⟩

structure Entry where
  indexChecksum : Checksum
  packChecksum : Checksum
  /-- The URL as the document spells it. -/
  url : String
  packSize : Option UInt64
  indexSize : Option UInt64
  deriving DecidableEq

/-- `Url::parse`, and `Url::join`. -/
structure UrlCrate (Url : Type) where
  parse : String → Option Url
  join : Url → String → Option Url

section Fields

def validateFieldValue (value description : String) : Exec FormatError Unit :=
  if value = "" then Exec.fail ⟨s!"The {description} must not be empty"⟩
  else if value.toList.any Text.isWhitespace then
    Exec.fail ⟨s!"The {description} must not contain literal whitespace; percent-encode it instead"⟩
  else .ok ()

def validateIndexUrl (crate : UrlCrate Url) (value : String) : Exec FormatError Url := do
  validateFieldValue value "elfshaker index URL"
  Exec.okOr ⟨s!"Expected a valid elfshaker index URL, found {value}"⟩ (crate.parse value)

def isFieldSeparator (c : Char) : Bool := c == ' ' || c == '\t'

def fields (content : List UInt8) (lineNo : Nat) : Exec FormatError (List String) := do
  let text ← Exec.okOr ⟨s!"Invalid UTF-8 on line {lineNo}"⟩ (Text.fromUtf8 content)
  .ok (Text.words isFieldSeparator text)

def parseHeader (content : List UInt8) (expectedKey : String) (lineNo : Nat) :
    Exec FormatError String := do
  let fields ← fields content lineNo
  if fields.head? ≠ some expectedKey then
    Exec.fail ⟨s!"Expected '{expectedKey} ...' on line {lineNo}"⟩
  else match fields with
  | [_, value] => .ok value
  | fields =>
    if 2 < fields.length then Exec.fail ⟨s!"Too many values on line {lineNo}"⟩
    else Exec.fail ⟨s!"Expected a value after '{expectedKey}' on line {lineNo}"⟩

def parseChecksum (value description : String) (lineNo : Nat) : Exec FormatError Checksum :=
  match hexDecode value.toList with
  | none => Exec.fail ⟨s!"Bad {description} checksum format on line {lineNo}"⟩
  | some decoded =>
    if h : decoded.length = 20 then .ok ⟨decoded, h⟩
    else Exec.fail ⟨s!"The {description} checksum on line {lineNo} is not 20 bytes"⟩

def parseSize (value description : String) (lineNo : Nat) : Exec FormatError UInt64 :=
  Exec.okOr ⟨s!"Invalid {description} size '{value}' on line {lineNo}"⟩ (parseU64 value.toList)

def parseEntry (crate : UrlCrate Url) (content : List UInt8) (version : MetaVersion) (baseUrl : Url)
    (lineNo : Nat) : Exec FormatError Entry := do
  let fields ← fields content lineNo
  let expected := if version = .v1 then 3 else 5
  let found := fields.length
  if found < expected then
    Exec.fail ⟨s!"Expected {expected} values on line {lineNo}, found {found}"⟩
  else if expected < found then Exec.fail ⟨s!"Too many values on line {lineNo}"⟩
  else
    let index ← Exec.unwrap fields[0]?
    let indexChecksum ← parseChecksum index "pack index" lineNo
    let pack ← Exec.unwrap fields[1]?
    let packChecksum ← parseChecksum pack "pack" lineNo
    let url ← Exec.unwrap fields[2]?
    validateFieldValue url "pack URL"
    let _ ← Exec.okOr ⟨s!"Expected a valid pack URL, found '{url}' on line {lineNo}"⟩
      (crate.join baseUrl url)
    if version = .v2 then
      let packSize ← Exec.unwrap fields[3]?
      let packSize ← parseSize packSize "pack" lineNo
      let indexSize ← Exec.unwrap fields[4]?
      let indexSize ← parseSize indexSize "pack index" lineNo
      .ok ⟨indexChecksum, packChecksum, url, some packSize, some indexSize⟩
    else .ok ⟨indexChecksum, packChecksum, url, none, none⟩

def decimal (n : UInt64) : String := String.ofList (Nat.toDigits 10 n.toNat)

def hex (checksum : Checksum) : String := String.ofList (hexEncode checksum.bytes)

def Entry.canonicalLine (entry : Entry) (version : MetaVersion) :
    Exec FormatError (List UInt8) := do
  validateFieldValue entry.url "pack URL"
  let url := entry.url
  let line := hex entry.indexChecksum ++ "\t" ++ hex entry.packChecksum ++ "\t" ++ url
  if version = .v2 then
    let packSize ← Exec.okOr ⟨s!"Missing pack size for '{url}'"⟩ entry.packSize
    let indexSize ← Exec.okOr ⟨s!"Missing pack index size for '{url}'"⟩ entry.indexSize
    .ok (Text.encodeUtf8 (line ++ "\t" ++ decimal packSize ++ "\t" ++ decimal indexSize))
  else .ok (Text.encodeUtf8 line)

end Fields

inductive LineKind where
  | metaLine
  | urlLine
  | blank
  | entry (entry : Entry)
  deriving DecidableEq

structure Line extends RawLine where
  kind : LineKind
  deriving DecidableEq

def Line.asEntry (line : Line) : Option Entry :=
  match line.kind with
  | .entry entry => some entry
  | _ => none

/-- The line has the entry with this URL. -/
def Line.isEntry (url : String) (line : Line) : Bool :=
  match line.kind with
  | .entry current => current.url == url
  | _ => false

structure Document where
  lines : List Line
  version : MetaVersion
  url : String
  deriving DecidableEq

def splitLines (bytes : List UInt8) : List Line :=
  (split bytes).map fun line => ⟨line, .blank⟩

def isBlank (content : List UInt8) : Bool :=
  content.all fun byte => byte == 0x20 || byte == 0x09

/-- The lines after the headers, where the URLs before them are in `urls`. -/
def parseLines (crate : UrlCrate Url) (version : MetaVersion) (baseUrl : Url) :
    List String → Nat → List Line → Exec FormatError (List Line)
  | _, _, [] => .ok []
  | urls, lineNo, line :: rest =>
    if isBlank line.content then do
      let rest ← parseLines crate version baseUrl urls (lineNo + 1) rest
      .ok ({ line with kind := .blank } :: rest)
    else do
      let entry ← parseEntry crate line.content version baseUrl lineNo
      let url := entry.url
      if url ∈ urls then Exec.fail ⟨s!"Duplicate pack URL '{url}' on line {lineNo}"⟩
      else
        let rest ← parseLines crate version baseUrl (url :: urls) (lineNo + 1) rest
        .ok ({ line with kind := .entry entry } :: rest)

namespace Document

def create (crate : UrlCrate Url) (version : MetaVersion) (url : String) :
    Exec FormatError Document := do
  let _ ← validateIndexUrl crate url
  .ok {
    lines := [
      ⟨⟨Text.encodeUtf8 ("meta\t" ++ version.asStr), [lineFeed]⟩, .metaLine⟩,
      ⟨⟨Text.encodeUtf8 ("url\t" ++ url), [lineFeed]⟩, .urlLine⟩]
    version
    url }

def parse (crate : UrlCrate Url) (bytes : List UInt8) : Exec FormatError Document :=
  match splitLines bytes with
  | header :: urlHeader :: lines => do
    let metaValue ← parseHeader header.content "meta" 1
    let version ← MetaVersion.fromStr metaValue
    let url ← parseHeader urlHeader.content "url" 2
    let baseUrl ← validateIndexUrl crate url
    let lines ← parseLines crate version baseUrl [] 3 lines
    .ok {
      lines := { header with kind := .metaLine } :: { urlHeader with kind := .urlLine } :: lines
      version
      url }
  | _ => Exec.fail ⟨"Expected ESI headers 'meta ...' and 'url ...'"⟩

def entries (document : Document) : List Entry := document.lines.filterMap Line.asEntry

def resolvedEntryUrl (crate : UrlCrate Url) (document : Document) (entry : Entry) :
    Exec FormatError Url := do
  let base ← validateIndexUrl crate document.url
  validateFieldValue entry.url "pack URL"
  let url := entry.url
  Exec.okOr ⟨s!"Expected a valid pack URL, found '{url}'"⟩ (crate.join base url)

def toBytes (document : Document) : List UInt8 :=
  document.lines.flatMap fun line => line.content ++ line.ending

def preferredLineEnding (document : Document) : List UInt8 :=
  (document.lines.findSome? fun line =>
    if line.ending = [] then none else some line.ending).getD [lineFeed]

def endedWithNewline (document : Document) : Bool :=
  (document.lines.getLast?.map fun line => !line.ending.isEmpty).getD false

/-- The lines, with an end for the last one. -/
def terminated (document : Document) (ending : List UInt8) : List Line :=
  match document.lines.getLast? with
  | some last => document.lines.dropLast ++ [{ last with ending }]
  | none => []

/-- The document with one more line. -/
def push (document : Document) (canonical : List UInt8) (entry : Entry) : Document :=
  let ending := document.preferredLineEnding
  if document.endedWithNewline then
    { document with lines := document.lines ++ [⟨⟨canonical, ending⟩, .entry entry⟩] }
  else
    { document with lines := document.terminated ending ++ [⟨⟨canonical, []⟩, .entry entry⟩] }

def add (crate : UrlCrate Url) (entry : Entry) (force : Bool) :
    Effect Document FormatError Unit := do
  let document ← Effect.asks .ok
  let url := entry.url
  Effect.lift (validateFieldValue url "pack URL")
  let base ← Effect.lift (validateIndexUrl crate document.url)
  let _ ← Effect.lift (Exec.okOr ⟨s!"Expected a valid pack URL, found '{url}'"⟩
    (crate.join base url))
  -- The line is known to be one before the document is changed.
  let canonical ← Effect.lift (entry.canonicalLine document.version)
  match document.lines.findIdx? (Line.isEntry url) with
  | some index =>
    if !force then Effect.lift (Exec.fail ⟨s!"Pack URL '{url}' already exists"⟩)
    else Effect.modify fun document => { document with
      lines := document.lines.modify index fun line =>
        { line with content := canonical, kind := .entry entry } }
  | none => Effect.modify fun document => document.push canonical entry

def remove (url : String) (force : Bool) : Effect Document FormatError Unit := do
  let document ← Effect.asks .ok
  match document.lines.findIdx? (Line.isEntry url) with
  | some index => Effect.modify fun document => { document with
      lines := document.lines.eraseIdx index }
  | none =>
    if force then pure ()
    else Effect.lift (Exec.fail ⟨s!"Pack URL '{url}' does not exist"⟩)

end Document

end Elfshaker.Esi
