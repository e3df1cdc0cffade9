import Elfshaker.Esi.Valid
import Elfshaker.Remote.Endpoint

namespace Elfshaker.Remote

open Elfshaker.Library Elfshaker.Format Elfshaker.Store Elfshaker.Esi

section Updates

variable (urls : Urls Url)

/-- The URL that a remote is updated from takes no other version. -/
def Pins (remote : RemoteIndex) (version : MetaVersion) : Prop :=
  ∀ url, urls.parse remote.url = some url → ∀ other,
    validateEndpointVersion urls url other = .ok () → other = version

/-- A remote that is updated as the endpoint asks that it was fetched from. -/
def PinsEndpoint (endpoint : Url) (remote : RemoteIndex) : Prop :=
  ∀ version, requiredVersion urls endpoint = some version → Pins urls remote version

/-- What the file of a remote holds: it is fetched from an endpoint, then updated, with
whatever answers there are. `admits` says which updates there are. -/
inductive EndpointRuns (admits : Url → RemoteIndex → Prop) : Url → List UInt8 → Prop where
  | fetched {ask : Answers Url} {text : String} {suppliedUrl endpoint : Url}
      {data stored : List UInt8} {before : Stored} {remote : RemoteIndex}
      (supplied : urls.parse text = some suppliedUrl)
      (selected : selectEndpoint urls ask suppliedUrl = .ok (endpoint, data))
      (fetched : fetchRemote urls ask text before = (.ok remote, some stored)) :
      EndpointRuns admits endpoint stored
  | updated {ask : Answers Url} {path : String} {endpoint : Url} {stored stored' : List UInt8}
      {remote : RemoteIndex} {result : Exec FetchError RemoteIndex}
      (before : EndpointRuns admits endpoint stored)
      (loaded : RemoteIndex.read urls stored = .ok remote)
      (admitted : admits endpoint remote)
      (updated : updateRemote urls ask path remote (some stored) = (result, some stored')) :
      EndpointRuns admits endpoint stored'

end Updates

section Stable

variable {urls : Urls Url} {admits : Url → RemoteIndex → Prop} {endpoint : Url}
  {stored : List UInt8}

/-- The file holds an index, and one that the endpoint may have. -/
theorem EndpointRuns.reads (run : EndpointRuns urls admits endpoint stored) :
    ∃ remote, RemoteIndex.read urls stored = .ok remote := by
  induction run with
  | fetched supplied selected fetched =>
    obtain ⟨_, _, _, -, -, hread, -, hstored⟩ := fetchRemote_ok fetched
    cases hstored
    exact ⟨_, hread⟩
  | @updated ask path endpoint stored stored' remote result before loaded admitted updated ih =>
    cases result with
    | error e =>
      cases updateRemote_error updated
      exact ih
    | ok remote' =>
      rcases updateRemote_ok updated with ⟨hsame, -⟩ | ⟨url, data, -, hstored, hread, -⟩
      · cases hsame
        exact ih
      · cases hstored
        exact ⟨_, hread⟩

theorem EndpointRuns.version (run : EndpointRuns urls admits endpoint stored)
    {version : MetaVersion} (required : requiredVersion urls endpoint = some version)
    (pinned : ∀ remote, admits endpoint remote → Pins urls remote version)
    {remote : RemoteIndex} (hremote : RemoteIndex.read urls stored = .ok remote) :
    remote.version = version := by
  induction run generalizing remote with
  | @fetched ask text suppliedUrl endpoint data stored before remote' supplied selected fetched =>
    obtain ⟨url, _, _, hurl, hselect, hread, hvalid, hstored⟩ := fetchRemote_ok fetched
    cases hstored
    obtain rfl := Option.some.inj (supplied.symm.trans hurl)
    rw [selected] at hselect
    cases hselect
    rw [hread] at hremote
    cases hremote
    exact requiredVersion_of_valid required hvalid
  | @updated ask path endpoint stored stored' remote' result before loaded admitted updated ih =>
    cases result with
    | error e =>
      cases updateRemote_error updated
      exact ih required pinned hremote
    | ok updatedRemote =>
      rcases updateRemote_ok updated with ⟨hsame, -⟩ | ⟨url, data, hurl, hstored, hread, hvalid⟩
      · cases hsame
        exact ih required pinned hremote
      · cases hstored
        rw [hread] at hremote
        cases hremote
        exact pinned remote' admitted url hurl _ hvalid

/-- A document with no entries, as a server can have it. -/
theorem exists_document {remote : RemoteIndex} (loaded : RemoteIndex.read urls stored = .ok remote)
    (version : MetaVersion) : ∃ url data, urls.parse remote.url = some url ∧
      RemoteIndex.read urls data = .ok ⟨version, remote.url, []⟩ := by
  obtain ⟨document, hparse, hfrom⟩ := Exec.bind_eq_ok.mp loaded
  obtain ⟨packs, -, hremote⟩ := Exec.bind_eq_ok.mp hfrom
  cases hremote
  obtain ⟨header, urlHeader, lines, baseUrl, -, -, -, hbase, -⟩ := (Document.parse_valid hparse).1.shape
  obtain ⟨_, -, hurl⟩ := Exec.bind_eq_ok.mp hbase
  obtain ⟨created, hcreate⟩ : ∃ created,
      Document.create urls.toUrlCrate version document.url = .ok created :=
    ⟨_, Exec.bind_eq_ok.mpr ⟨baseUrl, hbase, rfl⟩⟩
  refine ⟨baseUrl, created.toBytes, Exec.okOr_eq_ok.mp hurl, ?_⟩
  rw [RemoteIndex.read, (Document.create_valid hcreate).parse, Exec.ok_bind]
  obtain ⟨_, -, hcreated⟩ := Exec.bind_eq_ok.mp hcreate
  cases hcreated
  rfl

/-- Just where the URL of the index takes no other version, no answer changes it. -/
theorem update_keeps_version_iff {remote : RemoteIndex}
    (loaded : RemoteIndex.read urls stored = .ok remote) :
    (∀ ask path updated stored', updateRemote urls ask path remote (some stored) =
        (.ok updated, stored') → updated.version = remote.version) ↔
      Pins urls remote remote.version := by
  constructor
  · intro keeps url hurl other hvalid
    obtain ⟨url', data, hurl', hread⟩ := exists_document loaded other
    rw [hurl] at hurl'
    cases hurl'
    exact keeps _ "" _ _ (updateRemote_of_answer hurl hread hvalid)
  · intro pinned ask path updated stored' hupdate
    rcases updateRemote_ok hupdate with ⟨-, hload⟩ | ⟨url, data, hurl, -, -, hvalid⟩
    · rw [loadStored, reify, Exec.mapError_eq_ok, loaded] at hload
      cases hload
      rfl
    · exact pinned url hurl _ hvalid

/-- The file of a remote always holds an index, a call that fails leaves it, and it
keeps the version of the endpoint while each update is made from a URL that takes no
other version. What else an update is made from lets the server change it. -/
theorem endpoint_version_stable (run : EndpointRuns urls admits endpoint stored) :
    (∃ remote, RemoteIndex.read urls stored = .ok remote) ∧
    (∀ ask path remote e stored', updateRemote urls ask path remote (some stored) =
      (.error e, stored') → stored' = some stored) ∧
    ((∀ remote, admits endpoint remote → PinsEndpoint urls endpoint remote) →
      ∀ version remote, requiredVersion urls endpoint = some version →
        RemoteIndex.read urls stored = .ok remote → remote.version = version) ∧
    ∀ remote, RemoteIndex.read urls stored = .ok remote →
      ((∀ ask path updated stored', updateRemote urls ask path remote (some stored) =
        (.ok updated, stored') → updated.version = remote.version) ↔
          Pins urls remote remote.version) := by
  refine ⟨run.reads, fun _ _ _ _ _ h => updateRemote_error h, ?_,
    fun _ hremote => update_keeps_version_iff hremote⟩
  intro pinned version remote required hremote
  exact run.version required (fun remote h => pinned remote h version required) hremote

end Stable

namespace StabilitySample

def legacy : String := UrlSample.host ++ "index.esi"

def versioned : String := UrlSample.host ++ "index.v2.esi"

/-- A document with no entries. -/
def document (version : MetaVersion) (url : String) : Document := {
  lines := [
    ⟨⟨Text.encodeUtf8 ("meta\t" ++ version.asStr), [Lines.lineFeed]⟩, .metaLine⟩,
    ⟨⟨Text.encodeUtf8 ("url\t" ++ url), [Lines.lineFeed]⟩, .urlLine⟩]
  version
  url }

theorem read_document {version : MetaVersion} {url : String}
    (h : Document.create UrlSample.urls.toUrlCrate version url = .ok (document version url)) :
    RemoteIndex.read UrlSample.urls (document version url).toBytes = .ok ⟨version, url, []⟩ := by
  rw [RemoteIndex.read, (Document.create_valid h).parse, Exec.ok_bind]
  rfl

/-- What the functions that read them make of the two URLs. -/
theorem urls_read :
    UrlSample.urls.parse legacy = some legacy ∧
    UrlSample.urls.parse versioned = some versioned ∧
    v2SiblingUrl UrlSample.urls legacy = some versioned ∧
    UrlSample.urls.lastSegment versioned = some ("index." ++ MetaVersion.v2.asStr ++ ".esi") ∧
    validateEndpointVersion UrlSample.urls versioned .v2 = .ok () ∧
    validateEndpointVersion UrlSample.urls legacy .v1 = .ok () ∧
    Document.create UrlSample.urls.toUrlCrate .v2 versioned = .ok (document .v2 versioned) ∧
    Document.create UrlSample.urls.toUrlCrate .v2 legacy = .ok (document .v2 legacy) ∧
    Document.create UrlSample.urls.toUrlCrate .v1 legacy = .ok (document .v1 legacy) := by
  decide

/-- A server with one document under the URL of version 2. -/
def serve (stored : Document) : Answers String := fun url =>
  if url = versioned then .ok ⟨200, .ok stored.toBytes⟩ else .ok ⟨404, .ok []⟩

theorem runs_fetched {admits : String → RemoteIndex → Prop} {url : String}
    (hcreate : Document.create UrlSample.urls.toUrlCrate .v2 url = .ok (document .v2 url)) :
    EndpointRuns UrlSample.urls admits versioned (document .v2 url).toBytes := by
  obtain ⟨hsupplied, -, hsibling, -, hvalid, -⟩ := urls_read
  have hselect : selectEndpoint UrlSample.urls (serve (document .v2 url)) legacy =
      .ok (versioned, (document .v2 url).toBytes) := by
    have hrequest : request (serve (document .v2 url)) versioned =
        .ok (.found (document .v2 url).toBytes) :=
      Exec.mapError_eq_ok.mpr (readRemoteResource_found.mpr (if_pos rfl))
    rw [selectEndpoint, hsibling]
    exact Exec.bind_eq_ok.mpr ⟨_, hrequest, rfl⟩
  have hinstall : installRemote UrlSample.urls versioned (document .v2 url).toBytes none =
      (.ok ⟨.v2, url, []⟩, some (document .v2 url).toBytes) :=
    installRemote_of_valid (read_document hcreate) hvalid
  have hparse : parseUrl UrlSample.urls legacy = .ok legacy := by
    rw [parseUrl, hsupplied, Exec.okOr_some]
  have hfetch : fetchRemote UrlSample.urls (serve (document .v2 url)) legacy none =
      (.ok ⟨.v2, url, []⟩, some (document .v2 url).toBytes) :=
    Effect.bind_eq_ok.mpr ⟨legacy, none, Effect.lift_eq_ok.mpr ⟨hparse, rfl⟩,
      Effect.bind_eq_ok.mpr ⟨_, none, Effect.lift_eq_ok.mpr ⟨hselect, rfl⟩, hinstall⟩⟩
  exact .fetched hsupplied hselect hfetch

theorem runs_updated {admits : String → RemoteIndex → Prop} {endpoint url : String}
    {version version' : MetaVersion}
    (before : EndpointRuns UrlSample.urls admits endpoint (document version url).toBytes)
    (hcreate : Document.create UrlSample.urls.toUrlCrate version url = .ok (document version url))
    (hcreate' : Document.create UrlSample.urls.toUrlCrate version' url =
      .ok (document version' url))
    (hurl : UrlSample.urls.parse url = some url)
    (hvalid : validateEndpointVersion UrlSample.urls url version' = .ok ())
    (admitted : admits endpoint ⟨version, url, []⟩) :
    EndpointRuns UrlSample.urls admits endpoint (document version' url).toBytes := by
  have hupdate : updateRemote UrlSample.urls
      (fun _ => .ok ⟨200, .ok (document version' url).toBytes⟩) "" ⟨version, url, []⟩
      (some (document version url).toBytes) =
        (.ok ⟨version', url, []⟩, some (document version' url).toBytes) :=
    updateRemote_of_answer hurl (read_document hcreate') hvalid
  exact .updated before (read_document hcreate) admitted hupdate

theorem required_versioned : requiredVersion UrlSample.urls versioned = some .v2 := by
  obtain ⟨-, -, -, hsegment, -⟩ := urls_read
  exact requiredVersion_named "index" .v2 hsegment

/-- The URL of version 2 takes that only. -/
theorem pins_versioned {remote : RemoteIndex} (h : remote.url = versioned) :
    PinsEndpoint UrlSample.urls versioned remote := by
  intro version required url hurl other hvalid
  have hparse : UrlSample.urls.parse remote.url = some versioned := h ▸ urls_read.2.1
  obtain rfl := Option.some.inj (hparse.symm.trans hurl)
  exact requiredVersion_of_valid required hvalid

end StabilitySample

theorem endpoint_version_stable_fetched :
    (∃ remote, RemoteIndex.read UrlSample.urls
      (StabilitySample.document .v2 StabilitySample.versioned).toBytes = .ok remote) ∧
    ∀ remote, RemoteIndex.read UrlSample.urls
      (StabilitySample.document .v2 StabilitySample.versioned).toBytes = .ok remote →
        remote.version = .v2 := by
  obtain ⟨-, hparse, -, -, hvalid, -, hcreate, -⟩ := StabilitySample.urls_read
  have hrun : EndpointRuns UrlSample.urls (fun _ remote => remote.url = StabilitySample.versioned)
      StabilitySample.versioned
      (StabilitySample.document .v2 StabilitySample.versioned).toBytes :=
    StabilitySample.runs_updated (StabilitySample.runs_fetched hcreate) hcreate hcreate hparse
      hvalid rfl
  have hstable := endpoint_version_stable hrun
  exact ⟨hstable.1, fun remote hremote =>
    hstable.2.2.1 (fun _ h => StabilitySample.pins_versioned h) .v2 remote
      StabilitySample.required_versioned hremote⟩

/-- A document of version 2 whose own URL is the old one is replaced by version 1. -/
theorem endpoint_version_not_stable : ¬ ∀ endpoint stored,
    EndpointRuns UrlSample.urls (fun _ _ => True) endpoint stored →
      ∀ version remote, requiredVersion UrlSample.urls endpoint = some version →
        RemoteIndex.read UrlSample.urls stored = .ok remote → remote.version = version := by
  intro h
  obtain ⟨hparse, -, -, -, -, hvalid, -, hsecond, hfirst⟩ := StabilitySample.urls_read
  have hread := StabilitySample.read_document hfirst
  have hrun : EndpointRuns UrlSample.urls (fun _ _ => True) StabilitySample.versioned
      (StabilitySample.document .v1 StabilitySample.legacy).toBytes :=
    StabilitySample.runs_updated (StabilitySample.runs_fetched hsecond) hsecond hfirst hparse
      hvalid trivial
  cases h _ _ hrun .v2 _ StabilitySample.required_versioned hread

end Elfshaker.Remote
