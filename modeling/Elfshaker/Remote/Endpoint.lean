import Elfshaker.Remote.RemoteIndex

namespace Elfshaker.Remote

open Elfshaker.Library Elfshaker.Format Elfshaker.Store Elfshaker.Esi

inductive FetchError where
  | error (e : Error)
  | badRemoteIndexFormat (message : String) (source : Option String)
  deriving DecidableEq

/-- Names the source of a bad index. -/
def reify (displayName : String) (x : Exec FormatError α) : Exec FetchError α :=
  x.mapError fun e => .badRemoteIndexFormat e.message (some displayName)

def fetchFailed (message : String) : FetchError := .error (.httpError message)

section Endpoint

variable (urls : Urls Url)

/-- What the last `.v` before the extension is followed by. -/
def versionSuffix (url : Url) : Option (List Char) := do
  let fileName ← urls.lastSegment url
  let stem ← Text.stripSuffix ".esi" fileName
  let split ← Text.rsplitOnceAt ['.', 'v'] stem.toList
  some split.2

def endpointVersion (url : Url) : Option MetaVersion :=
  match versionSuffix urls url with
  | some ['1'] => some .v1
  | some ['2'] => some .v2
  | _ => none

def isVersionedEndpoint (url : Url) : Bool :=
  match versionSuffix urls url with
  | some version => !version.isEmpty && version.all Char.isDigit
  | none => false

def isEsi (url : Url) : Bool := (Text.stripSuffix ".esi" (urls.path url)).isSome

def v2SiblingUrl (url : Url) : Option Url :=
  if isVersionedEndpoint urls url then none
  else (Text.stripSuffix ".esi" (urls.path url)).map fun stem => urls.setPath url (stem ++ ".v2.esi")

def requireVersion (url : Url) (version : MetaVersion) : Option MetaVersion → Exec FetchError Unit
  | some expected =>
    if expected = version then .ok ()
    else Exec.fail (.badRemoteIndexFormat ("Endpoint '" ++ urls.display url ++ "' requires meta " ++
      expected.asStr ++ ", found meta " ++ version.asStr) none)
  | none => Exec.fail (.badRemoteIndexFormat
      ("Unsupported versioned ESI endpoint '" ++ urls.display url ++ "'") none)

def validateEndpointVersion (url : Url) (version : MetaVersion) : Exec FetchError Unit :=
  if isVersionedEndpoint urls url then requireVersion urls url version (endpointVersion urls url)
  else if isEsi urls url ∧ version ≠ .v1 then
    Exec.fail (.badRemoteIndexFormat ("Unversioned endpoint '" ++ urls.display url ++
      "' requires meta v1, found meta " ++ version.asStr) none)
  else .ok ()

end Endpoint

/-- The file of a remote, where it is there. -/
abbrev Stored := Option (List UInt8)

/-- What a server answers to the requests of one call. -/
abbrev Answers (Url : Type) := Url → Except String Reply

section Fetch

variable (urls : Urls Url)

def loadStored (path : String) : Stored → Exec FetchError RemoteIndex
  | some bytes => reify path (RemoteIndex.read urls bytes)
  | none => Exec.fail (.error (.ioError .notFound))

/-- `RemoteIndex::load`. -/
def load (path : String) : Effect Stored FetchError RemoteIndex :=
  Effect.asks (loadStored urls path)

/-- The file is written when its new content has been checked. -/
def installRemote (fetchedUrl : Url) (data : List UInt8) :
    Effect Stored FetchError RemoteIndex := do
  let remote ← Effect.lift (reify (urls.display fetchedUrl) (RemoteIndex.read urls data))
  Effect.lift (validateEndpointVersion urls fetchedUrl remote.version)
  Effect.modify fun _ => some data
  pure remote

def request (ask : Answers Url) (url : Url) : Exec FetchError RemoteResource :=
  (readRemoteResource (ask url)).mapError .error

def requireFound : RemoteResource → Exec FetchError (List UInt8)
  | .found body => .ok body
  | .notModified => Exec.panic
  | .notFound => Exec.fail (fetchFailed (httpFailure httpStatusNotFound))

def fetchSupplied (ask : Answers Url) (suppliedUrl : Url) : Exec FetchError (Url × List UInt8) := do
  let resource ← request ask suppliedUrl
  let body ← requireFound resource
  .ok (suppliedUrl, body)

/-- Only where there is no newer sibling is the supplied URL asked for. -/
def fallBack (ask : Answers Url) (versionedUrl suppliedUrl : Url) :
    RemoteResource → Exec FetchError (Url × List UInt8)
  | .found body => .ok (versionedUrl, body)
  | .notFound => fetchSupplied ask suppliedUrl
  | .notModified => Exec.panic

/-- The URL that a new remote is fetched from, and what there is. -/
def selectEndpoint (ask : Answers Url) (suppliedUrl : Url) : Exec FetchError (Url × List UInt8) :=
  match v2SiblingUrl urls suppliedUrl with
  | some versionedUrl => do
    let resource ← request ask versionedUrl
    fallBack ask versionedUrl suppliedUrl resource
  | none => fetchSupplied ask suppliedUrl

def parseUrl (url : String) : Exec FetchError Url :=
  Exec.okOr (fetchFailed (urls.parseError url)) (urls.parse url)

def fetchRemote (ask : Answers Url) (url : String) : Effect Stored FetchError RemoteIndex := do
  let suppliedUrl ← Effect.lift (parseUrl urls url)
  let fetched ← Effect.lift (selectEndpoint urls ask suppliedUrl)
  installRemote urls fetched.1 fetched.2

def acceptUpdate (path : String) (url : Url) :
    RemoteResource → Effect Stored FetchError RemoteIndex
  | .found body => installRemote urls url body
  | .notModified => load urls path
  | .notFound => Effect.lift (Exec.fail (fetchFailed (httpFailure httpStatusNotFound)))

/-- The update of a remote that has been loaded from its file. -/
def updateRemote (ask : Answers Url) (path : String) (remote : RemoteIndex) :
    Effect Stored FetchError RemoteIndex := do
  let url ← Effect.lift (parseUrl urls remote.url)
  let resource ← Effect.lift (request ask url)
  acceptUpdate urls path url resource

end Fetch

section Accept

variable {urls : Urls Url} {url : Url} {version : MetaVersion} {stored : Stored}

/-- The version of the documents that an endpoint is for. -/
def requiredVersion (urls : Urls Url) (url : Url) : Option MetaVersion :=
  if isVersionedEndpoint urls url then endpointVersion urls url
  else if isEsi urls url then some .v1 else none

theorem versionSuffix_named {stem : String} {name digits : List Char}
    (h : urls.lastSegment url = some (stem ++ ".esi"))
    (hstem : stem.toList = name ++ (['.', 'v'] ++ digits))
    (hlast : Text.rsplitOnceAt ['.', 'v'] (['v'] ++ digits) = none) :
    versionSuffix urls url = some digits := by
  have hsplit : Text.rsplitOnceAt ['.', 'v'] stem.toList = some (name, digits) := by
    rw [hstem]
    exact Text.rsplitOnceAt_append hlast
  rw [versionSuffix, h, Option.bind_eq_bind, Option.bind_some, Text.stripSuffix_append,
    Option.bind_eq_bind, Option.bind_some, hsplit]
  rfl

/-- A file `name.vN.esi` is for version `N`. -/
theorem requiredVersion_named (name : String) (version : MetaVersion)
    (h : urls.lastSegment url = some (name ++ "." ++ version.asStr ++ ".esi")) :
    requiredVersion urls url = some version := by
  have hstem (digit : Char) (hversion : version.asStr.toList = ['v', digit]) :
      (name ++ "." ++ version.asStr).toList = name.toList ++ (['.', 'v'] ++ [digit]) := by
    rw [String.toList_append, String.toList_append, hversion, List.append_assoc]
    rfl
  cases version with
  | v1 =>
    have hsuffix := versionSuffix_named h (hstem '1' rfl) rfl
    simp [requiredVersion, isVersionedEndpoint, endpointVersion, hsuffix]
  | v2 =>
    have hsuffix := versionSuffix_named h (hstem '2' rfl) rfl
    simp [requiredVersion, isVersionedEndpoint, endpointVersion, hsuffix]

/-- An endpoint of a version takes no other. -/
theorem requiredVersion_of_valid {required : MetaVersion}
    (h : requiredVersion urls url = some required)
    (valid : validateEndpointVersion urls url version = .ok ()) : version = required := by
  unfold requiredVersion at h
  unfold validateEndpointVersion at valid
  split_ifs at h valid with hversioned hesi hother
  · rw [h, requireVersion] at valid
    split_ifs at valid with hsame
    · exact hsame.symm
    · cases valid
  · cases valid
  · obtain rfl := Option.some.inj h
    by_contra hne
    exact hother ⟨hesi, hne⟩

theorem installRemote_ok {data : List UInt8} {remote : RemoteIndex} {stored' : Stored}
    (h : installRemote urls url data stored = (.ok remote, stored')) :
    RemoteIndex.read urls data = .ok remote ∧
      validateEndpointVersion urls url remote.version = .ok () ∧ stored' = some data := by
  obtain ⟨read, _, hread, h⟩ := Effect.bind_eq_ok.mp h
  obtain ⟨_, _, hvalid, h⟩ := Effect.bind_eq_ok.mp h
  obtain ⟨_, _, hwrite, h⟩ := Effect.bind_eq_ok.mp h
  obtain ⟨rfl, rfl⟩ := Effect.pure_eq_ok.mp h
  cases hwrite
  exact ⟨Exec.mapError_eq_ok.mp (Effect.lift_eq_ok.mp hread).1, (Effect.lift_eq_ok.mp hvalid).1, rfl⟩

theorem installRemote_of_valid {data : List UInt8} {remote : RemoteIndex}
    (hread : RemoteIndex.read urls data = .ok remote)
    (hvalid : validateEndpointVersion urls url remote.version = .ok ()) :
    installRemote urls url data stored = (.ok remote, some data) :=
  Effect.bind_eq_ok.mpr ⟨remote, stored,
    Effect.lift_eq_ok.mpr ⟨Exec.mapError_eq_ok.mpr hread, rfl⟩,
    Effect.bind_eq_ok.mpr ⟨(), stored, Effect.lift_eq_ok.mpr ⟨hvalid, rfl⟩, rfl⟩⟩

/-- Where an index is not installed the file is as it was. -/
theorem installRemote_keeps {data : List UInt8} : Effect.Triple (fun s => s = stored)
    (installRemote urls url data) (fun _ _ => True) fun s => s = stored := by
  refine Effect.Triple.bind (Effect.Keeps.lift _) fun remote => ?_
  refine Effect.Triple.bind (Effect.Keeps.lift _) fun _ => ?_
  refine .intro (fun _ _ _ _ _ => trivial) fun s s' e _ h => ?_
  cases h

theorem fetchRemote_ok {ask : Answers Url} {text : String} {remote : RemoteIndex}
    {stored' : Stored} (h : fetchRemote urls ask text stored = (.ok remote, stored')) :
    ∃ suppliedUrl endpoint data, urls.parse text = some suppliedUrl ∧
      selectEndpoint urls ask suppliedUrl = .ok (endpoint, data) ∧
      RemoteIndex.read urls data = .ok remote ∧
      validateEndpointVersion urls endpoint remote.version = .ok () ∧ stored' = some data := by
  obtain ⟨suppliedUrl, _, hparse, h⟩ := Effect.bind_eq_ok.mp h
  obtain ⟨⟨endpoint, data⟩, _, hselect, h⟩ := Effect.bind_eq_ok.mp h
  have hsupplied := Exec.okOr_eq_ok.mp (Effect.lift_eq_ok.mp hparse).1
  exact ⟨suppliedUrl, endpoint, data, hsupplied, (Effect.lift_eq_ok.mp hselect).1,
    installRemote_ok h⟩

theorem fetchRemote_error {ask : Answers Url} {text : String} {e : Failure FetchError}
    {stored' : Stored} (h : fetchRemote urls ask text stored = (.error e, stored')) :
    stored' = stored := by
  have hkeeps : Effect.Triple (fun s => s = stored) (fetchRemote urls ask text)
      (fun _ _ => True) fun s => s = stored :=
    Effect.Triple.bind (Effect.Keeps.lift _) fun _ =>
      Effect.Triple.bind (Effect.Keeps.lift _) fun _ => installRemote_keeps
  exact hkeeps.error rfl h

theorem updateRemote_error {ask : Answers Url} {path : String} {remote : RemoteIndex}
    {e : Failure FetchError} {stored' : Stored}
    (h : updateRemote urls ask path remote stored = (.error e, stored')) : stored' = stored := by
  have hkeeps : Effect.Triple (fun s => s = stored) (updateRemote urls ask path remote)
      (fun _ _ => True) fun s => s = stored := by
    refine Effect.Triple.bind (Effect.Keeps.lift _) fun url => ?_
    refine Effect.Triple.bind (Effect.Keeps.lift _) fun resource => ?_
    cases resource with
    | found body => exact installRemote_keeps
    | notModified =>
      exact (Effect.Keeps.asks _).weaken (fun _ h => h) (fun _ _ _ => trivial) fun _ h => h
    | notFound => exact .fails
  exact hkeeps.error rfl h

/-- An update that succeeds leaves the file, or puts there what the URL of the index
has been asked for. -/
theorem updateRemote_ok {ask : Answers Url} {path : String} {remote updated : RemoteIndex}
    {stored' : Stored} (h : updateRemote urls ask path remote stored = (.ok updated, stored')) :
    (stored' = stored ∧ loadStored urls path stored = .ok updated) ∨
      ∃ url data, urls.parse remote.url = some url ∧ stored' = some data ∧
        RemoteIndex.read urls data = .ok updated ∧
        validateEndpointVersion urls url updated.version = .ok () := by
  obtain ⟨url, _, hparse, h⟩ := Effect.bind_eq_ok.mp h
  obtain ⟨resource, _, hresource, h⟩ := Effect.bind_eq_ok.mp h
  obtain ⟨hurl, rfl⟩ := Effect.lift_eq_ok.mp hparse
  obtain ⟨-, rfl⟩ := Effect.lift_eq_ok.mp hresource
  cases resource with
  | found body =>
    obtain ⟨hread, hvalid, rfl⟩ := installRemote_ok h
    exact .inr ⟨url, body, Exec.okOr_eq_ok.mp hurl, rfl, hread, hvalid⟩
  | notModified =>
    obtain ⟨hload, rfl⟩ := Effect.asks_eq_ok.mp h
    exact .inl ⟨rfl, hload⟩
  | notFound => cases h

/-- What the URL of an index is answered is its next content, if that is accepted. -/
theorem updateRemote_of_answer {remote updated : RemoteIndex} {data : List UInt8} {path : String}
    (hurl : urls.parse remote.url = some url) (hread : RemoteIndex.read urls data = .ok updated)
    (hvalid : validateEndpointVersion urls url updated.version = .ok ()) :
    updateRemote urls (fun _ => .ok ⟨200, .ok data⟩) path remote stored =
      (.ok updated, some data) := by
  have hparse : parseUrl urls remote.url = .ok url := by rw [parseUrl, hurl, Exec.okOr_some]
  have hrequest : request (fun _ => .ok ⟨200, .ok data⟩) url = .ok (.found data) :=
    Exec.mapError_eq_ok.mpr (readRemoteResource_found.mpr rfl)
  exact Effect.bind_eq_ok.mpr ⟨url, stored, Effect.lift_eq_ok.mpr ⟨hparse, rfl⟩,
    Effect.bind_eq_ok.mpr ⟨.found data, stored, Effect.lift_eq_ok.mpr ⟨hrequest, rfl⟩,
      installRemote_of_valid hread hvalid⟩⟩

end Accept

end Elfshaker.Remote
