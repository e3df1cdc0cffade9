import Elfshaker.Remote.Endpoint
import Elfshaker.Remote.PackNames

namespace Elfshaker.Remote

open Elfshaker.Library Elfshaker.Format Elfshaker.Store
open Elfshaker.Esi (Document MetaVersion)

/-- The directory of the remotes, in the order the system lists it. -/
abbrev RemotesDir := AList fun _ : String => Stored

/-- A remote that was loaded, with the name that its file gives it. -/
structure LoadedRemote where
  name : String
  index : RemoteIndex
  deriving DecidableEq

/-- `Path::file_stem`, where `Path::extension` is that of a remote index. -/
def remoteName (fileName : String) : Option String :=
  match Text.rsplitOnce '.' fileName.toList with
  | some (stem, extension) =>
    if stem ≠ [] ∧ extension = ['e', 's', 'i'] then some (String.ofList stem) else none
  | none => none

def RemoteIndex.findPackIn (fileName : String) : List RemotePack → Exec ε (Option RemotePack)
  | [] => .ok none
  | pack :: packs => do
    let name ← pack.fileName
    if name = fileName then .ok (some pack) else findPackIn fileName packs

/-- The first entry for a pack. -/
def RemoteIndex.findPack (remote : RemoteIndex) (packName : String) :
    Exec ε (Option RemotePack) :=
  findPackIn (packName ++ dotPackExtension) remote.packs

/-- The part of an identifier behind the name of a remote. -/
def packPart (id : PackId) : String :=
  match Text.rsplitOnce '/' id.name.toList with
  | some (_, pack) => String.ofList pack
  | none => id.name

/-- What a server answers to a request, with the date after which the file is wanted. -/
abbrev PackAnswers (Url : Type) := Url → Option Nat → Except String Reply

/-- A body that breaks off is an error of the reader. -/
def receivePack (answer : Except String Reply) : Exec Error RemoteResource :=
  match answer with
  | .ok ⟨status, .error message⟩ =>
    if status = httpStatusOk then Exec.fail (.ioError (.other message))
    else readRemoteResource (.ok ⟨status, .error message⟩)
  | answer => readRemoteResource answer

/-- `File::create`. -/
def createFile (path : String) : Io Unit :=
  Io.onPacks fun now tree => do
    let tree ← DirTree.openCreate path now tree
    .ok (AList.insert path (.file [] now) tree)

/-- A file that is what an entry of a remote index says of its pack. -/
def RemotePack.IsPack (sha1 : List UInt8 → ObjectChecksum) (entry : RemotePack)
    (bytes : List UInt8) : Prop :=
  sha1 bytes = entry.packChecksum ∧ SizeFits entry.packSize bytes

instance (sha1 : List UInt8 → ObjectChecksum) (entry : RemotePack) (bytes : List UInt8) :
    Decidable (entry.IsPack sha1 bytes) :=
  inferInstanceAs (Decidable (_ ∧ _))

section Load

variable (urls : Urls Url)

/-- A file of the directory with the name of its remote. -/
def remoteFile (entry : (_ : String) × Stored) : Option (String × String × Stored) :=
  (remoteName entry.1).map fun name => (name, entry.1, entry.2)

def loadRemote (file : String × String × Stored) : Exec FetchError LoadedRemote := do
  let index ← loadStored urls file.2.1 file.2.2
  .ok ⟨file.1, index⟩

def loadRemotes (dir : RemotesDir) : Exec FetchError (List LoadedRemote) :=
  (dir.entries.filterMap remoteFile).mapM (loadRemote urls)

end Load

section Fetch

variable (crates : Crates) (urls : Urls Url) (ask : PackAnswers Url)

def acceptPack (entry : RemotePack) (path : String) : RemoteResource → Call Unit
  | .found data =>
    if entry.IsPack crates.sha1 data then io do
      createFile path
      Io.writeToPacks path data
    else Effect.lift (Exec.fail .corruptPack)
  | .notModified => pure ()
  | .notFound => Effect.lift (Exec.fail (.httpError (httpFailure httpStatusNotFound)))

/-- `remote::update_remote_pack`. -/
def fetchPack (entry : RemotePack) (path : String) : Call Unit := do
  let dateModified ← Effect.asks fun s => .ok (s.state.dataDir.packs.mtime path)
  let url ← Effect.lift (Exec.unwrap (urls.parse entry.url))
  let resource ← Effect.lift (receivePack (ask url dateModified))
  acceptPack crates entry path resource

/-- Where a remote keeps a pack. -/
def remotePackPath (remote : LoadedRemote) (pack : String) : String :=
  remote.name ++ "/" ++ (pack ++ dotPackExtension)

/-- The first remote that has a pack of the name is asked for it. -/
def updateFrom (pack : String) : List LoadedRemote → Call Unit
  | [] => Effect.lift (Exec.fail (.packNotFound pack))
  | remote :: remotes => do
    let found ← Effect.lift (remote.index.findPack pack)
    match found with
    | some entry => fetchPack crates urls ask entry (remotePackPath remote pack)
    | none => updateFrom pack remotes

def ioFetchError (e : IoError) : FetchError := .error (.ioError e)

/-- `Repository::update_remote_pack`. -/
def updateRemotePack (dir : Exec IoError RemotesDir) (id : PackId) :
    Effect (Session Disk Fault) FetchError Unit := do
  let dir ← Effect.lift (dir.mapError ioFetchError)
  let remotes ← Effect.lift (loadRemotes urls dir)
  Effect.mapError .error (updateFrom crates urls ask (packPart id) remotes)

/-- The server sends something for an entry, when it is asked for what is newer than the
file at a path. -/
def Sends (entry : RemotePack) (path : String) (packs : DirTree) : Prop :=
  ∃ url data, urls.parse entry.url = some url ∧
    receivePack (ask url (packs.mtime path)) = .ok (.found data)

end Fetch

/-- The file of a pack is what the entry of a remote for it says. -/
def Opens (crates : Crates) (remote : LoadedRemote) (pack : String) (id : PackId)
    (packs : DirTree) : Prop :=
  ∃ entry bytes, remote.index.findPack (ε := Error) pack = .ok (some entry) ∧
    packs.readFile id.packPath = .ok bytes ∧ entry.IsPack crates.sha1 bytes

/-- The remotes listed before a remote do not have the pack. -/
def FirstWith (remotes : List LoadedRemote) (remote : LoadedRemote) (pack : String) : Prop :=
  ∃ before after, remotes = before ++ remote :: after ∧
    ∀ other ∈ before, other.index.findPack (ε := Error) pack = .ok none

section Names

theorem remoteName_eq_some {fileName name : String} (h : remoteName fileName = some name) :
    fileName = name ++ ".esi" := by
  unfold remoteName at h
  split at h
  · rename_i stem extension hsplit
    split_ifs at h with hstem
    cases h
    apply String.toList_injective
    rw [Text.rsplitOnce_eq_some hsplit, hstem.2, String.toList_append, String.toList_ofList]
    rfl
  · cases h

theorem loadRemotes_names {urls : Urls Url} {dir : RemotesDir} {remotes : List LoadedRemote}
    (h : loadRemotes urls dir = .ok remotes) : (remotes.map LoadedRemote.name).Nodup := by
  have hfiles : ((dir.entries.filterMap remoteFile).map fun file => file.1).Nodup := by
    have hkeys : (dir.entries.map Sigma.fst).Nodup := dir.nodupKeys
    generalize dir.entries = entries at hkeys
    induction entries with
    | nil => exact List.nodup_nil
    | cons entry entries ih =>
      obtain ⟨hnew, hkeys⟩ := List.nodup_cons.mp hkeys
      rw [List.filterMap_cons]
      split
      · exact ih hkeys
      · rename_i file hfile
        refine List.nodup_cons.mpr ⟨fun hmem => hnew ?_, ih hkeys⟩
        obtain ⟨other, hother, hname⟩ := List.mem_map.mp hmem
        obtain ⟨entry', hentry', hother⟩ := List.mem_filterMap.mp hother
        obtain ⟨name, hown, rfl⟩ := Option.map_eq_some_iff.mp hfile
        obtain ⟨name', hown', rfl⟩ := Option.map_eq_some_iff.mp hother
        dsimp only at hname
        have hsame : entry.1 = entry'.1 := by
          rw [remoteName_eq_some hown, remoteName_eq_some hown', hname]
        exact hsame ▸ List.mem_map_of_mem hentry'
  have hnames : remotes.map LoadedRemote.name =
      (dir.entries.filterMap remoteFile).map fun file => file.1 := by
    have hall := Exec.mapM_eq_ok.mp h
    clear h hfiles
    generalize dir.entries.filterMap remoteFile = files at hall
    induction hall with
    | nil => rfl
    | @cons file remote files remotes hfile _ ih =>
      obtain ⟨index, -, hfile⟩ := Exec.bind_eq_ok.mp hfile
      cases hfile
      rw [List.map_cons, List.map_cons, ih]
  rw [hnames]
  exact hfiles

theorem packPart_join {id : PackId} {name pack : String} (hid : id.name = name ++ "/" ++ pack)
    (hpack : '/' ∉ pack.toList) : packPart id = pack := by
  have hlist : id.name.toList = name.toList ++ '/' :: pack.toList := by
    rw [hid, String.toList_append, String.toList_append, List.append_assoc]
    rfl
  rw [packPart, hlist, Text.rsplitOnce_append hpack]
  exact String.ofList_toList

theorem remotePackPath_join {id : PackId} {remote : LoadedRemote} {pack : String}
    (hid : id.name = remote.name ++ "/" ++ pack) : remotePackPath remote pack = id.packPath := by
  rw [remotePackPath, PackId.packPath, hid, String.append_assoc, String.append_assoc,
    String.append_assoc]

end Names

section Runs

variable {crates : Crates} {urls : Urls Url} {ask : PackAnswers Url} {entry : RemotePack}
  {path pack : String} {s s' : Session Disk Fault}

/-- A fetch that succeeds has written the pack, or there was nothing newer. -/
theorem fetchPack_ok (h : fetchPack crates urls ask entry path s = (.ok (), s')) :
    (Sends urls ask entry path s.state.dataDir.packs ∧ ∃ data, entry.IsPack crates.sha1 data ∧
      ∀ p b, (p, b) ∈ s'.state.dataDir.packs.files ↔
        if p = path then b = data else (p, b) ∈ s.state.dataDir.packs.files) ∨
    (¬ Sends urls ask entry path s.state.dataDir.packs ∧ s'.state = s.state) := by
  obtain ⟨dateModified, _, hasks, h⟩ := Effect.bind_eq_ok.mp h
  obtain ⟨hdate, rfl⟩ := Effect.asks_eq_ok.mp hasks
  cases hdate
  obtain ⟨url, _, hparse, h⟩ := Effect.bind_eq_ok.mp h
  obtain ⟨hunwrap, rfl⟩ := Effect.lift_eq_ok.mp hparse
  have hurl := Exec.unwrap_eq_ok.mp hunwrap
  obtain ⟨resource, _, hreceive, h⟩ := Effect.bind_eq_ok.mp h
  obtain ⟨hanswer, rfl⟩ := Effect.lift_eq_ok.mp hreceive
  cases resource with
  | found data =>
    refine .inl ⟨⟨url, data, hurl, hanswer⟩, data, ?_⟩
    dsimp only [acceptPack] at h
    split_ifs at h with hpack
    · refine ⟨hpack, fun p b => ?_⟩
      have hrun := Effect.mapError_eq_ok.mp h
      obtain ⟨⟨⟩, s₄, hcreate, hwrite⟩ := Effect.bind_eq_ok.mp hrun
      obtain ⟨created, hcreated, hs₄⟩ := Io.onPacks_ok hcreate
      obtain ⟨opened, hopened, hcreated⟩ := Exec.bind_eq_ok.mp hcreated
      cases hcreated
      obtain ⟨written, hwritten, hs'⟩ := Io.runOnPacks_ok (Session.os_eq_ok hwrite)
      rw [hs', DirTree.write_ok hwritten, DirTree.mem_files_insert_file, hs₄]
      split_ifs with hp
      · rfl
      · rw [DirTree.mem_files_insert_file, if_neg hp]
        rcases (DirTree.openCreate_ok hopened).2 with ⟨-, rfl⟩ | ⟨-, rfl⟩
        · rfl
        · rw [DirTree.mem_files_insert_file, if_neg hp]
    · cases h
  | notModified =>
    right
    obtain ⟨-, rfl⟩ := Effect.pure_eq_ok.mp h
    refine ⟨?_, rfl⟩
    rintro ⟨url', data, hurl', hfound⟩
    rw [hurl] at hurl'
    cases hurl'
    rw [hanswer] at hfound
    cases hfound
  | notFound => cases h

/-- An update that succeeds has fetched from the first remote with the pack. -/
theorem updateFrom_ok {remotes : List LoadedRemote}
    (h : updateFrom crates urls ask pack remotes s = (.ok (), s')) :
    ∃ remote entry, remote.index.findPack (ε := Error) pack = .ok (some entry) ∧
      FirstWith remotes remote pack ∧
      fetchPack crates urls ask entry (remotePackPath remote pack) s = (.ok (), s') := by
  induction remotes with
  | nil => cases h
  | cons remote remotes ih =>
    obtain ⟨found, _, hlook, h⟩ := Effect.bind_eq_ok.mp h
    obtain ⟨hfound, rfl⟩ := Effect.lift_eq_ok.mp hlook
    cases found with
    | some entry => exact ⟨remote, entry, hfound, ⟨[], remotes, rfl, nofun⟩, h⟩
    | none =>
      obtain ⟨other, entry, hentry, ⟨before, after, rfl, hnone⟩, hfetch⟩ := ih h
      refine ⟨other, entry, hentry, ⟨remote :: before, after, rfl, ?_⟩, hfetch⟩
      intro earlier hearlier
      rcases List.mem_cons.mp hearlier with rfl | hearlier
      · exact hfound
      · exact hnone earlier hearlier

/-- Only one remote is the first with a pack. -/
theorem FirstWith.unique {remotes : List LoadedRemote} {remote other : LoadedRemote}
    {entry entry' : RemotePack} (h : FirstWith remotes remote pack)
    (h' : FirstWith remotes other pack)
    (hentry : remote.index.findPack (ε := Error) pack = .ok (some entry))
    (hentry' : other.index.findPack (ε := Error) pack = .ok (some entry')) : remote = other := by
  obtain ⟨before, after, rfl, hnone⟩ := h
  obtain ⟨before', after', heq, hnone'⟩ := h'
  rcases List.append_eq_append_iff.mp heq with ⟨mid, rfl, hrest⟩ | ⟨mid, rfl, hrest⟩
  · cases mid with
    | nil => exact (List.cons.inj hrest).1
    | cons x mid =>
      obtain ⟨rfl, -⟩ := List.cons.inj hrest
      have hnone := hnone' remote (List.mem_append_right _ List.mem_cons_self)
      rw [hentry] at hnone
      cases hnone
  · cases mid with
    | nil => exact (List.cons.inj hrest).1.symm
    | cons x mid =>
      obtain ⟨rfl, -⟩ := List.cons.inj hrest
      have hnone := hnone other (List.mem_append_right _ List.mem_cons_self)
      rw [hentry'] at hnone
      cases hnone

end Runs

/-- After an update the pack of a remote is the one that the remote has published exactly when
no remote before it has a pack of that name and its server sent it, or it was there before. -/
theorem right_pack_fetched_iff {crates : Crates} {urls : Urls Url} {ask : PackAnswers Url}
    {dir : RemotesDir} {remotes : List LoadedRemote} {remote : LoadedRemote} {pack : String}
    {id : PackId} {s s' : Session Disk Fault} (hload : loadRemotes urls dir = .ok remotes)
    (hremote : remote ∈ remotes) (hid : id.name = remote.name ++ "/" ++ pack)
    (hpack : '/' ∉ pack.toList)
    (hrun : updateRemotePack crates urls ask (.ok dir) id s = (.ok (), s')) :
    Opens crates remote pack id s'.state.dataDir.packs ↔
      (∃ entry, remote.index.findPack (ε := Error) pack = .ok (some entry) ∧
        FirstWith remotes remote pack ∧
        Sends urls ask entry id.packPath s.state.dataDir.packs) ∨
      Opens crates remote pack id s.state.dataDir.packs := by
  obtain ⟨dir', s₁, hdir, hrun⟩ := Effect.bind_eq_ok.mp hrun
  obtain ⟨hdir, rfl⟩ := Effect.lift_eq_ok.mp hdir
  cases hdir
  obtain ⟨remotes', s₂, hremotes, hrun⟩ := Effect.bind_eq_ok.mp hrun
  obtain ⟨hremotes, rfl⟩ := Effect.lift_eq_ok.mp hremotes
  rw [hload] at hremotes
  cases hremotes
  rw [Effect.mapError_eq_ok, packPart_join hid hpack] at hrun
  obtain ⟨first, entry, hentry, hfirst, hfetch⟩ := updateFrom_ok hrun
  have hpath := remotePackPath_join hid
  have reads {packs : DirTree} {bytes : List UInt8} :
      packs.readFile id.packPath = .ok bytes ↔ (id.packPath, bytes) ∈ packs.files :=
    DirTree.readFile_eq_ok
  by_cases hname : first.name = remote.name
  · -- names tell remotes apart, so this is the remote that was asked for
    have hlisted : first ∈ remotes := by
      obtain ⟨before, after, rfl, -⟩ := hfirst
      exact List.mem_append_right _ List.mem_cons_self
    obtain rfl : first = remote :=
      List.inj_on_of_nodup_map (loadRemotes_names hload) hlisted hremote hname
    rw [hpath] at hfetch
    rcases fetchPack_ok hfetch with ⟨hsends, data, hdata, hfiles⟩ | ⟨hsends, hsame⟩
    · refine iff_of_true ⟨entry, data, hentry, ?_, hdata⟩ (.inl ⟨entry, hentry, hfirst, hsends⟩)
      exact reads.mpr ((hfiles _ _).mpr (by rw [if_pos rfl]))
    · rw [hsame]
      refine ⟨.inr, ?_⟩
      rintro (⟨entry', hentry', -, hsends'⟩ | hopens)
      · rw [hentry] at hentry'
        cases hentry'
        exact absurd hsends' hsends
      · exact hopens
  · have hother : id.packPath ≠ remotePackPath first pack := by
      intro heq
      rw [← hpath, remotePackPath, remotePackPath, String.append_assoc, String.append_assoc] at heq
      exact hname (String.append_left_inj _ |>.mp heq).symm
    have hfiles : ∀ b, (id.packPath, b) ∈ s'.state.dataDir.packs.files ↔
        (id.packPath, b) ∈ s.state.dataDir.packs.files := by
      intro b
      rcases fetchPack_ok hfetch with ⟨-, data, -, hfiles⟩ | ⟨-, hsame⟩
      · rw [hfiles, if_neg hother]
      · rw [hsame]
    have hopens : Opens crates remote pack id s'.state.dataDir.packs ↔
        Opens crates remote pack id s.state.dataDir.packs := by
      simp only [Opens, reads, hfiles]
    rw [hopens]
    refine ⟨.inr, ?_⟩
    rintro (⟨entry', hentry', hfirst', -⟩ | hsame)
    · exact absurd (congrArg LoadedRemote.name (hfirst.unique hfirst' hentry hentry')) hname
    · exact hsame

namespace MirrorSample

def digest (byte : UInt8) : ObjectChecksum := Packs.CrashSample.digest [byte]

def created : Document := {
  lines := [
    ⟨⟨Text.encodeUtf8 ("meta\t" ++ MetaVersion.v1.asStr), [Lines.lineFeed]⟩, .metaLine⟩,
    ⟨⟨Text.encodeUtf8 ("url\t" ++ (UrlSample.host ++ "index.esi")), [Lines.lineFeed]⟩, .urlLine⟩]
  version := .v1
  url := UrlSample.host ++ "index.esi" }

/-- A document with one pack, `p.pack` in a directory of the server. -/
def document (name : String) (byte : UInt8) : Document :=
  (Document.add UrlSample.urls.toUrlCrate
    ⟨.zero, digest byte, name ++ "/p.pack", none, none⟩ false created).2

def remote (name : String) (byte : UInt8) : LoadedRemote :=
  ⟨name, .v1, UrlSample.host ++ "index.esi",
    [⟨.zero, digest byte, UrlSample.host ++ (name ++ "/p.pack"), none, none⟩]⟩

/-- Two remotes with a pack of one name and different contents. -/
def dir : RemotesDir :=
  ((∅ : RemotesDir).insert "r.esi" (some (document "r" 8).toBytes)).insert "a.esi"
    (some (document "a" 7).toBytes)

def ask : PackAnswers String := fun url _ =>
  .ok ⟨200, .ok (if url = UrlSample.host ++ "a/p.pack" then [7] else [8])⟩

/-- The indexes of both remotes have been updated. -/
def packs : DirTree :=
  ((((∅ : DirTree).insert "a" .dir).insert "a/p.pack.idx" (.file [] 0)).insert "r" .dir).insert
    "r/p.pack.idx" (.file [] 0)

def disk : Disk := ⟨⟨packs, ∅, none⟩, 0⟩

def fetched (name : String) : Exec FetchError Unit × Session Disk Fault :=
  updateRemotePack Packs.CrashSample.crates UrlSample.urls ask (.ok dir) ⟨name⟩ ⟨disk, []⟩

/-- What the remotes make of the request, once they are loaded. -/
def tried (name : String) : Exec Error Unit × Session Disk Fault :=
  updateFrom Packs.CrashSample.crates UrlSample.urls ask (packPart ⟨name⟩)
    [remote "a" 7, remote "r" 8] ⟨disk, []⟩

theorem read_document {name : String} {byte : UInt8}
    (h : RemoteIndex.fromDocument UrlSample.urls (document name byte).stored =
      .ok (remote name byte).index) :
    RemoteIndex.read UrlSample.urls (document name byte).toBytes = .ok (remote name byte).index := by
  have hcreate : Document.create UrlSample.urls.toUrlCrate .v1 (UrlSample.host ++ "index.esi") =
      .ok created := by rfl
  have hadd : Document.add UrlSample.urls.toUrlCrate
      ⟨.zero, digest byte, name ++ "/p.pack", none, none⟩ false created =
      ((Document.add UrlSample.urls.toUrlCrate
        ⟨.zero, digest byte, name ++ "/p.pack", none, none⟩ false created).1,
        document name byte) := rfl
  exact RemoteIndex.read_reached (.add (.create hcreate) hadd) h

theorem loads : loadRemotes UrlSample.urls dir = .ok [remote "a" 7, remote "r" 8] := by
  have hfirst : RemoteIndex.read UrlSample.urls (document "a" 7).toBytes =
      .ok (remote "a" 7).index := read_document (by rfl)
  have hsecond : RemoteIndex.read UrlSample.urls (document "r" 8).toBytes =
      .ok (remote "r" 8).index := read_document (by rfl)
  have hfiles : dir.entries.filterMap remoteFile =
      [("a", "a.esi", some (document "a" 7).toBytes),
        ("r", "r.esi", some (document "r" 8).toBytes)] := rfl
  rw [loadRemotes, hfiles]
  refine Exec.mapM_eq_ok.mpr (.cons ?_ (.cons ?_ .nil))
  · rw [loadRemote, loadStored, hfirst]
    rfl
  · rw [loadRemote, loadStored, hsecond]
    rfl

theorem fetched_of_tried {name : String} {s : Session Disk Fault} (h : tried name = (.ok (), s)) :
    fetched name = (.ok (), s) :=
  Effect.bind_eq_ok.mpr ⟨dir, _, Effect.lift_eq_ok.mpr ⟨rfl, rfl⟩,
    Effect.bind_eq_ok.mpr ⟨_, _, Effect.lift_eq_ok.mpr ⟨loads, rfl⟩, Effect.mapError_eq_ok.mpr h⟩⟩

theorem run_eq {x : Exec Error Unit × Session Disk Fault} (h : x.1 = .ok ()) :
    x = (.ok (), x.2) := by
  rw [← h]

theorem tries :
    (tried "a/p").1 = .ok () ∧ (tried "r/p").1 = .ok () ∧
    (tried "r/p").2.state.dataDir.packs.readFile "r/p.pack" = Exec.fail .notFound ∧
    disk.dataDir.packs.present (PackId.indexPath ⟨"r/p"⟩) = true := by
  decide

theorem listed_second : ∃ entry,
    (remote "r" 8).index.findPack (ε := Error) "p" = .ok (some entry) :=
  ⟨⟨.zero, digest 8, UrlSample.host ++ "r/p.pack", none, none⟩, rfl⟩

end MirrorSample

theorem right_pack_fetched_first : ∃ s, MirrorSample.fetched "a/p" = (.ok (), s) ∧
    (Opens Packs.CrashSample.crates (MirrorSample.remote "a" 7) "p" ⟨"a/p"⟩
        s.state.dataDir.packs ↔
      (∃ entry, (MirrorSample.remote "a" 7).index.findPack (ε := Error) "p" = .ok (some entry) ∧
        FirstWith [MirrorSample.remote "a" 7, MirrorSample.remote "r" 8]
          (MirrorSample.remote "a" 7) "p" ∧
        Sends UrlSample.urls MirrorSample.ask entry "a/p.pack" MirrorSample.disk.dataDir.packs) ∨
      Opens Packs.CrashSample.crates (MirrorSample.remote "a" 7) "p" ⟨"a/p"⟩
        MirrorSample.disk.dataDir.packs) := by
  have hrun := MirrorSample.fetched_of_tried (MirrorSample.run_eq MirrorSample.tries.1)
  have hslash : '/' ∉ "p".toList := by simp
  exact ⟨_, hrun, right_pack_fetched_iff MirrorSample.loads List.mem_cons_self rfl hslash hrun⟩

/-- Another remote has a pack of the same name, and is asked for it. -/
theorem right_pack_not_always_fetched : ¬ ∀ (crates : Crates) (urls : Urls String)
    (ask : PackAnswers String) (dir : RemotesDir) (remotes : List LoadedRemote)
    (remote : LoadedRemote) (pack : String) (id : PackId) (s s' : Session Disk Fault),
    loadRemotes urls dir = .ok remotes → remote ∈ remotes →
    (∃ entry, remote.index.findPack (ε := Error) pack = .ok (some entry)) →
    id.name = remote.name ++ "/" ++ pack → '/' ∉ pack.toList →
    s.state.dataDir.packs.present id.indexPath = true →
    updateRemotePack crates urls ask (.ok dir) id s = (.ok (), s') →
    Opens crates remote pack id s'.state.dataDir.packs := by
  intro h
  obtain ⟨-, hok, hmissing, hindexed⟩ := MirrorSample.tries
  have hrun := MirrorSample.fetched_of_tried (MirrorSample.run_eq hok)
  have hslash : '/' ∉ "p".toList := by simp
  obtain ⟨entry, bytes, -, hread, -⟩ := h _ _ _ _ _ (MirrorSample.remote "r" 8) "p" ⟨"r/p"⟩ _ _
    MirrorSample.loads (List.mem_cons_of_mem _ List.mem_cons_self) MirrorSample.listed_second rfl
    hslash hindexed hrun
  have hpath : (⟨"r/p"⟩ : PackId).packPath = "r/p.pack" := rfl
  rw [hpath, hmissing] at hread
  cases hread

end Elfshaker.Remote
