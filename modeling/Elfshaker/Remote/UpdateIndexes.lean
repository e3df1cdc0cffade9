import Elfshaker.Packs.RoundTrip
import Elfshaker.Format.Reload

namespace Elfshaker.Remote

open Elfshaker.Library Elfshaker.Format Elfshaker.Store

/-- An entry of a remote index, with what its files are checked against. -/
structure RemotePack where
  indexChecksum : ObjectChecksum
  packChecksum : ObjectChecksum
  url : String
  indexSize : Option UInt64
  packSize : Option UInt64
  deriving DecidableEq

def RemotePack.fileName (pack : RemotePack) : Exec ε String := do
  let (_, name) ← Exec.unwrap (Text.rsplitOnce '/' pack.url.toList)
  .ok (String.ofList name)

structure Reply where
  status : Nat
  body : Except String (List UInt8)

/-- What the pack indexes of a remote are updated with. There is one answer for each
entry, to the one request that is made for it, however it depends on the requests
before. Several names in the pack directory may lead to one file. -/
structure Host where
  lastPathSegment : String → Option String
  slot : String → Nat
  answer : Nat → Except String Reply
  writeFault : Nat → Option IoError

/-- What reading each of the files yields. -/
abbrev PackDir := Nat → Except IoError (List UInt8)

def PackDir.put (dir : PackDir) (file : Nat) (bytes : List UInt8) : PackDir :=
  fun other => if other = file then .ok bytes else dir other

/-- The file is replaced where there is something to replace it with. -/
def PackDir.serve (dir : PackDir) (file : Nat) : Option (List UInt8) → PackDir
  | some bytes => dir.put file bytes
  | none => dir

inductive RemoteResource where
  | found (body : List UInt8)
  | notModified
  | notFound

def httpStatusOk : Nat := 200

def httpStatusNotModified : Nat := 304

def httpStatusNotFound : Nat := 404

def httpFailure (status : Nat) : String :=
  "Response status code " ++ toString status ++ " indicates failure!"

def readRemoteResource (answer : Except String Reply) : Exec Error RemoteResource :=
  match answer with
  | .error message => Exec.fail (.httpError message)
  | .ok reply =>
    if reply.status = httpStatusOk then
      match reply.body with
      | .ok bytes => .ok (.found bytes)
      | .error message => Exec.fail (.httpError message)
    else if reply.status = httpStatusNotModified then .ok .notModified
    else if reply.status = httpStatusNotFound then .ok .notFound
    else Exec.fail (.httpError (httpFailure reply.status))

/-- No size is expected, or this one. -/
def SizeFits (expected : Option UInt64) (bytes : List UInt8) : Prop :=
  ∀ size ∈ expected, size.toNat = bytes.length

instance (expected : Option UInt64) (bytes : List UInt8) : Decidable (SizeFits expected bytes) :=
  Option.decidableForallMem expected

section Update

variable (sha1 : List UInt8 → ObjectChecksum) (rmp : Rmp) (host : Host)

def verifyChecksum (dir : PackDir) (file : Nat) (checksum : ObjectChecksum) : Exec Error Bool :=
  match dir file with
  | .ok bytes => .ok (decide (sha1 bytes = checksum))
  | .error .notFound => .ok false
  | .error e => Exec.fail (.ioError e)

/-- `fs::write`. -/
def write (n : Nat) (dir : PackDir) (file : Nat) (bytes : List UInt8) : Exec Error PackDir :=
  match host.writeFault n with
  | some e => Exec.fail (.ioError e)
  | none => .ok (dir.put file bytes)

/-- A body that is no pack index is not written, but that is not an error. -/
def installIndex (n : Nat) (dir : PackDir) (file : Nat) (bytes : List UInt8) : Exec Error PackDir :=
  match PackIndex.parse rmp bytes with
  | .ok _ => write host n dir file bytes
  | .error (.error _) => .ok dir
  | .error .panic => Exec.panic

def updatePackIndex (n : Nat) (dir : PackDir) (file : Nat) (expectedSize : Option UInt64) :
    Exec Error PackDir := do
  let resource ← readRemoteResource (host.answer n)
  match resource with
  | .found bytes =>
    if SizeFits expectedSize bytes then installIndex rmp host n dir file bytes
    else Exec.fail .corruptPackIndex
  | .notModified => .ok dir
  | .notFound => Exec.fail (.httpError (httpFailure httpStatusNotFound))

/-- The file in which the index of a pack is kept. -/
def indexFile (pack : RemotePack) : Option Nat :=
  (host.lastPathSegment (pack.url ++ ".idx")).map host.slot

def updateEntry (n : Nat) (dir : PackDir) (pack : RemotePack) : Exec Error PackDir := do
  let file ← Exec.unwrap (indexFile host pack)
  let upToDate ← verifyChecksum sha1 dir file pack.indexChecksum
  if upToDate then .ok dir else updatePackIndex rmp host n dir file pack.indexSize

/-- The entries that are left, each with its number. -/
def updateEntries (dir : PackDir) : List (RemotePack × Nat) → Exec Error PackDir
  | [] => .ok dir
  | (pack, n) :: rest => do
    let dir ← updateEntry sha1 rmp host n dir pack
    let _ ← pack.fileName
    updateEntries dir rest

def updateRemotePackIndexes (dir : PackDir) (packs : List RemotePack) : Exec Error PackDir :=
  updateEntries sha1 rmp host dir packs.zipIdx

/-- The file is there, and has the checksum. -/
def Current (dir : PackDir) (file : Nat) (checksum : ObjectChecksum) : Prop :=
  ∃ bytes, dir file = .ok bytes ∧ sha1 bytes = checksum

/-- Every entry has an index file with its checksum, and with its size where it has one. -/
def Authentic (dir : PackDir) (packs : List RemotePack) : Prop :=
  ∀ pack ∈ packs, ∃ file bytes, indexFile host pack = some file ∧ dir file = .ok bytes ∧
    sha1 bytes = pack.indexChecksum ∧ SizeFits pack.indexSize bytes

/-- The index that the server has for an entry. -/
def offered (entry : RemotePack × Nat) : Option (List UInt8) :=
  match host.answer entry.2 with
  | .ok ⟨200, .ok bytes⟩ => if (PackIndex.parse rmp bytes).isOk then some bytes else none
  | _ => none

/-- What there may be in a file: what is there at first, then what the server has for
the entries that are kept there. -/
def supply (dir : PackDir) (file : Nat) (entries : List (RemotePack × Nat)) : List (List UInt8) :=
  (dir file).toOption.toList ++
    (entries.filter fun entry => indexFile host entry.1 = some file).filterMap (offered rmp host)

/-- Entries with one file have one checksum, and the first that there is of this
checksum has the size they expect. -/
def Delivered (dir : PackDir) (packs : List RemotePack) : Prop :=
  ∀ pack ∈ packs, ∀ file, indexFile host pack = some file →
    (∀ other ∈ packs, indexFile host other = some file →
      other.indexChecksum = pack.indexChecksum) ∧
    ∃ bytes, (supply rmp host dir file packs.zipIdx).find?
        (fun bytes => sha1 bytes = pack.indexChecksum) = some bytes ∧
      SizeFits pack.indexSize bytes

end Update

section Run

variable {sha1 : List UInt8 → ObjectChecksum} {rmp : Rmp} {host : Host} {dir dir' : PackDir}
  {n file : Nat} {pack : RemotePack} {entries : List (RemotePack × Nat)}

@[simp] theorem put_same (bytes : List UInt8) : dir.put file bytes file = .ok bytes :=
  if_pos rfl

theorem put_other {other : Nat} (hne : other ≠ file) (bytes : List UInt8) :
    dir.put file bytes other = dir other :=
  if_neg hne

theorem verifyChecksum_eq_ok {checksum : ObjectChecksum} {upToDate : Bool}
    (h : verifyChecksum sha1 dir file checksum = .ok upToDate) :
    (upToDate = true ↔ Current sha1 dir file checksum) := by
  unfold verifyChecksum at h
  unfold Current
  split at h
  · rename_i bytes hbytes
    cases h
    simp [hbytes]
  · rename_i hmissing
    cases h
    simp [hmissing]
  · cases h

theorem readRemoteResource_found {reply : Except String Reply} {bytes : List UInt8} :
    readRemoteResource reply = .ok (.found bytes) ↔ reply = .ok ⟨200, .ok bytes⟩ := by
  constructor
  · intro h
    unfold readRemoteResource at h
    split at h
    · cases h
    · rename_i reply
      obtain ⟨status, body⟩ := reply
      split_ifs at h with hok
      · split at h
        · rename_i hbody
          cases h
          simp only [httpStatusOk] at hok hbody
          rw [hok, hbody]
        · cases h
      · cases h
      · cases h
      · cases h
  · rintro rfl
    rfl

theorem installIndex_eq_ok {bytes : List UInt8}
    (h : installIndex rmp host n dir file bytes = .ok dir') :
    dir' = if (PackIndex.parse rmp bytes).isOk then dir.put file bytes else dir := by
  unfold installIndex at h
  split at h
  · rename_i hparse
    unfold write at h
    split at h
    · cases h
    · cases h
      simp [hparse, Except.isOk, Except.toBool]
  · rename_i hparse
    cases h
    simp [hparse, Except.isOk, Except.toBool]
  · cases h

/-- The server's index is written where it has one, and only there. -/
theorem updatePackIndex_eq_ok {expectedSize : Option UInt64}
    (h : updatePackIndex rmp host n dir file expectedSize = .ok dir') :
    dir' = dir.serve file (offered rmp host (pack, n)) := by
  obtain ⟨resource, hresource, h⟩ := Exec.bind_eq_ok.mp h
  cases resource with
  | found bytes =>
    rw [readRemoteResource_found] at hresource
    dsimp only at h
    split_ifs at h with hsize
    · have hdir := installIndex_eq_ok h
      simp only [offered, hresource]
      split_ifs at hdir ⊢ with hparse
      · exact hdir
      · exact hdir
    · cases h
  | notModified =>
    cases h
    have hnone : offered rmp host (pack, n) = none := by
      unfold offered
      split
      · rename_i bytes hanswer
        rw [readRemoteResource_found.mpr hanswer] at hresource
        cases hresource
      · rfl
    rw [hnone]
    rfl
  | notFound => cases h

/-- What one entry does to its file, and to no other. -/
theorem updateEntry_eq_ok (h : updateEntry sha1 rmp host n dir pack = .ok dir') :
    ∃ file, indexFile host pack = some file ∧
      ((Current sha1 dir file pack.indexChecksum ∧ dir' = dir) ∨
        (¬ Current sha1 dir file pack.indexChecksum ∧
          dir' = dir.serve file (offered rmp host (pack, n)))) := by
  obtain ⟨file, hfile, h⟩ := Exec.bind_eq_ok.mp h
  obtain ⟨upToDate, hverify, h⟩ := Exec.bind_eq_ok.mp h
  rw [Exec.unwrap_eq_ok] at hfile
  refine ⟨file, hfile, ?_⟩
  rw [← verifyChecksum_eq_ok hverify]
  cases upToDate with
  | true =>
    cases h
    exact .inl ⟨rfl, rfl⟩
  | false => exact .inr ⟨by simp, updatePackIndex_eq_ok h⟩

/-- An entry does not change which of the supply of a file comes first. -/
theorem supply_step {checksum : ObjectChecksum}
    (hsame : indexFile host pack = some file → pack.indexChecksum = checksum)
    (h : updateEntry sha1 rmp host n dir pack = .ok dir') :
    (supply rmp host dir' file entries).find? (fun bytes => sha1 bytes = checksum) =
      (supply rmp host dir file ((pack, n) :: entries)).find?
        (fun bytes => sha1 bytes = checksum) := by
  obtain ⟨own, hown, hdir⟩ := updateEntry_eq_ok h
  by_cases hfile : own = file
  · subst hfile
    have hchecksum := hsame hown
    subst hchecksum
    rw [supply, supply, List.filter_cons_of_pos (by simpa using hown), List.filterMap_cons]
    rcases hdir with ⟨⟨bytes, hbytes, hsum⟩, rfl⟩ | ⟨hstale, rfl⟩
    · rw [hbytes]
      simp [Except.toOption, hsum]
    · have hnone : (dir own).toOption.toList.find?
          (fun bytes => sha1 bytes = pack.indexChecksum) = none := by
        rw [List.find?_eq_none]
        intro bytes hbytes hsum
        rw [decide_eq_true_iff] at hsum
        cases hread : dir own with
        | error e => simp [hread, Except.toOption] at hbytes
        | ok other =>
          simp only [hread, Except.toOption, Option.toList_some, List.mem_singleton] at hbytes
          exact hstale ⟨bytes, hbytes ▸ hread, hsum⟩
      cases offered rmp host (pack, n) with
      | none => rfl
      | some bytes =>
        have hput : (dir.serve own (some bytes)) own = .ok bytes := put_same bytes
        have hlist : (Except.ok bytes : Except IoError (List UInt8)).toOption.toList = [bytes] := rfl
        rw [hput, hlist, List.find?_append, List.find?_append, hnone, Option.none_or,
          ← List.find?_append, List.singleton_append]
  · have hread : dir' file = dir file := by
      rcases hdir with ⟨-, rfl⟩ | ⟨-, rfl⟩
      · rfl
      · cases offered rmp host (pack, n) with
        | none => rfl
        | some bytes => exact put_other (Ne.symm hfile) _
    have hskip : ¬ indexFile host pack = some file := by
      rw [hown, Option.some.injEq]
      exact hfile
    rw [supply, supply, List.filter_cons_of_neg (by simpa using hskip), hread]

/-- In the end a file holds the first of its supply that has the checksum of its
entries, or nothing with this checksum. -/
theorem updateEntries_ok {checksum : ObjectChecksum}
    (hsame : ∀ entry ∈ entries, indexFile host entry.1 = some file →
      entry.1.indexChecksum = checksum)
    (h : updateEntries sha1 rmp host dir entries = .ok dir') :
    ((dir' file).toOption.toList).find? (fun bytes => sha1 bytes = checksum) =
      (supply rmp host dir file entries).find? (fun bytes => sha1 bytes = checksum) := by
  induction entries generalizing dir with
  | nil =>
    cases h
    simp [supply]
  | cons entry entries ih =>
    obtain ⟨pack, n⟩ := entry
    obtain ⟨mid, hmid, h⟩ := Exec.bind_eq_ok.mp h
    obtain ⟨_, -, h⟩ := Exec.bind_eq_ok.mp h
    rw [ih (fun entry hentry => hsame entry (List.mem_cons_of_mem _ hentry)) h]
    exact supply_step (hsame (pack, n) List.mem_cons_self) hmid

/-- Every entry of a run that succeeds has a file. -/
theorem updateEntries_files (h : updateEntries sha1 rmp host dir entries = .ok dir') :
    ∀ entry ∈ entries, ∃ file, indexFile host entry.1 = some file := by
  induction entries generalizing dir with
  | nil => simp
  | cons entry entries ih =>
    obtain ⟨pack, n⟩ := entry
    obtain ⟨mid, hmid, h⟩ := Exec.bind_eq_ok.mp h
    obtain ⟨_, -, h⟩ := Exec.bind_eq_ok.mp h
    obtain ⟨file, hfile, -⟩ := updateEntry_eq_ok hmid
    exact List.forall_mem_cons.mpr ⟨⟨file, hfile⟩, ih h⟩

theorem find?_read {checksum : ObjectChecksum} {bytes : List UInt8} :
    ((dir file).toOption.toList).find? (fun bytes => sha1 bytes = checksum) = some bytes ↔
      dir file = .ok bytes ∧ sha1 bytes = checksum := by
  cases hread : dir file with
  | error e => simp [Except.toOption]
  | ok other =>
    have hlist : (Except.ok other : Except IoError (List UInt8)).toOption.toList = [other] := rfl
    rw [hlist, Except.ok.injEq]
    by_cases hsum : sha1 other = checksum
    · rw [List.find?_cons_of_pos (by simpa using hsum), Option.some.injEq]
      constructor
      · rintro rfl
        exact ⟨rfl, hsum⟩
      · exact fun h => h.1
    · rw [List.find?_cons_of_neg (by simpa using hsum)]
      constructor
      · intro h
        cases h
      · rintro ⟨rfl, h⟩
        exact absurd h hsum

/-- After an update that succeeds, the index files are those that the entries ask for
exactly when the entries of one file agree and their index was there or was served. -/
theorem update_indexes_authentic_iff {packs : List RemotePack}
    (h : updateRemotePackIndexes sha1 rmp host dir packs = .ok dir') :
    Authentic sha1 host dir' packs ↔ Delivered sha1 rmp host dir packs := by
  have hentry : ∀ entry ∈ packs.zipIdx, entry.1 ∈ packs := by
    intro entry hentry
    have hmem := List.mem_map_of_mem (f := Prod.fst) hentry
    rwa [List.zipIdx_map_fst] at hmem
  have hfiles : ∀ pack ∈ packs, ∃ file, indexFile host pack = some file := by
    intro pack hpack
    rw [← List.zipIdx_map_fst 0 packs] at hpack
    obtain ⟨entry, hentry, rfl⟩ := List.mem_map.mp hpack
    exact updateEntries_files h entry hentry
  have hfinal : ∀ (pack : RemotePack) (file : Nat), (∀ other ∈ packs, indexFile host other = some file →
      other.indexChecksum = pack.indexChecksum) → ∀ bytes,
      (dir' file = .ok bytes ∧ sha1 bytes = pack.indexChecksum ↔
        (supply rmp host dir file packs.zipIdx).find?
          (fun bytes => sha1 bytes = pack.indexChecksum) = some bytes) := by
    intro pack file hsame bytes
    rw [← find?_read, updateEntries_ok (fun entry he hf => hsame entry.1 (hentry entry he) hf) h]
  constructor
  · intro authentic pack hpack file hfile
    obtain ⟨file', bytes, hfile', hread, hsum, hsize⟩ := authentic pack hpack
    rw [hfile] at hfile'
    cases hfile'
    have hsame : ∀ other ∈ packs, indexFile host other = some file →
        other.indexChecksum = pack.indexChecksum := by
      intro other hother hotherFile
      obtain ⟨file', bytes', hfile', hread', hsum', -⟩ := authentic other hother
      rw [hotherFile] at hfile'
      cases hfile'
      rw [hread] at hread'
      cases hread'
      exact hsum'.symm.trans hsum
    exact ⟨hsame, bytes, (hfinal pack file hsame bytes).mp ⟨hread, hsum⟩, hsize⟩
  · intro delivered pack hpack
    obtain ⟨file, hfile⟩ := hfiles pack hpack
    obtain ⟨hsame, bytes, hfind, hsize⟩ := delivered pack hpack file hfile
    obtain ⟨hread, hsum⟩ := (hfinal pack file hsame bytes).mpr hfind
    exact ⟨file, bytes, hfile, hread, hsum, hsize⟩

end Run

namespace UpdateSample

/-- A pack index, and its digest. -/
def index : List UInt8 := SavedSample.index.serialize messagePackWriter

def indexChecksum : ObjectChecksum :=
  ⟨[11, 70, 95, 254, 221, 58, 12, 223, 160, 109, 107, 24, 204, 158, 114, 222, 58, 87, 202, 154],
    rfl⟩

def sha1 (bytes : List UInt8) : ObjectChecksum :=
  if bytes = index then indexChecksum else Packs.PackSample.sha1 bytes

/-- A server that has the pack index for whoever asks. -/
def host : Host where
  lastPathSegment := fun url => (Text.rsplitOnce '/' url.toList).map fun split =>
    String.ofList split.2
  slot := fun name => if name = "a.pack.idx" then 0 else 1
  answer := fun _ => .ok ⟨200, .ok index⟩
  writeFault := fun _ => none

def emptyDir : PackDir := fun _ => .error .notFound

def pack (checksum : ObjectChecksum) : RemotePack :=
  ⟨checksum, .zero, "https://example.com/a.pack", some 100, none⟩

theorem parse_index : PackIndex.parse messagePack index = .ok SavedSample.index.reloaded :=
  SavedSample.library.parse_serialize

theorem sizeFits_index : SizeFits (some 100) index := by decide

theorem indexFile_pack (checksum : ObjectChecksum) : indexFile host (pack checksum) = some 0 := by
  have hurl : (host.lastPathSegment ("https://example.com/a.pack" ++ ".idx")).map host.slot =
      some 0 := by decide
  exact hurl

theorem fileName_pack (checksum : ObjectChecksum) :
    (pack checksum).fileName (ε := Error) = .ok "a.pack" := by
  have hurl : Text.rsplitOnce '/' "https://example.com/a.pack".toList =
      some ("https://example.com".toList, "a.pack".toList) := by decide
  rw [RemotePack.fileName]
  have hpack : (pack checksum).url = "https://example.com/a.pack" := rfl
  rw [hpack, hurl]
  rfl

/-- Whatever the checksum, the index is written. -/
theorem updates (sha1 : List UInt8 → ObjectChecksum) (checksum : ObjectChecksum) :
    updateRemotePackIndexes sha1 messagePack host emptyDir [pack checksum] =
      .ok (emptyDir.put 0 index) := by
  have hinstall : installIndex messagePack host 0 emptyDir 0 index = .ok (emptyDir.put 0 index) := by
    rw [installIndex, parse_index]
    rfl
  have hupdate : updatePackIndex messagePack host 0 emptyDir 0 (some 100) =
      .ok (emptyDir.put 0 index) := by
    have hread : readRemoteResource (host.answer 0) = .ok (.found index) := rfl
    rw [updatePackIndex, hread, Exec.ok_bind]
    dsimp only
    rw [if_pos sizeFits_index, hinstall]
  have hentry : updateEntry sha1 messagePack host 0 emptyDir (pack checksum) =
      .ok (emptyDir.put 0 index) := by
    have hverify : verifyChecksum sha1 emptyDir 0 (pack checksum).indexChecksum = .ok false := rfl
    have hexpected : (pack checksum).indexSize = some 100 := rfl
    rw [updateEntry, indexFile_pack, Exec.unwrap_some, Exec.ok_bind, hverify, Exec.ok_bind,
      if_neg Bool.false_ne_true, hexpected, hupdate]
  rw [updateRemotePackIndexes, List.zipIdx_singleton, updateEntries, hentry, Exec.ok_bind,
    fileName_pack]
  rfl

theorem delivered : Delivered sha1 messagePack host emptyDir [pack indexChecksum] := by
  intro other hother file hfile
  rw [List.mem_singleton] at hother
  subst hother
  have hslot := indexFile_pack indexChecksum
  rw [hslot, Option.some.injEq] at hfile
  subst hfile
  refine ⟨?_, index, ?_, sizeFits_index⟩
  · intro other hother _
    rw [List.mem_singleton.mp hother]
  · have hsupply : supply messagePack host emptyDir 0 [pack indexChecksum].zipIdx = [index] := by
      have hoffered : offered messagePack host (pack indexChecksum, 0) = some index := by
        have hanswer : host.answer 0 = .ok ⟨200, .ok index⟩ := rfl
        simp only [offered, hanswer, parse_index]
        rfl
      rw [supply, List.zipIdx_singleton, List.filter_cons_of_pos (by simpa using hslot),
        List.filter_nil, List.filterMap_cons, hoffered]
      rfl
    rw [hsupply]
    exact List.find?_cons_of_pos (by decide)

end UpdateSample

theorem update_indexes_authentic_served : ∃ dir, updateRemotePackIndexes UpdateSample.sha1
      messagePack UpdateSample.host UpdateSample.emptyDir
      [UpdateSample.pack UpdateSample.indexChecksum] = .ok dir ∧
    Authentic UpdateSample.sha1 UpdateSample.host dir
      [UpdateSample.pack UpdateSample.indexChecksum] := by
  have hrun := UpdateSample.updates UpdateSample.sha1 UpdateSample.indexChecksum
  exact ⟨_, hrun, (update_indexes_authentic_iff hrun).mpr UpdateSample.delivered⟩

/-- An index with another checksum than its entry is written, whatever the hash. -/
theorem update_indexes_unchecked : ¬ ∃ sha1 : List UInt8 → ObjectChecksum,
    ∀ (host : Host) (dir dir' : PackDir) (packs : List RemotePack),
      updateRemotePackIndexes sha1 messagePack host dir packs = .ok dir' →
        Authentic sha1 host dir' packs := by
  rintro ⟨sha1, h⟩
  obtain ⟨other, hother⟩ : ∃ other, sha1 UpdateSample.index ≠ other := by
    by_cases hzero : sha1 UpdateSample.index = .zero
    · exact ⟨UpdateSample.indexChecksum, hzero ▸ by decide⟩
    · exact ⟨.zero, hzero⟩
  obtain ⟨file, bytes, hfile, hread, hsum, -⟩ :=
    h _ _ _ _ (UpdateSample.updates sha1 other) _ List.mem_cons_self
  rw [UpdateSample.indexFile_pack, Option.some.injEq] at hfile
  subst hfile
  rw [put_same] at hread
  cases hread
  exact hother hsum

end Elfshaker.Remote
