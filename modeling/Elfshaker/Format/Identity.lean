import Elfshaker.Format.Parse
import Elfshaker.Library.Bytes
import Mathlib.Data.List.Sort

namespace Elfshaker.Format

open Elfshaker.Library

/-- The bytes `b"elfshaker-snapshot-identity\0v3\0"`. -/
def identityPrefix : List UInt8 :=
  "elfshaker-snapshot-identity".toList.map (fun c => UInt8.ofNat c.toNat) ++ [0, 118, 51, 0]

/-- The kind of an entry with its object and its mode or link encoding. -/
def identityContent (checksum : ObjectChecksum) : EntryMetadata → List UInt8
  | .regular mode => 0 :: (checksum.bytes ++ beBytes 4 mode.toNat)
  | .symlink encoding kind => 1 :: (checksum.bytes ++ [encoding.identityTag, kind.identityTag])

/-- What the identity of a snapshot takes from one entry. -/
def identityEntry (t : Triple) : List UInt8 :=
  beBytes 8 t.path.bytes.length ++ (t.path.bytes ++ identityContent t.checksum t.metadata)

/-- The bytes that a snapshot with these entries is hashed as. -/
def identityStream (ts : List Triple) : List UInt8 :=
  identityPrefix ++ beBytes 8 ts.length ++ ts.flatMap identityEntry

def sortByPath (ts : List Triple) : List Triple :=
  ts.insertionSort fun left right => left.path.bytes ≤ right.path.bytes

namespace PackIndex

variable (sha1 : List UInt8 → ObjectChecksum) (ord : IterOrder FileHandle)

/-- The entries of a snapshot in the order they are hashed, `none` where the tag
is not there or a handle leads nowhere. -/
def identityEntries (index : PackIndex) (snapshot : String) :
    Exec ε (Option (List Triple)) := do
  match ← index.resolveSnapshot ord snapshot with
  | none => .ok none
  | some handles =>
    match index.entriesFromHandles handles with
    | .ok entries => .ok (some (sortByPath (triples entries)))
    | .error (.error _) => .ok none
    | .error .panic => Exec.panic

def computeSnapshotChecksum (index : PackIndex) (snapshot : String) :
    Exec ε (Option ObjectChecksum) := do
  let entries ← identityEntries ord index snapshot
  .ok (entries.map fun ts => sha1 (identityStream ts))

end PackIndex

theorem identityTag_injective {a b : SymlinkTargetEncoding} (h : a.identityTag = b.identityTag) :
    a = b := by
  cases a <;> cases b <;> first | rfl | exact absurd h (by decide)

theorem kindTag_injective {a b : SymlinkTargetKind} (h : a.identityTag = b.identityTag) :
    a = b := by
  cases a <;> cases b <;> first | rfl | exact absurd h (by decide)

/-- The length of the path fits in the eight bytes it is written in. -/
def PathFits (t : Triple) : Prop := t.path.bytes.length < 256 ^ 8

theorem checksum_append_inj {a b : ObjectChecksum} {r s : List UInt8}
    (h : a.bytes ++ r = b.bytes ++ s) : a = b ∧ r = s := by
  obtain ⟨hab, hrs⟩ := List.append_inj h (a.length_eq.trans b.length_eq.symm)
  cases a
  cases b
  cases hab
  exact ⟨rfl, hrs⟩

theorem identityContent_append_inj {a b : ObjectChecksum} {m n : EntryMetadata} {r s : List UInt8}
    (h : identityContent a m ++ r = identityContent b n ++ s) : a = b ∧ m = n ∧ r = s := by
  cases m with
  | regular mode =>
    cases n with
    | regular mode' =>
      simp only [identityContent, List.cons_append, List.append_assoc, List.cons.injEq,
        true_and] at h
      obtain ⟨hsum, h⟩ := checksum_append_inj h
      obtain ⟨hmode, hrest⟩ := List.append_inj h (by simp)
      have hnat := beBytes_injOn mode.toNat_lt mode'.toNat_lt hmode
      exact ⟨hsum, congrArg _ (UInt32.toNat.inj hnat), hrest⟩
    | symlink encoding kind => simp [identityContent] at h
  | symlink encoding kind =>
    cases n with
    | regular mode => simp [identityContent] at h
    | symlink encoding' kind' =>
      simp only [identityContent, List.cons_append, List.append_assoc, List.cons.injEq,
        true_and] at h
      obtain ⟨hsum, h⟩ := checksum_append_inj h
      simp only [List.nil_append, List.cons.injEq] at h
      obtain ⟨hencoding, hkind, hrest⟩ := h
      rw [identityTag_injective hencoding, kindTag_injective hkind]
      exact ⟨hsum, rfl, hrest⟩

theorem identityEntry_append_inj {x y : Triple} {r s : List UInt8} (hx : PathFits x)
    (hy : PathFits y) (h : identityEntry x ++ r = identityEntry y ++ s) : x = y ∧ r = s := by
  simp only [identityEntry, List.append_assoc] at h
  obtain ⟨hlen, h⟩ := List.append_inj h (by simp)
  obtain ⟨hpath, h⟩ := List.append_inj h (beBytes_injOn hx hy hlen)
  obtain ⟨hsum, hmeta, hrest⟩ := identityContent_append_inj h
  exact ⟨Triple.ext (PackPath.ext_bytes hpath) hsum hmeta, hrest⟩

/-- The bytes tell the entries, where the counts in them are not cut. -/
theorem identityStream_injOn {xs ys : List Triple} (hx : ∀ t ∈ xs, PathFits t)
    (hy : ∀ t ∈ ys, PathFits t) (hxs : xs.length < 256 ^ 8) (hys : ys.length < 256 ^ 8)
    (h : identityStream xs = identityStream ys) : xs = ys := by
  simp only [identityStream, List.append_assoc] at h
  obtain ⟨hlen, h⟩ := List.append_inj (List.append_cancel_left h) (by simp)
  have hlen := beBytes_injOn hxs hys hlen
  have hall := flatMap_injOn (r := []) (s := []) identityEntry_append_inj hx hy hlen (by simpa using h)
  exact hall.1

theorem mem_sortByPath {ts : List Triple} {t : Triple} : t ∈ sortByPath ts ↔ t ∈ ts :=
  List.mem_insertionSort _

namespace Snapshot

variable {α : Type} [DecidableEq α]

theorem removeAll_length {s t : HashSet α} {xs : List α} (h : removeAll (ε := ε) s xs = .ok t) :
    t.elems.length ≤ s.elems.length := by
  obtain ⟨-, -, hmem⟩ := removeAll_ok h
  exact (List.subperm_of_subset t.nodup fun x hx => ((hmem x).mp hx).1).length_le

theorem insertAll_length {s t : HashSet α} {xs : List α} (h : insertAll (ε := ε) s xs = .ok t) :
    t.elems.length ≤ s.elems.length + xs.length := by
  obtain ⟨-, -, hmem⟩ := insertAll_ok h
  rw [← List.length_append]
  exact (List.subperm_of_subset t.nodup fun x hx => List.mem_append.mpr ((hmem x).mp hx)).length_le

theorem applyChanges_length {s t : HashSet α} {d : ChangeSet α}
    (h : applyChanges (ε := ε) s d = .ok t) :
    t.elems.length ≤ s.elems.length + d.added.length := by
  obtain ⟨u, hu, ht⟩ := Exec.bind_eq_ok.mp h
  have := removeAll_length hu
  have := insertAll_length ht
  omega

end Snapshot

namespace PackIndex

/-- What 32-bit lengths in a file leave room for. -/
structure Bounded (index : PackIndex) : Prop where
  paths : ∀ path ∈ index.pathPool.entries, path.bytes.length < 256 ^ 8
  deltas : index.snapshotDeltas.length < handleCount
  added : ∀ d ∈ index.snapshotDeltas, d.added.length < handleCount

theorem replay_length {needle : String} {s t : HashSet FileHandle}
    {deltas : List (String × ChangeSet FileHandle)} {n : Nat}
    (hadded : ∀ d ∈ deltas, d.2.added.length ≤ n)
    (h : replay (ε := ε) needle s deltas = .ok (some t)) :
    t.elems.length ≤ s.elems.length + deltas.length * n := by
  induction deltas generalizing s with
  | nil => cases h
  | cons d deltas ih =>
    obtain ⟨tag, delta⟩ := d
    obtain ⟨u, hu, h⟩ := Exec.bind_eq_ok.mp h
    have hstep := Snapshot.applyChanges_length hu
    have hbound : delta.added.length ≤ n := hadded _ List.mem_cons_self
    rw [List.length_cons, Nat.succ_mul]
    split_ifs at h with htag
    · cases h
      omega
    · have := ih (fun d hd => hadded d (List.mem_cons_of_mem _ hd)) h
      omega

theorem Bounded.resolve_length {index : PackIndex} (h : index.Bounded) {ord : IterOrder FileHandle}
    {tag : String} {handles : List FileHandle}
    (hresolve : index.resolveSnapshot (ε := ε) ord tag = .ok (some handles)) :
    handles.length < 256 ^ 8 := by
  obtain ⟨current, hreplay, rfl⟩ := resolveSnapshot_eq_some.mp hresolve
  have hlen := replay_length (n := handleCount - 1) (fun d hd => by
    have := h.added d.2 (List.of_mem_zip hd).2
    omega) hreplay
  have hzip : (index.snapshotTags.zip index.snapshotDeltas).length ≤ handleCount - 1 := by
    have := h.deltas
    rw [List.length_zip]
    omega
  have hmul := Nat.mul_le_mul_right (handleCount - 1) hzip
  have hempty : (HashSet.empty : HashSet FileHandle).elems.length = 0 := rfl
  have hroom : (handleCount - 1) * (handleCount - 1) < 256 ^ 8 := by decide
  rw [HashSet.iter, (ord.perm _).length_eq]
  omega

theorem Bounded.identityEntries_fit {index : PackIndex} (h : index.Bounded)
    {ord : IterOrder FileHandle} {tag : String} {ts : List Triple}
    (hentries : index.identityEntries (ε := ε) ord tag = .ok (some ts)) :
    (∀ t ∈ ts, PathFits t) ∧ ts.length < 256 ^ 8 := by
  obtain ⟨found, hresolve, hentries⟩ := Exec.bind_eq_ok.mp hentries
  cases found with
  | none => cases hentries
  | some handles =>
    cases hfound : index.entriesFromHandles handles with
    | error e =>
      cases e with
      | error e => simp [hfound] at hentries
      | panic => simp [hfound, Exec.panic] at hentries
    | ok entries =>
      simp only [hfound, Except.ok.injEq, Option.some.injEq] at hentries
      subst hentries
      constructor
      · intro t ht
        obtain ⟨e, he, rfl⟩ := List.mem_map.mp (mem_sortByPath.mp ht)
        obtain ⟨handle, -, hok⟩ := Exec.mem_of_mapM hfound he
        exact h.paths _ (EntryPool.lookup_mem (handleToEntry_eq_ok.mp hok).1)
      · have hlen := (Exec.mapM_eq_ok.mp hfound).length_eq
        rw [sortByPath, List.length_insertionSort, triples, List.length_map, ← hlen]
        exact h.resolve_length hresolve

end PackIndex

theorem utf8_length_le (cs : List Char) : (cs.flatMap String.utf8EncodeChar).length ≤ 4 * cs.length := by
  induction cs with
  | nil => simp
  | cons c cs ih =>
    have hc : (String.utf8EncodeChar c).length ≤ 4 := by
      rw [String.length_utf8EncodeChar]
      exact Char.utf8Size_le_four c
    rw [List.flatMap_cons, List.length_append, List.length_cons]
    omega

theorem fromUtf16_length {units : List UInt16} {cs : List Char} (h : fromUtf16 units = some cs) :
    cs.length ≤ units.length := by
  fun_induction fromUtf16 units generalizing cs with
  | case1 => simp_all
  | case2 unit units _ ih =>
    obtain ⟨rest, hrest, rfl⟩ := Option.map_eq_some_iff.mp h
    simpa using ih hrest
  | case3 => cases h
  | case4 unit _ _ low units _ ih =>
    obtain ⟨rest, hrest, rfl⟩ := Option.map_eq_some_iff.mp h
    have := ih hrest
    simp only [List.length_cons]
    omega
  | case5 => cases h
  | case6 => cases h

theorem decodeWindows_length {units : List UInt16} {bytes : List UInt8}
    (h : decodeWindows units = .ok bytes) : bytes.length ≤ 4 * units.length := by
  unfold decodeWindows at h
  cases hcs : fromUtf16 units with
  | none =>
    rw [hcs] at h
    cases h
  | some cs =>
    rw [hcs] at h
    dsimp only at h
    split_ifs at h
    cases h
    have := utf8_length_le cs
    have := fromUtf16_length hcs
    rw [List.length_map]
    omega

theorem EncodedLegacyPath.decode_length {wire : EncodedLegacyPath} {path : PackPath}
    (h : wire.deserialize.decode = .ok path) : path.bytes.length < 256 ^ 8 := by
  have hcount : 4 * handleCount ≤ 256 ^ 8 := by decide
  obtain ⟨bytes, hbytes, h⟩ := Exec.bind_eq_ok.mp h
  have hpath : path.bytes = bytes := by
    cases hnew : PackPath.new bytes with
    | error e =>
      rw [hnew] at h
      cases h
    | ok p =>
      rw [hnew] at h
      cases h
      exact PackPath.new_eq_ok.mp hnew
  rw [hpath]
  cases wire with
  | unix bytes' =>
    cases hbytes
    have := bytes'.short
    omega
  | windows units =>
    have := decodeWindows_length hbytes
    have := units.short
    omega

namespace PackIndex

theorem fromLegacy_bounded {wire : LegacyWire} {index : PackIndex}
    (h : fromLegacy wire.deserialize = .ok index) : index.Bounded := by
  obtain ⟨hdecode, hpaths, -, -⟩ := fromLegacy_ok h
  obtain ⟨pool, -, hindex⟩ := Exec.bind_eq_ok.mp h
  have hdeltas : index.snapshotDeltas = wire.deserialize.snapshotDeltas.map legacyChanges := by
    cases hindex
    rfl
  refine ⟨fun path hpath => ?_, ?_, fun d hd => ?_⟩
  · rw [hpaths, EntryPool.mem_deserialize, List.mem_map] at hpath
    obtain ⟨w, hw, rfl⟩ := hpath
    obtain ⟨encoded, -, rfl⟩ := List.mem_map.mp hw
    exact encoded.decode_length (hdecode _ hw)
  · rw [hdeltas, List.length_map]
    simpa [LegacyWire.deserialize] using wire.snapshotDeltas.short
  · rw [hdeltas] at hd
    obtain ⟨changes, hchanges, rfl⟩ := List.mem_map.mp hd
    obtain ⟨encoded, -, rfl⟩ := List.mem_map.mp hchanges
    simpa [legacyChanges] using encoded.added.short

theorem fromV3_bounded {wire : V3Wire}
    (hpaths : ∀ path ∈ wire.pathPool, path.bytes.length < 256 ^ 8) : (fromV3 wire).Bounded := by
  refine ⟨fun path hpath => hpaths path (EntryPool.mem_deserialize.mp hpath), ?_, fun d hd => ?_⟩
  · simpa [fromV3, fromParts] using wire.snapshotDeltas.short
  · obtain ⟨encoded, -, rfl⟩ := List.mem_map.mp hd
    exact encoded.added.short

theorem readV3Tables_paths {rmp : Rmp} {tags : List String} {bytes : List UInt8} {wire : V3Wire}
    (h : readV3Tables rmp tags bytes = .ok wire) :
    ∀ path ∈ wire.pathPool, path.bytes.length < 256 ^ 8 := by
  obtain ⟨⟨deltas, bytes⟩, -, h⟩ := Exec.bind_eq_ok.mp h
  obtain ⟨⟨paths, bytes⟩, -, h⟩ := Exec.bind_eq_ok.mp h
  obtain ⟨pool, hpool, h⟩ := Exec.bind_eq_ok.mp h
  obtain ⟨⟨objects, bytes⟩, -, h⟩ := Exec.bind_eq_ok.mp h
  obtain ⟨⟨metadata, bytes⟩, -, h⟩ := Exec.bind_eq_ok.mp h
  obtain ⟨⟨_, bytes⟩, -, h⟩ := Exec.bind_eq_ok.mp h
  cases h
  intro path hpath
  obtain ⟨encoded, -, hok⟩ := Exec.mem_of_mapM hpool hpath
  have hnew : PackPath.new encoded.elems = .ok path := by
    unfold deserializePath at hok
    split at hok
    · cases hok
      assumption
    · cases hok
  rw [PackPath.new_eq_ok.mp hnew]
  exact lt_trans encoded.short (by decide)

/-- What is read from a file is small enough for its identity to be exact. -/
theorem parse_bounded {rmp : Rmp} {file : List UInt8} {index : PackIndex}
    (h : parse rmp file = .ok index) : index.Bounded := by
  obtain ⟨⟨version, bytes⟩, -, h⟩ := Exec.bind_eq_ok.mp h
  dsimp only at h
  split_ifs at h
  · obtain ⟨⟨tags, bytes⟩, -, h⟩ := Exec.bind_eq_ok.mp h
    obtain ⟨wire, -, h⟩ := Exec.bind_eq_ok.mp h
    exact fromLegacy_bounded h
  · obtain ⟨⟨fields, features, tags, bytes⟩, -, h⟩ := Exec.bind_eq_ok.mp h
    dsimp only at h
    split_ifs at h with hfeatures hfields
    · cases h
    · cases h
    obtain ⟨wire, hwire, h⟩ := Exec.bind_eq_ok.mp h
    cases h
    exact fromV3_bounded (readV3Tables_paths hwire)

/-- Two snapshots with one identity have the same entries. -/
theorem identityEntries_unique {rmp : Rmp} {file file' : List UInt8} {index index' : PackIndex}
    {ord ord' : IterOrder FileHandle} {tag tag' : String} {ts ts' : List Triple}
    (h : parse rmp file = .ok index) (h' : parse rmp file' = .ok index')
    (hts : index.identityEntries (ε := ε) ord tag = .ok (some ts))
    (hts' : index'.identityEntries (ε := δ) ord' tag' = .ok (some ts'))
    (same : identityStream ts = identityStream ts') : ts = ts' := by
  obtain ⟨hpaths, hlen⟩ := (parse_bounded h).identityEntries_fit hts
  obtain ⟨hpaths', hlen'⟩ := (parse_bounded h').identityEntries_fit hts'
  exact identityStream_injOn hpaths hpaths' hlen hlen' same

end PackIndex

end Elfshaker.Format
