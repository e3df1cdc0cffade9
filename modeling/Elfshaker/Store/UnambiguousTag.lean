import Elfshaker.Format.Readers
import Elfshaker.Store.GcTags

namespace Elfshaker.Store

open Elfshaker.Library Elfshaker.Format

variable {crates : Crates} {ord : IterOrder FileHandle} {dd : DataDir}

section Checksums

variable {tag : String} {id q : PackId} {ids : List PackId}

theorem noError_computeSnapshotChecksum (index : PackIndex) (tag : String) :
    Exec.NoError (index.computeSnapshotChecksum (ε := Error) crates.sha1 ord tag) := by
  have hresolve : Exec.NoError (index.resolveSnapshot (ε := Error) ord tag) :=
    (PackIndex.noError_replay _).bind fun _ => Exec.noError_ok _
  refine Exec.NoError.bind ?_ fun _ => Exec.noError_ok _
  refine hresolve.bind fun resolved => ?_
  cases resolved with
  | none => exact Exec.noError_ok _
  | some handles =>
    dsimp only
    split
    · exact Exec.noError_ok _
    · exact Exec.noError_ok _
    · intro e h
      cases h

theorem noError_checksumIn (tag : String) (id : PackId) :
    Exec.NoError (checksumIn crates ord dd tag id) := by
  unfold checksumIn
  split
  · exact noError_computeSnapshotChecksum _ _
  · intro e h
    cases h

theorem noError_allChecksumsAre (tag : String) (first : Option ObjectChecksum)
    (ids : List PackId) : Exec.NoError (allChecksumsAre crates ord dd tag first ids) := by
  induction ids with
  | nil => exact Exec.noError_ok true
  | cons id rest ih =>
    refine (noError_checksumIn tag id).bind fun checksum => ?_
    split_ifs
    · exact ih
    · exact Exec.noError_ok false

theorem noError_areSnapshotsEqual (tag : String) (ids : List PackId) :
    Exec.NoError (areSnapshotsEqual crates ord dd ids tag) := by
  cases ids with
  | nil =>
    intro e h
    cases h
  | cons id rest =>
    refine (noError_checksumIn tag id).bind fun first => ?_
    exact noError_allChecksumsAre tag first rest

/-- The comparison stops at the first checksum that differs, and needs all before it. -/
theorem allChecksumsAre_false {first : Option ObjectChecksum} :
    allChecksumsAre crates ord dd tag first ids = .ok false ↔
      ∃ before other after c, ids = before ++ other :: after ∧
        (∀ q ∈ before, checksumIn crates ord dd tag q = .ok first) ∧
        checksumIn crates ord dd tag other = .ok c ∧ c ≠ first := by
  induction ids with
  | nil =>
    refine iff_of_false (by rw [allChecksumsAre]; simp) ?_
    rintro ⟨before, other, after, c, hnil, -⟩
    simp at hnil
  | cons id rest ih =>
    rw [allChecksumsAre, Exec.bind_eq_ok]
    constructor
    · rintro ⟨c, hc, h⟩
      split_ifs at h with hfirst
      · obtain ⟨before, other, after, d, rfl, hbefore, hother⟩ := ih.mp h
        refine ⟨id :: before, other, after, d, rfl, ?_, hother⟩
        exact List.forall_mem_cons.mpr ⟨hfirst ▸ hc, hbefore⟩
      · exact ⟨[], id, rest, c, rfl, by simp, hc, hfirst⟩
    · rintro ⟨before, other, after, d, hids, hbefore, hother, hne⟩
      cases before with
      | nil =>
        cases hids
        exact ⟨d, hother, if_neg hne⟩
      | cons next before =>
        cases hids
        obtain ⟨hid, hbefore⟩ := List.forall_mem_cons.mp hbefore
        refine ⟨first, hid, ?_⟩
        rw [if_pos rfl]
        exact ih.mpr ⟨before, other, after, d, rfl, hbefore, hother, hne⟩

theorem areSnapshotsEqual_false : areSnapshotsEqual crates ord dd (id :: ids) tag = .ok false ↔
    ∃ before other after first c, ids = before ++ other :: after ∧
      (∀ q ∈ id :: before, checksumIn crates ord dd tag q = .ok first) ∧
      checksumIn crates ord dd tag other = .ok c ∧ c ≠ first := by
  simp only [areSnapshotsEqual, Exec.bind_eq_ok, allChecksumsAre_false, List.forall_mem_cons]
  constructor
  · rintro ⟨first, hid, before, other, after, c, hids, hbefore, hother⟩
    exact ⟨before, other, after, first, c, hids, ⟨hid, hbefore⟩, hother⟩
  · rintro ⟨before, other, after, first, c, hids, ⟨hid, hbefore⟩, hother⟩
    exact ⟨first, hid, before, other, after, c, hids, hbefore, hother⟩

end Checksums

section Compared

variable {tag : String} {q q' : PackId} {ts : List Triple} {found found' : Option (List Triple)}

/-- What a pack is compared by: the entries of the snapshot as they are hashed, nothing
where these do not resolve. There is no comparison with an index that does not load. -/
def comparedIn (crates : Crates) (ord : IterOrder FileHandle) (dd : DataDir) (tag : String)
    (id : PackId) : Exec Error (Option (List Triple)) :=
  match loadIndex crates dd id with
  | .ok index => index.identityEntries ord tag
  | .error _ => Exec.panic

theorem checksumIn_eq (crates : Crates) (ord : IterOrder FileHandle) (dd : DataDir) (tag : String)
    (id : PackId) : checksumIn crates ord dd tag id =
      (comparedIn crates ord dd tag id).map
        (Option.map fun ts => crates.sha1 (identityStream ts)) := by
  unfold checksumIn comparedIn
  cases loadIndex crates dd id with
  | ok index =>
    cases hentries : index.identityEntries (ε := Error) ord tag <;>
      simp [PackIndex.computeSnapshotChecksum, hentries, Except.map, bind, Except.bind]
  | error e => rfl

theorem checksumIn_eq_ok {c : Option ObjectChecksum} :
    checksumIn crates ord dd tag q = .ok c ↔ ∃ found, comparedIn crates ord dd tag q = .ok found ∧
      found.map (fun ts => crates.sha1 (identityStream ts)) = c := by
  rw [checksumIn_eq]
  cases comparedIn crates ord dd tag q with
  | ok found => simp [Except.map]
  | error e => exact iff_of_false nofun nofun

theorem comparedIn_eq_ok : comparedIn crates ord dd tag q = .ok found ↔
    ∃ index, loadIndex crates dd q = .ok index ∧
      index.identityEntries (ε := Error) ord tag = .ok found := by
  unfold comparedIn
  cases loadIndex crates dd q with
  | ok index => simp
  | error e => simp [Exec.panic]

/-- Without collisions, one checksum is that of one list of entries. -/
theorem comparedIn_unique (sha1 : Set.InjOn crates.sha1 (identityStreams crates ord dd))
    (h : comparedIn crates ord dd tag q = .ok found)
    (h' : comparedIn crates ord dd tag q' = .ok found')
    (same : found.map (fun ts => crates.sha1 (identityStream ts)) =
      found'.map fun ts => crates.sha1 (identityStream ts)) : found = found' := by
  obtain ⟨index, hload, hfound⟩ := comparedIn_eq_ok.mp h
  obtain ⟨index', hload', hfound'⟩ := comparedIn_eq_ok.mp h'
  cases found with
  | none =>
    cases found' with
    | none => rfl
    | some ts' => cases same
  | some ts =>
    cases found' with
    | none => cases same
    | some ts' =>
      have hstream := sha1 ⟨q, tag, index, ts, hload, hfound, rfl⟩
        ⟨q', tag, index', ts', hload', hfound', rfl⟩ (Option.some.inj same)
      obtain ⟨file, -, hparse⟩ := loadIndex_eq_ok.mp hload
      obtain ⟨file', -, hparse'⟩ := loadIndex_eq_ok.mp hload'
      rw [PackIndex.identityEntries_unique hparse hparse' hfound hfound' hstream]

/-- What a pack is compared by is what the tag resolves to in it. -/
theorem comparedIn_resolves (hlists : Lists crates dd q tag)
    (h : comparedIn crates ord dd tag q = .ok (some ts)) :
    ∃ us, snapshotTriples crates ord dd ⟨q, tag⟩ = .ok us ∧ ∀ t, t ∈ us ↔ t ∈ ts := by
  obtain ⟨index, hload, hts⟩ := comparedIn_eq_ok.mp h
  obtain ⟨tags, htags, htag⟩ := hlists
  rw [loadIndexSnapshots_of_loadIndex hload] at htags
  cases htags
  have hchecksum : HasChecksum crates ord dd q tag (crates.sha1 (identityStream ts)) :=
    ⟨index, hload, htag, by simp [PackIndex.computeSnapshotChecksum, hts, bind, Except.bind]⟩
  obtain ⟨index', -, ts', us, hload', -, hts', -, hus, hmem⟩ := hchecksum.triples
  rw [hload] at hload'
  cases hload'
  rw [hts] at hts'
  cases hts'
  exact ⟨us, hus, fun t => (hmem t).symm⟩

theorem comparedIn_of_resolves {us : List Triple}
    (h : snapshotTriples crates ord dd ⟨q, tag⟩ = .ok us) :
    ∃ ts, comparedIn crates ord dd tag q = .ok (some ts) := by
  obtain ⟨index, hload, h⟩ := Exec.bind_eq_ok.mp h
  obtain ⟨resolved, hresolved, h⟩ := Exec.bind_eq_ok.mp h
  obtain ⟨handles, hhandles, h⟩ := Exec.bind_eq_ok.mp h
  obtain ⟨entries, hentries, -⟩ := Exec.bind_eq_ok.mp h
  rw [Exec.okOr_eq_ok] at hhandles
  subst hhandles
  rw [Exec.mapError_eq_ok] at hentries
  refine ⟨sortByPath (triples entries), comparedIn_eq_ok.mpr ⟨index, hload, ?_⟩⟩
  exact Exec.bind_eq_ok.mpr ⟨some handles, hresolved, by simp [hentries]⟩

end Compared

section Lookup

variable {tag : String} {ids listed : List PackId}

/-- An answer names a pack with the tag, where all packs with the tag resolve it to the same
entries, and else there is an error. -/
structure UnambiguousOrFails (crates : Crates) (ord : IterOrder FileHandle) (dd : DataDir)
    (ids : List PackId) (tag : String) (answer : Exec Error PackId) : Prop where
  noPanic : answer.NoPanic
  unambiguous : ∀ p, answer = .ok p → p ∈ ids ∧ Lists crates dd p tag ∧
    ∃ entries : Set Triple, ∀ q ∈ ids, Lists crates dd q tag →
      ∃ ts, snapshotTriples crates ord dd ⟨q, tag⟩ = .ok ts ∧ {t | t ∈ ts} = entries

/-- Either the snapshot resolves in every pack, and to the same entries, or it loads
in all packs up to one that differs from the first. -/
def Comparable (crates : Crates) (ord : IterOrder FileHandle) (dd : DataDir) (tag : String)
    (listed : List PackId) : Prop :=
  (∃ ts, ∀ q ∈ listed, comparedIn crates ord dd tag q = .ok (some ts)) ∨
    ∃ first before other after found found', listed = first :: (before ++ other :: after) ∧
      (∀ q ∈ first :: before, comparedIn crates ord dd tag q = .ok found) ∧
      comparedIn crates ord dd tag other = .ok found' ∧ found' ≠ found

/-- Where the packs that list the tag are compared by the same entries, any of them is an
unambiguous answer. -/
theorem UnambiguousOrFails.of_compared {answer : Exec Error PackId} {ts : List Triple}
    (hlisted : ∀ q, q ∈ listed ↔ q ∈ ids ∧ Lists crates dd q tag) (noPanic : answer.NoPanic)
    (mem : ∀ p, answer = .ok p → p ∈ listed)
    (compared : ∀ q ∈ listed, comparedIn crates ord dd tag q = .ok (some ts)) :
    UnambiguousOrFails crates ord dd ids tag answer := by
  refine ⟨noPanic, fun p hp => ?_⟩
  obtain ⟨hid, hlists⟩ := (hlisted p).mp (mem p hp)
  refine ⟨hid, hlists, {t | t ∈ ts}, fun q hq hqlists => ?_⟩
  obtain ⟨us, hus, hmem⟩ :=
    comparedIn_resolves hqlists (compared q ((hlisted q).mpr ⟨hq, hqlists⟩))
  exact ⟨us, hus, Set.ext hmem⟩

/-- Packs with one checksum, in which the snapshot resolves, are compared by the same entries. -/
theorem compared_of_agree (sha1 : Set.InjOn crates.sha1 (identityStreams crates ord dd))
    {c : Option ObjectChecksum}
    (agree : ∀ q ∈ listed, checksumIn crates ord dd tag q = .ok c)
    (resolves : ∀ q ∈ listed, ∃ us, snapshotTriples crates ord dd ⟨q, tag⟩ = .ok us) :
    ∃ ts, ∀ q ∈ listed, comparedIn crates ord dd tag q = .ok (some ts) := by
  cases listed with
  | nil => exact ⟨[], nofun⟩
  | cons first rest =>
    obtain ⟨us, hus⟩ := resolves first List.mem_cons_self
    obtain ⟨ts, hts⟩ := comparedIn_of_resolves hus
    refine ⟨ts, fun q hq => ?_⟩
    obtain ⟨found, hfound, hc⟩ := checksumIn_eq_ok.mp (agree first List.mem_cons_self)
    obtain ⟨found', hfound', hc'⟩ := checksumIn_eq_ok.mp (agree q hq)
    have hsame := comparedIn_unique sha1 hfound' hfound (hc'.trans hc.symm)
    rw [hfound', hsame, ← hts, hfound]

/-- The comparison ends at a difference exactly where there is one to be found. -/
theorem areSnapshotsEqual_false_iff (sha1 : Set.InjOn crates.sha1 (identityStreams crates ord dd))
    {first : PackId} {rest : List PackId} :
    areSnapshotsEqual crates ord dd (first :: rest) tag = .ok false ↔
      ∃ before other after found found', rest = before ++ other :: after ∧
        (∀ q ∈ first :: before, comparedIn crates ord dd tag q = .ok found) ∧
        comparedIn crates ord dd tag other = .ok found' ∧ found' ≠ found := by
  rw [areSnapshotsEqual_false]
  constructor
  · rintro ⟨before, other, after, c, c', hrest, hbefore, hother, hne⟩
    obtain ⟨found, hfound, hc⟩ := checksumIn_eq_ok.mp (hbefore first List.mem_cons_self)
    obtain ⟨found', hfound', hc'⟩ := checksumIn_eq_ok.mp hother
    refine ⟨before, other, after, found, found', hrest, fun q hq => ?_, hfound', ?_⟩
    · obtain ⟨found'', hfound'', hc''⟩ := checksumIn_eq_ok.mp (hbefore q hq)
      rw [hfound'', comparedIn_unique sha1 hfound'' hfound (hc''.trans hc.symm)]
    · intro hsame
      exact hne (hc'.symm.trans (hsame ▸ hc))
  · rintro ⟨before, other, after, found, found', hrest, hbefore, hother, hne⟩
    refine ⟨before, other, after, _, _, hrest,
      fun q hq => checksumIn_eq_ok.mpr ⟨found, hbefore q hq, rfl⟩,
      checksumIn_eq_ok.mpr ⟨found', hother, rfl⟩, fun hsame => ?_⟩
    exact hne (comparedIn_unique sha1 hother (hbefore first List.mem_cons_self) hsame)

theorem choosePack_one_iff {id : PackId}
    (hlisted : ∀ q, q ∈ [id] ↔ q ∈ ids ∧ Lists crates dd q tag) :
    UnambiguousOrFails crates ord dd ids tag (choosePack crates ord dd tag [id]) ↔
      Comparable crates ord dd tag [id] := by
  constructor
  · intro h
    obtain ⟨hid, hlists, entries, hall⟩ := h.unambiguous id rfl
    obtain ⟨us, hus, -⟩ := hall id hid hlists
    obtain ⟨ts, hts⟩ := comparedIn_of_resolves hus
    exact .inl ⟨ts, fun q hq => List.mem_singleton.mp hq ▸ hts⟩
  · rintro (⟨ts, hts⟩ | ⟨first, before, other, after, -, -, hlist, -⟩)
    · exact .of_compared hlisted (Exec.noPanic_ok id) (fun p hp => (choosePack_ok hp).1) hts
    · simp at hlist

theorem choosePack_many_iff (sha1 : Set.InjOn crates.sha1 (identityStreams crates ord dd))
    {first next : PackId} {rest : List PackId}
    (hlisted : ∀ q, q ∈ first :: next :: rest ↔ q ∈ ids ∧ Lists crates dd q tag) :
    UnambiguousOrFails crates ord dd ids tag
        (choosePack crates ord dd tag (first :: next :: rest)) ↔
      Comparable crates ord dd tag (first :: next :: rest) := by
  constructor
  · intro h
    obtain ⟨equal, hequal⟩ := (noError_areSnapshotsEqual tag (first :: next :: rest)).ok
      (Exec.noPanic_bind_iff.mp h.noPanic).1
    cases equal with
    | false =>
      obtain ⟨before, other, after, found, found', hrest, hdiffer⟩ :=
        (areSnapshotsEqual_false_iff sha1).mp hequal
      exact .inr ⟨first, before, other, after, found, found', by rw [hrest], hdiffer⟩
    | true =>
      obtain ⟨c, agree⟩ := areSnapshotsEqual_true.mp hequal
      obtain ⟨p, -, hchosen⟩ := choosePack_of_agree (List.cons_ne_nil _ _) agree
      obtain ⟨-, -, entries, hall⟩ := h.unambiguous p hchosen
      refine .inl (compared_of_agree sha1 agree fun q hq => ?_)
      obtain ⟨hid, hlists⟩ := (hlisted q).mp hq
      obtain ⟨us, hus, -⟩ := hall q hid hlists
      exact ⟨us, hus⟩
  · rintro (⟨ts, hts⟩ | ⟨_, before, other, after, found, found', hlist, hdiffer⟩)
    · have agree : ∀ q ∈ first :: next :: rest, checksumIn crates ord dd tag q =
          .ok (some (crates.sha1 (identityStream ts))) :=
        fun q hq => checksumIn_eq_ok.mpr ⟨some ts, hts q hq, rfl⟩
      obtain ⟨p, -, hchosen⟩ := choosePack_of_agree (List.cons_ne_nil _ _) agree
      refine .of_compared hlisted ?_ (fun p hp => (choosePack_ok hp).1) hts
      rw [hchosen]
      exact Exec.noPanic_ok p
    · obtain ⟨rfl, hrest⟩ := List.cons.inj hlist
      have hequal := (areSnapshotsEqual_false_iff sha1).mpr
        ⟨before, other, after, found, found', hrest, hdiffer⟩
      have hchosen : choosePack crates ord dd tag (first :: next :: rest) =
          Exec.fail (.ambiguousSnapshotMatch tag (first :: next :: rest)) := by
        simp only [choosePack, disambiguateSnapshot, hequal, Exec.ok_bind]
        rfl
      rw [hchosen]
      refine ⟨Exec.noPanic_fail _, fun p hp => ?_⟩
      cases hp

theorem choosePack_comparable_iff (sha1 : Set.InjOn crates.sha1 (identityStreams crates ord dd))
    (hlisted : ∀ q, q ∈ listed ↔ q ∈ ids ∧ Lists crates dd q tag) :
    UnambiguousOrFails crates ord dd ids tag (choosePack crates ord dd tag listed) ↔
      Comparable crates ord dd tag listed := by
  cases listed with
  | nil => exact iff_of_true ⟨Exec.noPanic_fail _, nofun⟩ (.inl ⟨[], nofun⟩)
  | cons first rest =>
    cases rest with
    | nil => exact choosePack_one_iff hlisted
    | cons next rest => exact choosePack_many_iff sha1 hlisted

theorem find_pack_unambiguous_iff (sha1 : Set.InjOn crates.sha1 (identityStreams crates ord dd))
    (discovered : packs crates dd = .ok ids) {hits : List (Option PackId)}
    (load : ids.mapM (listing crates dd tag) = .ok hits) :
    UnambiguousOrFails crates ord dd ids tag (findPackWithSnapshot crates ord dd tag) ↔
      Comparable crates ord dd tag hits.reduceOption := by
  have hfind : findPackWithSnapshot crates ord dd tag =
      choosePack crates ord dd tag hits.reduceOption := by
    rw [findPackWithSnapshot, discovered, Exec.ok_bind, load, Exec.ok_bind]
  rw [hfind]
  exact choosePack_comparable_iff sha1 fun q => listing_hits load

end Lookup

/-- A pack and a loose index have the tag with one list of entries. -/
theorem find_pack_unambiguous_packed : ∃ dd ids hits,
    dd = CollectionSample.dataDir "loose/a.pack.idx" 97 ∧
    packs CollectionSample.sampleCrates dd = .ok ids ∧
    ids.mapM (listing CollectionSample.sampleCrates dd "a") = .ok hits ∧
    (UnambiguousOrFails CollectionSample.sampleCrates CollectionSample.sampleOrd dd ids "a"
        (findPackWithSnapshot CollectionSample.sampleCrates CollectionSample.sampleOrd dd "a") ↔
      Comparable CollectionSample.sampleCrates CollectionSample.sampleOrd dd "a"
        hits.reduceOption) := by
  obtain ⟨ids, hids⟩ : ∃ ids, packs CollectionSample.sampleCrates
      (CollectionSample.dataDir "loose/a.pack.idx" 97) = .ok ids := ⟨_, rfl⟩
  obtain ⟨hits, hhits⟩ : ∃ hits, ids.mapM (listing CollectionSample.sampleCrates
      (CollectionSample.dataDir "loose/a.pack.idx" 97) "a") = .ok hits := by
    cases hids
    exact ⟨_, rfl⟩
  exact ⟨_, ids, hits, rfl, hids, hhits,
    find_pack_unambiguous_iff (CollectionSample.sample_sha1 (.inl rfl)) hids hhits⟩

/-- A pack whose index ends after its tags. -/
def CollectionSample.truncated : DataDir where
  packs := (∅ : DirTree).insert "p.pack.idx"
    (.file (magic ++ [0, 0, 0, 1] ++ [0x95] ++ CollectionSample.tags 97) 1)
  loose := ∅
  head := none

/-- The only pack that lists a tag is the answer, also where its index does not load. -/
theorem find_pack_with_snapshot_trusts_tags : ¬ ∀ (crates : Crates) (ord : IterOrder FileHandle)
    (dd : DataDir) (ids : List PackId) (tag : String) (hits : List (Option PackId)),
    Set.InjOn crates.sha1 (identityStreams crates ord dd) → packs crates dd = .ok ids →
    ids.mapM (listing crates dd tag) = .ok hits →
    UnambiguousOrFails crates ord dd ids tag (findPackWithSnapshot crates ord dd tag) := by
  intro h
  have hload (id : PackId) (index : PackIndex) :
      loadIndex CollectionSample.sampleCrates CollectionSample.truncated id ≠ .ok index := by
    intro hload
    obtain ⟨bytes, hopen, hparse⟩ := loadIndex_eq_ok.mp hload
    obtain ⟨-, hfile⟩ := openIndex_eq_ok.mp hopen
    have hfiles : CollectionSample.truncated.packs.files =
        [("p.pack.idx", magic ++ [0, 0, 0, 1] ++ [0x95] ++ CollectionSample.tags 97)] := rfl
    rw [hfiles, List.mem_singleton] at hfile
    have hbytes := congrArg Prod.snd hfile
    dsimp only at hbytes
    subst hbytes
    cases hparse
  have hsha1 : Set.InjOn CollectionSample.sampleCrates.sha1 (identityStreams
      CollectionSample.sampleCrates CollectionSample.sampleOrd CollectionSample.truncated) := by
    rintro s ⟨id, -, index, -, hindex, -⟩
    exact absurd hindex (hload id index)
  have hall := h CollectionSample.sampleCrates CollectionSample.sampleOrd
    CollectionSample.truncated [⟨"p"⟩] "a" [some ⟨"p"⟩] hsha1 (by decide) (by decide)
  obtain ⟨hp, hlists, _, hresolves⟩ := hall.unambiguous ⟨"p"⟩ (by decide)
  obtain ⟨us, hus, -⟩ := hresolves ⟨"p"⟩ hp hlists
  obtain ⟨index, hindex, -⟩ := Exec.bind_eq_ok.mp hus
  exact hload ⟨"p"⟩ index hindex

end Elfshaker.Store
