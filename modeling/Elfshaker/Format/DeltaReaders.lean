import Elfshaker.Format.Readers

namespace Elfshaker.Format

open Elfshaker.Library

namespace Snapshot

variable {α : Type} [DecidableEq α] {s t : HashSet α} {xs : List α}

theorem insertAll_card (h : insertAll (ε := ε) s xs = .ok t) :
    t.elems.length = s.elems.length + xs.length := by
  induction xs generalizing s with
  | nil =>
    cases h
    rfl
  | cons x xs ih =>
    obtain ⟨u, hu, h⟩ := Exec.bind_eq_ok.mp h
    obtain ⟨hx, rfl⟩ := insertNew_eq_ok.mp hu
    have hstep : (s.insert x).1.elems = s.elems ++ [x] := by
      rw [HashSet.insert, dif_neg (HashSet.mem_def.not.mp hx)]
    rw [ih h, hstep, List.length_append, List.length_singleton, List.length_cons]
    omega

theorem removeAll_card (h : removeAll (ε := ε) s xs = .ok t) :
    t.elems.length + xs.length = s.elems.length := by
  induction xs generalizing s with
  | nil =>
    cases h
    rfl
  | cons x xs ih =>
    obtain ⟨u, hu, h⟩ := Exec.bind_eq_ok.mp h
    obtain ⟨hx, rfl⟩ := removeOld_eq_ok.mp hu
    have hstep : (s.remove x).1.elems.length + 1 = s.elems.length :=
      List.length_erase_add_one hx
    rw [List.length_cons, ← hstep, ← ih h]
    omega

/-- A delta changes the size by what it adds and removes. -/
theorem applyChanges_card {d : ChangeSet α} (h : applyChanges (ε := ε) s d = .ok t) :
    t.elems.length + d.removed.length = s.elems.length + d.added.length := by
  obtain ⟨u, hu, ht⟩ := Exec.bind_eq_ok.mp h
  have hremoved := removeAll_card hu
  have hadded := insertAll_card ht
  omega

end Snapshot

/-- A callback that goes on, and keeps what it is given. -/
def keep {β : Type} (seen : List (String × β)) (snapshot : String) (x : β) :
    List (String × β) × ControlFlow Empty :=
  (seen ++ [(snapshot, x)], .next)

namespace PackIndex

section FileCount

variable {σ S : Type} (f : σ → String → UInt64 → σ × ControlFlow S)

/-- The loop over the counts. The sums are those of an `i64`, and wrap. -/
def fileCountFrom : Int64 → List (String × ChangeSet FileHandle) → σ →
    Exec PackError (σ × Option S)
  | _, [], s => .ok (s, none)
  | fileCount, (snapshot, deltas) :: rest, s =>
    let fileCount := fileCount + Int64.ofNat deltas.added.length
    let fileCount := fileCount - Int64.ofNat deltas.removed.length
    match f s snapshot fileCount.toUInt64 with
    | (s, .stop output) => .ok (s, some output)
    | (s, .next) => fileCountFrom fileCount rest s

/-- Calls `f` with the number of entries of each snapshot, until it says to stop. -/
def forEachSnapshotFileCount (index : PackIndex) (s : σ) : Exec PackError (σ × Option S) :=
  fileCountFrom f 0 (index.snapshotTags.zip index.snapshotDeltas) s

end FileCount

/-- `forEachSnapshot` comes to every snapshot, with these sets. -/
structure VisitsAll (index : PackIndex) (visited : List (String × HashSet FileEntryRef)) :
    Prop where
  visits : index.forEachSnapshot keep [] = .ok (visited, none)
  every : visited.map Prod.fst = index.snapshotTags

/-- A set of handles and the set of the entries that they lead to. -/
structure Materialises (index : PackIndex) (handles : HashSet FileHandle)
    (entries : HashSet FileEntryRef) : Prop where
  all : ∀ handle ∈ handles, ∃ e, index.handleToEntry handle = .ok e
  same : index.entriesOf handles.toSet = entries.toSet

/-- The deltas applied one after the other to handles, and the entries visited for them. -/
inductive Walk (ε : Type) (index : PackIndex) : HashSet FileHandle →
    List (String × ChangeSet FileHandle) → List (String × HashSet FileEntryRef) → Prop where
  | nil (s : HashSet FileHandle) : Walk ε index s [] []
  | cons {s t : HashSet FileHandle} {delta : ChangeSet FileHandle} {tag : String}
      {complete : HashSet FileEntryRef} {deltas : List (String × ChangeSet FileHandle)}
      {visited : List (String × HashSet FileEntryRef)}
      (applied : Snapshot.applyChanges (ε := ε) s delta = .ok t)
      (materialises : index.Materialises t complete) (rest : Walk ε index t deltas visited) :
      Walk ε index s ((tag, delta) :: deltas) ((tag, complete) :: visited)

section Walk

variable {index : PackIndex} {s t : HashSet FileHandle} {complete next : HashSet FileEntryRef}
  {deltas : List (String × ChangeSet FileHandle)} {visited : List (String × HashSet FileEntryRef)}

theorem materialises_empty (index : PackIndex) : index.Materialises .empty .empty where
  all := fun handle hhandle => absurd hhandle (HashSet.not_mem_empty handle)
  same := by
    ext e
    simp [entriesOf]

/-- Handles that materialise are as many as their entries, and are listed as them. -/
theorem Materialises.entries (h : index.Materialises s complete) (ord : IterOrder FileHandle) :
    ∃ entries, index.entryRefsFromHandles (s.iter ord) = .ok entries ∧
      entries.Perm complete.elems := by
  obtain ⟨entries, hentries⟩ : ∃ entries, index.entryRefsFromHandles (s.iter ord) = .ok entries :=
    Exec.mapM_exists fun handle hhandle => h.all handle ((HashSet.mem_iter ord).mp hhandle)
  have hnodup : entries.Nodup :=
    (Exec.mapM_nodup_iff hentries fun _ _ _ => handleToEntry_injective).mp (s.nodup_iter ord)
  refine ⟨entries, hentries, (List.perm_ext_iff_of_nodup hnodup complete.nodup).mpr fun e => ?_⟩
  have hsame : e ∈ index.entriesOf s.toSet ↔ e ∈ complete.toSet := by
    rw [h.same]
  rw [mem_entriesOf_list hentries, ← HashSet.mem_def, ← HashSet.mem_toSet, ← hsame]
  simp only [HashSet.mem_iter, entriesOf, Set.mem_ofPred_eq, HashSet.mem_toSet]

theorem Materialises.card (h : index.Materialises s complete) :
    complete.elems.length = s.elems.length := by
  obtain ⟨entries, hentries, hperm⟩ := h.entries .insertion
  rw [← hperm.length_eq, ← (Exec.mapM_eq_ok.mp hentries).length_eq]
  rfl

/-- A step over entries is the same step over handles. -/
theorem Materialises.step {delta : ChangeSet FileHandle} {entryDelta : ChangeSet FileEntryRef}
    (h : index.Materialises s complete) (hmap : delta.map index.entryRefsFromHandles = .ok entryDelta)
    (happly : Snapshot.applyChanges (ε := PackError) complete entryDelta = .ok next) :
    ∃ t, Snapshot.applyChanges (ε := ε) s delta = .ok t ∧ index.Materialises t next := by
  have hlead := Snapshot.applyChanges_leads happly
  rw [← h.same] at hlead
  obtain ⟨u, hu, hsame, hall⟩ := leads_handles h.all hmap hlead
  obtain ⟨t, ht, rfl⟩ := Snapshot.applyChanges_of_leads (ε := ε) hu
  exact ⟨t, ht, hall, hsame⟩

/-- A run that keeps all it visits walks along the handles as well. -/
theorem walk_of_forEachFrom {seen result : List (String × HashSet FileEntryRef)}
    (h : index.Materialises s complete)
    (hrun : index.forEachFrom keep complete deltas seen = .ok (result, none)) :
    ∃ visited, result = seen ++ visited ∧ Walk ε index s deltas visited := by
  induction deltas generalizing s complete seen with
  | nil =>
    cases hrun
    exact ⟨[], (List.append_nil _).symm, .nil s⟩
  | cons delta deltas ih =>
    obtain ⟨tag, delta⟩ := delta
    obtain ⟨entryDelta, hmap, hrun⟩ := Exec.bind_eq_ok.mp hrun
    obtain ⟨next, happly, hrun⟩ := Exec.bind_eq_ok.mp hrun
    obtain ⟨t, ht, hnext⟩ := h.step (ε := ε) hmap happly
    obtain ⟨visited, rfl, hwalk⟩ := ih hnext hrun
    exact ⟨(tag, next) :: visited, by simp, .cons ht hnext hwalk⟩

/-- The counts are the sizes of the sets, cut to 64 bits. -/
theorem Walk.fileCounts (h : Walk ε index s deltas visited) (seen : List (String × UInt64)) :
    fileCountFrom keep (Int64.ofNat s.elems.length) deltas seen =
      .ok (seen ++ visited.map fun v => (v.1, UInt64.ofNat v.2.elems.length), none) := by
  induction h generalizing seen with
  | nil s => rw [fileCountFrom, List.map_nil, List.append_nil]
  | @cons s t delta tag complete deltas visited applied materialises rest ih =>
    have hcard := congrArg Int64.ofNat (Snapshot.applyChanges_card applied)
    rw [Int64.ofNat_add, Int64.ofNat_add] at hcard
    have hcount : Int64.ofNat s.elems.length + Int64.ofNat delta.added.length -
        Int64.ofNat delta.removed.length = Int64.ofNat t.elems.length := by
      rw [← hcard, Int64.add_sub_cancel]
    rw [fileCountFrom, hcount]
    simp only [keep]
    rw [ih, Int64.toUInt64_ofNat', List.map_cons, materialises.card, List.append_assoc,
      List.singleton_append]

/-- A replay stops where the walk first has the tag. -/
theorem Walk.replay (h : Walk ε index s deltas visited) {needle : String}
    (htag : needle ∈ visited.map Prod.fst) :
    ∃ t complete, visited.find? (fun v => v.1 = needle) = some (needle, complete) ∧
      PackIndex.replay (ε := ε) needle s deltas = .ok (some t) ∧ index.Materialises t complete := by
  induction h with
  | nil s => cases htag
  | @cons s t delta tag complete deltas visited applied materialises rest ih =>
    rw [PackIndex.replay, applied, Exec.ok_bind]
    by_cases heq : tag = needle
    · refine ⟨t, complete, ?_, if_pos heq, materialises⟩
      rw [List.find?_cons_of_pos (by simpa using heq), heq]
    · rw [List.map_cons, List.mem_cons] at htag
      obtain ⟨u, found, hfind, hreplay, hfound⟩ := ih (htag.resolve_left (Ne.symm heq))
      refine ⟨u, found, ?_, ?_, hfound⟩
      · rw [List.find?_cons_of_neg (by simpa using heq), hfind]
      · rw [if_neg heq, hreplay]

/-- Every set that a walk visits is as large as the deltas let it be. -/
theorem Walk.card_le (h : Walk ε index s deltas visited) {n : Nat}
    (hadded : ∀ d ∈ deltas, d.2.added.length ≤ n) :
    ∀ v ∈ visited, v.2.elems.length ≤ s.elems.length + deltas.length * n := by
  induction h with
  | nil s =>
    intro v hv
    cases hv
  | @cons s t delta tag complete deltas visited applied materialises rest ih =>
    intro v hv
    have hcard := Snapshot.applyChanges_card applied
    have hbound : delta.added.length ≤ n := hadded _ List.mem_cons_self
    rw [List.length_cons, Nat.succ_mul]
    rcases List.mem_cons.mp hv with rfl | hv
    · have := materialises.card
      dsimp only
      omega
    · have := ih (fun d hd => hadded d (List.mem_cons_of_mem _ hd)) v hv
      omega

theorem VisitsAll.walk (h : index.VisitsAll visited) :
    Walk ε index .empty (index.snapshotTags.zip index.snapshotDeltas) visited := by
  obtain ⟨visited', heq, hwalk⟩ := walk_of_forEachFrom (ε := ε) (materialises_empty index) h.visits
  rw [List.nil_append] at heq
  exact heq ▸ hwalk

theorem VisitsAll.card_lt (h : index.VisitsAll visited) (bounded : index.Bounded) :
    ∀ v ∈ visited, v.2.elems.length < 2 ^ 64 := by
  intro v hv
  have hcard := (h.walk (ε := PackError)).card_le (n := handleCount - 1) (fun d hd => by
    have := bounded.added d.2 (List.of_mem_zip hd).2
    omega) v hv
  have hzip : (index.snapshotTags.zip index.snapshotDeltas).length ≤ handleCount - 1 := by
    have := bounded.deltas
    rw [List.length_zip]
    omega
  have hmul := Nat.mul_le_mul_right (handleCount - 1) hzip
  have hempty : (HashSet.empty : HashSet FileHandle).elems.length = 0 := rfl
  have hroom : (handleCount - 1) * (handleCount - 1) < 2 ^ 64 := by decide
  omega

end Walk

end PackIndex

open PackIndex

/-- On an index that loads and whose snapshots can all be visited, the counts are the sizes
of the visited sets, and a tag resolves to the handles of the set visited for it first. -/
theorem delta_readers_agree {rmp : Rmp} {file : List UInt8} {index : PackIndex}
    {visited : List (String × HashSet FileEntryRef)} (h : parse rmp file = .ok index)
    (all : index.VisitsAll visited) :
    (∃ counts, index.forEachSnapshotFileCount keep [] = .ok (counts, none) ∧
      counts.map (fun c => (c.1, c.2.toNat)) =
        visited.map fun v => (v.1, v.2.elems.length)) ∧
    ∀ (ε : Type) (ord : IterOrder FileHandle), ∀ tag ∈ index.snapshotTags,
      ∃ handles entries complete,
        visited.find? (fun v => v.1 = tag) = some (tag, complete) ∧
        index.resolveSnapshot (ε := ε) ord tag = .ok (some handles) ∧ handles.Nodup ∧
        index.entryRefsFromHandles handles = .ok entries ∧ entries.Perm complete.elems := by
  constructor
  · refine ⟨_, (all.walk (ε := PackError)).fileCounts [], ?_⟩
    rw [List.nil_append, List.map_map]
    refine List.map_congr_left fun v hv => ?_
    have hlt := all.card_lt (parse_bounded h) v hv
    simp only [Function.comp_apply, UInt64.toNat_ofNat_of_lt' hlt]
  · intro ε ord tag htag
    rw [← all.every] at htag
    obtain ⟨t, complete, hfind, hreplay, hsame⟩ := (all.walk (ε := ε)).replay htag
    obtain ⟨entries, hentries, hperm⟩ := hsame.entries ord
    exact ⟨t.iter ord, entries, complete, hfind, resolveSnapshot_eq_some.mpr ⟨t, hreplay, rfl⟩,
      t.nodup_iter ord, hentries, hperm⟩

namespace MovedSample

/-- A file and a link, and then the link alone. -/
def pushes : List Push :=
  [⟨.insertion, "t", [⟨.a, .zero, ⟨0, 3⟩, .regular 420⟩,
    ⟨.b, .zero, ⟨0, 3⟩, .symlink .portableUtf8 .file⟩]⟩,
  ⟨.insertion, "u", [⟨.b, .zero, ⟨0, 3⟩, .symlink .portableUtf8 .file⟩]⟩]

def index : PackIndex :=
  match pushAll .new pushes with
  | .ok index => index
  | .error _ => .new

theorem built : pushAll .new pushes = .ok index := rfl

theorem writable : index.Writable where
  tags := ⟨by decide, by decide⟩
  deltas := by decide
  added := by decide
  removed := by decide
  paths := by decide
  pathBytes := by decide
  objects := by decide
  metadata := by decide

theorem parse_serialize :
    parse messagePack (index.serialize messagePackWriter) = .ok index.reloaded :=
  (roundTrips_of_writable messagePack_readBack writable).parse_serialize

end MovedSample

/-- Two snapshots, the second without the file of the first. -/
theorem delta_readers_agree_moved : ∃ visited, MovedSample.index.reloaded.VisitsAll visited ∧
    ((∃ counts, MovedSample.index.reloaded.forEachSnapshotFileCount keep [] = .ok (counts, none) ∧
      counts.map (fun c => (c.1, c.2.toNat)) =
        visited.map fun v => (v.1, v.2.elems.length)) ∧
    ∀ (ε : Type) (ord : IterOrder FileHandle), ∀ tag ∈ MovedSample.index.reloaded.snapshotTags,
      ∃ handles entries complete,
        visited.find? (fun v => v.1 = tag) = some (tag, complete) ∧
        MovedSample.index.reloaded.resolveSnapshot (ε := ε) ord tag = .ok (some handles) ∧
        handles.Nodup ∧ MovedSample.index.reloaded.entryRefsFromHandles handles = .ok entries ∧
        entries.Perm complete.elems) := by
  obtain ⟨visited, hvisits⟩ : ∃ visited,
      MovedSample.index.reloaded.forEachSnapshot keep [] = .ok (visited, none) := ⟨_, rfl⟩
  have all : MovedSample.index.reloaded.VisitsAll visited := by
    refine ⟨hvisits, ?_⟩
    cases hvisits
    rfl
  exact ⟨visited, all, delta_readers_agree MovedSample.parse_serialize all⟩

end Elfshaker.Format
