import Elfshaker.Library.PrefixOrder
import Mathlib.Data.List.Basic
import Mathlib.Tactic.SplitIfs

namespace Elfshaker.Serve

open Elfshaker.Library

structure Snapshot where
  commit : List UInt8
  fullName : List UInt8
  deriving DecidableEq, Repr

/-- Strings are compared byte by byte. -/
abbrev Snapshot.Less (a b : Snapshot) : Prop := a.commit < b.commit

/-- Visits items in order up to the first where it is told to stop. -/
def ascend {σ : Type} (visit : σ → Snapshot → σ × Bool) : σ → List Snapshot → σ
  | s, [] => s
  | s, item :: items =>
    if (visit s item).2 then ascend visit (visit s item).1 items else (visit s item).1

/-- The operations of package `btree`, with `Snapshot.Less` as the order. -/
structure BTree where
  Tree : Type
  new : Tree
  replaceOrInsert : Tree → Snapshot → Tree
  ascendGreaterOrEqual : {σ : Type} → Tree → Snapshot → (σ → Snapshot → σ × Bool) → σ → σ

/-- What the package documents of the items in a tree. -/
structure BTree.Documented (btree : BTree) (items : btree.Tree → List Snapshot) : Prop where
  new : items btree.new = []
  ordered : ∀ t item, (items t).Pairwise Snapshot.Less →
    (items (btree.replaceOrInsert t item)).Pairwise Snapshot.Less
  replaceOrInsert : ∀ t item, (items t).Pairwise Snapshot.Less →
    ∀ x, x ∈ items (btree.replaceOrInsert t item) ↔
      x = item ∨ x ∈ items t ∧ (x.Less item ∨ item.Less x)
  ascendGreaterOrEqual : ∀ {σ : Type} (t : btree.Tree) (pivot : Snapshot)
    (visit : σ → Snapshot → σ × Bool) (s : σ), (items t).Pairwise Snapshot.Less →
    btree.ascendGreaterOrEqual t pivot visit s =
      ascend visit s ((items t).filter fun item => ¬ item.Less pivot)

section Load

/-- `bufio.MaxScanTokenSize`. -/
def maxScanTokenSize : Nat := 64 * 1024

inductive LoadError where
  | open
  | tooLong
  deriving DecidableEq, Repr

def dropCR (line : List UInt8) : List UInt8 :=
  if line.getLast? = some 13 then line.dropLast else line

/-- What a line ends with counts for the size of the buffer. -/
def scanLines (bytes : List UInt8) : Except LoadError (List (List UInt8)) :=
  let parts := bytes.splitOn 10
  let lines := if parts.getLast? = some [] then parts.dropLast else parts
  if lines.all fun line => line.length < maxScanTokenSize then .ok (lines.map dropCR)
  else .error .tooLong

def rightOfLastDash (s : List UInt8) : List UInt8 :=
  if 45 ∈ s then (s.reverse.takeWhile (· != 45)).reverse else []

def snapshotOf (line : List UInt8) : Snapshot := ⟨rightOfLastDash line, line⟩

variable (btree : BTree)

/-- The tree, and the commits in the order of the lines; `none` is a file that cannot
be opened. -/
def loadBTree (file : Option (List UInt8)) :
    Except LoadError (btree.Tree × List (List UInt8)) :=
  match file with
  | none => .error .open
  | some bytes => do
    let lines ← scanLines bytes
    .ok (lines.foldl (fun t line => btree.replaceOrInsert t (snapshotOf line)) btree.new,
      lines.map rightOfLastDash)

/-- What `matchCommitHash` returns. -/
structure Match where
  found : Snapshot
  multiple : Bool
  ok : Bool
  deriving DecidableEq, Repr

def Match.none : Match := ⟨⟨[], []⟩, false, false⟩

def visitCommit (commit : List UInt8) (m : Match) (item : Snapshot) : Match × Bool :=
  if commit.isPrefixOf item.commit || item.commit.isPrefixOf commit then
    if m.ok then ({ m with multiple := true }, false)
    else ({ m with found := item, ok := true }, true)
  else (m, false)

def matchCommitHash (snapshots : btree.Tree) (commit : List UInt8) : Match :=
  btree.ascendGreaterOrEqual snapshots ⟨commit, []⟩ (visitCommit commit) Match.none

end Load

section Walk

variable {query : List UInt8} {item : Snapshot} {items : List Snapshot} {m : Match}

/-- The keys that a walk from the query on is after. -/
abbrev Extends (query : List UInt8) (item : Snapshot) : Prop := query <+: item.commit

theorem visitCommit_extends (h : Extends query item) : visitCommit query m item =
    if m.ok then ({ m with multiple := true }, false)
    else ({ m with found := item, ok := true }, true) := by
  have hstart : query.isPrefixOf item.commit = true := List.isPrefixOf_iff_prefix.mpr h
  rw [visitCommit, hstart, Bool.true_or, if_pos rfl]

/-- From the query on, no other key is the start of it. -/
theorem visitCommit_other (hle : query ≤ item.commit) (h : ¬ Extends query item) :
    visitCommit query m item = (m, false) := by
  have hnot : query.isPrefixOf item.commit = false := by
    rw [Bool.eq_false_iff, ne_eq, List.isPrefixOf_iff_prefix]
    exact h
  have hback : item.commit.isPrefixOf query = false := by
    rw [Bool.eq_false_iff, ne_eq, List.isPrefixOf_iff_prefix]
    intro hback
    have heq := PrefixOrder.eq_of_prefix_of_le hback hle
    exact h (heq ▸ List.prefix_rfl)
  rw [visitCommit, hnot, hback, Bool.or_false, if_neg Bool.false_ne_true]

/-- Behind the first key that does not start with the query there is none that does. -/
theorem filter_extends_nil (ordered : (item :: items).Pairwise Snapshot.Less)
    (hle : query ≤ item.commit) (h : ¬ Extends query item) :
    (item :: items).filter (fun x => Extends query x) = [] := by
  refine List.filter_eq_nil_iff.mpr fun x hx hext => ?_
  have hext := of_decide_eq_true hext
  rcases List.mem_cons.mp hx with rfl | hx
  · exact h hext
  · have hless : item.commit < x.commit := List.rel_of_pairwise_cons ordered hx
    exact h (PrefixOrder.prefix_of_between hle (List.le_of_lt hless) hext)

/-- The answer to a list of keys that all match. -/
def answer : List Snapshot → Match
  | [] => Match.none
  | item :: rest => ⟨item, !rest.isEmpty, true⟩

theorem ascend_eq_answer (ordered : items.Pairwise Snapshot.Less)
    (from_query : ∀ x ∈ items, query ≤ x.commit) :
    ascend (visitCommit query) Match.none items =
      answer (items.filter fun x => Extends query x) := by
  cases items with
  | nil => rfl
  | cons item rest =>
    have hle := from_query item List.mem_cons_self
    by_cases hitem : Extends query item
    · have hfirst : ascend (visitCommit query) Match.none (item :: rest) =
          ascend (visitCommit query) ⟨item, false, true⟩ rest := by
        rw [ascend, visitCommit_extends hitem]
        rfl
      have hfilter : (item :: rest).filter (fun x => Extends query x) =
          item :: rest.filter fun x => Extends query x :=
        List.filter_cons_of_pos (by simpa using hitem)
      rw [hfirst, hfilter]
      cases rest with
      | nil => rfl
      | cons next rest =>
        have hnext := from_query next (List.mem_cons_of_mem _ List.mem_cons_self)
        by_cases hext : Extends query next
        · have hfilter : (next :: rest).filter (fun x => Extends query x) =
              next :: rest.filter fun x => Extends query x :=
            List.filter_cons_of_pos (by simpa using hext)
          rw [ascend, visitCommit_extends hext, hfilter]
          rfl
        · rw [ascend, visitCommit_other hnext hext,
            filter_extends_nil ordered.of_cons hnext hext]
          rfl
    · rw [ascend, visitCommit_other hle hitem, filter_extends_nil ordered hle hitem]
      rfl

end Walk

section Loaded

variable {btree : BTree} {items : btree.Tree → List Snapshot}

/-- What a tree holds after these lines: of each commit the last line. -/
structure Holds (items : List Snapshot) (lines : List (List UInt8)) : Prop where
  ordered : items.Pairwise Snapshot.Less
  loaded : ∀ x ∈ items, ∃ line ∈ lines, x = snapshotOf line
  commits : ∀ line ∈ lines, ∃ x ∈ items, x.commit = rightOfLastDash line

theorem holds_insert (documented : btree.Documented items) {t : btree.Tree}
    {lines : List (List UInt8)} (h : Holds (items t) lines) (line : List UInt8) :
    Holds (items (btree.replaceOrInsert t (snapshotOf line))) (lines ++ [line]) where
  ordered := documented.ordered t _ h.ordered
  loaded := by
    intro x hx
    rcases (documented.replaceOrInsert t _ h.ordered x).mp hx with rfl | ⟨hx, -⟩
    · exact ⟨line, by simp, rfl⟩
    · obtain ⟨earlier, hmem, rfl⟩ := h.loaded x hx
      exact ⟨earlier, List.mem_append_left _ hmem, rfl⟩
  commits := by
    intro other hother
    have hmem := documented.replaceOrInsert t (snapshotOf line) h.ordered
    by_cases heq : rightOfLastDash other = rightOfLastDash line
    · exact ⟨snapshotOf line, (hmem _).mpr (.inl rfl), heq.symm⟩
    · have hother : other ∈ lines := by
        rcases List.mem_append.mp hother with hother | hother
        · exact hother
        · exact absurd (congrArg rightOfLastDash (List.mem_singleton.mp hother)) heq
      obtain ⟨x, hx, hcommit⟩ := h.commits other hother
      refine ⟨x, (hmem x).mpr (.inr ⟨hx, ?_⟩), hcommit⟩
      have hne : x.commit ≠ (snapshotOf line).commit := hcommit ▸ heq
      by_contra hsame
      rw [not_or] at hsame
      exact hne (List.le_antisymm hsame.2 hsame.1)

theorem holds_foldl (documented : btree.Documented items) (lines : List (List UInt8)) :
    Holds (items (lines.foldl (fun t line => btree.replaceOrInsert t (snapshotOf line)) btree.new))
      lines := by
  induction lines using List.reverseRecOn with
  | nil =>
    rw [List.foldl_nil, documented.new]
    exact ⟨.nil, nofun, nofun⟩
  | append_singleton lines line ih =>
    rw [List.foldl_append]
    exact holds_insert documented ih line

/-- What the lines of a file stand for. -/
def loadedSnapshots (bytes : List UInt8) : List Snapshot :=
  match scanLines bytes with
  | .ok lines => lines.map snapshotOf
  | .error _ => []

theorem loadBTree_ok (documented : btree.Documented items) {bytes : List UInt8}
    {tree : btree.Tree} {commits : List (List UInt8)}
    (h : loadBTree btree (some bytes) = .ok (tree, commits)) :
    (items tree).Pairwise Snapshot.Less ∧ commits = (loadedSnapshots bytes).map Snapshot.commit ∧
      (∀ x ∈ items tree, x ∈ loadedSnapshots bytes) ∧
      ∀ x ∈ loadedSnapshots bytes, ∃ y ∈ items tree, y.commit = x.commit := by
  cases hscan : scanLines bytes with
  | error e =>
    simp only [loadBTree, hscan] at h
    cases h
  | ok lines =>
    have hloaded : loadedSnapshots bytes = lines.map snapshotOf := by
      simp only [loadedSnapshots, hscan]
    simp only [loadBTree, hscan] at h
    cases h
    have holds := holds_foldl documented lines
    rw [hloaded]
    refine ⟨holds.ordered, by simp [snapshotOf], ?_, ?_⟩
    · intro x hx
      obtain ⟨line, hline, rfl⟩ := holds.loaded x hx
      exact List.mem_map_of_mem hline
    · intro x hx
      obtain ⟨line, hline, rfl⟩ := List.mem_map.mp hx
      exact holds.commits line hline

end Loaded

section Scan

variable {snapshots : List Snapshot} {query : List UInt8}

/-- What a linear scan compares each commit with. -/
abbrev Matches (query : List UInt8) (commit : List UInt8) : Prop :=
  query <+: commit ∨ commit ≠ [] ∧ commit <+: query

/-- An answer is that of a linear scan. -/
structure AgreesWithScan (snapshots : List Snapshot) (query : List UInt8) (m : Match) : Prop where
  ok : m.ok = true ↔ ∃ x ∈ snapshots, Matches query x.commit
  multiple : m.multiple = true ↔ ∃ x ∈ snapshots, ∃ y ∈ snapshots, x.commit ≠ y.commit ∧
    Matches query x.commit ∧ Matches query y.commit
  found : m.ok = true → m.found ∈ snapshots ∧ Matches query m.found.commit

/-- No commit is abbreviated more than the query, unless the query is ambiguous without it. -/
def NoShorterCommit (snapshots : List Snapshot) (query : List UInt8) : Prop :=
  (∀ x ∈ snapshots, x.commit ≠ [] → x.commit <+: query → x.commit = query) ∨
    ∃ x ∈ snapshots, ∃ y ∈ snapshots, x.commit ≠ y.commit ∧ query <+: x.commit ∧ query <+: y.commit

/-- What the walk answers, by the commits that start with the query. -/
structure AnswersExtensions (snapshots : List Snapshot) (query : List UInt8) (m : Match) : Prop where
  ok : m.ok = true ↔ ∃ x ∈ snapshots, query <+: x.commit
  multiple : m.multiple = true ↔ ∃ x ∈ snapshots, ∃ y ∈ snapshots, x.commit ≠ y.commit ∧
    query <+: x.commit ∧ query <+: y.commit
  found : m.ok = true → m.found ∈ snapshots ∧ query <+: m.found.commit

theorem agreesWithScan_iff {m : Match} (h : AnswersExtensions snapshots query m) :
    AgreesWithScan snapshots query m ↔ NoShorterCommit snapshots query := by
  constructor
  · intro agrees
    by_contra hshort
    rw [NoShorterCommit, not_or] at hshort
    obtain ⟨hshorter, hsingle⟩ := hshort
    push Not at hshorter
    obtain ⟨x, hx, hne, hstart, hproper⟩ := hshorter
    have hmatches : Matches query x.commit := .inr ⟨hne, hstart⟩
    obtain ⟨y, hy, hext⟩ := h.ok.mp (agrees.ok.mpr ⟨x, hx, hmatches⟩)
    -- One commit starts with the query and another is the start of it.
    have hdiffer : x.commit ≠ y.commit := fun heq =>
      hproper (List.IsPrefix.eq_of_length hstart
        (Nat.le_antisymm hstart.length_le (heq ▸ hext.length_le)))
    exact hsingle (h.multiple.mp (agrees.multiple.mpr ⟨x, hx, y, hy, hdiffer, hmatches, .inl hext⟩))
  · intro hcondition
    refine ⟨?_, ?_, fun hok => ⟨(h.found hok).1, .inl (h.found hok).2⟩⟩
    · rw [h.ok]
      constructor
      · intro ⟨x, hx, hext⟩
        exact ⟨x, hx, .inl hext⟩
      · intro ⟨x, hx, hmatches⟩
        rcases hcondition with hshort | ⟨y, hy, -, -, -, hext, -⟩
        · rcases hmatches with hext | ⟨hne, hstart⟩
          · exact ⟨x, hx, hext⟩
          · exact ⟨x, hx, hshort x hx hne hstart ▸ List.prefix_rfl⟩
        · exact ⟨y, hy, hext⟩
    · rw [h.multiple]
      constructor
      · intro ⟨x, hx, y, hy, hne, hextx, hexty⟩
        exact ⟨x, hx, y, hy, hne, .inl hextx, .inl hexty⟩
      · intro ⟨x, hx, y, hy, hne, hmx, hmy⟩
        rcases hcondition with hshort | hambiguous
        · have extends_of {z : Snapshot} (hz : z ∈ snapshots) (hm : Matches query z.commit) :
              query <+: z.commit := by
            rcases hm with hext | ⟨hne, hstart⟩
            · exact hext
            · exact hshort z hz hne hstart ▸ List.prefix_rfl
          exact ⟨x, hx, y, hy, hne, extends_of hx hmx, extends_of hy hmy⟩
        · exact hambiguous

theorem answer_extensions {items : List Snapshot} (ordered : items.Pairwise Snapshot.Less)
    (loaded : ∀ x ∈ items, x ∈ snapshots)
    (each : ∀ x ∈ snapshots, ∃ y ∈ items, y.commit = x.commit) :
    AnswersExtensions snapshots query (answer (items.filter fun x => Extends query x)) := by
  have hmem {x : Snapshot} : x ∈ items.filter (fun x => Extends query x) ↔
      x ∈ items ∧ query <+: x.commit := by simp [List.mem_filter]
  have hfiltered : (items.filter fun x => Extends query x).Pairwise Snapshot.Less :=
    ordered.sublist List.filter_sublist
  have to_kept {x : Snapshot} (hx : x ∈ snapshots) (hext : query <+: x.commit) :
      ∃ y ∈ items.filter (fun x => Extends query x), y.commit = x.commit := by
    obtain ⟨y, hy, heq⟩ := each x hx
    exact ⟨y, hmem.mpr ⟨hy, heq ▸ hext⟩, heq⟩
  have of_kept {x : Snapshot} (hx : x ∈ items.filter (fun x => Extends query x)) :
      x ∈ snapshots ∧ query <+: x.commit :=
    ⟨loaded x (hmem.mp hx).1, (hmem.mp hx).2⟩
  clear hmem
  generalize items.filter (fun x => Extends query x) = kept at *
  obtain _ | ⟨item, _ | ⟨next, rest⟩⟩ := kept
  · refine ⟨iff_of_false Bool.false_ne_true ?_, iff_of_false Bool.false_ne_true ?_, nofun⟩
    · intro ⟨x, hx, hext⟩
      obtain ⟨y, hy, -⟩ := to_kept hx hext
      cases hy
    · intro ⟨x, hx, _, _, _, hext, _⟩
      obtain ⟨y, hy, -⟩ := to_kept hx hext
      cases hy
  · have hitem := of_kept List.mem_cons_self
    refine ⟨iff_of_true rfl ⟨item, hitem⟩, iff_of_false Bool.false_ne_true ?_, fun _ => hitem⟩
    intro ⟨x, hx, y, hy, hne, hextx, hexty⟩
    obtain ⟨x', hx', heqx⟩ := to_kept hx hextx
    obtain ⟨y', hy', heqy⟩ := to_kept hy hexty
    rw [List.mem_singleton.mp hx'] at heqx
    rw [List.mem_singleton.mp hy'] at heqy
    exact hne (heqx.symm.trans heqy)
  · have hitem := of_kept List.mem_cons_self
    have hnext := of_kept (List.mem_cons_of_mem _ List.mem_cons_self)
    have hless : item.commit < next.commit :=
      List.rel_of_pairwise_cons hfiltered List.mem_cons_self
    have hne : item.commit ≠ next.commit := fun heq => List.lt_irrefl _ (heq ▸ hless)
    exact ⟨iff_of_true rfl ⟨item, hitem⟩,
      iff_of_true rfl ⟨item, hitem.1, next, hnext.1, hne, hitem.2, hnext.2⟩, fun _ => hitem⟩

theorem match_commit_hash_iff {btree : BTree} {items : btree.Tree → List Snapshot}
    (documented : btree.Documented items) {bytes : List UInt8} {tree : btree.Tree}
    {commits : List (List UInt8)} (loads : loadBTree btree (some bytes) = .ok (tree, commits))
    (query : List UInt8) :
    AgreesWithScan (loadedSnapshots bytes) query (matchCommitHash btree tree query) ↔
      NoShorterCommit (loadedSnapshots bytes) query := by
  obtain ⟨ordered, -, loaded, each⟩ := loadBTree_ok documented loads
  have hwalk : matchCommitHash btree tree query =
      answer ((items tree).filter fun x => Extends query x) := by
    have hkept : ((items tree).filter fun item => ¬ item.Less ⟨query, []⟩).filter
        (fun x => Extends query x) = (items tree).filter fun x => Extends query x := by
      rw [List.filter_filter]
      refine List.filter_congr fun x _ => ?_
      by_cases hext : Extends query x
      · have hle : ¬ x.commit < query := List.not_lt.mpr hext.le
        simp [hext, hle, Snapshot.Less]
      · simp [hext]
    rw [matchCommitHash, documented.ascendGreaterOrEqual tree _ _ _ ordered,
      ascend_eq_answer (ordered.sublist List.filter_sublist), hkept]
    intro x hx
    simpa using (List.mem_filter.mp hx).2
  rw [hwalk]
  exact agreesWithScan_iff (answer_extensions ordered loaded each)

end Scan

/-- A tree that is the list of its items. -/
def insertItem (item : Snapshot) : List Snapshot → List Snapshot
  | [] => [item]
  | x :: xs =>
    if x.Less item then x :: insertItem item xs
    else if item.Less x then item :: x :: xs
    else item :: xs

def listTree : BTree where
  Tree := List Snapshot
  new := []
  replaceOrInsert := fun t item => insertItem item t
  ascendGreaterOrEqual := fun t pivot visit s =>
    ascend visit s (t.filter fun item => ¬ item.Less pivot)

theorem less_of_same {x y item : Snapshot} (hsame : y.commit = item.commit) (h : y.Less x) :
    item.Less x := by
  rw [Snapshot.Less, ← hsame]
  exact h

theorem mem_insertItem {item x : Snapshot} {xs : List Snapshot}
    (ordered : xs.Pairwise Snapshot.Less) :
    x ∈ insertItem item xs ↔ x = item ∨ x ∈ xs ∧ (x.Less item ∨ item.Less x) := by
  induction xs with
  | nil => simp [insertItem]
  | cons y ys ih =>
    have behind {z : Snapshot} (hz : z ∈ ys) : y.Less z := List.rel_of_pairwise_cons ordered hz
    rw [insertItem]
    split_ifs with hless hgreater
    · rw [List.mem_cons, ih ordered.of_cons, List.mem_cons]
      constructor
      · rintro (rfl | rfl | ⟨hx, h⟩)
        · exact .inr ⟨.inl rfl, .inl hless⟩
        · exact .inl rfl
        · exact .inr ⟨.inr hx, h⟩
      · rintro (rfl | ⟨rfl | hx, h⟩)
        · exact .inr (.inl rfl)
        · exact .inl rfl
        · exact .inr (.inr ⟨hx, h⟩)
    · rw [List.mem_cons]
      refine or_congr Iff.rfl (iff_self_and.mpr fun hx => .inr ?_)
      rcases List.mem_cons.mp hx with rfl | hx
      · exact hgreater
      · exact List.lt_trans hgreater (behind hx)
    · have hsame : y.commit = item.commit :=
        List.le_antisymm (List.not_lt.mp hgreater) (List.not_lt.mp hless)
      rw [List.mem_cons, List.mem_cons]
      constructor
      · rintro (rfl | hx)
        · exact .inl rfl
        · exact .inr ⟨.inr hx, .inr (less_of_same hsame (behind hx))⟩
      · rintro (rfl | ⟨rfl | hx, h⟩)
        · exact .inl rfl
        · exact (h.elim hless hgreater).elim
        · exact .inr hx

theorem insertItem_ordered {item : Snapshot} {xs : List Snapshot}
    (ordered : xs.Pairwise Snapshot.Less) : (insertItem item xs).Pairwise Snapshot.Less := by
  induction xs with
  | nil => exact List.pairwise_singleton _ _
  | cons y ys ih =>
    have behind {z : Snapshot} (hz : z ∈ ys) : y.Less z := List.rel_of_pairwise_cons ordered hz
    rw [insertItem]
    split_ifs with hless hgreater
    · refine List.pairwise_cons.mpr ⟨fun x hx => ?_, ih ordered.of_cons⟩
      rcases (mem_insertItem ordered.of_cons).mp hx with rfl | ⟨hx, -⟩
      · exact hless
      · exact behind hx
    · refine List.pairwise_cons.mpr ⟨fun x hx => ?_, ordered⟩
      rcases List.mem_cons.mp hx with rfl | hx
      · exact hgreater
      · exact List.lt_trans hgreater (behind hx)
    · have hsame : y.commit = item.commit :=
        List.le_antisymm (List.not_lt.mp hgreater) (List.not_lt.mp hless)
      refine List.pairwise_cons.mpr ⟨fun x hx => ?_, ordered.of_cons⟩
      exact less_of_same hsame (behind hx)

theorem listTree_documented : listTree.Documented id where
  new := rfl
  ordered _ _ := insertItem_ordered
  replaceOrInsert _ _ h _ := mem_insertItem h
  ascendGreaterOrEqual _ _ _ _ _ := rfl

namespace CommitSample

/-- Two snapshots, of the commits `ab` and `ac`. -/
def file : List UInt8 := [115, 45, 97, 98, 10, 115, 45, 97, 99, 10]

def tree : listTree.Tree := [⟨[97, 98], [115, 45, 97, 98]⟩, ⟨[97, 99], [115, 45, 97, 99]⟩]

theorem loads : loadBTree listTree (some file) = .ok (tree, [[97, 98], [97, 99]]) := rfl

end CommitSample

open CommitSample in
theorem match_commit_hash_two :
    AgreesWithScan (loadedSnapshots file) [97] (matchCommitHash listTree tree [97]) := by
  have hambiguous : NoShorterCommit (loadedSnapshots file) [97] :=
    .inr ⟨snapshotOf [115, 45, 97, 98], by decide, snapshotOf [115, 45, 97, 99], by decide,
      by decide, by decide, by decide⟩
  exact (match_commit_hash_iff listTree_documented loads [97]).mpr hambiguous

/-- A list with the abbreviated commit `ab`, asked for `abc`. -/
theorem match_commit_hash_misses_abbreviation : ¬ ∀ (btree : BTree)
    (items : btree.Tree → List Snapshot), btree.Documented items →
    ∀ (bytes : List UInt8) (tree : btree.Tree) (commits : List (List UInt8)),
      loadBTree btree (some bytes) = .ok (tree, commits) → ∀ query, query ≠ [] →
        AgreesWithScan (loadedSnapshots bytes) query (matchCommitHash btree tree query) := by
  intro h
  have hagrees := h listTree id listTree_documented [115, 45, 97, 98, 10]
    [⟨[97, 98], [115, 45, 97, 98]⟩] [[97, 98]] rfl [97, 98, 99] (by decide)
  have hfound : ∃ x ∈ loadedSnapshots [115, 45, 97, 98, 10], Matches [97, 98, 99] x.commit :=
    ⟨snapshotOf [115, 45, 97, 98], by decide, by decide⟩
  have hok := hagrees.ok.mpr hfound
  exact absurd hok (by decide)

end Elfshaker.Serve
