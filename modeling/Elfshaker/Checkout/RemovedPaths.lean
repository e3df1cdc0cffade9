import Elfshaker.Checkout.Extract
import Elfshaker.Library.Pruning

namespace Elfshaker.Checkout

open Elfshaker.Library Elfshaker.Library.Pruning Elfshaker.Format Elfshaker.Store

section Plain

variable (repo : Repository)

def removeAll : List (List Name) → FsCall Unit
  | [] => pure ()
  | names :: rest => do
    removePath repo names
    removeAll rest

def pruneParents : List (List Name) → FsCall Unit
  | [] => pure ()
  | names :: rest => do
    removeEmptyDirs repo names.dropLast
    pruneParents rest

/-- The removal of paths without a queue. -/
def removePathsPlainly (paths : List (List Name)) : FsCall Unit := do
  removeAll repo paths
  pruneParents repo paths

end Plain

section Tree

variable {t : FileTree} {base : Place} {names : List Name}

/-- Something that is missing, where what is on the way to it is a directory or
missing, too. -/
theorem resolve_missing
    (hway : ∀ ns, ns <+: names → ns ≠ names →
      t.lookup (base.below ns) = none ∨ t.lookup (base.below ns) = some .dir) :
    t.resolve false base names = .ok (base.below names) ∨
      t.resolve false base names = .error .notFound := by
  have hwalk (cross : Place → List UInt8 → List FileTree.Step → Except Refusal Place) :
      t.walk false cross base (names.map .into) = .ok (base.below names) ∨
        t.walk false cross base (names.map .into) = .error .notFound := by
    induction names generalizing base with
    | nil => exact .inl rfl
    | cons name names ih =>
      rw [Place.below_cons, List.map_cons, FileTree.walk]
      by_cases hlast : names = []
      · subst hlast
        left
        simp only [List.map_nil, if_true, true_and]
        split <;> rfl
      · have hmap : names.map FileTree.Step.into ≠ [] := fun heq =>
          hlast (List.map_eq_nil_iff.mp heq)
        have hne : [name] ≠ name :: names := fun heq => hlast (List.cons.inj heq).2.symm
        have hfirst := hway [name] (List.prefix_append [name] names) hne
        rw [Place.below_cons, Place.below_nil] at hfirst
        rcases hfirst with hnone | hdir
        · rw [hnone]
          exact .inr (if_neg hmap)
        · rw [hdir]
          refine ih fun ns hns hne' => ?_
          have hway' := hway (name :: ns) (List.cons_prefix_cons.mpr ⟨rfl, hns⟩)
            fun heq => hne' (List.cons.inj heq).2
          rwa [Place.below_cons] at hway'
  exact hwalk _

/-- A place has something in it where it has something directly in it. -/
theorem hasChildren_iff_child {place : Place} :
    t.hasChildren place = true ↔ ∃ name, t.lookup (name :: place) ≠ none := by
  rw [FileTree.hasChildren_iff]
  constructor
  · rintro ⟨q, hsuffix, hne, hsome⟩
    obtain ⟨name, hname⟩ := exists_child hsuffix hne.symm
    refine ⟨name, ?_⟩
    by_cases heq : name :: place = q
    · rw [heq]
      exact Option.isSome_iff_ne_none.mp hsome
    · rw [t.around_dir hsome hname heq]
      exact Option.some_ne_none _
  · rintro ⟨name, hname⟩
    exact ⟨name :: place, List.suffix_cons _ _, List.cons_ne_self _ _,
      Option.isSome_iff_ne_none.mpr hname⟩

end Tree

section Runs

/-- Nothing fails but what the tree does not allow. -/
theorem os_quiet {ς φ ε α : Type} {toError : φ → ε} {broken : φ → ς → ς} {run : ς → Exec ε α × ς}
    {s : Session ς φ} (quiet : s.faults = []) :
    Session.os toError broken run s = ((run s.state).1, ⟨(run s.state).2, []⟩) := by
  rw [Session.os, quiet]

section Change

variable {repo : Repository} {s : Session World Fault} {follow : Bool} {names : List Name}
  {op : Nat → Place → FileTree → Except Refusal FileTree} {place : Place} {tree : FileTree}

theorem change_quiet (quiet : s.faults = [])
    (hresolve : s.state.tree.resolve follow repo.path names = .ok place)
    (hop : op (s.state.disk.clock + 1) place s.state.tree = .ok tree) :
    change repo follow names op s =
      (.ok (), ⟨s.state.updated tree [.workTree names place], []⟩) := by
  rw [change, os_quiet quiet, runChange, hresolve]
  simp only [hop]

theorem change_refused (quiet : s.faults = []) {e : Refusal}
    (h : s.state.tree.resolve follow repo.path names = .error e ∨
      ∃ place, s.state.tree.resolve follow repo.path names = .ok place ∧
        op (s.state.disk.clock + 1) place s.state.tree = .error e) :
    change repo follow names op s = (.error (.error (Refusal.toIoError e)), s) := by
  have hs : (⟨s.state, []⟩ : Session World Fault) = s := by
    rw [← quiet]
  rw [change, os_quiet quiet, runChange]
  rcases h with hresolve | ⟨place, hresolve, hop⟩
  · rw [hresolve]
    exact congrArg _ hs
  · rw [hresolve]
    simp only [hop]
    exact congrArg _ hs

theorem removeDir_refused (quiet : s.faults = []) {e : Refusal}
    (h : s.state.tree.resolve false repo.path names = .error e ∨
      ∃ place, s.state.tree.resolve false repo.path names = .ok place ∧
        s.state.tree.rmdir place = .error e) :
    Checkout.removeDir repo names s = (.error (.error (Refusal.toIoError e)), s) := by
  rw [Checkout.removeDir]
  exact change_refused quiet h

theorem removeFile_refused (quiet : s.faults = []) {e : Refusal}
    (h : s.state.tree.resolve false repo.path names = .error e ∨
      ∃ place, s.state.tree.resolve false repo.path names = .ok place ∧
        s.state.tree.unlink place = .error e) :
    Checkout.removeFile repo names s = (.error (.error (Refusal.toIoError e)), s) := by
  rw [Checkout.removeFile]
  exact change_refused quiet h

/-- A look at a path that leads to something. -/
theorem symlinkMetadata_quiet (quiet : s.faults = []) :
    symlinkMetadata repo names s = (refuse (s.state.tree.find false repo.path names), s) := by
  have hs : (⟨s.state, []⟩ : Session World Fault) = s := by
    rw [← quiet]
  rw [symlinkMetadata, inspect, os_quiet quiet]
  exact congrArg _ hs

end Change

/-- What is left below the working directory of a tree that nothing is put into. -/
structure Shows (repo : Repository) (before : FileTree) (present : Set Place)
    (s : Session World Fault) : Prop where
  quiet : s.faults = []
  subset : ∀ r ∈ present, before.lookup (r ++ repo.path) ≠ none
  inside : ∀ r ∈ present, s.state.tree.lookup (r ++ repo.path) = before.lookup (r ++ repo.path)
  gone : ∀ r, r ∉ present → s.state.tree.lookup (r ++ repo.path) = none
  outside : ∀ place, ¬ repo.path <:+ place → s.state.tree.lookup place = before.lookup place

variable {repo : Repository} {before : FileTree} {present : Set Place} {s : Session World Fault}
  {r : Place}

theorem below_reverse (r : Place) : repo.path.below r.reverse = r ++ repo.path := by
  rw [Place.below, List.reverse_reverse]

theorem Shows.mem_iff (h : Shows repo before present s) :
    s.state.tree.lookup (r ++ repo.path) ≠ none ↔ r ∈ present := by
  constructor
  · intro hsome
    by_contra hmem
    exact hsome (h.gone r hmem)
  · intro hmem
    rw [h.inside r hmem]
    exact h.subset r hmem

theorem Shows.bare_iff (h : Shows repo before present s) :
    s.state.tree.hasChildren (r ++ repo.path) = false ↔ Bare present r := by
  rw [← Bool.not_eq_true, hasChildren_iff_child, not_exists]
  refine forall_congr' fun name => not_congr ?_
  rw [← List.cons_append]
  exact h.mem_iff

/-- A place without anything in it is taken away. -/
theorem Shows.erase (h : Shows repo before present s) {s' : Session World Fault}
    (quiet : s'.faults = []) (hlookup : ∀ q, s'.state.tree.lookup q =
      if q = r ++ repo.path then none else s.state.tree.lookup q) :
    Shows repo before (present \ {r}) s' where
  quiet := quiet
  subset := fun q hq => h.subset q hq.1
  inside := fun q hq => by
    have hne : q ++ repo.path ≠ r ++ repo.path := fun heq => hq.2 (List.append_cancel_right heq)
    rw [hlookup, if_neg hne, h.inside q hq.1]
  gone := fun q hq => by
    rw [hlookup]
    split_ifs with heq
    · rfl
    · exact h.gone q fun hmem => hq ⟨hmem, fun hqr => heq (hqr ▸ rfl)⟩
  outside := fun place hplace => by
    have hne : place ≠ r ++ repo.path := by
      rintro rfl
      exact hplace (List.suffix_append _ _)
    rw [hlookup, if_neg hne, h.outside place hplace]

/-- What lies around a place is a directory, if it is there. -/
def Way (repo : Repository) (before : FileTree) (r : Place) : Prop :=
  ∀ e, e <:+ r → before.lookup (e ++ repo.path) = none ∨ before.lookup (e ++ repo.path) = some .dir

theorem Way.mono (h : Way repo before r) {e : Place} (he : e <:+ r) : Way repo before e :=
  fun e' he' => h e' (he'.trans he)

theorem Shows.lookup_way (h : Shows repo before present s) (way : Way repo before r) {e : Place}
    (he : e <:+ r) : s.state.tree.lookup (e ++ repo.path) = none ∨
      s.state.tree.lookup (e ++ repo.path) = some .dir := by
  by_cases hmem : e ∈ present
  · rw [h.inside e hmem]
    exact way e he
  · exact .inl (h.gone e hmem)

theorem Shows.resolve_missing (h : Shows repo before present s) (way : Way repo before r.tail) :
    s.state.tree.resolve false repo.path r.reverse = .ok (r ++ repo.path) ∨
      s.state.tree.resolve false repo.path r.reverse = .error .notFound := by
  rw [← below_reverse]
  refine Checkout.resolve_missing fun ns hns hne => ?_
  have hsuffix : ns.reverse <:+ r := by
    rw [← List.reverse_reverse r]
    exact List.reverse_suffix.mpr hns
  have htail : ns.reverse <:+ r.tail := by
    refine suffix_tail hsuffix fun heq => hne ?_
    rw [← heq, List.reverse_reverse]
  rw [Place.below]
  exact h.lookup_way way htail

theorem Shows.resolve_present (h : Shows repo before present s) (hmem : r ∈ present) :
    s.state.tree.resolve false repo.path r.reverse = .ok (r ++ repo.path) := by
  obtain ⟨node, hnode⟩ := Option.ne_none_iff_exists'.mp (h.mem_iff.mpr hmem)
  rw [← below_reverse] at hnode ⊢
  exact FileTree.resolve_present hnode

theorem Shows.removeDir (h : Shows repo before present s) (way : Way repo before r) (hr : r ≠ []) :
    (r ∈ present ∧ Bare present r ∧ ∃ s', Checkout.removeDir repo r.reverse s = (.ok (), s') ∧
      Shows repo before (present \ {r}) s') ∨
    (¬ (r ∈ present ∧ Bare present r) ∧ ∃ e, (e = .directoryNotEmpty ∨ e = .notFound) ∧
      Checkout.removeDir repo r.reverse s = (.error (.error e), s)) := by
  have hplace : r ++ repo.path ≠ [] := fun heq => hr (List.append_eq_nil_iff.mp heq).1
  by_cases hmem : r ∈ present
  · have hdir : s.state.tree.lookup (r ++ repo.path) = some .dir :=
      (h.lookup_way way List.suffix_rfl).resolve_left (h.mem_iff.mpr hmem)
    have hresolve := h.resolve_present hmem
    cases hchildren : s.state.tree.hasChildren (r ++ repo.path) with
    | true =>
      have hrmdir : s.state.tree.rmdir (r ++ repo.path) = .error .directoryNotEmpty := by
        simp only [FileTree.rmdir, hdir, dif_neg hplace, hchildren, if_true]
      refine .inr ⟨fun hbare => ?_, .directoryNotEmpty, .inl rfl,
        removeDir_refused h.quiet (.inr ⟨_, hresolve, hrmdir⟩)⟩
      rw [h.bare_iff.mpr hbare.2] at hchildren
      cases hchildren
    | false =>
      have hrmdir : s.state.tree.rmdir (r ++ repo.path) =
          .ok (s.state.tree.prune (r ++ repo.path) hplace) := by
        simp only [FileTree.rmdir, hdir, dif_neg hplace, hchildren, Bool.false_eq_true, if_false]
      exact .inl ⟨hmem, h.bare_iff.mp hchildren, _, change_quiet h.quiet hresolve hrmdir,
        h.erase rfl (FileTree.rmdir_ok hrmdir).2.2⟩
  · have hrmdir : s.state.tree.rmdir (r ++ repo.path) = .error .notFound := by
      simp only [FileTree.rmdir, h.gone r hmem]
    refine .inr ⟨fun hbare => hmem hbare.1, .notFound, .inr rfl,
      removeDir_refused (e := .notFound) h.quiet ?_⟩
    rcases h.resolve_missing (way.mono (List.tail_suffix r)) with hresolve | hresolve
    · exact .inr ⟨_, hresolve, hrmdir⟩
    · exact .inl hresolve

theorem Shows.removeEmptyDirsFrom (h : Shows repo before present s) (way : Way repo before r) :
    ∃ s', Checkout.removeEmptyDirsFrom repo r s = (.ok (), s') ∧
      Shows repo before (prune present r) s' := by
  induction r generalizing present s with
  | nil => exact ⟨s, rfl, h⟩
  | cons name above ih =>
    rw [prune, Checkout.removeEmptyDirsFrom]
    rcases h.removeDir way (List.cons_ne_nil _ _) with
      ⟨hmem, hbare, t, hrun, ht⟩ | ⟨hstays, e, he, hrun⟩
    · obtain ⟨s', hrest, hs'⟩ := ih ht (way.mono (List.suffix_cons _ _))
      rw [if_pos ⟨hmem, hbare⟩]
      exact ⟨s', Effect.bind_eq_ok.mpr ⟨_, t, Effect.attempt_eq_ok.mpr hrun, hrest⟩, hs'⟩
    · rw [if_neg hstays]
      refine ⟨s, Effect.bind_eq_ok.mpr ⟨_, s, Effect.attempt_eq_error.mpr hrun, ?_⟩, h⟩
      dsimp only
      rw [if_pos he]
      rfl

theorem Shows.removeFile (h : Shows repo before present s) (hmem : r ∈ present)
    (hleaf : before.lookup (r ++ repo.path) ≠ some .dir) (hr : r ≠ []) :
    ∃ s', Checkout.removeFile repo r.reverse s = (.ok (), s') ∧
      Shows repo before (present \ {r}) s' := by
  have hplace : r ++ repo.path ≠ [] := fun heq => hr (List.append_eq_nil_iff.mp heq).1
  obtain ⟨node, hnode⟩ := Option.ne_none_iff_exists'.mp (h.mem_iff.mpr hmem)
  have hunlink : s.state.tree.unlink (r ++ repo.path) =
      .ok (s.state.tree.prune (r ++ repo.path) hplace) := by
    rw [← h.inside r hmem, hnode] at hleaf
    cases node with
    | dir => exact absurd rfl hleaf
    | file bytes mode mtime => simp only [FileTree.unlink, hnode, dif_neg hplace]
    | link target mtime => simp only [FileTree.unlink, hnode, dif_neg hplace]
  exact ⟨_, change_quiet h.quiet (h.resolve_present hmem) hunlink,
    h.erase rfl (FileTree.unlink_ok hunlink).2⟩

/-- A path that is no directory, with directories around it or nothing. -/
structure Leaf (repo : Repository) (before : FileTree) (r : Place) : Prop where
  inner : r ≠ []
  leaf : before.lookup (r ++ repo.path) ≠ some .dir
  way : Way repo before r.tail

theorem Shows.removePath (h : Shows repo before present s) (leaf : Leaf repo before r) :
    ∃ s', Checkout.removePath repo r.reverse s = (.ok (), s') ∧
      Shows repo before (present \ {r}) s' := by
  by_cases hmem : r ∈ present
  · obtain ⟨node, hnode⟩ := Option.ne_none_iff_exists'.mp (h.mem_iff.mpr hmem)
    have hdir : node ≠ .dir := by
      rintro rfl
      rw [h.inside r hmem] at hnode
      exact leaf.leaf hnode
    have hlooked : symlinkMetadata repo r.reverse s = (.ok node, s) := by
      rw [← below_reverse] at hnode
      rw [symlinkMetadata_quiet h.quiet, FileTree.find_present hnode]
      rfl
    obtain ⟨s', hrun, hs'⟩ := h.removeFile hmem leaf.leaf leaf.inner
    have hremoved : removeLink repo r.reverse node.isLink s = (.ok (), s') := by
      cases node with
      | dir => exact absurd rfl hdir
      | file bytes mode mtime => exact hrun
      | link target mtime =>
        exact Effect.orElse_eq_ok.mpr (.inl (Effect.bind_eq_ok.mpr ⟨_, s, hlooked, hrun⟩))
    refine ⟨s', Effect.bind_eq_ok.mpr ⟨.ok node, s, Effect.attempt_eq_ok.mpr hlooked, ?_⟩, hs'⟩
    exact Effect.bind_eq_ok.mpr ⟨.ok (), s', Effect.attempt_eq_ok.mpr hremoved, rfl⟩
  · have hnone := h.gone r hmem
    have hway := h.resolve_missing leaf.way
    have hfind : s.state.tree.find false repo.path r.reverse = .error .notFound := by
      rw [FileTree.find]
      rcases hway with hresolve | hresolve
      · rw [hresolve]
        simp only [bind, Except.bind, hnone]
      · rw [hresolve]
        rfl
    have hlooked : symlinkMetadata repo r.reverse s = (.error (.error .notFound), s) := by
      rw [symlinkMetadata_quiet h.quiet, hfind]
      rfl
    have hremoved : removeLink repo r.reverse false s = (.error (.error .notFound), s) := by
      refine removeFile_refused (e := .notFound) h.quiet ?_
      rcases hway with hresolve | hresolve
      · exact .inr ⟨_, hresolve, by simp only [FileTree.unlink, hnone]⟩
      · exact .inl hresolve
    rw [Set.sdiff_singleton_eq_self hmem]
    refine ⟨s, Effect.bind_eq_ok.mpr
      ⟨.error .notFound, s, Effect.attempt_eq_error.mpr hlooked, ?_⟩, h⟩
    exact Effect.bind_eq_ok.mpr ⟨.error .notFound, s, Effect.attempt_eq_error.mpr hremoved, rfl⟩

section Paths

variable {ps : List Place} {queue : Option Place}

theorem Shows.removeAll (h : Shows repo before present s) (leaves : ∀ p ∈ ps, Leaf repo before p) :
    ∃ s', Checkout.removeAll repo (ps.map List.reverse) s = (.ok (), s') ∧
      Shows repo before (present \ among ps) s' := by
  induction ps generalizing present s with
  | nil =>
    have hamong : among ([] : List Place) = ∅ :=
      Set.eq_empty_iff_forall_notMem.mpr fun p => List.not_mem_nil
    rw [hamong, Set.sdiff_empty]
    exact ⟨s, rfl, h⟩
  | cons p ps ih =>
    obtain ⟨hp, hps⟩ := List.forall_mem_cons.mp leaves
    obtain ⟨t, hrun, ht⟩ := h.removePath hp
    obtain ⟨s', hrest, hs'⟩ := ih ht hps
    have hamong : among (p :: ps) = {p} ∪ among ps := Set.ext fun q => List.mem_cons
    rw [hamong, ← Set.sdiff_sdiff]
    exact ⟨s', Effect.bind_eq_ok.mpr ⟨(), t, hrun, hrest⟩, hs'⟩

theorem Shows.removeEmptyDirs (h : Shows repo before present s) (way : Way repo before r) :
    ∃ s', Checkout.removeEmptyDirs repo r.reverse s = (.ok (), s') ∧
      Shows repo before (prune present r) s' := by
  rw [Checkout.removeEmptyDirs, List.reverse_reverse]
  exact h.removeEmptyDirsFrom way

theorem Shows.pruneParents (h : Shows repo before present s)
    (leaves : ∀ p ∈ ps, Leaf repo before p) :
    ∃ s', Checkout.pruneParents repo (ps.map List.reverse) s = (.ok (), s') ∧
      Shows repo before ((ps.map List.tail).foldl prune present) s' := by
  induction ps generalizing present s with
  | nil => exact ⟨s, rfl, h⟩
  | cons p ps ih =>
    obtain ⟨hp, hps⟩ := List.forall_mem_cons.mp leaves
    obtain ⟨t, hrun, ht⟩ := h.removeEmptyDirs hp.way
    obtain ⟨s', hrest, hs'⟩ := ih ht hps
    rw [List.map_cons, Checkout.pruneParents, List.dropLast_reverse]
    exact ⟨s', Effect.bind_eq_ok.mpr ⟨(), t, hrun, hrest⟩, hs'⟩

theorem Shows.removePathsPlainly (h : Shows repo before present s)
    (leaves : ∀ p ∈ ps, Leaf repo before p) :
    ∃ s', Checkout.removePathsPlainly repo (ps.map List.reverse) s = (.ok (), s') ∧
      Shows repo before (pruneEach present ps) s' := by
  obtain ⟨t, hrun, ht⟩ := h.removeAll leaves
  obtain ⟨s', hrest, hs'⟩ := ht.pruneParents leaves
  exact ⟨s', Effect.bind_eq_ok.mpr ⟨(), t, hrun, hrest⟩, hs'⟩

theorem Shows.enqueue (h : Shows repo before present s)
    (way : ∀ last, queue = some last → Way repo before last) :
    ∃ s', Checkout.enqueue repo r.reverse (queue.map List.reverse) s =
        (.ok (some r.reverse), s') ∧ Shows repo before (push present r queue) s' := by
  cases queue with
  | none => exact ⟨s, rfl, h⟩
  | some last =>
    have hstarts : last.reverse.isPrefixOf r.reverse = true ↔ last <:+ r := by
      rw [List.isPrefixOf_iff_prefix, List.reverse_prefix]
    rw [Option.map_some, Checkout.enqueue, push]
    by_cases hinside : last <:+ r
    · rw [if_pos (hstarts.mpr hinside), if_pos hinside]
      exact ⟨s, rfl, h⟩
    · rw [if_neg (hstarts.not.mpr hinside), if_neg hinside]
      obtain ⟨s', hrun, hs'⟩ := h.removeEmptyDirs (way last rfl)
      exact ⟨s', Effect.bind_eq_ok.mpr ⟨(), s', hrun, rfl⟩, hs'⟩

theorem Shows.removePaths (h : Shows repo before present s) (queue : Option Place)
    (leaves : ∀ p ∈ ps, Leaf repo before p)
    (way : ∀ last, queue = some last → Way repo before last) :
    ∃ s', Checkout.removePaths repo (queue.map List.reverse) (ps.map List.reverse) s =
        (.ok (), s') ∧ Shows repo before (pruneQueued present queue ps) s' := by
  induction ps generalizing present queue s with
  | nil =>
    cases queue with
    | none => exact ⟨s, rfl, h⟩
    | some last => exact h.removeEmptyDirs (way last rfl)
  | cons p ps ih =>
    obtain ⟨hp, hps⟩ := List.forall_mem_cons.mp leaves
    obtain ⟨t, hremoved, ht⟩ := h.removePath hp
    obtain ⟨u, hnext, hu⟩ := ht.enqueue (r := p.tail) way
    have hway : ∀ last, some p.tail = some last → Way repo before last := by
      rintro last ⟨⟩
      exact hp.way
    obtain ⟨s', hrest, hs'⟩ := ih hu (some p.tail) hps hway
    rw [List.map_cons, Checkout.removePaths, List.dropLast_reverse, pruneQueued]
    refine ⟨s', Effect.bind_eq_ok.mpr ⟨(), t, Effect.onError_eq_ok.mpr hremoved, ?_⟩, hs'⟩
    exact Effect.bind_eq_ok.mpr ⟨_, u, Effect.onError_eq_ok.mpr hnext, hrest⟩

end Paths

end Runs

end Elfshaker.Checkout
