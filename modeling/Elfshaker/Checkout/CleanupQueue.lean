import Elfshaker.Checkout.Confined
import Elfshaker.Checkout.RemovedPaths

namespace Elfshaker.Checkout

open Elfshaker.Library Elfshaker.Library.Pruning Elfshaker.Format Elfshaker.Store

section Turns

/-- A directory with nothing in it. -/
def EmptyDir (tree : FileTree) (place : Place) : Prop :=
  tree.lookup place = some .dir ∧ tree.hasChildren place = false

/-- A directory that waits, and is empty once the next path is removed, is enqueued again
if one inside of it takes its turn. -/
def KeepsTurns (repo : Repository) :
    Session World Fault → Option (List Name) → List (List Name) → Prop
  | _, _, [] => True
  | s, queue, names :: rest =>
    let removed := (Checkout.removePath repo names s).2
    (∀ last, queue = some last → last ≠ [] → last <+: names.dropLast → last ≠ names.dropLast →
      EmptyDir removed.state.tree (repo.path.below last) → last ∈ rest.map List.dropLast) ∧
    KeepsTurns repo (Checkout.enqueue repo names.dropLast queue removed).2 (some names.dropLast)
      rest

variable {repo : Repository} {before : FileTree} {present : Set Place} {s : Session World Fault}
  {r : Place} {ps : List Place} {queue : Option Place}

theorem Shows.emptyDir_iff (h : Shows repo before present s) (way : Way repo before r) :
    EmptyDir s.state.tree (r ++ repo.path) ↔ r ∈ present ∧ Bare present r := by
  rw [EmptyDir, h.bare_iff, ← h.mem_iff]
  refine and_congr_left fun _ => ⟨fun hdir => ?_, fun hsome => ?_⟩
  · rw [hdir]
    exact Option.some_ne_none _
  · exact (h.lookup_way way List.suffix_rfl).resolve_left hsome

theorem mem_around_iff {last : List Name} :
    last ∈ (ps.map List.reverse).map List.dropLast ↔ last.reverse ∈ around ps := by
  rw [List.map_map, List.mem_map]
  refine exists_congr fun p => and_congr_right fun _ => ?_
  rw [Function.comp_apply, List.dropLast_reverse, List.reverse_eq_iff]

theorem Shows.keepsTurns_iff (h : Shows repo before present s) (queue : Option Place)
    (leaves : ∀ p ∈ ps, Leaf repo before p)
    (way : ∀ last, queue = some last → Way repo before last) :
    KeepsTurns repo s (queue.map List.reverse) (ps.map List.reverse) ↔
      NoneLost present queue ps := by
  induction ps generalizing present queue s with
  | nil => exact Iff.rfl
  | cons p ps ih =>
    obtain ⟨hp, hps⟩ := List.forall_mem_cons.mp leaves
    obtain ⟨t, hremoved, ht⟩ := h.removePath hp
    obtain ⟨u, hnext, hu⟩ := ht.enqueue (r := p.tail) way
    have hway : ∀ last, some p.tail = some last → Way repo before last := by
      rintro last ⟨⟩
      exact hp.way
    have hrest := ih hu (some p.tail) hps hway
    rw [List.map_cons, KeepsTurns, NoneLost, List.dropLast_reverse, hremoved]
    dsimp only
    rw [hnext]
    refine and_congr ?_ hrest
    cases queue with
    | none => exact ⟨fun _ => nofun, fun _ => nofun⟩
    | some last =>
      have hempty := ht.emptyDir_iff (way last rfl)
      rw [← below_reverse] at hempty
      simp only [Option.map_some, Option.some.injEq, forall_eq', ne_eq, List.reverse_eq_nil_iff,
        List.reverse_prefix, List.reverse_inj, hempty, mem_around_iff, List.reverse_reverse, and_imp]

/-- What a removal leaves: a place goes only if it was listed or is a directory around a
listed one, and all that has something in it stays. -/
structure Spares (repo : Repository) (paths : List (List Name)) (before after : FileTree) :
    Prop where
  boundary : after.lookup repo.path = some .dir
  kept : ∀ place, after.lookup place = before.lookup place ∨ after.lookup place = none
  gone : ∀ place, before.lookup place ≠ none → after.lookup place = none →
    (∃ names ∈ paths, place = repo.path.below names) ∨
      before.lookup place = some .dir ∧ ∃ names ∈ paths, place <:+ repo.path.below names.dropLast
  content : ∀ place name, after.lookup (name :: place) ≠ none → after.lookup place = some .dir

/-- The places below the working directory. -/
def places (repo : Repository) (tree : FileTree) : Set Place :=
  {r | tree.lookup (r ++ repo.path) ≠ none}

theorem shows_start (quiet : s.faults = []) :
    Shows repo s.state.tree (places repo s.state.tree) s where
  quiet := quiet
  subset := fun _ hr => hr
  inside := fun _ _ => rfl
  gone := fun _ hr => not_not.mp hr
  outside := fun _ _ => rfl

theorem apart_of_leaves (leaves : ∀ p ∈ ps, Leaf repo before p) :
    Apart (places repo before) ps := by
  intro p hp hmem q hq hsuffix
  rcases (leaves q hq).way p hsuffix with hnone | hdir
  · exact hmem hnone
  · exact (leaves p hp).leaf hdir

theorem Shows.spares (h : Shows repo before present s) (leaves : ∀ p ∈ ps, Leaf repo before p)
    (sound : Sound (places repo before) (among ps) (around ps) present)
    (boundary : before.lookup repo.path = some .dir) :
    Spares repo (ps.map List.reverse) before s.state.tree where
  boundary := by
    have hroot : [] ∈ places repo before := by
      rw [places, Set.mem_ofPred_eq, List.nil_append, boundary]
      exact Option.some_ne_none _
    have hmem : [] ∈ present := by
      by_contra hgone
      rcases sound.gone [] hroot hgone with hremoved | hwithers
      · exact (leaves [] hremoved).inner rfl
      · cases hwithers with
        | intro inner _ _ _ => exact inner rfl
    rw [← boundary]
    exact h.inside [] hmem
  kept := fun place => by
    by_cases hinside : repo.path <:+ place
    · obtain ⟨r, rfl⟩ := hinside
      by_cases hmem : r ∈ present
      · exact .inl (h.inside r hmem)
      · exact .inr (h.gone r hmem)
    · exact .inl (h.outside place hinside)
  gone := fun place hsome hnone => by
    have hinside : repo.path <:+ place := by
      by_contra houtside
      exact hsome ((h.outside place houtside).symm.trans hnone)
    obtain ⟨r, rfl⟩ := hinside
    have hgone : r ∉ present := fun hmem => hsome ((h.inside r hmem).symm.trans hnone)
    rcases sound.gone r hsome hgone with hremoved | hwithers
    · exact .inl ⟨r.reverse, List.mem_map_of_mem hremoved, (below_reverse r).symm⟩
    · obtain ⟨d, ⟨p, hp, rfl⟩, hsuffix⟩ := hwithers.exists_asked
      refine .inr ⟨((leaves p hp).way r hsuffix).resolve_left hsome, p.reverse,
        List.mem_map_of_mem hp, ?_⟩
      rw [List.dropLast_reverse, below_reverse]
      obtain ⟨front, hfront⟩ := hsuffix
      exact ⟨front, by rw [← hfront, List.append_assoc]⟩
  content := fun place name hchild =>
    s.state.tree.closed name place (Option.isSome_iff_ne_none.mpr hchild)

/-- A working directory, and paths of files in it: each leads through directories to
something that is none, as far as it is there. -/
structure Orderly (repo : Repository) (tree : FileTree) (paths : List (List Name)) : Prop where
  boundary : tree.lookup repo.path = some .dir
  inner : ∀ names ∈ paths, names ≠ []
  leaf : ∀ names ∈ paths, tree.lookup (repo.path.below names) ≠ some .dir
  way : ∀ names ∈ paths, ∀ dir, dir <+: names.dropLast →
    tree.lookup (repo.path.below dir) = none ∨ tree.lookup (repo.path.below dir) = some .dir

theorem Orderly.leaves {tree : FileTree} {paths : List (List Name)} (h : Orderly repo tree paths) :
    ∀ p ∈ paths.map List.reverse, Leaf repo tree p := by
  intro p hp
  obtain ⟨names, hnames, rfl⟩ := List.mem_map.mp hp
  refine ⟨fun hnil => h.inner names hnames (List.reverse_eq_nil_iff.mp hnil), h.leaf names hnames,
    fun e he => ?_⟩
  rw [List.tail_reverse] at he
  have hway := h.way names hnames e.reverse (List.reverse_suffix.mp (by rwa [List.reverse_reverse]))
  rwa [below_reverse] at hway

end Turns

section Queue

variable {repo : Repository} {s : Session World Fault} {paths : List (List Name)}

theorem reverse_all (paths : List (List Name)) :
    (paths.map List.reverse).map List.reverse = paths := by
  rw [List.map_map, List.reverse_involutive.comp_self, List.map_id]

/-- What both ways of a removal leave. -/
theorem Orderly.runs (orderly : Orderly repo s.state.tree paths) (quiet : s.faults = []) :
    ∃ queued plain, removePaths repo none paths s = (.ok (), queued) ∧
      removePathsPlainly repo paths s = (.ok (), plain) ∧
      Shows repo s.state.tree
        (pruneQueued (places repo s.state.tree) none (paths.map List.reverse)) queued ∧
      Shows repo s.state.tree
        (pruneEach (places repo s.state.tree) (paths.map List.reverse)) plain := by
  obtain ⟨queued, hqueued, hq⟩ := (shows_start quiet).removePaths none orderly.leaves nofun
  obtain ⟨plain, hplain, hp⟩ := (shows_start quiet).removePathsPlainly orderly.leaves
  rw [reverse_all] at hqueued hplain
  exact ⟨queued, plain, hqueued, hplain, hq, hp⟩

/-- Nothing is lost where all that is to be removed is there. -/
theorem Orderly.keepsTurns (orderly : Orderly repo s.state.tree paths) (quiet : s.faults = [])
    (nodup : paths.Nodup)
    (hthere : ∀ names ∈ paths, s.state.tree.lookup (repo.path.below names) ≠ none) :
    KeepsTurns repo s none paths := by
  have hturns := (shows_start quiet).keepsTurns_iff none orderly.leaves nofun
  rw [reverse_all, Option.map_none] at hturns
  refine hturns.mpr (noneLost_of_mem ?_ ?_ (apart_of_leaves orderly.leaves) nofun)
  · intro p hp e he
    obtain ⟨names, hnames, rfl⟩ := List.mem_map.mp hp
    have hsome := Option.isSome_iff_ne_none.mpr (hthere names hnames)
    obtain ⟨front, hfront⟩ := he
    have hsuffix : e ++ repo.path <:+ repo.path.below names :=
      ⟨front, by rw [Place.below, ← hfront, List.append_assoc]⟩
    by_cases heq : e ++ repo.path = repo.path.below names
    · rw [← heq] at hsome
      exact Option.isSome_iff_ne_none.mp hsome
    · rw [places, Set.mem_ofPred_eq, s.state.tree.around_dir hsome hsuffix heq]
      exact Option.some_ne_none _
  · exact nodup.map List.reverse_injective

/-- The queue removes what is removed without it just where no empty directory loses its
turn. Both come to an end, and spare all that has something in it. -/
theorem cleanup_queue_iff (quiet : s.faults = []) (orderly : Orderly repo s.state.tree paths) :
    ((removePaths repo none paths s).1 = .ok () ∧ (removePathsPlainly repo paths s).1 = .ok ()) ∧
    (Spares repo paths s.state.tree (removePaths repo none paths s).2.state.tree ∧
      Spares repo paths s.state.tree (removePathsPlainly repo paths s).2.state.tree) ∧
    ((∀ place, (removePaths repo none paths s).2.state.tree.lookup place =
        (removePathsPlainly repo paths s).2.state.tree.lookup place) ↔
      KeepsTurns repo s none paths) := by
  obtain ⟨queued, plain, hqueued, hplain, hq, hp⟩ := orderly.runs quiet
  have apart := apart_of_leaves orderly.leaves
  have hsparesq := hq.spares orderly.leaves ((running_start _).pruneQueued_sound apart)
    orderly.boundary
  have hsparesp := hp.spares orderly.leaves (pruneEach_sound apart) orderly.boundary
  have hturns := (shows_start quiet).keepsTurns_iff none orderly.leaves nofun
  rw [reverse_all] at hsparesq hsparesp hturns
  rw [hqueued, hplain]
  refine ⟨⟨rfl, rfl⟩, ⟨hsparesq, hsparesp⟩, ?_⟩
  rw [Option.map_none] at hturns
  rw [hturns, ← pruneQueued_eq_iff apart]
  constructor
  · intro heq
    apply Set.ext
    intro r
    rw [← hq.mem_iff, ← hp.mem_iff, heq]
  · intro heq place
    rw [heq] at hq
    by_cases hinside : repo.path <:+ place
    · obtain ⟨r, rfl⟩ := hinside
      by_cases hmem : r ∈ pruneEach (places repo s.state.tree) (paths.map List.reverse)
      · rw [hq.inside r hmem, hp.inside r hmem]
      · rw [hq.gone r hmem, hp.gone r hmem]
    · rw [hq.outside place hinside, hp.outside place hinside]

end Queue

namespace QueueSample

open CheckoutSample

def v : Name := [118]

theorem withDir_inner : withDir.lookup [d, w] = some .dir := rfl

theorem inner_free : withDir.lookup [u, d, w] ≠ some .dir := by decide

/-- A working directory with the one file `d/u`. -/
def tree : FileTree := withDir.put u [d, w] (.file [1] defaultMode 1) withDir_inner inner_free

def start : Session World Fault := ⟨⟨tree, ⟨dataDir, 5⟩, []⟩, []⟩

def present : List Name := [d, u]

/-- Here the directory of the path is missing. -/
def missing : List Name := [d, v, u]

theorem open_ways : ∀ names ∈ [present, missing], names ≠ [] ∧
    tree.lookup (CheckoutSample.apart.path.below names) ≠ some .dir ∧
      ∀ dir ∈ names.dropLast.inits,
        tree.lookup (CheckoutSample.apart.path.below dir) = none ∨
          tree.lookup (CheckoutSample.apart.path.below dir) = some .dir := by
  decide

theorem orderly {paths : List (List Name)} (hpaths : paths ⊆ [present, missing]) :
    Orderly CheckoutSample.apart start.state.tree paths where
  boundary := rfl
  inner := fun names hnames => (open_ways names (hpaths hnames)).1
  leaf := fun names hnames => (open_ways names (hpaths hnames)).2.1
  way := fun names hnames dir hdir =>
    (open_ways names (hpaths hnames)).2.2 dir (List.mem_inits dir names.dropLast |>.mpr hdir)

theorem swapped_subset : [missing, present] ⊆ [present, missing] := by decide

theorem missing_after : ¬ missing.dropLast <+: present.dropLast := by decide

/-- The missing directory comes first, and so `d` keeps its turn. -/
theorem keepsTurns : KeepsTurns CheckoutSample.apart start none [missing, present] := by
  refine ⟨nofun, ?_, trivial⟩
  rintro last ⟨⟩ _ hinside
  exact absurd hinside missing_after

end QueueSample

theorem cleanup_queue_swapped :
    KeepsTurns CheckoutSample.apart QueueSample.start none
      [QueueSample.missing, QueueSample.present] ∧
    ∀ place, (removePaths CheckoutSample.apart none [QueueSample.missing, QueueSample.present]
        QueueSample.start).2.state.tree.lookup place =
      (removePathsPlainly CheckoutSample.apart [QueueSample.missing, QueueSample.present]
        QueueSample.start).2.state.tree.lookup place :=
  ⟨QueueSample.keepsTurns,
    (cleanup_queue_iff rfl (QueueSample.orderly QueueSample.swapped_subset)).2.2.mpr
      QueueSample.keepsTurns⟩

/-- The pending `d` gives its turn to the missing `d/v`, and stays, empty. -/
theorem cleanup_queue_fails :
    (removePaths CheckoutSample.apart none [QueueSample.present, QueueSample.missing]
        QueueSample.start).2.state.tree.lookup [CheckoutSample.d, CheckoutSample.w] = some .dir ∧
      (removePathsPlainly CheckoutSample.apart [QueueSample.present, QueueSample.missing]
        QueueSample.start).2.state.tree.lookup [CheckoutSample.d, CheckoutSample.w] = none ∧
      (removePaths CheckoutSample.apart none [QueueSample.present, QueueSample.missing]
        QueueSample.start).2.state.tree.hasChildren [CheckoutSample.d, CheckoutSample.w] = false := by
  decide

end Elfshaker.Checkout
