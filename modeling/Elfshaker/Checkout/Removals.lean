import Elfshaker.Checkout.Guard

namespace Elfshaker.Checkout

open Elfshaker.Library Elfshaker.Format Elfshaker.Store Elfshaker.Packs

section Gone

variable {repo : Repository} {P : World → Prop} {names : List Name}

/-- Nothing is where some names lead to. -/
def Gone (repo : Repository) (names : List Name) (world : World) : Prop :=
  world.tree.lookup (repo.path.below names) = none

/-- A call that finds a path missing only where nothing is there. -/
def Misses (repo : Repository) (P : World → Prop) (names : List Name) {α : Type}
    (x : FsCall α) : Prop :=
  ∀ s s', P s.state → x s = (.error (.error .notFound), s') → Gone repo names s'.state

/-- A call after which nothing is there. -/
def Clears (repo : Repository) (P : World → Prop) (names : List Name) {ε α : Type}
    (x : Effect (Session World Fault) ε α) : Prop :=
  Effect.Triple (fun s => P s.state) x (fun _ s => P s.state ∧ Gone repo names s.state)
    fun s => P s.state

theorem Erases.gone_of_gone {tree : FileTree} {world : World} {p : Place}
    (herases : Erases world.tree tree p) (hgone : Gone repo names world) (touch : List Touch) :
    Gone repo names (world.updated tree touch) := by
  unfold Gone at hgone ⊢
  by_cases heq : repo.path.below names = p
  · rw [heq]
    exact herases.erased
  · rw [World.updated_tree, herases.others _ heq]
    exact hgone

theorem toIoError_notFound {e : Refusal} (h : Refusal.toIoError e = .notFound) : e = .notFound := by
  cases e <;> first | rfl | cases h

theorem faultError_ne {fault : Fault} : faultError fault ≠ .notFound := by
  unfold faultError
  split <;> nofun

/-- A step of the system that finds a path missing was not stopped by a fault. -/
theorem os_notFound {α : Type} {broken : Fault → World → World} {run : World → Exec IoError α × World}
    {s s' : Session World Fault}
    (h : Session.os faultError broken run s = (.error (.error .notFound), s')) :
    run s.state = (.error (.error .notFound), s'.state) := by
  rcases Session.os_fails h with ⟨fault, hfault⟩ | hrun
  · exact absurd (Failure.error.inj hfault).symm faultError_ne
  · exact hrun

/-- Where there is no link on the way, what cannot be reached is not there. -/
def Reaches (repo : Repository) (P : World → Prop) (names : List Name) : Prop :=
  ∀ world e, P world → world.tree.resolve false repo.path names = .error e →
    world.tree.lookup (repo.path.below names) = none

theorem find_missing {tree : FileTree} {base : Place}
    (hreaches : ∀ e, tree.resolve false base names = .error e →
      tree.lookup (base.below names) = none) {e : Refusal}
    (h : tree.find false base names = .error e) : tree.lookup (base.below names) = none := by
  cases hresolve : tree.resolve false base names with
  | error e => exact hreaches e hresolve
  | ok place =>
    cases hlookup : tree.lookup (base.below names) with
    | none => rfl
    | some node =>
      rw [FileTree.find_present hlookup] at h
      cases h

theorem symlinkMetadata_misses (hreaches : Reaches repo P names) :
    Misses repo P names (symlinkMetadata repo names) := by
  intro s s' hs h
  rcases inspect_fails h with ⟨fault, hfault⟩ | ⟨refusal, hfind, hstate, -⟩
  · exact absurd hfault.symm faultError_ne
  · rw [Gone, hstate]
    exact find_missing (fun e => hreaches s.state e hs) hfind

/-- A step that takes away what is there, and says so where nothing is. -/
structure TakesAway (op : Nat → Place → FileTree → Except Refusal FileTree) : Prop where
  erases : ∀ now place t t', op now place t = .ok t' → Erases t t' place
  missing : ∀ now place t, op now place t = .error .notFound → t.lookup place = none

theorem unlink_takesAway : TakesAway fun _ place tree => tree.unlink place where
  erases := fun _ _ _ _ h => unlink_erases h
  missing := by
    intro _ place t h
    unfold FileTree.unlink at h
    split at h
    · assumption
    · cases h
    · split at h <;> cases h

theorem rmdir_takesAway : TakesAway fun _ place tree => tree.rmdir place where
  erases := fun _ _ _ _ h => rmdir_erases h
  missing := by
    intro _ place t h
    unfold FileTree.rmdir at h
    split at h
    · assumption
    · split at h
      · cases h
      · split at h <;> cases h
    · cases h

section Change

variable {op : Nat → Place → FileTree → Except Refusal FileTree} (hop : TakesAway op)
  (hleads : LeadsTo repo P false names)
include hop hleads

theorem change_clears (hkept : KeptAt repo P names) :
    Clears repo P names (change repo false names op) := by
  have hkeeps : KeepsWorld P (change repo false names op) := by
    apply keeps_change
    intro world place tree hworld hresolve hop'
    rw [hleads world place hworld hresolve] at hop' ⊢
    exact hkept world tree hworld (hop.erases _ _ _ _ hop')
  apply Effect.Triple.intro
  · intro s s' u hs hrun
    refine ⟨hkeeps.ok hs hrun, ?_⟩
    obtain ⟨place, tree, hplace, htree, hstate⟩ := change_ok hrun
    rw [Gone, hstate, ← hleads s.state place hs hplace]
    exact (hop.erases _ _ _ _ htree).erased
  · intro s s' e hs hrun
    exact hkeeps.error hs hrun

theorem change_misses (hreaches : Reaches repo P names) :
    Misses repo P names (change repo false names op) := by
  intro s s' hs hrun
  have hrun' := os_notFound hrun
  unfold runChange at hrun'
  split at hrun'
  · rename_i e hresolve
    obtain ⟨-, hstate⟩ := Prod.mk.inj hrun'
    rw [Gone, ← hstate]
    exact hreaches s.state e hs hresolve
  · rename_i place hplace
    split at hrun'
    · rename_i e herror
      obtain ⟨hresult, hstate⟩ := Prod.mk.inj hrun'
      simp only [Exec.fail, Except.error.injEq, Failure.error.injEq] at hresult
      rw [toIoError_notFound hresult] at herror
      rw [Gone, ← hstate, ← hleads s.state place hs hplace]
      exact hop.missing _ _ _ herror
    · cases hrun'

end Change

theorem Misses.bind {α β : Type} {x : FsCall α} {f : α → FsCall β} (hkeeps : KeepsWorld P x)
    (hx : Misses repo P names x) (hf : ∀ a, Misses repo P names (f a)) :
    Misses repo P names (x >>= f) := by
  intro s s' hs h
  cases hrun : x s with
  | mk result t =>
    cases result with
    | ok a =>
      rw [Effect.bind_of_ok hrun] at h
      exact hf a t s' (hkeeps.ok hs hrun) h
    | error e =>
      rw [Effect.bind_of_error hrun] at h
      obtain ⟨he, rfl⟩ := Prod.mk.inj h
      rw [Except.error.injEq] at he
      rw [he] at hrun
      exact hx s t hs hrun

/-- What is missing need not be taken away. -/
theorem Clears.orElse_missing {x : FsCall Unit} (hclears : Clears repo P names x)
    (hmisses : Misses repo P names x) : Clears repo P names
      (x.orElse fun e => if e = .notFound then some (pure ()) else none) := by
  apply Effect.Triple.of_run
  intro s hs
  have hxs := hclears.run hs
  unfold Effect.orElse
  cases hrun : x s with
  | mk result t =>
    rw [hrun] at hxs
    cases result with
    | ok u => exact hxs
    | error e =>
      cases e with
      | panic => exact hxs
      | error e =>
        by_cases hmissing : e = .notFound
        · subst hmissing
          exact ⟨hxs, hmisses s t hs hrun⟩
        · simp only [if_neg hmissing]
          exact hxs

theorem Misses.orElse_missing {x : FsCall Unit} : Misses repo P names
    (x.orElse fun e => if e = .notFound then some (pure ()) else none) := by
  intro s s' hs h
  unfold Effect.orElse at h
  split at h
  · rename_i e t hrun
    by_cases hmissing : e = .notFound
    · simp only [if_pos hmissing] at h
      cases h
    · simp only [if_neg hmissing] at h
      obtain ⟨he, -⟩ := Prod.mk.inj h
      exact absurd (Failure.error.inj (Except.error.inj he)) hmissing
  · rename_i hother
    exact absurd h (hother .notFound s')

theorem Clears.attempt {δ : Type} {x : FsCall Unit} (hclears : Clears repo P names x)
    (hmisses : Misses repo P names x) :
    Effect.Triple (fun s : Session World Fault => P s.state)
      (Effect.attempt x : Effect (Session World Fault) δ (Except IoError Unit))
      (fun result s => P s.state ∧
        (result = .ok () ∨ result = .error .notFound → Gone repo names s.state))
      fun s => P s.state := by
  apply Effect.Triple.of_run
  intro s hs
  have hxs := hclears.run hs
  unfold Effect.attempt
  cases hrun : x s with
  | mk result t =>
    rw [hrun] at hxs
    cases result with
    | ok u => exact ⟨hxs.1, fun _ => hxs.2⟩
    | error e =>
      cases e with
      | panic => exact hxs
      | error e =>
        refine ⟨hxs, fun h => ?_⟩
        rcases h with h | h
        · cases h
        · rw [Except.error.inj h] at hrun
          exact hmisses s t hs hrun

section Removal

variable (hleads : LeadsTo repo P false names) (hreaches : Reaches repo P names)

include hleads hreaches in
theorem removeLink_clears (hkept : KeptAt repo P names) (isSymlink : Bool) :
    Clears repo P names (removeLink repo names isSymlink) ∧
      Misses repo P names (removeLink repo names isSymlink) := by
  have hfile : Clears repo P names (removeFile repo names) ∧
      Misses repo P names (removeFile repo names) :=
    ⟨change_clears unlink_takesAway hleads hkept,
      change_misses unlink_takesAway hleads hreaches⟩
  have hnode (node : FileNode) : Clears repo P names (removeLeafNode repo names node) ∧
      Misses repo P names (removeLeafNode repo names node) := by
    cases node with
    | dir => exact ⟨change_clears rmdir_takesAway hleads hkept,
        change_misses rmdir_takesAway hleads hreaches⟩
    | file bytes mode mtime => exact hfile
    | link target mtime => exact hfile
  cases isSymlink with
  | false => exact hfile
  | true =>
    constructor
    · apply Clears.orElse_missing
      · exact Effect.Triple.bind keeps_symlinkMetadata fun node => (hnode node).1
      · exact Misses.bind keeps_symlinkMetadata (symlinkMetadata_misses hreaches)
          fun node => (hnode node).2
    · exact Misses.orElse_missing

/-- The removal of all there is below a place takes the place away at the end. -/
theorem removeEach_clears (h : KeptBelow repo P names) {places : List Place}
    (hplaces : ∀ p ∈ places, repo.path.below names <:+ p) :
    Effect.Triple (fun s : Session World Fault => P s.state ∧
        (Gone repo names s.state ∨ repo.path.below names ∈ places))
      (removeEach names (repo.path.below names) places)
      (fun _ s => P s.state ∧ Gone repo names s.state) fun s => P s.state := by
  induction places with
  | nil => exact .pure fun s hs => ⟨hs.1, hs.2.resolve_right List.not_mem_nil⟩
  | cons p rest ih =>
    have hp := hplaces p List.mem_cons_self
    refine Effect.Triple.bind (R := fun _ s => P s.state ∧
      (Gone repo names s.state ∨ repo.path.below names ∈ rest)) ?_ fun _ =>
        ih fun q hq => hplaces q (List.mem_cons_of_mem _ hq)
    apply Effect.Triple.intro
    · intro s s' _ hs hrun
      obtain ⟨tree, herases, hstate⟩ := runRemoveAt_ok (Session.os_eq_ok hrun)
      have hkept := h (names ++ namesFrom (repo.path.below names) p) (List.prefix_append _ _)
        s.state tree hs.1
      rw [below_namesFrom hp] at hkept
      rw [hstate]
      refine ⟨hkept herases, ?_⟩
      rcases hs.2 with hgone | hmem
      · exact .inl (herases.gone_of_gone hgone _)
      · rcases List.mem_cons.mp hmem with heq | hrest
        · left
          rw [Gone, heq]
          exact herases.erased
        · exact .inr hrest
    · intro s s' e hs hrun
      rcases Session.os_error hrun with heq | herror
      · rw [heq]
        exact hs.1
      · rw [runRemoveAt_error herror]
        exact hs.1

include hleads in
theorem removeDirAll_clears (h : KeptBelow repo P names) :
    Clears repo P names (removeDirAll repo names) := by
  apply Effect.Triple.bind keeps_symlinkMetadata
  intro node
  cases node with
  | link target mtime => exact change_clears unlink_takesAway hleads (h names List.prefix_rfl)
  | file bytes mode mtime => exact .fails
  | dir =>
    apply Effect.Triple.bind_fact (inspect_fact (fun place _ => place = repo.path.below names)
      fun world place hworld hplace => hleads world place hworld hplace)
    intro place hplace
    subst hplace
    apply Effect.Triple.bind (inspect_fact
      (f := fun tree => .ok (subtree tree (repo.path.below names)))
      (fun places world => places = subtree world.tree (repo.path.below names))
      fun world places _ hplaces => (Except.ok.inj hplaces).symm)
    intro places
    apply Effect.Triple.of_run
    intro s hs
    obtain ⟨hworld, hsubtree⟩ := hs
    have hbelow : ∀ p ∈ places, repo.path.below names <:+ p := by
      intro p hp
      rw [hsubtree] at hp
      exact (mem_subtree.mp hp).2
    refine (removeEach_clears h hbelow).run ⟨hworld, ?_⟩
    rw [hsubtree, mem_subtree]
    by_cases hgone : Gone repo names s.state
    · exact .inl hgone
    · exact .inr ⟨Option.isSome_iff_ne_none.mpr hgone, List.suffix_rfl⟩

include hleads hreaches in
/-- After the removal of a path nothing is there. -/
theorem removePath_clears (h : KeptBelow repo P names) :
    Clears repo P names (removePath repo names) := by
  apply Effect.Triple.bind (Effect.Keeps.attempt (keeps_symlinkMetadata (P := P)))
  intro found
  have hremove := removeLink_clears hleads hreaches (h names List.prefix_rfl)
    (found.toOption.any FileNode.isLink)
  apply Effect.Triple.bind (hremove.1.attempt hremove.2)
  intro result
  apply Effect.Triple.of_run
  intro s hs
  obtain ⟨hworld, hgone⟩ := hs
  cases result with
  | ok u => exact ⟨hworld, hgone (.inl rfl)⟩
  | error e =>
    cases e with
    | notFound => exact ⟨hworld, hgone (.inr rfl)⟩
    | isADirectory => exact (removeDirAll_clears hleads h).run hworld
    | alreadyExists => exact hworld
    | notADirectory => exact hworld
    | directoryNotEmpty => exact hworld
    | filesystemLoop => exact hworld
    | invalidInput => exact hworld
    | unexpectedEof => exact hworld
    | other message => exact hworld

end Removal

end Gone

section Paths

variable {repo : Repository} {before : FileTree} {Ok noted : List Name → Prop}
  {paths pending : List (List Name)}

/-- Paths to be removed, where none comes after what lies below it. -/
structure Doomed (repo : Repository) (before : FileTree) (Ok : List Name → Prop)
    (paths rs : List (List Name)) : Prop where
  among : ∀ r ∈ rs, r ∈ paths
  ordered : rs.Pairwise fun earlier later => later <+: earlier → later = earlier
  below : ∀ r ∈ rs, ∀ ns, r <+: ns → (before.lookup (repo.path.below ns)).isSome → Ok ns
  above : ∀ r ∈ rs, ∀ ns, ns <+: r → ns ≠ [] →
    before.lookup (repo.path.below ns) = some .dir → Ok ns

/-- No path that is still to be removed is on the way to this one. -/
def Behind (pending : List (List Name)) (r : List Name) : Prop :=
  ∀ p ∈ pending, p <+: r → p = r

theorem Safe.plain_behind (rooted : Rooted repo before Ok) {r ns : List Name} (hr : r ∈ paths)
    (behind : Behind pending r) (hns : ns <+: r) {world : World}
    (hworld : Safe repo before Ok paths pending noted world) :
    world.tree.Plain repo.path (repo.path.below ns) := by
  apply hworld.links.plain (hworld.toGuarded.root rooted)
  intro m hm hne _
  have hproper : m ≠ r := by
    intro heq
    apply hne
    apply hm.eq_of_length_le
    rw [heq]
    exact hns.length_le
  exact ⟨r, hr, hm.trans hns, hproper, fun hmem => hproper (behind m hmem (hm.trans hns))⟩

theorem Safe.leadsTo_behind (rooted : Rooted repo before Ok) {r ns : List Name} (hr : r ∈ paths)
    (behind : Behind pending r) (hns : ns <+: r) :
    LeadsTo repo (Safe repo before Ok paths pending noted) false ns :=
  fun _ _ hworld hresolve => FileTree.resolve_plain (hworld.toGuarded.root rooted)
    (hworld.plain_behind rooted hr behind hns) FileTree.endsPlain_false hresolve

theorem Safe.reaches_behind (rooted : Rooted repo before Ok) {r : List Name} (hr : r ∈ paths)
    (behind : Behind pending r) :
    Reaches repo (Safe repo before Ok paths pending noted) r :=
  fun _ _ hworld hresolve => (FileTree.resolve_refused
    (hworld.plain_behind rooted hr behind List.prefix_rfl) hresolve).2

/-- Directories above a removed path may go, where they were directories before. -/
theorem keeps_cleanup (rooted : Rooted repo before Ok) {rs : List (List Name)}
    (doomed : Doomed repo before Ok paths rs) {r : List Name} (hr : r ∈ rs)
    (behind : Behind pending r) :
    KeepsWorld (Safe repo before Ok paths pending noted) (removeEmptyDirs repo r.dropLast) := by
  apply keeps_removeEmptyDirs
  intro ns hns hne
  have hstarts := hns.trans (List.dropLast_prefix r)
  apply keeps_removeDir (Safe.leadsTo_behind rooted (doomed.among r hr) behind hstarts)
  intro world tree hworld hdir herases
  apply hworld.places _ herases.places
  apply hworld.toGuarded.ok_of_same
  intro hsame
  rw [hdir] at hsame
  exact doomed.above r hr ns hstarts hne hsame.symm

/-- The paths that were there at or below some names. -/
def Present (repo : Repository) (before : FileTree) (r ns : List Name) : Prop :=
  r <+: ns ∧ (before.lookup (repo.path.below ns)).isSome

/-- Once nothing is at a path, no link is, and what was at or below it was touched. -/
theorem Safe.dropped {r : List Name} {world : World}
    (hworld : Safe repo before Ok paths (r :: pending) noted world) (hgone : Gone repo r world) :
    Safe repo before Ok paths pending (fun ns => noted ns ∨ Present repo before r ns) world where
  toGuarded := by
    apply hworld.toGuarded.note
    rintro ns (hns | ⟨hbelow, hpresent⟩)
    · exact hworld.seen ns hns
    · apply hworld.toGuarded.touched
      have hnone : world.tree.lookup (repo.path.below ns) = none := by
        by_contra hsome
        have hr : (world.tree.lookup (repo.path.below r)).isSome := by
          by_cases heq : repo.path.below r = repo.path.below ns
          · rw [heq]
            exact Option.isSome_iff_ne_none.mpr hsome
          · rw [FileTree.around_dir (Option.isSome_iff_ne_none.mpr hsome)
              (Place.below_suffix_iff.mpr hbelow) heq]
            rfl
        rw [hgone] at hr
        cases hr
      rw [hnone]
      intro heq
      rw [← heq] at hpresent
      cases hpresent
  links := by
    intro path hpath ns hns hne node hnode hlink
    rcases List.mem_cons.mp (hworld.links path hpath ns hns hne node hnode hlink) with rfl | hmem
    · rw [hgone] at hnode
      cases hnode
    · exact hmem

/-- A queue with the directory of a path that was removed. -/
def Queued (rs pending : List (List Name)) (queue : Option (List Name)) : Prop :=
  ∀ leaf, queue = some leaf → ∃ r ∈ rs, leaf = r.dropLast ∧ Behind pending r

theorem keeps_process (rooted : Rooted repo before Ok) {rs : List (List Name)}
    (doomed : Doomed repo before Ok paths rs) {queue : Option (List Name)}
    (queued : Queued rs pending queue) :
    KeepsWorld (Safe repo before Ok paths pending noted) (process repo queue) := by
  cases queue with
  | none => exact .pure _
  | some leaf =>
    obtain ⟨r, hr, rfl, behind⟩ := queued leaf rfl
    exact keeps_cleanup rooted doomed hr behind

theorem enqueue_queued (rooted : Rooted repo before Ok) {rs : List (List Name)}
    (doomed : Doomed repo before Ok paths rs) {queue : Option (List Name)}
    (queued : Queued rs pending queue) {r : List Name} (hr : r ∈ rs) (behind : Behind pending r) :
    Effect.Triple (fun s : Session World Fault => Safe repo before Ok paths pending noted s.state)
      (enqueue repo r.dropLast queue)
      (fun next s => Safe repo before Ok paths pending noted s.state ∧ Queued rs pending next)
      fun s => Safe repo before Ok paths pending noted s.state := by
  have hnext : Queued rs pending (some r.dropLast) := by
    rintro leaf ⟨⟩
    exact ⟨r, hr, rfl, behind⟩
  cases queue with
  | none => exact .pure fun s hs => ⟨hs, hnext⟩
  | some last =>
    rw [enqueue]
    split
    · exact .pure fun s hs => ⟨hs, hnext⟩
    · apply Effect.Triple.bind (keeps_process rooted doomed queued)
      exact fun _ => .pure fun s hs => ⟨hs, hnext⟩

theorem Queued.tail {rs : List (List Name)} {queue : Option (List Name)} {r : List Name}
    (h : Queued rs (r :: pending) queue) : Queued rs pending queue := by
  intro leaf hleaf
  obtain ⟨r', hr', heq, behind⟩ := h leaf hleaf
  exact ⟨r', hr', heq, fun p hp => behind p (List.mem_cons_of_mem _ hp)⟩

/-- The removal of one path, with the queue of its directory. -/
theorem removePath_dropped (rooted : Rooted repo before Ok) {rs : List (List Name)}
    (doomed : Doomed repo before Ok paths rs) {r : List Name} (hr : r ∈ rs)
    (behind : Behind (r :: pending) r) :
    Effect.Triple
      (fun s : Session World Fault => Safe repo before Ok paths (r :: pending) noted s.state)
      (removePath repo r)
      (fun _ s => Safe repo before Ok paths pending
        (fun ns => noted ns ∨ Present repo before r ns) s.state)
      fun s => Safe repo before Ok paths (r :: pending) noted s.state := by
  have hpath := doomed.among r hr
  have hclears : Clears repo (Safe repo before Ok paths (r :: pending) noted) r
      (removePath repo r) :=
    removePath_clears (Safe.leadsTo_behind rooted hpath behind List.prefix_rfl)
      (Safe.reaches_behind rooted hpath behind)
      fun ns hns => Safe.keptAt (doomed.below r hr ns hns)
  exact hclears.weaken (fun _ hs => hs) (fun _ _ hs => hs.1.dropped hs.2) fun _ hs => hs

/-- The removal of the paths touches nothing else, and leaves no link on any way. -/
theorem removePaths_safe (rooted : Rooted repo before Ok) {rs : List (List Name)}
    (doomed : Doomed repo before Ok paths rs) (rest : List (List Name))
    (hrest : rest ⊆ rs) (ordered : rest.Pairwise fun earlier later => later <+: earlier →
      later = earlier) {queue : Option (List Name)} (queued : Queued rs rest queue)
    (noted : List Name → Prop) :
    Effect.Triple (fun s : Session World Fault => Safe repo before Ok paths rest noted s.state)
      (removePaths repo queue rest)
      (fun _ s => Safe repo before Ok paths []
        (fun ns => noted ns ∨ ∃ r ∈ rest, Present repo before r ns) s.state)
      fun s => Guarded repo before Ok noted s.state := by
  induction rest generalizing queue noted with
  | nil =>
    apply (keeps_process rooted doomed queued).weaken
    · exact fun _ hs => hs
    · intro _ s hs
      exact ⟨hs.toGuarded.note fun ns hns => hs.seen ns (hns.resolve_right (by simp)), hs.links⟩
    · exact fun _ hs => hs.toGuarded
  | cons r rest ih =>
    obtain ⟨hlater, ordered⟩ := List.pairwise_cons.mp ordered
    have hr := hrest List.mem_cons_self
    have behind : Behind (r :: rest) r := by
      intro p hp hstarts
      rcases List.mem_cons.mp hp with rfl | hp
      · rfl
      · exact hlater p hp hstarts
    have behindRest : Behind rest r := fun p hp => behind p (List.mem_cons_of_mem _ hp)
    apply Effect.Triple.bind
    · apply Effect.Triple.weaken (Effect.Triple.onError (removePath_dropped rooted doomed hr behind)
        (keeps_process rooted doomed queued))
      · exact fun _ hs => hs
      · exact fun _ _ hs => hs
      · exact fun _ hs => hs.toGuarded
    · intro _
      apply Effect.Triple.bind_fact
      · apply Effect.Triple.weaken (Effect.Triple.onError
          (enqueue_queued rooted doomed queued.tail hr behindRest)
          (keeps_process rooted doomed queued.tail))
        · exact fun _ hs => hs
        · exact fun _ _ hs => hs
        · exact fun _ hs => hs.toGuarded.note fun ns hns => hs.seen ns (.inl hns)
      · intro next hnext
        apply (ih (fun p hp => hrest (List.mem_cons_of_mem _ hp)) ordered hnext _).weaken
        · exact fun _ hs => hs
        · intro _ s hs
          refine ⟨hs.toGuarded.note fun ns hns => hs.seen ns ?_, hs.links⟩
          rcases hns with hns | ⟨p, hp, hpresent⟩
          · exact .inl (.inl hns)
          · rcases List.mem_cons.mp hp with rfl | hp
            · exact .inl (.inr hpresent)
            · exact .inr ⟨p, hp, hpresent⟩
        · exact fun _ hs => hs.note fun ns hns => hs.seen ns (.inl hns)

end Paths

end Elfshaker.Checkout
