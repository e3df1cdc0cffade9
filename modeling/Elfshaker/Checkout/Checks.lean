import Elfshaker.Checkout.PathOrder
import Elfshaker.Checkout.Steps

namespace Elfshaker.Checkout

open Elfshaker.Library Elfshaker.Format Elfshaker.Store

section Checks

variable {env : Env} {repo : Repository} {P : World → Prop} {t : FileTree}

/-- What a look at a path says about a tree. -/
def Reported (repo : Repository) (t : FileTree) (names : List Name) :
    Except IoError FileNode → Prop
  | .ok node => t.find false repo.path names = .ok node
  | .error e => isMissing e = true → t.lookup (repo.path.below names) = none

theorem isMissing_faultError {fault : Fault} : isMissing (faultError fault) = false := by
  unfold faultError
  split <;> rfl

theorem symlinkMetadata_reported (hP : ∀ world, P world → world.tree = t) {names : List Name}
    {δ : Type} : Effect.Triple (fun s : Session World Fault => P s.state)
      (Effect.attempt (symlinkMetadata repo names) : Effect (Session World Fault) δ _)
      (fun result s => P s.state ∧ Reported repo t names result) fun s => P s.state := by
  have hkeeps : KeepsWorld P
      (Effect.attempt (symlinkMetadata repo names) : Effect (Session World Fault) δ _) :=
    .attempt keeps_symlinkMetadata
  apply Effect.Triple.intro
  · intro s s' result hs hrun
    refine ⟨hkeeps.ok hs hrun, ?_⟩
    cases result with
    | ok node =>
      obtain ⟨hfind, -⟩ := inspect_ok (Effect.attempt_eq_ok.mp hrun)
      rwa [hP s.state hs] at hfind
    | error e =>
      intro hmissing
      by_contra hpresent
      obtain ⟨node, hnode⟩ := Option.ne_none_iff_exists'.mp hpresent
      rcases inspect_fails (Effect.attempt_eq_error.mp hrun) with ⟨fault, rfl⟩ | ⟨_, hfind, -, -⟩
      · rw [isMissing_faultError] at hmissing
        cases hmissing
      · rw [hP s.state hs, FileTree.find_present hnode] at hfind
        cases hfind
  · intro s s' e hs hrun
    exact hkeeps.error hs hrun

section Ancestors

variable {removable : List PackPath}

/-- The links on the way to one path are all removable. -/
def LinksOn (repo : Repository) (removable : List PackPath) (t : FileTree) (names : List Name) :
    Prop :=
  ∀ ns, ns <+: names → ns ≠ names → ∀ node, t.lookup (repo.path.below ns) = some node →
    node.isLink = true → ns ∈ removable.map native

/-- Nothing lies below what is not a directory. -/
theorem linksOn_of_leaf {checked rest : List Name}
    (hbefore : LinksOn repo removable t checked)
    (hat : ∀ node, t.lookup (repo.path.below checked) = some node → node.isLink = true →
      checked ∈ removable.map native)
    (hleaf : t.lookup (repo.path.below checked) ≠ some .dir) :
    LinksOn repo removable t (checked ++ rest) := by
  intro ns hns hne node hnode hlink
  rcases List.prefix_or_prefix_of_prefix hns (List.prefix_append checked rest) with hle | hge
  · by_cases heq : ns = checked
    · subst heq
      exact hat node hnode hlink
    · exact hbefore ns hle heq node hnode hlink
  · by_cases heq : ns = checked
    · subst heq
      exact hat node hnode hlink
    · have hdir := FileTree.around_dir (t := t) (by rw [hnode]; rfl)
        (Place.below_suffix_iff.mpr hge) fun h => heq (Place.below_injective h).symm
      exact absurd hdir hleaf

theorem keeps_checkDestinationAncestors (checked rest : List Name) :
    KeepsWorld P (checkDestinationAncestors repo removable checked rest) := by
  induction rest generalizing checked with
  | nil => exact .pure _
  | cons name rest ih =>
    cases rest with
    | nil => exact .pure _
    | cons next rest =>
      apply Effect.Keeps.bind (.attempt keeps_symlinkMetadata)
      intro result
      cases result with
      | error e =>
        simp only
        split
        · exact .pure _
        · exact .lift _
      | ok node =>
        simp only
        split
        · exact .lift _
        · exact ih _

/-- No link is at or above some names. -/
def LinkFree (repo : Repository) (t : FileTree) (names : List Name) : Prop :=
  ∀ ns, ns <+: names → ∀ node, t.lookup (repo.path.below ns) = some node → node.isLink = false

theorem LinkFree.linksOn {checked : List Name} (h : LinkFree repo t checked) (name : Name) :
    LinksOn repo removable t (checked ++ [name]) := by
  intro ns hns hne node hnode hlink
  rcases List.prefix_concat_iff.mp hns with heq | hstarts
  · exact absurd heq hne
  · rw [h ns hstarts node hnode] at hlink
    cases hlink

theorem LinkFree.plain {checked : List Name} (h : LinkFree repo t checked) (name : Name) :
    t.Plain repo.path (repo.path.below (checked ++ [name])) := by
  intro d hbase hd hne node hnode
  obtain ⟨ns, hns, rfl⟩ := Place.exists_below hbase hd
  rcases List.prefix_concat_iff.mp hns with heq | hstarts
  · exact absurd (congrArg _ heq) hne
  · exact h ns hstarts node hnode

theorem LinkFree.concat {checked : List Name} (h : LinkFree repo t checked) {name : Name}
    {node : FileNode} (hlookup : t.lookup (repo.path.below (checked ++ [name])) = some node)
    (hnode : node.isLink = false) : LinkFree repo t (checked ++ [name]) := by
  intro ns hns found hfound
  rcases List.prefix_concat_iff.mp hns with rfl | hstarts
  · rw [hlookup] at hfound
    rw [← Option.some.inj hfound]
    exact hnode
  · exact h ns hstarts found hfound

theorem checkDestinationAncestors_links (hP : ∀ world, P world → world.tree = t)
    (hroot : t.lookup repo.path = some .dir) (checked rest : List Name)
    (free : LinkFree repo t checked) :
    Effect.Triple (fun s : Session World Fault => P s.state)
      (checkDestinationAncestors repo removable checked rest)
      (fun _ s => P s.state ∧ LinksOn repo removable t (checked ++ rest)) fun s => P s.state := by
  induction rest generalizing checked with
  | nil =>
    apply Effect.Triple.of_run
    intro s hs
    refine ⟨hs, fun ns hns _ node hnode hlink => ?_⟩
    rw [List.append_nil] at hns
    rw [free ns hns node hnode] at hlink
    cases hlink
  | cons name rest ih =>
    cases rest with
    | nil => exact .of_run fun s hs => ⟨hs, free.linksOn name⟩
    | cons next rest =>
      have hkeeps : KeepsWorld P
          (checkDestinationAncestors repo removable (checked ++ [name]) (next :: rest)) :=
        keeps_checkDestinationAncestors _ _
      rw [List.append_cons]
      apply Effect.Triple.bind_fact (symlinkMetadata_reported hP)
      intro result hreported
      cases result with
      | error e =>
        simp only
        split
        · rename_i hmissing
          have hnone := hreported hmissing
          refine .of_run fun s hs => ⟨hs, linksOn_of_leaf (free.linksOn name) ?_ ?_⟩
          · intro node hnode
            rw [hnone] at hnode
            cases hnode
          · rw [hnone]
            intro hdir
            cases hdir
        · exact .of_run fun _ hs => hs
      | ok node =>
        have hlookup := FileTree.find_plain hroot (free.plain name) hreported
        simp only
        split
        · exact .of_run fun _ hs => hs
        · rename_i hallowed
          cases hlink : node.isLink with
          | false => exact ih _ (free.concat hlookup hlink)
          | true =>
            -- what is below a link is looked at through the link, and is not there itself
            have hremovable : checked ++ [name] ∈ removable.map native := by
              by_contra hnot
              rw [hlink, decide_eq_false hnot] at hallowed
              exact hallowed rfl
            have hcovered : LinksOn repo removable t (checked ++ [name] ++ next :: rest) := by
              refine linksOn_of_leaf (free.linksOn name) (fun _ _ _ => hremovable) ?_
              rw [hlookup]
              intro hdir
              rw [Option.some.inj hdir] at hlink
              cases hlink
            exact hkeeps.weaken (fun _ hs => hs) (fun _ _ hs => ⟨hs, hcovered⟩) fun _ hs => hs

/-- Once the ancestors of all destinations are checked, the links there are removable. -/
theorem preflightDestinationAncestors_links (hP : ∀ world, P world → world.tree = t)
    (hroot : t.lookup repo.path = some .dir) (paths : List PackPath) :
    Effect.Triple (fun s : Session World Fault => P s.state)
      (preflightDestinationAncestors repo removable paths)
      (fun _ s => P s.state ∧ ∀ path ∈ paths, LinksOn repo removable t (native path))
      fun s => P s.state := by
  have free : LinkFree repo t [] := by
    intro ns hns node hnode
    rw [List.prefix_nil.mp hns, Place.below_nil, hroot] at hnode
    rw [← Option.some.inj hnode]
    rfl
  induction paths with
  | nil => exact .of_run fun s hs => ⟨hs, fun path hpath => absurd hpath List.not_mem_nil⟩
  | cons path paths ih =>
    apply Effect.Triple.bind_fact (checkDestinationAncestors_links hP hroot [] (native path) free)
    intro _ hlinks
    apply ih.weaken
    · exact fun _ hs => hs
    · rintro _ s ⟨hs, hrest⟩
      refine ⟨hs, fun other hother => ?_⟩
      rcases List.mem_cons.mp hother with rfl | hother
      · exact hlinks
      · exact hrest other hother
    · exact fun _ hs => hs

end Ancestors

section Unforced

/-- An entry that is unchanged is not a directory now. -/
theorem checkEntryUnchangedSince_noDir (hP : ∀ world, P world → world.tree = t) {time : Nat}
    {entry : FileEntry} : Effect.Triple (fun s : Session World Fault => P s.state)
      (checkEntryUnchangedSince env repo time entry)
      (fun _ s => P s.state ∧ t.lookup (repo.path.below (native entry.path)) ≠ some .dir)
      fun s => P s.state := by
  apply Effect.Triple.bind_fact (symlinkMetadata_reported hP)
  intro result hreported
  cases result with
  | error e => exact .of_run fun _ hs => hs
  | ok node =>
    have hkind : Effect.Triple (fun s : Session World Fault => P s.state)
        (checkKind env repo entry (native entry.path) node)
        (fun matched s => P s.state ∧ (matched = true → node.isDir = false))
        fun s => P s.state := by
      unfold checkKind
      cases entry.metadata with
      | regular mode =>
        refine .of_run fun s hs => ⟨hs, fun hfile => ?_⟩
        cases node <;> first | rfl | cases hfile
      | symlink encoding kind =>
        simp only
        split
        · rename_i hlink
          have hnode : node.isDir = false := by
            cases node <;> first | rfl | cases hlink
          apply Effect.Triple.bind (Effect.Keeps.attempt keeps_verifyMaterialized)
          exact fun _ => .of_run fun s hs => ⟨hs, fun _ => hnode⟩
        · exact .of_run fun s hs => ⟨hs, nofun⟩
    apply Effect.Triple.bind_fact hkind
    intro matched hmatched
    have hnoDir (h : matched = true) : t.lookup (repo.path.below (native entry.path)) ≠ some .dir := by
      intro hdir
      have hfound := FileTree.find_present hdir
      have hnode := hmatched h
      rw [hreported, Except.ok.injEq] at hfound
      rw [hfound] at hnode
      cases hnode
    cases matched with
    | false => exact .of_run fun _ hs => hs
    | true =>
      simp only [if_true]
      split
      · exact .of_run fun _ hs => hs
      · split
        · exact .of_run fun _ hs => hs
        · exact .of_run fun s hs => ⟨hs, hnoDir rfl⟩

theorem checkEntriesUnchangedSince_noDir (hP : ∀ world, P world → world.tree = t)
    {time : Option Nat} (entries : List FileEntry) :
    Effect.Triple (fun s : Session World Fault => P s.state)
      (checkEntriesUnchangedSince env repo time entries)
      (fun _ s => P s.state ∧ ∀ entry ∈ entries,
        t.lookup (repo.path.below (native entry.path)) ≠ some .dir)
      fun s => P s.state := by
  induction entries with
  | nil => exact .of_run fun s hs => ⟨hs, fun entry hentry => absurd hentry List.not_mem_nil⟩
  | cons entry entries ih =>
    apply Effect.Triple.bind (Effect.Keeps.lift _)
    intro since
    apply Effect.Triple.bind_fact (checkEntryUnchangedSince_noDir hP)
    intro _ hentry
    apply ih.weaken
    · exact fun _ hs => hs
    · rintro _ s ⟨hs, hrest⟩
      refine ⟨hs, fun other hother => ?_⟩
      rcases List.mem_cons.mp hother with rfl | hother
      · exact hentry
      · exact hrest other hother
    · exact fun _ hs => hs

variable {removable : List PackPath} {headEntries : List FileEntry}

/-- HEAD knows all that is at or below some names. -/
def OwnedAt (repo : Repository) (headEntries : List FileEntry) (t : FileTree)
    (names : List Name) : Prop :=
  ∀ ns, names <+: ns → ∀ node, t.lookup (repo.path.below ns) = some node →
    isOwned headEntries ns node = true

/-- Where a walk finds nothing foreign, there is nothing foreign. -/
theorem collisionsAt_owned {names : List Name}
    (h : collisionsAt headEntries names (repo.path.below names) t = []) :
    OwnedAt repo headEntries t names := by
  unfold collisionsAt at h
  simp only [List.map_eq_nil_iff] at h
  generalize hforeign : (((t.nodes.entries.filter fun entry =>
    decide (repo.path.below names <:+ entry.1)).filter fun entry =>
      !isOwned headEntries (names ++ namesFrom (repo.path.below names) entry.1) entry.2).map
        fun entry => entry.1) = foreign at h
  have hempty : ∀ n, ∀ p ∈ foreign, p.length = n → False := by
    intro n
    induction n using Nat.strong_induction_on with
    | _ n ih =>
      intro p hp hlength
      have hkept := List.filter_eq_nil_iff.mp h p hp
      simp only [Bool.not_eq_true, Bool.not_eq_false', List.any_eq_true,
        decide_eq_true_eq] at hkept
      obtain ⟨q, hq, hsuffix, hne⟩ := hkept
      have hle := hsuffix.length_le
      have hlt : q.length < n := by
        by_contra hge
        exact hne (hsuffix.eq_of_length_le (by omega))
      exact ih q.length hlt q hq rfl
  intro ns hns node hnode
  by_contra howned
  have hbelow : repo.path.below names <:+ repo.path.below ns := Place.below_suffix_iff.mpr hns
  apply hempty _ (repo.path.below ns) _ rfl
  rw [← hforeign]
  apply List.mem_map.mpr
  refine ⟨⟨repo.path.below ns, node⟩, ?_, rfl⟩
  simp only [List.mem_filter, decide_eq_true_eq, Bool.not_eq_true']
  refine ⟨⟨AList.mem_lookup_iff.mp hnode, hbelow⟩, ?_⟩
  rw [Place.below_injective (below_namesFrom hbelow)]
  simpa using howned

theorem ownedAt_of_none {names : List Name} (h : t.lookup (repo.path.below names) = none) :
    OwnedAt repo headEntries t names := by
  intro ns hns node hnode
  by_cases heq : names = ns
  · rw [← heq, h] at hnode
    cases hnode
  · have hdir := FileTree.around_dir (t := t) (by rw [hnode]; rfl) (Place.below_suffix_iff.mpr hns)
      fun hsame => heq (Place.below_injective hsame)
    rw [h] at hdir
    cases hdir

/-- An output that is below a removed path, or where HEAD knows all there is. -/
def Untangled (repo : Repository) (removable : List PackPath) (headEntries : List FileEntry)
    (t : FileTree) (names : List Name) : Prop :=
  (∃ path ∈ removable, native path <+: names) ∨ OwnedAt repo headEntries t names

theorem outputCollisions_untangled (hP : ∀ world, P world → world.tree = t) {names : List Name} :
    Effect.Triple (fun s : Session World Fault => P s.state)
      (outputCollisions repo removable headEntries names)
      (fun found s => P s.state ∧ (found = [] → Untangled repo removable headEntries t names))
      fun s => P s.state := by
  unfold outputCollisions
  split
  · rename_i habove
    refine .of_run fun s hs => ⟨hs, fun _ => .inl ?_⟩
    obtain ⟨path, hpath, hstarts⟩ := List.any_eq_true.mp habove
    exact ⟨path, hpath, (isComponentPrefix_iff.mp hstarts).1⟩
  · apply Effect.Triple.bind_fact (symlinkMetadata_reported hP)
    intro result hreported
    cases result with
    | error e =>
      simp only
      split
      · rename_i hmissing
        exact .of_run fun s hs => ⟨hs, fun _ => .inr (ownedAt_of_none (hreported hmissing))⟩
      · exact .of_run fun _ hs => hs
    | ok node =>
      apply Effect.Triple.mapError
      apply inspect_fact fun found _ =>
        found = [] → Untangled repo removable headEntries t names
      intro world found hworld hfound hempty
      right
      rw [hP world hworld] at hfound
      by_cases hnone : t.lookup (repo.path.below names) = none
      · exact ownedAt_of_none hnone
      · obtain ⟨there, hthere⟩ := Option.ne_none_iff_exists'.mp hnone
        rw [FileTree.resolve_present hthere] at hfound
        apply collisionsAt_owned
        rw [← hempty]
        exact Except.ok.inj hfound

theorem allCollisions_untangled (hP : ∀ world, P world → world.tree = t)
    (entries : List FileEntry) : Effect.Triple (fun s : Session World Fault => P s.state)
      (allCollisions repo removable headEntries entries)
      (fun found s => P s.state ∧ (found = [] → ∀ entry ∈ entries,
        Untangled repo removable headEntries t (native entry.path)))
      fun s => P s.state := by
  induction entries with
  | nil => exact .of_run fun s hs => ⟨hs, fun _ entry hentry => absurd hentry List.not_mem_nil⟩
  | cons entry entries ih =>
    apply Effect.Triple.bind_fact (outputCollisions_untangled hP)
    intro here hhere
    apply Effect.Triple.bind_fact ih
    intro there hthere
    refine .pure fun s hs => ⟨hs, fun hempty other hother => ?_⟩
    obtain ⟨hnil, hnil'⟩ := List.append_eq_nil_iff.mp hempty
    rcases List.mem_cons.mp hother with rfl | hother
    · exact hhere hnil
    · exact hthere hnil' other hother

theorem preflightUntrackedCollisions_untangled (hP : ∀ world, P world → world.tree = t)
    {entries : List FileEntry} : Effect.Triple (fun s : Session World Fault => P s.state)
      (preflightUntrackedCollisions repo removable entries headEntries)
      (fun _ s => P s.state ∧ ∀ entry ∈ entries,
        Untangled repo removable headEntries t (native entry.path))
      fun s => P s.state := by
  apply Effect.Triple.bind_fact (allCollisions_untangled hP entries)
  intro found hfound
  simp only
  split
  · rename_i hsorted
    have hnil : found = [] := by
      cases found with
      | nil => rfl
      | cons names found =>
        have hmem : names ∈ ((names :: found).insertionSort (· ≤ ·)).dedup :=
          List.mem_dedup.mpr ((List.mem_insertionSort _).mpr List.mem_cons_self)
        rw [hsorted] at hmem
        cases hmem
    exact .of_run fun s hs => ⟨hs, hfound hnil⟩
  · exact .of_run fun _ hs => hs

/-- What the checks against the changes of a user find out, unless they are forced. -/
structure Unchanged (repo : Repository) (plan : Plan) (t : FileTree) : Prop where
  noDirs : ∀ entry ∈ plan.oldEntries, t.lookup (repo.path.below (native entry.path)) ≠ some .dir
  untangled : ∀ entry ∈ plan.newEntries,
    Untangled repo plan.removed plan.headEntries t (native entry.path)

theorem preflightUnforced_unchanged (hP : ∀ world, P world → world.tree = t)
    {opts : ExtractOptions} {plan : Plan} :
    Effect.Triple (fun s : Session World Fault => P s.state) (preflightUnforced env repo opts plan)
      (fun _ s => P s.state ∧ (opts.force = false → Unchanged repo plan t))
      fun s => P s.state := by
  unfold preflightUnforced
  split
  · rename_i hforce
    refine .of_run fun s hs => ⟨hs, fun h => ?_⟩
    rw [h] at hforce
    cases hforce
  · apply Effect.Triple.bind_fact (checkEntriesUnchangedSince_noDir hP plan.oldEntries)
    intro _ hnoDirs
    apply (preflightUntrackedCollisions_untangled hP).weaken
    · exact fun _ hs => hs
    · exact fun _ s hs => ⟨hs.1, fun _ => ⟨hnoDirs, hs.2⟩⟩
    · exact fun _ hs => hs

end Unforced

end Checks

end Elfshaker.Checkout
