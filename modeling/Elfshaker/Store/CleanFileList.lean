import Elfshaker.Library.FilePaths

namespace Elfshaker.Store

open Elfshaker.Library
open Elfshaker.Library.UnixPath (Component components Resolves Climbs IsName)

/-- Why a list of files is refused; all but the last are `io::ErrorKind::InvalidInput`. -/
inductive CleanError where
  | escapes (path : List Component)
  | notRelative (path : List Component)
  | noFileComponent (path : List Component)
  | duplicate (path : List Name)
  | traversesLink (path : List Name)
  | io (e : Refusal)
  deriving DecidableEq

/-- The loop over the components; `normalized` is a path of normal components. -/
def normalizeFrom (path : List Component) : List Name → List Component →
    Except CleanError (List Name)
  | normalized, [] => .ok normalized
  | normalized, .normal component :: rest => normalizeFrom path (normalized ++ [component]) rest
  | normalized, .curDir :: rest => normalizeFrom path normalized rest
  | normalized, .parentDir :: rest =>
    if normalized = [] then .error (.escapes path)
    else normalizeFrom path normalized.dropLast rest
  | _, .rootDir :: _ => .error (.notRelative path)

def normalizeRelativePath (path : List Component) : Except CleanError (List Name) := do
  let normalized ← normalizeFrom path [] path
  if normalized = [] then .error (.noFileComponent path) else .ok normalized

/-- `Path::strip_prefix`. -/
def stripPrefix (path base : List Component) : Option (List Component) :=
  if base <+: path then some (path.drop base.length) else none

section Clean

variable (t : FileTree) (cwd : Place) (repoDir : List UInt8)

/-- Looks at the directories of a path, from the first one on. -/
def rejectLinksFrom (path candidate : List Name) : List Name → Except CleanError Unit
  | [] => .ok ()
  | component :: rest =>
    match t.symlinkMetadata cwd repoDir (candidate ++ [component]) with
    | .error e => .error (.io e)
    | .ok node =>
      if node.isLink then .error (.traversesLink path)
      else rejectLinksFrom path (candidate ++ [component]) rest

def rejectSymlinkAncestors (path : List Name) : Except CleanError Unit :=
  rejectLinksFrom t cwd repoDir path [] path.dropLast

def cleanFrom (dataDir : Option (List Name)) : List (List Name) → List (List UInt8) →
    Except CleanError (List (List Name))
  | _, [] => .ok []
  | seen, input :: rest => do
    let path ← normalizeRelativePath (components input)
    if dataDir.any (· <+: path) then cleanFrom dataDir seen rest
    else if path ∈ seen then .error (.duplicate path)
    else
      rejectSymlinkAncestors t cwd repoDir path
      let cleaned ← cleanFrom dataDir (path :: seen) rest
      .ok (path :: cleaned)

/-- The data directory is a canonical path. -/
def cleanFileList (dataDir : Place) (files : List (List UInt8)) :
    Except CleanError (List (List Name)) := do
  let dataDir ← match stripPrefix (FileTree.placeComponents dataDir) (components repoDir) with
    | some path => (normalizeRelativePath path).map some
    | none => .ok none
  cleanFrom t cwd repoDir dataDir [] files

end Clean

/-- What `open_with_data_dir` takes down of a repository. -/
structure OpenedRepository where
  path : List UInt8
  dataDir : Place

/-- The lock file has to be in a directory. -/
def openWithDataDir (t : FileTree) (cwd : Place) (path dataDir : List UInt8) :
    Except Refusal OpenedRepository := do
  let place ← t.canonicalize cwd dataDir
  if t.lookup place = some .dir then .ok ⟨path, place⟩ else .error .notADirectory

section Normalize

variable {path : List Component} {names : List Name} {input : List UInt8}

/-- An input that is refused whatever there is in the repository. -/
def Unusable (input : List UInt8) : Prop :=
  UnixPath.hasRoot input = true ∨ Climbs (components input) ∨ Resolves (components input) []

theorem normalizeFrom_eq_ok {cs : List Component} {done : List Name} :
    normalizeFrom path done cs = .ok names ↔ UnixPath.followAll done cs = some names := by
  induction cs generalizing done with
  | nil =>
    rw [normalizeFrom, UnixPath.followAll, Except.ok.injEq, Option.some.injEq]
  | cons c cs ih =>
    cases c with
    | rootDir => exact iff_of_false (fun h => by cases h) (fun h => by cases h)
    | curDir => exact ih
    | normal name => exact ih
    | parentDir =>
      cases done with
      | nil => exact iff_of_false (fun h => by cases h) (fun h => by cases h)
      | cons name done => exact ih

theorem normalizeRelativePath_eq_ok : normalizeRelativePath path = .ok names ↔
    Resolves path names ∧ names ≠ [] := by
  rw [normalizeRelativePath, UnixPath.resolves_iff, ← normalizeFrom_eq_ok]
  constructor
  · intro h
    obtain ⟨done, hdone, h⟩ := FileTree.bind_ok h
    split_ifs at h with hempty
    cases h
    exact ⟨hdone, hempty⟩
  · rintro ⟨h, hne⟩
    rw [h]
    exact if_neg hne

theorem unusable_iff : Unusable input ↔
    ∀ names, normalizeRelativePath (components input) ≠ .ok names := by
  simp only [Unusable, ne_eq, normalizeRelativePath_eq_ok, not_and, not_not]
  by_cases hroot : UnixPath.hasRoot input = true
  · refine iff_of_true (.inl hroot) fun names hresolves => ?_
    exact absurd (UnixPath.rootDir_mem_iff.mpr hroot) hresolves.rootless
  · have hmem : Component.rootDir ∉ components input := fun h =>
      hroot (UnixPath.rootDir_mem_iff.mp h)
    rw [UnixPath.climbs_iff hmem]
    simp only [UnixPath.resolves_iff]
    cases hfollow : UnixPath.followAll [] (components input) with
    | none => simp
    | some names => simp [hroot]

end Normalize

section Ancestors

variable {t : FileTree} {cwd repo : Place} {repoDir : List UInt8} {path : List Name}

/-- A directory on the way to a path is not there, or is a link. -/
def AncestorLost (t : FileTree) (repo : Place) (path : List Name) : Prop :=
  ∃ ns, ns ≠ [] ∧ ns <+: path ∧ ns ≠ path ∧
    ∀ node, t.lookup (repo.below ns) = some node → node.isLink = true

/-- What `rejectLinksFrom` goes through: the names behind those it has seen. -/
theorem rejectLinksFrom_eq_ok (hrepo : t.canonicalize cwd repoDir = .ok repo)
    (hdir : t.lookup repo = some .dir) {candidate rest : List Name}
    (plain : t.Plain repo (repo.below candidate))
    (hlast : ∀ node, t.lookup (repo.below candidate) = some node → node.isLink = false) :
    rejectLinksFrom t cwd repoDir path candidate rest = .ok () ↔
      ∀ ns, ns ≠ [] → ns <+: rest →
        ∃ node, t.lookup (repo.below (candidate ++ ns)) = some node ∧ node.isLink = false := by
  induction rest generalizing candidate with
  | nil =>
    refine iff_of_true rfl fun ns hne hstart => ?_
    exact absurd (List.prefix_nil.mp hstart) hne
  | cons component rest ih =>
    have hnext : t.Plain repo (repo.below (candidate ++ [component])) := by
      intro d hbase hd hne node hnode
      rw [Place.below_concat] at hd hne
      have hd' := Place.tail_suffix hd hne
      by_cases heq : d = repo.below candidate
      · exact hlast node (heq ▸ hnode)
      · exact plain d hbase hd' heq node hnode
    have hsome : candidate ++ [component] ≠ [] := by simp
    have hmeta (node : FileNode) : t.symlinkMetadata cwd repoDir (candidate ++ [component]) =
        .ok node ↔ t.lookup (repo.below (candidate ++ [component])) = some node :=
      FileTree.symlinkMetadata_eq_ok hrepo hdir hsome hnext
    rw [rejectLinksFrom]
    cases hfound : t.symlinkMetadata cwd repoDir (candidate ++ [component]) with
    | error e =>
      refine iff_of_false nofun fun h => ?_
      obtain ⟨node, hnode, -⟩ := h [component] (List.cons_ne_nil _ _) ⟨rest, rfl⟩
      rw [(hmeta node).mpr hnode] at hfound
      cases hfound
    | ok node =>
      have hnode := (hmeta node).mp hfound
      dsimp only
      split
      · rename_i hlink
        refine iff_of_false nofun fun h => ?_
        obtain ⟨node', hnode', hplain⟩ := h [component] (List.cons_ne_nil _ _) ⟨rest, rfl⟩
        rw [hnode] at hnode'
        cases hnode'
        rw [hlink] at hplain
        cases hplain
      · rename_i hlink
        have hown : ∀ node', t.lookup (repo.below (candidate ++ [component])) = some node' →
            node'.isLink = false := by
          intro node' hnode'
          rw [hnode] at hnode'
          cases hnode'
          simpa using hlink
        rw [ih hnext hown]
        constructor
        · intro h ns hne hstart
          cases ns with
          | nil => exact absurd rfl hne
          | cons first ns =>
            obtain ⟨rfl, hrest⟩ := List.cons_prefix_cons.mp hstart
            by_cases hempty : ns = []
            · rw [hempty]
              exact ⟨node, hnode, hown node hnode⟩
            · have hlater := h ns hempty hrest
              rw [List.append_assoc] at hlater
              exact hlater
        · intro h ns hne hstart
          have hlater := h (component :: ns) (List.cons_ne_nil _ _)
            (List.cons_prefix_cons.mpr ⟨rfl, hstart⟩)
          rw [List.append_assoc]
          exact hlater

theorem prefix_dropLast_iff {ns : List Name} (hne : path ≠ []) :
    ns <+: path.dropLast ↔ ns <+: path ∧ ns ≠ path := by
  constructor
  · intro h
    refine ⟨h.trans (List.dropLast_prefix path), ?_⟩
    rintro rfl
    have hlength := h.length_le
    have hpos := List.length_pos_of_ne_nil hne
    rw [List.length_dropLast] at hlength
    omega
  · rintro ⟨h, hns⟩
    have hlength : ns.length ≤ path.dropLast.length := by
      have hlt : ns.length ≠ path.length := fun heq => hns (h.eq_of_length heq)
      have hle := h.length_le
      rw [List.length_dropLast]
      omega
    exact List.prefix_of_prefix_length_le h (List.dropLast_prefix path) hlength

theorem rejectSymlinkAncestors_eq_ok (hrepo : t.canonicalize cwd repoDir = .ok repo)
    (hdir : t.lookup repo = some .dir) (hne : path ≠ []) :
    rejectSymlinkAncestors t cwd repoDir path = .ok () ↔ ¬ AncestorLost t repo path := by
  have hplain : t.Plain repo (repo.below []) := by
    intro d hbase hd hd'
    exact absurd (hd.eq_of_length (Nat.le_antisymm hd.length_le hbase.length_le)) hd'
  have hlast : ∀ node, t.lookup (repo.below []) = some node → node.isLink = false := by
    intro node hnode
    rw [Place.below_nil, hdir] at hnode
    cases hnode
    rfl
  rw [rejectSymlinkAncestors, rejectLinksFrom_eq_ok hrepo hdir hplain hlast, AncestorLost]
  simp only [List.nil_append, not_exists, not_and, not_forall]
  refine forall_congr' fun ns => forall_congr' fun _ => ?_
  rw [prefix_dropLast_iff hne]
  constructor
  · intro h hstart hns
    obtain ⟨node, hnode, hlink⟩ := h ⟨hstart, hns⟩
    exact ⟨node, hnode, by simp [hlink]⟩
  · rintro h ⟨hstart, hns⟩
    obtain ⟨node, hnode, hlink⟩ := h hstart hns
    exact ⟨node, hnode, by simpa using hlink⟩

end Ancestors

section Runs

variable {t : FileTree} {cwd repo : Place} {repoDir input : List UInt8} {path : List Name}
  {dataDir : Option (List Name)} {seen : List (List Name)} {before files : List (List UInt8)}

def isInside (dataDir : Option (List Name)) (path : List Name) : Bool :=
  dataDir.any fun dir => decide (dir <+: path)

/-- An input that is refused where those before it were taken. -/
def Rejected (dataDir : Option (List Name)) (t : FileTree) (repo : Place)
    (before : List (List UInt8)) (input : List UInt8) : Prop :=
  Unusable input ∨ ∃ path, Resolves (components input) path ∧ isInside dataDir path = false ∧
    ((∃ earlier ∈ before, Resolves (components earlier) path) ∨ AncestorLost t repo path)

def SomeRejected (dataDir : Option (List Name)) (t : FileTree) (repo : Place)
    (before files : List (List UInt8)) : Prop :=
  ∃ front input rest, files = front ++ input :: rest ∧
    Rejected dataDir t repo (before ++ front) input

/-- What the inputs resolve to, without what is in the data directory. -/
def Kept (dataDir : Option (List Name)) (files : List (List UInt8)) (out : List (List Name)) : Prop :=
  ∃ resolved, List.Forall₂ (fun input path => Resolves (components input) path) files resolved ∧
    out = resolved.filter fun path => !isInside dataDir path

theorem someRejected_cons : SomeRejected dataDir t repo before (input :: files) ↔
    Rejected dataDir t repo before input ∨ SomeRejected dataDir t repo (before ++ [input]) files := by
  constructor
  · rintro ⟨front, other, rest, heq, h⟩
    cases front with
    | nil =>
      cases heq
      rw [List.append_nil] at h
      exact .inl h
    | cons first front =>
      cases heq
      exact .inr ⟨front, other, rest, rfl, by simpa using h⟩
  · rintro (h | ⟨front, other, rest, rfl, h⟩)
    · exact ⟨[], input, files, rfl, by simpa using h⟩
    · exact ⟨input :: front, other, rest, rfl, by simpa using h⟩

/-- What has been seen: the paths before that are not in the data directory. -/
def SeenFrom (dataDir : Option (List Name)) (before : List (List UInt8)) (seen : List (List Name)) :
    Prop :=
  ∀ path, isInside dataDir path = false →
    (path ∈ seen ↔ ∃ earlier ∈ before, Resolves (components earlier) path)

theorem SeenFrom.skip (h : SeenFrom dataDir before seen) (hpath : Resolves (components input) path)
    (hinside : isInside dataDir path = true) : SeenFrom dataDir (before ++ [input]) seen := by
  intro other hother
  rw [h other hother]
  constructor
  · rintro ⟨earlier, hmem, hearlier⟩
    exact ⟨earlier, List.mem_append_left _ hmem, hearlier⟩
  · rintro ⟨earlier, hmem, hearlier⟩
    rcases List.mem_append.mp hmem with hmem | hmem
    · exact ⟨earlier, hmem, hearlier⟩
    · cases List.mem_singleton.mp hmem
      rw [hearlier.unique hpath, hinside] at hother
      cases hother

theorem SeenFrom.insert (h : SeenFrom dataDir before seen) (hpath : Resolves (components input) path) :
    SeenFrom dataDir (before ++ [input]) (path :: seen) := by
  intro other hother
  rw [List.mem_cons, h other hother]
  constructor
  · rintro (rfl | ⟨earlier, hmem, hearlier⟩)
    · exact ⟨input, by simp, hpath⟩
    · exact ⟨earlier, List.mem_append_left _ hmem, hearlier⟩
  · rintro ⟨earlier, hmem, hearlier⟩
    rcases List.mem_append.mp hmem with hmem | hmem
    · exact .inr ⟨earlier, hmem, hearlier⟩
    · cases List.mem_singleton.mp hmem
      exact .inl (hearlier.unique hpath)

/-- How a run over the inputs ends. -/
inductive Ends (dataDir : Option (List Name)) (t : FileTree) (repo : Place)
    (before : List (List UInt8)) (seen : List (List Name)) (files : List (List UInt8)) :
    Except CleanError (List (List Name)) → Prop
  | rejected {e : CleanError} : SomeRejected dataDir t repo before files →
    Ends dataDir t repo before seen files (.error e)
  | kept {out : List (List Name)} : ¬ SomeRejected dataDir t repo before files →
    Kept dataDir files out → out.Nodup → (∀ path ∈ out, path ∉ seen) →
      Ends dataDir t repo before seen files (.ok out)

theorem not_rejected_inside (hpath : Resolves (components input) path) (hne : path ≠ [])
    (hinside : isInside dataDir path = true) : ¬ Rejected dataDir t repo before input := by
  rintro (hunusable | ⟨other, hother, hout, -⟩)
  · exact unusable_iff.mp hunusable path (normalizeRelativePath_eq_ok.mpr ⟨hpath, hne⟩)
  · rw [hother.unique hpath, hinside] at hout
    cases hout

theorem not_rejected_new (hpath : Resolves (components input) path) (hne : path ≠ [])
    (hnew : ¬ ∃ earlier ∈ before, Resolves (components earlier) path)
    (hancestors : ¬ AncestorLost t repo path) : ¬ Rejected dataDir t repo before input := by
  rintro (hunusable | ⟨other, hother, -, hbad⟩)
  · exact unusable_iff.mp hunusable path (normalizeRelativePath_eq_ok.mpr ⟨hpath, hne⟩)
  · rw [hother.unique hpath] at hbad
    exact hbad.elim hnew hancestors

theorem cleanFrom_ends (hrepo : t.canonicalize cwd repoDir = .ok repo)
    (hdir : t.lookup repo = some .dir) (hseen : SeenFrom dataDir before seen) :
    Ends dataDir t repo before seen files (cleanFrom t cwd repoDir dataDir seen files) := by
  induction files generalizing before seen with
  | nil =>
    refine .kept ?_ ⟨[], .nil, rfl⟩ List.nodup_nil nofun
    rintro ⟨front, input, rest, heq, -⟩
    simp at heq
  | cons input files ih =>
    rw [cleanFrom]
    cases hnormalize : normalizeRelativePath (components input) with
    | error e =>
      refine .rejected (someRejected_cons.mpr (.inl (.inl (unusable_iff.mpr fun names => ?_))))
      rw [hnormalize]
      exact nofun
    | ok path =>
      obtain ⟨hpath, hne⟩ := normalizeRelativePath_eq_ok.mp hnormalize
      change Ends dataDir t repo before seen (input :: files) (if isInside dataDir path then
        cleanFrom t cwd repoDir dataDir seen files else _)
      cases hinside : isInside dataDir path with
      | true =>
        rw [if_pos rfl]
        have hrun := ih (hseen.skip hpath hinside)
        generalize cleanFrom t cwd repoDir dataDir seen files = result at hrun
        cases hrun with
        | rejected h => exact .rejected (someRejected_cons.mpr (.inr h))
        | kept hnone hkept hnodup hfresh =>
          refine .kept ?_ ?_ hnodup hfresh
          · rw [someRejected_cons]
            exact not_or.mpr ⟨not_rejected_inside hpath hne hinside, hnone⟩
          · obtain ⟨resolved, hresolved, rfl⟩ := hkept
            exact ⟨path :: resolved, .cons hpath hresolved, by simp [hinside]⟩
      | false =>
        rw [if_neg Bool.false_ne_true]
        by_cases hmem : path ∈ seen
        · rw [if_pos hmem]
          refine .rejected (someRejected_cons.mpr (.inl (.inr ⟨path, hpath, hinside, .inl ?_⟩)))
          exact (hseen path hinside).mp hmem
        · rw [if_neg hmem]
          have hancestors := rejectSymlinkAncestors_eq_ok hrepo hdir hne
          cases hreject : rejectSymlinkAncestors t cwd repoDir path with
          | error e =>
            refine .rejected (someRejected_cons.mpr (.inl (.inr ⟨path, hpath, hinside, .inr ?_⟩)))
            by_contra hlost
            rw [hancestors.mpr hlost] at hreject
            cases hreject
          | ok u =>
            have hrun := ih (hseen.insert hpath)
            have hnew : ¬ Rejected dataDir t repo before input := not_rejected_new hpath hne
              (fun h => hmem ((hseen path hinside).mpr h)) (hancestors.mp hreject)
            change Ends dataDir t repo before seen (input :: files)
              (cleanFrom t cwd repoDir dataDir (path :: seen) files >>= fun cleaned =>
                .ok (path :: cleaned))
            generalize cleanFrom t cwd repoDir dataDir (path :: seen) files = result at hrun
            cases hrun with
            | rejected h => exact .rejected (someRejected_cons.mpr (.inr h))
            | @kept out hnone hkept hnodup hfresh =>
              refine .kept ?_ ?_ ?_ ?_
              · rw [someRejected_cons]
                exact not_or.mpr ⟨hnew, hnone⟩
              · obtain ⟨resolved, hresolved, rfl⟩ := hkept
                exact ⟨path :: resolved, .cons hpath hresolved, by simp [hinside]⟩
              · refine List.nodup_cons.mpr ⟨fun hin => hfresh path hin List.mem_cons_self, hnodup⟩
              · intro other hother
                rcases List.mem_cons.mp hother with rfl | hother
                · exact hmem
                · exact fun hin => hfresh other hother (List.mem_cons_of_mem _ hin)

/-- What cleaning a list of files is for, where the data directory lies in the repository. -/
structure Cleaned (t : FileTree) (repo : Place) (dataDir : List Name) (files : List (List UInt8))
    (result : Except CleanError (List (List Name))) : Prop where
  fails : (∃ e, result = .error e) ↔ SomeRejected (some dataDir) t repo [] files
  returns : ∀ out, result = .ok out → Kept (some dataDir) files out
  distinct : ∀ out, result = .ok out → out.Nodup
  names : ∀ out, result = .ok out → ∀ path ∈ out, ∀ name ∈ path, IsName name

theorem Kept.isName {out : List (List Name)} (h : Kept dataDir files out) :
    ∀ path ∈ out, ∀ name ∈ path, IsName name := by
  obtain ⟨resolved, hresolved, rfl⟩ := h
  intro path hpath
  have hmem := List.mem_of_mem_filter hpath
  clear hpath
  induction hresolved with
  | nil => cases hmem
  | cons hinput _ ih =>
    rcases List.mem_cons.mp hmem with rfl | hmem
    · exact hinput.isName
    · exact ih hmem

theorem Kept.unique {out other : List (List Name)} (h : Kept dataDir files out)
    (h' : Kept dataDir files other) : out = other := by
  obtain ⟨resolved, hresolved, rfl⟩ := h
  obtain ⟨resolved', hresolved', rfl⟩ := h'
  have hsame : resolved = resolved' := by
    induction hresolved generalizing resolved' with
    | nil =>
      cases hresolved'
      rfl
    | cons hinput _ ih =>
      cases hresolved' with
      | cons hinput' hrest => rw [hinput.unique hinput', ih _ hrest]
  rw [hsame]

theorem Ends.cleaned {dir : List Name} {result : Except CleanError (List (List Name))}
    (h : Ends (some dir) t repo [] [] files result) : Cleaned t repo dir files result := by
  cases h with
  | rejected hrejected =>
    exact ⟨iff_of_true ⟨_, rfl⟩ hrejected, nofun, nofun, nofun⟩
  | kept hnone hkept hnodup hfresh =>
    refine ⟨iff_of_false nofun hnone, ?_, ?_, ?_⟩
    · intro out hout
      cases hout
      exact hkept
    · intro out hout
      cases hout
      exact hnodup
    · intro out hout
      cases hout
      exact hkept.isName

/-- Nothing of what the inputs resolve to lies in the data directory. -/
def NoneInside (dir : List Name) (files : List (List UInt8)) : Prop :=
  ∀ input ∈ files, ∀ path, Resolves (components input) path → ¬ dir <+: path

theorem someRejected_unfiltered {dir : List Name}
    (h : SomeRejected (some dir) t repo before files) : SomeRejected none t repo before files := by
  obtain ⟨front, input, rest, heq, hrejected⟩ := h
  refine ⟨front, input, rest, heq, hrejected.imp id ?_⟩
  rintro ⟨path, hpath, -, hbad⟩
  exact ⟨path, hpath, rfl, hbad⟩

theorem someRejected_filtered {dir : List Name} (hnone : NoneInside dir files)
    (h : SomeRejected none t repo before files) : SomeRejected (some dir) t repo before files := by
  obtain ⟨front, input, rest, rfl, hrejected⟩ := h
  refine ⟨front, input, rest, rfl, hrejected.imp id ?_⟩
  rintro ⟨path, hpath, -, hbad⟩
  have hout := hnone input (by simp) path hpath
  exact ⟨path, hpath, by simpa [isInside] using hout, hbad⟩

theorem kept_filtered {dir : List Name} {out : List (List Name)} (hnone : NoneInside dir files)
    (h : Kept none files out) : Kept (some dir) files out := by
  obtain ⟨resolved, hresolved, rfl⟩ := h
  refine ⟨resolved, hresolved, ?_⟩
  refine List.filter_congr fun path hpath => ?_
  obtain ⟨input, hinput, hinput'⟩ : ∃ input ∈ files, Resolves (components input) path := by
    clear hnone
    induction hresolved with
    | nil => cases hpath
    | @cons input first files resolved hfirst _ ih =>
      rcases List.mem_cons.mp hpath with rfl | hpath
      · exact ⟨input, List.mem_cons_self, hfirst⟩
      · obtain ⟨other, hother, hresolves⟩ := ih hpath
        exact ⟨other, List.mem_cons_of_mem _ hother, hresolves⟩
  have hout := hnone input hinput path hinput'
  simp [isInside, hout]

theorem noneInside_of_kept {dir : List Name} {out : List (List Name)} (h : Kept none files out)
    (h' : Kept (some dir) files out) : NoneInside dir files := by
  obtain ⟨resolved, hresolved, rfl⟩ := h
  have hout : ∀ path ∈ resolved, ¬ dir <+: path := by
    obtain ⟨resolved', hresolved', heq⟩ := h'
    intro path hpath
    have hmem : path ∈ resolved.filter fun path => !isInside none path := by
      simpa [isInside] using hpath
    rw [heq] at hmem
    simpa [isInside] using (List.mem_filter.mp hmem).2
  clear h'
  induction hresolved with
  | nil => exact nofun
  | @cons input first files resolved hfirst _ ih =>
    intro other hother path hpath
    rcases List.mem_cons.mp hother with rfl | hother
    · rw [hpath.unique hfirst]
      exact hout first List.mem_cons_self
    · exact ih (fun p hp => hout p (List.mem_cons_of_mem _ hp)) other hother path hpath

/-- Where the data directory is not recognized, inputs in it have to be refused otherwise. -/
theorem Ends.cleaned_iff {dir : List Name} {result : Except CleanError (List (List Name))}
    (h : Ends none t repo [] [] files result) : Cleaned t repo dir files result ↔
      SomeRejected (some dir) t repo [] files ∨ NoneInside dir files := by
  cases h with
  | rejected hrejected =>
    constructor
    · intro hcleaned
      exact .inl (hcleaned.fails.mp ⟨_, rfl⟩)
    · intro hcase
      refine ⟨iff_of_true ⟨_, rfl⟩ ?_, nofun, nofun, nofun⟩
      exact hcase.elim id fun hnone => someRejected_filtered hnone hrejected
  | @kept out hnone hkept hnodup hfresh =>
    constructor
    · intro hcleaned
      exact .inr (noneInside_of_kept hkept (hcleaned.returns out rfl))
    · rintro (hrejected | hinside)
      · exact absurd (someRejected_unfiltered hrejected) hnone
      · refine Ends.cleaned (.kept (fun hrejected => ?_) (kept_filtered hinside hkept) hnodup hfresh)
        exact hnone (someRejected_unfiltered hrejected)

end Runs

section Opening

variable {t : FileTree} {cwd repo : Place} {path dataDir : List UInt8} {opened : OpenedRepository}
  {dir : List Name}

theorem openWithDataDir_eq_ok (h : openWithDataDir t cwd path dataDir = .ok opened) :
    opened.path = path ∧ t.lookup opened.dataDir = some .dir := by
  obtain ⟨place, -, h⟩ := FileTree.bind_ok h
  split_ifs at h with hdir
  cases h
  exact ⟨rfl, hdir⟩

/-- A repository path that is spelled as the data directory's begins is the repository's place. -/
theorem spelled_below (hrepo : t.canonicalize cwd path = .ok repo)
    (hdir : t.lookup (repo.below dir) = some .dir)
    (hspelled : components path <+: FileTree.placeComponents (repo.below dir)) :
    stripPrefix (FileTree.placeComponents (repo.below dir)) (components path) =
      some (dir.map .normal) := by
  have hpath : path ≠ [] := by
    rintro rfl
    cases hrepo
  obtain ⟨names, hnames, -, hcanonical⟩ := FileTree.canonicalize_lexical hpath hspelled hdir
  rw [hrepo] at hcanonical
  have hplace : repo = names.reverse := Except.ok.inj hcanonical
  rw [stripPrefix, if_pos hspelled, hnames, FileTree.placeComponents, Place.below, hplace]
  simp

theorem normalize_names (names : List Name) (hne : names ≠ []) :
    normalizeRelativePath (names.map .normal) = .ok names :=
  normalizeRelativePath_eq_ok.mpr ⟨.names names, hne⟩

theorem normalize_empty : normalizeRelativePath [] = .error (.noFileComponent []) := rfl

/-- A list of files is cleaned as it should be exactly where the data directory is recognized
from how the repository's path is spelled and is not the repository itself, or where a file is
refused anyway, or where the data directory is not recognized and no file is in it. A path that
has been normalized is not changed by normalizing it again. -/
theorem clean_file_list_iff (hopened : openWithDataDir t cwd path dataDir = .ok opened)
    (hrepo : t.canonicalize cwd path = .ok repo) (hinside : opened.dataDir = repo.below dir)
    (files : List (List UInt8)) :
    (Cleaned t repo dir files (cleanFileList t cwd opened.path opened.dataDir files) ↔
      (components path <+: FileTree.placeComponents opened.dataDir ∧ dir ≠ []) ∨
        SomeRejected (some dir) t repo [] files ∨
        (¬ components path <+: FileTree.placeComponents opened.dataDir ∧ NoneInside dir files)) ∧
      ∀ input names, normalizeRelativePath (components input) = .ok names →
        normalizeRelativePath (components (UnixPath.ofNames names)) = .ok names := by
  obtain ⟨hpath, hdata⟩ := openWithDataDir_eq_ok hopened
  rw [hpath, hinside]
  rw [hinside] at hdata
  have hroot : t.lookup repo = some .dir := by
    by_cases hempty : dir = []
    · rw [hempty] at hdata
      exact hdata
    · exact t.around_dir (by rw [hdata]; rfl) (Place.suffix_below _ _) (Place.ne_below hempty)
  have hseen (found : Option (List Name)) : SeenFrom found [] [] := by
    intro path _
    simp
  constructor
  · by_cases hspelled : components path <+: FileTree.placeComponents (repo.below dir)
    · rw [cleanFileList, spelled_below hrepo hdata hspelled]
      by_cases hempty : dir = []
      · -- The data directory is the repository, whose path within itself is refused.
        rw [hempty]
        have hfails : (∃ e, (Except.error (.noFileComponent []) :
            Except CleanError (List (List Name))) = .error e) := ⟨_, rfl⟩
        constructor
        · intro hcleaned
          exact .inr (.inl (hcleaned.fails.mp hfails))
        · intro hcase
          have hrejected : SomeRejected (some []) t repo [] files := by
            rcases hcase with hcase | hcase | hcase
            · exact absurd rfl hcase.2
            · exact hcase
            · rw [hempty] at hspelled
              exact absurd hspelled hcase.1
          exact ⟨iff_of_true hfails hrejected, nofun, nofun, nofun⟩
      · refine iff_of_true ?_ (.inl ⟨hspelled, hempty⟩)
        dsimp only
        rw [normalize_names dir hempty]
        exact (cleanFrom_ends hrepo hroot (hseen _)).cleaned
    · have hnone : stripPrefix (FileTree.placeComponents (repo.below dir)) (components path) = none :=
        if_neg hspelled
      rw [cleanFileList, hnone]
      refine (cleanFrom_ends hrepo hroot (hseen none)).cleaned_iff.trans ?_
      simp [hspelled]
  · intro input names h
    obtain ⟨hresolves, hne⟩ := normalizeRelativePath_eq_ok.mp h
    rw [UnixPath.components_ofNames hne hresolves.isName]
    exact normalize_names names hne

end Opening

namespace CleanSample

open FileTree

/-- A directory `r`. -/
def repository : FileTree := FileTree.empty.put [114] [] .dir FileTree.empty.rooted (by decide)

/-- And the data directory `d` in it. -/
def withData : FileTree := repository.put [100] [[114]] .dir rfl (by decide)

def withObject : FileTree := withData.put [120] [[100], [114]] (.file [] 420 0) rfl (by decide)

/-- And a link `l` to `r`. -/
def linked : FileTree := withObject.put [108] [] (.link [114] 0) rfl (by decide)

/-- The path `/r`, or the path `/l`. -/
def pathTo (name : UInt8) : List UInt8 := [47, name]

def dataPathTo (name : UInt8) : List UInt8 := [47, name, 47, 100]

/-- The path `d/x`. -/
def object : List UInt8 := [100, 47, 120]

theorem opened (name : UInt8) (h : name = 114 ∨ name = 108) :
    openWithDataDir linked [] (pathTo name) (dataPathTo name) =
        .ok ⟨pathTo name, [[100], [114]]⟩ ∧
      linked.canonicalize [] (pathTo name) = .ok [[114]] := by
  rcases h with rfl | rfl
  · exact ⟨rfl, rfl⟩
  · exact ⟨rfl, rfl⟩

theorem object_path : Resolves (components object) [[100], [120]] := .names [[100], [120]]

end CleanSample

theorem clean_file_list_canonical :
    (Cleaned CleanSample.linked [[114]] [[100]] [CleanSample.object]
        (cleanFileList CleanSample.linked [] (CleanSample.pathTo 114) [[100], [114]]
          [CleanSample.object]) ↔
      (components (CleanSample.pathTo 114) <+: FileTree.placeComponents [[100], [114]] ∧
          [[100]] ≠ ([] : List Name)) ∨
        SomeRejected (some [[100]]) CleanSample.linked [[114]] [] [CleanSample.object] ∨
        (¬ components (CleanSample.pathTo 114) <+: FileTree.placeComponents [[100], [114]] ∧
          NoneInside [[100]] [CleanSample.object])) ∧
      ∀ input names, normalizeRelativePath (components input) = .ok names →
        normalizeRelativePath (components (UnixPath.ofNames names)) = .ok names :=
  clean_file_list_iff (CleanSample.opened 114 (.inl rfl)).1 (CleanSample.opened 114 (.inl rfl)).2 rfl
    [CleanSample.object]

/-- Through a link to the repository, an object of the data directory is taken for a file. -/
theorem clean_file_list_linked : ¬ ∀ (t : FileTree) (cwd repo : Place) (path dataDir : List UInt8)
    (opened : OpenedRepository) (dir : List Name) (files : List (List UInt8)),
    openWithDataDir t cwd path dataDir = .ok opened → t.canonicalize cwd path = .ok repo →
      opened.dataDir = repo.below dir → dir ≠ [] →
      Cleaned t repo dir files (cleanFileList t cwd opened.path opened.dataDir files) := by
  intro h
  obtain ⟨hopened, hrepo⟩ := CleanSample.opened 108 (.inr rfl)
  have hcleaned := h CleanSample.linked [] [[114]] _ _ _ [[100]] [CleanSample.object] hopened hrepo
    rfl (List.cons_ne_nil _ _)
  have hkept : Kept (some [[100]]) [CleanSample.object] [[[100], [120]]] :=
    hcleaned.returns [[[100], [120]]] rfl
  have hnone : Kept (some [[100]]) [CleanSample.object] [] :=
    ⟨[[[100], [120]]], .cons CleanSample.object_path .nil, rfl⟩
  cases hkept.unique hnone

end Elfshaker.Store
