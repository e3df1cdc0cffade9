import Elfshaker.Library.FileTree
import Elfshaker.Library.LexicalPath

namespace Elfshaker.Library.FileTree

open UnixPath (Component components parseComponent hasRoot)

/-- `fs::canonicalize`, without the spelling of the result. -/
def canonicalize (t : FileTree) (cwd : Place) (path : List UInt8) : Except Refusal Place :=
  if path = [] then .error .notFound
  else do
    let place ← t.resolveWithin true linkLimit (linkBase cwd path) (stepsOf path)
    match t.lookup place with
    | some _ => .ok place
    | none => .error .notFound

/-- `fs::symlink_metadata` of names that were pushed onto a path. -/
def symlinkMetadata (t : FileTree) (cwd : Place) (path : List UInt8) (names : List Name) :
    Except Refusal FileNode := do
  let place ← t.resolveWithin false linkLimit (linkBase cwd path)
    (stepsOf path ++ names.map .into)
  match t.lookup place with
  | some node => .ok node
  | none => .error .notFound

/-- The components of the path of a place. -/
def placeComponents (place : Place) : List Component :=
  .rootDir :: place.reverse.map .normal

variable {t : FileTree}

theorem bind_ok {x : Except ε α} {f : α → Except ε β} {b : β} (h : (x >>= f) = .ok b) :
    ∃ a, x = .ok a ∧ f a = .ok b := by
  cases x with
  | error e => cases h
  | ok a => exact ⟨a, rfl, h⟩

theorem resolveWithin_walk (t : FileTree) (follow : Bool) (n : Nat) :
    ∃ cross, t.resolveWithin follow n = t.walk follow cross := by
  cases n with
  | zero => exact ⟨_, rfl⟩
  | succ n => exact ⟨_, rfl⟩

/-- A walk that ended in a directory goes on from there. -/
theorem walk_append {follow : Bool}
    {cross cross' : Place → List UInt8 → List Step → Except Refusal Place} {place : Place}
    {more : List Step} {P : Except Refusal Place → Prop} (hplace : t.lookup place = some .dir)
    (hmore : more ≠ []) (hend : P (t.walk follow cross' place more))
    (hcross : ∀ p target rest, cross p target rest = .ok place →
      P (cross' p target (rest ++ more)))
    {base : Place} {steps : List Step} (h : t.walk true cross base steps = .ok place) :
    P (t.walk follow cross' base (steps ++ more)) := by
  induction steps generalizing base with
  | nil =>
    cases h
    exact hend
  | cons step rest ih =>
    cases step with
    | stay => exact ih h
    | up => exact ih h
    | into name =>
      have hrest : rest ++ more ≠ [] := fun heq => hmore (List.append_eq_nil_iff.mp heq).2
      have there (hlookup : t.lookup (name :: base) ≠ some .dir)
          (heq : (.ok (name :: base) : Except Refusal Place) = .ok place) : False :=
        hlookup (Except.ok.inj heq ▸ hplace)
      rw [List.cons_append, walk]
      rw [walk] at h
      cases hnode : t.lookup (name :: base) with
      | none =>
        rw [hnode] at h
        dsimp only at h
        split_ifs at h
        exact (there (by simp [hnode]) h).elim
      | some node =>
        rw [hnode] at h
        cases node with
        | dir => exact ih h
        | file bytes mode mtime =>
          dsimp only at h
          split_ifs at h
          exact (there (by simp [hnode]) h).elim
        | link target mtime =>
          dsimp only at h ⊢
          rw [if_neg (by simp)] at h
          rw [if_neg fun hstop => hrest hstop.1]
          exact hcross _ _ _ h

theorem resolveWithin_append (follow : Bool) {n : Nat} {base place : Place} {steps more : List Step}
    (h : t.resolveWithin true n base steps = .ok place) (hplace : t.lookup place = some .dir)
    (hmore : more ≠ []) :
    ∃ m, t.resolveWithin follow n base (steps ++ more) = t.resolveWithin follow m place more := by
  induction n generalizing base steps with
  | zero =>
    refine walk_append (P := fun r => ∃ m, r = t.resolveWithin follow m place more) hplace hmore
      ⟨0, rfl⟩ (fun p target rest hcross => ?_) h
    cases hcross
  | succ n ih =>
    refine walk_append (P := fun r => ∃ m, r = t.resolveWithin follow m place more) hplace hmore
      ⟨n + 1, rfl⟩ (fun p target rest hcross => ?_) h
    rw [← List.append_assoc]
    exact ih hcross

/-- What is said of names in a directory that no link is met on the way to. -/
theorem symlinkMetadata_eq_ok {cwd place : Place} {path : List UInt8} {names : List Name}
    (hpath : t.canonicalize cwd path = .ok place) (hplace : t.lookup place = some .dir)
    (hnames : names ≠ []) (plain : t.Plain place (place.below names)) {node : FileNode} :
    t.symlinkMetadata cwd path names = .ok node ↔ t.lookup (place.below names) = some node := by
  unfold canonicalize at hpath
  split_ifs at hpath
  obtain ⟨found, hfound, hpath⟩ := bind_ok hpath
  have hsame : found = place := by
    split at hpath
    · exact Except.ok.inj hpath
    · cases hpath
  subst hsame
  have hsteps : names.map Step.into ≠ [] := fun heq => hnames (List.map_eq_nil_iff.mp heq)
  obtain ⟨m, hm⟩ := resolveWithin_append false hfound hplace hsteps
  obtain ⟨cross, hcross⟩ := resolveWithin_walk t false m
  rw [symlinkMetadata, hm, hcross]
  constructor
  · intro h
    obtain ⟨last, hlast, h⟩ := bind_ok h
    rw [walk_plain hplace plain endsPlain_false hlast] at h
    split at h
    · rename_i hnode
      rw [hnode, Except.ok.inj h]
    · cases h
  · intro h
    have hwalk : t.walk false cross found (names.map .into) = .ok (found.below names) :=
      walk_present h fun hfollow => nomatch hfollow
    rw [hwalk]
    simp only [bind, Except.bind, h]

/-- A path without dots or links is walked by its names. -/
theorem walk_parts {follow : Bool}
    {cross : Place → List UInt8 → List Step → Except Refusal Place} {base : Place}
    {parts : List (List UInt8)} {names : List Name}
    (h : parts.filterMap parseComponent = names.map .normal)
    (hdir : t.lookup (base.below names) = some .dir) :
    t.walk follow cross base (parts.map stepOf) = .ok (base.below names) := by
  induction parts generalizing base names with
  | nil =>
    have hnames : names = [] := List.map_eq_nil_iff.mp h.symm
    rw [hnames]
    rfl
  | cons part parts ih =>
    rw [List.map_cons]
    by_cases hempty : part = [] ∨ part = [46]
    · have hstay : stepOf part = .stay := if_pos hempty
      have hnone : parseComponent part = none := by
        rcases hempty with rfl | rfl <;> rfl
      rw [List.filterMap_cons_none hnone] at h
      rw [hstay]
      exact ih h hdir
    · obtain ⟨hne, hdot⟩ := not_or.mp hempty
      by_cases hparent : part = [46, 46]
      · have hup : parseComponent part = some .parentDir := by
          rw [hparent]
          rfl
        rw [List.filterMap_cons_some hup] at h
        cases names with
        | nil => cases h
        | cons name names => cases h
      · rw [List.filterMap_cons_some (UnixPath.parseComponent_normal hne hdot hparent)] at h
        cases names with
        | nil => cases h
        | cons name names =>
          obtain ⟨hname, hrest⟩ := List.cons.inj h
          cases hname
          have hinto : stepOf part = .into part := by
            rw [stepOf, if_neg hempty, if_neg hparent]
          rw [Place.below_cons] at hdir ⊢
          have hpart : t.lookup (part :: base) = some .dir := by
            by_cases hlast : names = []
            · rw [hlast] at hdir
              exact hdir
            · exact t.around_dir (by rw [hdir]; rfl) (Place.suffix_below _ _) (Place.ne_below hlast)
          rw [hinto, walk, hpart]
          exact ih hrest hdir

/-- A path that spells how a directory is reached from the root is canonical itself. -/
theorem canonicalize_lexical {cwd dir : Place} {path : List UInt8} (hpath : path ≠ [])
    (hstart : components path <+: placeComponents dir) (hdir : t.lookup dir = some .dir) :
    ∃ names, components path = .rootDir :: names.map .normal ∧ names <+: dir.reverse ∧
      t.canonicalize cwd path = .ok names.reverse := by
  obtain ⟨first, rest, hcomponents⟩ :=
    List.exists_cons_of_ne_nil (UnixPath.components_ne_nil hpath)
  rw [hcomponents, placeComponents, List.cons_prefix_cons] at hstart
  obtain ⟨rfl, hrest⟩ := hstart
  have htake : rest = (dir.reverse.take rest.length).map .normal := by
    rw [List.map_take]
    exact List.prefix_iff_eq_take.mp hrest
  generalize hnames : dir.reverse.take rest.length = names at htake
  have hbelow : names <+: dir.reverse := hnames ▸ List.take_prefix _ _
  have hroot : hasRoot path = true :=
    UnixPath.rootDir_mem_iff.mp (hcomponents ▸ List.mem_cons_self)
  have hbody : (path.splitOn 47).filterMap parseComponent = names.map .normal := by
    have hsplit : components path = .rootDir :: UnixPath.body path := if_pos hroot
    rw [hsplit, htake] at hcomponents
    exact (List.cons.inj hcomponents).2
  have hplace : t.lookup (Place.below [] names) = some .dir := by
    have hsuffix : Place.below [] names <:+ Place.below [] dir.reverse :=
      Place.below_suffix_iff.mpr hbelow
    have hself : Place.below [] dir.reverse = dir := by simp [Place.below]
    rw [hself] at hsuffix
    by_cases heq : Place.below [] names = dir
    · rw [heq, hdir]
    · exact t.around_dir (by rw [hdir]; rfl) hsuffix heq
  have hreverse : Place.below [] names = names.reverse := List.append_nil _
  refine ⟨names, by rw [hcomponents, htake], hbelow, ?_⟩
  have hbase : linkBase cwd path = [] := if_pos (beq_iff_eq.mp hroot)
  obtain ⟨cross, hcross⟩ := resolveWithin_walk t true linkLimit
  have hwalk : t.walk true cross [] (stepsOf path) = .ok (Place.below [] names) :=
    walk_parts hbody hplace
  rw [canonicalize, if_neg hpath, hbase, hcross, hwalk, ← hreverse]
  simp only [bind, Except.bind, hplace]

end Elfshaker.Library.FileTree
