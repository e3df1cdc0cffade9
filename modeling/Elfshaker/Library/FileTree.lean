import Mathlib.Algebra.GroupWithZero.Nat
import Mathlib.Data.List.AList
import Mathlib.Data.List.Infix
import Mathlib.Tactic.SplitIfs

namespace Elfshaker.Library

abbrev Name := List UInt8

/-- Where something lies: its own name, then those of the directories around it. -/
abbrev Place := List Name

/-- Names that lead down from a directory. -/
def Place.below (base : Place) (names : List Name) : Place := names.reverse ++ base

namespace Place

@[simp] theorem below_nil (base : Place) : base.below [] = base := rfl

theorem below_cons (base : Place) (name : Name) (names : List Name) :
    base.below (name :: names) = below (name :: base) names := by
  simp [below]

theorem below_concat (base : Place) (names : List Name) (name : Name) :
    base.below (names ++ [name]) = name :: base.below names := by
  simp [below]

theorem below_append (base : Place) (names more : List Name) :
    base.below (names ++ more) = (base.below names).below more := by
  simp [below]

theorem suffix_below (base : Place) (names : List Name) : base <:+ base.below names :=
  List.suffix_append _ _

theorem below_injective {base : Place} {names others : List Name}
    (h : base.below names = base.below others) : names = others :=
  List.reverse_injective (List.append_cancel_right h)

theorem ne_below {base : Place} {names : List Name} (h : names ≠ []) : base ≠ base.below names := by
  intro heq
  exact h (List.reverse_eq_nil_iff.mp (List.append_left_eq_self.mp heq.symm))

theorem below_suffix_iff {base : Place} {names others : List Name} :
    base.below names <:+ base.below others ↔ names <+: others := by
  constructor
  · rintro ⟨more, h⟩
    rw [below, below, ← List.append_assoc] at h
    have hnames := congrArg List.reverse (List.append_cancel_right h)
    rw [List.reverse_append, List.reverse_reverse, List.reverse_reverse] at hnames
    exact ⟨more.reverse, hnames⟩
  · rintro ⟨more, rfl⟩
    rw [below_append]
    exact suffix_below _ _

/-- What lies between a directory and something in it is reached by some of the names. -/
theorem exists_below {base d : Place} {names : List Name} (hbase : base <:+ d)
    (hd : d <:+ base.below names) : ∃ ns, ns <+: names ∧ d = base.below ns := by
  obtain ⟨front, rfl⟩ := hbase
  have h : front ++ base = base.below front.reverse := by simp [below]
  rw [h] at hd ⊢
  exact ⟨front.reverse, below_suffix_iff.mp hd, rfl⟩

theorem tail_suffix {d : Place} {name : Name} {dir : Place} (h : d <:+ name :: dir)
    (hne : d ≠ name :: dir) : d <:+ dir :=
  (List.suffix_cons_iff.mp h).resolve_left hne

end Place

/-- The permission bits of a file. -/
abbrev Permissions := Fin 4096

instance permissionsNeZero : NeZero (4096 : Nat) := ⟨by decide⟩

/-- What a place holds. -/
inductive FileNode where
  | dir
  | file (bytes : List UInt8) (mode : Permissions) (mtime : Nat)
  | link (target : List UInt8) (mtime : Nat)
  deriving DecidableEq

namespace FileNode

def isDir : FileNode → Bool
  | .dir => true
  | _ => false

def isFile : FileNode → Bool
  | .file _ _ _ => true
  | _ => false

def isLink : FileNode → Bool
  | .link _ _ => true
  | _ => false

theorem isDir_iff {node : FileNode} : node.isDir = true ↔ node = .dir := by
  cases node <;> simp [isDir]

end FileNode

/-- Why a file system refuses what it is asked to do. -/
inductive Refusal where
  | notFound
  | alreadyExists
  | notADirectory
  | isADirectory
  | directoryNotEmpty
  | filesystemLoop
  | invalidInput
  | busy
  deriving DecidableEq, Repr

/-- A file system: whatever is there lies in a directory. -/
structure FileTree where
  nodes : AList fun _ : Place => FileNode
  rooted : nodes.lookup [] = some .dir
  closed : ∀ name dir, (nodes.lookup (name :: dir)).isSome → nodes.lookup dir = some .dir

namespace FileTree

def lookup (t : FileTree) (p : Place) : Option FileNode := t.nodes.lookup p

/-- Whatever lies around something is a directory. -/
theorem around_dir {t : FileTree} {d p : Place} (hp : (t.lookup p).isSome) (hd : d <:+ p)
    (hne : d ≠ p) : t.lookup d = some .dir := by
  induction p with
  | nil => exact absurd (List.suffix_nil.mp hd) hne
  | cons name dir ih =>
    have hdir : t.lookup dir = some .dir := t.closed name dir hp
    have hsuffix := Place.tail_suffix hd hne
    by_cases heq : d = dir
    · rw [heq, hdir]
    · exact ih (by rw [hdir]; rfl) hsuffix heq

/-- A file system with nothing in it. -/
def empty : FileTree where
  nodes := AList.singleton [] .dir
  rooted := rfl
  closed := by
    intro name dir h
    rw [AList.lookup_isSome, AList.mem_keys, AList.keys_singleton, List.mem_singleton] at h
    cases h

/-- Puts something into a directory, in place of what is not a directory. -/
def put (t : FileTree) (name : Name) (dir : Place) (node : FileNode)
    (hdir : t.lookup dir = some .dir) (hfree : t.lookup (name :: dir) ≠ some .dir) : FileTree where
  nodes := t.nodes.insert (name :: dir) node
  rooted := by
    rw [AList.lookup_insert_ne (List.cons_ne_nil _ _).symm]
    exact t.rooted
  closed := by
    intro name' dir' h
    have hparent : t.lookup dir' = some .dir := by
      by_cases heq : name' :: dir' = name :: dir
      · obtain ⟨-, rfl⟩ := List.cons.inj heq
        exact hdir
      · rw [AList.lookup_insert_ne heq] at h
        exact t.closed name' dir' h
    have hne : dir' ≠ name :: dir := by
      intro heq
      rw [heq] at hparent
      exact hfree hparent
    rw [AList.lookup_insert_ne hne]
    exact hparent

@[simp] theorem lookup_put {t : FileTree} {name : Name} {dir : Place} {node : FileNode}
    {hdir : t.lookup dir = some .dir} {hfree : t.lookup (name :: dir) ≠ some .dir} (p : Place) :
    (t.put name dir node hdir hfree).lookup p =
      if p = name :: dir then some node else t.lookup p := by
  have hnodes : (t.put name dir node hdir hfree).lookup p =
      (t.nodes.insert (name :: dir) node).lookup p := rfl
  rw [hnodes]
  by_cases h : p = name :: dir
  · rw [if_pos h, h, AList.lookup_insert]
  · rw [if_neg h, AList.lookup_insert_ne h]
    rfl

/-- The entries that are not at or below a place. -/
def apartFrom (nodes : AList fun _ : Place => FileNode) (p : Place) :
    AList fun _ : Place => FileNode where
  entries := nodes.entries.filter fun entry => !decide (p <:+ entry.1)
  nodupKeys := List.NodupKeys.sublist List.filter_sublist nodes.nodupKeys

theorem lookup_apartFrom (nodes : AList fun _ : Place => FileNode) (p q : Place) :
    (apartFrom nodes p).lookup q = if p <:+ q then none else nodes.lookup q := by
  apply Option.ext
  intro node
  have hmem : node ∈ (apartFrom nodes p).lookup q ↔ node ∈ nodes.lookup q ∧ ¬ p <:+ q := by
    rw [AList.mem_lookup_iff, AList.mem_lookup_iff, apartFrom, List.mem_filter]
    simp
  rw [Option.mem_def, Option.mem_def] at hmem
  rw [hmem]
  split_ifs with h <;> simp [h]

/-- Takes away a place with all there is below it. -/
def prune (t : FileTree) (p : Place) (hp : p ≠ []) : FileTree where
  nodes := apartFrom t.nodes p
  rooted := by
    rw [lookup_apartFrom, if_neg fun h => hp (List.suffix_nil.mp h)]
    exact t.rooted
  closed := by
    intro name dir h
    rw [lookup_apartFrom] at h ⊢
    split_ifs at h with hsuffix
    · cases h
    · rw [if_neg fun hdir => hsuffix (List.suffix_cons_iff.mpr (.inr hdir))]
      exact t.closed name dir h

@[simp] theorem lookup_prune {t : FileTree} {p : Place} {hp : p ≠ []} (q : Place) :
    (t.prune p hp).lookup q = if p <:+ q then none else t.lookup q :=
  lookup_apartFrom t.nodes p q

/-- A step on the way that a path describes. -/
inductive Step where
  | stay
  | up
  | into (name : Name)
  deriving DecidableEq

/-- The steps of the target of a link; a trailing separator asks for a directory. -/
def stepOf (component : Name) : Step :=
  if component = [] ∨ component = [46] then .stay
  else if component = [46, 46] then .up
  else .into component

def stepsOf (target : List UInt8) : List Step := (target.splitOn 47).map stepOf

/-- Walks on from a directory. `cross` goes on where a link is met on the way, and
where one is met at the end and is to be followed. -/
def walk (t : FileTree) (follow : Bool) (cross : Place → List UInt8 → List Step → Except Refusal Place) :
    Place → List Step → Except Refusal Place
  | place, [] => .ok place
  | place, .stay :: rest => walk t follow cross place rest
  | place, .up :: rest => walk t follow cross place.tail rest
  | place, .into name :: rest =>
    match t.lookup (name :: place) with
    | none => if rest = [] then .ok (name :: place) else .error .notFound
    | some .dir => walk t follow cross (name :: place) rest
    | some (.file _ _ _) => if rest = [] then .ok (name :: place) else .error .notADirectory
    | some (.link target _) =>
      if rest = [] ∧ follow = false then .ok (name :: place) else cross place target rest

/-- Where the target of a link is looked up from. -/
def linkBase (place : Place) (target : List UInt8) : Place :=
  if target.head? = some 47 then [] else place

/-- How many links the system follows in one path. -/
def linkLimit : Nat := 40

def resolveWithin (t : FileTree) (follow : Bool) : Nat → Place → List Step → Except Refusal Place
  | 0 => t.walk follow fun _ _ _ => .error .filesystemLoop
  | n + 1 => t.walk follow fun place target rest =>
    resolveWithin t follow n (linkBase place target) (stepsOf target ++ rest)

/-- The place that a path leads to from a directory. -/
def resolve (t : FileTree) (follow : Bool) (base : Place) (names : List Name) :
    Except Refusal Place :=
  t.resolveWithin follow linkLimit base (names.map .into)

/-- What is at the end of a path, and what it says of a link there. -/
def find (t : FileTree) (follow : Bool) (base : Place) (names : List Name) :
    Except Refusal FileNode := do
  let place ← t.resolve follow base names
  match t.lookup place with
  | some node => .ok node
  | none => .error .notFound

/-- No link is met on the way to a place. -/
def Plain (t : FileTree) (base place : Place) : Prop :=
  ∀ d, base <:+ d → d <:+ place → d ≠ place → ∀ node, t.lookup d = some node → node.isLink = false

/-- A link at the end of a path is followed only where this is asked for. -/
def EndsPlain (t : FileTree) (follow : Bool) (place : Place) : Prop :=
  follow = true → ∀ node, t.lookup place = some node → node.isLink = false

theorem endsPlain_false {t : FileTree} {place : Place} : t.EndsPlain false place := nofun

theorem walk_plain {t : FileTree} {follow : Bool}
    {cross : Place → List UInt8 → List Step → Except Refusal Place} {base : Place}
    {names : List Name} (hbase : t.lookup base = some .dir)
    (plain : t.Plain base (base.below names)) (ends : t.EndsPlain follow (base.below names))
    {place : Place} (h : t.walk follow cross base (names.map .into) = .ok place) :
    place = base.below names := by
  induction names generalizing base with
  | nil =>
    cases h
    rfl
  | cons name names ih =>
    rw [Place.below_cons] at plain ends ⊢
    rw [List.map_cons, walk] at h
    by_cases hlast : names = []
    · subst hlast
      simp only [List.map_nil, if_true, true_and] at h
      split at h
      · exact (Except.ok.inj h).symm
      · exact (Except.ok.inj h).symm
      · exact (Except.ok.inj h).symm
      · rename_i hfound
        split_ifs at h with hstop
        · exact (Except.ok.inj h).symm
        · exact absurd (ends (Bool.not_eq_false _ |>.mp hstop) _ hfound) (by simp [FileNode.isLink])
    · have hne : (name :: base) ≠ Place.below (name :: base) names :=
        Place.ne_below hlast
      have hmap : names.map Step.into ≠ [] := fun heq => hlast (List.map_eq_nil_iff.mp heq)
      have hlink := plain (name :: base) (List.suffix_cons _ _) (Place.suffix_below _ _) hne
      split at h
      · rw [if_neg hmap] at h
        cases h
      · rename_i hdir
        exact ih hdir (fun d hd => plain d ((List.suffix_cons _ _).trans hd)) ends h
      · rw [if_neg hmap] at h
        cases h
      · rename_i hfound
        exact absurd (hlink _ hfound) (by simp [FileNode.isLink])

/-- A place without a link on the way that cannot be reached is not there. -/
theorem walk_refused {t : FileTree}
    {cross : Place → List UInt8 → List Step → Except Refusal Place} {base : Place}
    {names : List Name} (plain : t.Plain base (base.below names)) {e : Refusal}
    (h : t.walk false cross base (names.map .into) = .error e) :
    (e = .notFound ∨ e = .notADirectory) ∧ t.lookup (base.below names) = none := by
  induction names generalizing base with
  | nil => cases h
  | cons name names ih =>
    rw [Place.below_cons] at plain ⊢
    rw [List.map_cons, walk] at h
    by_cases hlast : names = []
    · subst hlast
      simp only [List.map_nil, if_true, true_and] at h
      split at h <;> cases h
    · have hne : (name :: base) ≠ Place.below (name :: base) names :=
        Place.ne_below hlast
      have hmap : names.map Step.into ≠ [] := fun heq => hlast (List.map_eq_nil_iff.mp heq)
      have hlink := plain (name :: base) (List.suffix_cons _ _) (Place.suffix_below _ _) hne
      have missing (hdir : t.lookup (name :: base) ≠ some .dir) :
          t.lookup (Place.below (name :: base) names) = none := by
        by_contra hpresent
        exact hdir (t.around_dir (Option.isSome_iff_ne_none.mpr hpresent)
          (Place.suffix_below _ _) hne)
      split at h
      · rename_i hnone
        rw [if_neg hmap] at h
        cases h
        exact ⟨.inl rfl, missing (by rw [hnone]; exact nofun)⟩
      · exact ih (fun d hd => plain d ((List.suffix_cons _ _).trans hd)) h
      · rename_i hfile
        rw [if_neg hmap] at h
        cases h
        exact ⟨.inr rfl, missing (by rw [hfile]; exact nofun)⟩
      · rename_i hfound
        exact absurd (hlink _ hfound) (by simp [FileNode.isLink])

/-- What lies below a directory is reached by its names. -/
theorem walk_present {t : FileTree} {follow : Bool}
    {cross : Place → List UInt8 → List Step → Except Refusal Place} {base : Place}
    {names : List Name} {node : FileNode} (h : t.lookup (base.below names) = some node)
    (hfollow : follow = true → node.isLink = false) :
    t.walk follow cross base (names.map .into) = .ok (base.below names) := by
  induction names generalizing base with
  | nil => rfl
  | cons name names ih =>
    rw [Place.below_cons] at h ⊢
    rw [List.map_cons, walk]
    by_cases hlast : names = []
    · subst hlast
      rw [Place.below_nil] at h
      rw [h]
      cases node with
      | dir => rfl
      | file bytes mode mtime => rfl
      | link target mtime =>
        have hstop : follow = false := by
          cases follow with
          | false => rfl
          | true => exact absurd (hfollow rfl) (by simp [FileNode.isLink])
        simp [hstop]
    · have hne : (name :: base) ≠ Place.below (name :: base) names :=
        Place.ne_below hlast
      rw [t.around_dir (by rw [h]; rfl) (Place.suffix_below _ _) hne]
      exact ih h

section Resolve

variable {t : FileTree} {base : Place} {names : List Name}

theorem resolve_plain {follow : Bool} (hbase : t.lookup base = some .dir)
    (plain : t.Plain base (base.below names)) (ends : t.EndsPlain follow (base.below names))
    {place : Place} (h : t.resolve follow base names = .ok place) : place = base.below names :=
  walk_plain hbase plain ends h

theorem resolve_refused (plain : t.Plain base (base.below names)) {e : Refusal}
    (h : t.resolve false base names = .error e) :
    (e = .notFound ∨ e = .notADirectory) ∧ t.lookup (base.below names) = none :=
  walk_refused plain h

theorem resolve_present {node : FileNode} (h : t.lookup (base.below names) = some node) :
    t.resolve false base names = .ok (base.below names) :=
  walk_present h nofun

theorem find_present {node : FileNode} (h : t.lookup (base.below names) = some node) :
    t.find false base names = .ok node := by
  rw [find, resolve_present h]
  simp only [bind, Except.bind, h]

theorem find_plain (hbase : t.lookup base = some .dir)
    (plain : t.Plain base (base.below names)) {node : FileNode}
    (h : t.find false base names = .ok node) : t.lookup (base.below names) = some node := by
  rw [find] at h
  cases hresolve : t.resolve false base names with
  | error e =>
    rw [hresolve] at h
    cases h
  | ok place =>
    rw [hresolve, resolve_plain hbase plain endsPlain_false hresolve] at h
    simp only [bind, Except.bind] at h
    split at h
    · rename_i hnode
      rw [hnode, Except.ok.inj h]
    · cases h

end Resolve

section Operations

/-- Puts something where nothing is. -/
def add (t : FileTree) (place : Place) (node : FileNode) : Except Refusal FileTree :=
  match place with
  | [] => .error .alreadyExists
  | name :: dir =>
    match hdir : t.lookup dir with
    | none => .error .notFound
    | some .dir =>
      if hfree : t.lookup (name :: dir) = none then
        .ok (t.put name dir node hdir (by rw [hfree]; exact nofun))
      else .error .alreadyExists
    | some _ => .error .notADirectory

/-- Changes what is at a place that is not a directory. -/
def alter (t : FileTree) (place : Place) (node : FileNode) : Except Refusal FileTree :=
  match place with
  | [] => .error .isADirectory
  | name :: dir =>
    match t.lookup (name :: dir) with
    | none => .error .notFound
    | some .dir => .error .isADirectory
    | some _ =>
      if h : t.lookup dir = some .dir ∧ t.lookup (name :: dir) ≠ some .dir then
        .ok (t.put name dir node h.1 h.2)
      else .error .notADirectory

/-- `unlink`. -/
def unlink (t : FileTree) (place : Place) : Except Refusal FileTree :=
  match t.lookup place with
  | none => .error .notFound
  | some .dir => .error .isADirectory
  | some _ => if h : place = [] then .error .busy else .ok (t.prune place h)

def hasChildren (t : FileTree) (place : Place) : Bool :=
  t.nodes.entries.any fun entry => decide (place <:+ entry.1 ∧ entry.1 ≠ place)

/-- `rmdir`. -/
def rmdir (t : FileTree) (place : Place) : Except Refusal FileTree :=
  match t.lookup place with
  | none => .error .notFound
  | some .dir =>
    if h : place = [] then .error .busy
    else if t.hasChildren place then .error .directoryNotEmpty
    else .ok (t.prune place h)
  | some _ => .error .notADirectory

/-- `rename` of something that is not a directory. -/
def move (t : FileTree) (source dest : Place) : Except Refusal FileTree :=
  match t.lookup source, dest with
  | none, _ => .error .notFound
  | some .dir, _ => .error .isADirectory
  | some _, [] => .error .isADirectory
  | some node, name :: dir =>
    if t.lookup (name :: dir) = some .dir then .error .isADirectory
    else if h : source = [] then .error .busy
    else if h : (t.prune source h).lookup dir = some .dir ∧
        (t.prune source h).lookup (name :: dir) ≠ some .dir then
      .ok ((t.prune source _).put name dir node h.1 h.2)
    else .error .notADirectory

variable {t t' : FileTree} {place : Place} {node : FileNode}

theorem add_ok (h : t.add place node = .ok t') : t.lookup place = none ∧
    t.lookup place.tail = some .dir ∧
      ∀ q, t'.lookup q = if q = place then some node else t.lookup q := by
  unfold add at h
  split at h
  · cases h
  · split at h
    · cases h
    · rename_i hdir
      split_ifs at h with hfree
      · cases h
        exact ⟨hfree, hdir, fun q => lookup_put q⟩
    · cases h

theorem alter_ok (h : t.alter place node = .ok t') :
    (∃ old, t.lookup place = some old ∧ old ≠ .dir) ∧
      ∀ q, t'.lookup q = if q = place then some node else t.lookup q := by
  unfold alter at h
  split at h
  · cases h
  · split at h
    · cases h
    · cases h
    · rename_i old hne hold
      split_ifs at h
      · cases h
        exact ⟨⟨old, hold, hne⟩, fun q => lookup_put q⟩

theorem lookup_prune_leaf {p : Place} {hp : p ≠ []} (h : ∀ q, p <:+ q → q ≠ p → t.lookup q = none)
    (q : Place) : (t.prune p hp).lookup q = if q = p then none else t.lookup q := by
  rw [lookup_prune]
  by_cases heq : q = p
  · rw [if_pos heq, if_pos (heq ▸ List.suffix_refl _)]
  · rw [if_neg heq]
    split_ifs with hsuffix
    · rw [h q hsuffix heq]
    · rfl

theorem not_below_leaf {p : Place} (hnode : t.lookup p = some node) (hleaf : node ≠ .dir)
    (q : Place) (hq : p <:+ q) (hne : q ≠ p) : t.lookup q = none := by
  by_contra hpresent
  have hdir := t.around_dir (Option.isSome_iff_ne_none.mpr hpresent) hq hne.symm
  rw [hnode] at hdir
  exact hleaf (Option.some.inj hdir)

theorem unlink_ok (h : t.unlink place = .ok t') :
    (∃ old, t.lookup place = some old ∧ old ≠ .dir) ∧
      ∀ q, t'.lookup q = if q = place then none else t.lookup q := by
  unfold unlink at h
  split at h
  · cases h
  · cases h
  · rename_i old hne hold
    split_ifs at h
    · cases h
      exact ⟨⟨old, hold, hne⟩, lookup_prune_leaf (not_below_leaf hold hne)⟩

theorem hasChildren_iff : t.hasChildren place = true ↔
    ∃ q, place <:+ q ∧ q ≠ place ∧ (t.lookup q).isSome := by
  simp only [hasChildren, List.any_eq_true, decide_eq_true_eq]
  constructor
  · rintro ⟨⟨q, node⟩, hentry, hsuffix, hne⟩
    have hq : t.lookup q = some node := AList.mem_lookup_iff.mpr hentry
    exact ⟨q, hsuffix, hne, by rw [hq]; rfl⟩
  · rintro ⟨q, hsuffix, hne, hsome⟩
    obtain ⟨node, hnode⟩ := Option.isSome_iff_exists.mp hsome
    exact ⟨⟨q, node⟩, AList.mem_lookup_iff.mp hnode, hsuffix, hne⟩

theorem rmdir_ok (h : t.rmdir place = .ok t') : t.lookup place = some .dir ∧
    (∀ q, place <:+ q → q ≠ place → t.lookup q = none) ∧
      ∀ q, t'.lookup q = if q = place then none else t.lookup q := by
  unfold rmdir at h
  split at h
  · cases h
  · rename_i hdir
    split_ifs at h with hroot hchildren
    · have hempty : ∀ q, place <:+ q → q ≠ place → t.lookup q = none := by
        intro q hq hne
        by_contra hpresent
        exact hchildren (hasChildren_iff.mpr
          ⟨q, hq, hne, Option.isSome_iff_ne_none.mpr hpresent⟩)
      cases h
      exact ⟨hdir, hempty, lookup_prune_leaf hempty⟩
  · cases h

theorem move_ok {source dest : Place} (h : t.move source dest = .ok t') :
    ∃ node, t.lookup source = some node ∧ node ≠ .dir ∧ t.lookup dest ≠ some .dir ∧
      ∀ q, t'.lookup q = if q = dest then some node else if q = source then none else t.lookup q := by
  unfold move at h
  split at h
  · cases h
  · cases h
  · cases h
  · rename_i node name dir hne hnode
    split_ifs at h with hdest hroot hplaced
    · cases h
      refine ⟨node, hnode, hne, hdest, fun q => ?_⟩
      rw [lookup_put, lookup_prune_leaf (not_below_leaf hnode hne)]

end Operations

end FileTree

end Elfshaker.Library
