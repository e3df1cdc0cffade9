import Elfshaker.Library.FileTree

namespace Elfshaker.Store.AtomicRetry

open Elfshaker.Library FileTree

section Open

variable (t : FileTree)

/-- How many separators a path ends in. -/
def slashesOf (target : List UInt8) : Nat := (target.reverse.takeWhile (· == 47)).length

/-- Walks on where a file is to be created. The last steps are those of the separators
that the path ends in: a name before these can be no file, whatever it is. -/
def walkCreate (cross : Nat → Place → List UInt8 → List Step → Except Refusal Place)
    (slashes : Nat) : Place → List Step → Except Refusal Place
  | place, [] => .ok place
  | place, .stay :: rest => walkCreate cross slashes place rest
  | place, .up :: rest => walkCreate cross slashes place.tail rest
  | place, .into name :: rest =>
    if 0 < slashes ∧ rest.length = slashes then .error .isADirectory
    else match t.lookup (name :: place) with
    | none => if rest = [] then .ok (name :: place) else .error .notFound
    | some .dir => walkCreate cross slashes (name :: place) rest
    | some (.file _ _ _) => if rest = [] then .ok (name :: place) else .error .notADirectory
    | some (.link target _) => cross (if rest = [] then slashesOf target else slashes) place target rest

/-- Links are followed, also at the end. -/
def resolveCreateWithin : Nat → Nat → Place → List Step → Except Refusal Place
  | 0 => walkCreate t fun _ _ _ _ => .error .filesystemLoop
  | n + 1 => walkCreate t fun slashes place target rest =>
    resolveCreateWithin n slashes (linkBase place target) (stepsOf target ++ rest)

/-- The place of the file that a call would open or create. -/
def resolveCreate (base : Place) (names : List Name) : Except Refusal Place :=
  resolveCreateWithin t linkLimit 0 base (names.map .into)

/-- `OpenOptions::open` for writing, with `create`. -/
def openCreate (clock : Nat) (base : Place) (names : List Name) :
    Except Refusal (FileTree × Place) := do
  let place ← resolveCreate t base names
  match t.lookup place with
  | none => do
    let t ← t.add place (.file [] 420 clock)
    .ok (t, place)
  | some .dir => .error .isADirectory
  | some (.file _ _ _) => .ok (t, place)
  | some (.link _ _) => .error .filesystemLoop

def mkdir (base : Place) (names : List Name) : Except Refusal FileTree := do
  let place ← t.resolve false base names
  t.add place .dir

/-- `Path::is_dir`. -/
def isDir (base : Place) (names : List Name) : Bool :=
  (t.find true base names).toOption.any FileNode.isDir

/-- `Path::is_dir` decides over an error. -/
def orIsDir (base : Place) (names : List Name) (e : Refusal) : Except Refusal FileTree :=
  if isDir t base names then .ok t else .error e

end Open

/-- `fs::create_dir_all`; the path is given from its last name on. -/
def createDirAllFrom (base : Place) : List Name → FileTree → Except Refusal FileTree
  | [], t =>
    match mkdir t base [] with
    | .ok t => .ok t
    | .error e => orIsDir t base [] e
  | name :: above, t =>
    match mkdir t base (name :: above).reverse with
    | .ok t => .ok t
    | .error .notFound => do
      let t ← createDirAllFrom base above t
      match mkdir t base (name :: above).reverse with
      | .ok t => .ok t
      | .error e => orIsDir t base (name :: above).reverse e
    | .error e => orIsDir t base (name :: above).reverse e

def createDirAll (base : Place) (names : List Name) (t : FileTree) : Except Refusal FileTree :=
  createDirAllFrom base names.reverse t

/-- What `new` is given by the system beside the file tree: the time, whether another
process has a lock on a file, and a random name. -/
structure Env where
  clock : Nat
  locked : Place → Bool
  temp : Name

section New

variable (env : Env) (base : Place) (dest : List Name)

/-- `create_temp`. -/
def createTemp (dir : List Name) (t : FileTree) : Except Refusal FileTree := do
  let place ← t.resolve false base (dir ++ [env.temp])
  t.add place (.file [] 420 env.clock)

/-- `lock_name`. -/
def lockName (place : Place) (t : FileTree) : Except Refusal Unit :=
  if env.locked place then .error .busy
  else do
    let named ← t.resolve true base dest
    if named = place then .ok () else .error .busy

/-- What `new` does with the open file. -/
def finish (place : Place) (t : FileTree) : Except Refusal FileTree := do
  lockName env base dest place t
  match t.lookup place with
  | some (.file [] _ _) => createTemp env base dest.dropLast t
  | _ => .error .alreadyExists

/-- `AtomicCreateFile::new`, as far as the fuel for its calls of itself lasts. -/
def new : Nat → FileTree → Option (Except Refusal FileTree)
  | 0, _ => none
  | fuel + 1, t =>
    match openCreate t env.clock base dest with
    | .ok (t, place) => some (finish env base dest place t)
    | .error .notFound =>
      match createDirAll base dest.dropLast t with
      | .ok t => new fuel t
      | .error e => some (.error e)
    | .error e => some (.error e)

end New

section Walks

variable {t t' : FileTree} {P : Place} {name : Name} {follow : Bool}

/-- A walk to a directory goes on into it by another name. -/
theorem walk_append {cross cross' : Place → List UInt8 → List Step → Except Refusal Place}
    (hcross : ∀ place target rest, cross place target rest = .ok P →
      cross' place target (rest ++ [.into name]) = .ok (name :: P))
    (hdir : t.lookup P = some .dir) (hfree : t.lookup (name :: P) = none) {base : Place}
    {steps : List Step} (h : t.walk true cross base steps = .ok P) :
    t.walk follow cross' base (steps ++ [.into name]) = .ok (name :: P) := by
  induction steps generalizing base with
  | nil =>
    cases h
    simp [walk, hfree]
  | cons step rest ih =>
    cases step with
    | stay => exact ih h
    | up => exact ih h
    | into other =>
      rw [walk] at h
      rw [List.cons_append, walk]
      cases hfound : t.lookup (other :: base) with
      | none =>
        rw [hfound] at h
        dsimp only at h
        split_ifs at h
        cases h
        rw [hfound] at hdir
        cases hdir
      | some node =>
        rw [hfound] at h
        cases node with
        | dir => exact ih h
        | file bytes mode mtime =>
          dsimp only at h
          split_ifs at h
          cases h
          rw [hfound] at hdir
          cases hdir
        | link target mtime =>
          dsimp only at h
          rw [if_neg (by simp)] at h
          dsimp only
          rw [if_neg (by simp)]
          exact hcross _ _ _ h

theorem resolveWithin_append {n : Nat} {base : Place} {steps : List Step}
    (hdir : t.lookup P = some .dir) (hfree : t.lookup (name :: P) = none)
    (h : t.resolveWithin true n base steps = .ok P) :
    t.resolveWithin follow n base (steps ++ [.into name]) = .ok (name :: P) := by
  induction n generalizing base steps with
  | zero => exact walk_append (fun _ _ _ h => by cases h) hdir hfree h
  | succ n ih =>
    refine walk_append (fun place target rest h => ?_) hdir hfree h
    rw [← List.append_assoc]
    exact ih h

/-- So does the walk to a file that is to be created. -/
theorem walkCreate_append {cross : Place → List UInt8 → List Step → Except Refusal Place}
    {cross' : Nat → Place → List UInt8 → List Step → Except Refusal Place}
    (hcross : ∀ place target rest, cross place target rest = .ok P →
      cross' 0 place target (rest ++ [.into name]) = .ok (name :: P))
    (hdir : t.lookup P = some .dir)
    (hplain : ∀ target mtime, t.lookup (name :: P) ≠ some (.link target mtime)) {base : Place}
    {steps : List Step} (h : t.walk true cross base steps = .ok P) :
    walkCreate t cross' 0 base (steps ++ [.into name]) = .ok (name :: P) := by
  induction steps generalizing base with
  | nil =>
    cases h
    rw [List.nil_append, walkCreate, if_neg (by simp)]
    split
    · rfl
    · rw [walkCreate]
    · rfl
    · rename_i target mtime hlink
      exact absurd hlink (hplain target mtime)
  | cons step rest ih =>
    cases step with
    | stay => exact ih h
    | up => exact ih h
    | into other =>
      rw [walk] at h
      rw [List.cons_append, walkCreate, if_neg (by simp)]
      -- the goal and `h` match on the same node
      cases hfound : t.lookup (other :: base) with
      | none =>
        rw [hfound] at h
        dsimp only at h
        split_ifs at h
        cases h
        cases hfound.symm.trans hdir
      | some node =>
        rw [hfound] at h
        cases node with
        | dir => exact ih h
        | file bytes mode mtime =>
          dsimp only at h
          split_ifs at h
          cases h
          cases hfound.symm.trans hdir
        | link target mtime =>
          dsimp only at h ⊢
          rw [if_neg (by simp)] at h
          rw [if_neg (by simp)]
          exact hcross _ _ _ h

theorem resolveCreateWithin_append {n : Nat} {base : Place} {steps : List Step}
    (hdir : t.lookup P = some .dir)
    (hplain : ∀ target mtime, t.lookup (name :: P) ≠ some (.link target mtime))
    (h : t.resolveWithin true n base steps = .ok P) :
    resolveCreateWithin t n 0 base (steps ++ [.into name]) = .ok (name :: P) := by
  induction n generalizing base steps with
  | zero => exact walkCreate_append (fun _ _ _ h => by cases h) hdir hplain h
  | succ n ih =>
    refine walkCreate_append (fun place target rest h => ?_) hdir hplain h
    rw [← List.append_assoc]
    exact ih h

/-- A walk that ends where nothing is meets no link at its end, and is the same after
something that is no link was put there. -/
theorem walk_vacant {cross cross' : Place → List UInt8 → List Step → Except Refusal Place}
    (hcross : ∀ place target rest, cross place target rest = .ok P →
      cross' place target rest = .ok P)
    (hfree : t.lookup P = none) (hsame : ∀ q, q ≠ P → t'.lookup q = t.lookup q)
    (hplain : t'.lookup P = none ∨ t'.lookup P = some .dir) {base : Place} {steps : List Step}
    (h : t.walk false cross base steps = .ok P) : t'.walk true cross' base steps = .ok P := by
  induction steps generalizing base with
  | nil => exact h
  | cons step rest ih =>
    cases step with
    | stay => exact ih h
    | up => exact ih h
    | into other =>
      have hother (hsome : t.lookup (other :: base) ≠ none) :
          t'.lookup (other :: base) = t.lookup (other :: base) :=
        hsame _ fun heq => hsome (heq ▸ hfree)
      rw [walk] at h ⊢
      split at h
      · split_ifs at h with hrest
        cases h
        subst hrest
        rcases hplain with hplain | hplain <;> simp [hplain, walk]
      · rename_i hfound
        rw [hother (by simp [hfound]), hfound]
        exact ih h
      · rename_i hfound
        split_ifs at h
        cases h
        cases hfound.symm.trans hfree
      · rename_i hfound
        split_ifs at h with hrest
        · cases h
          cases hfound.symm.trans hfree
        · rw [hother (by simp [hfound]), hfound]
          have hgoes : ¬ (rest = [] ∧ true = false) := by simp
          dsimp only
          rw [if_neg hgoes]
          exact hcross _ _ _ h

theorem resolveWithin_vacant {n : Nat} {base : Place} {steps : List Step}
    (hfree : t.lookup P = none) (hsame : ∀ q, q ≠ P → t'.lookup q = t.lookup q)
    (hplain : t'.lookup P = none ∨ t'.lookup P = some .dir)
    (h : t.resolveWithin false n base steps = .ok P) :
    t'.resolveWithin true n base steps = .ok P := by
  induction n generalizing base steps with
  | zero => exact walk_vacant (fun _ _ _ h => by cases h) hfree hsame hplain h
  | succ n ih => exact walk_vacant (fun _ _ _ h => ih h) hfree hsame hplain h

/-- Following a link at the end too helps no walk that fails without this. -/
theorem walk_error {cross cross' : Place → List UInt8 → List Step → Except Refusal Place}
    {e : Refusal} (hcross : ∀ place target rest, cross place target rest = .error e →
      cross' place target rest = .error e) {base : Place} {steps : List Step}
    (h : t.walk false cross base steps = .error e) : t.walk true cross' base steps = .error e := by
  induction steps generalizing base with
  | nil => cases h
  | cons step rest ih =>
    cases step with
    | stay => exact ih h
    | up => exact ih h
    | into other =>
      rw [walk] at h ⊢
      split at h
      · split_ifs at h with hrest
        simpa [hrest] using h
      · exact ih h
      · split_ifs at h with hrest
        simpa [hrest] using h
      · split_ifs at h with hrest
        have hgoes : ¬ (rest = [] ∧ true = false) := by simp
        rw [if_neg hgoes]
        exact hcross _ _ _ h

theorem resolveWithin_error {n : Nat} {base : Place} {steps : List Step} {e : Refusal}
    (h : t.resolveWithin false n base steps = .error e) :
    t.resolveWithin true n base steps = .error e := by
  induction n generalizing base steps with
  | zero => exact walk_error (fun _ _ _ h => h) h
  | succ n ih => exact walk_error (fun _ _ _ h => ih h) h

end Walks

section Parents

variable {t t' : FileTree} {base : Place} {names above : List Name} {name : Name}

/-- The path leads to a directory with nothing in it. -/
def Fresh (t : FileTree) (base : Place) (names : List Name) : Prop :=
  ∃ P, t.resolve true base names = .ok P ∧ t.lookup P = some .dir ∧
    ∀ name, t.lookup (name :: P) = none

theorem isDir_iff : isDir t base names = true ↔
    ∃ P, t.resolve true base names = .ok P ∧ t.lookup P = some .dir := by
  unfold isDir find
  cases hresolve : t.resolve true base names with
  | error e => simp [bind, Except.bind, Except.toOption]
  | ok P =>
    simp only [bind, Except.bind, Except.ok.injEq, exists_eq_left']
    cases t.lookup P with
    | none => simp [Except.toOption]
    | some node => simp [Except.toOption, FileNode.isDir_iff]

theorem nothing_in {P : Place} (h : t.lookup P = none) (name : Name) :
    t.lookup (name :: P) = none := by
  by_contra hpresent
  cases h.symm.trans (t.closed name P (Option.isSome_iff_ne_none.mpr hpresent))

theorem mkdir_fresh (h : mkdir t base names = .ok t') : Fresh t' base names := by
  unfold mkdir at h
  cases hresolve : t.resolve false base names with
  | error e =>
    rw [hresolve] at h
    cases h
  | ok P =>
    rw [hresolve] at h
    obtain ⟨hfree, -, hlookup⟩ := add_ok h
    have hP : t'.lookup P = some .dir := by rw [hlookup, if_pos rfl]
    have hsame : ∀ q, q ≠ P → t'.lookup q = t.lookup q := fun q hq => by rw [hlookup, if_neg hq]
    refine ⟨P, resolveWithin_vacant hfree hsame (.inr hP) hresolve, hP, ?_⟩
    intro name
    rw [hsame _ (List.cons_ne_self name P)]
    exact nothing_in hfree name

theorem add_free {P : Place} (node : FileNode) (hdir : t.lookup P = some .dir)
    (hfree : t.lookup (name :: P) = none) : ∃ t', t.add (name :: P) node = .ok t' := by
  unfold add
  dsimp only
  split
  · rename_i hnone
    cases hnone.symm.trans hdir
  · rw [dif_pos hfree]
    exact ⟨_, rfl⟩
  · rename_i hother hfound
    exact absurd (Option.some.inj (hfound.symm.trans hdir)) hother

theorem map_concat (names : List Name) (name : Name) :
    (names ++ [name]).map Step.into = names.map Step.into ++ [.into name] := by simp

theorem Fresh.mkdir (h : Fresh t base above) (name : Name) :
    ∃ t', mkdir t base (above ++ [name]) = .ok t' := by
  obtain ⟨P, hresolve, hdir, hempty⟩ := h
  have hname : t.resolve false base (above ++ [name]) = .ok (name :: P) := by
    rw [resolve, map_concat]
    exact resolveWithin_append hdir (hempty name) hresolve
  obtain ⟨t', ht'⟩ := add_free .dir hdir (hempty name)
  exact ⟨t', by rw [AtomicRetry.mkdir, hname]; exact ht'⟩

theorem Fresh.openCreate (h : Fresh t base above) (clock : Nat) (name : Name) :
    ∃ opened, openCreate t clock base (above ++ [name]) = .ok opened := by
  obtain ⟨P, hresolve, hdir, hempty⟩ := h
  have hname : resolveCreate t base (above ++ [name]) = .ok (name :: P) := by
    rw [resolveCreate, map_concat]
    exact resolveCreateWithin_append hdir (by simp [hempty name]) hresolve
  obtain ⟨t', ht'⟩ := add_free (.file [] 420 clock) hdir (hempty name)
  refine ⟨(t', name :: P), ?_⟩
  simp only [AtomicRetry.openCreate, hname, hempty name, ht', bind, Except.bind]

theorem orIsDir_ok {e : Refusal} (h : orIsDir t base names e = .ok t') :
    t' = t ∧ isDir t base names = true := by
  unfold orIsDir at h
  split at h
  · rename_i hdir
    cases h
    exact ⟨rfl, hdir⟩
  · cases h

/-- Where the directories were made, the last of them is new; otherwise it was there. -/
theorem createDirAllFrom_ok {reversed : List Name}
    (h : createDirAllFrom base reversed t = .ok t') :
    t' = t ∧ isDir t base reversed.reverse = true ∨ Fresh t' base reversed.reverse := by
  induction reversed generalizing t' with
  | nil =>
    rw [createDirAllFrom] at h
    split at h
    · rename_i hmade
      cases h
      exact .inr (mkdir_fresh hmade)
    · exact .inl (orIsDir_ok h)
  | cons name above ih =>
    rw [createDirAllFrom] at h
    split at h
    · rename_i hmade
      cases h
      exact .inr (mkdir_fresh hmade)
    · rename_i hmissing
      cases habove : createDirAllFrom base above t with
      | error e =>
        rw [habove] at h
        cases h
      | ok made =>
        rw [habove] at h
        simp only [bind, Except.bind] at h
        rcases ih habove with ⟨rfl, -⟩ | hfresh
        · rw [hmissing] at h
          exact .inl (orIsDir_ok h)
        · obtain ⟨t'', ht''⟩ := hfresh.mkdir name
          rw [← List.reverse_cons] at ht''
          rw [ht''] at h
          cases h
          exact .inr (mkdir_fresh ht'')
    · exact .inl (orIsDir_ok h)

theorem add_present {P : Place} (node : FileNode) (h : t.lookup P ≠ none) :
    t.add P node = .error .alreadyExists := by
  unfold add
  cases P with
  | nil => rfl
  | cons name dir =>
    have hdir := t.closed name dir (Option.isSome_iff_ne_none.mpr h)
    dsimp only
    split
    · rename_i hnone
      cases hnone.symm.trans hdir
    · rw [dif_neg h]
    · rename_i hother hfound
      exact absurd (Option.some.inj (hfound.symm.trans hdir)) hother

/-- A directory that is there cannot be made, and it is not its parents that are missing. -/
theorem mkdir_isDir (h : isDir t base names = true) :
    ∃ e, mkdir t base names = .error e ∧ e ≠ .notFound := by
  obtain ⟨P, hP, hdir⟩ := isDir_iff.mp h
  unfold mkdir
  cases hresolve : t.resolve false base names with
  | error e =>
    cases hP.symm.trans (resolveWithin_error hresolve)
  | ok Q =>
    have hQ : t.lookup Q ≠ none := by
      intro hfree
      have hsame := resolveWithin_vacant hfree (fun _ _ => rfl) (.inl hfree) hresolve
      cases hP.symm.trans hsame
      cases hfree.symm.trans hdir
    exact ⟨.alreadyExists, add_present .dir hQ, by simp⟩

theorem createDirAll_isDir (h : isDir t base names = true) :
    createDirAll base names t = .ok t := by
  have hor (e : Refusal) : orIsDir t base names e = .ok t := by rw [orIsDir, h, if_pos rfl]
  obtain ⟨e, hmkdir, hfound⟩ := mkdir_isDir h
  unfold createDirAll
  rw [← List.reverse_reverse names] at hmkdir hor
  cases hreversed : names.reverse with
  | nil =>
    rw [hreversed] at hmkdir hor
    rw [createDirAllFrom]
    have hbase : mkdir t base [] = .error e := hmkdir
    rw [hbase]
    exact hor e
  | cons name above =>
    rw [hreversed] at hmkdir hor
    rw [createDirAllFrom, hmkdir]
    cases e with
    | notFound => exact absurd rfl hfound
    | alreadyExists => exact hor _
    | notADirectory => exact hor _
    | isADirectory => exact hor _
    | directoryNotEmpty => exact hor _
    | filesystemLoop => exact hor _
    | invalidInput => exact hor _
    | busy => exact hor _

end Parents

section Termination

variable {t : FileTree} {env : Env} {base : Place} {dest : List Name}

/-- The destination is a link in a directory that is there, and what it leads to
cannot be created because a directory on the way is missing. -/
def Dangling (t : FileTree) (base : Place) (dest : List Name) : Prop :=
  ∃ parent name P target mtime, dest = parent ++ [name] ∧
    t.resolve true base parent = .ok P ∧ t.lookup P = some .dir ∧
    t.lookup (name :: P) = some (.link target mtime) ∧
    resolveCreate t base dest = .error .notFound

/-- The call ends, with a file or with an error. -/
def Ends (env : Env) (base : Place) (dest : List Name) (t : FileTree) : Prop :=
  ∃ fuel result, new env base dest fuel t = some result

theorem Dangling.new_none (h : Dangling t base dest) (fuel : Nat) :
    new env base dest fuel t = none := by
  obtain ⟨parent, name, P, target, mtime, rfl, hP, hdir, -, hmissing⟩ := h
  have hopen : openCreate t env.clock base (parent ++ [name]) = .error .notFound := by
    rw [openCreate, hmissing]
    rfl
  have hmake : createDirAll base (parent ++ [name]).dropLast t = .ok t := by
    rw [List.dropLast_concat]
    exact createDirAll_isDir (isDir_iff.mpr ⟨P, hP, hdir⟩)
  induction fuel with
  | zero => rfl
  | succ fuel ih =>
    rw [new, hopen]
    dsimp only
    rw [hmake]
    exact ih

/-- The place is a directory, or it lies in one. -/
def Housed (t : FileTree) (place : Place) : Prop :=
  t.lookup place = some .dir ∨ t.lookup place.tail = some .dir

theorem housed_tail {place : Place} (h : t.lookup place = some .dir) :
    t.lookup place.tail = some .dir := by
  cases place with
  | nil => exact h
  | cons name dir => exact t.closed name dir (Option.isSome_iff_exists.mpr ⟨_, h⟩)

theorem walkCreate_housed {cross : Nat → Place → List UInt8 → List Step → Except Refusal Place}
    {slashes : Nat} {Q : Place} {steps : List Step}
    (hcross : ∀ slashes place target rest, t.lookup place = some .dir →
      cross slashes place target rest = .ok Q → Housed t Q)
    {base : Place} (hbase : t.lookup base = some .dir)
    (h : walkCreate t cross slashes base steps = .ok Q) : Housed t Q := by
  induction steps generalizing base with
  | nil =>
    cases h
    exact .inl hbase
  | cons step rest ih =>
    cases step with
    | stay => exact ih hbase h
    | up => exact ih (housed_tail hbase) h
    | into name =>
      rw [walkCreate] at h
      by_cases hslash : 0 < slashes ∧ rest.length = slashes
      · rw [if_pos hslash] at h
        cases h
      rw [if_neg hslash] at h
      split at h
      · split_ifs at h
        cases h
        exact .inr hbase
      · rename_i hfound
        exact ih hfound h
      · split_ifs at h
        cases h
        exact .inr hbase
      · exact hcross _ _ _ _ hbase h

theorem resolveCreateWithin_housed {n slashes : Nat} {Q : Place} {steps : List Step}
    {base : Place} (hbase : t.lookup base = some .dir)
    (h : resolveCreateWithin t n slashes base steps = .ok Q) : Housed t Q := by
  induction n generalizing slashes base steps with
  | zero => exact walkCreate_housed (fun _ _ _ _ _ h => by cases h) hbase h
  | succ n ih =>
    refine walkCreate_housed (fun _ place target _ hplace h => ih ?_ h) hbase h
    unfold linkBase
    split
    · exact t.rooted
    · exact hplace

theorem openCreate_notFound (hbase : t.lookup base = some .dir)
    (h : openCreate t env.clock base dest = .error .notFound) :
    resolveCreate t base dest = .error .notFound := by
  unfold openCreate at h
  cases hresolve : resolveCreate t base dest with
  | error e =>
    rw [hresolve] at h
    cases h
    rfl
  | ok Q =>
    rw [hresolve] at h
    simp only [bind, Except.bind] at h
    split at h
    · rename_i hfree
      have hdir := (resolveCreateWithin_housed hbase hresolve).resolve_left (by simp [hfree])
      cases Q with
      | nil => cases hfree.symm.trans t.rooted
      | cons name dir =>
        rw [List.tail_cons] at hdir
        obtain ⟨t', ht'⟩ := add_free (.file [] 420 env.clock) hdir hfree
        rw [ht'] at h
        cases h
    · cases h
    · cases h
    · cases h

/-- With its directory there, a destination that is not found is a link. -/
theorem dangling_of_isDir (hparent : isDir t base dest.dropLast = true)
    (h : resolveCreate t base dest = .error .notFound) : Dangling t base dest := by
  obtain ⟨P, hP, hdir⟩ := isDir_iff.mp hparent
  by_cases hne : dest = []
  · subst hne
    cases h
  · have hdest : dest = dest.dropLast ++ [dest.getLast hne] :=
      (List.dropLast_append_getLast hne).symm
    by_cases hplain : ∀ target mtime, t.lookup (dest.getLast hne :: P) ≠ some (.link target mtime)
    · have hok := resolveCreateWithin_append hdir hplain hP
      rw [← map_concat, ← hdest] at hok
      cases hok.symm.trans h
    · push Not at hplain
      obtain ⟨target, mtime, hlink⟩ := hplain
      exact ⟨dest.dropLast, dest.getLast hne, P, target, mtime, hdest, hP, hdir, hlink, h⟩

/-- A file is created, or the creation fails, in two calls at most, unless the
destination is a link that leads through a missing directory: then no call is the last. -/
theorem new_ends_iff (env : Env) (dest : List Name) (hbase : t.lookup base = some .dir) :
    Ends env base dest t ↔ ¬ Dangling t base dest := by
  constructor
  · rintro ⟨fuel, result, hresult⟩ hdangling
    rw [hdangling.new_none fuel] at hresult
    cases hresult
  · intro hclear
    refine ⟨2, ?_⟩
    rw [new]
    split
    · exact ⟨_, rfl⟩
    · rename_i hopen
      split
      · rename_i t' hmade
        rw [createDirAll] at hmade
        rcases createDirAllFrom_ok hmade with ⟨rfl, hdir⟩ | hfresh
        · rw [List.reverse_reverse] at hdir
          exact absurd (dangling_of_isDir hdir (openCreate_notFound hbase hopen)) hclear
        · by_cases hne : dest = []
          · subst hne
            cases (openCreate_notFound hbase hopen)
          · obtain ⟨opened, hopened⟩ := hfresh.openCreate env.clock (dest.getLast hne)
            rw [List.reverse_reverse, List.dropLast_append_getLast hne] at hopened
            rw [new, hopened]
            exact ⟨_, rfl⟩
      · exact ⟨_, rfl⟩
    · exact ⟨_, rfl⟩

end Termination

namespace RetrySample

def env : Env := ⟨0, fun _ => false, [116]⟩

/-- The name `x` in the root is a link to `q/r`, and there is no `q`. -/
def linked : FileTree :=
  empty.put [120] [] (.link [113, 47, 114] 0) empty.rooted (by decide)

theorem dangling_linked : Dangling linked [] [[120]] :=
  ⟨[], [120], [], [113, 47, 114], 0, rfl, rfl, rfl, rfl, rfl⟩

theorem not_dangling_empty : ¬ Dangling FileTree.empty [] [[97], [120]] := by
  rintro ⟨parent, name, P, target, mtime, -, -, -, hlink, -⟩
  have hsome : (AList.lookup (name :: P) FileTree.empty.nodes).isSome :=
    Option.isSome_iff_exists.mpr ⟨_, hlink⟩
  rw [AList.lookup_isSome, AList.mem_keys, FileTree.empty, AList.keys_singleton,
    List.mem_singleton] at hsome
  cases hsome

end RetrySample

/-- A missing directory is made, and the second call creates the file. -/
theorem new_ends_empty : Ends RetrySample.env [] [[97], [120]] FileTree.empty :=
  (new_ends_iff RetrySample.env [[97], [120]] FileTree.empty.rooted).mpr
    RetrySample.not_dangling_empty

theorem new_not_always_ends : ¬ ∀ (env : Env) (base : Place) (dest : List Name) (t : FileTree),
    t.lookup base = some .dir → Ends env base dest t := by
  intro h
  obtain ⟨fuel, result, hresult⟩ := h RetrySample.env [] [[120]] RetrySample.linked rfl
  rw [RetrySample.dangling_linked.new_none fuel] at hresult
  cases hresult

end Elfshaker.Store.AtomicRetry
