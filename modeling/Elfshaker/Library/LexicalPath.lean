import Elfshaker.Library.UnixPath

namespace Elfshaker.Library.UnixPath

/-- What a path names when its links are not looked at: a dot is left out, and a name with two
dots behind it. -/
inductive Resolves : List Component → List (List UInt8) → Prop
  | names (names : List (List UInt8)) : Resolves (names.map .normal) names
  | stay {before after : List Component} {names : List (List UInt8)} :
    Resolves (before ++ after) names → Resolves (before ++ .curDir :: after) names
  | back {before after : List Component} {names : List (List UInt8)} (name : List UInt8) :
    Resolves (before ++ after) names →
      Resolves (before ++ .normal name :: .parentDir :: after) names

/-- One component of a path, behind the names so far. -/
def follow (done : List (List UInt8)) : Component → Option (List (List UInt8))
  | .normal name => some (done ++ [name])
  | .curDir => some done
  | .parentDir => if done = [] then none else some done.dropLast
  | .rootDir => none

def followAll : List (List UInt8) → List Component → Option (List (List UInt8))
  | done, [] => some done
  | done, c :: cs => (follow done c).bind (followAll · cs)

def Component.isNormal : Component → Bool
  | .normal _ => true
  | _ => false

def normals (cs : List Component) : Nat := cs.countP Component.isNormal

/-- Somewhere the way up is longer than the way down before. -/
def Climbs (cs : List Component) : Prop :=
  ∃ before after, cs = before ++ after ∧ normals before < before.count .parentDir

variable {done names : List (List UInt8)} {cs before after : List Component}

theorem followAll_append (done : List (List UInt8)) (before after : List Component) :
    followAll done (before ++ after) = (followAll done before).bind (followAll · after) := by
  induction before generalizing done with
  | nil => rfl
  | cons c before ih =>
    rw [List.cons_append, followAll, followAll, Option.bind_assoc]
    congr 1
    funext next
    exact ih next

theorem followAll_names (done names : List (List UInt8)) :
    followAll done (names.map .normal) = some (done ++ names) := by
  induction names generalizing done with
  | nil => rw [List.map_nil, followAll, List.append_nil]
  | cons name names ih =>
    rw [List.map_cons, followAll, follow, Option.bind_some, ih, List.append_assoc,
      List.singleton_append]

theorem resolves_of_followAll (h : followAll done cs = some names) :
    Resolves (done.map .normal ++ cs) names := by
  induction cs generalizing done with
  | nil =>
    cases h
    rw [List.append_nil]
    exact .names names
  | cons c cs ih =>
    obtain ⟨next, hnext, h⟩ := Option.bind_eq_some_iff.mp h
    have hrest := ih h
    cases c with
    | rootDir => cases hnext
    | curDir =>
      cases hnext
      exact .stay hrest
    | parentDir =>
      rw [follow, Option.ite_none_left_eq_some] at hnext
      obtain ⟨hne, hnext⟩ := hnext
      cases hnext
      rw [← List.dropLast_append_getLast hne, List.map_append, List.append_assoc]
      exact .back _ hrest
    | normal name =>
      cases hnext
      rw [List.map_append, List.append_assoc] at hrest
      exact hrest

theorem followAll_of_resolves (h : Resolves cs names) : followAll [] cs = some names := by
  induction h with
  | names names => exact followAll_names [] names
  | stay _ ih =>
    rw [followAll_append] at ih ⊢
    exact ih
  | back name _ ih =>
    rw [followAll_append] at ih ⊢
    rw [← ih]
    congr 1
    funext next
    rw [followAll, follow, Option.bind_some, followAll, follow, if_neg (by simp),
      List.dropLast_concat, Option.bind_some]

/-- The order in which dots and names are left out does not matter. -/
theorem resolves_iff : Resolves cs names ↔ followAll [] cs = some names :=
  ⟨followAll_of_resolves, resolves_of_followAll⟩

theorem Resolves.unique {others : List (List UInt8)} (h : Resolves cs names)
    (h' : Resolves cs others) : names = others :=
  Option.some.inj ((resolves_iff.mp h).symm.trans (resolves_iff.mp h'))

theorem Resolves.rootless (h : Resolves cs names) : .rootDir ∉ cs := by
  induction h with
  | names names => simp
  | stay _ ih => simpa using ih
  | back name _ ih => simpa using ih

theorem followAll_eq_none (hroot : .rootDir ∉ cs) : followAll done cs = none ↔
    ∃ before after, cs = before ++ after ∧
      done.length + normals before < before.count .parentDir := by
  induction cs generalizing done with
  | nil =>
    refine iff_of_false nofun ?_
    rintro ⟨before, after, heq, hlt⟩
    rw [(List.append_eq_nil_iff.mp heq.symm).1] at hlt
    simp at hlt
  | cons c cs ih =>
    have hrest : .rootDir ∉ cs := fun h => hroot (List.mem_cons_of_mem _ h)
    -- The way up may also be too long before the first component: then it is empty.
    have hshift (next : List (List UInt8)) : (∃ before after, c :: cs = before ++ after ∧
        done.length + normals before < before.count .parentDir) ↔
        ∃ before after, cs = before ++ after ∧
          done.length + normals (c :: before) < (c :: before).count .parentDir := by
      constructor
      · rintro ⟨before, after, heq, hlt⟩
        cases before with
        | nil => simp at hlt
        | cons d before =>
          cases heq
          exact ⟨before, after, rfl, hlt⟩
      · rintro ⟨before, after, rfl, hlt⟩
        exact ⟨c :: before, after, rfl, hlt⟩
    rw [hshift done, followAll]
    cases c with
    | rootDir => exact absurd List.mem_cons_self hroot
    | curDir =>
      rw [follow, Option.bind_some, ih hrest]
      simp [normals, Component.isNormal]
    | normal name =>
      rw [follow, Option.bind_some, ih hrest]
      simp only [normals, Component.isNormal, List.length_append, List.length_singleton, List.countP_cons,
        List.count_cons, reduceCtorEq, beq_iff_eq, if_true, if_false, Nat.add_zero]
      refine exists₂_congr fun before after => and_congr_right fun _ => ?_
      omega
    | parentDir =>
      rw [follow]
      split
      · rename_i hempty
        refine iff_of_true rfl ⟨[], cs, rfl, ?_⟩
        simp [hempty, normals, Component.isNormal]
      · rename_i hne
        have hlength : 0 < done.length := List.length_pos_of_ne_nil hne
        rw [Option.bind_some, ih hrest]
        simp only [normals, Component.isNormal, List.length_dropLast, List.countP_cons, List.count_cons,
          beq_self_eq_true, if_true]
        refine exists₂_congr fun before after => and_congr_right fun _ => ?_
        simp only [Bool.false_eq_true, if_false]
        omega

theorem climbs_iff (hroot : .rootDir ∉ cs) : Climbs cs ↔ followAll [] cs = none := by
  rw [followAll_eq_none hroot]
  simp [Climbs]

/-- What a name in a directory is; it is no way to spell another one. -/
structure IsName (name : List UInt8) : Prop where
  nonempty : name ≠ []
  not_current : name ≠ [46]
  not_parent : name ≠ [46, 46]
  no_separator : separator ∉ name

theorem parseComponent_eq_normal {part name : List UInt8}
    (h : parseComponent part = some (.normal name)) :
    part = name ∧ part ≠ [] ∧ part ≠ [46] ∧ part ≠ [46, 46] := by
  unfold parseComponent at h
  split_ifs at h with hempty hdot hparent
  · cases h
  · exact ⟨Component.normal.inj (Option.some.inj h), hempty, hdot, hparent⟩

theorem mem_body_of_mem {path : List UInt8} {c : Component} (h : c ∈ components path)
    (hroot : c ≠ .rootDir) (hcur : c ≠ .curDir) : c ∈ body path := by
  unfold components at h
  split_ifs at h
  · exact (List.mem_cons.mp h).resolve_left hroot
  · exact (List.mem_cons.mp h).resolve_left hcur
  · exact h

theorem isName_of_mem {path name : List UInt8} (h : .normal name ∈ components path) :
    IsName name := by
  obtain ⟨part, hpart, hparse⟩ := List.mem_filterMap.mp (mem_body_of_mem h nofun nofun)
  obtain ⟨rfl, hempty, hdot, hparent⟩ := parseComponent_eq_normal hparse
  exact ⟨hempty, hdot, hparent, fun hsep => (mem_splitOn hpart hsep).2 rfl⟩

theorem rootDir_mem_iff {path : List UInt8} : .rootDir ∈ components path ↔ hasRoot path = true := by
  have hbody : .rootDir ∉ body path := by
    intro h
    obtain ⟨part, -, hparse⟩ := List.mem_filterMap.mp h
    unfold parseComponent at hparse
    split_ifs at hparse
    all_goals cases hparse
  unfold components
  split_ifs with hroot hdot
  · exact iff_of_true List.mem_cons_self hroot
  · refine iff_of_false (fun h => hbody ((List.mem_cons.mp h).resolve_left nofun)) hroot
  · exact iff_of_false hbody hroot

theorem components_ne_nil {path : List UInt8} (h : path ≠ []) : components path ≠ [] := by
  unfold components
  split_ifs with hroot hdot
  · exact List.cons_ne_nil _ _
  · exact List.cons_ne_nil _ _
  · cases path with
    | nil => exact absurd rfl h
    | cons b path =>
      obtain ⟨first, rest, hsplit⟩ := List.exists_cons_of_ne_nil (List.splitOn_ne_nil separator path)
      have hb : (b == separator) = false := by simpa [hasRoot] using hroot
      have hparts : (b :: path).splitOn separator = (b :: first) :: rest := by
        rw [List.splitOn_cons_eq_if_modifyHead, if_neg (by simp [hb]), hsplit]
        rfl
      have hcur : b :: first ≠ [46] := by
        rw [hparts] at hdot
        simpa using hdot
      have hsome : ∃ c, parseComponent (b :: first) = some c := by
        unfold parseComponent
        rw [if_neg (List.cons_ne_nil _ _), if_neg hcur]
        split
        · exact ⟨_, rfl⟩
        · exact ⟨_, rfl⟩
      obtain ⟨c, hc⟩ := hsome
      rw [body, hparts, List.filterMap_cons_some hc]
      exact List.cons_ne_nil _ _

/-- A path to a name in a directory, and so on. -/
def ofNames (names : List (List UInt8)) : List UInt8 := [separator].intercalate names

theorem components_ofNames {names : List (List UInt8)} (hne : names ≠ [])
    (h : ∀ name ∈ names, IsName name) : components (ofNames names) = names.map .normal := by
  have hsplit : (ofNames names).splitOn separator = names :=
    List.splitOn_intercalate separator (fun name hname => (h name hname).no_separator) hne
  have hbody : body (ofNames names) = names.map .normal := by
    rw [body, hsplit]
    clear hsplit hne
    induction names with
    | nil => rfl
    | cons name names ih =>
      obtain ⟨hname, hnames⟩ := List.forall_mem_cons.mp h
      rw [List.filterMap_cons,
        parseComponent_normal hname.nonempty hname.not_current hname.not_parent, ih hnames]
      rfl
  obtain ⟨first, rest, rfl⟩ := List.exists_cons_of_ne_nil hne
  have hfirst := h first List.mem_cons_self
  obtain ⟨tail, htail⟩ : ∃ tail, ofNames (first :: rest) = first ++ tail := by
    cases rest with
    | nil => exact ⟨[], by simp [ofNames]⟩
    | cons second rest => exact ⟨_, by rw [ofNames, List.intercalate_cons_cons, List.append_assoc]⟩
  have hroot : ¬ hasRoot (ofNames (first :: rest)) = true := by
    rw [hasRoot, htail, List.head?_append_of_ne_nil first hfirst.nonempty, beq_iff_eq]
    exact fun hhead => hfirst.no_separator (List.mem_of_head? hhead)
  unfold components
  rw [if_neg hroot, hsplit, List.head?_cons, if_neg, hbody]
  exact fun hdot => hfirst.not_current (Option.some.inj hdot)

/-- A path that is resolved is written without anything that could be left out. -/
theorem Resolves.isName {path : List UInt8} {names : List (List UInt8)}
    (h : Resolves (components path) names) : ∀ name ∈ names, IsName name := by
  have hmem : ∀ name ∈ names, .normal name ∈ components path := by
    generalize components path = cs at h
    induction h with
    | names names => exact fun name hname => List.mem_map_of_mem hname
    | stay _ ih =>
      intro name hname
      have hold := ih name hname
      simp only [List.mem_append, List.mem_cons] at hold ⊢
      tauto
    | back _ _ ih =>
      intro name hname
      have hold := ih name hname
      simp only [List.mem_append, List.mem_cons] at hold ⊢
      tauto
  exact fun name hname => isName_of_mem (hmem name hname)

end Elfshaker.Library.UnixPath
