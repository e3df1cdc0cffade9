import Elfshaker.Store.CreateSnapshot

namespace Elfshaker.Store

open Elfshaker.Library Elfshaker.Format

section Paths

abbrev Component := List Char

def pathComponents (path : String) : List Component := path.toList.splitOn '/'

/-- A component that leads into a directory on every system. -/
structure Component.Plain (c : Component) : Prop where
  nonempty : c ≠ []
  current : c ≠ ['.']
  parent : c ≠ ['.', '.']
  backslash : '\\' ∉ c
  drive : ':' ∉ c

/-- One component, looked up without the file system. -/
def Component.follow (place : List Component) (c : Component) : List Component :=
  if c = [] ∨ c = ['.'] then place
  else if c = ['.', '.'] then place.dropLast
  else place ++ [c]

/-- Where a path leads from a directory; one that begins with a separator starts over. -/
def joinLexically (base : List Component) (path : String) : List Component :=
  match pathComponents path with
  | [] :: rest@(_ :: _) => rest.foldl Component.follow []
  | components => components.foldl Component.follow base

/-- One place is a directory on the way to another. -/
def ProperAncestor (above below : List Component) : Prop := above <+: below ∧ above ≠ below

end Paths

section Components

variable {base : List Component} {path : String}

theorem follow_plain {components : List Component} (plain : ∀ c ∈ components, Component.Plain c) :
    components.foldl Component.follow base = base ++ components := by
  induction components generalizing base with
  | nil => simp
  | cons c rest ih =>
    have hc := plain c List.mem_cons_self
    have hfollow : Component.follow base c = base ++ [c] := by
      simp [Component.follow, hc.nonempty, hc.current, hc.parent]
    rw [List.foldl_cons, hfollow, ih fun d hd => plain d (List.mem_cons_of_mem _ hd),
      List.append_assoc, List.singleton_append]

theorem joinLexically_plain (plain : ∀ c ∈ pathComponents path, Component.Plain c) :
    joinLexically base path = base ++ pathComponents path := by
  unfold joinLexically
  split
  · rename_i head rest hcomponents
    have hnil : Component.Plain [] := plain [] (by rw [hcomponents]; exact List.mem_cons_self)
    exact absurd rfl hnil.nonempty
  · exact follow_plain plain

theorem pathComponents_injective {path path' : String}
    (h : pathComponents path = pathComponents path') : path = path' := by
  have hjoin := congrArg (['/'].intercalate ·) h
  simp only [pathComponents, List.intercalate_splitOn] at hjoin
  exact String.toList_injective hjoin

/-- A suffix without a separator goes to the last component. -/
theorem components_append (name : String) : ∃ init last, pathComponents name = init ++ [last] ∧
    ∀ suffix : String, '/' ∉ suffix.toList →
      pathComponents (name ++ suffix) = init ++ [last ++ suffix.toList] := by
  simp only [pathComponents, String.toList_append]
  by_cases hslash : '/' ∈ name.toList
  · obtain ⟨back, rest, hrev, hback⟩ := List.eq_append_cons_of_mem (List.mem_reverse.mpr hslash)
    have hname : name.toList = rest.reverse ++ '/' :: back.reverse := by
      rw [← List.reverse_reverse name.toList, hrev, List.reverse_append, List.reverse_cons,
        List.append_assoc, List.singleton_append]
    have hlast : '/' ∉ back.reverse := fun h => hback (List.mem_reverse.mp h)
    refine ⟨rest.reverse.splitOn '/', back.reverse, ?_, fun suffix hsuffix => ?_⟩
    · rw [hname, List.splitOn_append_cons_self, List.splitOn_eq_singleton hlast]
    · have happend : '/' ∉ back.reverse ++ suffix.toList := by
        rw [List.mem_append]
        exact not_or.mpr ⟨hlast, hsuffix⟩
      rw [hname, List.append_assoc, List.cons_append, List.splitOn_append_cons_self,
        List.splitOn_eq_singleton happend]
  · refine ⟨[], name.toList, ?_, fun suffix hsuffix => ?_⟩
    · rw [List.splitOn_eq_singleton hslash, List.nil_append]
    · have happend : '/' ∉ name.toList ++ suffix.toList := by
        rw [List.mem_append]
        exact not_or.mpr ⟨hslash, hsuffix⟩
      rw [List.splitOn_eq_singleton happend, List.nil_append]

end Components

section Valid

variable {unicode : Unicode} {id : PackId} {tag : String}

/-- What validation says of a tag, component by component. -/
theorem areValidComponents_iff {init : List Component} {last : Component} :
    SnapshotId.areValidComponents unicode (init ++ [last]) = true ↔
      (∀ c ∈ init, SnapshotId.isValidComponent unicode false c = true) ∧
        SnapshotId.isValidComponent unicode true last = true := by
  induction init with
  | nil => simp [SnapshotId.areValidComponents]
  | cons c init ih =>
    cases hrest : init ++ [last] with
    | nil => simp at hrest
    | cons next rest =>
      have hstep : SnapshotId.areValidComponents unicode (c :: next :: rest) =
          (SnapshotId.isValidComponent unicode false c &&
            SnapshotId.areValidComponents unicode (next :: rest)) := rfl
      rw [List.cons_append, hrest, hstep, Bool.and_eq_true, ← hrest, ih, List.forall_mem_cons,
        and_assoc]

/-- A component of a valid tag, which may be given a suffix. -/
theorem isValidComponent_plain {isFinal : Bool} {c suffix : Component}
    (h : SnapshotId.isValidComponent unicode isFinal c = true)
    (hsuffix : suffix = [] ∨ 2 ≤ suffix.length) (hslash : '\\' ∉ suffix) (hcolon : ':' ∉ suffix) :
    Component.Plain (c ++ suffix) := by
  simp only [SnapshotId.isValidComponent, Bool.and_eq_true, Bool.not_eq_true', Bool.or_eq_false_iff,
    beq_eq_false_iff_ne, List.isEmpty_eq_false_iff, List.all_eq_true] at h
  obtain ⟨⟨⟨⟨⟨⟨⟨⟨hne, hdot⟩, hdots⟩, -⟩, -⟩, -⟩, -⟩, -⟩, hchars⟩ := h
  have forbidden (d : Char) (hd : d ∈ forbiddenSnapshotChars) (hspace : d ≠ ' ') : d ∉ c := by
    intro hmem
    have hvalid := hchars d hmem
    simp [SnapshotId.isValidChar, hspace, hd] at hvalid
  have hlength : 0 < c.length := List.length_pos_iff.mpr hne
  refine ⟨?_, ?_, ?_, ?_, ?_⟩
  · simp [hne]
  · rcases hsuffix with rfl | hlong
    · simpa using hdot
    · intro heq
      have := congrArg List.length heq
      simp at this
      omega
  · rcases hsuffix with rfl | hlong
    · simpa using hdots
    · intro heq
      have := congrArg List.length heq
      simp at this
      omega
  · rw [List.mem_append]
    exact not_or.mpr ⟨forbidden _ (by decide) (by decide), hslash⟩
  · rw [List.mem_append]
    exact not_or.mpr ⟨forbidden _ (by decide) (by decide), hcolon⟩

/-- A valid tag: components that can be directories, and one that can be a file. -/
theorem isValid_components (h : SnapshotId.isValid unicode tag = true) : ∃ init last,
    pathComponents tag = init ++ [last] ∧
      (∀ c ∈ init, SnapshotId.isValidComponent unicode false c = true) ∧
        SnapshotId.isValidComponent unicode true last = true := by
  obtain ⟨init, last, hcomponents, -⟩ := components_append tag
  rw [SnapshotId.isValid, Bool.and_eq_true] at h
  have hall := h.2
  have hsplit : tag.toList.splitOn '/' = init ++ [last] := hcomponents
  rw [hsplit] at hall
  exact ⟨init, last, hcomponents, areValidComponents_iff.mp hall⟩

theorem pathComponents_looseOf (tag : String) :
    pathComponents (PackId.looseOf tag).name = "loose".toList :: pathComponents tag := by
  have hname : (PackId.looseOf tag).name.toList = "loose".toList ++ '/' :: tag.toList := by
    simp [PackId.looseOf, loosePrefix, String.toList_append]
  have hloose : '/' ∉ "loose".toList := by decide
  rw [pathComponents, hname, List.splitOn_append_cons_self, List.splitOn_eq_singleton hloose]
  rfl

/-- A component of a valid name that is not one of a loose snapshot. -/
theorem isValidRegular_component (h : PackId.isValidRegular id.name = true) {c : Component}
    (hc : c ∈ pathComponents id.name) : c ≠ [] ∧ ∀ d, d.isAlphanum = false →
      packExtraIdChars.contains d = false → d ∉ c := by
  simp only [PackId.isValidRegular, Bool.and_eq_true, List.all_eq_true] at h
  have hvalid := h.2 c hc
  simp only [Bool.not_eq_true', List.isEmpty_eq_false_iff, Bool.or_eq_true] at hvalid
  refine ⟨hvalid.1, fun d halpha hextra hd => ?_⟩
  have hchar := hvalid.2 d hd
  rw [halpha, hextra] at hchar
  simp at hchar

theorem isValidRegular_components (h : PackId.isValidRegular id.name = true) {rest : List Component}
    (hrest : rest ≠ []) : pathComponents id.name ≠ "loose".toList :: rest := by
  intro hcomponents
  obtain ⟨next, more, rfl⟩ := List.exists_cons_of_ne_nil hrest
  have hjoin : id.name.toList = ['/'].intercalate (pathComponents id.name) :=
    (List.intercalate_splitOn '/').symm
  have hname : id.name = loosePrefix ++ String.ofList (['/'].intercalate (next :: more)) := by
    apply String.toList_injective
    rw [hjoin, hcomponents]
    simp [loosePrefix, String.toList_append, List.intercalate]
  have hstrip := Text.stripPrefix_append loosePrefix (String.ofList (['/'].intercalate (next :: more)))
  rw [← hname] at hstrip
  simp [PackId.isValidRegular, hstrip] at h

theorem extension_offSlash : '/' ∉ dotPackIndexExtension.toList := by decide

/-- The components of a valid name, with those of its index file. -/
structure Shape (id : PackId) (init : List Component) (last : Component) : Prop where
  name : pathComponents id.name = init ++ [last]
  append : ∀ suffix : String, '/' ∉ suffix.toList →
    pathComponents (id.name ++ suffix) = init ++ [last ++ suffix.toList]

theorem exists_shape (id : PackId) : ∃ init last, Shape id init last := by
  obtain ⟨init, last, hname, happend⟩ := components_append id.name
  exact ⟨init, last, hname, happend⟩

theorem Shape.index {init : List Component} {last : Component} (h : Shape id init last) :
    pathComponents id.indexPath = init ++ [last ++ dotPackIndexExtension.toList] :=
  h.append _ extension_offSlash

theorem toLower_dot {c : Char} (h : c.toLower = '.') : c = '.' := by
  unfold Char.toLower at h
  split at h
  · rename_i hc
    have hval := congrArg (fun d : Char => d.val.toNat) h
    have hlow := UInt32.le_iff_toNat_le.mp hc.1
    have hhigh := UInt32.le_iff_toNat_le.mp hc.2
    simp at hval hlow hhigh
    omega
  · exact h

/-- A directory on the way to an index is not named like an index. -/
theorem Shape.directory (hid : id.validate unicode = .ok ()) {init : List Component}
    {last c : Component} (h : Shape id init last) (hc : c ∈ init) :
    ¬ dotPackIndexExtension.toList <:+ c.map Char.toLower := by
  intro hsuffix
  have hmem : c ∈ pathComponents id.name := by
    rw [h.name]
    exact List.mem_append_left _ hc
  rcases PackId.validate_eq_ok.mp hid with ⟨tag, rfl, htag⟩ | hregular
  · obtain ⟨init', last', htag', hinit, -⟩ := isValid_components htag
    have hloose := h.name
    rw [pathComponents_looseOf, htag', ← List.cons_append] at hloose
    obtain ⟨rfl, -⟩ := List.append_inj' hloose rfl
    rcases List.mem_cons.mp hc with rfl | hc
    · revert hsuffix
      decide
    · have hvalid := hinit c hc
      have hlast : dotPackIndexExtension.toList.isSuffixOf (c.map Char.toLower) = true :=
        List.isSuffixOf_iff_suffix.mpr hsuffix
      simp [SnapshotId.isValidComponent, hlast] at hvalid
  · have hdot : '.' ∈ c.map Char.toLower := hsuffix.subset (by decide)
    obtain ⟨d, hd, hlower⟩ := List.mem_map.mp hdot
    obtain rfl := toLower_dot hlower
    exact (isValidRegular_component hregular hmem).2 '.' (by decide) (by decide) hd

/-- Nor is it named like a pack where it is reached through a valid name. -/
theorem Shape.not_pack (hid : id.validate unicode = .ok ()) {init : List Component}
    {last : Component} (h : Shape id init last) {other : PackId}
    (hother : PackId.isValidRegular other.name = true) {init' : List Component} {last' : Component}
    (h' : Shape other init' last') : ¬ init' ++ [last' ++ dotPackExtension.toList] <+: init := by
  intro hpart
  have hdot : '.' ∈ last' ++ dotPackExtension.toList :=
    List.mem_append_right _ (by decide)
  have hmem : last' ++ dotPackExtension.toList ∈ init :=
    hpart.subset (List.mem_append_right _ List.mem_cons_self)
  rcases PackId.validate_eq_ok.mp hid with ⟨tag, rfl, -⟩ | hregular
  · have hloose := h.name
    rw [pathComponents_looseOf] at hloose
    cases init with
    | nil => cases hmem
    | cons first init =>
      obtain ⟨rfl, -⟩ := List.cons.inj hloose
      cases init' with
      | nil =>
        obtain ⟨hfirst, -⟩ := List.cons_prefix_cons.mp hpart
        rw [hfirst] at hdot
        revert hdot
        decide
      | cons first' init' =>
        obtain ⟨rfl, -⟩ := List.cons_prefix_cons.mp hpart
        refine isValidRegular_components hother ?_ h'.name
        simp
  · have hname : last' ++ dotPackExtension.toList ∈ pathComponents id.name := by
      rw [h.name]
      exact List.mem_append_left _ hmem
    exact (isValidRegular_component hregular hname).2 '.' (by decide) (by decide) hdot

/-- All components of an index path are plain. -/
theorem indexPath_plain (hid : id.validate unicode = .ok ()) :
    ∀ c ∈ pathComponents id.indexPath, Component.Plain c := by
  obtain ⟨init, last, h⟩ := exists_shape id
  rw [h.index]
  have regular {c suffix : Component} (hc : c ≠ [] ∧ ∀ d, d.isAlphanum = false →
      packExtraIdChars.contains d = false → d ∉ c) (hsuffix : suffix = [] ∨ 2 ≤ suffix.length)
      (hslash : '\\' ∉ suffix) (hcolon : ':' ∉ suffix) : Component.Plain (c ++ suffix) := by
    obtain ⟨hne, hchars⟩ := hc
    have hdot : '.' ∉ c := hchars '.' (by decide) (by decide)
    cases c with
    | nil => exact absurd rfl hne
    | cons d c =>
      obtain ⟨hd, -⟩ := not_or.mp (mt List.mem_cons.mpr hdot)
      refine ⟨List.cons_ne_nil _ _, ?_, ?_, ?_, ?_⟩
      · intro heq
        exact hd (List.cons.inj heq).1.symm
      · intro heq
        exact hd (List.cons.inj heq).1.symm
      · rw [List.mem_append]
        exact not_or.mpr ⟨hchars _ (by decide) (by decide), hslash⟩
      · rw [List.mem_append]
        exact not_or.mpr ⟨hchars _ (by decide) (by decide), hcolon⟩
  have hlong : 2 ≤ dotPackIndexExtension.toList.length := by decide
  have hslash : '\\' ∉ dotPackIndexExtension.toList := by decide
  have hcolon : ':' ∉ dotPackIndexExtension.toList := by decide
  have hempty {d : Char} : d ∉ ([] : Component) := List.not_mem_nil
  intro c hc
  rcases PackId.validate_eq_ok.mp hid with ⟨tag, rfl, htag⟩ | hregular
  · obtain ⟨init', last', htag', hinit, hlast⟩ := isValid_components htag
    have hloose := h.name
    rw [pathComponents_looseOf, htag', ← List.cons_append] at hloose
    obtain ⟨rfl, hlast'⟩ := List.append_inj' hloose rfl
    cases hlast'
    rcases List.mem_append.mp hc with hc | hc
    · rcases List.mem_cons.mp hc with rfl | hc
      · refine ⟨?_, ?_, ?_, ?_, ?_⟩ <;> decide
      · have hplain := isValidComponent_plain (hinit c hc) (.inl rfl) hempty hempty
        rwa [List.append_nil] at hplain
    · rw [List.mem_singleton.mp hc]
      exact isValidComponent_plain hlast (.inr hlong) hslash hcolon
  · have hcomponent {d : Component} (hd : d ∈ init ++ [last]) :=
      isValidRegular_component hregular (h.name ▸ hd)
    rcases List.mem_append.mp hc with hc | hc
    · have hplain := regular (hcomponent (List.mem_append_left _ hc)) (.inl rfl) hempty hempty
      rwa [List.append_nil] at hplain
    · rw [List.mem_singleton.mp hc]
      exact regular (hcomponent (List.mem_append_right _ List.mem_cons_self)) (.inr hlong) hslash
        hcolon

theorem indexPath_ne_packPath (id other : PackId) : id.indexPath ≠ other.packPath := by
  intro heq
  have hlast := congrArg (fun path : String => path.toList.getLast?) heq
  simp [PackId.indexPath, PackId.packPath, String.toList_append, dotPackIndexExtension,
    dotPackExtension] at hlast

/-- A directory on the way to the index of a valid name is neither an index, whatever
the case of its extension is, nor a pack. -/
theorem indexPath_ancestors (hid : id.validate unicode = .ok ()) {other : PackId} :
    (∀ suffix : String, suffix.toList.map Char.toLower = dotPackIndexExtension.toList →
      ¬ ProperAncestor (pathComponents (other.name ++ suffix)) (pathComponents id.indexPath)) ∧
    (PackId.isValidRegular other.name = true →
      ¬ ProperAncestor (pathComponents other.packPath) (pathComponents id.indexPath)) := by
  obtain ⟨init, last, h⟩ := exists_shape id
  obtain ⟨init', last', h'⟩ := exists_shape other
  have proper {above : List Component}
      (hproper : ProperAncestor above (pathComponents id.indexPath)) : above <+: init := by
    rw [h.index] at hproper
    obtain ⟨hpart, hne⟩ := hproper
    exact (List.prefix_concat_iff.mp hpart).resolve_left hne
  refine ⟨fun suffix hsuffix hproper => ?_, fun hregular hproper => ?_⟩
  · have hslash : '/' ∉ suffix.toList := by
      intro hmem
      have hlower : Char.toLower '/' ∈ dotPackIndexExtension.toList := by
        rw [← hsuffix]
        exact List.mem_map.mpr ⟨'/', hmem, rfl⟩
      revert hlower
      decide
    have hpart := proper hproper
    rw [h'.append suffix hslash] at hpart
    have hmem : last' ++ suffix.toList ∈ init :=
      hpart.subset (List.mem_append_right _ List.mem_cons_self)
    apply h.directory hid hmem
    rw [List.map_append, hsuffix]
    exact List.suffix_append _ _
  · have hslash : '/' ∉ dotPackExtension.toList := by decide
    have hpart := proper hproper
    rw [PackId.packPath, h'.append _ hslash] at hpart
    exact h.not_pack hid hregular h' hpart

end Valid

/-- The index of a valid name lies in the packs directory and is the index of no other;
neither an index nor a pack is where it needs a directory; and no index is a pack. The
index of a tag is that of the name that its snapshot has. -/
theorem index_paths_apart (unicode : Unicode) (base : List Component) :
    (∀ id : PackId, id.validate unicode = .ok () →
      base <+: joinLexically base id.indexPath ∧ joinLexically base id.indexPath ≠ base ∧
        ∀ c ∈ pathComponents id.indexPath, Component.Plain c) ∧
    (∀ tag, SnapshotId.isValid unicode tag = true → ∀ pack,
      (PackId.looseOf tag).validate unicode = .ok () ∧
        snapshotPath ⟨pack, tag⟩ = (PackId.looseOf tag).indexPath) ∧
    (∀ id other : PackId, id.validate unicode = .ok () → other.validate unicode = .ok () →
      joinLexically base id.indexPath = joinLexically base other.indexPath → id = other) ∧
    (∀ id other : PackId, id.validate unicode = .ok () → other.validate unicode = .ok () →
      ∀ suffix : String, suffix.toList.map Char.toLower = dotPackIndexExtension.toList →
        ¬ ProperAncestor (pathComponents (other.name ++ suffix)) (pathComponents id.indexPath)) ∧
    (∀ id other : PackId, id.validate unicode = .ok () → other.validateRegular = .ok () →
      ¬ ProperAncestor (pathComponents other.packPath) (pathComponents id.indexPath)) ∧
    ∀ id other : PackId, id.indexPath ≠ other.packPath := by
  refine ⟨fun id hid => ?_, fun tag htag pack => ⟨PackId.validate_looseOf.mpr htag, rfl⟩,
    fun id other hid hother hpath => ?_, fun id other hid _ suffix hsuffix => ?_,
    fun id other hid hother => ?_, indexPath_ne_packPath⟩
  · have hplain := indexPath_plain hid
    rw [joinLexically_plain hplain]
    refine ⟨List.prefix_append _ _, fun heq => ?_, hplain⟩
    exact List.splitOn_ne_nil _ _ (List.append_right_eq_self.mp heq)
  · rw [joinLexically_plain (indexPath_plain hid), joinLexically_plain (indexPath_plain hother)]
      at hpath
    exact PackId.indexPath_injective (pathComponents_injective (List.append_cancel_left hpath))
  · exact (indexPath_ancestors hid).1 suffix hsuffix
  · refine (indexPath_ancestors hid).2 ?_
    unfold PackId.validateRegular at hother
    split_ifs at hother with hregular
    · exact hregular
    · cases hother

namespace PathSample

/-- The category of the characters that the samples are spelled with. -/
def category (c : Char) : Char :=
  if c.isAlpha then 'L' else if c = '.' then 'P' else 'C'

theorem category_return : category '\r' = 'C' := rfl

def unicode : Unicode := ⟨category, category_return⟩

/-- A snapshot whose index needs a directory that looks like a file. -/
def nested : PackId := PackId.looseOf "a.b/c"

theorem nested_valid : nested.validate unicode = .ok () := by rfl

end PathSample

theorem index_paths_apart_nested :
    ¬ ProperAncestor (pathComponents (PackId.mk "a").packPath)
      (pathComponents PathSample.nested.indexPath) :=
  (index_paths_apart PathSample.unicode []).2.2.2.2.1 PathSample.nested ⟨"a"⟩
    PathSample.nested_valid (by rfl)

end Elfshaker.Store
