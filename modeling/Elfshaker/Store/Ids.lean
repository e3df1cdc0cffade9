import Elfshaker.Library.Exec
import Elfshaker.Library.Text
import Mathlib.Data.List.Basic
import Mathlib.Tactic.SplitIfs

namespace Elfshaker.Store

open Elfshaker.Library

/-- The Unicode tables that decide which characters a tag may have: for each
character, the first letter of its general category. -/
structure Unicode where
  category : Char → Char
  carriageReturn : category '\r' = 'C'

inductive IdError where
  | badFormat (s : String)
  | invalidPack (s : String)
  | invalidSnapshot (s : String)
  deriving DecidableEq, Repr

structure PackId where
  name : String
  deriving DecidableEq, Repr

structure SnapshotId where
  pack : PackId
  tag : String
  deriving DecidableEq, Repr

def dotPackIndexExtension : String := ".pack.idx"

def dotPackExtension : String := ".pack"

/-- `LOOSE_DIR.to_owned() + "/"`. -/
def loosePrefix : String := "loose/"

def forbiddenSnapshotChars : List Char := [':', '\\', '<', '>', '"', '|', '?', '*']

def packExtraIdChars : List Char := ['-', '_', '/']

def isWindowsDeviceName (component : List Char) : Bool :=
  let stem := component.takeWhile (· ≠ '.')
  let upper := stem.map Char.toUpper
  upper ∈ ["CON".toList, "PRN".toList, "AUX".toList, "NUL".toList] ||
    match upper with
    | [a, b, c, digit] =>
      ([a, b, c] == "COM".toList || [a, b, c] == "LPT".toList) && '1' ≤ digit && digit ≤ '9'
    | _ => false

namespace SnapshotId

def isValidChar (unicode : Unicode) (c : Char) : Bool :=
  c == ' ' || (!forbiddenSnapshotChars.contains c && "LMNPS".toList.contains (unicode.category c))

def isValidComponent (unicode : Unicode) (isFinal : Bool) (component : List Char) : Bool :=
  !(component.isEmpty || component == ['.'] || component == ['.', '.'] ||
      component.head? == some ' ' ||
      component.getLast? == some ' ' || component.getLast? == some '.' ||
      (!isFinal && dotPackIndexExtension.toList.isSuffixOf (component.map Char.toLower)) ||
      (component.contains '.' && isWindowsDeviceName component)) &&
    component.all (isValidChar unicode)

def areValidComponents (unicode : Unicode) : List (List Char) → Bool
  | [] => true
  | [component] => isValidComponent unicode true component
  | component :: rest =>
    isValidComponent unicode false component && areValidComponents unicode rest

def isValid (unicode : Unicode) (tag : String) : Bool :=
  !tag.toList.isEmpty && areValidComponents unicode (tag.toList.splitOn '/')

def new (unicode : Unicode) (pack : PackId) (tag : String) : Exec IdError SnapshotId :=
  if isValid unicode tag then .ok ⟨pack, tag⟩
  else Exec.fail (.invalidSnapshot tag)

/-- The canonical form, `pack:tag`. -/
def display (id : SnapshotId) : String :=
  id.pack.name ++ ":" ++ id.tag

end SnapshotId

namespace PackId

/-- The identifier of an index file, if it has the extension of one. -/
def fromIndexPath (indexPath : String) : Option PackId :=
  (Text.stripSuffix dotPackIndexExtension indexPath).map .mk

def looseOf (tag : String) : PackId := ⟨loosePrefix ++ tag⟩

def forLooseSnapshot (unicode : Unicode) (tag : String) : Exec IdError PackId :=
  if SnapshotId.isValid unicode tag then .ok (looseOf tag)
  else Exec.fail (.invalidSnapshot tag)

def isValidRegular (s : String) : Bool :=
  !s.toList.isEmpty && (Text.stripPrefix loosePrefix s).isNone &&
    (s.toList.splitOn '/').all fun component =>
      !component.isEmpty && component.all fun c => c.isAlphanum || packExtraIdChars.contains c

def validate (unicode : Unicode) (id : PackId) : Exec IdError Unit :=
  match Text.stripPrefix loosePrefix id.name with
  | some tag =>
    if SnapshotId.isValid unicode tag then .ok () else Exec.fail (.invalidSnapshot tag)
  | none => if isValidRegular id.name then .ok () else Exec.fail (.invalidPack id.name)

def validateRegular (id : PackId) : Exec IdError Unit :=
  if isValidRegular id.name then .ok () else Exec.fail (.invalidPack id.name)

def fromStr (unicode : Unicode) (s : String) : Exec IdError PackId := do
  validate unicode ⟨s⟩
  .ok ⟨s⟩

/-- The index file of a pack, relative to the packs directory. -/
def indexPath (id : PackId) : String := id.name ++ dotPackIndexExtension

/-- The file of a pack, relative to the packs directory. -/
def packPath (id : PackId) : String := id.name ++ dotPackExtension

end PackId

def SnapshotId.fromStr (unicode : Unicode) (s : String) : Exec IdError SnapshotId :=
  match Text.rsplitOnce ':' s.toList with
  | some (pack, snapshot) =>
    if pack.isEmpty then Exec.fail (.invalidPack (String.ofList pack))
    else do
      let pack ← PackId.fromStr unicode (String.ofList pack)
      SnapshotId.new unicode pack (String.ofList snapshot)
  | none => Exec.fail (.badFormat s)

theorem PackId.indexPath_injective {p q : PackId} (h : p.indexPath = q.indexPath) : p = q := by
  cases p
  cases q
  exact congrArg PackId.mk (Text.append_right_cancel h)

theorem PackId.looseOf_injective {t u : String} (h : PackId.looseOf t = PackId.looseOf u) : t = u :=
  Text.append_left_cancel (PackId.mk.inj h)

theorem PackId.fromIndexPath_eq_some {path : String} {id : PackId} :
    PackId.fromIndexPath path = some id ↔ path = id.indexPath := by
  simp only [fromIndexPath, Option.map_eq_some_iff, Text.stripSuffix_eq_some]
  constructor
  · rintro ⟨name, rfl, rfl⟩
    rfl
  · rintro rfl
    exact ⟨id.name, rfl, rfl⟩

namespace SnapshotId

theorem areValidComponents_chars {unicode : Unicode} {components : List (List Char)}
    (h : areValidComponents unicode components = true) :
    ∀ component ∈ components, ∀ c ∈ component, isValidChar unicode c = true := by
  have chars {isFinal : Bool} {component : List Char}
      (hc : isValidComponent unicode isFinal component = true) :
      ∀ c ∈ component, isValidChar unicode c = true := by
    rw [isValidComponent, Bool.and_eq_true] at hc
    exact List.all_eq_true.mp hc.2
  induction components with
  | nil => simp
  | cons component rest ih =>
    cases rest with
    | nil =>
      intro d hd
      rw [List.mem_singleton.mp hd]
      exact chars h
    | cons next rest =>
      simp only [areValidComponents, Bool.and_eq_true] at h
      intro d hd
      rcases List.mem_cons.mp hd with rfl | hd
      · exact chars h.1
      · exact ih h.2 d hd

/-- A character of a valid tag is a separator or a permitted one. -/
theorem isValid_char {unicode : Unicode} {tag : String} (h : isValid unicode tag = true) :
    ∀ c ∈ tag.toList, c = '/' ∨ isValidChar unicode c = true := by
  rw [isValid, Bool.and_eq_true] at h
  have hall := areValidComponents_chars h.2
  have joined : ['/'].intercalate (tag.toList.splitOn '/') = tag.toList :=
    List.intercalate_splitOn '/'
  intro c hc
  rw [← joined] at hc
  rcases Text.mem_intercalate hc with hc | ⟨component, hcomponent, hc⟩
  · exact .inl hc
  · exact .inr (hall component hcomponent c hc)

theorem isValid_no_colon {unicode : Unicode} {tag : String} (h : isValid unicode tag = true) :
    ':' ∉ tag.toList := by
  intro hc
  rcases isValid_char h ':' hc with hc | hc
  · exact absurd hc (by decide)
  · simp [isValidChar, forbiddenSnapshotChars] at hc

theorem isValid_no_return {unicode : Unicode} {tag : String} (h : isValid unicode tag = true) :
    '\r' ∉ tag.toList := by
  intro hc
  rcases isValid_char h '\r' hc with hc | hc
  · exact absurd hc (by decide)
  · simp [isValidChar, unicode.carriageReturn] at hc

theorem isValid_ne_nil {unicode : Unicode} {tag : String} (h : isValid unicode tag = true) :
    tag.toList ≠ [] := by
  rw [isValid, Bool.and_eq_true] at h
  intro hnil
  simp [hnil] at h

/-- A bare tag is never taken for a canonical identifier. -/
theorem fromStr_tag {unicode : Unicode} {tag : String} (h : isValid unicode tag = true) :
    fromStr unicode tag = Exec.fail (.badFormat tag) := by
  rw [fromStr, Text.rsplitOnce_none (isValid_no_colon h)]

/-- The canonical form is read back. -/
theorem fromStr_display {unicode : Unicode} {id : SnapshotId}
    (hpack : id.pack.validate unicode = .ok ()) (hname : id.pack.name.toList ≠ [])
    (htag : isValid unicode id.tag = true) : fromStr unicode id.display = .ok id := by
  have hdisplay : id.display.toList = id.pack.name.toList ++ ':' :: id.tag.toList := by
    simp [display, String.toList_append]
  rw [fromStr, hdisplay, Text.rsplitOnce_append (isValid_no_colon htag)]
  simp only [List.isEmpty_iff, hname, if_false, String.ofList_toList, PackId.fromStr, hpack,
    Exec.ok_bind, new, htag, if_true]

end SnapshotId

namespace PackId

theorem validate_eq_ok {unicode : Unicode} {id : PackId} :
    id.validate unicode = .ok () ↔
      (∃ tag, id = looseOf tag ∧ SnapshotId.isValid unicode tag = true) ∨
        isValidRegular id.name = true := by
  have regular_not_loose : isValidRegular id.name = true →
      Text.stripPrefix loosePrefix id.name = none := by
    intro h
    simp only [isValidRegular, Bool.and_eq_true, Option.isNone_iff_eq_none] at h
    exact h.1.2
  unfold validate
  split
  · rename_i tag htag
    have hid : id = looseOf tag := by
      cases id
      exact congrArg mk (Text.stripPrefix_eq_some.mp htag)
    constructor
    · intro h
      split_ifs at h with hvalid
      · exact .inl ⟨tag, hid, hvalid⟩
      · cases h
    · rintro (⟨tag', hid', hvalid⟩ | h)
      · rw [looseOf_injective (hid.symm.trans hid'), if_pos hvalid]
      · rw [regular_not_loose h] at htag
        cases htag
  · rename_i hnone
    constructor
    · intro h
      split_ifs at h with hvalid
      · exact .inr hvalid
      · cases h
    · rintro (⟨tag, rfl, -⟩ | h)
      · rw [looseOf, Text.stripPrefix_append] at hnone
        cases hnone
      · rw [if_pos h]

theorem validate_looseOf {unicode : Unicode} {tag : String} :
    (looseOf tag).validate unicode = .ok () ↔ SnapshotId.isValid unicode tag = true := by
  rw [validate_eq_ok]
  constructor
  · rintro (⟨tag', h, hvalid⟩ | h)
    · rwa [looseOf_injective h]
    · simp [isValidRegular, looseOf, Text.stripPrefix_append] at h
  · exact fun h => .inl ⟨tag, rfl, h⟩

end PackId

end Elfshaker.Store
