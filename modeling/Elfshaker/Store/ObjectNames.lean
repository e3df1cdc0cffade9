import Elfshaker.Library.FileTree
import Elfshaker.Library.LexicalPath
import Elfshaker.Library.Utf8
import Elfshaker.Store.GcObjects

namespace Elfshaker.Store.ObjectFile

open Elfshaker.Library Elfshaker.Format
open Elfshaker.Library.UnixPath (components hasRoot push join body IsName)

/-- `Component::as_os_str`. -/
def asOsStr : UnixPath.Component → List UInt8
  | .rootDir => [UnixPath.separator]
  | .curDir => [46]
  | .parentDir => [46, 46]
  | .normal name => name

/-- What a component spells; what is not valid text spells nothing. -/
def decodeComponent (c : UnixPath.Component) : Option (List UInt8) :=
  hexDecode (Utf8.fromUtf8Lossy (asOsStr c))

/-- The bytes of `LOOSE_DIR`. -/
def looseDirName : Name := [108, 111, 111, 115, 101]

def looseDir (dataDir : List UInt8) : List UInt8 := join dataDir looseDirName

/-- The directories and the file of an object. -/
def objectNames (checksum : ObjectChecksum) : List Name :=
  let hex := Utf8.encode (hexEncode checksum.bytes)
  [hex.take 2, (hex.drop 2).take 2, hex.drop 4]

/-- The path that a walk of the loose directory reports, by the names on the way. -/
def pathBelow (dataDir : List UInt8) (names : List Name) : List UInt8 :=
  names.foldl push (looseDir dataDir)

def looseObjectPath (dataDir : List UInt8) (checksum : ObjectChecksum) : List UInt8 :=
  pathBelow dataDir (objectNames checksum)

/-- The first index is a difference that must not be negative. -/
def looseObjectChecksum (path : List UInt8) : Exec Error ObjectChecksum := do
  let badObject := Error.badLooseObject (String.ofList (Utf8.fromUtf8Lossy path))
  let numComponents := (components path).length
  Exec.assert (decide (3 ≤ numComponents))
  let hex0 ← Exec.okOr badObject (components path)[numComponents - 3]?
  let hex2 ← Exec.unwrap (components path)[numComponents - 2]?
  let hex4 ← Exec.unwrap (components path).getLast?
  let bytes0 ← Exec.okOr badObject (decodeComponent hex0)
  let bytes2 ← Exec.okOr badObject (decodeComponent hex2)
  let bytes4 ← Exec.okOr badObject (decodeComponent hex4)
  if h : (bytes0 ++ bytes2 ++ bytes4).length = 20 then .ok ⟨bytes0 ++ bytes2 ++ bytes4, h⟩
  else Exec.fail badObject

section Paths

variable {dataDir : List UInt8} {names : List Name}

theorem body_name {name : Name} (h : IsName name) : body name = [.normal name] := by
  have hsplit : name.splitOn UnixPath.separator = [name] := by
    have hparts : ∀ part ∈ [name], UnixPath.separator ∉ part :=
      fun part hpart => List.mem_singleton.mp hpart ▸ h.no_separator
    have hjoin := List.splitOn_intercalate UnixPath.separator hparts (List.cons_ne_nil _ _)
    simpa [List.intercalate] using hjoin
  rw [body, hsplit, List.filterMap_cons,
    UnixPath.parseComponent_normal h.nonempty h.not_current h.not_parent]
  rfl

theorem hasRoot_name {name : Name} (h : IsName name) : hasRoot name = false := by
  rw [hasRoot, beq_eq_false_iff_ne]
  exact fun hhead => h.no_separator (List.mem_of_head? hhead)

theorem looseDirName_isName : IsName looseDirName :=
  ⟨by decide, by decide, by decide, by decide⟩

theorem push_ne_nil {path name : List UInt8} (h : name ≠ []) : push path name ≠ [] := by
  unfold push
  split
  · exact h
  · split <;> simp [h]

theorem components_pathBelow (hdata : dataDir ≠ []) (h : ∀ name ∈ names, IsName name) :
    components (pathBelow dataDir names) =
      components dataDir ++ .normal looseDirName :: names.map .normal := by
  have hloose : components (looseDir dataDir) = components dataDir ++ [.normal looseDirName] := by
    rw [looseDir, join, UnixPath.components_push hdata (hasRoot_name looseDirName_isName),
      body_name looseDirName_isName]
  have hne : looseDir dataDir ≠ [] := push_ne_nil looseDirName_isName.nonempty
  have hall : pathBelow dataDir names ≠ [] ∧ components (pathBelow dataDir names) =
      components (looseDir dataDir) ++ names.map .normal := by
    induction names using List.reverseRecOn with
    | nil => exact ⟨hne, by simp [pathBelow]⟩
    | append_singleton names name ih =>
      have hname : IsName name := h name (by simp)
      obtain ⟨hpath, hcomponents⟩ := ih fun other hother => h other (List.mem_append_left _ hother)
      have hpush : pathBelow dataDir (names ++ [name]) = push (pathBelow dataDir names) name := by
        rw [pathBelow, List.foldl_append]
        rfl
      rw [hpush]
      refine ⟨push_ne_nil hname.nonempty, ?_⟩
      rw [UnixPath.components_push hpath (hasRoot_name hname), body_name hname, hcomponents]
      simp
  rw [hall.2, hloose, List.append_assoc]
  rfl

/-- Two files are the same where the names on the way are. -/
theorem pathBelow_injective {others : List Name} (hdata : dataDir ≠ [])
    (h : ∀ name ∈ names, IsName name) (hothers : ∀ name ∈ others, IsName name)
    (heq : pathBelow dataDir names = pathBelow dataDir others) : names = others := by
  have hcomponents := congrArg components heq
  rw [components_pathBelow hdata h, components_pathBelow hdata hothers] at hcomponents
  have hmap := (List.cons_inj_right _).mp (List.append_cancel_left hcomponents)
  exact List.map_injective_iff.mpr (fun _ _ => UnixPath.Component.normal.inj) hmap

end Paths

section Decode

variable {path : List UInt8} {front : List UnixPath.Component} {a b d : UnixPath.Component}

/-- The bytes that three components spell, where these are those of an object. -/
def decodeThree (badObject : Error) (a b d : UnixPath.Component) : Exec Error ObjectChecksum := do
  let bytes0 ← Exec.okOr badObject (decodeComponent a)
  let bytes2 ← Exec.okOr badObject (decodeComponent b)
  let bytes4 ← Exec.okOr badObject (decodeComponent d)
  if h : (bytes0 ++ bytes2 ++ bytes4).length = 20 then .ok ⟨bytes0 ++ bytes2 ++ bytes4, h⟩
  else Exec.fail badObject

/-- Only the last three components count. -/
theorem looseObjectChecksum_eq (h : components path = front ++ [a, b, d]) :
    looseObjectChecksum path =
      decodeThree (.badLooseObject (String.ofList (Utf8.fromUtf8Lossy path))) a b d := by
  have hlength : (components path).length = front.length + 3 := by simp [h]
  have hthree : decide (3 ≤ front.length + 3) = true := by simp
  have hfirst : (components path)[front.length + 3 - 3]? = some a := by simp [h]
  have hsecond : (components path)[front.length + 3 - 2]? = some b := by
    rw [h, List.getElem?_append_right (by omega)]
    simp
  have hlast : (components path).getLast? = some d := by simp [h]
  simp only [looseObjectChecksum, hlength, hthree, hfirst, hsecond, hlast, Exec.assert_true,
    Exec.okOr_some, Exec.unwrap_some, Exec.ok_bind]
  rfl

theorem decodeThree_noPanic (badObject : Error) : (decodeThree badObject a b d).NoPanic := by
  refine (Exec.noPanic_okOr _ _).bind fun x _ => (Exec.noPanic_okOr _ _).bind fun y _ =>
    (Exec.noPanic_okOr _ _).bind fun z _ => ?_
  split_ifs
  · exact Exec.noPanic_ok _
  · exact Exec.noPanic_fail _

theorem decodeThree_eq_ok {badObject : Error} {c : ObjectChecksum} :
    decodeThree badObject a b d = .ok c ↔ ∃ x y z, decodeComponent a = some x ∧
      decodeComponent b = some y ∧ decodeComponent d = some z ∧ c.bytes = x ++ y ++ z := by
  simp only [decodeThree, Exec.bind_eq_ok, Exec.okOr_eq_ok]
  constructor
  · rintro ⟨x, hx, y, hy, z, hz, h⟩
    split_ifs at h
    · cases h
      exact ⟨x, y, z, hx, hy, hz, rfl⟩
    · cases h
  · rintro ⟨x, y, z, hx, hy, hz, h⟩
    refine ⟨x, hx, y, hy, z, hz, ?_⟩
    have hlength : (x ++ y ++ z).length = 20 := h ▸ c.length_eq
    rw [dif_pos hlength]
    cases c
    cases h
    rfl

theorem decodeComponent_looseDir : decodeComponent (.normal looseDirName) = none := by
  decide

end Decode

section Digits

variable {text : List Char} {bytes : List UInt8}

theorem isUpper_digitChar {n : Nat} (h : n < 16) : (Nat.digitChar n).isUpper = false := by
  have hall : ∀ m ∈ List.range 16, (Nat.digitChar m).isUpper = false := by decide
  exact hall n (List.mem_range.mpr h)

theorem hexEncode_isUpper {c : Char} (h : c ∈ hexEncode bytes) : c.isUpper = false := by
  simp only [hexEncode, List.mem_flatMap, List.mem_cons, List.not_mem_nil, or_false] at h
  obtain ⟨b, -, rfl | rfl⟩ := h
  · exact isUpper_digitChar (by have := b.toNat_lt; omega)
  · exact isUpper_digitChar (Nat.mod_lt _ (by decide))

/-- A digit that is not upper-case is the one that is written. -/
theorem digitChar_hexDigit {c : Char} {n : Nat} (h : hexDigit c = some n)
    (hlower : c.isUpper = false) : n < 16 ∧ Nat.digitChar n = c := by
  have hvalue : ∀ m ∈ List.range 16, (Nat.digitChar m).toNat = if m < 10 then 48 + m else 87 + m := by
    decide
  have of_value (hn : n < 16) (h : c.toNat = if n < 10 then 48 + n else 87 + n) :
      n < 16 ∧ Nat.digitChar n = c :=
    ⟨hn, Char.toNat_inj.mp ((hvalue n (List.mem_range.mpr hn)).trans h.symm)⟩
  have hupper : ¬ (65 ≤ c.toNat ∧ c.toNat ≤ 90) := by
    intro hrange
    have hletter : ¬ (c.val ≥ 'A'.val ∧ c.val ≤ 'Z'.val) := of_decide_eq_false hlower
    rw [ge_iff_le, UInt32.le_iff_toNat_le, UInt32.le_iff_toNat_le] at hletter
    exact hletter hrange
  unfold hexDigit at h
  simp only [Char.le_def, UInt32.le_iff_toNat_le, Char.toNat_val, Char.reduceVal,
    UInt32.reduceToNat] at h
  split_ifs at h with hdigit hsmall hlarge
  · cases h
    exact of_value (by omega) (by rw [if_pos (by omega)]; omega)
  · cases h
    exact of_value (by omega) (by rw [if_neg (by omega)]; omega)
  · exact absurd ⟨hlarge.1, by omega⟩ hupper

theorem hexEncode_hexDecode (h : hexDecode text = some bytes)
    (hlower : ∀ c ∈ text, c.isUpper = false) : hexEncode bytes = text := by
  induction text using hexDecode.induct generalizing bytes with
  | case1 =>
    cases h
    rfl
  | case2 => cases h
  | case3 high low rest ih =>
    rw [hexDecode] at h
    simp only [Option.bind_eq_bind, Option.bind_eq_some_iff, Option.some.injEq] at h
    obtain ⟨x, hx, y, hy, decoded, hdecoded, rfl⟩ := h
    obtain ⟨hx16, hhigh⟩ := digitChar_hexDigit hx (hlower high (by simp))
    obtain ⟨hy16, hlow⟩ := digitChar_hexDigit hy (hlower low (by simp))
    have hbyte : (UInt8.ofNat (16 * x + y)).toNat = 16 * x + y := by
      rw [UInt8.toNat_ofNat', Nat.mod_eq_of_lt (by omega)]
    have hdiv : (16 * x + y) / 16 = x := by omega
    have hmod : (16 * x + y) % 16 = y := by omega
    rw [hexEncode_cons, hbyte, hdiv, hmod, hhigh, hlow,
      ih hdecoded fun c hc => hlower c (by simp [hc])]

theorem utf8Size_digitChar {n : Nat} (h : n < 16) : (Nat.digitChar n).utf8Size = 1 := by
  have hall : ∀ m ∈ List.range 16, (Nat.digitChar m).utf8Size = 1 := by decide
  exact hall n (List.mem_range.mpr h)

/-- Digits take one byte each. -/
theorem encode_hexEncode_length (bytes : List UInt8) :
    (Utf8.encode (hexEncode bytes)).length = 2 * bytes.length := by
  induction bytes with
  | nil => rfl
  | cons b bytes ih =>
    have hb := b.toNat_lt
    have hhigh := utf8Size_digitChar (n := b.toNat / 16) (by omega)
    have hlow := utf8Size_digitChar (n := b.toNat % 16) (by omega)
    rw [hexEncode_cons, Utf8.encode_cons, Utf8.encode_cons, List.length_append, List.length_append,
      String.length_utf8EncodeChar, String.length_utf8EncodeChar, hhigh, hlow, ih, List.length_cons]
    omega

theorem encode_hexEncode_append (x y : List UInt8) :
    Utf8.encode (hexEncode (x ++ y)) = Utf8.encode (hexEncode x) ++ Utf8.encode (hexEncode y) := by
  simp [hexEncode, Utf8.encode]

theorem hexDigit_mark : hexDigit (Char.ofNat 0xFFFD) = none := by decide

/-- A name of hexadecimal digits is written as it is, if none of them is upper-case. -/
theorem encode_decoded {name : Name} (h : hexDecode (Utf8.fromUtf8Lossy name) = some bytes)
    (hlower : ∀ c ∈ Utf8.fromUtf8Lossy name, c.isUpper = false) :
    Utf8.encode (hexEncode bytes) = name := by
  have hmark : Char.ofNat 0xFFFD ∉ Utf8.fromUtf8Lossy name := by
    intro hmem
    have hdigit := hexDecode_digits h hmem
    rw [hexDigit_mark] at hdigit
    cases hdigit
  rw [hexEncode_hexDecode h hlower, Utf8.encode_fromUtf8Lossy hmark]

end Digits

section Names

variable {dataDir : List UInt8} {names : List Name} {checksum : ObjectChecksum}

/-- The directories have the digits of one byte each. -/
theorem objectNames_eq {x y z : List UInt8} (h : checksum.bytes = x ++ y ++ z) (hx : x.length = 1)
    (hy : y.length = 1) : objectNames checksum =
      [Utf8.encode (hexEncode x), Utf8.encode (hexEncode y), Utf8.encode (hexEncode z)] := by
  have hfirst : (Utf8.encode (hexEncode x)).length = 2 := by rw [encode_hexEncode_length, hx]
  have hsecond : (Utf8.encode (hexEncode y)).length = 2 := by rw [encode_hexEncode_length, hy]
  have hboth : (Utf8.encode (hexEncode x) ++ Utf8.encode (hexEncode y)).length = 4 := by
    rw [List.length_append, hfirst, hsecond]
  rw [objectNames, h, encode_hexEncode_append, encode_hexEncode_append, List.drop_left' hboth,
    List.append_assoc, List.take_left' hfirst, List.drop_left' hfirst, List.take_left' hsecond]

theorem bytes_split (checksum : ObjectChecksum) : ∃ x y z,
    checksum.bytes = x ++ y ++ z ∧ x.length = 1 ∧ y.length = 1 ∧ z.length = 18 := by
  have hlength := checksum.length_eq
  refine ⟨checksum.bytes.take 1, (checksum.bytes.drop 1).take 1, (checksum.bytes.drop 1).drop 1, ?_,
    by simp [hlength], by simp [hlength], by simp [hlength]⟩
  rw [List.append_assoc, List.take_append_drop, List.take_append_drop]

/-- What a decoder accepts of a file: its last three names are the digits of twenty bytes. -/
def SpellsObject (names : List Name) : Prop :=
  ∃ front a b d x y z, names = front ++ [a, b, d] ∧
    hexDecode (Utf8.fromUtf8Lossy a) = some x ∧ hexDecode (Utf8.fromUtf8Lossy b) = some y ∧
    hexDecode (Utf8.fromUtf8Lossy d) = some z ∧ (x ++ y ++ z).length = 20

/-- Three names of two, two and thirty-six bytes, without upper-case letters. -/
def InObjectPlace (names : List Name) : Prop :=
  ∃ a b d, names = [a, b, d] ∧ a.length = 2 ∧ b.length = 2 ∧ d.length = 36 ∧
    ∀ name ∈ names, ∀ c ∈ Utf8.fromUtf8Lossy name, c.isUpper = false

/-- A file is refused, or it is the file of the checksum it is read as. -/
structure Faithful (dataDir : List UInt8) (names : List Name) : Prop where
  noPanic : (looseObjectChecksum (pathBelow dataDir names)).NoPanic
  same : ∀ c, looseObjectChecksum (pathBelow dataDir names) = .ok c →
    looseObjectPath dataDir c = pathBelow dataDir names

/-- Less than three names leave a component that is no number. -/
theorem short_refused (hdata : dataDir ≠ []) (hne : names ≠ []) (h : ∀ name ∈ names, IsName name)
    (hshort : names.length < 3) : (looseObjectChecksum (pathBelow dataDir names)).NoPanic ∧
      ∀ c, looseObjectChecksum (pathBelow dataDir names) ≠ .ok c := by
  have hcomponents := components_pathBelow hdata h
  obtain ⟨first, last, hfirst⟩ : ∃ first last, components dataDir = first ++ [last] :=
    ⟨_, _, (List.dropLast_append_getLast (UnixPath.components_ne_nil hdata)).symm⟩
  obtain _ | ⟨a, _ | ⟨b, _ | ⟨d, rest⟩⟩⟩ := names
  · exact absurd rfl hne
  · have hthree : components (pathBelow dataDir [a]) =
        first ++ [last, .normal looseDirName, .normal a] := by
      rw [hcomponents, hfirst]
      simp
    rw [looseObjectChecksum_eq hthree]
    refine ⟨decodeThree_noPanic _, fun c hc => ?_⟩
    obtain ⟨-, y, -, -, hy, -⟩ := decodeThree_eq_ok.mp hc
    rw [decodeComponent_looseDir] at hy
    cases hy
  · rw [looseObjectChecksum_eq hcomponents]
    refine ⟨decodeThree_noPanic _, fun c hc => ?_⟩
    obtain ⟨x, -, -, hx, -⟩ := decodeThree_eq_ok.mp hc
    rw [decodeComponent_looseDir] at hx
    cases hx
  · simp only [List.length_cons] at hshort
    omega

theorem last_three {α : Type} {xs : List α} (h : ¬ xs.length < 3) :
    ∃ front a b d, xs = front ++ [a, b, d] := by
  have hlength : (xs.drop (xs.length - 3)).length = 3 := by
    rw [List.length_drop]
    omega
  obtain ⟨a, b, d, hlast⟩ := List.length_eq_three.mp hlength
  exact ⟨xs.take (xs.length - 3), a, b, d, hlast ▸ (List.take_append_drop _ xs).symm⟩

theorem looseObjectChecksum_noPanic (hdata : dataDir ≠ []) (hne : names ≠ [])
    (h : ∀ name ∈ names, IsName name) :
    (looseObjectChecksum (pathBelow dataDir names)).NoPanic := by
  by_cases hshort : names.length < 3
  · exact (short_refused hdata hne h hshort).1
  · obtain ⟨front, a, b, d, rfl⟩ := last_three hshort
    have hthree : components (pathBelow dataDir (front ++ [a, b, d])) =
        (components dataDir ++ .normal looseDirName :: front.map .normal) ++
          [.normal a, .normal b, .normal d] := by
      rw [components_pathBelow hdata h]
      simp
    rw [looseObjectChecksum_eq hthree]
    exact decodeThree_noPanic _

theorem looseObjectChecksum_eq_ok (hdata : dataDir ≠ []) (hne : names ≠ [])
    (h : ∀ name ∈ names, IsName name) :
    looseObjectChecksum (pathBelow dataDir names) = .ok checksum ↔
      ∃ front a b d x y z, names = front ++ [a, b, d] ∧
        hexDecode (Utf8.fromUtf8Lossy a) = some x ∧ hexDecode (Utf8.fromUtf8Lossy b) = some y ∧
        hexDecode (Utf8.fromUtf8Lossy d) = some z ∧ checksum.bytes = x ++ y ++ z := by
  by_cases hshort : names.length < 3
  · refine iff_of_false ((short_refused hdata hne h hshort).2 checksum) ?_
    rintro ⟨front, a, b, d, -, -, -, rfl, -⟩
    simp at hshort
  · obtain ⟨front, a, b, d, rfl⟩ := last_three hshort
    have hthree : components (pathBelow dataDir (front ++ [a, b, d])) =
        (components dataDir ++ .normal looseDirName :: front.map .normal) ++
          [.normal a, .normal b, .normal d] := by
      rw [components_pathBelow hdata h]
      simp
    rw [looseObjectChecksum_eq hthree, decodeThree_eq_ok]
    constructor
    · rintro ⟨x, y, z, hx, hy, hz, hbytes⟩
      exact ⟨front, a, b, d, x, y, z, rfl, hx, hy, hz, hbytes⟩
    · rintro ⟨front', a', b', d', x, y, z, hsplit, hx, hy, hz, hbytes⟩
      obtain ⟨-, hlast⟩ := List.append_inj' hsplit rfl
      cases hlast
      exact ⟨x, y, z, hx, hy, hz, hbytes⟩

/-- An object of three names that are written as they are is where it belongs. -/
theorem objectNames_of_place (h : InObjectPlace names) {c : ObjectChecksum}
    {front : List Name} {a b d : Name} {x y z : List UInt8} (hnames : names = front ++ [a, b, d])
    (hx : hexDecode (Utf8.fromUtf8Lossy a) = some x)
    (hy : hexDecode (Utf8.fromUtf8Lossy b) = some y)
    (hz : hexDecode (Utf8.fromUtf8Lossy d) = some z) (hbytes : c.bytes = x ++ y ++ z) :
    objectNames c = names := by
  obtain ⟨a', b', d', hplace, ha, hb, -, hlower⟩ := h
  have hsplit : front ++ [a, b, d] = [] ++ [a', b', d'] := hnames.symm.trans hplace
  obtain ⟨hfront, hlast⟩ := List.append_inj' hsplit rfl
  cases hlast
  subst hfront
  rw [List.nil_append] at hnames
  subst hnames
  have hwritten := encode_decoded hx (hlower a (by simp))
  have hwritten' := encode_decoded hy (hlower b (by simp))
  have hwritten'' := encode_decoded hz (hlower d (by simp))
  have hone : x.length = 1 := by
    have := encode_hexEncode_length x
    rw [hwritten, ha] at this
    omega
  have hsecond : y.length = 1 := by
    have := encode_hexEncode_length y
    rw [hwritten', hb] at this
    omega
  rw [objectNames_eq hbytes hone hsecond, hwritten, hwritten', hwritten'']

theorem objectNames_inPlace (c : ObjectChecksum) : InObjectPlace (objectNames c) := by
  obtain ⟨x, y, z, hbytes, hx, hy, hz⟩ := bytes_split c
  refine ⟨_, _, _, objectNames_eq hbytes hx hy, ?_, ?_, ?_, ?_⟩
  · rw [encode_hexEncode_length, hx]
  · rw [encode_hexEncode_length, hy]
  · rw [encode_hexEncode_length, hz]
  · intro name hname digit hdigit
    rw [objectNames_eq hbytes hx hy] at hname
    have hshape : ∃ bytes, name = Utf8.encode (hexEncode bytes) := by
      simp only [List.mem_cons, List.not_mem_nil, or_false] at hname
      rcases hname with rfl | rfl | rfl <;> exact ⟨_, rfl⟩
    obtain ⟨bytes, rfl⟩ := hshape
    rw [Utf8.fromUtf8Lossy_encode] at hdigit
    exact hexEncode_isUpper hdigit

theorem objectNames_spell (c : ObjectChecksum) : ∃ a b d x y z, objectNames c = [a, b, d] ∧
    hexDecode (Utf8.fromUtf8Lossy a) = some x ∧ hexDecode (Utf8.fromUtf8Lossy b) = some y ∧
    hexDecode (Utf8.fromUtf8Lossy d) = some z ∧ c.bytes = x ++ y ++ z := by
  obtain ⟨x, y, z, hbytes, hx, hy, -⟩ := bytes_split c
  have decoded (bytes : List UInt8) :
      hexDecode (Utf8.fromUtf8Lossy (Utf8.encode (hexEncode bytes))) = some bytes := by
    rw [Utf8.fromUtf8Lossy_encode, hexDecode_hexEncode]
  exact ⟨_, _, _, x, y, z, objectNames_eq hbytes hx hy, decoded x, decoded y, decoded z, hbytes⟩

theorem byte_ne_digit {ch : Char} {b : UInt8} {bytes : List UInt8}
    (hch : ∀ n < 16, Nat.digitChar n ≠ ch) (hb : b < 128) (heq : ch.toNat = b.toNat) :
    b ∉ Utf8.encode (hexEncode bytes) := by
  intro hmem
  obtain ⟨c, hc, hbyte⟩ := List.mem_flatMap.mp hmem
  have hvalue := Text.utf8EncodeChar_ascii hb hbyte
  exact hexEncode_ne hch hc (Char.toNat_inj.mp (hvalue.trans heq.symm))

/-- Digits make the name of a file. -/
theorem isName_encode {bytes : List UInt8} (h : bytes ≠ []) :
    IsName (Utf8.encode (hexEncode bytes)) := by
  have hdot : (46 : UInt8) ∉ Utf8.encode (hexEncode bytes) :=
    byte_ne_digit (by decide : ∀ n < 16, Nat.digitChar n ≠ '.') (by decide) rfl
  refine ⟨fun hempty => h ?_, fun hcurrent => hdot ?_, fun hparent => hdot ?_, ?_⟩
  · have hlength := encode_hexEncode_length bytes
    rw [hempty, List.length_nil] at hlength
    exact List.length_eq_zero_iff.mp (by omega)
  · rw [hcurrent]
    exact List.mem_cons_self
  · rw [hparent]
    exact List.mem_cons_self
  · exact byte_ne_digit (by decide : ∀ n < 16, Nat.digitChar n ≠ '/') (by decide) rfl

theorem objectNames_isName (c : ObjectChecksum) : ∀ name ∈ objectNames c, IsName name := by
  obtain ⟨x, y, z, hbytes, hx, hy, hz⟩ := bytes_split c
  have nonempty {bytes : List UInt8} {n : Nat} (h : bytes.length = n + 1) : bytes ≠ [] :=
    List.ne_nil_of_length_eq_add_one h
  rw [objectNames_eq hbytes hx hy, List.forall_mem_cons, List.forall_mem_cons, List.forall_mem_cons]
  exact ⟨isName_encode (nonempty hx), isName_encode (nonempty hy), isName_encode (nonempty hz),
    nofun⟩

theorem loose_object_names_iff {dataDir : List UInt8} (absolute : hasRoot dataDir = true) :
    (∀ c, looseObjectChecksum (looseObjectPath dataDir c) = .ok c) ∧
      ∀ names, names ≠ [] → (∀ name ∈ names, IsName name) →
        (looseObjectChecksum (pathBelow dataDir names)).NoPanic ∧
          (Faithful dataDir names ↔ (SpellsObject names → InObjectPlace names)) := by
  have hdata : dataDir ≠ [] := by
    intro hempty
    rw [hempty] at absolute
    cases absolute
  constructor
  · intro c
    obtain ⟨a, b, d, x, y, z, hnames, hspelled⟩ := objectNames_spell c
    have hne : objectNames c ≠ [] := by
      rw [hnames]
      exact List.cons_ne_nil _ _
    exact (looseObjectChecksum_eq_ok hdata hne (objectNames_isName c)).mpr
      ⟨[], a, b, d, x, y, z, hnames, hspelled⟩
  · intro names hne hname
    have hsafe := looseObjectChecksum_noPanic hdata hne hname
    refine ⟨hsafe, ?_, ?_⟩
    · intro hfaithful hspells
      obtain ⟨front, a, b, d, x, y, z, hnames, hx, hy, hz, hlength⟩ := hspells
      have hok : looseObjectChecksum (pathBelow dataDir names) = .ok ⟨x ++ y ++ z, hlength⟩ :=
        (looseObjectChecksum_eq_ok hdata hne hname).mpr
          ⟨front, a, b, d, x, y, z, hnames, hx, hy, hz, rfl⟩
      have hsame := pathBelow_injective hdata (objectNames_isName _) hname (hfaithful.same _ hok)
      exact hsame ▸ objectNames_inPlace _
    · intro hplace
      refine ⟨hsafe, fun c hok => ?_⟩
      obtain ⟨front, a, b, d, x, y, z, hnames, hx, hy, hz, hbytes⟩ :=
        (looseObjectChecksum_eq_ok hdata hne hname).mp hok
      have hspells : SpellsObject names :=
        ⟨front, a, b, d, x, y, z, hnames, hx, hy, hz, hbytes ▸ c.length_eq⟩
      have hsame := objectNames_of_place (hplace hspells) hnames hx hy hz hbytes
      exact congrArg (pathBelow dataDir) hsame

theorem relativeChecksum_eq_ok {parts : List (List Char)}
    (hsplit : (String.ofList (['/'].intercalate parts)).toList.splitOn '/' = parts) :
    Store.looseObjectChecksum (String.ofList (['/'].intercalate parts)) = .ok checksum ↔
      ∃ front a b d x y z, parts = front ++ [a, b, d] ∧ hexDecode a = some x ∧
        hexDecode b = some y ∧ hexDecode d = some z ∧ checksum.bytes = x ++ y ++ z := by
  rw [Store.looseObjectChecksum, hsplit]
  by_cases hshort : parts.length < 3
  · refine iff_of_false ?_ ?_
    · obtain _ | ⟨a, _ | ⟨b, _ | ⟨d, rest⟩⟩⟩ := parts
      · intro h
        cases h
      · intro h
        cases h
      · intro h
        cases h
      · simp only [List.length_cons] at hshort
        omega
    · rintro ⟨front, a, b, d, -, -, -, rfl, -⟩
      simp at hshort
  · obtain ⟨front, a, b, d, rfl⟩ := last_three hshort
    clear hsplit hshort
    rw [show (front ++ [a, b, d]).reverse = d :: b :: a :: front.reverse by simp]
    constructor
    · intro h
      cases hx : hexDecode a with
      | none =>
        simp only [hx] at h
        cases h
      | some x =>
        cases hy : hexDecode b with
        | none =>
          simp only [hx, hy] at h
          cases h
        | some y =>
          cases hz : hexDecode d with
          | none =>
            simp only [hx, hy, hz] at h
            cases h
          | some z =>
            simp only [hx, hy, hz] at h
            split_ifs at h
            · cases h
              exact ⟨front, a, b, d, x, y, z, rfl, hx, hy, hz, rfl⟩
            · cases h
    · rintro ⟨front', a', b', d', x, y, z, hlast, hx, hy, hz, hbytes⟩
      obtain ⟨-, hthree⟩ := List.append_inj' hlast rfl
      cases hthree
      have hlength : (x ++ y ++ z).length = 20 := hbytes ▸ checksum.length_eq
      simp only [hx, hy, hz, dif_pos hlength]
      cases checksum
      cases hbytes
      rfl

/-- What a walk with text for names reads is what is read of the path from the loose
directory on. -/
theorem looseObjectChecksum_relative {parts : List (List Char)} (hdata : dataDir ≠ [])
    (hne : parts ≠ []) (hparts : ∀ part ∈ parts, IsName (Utf8.encode part)) :
    looseObjectChecksum (pathBelow dataDir (parts.map Utf8.encode)) = .ok checksum ↔
      Store.looseObjectChecksum (String.ofList (['/'].intercalate parts)) = .ok checksum := by
  have hsplit : (String.ofList (['/'].intercalate parts)).toList.splitOn '/' = parts := by
    rw [String.toList_ofList]
    refine List.splitOn_intercalate '/' (fun part hpart hmem => ?_) hne
    exact (hparts part hpart).no_separator (List.mem_flatMap.mpr ⟨'/', hmem, by decide⟩)
  have hname : ∀ name ∈ parts.map Utf8.encode, IsName name := by
    intro name hname
    obtain ⟨part, hpart, rfl⟩ := List.mem_map.mp hname
    exact hparts part hpart
  rw [looseObjectChecksum_eq_ok hdata (by simpa using hne) hname, relativeChecksum_eq_ok hsplit]
  constructor
  · rintro ⟨front, a, b, d, x, y, z, hlast, hx, hy, hz, hbytes⟩
    have hlength := congrArg List.length hlast
    simp only [List.length_map, List.length_append, List.length_cons, List.length_nil] at hlength
    have hlong : ¬ parts.length < 3 := by omega
    obtain ⟨front', a', b', d', hfront⟩ := last_three hlong
    rw [hfront, List.map_append] at hlast
    obtain ⟨-, hthree⟩ := List.append_inj' hlast rfl
    cases hthree
    rw [Utf8.fromUtf8Lossy_encode] at hx hy hz
    exact ⟨front', a', b', d', x, y, z, hfront, hx, hy, hz, hbytes⟩
  · rintro ⟨front, a, b, d, x, y, z, hlast, hx, hy, hz, hbytes⟩
    refine ⟨front.map Utf8.encode, Utf8.encode a, Utf8.encode b, Utf8.encode d, x, y, z,
      by simp [hlast], ?_, ?_, ?_, hbytes⟩ <;> rwa [Utf8.fromUtf8Lossy_encode]

end Names

theorem loose_object_names_sample :
    (∀ c, looseObjectChecksum (looseObjectPath [47, 100] c) = .ok c) ∧
      ∀ names, names ≠ [] → (∀ name ∈ names, IsName name) →
        (looseObjectChecksum (pathBelow [47, 100] names)).NoPanic ∧
          (Faithful [47, 100] names ↔ (SpellsObject names → InObjectPlace names)) :=
  loose_object_names_iff rfl

namespace UpperSample

/-- The digit `A` over and over. -/
def digits (n : Nat) : Name := List.replicate n 65

def names : List Name := [digits 2, digits 2, digits 36]

theorem names_isName : ∀ name ∈ names, IsName name := by
  have one (n : Nat) : IsName (digits (n + 2)) := by
    refine ⟨nofun, nofun, ?_, fun h => ?_⟩
    · intro h
      exact absurd (List.head_eq_of_cons_eq h) (by decide)
    · exact absurd (List.eq_of_mem_replicate h) (by decide)
  simp only [names, List.forall_mem_cons]
  exact ⟨one 0, one 0, one 34, nofun⟩

theorem decoded : ∃ x y z, hexDecode (Utf8.fromUtf8Lossy (digits 2)) = some x ∧
    hexDecode (Utf8.fromUtf8Lossy (digits 2)) = some y ∧
    hexDecode (Utf8.fromUtf8Lossy (digits 36)) = some z ∧ (x ++ y ++ z).length = 20 :=
  ⟨List.replicate 1 170, List.replicate 1 170, List.replicate 18 170, rfl, rfl, rfl, rfl⟩

theorem has_upper : ∃ c ∈ Utf8.fromUtf8Lossy (digits 2), c.isUpper = true :=
  ⟨'A', by decide, by decide⟩

end UpperSample

/-- A file that spells its object in upper-case letters is read as another file. -/
theorem loose_object_names_ambiguous : ¬ ∀ (dataDir : List UInt8) (names : List Name),
    hasRoot dataDir = true → names ≠ [] → (∀ name ∈ names, IsName name) →
      Faithful dataDir names := by
  intro h
  have hname := UpperSample.names_isName
  have hdata : [47, 100] ≠ ([] : List UInt8) := List.cons_ne_nil _ _
  have hfaithful := h [47, 100] UpperSample.names rfl (List.cons_ne_nil _ _) hname
  obtain ⟨x, y, z, hx, hy, hz, hlength⟩ := UpperSample.decoded
  have hok : looseObjectChecksum (pathBelow [47, 100] UpperSample.names) =
      .ok ⟨x ++ y ++ z, hlength⟩ :=
    (looseObjectChecksum_eq_ok hdata (List.cons_ne_nil _ _) hname).mpr
      ⟨[], _, _, _, x, y, z, rfl, hx, hy, hz, rfl⟩
  have hsame := pathBelow_injective hdata (objectNames_isName _) hname (hfaithful.same _ hok)
  have hplace := objectNames_inPlace ⟨x ++ y ++ z, hlength⟩
  rw [hsame] at hplace
  obtain ⟨-, -, -, -, -, -, -, hlower⟩ := hplace
  obtain ⟨c, hc, hupper⟩ := UpperSample.has_upper
  rw [hlower _ List.mem_cons_self c hc] at hupper
  cases hupper

end Elfshaker.Store.ObjectFile
