import Elfshaker.Format.Legacy
import Elfshaker.Library.Utf8

namespace Elfshaker.Format

open Elfshaker.Library

/-- A byte that continues a character of more than one. -/
def isContinuation (b : UInt8) : Bool := 0x80 ≤ b && b ≤ 0xBF

/-- Takes one well-formed character off the front. -/
def utf8Char : List UInt8 → Option (List UInt8)
  | [] => none
  | a :: bytes =>
    if a < 0x80 then some bytes
    else match bytes with
    | [] => none
    | b :: bytes =>
      if 0xC2 ≤ a && a ≤ 0xDF then if isContinuation b then some bytes else none
      else match bytes with
      | [] => none
      | c :: bytes =>
        if 0xE0 ≤ a && a ≤ 0xEF then
          -- Neither an overlong form nor a surrogate.
          if (a != 0xE0 || 0xA0 ≤ b) && (a != 0xED || b ≤ 0x9F) &&
            isContinuation b && isContinuation c then some bytes else none
        else match bytes with
        | [] => none
        | d :: bytes =>
          if 0xF0 ≤ a && a ≤ 0xF4 && (a != 0xF0 || 0x90 ≤ b) && (a != 0xF4 || b ≤ 0x8F) &&
            isContinuation b && isContinuation c && isContinuation d then some bytes else none

def isUtf8Within : Nat → List UInt8 → Bool
  | _, [] => true
  | 0, _ :: _ => false
  | n + 1, bytes =>
    match utf8Char bytes with
    | some bytes => isUtf8Within n bytes
    | none => false

/-- `str::from_utf8` succeeds. -/
def isUtf8 (bytes : List UInt8) : Bool :=
  isUtf8Within bytes.length bytes

section Target

/-- A target that every platform understands: relative, and without a separator of
another platform. -/
def portableNativeTarget (target : List UInt8) : Option (List UInt8) :=
  if !isUtf8 target || target.isEmpty || target.head? == some slash then none
  else if target.contains backslash then none
  else if hasWindowsPrefix target then none
  else some target

def encodeTarget (target : List UInt8) : List UInt8 × SymlinkTargetEncoding :=
  match portableNativeTarget target with
  | some portable => (portable, .portableUtf8)
  | none => (target, .unixBytes)

def encodeTargetAs (entryPath : PackPath) (target : List UInt8) :
    SymlinkTargetEncoding → Exec PackError (List UInt8)
  | .portableUtf8 =>
    Exec.okOr (.invalidSymlinkTarget entryPath "materialized target is not portable")
      (portableNativeTarget target)
  | .unixBytes => .ok target
  | .windowsUtf16Le => Exec.fail (.unsupportedSymlinkTargetEncoding entryPath .windowsUtf16Le)

def decodePortableTarget (entryPath : PackPath) (bytes : List UInt8) :
    Exec PackError (List UInt8) :=
  if !isUtf8 bytes then Exec.fail (.invalidSymlinkTarget entryPath "invalid UTF-8")
  else if bytes.isEmpty || bytes.contains 0 || bytes.contains backslash then
    Exec.fail (.invalidSymlinkTarget entryPath "invalid portable target")
  else if bytes.head? == some slash || hasWindowsPrefix bytes then
    Exec.fail (.invalidSymlinkTarget entryPath "portable target is absolute")
  else .ok bytes

def decodeUnixTarget (entryPath : PackPath) (bytes : List UInt8) : Exec PackError (List UInt8) :=
  if bytes.contains 0 then
    Exec.fail (.invalidSymlinkTarget entryPath "Unix target contains NUL")
  else .ok bytes

/-- The target that a link is made with, on Unix. -/
def decodeTarget (entryPath : PackPath) (bytes : List UInt8) :
    SymlinkTargetEncoding → Exec PackError (List UInt8)
  | .portableUtf8 => decodePortableTarget entryPath bytes
  | .unixBytes => decodeUnixTarget entryPath bytes
  | .windowsUtf16Le => Exec.fail (.unsupportedSymlinkTargetEncoding entryPath .windowsUtf16Le)

end Target

section Utf8

/-- The comparison of a byte with a range, as numbers. -/
theorem between_iff {a : UInt8} {low high : UInt8} :
    (low ≤ a && a ≤ high) = true ↔ low.toNat ≤ a.toNat ∧ a.toNat ≤ high.toNat := by
  simp [UInt8.le_iff_toNat_le]

theorem not_between {a : UInt8} {low high : UInt8}
    (h : a.toNat < low.toNat ∨ high.toNat < a.toNat) : (low ≤ a && a ≤ high) = false := by
  rw [← Bool.not_eq_true, between_iff]
  omega

theorem not_ascii {a : UInt8} (h : 0x80 ≤ a.toNat) : ¬ a < 0x80 :=
  fun hlt => Nat.not_lt.mpr h (UInt8.lt_iff_toNat_lt.mp hlt)

theorem isContinuation_iff {b : UInt8} : isContinuation b = true ↔ Utf8.IsTrail b := between_iff

/-- A character is taken where its bytes stand at the front. -/
theorem utf8Char_encoding {c : Char} {taken : List UInt8} (h : Utf8.Encoding c taken)
    (rest : List UInt8) : utf8Char (taken ++ rest) = some rest := by
  have hvalid := Utf8.lt_of_char c
  cases h with
  | @one a small first =>
    exact if_pos (UInt8.lt_iff_toNat_lt.mpr (by rw [first]; exact Nat.lt_succ_of_le small))
  | @two a b large small first second =>
    have hb : isContinuation b = true := isContinuation_iff.mpr ⟨by omega, by omega⟩
    have hone : ¬ a < 0x80 := not_ascii (by omega)
    have htwo : (0xC2 ≤ a && a ≤ 0xDF) = true :=
      between_iff.mpr (by simp only [UInt8.reduceToNat]; omega)
    simp [utf8Char, hone, htwo, hb]
  | @three a b d large small first second third =>
    have hb : isContinuation b = true := isContinuation_iff.mpr ⟨by omega, by omega⟩
    have hd : isContinuation d = true := isContinuation_iff.mpr ⟨by omega, by omega⟩
    have hone : ¬ a < 0x80 := not_ascii (by omega)
    have htwo : (0xC2 ≤ a && a ≤ 0xDF) = false :=
      not_between (by simp only [UInt8.reduceToNat]; omega)
    have hthree : (0xE0 ≤ a && a ≤ 0xEF) = true :=
      between_iff.mpr (by simp only [UInt8.reduceToNat]; omega)
    have hlow : (a != 0xE0 || 0xA0 ≤ b) = true := by
      simp only [Bool.or_eq_true, bne_iff_ne, ne_eq, ← UInt8.toNat_inj, decide_eq_true_eq,
        UInt8.le_iff_toNat_le, UInt8.reduceToNat]
      omega
    have hhigh : (a != 0xED || b ≤ 0x9F) = true := by
      simp only [Bool.or_eq_true, bne_iff_ne, ne_eq, ← UInt8.toNat_inj, decide_eq_true_eq,
        UInt8.le_iff_toNat_le, UInt8.reduceToNat]
      omega
    simp only [List.cons_append, List.nil_append, utf8Char, hone, htwo, hthree, hlow, hhigh, hb, hd]
    rfl
  | @four a b d e large first second third fourth =>
    have hb : isContinuation b = true := isContinuation_iff.mpr ⟨by omega, by omega⟩
    have hd : isContinuation d = true := isContinuation_iff.mpr ⟨by omega, by omega⟩
    have he : isContinuation e = true := isContinuation_iff.mpr ⟨by omega, by omega⟩
    have hone : ¬ a < 0x80 := not_ascii (by omega)
    have htwo : (0xC2 ≤ a && a ≤ 0xDF) = false :=
      not_between (by simp only [UInt8.reduceToNat]; omega)
    have hthree : (0xE0 ≤ a && a ≤ 0xEF) = false :=
      not_between (by simp only [UInt8.reduceToNat]; omega)
    have hfour : (0xF0 ≤ a && a ≤ 0xF4) = true :=
      between_iff.mpr (by simp only [UInt8.reduceToNat]; omega)
    have hlow : (a != 0xF0 || 0x90 ≤ b) = true := by
      simp only [Bool.or_eq_true, bne_iff_ne, ne_eq, ← UInt8.toNat_inj, decide_eq_true_eq,
        UInt8.le_iff_toNat_le, UInt8.reduceToNat]
      omega
    have hhigh : (a != 0xF4 || b ≤ 0x8F) = true := by
      simp only [Bool.or_eq_true, bne_iff_ne, ne_eq, ← UInt8.toNat_inj, decide_eq_true_eq,
        UInt8.le_iff_toNat_le, UInt8.reduceToNat]
      omega
    simp only [List.cons_append, List.nil_append, utf8Char, hone, htwo, hthree, hfour, hlow, hhigh,
      hb, hd, he]
    rfl

theorem decodeChar_of_utf8Char {bytes rest : List UInt8} (h : utf8Char bytes = some rest) :
    ∃ c, Utf8.decodeChar bytes = .ok (c, rest) := by
  cases bytes with
  | nil => cases h
  | cons a bytes =>
    have ha := a.toNat_lt
    simp only [utf8Char] at h
    split_ifs at h with hone htwo hthree
    · cases h
      rw [UInt8.lt_iff_toNat_lt] at hone
      have hwidth : Utf8.charWidth a = 1 := if_pos (Nat.le_of_lt_succ hone)
      exact ⟨_, by rw [Utf8.decodeChar, hwidth, if_neg (by decide), if_pos rfl]⟩
    · rw [between_iff] at htwo
      simp only [UInt8.reduceToNat] at htwo
      have hwidth : Utf8.charWidth a = 2 := Utf8.charWidth_two htwo.1 htwo.2
      cases bytes with
      | nil => cases h
      | cons b bytes =>
        dsimp only at h
        split_ifs at h with hb
        cases h
        have hsecond : Utf8.IsSecond a b :=
          ⟨isContinuation_iff.mp hb, by omega, by omega, by omega, by omega⟩
        exact ⟨_, by rw [Utf8.decodeChar_wide (by omega), Utf8.decodeSecond_second hsecond, hwidth,
          Utf8.decodeTrail]⟩
    · rw [between_iff] at hthree
      simp only [UInt8.reduceToNat] at hthree
      have hwidth : Utf8.charWidth a = 3 := Utf8.charWidth_three hthree.1 hthree.2
      obtain _ | ⟨b, _ | ⟨d, bytes⟩⟩ := bytes
      · cases h
      · cases h
      dsimp only at h
      split_ifs at h with hb
      cases h
      simp only [Bool.and_eq_true, Bool.or_eq_true, bne_iff_ne, ne_eq, ← UInt8.toNat_inj,
        decide_eq_true_eq, UInt8.le_iff_toNat_le, UInt8.reduceToNat, isContinuation_iff] at hb
      obtain ⟨⟨⟨hlow, hhigh⟩, htrail⟩, hd⟩ := hb
      have hsecond : Utf8.IsSecond a b := ⟨htrail, by omega, by omega, by omega, by omega⟩
      exact ⟨_, by rw [Utf8.decodeChar_wide (by omega), Utf8.decodeSecond_second hsecond, hwidth,
        Utf8.decodeTrail_trail hd, Utf8.decodeTrail]⟩
    · obtain _ | ⟨b, _ | ⟨d, _ | ⟨e, bytes⟩⟩⟩ := bytes
      · cases h
      · cases h
      · cases h
      dsimp only at h
      split_ifs at h with hb
      cases h
      simp only [Bool.and_eq_true, Bool.or_eq_true, bne_iff_ne, ne_eq, ← UInt8.toNat_inj,
        decide_eq_true_eq, UInt8.le_iff_toNat_le, UInt8.reduceToNat, isContinuation_iff] at hb
      obtain ⟨⟨⟨⟨⟨⟨hfour, hfour'⟩, hlow⟩, hhigh⟩, htrail⟩, hd⟩, he⟩ := hb
      have hwidth : Utf8.charWidth a = 4 := Utf8.charWidth_four hfour hfour'
      have hsecond : Utf8.IsSecond a b := ⟨htrail, by omega, by omega, by omega, by omega⟩
      exact ⟨_, by rw [Utf8.decodeChar_wide (by omega), Utf8.decodeSecond_second hsecond, hwidth,
        Utf8.decodeTrail_trail hd, Utf8.decodeTrail_trail he, Utf8.decodeTrail]⟩

theorem utf8Char_eq_some {bytes rest : List UInt8} :
    utf8Char bytes = some rest ↔ ∃ c, bytes = String.utf8EncodeChar c ++ rest := by
  constructor
  · intro h
    obtain ⟨c, hc⟩ := decodeChar_of_utf8Char h
    exact ⟨c, Utf8.decodeChar_eq_ok.mp hc⟩
  · rintro ⟨c, rfl⟩
    exact utf8Char_encoding (Utf8.encoding_utf8EncodeChar c) rest

theorem isUtf8Within_iff {n : Nat} {bytes : List UInt8} (h : bytes.length ≤ n) :
    isUtf8Within n bytes = true ↔ ∃ chars, bytes = Utf8.encode chars := by
  induction n generalizing bytes with
  | zero =>
    rw [List.eq_nil_of_length_eq_zero (Nat.le_zero.mp h)]
    exact ⟨fun _ => ⟨[], rfl⟩, fun _ => rfl⟩
  | succ n ih =>
    cases bytes with
    | nil => exact ⟨fun _ => ⟨[], rfl⟩, fun _ => rfl⟩
    | cons b bytes =>
      simp only [isUtf8Within]
      constructor
      · intro hvalid
        split at hvalid
        · rename_i rest hrest
          obtain ⟨c, hc⟩ := utf8Char_eq_some.mp hrest
          have hlength := congrArg List.length hc
          rw [List.length_append, String.length_utf8EncodeChar] at hlength
          have := c.utf8Size_pos
          obtain ⟨chars, hchars⟩ := (ih (by omega)).mp hvalid
          exact ⟨c :: chars, by rw [hc, hchars, Utf8.encode_cons]⟩
        · cases hvalid
      · rintro ⟨chars, hchars⟩
        cases chars with
        | nil => cases hchars
        | cons c chars =>
          rw [Utf8.encode_cons] at hchars
          have hlength := congrArg List.length hchars
          rw [List.length_append, String.length_utf8EncodeChar] at hlength
          have := c.utf8Size_pos
          rw [utf8Char_eq_some.mpr ⟨c, hchars⟩]
          exact (ih (by omega)).mpr ⟨chars, rfl⟩

/-- The bytes are valid where they are those of some text. -/
theorem isUtf8_iff {bytes : List UInt8} :
    isUtf8 bytes = true ↔ ∃ text : String, bytes = Text.encodeUtf8 text := by
  rw [isUtf8, isUtf8Within_iff (Nat.le_refl _)]
  constructor
  · rintro ⟨chars, hchars⟩
    exact ⟨String.ofList chars, by rw [hchars, Text.encodeUtf8, String.toList_ofList, Utf8.encode]⟩
  · rintro ⟨text, htext⟩
    exact ⟨text.toList, htext⟩

end Utf8

/-- What is decoded was not changed. -/
theorem decodeTarget_bytes {path : PackPath} {bytes target : List UInt8}
    {encoding : SymlinkTargetEncoding} (h : decodeTarget path bytes encoding = .ok target) :
    target = bytes := by
  cases encoding with
  | portableUtf8 =>
    simp only [decodeTarget, decodePortableTarget] at h
    split_ifs at h
    all_goals cases h
    rfl
  | unixBytes =>
    simp only [decodeTarget, decodeUnixTarget] at h
    split_ifs at h
    all_goals cases h
    rfl
  | windowsUtf16Le => cases h

/-- A link that was made from some bytes is read back as these bytes. -/
theorem encodeTargetAs_of_decodeTarget {path : PackPath} {bytes target : List UInt8}
    {encoding : SymlinkTargetEncoding} (h : decodeTarget path bytes encoding = .ok target) :
    encodeTargetAs path target encoding = .ok bytes := by
  obtain rfl := decodeTarget_bytes h
  cases encoding with
  | portableUtf8 =>
    simp only [decodeTarget, decodePortableTarget] at h
    split_ifs at h with hutf8 hform habsolute
    · cases h
    · cases h
    · cases h
    · simp only [Bool.or_eq_true, not_or, Bool.not_eq_true] at hutf8 hform habsolute
      simp only [encodeTargetAs, portableNativeTarget, hutf8, hform, habsolute, Bool.or_self,
        Bool.false_eq_true, if_false, Exec.okOr_some]
  | unixBytes => rfl
  | windowsUtf16Le => cases h

/-- A target that the system can hold, which is not empty and has no zero byte, is
decoded from what it is encoded as. -/
theorem decodeTarget_encodeTarget (path : PackPath) {target : List UInt8} (nul : 0 ∉ target) :
    decodeTarget path (encodeTarget target).1 (encodeTarget target).2 = .ok target := by
  unfold encodeTarget
  cases hportable : portableNativeTarget target with
  | none => simp [decodeTarget, decodeUnixTarget, nul]
  | some portable =>
    unfold portableNativeTarget at hportable
    split_ifs at hportable with hutf8 hback hprefix
    cases hportable
    simp only [Bool.or_eq_true, not_or, Bool.not_eq_true] at hutf8 hback hprefix
    have hnul : target.contains 0 = false := by simpa using nul
    simp only [decodeTarget, decodePortableTarget, hutf8, hback, hprefix, hnul, Bool.or_self,
      Bool.false_eq_true, if_false]

theorem encodeTarget_portable_iff {target : List UInt8} (nonempty : target ≠ []) :
    (encodeTarget target).2 = .portableUtf8 ↔
      (∃ text : String, target = Text.encodeUtf8 text) ∧ target.head? ≠ some slash ∧
        backslash ∉ target ∧ hasWindowsPrefix target = false := by
  have hempty : target.isEmpty = false := by simpa using nonempty
  rw [← isUtf8_iff]
  unfold encodeTarget portableNativeTarget
  cases hutf8 : isUtf8 target <;> cases hprefix : hasWindowsPrefix target <;>
    by_cases hhead : target.head? = some slash <;> by_cases hback : backslash ∈ target <;>
    simp [hempty, hhead, hback]

/-- A target of a link is stored, and made again, as it is. The encoder chooses the
portable form for the targets that are portable, and the decoder takes these. -/
theorem symlink_target_round_trip (path : PackPath) {target : List UInt8}
    (nonempty : target ≠ []) (nul : 0 ∉ target) :
    decodeTarget path (encodeTarget target).1 (encodeTarget target).2 = .ok target ∧
    encodeTargetAs path target (encodeTarget target).2 = .ok (encodeTarget target).1 ∧
    ((encodeTarget target).2 = .portableUtf8 ↔
      (∃ text : String, target = Text.encodeUtf8 text) ∧ target.head? ≠ some slash ∧
        backslash ∉ target ∧ hasWindowsPrefix target = false) ∧
    ((encodeTarget target).2 = .portableUtf8 → decodePortableTarget path target = .ok target) := by
  have hdecode := decodeTarget_encodeTarget path nul
  have hbytes := decodeTarget_bytes hdecode
  refine ⟨hdecode, encodeTargetAs_of_decodeTarget hdecode, encodeTarget_portable_iff nonempty, ?_⟩
  intro hportable
  rw [hportable, ← hbytes] at hdecode
  exact hdecode

theorem symlink_target_round_trip_relative :
    decodeTarget .a (encodeTarget [46, 46, slash, 98]).1 (encodeTarget [46, 46, slash, 98]).2 =
      .ok [46, 46, slash, 98] := by
  have nonempty : [46, 46, slash, 98] ≠ [] := by simp
  have nul : 0 ∉ [46, 46, slash, 98] := by decide
  exact (symlink_target_round_trip .a nonempty nul).1

end Elfshaker.Format
