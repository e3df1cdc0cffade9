import Elfshaker.Library.Text
import Mathlib.Algebra.GroupWithZero.Nat

namespace Elfshaker.Library.Utf8

/-- A byte that continues a character. -/
abbrev IsTrail (b : UInt8) : Prop := 0x80 ≤ b.toNat ∧ b.toNat ≤ 0xBF

/-- How many bytes a character has that starts with this one, and 0 where none does. -/
def charWidth (a : UInt8) : Nat :=
  if a.toNat ≤ 0x7F then 1
  else if 0xC2 ≤ a.toNat ∧ a.toNat ≤ 0xDF then 2
  else if 0xE0 ≤ a.toNat ∧ a.toNat ≤ 0xEF then 3
  else if 0xF0 ≤ a.toNat ∧ a.toNat ≤ 0xF4 then 4
  else 0

/-- What the second byte may be, so that the form is not overlong, no surrogate, and
not beyond the last character. -/
abbrev IsSecond (a b : UInt8) : Prop :=
  IsTrail b ∧ (a.toNat = 0xE0 → 0xA0 ≤ b.toNat) ∧ (a.toNat = 0xED → b.toNat ≤ 0x9F) ∧
    (a.toNat = 0xF0 → 0x90 ≤ b.toNat) ∧ (a.toNat = 0xF4 → b.toNat ≤ 0x8F)

/-- The length of an invalid sequence, where it is not the end that cuts it off. -/
abbrev ErrorLen := Option Nat

/-- The bytes after the second one. `len` of them were read, which make `value`. -/
def decodeTrail : Nat → Nat → Nat → List UInt8 → Except ErrorLen (Char × List UInt8)
  | 0, _, value, bytes => .ok (Char.ofNat value, bytes)
  | _ + 1, _, _, [] => .error none
  | n + 1, len, value, b :: bytes =>
    if IsTrail b then decodeTrail n (len + 1) (64 * value + b.toNat % 64) bytes
    else .error (some len)

/-- The bytes after the first one, `a`. -/
def decodeSecond (a : UInt8) : List UInt8 → Except ErrorLen (Char × List UInt8)
  | [] => .error none
  | b :: bytes =>
    if IsSecond a b then
      decodeTrail (charWidth a - 2) 2 (64 * (a.toNat % 2 ^ (7 - charWidth a)) + b.toNat % 64) bytes
    else .error (some 1)

/-- Takes a character off the front. -/
def decodeChar : List UInt8 → Except ErrorLen (Char × List UInt8)
  | [] => .error none
  | a :: bytes =>
    if charWidth a = 0 then .error (some 1)
    else if charWidth a = 1 then .ok (Char.ofNat a.toNat, bytes)
    else decodeSecond a bytes

/-- Where the valid bytes end, and what is wrong there. -/
structure Utf8Error where
  validUpTo : Nat
  errorLen : ErrorLen
  deriving DecidableEq, Repr

theorem toNat_charOfNat {n : Nat} (h : n < 0xD800 ∨ 0xDFFF < n ∧ n < 0x110000) :
    (Char.ofNat n).toNat = n := by
  have hvalid : n.isValidChar := h
  rw [Char.ofNat, dif_pos hvalid]
  rfl

/-- The bytes of a character, by its number. -/
inductive Encoding (c : Char) : List UInt8 → Prop
  | one {a : UInt8} (small : c.toNat ≤ 0x7F) (first : a.toNat = c.toNat) : Encoding c [a]
  | two {a b : UInt8} (large : 0x80 ≤ c.toNat) (small : c.toNat ≤ 0x7FF)
      (first : a.toNat = c.toNat / 64 + 0xC0) (second : b.toNat = c.toNat % 64 + 0x80) :
      Encoding c [a, b]
  | three {a b d : UInt8} (large : 0x800 ≤ c.toNat) (small : c.toNat ≤ 0xFFFF)
      (first : a.toNat = c.toNat / 4096 + 0xE0) (second : b.toNat = c.toNat / 64 % 64 + 0x80)
      (third : d.toNat = c.toNat % 64 + 0x80) : Encoding c [a, b, d]
  | four {a b d e : UInt8} (large : 0x10000 ≤ c.toNat)
      (first : a.toNat = c.toNat / 262144 + 0xF0) (second : b.toNat = c.toNat / 4096 % 64 + 0x80)
      (third : d.toNat = c.toNat / 64 % 64 + 0x80) (fourth : e.toNat = c.toNat % 64 + 0x80) :
      Encoding c [a, b, d, e]

theorem lt_of_char (c : Char) : c.toNat < 0xD800 ∨ 0xDFFF < c.toNat ∧ c.toNat < 0x110000 :=
  c.valid

theorem toNat_byte {m n : Nat} (h : m = n) (hn : n < 256) : (UInt8.ofNat m).toNat = n := by
  rw [UInt8.toNat_ofNat', h, Nat.mod_eq_of_lt hn]

theorem encoding_utf8EncodeChar (c : Char) : Encoding c (String.utf8EncodeChar c) := by
  have hvalid := lt_of_char c
  have hval : c.val.toNat = c.toNat := rfl
  rw [String.utf8EncodeChar, hval]
  split_ifs with hone htwo hthree
  · exact .one hone (toNat_byte (by omega) (by omega))
  · exact .two (by omega) htwo (toNat_byte (by omega) (by omega)) (toNat_byte (by omega) (by omega))
  · exact .three (by omega) hthree (toNat_byte (by omega) (by omega))
      (toNat_byte (by omega) (by omega)) (toNat_byte (by omega) (by omega))
  · exact .four (by omega) (toNat_byte (by omega) (by omega)) (toNat_byte (by omega) (by omega))
      (toNat_byte (by omega) (by omega)) (toNat_byte (by omega) (by omega))

/-- The number of a character determines its bytes. -/
theorem Encoding.unique {c : Char} {xs ys : List UInt8} (hx : Encoding c xs)
    (hy : Encoding c ys) : xs = ys := by
  cases hx <;> cases hy
  all_goals
    first
    | omega
    | simp only [List.cons.injEq, ← UInt8.toNat_inj, and_true]
      omega

theorem charWidth_cases (a : UInt8) :
    charWidth a = 0 ∧ (0x80 ≤ a.toNat ∧ a.toNat ≤ 0xC1 ∨ 0xF5 ≤ a.toNat) ∨
      charWidth a = 1 ∧ a.toNat ≤ 0x7F ∨
      charWidth a = 2 ∧ 0xC2 ≤ a.toNat ∧ a.toNat ≤ 0xDF ∨
      charWidth a = 3 ∧ 0xE0 ≤ a.toNat ∧ a.toNat ≤ 0xEF ∨
      charWidth a = 4 ∧ 0xF0 ≤ a.toNat ∧ a.toNat ≤ 0xF4 := by
  unfold charWidth
  split_ifs <;> omega

theorem decodeTrail_cons {n len value : Nat} {bytes rest : List UInt8} {c : Char}
    (h : decodeTrail (n + 1) len value bytes = .ok (c, rest)) :
    ∃ b others, bytes = b :: others ∧ IsTrail b ∧
      decodeTrail n (len + 1) (64 * value + b.toNat % 64) others = .ok (c, rest) := by
  cases bytes with
  | nil => cases h
  | cons b others =>
    rw [decodeTrail] at h
    split_ifs at h with hb
    exact ⟨b, others, rfl, hb, h⟩

theorem decodeTrail_zero {len value : Nat} {bytes rest : List UInt8} {c : Char}
    (h : decodeTrail 0 len value bytes = .ok (c, rest)) : c = Char.ofNat value ∧ rest = bytes := by
  cases h
  exact ⟨rfl, rfl⟩

/-- What was decoded is encoded as the bytes that were taken. -/
theorem decodeChar_encoding {bytes rest : List UInt8} {c : Char}
    (h : decodeChar bytes = .ok (c, rest)) : ∃ taken, Encoding c taken ∧ bytes = taken ++ rest := by
  cases bytes with
  | nil => cases h
  | cons a bytes =>
    rw [decodeChar] at h
    split_ifs at h with hzero hone
    · cases h
      have hle : a.toNat ≤ 0x7F := by
        rcases charWidth_cases a with h | h | h | h | h <;> omega
      have hnat := toNat_charOfNat (n := a.toNat) (.inl (by omega))
      exact ⟨[a], .one (by omega) hnat.symm, rfl⟩
    · cases bytes with
      | nil => cases h
      | cons b bytes =>
        rw [decodeSecond] at h
        split_ifs at h with hb
        obtain ⟨⟨hlow, hhigh⟩, hE0, hED, hF0, hF4⟩ := hb
        rcases charWidth_cases a with ⟨hw, -⟩ | ⟨hw, -⟩ | ⟨hw, ha⟩ | ⟨hw, ha⟩ | ⟨hw, ha⟩
        · exact absurd hw hzero
        · exact absurd hw hone
        · rw [hw] at h
          obtain ⟨hc, rfl⟩ := decodeTrail_zero h
          have hnat := congrArg Char.toNat hc
          rw [toNat_charOfNat (by omega)] at hnat
          exact ⟨[a, b], .two (by omega) (by omega) (by omega) (by omega), rfl⟩
        · rw [hw] at h
          obtain ⟨d, others, rfl, hd, h⟩ := decodeTrail_cons h
          obtain ⟨hc, rfl⟩ := decodeTrail_zero h
          have hnat := congrArg Char.toNat hc
          rw [toNat_charOfNat (by omega)] at hnat
          exact ⟨[a, b, d], .three (by omega) (by omega) (by omega) (by omega) (by omega), rfl⟩
        · rw [hw] at h
          obtain ⟨d, others, rfl, hd, h⟩ := decodeTrail_cons h
          obtain ⟨e, others, rfl, he, h⟩ := decodeTrail_cons h
          obtain ⟨hc, rfl⟩ := decodeTrail_zero h
          have hnat := congrArg Char.toNat hc
          rw [toNat_charOfNat (by omega)] at hnat
          exact ⟨[a, b, d, e], .four (by omega) (by omega) (by omega) (by omega) (by omega), rfl⟩

theorem decodeChar_ok {bytes rest : List UInt8} {c : Char} (h : decodeChar bytes = .ok (c, rest)) :
    bytes = String.utf8EncodeChar c ++ rest := by
  obtain ⟨taken, htaken, rfl⟩ := decodeChar_encoding h
  rw [htaken.unique (encoding_utf8EncodeChar c)]

theorem charOfNat_eq {c : Char} {n : Nat} (h : n = c.toNat) : Char.ofNat n = c := by
  rw [h, Char.ofNat_toNat]

theorem decodeTrail_trail {n len value : Nat} {b : UInt8} {bytes : List UInt8} (hb : IsTrail b) :
    decodeTrail (n + 1) len value (b :: bytes) =
      decodeTrail n (len + 1) (64 * value + b.toNat % 64) bytes := if_pos hb

theorem decodeChar_wide {a : UInt8} {bytes : List UInt8} (h : 1 < charWidth a) :
    decodeChar (a :: bytes) = decodeSecond a bytes := by
  rw [decodeChar, if_neg (by omega), if_neg (by omega)]

theorem decodeSecond_second {a b : UInt8} {bytes : List UInt8} (hb : IsSecond a b) :
    decodeSecond a (b :: bytes) = decodeTrail (charWidth a - 2) 2
      (64 * (a.toNat % 2 ^ (7 - charWidth a)) + b.toNat % 64) bytes := if_pos hb

theorem charWidth_two {a : UInt8} (hlow : 0xC2 ≤ a.toNat) (hhigh : a.toNat ≤ 0xDF) :
    charWidth a = 2 := by
  rw [charWidth, if_neg (by omega), if_pos ⟨hlow, hhigh⟩]

theorem charWidth_three {a : UInt8} (hlow : 0xE0 ≤ a.toNat) (hhigh : a.toNat ≤ 0xEF) :
    charWidth a = 3 := by
  rw [charWidth, if_neg (by omega), if_neg (by omega), if_pos ⟨hlow, hhigh⟩]

theorem charWidth_four {a : UInt8} (hlow : 0xF0 ≤ a.toNat) (hhigh : a.toNat ≤ 0xF4) :
    charWidth a = 4 := by
  rw [charWidth, if_neg (by omega), if_neg (by omega), if_neg (by omega), if_pos ⟨hlow, hhigh⟩]

/-- The bytes of a character are decoded as this character. -/
theorem decodeChar_of_encoding {c : Char} {taken : List UInt8} (h : Encoding c taken)
    (rest : List UInt8) : decodeChar (taken ++ rest) = .ok (c, rest) := by
  have hvalid := lt_of_char c
  cases h with
  | @one a small first =>
    have hwidth : charWidth a = 1 := if_pos (first ▸ small)
    rw [List.singleton_append, decodeChar, hwidth, if_neg (by decide), if_pos rfl,
      charOfNat_eq first]
  | @two a b large small first second =>
    have hwidth : charWidth a = 2 := charWidth_two (by omega) (by omega)
    have hsecond : IsSecond a b := ⟨⟨by omega, by omega⟩, by omega, by omega, by omega, by omega⟩
    rw [List.cons_append, decodeChar_wide (by omega), List.cons_append,
      decodeSecond_second hsecond, hwidth, decodeTrail, charOfNat_eq (c := c) (by omega)]
    rfl
  | @three a b d large small first second third =>
    have hwidth : charWidth a = 3 := charWidth_three (by omega) (by omega)
    have hsecond : IsSecond a b := ⟨⟨by omega, by omega⟩, by omega, by omega, by omega, by omega⟩
    rw [List.cons_append, decodeChar_wide (by omega), List.cons_append,
      decodeSecond_second hsecond, hwidth, List.cons_append,
      decodeTrail_trail ⟨by omega, by omega⟩, decodeTrail, charOfNat_eq (c := c) (by omega)]
    rfl
  | @four a b d e large first second third fourth =>
    have hwidth : charWidth a = 4 := charWidth_four (by omega) (by omega)
    have hsecond : IsSecond a b := ⟨⟨by omega, by omega⟩, by omega, by omega, by omega, by omega⟩
    rw [List.cons_append, decodeChar_wide (by omega), List.cons_append,
      decodeSecond_second hsecond, hwidth, List.cons_append,
      decodeTrail_trail ⟨by omega, by omega⟩, List.cons_append,
      decodeTrail_trail ⟨by omega, by omega⟩, decodeTrail, charOfNat_eq (c := c) (by omega)]
    rfl

theorem decodeChar_eq_ok {bytes rest : List UInt8} {c : Char} :
    decodeChar bytes = .ok (c, rest) ↔ bytes = String.utf8EncodeChar c ++ rest := by
  constructor
  · intro h
    obtain ⟨taken, htaken, rfl⟩ := decodeChar_encoding h
    rw [htaken.unique (encoding_utf8EncodeChar c)]
  · rintro rfl
    exact decodeChar_of_encoding (encoding_utf8EncodeChar c) rest

theorem decodeTrail_error {n len value : Nat} {bytes : List UInt8} {error : ErrorLen}
    (h : decodeTrail n len value bytes = .error error) :
    ∀ k, error = some k → len ≤ k ∧ k ≤ len + bytes.length := by
  induction n generalizing len value bytes with
  | zero => cases h
  | succ n ih =>
    cases bytes with
    | nil =>
      cases h
      exact nofun
    | cons b bytes =>
      rw [decodeTrail] at h
      split_ifs at h with hb
      · intro k hk
        obtain ⟨hlow, hhigh⟩ := ih h k hk
        rw [List.length_cons]
        exact ⟨by omega, by omega⟩
      · cases h
        intro k hk
        cases hk
        exact ⟨Nat.le_refl _, Nat.le_add_right _ _⟩

/-- An invalid sequence is not empty, and lies within the bytes. -/
theorem decodeChar_error {bytes : List UInt8} {error : ErrorLen} (h : decodeChar bytes = .error error) :
    ∀ k, error = some k → 0 < k ∧ k ≤ bytes.length := by
  cases bytes with
  | nil =>
    cases h
    exact nofun
  | cons a bytes =>
    have hone : ∀ k, some 1 = some k → 0 < k ∧ k ≤ (a :: bytes).length := by
      intro k hk
      cases hk
      exact ⟨Nat.one_pos, by simp⟩
    rw [decodeChar] at h
    split_ifs at h
    · cases h
      exact hone
    · cases bytes with
      | nil =>
        cases h
        exact nofun
      | cons b bytes =>
        rw [decodeSecond] at h
        split_ifs at h
        · intro k hk
          obtain ⟨hlow, hhigh⟩ := decodeTrail_error h k hk
          simp only [List.length_cons]
          exact ⟨by omega, by omega⟩
        · cases h
          exact hone

theorem decodeChar_shorter {bytes rest : List UInt8} {c : Char}
    (h : decodeChar bytes = .ok (c, rest)) : rest.length < bytes.length := by
  rw [decodeChar_eq_ok.mp h, List.length_append, String.length_utf8EncodeChar]
  have := c.utf8Size_pos
  omega

/-- The characters from here on. -/
def scan (index : Nat) (bytes : List UInt8) : Except Utf8Error (List Char) :=
  match bytes with
  | [] => .ok []
  | a :: bytes =>
    match _hdecode : decodeChar (a :: bytes) with
    | .error errorLen => .error ⟨index, errorLen⟩
    | .ok (c, rest) =>
      match scan (index + c.utf8Size) rest with
      | .error e => .error e
      | .ok chars => .ok (c :: chars)
termination_by bytes.length
decreasing_by exact decodeChar_shorter _hdecode

/-- `str::from_utf8`. -/
def fromUtf8 (bytes : List UInt8) : Except Utf8Error (List Char) := scan 0 bytes

/-- The bytes of some text. -/
def encode (chars : List Char) : List UInt8 := chars.flatMap String.utf8EncodeChar

@[simp] theorem encode_nil : encode [] = [] := rfl

@[simp] theorem encode_cons (c : Char) (chars : List Char) :
    encode (c :: chars) = String.utf8EncodeChar c ++ encode chars := List.flatMap_cons

theorem scan_cons_ok (index : Nat) {bytes rest : List UInt8} {c : Char}
    (h : decodeChar bytes = .ok (c, rest)) :
    scan index bytes = (scan (index + c.utf8Size) rest).map (c :: ·) := by
  cases bytes with
  | nil => cases h
  | cons a bytes =>
    rw [scan]
    split
    · rename_i errorLen herror
      cases herror.symm.trans h
    · rename_i c' rest' hok
      cases hok.symm.trans h
      cases scan (index + c.utf8Size) rest <;> rfl

theorem scan_cons_error {index : Nat} {bytes : List UInt8} {errorLen : ErrorLen} (hne : bytes ≠ [])
    (h : decodeChar bytes = .error errorLen) : scan index bytes = .error ⟨index, errorLen⟩ := by
  cases bytes with
  | nil => exact absurd rfl hne
  | cons a bytes =>
    rw [scan]
    split
    · rename_i errorLen' herror
      cases herror.symm.trans h
      rfl
    · rename_i c rest hok
      cases hok.symm.trans h

theorem scan_encode (index : Nat) (chars : List Char) : scan index (encode chars) = .ok chars := by
  induction chars generalizing index with
  | nil => rw [encode_nil, scan]
  | cons c chars ih =>
    rw [encode_cons, scan_cons_ok index (decodeChar_eq_ok.mpr rfl), ih]
    rfl

/-- The bytes are some text, or they are up to where the error is. -/
theorem scan_cases (index : Nat) (bytes : List UInt8) :
    (∃ chars, bytes = encode chars ∧ scan index bytes = .ok chars) ∨
    ∃ chars rest errorLen, bytes = encode chars ++ rest ∧ rest ≠ [] ∧
      decodeChar rest = .error errorLen ∧
      scan index bytes = .error ⟨index + (encode chars).length, errorLen⟩ := by
  induction hlength : bytes.length using Nat.strongRecOn generalizing index bytes with
  | _ n ih =>
    by_cases hne : bytes = []
    · subst hne
      exact .inl ⟨[], rfl, scan_encode index []⟩
    · cases hdecode : decodeChar bytes with
      | error errorLen =>
        exact .inr ⟨[], bytes, errorLen, rfl, hne, hdecode, scan_cons_error hne hdecode⟩
      | ok taken =>
        obtain ⟨c, rest⟩ := taken
        have hshorter := decodeChar_shorter hdecode
        have hbytes := decodeChar_eq_ok.mp hdecode
        have hscan := scan_cons_ok index hdecode
        rcases ih rest.length (hlength ▸ hshorter) (index + c.utf8Size) rest rfl with
          ⟨chars, rfl, hrest⟩ | ⟨chars, bad, errorLen, rfl, hbad, hdecode, hrest⟩
        · refine .inl ⟨c :: chars, by rw [encode_cons, ← hbytes], ?_⟩
          rw [hscan, hrest]
          rfl
        · refine .inr ⟨c :: chars, bad, errorLen, ?_, hbad, hdecode, ?_⟩
          · rw [encode_cons, List.append_assoc, ← hbytes]
          · rw [hscan, hrest, encode_cons, List.length_append, String.length_utf8EncodeChar,
              ← Nat.add_assoc]
            rfl

theorem fromUtf8_eq_ok {bytes : List UInt8} {chars : List Char} :
    fromUtf8 bytes = .ok chars ↔ bytes = encode chars := by
  constructor
  · intro h
    rcases scan_cases 0 bytes with ⟨chars', hbytes, hok⟩ | ⟨_, _, _, -, -, -, herror⟩
    · cases hok.symm.trans h
      exact hbytes
    · cases herror.symm.trans h
  · rintro rfl
    exact scan_encode 0 chars

/-- What an error says of the bytes. -/
theorem fromUtf8_eq_error {bytes : List UInt8} {e : Utf8Error} (h : fromUtf8 bytes = .error e) :
    ∃ chars rest, bytes = encode chars ++ rest ∧ rest ≠ [] ∧
      e.validUpTo = (encode chars).length ∧ decodeChar rest = .error e.errorLen := by
  rcases scan_cases 0 bytes with ⟨_, _, hok⟩ | ⟨chars, rest, errorLen, hbytes, hne, hdecode, herror⟩
  · cases hok.symm.trans h
  · cases herror.symm.trans h
    exact ⟨chars, rest, hbytes, hne, Nat.zero_add _, hdecode⟩

/-- The characters, with a mark for each invalid sequence. -/
def lossyFrom : Nat → List UInt8 → List Char
  | 0, _ => []
  | _ + 1, [] => []
  | n + 1, a :: bytes =>
    match decodeChar (a :: bytes) with
    | .ok (c, rest) => c :: lossyFrom n rest
    | .error none => [Char.ofNat 0xFFFD]
    | .error (some k) => Char.ofNat 0xFFFD :: lossyFrom n ((a :: bytes).drop k)

/-- `String::from_utf8_lossy`. -/
def fromUtf8Lossy (bytes : List UInt8) : List Char := lossyFrom bytes.length bytes

theorem lossyFrom_encode {chars : List Char} {n : Nat} (h : (encode chars).length ≤ n) :
    lossyFrom n (encode chars) = chars := by
  induction chars generalizing n with
  | nil => cases n <;> rfl
  | cons c chars ih =>
    rw [encode_cons, List.length_append, String.length_utf8EncodeChar] at h
    have hsize := c.utf8Size_pos
    cases n with
    | zero => omega
    | succ n =>
      have hdecode : decodeChar (String.utf8EncodeChar c ++ encode chars) =
          .ok (c, encode chars) := decodeChar_eq_ok.mpr rfl
      rw [encode_cons]
      cases hbytes : String.utf8EncodeChar c ++ encode chars with
      | nil =>
        rw [hbytes] at hdecode
        cases hdecode
      | cons a bytes =>
        rw [hbytes] at hdecode
        rw [lossyFrom, hdecode]
        exact congrArg (c :: ·) (ih (by omega))

/-- Valid text is left as it is. -/
theorem fromUtf8Lossy_encode (chars : List Char) : fromUtf8Lossy (encode chars) = chars :=
  lossyFrom_encode (Nat.le_refl _)

theorem encode_lossyFrom {n : Nat} {bytes : List UInt8} (hn : bytes.length ≤ n)
    (h : Char.ofNat 0xFFFD ∉ lossyFrom n bytes) : encode (lossyFrom n bytes) = bytes := by
  induction n generalizing bytes with
  | zero => rw [List.length_eq_zero_iff.mp (Nat.le_zero.mp hn), lossyFrom, encode_nil]
  | succ n ih =>
    cases bytes with
    | nil => rfl
    | cons a bytes =>
      rw [lossyFrom] at h ⊢
      cases hdecode : decodeChar (a :: bytes) with
      | ok decoded =>
        obtain ⟨c, rest⟩ := decoded
        rw [hdecode] at h
        have hshorter := decodeChar_shorter hdecode
        have hrest := ih (by simp at hn hshorter; omega) (List.not_mem_of_not_mem_cons h)
        change encode (c :: lossyFrom n rest) = _
        rw [encode_cons, hrest, decodeChar_eq_ok.mp hdecode]
      | error errorLen =>
        rw [hdecode] at h
        cases errorLen with
        | none => exact absurd List.mem_cons_self h
        | some k => exact absurd List.mem_cons_self h

/-- Text without a mark is what the bytes encode. -/
theorem encode_fromUtf8Lossy {bytes : List UInt8} (h : Char.ofNat 0xFFFD ∉ fromUtf8Lossy bytes) :
    encode (fromUtf8Lossy bytes) = bytes :=
  encode_lossyFrom (Nat.le_refl _) h

end Elfshaker.Library.Utf8
