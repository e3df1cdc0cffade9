import Elfshaker.Format.PackPath
import Elfshaker.Library.Exec
import Elfshaker.Library.Numerals
import Elfshaker.Library.Utf8

namespace Elfshaker.Format

open Elfshaker.Library

/-- The byte `b'%'`. -/
def percent : UInt8 := 37

/-- A digit of `{:X}`. -/
def upperDigit (n : Nat) : Char := Char.ofNat (if n < 10 then 48 + n else 55 + n)

/-- `%{byte:02X}`. -/
def escapeByte (b : UInt8) : List Char :=
  ['%', upperDigit (b.toNat / 16), upperDigit (b.toNat % 16)]

/-- `char::is_control`. -/
def isControl (c : Char) : Bool := c.toNat < 0x20 || 0x7F ≤ c.toNat && c.toNat ≤ 0x9F

def escapeChar (c : Char) : List Char :=
  if c == '%' || isControl c then (String.utf8EncodeChar c).flatMap escapeByte else [c]

def pushEscapedStr (output value : List Char) : List Char := output ++ value.flatMap escapeChar

section Escape

variable {ε : Type}

/-- `&bytes[start..stop]`. -/
def slice (bytes : List UInt8) (start stop : Nat) : Exec ε (List UInt8) := do
  Exec.assert (start ≤ stop && stop ≤ bytes.length)
  .ok ((bytes.take stop).drop start)

/-- One round of the loop: the text before an error, and the bytes that are in error. -/
def escapeError (output : List Char) (remaining : List UInt8) (error : Utf8.Utf8Error) :
    Exec ε (List Char × List UInt8) := do
  let validLen := error.validUpTo
  let front ← slice remaining 0 validLen
  let valid ← Exec.unwrap (Utf8.fromUtf8 front).toOption
  let invalidLen := error.errorLen.getD (remaining.length - validLen)
  let invalid ← slice remaining validLen (validLen + invalidLen)
  let rest ← slice remaining (validLen + invalidLen) remaining.length
  .ok (pushEscapedStr output valid ++ invalid.flatMap escapeByte, rest)

/-- The loop, as far as the fuel lasts. -/
def escapeLoop : Nat → List Char → List UInt8 → Option (Exec ε (List Char))
  | _, output, [] => some (.ok output)
  | 0, _, _ :: _ => none
  | fuel + 1, output, remaining =>
    match Utf8.fromUtf8 remaining with
    | .ok valid => some (.ok (pushEscapedStr output valid))
    | .error error =>
      match escapeError output remaining error with
      | .ok (output, rest) => escapeLoop fuel output rest
      | .error failure => some (.error failure)

def escapeBytes (bytes : List UInt8) : Option (Exec ε (List Char)) :=
  escapeLoop bytes.length [] bytes

/-- What a path is displayed as. -/
def PackPath.escaped (path : PackPath) : Option (Exec ε (List Char)) := escapeBytes path.bytes

end Escape

section Decode

/-- A byte from the two digits after a percent sign. -/
def hexByte (high low : UInt8) : Option UInt8 := do
  let high ← hexDigit (Char.ofNat high.toNat)
  let low ← hexDigit (Char.ofNat low.toNat)
  some (UInt8.ofNat (16 * high + low))

/-- The usual decoding: a percent sign that two digits follow is a byte, and all else
stands for itself. -/
def percentDecode : List UInt8 → List UInt8
  | a :: b :: c :: rest =>
    if a = percent then
      match hexByte b c with
      | some byte => byte :: percentDecode rest
      | none => a :: percentDecode (b :: c :: rest)
    else a :: percentDecode (b :: c :: rest)
  | bytes => bytes

/-- Text that is decoded to these bytes, whatever follows it. -/
def Unescapes (text : List Char) (bytes : List UInt8) : Prop :=
  ∀ rest, percentDecode (Utf8.encode text ++ rest) = bytes ++ percentDecode rest

theorem percentDecode_cons {b : UInt8} (h : b ≠ percent) (rest : List UInt8) :
    percentDecode (b :: rest) = b :: percentDecode rest := by
  match rest with
  | [] => rfl
  | [_] => rfl
  | _ :: _ :: _ => rw [percentDecode, if_neg h]

theorem percentDecode_append {bytes : List UInt8} (h : percent ∉ bytes) (rest : List UInt8) :
    percentDecode (bytes ++ rest) = bytes ++ percentDecode rest := by
  induction bytes with
  | nil => rfl
  | cons b bytes ih =>
    rw [List.mem_cons, not_or] at h
    obtain ⟨hb, hbytes⟩ := h
    rw [List.cons_append, percentDecode_cons (Ne.symm hb), ih hbytes, List.cons_append]

theorem upperDigit_toNat {n : Nat} (h : n < 16) :
    (upperDigit n).toNat = if n < 10 then 48 + n else 55 + n := by
  unfold upperDigit
  split <;> exact Utf8.toNat_charOfNat (.inl (by omega))

theorem hexDigit_upperDigit {n : Nat} (h : n < 16) : hexDigit (upperDigit n) = some n := by
  have hall : ∀ m ∈ List.range 16, hexDigit (upperDigit m) = some m := by decide
  exact hall n (List.mem_range.mpr h)

/-- A digit is one byte, which stands for it. -/
theorem encode_upperDigit {n : Nat} (h : n < 16) :
    ∃ b : UInt8, String.utf8EncodeChar (upperDigit n) = [b] ∧
      Char.ofNat b.toNat = upperDigit n := by
  have hsmall : (upperDigit n).toNat ≤ 0x7F := by
    rw [upperDigit_toNat h]
    split <;> omega
  have hencoding := Utf8.encoding_utf8EncodeChar (upperDigit n)
  generalize String.utf8EncodeChar (upperDigit n) = taken at hencoding
  cases hencoding with
  | @one a _ first => exact ⟨a, rfl, Utf8.charOfNat_eq first⟩
  | two => omega
  | three => omega
  | four => omega

theorem unescapes_nil : Unescapes [] [] := fun _ => rfl

theorem Unescapes.append {text text' : List Char} {bytes bytes' : List UInt8}
    (h : Unescapes text bytes) (h' : Unescapes text' bytes') :
    Unescapes (text ++ text') (bytes ++ bytes') := by
  intro rest
  have hencode : Utf8.encode (text ++ text') = Utf8.encode text ++ Utf8.encode text' :=
    List.flatMap_append
  rw [hencode, List.append_assoc, h, h', List.append_assoc]

/-- The escape of a byte is decoded to this byte. -/
theorem unescapes_escapeByte (b : UInt8) : Unescapes (escapeByte b) [b] := by
  intro rest
  have hb := b.toNat_lt
  have hhigh : b.toNat / 16 < 16 := by omega
  have hlow : b.toNat % 16 < 16 := by omega
  obtain ⟨high, hencodeHigh, hcharHigh⟩ := encode_upperDigit hhigh
  obtain ⟨low, hencodeLow, hcharLow⟩ := encode_upperDigit hlow
  have hbytes : Utf8.encode (escapeByte b) = [percent, high, low] := by
    rw [escapeByte, Utf8.encode_cons, Utf8.encode_cons, Utf8.encode_cons, hencodeHigh, hencodeLow]
    rfl
  have hbyte : hexByte high low = some b := by
    rw [hexByte, hcharHigh, hcharLow, hexDigit_upperDigit hhigh, hexDigit_upperDigit hlow]
    have hnat := Nat.div_add_mod b.toNat 16
    exact congrArg some (by rw [hnat, UInt8.ofNat_toNat])
  rw [hbytes]
  simp only [List.cons_append, List.nil_append, percentDecode, if_true, hbyte]

theorem unescapes_escapeBytes (bytes : List UInt8) :
    Unescapes (bytes.flatMap escapeByte) bytes := by
  induction bytes with
  | nil => exact unescapes_nil
  | cons b bytes ih => exact (unescapes_escapeByte b).append ih

/-- A character is escaped where its bytes could be read as an escape. -/
theorem unescapes_escapeChar (c : Char) :
    Unescapes (escapeChar c) (String.utf8EncodeChar c) := by
  unfold escapeChar
  split
  · exact unescapes_escapeBytes (String.utf8EncodeChar c)
  · rename_i hplain
    have hpercent : percent ∉ String.utf8EncodeChar c := by
      intro hmem
      have hnat := Text.utf8EncodeChar_ascii (by decide) hmem
      have hc : c = '%' := Char.toNat_inj.mp hnat
      exact hplain (by simp [hc])
    intro rest
    have hencode : Utf8.encode [c] = String.utf8EncodeChar c := List.append_nil _
    rw [hencode, percentDecode_append hpercent]

theorem unescapes_pushed (chars : List Char) :
    Unescapes (chars.flatMap escapeChar) (Utf8.encode chars) := by
  induction chars with
  | nil => exact unescapes_nil
  | cons c chars ih => exact (unescapes_escapeChar c).append ih

end Decode

section Controls

theorem isControl_upperDigit {n : Nat} (h : n < 16) : isControl (upperDigit n) = false := by
  have hall : ∀ m ∈ List.range 16, isControl (upperDigit m) = false := by decide
  exact hall n (List.mem_range.mpr h)

theorem isControl_escapeByte {b : UInt8} {c : Char} (h : c ∈ escapeByte b) :
    isControl c = false := by
  have hb := b.toNat_lt
  simp only [escapeByte, List.mem_cons, List.not_mem_nil, or_false] at h
  rcases h with rfl | rfl | rfl
  · rfl
  · exact isControl_upperDigit (by omega)
  · exact isControl_upperDigit (by omega)

theorem isControl_escapeBytes {bytes : List UInt8} {c : Char} (h : c ∈ bytes.flatMap escapeByte) :
    isControl c = false := by
  obtain ⟨b, -, hc⟩ := List.mem_flatMap.mp h
  exact isControl_escapeByte hc

theorem isControl_pushed {chars : List Char} {c : Char} (h : c ∈ chars.flatMap escapeChar) :
    isControl c = false := by
  obtain ⟨d, -, hc⟩ := List.mem_flatMap.mp h
  unfold escapeChar at hc
  split at hc
  · exact isControl_escapeBytes hc
  · rename_i hplain
    rw [List.mem_singleton] at hc
    subst hc
    simp only [Bool.or_eq_true, not_or, Bool.not_eq_true] at hplain
    exact hplain.2

end Controls

section Loop

variable {ε : Type}

/-- Text that stands for some bytes, without a control character. -/
structure Displays (text : List Char) (bytes : List UInt8) : Prop where
  unescapes : Unescapes text bytes
  readable : ∀ c ∈ text, isControl c = false

theorem displays_nil : Displays [] [] := ⟨unescapes_nil, nofun⟩

theorem Displays.append {text text' : List Char} {bytes bytes' : List UInt8}
    (h : Displays text bytes) (h' : Displays text' bytes') :
    Displays (text ++ text') (bytes ++ bytes') := by
  refine ⟨h.unescapes.append h'.unescapes, ?_⟩
  intro c hc
  rcases List.mem_append.mp hc with hc | hc
  · exact h.readable c hc
  · exact h'.readable c hc

theorem displays_pushed (chars : List Char) :
    Displays (chars.flatMap escapeChar) (Utf8.encode chars) :=
  ⟨unescapes_pushed chars, fun _ => isControl_pushed⟩

theorem displays_escapeBytes (bytes : List UInt8) : Displays (bytes.flatMap escapeByte) bytes :=
  ⟨unescapes_escapeBytes bytes, fun _ => isControl_escapeBytes⟩

theorem slice_append {bytes middle after : List UInt8} {start stop : Nat} (before : List UInt8)
    (hbytes : bytes = before ++ (middle ++ after)) (hstart : before.length = start)
    (hstop : start + middle.length = stop) : slice (ε := ε) bytes start stop = .ok middle := by
  subst hbytes hstart hstop
  have hassert : Exec.assert (ε := ε) (before.length ≤ before.length + middle.length &&
      before.length + middle.length ≤ (before ++ (middle ++ after)).length) = .ok () :=
    Exec.assert_eq_ok.mpr (by simp only [List.length_append]; simp)
  rw [slice, hassert, Exec.ok_bind, List.take_length_add_append, List.take_left, List.drop_left]

/-- A round takes what it displays, and one byte at least. -/
theorem escapeError_ok {remaining : List UInt8} {error : Utf8.Utf8Error} (output : List Char)
    (h : Utf8.fromUtf8 remaining = .error error) :
    ∃ text taken rest, escapeError (ε := ε) output remaining error = .ok (output ++ text, rest) ∧
      remaining = taken ++ rest ∧ taken ≠ [] ∧ Displays text taken := by
  obtain ⟨chars, bad, hremaining, hbad, hvalid, hdecode⟩ := Utf8.fromUtf8_eq_error h
  have hlength := congrArg List.length hremaining
  rw [List.length_append] at hlength
  have hpos := List.length_pos_of_ne_nil hbad
  obtain ⟨n, hn, hnpos, hnle⟩ : ∃ n, error.errorLen.getD
      (remaining.length - error.validUpTo) = n ∧ 0 < n ∧ n ≤ bad.length := by
    cases herror : error.errorLen with
    | none => exact ⟨_, rfl, by rw [Option.getD_none]; omega, by rw [Option.getD_none]; omega⟩
    | some k => exact ⟨k, rfl, Utf8.decodeChar_error hdecode k herror⟩
  -- The bytes are text, then what is in error, then the rest.
  have hparts : remaining = Utf8.encode chars ++ (bad.take n ++ bad.drop n) := by
    rw [List.take_append_drop, hremaining]
  have htake : (bad.take n).length = n := by
    rw [List.length_take, Nat.min_eq_left hnle]
  have hfront : slice (ε := ε) remaining 0 error.validUpTo = .ok (Utf8.encode chars) :=
    slice_append [] hparts rfl (by omega)
  have htext : (Utf8.fromUtf8 (Utf8.encode chars)).toOption = some chars := by
    rw [Utf8.fromUtf8_eq_ok.mpr rfl]
    rfl
  have hinvalid : slice (ε := ε) remaining error.validUpTo (error.validUpTo + n) =
      .ok (bad.take n) := slice_append (Utf8.encode chars) hparts hvalid.symm (by omega)
  have hrest : slice (ε := ε) remaining (error.validUpTo + n) remaining.length =
      .ok (bad.drop n) := by
    have hend : remaining = (Utf8.encode chars ++ bad.take n) ++ (bad.drop n ++ []) := by
      rw [List.append_nil, List.append_assoc, ← hparts]
    refine slice_append (Utf8.encode chars ++ bad.take n) hend ?_ ?_
    · rw [List.length_append, htake, hvalid]
    · rw [List.length_drop]
      omega
  refine ⟨chars.flatMap escapeChar ++ (bad.take n).flatMap escapeByte,
    Utf8.encode chars ++ bad.take n, bad.drop n, ?_, ?_, ?_, ?_⟩
  · simp only [escapeError, hn, hfront, htext, hinvalid, hrest, Exec.unwrap_some, Exec.ok_bind,
      pushEscapedStr, List.append_assoc]
  · rw [List.append_assoc, ← hparts]
  · intro hnil
    rw [(List.append_eq_nil_iff.mp hnil).2] at htake
    rw [← htake] at hnpos
    cases hnpos
  · exact (displays_pushed chars).append (displays_escapeBytes (bad.take n))

/-- As many rounds as there are bytes are enough, and all that is put out displays them. -/
theorem escapeLoop_ends {fuel : Nat} {remaining : List UInt8} (output : List Char)
    (h : remaining.length ≤ fuel) : ∃ text,
      escapeLoop (ε := ε) fuel output remaining = some (.ok (output ++ text)) ∧
        Displays text remaining := by
  induction fuel generalizing output remaining with
  | zero =>
    rw [List.eq_nil_of_length_eq_zero (Nat.le_zero.mp h)]
    exact ⟨[], by rw [List.append_nil]; rfl, displays_nil⟩
  | succ fuel ih =>
    cases remaining with
    | nil => exact ⟨[], by rw [List.append_nil]; rfl, displays_nil⟩
    | cons b bytes =>
      cases hutf8 : Utf8.fromUtf8 (b :: bytes) with
      | ok valid =>
        refine ⟨valid.flatMap escapeChar, ?_, ?_⟩
        · simp only [escapeLoop, hutf8, pushEscapedStr]
        · rw [Utf8.fromUtf8_eq_ok.mp hutf8]
          exact displays_pushed valid
      | error error =>
        obtain ⟨text, taken, rest, hround, hbytes, htaken, hdisplays⟩ :=
          escapeError_ok (ε := ε) output hutf8
        have hshorter := congrArg List.length hbytes
        rw [List.length_append] at hshorter
        have hpos := List.length_pos_of_ne_nil htaken
        have hfuel : rest.length ≤ fuel := by omega
        obtain ⟨others, hothers, hrest⟩ := ih (output ++ text) hfuel
        refine ⟨text ++ others, ?_, ?_⟩
        · simp only [escapeLoop, hutf8, hround, hothers, List.append_assoc]
        · rw [hbytes]
          exact hdisplays.append hrest

end Loop

/-- The display of any bytes ends, holds no control character, and is decoded to the
bytes, so that two paths are never displayed alike. -/
theorem escaped_reversible {ε : Type} :
    (∀ bytes, ∃ text, escapeBytes (ε := ε) bytes = some (.ok text) ∧
      (∀ c ∈ text, isControl c = false) ∧ percentDecode (Utf8.encode text) = bytes) ∧
    ∀ p q : PackPath, p.escaped (ε := ε) = q.escaped → p = q := by
  have hdisplay (bytes : List UInt8) : ∃ text, escapeBytes (ε := ε) bytes = some (.ok text) ∧
      (∀ c ∈ text, isControl c = false) ∧ percentDecode (Utf8.encode text) = bytes := by
    obtain ⟨text, htext, hdisplays⟩ := escapeLoop_ends (ε := ε) [] (Nat.le_refl bytes.length)
    have hdecode := hdisplays.unescapes []
    rw [List.append_nil] at hdecode
    refine ⟨text, htext, hdisplays.readable, hdecode.trans ?_⟩
    exact List.append_nil bytes
  refine ⟨hdisplay, ?_⟩
  intro p q h
  obtain ⟨text, htext, -, hp⟩ := hdisplay p.bytes
  obtain ⟨text', htext', -, hq⟩ := hdisplay q.bytes
  have hsame : some (Except.ok text) = some (Except.ok text') :=
    htext.symm.trans (h.trans htext')
  cases hsame
  exact PackPath.ext_bytes (hp.symm.trans hq)

end Elfshaker.Format
