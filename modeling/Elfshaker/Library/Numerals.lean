import Mathlib.Algebra.GroupWithZero.Nat
import Mathlib.Data.List.Basic
import Mathlib.Data.Nat.Basic
import Mathlib.Tactic.SplitIfs

namespace Elfshaker.Library

/-- `hex::encode`. -/
def hexEncode (bytes : List UInt8) : List Char :=
  bytes.flatMap fun b => [Nat.digitChar (b.toNat / 16), Nat.digitChar (b.toNat % 16)]

def hexDigit (c : Char) : Option Nat :=
  if '0' ≤ c ∧ c ≤ '9' then some (c.toNat - 48)
  else if 'a' ≤ c ∧ c ≤ 'f' then some (c.toNat - 87)
  else if 'A' ≤ c ∧ c ≤ 'F' then some (c.toNat - 55)
  else none

/-- `hex::decode`. -/
def hexDecode : List Char → Option (List UInt8)
  | [] => some []
  | [_] => none
  | high :: low :: rest => do
    let high ← hexDigit high
    let low ← hexDigit low
    let bytes ← hexDecode rest
    some (UInt8.ofNat (16 * high + low) :: bytes)

theorem hexDigit_digitChar {n : Nat} (h : n < 16) : hexDigit (Nat.digitChar n) = some n := by
  have hall : ∀ m ∈ List.range 16, hexDigit (Nat.digitChar m) = some m := by decide
  exact hall n (List.mem_range.mpr h)

theorem hexEncode_cons (b : UInt8) (bytes : List UInt8) :
    hexEncode (b :: bytes) =
      Nat.digitChar (b.toNat / 16) :: Nat.digitChar (b.toNat % 16) :: hexEncode bytes := rfl

theorem hexDecode_hexEncode (bytes : List UInt8) : hexDecode (hexEncode bytes) = some bytes := by
  induction bytes with
  | nil => rfl
  | cons b bytes ih =>
    have hb := b.toNat_lt
    have hhigh := hexDigit_digitChar (n := b.toNat / 16) (by omega)
    have hlow := hexDigit_digitChar (n := b.toNat % 16) (by omega)
    have hbyte : UInt8.ofNat (16 * (b.toNat / 16) + b.toNat % 16) = b := by
      rw [Nat.div_add_mod]
      exact UInt8.ofNat_toNat
    simp only [hexEncode_cons, hexDecode, hhigh, hlow, ih, Option.bind_eq_bind, Option.bind_some, hbyte]

/-- What is decoded has nothing but digits in it. -/
theorem hexDecode_digits {text : List Char} {bytes : List UInt8}
    (h : hexDecode text = some bytes) {c : Char} (hc : c ∈ text) : (hexDigit c).isSome := by
  induction text using hexDecode.induct generalizing bytes with
  | case1 => cases hc
  | case2 => cases h
  | case3 high low rest ih =>
    rw [hexDecode] at h
    simp only [Option.bind_eq_bind, Option.bind_eq_some_iff] at h
    obtain ⟨x, hx, y, hy, decoded, hdecoded, -⟩ := h
    rcases List.mem_cons.mp hc with rfl | hc
    · simp [hx]
    · rcases List.mem_cons.mp hc with rfl | hc
      · simp [hy]
      · exact ih hdecoded hc

theorem hexEncode_length (bytes : List UInt8) : (hexEncode bytes).length = 2 * bytes.length := by
  induction bytes with
  | nil => rfl
  | cons b bytes ih =>
    rw [hexEncode_cons, List.length_cons, List.length_cons, ih, List.length_cons]
    omega

theorem hexEncode_ne {bytes : List UInt8} {c d : Char} (hd : ∀ n < 16, Nat.digitChar n ≠ d)
    (h : c ∈ hexEncode bytes) : c ≠ d := by
  simp only [hexEncode, List.mem_flatMap, List.mem_cons, List.not_mem_nil, or_false] at h
  obtain ⟨b, -, rfl | rfl⟩ := h
  · exact hd _ (by have := b.toNat_lt; omega)
  · exact hd _ (Nat.mod_lt _ (by decide))

def decimalDigit (c : Char) : Option Nat :=
  if '0' ≤ c ∧ c ≤ '9' then some (c.toNat - 48) else none

/-- Reads digits after those that have been read as a number. -/
def readDecimal : Nat → List Char → Option Nat
  | n, [] => some n
  | n, c :: cs => do
    let digit ← decimalDigit c
    readDecimal (10 * n + digit) cs

def dropSign (text : List Char) : List Char :=
  if text.head? = some '+' then text.tail else text

/-- `u64::from_str`. -/
def parseU64 (text : List Char) : Option UInt64 :=
  if dropSign text = [] then none
  else match readDecimal 0 (dropSign text) with
  | some n => if n < 2 ^ 64 then some (UInt64.ofNat n) else none
  | none => none

theorem decimalDigit_eq {c : Char} (h : c.isDigit) : decimalDigit c = some (c.toNat - 48) := by
  rw [Char.isDigit, Bool.and_eq_true, decide_eq_true_iff, decide_eq_true_iff] at h
  exact if_pos h

theorem readDecimal_digits {cs : List Char} (h : ∀ c ∈ cs, c.isDigit) (n : Nat) :
    readDecimal n cs = some (Nat.ofDigitChars 10 cs n) := by
  induction cs generalizing n with
  | nil => rfl
  | cons c cs ih =>
    rw [readDecimal, decimalDigit_eq (h c List.mem_cons_self), Option.bind_eq_bind,
      Option.bind_some, ih fun d hd => h d (List.mem_cons_of_mem _ hd)]
    rfl

theorem readDecimal_chars {text : List Char} {n m : Nat} (h : readDecimal n text = some m)
    {c : Char} (hc : c ∈ text) : (decimalDigit c).isSome := by
  induction text generalizing n with
  | nil => cases hc
  | cons d text ih =>
    rw [readDecimal, Option.bind_eq_bind, Option.bind_eq_some_iff] at h
    obtain ⟨digit, hdigit, h⟩ := h
    rcases List.mem_cons.mp hc with rfl | hc
    · simp [hdigit]
    · exact ih h hc

/-- What is read as a number has nothing in it but digits, and the sign. -/
theorem parseU64_chars {text : List Char} {n : UInt64} (h : parseU64 text = some n) {c : Char}
    (hc : c ∈ text) : c = '+' ∨ (decimalDigit c).isSome := by
  have hsign : c = '+' ∨ c ∈ dropSign text := by
    unfold dropSign
    split_ifs with hhead
    · obtain ⟨rest, rfl⟩ := List.head?_eq_some_iff.mp hhead
      exact List.mem_cons.mp hc
    · exact .inr hc
  refine hsign.imp id fun hdigit => ?_
  unfold parseU64 at h
  split_ifs at h with hempty
  split at h
  · rename_i hread
    exact readDecimal_chars hread hdigit
  · cases h

theorem isDigit_of_mem_decimal {n : Nat} {c : Char} (h : c ∈ Nat.toDigits 10 n) : c.isDigit :=
  Nat.isDigit_of_mem_toDigits (by decide) (by decide) h

/-- What is written of a number is read as this number. -/
theorem parseU64_toDigits (n : UInt64) : parseU64 (Nat.toDigits 10 n.toNat) = some n := by
  have hread : readDecimal 0 (Nat.toDigits 10 n.toNat) = some n.toNat := by
    rw [readDecimal_digits fun c => isDigit_of_mem_decimal, Nat.ofDigitChars_ten_toDigits]
  have hsign : dropSign (Nat.toDigits 10 n.toNat) = Nat.toDigits 10 n.toNat := by
    refine if_neg fun h => ?_
    exact absurd (isDigit_of_mem_decimal (List.mem_of_head? h)) (by decide)
  have hn := n.toNat_lt
  simp [parseU64, hsign, hread, Nat.toDigits_ne_nil, hn]

end Elfshaker.Library
