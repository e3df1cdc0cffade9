import Elfshaker.Library.Bytes
import Mathlib.Data.List.Forall2
import Mathlib.Tactic.SplitIfs

namespace Elfshaker.Library.MessagePack

/-- Takes a value off the front of some bytes. -/
abbrev Decoder (α : Type) := List UInt8 → Option (α × List UInt8)

/-- What is encoded is decoded, whatever follows it. -/
def Inverts (decode : Decoder α) (encode : α → List UInt8) (x : α) : Prop :=
  ∀ rest, decode (encode x ++ rest) = some (x, rest)

def fromBeBytes (bytes : List UInt8) : Nat :=
  bytes.foldl (fun n b => n * 256 + b.toNat) 0

theorem fromBeBytes_append (bytes : List UInt8) (b : UInt8) :
    fromBeBytes (bytes ++ [b]) = fromBeBytes bytes * 256 + b.toNat := by
  rw [fromBeBytes, List.foldl_append]
  rfl

theorem fromBeBytes_beBytes (k n : Nat) : fromBeBytes (beBytes k n) = n % 256 ^ k := by
  induction k generalizing n with
  | zero => simp [beBytes, fromBeBytes, Nat.mod_one]
  | succ k ih =>
    have hsplit : n % (256 * 256 ^ k) = n % 256 + 256 * (n / 256 % 256 ^ k) := Nat.mod_mul
    rw [beBytes, fromBeBytes_append, ih, UInt8.toNat_ofNat', pow_succ' 256 k, hsplit, Nat.add_comm,
      Nat.mul_comm]

/-- A number of `k` bytes. -/
def readBe (k : Nat) : Decoder Nat := fun bytes =>
  if bytes.length < k then none else some (fromBeBytes (bytes.take k), bytes.drop k)

theorem readBe_beBytes {k n : Nat} (h : n < 256 ^ k) : Inverts (readBe k) (beBytes k) n := by
  intro rest
  have hlen : ¬ (beBytes k n ++ rest).length < k := by simp
  have htake : (beBytes k n ++ rest).take k = beBytes k n :=
    List.take_left' (beBytes_length k n)
  have hdrop : (beBytes k n ++ rest).drop k = rest := List.drop_left' (beBytes_length k n)
  rw [readBe, if_neg hlen, htake, hdrop, fromBeBytes_beBytes, Nat.mod_eq_of_lt h]

section Marks

/-- How the numbers of one kind are marked: the small ones in the first byte, the
others with one byte that says how many follow. -/
structure Marks where
  base : Nat
  count : Nat
  wide : List (UInt8 × Nat)

def writeWide : List (UInt8 × Nat) → Nat → List UInt8
  | [], _ => []
  | (mark, k) :: wide, n => if n < 256 ^ k then mark :: beBytes k n else writeWide wide n

def readWide (mark : UInt8) : List (UInt8 × Nat) → Decoder Nat
  | [], _ => none
  | (mark', k) :: wide, bytes => if mark = mark' then readBe k bytes else readWide mark wide bytes

namespace Marks

def write (marks : Marks) (n : Nat) : List UInt8 :=
  if n < marks.count then [UInt8.ofNat (marks.base + n)] else writeWide marks.wide n

def isSmall (marks : Marks) (b : UInt8) : Bool :=
  marks.base ≤ b.toNat && b.toNat < marks.base + marks.count

def read (marks : Marks) : Decoder Nat
  | [] => none
  | b :: bytes =>
    if marks.isSmall b then some (b.toNat - marks.base, bytes) else readWide b marks.wide bytes

/-- The marks can be told apart, and there is one for every number below the limit. -/
structure Proper (marks : Marks) (limit : Nat) : Prop where
  small : marks.base + marks.count ≤ 256
  apart : ∀ entry ∈ marks.wide, marks.isSmall entry.1 = false
  distinct : (marks.wide.map Prod.fst).Nodup
  reach : ∀ n < limit, n < marks.count ∨ ∃ entry ∈ marks.wide, n < 256 ^ entry.2

end Marks

theorem writeWide_cases {wide : List (UInt8 × Nat)} {n : Nat}
    (h : ∃ entry ∈ wide, n < 256 ^ entry.2) :
    ∃ entry ∈ wide, n < 256 ^ entry.2 ∧ writeWide wide n = entry.1 :: beBytes entry.2 n := by
  induction wide with
  | nil => simp at h
  | cons first wide ih =>
    obtain ⟨mark, k⟩ := first
    rw [writeWide]
    split_ifs with hn
    · exact ⟨(mark, k), List.mem_cons_self, hn, rfl⟩
    · obtain ⟨entry, hentry, hlt⟩ := h
      rcases List.mem_cons.mp hentry with rfl | hentry
      · exact absurd hlt hn
      · obtain ⟨found, hfound, hrest⟩ := ih ⟨entry, hentry, hlt⟩
        exact ⟨found, List.mem_cons_of_mem _ hfound, hrest⟩

theorem readWide_mem {wide : List (UInt8 × Nat)} (distinct : (wide.map Prod.fst).Nodup)
    {entry : UInt8 × Nat} (h : entry ∈ wide) (bytes : List UInt8) :
    readWide entry.1 wide bytes = readBe entry.2 bytes := by
  induction wide with
  | nil => cases h
  | cons first wide ih =>
    obtain ⟨mark, k⟩ := first
    obtain ⟨hnot, distinct⟩ := List.nodup_cons.mp distinct
    rcases List.mem_cons.mp h with rfl | h
    · rw [readWide, if_pos rfl]
    · have hmem : entry.1 ∈ wide.map Prod.fst := List.mem_map_of_mem h
      have hne : entry.1 ≠ mark := fun heq => hnot (heq ▸ hmem)
      rw [readWide, if_neg hne, ih distinct h]

theorem Marks.read_write {marks : Marks} {limit n : Nat} (proper : marks.Proper limit)
    (h : n < limit) : Inverts marks.read marks.write n := by
  intro rest
  by_cases hsmall : n < marks.count
  · have hbyte : (UInt8.ofNat (marks.base + n)).toNat = marks.base + n := by
      rw [UInt8.toNat_ofNat', Nat.mod_eq_of_lt]
      have := proper.small
      omega
    have his : marks.isSmall (UInt8.ofNat (marks.base + n)) = true := by
      rw [isSmall, hbyte]
      simp [hsmall]
    rw [write, if_pos hsmall, List.singleton_append, read, if_pos his, hbyte,
      Nat.add_sub_cancel_left]
  · have hwide := (proper.reach n h).resolve_left hsmall
    obtain ⟨entry, hentry, hlt, heq⟩ := writeWide_cases hwide
    have hnot : ¬ marks.isSmall entry.1 = true := by simp [proper.apart entry hentry]
    rw [write, if_neg hsmall, heq, List.cons_append, read, if_neg hnot,
      readWide_mem proper.distinct hentry]
    exact readBe_beBytes hlt rest

def uintMarks : Marks := ⟨0, 0x80, [(0xCC, 1), (0xCD, 2), (0xCE, 4), (0xCF, 8)]⟩

def arrayMarks : Marks := ⟨0x90, 16, [(0xDC, 2), (0xDD, 4)]⟩

def strMarks : Marks := ⟨0xA0, 32, [(0xD9, 1), (0xDA, 2), (0xDB, 4)]⟩

def binMarks : Marks := ⟨0, 0, [(0xC4, 1), (0xC5, 2), (0xC6, 4)]⟩

theorem uintMarks_proper : uintMarks.Proper (2 ^ 64) :=
  ⟨by decide, by decide, by decide, fun n h => .inr ⟨(0xCF, 8), by decide, by simpa using h⟩⟩

theorem arrayMarks_proper : arrayMarks.Proper (2 ^ 32) :=
  ⟨by decide, by decide, by decide, fun n h => .inr ⟨(0xDD, 4), by decide, by simpa using h⟩⟩

theorem strMarks_proper : strMarks.Proper (2 ^ 32) :=
  ⟨by decide, by decide, by decide, fun n h => .inr ⟨(0xDB, 4), by decide, by simpa using h⟩⟩

theorem binMarks_proper : binMarks.Proper (2 ^ 32) :=
  ⟨by decide, by decide, by decide, fun n h => .inr ⟨(0xC6, 4), by decide, by simpa using h⟩⟩

end Marks

section Values

/-- The values one after another. -/
def readMany (decode : Decoder α) : Nat → Decoder (List α)
  | 0, bytes => some ([], bytes)
  | n + 1, bytes => do
    let (x, bytes) ← decode bytes
    let (xs, bytes) ← readMany decode n bytes
    some (x :: xs, bytes)

theorem readMany_length {decode : Decoder α} {n : Nat} {bytes rest : List UInt8} {xs : List α}
    (h : readMany decode n bytes = some (xs, rest)) : xs.length = n := by
  induction n generalizing bytes xs with
  | zero =>
    cases h
    rfl
  | succ n ih =>
    obtain ⟨⟨x, bytes'⟩, -, h⟩ := Option.bind_eq_some_iff.mp h
    obtain ⟨⟨ys, bytes''⟩, hys, h⟩ := Option.bind_eq_some_iff.mp h
    cases h
    rw [List.length_cons, ih hys]

theorem readMany_flatMap {decode : Decoder α} {encode : α → List UInt8} {xs : List α}
    (h : ∀ x ∈ xs, Inverts decode encode x) (rest : List UInt8) :
    readMany decode xs.length (xs.flatMap encode ++ rest) = some (xs, rest) := by
  induction xs with
  | nil => rfl
  | cons x xs ih =>
    rw [List.flatMap_cons, List.append_assoc, List.length_cons, readMany,
      h x List.mem_cons_self]
    dsimp only [Option.bind_eq_bind, Option.bind_some]
    rw [ih fun y hy => h y (List.mem_cons_of_mem _ hy)]
    rfl

def writeArray (encode : α → List UInt8) (xs : List α) : List UInt8 :=
  arrayMarks.write xs.length ++ xs.flatMap encode

def readArray (decode : Decoder α) : Decoder (List α) := fun bytes => do
  let (n, bytes) ← arrayMarks.read bytes
  readMany decode n bytes

theorem readArray_writeArray {decode : Decoder α} {encode : α → List UInt8} {xs : List α}
    (short : xs.length < 2 ^ 32) (h : ∀ x ∈ xs, Inverts decode encode x) :
    Inverts (readArray decode) (writeArray encode) xs := by
  intro rest
  rw [readArray, writeArray, List.append_assoc, Marks.read_write arrayMarks_proper short]
  exact readMany_flatMap h rest

/-- Bytes whose number stands before them. -/
def writeBlob (marks : Marks) (bytes : List UInt8) : List UInt8 :=
  marks.write bytes.length ++ bytes

def readBlob (marks : Marks) : Decoder (List UInt8) := fun bytes => do
  let (n, bytes) ← marks.read bytes
  if bytes.length < n then none else some (bytes.take n, bytes.drop n)

theorem readBlob_writeBlob {marks : Marks} {limit : Nat} (proper : marks.Proper limit)
    {bytes : List UInt8} (short : bytes.length < limit) :
    Inverts (readBlob marks) (writeBlob marks) bytes := by
  intro rest
  have hlen : ¬ (bytes ++ rest).length < bytes.length := by simp
  rw [readBlob, writeBlob, List.append_assoc, Marks.read_write proper short]
  dsimp only [Option.bind_eq_bind, Option.bind_some]
  rw [if_neg hlen, List.take_left, List.drop_left]

def encodeChars (chars : List Char) : List UInt8 :=
  chars.flatMap String.utf8EncodeChar

def decodeChars : Nat → List UInt8 → Option (List Char)
  | _, [] => some []
  | 0, _ :: _ => none
  | n + 1, b :: bytes => do
    let c ← (b :: bytes).toByteArray.utf8DecodeChar? 0
    let chars ← decodeChars n ((b :: bytes).drop c.utf8Size)
    some (c :: chars)

theorem encodeChars_length_le (chars : List Char) : chars.length ≤ (encodeChars chars).length := by
  induction chars with
  | nil => simp
  | cons c chars ih =>
    have := c.utf8Size_pos
    rw [encodeChars, List.flatMap_cons, List.length_append, String.length_utf8EncodeChar,
      List.length_cons]
    rw [encodeChars] at ih
    omega

theorem decodeChars_encodeChars {chars : List Char} {n : Nat} (h : chars.length ≤ n) :
    decodeChars n (encodeChars chars) = some chars := by
  induction chars generalizing n with
  | nil => cases n <;> rfl
  | cons c chars ih =>
    obtain ⟨n, rfl⟩ : ∃ k, n = k + 1 := ⟨n - 1, by rw [List.length_cons] at h; omega⟩
    have hchar : (encodeChars (c :: chars)).toByteArray.utf8DecodeChar? 0 = some c :=
      List.utf8DecodeChar?_utf8Encode_cons
    have hdrop : (encodeChars (c :: chars)).drop c.utf8Size = encodeChars chars := by
      rw [encodeChars, List.flatMap_cons]
      exact List.drop_left' (String.length_utf8EncodeChar c)
    have hlen := encodeChars_length_le (c :: chars)
    cases hbytes : encodeChars (c :: chars) with
    | nil =>
      rw [hbytes] at hlen
      simp at hlen
    | cons b bytes =>
      rw [decodeChars, ← hbytes, hchar]
      dsimp only [Option.bind_eq_bind, Option.bind_some]
      rw [hdrop, ih (Nat.le_of_succ_le_succ h)]
      rfl

theorem encodeChars_length (s : String) : (encodeChars s.toList).length = s.utf8ByteSize := by
  have hbytes : (encodeChars s.toList).toByteArray = s.toByteArray := String.utf8Encode_toList
  have hsize := congrArg ByteArray.size hbytes
  rwa [List.size_toByteArray] at hsize

def writeString (s : String) : List UInt8 :=
  writeBlob strMarks (encodeChars s.toList)

def readString : Decoder String := fun bytes => do
  let (text, bytes) ← readBlob strMarks bytes
  let chars ← decodeChars text.length text
  some (String.ofList chars, bytes)

theorem readString_writeString {s : String} (short : s.utf8ByteSize < 2 ^ 32) :
    Inverts readString writeString s := by
  intro rest
  rw [← encodeChars_length] at short
  rw [readString, writeString, readBlob_writeBlob strMarks_proper short]
  dsimp only [Option.bind_eq_bind, Option.bind_some]
  rw [decodeChars_encodeChars (encodeChars_length_le _)]
  dsimp only [Option.bind_some]
  rw [String.ofList_toList]

end Values

end Elfshaker.Library.MessagePack
