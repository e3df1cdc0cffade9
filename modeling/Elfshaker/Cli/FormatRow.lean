import Elfshaker.Format.Entry
import Elfshaker.Format.EscapedPath
import Elfshaker.Library.Substitution
import Elfshaker.Store.Ids

namespace Elfshaker.Cli

open Elfshaker.Library Elfshaker.Library.Substitution Elfshaker.Format Elfshaker.Store

section Size

/-- The nearest number with a significand of 53 bits, of two the one that is even: what
an operation on `f64` makes of its exact result, in units of some power of two. -/
def roundSignificand (n : Nat) : Nat :=
  let unit := 2 ^ (n.log2 - 52)
  let remainder := n % unit
  if unit < 2 * remainder ∨ 2 * remainder = unit ∧ n / unit % 2 = 1 then (n / unit + 1) * unit
  else n / unit * unit

/-- `(value * 1000.0).round()`, where the value is `n` in units of `1 / unit`. -/
def thousandths (n unit : Nat) : Nat := (2 * roundSignificand (n * 1000) + unit) / (2 * unit)

/-- A number of thousandths as a decimal, without zeros at its end. -/
def showThousandths (n : Nat) : List Char :=
  let digits := [n % 1000 / 100, n % 100 / 10, n % 10].map Nat.digitChar
  Nat.toDigits 10 (n / 1000) ++
    if n % 1000 = 0 then [] else '.' :: (digits.reverse.dropWhile (· = '0')).reverse

/-- Looks for the unit of a size; `value` is `n` divided by 1024 once for each unit that
it is too large for. -/
def formatSizeFrom (n unit : Nat) : List Char → Exec ε (List Char)
  | [] => Exec.panic
  | symbol :: symbols =>
    if n < 1024 * unit then .ok (showThousandths (thousandths n unit) ++ [symbol])
    else formatSizeFrom n (1024 * unit) symbols

def formatSize (bytes : UInt64) : Exec ε (List Char) :=
  formatSizeFrom (roundSignificand bytes.toNat) 1 ['B', 'K', 'M', 'G', 'T']

variable {n : Nat}

/-- What needs more bits than a significand has stays large. -/
theorem roundSignificand_lt_iff : roundSignificand n < 2 ^ 50 ↔ n < 2 ^ 50 := by
  rcases Nat.lt_or_ge n (2 ^ 53) with hsmall | hlarge
  · have hunit : n.log2 - 52 = 0 := by
      rcases Nat.eq_zero_or_pos n with rfl | hpos
      · rfl
      · have := (Nat.log2_lt (by omega)).mpr hsmall
        omega
    have hround : roundSignificand n = n := by
      simp [roundSignificand, hunit, Nat.mod_one]
    rw [hround]
  · have hbits : 53 ≤ n.log2 := (Nat.le_log2 (by omega)).mpr hlarge
    have hpow : 2 ^ 52 * 2 ^ (n.log2 - 52) ≤ n := by
      rw [← Nat.pow_add, show 52 + (n.log2 - 52) = n.log2 by omega]
      exact Nat.log2_self_le (by omega)
    have hpos : 0 < 2 ^ (n.log2 - 52) := Nat.two_pow_pos _
    have hquotient : 2 ^ 52 ≤ n / 2 ^ (n.log2 - 52) := (Nat.le_div_iff_mul_le hpos).mpr hpow
    have hround : n / 2 ^ (n.log2 - 52) ≤ roundSignificand n := by
      simp only [roundSignificand]
      split_ifs
      · exact (Nat.le_succ _).trans (Nat.le_mul_of_pos_right _ hpos)
      · exact Nat.le_mul_of_pos_right _ hpos
    omega

/-- Sizes from a pebibyte on have no unit. -/
theorem formatSize_ok_iff {bytes : UInt64} :
    (∃ human, formatSize (ε := ε) bytes = .ok human) ↔ bytes.toNat < 2 ^ 50 := by
  rw [← roundSignificand_lt_iff, formatSize]
  generalize roundSignificand bytes.toNat = n
  simp only [formatSizeFrom]
  split_ifs
  all_goals simp [Exec.panic]
  all_goals omega

end Size

section Rows

/-- Replaces the placeholders of a row, one after another. -/
def formatRow (fields : Fields Char) (fmt : String) : String :=
  String.ofList (replaceInTurn '%' fields fmt.toList)

def decimal (n : Nat) : List Char := Nat.toDigits 10 n

def snapshotFields (packId : PackId) (snapshot : String) (human : List Char) (size : UInt64)
    (fileCount : Nat) : Fields Char :=
  [('s', (packId.name ++ ":" ++ snapshot).toList), ('t', snapshot.toList), ('h', human),
    ('b', decimal size.toNat), ('n', decimal fileCount)]

def formatSnapshotRow (fmt : String) (packId : PackId) (snapshot : String) (size : UInt64)
    (fileCount : Nat) : Exec ε String := do
  let human ← formatSize size
  .ok (formatRow (snapshotFields packId snapshot human size fileCount) fmt)

def entryKind : EntryMetadata → List Char
  | .regular _ => "file".toList
  | .symlink _ _ => "symlink".toList

def permissions : EntryMetadata → List Char
  | .regular mode => Nat.toDigits 8 mode.toNat
  | .symlink _ _ => ['-']

def fileFields (checksum : ObjectChecksum) (fileName human : List Char) (size : UInt64)
    (metadata : EntryMetadata) : Fields Char :=
  [('o', hexEncode checksum.bytes), ('f', fileName), ('h', human), ('b', decimal size.toNat),
    ('p', permissions metadata), ('k', entryKind metadata)]

/-- The row of a file, unless the escaping of its path does not end. -/
def formatFileRow (fmt : String) (checksum : ObjectChecksum) (fileName : PackPath)
    (size : UInt64) (metadata : EntryMetadata) : Option (Exec ε String) :=
  fileName.escaped.map fun escaped => do
    let escaped ← escaped
    let human ← formatSize size
    .ok (formatRow (fileFields checksum escaped human size metadata) fmt)

def packFields (packId : PackId) (snapshotCount : Nat) (size : UInt64) (human : List Char) :
    Fields Char :=
  [('p', packId.name.toList), ('c', decimal snapshotCount), ('b', decimal size.toNat),
    ('h', human)]

def formatPackRow (fmt : String) (packId : PackId) (snapshotCount : Nat) (size : UInt64) :
    Exec ε String := do
  let human ← formatSize size
  .ok (formatRow (packFields packId snapshotCount size human) fmt)

end Rows

section Simultaneous

variable {ε : Type}

/-- There is a row, which is the format with its placeholders replaced at once. -/
def RowOf (fields : Fields Char) (fmt : String) (row : Exec ε String) : Prop :=
  ∃ text, row = .ok text ∧ Simultaneous '%' fields fmt.toList text.toList

theorem rowOf_iff {fields : Fields Char} {fmt : String} (hmark : '%' ∉ fields.map Prod.fst)
    (nodup : (fields.map Prod.fst).Nodup) :
    RowOf (ε := ε) fields fmt (.ok (formatRow fields fmt)) ↔ SpellsNone '%' fields fmt.toList := by
  rw [← simultaneous_iff hmark nodup, RowOf]
  simp [formatRow]

theorem sizedRow_iff (fields : List Char → Fields Char) (fmt : String) (size : UInt64)
    (hmark : ∀ human, '%' ∉ (fields human).map Prod.fst)
    (nodup : ∀ human, ((fields human).map Prod.fst).Nodup) :
    (∃ human, formatSize (ε := ε) size = .ok human ∧ RowOf (ε := ε) (fields human) fmt
        (formatSize size >>= fun human => .ok (formatRow (fields human) fmt))) ↔
      size.toNat < 2 ^ 50 ∧ ∀ human, formatSize (ε := ε) size = .ok human →
        SpellsNone '%' (fields human) fmt.toList := by
  rw [← formatSize_ok_iff (ε := ε)]
  constructor
  · intro ⟨human, hhuman, hrow⟩
    refine ⟨⟨human, hhuman⟩, fun human' hhuman' => ?_⟩
    rw [hhuman] at hrow hhuman'
    cases hhuman'
    exact (rowOf_iff (hmark human) (nodup human)).mp hrow
  · intro ⟨⟨human, hhuman⟩, hspells⟩
    refine ⟨human, hhuman, ?_⟩
    rw [hhuman]
    exact (rowOf_iff (hmark human) (nodup human)).mpr (hspells human hhuman)

/-- The three rows are what their formats say exactly for sizes that have a unit and where no
placeholder shows up that is not in the format. -/
theorem format_row_simultaneous_iff :
    (∀ fmt packId snapshot size fileCount,
      (∃ human, formatSize (ε := ε) size = .ok human ∧
        RowOf (snapshotFields packId snapshot human size fileCount) fmt
          (formatSnapshotRow (ε := ε) fmt packId snapshot size fileCount)) ↔
      size.toNat < 2 ^ 50 ∧ ∀ human, formatSize (ε := ε) size = .ok human →
        SpellsNone '%' (snapshotFields packId snapshot human size fileCount) fmt.toList) ∧
    (∀ fmt checksum fileName size metadata,
      (∃ name human row, fileName.escaped (ε := ε) = some (.ok name) ∧
        formatSize (ε := ε) size = .ok human ∧
        formatFileRow fmt checksum fileName size metadata = some row ∧
        RowOf (ε := ε) (fileFields checksum name human size metadata) fmt row) ↔
      size.toNat < 2 ^ 50 ∧ ∀ name human, fileName.escaped (ε := ε) = some (.ok name) →
        formatSize (ε := ε) size = .ok human →
        SpellsNone '%' (fileFields checksum name human size metadata) fmt.toList) ∧
    ∀ fmt packId snapshotCount size,
      (∃ human, formatSize (ε := ε) size = .ok human ∧
        RowOf (packFields packId snapshotCount size human) fmt
          (formatPackRow (ε := ε) fmt packId snapshotCount size)) ↔
      size.toNat < 2 ^ 50 ∧ ∀ human, formatSize (ε := ε) size = .ok human →
        SpellsNone '%' (packFields packId snapshotCount size human) fmt.toList := by
  refine ⟨fun fmt packId snapshot size fileCount => ?_,
    fun fmt checksum fileName size metadata => ?_, fun fmt packId snapshotCount size => ?_⟩
  · exact sizedRow_iff (fun human => snapshotFields packId snapshot human size fileCount) fmt size
      (fun _ => by simp [snapshotFields]) (fun _ => by simp [snapshotFields])
  · obtain ⟨name, hname, -⟩ := (escaped_reversible (ε := ε)).1 fileName.bytes
    have hrow : formatFileRow (ε := ε) fmt checksum fileName size metadata =
        some (formatSize size >>= fun human =>
          .ok (formatRow (fileFields checksum name human size metadata) fmt)) := by
      rw [formatFileRow, PackPath.escaped, hname]
      rfl
    have hsized := sizedRow_iff (ε := ε)
      (fun human => fileFields checksum name human size metadata) fmt size
      (fun _ => by simp [fileFields]) (fun _ => by simp [fileFields])
    constructor
    · intro ⟨name', human, row, hname', hhuman, hrow', h⟩
      rw [PackPath.escaped, hname] at hname'
      cases hname'
      rw [hrow] at hrow'
      cases hrow'
      obtain ⟨hsize, hspells⟩ := hsized.mp ⟨human, hhuman, h⟩
      refine ⟨hsize, fun name' human hname' hhuman => ?_⟩
      rw [PackPath.escaped, hname] at hname'
      cases hname'
      exact hspells human hhuman
    · intro ⟨hsize, hspells⟩
      obtain ⟨human, hhuman, h⟩ := hsized.mpr ⟨hsize, fun human => hspells name human hname⟩
      exact ⟨name, human, _, hname, hhuman, hrow, h⟩
  · exact sizedRow_iff (packFields packId snapshotCount size) fmt size
      (fun _ => by simp [packFields]) (fun _ => by simp [packFields])

end Simultaneous

namespace RowSample

def category (c : Char) : Char :=
  if c.isAlpha then 'L' else if c.isDigit then 'N' else if c = '%' then 'P' else 'C'

def unicode : Unicode := ⟨category, by decide⟩

end RowSample

/-- A tag with a percent sign is a placeholder to the passes that come after it. -/
theorem format_snapshot_row_reads_tag : ¬ ∀ (fmt : String) (packId : PackId) (snapshot : String)
    (size : UInt64) (fileCount : Nat), packId.validate RowSample.unicode = .ok () →
    SnapshotId.isValid RowSample.unicode snapshot = true →
    ∃ human, formatSize (ε := Unit) size = .ok human ∧
      RowOf (snapshotFields packId snapshot human size fileCount) fmt
        (formatSnapshotRow (ε := Unit) fmt packId snapshot size fileCount) := by
  intro h
  obtain ⟨human, hhuman, text, htext, hrow⟩ := h "%s" ⟨"p"⟩ "%n" 0 3 (by decide) (by decide)
  have hthree : formatSnapshotRow (ε := Unit) "%s" ⟨"p"⟩ "%n" 0 3 = .ok "p:3" := by decide
  have hhuman' : formatSize (ε := Unit) 0 = .ok ['0', 'B'] := by decide +kernel
  rw [hthree] at htext
  rw [hhuman'] at hhuman
  cases htext
  cases hhuman
  have hvalue := hrow.substituted
  revert hvalue
  decide

end Elfshaker.Cli
