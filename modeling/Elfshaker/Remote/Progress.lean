import Elfshaker.Library.Exec
import Elfshaker.Library.Numerals

namespace Elfshaker.Remote

open Elfshaker.Library

structure Checkpoint where
  done : UInt64
  remaining : Option UInt64

section Reporter

variable {ε : Type}

/-- `n as isize`, or `as i32`, of a number that may be too large for it. -/
def asSigned (width : Nat) (n : Int) : Int := n.bmod (2 ^ width)

def createProgressBar (percentComplete : Int) : Exec ε Unit :=
  Exec.assert (0 ≤ percentComplete && percentComplete ≤ 100)

/-- The percentage that is done where it is known what remains. -/
def percentage (done remaining : UInt64) : Exec ε Int := do
  let total ← Exec.checkedAdd done remaining
  let scaled ← Exec.checkedMul 100 done
  .ok (asSigned 64 (scaled / max 1 total).toNat)

/-- One call of the reporter that prints percentages. It is given the percentage
that was printed last, and returns it with the one of this call. -/
def printPercentage (step : UInt32) (terminal : Bool) (current : Int) (checkpoint : Checkpoint) :
    Exec ε (Int × Option Int) :=
  match checkpoint.remaining with
  | none => .ok (current, none)
  | some remaining => do
    let percentage ← percentage checkpoint.done remaining
    let advance ← Exec.checkedSigned 64 (percentage - current)
    if advance ≥ asSigned 64 step.toNat || terminal then
      if percentage = 100 then .ok (percentage, some percentage)
      else do
        createProgressBar (asSigned 32 percentage)
        .ok (percentage, some percentage)
    else .ok (current, some percentage)

end Reporter

/-- What a writer counts of the bytes that it passes on. -/
structure ProgressWriter where
  remaining : Option UInt64
  written : UInt64

section Writer

variable {ε : Type} (step : UInt32) (terminal : Bool)

def ProgressWriter.withKnownSize (size : UInt64) : ProgressWriter := ⟨some size, 0⟩

/-- A write of which the writer below has taken `bytesWritten` bytes. -/
def ProgressWriter.write (writer : ProgressWriter) (bytesWritten : UInt64) :
    Exec ε ProgressWriter := do
  let written ← Exec.checkedAdd writer.written bytesWritten
  match writer.remaining with
  | none => .ok ⟨none, written⟩
  | some remaining => do
    let remaining ← Exec.checkedSub remaining bytesWritten
    .ok ⟨some remaining, written⟩

/-- `io::copy` to the writer, with the percentages that were computed on the way. -/
def copyReported : ProgressWriter → Int → List UInt64 → Exec ε (List Int)
  | _, _, [] => .ok []
  | writer, current, bytesWritten :: writes => do
    let writer ← writer.write bytesWritten
    let (current, percentage) ← printPercentage step terminal current
      ⟨writer.written, writer.remaining⟩
    let percentages ← copyReported writer current writes
    .ok (percentage.toList ++ percentages)

/-- The declared size. A header that is absent, or that is no number, counts as zero. -/
def contentLength (header : Option (List Char)) : UInt64 :=
  (parseU64 (header.getD ['0'])).getD 0

/-- The reports on one pack that is fetched: one before the response is there, and
one for each write of its body. -/
def reportFetch (header : Option (List Char)) (writes : List UInt64) : Exec ε (List Int) := do
  Exec.assert (step ≤ 100)
  let (current, percentage) ← printPercentage step terminal (-100) ⟨0, some 1⟩
  let percentages ← copyReported step terminal (.withKnownSize (contentLength header)) current writes
  .ok (percentage.toList ++ percentages)

end Writer

/-- The numbers that a report may show. -/
def IsPercentage (p : Int) : Prop := 0 ≤ p ∧ p ≤ 100

section Arithmetic

variable {ε : Type} {step : UInt32} {terminal : Bool} {current : Int}

theorem asSigned_of_le {width : Nat} {n : Int} (hlow : 0 ≤ n)
    (hhigh : 2 * n < (2 ^ width : Nat)) : asSigned width n = n := by
  unfold asSigned
  apply Int.bmod_eq_of_le_mul_two
  · omega
  · omega

theorem toNat_max_one (total : UInt64) : (max 1 total).toNat = max 1 total.toNat := by
  change (if 1 ≤ total then total else 1).toNat = _
  split
  · rename_i h
    exact (Nat.max_eq_right (UInt64.le_iff_toNat_le.mp h)).symm
  · rename_i h
    exact (Nat.max_eq_left (UInt64.le_iff_toNat_le.mp ((UInt64.le_total 1 total).resolve_left h))).symm

theorem percentage_fits {done remaining : UInt64} {p : Int}
    (h : percentage (ε := ε) done remaining = .ok p) : 100 * done.toNat < 2 ^ 64 := by
  obtain ⟨total, -, h⟩ := Exec.bind_eq_ok.mp h
  obtain ⟨scaled, hscaled, -⟩ := Exec.bind_eq_ok.mp h
  have hnat := Exec.checkedMul_eq_ok.mp hscaled
  have := scaled.toNat_lt
  rw [hnat] at this
  exact this

/-- What is done is no more than the total, so that it is no more than all of it. -/
theorem percentage_ok {done remaining : UInt64} (htotal : done.toNat + remaining.toNat < 2 ^ 64)
    (hscaled : 100 * done.toNat < 2 ^ 64) :
    ∃ p, percentage (ε := ε) done remaining = .ok p ∧ IsPercentage p := by
  obtain ⟨total, hadd, hsum⟩ := Exec.checkedAdd_ok (ε := ε) htotal
  have hproduct : (100 * done).toNat = 100 * done.toNat := by
    rw [UInt64.toNat_mul]
    exact Nat.mod_eq_of_lt hscaled
  have hmul : Exec.checkedMul (ε := ε) 100 done = .ok (100 * done) :=
    Exec.checkedMul_eq_ok.mpr hproduct
  have hquotient : (100 * done / max 1 total).toNat ≤ 100 := by
    rw [UInt64.toNat_div, hproduct, toNat_max_one, hsum]
    exact Nat.div_le_of_le_mul (by rw [Nat.mul_comm]; exact Nat.mul_le_mul_right 100 (by omega))
  have hsigned : asSigned 64 (100 * done / max 1 total).toNat =
      ((100 * done / max 1 total).toNat : Int) := asSigned_of_le (by omega) (by omega)
  refine ⟨asSigned 64 (100 * done / max 1 total).toNat, ?_, ?_⟩
  · rw [percentage, hadd, Exec.ok_bind, hmul, Exec.ok_bind]
  · rw [hsigned]
    exact ⟨by omega, by omega⟩

theorem printPercentage_fits {done remaining : UInt64} {printed : Int × Option Int}
    (h : printPercentage (ε := ε) step terminal current ⟨done, some remaining⟩ = .ok printed) :
    100 * done.toNat < 2 ^ 64 := by
  obtain ⟨p, hp, -⟩ := Exec.bind_eq_ok.mp h
  exact percentage_fits hp

/-- The numbers that `current` takes: none was printed yet, or a percentage was. -/
def IsCurrent (n : Int) : Prop := -100 ≤ n ∧ n ≤ 100

variable (step terminal) in
theorem printPercentage_ok {done remaining : UInt64}
    (htotal : done.toNat + remaining.toNat < 2 ^ 64) (hscaled : 100 * done.toNat < 2 ^ 64)
    (hcurrent : IsCurrent current) :
    ∃ next p, printPercentage (ε := ε) step terminal current ⟨done, some remaining⟩ =
      .ok (next, some p) ∧ IsCurrent next ∧ IsPercentage p := by
  obtain ⟨p, hp, hlow, hhigh⟩ := percentage_ok (ε := ε) htotal hscaled
  have hnext : IsCurrent p := ⟨by omega, hhigh⟩
  have hadvance : Exec.checkedSigned (ε := ε) 64 (p - current) = .ok (p - current) := by
    obtain ⟨_, _⟩ := hcurrent
    exact if_pos ⟨by omega, by omega⟩
  have hbar : createProgressBar (ε := ε) (asSigned 32 p) = .ok () := by
    rw [asSigned_of_le hlow (by omega)]
    exact Exec.assert_eq_ok.mpr (by simp [hlow, hhigh])
  simp only [printPercentage, hp, hadvance, hbar, Exec.ok_bind]
  split
  · split
    · exact ⟨p, p, rfl, hnext, hlow, hhigh⟩
    · exact ⟨p, p, rfl, hnext, hlow, hhigh⟩
  · exact ⟨current, p, rfl, hcurrent, hlow, hhigh⟩

end Arithmetic

section Copy

variable {ε : Type} {step : UInt32} {terminal : Bool}

/-- All that is written, as a number without bound. -/
def totalWritten (writes : List UInt64) : Nat := (writes.map UInt64.toNat).sum

@[simp] theorem totalWritten_cons (n : UInt64) (writes : List UInt64) :
    totalWritten (n :: writes) = n.toNat + totalWritten writes := List.sum_cons

/-- A write succeeds where no more is written than remains. -/
theorem write_eq_ok {remaining written n : UInt64} {writer : ProgressWriter} :
    ProgressWriter.write (ε := ε) ⟨some remaining, written⟩ n = .ok writer ↔
      ∃ left, writer.remaining = some left ∧ left.toNat + n.toNat = remaining.toNat ∧
        writer.written.toNat = written.toNat + n.toNat := by
  constructor
  · intro h
    obtain ⟨next, hnext, h⟩ := Exec.bind_eq_ok.mp h
    obtain ⟨left, hleft, h⟩ := Exec.bind_eq_ok.mp h
    cases h
    exact ⟨left, rfl, Exec.checkedSub_eq_ok.mp hleft, Exec.checkedAdd_eq_ok.mp hnext⟩
  · rintro ⟨left, hremaining, hleft, hwritten⟩
    obtain ⟨_, next⟩ := writer
    cases hremaining
    exact Exec.bind_eq_ok.mpr ⟨next, Exec.checkedAdd_eq_ok.mpr hwritten,
      Exec.bind_eq_ok.mpr ⟨left, Exec.checkedSub_eq_ok.mpr hleft, rfl⟩⟩

variable (step terminal) in
/-- What was written and what remains add up to the declared size, so that only a
body that is longer, or too long for a percentage, stops the copy. -/
theorem copyReported_ok_iff (writes : List UInt64) {remaining written : UInt64} {current : Int}
    (htotal : written.toNat + remaining.toNat < 2 ^ 64) (hscaled : 100 * written.toNat < 2 ^ 64)
    (hcurrent : IsCurrent current) :
    (∃ reported, copyReported (ε := ε) step terminal ⟨some remaining, written⟩ current writes =
      .ok reported ∧ ∀ p ∈ reported, IsPercentage p) ↔
    totalWritten writes ≤ remaining.toNat ∧
      100 * (written.toNat + totalWritten writes) < 2 ^ 64 := by
  induction writes generalizing remaining written current with
  | nil => exact ⟨fun _ => ⟨Nat.zero_le _, hscaled⟩, fun _ => ⟨[], rfl, nofun⟩⟩
  | cons n writes ih =>
    rw [totalWritten_cons, ← Nat.add_assoc]
    constructor
    · rintro ⟨reported, h, hreported⟩
      obtain ⟨⟨_, next⟩, hwrite, h⟩ := Exec.bind_eq_ok.mp h
      obtain ⟨left, hremaining, hleft, hnext⟩ := write_eq_ok.mp hwrite
      cases hremaining
      change next.toNat = _ at hnext
      obtain ⟨⟨printed, p⟩, hprint, h⟩ := Exec.bind_eq_ok.mp h
      obtain ⟨others, hothers, h⟩ := Exec.bind_eq_ok.mp h
      cases h
      have hfits := printPercentage_fits hprint
      have hleftTotal : next.toNat + left.toNat < 2 ^ 64 := by omega
      obtain ⟨printed', p', hprint', hcurrent', -⟩ :=
        printPercentage_ok (ε := ε) step terminal hleftTotal hfits hcurrent
      cases hprint'.symm.trans hprint
      have hrest := (ih hleftTotal hfits hcurrent').mp
        ⟨others, hothers, fun p hp => hreported p (List.mem_append_right _ hp)⟩
      rw [hnext] at hrest
      exact ⟨by omega, hrest.2⟩
    · rintro ⟨hle, hfits⟩
      obtain ⟨next, hadd, hnext⟩ := Exec.checkedAdd_ok (ε := ε) (a := written) (b := n) (by omega)
      have hleft : (remaining - n).toNat = remaining.toNat - n.toNat :=
        UInt64.toNat_sub_of_le remaining n (UInt64.le_iff_toNat_le.mpr (by omega))
      have hwrite : ProgressWriter.write (ε := ε) ⟨some remaining, written⟩ n =
          .ok ⟨some (remaining - n), next⟩ := write_eq_ok.mpr ⟨_, rfl, by omega, hnext⟩
      have hleftTotal : next.toNat + (remaining - n).toNat < 2 ^ 64 := by omega
      obtain ⟨current', p, hprint, hcurrent', hp⟩ :=
        printPercentage_ok (ε := ε) step terminal hleftTotal (by omega) hcurrent
      obtain ⟨others, hothers, hpercentages⟩ := (ih hleftTotal (by omega) hcurrent').mpr
        ⟨by omega, by omega⟩
      refine ⟨p :: others, ?_, ?_⟩
      · exact Exec.bind_eq_ok.mpr ⟨_, hwrite, Exec.bind_eq_ok.mpr ⟨_, hprint,
          Exec.bind_eq_ok.mpr ⟨_, hothers, rfl⟩⟩⟩
      · intro q hq
        rcases List.mem_cons.mp hq with rfl | hq
        · exact hp
        · exact hpercentages q hq

end Copy

/-- The reports on a download stop nothing, and show a percentage every time, exactly
where no more arrives than was declared, and a hundred times of it can be computed. -/
theorem progress_safe_iff {ε : Type} {step : UInt32} (terminal : Bool)
    (header : Option (List Char)) (writes : List UInt64) (hstep : step ≤ 100) :
    (∃ reported, reportFetch (ε := ε) step terminal header writes = .ok reported ∧
      ∀ p ∈ reported, IsPercentage p) ↔
    totalWritten writes ≤ (contentLength header).toNat ∧ 100 * totalWritten writes < 2 ^ 64 := by
  have hassert : Exec.assert (ε := ε) (step ≤ 100) = .ok () :=
    Exec.assert_eq_ok.mpr (decide_eq_true hstep)
  have hzero : 100 * (0 : UInt64).toNat < 2 ^ 64 := by decide
  have hone : (0 : UInt64).toNat + (1 : UInt64).toNat < 2 ^ 64 := by decide
  have hnone : IsCurrent (-100) := ⟨by decide, by decide⟩
  have hsize : (0 : UInt64).toNat + (contentLength header).toNat < 2 ^ 64 := by
    rw [UInt64.toNat_zero, Nat.zero_add]
    exact (contentLength header).toNat_lt
  obtain ⟨current, p, hprint, hcurrent, hp⟩ :=
    printPercentage_ok (ε := ε) step terminal hone hzero hnone
  have hcopy := copyReported_ok_iff (ε := ε) step terminal writes hsize hzero hcurrent
  rw [UInt64.toNat_zero, Nat.zero_add] at hcopy
  rw [← hcopy]
  constructor
  · rintro ⟨reported, h, hreported⟩
    obtain ⟨_, -, h⟩ := Exec.bind_eq_ok.mp h
    obtain ⟨_, hprint', h⟩ := Exec.bind_eq_ok.mp h
    cases hprint.symm.trans hprint'
    obtain ⟨others, hothers, h⟩ := Exec.bind_eq_ok.mp h
    cases h
    exact ⟨others, hothers, fun q hq => hreported q (List.mem_append_right _ hq)⟩
  · rintro ⟨others, hothers, hpercentages⟩
    refine ⟨p :: others, ?_, ?_⟩
    · exact Exec.bind_eq_ok.mpr ⟨(), hassert, Exec.bind_eq_ok.mpr ⟨_, hprint,
        Exec.bind_eq_ok.mpr ⟨_, hothers, rfl⟩⟩⟩
    · intro q hq
      rcases List.mem_cons.mp hq with rfl | hq
      · exact hp
      · exact hpercentages q hq

theorem progress_safe_declared : ∃ reported,
    reportFetch (ε := Unit) 5 false (some ['1', '2']) [5, 7] = .ok reported ∧
      ∀ p ∈ reported, IsPercentage p := by
  have hstep : (5 : UInt32) ≤ 100 := by decide
  exact (progress_safe_iff (ε := Unit) false (some ['1', '2']) [5, 7] hstep).mpr (by decide)

/-- The first byte of a body without a declared size. -/
theorem progress_not_safe : ¬ ∀ (header : Option (List Char)) (writes : List UInt64),
    ∃ reported, reportFetch (ε := Unit) 5 true header writes = .ok reported ∧
      ∀ p ∈ reported, IsPercentage p := by
  intro h
  obtain ⟨reported, hreport, -⟩ := h none [1]
  have hpanic : reportFetch (ε := Unit) 5 true none [1] = .error .panic := rfl
  cases hpanic.symm.trans hreport

end Elfshaker.Remote
