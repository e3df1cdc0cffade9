import Elfshaker.Library.Exec

namespace Elfshaker.Library

namespace Exec

/-- `Iterator::sum` of 64-bit numbers; an overflow is a panic. -/
def checkedSum : UInt64 → List UInt64 → Exec ε UInt64
  | total, [] => .ok total
  | total, x :: xs => do
    let total ← checkedAdd total x
    checkedSum total xs

theorem checkedSum_noPanic_iff {total : UInt64} {xs : List UInt64} :
    NoPanic (checkedSum (ε := ε) total xs) ↔
      total.toNat + (xs.map UInt64.toNat).sum < 2 ^ 64 := by
  induction xs generalizing total with
  | nil => exact iff_of_true (noPanic_ok total) total.toNat_lt
  | cons x xs ih =>
    rw [checkedSum, noPanic_bind_iff, noPanic_checkedAdd_iff, List.map_cons, List.sum_cons]
    constructor
    · rintro ⟨hadd, hrest⟩
      obtain ⟨next, hnext, hvalue⟩ := checkedAdd_ok (ε := ε) hadd
      have hsum := ih.mp (hrest next hnext)
      omega
    · intro h
      refine ⟨by omega, fun next hnext => ih.mpr ?_⟩
      rw [checkedAdd_eq_ok.mp hnext]
      omega

end Exec

/-- Where parts of these sizes start that lie one behind the other. -/
def starts : Nat → List Nat → List Nat
  | _, [] => []
  | start, size :: sizes => start :: starts (start + size) sizes

/-- The starts as 64-bit numbers. The end of the last part is not computed. -/
def startsFrom : UInt64 → List UInt64 → Exec ε (List UInt64)
  | _, [] => .ok []
  | start, [_] => .ok [start]
  | start, size :: next :: sizes => do
    let nextStart ← Exec.checkedAdd size start
    let starts ← startsFrom nextStart (next :: sizes)
    .ok (start :: starts)

section Starts

variable {start : UInt64} {sizes offsets : List UInt64}

@[simp] theorem starts_cons (start size : Nat) (sizes : List Nat) :
    starts start (size :: sizes) = start :: starts (start + size) sizes := rfl

/-- A part starts where those before it end. -/
theorem starts_getElem?_eq_some {start s i : Nat} {sizes : List Nat} :
    (starts start sizes)[i]? = some s ↔ i < sizes.length ∧ s = start + (sizes.take i).sum := by
  induction sizes generalizing start i with
  | nil => simp [starts]
  | cons size sizes ih =>
    cases i with
    | zero => simp [eq_comm]
    | succ i =>
      rw [starts_cons, List.getElem?_cons_succ, ih, List.take_succ_cons, List.sum_cons,
        List.length_cons, Nat.add_lt_add_iff_right, Nat.add_assoc]

theorem startsFrom_eq_ok (h : startsFrom (ε := ε) start sizes = .ok offsets) :
    offsets.map UInt64.toNat = starts start.toNat (sizes.map UInt64.toNat) := by
  induction start, sizes using startsFrom.induct generalizing offsets with
  | case1 start =>
    cases h
    rfl
  | case2 start size =>
    cases h
    rfl
  | case3 start size next sizes ih =>
    obtain ⟨nextStart, hnext, h⟩ := Exec.bind_eq_ok.mp h
    obtain ⟨later, hlater, h⟩ := Exec.bind_eq_ok.mp h
    cases h
    have hvalue : start.toNat + size.toNat = nextStart.toNat := by
      rw [Exec.checkedAdd_eq_ok.mp hnext, Nat.add_comm]
    rw [List.map_cons, List.map_cons (a := size), starts_cons, hvalue, ih nextStart hlater]

/-- The starts are computed exactly where they are 64-bit numbers. -/
theorem startsFrom_noPanic_iff : (startsFrom (ε := ε) start sizes).NoPanic ↔
    ∀ s ∈ starts start.toNat (sizes.map UInt64.toNat), s < 2 ^ 64 := by
  induction start, sizes using startsFrom.induct with
  | case1 start => exact iff_of_true (Exec.noPanic_ok _) nofun
  | case2 start size =>
    refine iff_of_true (Exec.noPanic_ok _) fun s hs => ?_
    rw [List.mem_singleton.mp hs]
    exact start.toNat_lt
  | case3 start size next sizes ih =>
    rw [startsFrom, Exec.noPanic_bind_iff, Exec.noPanic_checkedAdd_iff]
    have hreturn (nextStart : UInt64) :
        (startsFrom (ε := ε) nextStart (next :: sizes) >>= fun starts =>
          .ok (start :: starts)).NoPanic ↔
        (startsFrom (ε := ε) nextStart (next :: sizes)).NoPanic := by
      rw [Exec.noPanic_bind_iff]
      exact and_iff_left fun starts _ => Exec.noPanic_ok _
    simp only [hreturn, ih, Exec.checkedAdd_eq_ok]
    rw [List.map_cons (a := size), starts_cons]
    constructor
    · rintro ⟨hadd, hrest⟩ s hs
      rcases List.mem_cons.mp hs with rfl | hs
      · exact start.toNat_lt
      · obtain ⟨nextStart, -, hvalue⟩ := Exec.checkedAdd_ok (ε := ε) hadd
        refine hrest nextStart hvalue s ?_
        rw [hvalue, Nat.add_comm]
        exact hs
    · intro h
      refine ⟨?_, fun nextStart hvalue s hs => h s (List.mem_cons_of_mem _ ?_)⟩
      · have hnext := h (start.toNat + size.toNat)
          (List.mem_cons_of_mem _ List.mem_cons_self)
        omega
      · rw [hvalue, Nat.add_comm] at hs
        exact hs

theorem startsFrom_noError : (startsFrom (ε := ε) start sizes).NoError := by
  induction start, sizes using startsFrom.induct with
  | case1 start => exact Exec.noError_ok _
  | case2 start size => exact Exec.noError_ok _
  | case3 start size next sizes ih =>
    refine Exec.NoError.bind (Exec.noError_checkedAdd _ _) fun nextStart => ?_
    exact Exec.NoError.bind (ih nextStart) fun starts => Exec.noError_ok _

end Starts

end Elfshaker.Library
