import Mathlib.Data.Nat.Basic
import Mathlib.Tactic.Ring

namespace Elfshaker.Library

/-- The last `k` bytes of a number, the highest one first. -/
def beBytes : Nat → Nat → List UInt8
  | 0, _ => []
  | k + 1, n => beBytes k (n / 256) ++ [UInt8.ofNat n]

@[simp] theorem beBytes_length (k n : Nat) : (beBytes k n).length = k := by
  induction k generalizing n with
  | zero => rfl
  | succ k ih => simp [beBytes, ih]

theorem beBytes_mod {k m n : Nat} (h : beBytes k m = beBytes k n) :
    m % 256 ^ k = n % 256 ^ k := by
  induction k generalizing m n with
  | zero => simp [Nat.mod_one]
  | succ k ih =>
    obtain ⟨hhigh, hlow⟩ := List.append_inj h (by simp)
    have hdiv := ih hhigh
    have hmod : m % 256 = n % 256 := by
      have hbyte := congrArg UInt8.toNat (List.head_eq_of_cons_eq hlow)
      simpa using hbyte
    rw [pow_succ', Nat.mod_mul, Nat.mod_mul, hdiv, hmod]

theorem beBytes_injOn {k m n : Nat} (hm : m < 256 ^ k) (hn : n < 256 ^ k)
    (h : beBytes k m = beBytes k n) : m = n := by
  have hmod := beBytes_mod h
  rwa [Nat.mod_eq_of_lt hm, Nat.mod_eq_of_lt hn] at hmod

section Concat

variable {α β : Type} {encode : α → List β} {good : α → Prop}

/-- Where a code can be told from what follows it, so can a list of codes of
known length. -/
theorem flatMap_injOn
    (one : ∀ {x y : α} {r s : List β}, good x → good y → encode x ++ r = encode y ++ s →
      x = y ∧ r = s)
    {xs ys : List α} {r s : List β} (hx : ∀ x ∈ xs, good x) (hy : ∀ y ∈ ys, good y)
    (hlen : xs.length = ys.length) (h : xs.flatMap encode ++ r = ys.flatMap encode ++ s) :
    xs = ys ∧ r = s := by
  induction xs generalizing ys with
  | nil =>
    cases ys with
    | nil => exact ⟨rfl, by simpa using h⟩
    | cons y ys => simp at hlen
  | cons x xs ih =>
    cases ys with
    | nil => simp at hlen
    | cons y ys =>
      rw [List.flatMap_cons, List.flatMap_cons, List.append_assoc, List.append_assoc] at h
      obtain ⟨rfl, hrest⟩ := one (hx x List.mem_cons_self) (hy y List.mem_cons_self) h
      obtain ⟨rfl, hs⟩ := ih (fun z hz => hx z (List.mem_cons_of_mem _ hz))
        (fun z hz => hy z (List.mem_cons_of_mem _ hz)) (by simpa using hlen) hrest
      exact ⟨rfl, hs⟩

end Concat

end Elfshaker.Library
