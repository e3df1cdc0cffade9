import Mathlib.Algebra.GroupWithZero.Nat
import Mathlib.Algebra.Ring.Int.Defs
import Mathlib.Data.List.Nodup

namespace Elfshaker.Library

/-- How a fallible call stops early: with an error value, or by a panic (a
failed assertion, an `unwrap` of nothing, a checked addition that overflows). -/
inductive Failure (ε : Type) where
  | error (e : ε)
  | panic
  deriving DecidableEq, Repr

abbrev Exec (ε α : Type) := Except (Failure ε) α

namespace Exec

def fail (e : ε) : Exec ε α := .error (.error e)

def panic : Exec ε α := .error .panic

/-- `Option::unwrap` and `Option::expect`. -/
def unwrap : Option α → Exec ε α
  | some a => .ok a
  | none => panic

/-- `Option::ok_or`. -/
def okOr (e : ε) : Option α → Exec ε α
  | some a => .ok a
  | none => fail e

/-- `assert!`. -/
def assert (b : Bool) : Exec ε Unit :=
  if b then .ok () else panic

/-- The error type of the callee becomes a case of the caller's. -/
def mapError (f : ε → δ) : Exec ε α → Exec δ α
  | .ok a => .ok a
  | .error (.error e) => .error (.error (f e))
  | .error .panic => .error .panic

/-- The sum of two 64-bit numbers; an overflow is a panic. -/
def checkedAdd (a b : UInt64) : Exec ε UInt64 :=
  if a.toNat + b.toNat < 2 ^ 64 then .ok (a + b) else panic

/-- A difference of two 64-bit numbers that would be negative is a panic. -/
def checkedSub (a b : UInt64) : Exec ε UInt64 :=
  if b.toNat ≤ a.toNat then .ok (a - b) else panic

def checkedMul (a b : UInt64) : Exec ε UInt64 :=
  if a.toNat * b.toNat < 2 ^ 64 then .ok (a * b) else panic

/-- The value of a signed operation that has to fit in its width. -/
def checkedSigned (width : Nat) (n : Int) : Exec ε Int :=
  if -2 ^ (width - 1) ≤ n ∧ n < 2 ^ (width - 1) then .ok n else panic

@[simp] theorem unwrap_some (a : α) : unwrap (ε := ε) (some a) = .ok a := rfl

@[simp] theorem okOr_some (e : ε) (a : α) : okOr e (some a) = .ok a := rfl

@[simp] theorem assert_true : assert (ε := ε) true = .ok () := rfl

@[simp] theorem mapError_ok (f : ε → δ) (a : α) : mapError f (.ok a) = .ok a := rfl

theorem bind_eq_ok {x : Except ε α} {f : α → Except ε β} {b : β} :
    (x >>= f) = .ok b ↔ ∃ a, x = .ok a ∧ f a = .ok b := by
  constructor
  · intro h
    cases x with
    | error e => cases h
    | ok a => exact ⟨a, rfl, h⟩
  · rintro ⟨a, rfl, h⟩
    exact h

theorem map_eq_ok {x : Except ε α} {f : α → β} {b : β} :
    (f <$> x) = .ok b ↔ ∃ a, x = .ok a ∧ f a = b := by
  constructor
  · intro h
    cases x with
    | error e => cases h
    | ok a => exact ⟨a, rfl, Except.ok.inj h⟩
  · rintro ⟨a, rfl, rfl⟩
    rfl

theorem pure_eq_ok {a b : α} : (pure a : Except ε α) = .ok b ↔ a = b :=
  ⟨Except.ok.inj, congrArg Except.ok⟩

theorem ok_bind (a : α) (f : α → Except ε β) : (Except.ok a >>= f) = f a := rfl

theorem error_bind (e : ε) (f : α → Except ε β) : (Except.error e >>= f) = .error e := rfl

theorem mapError_eq_ok {f : ε → δ} {x : Exec ε α} {a : α} :
    mapError f x = .ok a ↔ x = .ok a := by
  cases x with
  | ok b => exact ⟨congrArg Except.ok ∘ Except.ok.inj, congrArg Except.ok ∘ Except.ok.inj⟩
  | error e => cases e <;> exact ⟨nofun, nofun⟩

theorem unwrap_eq_ok {x : Option α} {a : α} : unwrap (ε := ε) x = .ok a ↔ x = some a := by
  cases x with
  | none => exact ⟨nofun, nofun⟩
  | some b => exact ⟨congrArg some ∘ Except.ok.inj, congrArg Except.ok ∘ Option.some.inj⟩

theorem okOr_eq_ok {e : ε} {x : Option α} {a : α} : okOr e x = .ok a ↔ x = some a := by
  cases x with
  | none => exact ⟨nofun, nofun⟩
  | some b => exact ⟨congrArg some ∘ Except.ok.inj, congrArg Except.ok ∘ Option.some.inj⟩

theorem assert_eq_ok {b : Bool} {u : Unit} : assert (ε := ε) b = .ok u ↔ b = true := by
  cases b with
  | false => exact ⟨nofun, nofun⟩
  | true => exact ⟨fun _ => rfl, fun _ => rfl⟩

theorem checkedAdd_eq_ok {a b c : UInt64} :
    checkedAdd (ε := ε) a b = .ok c ↔ c.toNat = a.toNat + b.toNat := by
  unfold checkedAdd
  constructor
  · intro h
    split at h
    · rename_i hlt
      cases h
      rw [UInt64.toNat_add, Nat.mod_eq_of_lt hlt]
    · cases h
  · intro h
    have hlt : a.toNat + b.toNat < 2 ^ 64 := h ▸ c.toNat_lt
    rw [if_pos hlt, Except.ok.injEq]
    apply UInt64.toNat.inj
    rw [UInt64.toNat_add, Nat.mod_eq_of_lt hlt, h]

theorem checkedAdd_ok {a b : UInt64} (h : a.toNat + b.toNat < 2 ^ 64) :
    ∃ c, checkedAdd (ε := ε) a b = .ok c ∧ c.toNat = a.toNat + b.toNat := by
  have hsum : (a + b).toNat = a.toNat + b.toNat := by
    rw [UInt64.toNat_add, Nat.mod_eq_of_lt h]
  exact ⟨a + b, checkedAdd_eq_ok.mpr hsum, hsum⟩

theorem checkedSub_eq_ok {a b c : UInt64} :
    checkedSub (ε := ε) a b = .ok c ↔ c.toNat + b.toNat = a.toNat := by
  unfold checkedSub
  constructor
  · intro h
    split at h
    · rename_i hle
      cases h
      rw [UInt64.toNat_sub_of_le a b (UInt64.le_iff_toNat_le.mpr hle)]
      exact Nat.sub_add_cancel hle
    · cases h
  · intro h
    have hle : b.toNat ≤ a.toNat := by omega
    rw [if_pos hle, Except.ok.injEq]
    apply UInt64.toNat.inj
    rw [UInt64.toNat_sub_of_le a b (UInt64.le_iff_toNat_le.mpr hle)]
    omega

theorem checkedMul_eq_ok {a b c : UInt64} :
    checkedMul (ε := ε) a b = .ok c ↔ c.toNat = a.toNat * b.toNat := by
  unfold checkedMul
  constructor
  · intro h
    split at h
    · rename_i hlt
      cases h
      rw [UInt64.toNat_mul, Nat.mod_eq_of_lt hlt]
    · cases h
  · intro h
    have hlt : a.toNat * b.toNat < 2 ^ 64 := h ▸ c.toNat_lt
    rw [if_pos hlt, Except.ok.injEq]
    apply UInt64.toNat.inj
    rw [UInt64.toNat_mul, Nat.mod_eq_of_lt hlt, h]

theorem bind_ne_error {e : ε} {x : Except ε α} {f : α → Except ε β} (hx : x ≠ .error e)
    (hf : ∀ a, x = .ok a → f a ≠ .error e) : (x >>= f) ≠ .error e := by
  cases x with
  | ok a => exact hf a rfl
  | error e' =>
    intro h
    exact hx (congrArg Except.error (Except.error.inj h))

theorem mapM_ne_error {e : ε} {f : α → Except ε β} {xs : List α} (h : ∀ x ∈ xs, f x ≠ .error e) :
    xs.mapM f ≠ .error e := by
  induction xs with
  | nil =>
    intro h
    cases h
  | cons x xs ih =>
    rw [List.mapM_cons]
    refine bind_ne_error (h x List.mem_cons_self) fun y _ => ?_
    refine bind_ne_error (ih fun z hz => h z (List.mem_cons_of_mem x hz)) fun ys _ h => ?_
    cases h

/-- The call returns, with a value or with an error value. -/
def NoPanic (x : Exec ε α) : Prop := x ≠ .error .panic

theorem noPanic_ok (a : α) : NoPanic (ε := ε) (.ok a) := nofun

theorem noPanic_fail (e : ε) : NoPanic (α := α) (fail e) := nofun

theorem noPanic_okOr (e : ε) (x : Option α) : NoPanic (okOr e x) := by
  cases x with
  | none => exact noPanic_fail e
  | some a => exact noPanic_ok a

theorem noPanic_mapError_iff {f : ε → δ} {x : Exec ε α} : NoPanic (mapError f x) ↔ NoPanic x := by
  cases x with
  | ok a => exact iff_of_true (noPanic_ok a) (noPanic_ok a)
  | error e =>
    cases e with
    | error e => exact iff_of_true (noPanic_fail (f e)) (noPanic_fail e)
    | panic => exact iff_of_false (fun h => h rfl) fun h => h rfl

theorem NoPanic.bind {x : Exec ε α} {f : α → Exec ε β} (hx : NoPanic x)
    (hf : ∀ a, x = .ok a → NoPanic (f a)) : NoPanic (x >>= f) :=
  bind_ne_error hx hf

theorem noPanic_bind_iff {x : Exec ε α} {f : α → Exec ε β} :
    NoPanic (x >>= f) ↔ NoPanic x ∧ ∀ a, x = .ok a → NoPanic (f a) := by
  refine ⟨fun h => ?_, fun h => h.1.bind h.2⟩
  cases x with
  | ok a =>
    refine ⟨noPanic_ok a, fun b hb => ?_⟩
    cases hb
    exact h
  | error e =>
    refine ⟨fun he => h ?_, nofun⟩
    rw [he]
    rfl

theorem noPanic_checkedAdd_iff {a b : UInt64} :
    NoPanic (checkedAdd (ε := ε) a b) ↔ a.toNat + b.toNat < 2 ^ 64 := by
  unfold checkedAdd
  split
  · exact iff_of_true (noPanic_ok _) ‹_›
  · exact iff_of_false (fun h => h rfl) ‹_›

/-- The call returns a value or panics. -/
def NoError (x : Exec ε α) : Prop := ∀ e, x ≠ .error (.error e)

theorem noError_ok (a : α) : NoError (ε := ε) (.ok a) := nofun

theorem noError_assert (b : Bool) : NoError (ε := ε) (assert b) := by
  cases b <;> nofun

theorem noError_checkedAdd (a b : UInt64) : NoError (checkedAdd (ε := ε) a b) := by
  unfold checkedAdd
  split <;> nofun

theorem NoError.bind {x : Exec ε α} {f : α → Exec ε β} (hx : NoError x)
    (hf : ∀ a, NoError (f a)) : NoError (x >>= f) :=
  fun e => bind_ne_error (hx e) fun a _ => hf a e

theorem NoError.ok {x : Exec ε α} (hx : NoError x) (h : NoPanic x) : ∃ a, x = .ok a := by
  cases x with
  | ok a => exact ⟨a, rfl⟩
  | error e =>
    cases e with
    | error e => exact absurd rfl (hx e)
    | panic => exact absurd rfl h

theorem noPanic_mapM {f : α → Exec ε β} {xs : List α} (h : ∀ x ∈ xs, NoPanic (f x)) :
    NoPanic (xs.mapM f) :=
  mapM_ne_error h

theorem noError_mapM {f : α → Exec ε β} {xs : List α} (h : ∀ x, NoError (f x)) :
    NoError (xs.mapM f) :=
  fun e => mapM_ne_error fun x _ => h x e

/-- The first element that fails decides how mapping ends. -/
theorem noPanic_mapM_iff {f : α → Exec ε β} {xs : List α} :
    NoPanic (xs.mapM f) ↔ ∀ before x after, xs = before ++ x :: after →
      (∀ y ∈ before, ∃ z, f y = .ok z) → NoPanic (f x) := by
  induction xs with
  | nil =>
    refine iff_of_true (noPanic_ok _) fun before x after h => ?_
    simp at h
  | cons x xs ih =>
    have hrest (y : β) : NoPanic (xs.mapM f >>= fun ys => pure (y :: ys)) ↔
        NoPanic (xs.mapM f) := by
      rw [noPanic_bind_iff]
      exact and_iff_left fun ys _ => noPanic_ok (y :: ys)
    rw [List.mapM_cons, noPanic_bind_iff]
    simp only [hrest, ih]
    constructor
    · rintro ⟨hx, htail⟩ before y after heq hbefore
      cases before with
      | nil =>
        cases heq
        exact hx
      | cons z before =>
        cases heq
        obtain ⟨w, hw⟩ := hbefore x List.mem_cons_self
        exact htail w hw before y after rfl fun v hv => hbefore v (List.mem_cons_of_mem _ hv)
    · intro h
      refine ⟨h [] x xs rfl nofun, fun w hw before y after heq hbefore => ?_⟩
      refine h (x :: before) y after (congrArg (x :: ·) heq) fun v hv => ?_
      rcases List.mem_cons.mp hv with rfl | hv
      · exact ⟨w, hw⟩
      · exact hbefore v hv

/-- Mapping succeeds exactly when every element does, and then keeps the order. -/
theorem mapM_eq_ok {f : α → Except ε β} {xs : List α} {ys : List β} :
    xs.mapM f = .ok ys ↔ List.Forall₂ (fun x y => f x = .ok y) xs ys := by
  induction xs generalizing ys with
  | nil =>
    rw [List.mapM_nil, pure_eq_ok, List.forall₂_nil_left_iff]
    exact eq_comm
  | cons x xs ih =>
    rw [List.mapM_cons, bind_eq_ok, List.forall₂_cons_left_iff]
    constructor
    · rintro ⟨y, hy, h⟩
      obtain ⟨zs, hz, h⟩ := bind_eq_ok.mp h
      exact ⟨y, zs, hy, ih.mp hz, (pure_eq_ok.mp h).symm⟩
    · rintro ⟨y, zs, hy, hz, rfl⟩
      exact ⟨y, hy, bind_eq_ok.mpr ⟨zs, ih.mpr hz, rfl⟩⟩

theorem mapM_ok_of {f : α → Except ε β} {g : α → β} {xs : List α}
    (h : ∀ x ∈ xs, f x = .ok (g x)) : xs.mapM f = .ok (xs.map g) := by
  apply mapM_eq_ok.mpr
  induction xs with
  | nil => exact .nil
  | cons x xs ih =>
    exact .cons (h x List.mem_cons_self) (ih fun y hy => h y (List.mem_cons_of_mem _ hy))

theorem mapM_exists {f : α → Except ε β} {xs : List α} (h : ∀ x ∈ xs, ∃ y, f x = .ok y) :
    ∃ ys, xs.mapM f = .ok ys := by
  induction xs with
  | nil => exact ⟨[], mapM_eq_ok.mpr .nil⟩
  | cons x xs ih =>
    obtain ⟨y, hy⟩ := h x List.mem_cons_self
    obtain ⟨ys, hys⟩ := ih fun z hz => h z (List.mem_cons_of_mem _ hz)
    exact ⟨y :: ys, mapM_eq_ok.mpr (.cons hy (mapM_eq_ok.mp hys))⟩

theorem mem_of_mapM {f : α → Except ε β} {xs : List α} {ys : List β} {y : β}
    (h : xs.mapM f = .ok ys) (hy : y ∈ ys) : ∃ x ∈ xs, f x = .ok y := by
  have hall := mapM_eq_ok.mp h
  clear h
  induction hall with
  | nil => simp at hy
  | cons hxy _ ih =>
    rcases List.mem_cons.mp hy with rfl | hm
    · exact ⟨_, List.mem_cons_self, hxy⟩
    · obtain ⟨x, hx, he⟩ := ih hm
      exact ⟨x, List.mem_cons_of_mem _ hx, he⟩

theorem mapM_mem {f : α → Except ε β} {xs : List α} {ys : List β} {x : α}
    (h : xs.mapM f = .ok ys) (hx : x ∈ xs) : ∃ y ∈ ys, f x = .ok y := by
  have hall := mapM_eq_ok.mp h
  clear h
  induction hall with
  | nil => simp at hx
  | cons hxy _ ih =>
    rcases List.mem_cons.mp hx with rfl | hm
    · exact ⟨_, List.mem_cons_self, hxy⟩
    · obtain ⟨y, hy, he⟩ := ih hm
      exact ⟨y, List.mem_cons_of_mem _ hy, he⟩

/-- Where no error can come first, one panic is enough. -/
theorem noPanic_mapM_noError_iff {f : α → Exec ε β} {xs : List α} (h : ∀ x, NoError (f x)) :
    NoPanic (xs.mapM f) ↔ ∀ x ∈ xs, NoPanic (f x) := by
  refine ⟨fun hpanic x hx => ?_, noPanic_mapM⟩
  obtain ⟨ys, hys⟩ := (noError_mapM h).ok hpanic
  obtain ⟨y, -, hy⟩ := mapM_mem hys hx
  rw [hy]
  exact noPanic_ok y

theorem mapM_eq_map {f : α → Except ε β} {g : α → β} {xs : List α} {ys : List β}
    (h : xs.mapM f = .ok ys) (hg : ∀ x y, f x = .ok y → y = g x) : ys = xs.map g := by
  have hall := mapM_eq_ok.mp h
  clear h
  induction hall with
  | nil => rfl
  | cons hxy _ ih => rw [List.map_cons, ← ih, hg _ _ hxy]

/-- Where a result tells its element, different elements are those with different results. -/
theorem mapM_nodup_iff {f : α → Except ε β} {xs : List α} {ys : List β} (h : xs.mapM f = .ok ys)
    (inj : ∀ x x' y, f x = .ok y → f x' = .ok y → x = x') : xs.Nodup ↔ ys.Nodup := by
  refine List.rel_nodup (r := fun x y => f x = .ok y) ⟨?_, ?_⟩ (mapM_eq_ok.mp h)
  · exact fun x x' y hx hx' => inj x x' y hx hx'
  · intro x y y' hy hy'
    rw [hy] at hy'
    exact Except.ok.inj hy'

/-- What every result for `x` contains is met as often as `x`. -/
theorem count_le_of_mapM [BEq α] [LawfulBEq α] [BEq β] [LawfulBEq β] {f : α → Except ε (List β)} {xs : List α}
    {yss : List (List β)} {x : α} {y : β} (h : xs.mapM f = .ok yss)
    (hmem : ∀ ys, f x = .ok ys → y ∈ ys) : xs.count x ≤ yss.flatten.count y := by
  have hall := mapM_eq_ok.mp h
  clear h
  induction hall with
  | nil => simp
  | @cons z ys zs yss hstep _ ih =>
    rw [List.flatten_cons, List.count_append, List.count_cons]
    split
    · rename_i hz
      rw [beq_iff_eq] at hz
      subst hz
      have := List.count_pos_iff.mpr (hmem ys hstep)
      omega
    · omega

/-- Two places with one result make it occur twice. -/
theorem two_le_count_of_mapM [BEq β] [LawfulBEq β] {f : α → Except ε β} {xs : List α}
    {ys : List β} {x x' : α} {y : β} (h : xs.mapM f = .ok ys) (hx : x ∈ xs) (hx' : x' ∈ xs)
    (hne : x ≠ x') (hy : f x = .ok y) (hy' : f x' = .ok y) : 2 ≤ ys.count y := by
  have hall := mapM_eq_ok.mp h
  have once {zs : List α} {ws : List β} {z : α} (hall : List.Forall₂ (fun x y => f x = .ok y) zs ws)
      (hz : z ∈ zs) (hfz : f z = .ok y) : 1 ≤ ws.count y := by
    obtain ⟨w, hw, hfw⟩ := mapM_mem (mapM_eq_ok.mpr hall) hz
    rw [hfz] at hfw
    cases hfw
    exact List.count_pos_iff.mpr hw
  clear h
  induction hall with
  | nil => cases hx
  | @cons z w zs ws hstep hall ih =>
    rcases List.mem_cons.mp hx with rfl | hxs
    · rcases List.mem_cons.mp hx' with rfl | hxs'
      · exact absurd rfl hne
      · rw [hy] at hstep
        cases hstep
        rw [List.count_cons_self]
        have := once hall hxs' hy'
        omega
    · rcases List.mem_cons.mp hx' with rfl | hxs'
      · rw [hy'] at hstep
        cases hstep
        rw [List.count_cons_self]
        have := once hall hxs hy
        omega
      · exact Nat.le_trans (ih hxs hxs') List.count_le_count_cons

end Exec

end Elfshaker.Library
