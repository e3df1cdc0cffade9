import Elfshaker.Library.UnixPath

namespace Elfshaker.Format

/-- A separator, `b'/'`. -/
def slash : UInt8 := 47

/-- The byte `b'.'`. -/
def dot : UInt8 := 46

inductive PackPathError where
  | empty
  | absolute
  | emptyComponent
  | currentDirectory
  | parentDirectory
  | nul
  | nativePrefix
  | nonUnicodeWindowsComponent
  | unrepresentableComponent (component : List UInt8)
  deriving DecidableEq, Repr

def componentsOf (bytes : List UInt8) : List (List UInt8) :=
  bytes.splitOn slash

def validateComponents : List (List UInt8) → Except PackPathError Unit
  | [] => .ok ()
  | component :: rest =>
    if component = [] then .error .emptyComponent
    else if component = [dot] then .error .currentDirectory
    else if component = [dot, dot] then .error .parentDirectory
    else validateComponents rest

def validate (bytes : List UInt8) : Except PackPathError Unit :=
  match bytes with
  | [] => .error .empty
  | b :: _ =>
    if b = slash then .error .absolute
    else if 0 ∈ bytes then .error .nul
    else validateComponents (componentsOf bytes)

/-- A canonical path inside a snapshot. -/
structure PackPath where
  bytes : List UInt8
  valid : validate bytes = .ok ()
  deriving DecidableEq

namespace PackPath

def new (bytes : List UInt8) : Except PackPathError PackPath :=
  match h : validate bytes with
  | .error e => .error e
  | .ok () => .ok ⟨bytes, h⟩

def components (p : PackPath) : List (List UInt8) :=
  componentsOf p.bytes

@[ext] theorem ext_bytes {p q : PackPath} (h : p.bytes = q.bytes) : p = q := by
  cases p
  cases q
  simpa using h

theorem new_eq_ok {bytes : List UInt8} {p : PackPath} : new bytes = .ok p ↔ p.bytes = bytes := by
  unfold new
  split
  · rename_i e h
    constructor
    · intro hp
      cases hp
    · rintro rfl
      rw [p.valid] at h
      cases h
  · constructor
    · intro hp
      cases hp
      rfl
    · rintro rfl
      rfl

theorem new_bytes (p : PackPath) : new p.bytes = .ok p :=
  new_eq_ok.mpr rfl

end PackPath

/-- What `validate` accepts of a component. -/
structure IsComponent (c : List UInt8) : Prop where
  nonempty : c ≠ []
  not_current : c ≠ [dot]
  not_parent : c ≠ [dot, dot]
  no_slash : slash ∉ c
  no_nul : 0 ∉ c

theorem validateComponents_ok {cs : List (List UInt8)} :
    validateComponents cs = .ok () ↔ ∀ c ∈ cs, c ≠ [] ∧ c ≠ [dot] ∧ c ≠ [dot, dot] := by
  induction cs with
  | nil => simp [validateComponents]
  | cons c cs ih =>
    unfold validateComponents
    split_ifs with h₁ h₂ h₃
    · simp [h₁]
    · simp [h₂]
    · simp [h₃]
    · simp [ih, h₁, h₂, h₃]

namespace PackPath

theorem components_ne_nil (p : PackPath) : p.components ≠ [] :=
  List.splitOn_ne_nil slash p.bytes

theorem isComponent (p : PackPath) : ∀ c ∈ p.components, IsComponent c := by
  intro c hc
  have hv := p.valid
  unfold validate at hv
  split at hv
  · cases hv
  · split_ifs at hv with h₁ h₂
    obtain ⟨hne, hcur, hpar⟩ := validateComponents_ok.mp hv c hc
    refine ⟨hne, hcur, hpar, fun hs => (Library.UnixPath.mem_splitOn hc hs).2 rfl, fun hz => ?_⟩
    exact h₂ (Library.UnixPath.mem_splitOn hc hz).1

theorem components_injective {p q : PackPath} (h : p.components = q.components) : p = q := by
  have joined (r : PackPath) : [slash].intercalate r.components = r.bytes :=
    List.intercalate_splitOn slash
  apply ext_bytes
  rw [← joined p, ← joined q, h]

/-! Paths of one letter, for the samples. -/

def a : PackPath := ⟨[97], by rfl⟩

def b : PackPath := ⟨[98], by rfl⟩

def c : PackPath := ⟨[99], by rfl⟩

def x : PackPath := ⟨[120], by rfl⟩

end PackPath

end Elfshaker.Format
