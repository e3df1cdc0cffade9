import Elfshaker.Format.Parse
import Elfshaker.Library.UnixPath

namespace Elfshaker.Format

open Elfshaker.Library
open Elfshaker.Library.UnixPath (Component)

/-- A component of a path of the system, which is any bytes. -/
def nativeComponent (component : List UInt8) : Except PackPathError (List UInt8) := .ok component

/-- The loop over the components of a path of the system. -/
def appendComponents : List UInt8 → List Component → Except PackPathError (List UInt8)
  | bytes, [] => .ok bytes
  | bytes, .normal component :: rest =>
    appendComponents ((if bytes.isEmpty then bytes else bytes ++ [slash]) ++ component) rest
  | _, .curDir :: _ => .error .currentDirectory
  | _, .parentDir :: _ => .error .parentDirectory
  | _, .rootDir :: _ => .error .nativePrefix

/-- The path in a snapshot of a relative path of the system. -/
def PackPath.fromNative (path : List UInt8) : Except PackPathError PackPath := do
  let bytes ← appendComponents [] (UnixPath.components path)
  PackPath.new bytes

def pushComponents : List UInt8 → List (List UInt8) → Except PackPathError (List UInt8)
  | path, [] => .ok path
  | path, component :: rest => do
    let component ← nativeComponent component
    pushComponents (UnixPath.push path component) rest

def PackPath.toNative (path : PackPath) : Except PackPathError (List UInt8) :=
  pushComponents [] path.components

/-- What the bytes of a path in a snapshot are: no part between two slashes is empty,
or one of the names that a directory has of itself and of the one above it. -/
structure Canonical (bytes : List UInt8) : Prop where
  nonempty : bytes ≠ []
  no_nul : 0 ∉ bytes
  component : ∀ c ∈ componentsOf bytes, c ≠ [] ∧ c ≠ [dot] ∧ c ≠ [dot, dot]

theorem validate_eq_ok {bytes : List UInt8} : validate bytes = .ok () ↔ Canonical bytes := by
  constructor
  · intro h
    cases bytes with
    | nil => cases h
    | cons b bytes =>
      have hcomponents := (⟨b :: bytes, h⟩ : PackPath).isComponent
      refine ⟨List.cons_ne_nil b bytes, ?_, ?_⟩
      · intro hnul
        rw [validate, if_pos hnul] at h
        split_ifs at h
      · intro c hc
        have hcomponent := hcomponents c hc
        exact ⟨hcomponent.nonempty, hcomponent.not_current, hcomponent.not_parent⟩
  · intro h
    cases bytes with
    | nil => exact absurd rfl h.nonempty
    | cons b bytes =>
      have hroot : b ≠ slash := by
        rintro rfl
        have hempty : [] ∈ componentsOf ([] ++ slash :: bytes) := by
          rw [componentsOf, List.splitOn_append_cons_self]
          exact List.mem_append_left _ (by simp)
        exact (h.component [] hempty).1 rfl
      rw [validate, if_neg hroot, if_neg h.no_nul]
      exact validateComponents_ok.mpr h.component

theorem new_ok_iff {bytes : List UInt8} : (∃ p, PackPath.new bytes = .ok p) ↔ Canonical bytes := by
  rw [← validate_eq_ok]
  constructor
  · rintro ⟨p, hp⟩
    rw [← PackPath.new_eq_ok.mp hp]
    exact p.valid
  · intro h
    exact ⟨⟨bytes, h⟩, PackPath.new_eq_ok.mpr rfl⟩

/-- Components with the separators between them. -/
def joined (first : List UInt8) (rest : List (List UInt8)) : List UInt8 :=
  first ++ rest.flatMap (slash :: ·)

theorem intercalate_joined (first : List UInt8) (rest : List (List UInt8)) :
    [slash].intercalate (first :: rest) = joined first rest := by
  induction rest generalizing first with
  | nil => simp [joined]
  | cons second rest ih =>
    rw [List.intercalate_cons_cons, ih]
    simp [joined]

theorem IsComponent.hasRoot {c : List UInt8} (h : IsComponent c) : UnixPath.hasRoot c = false := by
  cases c with
  | nil => rfl
  | cons b c =>
    have hb : b ≠ slash := fun hb => h.no_slash (hb ▸ List.mem_cons_self)
    have hhead : (some b == some slash) = false := by simpa using hb
    exact hhead

theorem IsComponent.push {c path : List UInt8} (h : IsComponent c) (hne : path ≠ [])
    (hlast : path.getLast? ≠ some slash) : UnixPath.push path c = path ++ slash :: c := by
  obtain ⟨front, last, rfl⟩ : ∃ front last, path = front ++ [last] :=
    ⟨_, _, (List.dropLast_append_getLast hne).symm⟩
  rw [List.getLast?_concat, ne_eq, Option.some.injEq] at hlast
  have hany : (front ++ [last]).getLast?.any (· != UnixPath.separator) = true := by
    rw [List.getLast?_concat, Option.any_some]
    exact bne_iff_ne.mpr hlast
  rw [UnixPath.push, h.hasRoot, if_neg (by decide), if_pos hany]
  rfl

theorem IsComponent.getLast_ne {c : List UInt8} (h : IsComponent c) (path : List UInt8) :
    (path ++ c).getLast? ≠ some slash := by
  rw [List.getLast?_append_of_ne_nil path h.nonempty]
  intro hlast
  exact h.no_slash (List.mem_of_getLast? hlast)

/-- Components that are pushed one after another stand behind a separator each. -/
theorem pushComponents_eq {path : List UInt8} {rest : List (List UInt8)}
    (hrest : ∀ c ∈ rest, IsComponent c) (hne : path ≠ []) (hlast : path.getLast? ≠ some slash) :
    pushComponents path rest = .ok (joined path rest) := by
  induction rest generalizing path with
  | nil => simp [pushComponents, joined]
  | cons c rest ih =>
    have hc := hrest c List.mem_cons_self
    have hpushed : path ++ slash :: c = (path ++ [slash]) ++ c := by simp
    rw [pushComponents, nativeComponent, Exec.ok_bind, hc.push hne hlast, hpushed,
      ih (fun d hd => hrest d (List.mem_cons_of_mem _ hd)) (by simp) (hc.getLast_ne _)]
    simp [joined]

theorem appendComponents_eq {bytes : List UInt8} {rest : List (List UInt8)} (hne : bytes ≠ []) :
    appendComponents bytes (rest.map .normal) = .ok (joined bytes rest) := by
  induction rest generalizing bytes with
  | nil => simp [appendComponents, joined]
  | cons c rest ih =>
    have hempty : bytes.isEmpty = false := by simpa using hne
    rw [List.map_cons, appendComponents, hempty, if_neg (by decide), ih (by simp)]
    simp [joined]

theorem filterMap_components {cs : List (List UInt8)} (h : ∀ c ∈ cs, IsComponent c) :
    cs.filterMap UnixPath.parseComponent = cs.map .normal := by
  induction cs with
  | nil => rfl
  | cons c cs ih =>
    have hc := h c List.mem_cons_self
    have hcs := ih fun d hd => h d (List.mem_cons_of_mem _ hd)
    rw [List.filterMap_cons,
      UnixPath.parseComponent_normal hc.nonempty hc.not_current hc.not_parent, hcs]
    rfl

namespace PackPath

theorem exists_joined (p : PackPath) : ∃ first rest, p.components = first :: rest ∧
    p.bytes = joined first rest := by
  obtain ⟨first, rest, hcomponents⟩ := List.exists_cons_of_ne_nil p.components_ne_nil
  refine ⟨first, rest, hcomponents, ?_⟩
  rw [← intercalate_joined, ← hcomponents]
  exact (List.intercalate_splitOn slash).symm

/-- The system spells a path as the snapshot does. -/
theorem toNative_eq (p : PackPath) : p.toNative = .ok p.bytes := by
  obtain ⟨first, rest, hcomponents, hbytes⟩ := p.exists_joined
  have hall := p.isComponent
  rw [hcomponents] at hall
  have hfirst := hall first List.mem_cons_self
  have hpush : UnixPath.push [] first = first := by
    rw [UnixPath.push, hfirst.hasRoot]
    rfl
  rw [toNative, hcomponents, pushComponents, nativeComponent, Exec.ok_bind, hpush, hbytes]
  exact pushComponents_eq (fun c hc => hall c (List.mem_cons_of_mem _ hc)) hfirst.nonempty
    (hfirst.getLast_ne [])

theorem body_eq (p : PackPath) : UnixPath.body p.bytes = p.components.map .normal :=
  filterMap_components p.isComponent

theorem hasRoot_bytes (p : PackPath) : UnixPath.hasRoot p.bytes = false := by
  obtain ⟨first, rest, hcomponents, hbytes⟩ := p.exists_joined
  have hfirst := p.isComponent first (hcomponents ▸ List.mem_cons_self)
  rw [UnixPath.hasRoot, hbytes, joined, List.head?_append_of_ne_nil first hfirst.nonempty]
  exact hfirst.hasRoot

theorem components_eq (p : PackPath) : UnixPath.components p.bytes = p.components.map .normal := by
  obtain ⟨first, rest, hcomponents, hbytes⟩ := p.exists_joined
  have hfirst := p.isComponent first (hcomponents ▸ List.mem_cons_self)
  have hhead : (p.bytes.splitOn UnixPath.separator).head? = some first :=
    congrArg List.head? hcomponents
  have hdot : ¬ some first = some [46] := fun h => hfirst.not_current (Option.some.inj h)
  rw [UnixPath.components, p.hasRoot_bytes, if_neg (by decide), hhead, if_neg hdot, body_eq]

theorem fromNative_bytes (p : PackPath) : fromNative p.bytes = .ok p := by
  obtain ⟨first, rest, hcomponents, hbytes⟩ := p.exists_joined
  have hfirst := p.isComponent first (hcomponents ▸ List.mem_cons_self)
  have happend : appendComponents [] (p.components.map .normal) = .ok p.bytes := by
    rw [hcomponents, List.map_cons, hbytes]
    exact appendComponents_eq hfirst.nonempty
  rw [fromNative, components_eq, happend, Exec.ok_bind, new_bytes]

/-- A path that is joined to a directory goes on from there by its own components. -/
theorem components_join (p : PackPath) (dir : List UInt8) :
    UnixPath.components (UnixPath.join dir p.bytes) =
      UnixPath.components dir ++ p.components.map .normal := by
  by_cases hdir : dir = []
  · subst hdir
    have hpush : UnixPath.push [] p.bytes = p.bytes := by
      rw [UnixPath.push, p.hasRoot_bytes]
      rfl
    rw [UnixPath.join, hpush, components_eq]
    rfl
  · rw [UnixPath.join, UnixPath.components_push hdir p.hasRoot_bytes, body_eq]

end PackPath

/-- What `PackPath::new` accepts, and that the paths of the system have the same parts:
there and back, apart from each other, and below any directory they are joined to. -/
theorem pack_path_canonical :
    (∀ bytes, (∃ p, PackPath.new bytes = .ok p) ↔ Canonical bytes) ∧
    (∀ p : PackPath, ∃ native, p.toNative = .ok native ∧ PackPath.fromNative native = .ok p) ∧
    (∀ p q : PackPath, p.toNative = q.toNative → p = q) ∧
    (∀ (p : PackPath) (dir native : List UInt8), p.toNative = .ok native →
      p.components ≠ [] ∧ UnixPath.components (UnixPath.join dir native) =
        UnixPath.components dir ++ p.components.map .normal) ∧
    (∀ wire p, deserializePath wire = .ok p → Canonical p.bytes ∧ p.bytes = wire.elems) ∧
    ∀ (wire : LegacyWirePath) p, wire.decode = .ok p → Canonical p.bytes := by
  refine ⟨fun _ => new_ok_iff, ?_, ?_, ?_, ?_, fun _ p _ => validate_eq_ok.mp p.valid⟩
  · intro p
    exact ⟨p.bytes, p.toNative_eq, p.fromNative_bytes⟩
  · intro p q h
    rw [p.toNative_eq, q.toNative_eq] at h
    exact PackPath.ext_bytes (Except.ok.inj h)
  · intro p dir native h
    rw [p.toNative_eq] at h
    cases h
    exact ⟨p.components_ne_nil, p.components_join dir⟩
  · intro wire p h
    refine ⟨validate_eq_ok.mp p.valid, ?_⟩
    unfold deserializePath at h
    split at h
    · rename_i path hnew
      cases h
      exact PackPath.new_eq_ok.mp hnew
    · cases h

end Elfshaker.Format
