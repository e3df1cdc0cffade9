import Elfshaker.Checkout.PathOrder
import Elfshaker.Library.Text

namespace Elfshaker.Checkout

open Elfshaker.Library Elfshaker.Format

inductive TargetPlatform where
  | unix
  | windows
  | macOs
  deriving DecidableEq, Repr

/-- What the Unicode tables say of strings and characters. -/
structure Casing where
  toLowercase : String → String
  charToLowercase : Char → List Char
  nfd : String → List Char

/-- A sort that may order equal elements as it likes. -/
structure UnstableSort (α : Type) (le : α → α → Prop) where
  sort : List α → List α
  perm : ∀ xs, (sort xs).Perm xs
  sorted : ∀ xs, (sort xs).Pairwise le

section Keys

abbrev PathKey := List (List UInt8)

def unrepresentable (path : PackPath) (component : List UInt8) : PackError :=
  .pathNotRepresentable path (.unrepresentableComponent component)

def targetUtf8Component (path : PackPath) (component : List UInt8) : Exec PackError String :=
  Exec.okOr (unrepresentable path component) (Text.fromUtf8 component)

def isWindowsDeviceSuffix (suffix : String) : Bool :=
  suffix ∈ ["1", "2", "3", "4", "5", "6", "7", "8", "9", "¹", "²", "³"]

/-- A name that Windows has given to a device. -/
def isReservedStem (stem : String) : Bool :=
  stem ∈ ["CON", "PRN", "AUX", "NUL"] ||
    ((Text.stripPrefix "COM" stem).or (Text.stripPrefix "LPT" stem)).any isWindowsDeviceSuffix

def validateWindowsComponent (path : PackPath) (component : String) : Exec PackError Unit :=
  let invalidCharacter := component.toList.any fun character =>
    decide (character ≤ Char.ofNat 0x1F) || "<>:\"/\\|?*".toList.contains character
  let trailing := component.toList.getLast? == some '.' || component.toList.getLast? == some ' '
  let stem := (component.toList.takeWhile (· ≠ '.')).map Char.toUpper
  if invalidCharacter || trailing || isReservedStem (String.ofList stem) then
    Exec.fail (unrepresentable path (Text.encodeUtf8 component))
  else .ok ()

variable (casing : Casing)

/-- A component as the platform compares it. -/
def componentKey (platform : TargetPlatform) (path : PackPath) (component : List UInt8) :
    Exec PackError (List UInt8) :=
  match platform with
  | .unix => .ok component
  | .windows => do
    let component ← targetUtf8Component path component
    validateWindowsComponent path component
    .ok (Text.encodeUtf8 (casing.toLowercase component))
  | .macOs => do
    let component ← targetUtf8Component path component
    .ok (Text.encodeUtf8 (String.ofList ((casing.nfd component).flatMap casing.charToLowercase)))

/-- `target_path_key`. -/
def platformPathKey (platform : TargetPlatform) (path : PackPath) : Exec PackError PathKey :=
  path.components.mapM (componentKey casing platform path)

/-- The paths with their keys; none may come twice. -/
def collectKeys (platform : TargetPlatform) (exact : List PackPath) :
    List PackPath → Exec PackError (List (PathKey × PackPath))
  | [] => .ok []
  | path :: paths =>
    if path ∈ exact then Exec.fail (.duplicateLogicalPath path)
    else do
      let key ← platformPathKey casing platform path
      let targetPaths ← collectKeys platform (path :: exact) paths
      .ok ((key, path) :: targetPaths)

def checkPair (left right : PathKey × PackPath) : Exec PackError Unit :=
  if left.1 = right.1 then Exec.fail (.targetPathCollision left.2 right.2)
  else if isComponentPrefix left.1 right.1 then Exec.fail (.pathPrefixConflict left.2 right.2)
  else .ok ()

def checkPairs : List (PathKey × PackPath) → Exec PackError Unit
  | left :: right :: rest => do
    checkPair left right
    checkPairs (right :: rest)
  | _ => .ok ()

abbrev KeySort := UnstableSort (PathKey × PackPath) fun left right => left.1 ≤ right.1

/-- One such sort. -/
def keySort : KeySort where
  sort := fun xs => xs.insertionSort fun left right => left.1 ≤ right.1
  perm := List.perm_insertionSort _
  sorted := pairwise_sorted Prod.fst List.le_total fun _ _ _ => List.le_trans

/-- `preflight_path_policy`, on each platform. -/
def platformPathPolicy (order : KeySort) (platform : TargetPlatform) (paths : List PackPath) :
    Exec PackError Unit := do
  let targetPaths ← collectKeys casing platform [] paths
  checkPairs (order.sort targetPaths)

end Keys

section Complete

variable {casing : Casing} {platform : TargetPlatform} {paths exact : List PackPath}
  {left right : PathKey × PackPath} {targetPaths : List (PathKey × PackPath)}

/-- Two outputs that do not get in each other's way. -/
structure Parted (left right : PathKey) : Prop where
  apart : left ≠ right
  notAbove : isComponentPrefix left right = false
  notBelow : isComponentPrefix right left = false

theorem Parted.symm {left right : PathKey} (h : Parted left right) : Parted right left :=
  ⟨h.apart.symm, h.notBelow, h.notAbove⟩

theorem checkPair_eq_ok : checkPair left right = .ok () ↔
    left.1 ≠ right.1 ∧ isComponentPrefix left.1 right.1 = false := by
  unfold checkPair
  split_ifs with hsame hstarts
  · simp [hsame, Exec.fail]
  · simp [hstarts, Exec.fail]
  · simp [hsame, hstarts]

/-- A pair in order that is not one above the other is parted. -/
theorem parted_iff_checkPair (hle : left.1 ≤ right.1) :
    checkPair left right = .ok () ↔ Parted left.1 right.1 := by
  rw [checkPair_eq_ok]
  constructor
  · rintro ⟨hne, habove⟩
    refine ⟨hne, habove, ?_⟩
    rw [Bool.eq_false_iff]
    intro hbelow
    exact hne (List.le_antisymm hle (isComponentPrefix_iff.mp hbelow).1.le)
  · exact fun h => ⟨h.apart, h.notAbove⟩

/-- What gets in the way of a later path gets in the way of the next one already. -/
theorem parted_of_next {next last : PathKey} {first : PathKey} (hparted : Parted first next)
    (hfirst : first ≤ next) (hnext : next ≤ last) : Parted first last := by
  have conflict (hstarts : first <+: last) : False := by
    have hbetween := prefix_of_between hstarts hfirst hnext
    have habove := isComponentPrefix_iff.mpr ⟨hbetween, hparted.apart⟩
    rw [hparted.notAbove] at habove
    cases habove
  refine ⟨fun heq => conflict (heq ▸ List.prefix_rfl), ?_, ?_⟩
  · rw [Bool.eq_false_iff]
    exact fun habove => conflict (isComponentPrefix_iff.mp habove).1
  · rw [Bool.eq_false_iff]
    intro hbelow
    have heq := List.le_antisymm (List.le_trans hfirst hnext) (isComponentPrefix_iff.mp hbelow).1.le
    exact conflict (heq ▸ List.prefix_rfl)

/-- A scan of sorted paths that looks at neighbours only finds every conflict. -/
theorem checkPairs_eq_ok (sorted : targetPaths.Pairwise fun left right => left.1 ≤ right.1) :
    checkPairs targetPaths = .ok () ↔
      targetPaths.Pairwise fun left right => Parted left.1 right.1 := by
  induction targetPaths with
  | nil => simp [checkPairs]
  | cons left rest ih =>
    obtain ⟨hfirst, hrest⟩ := List.pairwise_cons.mp sorted
    cases rest with
    | nil => simp [checkPairs]
    | cons right rest =>
      have hstep : checkPairs (left :: right :: rest) = .ok () ↔
          Parted left.1 right.1 ∧ checkPairs (right :: rest) = .ok () := by
        rw [checkPairs, Exec.bind_eq_ok, ← parted_iff_checkPair (hfirst right List.mem_cons_self)]
        exact ⟨fun ⟨_, hpair, h⟩ => ⟨hpair, h⟩, fun ⟨hpair, h⟩ => ⟨(), hpair, h⟩⟩
      rw [hstep, ih hrest, List.pairwise_cons (a := left)]
      refine and_congr_left fun _ => ⟨fun hparted last hlast => ?_, fun h => ?_⟩
      · rcases List.mem_cons.mp hlast with rfl | hlater
        · exact hparted
        · exact parted_of_next hparted (hfirst right List.mem_cons_self)
            ((List.pairwise_cons.mp hrest).1 last hlater)
      · exact h right List.mem_cons_self

/-- A path with its key. -/
def IsTarget (casing : Casing) (platform : TargetPlatform) (path : PackPath)
    (target : PathKey × PackPath) : Prop :=
  platformPathKey casing platform path = .ok target.1 ∧ target.2 = path

theorem collectKeys_eq_ok : collectKeys casing platform exact paths = .ok targetPaths ↔
    (∀ path ∈ paths, path ∉ exact) ∧ paths.Nodup ∧
      List.Forall₂ (IsTarget casing platform) paths targetPaths := by
  induction paths generalizing exact targetPaths with
  | nil =>
    rw [collectKeys, Except.ok.injEq, List.forall₂_nil_left_iff]
    simp [eq_comm]
  | cons path paths ih =>
    rw [collectKeys, List.forall_mem_cons, List.nodup_cons]
    split_ifs with hexact
    · simp [hexact, Exec.fail]
    · simp only [Exec.bind_eq_ok, ih]
      constructor
      · rintro ⟨key, hkey, rest, ⟨hnew, hnodup, hall⟩, htargets⟩
        cases htargets
        refine ⟨⟨hexact, fun p hp hmem => hnew p hp (List.mem_cons_of_mem _ hmem)⟩,
          ⟨fun hmem => hnew path hmem List.mem_cons_self, hnodup⟩, .cons ⟨hkey, rfl⟩ hall⟩
      · rintro ⟨⟨-, hnew⟩, ⟨hnot, hnodup⟩, hall⟩
        cases hall with
        | @cons _ target _ rest hhead htail =>
          obtain ⟨key, path'⟩ := target
          obtain ⟨hkey, rfl⟩ := hhead
          refine ⟨key, hkey, rest, ⟨fun p hp hmem => ?_, hnodup, htail⟩, rfl⟩
          rcases List.mem_cons.mp hmem with rfl | hmem
          · exact hnot hp
          · exact hnew p hp hmem

variable (casing platform) in
/-- A list of outputs that can all be there on a platform. -/
structure Compatible (paths : List PackPath) : Prop where
  keyed : ∀ path ∈ paths, ∃ key, platformPathKey casing platform path = .ok key
  nodup : paths.Nodup
  parted : ∀ path ∈ paths, ∀ other ∈ paths, path ≠ other → ∀ key otherKey,
    platformPathKey casing platform path = .ok key →
    platformPathKey casing platform other = .ok otherKey →
      key ≠ otherKey ∧ isComponentPrefix key otherKey = false

theorem exists_targets
    (keyed : ∀ path ∈ paths, ∃ key, platformPathKey casing platform path = .ok key) :
    ∃ targetPaths, List.Forall₂ (IsTarget casing platform) paths targetPaths := by
  induction paths with
  | nil => exact ⟨[], .nil⟩
  | cons path paths ih =>
    obtain ⟨key, hkey⟩ := keyed path List.mem_cons_self
    obtain ⟨rest, hrest⟩ := ih fun p hp => keyed p (List.mem_cons_of_mem _ hp)
    exact ⟨(key, path) :: rest, .cons ⟨hkey, rfl⟩ hrest⟩

theorem mem_targets {target : PathKey × PackPath}
    (hall : List.Forall₂ (IsTarget casing platform) paths targetPaths) :
    target ∈ targetPaths ↔
      target.2 ∈ paths ∧ platformPathKey casing platform target.2 = .ok target.1 := by
  induction hall with
  | nil => simp
  | @cons path first paths rest hfirst hrest ih =>
    obtain ⟨key, path'⟩ := first
    obtain ⟨hkey, rfl⟩ := hfirst
    obtain ⟨key', path⟩ := target
    rw [List.mem_cons, List.mem_cons, ih, Prod.mk.injEq, or_and_right]
    refine or_congr_left ⟨?_, ?_⟩
    · rintro ⟨rfl, rfl⟩
      exact ⟨rfl, hkey⟩
    · rintro ⟨rfl, hkey'⟩
      rw [hkey] at hkey'
      exact ⟨(Except.ok.inj hkey').symm, rfl⟩

theorem targets_paths (hall : List.Forall₂ (IsTarget casing platform) paths targetPaths) :
    targetPaths.map Prod.snd = paths := by
  induction hall with
  | nil => rfl
  | cons hfirst _ ih => rw [List.map_cons, hfirst.2, ih]

/-- The keys are parted just where the paths are compatible. -/
theorem compatible_iff (hnodup : paths.Nodup)
    (hall : List.Forall₂ (IsTarget casing platform) paths targetPaths) :
    (targetPaths.Pairwise fun left right => Parted left.1 right.1) ↔
      Compatible casing platform paths := by
  have keyed : ∀ path ∈ paths, ∃ key, platformPathKey casing platform path = .ok key := by
    intro path hpath
    rw [← targets_paths hall] at hpath
    obtain ⟨target, htarget, rfl⟩ := List.mem_map.mp hpath
    exact ⟨target.1, ((mem_targets hall).mp htarget).2⟩
  constructor
  · intro hparted
    refine ⟨keyed, hnodup, fun path hpath other hother hne key otherKey hkey hotherKey => ?_⟩
    have hbefore : targetPaths.Pairwise fun left right =>
        left.2 ≠ right.2 → Parted left.1 right.1 := by
      apply hparted.imp
      exact fun h _ => h
    have hafter : targetPaths.Pairwise fun left right =>
        right.2 ≠ left.2 → Parted right.1 left.1 := by
      apply hparted.imp
      exact fun h _ => h.symm
    have hleft : (key, path) ∈ targetPaths := (mem_targets hall).mpr ⟨hpath, hkey⟩
    have hright : (otherKey, other) ∈ targetPaths := (mem_targets hall).mpr ⟨hother, hotherKey⟩
    have hpair := hbefore.forall_of_forall_of_flip (fun _ _ hne => absurd rfl hne) hafter hleft
      hright hne
    exact ⟨hpair.apart, hpair.notAbove⟩
  · intro hcompatible
    have hdistinct : targetPaths.Pairwise fun left right => left.2 ≠ right.2 := by
      rw [← List.pairwise_map, targets_paths hall]
      exact hnodup
    refine hdistinct.imp_of_mem fun {left right} hleft hright hne => ?_
    obtain ⟨hleftPath, hleftKey⟩ := (mem_targets hall).mp hleft
    obtain ⟨hrightPath, hrightKey⟩ := (mem_targets hall).mp hright
    obtain ⟨hapart, habove⟩ :=
      hcompatible.parted _ hleftPath _ hrightPath hne _ _ hleftKey hrightKey
    exact ⟨hapart, habove,
      (hcompatible.parted _ hrightPath _ hleftPath hne.symm _ _ hrightKey hleftKey).2⟩

theorem pairwise_parted_perm {sorted : List (PathKey × PackPath)} (hperm : sorted.Perm targetPaths) :
    (sorted.Pairwise fun left right => Parted left.1 right.1) ↔
      targetPaths.Pairwise fun left right => Parted left.1 right.1 :=
  hperm.pairwise_iff fun h => h.symm

/-- The policy accepts the lists of outputs that can all be there, and no others. -/
theorem platform_path_policy_iff (casing : Casing) (order : KeySort) (platform : TargetPlatform)
    (paths : List PackPath) :
    platformPathPolicy casing order platform paths = .ok () ↔
      Compatible casing platform paths := by
  rw [platformPathPolicy, Exec.bind_eq_ok]
  constructor
  · rintro ⟨targetPaths, hkeys, hcheck⟩
    obtain ⟨-, hnodup, hall⟩ := collectKeys_eq_ok.mp hkeys
    rw [checkPairs_eq_ok (order.sorted targetPaths), pairwise_parted_perm (order.perm targetPaths)]
      at hcheck
    exact (compatible_iff hnodup hall).mp hcheck
  · intro hcompatible
    obtain ⟨targetPaths, hall⟩ := exists_targets hcompatible.keyed
    refine ⟨targetPaths, collectKeys_eq_ok.mpr ⟨fun _ _ => List.not_mem_nil, hcompatible.nodup, hall⟩,
      ?_⟩
    rw [checkPairs_eq_ok (order.sorted targetPaths), pairwise_parted_perm (order.perm targetPaths)]
    exact (compatible_iff hcompatible.nodup hall).mpr hcompatible

end Complete

section Unix

variable {casing : Casing} {paths : List PackPath}

theorem platformPathKey_unix (path : PackPath) :
    platformPathKey casing .unix path = .ok (targetPathKey path) := by
  have hall (components : List (List UInt8)) :
      components.mapM (componentKey casing .unix path) = .ok components := by
    induction components with
    | nil => rfl
    | cons component rest ih =>
      have hcomponent : componentKey casing .unix path component = .ok component := rfl
      rw [List.mapM_cons, hcomponent, Exec.ok_bind, ih]
      rfl
  exact hall path.components

theorem checkNeighbours_eq (paths : List PackPath) :
    checkNeighbours paths = checkPairs (paths.map fun path => (targetPathKey path, path)) := by
  induction paths with
  | nil => rfl
  | cons left rest ih =>
    cases rest with
    | nil => rfl
    | cons right rest =>
      rw [checkNeighbours, ih]
      simp only [List.map_cons, checkPairs, checkPair]
      split_ifs <;> rfl

theorem firstRepeated_eq_none {seen : List PackPath} :
    firstRepeated seen paths = none ↔ (∀ path ∈ paths, path ∉ seen) ∧ paths.Nodup := by
  induction paths generalizing seen with
  | nil => simp [firstRepeated]
  | cons path paths ih =>
    rw [firstRepeated, List.forall_mem_cons, List.nodup_cons]
    split_ifs with hseen
    · simp [hseen]
    · rw [ih]
      constructor
      · rintro ⟨hnew, hnodup⟩
        exact ⟨⟨hseen, fun p hp hmem => hnew p hp (List.mem_cons_of_mem _ hmem)⟩,
          fun hmem => hnew path hmem List.mem_cons_self, hnodup⟩
      · rintro ⟨⟨-, hnew⟩, hnot, hnodup⟩
        refine ⟨fun p hp hmem => ?_, hnodup⟩
        rcases List.mem_cons.mp hmem with rfl | hmem
        · exact hnot hp
        · exact hnew p hp hmem

/-- An extraction on Unix checks the same. -/
theorem preflightPathPolicy_iff : preflightPathPolicy paths = .ok () ↔
    Compatible casing .unix paths := by
  have hsorted : ((sortByKey paths).map fun path => (targetPathKey path, path)).Pairwise
      fun left right => left.1 ≤ right.1 := by
    rw [List.pairwise_map]
    exact pairwise_sorted targetPathKey List.le_total (fun _ _ _ => List.le_trans) paths
  have hperm : ((sortByKey paths).map fun path => (targetPathKey path, path)).Perm
      (paths.map fun path => (targetPathKey path, path)) :=
    (List.perm_insertionSort _ _).map _
  have hall : List.Forall₂ (IsTarget casing .unix) paths
      (paths.map fun path => (targetPathKey path, path)) := by
    rw [List.forall₂_map_right_iff, List.forall₂_same]
    exact fun path _ => ⟨platformPathKey_unix path, rfl⟩
  unfold preflightPathPolicy
  split
  · rename_i path hrepeated
    constructor
    · intro h
      cases h
    · intro hcompatible
      have hnone : firstRepeated [] paths = none :=
        firstRepeated_eq_none.mpr ⟨fun _ _ => List.not_mem_nil, hcompatible.nodup⟩
      rw [hrepeated] at hnone
      cases hnone
  · rename_i hnone
    rw [checkNeighbours_eq, checkPairs_eq_ok hsorted, pairwise_parted_perm hperm]
    exact compatible_iff (firstRepeated_eq_none.mp hnone).2 hall

end Unix

end Elfshaker.Checkout
