import Mathlib.Data.List.Basic
import Mathlib.Tactic.SplitIfs

namespace Elfshaker.Library.UnixPath

/-- The byte `b'/'`. -/
def separator : UInt8 := 47

inductive Component where
  | rootDir
  | curDir
  | parentDir
  | normal (name : List UInt8)
  deriving DecidableEq, Repr

/-- What one part of a path stands for. An empty part and a dot are left out. -/
def parseComponent (part : List UInt8) : Option Component :=
  if part = [] then none
  else if part = [46] then none
  else if part = [46, 46] then some .parentDir
  else some (.normal part)

/-- The components after the root, or after the dot that a path starts with. -/
def body (path : List UInt8) : List Component :=
  (path.splitOn separator).filterMap parseComponent

def hasRoot (path : List UInt8) : Bool := path.head? == some separator

/-- A dot counts only where a path starts with it. -/
def components (path : List UInt8) : List Component :=
  if hasRoot path then .rootDir :: body path
  else if (path.splitOn separator).head? = some [46] then .curDir :: body path
  else body path

/-- `PathBuf::push`, where a path with a root takes the place of all there was. -/
def push (path tail : List UInt8) : List UInt8 :=
  if hasRoot tail then tail
  else if path.getLast?.any (· != separator) then path ++ separator :: tail
  else path ++ tail

/-- `Path::join`. -/
def join (dir tail : List UInt8) : List UInt8 := push dir tail

theorem mem_splitOn {a b : UInt8} {xs c : List UInt8} (hc : c ∈ xs.splitOn a) (hb : b ∈ c) :
    b ∈ xs ∧ b ≠ a := by
  induction xs generalizing c with
  | nil =>
    rw [List.splitOn_nil, List.mem_singleton] at hc
    simp [hc] at hb
  | cons x xs ih =>
    rw [List.splitOn_cons_eq_if_modifyHead] at hc
    cases hs : xs.splitOn a with
    | nil => exact absurd hs (List.splitOn_ne_nil a xs)
    | cons head tail =>
      rw [hs] at hc ih
      split_ifs at hc with hx
      · rcases List.mem_cons.mp hc with rfl | hc
        · simp at hb
        · obtain ⟨hm, hne⟩ := ih hc hb
          exact ⟨List.mem_cons_of_mem _ hm, hne⟩
      · rcases List.mem_cons.mp hc with rfl | hc
        · rcases List.mem_cons.mp hb with rfl | hb
          · exact ⟨List.mem_cons_self, by simpa using hx⟩
          · obtain ⟨hm, hne⟩ := ih List.mem_cons_self hb
            exact ⟨List.mem_cons_of_mem _ hm, hne⟩
        · obtain ⟨hm, hne⟩ := ih (List.mem_cons_of_mem _ hc) hb
          exact ⟨List.mem_cons_of_mem _ hm, hne⟩

theorem parseComponent_normal {part : List UInt8} (hempty : part ≠ []) (hdot : part ≠ [46])
    (hparent : part ≠ [46, 46]) : parseComponent part = some (.normal part) := by
  rw [parseComponent, if_neg hempty, if_neg hdot, if_neg hparent]

theorem splitOn_separator (path tail : List UInt8) :
    (path ++ separator :: tail).splitOn separator =
      path.splitOn separator ++ tail.splitOn separator :=
  List.splitOn_append_cons_self path tail

theorem body_separator (path tail : List UInt8) :
    body (path ++ separator :: tail) = body path ++ body tail := by
  rw [body, splitOn_separator, List.filterMap_append]
  rfl

theorem body_empty : body [] = [] := rfl

theorem components_root (tail : List UInt8) :
    components (separator :: tail) = .rootDir :: body tail := by
  have hroot : hasRoot (separator :: tail) = true := by simp [hasRoot]
  have hbody : body ([] ++ separator :: tail) = body [] ++ body tail := body_separator [] tail
  rw [components, if_pos hroot]
  exact congrArg (List.cons Component.rootDir) hbody

/-- What the components of a path start with is decided before its first separator. -/
theorem components_separator {path : List UInt8} (hne : path ≠ []) (tail : List UInt8) :
    components (path ++ separator :: tail) = components path ++ body tail := by
  have hroot : hasRoot (path ++ separator :: tail) = hasRoot path := by
    unfold hasRoot
    rw [List.head?_append_of_ne_nil path hne]
  have hfirst : ((path ++ separator :: tail).splitOn separator).head? =
      (path.splitOn separator).head? := by
    rw [splitOn_separator, List.head?_append_of_ne_nil _ (List.splitOn_ne_nil separator path)]
  unfold components
  rw [hroot, hfirst, body_separator]
  split_ifs <;> simp

/-- A path that is joined to another one goes on where that one ends. -/
theorem components_push {path tail : List UInt8} (hne : path ≠ []) (hroot : hasRoot tail = false) :
    components (push path tail) = components path ++ body tail := by
  unfold push
  rw [if_neg (by simp [hroot])]
  obtain ⟨front, last, rfl⟩ : ∃ front last, path = front ++ [last] :=
    ⟨_, _, (List.dropLast_append_getLast hne).symm⟩
  rw [List.getLast?_concat, Option.any_some]
  by_cases hlast : last = separator
  · subst hlast
    rw [if_neg (by simp), List.append_assoc, List.singleton_append]
    by_cases hfront : front = []
    · subst hfront
      rw [List.nil_append, List.nil_append, components_root, components_root, body_empty]
      rfl
    · rw [components_separator hfront, components_separator hfront, body_empty, List.append_nil]
  · rw [if_pos (by simpa using hlast), components_separator hne]

end Elfshaker.Library.UnixPath
