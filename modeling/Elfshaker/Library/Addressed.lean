import Mathlib.Logic.Function.Basic

namespace Elfshaker.Library

/-- What a store holds under its keys. -/
abbrev Holdings (κ β : Type) := κ → Option β

namespace Holdings

variable {κ β : Type} {names : κ → β → Prop} {start m m' : Holdings κ β} {k : κ} {b : β}

/-- The value that is held under a key is one that the key names. -/
def Addressed (names : κ → β → Prop) (m : Holdings κ β) : Prop :=
  ∀ k b, m k = some b → names k b

/-- What both stores hold under a key is the same. -/
def Agrees (m m' : Holdings κ β) : Prop :=
  ∀ k b b', m k = some b → m' k = some b' → b' = b

/-- A value that a store may get: the key names it, and the store holds no other there. -/
structure Genuine (names : κ → β → Prop) (m : Holdings κ β) (k : κ) (b : β) : Prop where
  named : names k b
  same : ∀ b', m k = some b' → b' = b

/-- What genuine writes and removals can make of a store. -/
structure Kept (names : κ → β → Prop) (start m : Holdings κ β) : Prop where
  addressed : Addressed names m
  agrees : Agrees start m

/-- What writes under free keys can make of a store. -/
structure Grown (names : κ → β → Prop) (start m : Holdings κ β) : Prop where
  addressed : Addressed names m
  grows : ∀ k b, start k = some b → m k = some b

theorem Addressed.kept (h : Addressed names m) : Kept names m m := by
  refine ⟨h, fun k b b' hb hb' => ?_⟩
  rw [hb] at hb'
  exact (Option.some.inj hb').symm

theorem Addressed.grown (h : Addressed names m) : Grown names m m :=
  ⟨h, fun _ _ hb => hb⟩

theorem Grown.kept (h : Grown names start m) : Kept names start m := by
  refine ⟨h.addressed, fun k b b' hb hb' => ?_⟩
  rw [h.grows k b hb] at hb'
  exact (Option.some.inj hb').symm

/-- A part of what is held. -/
theorem Kept.mono (h : Kept names start m) (hpart : ∀ k b, m' k = some b → m k = some b) :
    Kept names start m' :=
  ⟨fun k b hb => h.addressed k b (hpart k b hb),
    fun k b b' hb hb' => h.agrees k b b' hb (hpart k b' hb')⟩

/-- What is held already may be written again. -/
theorem Kept.genuine (h : Kept names start m) (hb : m k = some b) : Genuine names start k b :=
  ⟨h.addressed k b hb, fun b' hb' => (h.agrees k b' b hb' hb).symm⟩

section Update

variable [DecidableEq κ]

theorem Kept.remove (h : Kept names start m) : Kept names start (Function.update m k none) := by
  apply h.mono
  intro k' b hb
  by_cases heq : k' = k
  · subst heq
    rw [Function.update_self] at hb
    cases hb
  · rwa [Function.update_of_ne heq] at hb

theorem Kept.put (h : Kept names start m) (hb : Genuine names start k b) :
    Kept names start (Function.update m k (some b)) := by
  refine ⟨fun k' b' hb' => ?_, fun k' b' b'' hb' hb'' => ?_⟩
  · by_cases heq : k' = k
    · subst heq
      rw [Function.update_self] at hb'
      cases hb'
      exact hb.named
    · rw [Function.update_of_ne heq] at hb'
      exact h.addressed k' b' hb'
  · by_cases heq : k' = k
    · subst heq
      rw [Function.update_self] at hb''
      cases hb''
      exact (hb.same b' hb').symm
    · rw [Function.update_of_ne heq] at hb''
      exact h.agrees k' b' b'' hb' hb''

theorem Grown.put (h : Grown names start m) (hfree : m k = none) (hb : names k b) :
    Grown names start (Function.update m k (some b)) := by
  refine ⟨fun k' b' hb' => ?_, fun k' b' hb' => ?_⟩
  · by_cases heq : k' = k
    · subst heq
      rw [Function.update_self] at hb'
      cases hb'
      exact hb
    · rw [Function.update_of_ne heq] at hb'
      exact h.addressed k' b' hb'
  · have hheld := h.grows k' b' hb'
    by_cases heq : k' = k
    · subst heq
      rw [hfree] at hheld
      cases hheld
    · rwa [Function.update_of_ne heq]

end Update

end Holdings

end Elfshaker.Library
