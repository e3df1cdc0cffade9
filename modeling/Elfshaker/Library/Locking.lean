import Elfshaker.Library.Effect
import Mathlib.Logic.Function.Basic
import Mathlib.Logic.Relation

namespace Elfshaker.Library

/-- How a file is locked. -/
inductive LockMode where
  | shared
  | exclusive
  deriving DecidableEq

/-- What a process may ask the system for. -/
inductive LockRequest where
  | unlock
  | tryLock (mode : LockMode)
  | lock (mode : LockMode)

namespace LockRequest

/-- What is held where the system does as asked. -/
def mode : LockRequest → Option LockMode
  | unlock => none
  | tryLock mode => some mode
  | lock mode => some mode

/-- Where the system fails, what was held is held on. -/
def heldAfter {φ : Type} (request : LockRequest) (held : Option LockMode) :
    Except φ Unit → Option LockMode
  | .ok () => request.mode
  | .error _ => held

end LockRequest

/-- What a process has left to do: calls on what it shares with others, and requests about one
lock. -/
inductive Program (ς φ ε α : Type) : Type 1 where
  | done (result : Exec ε α)
  | call {β : Type} (x : Effect ς ε β) (next : Exec ε β → Program ς φ ε α)
  | ask (request : LockRequest) (next : Except φ Unit → Program ς φ ε α)

namespace Program

variable {ς φ ε α β : Type}

protected def bind : Program ς φ ε α → (α → Program ς φ ε β) → Program ς φ ε β
  | .done (.ok a), f => f a
  | .done (.error e), _ => .done (.error e)
  | .call x next, f => .call x fun result => (next result).bind f
  | .ask request next, f => .ask request fun reply => (next reply).bind f

instance : Monad (Program ς φ ε) where
  pure a := .done (.ok a)
  bind := Program.bind

def lift (x : Effect ς ε α) : Program ς φ ε α := .call x .done

def request (r : LockRequest) : Program ς φ ε (Except φ Unit) := .ask r fun reply => .done (.ok reply)

/-- The result, for a process that deals with the error itself. -/
def attempt : Program ς φ ε α → Program ς φ ε (Exec ε α)
  | .done result => .done (.ok result)
  | .call x next => .call x fun result => (next result).attempt
  | .ask request next => .ask request fun reply => (next reply).attempt

/-- Calls that are all made; the first that failed is the result. -/
def callAll (f : α → Effect ς ε β) : List α → Program ς φ ε (List β)
  | [] => pure []
  | x :: xs => .call (f x) fun y =>
    (callAll f xs).attempt.bind fun ys => .done (y.bind fun y => ys.map (y :: ·))

/-- What a process does where no request fails, and no other process does anything. -/
def alone : Program ς φ ε α → Effect ς ε α
  | .done result => fun s => (result, s)
  | .call x next => fun s => (next (x s).1).alone (x s).2
  | .ask _ next => (next (.ok ())).alone

section Alone

theorem alone_bind (p : Program ς φ ε α) (f : α → Program ς φ ε β) :
    (p >>= f).alone = p.alone >>= fun a => (f a).alone := by
  have hbind (q : Program ς φ ε α) : q >>= f = q.bind f := rfl
  rw [hbind]
  induction p with
  | done result => cases result <;> rfl
  | call x next ih =>
    funext s
    exact congrFun (ih (x s).1) (x s).2
  | ask request next ih => exact ih (.ok ())

@[simp] theorem alone_pure (a : α) : (pure a : Program ς φ ε α).alone = pure a := rfl

@[simp] theorem alone_lift (x : Effect ς ε α) : (lift x : Program ς φ ε α).alone = x := rfl

theorem alone_attempt (p : Program ς φ ε α) (s : ς) :
    p.attempt.alone s = (.ok (p.alone s).1, (p.alone s).2) := by
  induction p generalizing s with
  | done result => rfl
  | call x next ih => exact ih _ _
  | ask request next ih => exact ih _ _

theorem alone_callAll (f : α → Effect ς ε β) (xs : List α) :
    (callAll f xs : Program ς φ ε (List β)).alone = Effect.runAll f xs := by
  induction xs with
  | nil => rfl
  | cons x xs ih =>
    funext s
    rw [Effect.runAll_cons, ← ih]
    have hbind := congrFun (alone_bind (callAll f xs : Program ς φ ε (List β)).attempt
      fun ys => .done ((f x s).1.bind fun y => ys.map (y :: ·))) (f x s).2
    have hattempt := Effect.bind_of_ok
      (f := fun ys => (Program.done ((f x s).1.bind fun y => ys.map (y :: ·)) : Program ς φ ε _).alone)
      (alone_attempt (callAll f xs : Program ς φ ε (List β)) (f x s).2)
    exact hbind.trans hattempt

end Alone

end Program

/-- What processes share, what each of them holds of the lock, and what each runs. -/
structure Processes (π κ ς φ ε α : Type) where
  state : ς
  held : π → Option LockMode
  running : π → Option (κ × Program ς φ ε α)

namespace Processes

variable {π κ ς φ ε α : Type}

/-- No other process holds the lock so that this one may not. -/
def Grantable (held : π → Option LockMode) (p : π) : LockMode → Prop
  | .shared => ∀ q, q ≠ p → held q ≠ some .exclusive
  | .exclusive => ∀ q, q ≠ p → held q = none

/-- A process waits for a lock that others hold. -/
def Waits (s : Processes π κ ς φ ε α) (p : π) : Prop :=
  ∃ job mode next, s.running p = some (job, .ask (.lock mode) next) ∧ ¬ Grantable s.held p mode

variable [DecidableEq π] (program : κ → Program ς φ ε α)

/-- One step of one process. It may be killed at any time, and its lock is given back then. -/
inductive Step (p : π) (s : Processes π κ ς φ ε α) : Processes π κ ς φ ε α → Prop where
  | start (job : κ) (idle : s.running p = none) :
      Step p s { s with running := Function.update s.running p (some (job, program job)) }
  | call {job : κ} {β : Type} {x : Effect ς ε β} {next : Exec ε β → Program ς φ ε α}
      (h : s.running p = some (job, .call x next)) :
      Step p s { s with
        state := (x s.state).2
        running := Function.update s.running p (some (job, next (x s.state).1)) }
  | ask {job : κ} {request : LockRequest} {next : Except φ Unit → Program ς φ ε α}
      (reply : Except φ Unit) (h : s.running p = some (job, .ask request next))
      (granted : reply = .ok () → ∀ mode ∈ request.mode, Grantable s.held p mode) :
      Step p s { s with
        held := Function.update s.held p (request.heldAfter (s.held p) reply)
        running := Function.update s.running p (some (job, next reply)) }
  | leave :
      Step p s { s with
        held := Function.update s.held p none
        running := Function.update s.running p none }

/-- The states that any interleaving of any jobs leads to. -/
inductive Reachable (start : ς) : Processes π κ ς φ ε α → Prop where
  | start : Reachable start ⟨start, fun _ => none, fun _ => none⟩
  | step {s s' : Processes π κ ς φ ε α} (before : Reachable start s) (p : π)
      (h : Step program p s s') : Reachable start s'

end Processes

namespace Program

variable {ς φ ε α β : Type}

/-- A process that makes its calls in one mode of the lock only, keeps `I` with each of them, and
waits for the lock only where it holds none. Under the shared lock a call changes the state as `G`
allows, and what is known after it stays true when others do the same. The process goes on from a
state with `P`, and `Q` says how it ends. -/
inductive Safe (I : ς → Prop) (G : ς → ς → Prop) (mode : LockMode)
    (Q : Exec ε α → Option LockMode → ς → Prop) :
    Option LockMode → (ς → Prop) → Program ς φ ε α → Prop where
  | done {held : Option LockMode} {P : ς → Prop} {result : Exec ε α}
      (h : ∀ s, P s → Q result held s) : Safe I G mode Q held P (.done result)
  | call {P : ς → Prop} {β : Type} {x : Effect ς ε β} {next : Exec ε β → Program ς φ ε α}
      (R : Exec ε β → ς → Prop) (keeps : ∀ s, I s → P s → I (x s).2 ∧ R (x s).1 (x s).2)
      (allowed : mode = .shared → ∀ s, I s → P s → G s (x s).2)
      (fixed : mode = .shared → ∀ result s s', G s s' → R result s → R result s')
      (goes : ∀ result, (∃ s, R result s) → Safe I G mode Q (some mode) (R result) (next result)) :
      Safe I G mode Q (some mode) P (.call x next)
  | ask {held : Option LockMode} {P : ς → Prop} {request : LockRequest}
      {next : Except φ Unit → Program ς φ ε α} (free : ∀ m, request = .lock m → held = none)
      (goes : ∀ reply, Safe I G mode Q (request.heldAfter held reply) (fun _ => True) (next reply)) :
      Safe I G mode Q held P (.ask request next)

/-- A process that still has the lock in a mode, and has come to `R` where it did not fail. -/
def After (mode : LockMode) (R : α → ς → Prop) (result : Exec ε α) (held : Option LockMode) (s : ς) :
    Prop :=
  held = some mode ∧ ∀ a, result = .ok a → R a s

namespace Safe

variable {I : ς → Prop} {G : ς → ς → Prop} {mode : LockMode}
  {Q : Exec ε α → Option LockMode → ς → Prop} {held : Option LockMode} {P P' : ς → Prop} {p : Program ς φ ε α} {f : α → Program ς φ ε β}

theorem weaken (h : Safe I G mode Q held P' p) (hP : ∀ s, P s → P' s) : Safe I G mode Q held P p := by
  cases h with
  | done h => exact .done fun s hs => h s (hP s hs)
  | call R keeps allowed fixed goes =>
    exact .call R (fun s hI hs => keeps s hI (hP s hs))
      (fun hmode s hI hs => allowed hmode s hI (hP s hs)) fixed goes
  | ask free goes => exact .ask free goes

theorem mono {Q' : Exec ε α → Option LockMode → ς → Prop} (h : Safe I G mode Q held P p)
    (hQ : ∀ result now s, Q result now s → Q' result now s) : Safe I G mode Q' held P p := by
  induction h with
  | done h => exact .done fun s hs => hQ _ _ s (h s hs)
  | call R keeps allowed fixed _ ih => exact .call R keeps allowed fixed ih
  | ask free _ ih => exact .ask free ih

/-- One program after another. -/
theorem bind {Q' : Exec ε β → Option LockMode → ς → Prop} (h : Safe I G mode Q held P p)
    (hP : ∃ s, P s) (goes : ∀ a now, (∃ s, Q (.ok a) now s) → Safe I G mode Q' now (Q (.ok a) now) (f a))
    (fails : ∀ e now s, Q (.error e) now s → Q' (.error e) now s) :
    Safe I G mode Q' held P (p >>= f) := by
  have hbind (q : Program ς φ ε α) : q >>= f = q.bind f := rfl
  rw [hbind]
  induction h with
  | @done held P result h =>
    obtain ⟨s, hs⟩ := hP
    cases result with
    | ok a => exact (goes a held ⟨s, h s hs⟩).weaken h
    | error e => exact .done fun s hs => fails e held s (h s hs)
  | call R keeps allowed fixed _ ih =>
    exact .call R keeps allowed fixed fun result hR => ih result hR hR
  | ask free _ ih =>
    obtain ⟨s, -⟩ := hP
    exact .ask free fun reply => ih reply ⟨s, trivial⟩

theorem lift {x : Effect ς ε α} {R : α → ς → Prop}
    (allowed : mode = .shared → ∀ s, I s → P s → G s (x s).2)
    (fixed : mode = .shared → ∀ a s s', G s s' → R a s → R a s')
    (h : Effect.Triple (fun s => I s ∧ P s) x (fun a s => I s ∧ R a s) I) :
    Safe I G mode (After mode R) (some mode) P (lift x : Program ς φ ε α) := by
  refine .call (fun result s => ∀ a, result = .ok a → R a s) (fun s hI hs => ?_) allowed
    (fun hmode result s s' hG hR a ha => fixed hmode a s s' hG (hR a ha))
    fun result _ => .done fun s hs => ⟨rfl, hs⟩
  cases hx : x s with
  | mk result t =>
    cases result with
    | ok a =>
      obtain ⟨hkept, hR⟩ := h.ok ⟨hI, hs⟩ hx
      simpa [hkept] using hR
    | error e => simpa using h.error ⟨hI, hs⟩ hx

/-- What goes on in the same mode. -/
theorem andThen {R : α → ς → Prop} {R' : β → ς → Prop}
    (h : Safe I G mode (After mode R) (some mode) P p) (hP : ∃ s, P s)
    (goes : ∀ a, (∃ s, R a s) → Safe I G mode (After mode R') (some mode) (R a) (f a)) :
    Safe I G mode (After mode R') (some mode) P (p >>= f) := by
  refine h.bind hP (fun a now hnow => ?_) fun e now s hs => ⟨hs.1, nofun⟩
  obtain ⟨s, rfl, hR⟩ := hnow
  exact (goes a ⟨s, hR a rfl⟩).weaken fun t ht => ht.2 a rfl

theorem pure {a : α} {R : α → ς → Prop} (h : ∀ s, P s → R a s) :
    Safe I G mode (After mode R) (some mode) P (Pure.pure a : Program ς φ ε α) :=
  .done fun s hs => ⟨rfl, fun b hb => by cases hb; exact h s hs⟩

theorem fails {e : Failure ε} {R : α → ς → Prop} :
    Safe I G mode (After mode R) (some mode) P (.done (.error e) : Program ς φ ε α) :=
  .done fun _ _ => ⟨rfl, nofun⟩

theorem attempt (h : Safe I G mode Q held P p) :
    Safe I G mode (fun r now s => ∃ result, r = .ok result ∧ Q result now s) held P p.attempt := by
  induction h with
  | done h => exact .done fun s hs => ⟨_, rfl, h s hs⟩
  | call R keeps allowed fixed _ ih => exact .call R keeps allowed fixed ih
  | ask free _ ih => exact .ask free ih

/-- What each of the calls that are all made adds to a property that only grows. -/
theorem callAll {γ : Type} {P : (γ → Prop) → ς → Prop}
    (drop : ∀ c d s, (∀ z, c z → d z) → P d s → P c s) {f : α → Effect ς ε β}
    {adds : α → γ → Prop} {found : α → β → Prop} {xs : List α}
    (h : ∀ x ∈ xs, ∀ c, Effect.Triple (fun s => I s ∧ P c s) (f x)
      (fun y s => (I s ∧ P (fun z => c z ∨ adds x z) s) ∧ found x y) fun s => I s ∧ P c s)
    (c : γ → Prop) :
    Safe I G .exclusive
      (After .exclusive fun ys s => P (fun z => c z ∨ ∃ x ∈ xs, adds x z) s ∧
        List.Forall₂ found xs ys)
      (some .exclusive) (P c) (callAll f xs : Program ς φ ε (List β)) := by
  induction xs generalizing c with
  | nil => exact .pure fun s hs => ⟨drop _ _ s (by simp) hs, .nil⟩
  | cons x xs ih =>
    have hx := h x List.mem_cons_self c
    have hxs := ih fun y hy => h y (List.mem_cons_of_mem _ hy)
    refine .call (fun result s => match result with
      | .ok y => P (fun z => c z ∨ adds x z) s ∧ found x y
      | .error _ => P c s) (fun s hI hs => ?_) nofun nofun fun result hR => ?_
    · cases hrun : f x s with
      | mk result t =>
        cases result with
        | ok y =>
          obtain ⟨⟨hkept, hP⟩, hfound⟩ := hx.ok ⟨hI, hs⟩ hrun
          exact ⟨hkept, hP, hfound⟩
        | error e => exact hx.error ⟨hI, hs⟩ hrun
    · cases result with
      | error e =>
        refine ((hxs c).attempt.bind hR (fun ys now _ => .done ?_) nofun)
        rintro s ⟨result, -, hheld, -⟩
        exact ⟨hheld, nofun⟩
      | ok y =>
        obtain ⟨s₀, hP, hfound⟩ := hR
        refine ((hxs _).weaken fun s hs => hs.1).attempt.bind ⟨s₀, hP, hfound⟩
          (fun ys now _ => .done ?_) nofun
        rintro s ⟨result, hresult, hheld, hall⟩
        obtain rfl := Except.ok.inj hresult
        refine ⟨hheld, fun zs hzs => ?_⟩
        cases ys with
        | error e => cases hzs
        | ok ys =>
          cases hzs
          obtain ⟨hmore, hothers⟩ := hall ys rfl
          refine ⟨drop _ _ s (fun z hz => ?_) hmore, .cons hfound hothers⟩
          simpa [or_assoc] using hz

end Safe

end Program

namespace Processes

variable {π κ ς φ ε α : Type}

/-- What a process that holds the lock in a mode, or holds it not, may know of the state. -/
def Steady (G : ς → ς → Prop) : Option LockMode → (ς → Prop) → Prop
  | none, P => ∀ s, P s
  | some .shared, P => ∀ s s', G s s' → P s → P s'
  | some .exclusive, _ => True

theorem steady_true (G : ς → ς → Prop) (held : Option LockMode) : Steady G held fun _ => True := by
  rcases held with - | (- | -)
  · exact fun _ => trivial
  · exact fun _ _ _ _ => trivial
  · trivial

/-- What holds of processes between two steps: the state is as it should be, a process that has
the lock for itself has it alone, and each is safe from where it is. -/
structure Orderly (I : ς → Prop) (G : ς → ς → Prop) (mode : κ → LockMode)
    (ends : κ → Exec ε α → Option LockMode → ς → Prop) (s : Processes π κ ς φ ε α) : Prop where
  kept : I s.state
  apart : ∀ p q, p ≠ q → s.held p = some .exclusive → s.held q = none
  idle : ∀ p, s.running p = none → s.held p = none
  safe : ∀ p job rest, s.running p = some (job, rest) → ∃ P : ς → Prop,
    P s.state ∧ Steady G (s.held p) P ∧ rest.Safe I G (mode job) (ends job) (s.held p) P

variable {I : ς → Prop} {G : ς → ς → Prop} {mode : κ → LockMode}
  {ends : κ → Exec ε α → Option LockMode → ς → Prop} {s s' : Processes π κ ς φ ε α} {p : π} {job : κ}

/-- A process that is about to make a call has the lock in its mode. -/
theorem Orderly.calls (h : Orderly I G mode ends s) {β : Type} {x : Effect ς ε β}
    {next : Exec ε β → Program ς φ ε α} (hcall : s.running p = some (job, .call x next)) :
    s.held p = some (mode job) := by
  obtain ⟨P, -, -, hsafe⟩ := h.safe p job _ hcall
  generalize s.held p = held at hsafe
  cases hsafe
  rfl

theorem Orderly.ended (h : Orderly I G mode ends s) {result : Exec ε α}
    (hdone : s.running p = some (job, .done result)) : ends job result (s.held p) s.state := by
  obtain ⟨P, hP, -, hsafe⟩ := h.safe p job _ hdone
  generalize s.held p = held at hsafe
  cases hsafe with
  | done hends => exact hends _ hP

/-- Nobody waits for one who waits. -/
theorem Orderly.not_waits (h : Orderly I G mode ends s) (hwaits : s.Waits p) :
    ∃ q, q ≠ p ∧ s.held q ≠ none ∧ ¬ s.Waits q := by
  have hother : ∃ q, q ≠ p ∧ s.held q ≠ none := by
    obtain ⟨job, wanted, next, -, hgrant⟩ := hwaits
    cases wanted with
    | shared =>
      simp only [Grantable, not_forall, not_not] at hgrant
      obtain ⟨q, hne, hheld⟩ := hgrant
      exact ⟨q, hne, by simp [hheld]⟩
    | exclusive =>
      simp only [Grantable, not_forall] at hgrant
      obtain ⟨q, hne, hheld⟩ := hgrant
      exact ⟨q, hne, hheld⟩
  obtain ⟨q, hne, hheld⟩ := hother
  refine ⟨q, hne, hheld, ?_⟩
  rintro ⟨job, wanted, next, hrunning, -⟩
  obtain ⟨P, -, -, hsafe⟩ := h.safe q job _ hrunning
  generalize s.held q = held at hheld hsafe
  cases hsafe with
  | ask free _ => exact hheld (free wanted rfl)

/-- A call of one process is one that the others, which may hold the shared lock, allow. -/
theorem Orderly.allowed (h : Orderly I G mode ends s) {β : Type} {x : Effect ς ε β}
    {next : Exec ε β → Program ς φ ε α} (hcall : s.running p = some (job, .call x next)) {q : π}
    (hne : q ≠ p) (hheld : s.held q ≠ none) : s.held q = some .shared ∧ G s.state (x s.state).2 := by
  have hcalls := h.calls hcall
  have hshared : s.held q = some .shared := by
    cases hq : s.held q with
    | none => exact absurd hq hheld
    | some held =>
      cases held with
      | shared => rfl
      | exclusive => simp [h.apart q p hne hq] at hcalls
  have hmode : mode job = .shared := by
    cases hmode : mode job with
    | shared => rfl
    | exclusive => exact absurd (h.apart p q hne.symm (hmode ▸ hcalls)) hheld
  obtain ⟨P, hP, -, hsafe⟩ := h.safe p job _ hcall
  rw [hcalls] at hsafe
  cases hsafe with
  | call R keeps allowed fixed goes => exact ⟨hshared, allowed hmode s.state h.kept hP⟩

variable [DecidableEq π]

/-- Whatever a process gives back, or gets because it is free, one that has the lock for itself
has it alone. -/
theorem apart_update {held : π → Option LockMode}
    (apart : ∀ p q, p ≠ q → held p = some .exclusive → held q = none) {now : Option LockMode}
    (hnow : now = held p ∨ ∀ m ∈ now, Grantable held p m) :
    ∀ q r, q ≠ r → Function.update held p now q = some .exclusive →
      Function.update held p now r = none := by
  intro q r hne hq
  rcases hnow with rfl | hfree
  · rw [Function.update_eq_self] at hq ⊢
    exact apart q r hne hq
  · by_cases hqp : q = p
    · subst hqp
      rw [Function.update_self] at hq
      rw [Function.update_of_ne hne.symm]
      exact hfree .exclusive hq r hne.symm
    · rw [Function.update_of_ne hqp] at hq
      by_cases hrp : r = p
      · subst hrp
        rw [Function.update_self]
        cases now with
        | none => rfl
        | some m =>
          have hgrant := hfree m rfl
          cases m with
          | shared => exact absurd hq (hgrant q hqp)
          | exclusive => simp [hgrant q hqp] at hq
      · rw [Function.update_of_ne hrp]
        exact apart q r hne hq

variable {program : κ → Program ς φ ε α}

/-- A step keeps order where every job is safe. -/
theorem Orderly.step (h : Orderly I G mode ends s)
    (safe : ∀ job, (program job).Safe I G (mode job) (ends job) none fun _ => True)
    (hstep : Step program p s s') : Orderly I G mode ends s' := by
  cases hstep with
  | start job hidle =>
    have hheld := h.idle p hidle
    refine ⟨h.kept, h.apart, fun q hq => ?_, fun q other rest hq => ?_⟩
    all_goals by_cases hqp : q = p
    · subst hqp
      exact hheld
    · simp only [Function.update_of_ne hqp] at hq
      exact h.idle q hq
    · subst hqp
      simp only [Function.update_self, Option.some.injEq, Prod.mk.injEq] at hq
      obtain ⟨rfl, rfl⟩ := hq
      exact ⟨fun _ => True, trivial, steady_true G _, hheld ▸ safe job⟩
    · simp only [Function.update_of_ne hqp] at hq
      exact h.safe q other rest hq
  | @call job β x next hcall =>
    have hheld := h.calls hcall
    obtain ⟨P, hP, -, hsafe⟩ := h.safe p job _ hcall
    rw [hheld] at hsafe
    cases hsafe with
    | call R keeps allowed fixed goes =>
      obtain ⟨hkept, hR⟩ := keeps s.state h.kept hP
      refine ⟨hkept, h.apart, fun q hq => ?_, fun q other rest hq => ?_⟩
      all_goals by_cases hqp : q = p
      · subst hqp
        simp at hq
      · simp only [Function.update_of_ne hqp] at hq
        exact h.idle q hq
      · subst hqp
        simp only [Function.update_self, Option.some.injEq, Prod.mk.injEq] at hq
        obtain ⟨rfl, rfl⟩ := hq
        refine ⟨R _, hR, ?_, hheld ▸ goes _ ⟨_, hR⟩⟩
        rw [hheld]
        cases hmode : mode job with
        | shared => exact fixed hmode _
        | exclusive => trivial
      · simp only [Function.update_of_ne hqp] at hq
        obtain ⟨P', hP', hsteady, hrest⟩ := h.safe q other rest hq
        refine ⟨P', ?_, hsteady, hrest⟩
        cases hq' : s.held q with
        | none =>
          rw [hq'] at hsteady
          exact hsteady _
        | some held =>
          obtain ⟨hshared, hallowed⟩ := h.allowed hcall hqp (by simp [hq'])
          rw [hshared] at hsteady
          exact hsteady _ _ hallowed hP'
  | @ask job request next reply hask hgranted =>
    obtain ⟨P, -, -, hsafe⟩ := h.safe p job _ hask
    have hgoes : (next reply).Safe I G (mode job) (ends job) (request.heldAfter (s.held p) reply)
        fun _ => True := by
      generalize s.held p = held at hsafe
      cases hsafe with
      | ask _ goes => exact goes reply
    have hnow : request.heldAfter (s.held p) reply = s.held p ∨
        ∀ m ∈ request.heldAfter (s.held p) reply, Grantable s.held p m := by
      cases reply with
      | ok _ => exact .inr (hgranted rfl)
      | error e => exact .inl rfl
    refine ⟨h.kept, apart_update h.apart hnow, fun q hq => ?_, fun q other rest hq => ?_⟩
    all_goals by_cases hqp : q = p
    · subst hqp
      simp at hq
    · simp only [Function.update_of_ne hqp] at hq ⊢
      exact h.idle q hq
    · subst hqp
      simp only [Function.update_self, Option.some.injEq, Prod.mk.injEq] at hq ⊢
      obtain ⟨rfl, rfl⟩ := hq
      exact ⟨fun _ => True, trivial, steady_true G _, hgoes⟩
    · simp only [Function.update_of_ne hqp] at hq ⊢
      exact h.safe q other rest hq
  | leave =>
    refine ⟨h.kept, apart_update h.apart (.inr (by simp)), fun q hq => ?_,
      fun q other rest hq => ?_⟩
    all_goals by_cases hqp : q = p
    · subst hqp
      simp
    · simp only [Function.update_of_ne hqp] at hq ⊢
      exact h.idle q hq
    · subst hqp
      simp at hq
    · simp only [Function.update_of_ne hqp] at hq ⊢
      exact h.safe q other rest hq

/-- What others do while a process holds the lock: they leave its lock alone, and change the state
only as is allowed under the shared lock, and not at all where it holds the lock for itself. -/
theorem Orderly.held_step (h : Orderly I G mode ends s) {q : π} (hne : p ≠ q)
    (hheld : s.held q ≠ none) (hstep : Step program p s s') :
    s'.held q = s.held q ∧
      (s'.state = s.state ∨ s.held q = some .shared ∧ G s.state s'.state) := by
  cases hstep with
  | start job hidle => exact ⟨rfl, .inl rfl⟩
  | call hcall => exact ⟨rfl, .inr (h.allowed hcall hne.symm hheld)⟩
  | ask reply hask hgranted => exact ⟨Function.update_of_ne hne.symm _ _, .inl rfl⟩
  | leave => exact ⟨Function.update_of_ne hne.symm _ _, .inl rfl⟩

/-- The others' steps. -/
def Others (program : κ → Program ς φ ε α) (q : π) (s s' : Processes π κ ς φ ε α) : Prop :=
  ∃ p, p ≠ q ∧ Step program p s s'

/-- As long as a process holds the lock, whatever the others do is allowed. -/
theorem Orderly.held_run (h : Orderly I G mode ends s)
    (safe : ∀ job, (program job).Safe I G (mode job) (ends job) none fun _ => True) {q : π}
    (hheld : s.held q ≠ none) (run : Relation.ReflTransGen (Others program q) s s') :
    Orderly I G mode ends s' ∧ s'.held q = s.held q ∧
      (s.held q = some .exclusive → s'.state = s.state) ∧
      Relation.ReflTransGen G s.state s'.state := by
  induction run with
  | refl => exact ⟨h, rfl, fun _ => rfl, .refl⟩
  | tail _ hstep ih =>
    obtain ⟨horderly, hsame, hexclusive, hallowed⟩ := ih
    obtain ⟨p, hne, hstep⟩ := hstep
    obtain ⟨hkeeps, hchange⟩ := horderly.held_step hne (hsame ▸ hheld) hstep
    refine ⟨horderly.step safe hstep, hkeeps.trans hsame, fun halone => ?_, ?_⟩
    · rcases hchange with heq | ⟨hshared, -⟩
      · exact heq.trans (hexclusive halone)
      · rw [hsame, halone] at hshared
        cases hshared
    · rcases hchange with heq | ⟨-, hG⟩
      · exact heq ▸ hallowed
      · exact hallowed.tail hG

/-- Whatever the processes do in whatever order, they stay in order. -/
theorem Reachable.orderly {start : ς} (kept : I start)
    (safe : ∀ job, (program job).Safe I G (mode job) (ends job) none fun _ => True)
    (h : Reachable program start s) : Orderly I G mode ends s := by
  induction h with
  | start => exact ⟨kept, nofun, fun _ _ => rfl, nofun⟩
  | step _ p hstep ih => exact ih.step safe hstep

end Processes

end Elfshaker.Library
