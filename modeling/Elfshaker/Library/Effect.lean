import Elfshaker.Library.Exec

namespace Elfshaker.Library

/-- A call that changes a state. What it changed stays changed where it fails. -/
def Effect (ς ε α : Type) := ς → Exec ε α × ς

namespace Effect

variable {ς ε δ φ α β : Type}

protected def pure (a : α) : Effect ς ε α := fun s => (.ok a, s)

protected def bind (x : Effect ς ε α) (f : α → Effect ς ε β) : Effect ς ε β := fun s =>
  match x s with
  | (.ok a, s') => f a s'
  | (.error e, s') => (.error e, s')

instance : Monad (Effect ς ε) where
  pure := Effect.pure
  bind := Effect.bind

/-- A call that leaves the state alone. -/
def lift (x : Exec ε α) : Effect ς ε α := fun s => (x, s)

/-- A call that looks at the state and leaves it alone. -/
def asks (f : ς → Exec ε α) : Effect ς ε α := fun s => (f s, s)

def modify (f : ς → ς) : Effect ς ε Unit := fun s => (.ok (), f s)

def mapError (f : ε → δ) (x : Effect ς ε α) : Effect ς δ α := fun s =>
  ((x s).1.mapError f, (x s).2)

/-- Another call where the first one fails in a way that `f` knows how to deal with. -/
def orElse (x : Effect ς ε α) (f : ε → Option (Effect ς ε α)) : Effect ς ε α := fun s =>
  match x s with
  | (.error (.error e), s') =>
    match f e with
    | some y => y s'
    | none => (.error (.error e), s')
  | result => result

/-- The result of a call, for a caller that deals with the error itself. -/
def attempt (x : Effect ς ε α) : Effect ς δ (Except ε α) := fun s =>
  match x s with
  | (.ok a, s') => (.ok (.ok a), s')
  | (.error (.error e), s') => (.ok (.error e), s')
  | (.error .panic, s') => (.error .panic, s')

/-- A call that is followed by another where it fails. Where that fails too, it is a
panic. -/
def onError (x : Effect ς ε α) (cleanup : Effect ς δ Unit) : Effect ς ε α := fun s =>
  match x s with
  | (.error e, s') =>
    match cleanup s' with
    | (.ok (), s'') => (.error e, s'')
    | (.error _, s'') => (.error .panic, s'')
  | result => result

/-- Calls that all run; the first that failed is the result. -/
def runAll (f : α → Effect ς ε β) : List α → Effect ς ε (List β)
  | [] => pure []
  | x :: xs => fun s =>
    let (y, s) := f x s
    let (ys, s) := runAll f xs s
    (y.bind fun y => ys.map (y :: ·), s)

theorem bind_eq_ok {x : Effect ς ε α} {f : α → Effect ς ε β} {s s' : ς} {b : β} :
    (x >>= f) s = (.ok b, s') ↔ ∃ a t, x s = (.ok a, t) ∧ f a t = (.ok b, s') := by
  have hbind : (x >>= f) s = Effect.bind x f s := rfl
  rw [hbind, Effect.bind]
  rcases x s with ⟨e | a, t⟩
  · simp
  · simp

theorem bind_of_ok {x : Effect ς ε α} {f : α → Effect ς ε β} {s t : ς} {a : α}
    (h : x s = (.ok a, t)) : (x >>= f) s = f a t := by
  have hbind : (x >>= f) s = Effect.bind x f s := rfl
  rw [hbind, Effect.bind, h]

theorem bind_assoc {γ : Type} (x : Effect ς ε α) (f : α → Effect ς ε β)
    (g : β → Effect ς ε γ) : x >>= f >>= g = x >>= fun a => f a >>= g := by
  funext s
  have hbind {δ δ' : Type} (y : Effect ς ε δ) (h : δ → Effect ς ε δ') : y >>= h = Effect.bind y h := rfl
  simp only [hbind, Effect.bind]
  rcases x s with ⟨e | a, t⟩ <;> rfl

theorem bind_of_error {x : Effect ς ε α} {f : α → Effect ς ε β} {s t : ς} {e : Failure ε}
    (h : x s = (.error e, t)) : (x >>= f) s = (.error e, t) := by
  have hbind : (x >>= f) s = Effect.bind x f s := rfl
  rw [hbind, Effect.bind, h]

theorem pure_eq_ok {a b : α} {s s' : ς} :
    (pure a : Effect ς ε α) s = (.ok b, s') ↔ a = b ∧ s = s' := by
  have hpure : (pure a : Effect ς ε α) s = (.ok a, s) := rfl
  simp [hpure]

theorem lift_eq_ok {x : Exec ε α} {a : α} {s s' : ς} :
    lift x s = (.ok a, s') ↔ x = .ok a ∧ s = s' := by
  simp [lift]

theorem asks_eq_ok {f : ς → Exec ε α} {a : α} {s s' : ς} :
    asks f s = (.ok a, s') ↔ f s = .ok a ∧ s = s' := by
  simp [asks]

theorem mapError_eq_ok {f : ε → δ} {x : Effect ς ε α} {a : α} {s s' : ς} :
    mapError f x s = (.ok a, s') ↔ x s = (.ok a, s') := by
  simp only [mapError, Exec.mapError_eq_ok, Prod.ext_iff]

theorem orElse_eq_ok {x : Effect ς ε α} {f : ε → Option (Effect ς ε α)} {a : α} {s s' : ς} :
    orElse x f s = (.ok a, s') ↔ x s = (.ok a, s') ∨
      ∃ e t y, x s = (.error (.error e), t) ∧ f e = some y ∧ y t = (.ok a, s') := by
  unfold orElse
  split
  · rename_i e t hx
    cases hf : f e <;> simp [hx, hf]
  · rename_i hx
    constructor
    · exact Or.inl
    · rintro (h | ⟨e, t, y, he, -⟩)
      · exact h
      · exact absurd he (hx e t)

theorem attempt_eq_ok {x : Effect ς ε α} {a : α} {s s' : ς} :
    attempt (δ := δ) x s = (.ok (.ok a), s') ↔ x s = (.ok a, s') := by
  unfold attempt
  split <;> simp_all

theorem attempt_eq_error {x : Effect ς ε α} {e : ε} {s s' : ς} :
    attempt (δ := δ) x s = (.ok (.error e), s') ↔ x s = (.error (.error e), s') := by
  unfold attempt
  split <;> simp_all

theorem onError_eq_ok {x : Effect ς ε α} {cleanup : Effect ς δ Unit} {a : α} {s s' : ς} :
    onError x cleanup s = (.ok a, s') ↔ x s = (.ok a, s') := by
  unfold onError
  split
  · rename_i e t hx
    constructor
    · intro h
      split at h <;> cases h
    · intro h
      rw [hx] at h
      cases h
  · rfl

/-- From a state with `P`, a call that succeeds leaves one with `Q`, and a call that
fails one with `E`. -/
def Triple (P : ς → Prop) (x : Effect ς ε α) (Q : α → ς → Prop) (E : ς → Prop) : Prop :=
  ∀ s, P s → match x s with
    | (.ok a, s') => Q a s'
    | (.error _, s') => E s'

/-- A call that keeps a property of the state, also where it fails. -/
def Keeps (P : ς → Prop) (x : Effect ς ε α) : Prop :=
  Triple P x (fun _ => P) P

namespace Triple

variable {P P' : ς → Prop} {x : Effect ς ε α} {Q : α → ς → Prop} {E : ς → Prop}

theorem ok (h : Triple P x Q E) {s s' : ς} {a : α} (hs : P s) (hx : x s = (.ok a, s')) : Q a s' := by
  have := h s hs
  rwa [hx] at this

theorem error (h : Triple P x Q E) {s s' : ς} {e : Failure ε} (hs : P s)
    (hx : x s = (.error e, s')) : E s' := by
  have := h s hs
  rwa [hx] at this

/-- A call that a state runs through by computation. -/
theorem of_run (h : ∀ s, P s → match x s with
    | (.ok a, s') => Q a s'
    | (.error _, s') => E s') : Triple P x Q E := h

theorem run (h : Triple P x Q E) {s : ς} (hs : P s) : match x s with
    | (.ok a, s') => Q a s'
    | (.error _, s') => E s' := h s hs

theorem intro (hok : ∀ s s' a, P s → x s = (.ok a, s') → Q a s')
    (herror : ∀ s s' e, P s → x s = (.error e, s') → E s') : Triple P x Q E := by
  intro s hs
  cases hx : x s with
  | mk result s' =>
    cases result with
    | ok a => exact hok s s' a hs hx
    | error e => exact herror s s' e hs hx

theorem weaken (h : Triple P x Q E) (hP : ∀ s, P' s → P s) {Q' : α → ς → Prop}
    (hQ : ∀ a s, Q a s → Q' a s) {E' : ς → Prop} (hE : ∀ s, E s → E' s) : Triple P' x Q' E' :=
  .intro (fun _ _ _ hs hx => hQ _ _ (h.ok (hP _ hs) hx))
    fun _ _ _ hs hx => hE _ (h.error (hP _ hs) hx)

theorem bind {R : α → ς → Prop} (hx : Triple P x R E) {f : α → Effect ς ε β}
    {Q : β → ς → Prop} (hf : ∀ a, Triple (R a) (f a) Q E) : Triple P (x >>= f) Q E := by
  intro s hs
  have hbind : (x >>= f) s = Effect.bind x f s := rfl
  rw [hbind, Effect.bind]
  cases hxs : x s with
  | mk result t =>
    cases result with
    | ok a => exact hf a t (hx.ok hs hxs)
    | error e => exact hx.error hs hxs

/-- What a call has found out is there for the one after it. -/
theorem bind_fact {R : α → ς → Prop} {known : α → Prop}
    (hx : Triple P x (fun a s => R a s ∧ known a) E) {f : α → Effect ς ε β} {Q : β → ς → Prop}
    (hf : ∀ a, known a → Triple (R a) (f a) Q E) : Triple P (x >>= f) Q E :=
  bind hx fun a s hs => hf a hs.2 s hs.1

theorem mapError {f : ε → δ} (hx : Triple P x Q E) : Triple P (Effect.mapError f x) Q E := by
  intro s hs
  have hxs := hx s hs
  unfold Effect.mapError
  cases hrun : x s with
  | mk result t =>
    rw [hrun] at hxs
    cases result with
    | ok a => exact hxs
    | error e => cases e <;> exact hxs

theorem orElse (hx : Triple P x Q E) {f : ε → Option (Effect ς ε α)}
    (hf : ∀ e y, f e = some y → Triple E y Q E) : Triple P (Effect.orElse x f) Q E := by
  intro s hs
  have hxs := hx s hs
  unfold Effect.orElse
  cases hrun : x s with
  | mk result t =>
    rw [hrun] at hxs
    cases result with
    | ok a => exact hxs
    | error e =>
      cases e with
      | panic => exact hxs
      | error e =>
        simp only
        cases hfe : f e with
        | none => exact hxs
        | some y => exact hf e y hfe t hxs

theorem onError (hx : Triple P x Q E) {cleanup : Effect ς δ Unit} {E' : ς → Prop}
    (hcleanup : Triple E cleanup (fun _ => E') E') : Triple P (Effect.onError x cleanup) Q E' := by
  intro s hs
  have hxs := hx s hs
  unfold Effect.onError
  cases hrun : x s with
  | mk result t =>
    rw [hrun] at hxs
    cases result with
    | ok a => exact hxs
    | error e =>
      have ht := hcleanup t hxs
      simp only
      cases hclean : cleanup t with
      | mk result t' =>
        rw [hclean] at ht
        cases result <;> exact ht

/-- What does not depend on the state is known after it. -/
theorem lift_known {y : Exec ε α} :
    Triple P (Effect.lift y) (fun a s => P s ∧ y = .ok a) P := by
  intro s hs
  unfold Effect.lift
  cases y with
  | ok a => exact ⟨hs, rfl⟩
  | error e => exact hs

theorem pure {a : α} (h : ∀ s, P s → Q a s) : Triple (ε := ε) P (Pure.pure a) Q E :=
  fun s hs => h s hs

theorem fails {e : ε} : Triple P (Effect.lift (Exec.fail e)) Q P :=
  fun _ hs => hs

end Triple

namespace Keeps

variable {P : ς → Prop}

theorem state {x : Effect ς ε α} (h : Keeps P x) {s : ς} (hs : P s) : P (x s).2 := by
  cases hx : x s with
  | mk result s' =>
    cases result with
    | ok a => exact h.ok hs hx
    | error e => exact h.error hs hx

theorem of_state {x : Effect ς ε α} (h : ∀ s, P s → P (x s).2) : Keeps P x :=
  .intro (fun s _ _ hs hx => by simpa [hx] using h s hs)
    fun s _ _ hs hx => by simpa [hx] using h s hs

theorem pure (a : α) : Keeps P (Pure.pure a : Effect ς ε α) :=
  Triple.pure fun _ hs => hs

theorem bind {x : Effect ς ε α} {f : α → Effect ς ε β} (hx : Keeps P x) (hf : ∀ a, Keeps P (f a)) :
    Keeps P (x >>= f) :=
  Triple.bind hx hf

/-- What goes on after a call need only keep the property for the results there are. -/
theorem bind_ok {x : Effect ς ε α} {f : α → Effect ς ε β} (hx : Keeps P x)
    (hf : ∀ a s s', x s = (.ok a, s') → Keeps P (f a)) : Keeps P (x >>= f) := by
  intro s hs
  have hbind : (x >>= f) s = Effect.bind x f s := rfl
  rw [hbind, Effect.bind]
  cases hxs : x s with
  | mk result t =>
    cases result with
    | ok a => exact hf a s t hxs t (hx.ok hs hxs)
    | error e => exact hx.error hs hxs

theorem lift (x : Exec ε α) : Keeps P (Effect.lift x : Effect ς ε α) :=
  of_state fun _ hs => hs

theorem asks (f : ς → Exec ε α) : Keeps P (Effect.asks f) :=
  of_state fun _ hs => hs

theorem mapError {f : ε → δ} {x : Effect ς ε α} (h : Keeps P x) : Keeps P (Effect.mapError f x) :=
  of_state fun _ hs => h.state hs

theorem orElse {x : Effect ς ε α} {f : ε → Option (Effect ς ε α)} (hx : Keeps P x)
    (hf : ∀ e y, f e = some y → Keeps P y) : Keeps P (Effect.orElse x f) := by
  apply of_state
  intro s hs
  have hxs := hx.state hs
  unfold Effect.orElse
  split
  · rename_i e s' heq
    rw [heq] at hxs
    cases hfe : f e with
    | none => exact hxs
    | some y => exact (hf e y hfe).state hxs
  · exact hxs

theorem attempt {x : Effect ς ε α} (h : Keeps P x) :
    Keeps P (Effect.attempt x : Effect ς δ (Except ε α)) := by
  apply of_state
  intro s hs
  have hxs := h.state hs
  unfold Effect.attempt
  split <;> simp_all

theorem onError {x : Effect ς ε α} {cleanup : Effect ς δ Unit} (hx : Keeps P x)
    (hcleanup : Keeps P cleanup) : Keeps P (Effect.onError x cleanup) := by
  apply of_state
  intro s hs
  have hxs := hx.state hs
  unfold Effect.onError
  split
  · rename_i e t heq
    rw [heq] at hxs
    have ht := hcleanup.state hxs
    split
    · rename_i t' hc
      rwa [hc] at ht
    · rename_i e' t' hc
      rwa [hc] at ht
  · exact hxs

theorem runAll {f : α → Effect ς ε β} {xs : List α} (h : ∀ x ∈ xs, Keeps P (f x)) :
    Keeps P (Effect.runAll f xs) := by
  apply of_state
  induction xs with
  | nil => exact fun _ hs => hs
  | cons x xs ih =>
    intro s hs
    have hx := (h x List.mem_cons_self).state hs
    exact ih (fun y hy => h y (List.mem_cons_of_mem _ hy)) _ hx

end Keeps

theorem runAll_cons {f : α → Effect ς ε β} {x : α} {xs : List α} {s : ς} :
    runAll f (x :: xs) s =
      ((f x s).1.bind fun y => (runAll f xs (f x s).2).1.map (y :: ·),
        (runAll f xs (f x s).2).2) := rfl

/-- What each of the calls that run together adds to a property that only grows. -/
theorem Triple.runAll {γ : Type} {P : (γ → Prop) → ς → Prop}
    (drop : ∀ c d s, (∀ y, c y → d y) → P d s → P c s) {f : α → Effect ς ε β}
    {adds : α → γ → Prop} {xs : List α}
    (h : ∀ x ∈ xs, ∀ c, Triple (P c) (f x) (fun _ => P fun y => c y ∨ adds x y) (P c))
    (c : γ → Prop) : Triple (P c) (Effect.runAll f xs)
      (fun _ => P fun y => c y ∨ ∃ x ∈ xs, adds x y) (P c) := by
  induction xs generalizing c with
  | nil =>
    intro s hs
    exact drop _ _ s (by simp) hs
  | cons x xs ih =>
    intro s hs
    have hx := h x List.mem_cons_self c s hs
    have hxs := ih fun y hy => h y (List.mem_cons_of_mem _ hy)
    rw [runAll_cons]
    cases hfx : f x s with
    | mk y t =>
      rw [hfx] at hx
      simp only
      cases y with
      | error e =>
        have ht := hxs c t hx
        cases hrest : Effect.runAll f xs t with
        | mk ys t' =>
          rw [hrest] at ht
          cases ys with
          | error e' => exact ht
          | ok ys => exact drop _ _ _ (fun y hy => .inl hy) ht
      | ok y =>
        have ht := hxs _ t hx
        cases hrest : Effect.runAll f xs t with
        | mk ys t' =>
          rw [hrest] at ht
          cases ys with
          | error e' => exact drop _ _ _ (fun y hy => .inl hy) ht
          | ok ys =>
            refine drop _ _ _ ?_ ht
            rintro y (hy | ⟨x', hx', hy⟩)
            · exact .inl (.inl hy)
            · rcases List.mem_cons.mp hx' with rfl | hx'
              · exact .inl (.inr hy)
              · exact .inr ⟨x', hx', hy⟩

/-- What two triples say of a call holds together. -/
theorem Triple.and {P P' : ς → Prop} {x : Effect ς ε α} {Q Q' : α → ς → Prop} {E E' : ς → Prop}
    (h : Triple P x Q E) (h' : Triple P' x Q' E') :
    Triple (fun s => P s ∧ P' s) x (fun a s => Q a s ∧ Q' a s) fun s => E s ∧ E' s :=
  .intro (fun _ _ _ hs hx => ⟨h.ok hs.1 hx, h'.ok hs.2 hx⟩)
    fun _ _ _ hs hx => ⟨h.error hs.1 hx, h'.error hs.2 hx⟩

/-- What is known of a state may be told before the call runs. -/
theorem Triple.of_known {ι : Type} {known : ι → Prop} {P : ι → ς → Prop} {x : Effect ς ε α}
    {Q : α → ς → Prop} {E : ς → Prop} (h : ∀ i, known i → Triple (P i) x Q E) :
    Triple (fun s => ∃ i, known i ∧ P i s) x Q E :=
  .intro (fun _ _ _ ⟨i, hi, hs⟩ hx => (h i hi).ok hs hx)
    fun _ _ _ ⟨i, hi, hs⟩ hx => (h i hi).error hs hx

theorem Triple.mono_error {P : ς → Prop} {x : Effect ς ε α} {Q : α → ς → Prop} {E E' : ς → Prop}
    (h : Triple P x Q E) (hE : ∀ s, E s → E' s) : Triple P x Q E' :=
  h.weaken (fun _ hs => hs) (fun _ _ hs => hs) hE

/-- A call that only keeps a property comes before another one. -/
theorem Triple.bind_keeps {P : ς → Prop} {x : Effect ς ε α} {f : α → Effect ς ε β}
    {Q : β → ς → Prop} {E : ς → Prop} (hx : Keeps P x) (hE : ∀ s, P s → E s)
    (hf : ∀ a, Triple P (f a) Q E) : Triple P (x >>= f) Q E :=
  .bind (hx.mono_error hE) hf

/-- What is read of a state that is known is known. -/
theorem Triple.asks_known {P : ς → Prop} {f : ς → Exec ε α} {x : Exec ε α}
    (h : ∀ s, P s → f s = x) :
    Triple P (Effect.asks f) (fun a s => P s ∧ x = .ok a) P := by
  apply Triple.intro
  · intro s s' a hs hrun
    obtain ⟨hf, rfl⟩ := asks_eq_ok.mp hrun
    exact ⟨hs, h s hs ▸ hf⟩
  · intro s s' e hs hrun
    obtain ⟨-, rfl⟩ := Prod.mk.inj hrun
    exact hs

/-- Calls that run together, where each adds to what those before it have done. -/
theorem Triple.runAll_each {P : List α → ς → Prop} {E : ς → Prop} {f : α → Effect ς ε β}
    {xs : List α}
    (h : ∀ done x rest, xs = done ++ x :: rest →
      Triple (P done) (f x) (fun _ => P (done ++ [x])) E)
    (keeps : ∀ x ∈ xs, Keeps E (f x)) : Triple (P []) (Effect.runAll f xs) (fun _ => P xs) E := by
  have hrest : ∀ rest done, xs = done ++ rest →
      Triple (P done) (Effect.runAll f rest) (fun _ => P xs) E := by
    intro rest
    induction rest with
    | nil =>
      rintro done rfl
      apply Triple.pure
      rw [List.append_nil]
      exact fun _ hs => hs
    | cons x rest ih =>
      intro done hxs
      have hx := h done x rest hxs
      have hafter := ih (done ++ [x]) (by rw [hxs, List.append_assoc, List.singleton_append])
      have hkeeps : Keeps E (Effect.runAll f rest) := Keeps.runAll fun y hy =>
        keeps y (hxs ▸ List.mem_append_right _ (List.mem_cons_of_mem _ hy))
      apply Triple.of_run
      intro s hs
      rw [runAll_cons]
      cases hfx : f x s with
      | mk y t =>
        cases y with
        | error e => exact hkeeps.state (hx.error hs hfx)
        | ok y =>
          have ht := hafter.run (hx.ok hs hfx)
          cases hrun : Effect.runAll f rest t with
          | mk ys t' =>
            rw [hrun] at ht
            cases ys with
            | error e => exact ht
            | ok ys => exact ht
  exact hrest xs [] rfl

/-- All calls that run together succeed where their result is one. -/
theorem runAll_ok {f : α → Effect ς ε β} {xs : List α} {ys : List β} {s s' : ς}
    (h : runAll f xs s = (.ok ys, s')) :
    List.Forall₂ (fun x y => ∃ t t', f x t = (.ok y, t')) xs ys := by
  induction xs generalizing s ys with
  | nil =>
    obtain ⟨rfl, -⟩ := pure_eq_ok.mp h
    exact .nil
  | cons x xs ih =>
    rw [runAll] at h
    cases hx : f x s with
    | mk y t =>
      cases hxs : runAll f xs t with
      | mk zs t' =>
        simp only [hx, hxs, Prod.mk.injEq] at h
        obtain ⟨h, rfl⟩ := h
        obtain ⟨y, rfl, h⟩ := Exec.bind_eq_ok.mp h
        obtain ⟨zs, rfl, rfl⟩ := Exec.map_eq_ok.mp h
        exact .cons ⟨s, t, hx⟩ (ih hxs)

end Effect

-- A goal about a call must not be run to see whether it is a function.
attribute [irreducible] Effect.Triple

/-- A state with the failures that the system has in store, one for each step it is
asked to do. -/
structure Session (ς φ : Type) where
  state : ς
  faults : List (Option φ)

namespace Session

variable {ς φ ε α : Type}

/-- One step of the system. A fault stops it with an error, and leaves what `broken`
says it did before. -/
def os (toError : φ → ε) (broken : φ → ς → ς) (run : ς → Exec ε α × ς) :
    Effect (Session ς φ) ε α := fun s =>
  match s.faults with
  | some fault :: faults => (Exec.fail (toError fault), ⟨broken fault s.state, faults⟩)
  | none :: faults => ((run s.state).1, ⟨(run s.state).2, faults⟩)
  | [] => ((run s.state).1, ⟨(run s.state).2, []⟩)

theorem os_eq_ok {toError : φ → ε} {broken : φ → ς → ς} {run : ς → Exec ε α × ς}
    {s s' : Session ς φ} {a : α} (h : os toError broken run s = (.ok a, s')) :
    run s.state = (.ok a, s'.state) := by
  unfold os at h
  split at h
  · cases h
  · obtain ⟨hok, rfl⟩ := Prod.mk.inj h
    exact Prod.ext hok rfl
  · obtain ⟨hok, rfl⟩ := Prod.mk.inj h
    exact Prod.ext hok rfl

theorem os_error {toError : φ → ε} {run : ς → Exec ε α × ς} {s s' : Session ς φ} {e : Failure ε}
    (h : os toError (fun _ s => s) run s = (.error e, s')) :
    s'.state = s.state ∨ run s.state = (.error e, s'.state) := by
  unfold os at h
  split at h
  · cases h
    exact .inl rfl
  · obtain ⟨herror, rfl⟩ := Prod.mk.inj h
    exact .inr (Prod.ext herror rfl)
  · obtain ⟨herror, rfl⟩ := Prod.mk.inj h
    exact .inr (Prod.ext herror rfl)

/-- A step fails with a fault, or by itself. -/
theorem os_fails {toError : φ → ε} {broken : φ → ς → ς} {run : ς → Exec ε α × ς}
    {s s' : Session ς φ} {e : Failure ε} (h : os toError broken run s = (.error e, s')) :
    (∃ fault, e = .error (toError fault)) ∨ run s.state = (.error e, s'.state) := by
  unfold os at h
  split at h
  · rename_i fault faults hfaults
    cases h
    exact .inl ⟨fault, rfl⟩
  · obtain ⟨herror, rfl⟩ := Prod.mk.inj h
    exact .inr (Prod.ext herror rfl)
  · obtain ⟨herror, rfl⟩ := Prod.mk.inj h
    exact .inr (Prod.ext herror rfl)

theorem keeps_os {toError : φ → ε} {broken : φ → ς → ς} {run : ς → Exec ε α × ς} {P : ς → Prop}
    (hbroken : ∀ fault s, P s → P (broken fault s)) (hrun : ∀ s, P s → P (run s).2) :
    Effect.Keeps (fun s : Session ς φ => P s.state) (os toError broken run) := by
  apply Effect.Keeps.of_state
  intro s hs
  unfold os
  split
  · exact hbroken _ _ hs
  · exact hrun _ hs
  · exact hrun _ hs

end Session

end Elfshaker.Library
