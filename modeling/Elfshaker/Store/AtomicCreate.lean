import Mathlib.Data.List.Basic
import Mathlib.Logic.Function.Basic
import Mathlib.Tactic.SplitIfs

namespace Elfshaker.Store.AtomicCreate

set_option linter.unusedSectionVars false

abbrev Inode := Nat

/-- How far a process is: the call that it makes next, with the open files that it
needs for it. From `filling` on, `new` has returned and `commit_content` runs. -/
inductive Phase (ν : Type) where
  | start
  | makeParent
  | opened (target : Inode)
  | locked (target : Inode)
  | named (target : Inode)
  | vacant (target : Inode)
  | temporary (target : Inode) (name : ν) (temp : Inode)
  | filling (target : Inode) (name : ν) (temp : Inode) (rest : List UInt8)
  | filled (target : Inode) (name : ν) (temp : Inode)
  | synced (target : Inode) (name : ν) (temp : Inode)
  | renamed (target temp : Inode)
  | closing (temp : Inode)
  | committed
  | stopped
  deriving DecidableEq

/-- The directory of the target with the processes at work in it. A file is locked by
one process at most. -/
structure State (ν π : Type) where
  parent : Bool
  names : ν → Option Inode
  content : Inode → List UInt8
  lock : Inode → Option π
  fresh : Inode
  phase : π → Phase ν

/-- What a process does: its next call, with the random name and the number of bytes
it takes if they are needed, or nothing more. -/
inductive Action (ν : Type) where
  | call (name : ν) (chunk : Nat)
  | stop

section Protocol

variable {ν π : Type} [DecidableEq ν] [DecidableEq π]

namespace State

def goto (s : State ν π) (p : π) (phase : Phase ν) : State ν π :=
  { s with phase := Function.update s.phase p phase }

/-- The system drops the locks of a process with its files. -/
def release (s : State ν π) (p : π) : State ν π :=
  { s with lock := fun i => if s.lock i = some p then none else s.lock i }

/-- An error, or a crash. -/
def stop (s : State ν π) (p : π) : State ν π :=
  (s.release p).goto p .stopped

def acquire (s : State ν π) (p : π) (i : Inode) : State ν π :=
  { s with lock := Function.update s.lock i (some p) }

def close (s : State ν π) (p : π) (i : Inode) : State ν π :=
  { s with lock := fun j => if j = i ∧ s.lock j = some p then none else s.lock j }

/-- A new empty file. -/
def create (s : State ν π) (name : ν) : State ν π :=
  { s with
    names := Function.update s.names name (some s.fresh)
    content := Function.update s.content s.fresh []
    fresh := s.fresh + 1 }

def append (s : State ν π) (i : Inode) (bytes : List UInt8) : State ν π :=
  { s with content := Function.update s.content i (s.content i ++ bytes) }

/-- `fs::rename` of a file that is there. -/
def rename (s : State ν π) (source target : ν) (i : Inode) : State ν π :=
  { s with names := Function.update (Function.update s.names source none) target (some i) }

end State

variable (target : ν) (bytes : π → List UInt8)

/-- Opens the target for writing, or creates it. -/
def openTarget (s : State ν π) (p : π) : State ν π :=
  if s.parent then
    match s.names target with
    | some i => s.goto p (.opened i)
    | none => (s.create target).goto p (.opened s.fresh)
  else s.goto p .makeParent

/-- `try_lock_exclusive` on the target. -/
def lockTarget (s : State ν π) (p : π) (i : Inode) : State ν π :=
  if s.lock i = none then (s.acquire p i).goto p (.locked i) else s.stop p

/-- The file under the name of the target must be the one that is locked. -/
def lockName (s : State ν π) (p : π) (i : Inode) : State ν π :=
  if s.names target = some i then s.goto p (.named i) else s.stop p

def checkEmpty (s : State ν π) (p : π) (i : Inode) : State ν π :=
  if s.content i = [] then s.goto p (.vacant i) else s.stop p

def createTemp (s : State ν π) (p : π) (i : Inode) (name : ν) : State ν π :=
  if s.names name = none then (s.create name).goto p (.temporary i name s.fresh) else s.stop p

def lockTemp (s : State ν π) (p : π) (i : Inode) (name : ν) (temp : Inode) : State ν π :=
  if s.lock temp = none then (s.acquire p temp).goto p (.filling i name temp (bytes p))
  else s.stop p

/-- One write of `io::copy`, which ends where nothing is left. -/
def copy (s : State ν π) (p : π) (i : Inode) (name : ν) (temp : Inode) (chunk : Nat) :
    List UInt8 → State ν π
  | [] => s.goto p (.filled i name temp)
  | rest@(_ :: _) =>
    (s.append temp (rest.take (chunk + 1))).goto p (.filling i name temp (rest.drop (chunk + 1)))

/-- The rename that publishes the content. -/
def publish (s : State ν π) (p : π) (i : Inode) (name : ν) (temp : Inode) : State ν π :=
  match s.names name with
  | some j => (s.rename name target j).goto p (.renamed i temp)
  | none => s.stop p

/-- One call of a process. -/
def call (s : State ν π) (p : π) (name : ν) (chunk : Nat) : State ν π :=
  match s.phase p with
  | .start => openTarget target s p
  | .makeParent => { s with parent := true }.goto p .start
  | .opened i => lockTarget s p i
  | .locked i => lockName target s p i
  | .named i => checkEmpty s p i
  | .vacant i => createTemp s p i name
  | .temporary i temp j => lockTemp bytes s p i temp j
  | .filling i temp j rest => copy s p i temp j chunk rest
  | .filled i temp j => s.goto p (.synced i temp j)
  | .synced i temp j => publish target s p i temp j
  | .renamed i j => (s.close p i).goto p (.closing j)
  | .closing j => (s.close p j).goto p .committed
  | .committed => s
  | .stopped => s

/-- A process that has returned cannot fail any more. -/
def halt (s : State ν π) (p : π) : State ν π :=
  match s.phase p with
  | .committed => s
  | _ => s.stop p

def step (s : State ν π) (p : π) : Action ν → State ν π
  | .call name chunk => call target bytes s p name chunk
  | .stop => halt s p

/-- Any interleaving of the calls of the processes. -/
def run (s : State ν π) : List (π × Action ν) → State ν π
  | [] => s
  | (p, action) :: rest => run (step target bytes s p action) rest

/-- Nothing has been done yet; what is in the directory is arbitrary. -/
structure Initial (s : State ν π) : Prop where
  start : ∀ p, s.phase p = .start
  fresh : ∀ n i, s.names n = some i → i < s.fresh

/-- The file that a process has opened as the target. -/
def handle : Phase ν → Option Inode
  | .opened i | .locked i | .named i | .vacant i => some i
  | .temporary i _ _ | .filling i _ _ _ | .filled i _ _ | .synced i _ _ => some i
  | _ => none

/-- The process has renamed its file to the target. -/
def Published : Phase ν → Prop
  | .renamed _ _ | .closing _ | .committed => True
  | _ => False

/-- The process has a lock on the file under the name of the target. -/
structure Owns (s : State ν π) (p : π) (i : Inode) : Prop where
  lock : s.lock i = some p
  name : s.names target = some i

/-- The file is still empty, and nobody else is going to replace it. -/
structure Reserves (s : State ν π) (p : π) (i : Inode) : Prop extends Owns target s p i where
  empty : s.content i = []

/-- A temporary file that nobody else knows. -/
structure Fills (s : State ν π) (name : ν) (temp : Inode) (data : List UInt8) : Prop where
  linked : s.names name = some temp
  apart : name ≠ target
  content : s.content temp = data
  only : ∀ other, s.names other = some temp → other = name
  unopened : ∀ q, handle (s.phase q) ≠ some temp

/-- The target holds the content of a process. -/
def Holds (s : State ν π) (p : π) : Prop :=
  ∃ i, s.names target = some i ∧ s.content i = bytes p

/-- What a process can rely on between its calls. -/
def Sound (s : State ν π) (p : π) : Phase ν → Prop
  | .start | .makeParent | .stopped => True
  | .opened i => i < s.fresh
  | .locked i => i < s.fresh ∧ s.lock i = some p
  | .named i => Owns target s p i
  | .vacant i => Reserves target s p i
  | .temporary i name temp => Reserves target s p i ∧ Fills target s name temp []
  | .filling i name temp rest => Reserves target s p i ∧
      ∃ data, Fills target s name temp data ∧ data ++ rest = bytes p
  | .filled i name temp | .synced i name temp =>
      Reserves target s p i ∧ Fills target s name temp (bytes p)
  | .renamed _ _ | .closing _ | .committed => Holds target bytes s p

structure Invariant (s : State ν π) : Prop where
  fresh : ∀ n i, s.names n = some i → i < s.fresh
  sound : ∀ p, Sound target bytes s p (s.phase p)
  winner : ∀ p q, Published (s.phase p) → Published (s.phase q) → p = q

end Protocol

section Safety

variable {ν π : Type} {target : ν} {bytes : π → List UInt8}
  {s s' : State ν π} {p q : π} {i temp : Inode} {name : ν} {phase : Phase ν}

/-- A file that is open, or the target itself, is not one that `Fills` speaks of. -/
def Known (target : ν) (s : State ν π) (i : Inode) : Prop :=
  s.names target = some i ∨ ∃ p, handle (s.phase p) = some i

/-- What the other processes need not notice: the files stay, and with them the locks
of `q`; and what is open after it was known before. -/
structure Quiet (target : ν) (q : π) (s s' : State ν π) : Prop where
  names : s'.names = s.names
  content : s'.content = s.content
  fresh : s'.fresh = s.fresh
  lock : ∀ i, s.lock i = some q → s'.lock i = some q
  known : ∀ p i, handle (s'.phase p) = some i → Known target s i

theorem Fills.not_known {data : List UInt8} (h : Fills target s name temp data)
    (known : Known target s i) : i ≠ temp := by
  rintro rfl
  rcases known with hname | ⟨p, hp⟩
  · exact h.apart (h.only target hname).symm
  · exact h.unopened p hp

theorem Fills.quiet {data : List UInt8} (h : Fills target s name temp data)
    (quiet : Quiet target q s s') : Fills target s' name temp data where
  linked := by rw [quiet.names, h.linked]
  apart := h.apart
  content := by rw [quiet.content, h.content]
  only := by
    rw [quiet.names]
    exact h.only
  unopened := fun r hr => h.not_known (quiet.known r temp hr) rfl

theorem Owns.quiet (h : Owns target s q i) (quiet : Quiet target q s s') : Owns target s' q i :=
  ⟨quiet.lock i h.lock, by rw [quiet.names, h.name]⟩

theorem Reserves.quiet (h : Reserves target s q i) (quiet : Quiet target q s s') :
    Reserves target s' q i :=
  ⟨h.toOwns.quiet quiet, by rw [quiet.content, h.empty]⟩

theorem Sound.quiet (h : Sound target bytes s q phase) (quiet : Quiet target q s s') :
    Sound target bytes s' q phase := by
  cases phase with
  | start => trivial
  | makeParent => trivial
  | stopped => trivial
  | opened i =>
    have hlt : i < s.fresh := h
    rwa [← quiet.fresh] at hlt
  | locked i =>
    obtain ⟨hlt, hlock⟩ := h
    rw [← quiet.fresh] at hlt
    exact ⟨hlt, quiet.lock i hlock⟩
  | named i => exact Owns.quiet h quiet
  | vacant i => exact Reserves.quiet h quiet
  | temporary i name temp => exact ⟨h.1.quiet quiet, h.2.quiet quiet⟩
  | filling i name temp rest =>
    obtain ⟨hreserves, data, hfills, hdata⟩ := h
    exact ⟨hreserves.quiet quiet, data, hfills.quiet quiet, hdata⟩
  | filled i name temp => exact ⟨h.1.quiet quiet, h.2.quiet quiet⟩
  | synced i name temp => exact ⟨h.1.quiet quiet, h.2.quiet quiet⟩
  | renamed i temp =>
    obtain ⟨j, hname, hcontent⟩ := h
    exact ⟨j, by rw [quiet.names, hname], by rw [quiet.content, hcontent]⟩
  | closing temp =>
    obtain ⟨j, hname, hcontent⟩ := h
    exact ⟨j, by rw [quiet.names, hname], by rw [quiet.content, hcontent]⟩
  | committed =>
    obtain ⟨j, hname, hcontent⟩ := h
    exact ⟨j, by rw [quiet.names, hname], by rw [quiet.content, hcontent]⟩

/-- A step that changes a process, its locks and nothing else keeps the invariant. -/
theorem Invariant.quiet (h : Invariant target bytes s)
    (names : s'.names = s.names) (content : s'.content = s.content) (fresh : s'.fresh = s.fresh)
    (others : ∀ q, q ≠ p → s'.phase q = s.phase q)
    (lock : ∀ q, q ≠ p → ∀ i, s.lock i = some q → s'.lock i = some q)
    (known : ∀ i, handle (s'.phase p) = some i → Known target s i)
    (sound : Sound target bytes s' p (s'.phase p))
    (published : Published (s'.phase p) → Published (s.phase p)) : Invariant target bytes s' := by
  have wasPublished : ∀ q, Published (s'.phase q) → Published (s.phase q) := by
    intro q hq
    by_cases heq : q = p
    · subst heq
      exact published hq
    · rwa [others q heq] at hq
  refine ⟨?_, fun q => ?_, fun q r hq hr => h.winner q r (wasPublished q hq) (wasPublished r hr)⟩
  · rw [names, fresh]
    exact h.fresh
  · by_cases heq : q = p
    · subst heq
      exact sound
    · rw [others q heq]
      refine (h.sound q).quiet ⟨names, content, fresh, lock q heq, fun r i hr => ?_⟩
      by_cases heq' : r = p
      · subst heq'
        exact known i hr
      · rw [others r heq'] at hr
        exact .inr ⟨r, hr⟩

theorem Owns.unique {j : Inode} (h : Owns target s p i) (h' : Owns target s q j) : p = q := by
  have hij : i = j := Option.some.inj (h.name.symm.trans h'.name)
  subst hij
  exact Option.some.inj (h.lock.symm.trans h'.lock)

/-- The process has no claim on the target yet, or none any more. -/
def Idle : Phase ν → Prop
  | .start | .makeParent | .opened _ | .locked _ | .stopped => True
  | _ => False

theorem Idle.not_published (h : Idle phase) : ¬ Published phase := by
  intro hpublished
  cases phase <;> first | exact h | exact hpublished

/-- A process with a claim owns the target or has filled it. -/
theorem Sound.idle_or (h : Sound target bytes s q phase) :
    Idle phase ∨ (∃ i, Owns target s q i) ∨ Holds target bytes s q := by
  cases phase with
  | named i => exact .inr (.inl ⟨i, h⟩)
  | vacant i => exact .inr (.inl ⟨i, Reserves.toOwns h⟩)
  | temporary i _ _ => exact .inr (.inl ⟨i, h.1.toOwns⟩)
  | filling i _ _ _ => exact .inr (.inl ⟨i, h.1.toOwns⟩)
  | filled i _ _ => exact .inr (.inl ⟨i, h.1.toOwns⟩)
  | synced i _ _ => exact .inr (.inl ⟨i, h.1.toOwns⟩)
  | renamed _ _ => exact .inr (.inr h)
  | closing _ => exact .inr (.inr h)
  | committed => exact .inr (.inr h)
  | _ => exact .inl trivial

/-- What a process has open is there. -/
theorem Invariant.handle_lt (h : Invariant target bytes s) (q : π) (j : Inode)
    (hq : handle (s.phase q) = some j) : j < s.fresh := by
  have hsound := h.sound q
  cases hphase : s.phase q with
  | opened i =>
    rw [hphase] at hq hsound
    cases hq
    exact hsound
  | locked i =>
    rw [hphase] at hq hsound
    cases hq
    exact hsound.1
  | named i =>
    rw [hphase] at hq hsound
    cases hq
    exact h.fresh target _ (Owns.name hsound)
  | vacant i =>
    rw [hphase] at hq hsound
    cases hq
    exact h.fresh target _ (Reserves.toOwns hsound).name
  | temporary i _ _ =>
    rw [hphase] at hq hsound
    cases hq
    exact h.fresh target _ hsound.1.name
  | filling i _ _ _ =>
    rw [hphase] at hq hsound
    cases hq
    exact h.fresh target _ hsound.1.name
  | filled i _ _ =>
    rw [hphase] at hq hsound
    cases hq
    exact h.fresh target _ hsound.1.name
  | synced i _ _ =>
    rw [hphase] at hq hsound
    cases hq
    exact h.fresh target _ hsound.1.name
  | _ =>
    rw [hphase] at hq
    cases hq

theorem Invariant.idle_of_missing (h : Invariant target bytes s) (hnone : s.names target = none)
    (q : π) : Idle (s.phase q) := by
  rcases (h.sound q).idle_or with hidle | ⟨i, howns⟩ | ⟨i, hname, -⟩
  · exact hidle
  · rw [howns.name] at hnone
    cases hnone
  · rw [hname] at hnone
    cases hnone

/-- While a process reserves the target, no other has a claim on it. -/
theorem Invariant.idle_of_reserves (h : Invariant target bytes s) (nonempty : ∀ p, bytes p ≠ [])
    (hreserves : Reserves target s p i) (hne : q ≠ p) : Idle (s.phase q) := by
  rcases (h.sound q).idle_or with hidle | ⟨j, howns⟩ | ⟨j, hname, hcontent⟩
  · exact hidle
  · exact absurd (howns.unique hreserves.toOwns) hne
  · rw [hreserves.name] at hname
    cases hname
    rw [hreserves.empty] at hcontent
    exact absurd hcontent.symm (nonempty q)

/-- A step of the only process with a claim on the target. -/
theorem Invariant.alone (h : Invariant target bytes s) (idle : ∀ q, q ≠ p → Idle (s.phase q))
    (others : ∀ q, q ≠ p → s'.phase q = s.phase q) (fresh : s.fresh ≤ s'.fresh)
    (lock : ∀ i, s'.lock i = s.lock i) (bounded : ∀ n i, s'.names n = some i → i < s'.fresh)
    (sound : Sound target bytes s' p (s'.phase p)) : Invariant target bytes s' := by
  refine ⟨bounded, fun q => ?_, fun q r hq hr => ?_⟩
  · by_cases heq : q = p
    · subst heq
      exact sound
    · have hsound := h.sound q
      have hidle := idle q heq
      rw [others q heq]
      cases hphase : s.phase q with
      | opened i =>
        rw [hphase] at hsound
        exact Nat.lt_of_lt_of_le (show i < s.fresh from hsound) fresh
      | locked i =>
        rw [hphase] at hsound
        exact ⟨Nat.lt_of_lt_of_le hsound.1 fresh, (lock i).trans hsound.2⟩
      | start => trivial
      | makeParent => trivial
      | stopped => trivial
      | _ =>
        rw [hphase] at hidle
        exact hidle.elim
  · have only : ∀ q, Published (s'.phase q) → q = p := by
      intro q hq
      by_contra heq
      rw [others q heq] at hq
      exact (idle q heq).not_published hq
    rw [only q hq, only r hr]

end Safety

section Steps

variable {ν π : Type} [DecidableEq π] {target : ν} {bytes : π → List UInt8}
  {s t : State ν π} {p q : π} {i temp : Inode} {name : ν} {phase : Phase ν}

theorem goto_phase_of_ne (s : State ν π) (phase : Phase ν) (h : q ≠ p) :
    (s.goto p phase).phase q = s.phase q :=
  Function.update_of_ne h ..

theorem goto_phase_self (s : State ν π) (p : π) (phase : Phase ν) :
    (s.goto p phase).phase p = phase :=
  Function.update_self ..

/-- The same files and processes; the locks of the others are kept. -/
structure Relocked (p : π) (s t : State ν π) : Prop where
  names : t.names = s.names
  content : t.content = s.content
  fresh : t.fresh = s.fresh
  phase : t.phase = s.phase
  lock : ∀ q, q ≠ p → ∀ i, s.lock i = some q → t.lock i = some q

theorem Relocked.refl (p : π) (s : State ν π) : Relocked p s s :=
  ⟨rfl, rfl, rfl, rfl, fun _ _ _ => id⟩

theorem relocked_release (s : State ν π) (p : π) : Relocked p s (s.release p) := by
  refine ⟨rfl, rfl, rfl, rfl, fun q hq i hlock => ?_⟩
  have hne : s.lock i ≠ some p := by
    rw [hlock]
    exact fun h => hq (Option.some.inj h)
  exact (if_neg hne).trans hlock

theorem relocked_close (s : State ν π) (p : π) (j : Inode) : Relocked p s (s.close p j) := by
  refine ⟨rfl, rfl, rfl, rfl, fun q hq i hlock => ?_⟩
  have hne : ¬ (i = j ∧ s.lock i = some p) := by
    rw [hlock]
    exact fun h => hq (Option.some.inj h.2)
  exact (if_neg hne).trans hlock

theorem acquire_lock {j : Inode} (free : s.lock i = none) (h : s.lock j = some q) :
    (s.acquire p i).lock j = some q := by
  have hne : j ≠ i := by
    rintro rfl
    rw [free] at h
    cases h
  exact (Function.update_of_ne hne _ _).trans h

theorem relocked_acquire (free : s.lock i = none) : Relocked p s (s.acquire p i) :=
  ⟨rfl, rfl, rfl, rfl, fun _ _ _ h => acquire_lock free h⟩

/-- A process that goes on after its locks have changed. -/
theorem Invariant.goto (h : Invariant target bytes s) (relocked : Relocked p s t)
    (sound : Sound target bytes (t.goto p phase) p phase)
    (known : ∀ i, handle phase = some i → Known target s i)
    (published : Published phase → Published (s.phase p)) :
    Invariant target bytes (t.goto p phase) := by
  have self := goto_phase_self t p phase
  refine h.quiet relocked.names relocked.content relocked.fresh (fun q hq => ?_) relocked.lock ?_
    ?_ ?_
  · rw [goto_phase_of_ne t phase hq, relocked.phase]
  · rwa [self]
  · rwa [self]
  · rwa [self]

/-- What a process relied on, it still can where it keeps its locks. -/
theorem quiet_goto (relocked : Relocked p s t) (own : ∀ i, s.lock i = some p → t.lock i = some p)
    (known : ∀ i, handle phase = some i → Known target s i) :
    Quiet target p s (t.goto p phase) := by
  refine ⟨relocked.names, relocked.content, relocked.fresh, own, fun r i hr => ?_⟩
  by_cases heq : r = p
  · subst heq
    rw [goto_phase_self] at hr
    exact known i hr
  · rw [goto_phase_of_ne t phase heq, relocked.phase] at hr
    exact .inr ⟨r, hr⟩

theorem Invariant.stop (h : Invariant target bytes s) (p : π) :
    Invariant target bytes (s.stop p) := by
  apply h.goto (relocked_release s p)
  · trivial
  · intro i hi
    cases hi
  · exact False.elim

variable [DecidableEq ν]

theorem create_bounded (fresh : ∀ n i, s.names n = some i → i < s.fresh) (name : ν) :
    ∀ n i, (s.create name).names n = some i → i < (s.create name).fresh := by
  intro n i hname
  by_cases hn : n = name
  · subst hn
    have hself : (s.create n).names n = some s.fresh := Function.update_self ..
    rw [hself] at hname
    cases hname
    exact Nat.lt_succ_self _
  · have hother : (s.create name).names n = s.names n := Function.update_of_ne hn ..
    rw [hother] at hname
    exact Nat.lt_succ_of_lt (fresh n i hname)

theorem Invariant.openTarget (h : Invariant target bytes s) (p : π) :
    Invariant target bytes (openTarget target s p) := by
  unfold AtomicCreate.openTarget
  split_ifs
  · split
    · rename_i i hname
      apply h.goto (.refl p s)
      · exact h.fresh target i hname
      · intro j hj
        cases hj
        exact .inl hname
      · exact False.elim
    · rename_i hnone
      apply h.alone (fun q _ => h.idle_of_missing hnone q)
      · intro q hq
        exact goto_phase_of_ne (s.create target) _ hq
      · exact Nat.le_succ _
      · exact fun _ => rfl
      · exact create_bounded h.fresh target
      · rw [goto_phase_self]
        exact Nat.lt_succ_self s.fresh
  · apply h.goto (.refl p s)
    · trivial
    · intro i hi
      cases hi
    · exact False.elim

theorem Invariant.lockTarget (h : Invariant target bytes s) (hphase : s.phase p = .opened i) :
    Invariant target bytes (lockTarget s p i) := by
  have hsound := h.sound p
  rw [hphase] at hsound
  unfold AtomicCreate.lockTarget
  split_ifs with hfree
  · apply h.goto (relocked_acquire hfree)
    · exact ⟨hsound, Function.update_self ..⟩
    · intro j hj
      cases hj
      exact .inr ⟨p, by rw [hphase]; rfl⟩
    · exact False.elim
  · exact h.stop p

theorem Invariant.lockName (h : Invariant target bytes s) (hphase : s.phase p = .locked i) :
    Invariant target bytes (lockName target s p i) := by
  have hsound := h.sound p
  rw [hphase] at hsound
  unfold AtomicCreate.lockName
  split_ifs with hname
  · apply h.goto (.refl p s)
    · exact ⟨hsound.2, hname⟩
    · intro j hj
      cases hj
      exact .inl hname
    · exact False.elim
  · exact h.stop p

theorem Invariant.checkEmpty (h : Invariant target bytes s) (hphase : s.phase p = .named i) :
    Invariant target bytes (checkEmpty s p i) := by
  have howns : Owns target s p i := by
    have hsound := h.sound p
    rwa [hphase] at hsound
  unfold AtomicCreate.checkEmpty
  split_ifs with hempty
  · apply h.goto (.refl p s)
    · exact ⟨⟨howns.lock, howns.name⟩, hempty⟩
    · intro j hj
      cases hj
      exact .inl howns.name
    · exact False.elim
  · exact h.stop p

/-- The new file is one that nobody has seen. -/
theorem Invariant.createTemp (h : Invariant target bytes s) (nonempty : ∀ p, bytes p ≠ [])
    (hphase : s.phase p = .vacant i) : Invariant target bytes (createTemp s p i name) := by
  have hreserves : Reserves target s p i := by
    have hsound := h.sound p
    rwa [hphase] at hsound
  have idle : ∀ q, q ≠ p → Idle (s.phase q) := fun q hq => h.idle_of_reserves nonempty hreserves hq
  unfold AtomicCreate.createTemp
  split_ifs with hfree
  · have hi : i < s.fresh := h.fresh target i hreserves.name
    have hapart : target ≠ name := by
      intro heq
      have hname := hreserves.name
      rw [heq, hfree] at hname
      cases hname
    have hold : ∀ q j, handle (s.phase q) = some j → j < s.fresh := h.handle_lt
    apply h.alone idle
    · intro q hq
      exact goto_phase_of_ne (s.create name) _ hq
    · exact Nat.le_succ _
    · exact fun _ => rfl
    · exact create_bounded h.fresh name
    · rw [goto_phase_self]
      refine ⟨⟨⟨hreserves.lock, ?_⟩, ?_⟩, ⟨?_, hapart.symm, ?_, fun other hother => ?_, ?_⟩⟩
      · exact (Function.update_of_ne hapart ..).trans hreserves.name
      · exact (Function.update_of_ne (Nat.ne_of_lt hi) ..).trans hreserves.empty
      · exact Function.update_self ..
      · exact Function.update_self ..
      · by_contra hne
        have hname : s.names other = some s.fresh :=
          (Function.update_of_ne hne ..).symm.trans hother
        exact Nat.lt_irrefl _ (h.fresh other _ hname)
      · intro q hq
        by_cases heq : q = p
        · subst heq
          rw [goto_phase_self] at hq
          cases hq
          exact Nat.lt_irrefl _ hi
        · rw [goto_phase_of_ne (s.create name) _ heq] at hq
          exact Nat.lt_irrefl _ (hold q _ hq)
  · exact h.stop p

theorem Invariant.lockTemp (h : Invariant target bytes s)
    (hphase : s.phase p = .temporary i name temp) :
    Invariant target bytes (lockTemp bytes s p i name temp) := by
  have hsound := h.sound p
  rw [hphase] at hsound
  obtain ⟨hreserves, hfills⟩ := hsound
  unfold AtomicCreate.lockTemp
  split_ifs with hfree
  · have known : ∀ j, handle (.filling i name temp (bytes p)) = some j → Known target s j := by
      intro j hj
      cases hj
      exact .inl hreserves.name
    have quiet := quiet_goto (relocked_acquire (p := p) hfree)
      (fun _ hlock => acquire_lock hfree hlock) known
    apply h.goto (relocked_acquire hfree)
    · exact ⟨hreserves.quiet quiet, [], hfills.quiet quiet, rfl⟩
    · exact known
    · exact False.elim
  · exact h.stop p

/-- What is written goes to the temporary file, which no other process reads. -/
theorem Invariant.copy {rest : List UInt8} (h : Invariant target bytes s)
    (nonempty : ∀ p, bytes p ≠ []) (hphase : s.phase p = .filling i name temp rest) (chunk : Nat) :
    Invariant target bytes (copy s p i name temp chunk rest) := by
  have hsound := h.sound p
  rw [hphase] at hsound
  obtain ⟨hreserves, data, hfills, hdata⟩ := hsound
  cases rest with
  | nil =>
    rw [List.append_nil] at hdata
    subst hdata
    have known : ∀ j, handle (.filled i name temp) = some j → Known target s j := by
      intro j hj
      cases hj
      exact .inl hreserves.name
    have quiet := quiet_goto (.refl p s) (fun _ => id) known
    apply h.goto (.refl p s)
    · exact ⟨hreserves.quiet quiet, hfills.quiet quiet⟩
    · exact known
    · exact False.elim
  | cons b rest =>
    have hne : i ≠ temp := hfills.not_known (.inl hreserves.name)
    apply h.alone (fun q hq => h.idle_of_reserves nonempty hreserves hq)
    · intro q hq
      exact goto_phase_of_ne (s.append temp _) _ hq
    · exact Nat.le_refl _
    · exact fun _ => rfl
    · exact h.fresh
    · rw [AtomicCreate.copy, goto_phase_self]
      refine ⟨⟨⟨hreserves.lock, hreserves.name⟩, ?_⟩, data ++ (b :: rest).take (chunk + 1),
        ⟨hfills.linked, hfills.apart, ?_, hfills.only, fun q hq => ?_⟩, ?_⟩
      · exact (Function.update_of_ne hne ..).trans hreserves.empty
      · exact (Function.update_self ..).trans (by rw [hfills.content])
      · by_cases heq : q = p
        · subst heq
          rw [goto_phase_self] at hq
          cases hq
          exact hne rfl
        · rw [goto_phase_of_ne (s.append temp _) _ heq] at hq
          exact hfills.unopened q hq
      · rw [List.append_assoc, List.take_append_drop, hdata]

theorem Invariant.sync (h : Invariant target bytes s) (hphase : s.phase p = .filled i name temp) :
    Invariant target bytes (s.goto p (.synced i name temp)) := by
  have hsound := h.sound p
  rw [hphase] at hsound
  obtain ⟨hreserves, hfills⟩ := hsound
  have known : ∀ j, handle (.synced i name temp) = some j → Known target s j := by
    intro j hj
    cases hj
    exact .inl hreserves.name
  have quiet := quiet_goto (.refl p s) (fun _ => id) known
  apply h.goto (.refl p s)
  · exact ⟨hreserves.quiet quiet, hfills.quiet quiet⟩
  · exact known
  · exact False.elim

/-- The content is complete when it becomes the target. -/
theorem Invariant.publish (h : Invariant target bytes s) (nonempty : ∀ p, bytes p ≠ [])
    (hphase : s.phase p = .synced i name temp) :
    Invariant target bytes (publish target s p i name temp) := by
  have hsound := h.sound p
  rw [hphase] at hsound
  obtain ⟨hreserves, hfills⟩ := hsound
  rw [AtomicCreate.publish, hfills.linked]
  apply h.alone (fun q hq => h.idle_of_reserves nonempty hreserves hq)
  · intro q hq
    exact goto_phase_of_ne (s.rename name target temp) _ hq
  · exact Nat.le_refl _
  · exact fun _ => rfl
  · intro n j hname
    have hnames : (s.rename name target temp).names n = some j := hname
    by_cases hn : n = target
    · subst hn
      have hself : (s.rename name n temp).names n = some temp := Function.update_self ..
      rw [hself] at hnames
      cases hnames
      exact h.fresh name temp hfills.linked
    · have hother : (s.rename name target temp).names n = Function.update s.names name none n :=
        Function.update_of_ne hn ..
      rw [hother] at hnames
      by_cases hn' : n = name
      · subst hn'
        rw [Function.update_self] at hnames
        cases hnames
      · rw [Function.update_of_ne hn'] at hnames
        exact h.fresh n j hnames
  · rw [goto_phase_self]
    exact ⟨temp, Function.update_self .., hfills.content⟩

/-- A process that has published its content drops a lock. -/
theorem Invariant.close (h : Invariant target bytes s) (j : Inode) (hpublished : Published (s.phase p))
    (hsound : Sound target bytes ((s.close p j).goto p phase) p phase) (hhandle : handle phase = none) :
    Invariant target bytes ((s.close p j).goto p phase) := by
  apply h.goto (relocked_close s p j) hsound
  · intro i hi
    rw [hhandle] at hi
    cases hi
  · exact fun _ => hpublished

theorem Invariant.call (h : Invariant target bytes s) (nonempty : ∀ p, bytes p ≠ []) (p : π)
    (name : ν) (chunk : Nat) : Invariant target bytes (call target bytes s p name chunk) := by
  have hsound := h.sound p
  unfold AtomicCreate.call
  cases hphase : s.phase p with
  | start => exact h.openTarget p
  | makeParent =>
    have relocked : Relocked p s { s with parent := true } := ⟨rfl, rfl, rfl, rfl, fun _ _ _ => id⟩
    apply h.goto relocked
    · trivial
    · intro i hi
      cases hi
    · exact False.elim
  | opened i => exact h.lockTarget hphase
  | locked i => exact h.lockName hphase
  | named i => exact h.checkEmpty hphase
  | vacant i => exact h.createTemp nonempty hphase
  | temporary i name temp => exact h.lockTemp hphase
  | filling i name temp rest => exact h.copy nonempty hphase chunk
  | filled i name temp => exact h.sync hphase
  | synced i name temp => exact h.publish nonempty hphase
  | renamed i temp =>
    rw [hphase] at hsound
    exact h.close i (by rw [hphase]; trivial) hsound rfl
  | closing temp =>
    rw [hphase] at hsound
    exact h.close temp (by rw [hphase]; trivial) hsound rfl
  | committed => exact h
  | stopped => exact h

theorem Invariant.step (h : Invariant target bytes s) (nonempty : ∀ p, bytes p ≠ []) (p : π)
    (action : Action ν) : Invariant target bytes (step target bytes s p action) := by
  cases action with
  | call name chunk => exact h.call nonempty p name chunk
  | stop =>
    have hstep : AtomicCreate.step target bytes s p .stop = halt s p := rfl
    rw [hstep, halt]
    split
    · exact h
    · exact h.stop p

theorem Invariant.run (h : Invariant target bytes s) (nonempty : ∀ p, bytes p ≠ [])
    (schedule : List (π × Action ν)) : Invariant target bytes (run target bytes s schedule) := by
  induction schedule generalizing s with
  | nil => exact h
  | cons event schedule ih => exact ih (h.step nonempty event.1 event.2)

theorem Initial.invariant (h : Initial s) : Invariant target bytes s := by
  refine ⟨h.fresh, fun p => ?_, fun p q hp => ?_⟩
  · rw [h.start p]
    trivial
  · rw [h.start p] at hp
    exact hp.elim

/-- A process changes the phase of no other. -/
theorem step_phase_of_ne (s : State ν π) (hne : q ≠ p) (action : Action ν) :
    (step target bytes s p action).phase q = s.phase q := by
  have kept (t : State ν π) (phase : Phase ν) (h : t.phase = s.phase) :
      (t.goto p phase).phase q = s.phase q := by
    rw [goto_phase_of_ne t phase hne, h]
  cases action with
  | stop =>
    have hstep : step target bytes s p .stop = halt s p := rfl
    rw [hstep, halt]
    split
    · rfl
    · exact kept (s.release p) _ rfl
  | call name chunk =>
    have hstep : step target bytes s p (.call name chunk) = call target bytes s p name chunk := rfl
    rw [hstep, call]
    split
    · unfold openTarget
      split_ifs
      · split
        · exact kept s _ rfl
        · exact kept (s.create target) _ rfl
      · exact kept s _ rfl
    · exact kept { s with parent := true } _ rfl
    · unfold lockTarget
      split_ifs
      · exact kept (s.acquire p _) _ rfl
      · exact kept (s.release p) _ rfl
    · unfold lockName
      split_ifs
      · exact kept s _ rfl
      · exact kept (s.release p) _ rfl
    · unfold checkEmpty
      split_ifs
      · exact kept s _ rfl
      · exact kept (s.release p) _ rfl
    · unfold createTemp
      split_ifs
      · exact kept (s.create name) _ rfl
      · exact kept (s.release p) _ rfl
    · unfold lockTemp
      split_ifs
      · exact kept (s.acquire p _) _ rfl
      · exact kept (s.release p) _ rfl
    · rename_i rest _
      cases rest with
      | nil => exact kept s _ rfl
      | cons b rest => exact kept (s.append _ _) _ rfl
    · exact kept s _ rfl
    · unfold publish
      split
      · exact kept (s.rename _ target _) _ rfl
      · exact kept (s.release p) _ rfl
    · exact kept (s.close p _) _ rfl
    · exact kept (s.close p _) _ rfl
    · rfl
    · rfl

theorem step_committed (s : State ν π) (h : s.phase q = .committed) (p : π) (action : Action ν) :
    (step target bytes s p action).phase q = .committed := by
  by_cases heq : q = p
  · subst heq
    cases action with
    | call name chunk =>
      have hstep : step target bytes s q (.call name chunk) = s := by
        rw [step, call, h]
      rw [hstep, h]
    | stop =>
      have hstep : step target bytes s q .stop = s := by
        rw [step, halt, h]
      rw [hstep, h]
  · rw [step_phase_of_ne s heq, h]

/-- The target is this file, with this content. -/
structure Content (target : ν) (i : Inode) (data : List UInt8) (s : State ν π) : Prop where
  name : s.names target = some i
  content : s.content i = data

/-- A target with content stays as it is. -/
theorem step_keeps_content {data : List UInt8} (h : Invariant target bytes s)
    (hcontent : Content target i data s) (hdata : data ≠ []) (p : π) (action : Action ν) :
    Content target i data (step target bytes s p action) := by
  obtain ⟨hname, hbytes⟩ := hcontent
  have hi := h.fresh target i hname
  have occupied {j : Inode} (hreserves : Reserves target s p j) : False := by
    rw [hreserves.name] at hname
    cases hname
    exact hdata (hbytes.symm.trans hreserves.empty)
  have created {name : ν} (hfree : s.names name = none) : Content target i data (s.create name) := by
    have hne : target ≠ name := by
      intro heq
      rw [← heq, hname] at hfree
      cases hfree
    refine ⟨(Function.update_of_ne hne ..).trans hname, ?_⟩
    exact (Function.update_of_ne (Nat.ne_of_lt hi) ..).trans hbytes
  have hsound := h.sound p
  cases action with
  | stop =>
    have hstep : step target bytes s p .stop = halt s p := rfl
    rw [hstep, halt]
    split
    · exact ⟨hname, hbytes⟩
    · exact ⟨hname, hbytes⟩
  | call name chunk =>
    have hstep : step target bytes s p (.call name chunk) = call target bytes s p name chunk := rfl
    rw [hstep, call]
    cases hphase : s.phase p with
    | start =>
      dsimp only
      unfold openTarget
      split_ifs
      · rw [hname]
        exact ⟨hname, hbytes⟩
      · exact ⟨hname, hbytes⟩
    | makeParent => exact ⟨hname, hbytes⟩
    | opened j =>
      dsimp only
      unfold lockTarget
      split_ifs
      · exact ⟨hname, hbytes⟩
      · exact ⟨hname, hbytes⟩
    | locked j =>
      dsimp only
      unfold lockName
      split_ifs
      · exact ⟨hname, hbytes⟩
      · exact ⟨hname, hbytes⟩
    | named j =>
      dsimp only
      unfold checkEmpty
      split_ifs
      · exact ⟨hname, hbytes⟩
      · exact ⟨hname, hbytes⟩
    | vacant j =>
      rw [hphase] at hsound
      exact (occupied hsound).elim
    | temporary j temp k =>
      rw [hphase] at hsound
      exact (occupied hsound.1).elim
    | filling j temp k rest =>
      rw [hphase] at hsound
      exact (occupied hsound.1).elim
    | filled j temp k =>
      rw [hphase] at hsound
      exact (occupied hsound.1).elim
    | synced j temp k =>
      rw [hphase] at hsound
      exact (occupied hsound.1).elim
    | renamed j k => exact ⟨hname, hbytes⟩
    | closing j => exact ⟨hname, hbytes⟩
    | committed => exact ⟨hname, hbytes⟩
    | stopped => exact ⟨hname, hbytes⟩

theorem run_keeps_content {data : List UInt8} (h : Invariant target bytes s)
    (nonempty : ∀ p, bytes p ≠ []) (hcontent : Content target i data s) (hdata : data ≠ [])
    (schedule : List (π × Action ν)) : Content target i data (run target bytes s schedule) := by
  induction schedule generalizing s with
  | nil => exact hcontent
  | cons event schedule ih =>
    obtain ⟨p, action⟩ := event
    exact ih (h.step nonempty p action) (step_keeps_content h hcontent hdata p action)

theorem run_committed (s : State ν π) (h : s.phase q = .committed)
    (schedule : List (π × Action ν)) : (run target bytes s schedule).phase q = .committed := by
  induction schedule generalizing s with
  | nil => exact h
  | cons event schedule ih => exact ih _ (step_committed s h event.1 event.2)

variable (target bytes) in
/-- In every interleaving, whoever crashes or fails, one commit returns at most; the
target has the content of its process from then on; and a target with content is not
replaced. -/
theorem atomic_create_one_winner (nonempty : ∀ p, bytes p ≠ []) (initial : Initial s)
    (schedule more : List (π × Action ν)) :
    (∀ p q, (run target bytes s schedule).phase p = .committed →
      (run target bytes s schedule).phase q = .committed → p = q) ∧
    (∀ p, (run target bytes s schedule).phase p = .committed →
      (run target bytes (run target bytes s schedule) more).phase p = .committed ∧
      ∃ i, Content target i (bytes p) (run target bytes (run target bytes s schedule) more)) ∧
    (∀ i data, data ≠ [] → Content target i data (run target bytes s schedule) →
      Content target i data (run target bytes (run target bytes s schedule) more)) := by
  have h : Invariant target bytes (run target bytes s schedule) :=
    initial.invariant.run nonempty schedule
  refine ⟨fun p q hp hq => ?_, fun p hp => ⟨run_committed _ hp more, ?_⟩, ?_⟩
  · exact h.winner p q (by rw [hp]; trivial) (by rw [hq]; trivial)
  · have hsound := h.sound p
    rw [hp] at hsound
    obtain ⟨i, hname, hcontent⟩ := hsound
    exact ⟨i, run_keeps_content h nonempty ⟨hname, hcontent⟩ (nonempty p) more⟩
  · intro i data hdata hcontent
    exact run_keeps_content h nonempty hcontent hdata more

end Steps

namespace Sample

/-- A directory that is not there yet. -/
def missing : State String Nat where
  parent := false
  names := fun _ => none
  content := fun _ => []
  lock := fun _ => none
  fresh := 0
  phase := fun _ => .start

def bytes (p : Nat) : List UInt8 := [UInt8.ofNat p, 0]

def calls (p n : Nat) (name : String) : List (Nat × Action String) :=
  List.replicate n (p, .call name 0)

/-- The first process makes the directory and crashes when it has reserved the target;
the second publishes its content while the third waits with the empty file open. -/
def schedule : List (Nat × Action String) :=
  calls 1 7 "temp-1" ++ [(1, .stop)] ++ calls 3 1 "temp-3" ++ calls 2 13 "temp-2"

/-- The third process goes on. -/
def more : List (Nat × Action String) := calls 3 3 "temp-3"

theorem initial : Initial missing where
  start := fun _ => rfl
  fresh := by
    intro n i h
    cases h

end Sample

theorem atomic_create_one_winner_after_crash :
    ∃ i, Content "target" i (Sample.bytes 2) (run "target" Sample.bytes
      (run "target" Sample.bytes Sample.missing Sample.schedule) Sample.more) := by
  have hcommitted :
      (run "target" Sample.bytes Sample.missing Sample.schedule).phase 2 = .committed := by
    rfl
  have nonempty : ∀ p, Sample.bytes p ≠ [] := fun p => List.cons_ne_nil _ _
  have hall := atomic_create_one_winner "target" Sample.bytes nonempty Sample.initial
    Sample.schedule Sample.more
  exact (hall.2.1 2 hcommitted).2

end Elfshaker.Store.AtomicCreate
