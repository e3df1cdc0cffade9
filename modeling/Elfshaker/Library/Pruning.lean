import Mathlib.Data.List.Infix
import Mathlib.Data.Set.Insert
import Mathlib.Order.BooleanAlgebra.Set
import Mathlib.Tactic.SplitIfs

namespace Elfshaker.Library.Pruning

variable {ν : Type}

/-- Nothing lies in a place. Places are spelled from their own name outwards, and what
is present is a set of them. -/
def Bare (present : Set (List ν)) (d : List ν) : Prop := ∀ n, n :: d ∉ present

open Classical in
/-- Takes a bare place away, and goes on with the place around it. -/
noncomputable def prune (present : Set (List ν)) : List ν → Set (List ν)
  | [] => present
  | n :: d =>
    if n :: d ∈ present ∧ Bare present (n :: d) then prune (present \ {n :: d}) d else present

/-- What is taken away in the end where some places may go and some have been asked
for: what is asked for or had something in it, once all of that is away. -/
inductive Withers (kept asked : Set (List ν)) : List ν → Prop
  | intro {d : List ν} (inner : d ≠ []) (present : d ∈ kept)
      (reached : d ∈ asked ∨ ∃ n, n :: d ∈ kept)
      (content : ∀ n, n :: d ∈ kept → Withers kept asked (n :: d)) : Withers kept asked d

section Prune

variable {present kept asked waiting : Set (List ν)} {d e : List ν}

theorem prune_subset : prune present d ⊆ present := by
  induction d generalizing present with
  | nil => exact subset_rfl
  | cons n d ih =>
    unfold prune
    split_ifs
    · exact ih.trans Set.sdiff_subset
    · exact subset_rfl

/-- A bare place is taken away only where that starts from it. -/
theorem mem_prune_of_bare (he : e ∈ present) (bare : Bare present e) (hne : e ≠ d) :
    e ∈ prune present d := by
  induction d generalizing present with
  | nil => exact he
  | cons n d ih =>
    unfold prune
    split_ifs with h
    · apply ih
      · exact ⟨he, hne⟩
      · exact fun m hm => bare m hm.1
      · rintro rfl
        exact bare n h.1
    · exact he

/-- Only what lies around something that is asked for withers. -/
theorem Withers.exists_asked (h : Withers kept asked d) : ∃ e ∈ asked, d <:+ e := by
  induction h with
  | @intro d inner hkept reached content ih =>
    rcases reached with hasked | ⟨n, hn⟩
    · exact ⟨d, hasked, List.suffix_rfl⟩
    · obtain ⟨e, he, hsuffix⟩ := ih n hn
      exact ⟨e, he, (List.suffix_cons n d).trans hsuffix⟩

theorem exists_child (h : d <:+ e) (hne : d ≠ e) : ∃ n, n :: d <:+ e := by
  obtain ⟨front, rfl⟩ := h
  rcases List.eq_nil_or_concat front with rfl | ⟨more, n, rfl⟩
  · exact absurd rfl hne
  · refine ⟨n, more, ?_⟩
    rw [List.concat_eq_append, List.append_assoc, List.singleton_append]

theorem suffix_tail (h : d <:+ e) (hne : d ≠ e) : d <:+ e.tail := by
  cases e with
  | nil => exact absurd (List.suffix_nil.mp h) hne
  | cons n e => exact (List.suffix_cons_iff.mp h).resolve_left hne

/-- All around something that stays stays. -/
theorem mem_prune_of_suffix {q : List ν} (hmem : ∀ e, e <:+ q → e ∈ present) (hq : ¬ q <:+ d)
    (he : e <:+ q) : e ∈ prune present d := by
  induction d generalizing present with
  | nil => exact hmem e he
  | cons n d ih =>
    unfold prune
    split_ifs with hbare
    · refine ih (fun e he => ⟨hmem e he, fun heq => ?_⟩) fun hd => hq (hd.trans (List.suffix_cons n d))
      rw [heq] at he
      obtain ⟨m, hm⟩ := exists_child he fun hd => hq (hd ▸ List.suffix_rfl)
      exact hbare.2 m (hmem _ hm)
    · exact hmem e he

/-- A place is asked for, or has lost something that was in it. -/
def Due (kept asked present : Set (List ν)) (e : List ν) : Prop :=
  e ∈ asked ∨ ∃ n, n :: e ∈ kept ∧ n :: e ∉ present

/-- A bare place that is due still waits for its turn. -/
def Waits (kept asked waiting present : Set (List ν)) (e : List ν) : Prop :=
  e ≠ [] → e ∈ present → Bare present e → Due kept asked present e → e ∈ waiting

theorem prune_waits (h : ∀ e, e ≠ d → Waits kept asked waiting present e) (e : List ν) :
    Waits kept asked waiting (prune present d) e := by
  induction d generalizing present with
  | nil =>
    intro hne
    exact h e hne hne
  | cons n d ih =>
    unfold prune
    split_ifs with hbare
    · refine ih fun e he hne hmem hbare' hdue => ?_
      have hchild (m : ν) : m :: e ≠ n :: d := fun heq => he (List.cons.inj heq).2
      refine h e hmem.2 hne hmem.1 (fun m hm => hbare' m ⟨hm, hchild m⟩) ?_
      rcases hdue with hasked | ⟨m, hkept, hgone⟩
      · exact .inl hasked
      · exact .inr ⟨m, hkept, fun hm => hgone ⟨hm, hchild m⟩⟩
    · by_cases heq : e = n :: d
      · intro _ hmem hb _
        rw [heq] at hmem hb
        exact absurd ⟨hmem, hb⟩ hbare
      · exact h e heq

/-- Nothing has gone but what had to be removed and what withers. -/
structure Sound (start removed asked present : Set (List ν)) : Prop where
  subset : present ⊆ start
  gone : ∀ e ∈ start, e ∉ present → e ∈ removed ∨ Withers (start \ removed) asked e

variable {start removed : Set (List ν)}

theorem Sound.prune (h : Sound start removed asked present)
    (hd : ∀ e, e <:+ d → e ∈ start → e ∉ removed)
    (reached : d ∈ asked ∨ ∃ n, n :: d ∈ start \ removed) :
    Sound start removed asked (prune present d) := by
  induction d generalizing present with
  | nil => exact h
  | cons n d ih =>
    unfold Pruning.prune
    split_ifs with hbare
    · have hstart := h.subset hbare.1
      have hkept : n :: d ∈ start \ removed := ⟨hstart, hd _ List.suffix_rfl hstart⟩
      have hwithers : Withers (start \ removed) asked (n :: d) := by
        refine .intro (List.cons_ne_nil _ _) hkept reached fun m hm => ?_
        exact (h.gone (m :: n :: d) hm.1 (hbare.2 m)).resolve_left hm.2
      refine ih ⟨Set.sdiff_subset.trans h.subset, fun e he hgone => ?_⟩
        (fun e he => hd e (he.trans (List.suffix_cons _ _))) (.inr ⟨n, hkept⟩)
      by_cases heq : e = n :: d
      · rw [heq]
        exact .inr hwithers
      · exact h.gone e he fun hmem => hgone ⟨hmem, heq⟩
    · exact h

/-- Where nothing waits any more, all that withers has gone. -/
theorem Sound.eq (h : Sound start removed asked present)
    (waits : ∀ e, Waits (start \ removed) asked ∅ present e) (hremoved : ∀ e ∈ removed, e ∉ present) :
    present = {e ∈ start \ removed | ¬ Withers (start \ removed) asked e} := by
  have hgone : ∀ e, Withers (start \ removed) asked e → e ∉ present := by
    intro e hwithers
    induction hwithers with
    | @intro e inner hkept reached content ih =>
      intro hmem
      have hbare : Bare present e := by
        intro n hn
        exact ih n ⟨h.subset hn, fun hr => hremoved _ hr hn⟩ hn
      refine waits e inner hmem hbare ?_
      rcases reached with hasked | ⟨n, hn⟩
      · exact .inl hasked
      · exact .inr ⟨n, hn, hbare n⟩
  apply Set.ext
  intro e
  constructor
  · intro hmem
    exact ⟨⟨h.subset hmem, fun hr => hremoved e hr hmem⟩, fun hw => hgone e hw hmem⟩
  · rintro ⟨⟨hstart, hr⟩, hw⟩
    by_contra hmem
    rcases h.gone e hstart hmem with hgone | hgone
    · exact hr hgone
    · exact hw hgone

end Prune

section Runs

/-- The places around some others. -/
def around (ps : List (List ν)) : Set (List ν) := {d | ∃ p ∈ ps, p.tail = d}

def among (ps : List (List ν)) : Set (List ν) := {p | p ∈ ps}

/-- Removes all of some places, and then prunes around each. -/
noncomputable def pruneEach (present : Set (List ν)) (ps : List (List ν)) : Set (List ν) :=
  (ps.map List.tail).foldl prune (present \ among ps)

/-- A place that is inside of the one that waits takes its turn; any other lets that
be pruned first. -/
noncomputable def push (present : Set (List ν)) (leaf : List ν) : Option (List ν) → Set (List ν)
  | none => present
  | some last => open Classical in if last <:+ leaf then present else prune present last

/-- Removes some places one after another, and lets the place around each wait to be
pruned. -/
noncomputable def pruneQueued : Set (List ν) → Option (List ν) → List (List ν) → Set (List ν)
  | present, none, [] => present
  | present, some last, [] => prune present last
  | present, queue, p :: ps =>
    pruneQueued (push (present \ {p}) p.tail queue) (some p.tail) ps

/-- No bare place loses its turn for good. -/
def NoneLost : Set (List ν) → Option (List ν) → List (List ν) → Prop
  | _, _, [] => True
  | present, queue, p :: ps =>
    (∀ last, queue = some last → last ≠ [] → last <:+ p.tail → last ≠ p.tail →
      last ∈ present \ {p} → Bare (present \ {p}) last → last ∈ around ps) ∧
    NoneLost (push (present \ {p}) p.tail queue) (some p.tail) ps

variable {start present : Set (List ν)} {all ps : List (List ν)} {queue : Option (List ν)}
  {d e p : List ν}

/-- What is removed lies around nothing else that is: it can be taken away at once. -/
def Apart (start : Set (List ν)) (ps : List (List ν)) : Prop :=
  ∀ p ∈ ps, p ∈ start → ∀ q ∈ ps, ¬ p <:+ q.tail

/-- The places around `all` wither apart from all that is removed. -/
theorem Apart.not_removed (apart : Apart start all) (hd : d ∈ around all) (e : List ν)
    (he : e <:+ d) (hstart : e ∈ start) : e ∉ among all := by
  obtain ⟨q, hq, rfl⟩ := hd
  exact fun hmem => apart e hmem hstart q hq he

theorem sound_start (all : List (List ν)) :
    Sound start (among all) (around all) (start \ among all) := by
  refine ⟨Set.sdiff_subset, fun e he hgone => .inl ?_⟩
  by_contra hmem
  exact hgone ⟨he, hmem⟩

/-- All that withers is gone after each place has been pruned. -/
theorem pruneEach_eq (apart : Apart start all) : pruneEach start all =
    {e ∈ start \ among all | ¬ Withers (start \ among all) (around all) e} := by
  have hfold : ∀ (ds : List (List ν)) (present : Set (List ν)), (∀ d ∈ ds, d ∈ around all) →
      present ⊆ start \ among all → Sound start (among all) (around all) present →
      (∀ e, Waits (start \ among all) (around all) {d | d ∈ ds} present e) →
        ds.foldl prune present =
          {e ∈ start \ among all | ¬ Withers (start \ among all) (around all) e} := by
    intro ds
    induction ds with
    | nil =>
      intro present _ hsubset sound waits
      refine sound.eq (fun e => ?_) fun e hr hmem => (hsubset hmem).2 hr
      intro hne hmem hbare hdue
      exact absurd (waits e hne hmem hbare hdue) List.not_mem_nil
    | cons d ds ih =>
      intro present hds hsubset sound waits
      have hd := hds d List.mem_cons_self
      refine ih _ (fun d hd => hds d (List.mem_cons_of_mem _ hd)) (prune_subset.trans hsubset)
        (sound.prune (apart.not_removed hd) (.inl hd)) (prune_waits fun e hne => ?_)
      intro hinner hmem hbare hdue
      exact (List.mem_cons.mp (waits e hinner hmem hbare hdue)).resolve_left hne
  refine hfold _ _ (fun d hd => ?_) subset_rfl (sound_start all) fun e _ _ _ hdue => ?_
  · obtain ⟨p, hp, hd⟩ := List.mem_map.mp hd
    exact ⟨p, hp, hd⟩
  · rcases hdue with ⟨p, hp, hd⟩ | ⟨n, hkept, hgone⟩
    · exact List.mem_map.mpr ⟨p, hp, hd⟩
    · exact absurd hkept hgone

/-- A run that is under way: what is still to be removed is known, and what waits was
asked for. -/
structure Running (start : Set (List ν)) (all : List (List ν)) (present : Set (List ν))
    (queue : Option (List ν)) (ps : List (List ν)) : Prop where
  sound : Sound start (among all) (around all) present
  listed : ps ⊆ all
  removed : ∀ p ∈ all, p ∈ present → p ∈ ps
  asked : ∀ last, queue = some last → last ∈ around all

theorem Sound.remove (h : Sound start (among all) (around all) present) (hp : p ∈ all) :
    Sound start (among all) (around all) (present \ {p}) := by
  refine ⟨Set.sdiff_subset.trans h.subset, fun e he hgone => ?_⟩
  by_cases heq : e = p
  · exact .inl (heq ▸ hp)
  · exact h.gone e he fun hmem => hgone ⟨hmem, heq⟩

theorem push_subset : push present d queue ⊆ present := by
  cases queue with
  | none => exact subset_rfl
  | some last =>
    rw [push]
    split_ifs
    · exact subset_rfl
    · exact prune_subset

theorem Running.step (h : Running start all present queue (p :: ps)) (apart : Apart start all) :
    Running start all (push (present \ {p}) p.tail queue) (some p.tail) ps := by
  have hp : p ∈ all := h.listed List.mem_cons_self
  refine ⟨?_, fun q hq => h.listed (List.mem_cons_of_mem _ hq), fun q hq hmem => ?_, ?_⟩
  · cases queue with
    | none => exact h.sound.remove hp
    | some last =>
      have hlast := h.asked last rfl
      rw [push]
      split_ifs
      · exact h.sound.remove hp
      · exact (h.sound.remove hp).prune (apart.not_removed hlast) (.inl hlast)
  · have hmem' := push_subset hmem
    exact (List.mem_cons.mp (h.removed q hq hmem'.1)).resolve_left hmem'.2
  · rintro last ⟨⟩
    exact ⟨p, hp, rfl⟩

theorem Running.pruneQueued_sound (h : Running start all present queue ps) (apart : Apart start all) :
    Sound start (among all) (around all) (pruneQueued present queue ps) := by
  induction ps generalizing present queue with
  | nil =>
    cases queue with
    | none => exact h.sound
    | some last =>
      have hlast := h.asked last rfl
      exact h.sound.prune (apart.not_removed hlast) (.inl hlast)
  | cons p ps ih =>
    rw [pruneQueued]
    exact ih (h.step apart)

/-- The place that waits, and those that are still to come. -/
def turns (queue : Option (List ν)) (ps : List (List ν)) : Set (List ν) :=
  {d | queue = some d ∨ d ∈ around ps}

theorem Running.push_waits (h : Running start all present queue (p :: ps)) {kept : Set (List ν)}
    (hp : p ∉ kept)
    (noneLost : ∀ last, queue = some last → last ≠ [] → last <:+ p.tail → last ≠ p.tail →
      last ∈ present \ {p} → Bare (present \ {p}) last → last ∈ around ps)
    (waits : ∀ e, Waits kept (around all) (turns queue (p :: ps)) present e) (e : List ν) :
    Waits kept (around all) (turns (some p.tail) ps) (push (present \ {p}) p.tail queue) e := by
  have hremoved (e : List ν) (hne : e ≠ p.tail) (hqueue : queue ≠ some e) :
      Waits kept (around all) (turns (some p.tail) ps) (present \ {p}) e := by
    intro hinner hmem hbare hdue
    have hbare' : Bare present e := by
      intro n hn
      refine hbare n ⟨hn, fun heq => hne ?_⟩
      rw [← heq, List.tail_cons]
    have hdue' : Due kept (around all) present e := by
      rcases hdue with hasked | ⟨n, hkept, -⟩
      · exact .inl hasked
      · exact .inr ⟨n, hkept, hbare' n⟩
    rcases waits e hinner hmem.1 hbare' hdue' with hq | ⟨q, hq, hd⟩
    · exact absurd hq hqueue
    · rcases List.mem_cons.mp hq with rfl | hq
      · exact absurd hd.symm hne
      · exact .inr ⟨q, hq, hd⟩
  cases queue with
  | none =>
    by_cases hne : e = p.tail
    · exact fun _ _ _ _ => .inl (congrArg some hne.symm)
    · exact hremoved e hne nofun
  | some last =>
    rw [push]
    split_ifs with hinside
    · by_cases hne : e = p.tail
      · exact fun _ _ _ _ => .inl (congrArg some hne.symm)
      · by_cases hlast : e = last
        · intro hinner hmem hbare _
          rw [hlast] at hinner hmem hbare hne
          rw [hlast]
          exact .inr (noneLost last rfl hinner hinside hne hmem hbare)
        · exact hremoved e hne fun heq => hlast (Option.some.inj heq).symm
    · refine prune_waits (fun e hlast => ?_) e
      by_cases hne : e = p.tail
      · exact fun _ _ _ _ => .inl (congrArg some hne.symm)
      · exact hremoved e hne fun heq => hlast (Option.some.inj heq).symm

/-- Where no bare place loses its turn, none waits in the end. -/
theorem Running.pruneQueued_waits (h : Running start all present queue ps)
    (apart : Apart start all) (noneLost : NoneLost present queue ps)
    (waits : ∀ e, Waits (start \ among all) (around all) (turns queue ps) present e) (e : List ν) :
    Waits (start \ among all) (around all) ∅ (pruneQueued present queue ps) e := by
  induction ps generalizing present queue with
  | nil =>
    have hempty : ∀ d, d ∉ around ([] : List (List ν)) := by
      rintro d ⟨p, hp, -⟩
      exact List.not_mem_nil hp
    cases queue with
    | none =>
      intro hinner hmem hbare hdue
      exact absurd ((waits e hinner hmem hbare hdue).resolve_left nofun) (hempty e)
    | some last =>
      refine prune_waits (fun e hlast => ?_) e
      intro hinner hmem hbare hdue
      rcases waits e hinner hmem hbare hdue with hq | hmore
      · exact absurd (Option.some.inj hq).symm hlast
      · exact absurd hmore (hempty e)
  | cons p ps ih =>
    rw [pruneQueued]
    have hp : p ∉ start \ among all := fun hmem => hmem.2 (h.listed List.mem_cons_self)
    exact ih (h.step apart) noneLost.2 (h.push_waits hp noneLost.1 waits)

theorem Running.pruneQueued_removed (h : Running start all present queue ps) (apart : Apart start all)
    (q : List ν) (hq : q ∈ among all) : q ∉ pruneQueued present queue ps := by
  induction ps generalizing present queue with
  | nil =>
    have hgone : q ∉ present := fun hmem => List.not_mem_nil (h.removed q hq hmem)
    cases queue with
    | none => exact hgone
    | some last => exact fun hmem => hgone (prune_subset hmem)
  | cons p ps ih =>
    rw [pruneQueued]
    exact ih (h.step apart)

/-- A bare place that no turn is left for stays. -/
theorem mem_pruneQueued_of_bare (he : e ∈ present) (bare : Bare present e) (hqueue : queue ≠ some e)
    (hps : ∀ p ∈ ps, p ≠ e ∧ p.tail ≠ e) : e ∈ pruneQueued present queue ps := by
  induction ps generalizing present queue with
  | nil =>
    cases queue with
    | none => exact he
    | some last => exact mem_prune_of_bare he bare fun heq => hqueue (heq ▸ rfl)
  | cons p ps ih =>
    obtain ⟨hp, hps⟩ := List.forall_mem_cons.mp hps
    have hmem : e ∈ present \ {p} := ⟨he, hp.1.symm⟩
    have hbare : Bare (present \ {p}) e := fun n hn => bare n hn.1
    rw [pruneQueued]
    refine ih ?_ (fun n hn => hbare n (push_subset hn)) (fun heq => hp.2 (Option.some.inj heq)) hps
    cases queue with
    | none => exact hmem
    | some last =>
      rw [push]
      split_ifs
      · exact hmem
      · exact mem_prune_of_bare hmem hbare fun heq => hqueue (heq ▸ rfl)

/-- A bare place that loses its turn for good should have withered, and stays. -/
theorem Running.exists_lost (h : Running start all present queue ps) (apart : Apart start all)
    (lost : ¬ NoneLost present queue ps) :
    ∃ e, e ∈ pruneQueued present queue ps ∧ Withers (start \ among all) (around all) e := by
  induction ps generalizing present queue with
  | nil => exact absurd trivial lost
  | cons p ps ih =>
    rw [pruneQueued]
    by_cases hlater : NoneLost (push (present \ {p}) p.tail queue) (some p.tail) ps
    · have hnow : ¬ ∀ last, queue = some last → last ≠ [] → last <:+ p.tail → last ≠ p.tail →
          last ∈ present \ {p} → Bare (present \ {p}) last → last ∈ around ps :=
        fun hnow => lost ⟨hnow, hlater⟩
      push Not at hnow
      obtain ⟨last, rfl, hinner, hinside, hne, hmem, hbare, hlost⟩ := hnow
      have hasked := h.asked last rfl
      have hremoved := apart.not_removed hasked last List.suffix_rfl (h.sound.subset hmem.1)
      have hpush : push (present \ {p}) p.tail (some last) = present \ {p} := by
        rw [push, if_pos hinside]
      rw [hpush]
      refine ⟨last, ?_, ?_⟩
      · refine mem_pruneQueued_of_bare hmem hbare (fun heq => hne (Option.some.inj heq).symm) ?_
        intro q hq
        constructor
        · rintro rfl
          exact hremoved (h.listed (List.mem_cons_of_mem _ hq))
        · intro hd
          exact hlost ⟨q, hq, hd⟩
      · have hp : p ∈ all := h.listed List.mem_cons_self
        refine .intro hinner ⟨h.sound.subset hmem.1, hremoved⟩ (.inl hasked) fun n hn => ?_
        exact ((h.sound.remove hp).gone _ hn.1 (hbare n)).resolve_left hn.2
    · exact ih (h.step apart) hlater

theorem running_start (all : List (List ν)) : Running start all start none all :=
  ⟨⟨subset_rfl, fun _ he hgone => absurd he hgone⟩, List.Subset.refl _, fun _ hp _ => hp, nofun⟩

theorem pruneEach_sound (apart : Apart start all) :
    Sound start (among all) (around all) (pruneEach start all) := by
  rw [pruneEach_eq apart]
  refine ⟨fun e he => he.1.1, fun e he hgone => ?_⟩
  by_cases hremoved : e ∈ among all
  · exact .inl hremoved
  · refine .inr ?_
    by_contra hstays
    exact hgone ⟨⟨he, hremoved⟩, hstays⟩

theorem Apart.mono {ps qs : List (List ν)} (h : Apart start ps) (hpresent : present ⊆ start)
    (hps : qs ⊆ ps) : Apart present qs :=
  fun p hp hmem q hq => h p (hps hp) (hpresent hmem) q (hps hq)

/-- No place loses its turn where each path that is removed is there, and is removed once. -/
theorem noneLost_of_mem (hmem : ∀ p ∈ ps, ∀ e, e <:+ p → e ∈ present) (nodup : ps.Nodup)
    (apart : Apart present ps) (hqueue : ∀ last, queue = some last → ∀ p ∈ ps, ¬ p <:+ last) :
    NoneLost present queue ps := by
  induction ps generalizing present queue with
  | nil => trivial
  | cons p ps ih =>
    obtain ⟨hp, hnodup⟩ := List.nodup_cons.mp nodup
    have hpresent : p ∈ present := hmem p List.mem_cons_self p List.suffix_rfl
    have htail (q : List ν) (hq : q ∈ ps) (e : List ν) (he : e <:+ q) : e ∈ present \ {p} := by
      have hq' := List.mem_cons_of_mem p hq
      refine ⟨hmem q hq' e he, fun heq => ?_⟩
      rw [heq] at he
      have hpq : p ≠ q := fun hpq => hp (hpq ▸ hq)
      exact apart p List.mem_cons_self hpresent q hq' (suffix_tail he hpq)
    refine ⟨fun last _ _ hinside hne _ hbare => ?_, ih (fun q hq e he => ?_) hnodup ?_ ?_⟩
    · exfalso
      obtain ⟨n, hn⟩ := exists_child hinside hne
      refine hbare n ⟨hmem p List.mem_cons_self _ (hn.trans (List.tail_suffix p)), fun heq => ?_⟩
      have hlength := hn.length_le
      rw [Set.mem_singleton_iff.mp heq, List.length_tail] at hlength
      have hpos : 0 < p.length := by
        rw [← Set.mem_singleton_iff.mp heq]
        exact Nat.succ_pos _
      omega
    · cases queue with
      | none => exact htail q hq e he
      | some last =>
        rw [push]
        split_ifs
        · exact htail q hq e he
        · exact mem_prune_of_suffix (htail q hq) (hqueue last rfl q (List.mem_cons_of_mem p hq)) he
    · exact apart.mono (push_subset.trans Set.sdiff_subset) (List.subset_cons_self p ps)
    · rintro last ⟨⟩ q hq
      have hq' := List.mem_cons_of_mem p hq
      exact apart q hq' (hmem q hq' q List.suffix_rfl) p List.mem_cons_self

/-- A queue of one place does what pruning around each place does, just where no bare
place loses its turn. -/
theorem pruneQueued_eq_iff (apart : Apart start all) :
    pruneQueued start none all = pruneEach start all ↔ NoneLost start none all := by
  have hrunning : Running start all start none all := running_start all
  rw [pruneEach_eq apart]
  constructor
  · intro heq
    by_contra lost
    obtain ⟨e, hmem, hwithers⟩ := hrunning.exists_lost apart lost
    rw [heq] at hmem
    exact hmem.2 hwithers
  · intro noneLost
    refine (hrunning.pruneQueued_sound apart).eq ?_ (hrunning.pruneQueued_removed apart)
    refine hrunning.pruneQueued_waits apart noneLost fun e _ hmem hbare hdue => ?_
    rcases hdue with hasked | ⟨n, hkept, hgone⟩
    · exact .inr hasked
    · exact absurd hkept.1 hgone

end Runs

end Elfshaker.Library.Pruning
