import Mathlib.Data.List.Chain

namespace Elfshaker.Library.Substitution

variable {α β : Type}

section Replace

/-- Replaces each pair of neighbours that is a hit, from left to right. -/
def replacePairs (hit : α → α → Bool) (value : List α) : List α → List α
  | [] => []
  | [c] => [c]
  | c :: d :: rest =>
    if hit c d then value ++ replacePairs hit value rest
    else c :: replacePairs hit value (d :: rest)

variable {hit : α → α → Bool} {value : List α}

theorem replacePairs_map (f : α → β) (hit : β → β → Bool) (value text : List α) :
    (replacePairs (fun c d => hit (f c) (f d)) value text).map f =
      replacePairs hit (value.map f) (text.map f) := by
  induction text using replacePairs.induct fun c d => hit (f c) (f d) with
  | case1 => rfl
  | case2 c => rfl
  | case3 c d rest hhit ih => simp [replacePairs, hhit, ih]
  | case4 c d rest hhit ih =>
    rw [List.map_cons] at ih
    simp [replacePairs, hhit, ih]

/-- Nothing is replaced where nothing is a hit. -/
theorem replacePairs_of_isChain {text : List α} (h : text.IsChain fun c d => hit c d = false) :
    replacePairs hit value text = text := by
  induction text using replacePairs.induct hit with
  | case1 => rfl
  | case2 c => rfl
  | case3 c d rest hhit ih =>
    rw [List.isChain_cons_cons, hhit] at h
    cases h.1
  | case4 c d rest hhit ih =>
    rw [replacePairs, if_neg hhit, ih (List.isChain_cons_cons.mp h).2]

/-- Two texts can be replaced in apart where no hit goes across. -/
theorem replacePairs_append {front back : List α}
    (h : ∀ c ∈ front.getLast?, ∀ d ∈ back.head?, hit c d = false) :
    replacePairs hit value (front ++ back) =
      replacePairs hit value front ++ replacePairs hit value back := by
  induction front using replacePairs.induct hit with
  | case1 => rfl
  | case2 c =>
    cases back with
    | nil => rfl
    | cons d back =>
      have hhit := h c rfl d rfl
      simp [replacePairs, hhit]
  | case3 c d rest hhit ih =>
    have hrest : ∀ c ∈ rest.getLast?, ∀ d ∈ back.head?, hit c d = false := by
      intro c' hc'
      refine h c' ?_
      cases rest with
      | nil => cases hc'
      | cons e rest => rwa [List.getLast?_cons_cons, List.getLast?_cons_cons]
    simp [replacePairs, hhit, ih hrest]
  | case4 c d rest hhit ih =>
    rw [List.getLast?_cons_cons] at h
    have hback := ih h
    rw [List.cons_append] at hback
    simp [replacePairs, hhit, hback]

end Replace

section Marks

/-- A character of a text, with its position in the format if it comes from there. -/
abbrev Marked (α : Type) := α × Option Nat

variable {i : Nat}

def markedFrom (i : Nat) (format : List α) : List (Marked α) :=
  (format.zipIdx i).map fun c => (c.1, some c.2)

def inserted (value : List α) : List (Marked α) := value.map fun c => (c, none)

/-- The two are neighbours in the format. -/
def FromFormat (c d : Marked α) : Prop := ∃ i, c.2 = some i ∧ d.2 = some (i + 1)

/-- What looks like the field in a text is one of the format. -/
def ReadsFormat (mark letter : α) (text : List (Marked α)) : Prop :=
  text.IsChain fun c d => c.1 = mark → d.1 = letter → FromFormat c d

theorem markedFrom_map (format : List α) : (markedFrom i format).map Prod.fst = format := by
  simp [markedFrom, Function.comp_def]

theorem markedFrom_cons (c : α) (format : List α) :
    markedFrom i (c :: format) = (c, some i) :: markedFrom (i + 1) format := by
  simp [markedFrom]

theorem inserted_map (value : List α) : (inserted value).map Prod.fst = value := by
  simp [inserted, Function.comp_def]

theorem mark_inserted {value : List α} {c : Marked α} (h : c ∈ inserted value) : c.2 = none := by
  obtain ⟨d, -, rfl⟩ := List.mem_map.mp h
  rfl

/-- A text that is put in has to be free of the field. -/
theorem readsFormat_inserted {mark letter : α} {value : List α} :
    ReadsFormat mark letter (inserted value) ↔
      value.IsChain fun c d => ¬ (c = mark ∧ d = letter) := by
  rw [ReadsFormat, inserted, List.isChain_map]
  simp [FromFormat]

theorem readsFormat_append {mark letter : α} {front back : List (Marked α)}
    (h : ∀ x ∈ front.getLast?, ∀ y ∈ back.head?, x.1 = mark → y.1 = letter → ¬ FromFormat x y) :
    ReadsFormat mark letter (front ++ back) ↔
      ReadsFormat mark letter front ∧ ReadsFormat mark letter back ∧
        ∀ x ∈ front.getLast?, ∀ y ∈ back.head?, x.1 = mark → y.1 ≠ letter := by
  rw [ReadsFormat, List.isChain_append]
  refine and_congr_right' (and_congr_right' ?_)
  refine forall₄_congr fun x hx y hy => ?_
  constructor
  · intro hreads hx' hy'
    exact h x hx y hy hx' hy' (hreads hx' hy')
  · intro hne hx' hy'
    exact absurd hy' (hne hx')

theorem across_iff {mark letter : α} (front back : List (Marked α)) :
    (∀ x ∈ front.getLast?, ∀ y ∈ back.head?, x.1 = mark → y.1 ≠ letter) ↔
      ¬ ((front.map Prod.fst).getLast? = some mark ∧ (back.map Prod.fst).head? = some letter) := by
  rw [List.getLast?_map, List.head?_map]
  cases front.getLast? with
  | none => simp
  | some x =>
    cases back.head? with
    | none => simp
    | some y => simp

end Marks

section Texts

variable {mark letter : α}

/-- The first text that is not empty starts what they all make up. -/
theorem head?_flatten (texts : List (List α)) :
    texts.flatten.head? = (texts.filter fun text => !text.isEmpty).head?.bind List.head? := by
  induction texts with
  | nil => rfl
  | cons text texts ih =>
    cases text with
    | nil => simpa using ih
    | cons c text => simp

theorem texts_across_cons (text : List α) (texts : List (List α)) :
    (((text :: texts).filter fun text => !text.isEmpty).IsChain fun front back =>
        ¬ (front.getLast? = some mark ∧ back.head? = some letter)) ↔
      ¬ (text.getLast? = some mark ∧ texts.flatten.head? = some letter) ∧
        (texts.filter fun text => !text.isEmpty).IsChain fun front back =>
          ¬ (front.getLast? = some mark ∧ back.head? = some letter) := by
  cases text with
  | nil => simp
  | cons c text =>
    rw [List.filter_cons_of_pos (by simp), List.isChain_cons, head?_flatten]
    refine and_congr_left' ?_
    cases (texts.filter fun text => !text.isEmpty).head? with
    | none => simp
    | some back => simp

end Texts

variable [DecidableEq α]

/-- The fields of a format: letters, each with the text that it stands for. -/
abbrev Fields (α : Type) := List (α × List α)

def replaceField (mark : α) (field : α × List α) (text : List α) : List α :=
  replacePairs (fun c d => c = mark && d = field.1) field.2 text

/-- Replaces one field after another. -/
def replaceInTurn (mark : α) (fields : Fields α) (text : List α) : List α :=
  fields.foldl (fun text field => replaceField mark field text) text

/-- `replaceField`, where the characters keep their marks. -/
def markedReplace (mark : α) (field : α × List α) (text : List (Marked α)) : List (Marked α) :=
  replacePairs (fun c d => c.1 = mark && d.1 = field.1) (inserted field.2) text

section Format

/-- What a format consists of. -/
inductive Piece (α : Type) where
  | literal (c : α)
  | field (letter : α)

def pieces (mark : α) (letters : List α) : List α → List (Piece α)
  | [] => []
  | [c] => [.literal c]
  | c :: d :: rest =>
    if c = mark ∧ d ∈ letters then .field d :: pieces mark letters rest
    else .literal c :: pieces mark letters (d :: rest)

/-- What a piece stands for, a field that has no text for itself. -/
def Piece.text (mark : α) (fields : Fields α) : Piece α → List α
  | .literal c => [c]
  | .field letter => (fields.lookup letter).getD [mark, letter]

/-- The format with all its fields replaced at once. -/
def substitute (mark : α) (fields : Fields α) (format : List α) : List α :=
  (pieces mark (fields.map Prod.fst) format).flatMap (Piece.text mark fields)

end Format

/-- What is replaced is a field of the format each time. -/
def ReadsFormatInTurn (mark : α) : Fields α → List (Marked α) → Prop
  | [], _ => True
  | field :: rest, text =>
    ReadsFormat mark field.1 text ∧ ReadsFormatInTurn mark rest (markedReplace mark field text)

/-- A row is the format with its fields replaced at once, and no text that was put in
was taken for a field, alone or with what stands beside it. -/
structure Simultaneous (mark : α) (fields : Fields α) (format row : List α) : Prop where
  substituted : row = substitute mark fields format
  reads : ReadsFormatInTurn mark fields (markedFrom 0 format)

/-- A field does not show up where the fields before it have been replaced: neither inside
one of their texts nor across two pieces that have come together. -/
structure Apart (mark : α) (done : Fields α) (letter : α) (ps : List (Piece α)) : Prop where
  inside : ∀ k value, .field k ∈ ps → done.lookup k = some value →
    value.IsChain fun c d => ¬ (c = mark ∧ d = letter)
  across : ((ps.map (Piece.text mark done)).filter fun text => !text.isEmpty).IsChain
    fun front back => ¬ (front.getLast? = some mark ∧ back.head? = some letter)

/-- No field shows up in the format when the fields before it have been replaced. -/
def SpellsNone (mark : α) (fields : Fields α) (format : List α) : Prop :=
  ∀ done field rest, fields = done ++ field :: rest →
    Apart mark done field.1 (pieces mark (fields.map Prod.fst) format)

section Rendered

variable {mark letter : α} {done : Fields α} {letters : List α} {i : Nat}

/-- What stands for a field, with the marks of its characters. -/
def renderedField (mark : α) (done : Fields α) (i : Nat) (letter : α) : List (Marked α) :=
  (done.lookup letter).elim [(mark, some i), (letter, some (i + 1))] inserted

/-- The pieces of a format with the marks of their characters. -/
def rendered (mark : α) (done : Fields α) : Nat → List (Piece α) → List (Marked α)
  | _, [] => []
  | i, .literal c :: ps => (c, some i) :: rendered mark done (i + 1) ps
  | i, .field letter :: ps => renderedField mark done i letter ++ rendered mark done (i + 2) ps

theorem renderedField_map : (renderedField mark done i letter).map Prod.fst =
    (Piece.field letter).text mark done := by
  rw [renderedField, Piece.text]
  cases done.lookup letter with
  | none => rfl
  | some value => exact inserted_map value

theorem rendered_map (ps : List (Piece α)) :
    (rendered mark done i ps).map Prod.fst = ps.flatMap (Piece.text mark done) := by
  induction ps generalizing i with
  | nil => rfl
  | cons p ps ih =>
    cases p with
    | literal c => simp [rendered, Piece.text, ih]
    | field letter => rw [rendered, List.map_append, renderedField_map, ih, List.flatMap_cons]

/-- At first nothing is replaced. -/
theorem rendered_nil (format : List α) :
    rendered mark [] i (pieces mark letters format) = markedFrom i format := by
  induction format using pieces.induct mark letters generalizing i with
  | case1 => rfl
  | case2 c => rfl
  | case3 c d rest hfield ih =>
    rw [pieces, if_pos hfield, markedFrom_cons, markedFrom_cons, ← ih, hfield.1]
    rfl
  | case4 c d rest hfield ih =>
    rw [pieces, if_neg hfield, markedFrom_cons, ← ih]
    rfl

/-- A mark says which character of the format is marked. -/
theorem mark_rendered {format : List α} {c : Marked α} {j : Nat}
    (hc : c ∈ rendered mark done i (pieces mark letters format)) (hj : c.2 = some j) :
    i ≤ j ∧ format[j - i]? = some c.1 := by
  induction format using pieces.induct mark letters generalizing i with
  | case1 => cases hc
  | case2 d =>
    cases List.mem_singleton.mp hc
    cases hj
    simp
  | case3 d e rest hfield ih =>
    rw [pieces, if_pos hfield, rendered, List.mem_append] at hc
    rcases hc with hc | hc
    · unfold renderedField at hc
      cases hlookup : done.lookup e with
      | none =>
        rw [hlookup, Option.elim_none, List.mem_cons, List.mem_singleton] at hc
        rcases hc with rfl | rfl
        · cases hj
          simp [hfield.1]
        · cases hj
          simp
      | some value =>
        rw [hlookup, Option.elim_some] at hc
        rw [mark_inserted hc] at hj
        cases hj
    · obtain ⟨hle, hget⟩ := ih hc
      refine ⟨by omega, ?_⟩
      rw [show j - i = j - (i + 2) + 1 + 1 by omega, List.getElem?_cons_succ,
        List.getElem?_cons_succ, hget]
  | case4 d e rest hfield ih =>
    rw [pieces, if_neg hfield, rendered, List.mem_cons] at hc
    rcases hc with rfl | hc
    · cases hj
      simp
    · obtain ⟨hle, hget⟩ := ih hc
      refine ⟨by omega, ?_⟩
      rw [show j - i = j - (i + 1) + 1 by omega, List.getElem?_cons_succ, hget]

/-- What a literal is followed by in the format is what comes next there. -/
theorem fromFormat_next {c d : α} {rest : List α} {y : Marked α}
    (hy : y ∈ rendered mark done (i + 1) (pieces mark letters (d :: rest)))
    (h : FromFormat (c, some i) y) : y.1 = d := by
  obtain ⟨j, hi, hj⟩ := h
  cases hi
  obtain ⟨-, hget⟩ := mark_rendered hy hj
  simpa using hget.symm

/-- No two characters on both sides of the end of a field are neighbours in the format
with the field that comes next. -/
theorem not_fromFormat_field (hmark : mark ∉ letters) (hletter : letter ∈ letters)
    {x y : Marked α} (hx : x ∈ (renderedField mark done i letter).getLast?) (h : x.1 = mark) :
    ¬ FromFormat x y := by
  intro hfrom
  unfold renderedField at hx
  cases hlookup : done.lookup letter with
  | none =>
    rw [hlookup] at hx
    cases hx
    exact hmark (h ▸ hletter)
  | some value =>
    rw [hlookup, Option.elim_some] at hx
    obtain ⟨j, hj, -⟩ := hfrom
    rw [mark_inserted (List.mem_of_mem_getLast? hx)] at hj
    cases hj

/-- A literal that starts no field does not make one with what comes next. -/
theorem not_fromFormat_literal (hletter : letter ∈ letters) {c d : α} {rest : List α}
    (hfield : ¬ (c = mark ∧ d ∈ letters)) {y : Marked α}
    (hy : y ∈ rendered mark done (i + 1) (pieces mark letters (d :: rest))) (hc : c = mark)
    (h : y.1 = letter) : ¬ FromFormat (c, some i) y := by
  intro hfrom
  have hnext := fromFormat_next hy hfrom
  exact hfield ⟨hc, hnext ▸ h ▸ hletter⟩

end Rendered

section Pass

variable {mark letter : α} {value : List α} {done : Fields α} {letters : List α} {i : Nat}

theorem markedReplace_append {front back : List (Marked α)}
    (h : ∀ x ∈ front.getLast?, ∀ y ∈ back.head?, x.1 = mark → y.1 ≠ letter) :
    markedReplace mark (letter, value) (front ++ back) =
      markedReplace mark (letter, value) front ++ markedReplace mark (letter, value) back := by
  refine replacePairs_append fun x hx y hy => ?_
  simpa using h x hx y hy

theorem readsFormat_field (hmark : mark ∉ letters) {k : α} (hk : k ∈ letters)
    (back : List (Marked α)) :
    ReadsFormat mark letter (renderedField mark done i k ++ back) ↔
      ReadsFormat mark letter (renderedField mark done i k) ∧ ReadsFormat mark letter back ∧
        ∀ x ∈ (renderedField mark done i k).getLast?, ∀ y ∈ back.head?,
          x.1 = mark → y.1 ≠ letter :=
  readsFormat_append fun _ hx _ _ hx' _ => not_fromFormat_field hmark hk hx hx'

theorem readsFormat_literal (hletter : letter ∈ letters) {c d : α} {rest : List α}
    (hfield : ¬ (c = mark ∧ d ∈ letters)) :
    ReadsFormat mark letter ([(c, some i)] ++
        rendered mark done (i + 1) (pieces mark letters (d :: rest))) ↔
      ReadsFormat mark letter [(c, some i)] ∧
        ReadsFormat mark letter (rendered mark done (i + 1) (pieces mark letters (d :: rest))) ∧
        ∀ x ∈ [(c, some i)].getLast?,
          ∀ y ∈ (rendered mark done (i + 1) (pieces mark letters (d :: rest))).head?,
            x.1 = mark → y.1 ≠ letter := by
  refine readsFormat_append fun x hx y hy hx' hy' => ?_
  cases hx
  exact not_fromFormat_literal hletter hfield (List.mem_of_mem_head? hy) hx' hy'

theorem markedReplace_field {k : α} (hdone : done.lookup letter = none)
    (h : ReadsFormat mark letter (renderedField mark done i k)) :
    markedReplace mark (letter, value) (renderedField mark done i k) =
      renderedField mark (done ++ [(letter, value)]) i k := by
  unfold renderedField at h ⊢
  rw [List.lookup_append]
  cases hlookup : done.lookup k with
  | none =>
    by_cases hletter : k = letter
    · subst hletter
      simp [markedReplace, replacePairs]
    · have hnone : [(letter, value)].lookup k = none := by simp [hletter]
      simp [markedReplace, replacePairs, hletter, hnone]
  | some w =>
    rw [hlookup, Option.elim_some, readsFormat_inserted] at h
    refine replacePairs_of_isChain ?_
    rw [Option.elim_some, inserted, List.isChain_map]
    exact h.imp fun c d hne => by simpa using hne

/-- Where a pass takes nothing but fields of the format for its own, it replaces these. -/
theorem markedReplace_rendered (format value : List α) (hmark : mark ∉ letters)
    (hletter : letter ∈ letters) (hdone : done.lookup letter = none)
    (h : ReadsFormat mark letter (rendered mark done i (pieces mark letters format))) :
    markedReplace mark (letter, value) (rendered mark done i (pieces mark letters format)) =
      rendered mark (done ++ [(letter, value)]) i (pieces mark letters format) := by
  induction format using pieces.induct mark letters generalizing i with
  | case1 => rfl
  | case2 c => rfl
  | case3 c d rest hfield ih =>
    rw [pieces, if_pos hfield, rendered] at h ⊢
    obtain ⟨hblock, hrest, hacross⟩ := (readsFormat_field hmark hfield.2 _).mp h
    rw [markedReplace_append hacross, markedReplace_field hdone hblock, ih hrest, rendered]
  | case4 c d rest hfield ih =>
    rw [pieces, if_neg hfield, rendered] at h ⊢
    obtain ⟨-, hrest, hacross⟩ := (readsFormat_literal hletter hfield).mp h
    have hsplit : markedReplace mark (letter, value) ([(c, some i)] ++ _) = _ :=
      markedReplace_append hacross
    rw [ih hrest] at hsplit
    exact hsplit

theorem apart_nil : Apart mark done letter [] :=
  ⟨by simp, .nil⟩

/-- What comes before the other pieces has to be free of the field, and must not make one
with what they start with. -/
theorem apart_cons {p : Piece α} {ps : List (Piece α)} : Apart mark done letter (p :: ps) ↔
    (∀ k value, p = .field k → done.lookup k = some value →
      value.IsChain fun c d => ¬ (c = mark ∧ d = letter)) ∧
    ¬ ((p.text mark done).getLast? = some mark ∧
      (ps.flatMap (Piece.text mark done)).head? = some letter) ∧
    Apart mark done letter ps := by
  have hacross : (((p :: ps).map (Piece.text mark done)).filter fun text => !text.isEmpty).IsChain
      (fun front back => ¬ (front.getLast? = some mark ∧ back.head? = some letter)) ↔ _ :=
    texts_across_cons (p.text mark done) (ps.map (Piece.text mark done))
  rw [List.flatMap_def]
  constructor
  · intro h
    obtain ⟨hp, hps⟩ := hacross.mp h.across
    refine ⟨fun k value hk => h.inside k value (hk ▸ List.mem_cons_self), hp, ?_, hps⟩
    intro k value hk
    exact h.inside k value (List.mem_cons_of_mem p hk)
  · intro ⟨hinside, hp, hps⟩
    refine ⟨fun k value hk => ?_, hacross.mpr ⟨hp, hps.across⟩⟩
    rcases List.mem_cons.mp hk with heq | hk
    · exact hinside k value heq.symm
    · exact hps.inside k value hk

theorem readsFormat_renderedField {k : α} :
    ReadsFormat mark letter (renderedField mark done i k) ↔
      ∀ k' value, Piece.field k = .field k' → done.lookup k' = some value →
        value.IsChain fun c d => ¬ (c = mark ∧ d = letter) := by
  unfold renderedField
  cases hlookup : done.lookup k with
  | none =>
    refine iff_of_true ?_ ?_
    · refine List.isChain_pair.mpr fun _ _ => ⟨i, rfl, rfl⟩
    · intro k' value hk hvalue
      cases hk
      rw [hlookup] at hvalue
      cases hvalue
  | some value =>
    rw [Option.elim_some, readsFormat_inserted]
    constructor
    · intro h k' value' hk hvalue
      cases hk
      rw [hlookup] at hvalue
      cases hvalue
      exact h
    · intro h
      exact h k value rfl hlookup

/-- The pass that comes next takes nothing but fields of the format for its own exactly where
nothing else looks like one. -/
theorem readsFormat_rendered_iff {format : List α} (hmark : mark ∉ letters)
    (hletter : letter ∈ letters) :
    ReadsFormat mark letter (rendered mark done i (pieces mark letters format)) ↔
      Apart mark done letter (pieces mark letters format) := by
  induction format using pieces.induct mark letters generalizing i with
  | case1 => exact iff_of_true .nil apart_nil
  | case2 c =>
    refine iff_of_true (.singleton _) (apart_cons.mpr ⟨nofun, ?_, apart_nil⟩)
    simp
  | case3 c d rest hfield ih =>
    rw [pieces, if_pos hfield, rendered, readsFormat_field hmark hfield.2, ih, apart_cons,
      readsFormat_renderedField, across_iff, renderedField_map, rendered_map]
    exact and_congr_right' and_comm
  | case4 c d rest hfield ih =>
    rw [pieces, if_neg hfield, rendered, apart_cons]
    refine (readsFormat_literal hletter hfield).trans ?_
    rw [ih, across_iff, rendered_map]
    have hsingle : ReadsFormat mark letter [(c, some i)] := .singleton _
    exact and_congr (iff_of_true hsingle nofun) and_comm

end Pass

section Run

variable {mark : α} {fields done rest : Fields α} {format : List α}

/-- The marks follow what is replaced. -/
theorem replaceInTurn_map (fields : Fields α) (text : List (Marked α)) :
    (fields.foldl (fun text field => markedReplace mark field text) text).map Prod.fst =
      replaceInTurn mark fields (text.map Prod.fst) := by
  induction fields generalizing text with
  | nil => rfl
  | cons field rest ih =>
    have hfield : (markedReplace mark field text).map Prod.fst =
        replaceField mark field (text.map Prod.fst) := by
      have hmap := replacePairs_map Prod.fst (fun c d => c = mark && d = field.1)
        (inserted field.2) text
      rwa [inserted_map] at hmap
    rw [List.foldl_cons, ih, hfield]
    rfl

theorem forall_split_cons {P : List β → β → Prop} {b : β} {bs : List β} :
    (∀ before x after, b :: bs = before ++ x :: after → P before x) ↔
      P [] b ∧ ∀ before x after, bs = before ++ x :: after → P (b :: before) x := by
  constructor
  · intro h
    refine ⟨h [] b bs rfl, fun before x after hbs => ?_⟩
    exact h (b :: before) x after (congrArg (List.cons b) hbs)
  · intro ⟨hb, hbs⟩ before x after h
    cases before with
    | nil =>
      cases h
      exact hb
    | cons c before =>
      obtain ⟨rfl, hrest⟩ := List.cons.inj h
      exact hbs before x after hrest

/-- After the fields that are done, the passes for the rest read the format exactly where
none of these shows up, and then all are replaced. -/
theorem passes_iff (format : List α) (hmark : mark ∉ fields.map Prod.fst)
    (nodup : (fields.map Prod.fst).Nodup) (hsplit : fields = done ++ rest) :
    (ReadsFormatInTurn mark rest
        (rendered mark done 0 (pieces mark (fields.map Prod.fst) format)) ↔
      ∀ mid field after, rest = mid ++ field :: after →
        Apart mark (done ++ mid) field.1 (pieces mark (fields.map Prod.fst) format)) ∧
    (ReadsFormatInTurn mark rest
        (rendered mark done 0 (pieces mark (fields.map Prod.fst) format)) →
      rest.foldl (fun text field => markedReplace mark field text)
          (rendered mark done 0 (pieces mark (fields.map Prod.fst) format)) =
        rendered mark fields 0 (pieces mark (fields.map Prod.fst) format)) := by
  induction rest generalizing done with
  | nil =>
    rw [List.append_nil] at hsplit
    subst hsplit
    exact ⟨iff_of_true trivial (by simp), fun _ => rfl⟩
  | cons field rest ih =>
    have hletter : field.1 ∈ fields.map Prod.fst := by simp [hsplit]
    have hdone : done.lookup field.1 = none := by
      rw [List.lookup_eq_none_iff]
      intro other hother
      rw [hsplit, List.map_append, List.map_cons, List.nodup_append] at nodup
      simpa using (nodup.2.2 other.1 (List.mem_map_of_mem hother) field.1 List.mem_cons_self).symm
    have hnext : fields = (done ++ [field]) ++ rest := by simp [hsplit]
    obtain ⟨hiff, hall⟩ := ih hnext
    rw [ReadsFormatInTurn, forall_split_cons, List.append_nil]
    have hpass := markedReplace_rendered (i := 0) format field.2 hmark hletter hdone
    constructor
    · rw [readsFormat_rendered_iff hmark hletter]
      refine and_congr_right fun hfield => ?_
      rw [hpass ((readsFormat_rendered_iff hmark hletter).mpr hfield), hiff]
      simp
    · intro ⟨hfield, hrest⟩
      rw [hpass hfield] at hrest
      rw [List.foldl_cons, hpass hfield, hall hrest]

/-- Replacing the fields in turn is replacing them at once exactly where none shows up
outside of the format. -/
theorem simultaneous_iff (hmark : mark ∉ fields.map Prod.fst)
    (nodup : (fields.map Prod.fst).Nodup) :
    Simultaneous mark fields format (replaceInTurn mark fields format) ↔
      SpellsNone mark fields format := by
  have hstart : rendered mark [] 0 (pieces mark (fields.map Prod.fst) format) =
      markedFrom 0 format := rendered_nil format
  obtain ⟨hiff, hall⟩ := passes_iff format hmark nodup (List.nil_append fields).symm
  rw [hstart] at hiff hall
  constructor
  · intro h
    exact hiff.mp h.reads
  · intro h
    have hreads := hiff.mpr h
    refine ⟨?_, hreads⟩
    have hrow := congrArg (List.map Prod.fst) (hall hreads)
    rwa [replaceInTurn_map, markedFrom_map, rendered_map] at hrow

end Run

end Elfshaker.Library.Substitution
