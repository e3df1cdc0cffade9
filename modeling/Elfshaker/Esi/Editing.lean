import Elfshaker.Esi.Valid

namespace Elfshaker.Esi

open Elfshaker.Library Elfshaker.Library.Lines

variable {Url : Type} {crate : UrlCrate Url} {version : MetaVersion}

/-- The place of the first element with a property. -/
theorem findIdx?_split {α : Type} {p : α → Bool} {xs : List α} {i : Nat}
    (h : xs.findIdx? p = some i) :
    ∃ front x rest, xs = front ++ x :: rest ∧ i = front.length ∧ p x = true := by
  obtain ⟨hi, hp, -⟩ := List.findIdx?_eq_some_iff_getElem.mp h
  refine ⟨xs.take i, xs[i], xs.drop (i + 1), ?_, ?_, hp⟩
  · rw [← List.drop_eq_getElem_cons hi, List.take_append_drop]
  · rw [List.length_take, Nat.min_eq_left (Nat.le_of_lt hi)]

theorem modify_length_append {α : Type} (f : α → α) (front : List α) (x : α) (rest : List α) :
    (front ++ x :: rest).modify front.length f = front ++ f x :: rest := by
  induction front with
  | nil => rfl
  | cons first front ih => rw [List.cons_append, List.length_cons, List.modify_succ_cons, ih]; rfl

namespace Document

/-- The documents there are: those that are made or parsed, and what calls make of them. -/
inductive Reached (crate : UrlCrate Url) : Document → Prop where
  | create {version : MetaVersion} {url : String} {document : Document}
    (h : create crate version url = .ok document) : Reached crate document
  | parse {bytes : List UInt8} {document : Document}
    (h : parse crate bytes = .ok document) : Reached crate document
  | add {entry : Entry} {force : Bool} {document document' : Document} {result}
    (hdocument : Reached crate document)
    (h : add crate entry force document = (result, document')) : Reached crate document'
  | remove {url : String} {force : Bool} {document document' : Document} {result}
    (hdocument : Reached crate document)
    (h : remove url force document = (result, document')) : Reached crate document'

variable {document document' : Document} {bytes content canonical : List UInt8} {url : String}
  {entry : Entry} {force : Bool} {result : Exec FormatError Unit}

/-- An entry that may stand in a document, and its line there. -/
structure Addable (crate : UrlCrate Url) (document : Document) (entry : Entry)
    (canonical : List UInt8) : Prop where
  resolves : ∃ baseUrl, validateIndexUrl crate document.url = .ok baseUrl ∧
    (crate.join baseUrl entry.url).isSome
  line : entry.canonicalLine document.version = .ok canonical

/-- A line in a document has other content, and the end it had. -/
structure Replaced (document : Document) (entry : Entry) (canonical : List UInt8)
    (document' : Document) : Prop where
  lines : ∃ front line rest, document.lines = front ++ line :: rest ∧
    line.isEntry entry.url = true ∧
    document'.lines = front ++ ⟨⟨canonical, line.ending⟩, .entry entry⟩ :: rest
  version : document'.version = document.version
  url : document'.url = document.url

/-- A line of a document is gone. -/
structure Removed (document : Document) (url : String) (document' : Document) : Prop where
  lines : ∃ front line rest, document.lines = front ++ line :: rest ∧
    line.isEntry url = true ∧ document'.lines = front ++ rest
  version : document'.version = document.version
  url : document'.url = document.url

theorem findIdx?_none (h : document.lines.findIdx? (Line.isEntry url) = none) :
    url ∉ urlsOn document.lines := by
  rw [mem_urlsOn]
  rintro ⟨line, hline, hentry⟩
  rw [List.findIdx?_eq_none_iff.mp h line hline] at hentry
  cases hentry

/-- What an addition that succeeds does. -/
theorem add_ok (h : add crate entry force document = (.ok (), document')) :
    ∃ canonical, Addable crate document entry canonical ∧
      (force = true ∧ Replaced document entry canonical document' ∨
        entry.url ∉ urlsOn document.lines ∧ document' = document.push canonical entry) := by
  simp only [add, Effect.bind_eq_ok, Effect.asks_eq_ok, Effect.lift_eq_ok, Exec.okOr_eq_ok] at h
  obtain ⟨_, _, ⟨hdocument, rfl⟩, _, _, ⟨-, rfl⟩, baseUrl, _, ⟨hbase, rfl⟩, joined, _,
    ⟨hjoin, rfl⟩, canonical, _, ⟨hline, rfl⟩, h⟩ := h
  cases hdocument
  refine ⟨canonical, ⟨⟨baseUrl, hbase, Option.isSome_iff_exists.mpr ⟨joined, hjoin⟩⟩, hline⟩, ?_⟩
  cases hindex : document.lines.findIdx? (Line.isEntry entry.url) with
  | some index =>
    simp only [hindex] at h
    split_ifs at h with hforce
    · cases h
    · obtain ⟨front, line, rest, hlines, rfl, hentry⟩ := findIdx?_split hindex
      cases h
      refine .inl ⟨by simpa using hforce, ⟨⟨front, line, rest, hlines, hentry, ?_⟩, rfl, rfl⟩⟩
      dsimp only
      rw [hlines, modify_length_append]
  | none =>
    simp only [hindex] at h
    cases h
    exact .inr ⟨findIdx?_none hindex, rfl⟩

/-- What a removal that succeeds does. -/
theorem remove_ok (h : remove url force document = (.ok (), document')) :
    Removed document url document' ∨
      url ∉ urlsOn document.lines ∧ force = true ∧ document' = document := by
  simp only [remove, Effect.bind_eq_ok, Effect.asks_eq_ok] at h
  obtain ⟨_, _, ⟨hdocument, rfl⟩, h⟩ := h
  cases hdocument
  cases hindex : document.lines.findIdx? (Line.isEntry url) with
  | some index =>
    simp only [hindex] at h
    obtain ⟨front, line, rest, hlines, rfl, hentry⟩ := findIdx?_split hindex
    cases h
    refine .inl ⟨⟨front, line, rest, hlines, hentry, ?_⟩, rfl, rfl⟩
    dsimp only
    rw [hlines, List.eraseIdx_append_of_length_le (Nat.le_refl _), Nat.sub_self,
      List.eraseIdx_cons_zero]
  | none =>
    simp only [hindex] at h
    split_ifs at h with hforce
    · cases h
      exact .inr ⟨findIdx?_none hindex, hforce, rfl⟩
    · cases h

/-- A call that fails before it has changed the document. -/
abbrev Untouched (document : Document) (x : Effect Document FormatError α) : Prop :=
  Effect.Triple (· = document) x (fun _ _ => True) (· = document)

theorem untouched_bind {x : Effect Document FormatError α} {f : α → Effect Document FormatError β}
    (hx : Effect.Keeps (· = document) x) (hf : ∀ a, Untouched document (f a)) :
    Untouched document (x >>= f) :=
  .bind hx hf

theorem untouched_lift (x : Exec FormatError α) : Untouched document (Effect.lift x) :=
  (Effect.Keeps.lift x).weaken (fun _ hs => hs) (fun _ _ _ => trivial) fun _ hs => hs

theorem untouched_modify (f : Document → Document) : Untouched document (Effect.modify f) :=
  .of_run fun _ _ => trivial

/-- An addition that fails changes nothing. -/
theorem add_error {e : Failure FormatError}
    (h : add crate entry force document = (.error e, document')) : document' = document := by
  have huntouched : Untouched document (add crate entry force) := by
    refine untouched_bind (.asks _) fun d => untouched_bind (.lift _) fun _ =>
      untouched_bind (.lift _) fun _ => untouched_bind (.lift _) fun _ =>
      untouched_bind (.lift _) fun _ => ?_
    split
    · split_ifs
      · exact untouched_lift _
      · exact untouched_modify _
    · exact untouched_modify _
  exact huntouched.error rfl h

theorem remove_error {e : Failure FormatError}
    (h : remove url force document = (.error e, document')) : document' = document := by
  have huntouched : Untouched document (remove url force) := by
    refine untouched_bind (.asks _) fun d => ?_
    split
    · exact untouched_modify _
    · split_ifs
      · exact .pure fun _ _ => trivial
      · exact untouched_lift _
  exact huntouched.error rfl h

theorem urlsOn_isEntry {line : Line} {lines : List Line} (h : line.isEntry url = true) :
    urlsOn (line :: lines) = url :: urlsOn lines := by
  obtain ⟨raw, kind⟩ := line
  obtain ⟨entry, hkind, rfl⟩ := isEntry_eq_true.mp h
  cases hkind
  rfl

/-- An entry is found behind the headers. -/
theorem after_headers {header urlHeader : RawLine} {line : Line} {lines front rest : List Line}
    (h : ⟨header, .metaLine⟩ :: ⟨urlHeader, .urlLine⟩ :: lines = front ++ line :: rest)
    (hline : line.isEntry url = true) : ∃ front',
      front = ⟨header, .metaLine⟩ :: ⟨urlHeader, .urlLine⟩ :: front' ∧
        lines = front' ++ line :: rest := by
  cases front with
  | nil =>
    cases h
    cases hline
  | cons first front =>
    cases front with
    | nil =>
      cases h
      cases hline
    | cons second front =>
      cases h
      exact ⟨front, rfl, rfl⟩

theorem canonicalLine_ne_nil (h : entry.canonicalLine version = .ok canonical) :
    canonical ≠ [] := by
  rintro rfl
  obtain ⟨-, hblank, -⟩ := canonicalLine_reads h
  cases hblank

/-- The line of an entry that may stand in a document is read as this entry. -/
theorem Addable.parsed (h : document.Addable crate entry canonical) {baseUrl : Url}
    (hbase : validateIndexUrl crate document.url = .ok baseUrl) (ending : List UInt8) :
    (Line.stored document.version ⟨⟨canonical, ending⟩, .entry entry⟩).Parsed crate
      document.version baseUrl := by
  obtain ⟨base, hbase', hjoin⟩ := h.resolves
  cases hbase.symm.trans hbase'
  exact .entry (canonicalLine_reads h.line).2.1 fun _ => parseEntry_canonicalLine h.line hjoin

/-- A document in which other lines stand for that of an entry. -/
theorem Valid.change (h : document.Valid crate) {front rest : List Line} {line : Line}
    (new : List Line) (hold : document.lines = front ++ line :: rest) (hentry : line.isEntry url = true)
    (hnew : document'.lines = front ++ (new ++ rest)) (hversion : document'.version = document.version)
    (hurl' : document'.url = document.url)
    (hseparated : Separated (document'.lines.map Line.toRawLine))
    (hparsed' : ∀ baseUrl, validateIndexUrl crate document.url = .ok baseUrl → ∀ other ∈ new,
      (other.stored document.version).Parsed crate document.version baseUrl)
    (hdistinct : (urlsOn document'.lines).Nodup) : document'.Valid crate := by
  obtain ⟨header, urlHeader, lines, baseUrl, hlines, hmeta, hurl, hbase, hparsed⟩ := h.shape
  obtain ⟨front', rfl, rfl⟩ := after_headers (hlines.symm.trans hold) hentry
  rw [← hversion] at hmeta hparsed hparsed'
  rw [← hurl'] at hurl hbase hparsed'
  refine ⟨hseparated, ⟨header, urlHeader, front' ++ (new ++ rest), baseUrl, hnew, hmeta, hurl, hbase,
    fun other hother => ?_⟩, hdistinct⟩
  rcases List.mem_append.mp hother with hother | hother
  · exact hparsed other (List.mem_append_left _ hother)
  · rcases List.mem_append.mp hother with hother | hother
    · exact hparsed' baseUrl hbase other hother
    · exact hparsed other (List.mem_append_right _ (List.mem_cons_of_mem _ hother))

theorem Replaced.valid (h : document.Valid crate) (hadd : document.Addable crate entry canonical)
    (hreplaced : document.Replaced entry canonical document') : document'.Valid crate := by
  obtain ⟨⟨front, line, rest, hold, hentry, hnew⟩, hversion, hurl⟩ := hreplaced
  refine h.change [_] hold hentry hnew hversion hurl ?_ ?_ ?_
  · have hseparated := h.separated
    rw [hold, List.map_append, List.map_cons] at hseparated
    rw [hnew, List.map_append, List.map_cons]
    exact hseparated.replace (canonicalLine_ne_nil hadd.line)
  · intro baseUrl hbase other hother
    rw [List.mem_singleton.mp hother]
    exact hadd.parsed hbase _
  · have hdistinct := h.distinct
    rw [hold, urlsOn_append, urlsOn_isEntry hentry] at hdistinct
    rwa [hnew, urlsOn_append, urlsOn_entry]

theorem Removed.valid (h : document.Valid crate) (hremoved : document.Removed url document') :
    document'.Valid crate := by
  obtain ⟨⟨front, line, rest, hold, hentry, hnew⟩, hversion, hurl⟩ := hremoved
  refine h.change [] hold hentry hnew hversion hurl ?_ (fun _ _ => nofun) ?_
  · have hseparated := h.separated
    rw [hold, List.map_append, List.map_cons] at hseparated
    rw [hnew, List.map_append]
    exact hseparated.remove
  · have hdistinct := h.distinct
    rw [hold, urlsOn_append, urlsOn_isEntry hentry] at hdistinct
    rw [hnew, urlsOn_append]
    exact hdistinct.sublist ((List.sublist_cons_self _ _).append_left _)

/-- The end of a line that is added is one that there is, or a line feed. -/
theorem preferred_terminated (h : Separated (document.lines.map Line.toRawLine))
    (content : List UInt8) : RawLine.Terminated ⟨content, document.preferredLineEnding⟩ := by
  unfold preferredLineEnding
  cases hfind : document.lines.findSome? fun line =>
      if line.ending = [] then none else some line.ending with
  | none => exact .inl rfl
  | some ending =>
    obtain ⟨line, hline, hending⟩ := List.exists_of_findSome?_eq_some hfind
    split_ifs at hending with hempty
    cases hending
    have hterminated : line.toRawLine.Terminated := h.terminated (List.mem_map_of_mem hline) hempty
    exact hterminated

/-- Where the new line comes, and what it does to the last one. -/
theorem push_eq (canonical : List UInt8) (entry : Entry) (hne : document.lines ≠ []) :
    ∃ front last, document.lines = front ++ [last] ∧
      (last.ending ≠ [] ∧ document.push canonical entry = { document with
          lines := front ++ [last] ++
            [⟨⟨canonical, document.preferredLineEnding⟩, .entry entry⟩] } ∨
        last.ending = [] ∧ document.push canonical entry = { document with
          lines := front ++ [⟨⟨last.content, document.preferredLineEnding⟩, last.kind⟩] ++
            [⟨⟨canonical, []⟩, .entry entry⟩] }) := by
  obtain ⟨front, last, hlines⟩ := List.eq_nil_or_concat document.lines |>.resolve_left hne
  rw [List.concat_eq_append] at hlines
  refine ⟨front, last, hlines, ?_⟩
  have hended : document.endedWithNewline = !last.ending.isEmpty := by
    rw [endedWithNewline, hlines, List.getLast?_concat]
    rfl
  unfold push
  by_cases hending : last.ending = []
  · right
    refine ⟨hending, ?_⟩
    simp [hended, hending, terminated, hlines]
  · left
    refine ⟨hending, ?_⟩
    simp [hended, hending, hlines]

/-- A document with an entry after the last line, which has an end. -/
theorem Valid.concat (h : document.Valid crate) (hadd : document.Addable crate entry canonical)
    (hnew : entry.url ∉ urlsOn document.lines) {front : List Line} {last : Line}
    (hlines : document.lines = front ++ [last]) (hlast : last.ending ≠ []) {ending : List UInt8}
    (hending : Separated [⟨canonical, ending⟩]) :
    Valid crate { document with
      lines := document.lines ++ [⟨⟨canonical, ending⟩, .entry entry⟩] } := by
  obtain ⟨header, urlHeader, lines, baseUrl, hshape, hmeta, hurl, hbase, hparsed⟩ := h.shape
  refine ⟨?_, ⟨header, urlHeader, lines ++ [⟨⟨canonical, ending⟩, .entry entry⟩], baseUrl, ?_,
    hmeta, hurl, hbase, fun other hother => ?_⟩, ?_⟩
  · have hseparated := h.separated
    dsimp only
    rw [hlines, List.map_append, List.map_singleton] at hseparated ⊢
    rw [List.map_append, List.map_singleton]
    exact hseparated.concat hlast hending
  · dsimp only
    rw [hshape]
    rfl
  · rcases List.mem_append.mp hother with hother | hother
    · exact hparsed other hother
    · rw [List.mem_singleton.mp hother]
      exact hadd.parsed hbase _
  · dsimp only
    rw [urlsOn_append, urlsOn_entry, urlsOn_nil]
    exact h.distinct.append (List.nodup_singleton _) (by simpa using hnew)

/-- What is on a line is read whatever ends the line. -/
theorem parsed_ending {baseUrl : Url} {line : Line}
    (h : (line.stored version).Parsed crate version baseUrl) (ending : List UInt8) :
    (Line.stored version ⟨⟨line.content, ending⟩, line.kind⟩).Parsed crate version baseUrl := by
  obtain ⟨⟨content, old⟩, kind⟩ := line
  cases kind with
  | metaLine => cases h
  | urlLine => cases h
  | blank =>
    cases h with
    | blank hblank => exact .blank hblank
  | entry entry =>
    cases h with
    | entry hblank hentry => exact .entry hblank hentry

/-- A document whose last line gets an end. -/
theorem Valid.terminate (h : document.Valid crate) {front : List Line} {last : Line}
    (hlines : document.lines = front ++ [last]) {ending : List UInt8}
    (hending : RawLine.Terminated ⟨last.content, ending⟩) :
    Valid crate { document with
      lines := front ++ [⟨⟨last.content, ending⟩, last.kind⟩] } := by
  obtain ⟨header, urlHeader, lines, baseUrl, hshape, hmeta, hurl, hbase, hparsed⟩ := h.shape
  refine ⟨?_, ?_, ?_⟩
  · have hseparated := h.separated
    rw [hlines, List.map_append, List.map_singleton] at hseparated
    dsimp only
    rw [List.map_append, List.map_singleton]
    exact hseparated.terminate hending
  · rw [hlines] at hshape
    rcases List.eq_nil_or_concat lines with rfl | ⟨lines, other, rfl⟩
    · have hsplit : front ++ [last] = [⟨header, .metaLine⟩] ++ [⟨urlHeader, .urlLine⟩] := hshape
      obtain ⟨rfl, hlast⟩ := List.append_inj' hsplit rfl
      cases hlast
      exact ⟨header, ⟨urlHeader.content, ending⟩, [], baseUrl, rfl, hmeta, hurl, hbase, nofun⟩
    · rw [List.concat_eq_append] at hshape hparsed
      have hsplit : front ++ [last] =
          (⟨header, .metaLine⟩ :: ⟨urlHeader, .urlLine⟩ :: lines) ++ [other] := hshape
      obtain ⟨rfl, hlast⟩ := List.append_inj' hsplit rfl
      cases hlast
      refine ⟨header, urlHeader, _, baseUrl, rfl, hmeta, hurl, hbase, fun line hline => ?_⟩
      rcases List.mem_append.mp hline with hline | hline
      · exact hparsed line (List.mem_append_left _ hline)
      · rw [List.mem_singleton.mp hline]
        exact parsed_ending (hparsed last (List.mem_append_right _ (List.mem_singleton_self _))) ending
  · have hdistinct := h.distinct
    rw [hlines, urlsOn_append] at hdistinct
    dsimp only
    rw [urlsOn_append]
    exact hdistinct

theorem Valid.push (h : document.Valid crate) (hadd : document.Addable crate entry canonical)
    (hnew : entry.url ∉ urlsOn document.lines) : (document.push canonical entry).Valid crate := by
  have hne : document.lines ≠ [] := by
    obtain ⟨header, urlHeader, lines, baseUrl, hlines, -⟩ := h.shape
    rw [hlines]
    exact List.cons_ne_nil _ _
  obtain ⟨front, last, hlines, ⟨hlast, hpush⟩ | ⟨hlast, hpush⟩⟩ := push_eq canonical entry hne
  · rw [hpush, ← hlines]
    exact h.concat hadd hnew hlines hlast (.inl (preferred_terminated h.separated canonical))
  · rw [hpush]
    have hending := preferred_terminated h.separated last.content
    have hmid := h.terminate hlines hending
    refine hmid.concat ⟨hadd.resolves, hadd.line⟩ ?_ rfl hending.ending_ne_nil
      (.inr ⟨rfl, canonicalLine_ne_nil hadd.line⟩)
    rw [hlines, urlsOn_append] at hnew
    dsimp only
    rw [urlsOn_append]
    exact hnew

theorem Valid.add {result : Exec FormatError Unit} (h : document.Valid crate)
    (hadd : Document.add crate entry force document = (result, document')) :
    document'.Valid crate := by
  cases result with
  | error e => exact add_error hadd ▸ h
  | ok _ =>
    obtain ⟨canonical, haddable, ⟨-, hreplaced⟩ | ⟨hnew, rfl⟩⟩ := add_ok hadd
    · exact hreplaced.valid h haddable
    · exact h.push haddable hnew

theorem Valid.remove {result : Exec FormatError Unit} (h : document.Valid crate)
    (hremove : Document.remove url force document = (result, document')) :
    document'.Valid crate := by
  cases result with
  | error e => exact remove_error hremove ▸ h
  | ok _ =>
    obtain hremoved | ⟨-, -, rfl⟩ := remove_ok hremove
    · exact hremoved.valid h
    · exact h

/-- Whatever has been done to a document, it can be read again. -/
theorem Reached.valid (h : Reached crate document) : document.Valid crate := by
  induction h with
  | create h => exact create_valid h
  | parse h => exact (parse_valid h).1
  | add _ h ih => exact ih.add h
  | remove _ h ih => exact ih.remove h

theorem stored_entries (document : Document) :
    document.stored.entries = document.entries.map (Entry.stored document.version) := by
  rw [entries, entries, stored, List.filterMap_map, List.map_filterMap]
  exact List.filterMap_congr fun line _ => stored_asEntry

/-- Every document there is has each URL once and is read again with the same entries,
and a call that fails leaves it as it is. -/
theorem reached_documents_reparse (h : Reached crate document) :
    (document.entries.map Entry.url).Nodup ∧
    (∃ again, Document.parse crate document.toBytes = .ok again ∧
      again.version = document.version ∧ again.url = document.url ∧
      again.entries = document.entries.map (Entry.stored document.version)) ∧
    (∀ entry force e document', Document.add crate entry force document = (.error e, document') →
      document' = document) ∧
    (∀ url force e document', Document.remove url force document = (.error e, document') →
      document' = document) :=
  ⟨h.valid.distinct, ⟨document.stored, h.valid.parse, rfl, rfl, stored_entries document⟩,
    fun _ _ _ _ => add_error, fun _ _ _ _ => remove_error⟩

namespace EditSample

def sampleCrate : UrlCrate String where
  parse value := if value = "https://example.test/index.esi" then some value else none
  join _ value := if value = "a.pack" then some "https://example.test/a.pack" else none

def sampleEntry : Entry := ⟨.zero, .ofNothing, "a.pack", some 12, some 34⟩

def created : Document := {
  lines := [
    ⟨⟨Text.encodeUtf8 ("meta\t" ++ MetaVersion.v1.asStr), [lineFeed]⟩, .metaLine⟩,
    ⟨⟨Text.encodeUtf8 ("url\t" ++ "https://example.test/index.esi"), [lineFeed]⟩, .urlLine⟩]
  version := .v1
  url := "https://example.test/index.esi" }

def added : Document := (Document.add sampleCrate sampleEntry false created).2

theorem create_created :
    Document.create sampleCrate .v1 "https://example.test/index.esi" = .ok created := by
  rfl

theorem reached_added : Reached sampleCrate added :=
  have hadd : Document.add sampleCrate sampleEntry false created =
      ((Document.add sampleCrate sampleEntry false created).1, added) := rfl
  .add (.create create_created) hadd

example : added.entries = [sampleEntry] := by rfl

end EditSample

theorem reached_documents_reparse_added :
    (EditSample.added.entries.map Entry.url).Nodup ∧
    (∃ again, Document.parse EditSample.sampleCrate EditSample.added.toBytes = .ok again ∧
      again.version = EditSample.added.version ∧ again.url = EditSample.added.url ∧
      again.entries = EditSample.added.entries.map (Entry.stored EditSample.added.version)) ∧
    (∀ entry force e document',
      Document.add EditSample.sampleCrate entry force EditSample.added = (.error e, document') →
        document' = EditSample.added) ∧
    (∀ url force e document',
      Document.remove url force EditSample.added = (.error e, document') →
        document' = EditSample.added) :=
  reached_documents_reparse EditSample.reached_added

/-- A new entry is behind all there was, of which only the last line may have got an
end. -/
inductive Appended (document : Document) (canonical : List UInt8) (entry : Entry)
    (document' : Document) : Prop where
  | terminated {front : List Line} {last : Line} {ending : List UInt8}
    (hlines : document.lines = front ++ [last]) (hlast : last.ending ≠ [])
    (hending : RawLine.Terminated ⟨canonical, ending⟩)
    (hnew : document'.lines = document.lines ++ [⟨⟨canonical, ending⟩, .entry entry⟩])
    (hbytes : document'.toBytes = document.toBytes ++ (canonical ++ ending))
  | unterminated {front : List Line} {last : Line} {ending : List UInt8}
    (hlines : document.lines = front ++ [last]) (hlast : last.ending = [])
    (hending : RawLine.Terminated ⟨last.content, ending⟩)
    (hnew : document'.lines = front ++
      [⟨⟨last.content, ending⟩, last.kind⟩, ⟨⟨canonical, []⟩, .entry entry⟩])
    (hbytes : document'.toBytes = document.toBytes ++ (ending ++ canonical))

theorem Valid.appended (h : document.Valid crate) (canonical : List UInt8) (entry : Entry) :
    document.Appended canonical entry (document.push canonical entry) := by
  have hne : document.lines ≠ [] := by
    obtain ⟨header, urlHeader, lines, baseUrl, hlines, -⟩ := h.shape
    rw [hlines]
    exact List.cons_ne_nil _ _
  obtain ⟨front, last, hlines, ⟨hlast, hpush⟩ | ⟨hlast, hpush⟩⟩ := push_eq canonical entry hne
  · refine .terminated hlines hlast (preferred_terminated h.separated canonical) ?_ ?_
    · rw [hpush, hlines]
    · rw [hpush, toBytes, toBytes, hlines]
      simp
  · refine .unterminated hlines hlast (preferred_terminated h.separated last.content) ?_ ?_
    · rw [hpush]
      simp
    · rw [hpush, toBytes, toBytes, hlines]
      simp [hlast]

/-- Nothing of a document is lost when it is edited: its bytes are those that were read,
and a call changes one line, or adds or removes one. -/
theorem editing_is_lossless :
    (∀ bytes document, Document.parse crate bytes = .ok document → document.toBytes = bytes) ∧
    ∀ document, Reached crate document →
      Lines.split document.toBytes = document.lines.map Line.toRawLine ∧
      (urlsOn document.lines).Nodup ∧
      (∀ entry force document', Document.add crate entry force document = (.ok (), document') →
        ∃ canonical, entry.canonicalLine document.version = .ok canonical ∧
          (entry.url ∉ urlsOn document.lines ∧ Appended document canonical entry document' ∨
            force = true ∧ Replaced document entry canonical document')) ∧
      (∀ url force document', Document.remove url force document = (.ok (), document') →
        Removed document url document' ∨
          url ∉ urlsOn document.lines ∧ force = true ∧ document' = document) := by
  refine ⟨fun bytes document h => (parse_valid h).2, fun document h =>
    ⟨h.valid.split, h.valid.distinct, fun entry force document' hadd => ?_,
      fun _ _ _ => remove_ok⟩⟩
  obtain ⟨canonical, haddable, ⟨hforce, hreplaced⟩ | ⟨hnew, rfl⟩⟩ := add_ok hadd
  · exact ⟨canonical, haddable.line, .inr ⟨hforce, hreplaced⟩⟩
  · exact ⟨canonical, haddable.line, .inl ⟨hnew, h.valid.appended canonical entry⟩⟩

end Document

end Elfshaker.Esi
