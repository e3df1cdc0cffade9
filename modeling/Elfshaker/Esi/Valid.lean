import Elfshaker.Esi.Fields

namespace Elfshaker.Esi

open Elfshaker.Library Elfshaker.Library.Lines

variable {Url : Type} {crate : UrlCrate Url} {version : MetaVersion} {baseUrl : Url}

/-- What there is on a line after the headers, and what it has been read as. -/
inductive Line.Parsed (crate : UrlCrate Url) (version : MetaVersion) (baseUrl : Url) : Line → Prop where
  | blank {line : RawLine} (hblank : isBlank line.content = true) :
    Parsed crate version baseUrl ⟨line, .blank⟩
  | entry {line : RawLine} {entry : Entry} (hblank : isBlank line.content = false)
    (hentry : ∀ lineNo, parseEntry crate line.content version baseUrl lineNo = .ok entry) :
    Parsed crate version baseUrl ⟨line, .entry entry⟩

/-- The line as it is read again. -/
def Line.stored (version : MetaVersion) (line : Line) : Line :=
  match line with
  | ⟨raw, .entry entry⟩ => ⟨raw, .entry (entry.stored version)⟩
  | line => line

/-- The URLs on lines. -/
def urlsOn (lines : List Line) : List String := (lines.filterMap Line.asEntry).map Entry.url

section Lines

variable {line : Line} {lines lines' front rest : List Line} {url : String}

@[simp] theorem urlsOn_nil : urlsOn [] = [] := rfl

@[simp] theorem urlsOn_blank {raw : RawLine} : urlsOn (⟨raw, .blank⟩ :: lines) = urlsOn lines := rfl

@[simp] theorem urlsOn_meta {raw : RawLine} :
    urlsOn (⟨raw, .metaLine⟩ :: lines) = urlsOn lines := rfl

@[simp] theorem urlsOn_url {raw : RawLine} : urlsOn (⟨raw, .urlLine⟩ :: lines) = urlsOn lines := rfl

@[simp] theorem urlsOn_entry {raw : RawLine} {entry : Entry} :
    urlsOn (⟨raw, .entry entry⟩ :: lines) = entry.url :: urlsOn lines := rfl

@[simp] theorem urlsOn_append : urlsOn (front ++ rest) = urlsOn front ++ urlsOn rest := by
  rw [urlsOn, List.filterMap_append, List.map_append]
  rfl

@[simp] theorem stored_toRawLine : (line.stored version).toRawLine = line.toRawLine := by
  obtain ⟨raw, kind⟩ := line
  cases kind <;> rfl

@[simp] theorem stored_asEntry :
    (line.stored version).asEntry = line.asEntry.map (Entry.stored version) := by
  obtain ⟨raw, kind⟩ := line
  cases kind <;> rfl

@[simp] theorem urlsOn_stored : urlsOn (lines.map (Line.stored version)) = urlsOn lines := by
  induction lines with
  | nil => rfl
  | cons line lines ih =>
    obtain ⟨raw, kind⟩ := line
    rw [List.map_cons]
    cases kind with
    | metaLine => exact ih
    | urlLine => exact ih
    | blank => exact ih
    | entry entry => simp [Line.stored, ih]

theorem isEntry_eq_true : Line.isEntry url line = true ↔ ∃ entry, line.kind = .entry entry ∧ entry.url = url := by
  unfold Line.isEntry
  split
  · rename_i current hkind
    simp [hkind]
  · rename_i hkind
    simp only [Bool.false_eq_true, false_iff, not_exists, not_and]
    exact fun entry hentry => absurd hentry (hkind entry)

theorem mem_urlsOn : url ∈ urlsOn lines ↔ ∃ line ∈ lines, Line.isEntry url line = true := by
  simp only [urlsOn, List.mem_map, List.mem_filterMap, isEntry_eq_true]
  constructor
  · rintro ⟨entry, ⟨line, hline, hentry⟩, rfl⟩
    obtain ⟨raw, kind⟩ := line
    cases kind with
    | entry current =>
      cases hentry
      exact ⟨_, hline, entry, rfl, rfl⟩
    | metaLine => cases hentry
    | urlLine => cases hentry
    | blank => cases hentry
  · rintro ⟨line, hline, entry, hkind, rfl⟩
    exact ⟨entry, ⟨line, hline, by rw [Line.asEntry, hkind]⟩, rfl⟩

theorem Line.Parsed.plain (h : line.Parsed crate version baseUrl) : line.toRawLine.Plain := by
  cases h with
  | blank hblank => exact plain_of_isBlank hblank
  | entry _ hentry => exact parseEntry_plain (hentry 0)

/-- What is read of a line is there to be read again. -/
theorem Line.Parsed.stored (h : line.Parsed crate version baseUrl) :
    line.stored version = line := by
  cases h with
  | blank => rfl
  | entry _ hentry => rw [Line.stored, parseEntry_stored (hentry 0)]

/-- What the lines after the headers are read as: the same lines, each with what is on
it, and no URL twice. -/
theorem parseLines_eq_ok {urls : List String} {lineNo : Nat} :
    parseLines crate version baseUrl urls lineNo lines = .ok lines' ↔
      lines'.map Line.toRawLine = lines.map Line.toRawLine ∧
      (∀ line ∈ lines', line.Parsed crate version baseUrl) ∧
      (urlsOn lines').Nodup ∧ ∀ url ∈ urlsOn lines', url ∉ urls := by
  induction lines generalizing urls lineNo lines' with
  | nil =>
    rw [parseLines, Except.ok.injEq]
    constructor
    · rintro rfl
      simp
    · intro h
      simpa using h.1.symm
  | cons line lines ih =>
    obtain ⟨raw, kind⟩ := line
    rw [parseLines]
    split_ifs with hblank
    · simp only [Exec.bind_eq_ok, ih, Except.ok.injEq]
      constructor
      · rintro ⟨rest, ⟨hraw, hparsed, hdistinct, hnew⟩, rfl⟩
        exact ⟨by simp [hraw], by simpa using ⟨.blank hblank, hparsed⟩, hdistinct, hnew⟩
      · rintro ⟨hraw, hparsed, hdistinct, hnew⟩
        obtain ⟨⟨raw', kind'⟩, rest, rfl, rfl, hraws⟩ := List.map_eq_cons_iff.mp hraw
        obtain ⟨hline, hrest⟩ := List.forall_mem_cons.mp hparsed
        cases hline with
        | blank => exact ⟨rest, ⟨hraws, hrest, hdistinct, hnew⟩, rfl⟩
        | entry hentry => simp [hentry] at hblank
    · rw [Bool.not_eq_true] at hblank
      simp only [Exec.bind_eq_ok]
      constructor
      · rintro ⟨entry, hentry, h⟩
        split_ifs at h with hold
        · cases h
        · obtain ⟨rest, hrest, h⟩ := Exec.bind_eq_ok.mp h
          cases h
          obtain ⟨hraw, hparsed, hdistinct, hnew⟩ := ih.mp hrest
          refine ⟨by simp [hraw], ?_, ?_, ?_⟩
          · exact List.forall_mem_cons.mpr ⟨.entry hblank (parseEntry_line hentry), hparsed⟩
          · rw [urlsOn_entry, List.nodup_cons]
            exact ⟨fun hin => hnew _ hin List.mem_cons_self, hdistinct⟩
          · rw [urlsOn_entry]
            exact List.forall_mem_cons.mpr
              ⟨hold, fun url hurl hin => hnew url hurl (List.mem_cons_of_mem _ hin)⟩
      · rintro ⟨hraw, hparsed, hdistinct, hnew⟩
        obtain ⟨⟨raw', kind'⟩, rest, rfl, rfl, hraws⟩ := List.map_eq_cons_iff.mp hraw
        obtain ⟨hline, hrest⟩ := List.forall_mem_cons.mp hparsed
        cases hline with
        | blank hblank' => simp [hblank'] at hblank
        | @entry _ entry _ hentry =>
          rw [urlsOn_entry, List.nodup_cons] at hdistinct
          rw [urlsOn_entry] at hnew
          obtain ⟨hold, hnew⟩ := List.forall_mem_cons.mp hnew
          refine ⟨entry, hentry lineNo, ?_⟩
          rw [if_neg hold]
          refine Exec.bind_eq_ok.mpr ⟨rest, ih.mpr ⟨hraws, hrest, hdistinct.2, ?_⟩, rfl⟩
          intro url hurl hin
          rcases List.mem_cons.mp hin with rfl | hin
          · exact hdistinct.1 hurl
          · exact hnew url hurl hin

end Lines

namespace Document

/-- A document that is read again as it is, but for sizes that version 1 has no room for. -/
structure Valid (crate : UrlCrate Url) (document : Document) : Prop where
  separated : Separated (document.lines.map Line.toRawLine)
  shape : ∃ header urlHeader lines baseUrl,
    document.lines = ⟨header, .metaLine⟩ :: ⟨urlHeader, .urlLine⟩ :: lines ∧
      Reads header.content ["meta", document.version.asStr] ∧
      Reads urlHeader.content ["url", document.url] ∧
      validateIndexUrl crate document.url = .ok baseUrl ∧
      ∀ line ∈ lines, (line.stored document.version).Parsed crate document.version baseUrl
  distinct : (urlsOn document.lines).Nodup

/-- The document as it is read again. -/
def stored (document : Document) : Document :=
  { document with lines := document.lines.map (Line.stored document.version) }

variable {document document' : Document} {bytes content : List UInt8} {url : String}

theorem toBytes_eq (document : Document) :
    document.toBytes = join (document.lines.map Line.toRawLine) := by
  rw [toBytes, join, List.flatMap_map]
  rfl

theorem splitLines_toRawLine (bytes : List UInt8) :
    (splitLines bytes).map Line.toRawLine = split bytes := by
  rw [splitLines, List.map_map]
  exact List.map_id _

theorem validateIndexUrl_isField {value : String} {parsed : Url}
    (h : validateIndexUrl crate value = .ok parsed) : IsField value := by
  obtain ⟨_, hfield, -⟩ := Exec.bind_eq_ok.mp h
  exact validateFieldValue_eq_ok.mp hfield

theorem header_plain {header : RawLine} {key value : String}
    (h : Reads header.content [key, value]) (hkey : '\n' ∉ key.toList ∧ '\r' ∉ key.toList)
    (hvalue : '\n' ∉ value.toList ∧ '\r' ∉ value.toList) : header.Plain := by
  refine h.plain fun f hf => ?_
  simp only [List.mem_cons, List.not_mem_nil, or_false] at hf
  rcases hf with rfl | rfl
  · exact hkey
  · exact hvalue

/-- The lines of a valid document are found again in its bytes. -/
theorem Valid.split (h : document.Valid crate) :
    split document.toBytes = document.lines.map Line.toRawLine := by
  rw [toBytes_eq]
  refine split_join h.separated fun raw hraw => ?_
  obtain ⟨line, hline, rfl⟩ := List.mem_map.mp hraw
  obtain ⟨header, urlHeader, lines, baseUrl, hlines, hmeta, hurl, hbase, hparsed⟩ := h.shape
  rw [hlines] at hline
  rcases List.mem_cons.mp hline with rfl | hline
  · refine header_plain hmeta (by decide) ?_
    cases document.version <;> decide
  rcases List.mem_cons.mp hline with rfl | hline
  · have hfield := validateIndexUrl_isField hbase
    exact header_plain hurl (by decide) ⟨hfield.notMem (by decide), hfield.notMem (by decide)⟩
  · have hplain := (hparsed line hline).plain
    rwa [stored_toRawLine] at hplain

theorem parse_valid (h : parse crate bytes = .ok document) :
    document.Valid crate ∧ document.toBytes = bytes := by
  have hsplit := splitLines_toRawLine bytes
  unfold parse at h
  split at h
  · rename_i header urlHeader lines hlines
    obtain ⟨metaValue, hmeta, h⟩ := Exec.bind_eq_ok.mp h
    obtain ⟨version, hversion, h⟩ := Exec.bind_eq_ok.mp h
    obtain ⟨url, hurl, h⟩ := Exec.bind_eq_ok.mp h
    obtain ⟨baseUrl, hbase, h⟩ := Exec.bind_eq_ok.mp h
    obtain ⟨lines', hparse, h⟩ := Exec.bind_eq_ok.mp h
    cases h
    obtain ⟨hraw, hparsed, hdistinct, -⟩ := parseLines_eq_ok.mp hparse
    rw [parseHeader_eq_ok] at hmeta hurl
    rw [fromStr_eq_ok] at hversion
    subst hversion
    have hall : (⟨header.toRawLine, .metaLine⟩ :: ⟨urlHeader.toRawLine, .urlLine⟩ :: lines').map
        Line.toRawLine = Lines.split bytes := by
      rw [← hsplit, hlines]
      simp [hraw]
    refine ⟨⟨?_, ⟨_, _, lines', baseUrl, rfl, hmeta, hurl, hbase, fun line hline => ?_⟩, hdistinct⟩,
      ?_⟩
    · dsimp only
      rw [hall]
      exact separated_splitAfter [] bytes
    · have hline := hparsed line hline
      rwa [hline.stored]
    · rw [toBytes_eq]
      dsimp only
      rw [hall, join_split]
  · cases h

/-- The bytes of a valid document are accepted, and are this document. -/
theorem Valid.parse (h : document.Valid crate) :
    Document.parse crate document.toBytes = .ok document.stored := by
  obtain ⟨header, urlHeader, lines, baseUrl, hlines, hmeta, hurl, hbase, hparsed⟩ := h.shape
  have hsplit : splitLines document.toBytes =
      ⟨header, .blank⟩ :: ⟨urlHeader, .blank⟩ :: lines.map fun line => ⟨line.toRawLine, .blank⟩ := by
    rw [splitLines, h.split, hlines]
    simp
  have hrest : parseLines crate document.version baseUrl [] 3
      (lines.map fun line => ⟨line.toRawLine, .blank⟩) =
        .ok (lines.map (Line.stored document.version)) := by
    refine parseLines_eq_ok.mpr ⟨by simp, ?_, ?_, by simp⟩
    · intro line hline
      obtain ⟨other, hother, rfl⟩ := List.mem_map.mp hline
      exact hparsed other hother
    · rw [urlsOn_stored]
      have hdistinct := h.distinct
      rwa [hlines] at hdistinct
  rw [Document.parse, hsplit]
  dsimp only
  rw [parseHeader_eq_ok.mpr hmeta, parseHeader_eq_ok.mpr hurl, Exec.ok_bind,
    fromStr_eq_ok.mpr rfl, Exec.ok_bind, Exec.ok_bind, hbase, Exec.ok_bind, hrest, Exec.ok_bind,
    stored, hlines]
  rfl

theorem header_reads {start key value : String} (hstart : start = key ++ "\t")
    (hkey : IsWord key) (hvalue : IsWord value) :
    Reads (Text.encodeUtf8 (start ++ value)) [key, value] := by
  refine ⟨_, rfl, ?_⟩
  rw [hstart, String.append_assoc, words_tab hkey, words_last hvalue]

theorem create_valid (h : create crate version url = .ok document) : document.Valid crate := by
  obtain ⟨baseUrl, hbase, h⟩ := Exec.bind_eq_ok.mp h
  cases h
  have hversion : IsWord version.asStr := by
    cases version <;> simp [IsWord, MetaVersion.asStr, isFieldSeparator]
  have hmeta : IsWord "meta" := by simp [IsWord, isFieldSeparator]
  have hurl : IsWord "url" := by simp [IsWord, isFieldSeparator]
  exact ⟨⟨.inl rfl, .inl (.inl rfl)⟩, ⟨_, _, [], baseUrl, rfl, header_reads (by decide) hmeta hversion,
    header_reads (by decide) hurl (validateIndexUrl_isField hbase).isWord, hbase,
    fun _ hline => absurd hline List.not_mem_nil⟩, List.nodup_nil⟩

end Document

end Elfshaker.Esi
