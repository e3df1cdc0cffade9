import Elfshaker.Esi.Document

namespace Elfshaker.Esi

open Elfshaker.Library Elfshaker.Library.Lines Elfshaker.Format

variable {Url : Type} {crate : UrlCrate Url} {version : MetaVersion} {baseUrl : Url}
  {entry : Entry} {content : List UInt8} {lineNo : Nat} {fs : List String}

/-- A value that can stand between separators. -/
def IsField (value : String) : Prop :=
  value ≠ "" ∧ ∀ c ∈ value.toList, Text.isWhitespace c = false

/-- The fields of a line that is text. -/
def Reads (content : List UInt8) (fs : List String) : Prop :=
  ∃ text, content = Text.encodeUtf8 text ∧ Text.words isFieldSeparator text = fs

/-- What the fields after the URL say. -/
inductive Sizes : MetaVersion → List String → Entry → Prop where
  | v1 {entry : Entry} (hpack : entry.packSize = none) (hindex : entry.indexSize = none) :
    Sizes .v1 [] entry
  | v2 {entry : Entry} {pack index : String} {x y : UInt64}
    (hpack : parseU64 pack.toList = some x) (hx : entry.packSize = some x)
    (hindex : parseU64 index.toList = some y) (hy : entry.indexSize = some y) :
    Sizes .v2 [pack, index] entry

/-- The entry as it is read again. -/
def Entry.stored (version : MetaVersion) (entry : Entry) : Entry :=
  match version with
  | .v1 => { entry with packSize := none, indexSize := none }
  | .v2 => entry

@[simp] theorem stored_url (version : MetaVersion) (entry : Entry) :
    (entry.stored version).url = entry.url := by
  cases version <;> rfl

theorem validateFieldValue_eq_ok {value description : String} :
    validateFieldValue value description = .ok () ↔ IsField value := by
  unfold validateFieldValue IsField
  split_ifs with hempty hspace
  · simp [hempty, Exec.fail]
  · obtain ⟨c, hc, hwhite⟩ := List.any_eq_true.mp hspace
    constructor
    · intro h
      cases h
    · intro h
      rw [h.2 c hc] at hwhite
      cases hwhite
  · rw [Bool.not_eq_true, List.any_eq_false] at hspace
    simpa using ⟨hempty, by simpa using hspace⟩

theorem fields_eq_ok : fields content lineNo = .ok fs ↔ Reads content fs := by
  simp only [fields, Exec.bind_eq_ok, Exec.okOr_eq_ok, Text.fromUtf8_eq_some, Except.ok.injEq, Reads]

theorem whitespace_separator {c : Char} (h : Text.isWhitespace c = false) :
    isFieldSeparator c = false := by
  rw [isFieldSeparator, Bool.or_eq_false_iff, beq_eq_false_iff_ne, beq_eq_false_iff_ne]
  constructor
  · rintro rfl
    exact absurd h (by decide)
  · rintro rfl
    exact absurd h (by decide)

/-- A byte that no field has in it as a character is not on the line, where it is no
separator. -/
theorem Reads.notMem {c : Char} (h : Reads content fs) (hascii : c.toNat < 128)
    (hsep : isFieldSeparator c = false) (hfields : ∀ f ∈ fs, c ∉ f.toList) :
    UInt8.ofNat c.toNat ∉ content := by
  obtain ⟨text, rfl, rfl⟩ := h
  intro hmem
  obtain ⟨d, hd, hbyte⟩ := List.mem_flatMap.mp hmem
  have hlt : UInt8.ofNat c.toNat < 128 := by
    rw [UInt8.lt_iff_toNat_lt, UInt8.toNat_ofNat']
    simp
    omega
  have hchar := Text.utf8EncodeChar_ascii hlt hbyte
  rw [UInt8.toNat_ofNat', Nat.mod_eq_of_lt (by omega)] at hchar
  obtain rfl : d = c := Char.toNat_inj.mp hchar
  obtain ⟨w, hw, hin⟩ := Text.exists_word hd hsep
  exact hfields w hw hin

/-- A line whose fields go on one line is not taken for more. -/
theorem Reads.plain {ending : List UInt8} (h : Reads content fs)
    (hfields : ∀ f ∈ fs, '\n' ∉ f.toList ∧ '\r' ∉ f.toList) :
    RawLine.Plain ⟨content, ending⟩ :=
  ⟨h.notMem (by decide) (by decide) fun f hf => (hfields f hf).1,
    h.notMem (by decide) (by decide) fun f hf => (hfields f hf).2⟩

theorem parseHeader_eq_ok {key value : String} :
    parseHeader content key lineNo = .ok value ↔ Reads content [key, value] := by
  simp only [parseHeader, Exec.bind_eq_ok, fields_eq_ok]
  constructor
  · rintro ⟨fs, hfs, h⟩
    split_ifs at h with hkey
    · cases h
    · split at h
      · rename_i k v
        simp only [List.head?_cons, ne_eq, Option.some.injEq, not_not] at hkey
        cases h
        exact hkey ▸ hfs
      · split_ifs at h <;> cases h
  · intro h
    exact ⟨_, h, by simp⟩

theorem fromStr_eq_ok {value : String} :
    MetaVersion.fromStr value = .ok version ↔ value = version.asStr := by
  unfold MetaVersion.fromStr
  constructor
  · intro h
    split_ifs at h with h1 h2
    · cases h
      exact h1
    · cases h
      exact h2
    · cases h
  · rintro rfl
    cases version <;> rfl

theorem parseChecksum_eq_ok {value description : String} {checksum : Checksum} :
    parseChecksum value description lineNo = .ok checksum ↔
      hexDecode value.toList = some checksum.bytes := by
  obtain ⟨bytes, hlength⟩ := checksum
  unfold parseChecksum
  split
  · rename_i hnone
    simp [hnone, Exec.fail]
  · rename_i decoded hdecoded
    rw [hdecoded]
    split_ifs with h
    · simp
    · constructor
      · intro hchecksum
        cases hchecksum
      · intro hbytes
        cases hbytes
        exact absurd hlength h

theorem parseSize_eq_ok {value description : String} {n : UInt64} :
    parseSize value description lineNo = .ok n ↔ parseU64 value.toList = some n :=
  Exec.okOr_eq_ok

/-- What there is on the line of an entry. -/
theorem parseEntry_eq_ok : parseEntry crate content version baseUrl lineNo = .ok entry ↔
    ∃ index pack sizes, Reads content (index :: pack :: entry.url :: sizes) ∧
      hexDecode index.toList = some entry.indexChecksum.bytes ∧
      hexDecode pack.toList = some entry.packChecksum.bytes ∧
      IsField entry.url ∧ (crate.join baseUrl entry.url).isSome ∧
      Sizes version sizes entry := by
  cases version with
  | v1 =>
    simp only [parseEntry, Exec.bind_eq_ok, fields_eq_ok, ↓reduceIte, reduceCtorEq]
    constructor
    · rintro ⟨fs, hfs, h⟩
      split_ifs at h with hfew hmany
      · cases h
      · cases h
      · obtain ⟨index, pack, url, rfl⟩ := List.length_eq_three.mp (by omega : fs.length = 3)
        simp only [Exec.bind_eq_ok, Exec.unwrap_eq_ok, parseChecksum_eq_ok, Exec.okOr_eq_ok,
          List.getElem?_cons_zero, List.getElem?_cons_succ, Option.some.injEq] at h
        obtain ⟨_, rfl, _, hindex, _, rfl, _, hpack, _, rfl, _, hurl, _, hjoin, h⟩ := h
        cases h
        exact ⟨_, _, [], hfs, hindex, hpack, validateFieldValue_eq_ok.mp hurl,
          Option.isSome_iff_exists.mpr ⟨_, hjoin⟩, .v1 rfl rfl⟩
    · rintro ⟨index, pack, sizes, hfs, hindex, hpack, hurl, hjoin, hsizes⟩
      obtain ⟨joined, hjoin⟩ := Option.isSome_iff_exists.mp hjoin
      obtain ⟨indexChecksum, packChecksum, url, packSize, indexSize⟩ := entry
      cases hsizes with
      | v1 hp hi =>
        cases hp
        cases hi
        refine ⟨_, hfs, ?_⟩
        simp [Exec.bind_eq_ok, parseChecksum_eq_ok, Exec.okOr_eq_ok,
          validateFieldValue_eq_ok.mpr hurl, hindex, hpack, hjoin]
  | v2 =>
    simp only [parseEntry, Exec.bind_eq_ok, fields_eq_ok, ↓reduceIte, reduceCtorEq]
    constructor
    · rintro ⟨fs, hfs, h⟩
      split_ifs at h with hfew hmany
      · cases h
      · cases h
      · have hlength : fs.length = 5 := by omega
        clear hfew hmany
        match fs, hlength with
        | [index, pack, url, packSize, indexSize], _ =>
        simp only [Exec.bind_eq_ok, Exec.unwrap_eq_ok, parseChecksum_eq_ok, Exec.okOr_eq_ok,
          parseSize_eq_ok, List.getElem?_cons_zero, List.getElem?_cons_succ, Option.some.injEq] at h
        obtain ⟨_, rfl, _, hindex, _, rfl, _, hpack, _, rfl, _, hurl, _, hjoin, _, rfl, _, hx,
          _, rfl, _, hy, h⟩ := h
        cases h
        exact ⟨_, _, _, hfs, hindex, hpack, validateFieldValue_eq_ok.mp hurl,
          Option.isSome_iff_exists.mpr ⟨_, hjoin⟩, .v2 hx rfl hy rfl⟩
    · rintro ⟨index, pack, sizes, hfs, hindex, hpack, hurl, hjoin, hsizes⟩
      obtain ⟨joined, hjoin⟩ := Option.isSome_iff_exists.mp hjoin
      obtain ⟨indexChecksum, packChecksum, url, packSize, indexSize⟩ := entry
      cases hsizes with
      | v2 hx hp hy hi =>
        cases hp
        cases hi
        refine ⟨_, hfs, ?_⟩
        simp [Exec.bind_eq_ok, parseChecksum_eq_ok, Exec.okOr_eq_ok,
          parseSize_eq_ok, validateFieldValue_eq_ok.mpr hurl, hindex, hpack, hjoin, hx, hy]

theorem Sizes.stored {sizes : List String} (h : Sizes version sizes entry) :
    entry.stored version = entry := by
  cases h with
  | v1 hpack hindex =>
    obtain ⟨indexChecksum, packChecksum, url, packSize, indexSize⟩ := entry
    cases hpack
    cases hindex
    rfl
  | v2 => rfl

theorem parseEntry_stored (h : parseEntry crate content version baseUrl lineNo = .ok entry) :
    entry.stored version = entry := by
  obtain ⟨_, _, _, _, _, _, _, _, hsizes⟩ := parseEntry_eq_ok.mp h
  exact hsizes.stored

/-- The number of a line is for messages only. -/
theorem parseEntry_line (h : parseEntry crate content version baseUrl lineNo = .ok entry)
    (other : Nat) : parseEntry crate content version baseUrl other = .ok entry :=
  parseEntry_eq_ok.mpr (parseEntry_eq_ok.mp h)

theorem IsField.notMem {value : String} (h : IsField value) {c : Char}
    (hc : Text.isWhitespace c = true) : c ∉ value.toList := by
  intro hin
  rw [h.2 c hin] at hc
  cases hc

theorem hexDecode_notMem {text : String} {bytes : List UInt8} {c : Char}
    (h : hexDecode text.toList = some bytes) (hc : hexDigit c = none) : c ∉ text.toList := by
  intro hin
  have hdigit := hexDecode_digits h hin
  rw [hc] at hdigit
  cases hdigit

theorem parseU64_notMem {text : String} {n : UInt64} {c : Char}
    (h : parseU64 text.toList = some n) (hsign : c ≠ '+') (hc : decimalDigit c = none) :
    c ∉ text.toList := by
  intro hin
  have hdigit := (parseU64_chars h hin).resolve_left hsign
  rw [hc] at hdigit
  cases hdigit

theorem Sizes.notMem {sizes : List String} (h : Sizes version sizes entry) {c : Char}
    (hsign : c ≠ '+') (hc : decimalDigit c = none) : ∀ f ∈ sizes, c ∉ f.toList := by
  cases h with
  | v1 => nofun
  | v2 hpack _ hindex _ =>
    intro f hf
    simp only [List.mem_cons, List.not_mem_nil, or_false] at hf
    rcases hf with rfl | rfl
    · exact parseU64_notMem hpack hsign hc
    · exact parseU64_notMem hindex hsign hc

/-- The line of an entry is one line. -/
theorem parseEntry_plain {ending : List UInt8}
    (h : parseEntry crate content version baseUrl lineNo = .ok entry) :
    RawLine.Plain ⟨content, ending⟩ := by
  obtain ⟨index, pack, sizes, hreads, hindex, hpack, hurl, -, hsizes⟩ := parseEntry_eq_ok.mp h
  refine hreads.plain fun f hf => ?_
  rcases List.mem_cons.mp hf with rfl | hf
  · exact ⟨hexDecode_notMem hindex (by decide), hexDecode_notMem hindex (by decide)⟩
  rcases List.mem_cons.mp hf with rfl | hf
  · exact ⟨hexDecode_notMem hpack (by decide), hexDecode_notMem hpack (by decide)⟩
  rcases List.mem_cons.mp hf with rfl | hf
  · exact ⟨hurl.notMem (by decide), hurl.notMem (by decide)⟩
  · exact ⟨hsizes.notMem (by decide) (by decide) f hf, hsizes.notMem (by decide) (by decide) f hf⟩

theorem plain_of_isBlank {line : RawLine} (h : isBlank line.content = true) : line.Plain := by
  rw [isBlank, List.all_eq_true] at h
  constructor
  · intro hin
    exact absurd (h _ hin) (by decide)
  · intro hin
    exact absurd (h _ hin) (by decide)

theorem encodeUtf8_not_blank {text : String} {c : Char} (hc : c ∈ text.toList)
    (hsep : isFieldSeparator c = false) : isBlank (Text.encodeUtf8 text) = false := by
  rw [Bool.eq_false_iff]
  intro hblank
  rw [isBlank, List.all_eq_true] at hblank
  have hlength : 0 < (String.utf8EncodeChar c).length := by
    rw [String.length_utf8EncodeChar]
    exact c.utf8Size_pos
  obtain ⟨b, hb⟩ := List.exists_mem_of_length_pos hlength
  have hbyte := hblank b (List.mem_flatMap.mpr ⟨c, hc, hb⟩)
  rw [Bool.or_eq_true, beq_iff_eq, beq_iff_eq] at hbyte
  rcases hbyte with rfl | rfl
  · obtain rfl : c = ' ' := Char.toNat_inj.mp (Text.utf8EncodeChar_ascii (by decide) hb)
    exact absurd hsep (by decide)
  · obtain rfl : c = '\t' := Char.toNat_inj.mp (Text.utf8EncodeChar_ascii (by decide) hb)
    exact absurd hsep (by decide)

section Canonical

/-- A string that is one word between separators. -/
def IsWord (w : String) : Prop := w ≠ "" ∧ ∀ c ∈ w.toList, isFieldSeparator c = false

theorem IsField.isWord {value : String} (h : IsField value) : IsWord value :=
  ⟨h.1, fun c hc => whitespace_separator (h.2 c hc)⟩

theorem hex_isWord (checksum : Checksum) : IsWord (hex checksum) := by
  constructor
  · intro h
    have hlength := hexEncode_length checksum.bytes
    have hnil : hexEncode checksum.bytes = [] := by
      rw [← String.toList_ofList (l := hexEncode checksum.bytes)]
      exact congrArg String.toList h
    rw [hnil, checksum.length_eq] at hlength
    cases hlength
  · intro c hc
    rw [hex, String.toList_ofList] at hc
    rw [isFieldSeparator, Bool.or_eq_false_iff, beq_eq_false_iff_ne, beq_eq_false_iff_ne]
    exact ⟨hexEncode_ne (by decide) hc, hexEncode_ne (by decide) hc⟩

theorem decimal_isWord (n : UInt64) : IsWord (decimal n) := by
  constructor
  · intro h
    have hnil : Nat.toDigits 10 n.toNat = [] := by
      rw [← String.toList_ofList (l := Nat.toDigits 10 n.toNat)]
      exact congrArg String.toList h
    exact Nat.toDigits_ne_nil hnil
  · intro c hc
    rw [decimal, String.toList_ofList] at hc
    have hdigit := isDigit_of_mem_decimal hc
    rw [isFieldSeparator, Bool.or_eq_false_iff, beq_eq_false_iff_ne, beq_eq_false_iff_ne]
    constructor
    · rintro rfl
      exact absurd hdigit (by decide)
    · rintro rfl
      exact absurd hdigit (by decide)

theorem words_tab {w s : String} (h : IsWord w) :
    Text.words isFieldSeparator (w ++ ("\t" ++ s)) = w :: Text.words isFieldSeparator s :=
  Text.words_append rfl (by decide) h.1 h.2

theorem words_last {w : String} (h : IsWord w) : Text.words isFieldSeparator w = [w] :=
  Text.words_single h.1 h.2

theorem hexDecode_hex (checksum : Checksum) :
    hexDecode (hex checksum).toList = some checksum.bytes := by
  rw [hex, String.toList_ofList, hexDecode_hexEncode]

theorem parseU64_decimal (n : UInt64) : parseU64 (decimal n).toList = some n := by
  rw [decimal, String.toList_ofList, parseU64_toDigits]

/-- The line that is written of an entry has its fields, and its sizes in version 2. -/
theorem canonicalLine_reads (h : entry.canonicalLine version = .ok content) :
    IsField entry.url ∧ isBlank content = false ∧ ∃ sizes,
      Reads content (hex entry.indexChecksum :: hex entry.packChecksum :: entry.url :: sizes) ∧
      Sizes version sizes (entry.stored version) := by
  obtain ⟨_, hurl, h⟩ := Exec.bind_eq_ok.mp h
  rw [validateFieldValue_eq_ok] at hurl
  have hindex := hex_isWord entry.indexChecksum
  have hpack := hex_isWord entry.packChecksum
  obtain ⟨c, hc⟩ : ∃ c, c ∈ (hex entry.indexChecksum).toList :=
    List.exists_mem_of_ne_nil _ fun hnil => hindex.1 (String.toList_injective hnil)
  have hblank (rest : String) :
      isBlank (Text.encodeUtf8 (hex entry.indexChecksum ++ rest)) = false := by
    refine encodeUtf8_not_blank (c := c) ?_ (hindex.2 c hc)
    rw [String.toList_append]
    exact List.mem_append_left _ hc
  refine ⟨hurl, ?_⟩
  cases version with
  | v1 =>
    simp only [reduceCtorEq, ↓reduceIte, Except.ok.injEq, String.append_assoc] at h
    subst h
    refine ⟨hblank _, [], ⟨_, rfl, ?_⟩, .v1 rfl rfl⟩
    rw [words_tab hindex, words_tab hpack, words_last hurl.isWord]
  | v2 =>
    simp only [↓reduceIte, Exec.bind_eq_ok, Exec.okOr_eq_ok, Except.ok.injEq,
      String.append_assoc] at h
    obtain ⟨packSize, hx, indexSize, hy, rfl⟩ := h
    refine ⟨hblank _, [decimal packSize, decimal indexSize], ⟨_, rfl, ?_⟩,
      .v2 (parseU64_decimal packSize) hx (parseU64_decimal indexSize) hy⟩
    rw [words_tab hindex, words_tab hpack, words_tab hurl.isWord,
      words_tab (decimal_isWord packSize), words_last (decimal_isWord indexSize)]

/-- The line that is written of an entry is read as this entry. -/
theorem parseEntry_canonicalLine (h : entry.canonicalLine version = .ok content)
    (hjoin : (crate.join baseUrl entry.url).isSome) :
    parseEntry crate content version baseUrl lineNo = .ok (entry.stored version) := by
  obtain ⟨hurl, -, sizes, hreads, hsizes⟩ := canonicalLine_reads h
  refine parseEntry_eq_ok.mpr ⟨hex entry.indexChecksum, hex entry.packChecksum, sizes, ?_, ?_, ?_,
    ?_, ?_, hsizes⟩
  · rwa [stored_url]
  · rw [hexDecode_hex]
    cases version <;> rfl
  · rw [hexDecode_hex]
    cases version <;> rfl
  · rwa [stored_url]
  · rwa [stored_url]

end Canonical

end Elfshaker.Esi
