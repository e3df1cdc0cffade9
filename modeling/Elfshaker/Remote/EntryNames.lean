import Elfshaker.Remote.PackFetch
import Mathlib.Data.List.TakeWhile

namespace Elfshaker.Remote

open Elfshaker.Library Elfshaker.Format Elfshaker.Store Elfshaker.Packs
open Elfshaker.Esi (Document FormatError)

/-- A URL as it is written: what is before its last segment, that segment, and the query, the
fragment or both. -/
structure UrlParts where
  front : String
  last : String
  tail : Option String
  deriving DecidableEq

namespace UrlParts

def text (parts : UrlParts) : String :=
  parts.front ++ "/" ++ parts.last ++ parts.tail.getD ""

/-- What is written behind a URL goes to whatever comes last in it. -/
def extend (parts : UrlParts) (more : String) : UrlParts :=
  match parts.tail with
  | none => { parts with last := parts.last ++ more }
  | some tail => { parts with tail := some (tail ++ more) }

/-- The name of a file whose index is found beside it. -/
def agreed (parts : UrlParts) : Option String :=
  match parts.tail with
  | none => some parts.last
  | some tail =>
    match Text.rsplitOnce '/' tail.toList with
    | some (_, name) =>
      if parts.last = String.ofList name ++ ".idx" then some (String.ofList name) else none
    | none => none

end UrlParts

/-- What the `url` crate promises of the parts of a URL, which it does not have where its path
has no segments. -/
structure Urls.Lawful (urls : Urls Url) (parts : Url → Option UrlParts) : Prop where
  written : ∀ url p, parts url = some p → urls.display url = p.text
  no_slash : ∀ url p, parts url = some p → '/' ∉ p.last.toList
  lastSegment : ∀ url, urls.lastSegment url = (parts url).map UrlParts.last
  extended : ∀ url p, parts url = some p → ∃ longer,
    urls.parse (urls.display url ++ ".idx") = some longer ∧ parts longer = some (p.extend ".idx")
  bare : ∀ url longer, parts url = none →
    urls.parse (urls.display url ++ ".idx") = some longer → parts longer = none

/-- `Display`, for an index that has no file or one with this stem. -/
def RemoteIndex.shown (fileStem : Option String) (index : RemoteIndex) : Exec ε String := do
  let stem ← match fileStem with
    | some stem => .ok stem
    | none => do
      let (stem, _) ← Exec.unwrap (Text.rsplitOnce '/' index.url.toList)
      .ok (String.ofList stem)
  .ok (stem ++ " (" ++ index.url ++ ")")

section Agreement

variable (server : Server Url)

/-- Every entry has one name, under which its index is kept and which it is found by, and no
other entry has it. -/
structure RemoteIndex.NamesConsistent (index : RemoteIndex) : Prop where
  named : ∀ pack ∈ index.packs, ∃ name, pack.fileName = (.ok (name ++ ".pack") : Exec Error String) ∧
    packIndexFileName server pack = some (name ++ ".pack.idx") ∧
      index.findPack name = (.ok (some pack) : Exec Error (Option RemotePack))
  apart : (index.packs.map (packIndexFileName server)).Nodup
  shown : (index.shown none : Exec Error String).NoPanic

/-- The entries' URLs have file names of packs, all different; and the URL of the index has a
separator. -/
def NamesAgree (parts : Url → Option UrlParts) (resolved : List Url) (url : String) : Prop :=
  (∃ names : List String,
    List.Forall₂ (fun url name => (parts url).bind UrlParts.agreed = some (name ++ ".pack"))
      resolved names ∧ names.Nodup) ∧
    '/' ∈ url.toList

section Names

variable {server} {parts : Url → Option UrlParts} {url : Url} {pack : RemotePack} {name : String}

theorem rsplitOnce_of_mem {c : Char} {s : List Char} (h : c ∈ s) :
    ∃ before after, Text.rsplitOnce c s = some (before, after) ∧ c ∉ after := by
  induction s with
  | nil => cases h
  | cons x xs ih =>
    rw [Text.rsplitOnce]
    by_cases hxs : c ∈ xs
    · obtain ⟨before, after, hsplit, hafter⟩ := ih hxs
      exact ⟨x :: before, after, by rw [hsplit], hafter⟩
    · rcases List.mem_cons.mp h with rfl | h
      · exact ⟨[], xs, by rw [Text.rsplitOnce_none hxs, if_pos rfl], hxs⟩
      · exact absurd h hxs

theorem fileName_of_split {before after : List Char} (h : pack.url.toList = before ++ '/' :: after)
    (hafter : '/' ∉ after) : pack.fileName = (.ok (String.ofList after) : Exec ε String) := by
  rw [RemotePack.fileName, h, Text.rsplitOnce_append hafter]
  rfl

/-- The name of the index file is the last segment, and the suffix where it comes to it. -/
theorem packIndexFileName_eq (lawful : server.urls.Lawful parts)
    (hurl : pack.url = server.urls.display url) : packIndexFileName server pack =
      (parts url).map fun p => (p.extend ".idx").last := by
  rw [packIndexFileName, hurl]
  cases hparts : parts url with
  | none =>
    cases hparse : server.urls.parse (server.urls.display url ++ ".idx") with
    | none => rfl
    | some longer =>
      have hnone := lawful.bare url longer hparts hparse
      rw [Option.bind_some, lawful.lastSegment, hnone]
      rfl
  | some p =>
    obtain ⟨longer, hparse, hlonger⟩ := lawful.extended url p hparts
    rw [hparse, Option.bind_some, lawful.lastSegment, hlonger]
    rfl

theorem agreed_iff (lawful : server.urls.Lawful parts) (hurl : pack.url = server.urls.display url) :
    (pack.fileName = (.ok name : Exec Error String) ∧
      packIndexFileName server pack = some (name ++ ".idx")) ↔
      (parts url).bind UrlParts.agreed = some name := by
  rw [packIndexFileName_eq lawful hurl]
  cases hparts : parts url with
  | none => exact iff_of_false (fun h => nomatch h.2) nofun
  | some p =>
    have hslash := lawful.no_slash url p hparts
    have htext : pack.url.toList =
        p.front.toList ++ '/' :: (p.last.toList ++ (p.tail.getD "").toList) := by
      rw [hurl, lawful.written url p hparts, UrlParts.text]
      simp
    rw [Option.map_some, Option.bind_some, UrlParts.extend, UrlParts.agreed]
    cases htail : p.tail with
    | none =>
      rw [htail] at htext
      have hname : pack.fileName = (.ok p.last : Exec Error String) := by
        rw [fileName_of_split htext (by simpa using hslash)]
        simp
      rw [hname]
      dsimp only
      constructor
      · rintro ⟨heq, -⟩
        rw [Except.ok.inj heq]
      · intro heq
        rw [Option.some.inj heq]
        exact ⟨rfl, rfl⟩
    | some tail =>
      rw [htail, Option.getD_some] at htext
      dsimp only
      by_cases hmem : '/' ∈ tail.toList
      · obtain ⟨before, after, hsplit, hafter⟩ := rsplitOnce_of_mem hmem
        have hwhole : pack.url.toList =
            (p.front.toList ++ '/' :: (p.last.toList ++ before)) ++ '/' :: after := by
          rw [htext, Text.rsplitOnce_eq_some hsplit]
          simp
        rw [hsplit, fileName_of_split hwhole hafter]
        dsimp only
        rw [Option.ite_none_right_eq_some]
        constructor
        · rintro ⟨hname, hlast⟩
          rw [Except.ok.inj hname]
          exact ⟨Option.some.inj hlast, rfl⟩
        · rintro ⟨hlast, hname⟩
          rw [← Option.some.inj hname, hlast]
          exact ⟨rfl, rfl⟩
      · rw [Text.rsplitOnce_none hmem, fileName_of_split htext (by simp [hslash, hmem])]
        refine iff_of_false ?_ nofun
        rintro ⟨hname, hlast⟩
        have hlonger := congrArg (fun s => s.toList.length) (Option.some.inj hlast)
        rw [← Except.ok.inj hname] at hlonger
        simp only [String.toList_append, String.toList_ofList, List.length_append] at hlonger
        have hidx : ".idx".toList.length = 4 := rfl
        omega

theorem related_of_mem {α β : Type} {R : α → β → Prop} {xs : List α} {ys : List β} {x : α}
    (h : List.Forall₂ R xs ys) (hx : x ∈ xs) : ∃ y ∈ ys, R x y := by
  induction h with
  | nil => cases hx
  | cons hfirst _ ih =>
    rcases List.mem_cons.mp hx with rfl | hx
    · exact ⟨_, List.mem_cons_self, hfirst⟩
    · obtain ⟨y, hy, hrelated⟩ := ih hx
      exact ⟨y, List.mem_cons_of_mem _ hy, hrelated⟩

theorem findPackIn_of_apart {packs : List RemotePack} {fileNames : List String}
    (hnames : List.Forall₂ (fun pack name => pack.fileName = (.ok name : Exec ε String))
      packs fileNames) (hnodup : fileNames.Nodup) (hpack : pack ∈ packs)
    (hname : pack.fileName = (.ok name : Exec ε String)) :
    RemoteIndex.findPackIn name packs = (.ok (some pack) : Exec ε (Option RemotePack)) := by
  induction hnames with
  | nil => cases hpack
  | @cons first firstName packs fileNames hfirst hrest ih =>
    obtain ⟨hnew, hnodup⟩ := List.nodup_cons.mp hnodup
    rw [RemoteIndex.findPackIn, hfirst, Exec.ok_bind]
    rcases List.mem_cons.mp hpack with rfl | hpack
    · rw [hname] at hfirst
      rw [if_pos (Except.ok.inj hfirst).symm]
    · obtain ⟨later, hlater, hown⟩ := related_of_mem hrest hpack
      rw [hname] at hown
      have hne : firstName ≠ name := by
        intro heq
        rw [heq, Except.ok.inj hown] at hnew
        exact hnew hlater
      rw [if_neg hne]
      exact ih hnodup hpack

theorem shown_iff {index : RemoteIndex} :
    (index.shown none : Exec ε String).NoPanic ↔ '/' ∈ index.url.toList := by
  by_cases h : '/' ∈ index.url.toList
  · obtain ⟨before, after, hsplit, -⟩ := rsplitOnce_of_mem h
    refine iff_of_true ?_ h
    rw [RemoteIndex.shown, hsplit]
    exact Exec.noPanic_ok _
  · refine iff_of_false (fun hshown => hshown ?_) h
    rw [RemoteIndex.shown, Text.rsplitOnce_none h]
    rfl

end Names

section Read

variable {server} {parts : Url → Option UrlParts} {bytes : List UInt8} {document : Document}
  {resolved : List Url} {index : RemoteIndex}

/-- The entries of an index have the URLs that those of its document resolve to. -/
theorem read_urls (hdocument : Document.parse server.urls.toUrlCrate bytes = .ok document)
    (hresolved : document.entries.mapM (document.resolvedEntryUrl server.urls.toUrlCrate) =
      .ok resolved) (hread : RemoteIndex.read server.urls bytes = .ok index) :
    index.url = document.url ∧
      List.Forall₂ (fun pack url => pack.url = server.urls.display url) index.packs resolved := by
  rw [RemoteIndex.read, hdocument, Exec.ok_bind] at hread
  obtain ⟨packs, hpacks, heq⟩ := Exec.bind_eq_ok.mp hread
  clear hread
  cases heq
  refine ⟨rfl, ?_⟩
  have hall := Exec.mapM_eq_ok.mp hresolved
  clear hresolved
  replace hpacks := Exec.mapM_eq_ok.mp hpacks
  dsimp only
  generalize document.entries = entries at hall hpacks
  induction hall generalizing packs with
  | nil =>
    cases hpacks
    exact .nil
  | @cons entry url entries resolved hurl _ ih =>
    cases hpacks with
    | cons hpack hrest =>
      refine .cons ?_ (ih _ hrest)
      rw [RemoteIndex.packOf, hurl, Exec.ok_bind] at hpack
      cases hpack
      rfl

theorem read_resolved (hread : RemoteIndex.read server.urls bytes = .ok index) :
    ∃ document resolved, Document.parse server.urls.toUrlCrate bytes = .ok document ∧
      document.entries.mapM (document.resolvedEntryUrl server.urls.toUrlCrate) = .ok resolved := by
  rw [RemoteIndex.read] at hread
  obtain ⟨document, hdocument, hfrom⟩ := Exec.bind_eq_ok.mp hread
  obtain ⟨packs, hpacks, -⟩ := Exec.bind_eq_ok.mp hfrom
  clear hread hfrom
  replace hpacks := Exec.mapM_eq_ok.mp hpacks
  obtain ⟨resolved, hresolved⟩ : ∃ resolved, List.Forall₂
      (fun entry url => document.resolvedEntryUrl server.urls.toUrlCrate entry = .ok url)
      document.entries resolved := by
    generalize document.entries = entries at hpacks
    induction hpacks with
    | nil => exact ⟨[], .nil⟩
    | cons hpack _ ih =>
      obtain ⟨url, hurl, -⟩ := Exec.bind_eq_ok.mp hpack
      obtain ⟨resolved, hresolved⟩ := ih
      exact ⟨url :: resolved, .cons hurl hresolved⟩
  exact ⟨document, resolved, hdocument, Exec.mapM_eq_ok.mpr hresolved⟩

theorem pack_suffix (name : String) : name ++ ".pack" ++ ".idx" = name ++ ".pack.idx" := by
  rw [String.append_assoc]
  rfl

theorem names_consistent_iff (lawful : server.urls.Lawful parts)
    (hdocument : Document.parse server.urls.toUrlCrate bytes = .ok document)
    (hresolved : document.entries.mapM (document.resolvedEntryUrl server.urls.toUrlCrate) =
      .ok resolved) (hread : RemoteIndex.read server.urls bytes = .ok index) :
    index.NamesConsistent server ↔ NamesAgree parts resolved document.url := by
  obtain ⟨hurl, hpacks⟩ := read_urls hdocument hresolved hread
  have hagreed {pack : RemotePack} {url : Url} (h : pack.url = server.urls.display url)
      (name : String) : (pack.fileName = (.ok (name ++ ".pack") : Exec Error String) ∧
        packIndexFileName server pack = some (name ++ ".pack.idx")) ↔
        (parts url).bind UrlParts.agreed = some (name ++ ".pack") := by
    rw [← pack_suffix]
    exact agreed_iff lawful h
  constructor
  · intro h
    refine ⟨?_, hurl ▸ shown_iff.mp h.shown⟩
    obtain ⟨names, hnames, hfiles⟩ : ∃ names : List String,
        List.Forall₂ (fun url name => (parts url).bind UrlParts.agreed = some (name ++ ".pack"))
          resolved names ∧
        index.packs.map (packIndexFileName server) =
          names.map fun name => some (name ++ ".pack.idx") := by
      have hnamed := h.named
      generalize index.packs = packs at hpacks hnamed
      clear h hresolved hread
      induction hpacks with
      | nil => exact ⟨[], .nil, rfl⟩
      | @cons pack url packs resolved hfirst _ ih =>
        obtain ⟨⟨name, hname, hfile, -⟩, hrest⟩ := List.forall_mem_cons.mp hnamed
        obtain ⟨names, hnames, hfiles⟩ := ih hrest
        refine ⟨name :: names, .cons ((hagreed hfirst name).mp ⟨hname, hfile⟩) hnames, ?_⟩
        rw [List.map_cons, List.map_cons, hfile, hfiles]
    have hapart := h.apart
    rw [hfiles] at hapart
    exact ⟨names, hnames, hapart.of_map _⟩
  · rintro ⟨⟨names, hnames, hnodup⟩, hslash⟩
    have hall : List.Forall₂ (fun pack name =>
        pack.fileName = (.ok (name ++ ".pack") : Exec Error String) ∧
          packIndexFileName server pack = some (name ++ ".pack.idx")) index.packs names := by
      generalize index.packs = packs at hpacks
      clear hresolved hread hnodup
      induction hpacks generalizing names with
      | nil =>
        cases hnames
        exact .nil
      | cons hfirst _ ih =>
        cases hnames with
        | cons hname hrest => exact .cons ((hagreed hfirst _).mpr hname) (ih _ hrest)
    have hfileNames : List.Forall₂ (fun pack name => pack.fileName = (.ok name : Exec Error String))
        index.packs (names.map (· ++ ".pack")) :=
      List.forall₂_map_right_iff.mpr (hall.imp fun _ _ h => h.1)
    have hfileNodup : (names.map (· ++ ".pack")).Nodup :=
      hnodup.map fun a b h => String.append_left_inj _ |>.mp h
    refine ⟨fun pack hpack => ?_, ?_, shown_iff.mpr (hurl ▸ hslash)⟩
    · obtain ⟨name, -, hname, hfile⟩ := related_of_mem hall hpack
      exact ⟨name, hname, hfile, findPackIn_of_apart hfileNames hfileNodup hpack hname⟩
    · have hfiles : index.packs.map (packIndexFileName server) =
          names.map fun name => some (name ++ ".pack.idx") := by
        clear hfileNames hfileNodup hnodup hnames
        generalize index.packs = packs at hall
        induction hall with
        | nil => rfl
        | cons hfirst _ ih => rw [List.map_cons, List.map_cons, hfirst.2, ih]
      rw [hfiles]
      exact hnodup.map fun a b h => String.append_left_inj _ |>.mp (Option.some.inj h)

/-- What the index of an entry is called, what the entry is called and what it is found by agree
for all entries exactly where the parts of their URLs do. -/
theorem remote_names_iff (lawful : server.urls.Lawful parts)
    (hread : RemoteIndex.read server.urls bytes = .ok index) :
    ∃ document resolved, Document.parse server.urls.toUrlCrate bytes = .ok document ∧
      document.entries.mapM (document.resolvedEntryUrl server.urls.toUrlCrate) = .ok resolved ∧
      (index.NamesConsistent server ↔ NamesAgree parts resolved document.url) := by
  obtain ⟨document, resolved, hdocument, hresolved⟩ := read_resolved hread
  exact ⟨document, resolved, hdocument, hresolved,
    names_consistent_iff lawful hdocument hresolved hread⟩

end Read

end Agreement

namespace QuerySample

/-- What is written behind the name of the server. -/
abbrev Url := List Char

def isPath (c : Char) : Bool := c != '?' && c != '#'

def path (url : Url) : List Char := url.takeWhile isPath

def tail (url : Url) : Option String :=
  if url.dropWhile isPath = [] then none else some (String.ofList (url.dropWhile isPath))

def origin : String := "https://example.test"

def parts (url : Url) : UrlParts :=
  match Text.rsplitOnce '/' (path url) with
  | some (directories, last) =>
    ⟨origin ++ "/" ++ String.ofList directories, String.ofList last, tail url⟩
  | none => ⟨origin, String.ofList (path url), tail url⟩

/-- The URLs of one server. -/
def urls : Urls Url where
  parse url := (Text.stripPrefix (origin ++ "/") url).map String.toList
  join _ name := some name.toList
  parseError _ := "relative URL without a base"
  display url := origin ++ "/" ++ String.ofList url
  path url := "/" ++ String.ofList (path url)
  setPath _ path := ((Text.stripPrefix "/" path).getD path).toList
  lastSegment url := some (parts url).last

def idx : List Char := ['.', 'i', 'd', 'x']

theorem rsplitOnce_longer (s : List Char) : Text.rsplitOnce '/' (s ++ idx) =
    (Text.rsplitOnce '/' s).map fun split => (split.1, split.2 ++ idx) := by
  by_cases h : '/' ∈ s
  · obtain ⟨before, after, hsplit, hafter⟩ := rsplitOnce_of_mem h
    have hs := Text.rsplitOnce_eq_some hsplit
    have hlonger : '/' ∉ after ++ idx := by simp [hafter, idx]
    rw [hsplit, hs, List.append_assoc, List.cons_append, Text.rsplitOnce_append hlonger]
    rfl
  · have hlonger : '/' ∉ s ++ idx := by simp [h, idx]
    rw [Text.rsplitOnce_none h, Text.rsplitOnce_none hlonger]
    rfl

theorem parts_longer (url : Url) : parts (url ++ idx) = (parts url).extend ".idx" := by
  have hidx : ∀ c ∈ idx, isPath c = true := by simp [idx, isPath]
  by_cases h : url.dropWhile isPath = []
  · have hall : ∀ c ∈ url, isPath c = true := List.dropWhile_eq_nil_iff.mp h
    have hpath : path url = url := List.takeWhile_eq_self_iff.mpr hall
    have hlonger : ∀ c ∈ url ++ idx, isPath c = true := fun c hc =>
      (List.mem_append.mp hc).elim (hall c) (hidx c)
    have hpath' : path (url ++ idx) = url ++ idx := List.takeWhile_eq_self_iff.mpr hlonger
    have htail : tail url = none := if_pos h
    have htail' : tail (url ++ idx) = none := if_pos (List.dropWhile_eq_nil_iff.mpr hlonger)
    unfold parts
    rw [hpath, hpath', htail, htail', rsplitOnce_longer]
    cases Text.rsplitOnce '/' url with
    | none => simp [UrlParts.extend, idx]
    | some split => simp [UrlParts.extend, idx]
  · have hdrop : (url ++ idx).dropWhile isPath = url.dropWhile isPath ++ idx := by
      rw [List.dropWhile_append, if_neg (by simpa using h)]
    have hpath : path (url ++ idx) = path url := by
      have hwhole := List.takeWhile_append_dropWhile (p := isPath) (l := url ++ idx)
      have hwhole' := List.takeWhile_append_dropWhile (p := isPath) (l := url)
      rw [hdrop, ← List.append_assoc] at hwhole
      rw [path, path]
      have hsame := List.append_cancel_right hwhole
      exact List.append_cancel_right (hsame.trans hwhole'.symm)
    have htail : tail (url ++ idx) = some (String.ofList (url.dropWhile isPath) ++ ".idx") := by
      rw [tail, hdrop, if_neg (by simp [h])]
      simp [idx]
    have htail' : tail url = some (String.ofList (url.dropWhile isPath)) := if_neg h
    unfold parts
    rw [hpath, htail, htail']
    cases Text.rsplitOnce '/' (path url) with
    | none => rfl
    | some split => rfl

theorem tail_text (url : Url) : (tail url).getD "" = String.ofList (url.dropWhile isPath) := by
  rw [tail]
  split_ifs with h
  · rw [h]
    rfl
  · rfl

theorem parts_text (url : Url) : urls.display url = (parts url).text := by
  have hwhole := List.takeWhile_append_dropWhile (p := isPath) (l := url)
  have hurl : urls.display url = origin ++ "/" ++ String.ofList (path url) ++
      (tail url).getD "" := by
    rw [tail_text, String.append_assoc, ← String.ofList_append, path, hwhole]
    rfl
  rw [hurl, UrlParts.text, parts]
  by_cases h : '/' ∈ path url
  · obtain ⟨before, after, hsplit, -⟩ := rsplitOnce_of_mem h
    rw [hsplit, Text.rsplitOnce_eq_some hsplit]
    simp [String.append_assoc]
  · rw [Text.rsplitOnce_none h]

theorem parts_no_slash (url : Url) : '/' ∉ (parts url).last.toList := by
  rw [parts]
  by_cases h : '/' ∈ path url
  · obtain ⟨before, after, hsplit, hafter⟩ := rsplitOnce_of_mem h
    rw [hsplit]
    simpa using hafter
  · rw [Text.rsplitOnce_none h]
    simpa using h

theorem urls_lawful : urls.Lawful (fun url => some (parts url)) where
  written url p h := Option.some.inj h ▸ parts_text url
  no_slash url p h := Option.some.inj h ▸ parts_no_slash url
  lastSegment _ := rfl
  extended url p h := by
    refine ⟨url ++ idx, ?_, ?_⟩
    · have hlonger : urls.display url ++ ".idx" = origin ++ "/" ++ String.ofList (url ++ idx) := by
        rw [String.ofList_append, ← String.append_assoc]
        rfl
      rw [hlonger]
      simp [urls, Text.stripPrefix_append]
    · rw [parts_longer, Option.some.inj h]
  bare _ _ h := nomatch h

def created : Document := {
  lines := [
    ⟨⟨Text.encodeUtf8 ("meta\t" ++ Esi.MetaVersion.v1.asStr), [Lines.lineFeed]⟩, .metaLine⟩,
    ⟨⟨Text.encodeUtf8 ("url\t" ++ (origin ++ "/r.esi")), [Lines.lineFeed]⟩, .urlLine⟩]
  version := .v1
  url := origin ++ "/r.esi" }

/-- A list of one pack. -/
def listing (name : String) : Document :=
  (Document.add urls.toUrlCrate ⟨.zero, .zero, name, none, none⟩ false created).2

def index (name : String) : RemoteIndex :=
  ⟨.v1, origin ++ "/r.esi", [⟨.zero, .zero, origin ++ "/" ++ name, none, none⟩]⟩

def server : Server Url := ⟨urls, fun _ => .ok ⟨404, .ok []⟩⟩

theorem read_listing {name : String}
    (h : RemoteIndex.fromDocument urls (listing name).stored = .ok (index name)) :
    RemoteIndex.read server.urls (listing name).toBytes = .ok (index name) := by
  have hcreate : Document.create urls.toUrlCrate .v1 (origin ++ "/r.esi") = .ok created := by
    rfl
  have hadd : Document.add urls.toUrlCrate ⟨.zero, .zero, name, none, none⟩ false created =
      ((Document.add urls.toUrlCrate ⟨.zero, .zero, name, none, none⟩ false created).1,
        listing name) := rfl
  exact RemoteIndex.read_reached (.add (.create hcreate) hadd) h

theorem read_listings :
    RemoteIndex.fromDocument urls (listing "p.pack").stored = .ok (index "p.pack") ∧
      RemoteIndex.fromDocument urls (listing "p.pack?x").stored = .ok (index "p.pack?x") ∧
      (index "p.pack?x").packs.map (packIndexFileName server) = [some "p.pack"] := by
  decide

end QuerySample

theorem remote_names_pack : ∃ document resolved,
    Document.parse QuerySample.server.urls.toUrlCrate (QuerySample.listing "p.pack").toBytes = .ok document ∧
      document.entries.mapM (document.resolvedEntryUrl QuerySample.server.urls.toUrlCrate) =
        .ok resolved ∧
      ((QuerySample.index "p.pack").NamesConsistent QuerySample.server ↔
        NamesAgree (fun url => some (QuerySample.parts url)) resolved document.url) := by
  have lawful : QuerySample.server.urls.Lawful (fun url => some (QuerySample.parts url)) :=
    QuerySample.urls_lawful
  exact remote_names_iff lawful (QuerySample.read_listing QuerySample.read_listings.1)

/-- The index of a pack with a query is kept under a name without its suffix. -/
theorem remote_names_query : ¬ ∀ (server : Server QuerySample.Url) (bytes : List UInt8)
    (index : RemoteIndex) (parts : QuerySample.Url → Option UrlParts), server.urls.Lawful parts →
    RemoteIndex.read server.urls bytes = .ok index → index.NamesConsistent server := by
  intro h
  obtain ⟨-, hfrom, hfiles⟩ := QuerySample.read_listings
  have hnames := h QuerySample.server _ _ _ QuerySample.urls_lawful
    (QuerySample.read_listing hfrom)
  obtain ⟨name, -, hfile, -⟩ := hnames.named _ List.mem_cons_self
  have hkept := List.head_eq_of_cons_eq hfiles
  rw [hfile] at hkept
  have hlong := congrArg (fun s => s.toList.reverse.take 1) (Option.some.inj hkept)
  simp at hlong

end Elfshaker.Remote
