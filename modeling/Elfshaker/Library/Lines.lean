import Mathlib.Data.List.Basic
import Mathlib.Tactic.SplitIfs

namespace Elfshaker.Library.Lines

def lineFeed : UInt8 := 0x0A

def carriageReturn : UInt8 := 0x0D

/-- A line of a file, and what ends it there. -/
structure RawLine where
  content : List UInt8
  ending : List UInt8
  deriving DecidableEq, Repr

def RawLine.bytes (line : RawLine) : List UInt8 := line.content ++ line.ending

def join (lines : List RawLine) : List UInt8 := lines.flatMap RawLine.bytes

/-- A line up to a line feed, which may have a carriage return before it. -/
def endLine (content : List UInt8) : RawLine :=
  if content.getLast? = some carriageReturn then
    ⟨content.dropLast, [carriageReturn, lineFeed]⟩
  else ⟨content, [lineFeed]⟩

/-- The lines of what follows `content`, which has no line feed in it. -/
def splitAfter (content : List UInt8) : List UInt8 → List RawLine
  | [] => if content = [] then [] else [⟨content, []⟩]
  | b :: bytes =>
    if b = lineFeed then endLine content :: splitAfter [] bytes
    else splitAfter (content ++ [b]) bytes

def split (bytes : List UInt8) : List RawLine := splitAfter [] bytes

/-- The line is ended by a line feed, or by one with a carriage return. -/
def RawLine.Terminated (line : RawLine) : Prop :=
  line.ending = [lineFeed] ∨ line.ending = [carriageReturn, lineFeed]

/-- Only the last line may have no end, and then there is something on it. -/
def Separated : List RawLine → Prop
  | [] => True
  | [line] => line.Terminated ∨ line.ending = [] ∧ line.content ≠ []
  | line :: next :: rest => line.Terminated ∧ Separated (next :: rest)

/-- Nothing on the line could be taken for the end of a line. -/
def RawLine.Plain (line : RawLine) : Prop :=
  lineFeed ∉ line.content ∧ carriageReturn ∉ line.content

variable {line last : RawLine} {lines front rest : List RawLine} {content bytes : List UInt8}

theorem RawLine.Terminated.ending_ne_nil (h : line.Terminated) : line.ending ≠ [] := by
  rcases h with h | h <;> simp [h]

@[simp] theorem join_nil : join [] = [] := rfl

@[simp] theorem join_cons : join (line :: rest) = line.bytes ++ join rest := rfl

@[simp] theorem join_append : join (front ++ rest) = join front ++ join rest :=
  List.flatMap_append

theorem bytes_endLine (content : List UInt8) :
    (endLine content).bytes = content ++ [lineFeed] := by
  unfold endLine
  split_ifs with hlast
  · obtain ⟨front, rfl⟩ := List.getLast?_eq_some_iff.mp hlast
    simp [RawLine.bytes]
  · rfl

theorem terminated_endLine (content : List UInt8) : (endLine content).Terminated := by
  unfold endLine
  split_ifs with hlast
  · exact .inr rfl
  · exact .inl rfl

/-- Nothing of a file is lost. -/
theorem join_splitAfter (content bytes : List UInt8) :
    join (splitAfter content bytes) = content ++ bytes := by
  induction bytes generalizing content with
  | nil =>
    rw [splitAfter]
    split_ifs with hcontent
    · simp [hcontent]
    · simp [RawLine.bytes]
  | cons b bytes ih =>
    rw [splitAfter]
    split_ifs with hb
    · rw [join_cons, bytes_endLine, ih, hb]
      simp
    · rw [ih]
      simp

theorem join_split (bytes : List UInt8) : join (split bytes) = bytes :=
  join_splitAfter [] bytes

theorem Separated.cons (h : line.Terminated) (hrest : Separated rest) :
    Separated (line :: rest) := by
  cases rest with
  | nil => exact .inl h
  | cons next rest => exact ⟨h, hrest⟩

theorem Separated.tail (h : Separated (line :: rest)) : Separated rest := by
  cases rest with
  | nil => trivial
  | cons next rest => exact h.2

theorem separated_splitAfter (content bytes : List UInt8) :
    Separated (splitAfter content bytes) := by
  induction bytes generalizing content with
  | nil =>
    rw [splitAfter]
    split_ifs with hcontent
    · trivial
    · exact .inr ⟨rfl, hcontent⟩
  | cons b bytes ih =>
    rw [splitAfter]
    split_ifs with hb
    · exact .cons (terminated_endLine content) (ih [])
    · exact ih (content ++ [b])

/-- What is added to the line that is being read. -/
theorem splitAfter_append (hfeed : lineFeed ∉ bytes) (more : List UInt8) :
    splitAfter content (bytes ++ more) = splitAfter (content ++ bytes) more := by
  induction bytes generalizing content with
  | nil => simp
  | cons b bytes ih =>
    obtain ⟨hb, hbytes⟩ := not_or.mp (mt List.mem_cons.mpr hfeed)
    rw [List.cons_append, splitAfter, if_neg (Ne.symm hb), ih hbytes, List.append_assoc,
      List.singleton_append]

theorem splitAfter_line (hplain : line.Plain) (hline : line.Terminated) (more : List UInt8) :
    splitAfter [] (line.bytes ++ more) = line :: splitAfter [] more := by
  obtain ⟨content, ending⟩ := line
  rw [RawLine.bytes, List.append_assoc, splitAfter_append hplain.1, List.nil_append]
  rcases hline with hline | hline
  · have hlast : content.getLast? ≠ some carriageReturn := fun hlast =>
      hplain.2 (List.mem_of_getLast? hlast)
    obtain rfl : ending = [lineFeed] := hline
    rw [List.singleton_append, splitAfter, if_pos rfl, endLine, if_neg hlast]
  · obtain rfl : ending = [carriageReturn, lineFeed] := hline
    have hne : ¬ carriageReturn = lineFeed := by decide
    rw [List.cons_append, List.singleton_append, splitAfter, if_neg hne, splitAfter, if_pos rfl,
      endLine, if_pos List.getLast?_concat, List.dropLast_concat]

/-- The lines of a file are found again. -/
theorem split_join (hsep : Separated lines) (hplain : ∀ line ∈ lines, line.Plain) :
    split (join lines) = lines := by
  induction lines with
  | nil => rfl
  | cons line rest ih =>
    have hline := hplain line List.mem_cons_self
    have hrest := ih hsep.tail fun l hl => hplain l (List.mem_cons_of_mem _ hl)
    rw [split] at hrest ⊢
    rw [join_cons]
    cases rest with
    | nil =>
      rcases hsep with hterminated | ⟨hending, hcontent⟩
      · rw [splitAfter_line hline hterminated]
        rfl
      · obtain ⟨content, ending⟩ := line
        obtain rfl : ending = [] := hending
        rw [RawLine.bytes, join_nil, List.append_nil, splitAfter_append hline.1, splitAfter,
          List.nil_append, if_neg hcontent]
    | cons next rest => rw [splitAfter_line hline hsep.1, hrest]

/-- Lines that have an end may stand before others. -/
theorem Separated.append (hfront : ∀ line ∈ front, line.Terminated) (hrest : Separated rest) :
    Separated (front ++ rest) := by
  induction front with
  | nil => exact hrest
  | cons first front ih =>
    exact .cons (hfront first List.mem_cons_self)
      (ih fun line hline => hfront line (List.mem_cons_of_mem _ hline))

theorem Separated.split (h : Separated (front ++ line :: rest)) :
    (∀ line ∈ front, line.Terminated) ∧ Separated (line :: rest) := by
  induction front with
  | nil => exact ⟨nofun, h⟩
  | cons first front ih =>
    obtain ⟨hfront, hrest⟩ := ih h.tail
    refine ⟨fun l hl => ?_, hrest⟩
    rcases List.mem_cons.mp hl with rfl | hl
    · cases front with
      | nil => exact h.1
      | cons second front => exact h.1
    · exact hfront l hl

theorem Separated.terminated (h : Separated lines) (hline : line ∈ lines)
    (hending : line.ending ≠ []) : line.Terminated := by
  obtain ⟨front, rest, rfl⟩ := List.append_of_mem hline
  have hline := h.split.2
  cases rest with
  | nil => exact hline.resolve_right fun hnone => hending hnone.1
  | cons next rest => exact hline.1

/-- A line is taken out. -/
theorem Separated.remove (h : Separated (front ++ line :: rest)) : Separated (front ++ rest) :=
  .append h.split.1 h.split.2.tail

/-- A line keeps its end, and gets something else before it. -/
theorem Separated.replace (h : Separated (front ++ line :: rest)) (hcontent : content ≠ []) :
    Separated (front ++ ⟨content, line.ending⟩ :: rest) := by
  obtain ⟨hfront, hline⟩ := h.split
  refine .append hfront ?_
  cases rest with
  | nil => exact hline.imp id fun hending => ⟨hending.1, hcontent⟩
  | cons next rest => exact hline

/-- A line is added after the last one, where that has an end. -/
theorem Separated.concat (h : Separated (front ++ [last])) (hlast : last.ending ≠ [])
    (hline : Separated [line]) : Separated (front ++ [last] ++ [line]) := by
  obtain ⟨hfront, hend⟩ := h.split
  rw [List.append_assoc]
  refine .append hfront ⟨?_, hline⟩
  rcases hend with hend | ⟨hending, -⟩
  · exact hend
  · exact absurd hending hlast

/-- The last line gets an end. -/
theorem Separated.terminate {ending : List UInt8} (h : Separated (front ++ [last]))
    (hending : RawLine.Terminated ⟨last.content, ending⟩) :
    Separated (front ++ [⟨last.content, ending⟩]) :=
  .append h.split.1 (.inl hending)

end Elfshaker.Library.Lines
