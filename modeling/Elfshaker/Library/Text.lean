import Mathlib.Data.List.Basic
import Mathlib.Tactic.SplitIfs

namespace Elfshaker.Library.Text

/-- `str::strip_prefix`. -/
def stripPrefix (start s : String) : Option String :=
  if start.toList.isPrefixOf s.toList then
    some (String.ofList (s.toList.drop start.toList.length))
  else none

/-- `str::strip_suffix`. -/
def stripSuffix (stop s : String) : Option String :=
  if stop.toList.isSuffixOf s.toList then
    some (String.ofList (s.toList.take (s.toList.length - stop.toList.length)))
  else none

/-- `str::rsplit_once`: splits at the last occurrence. -/
def rsplitOnce (c : Char) : List Char → Option (List Char × List Char)
  | [] => none
  | x :: xs =>
    match rsplitOnce c xs with
    | some (before, after) => some (x :: before, after)
    | none => if x = c then some ([], xs) else none

/-- The same for a separator of several characters. -/
def rsplitOnceAt (sep : List Char) : List Char → Option (List Char × List Char)
  | [] => none
  | x :: xs =>
    match rsplitOnceAt sep xs with
    | some (before, after) => some (x :: before, after)
    | none => if sep.isPrefixOf (x :: xs) then some ([], (x :: xs).drop sep.length) else none

/-- The bytes of a text. -/
def encodeUtf8 (s : String) : List UInt8 := s.toList.flatMap String.utf8EncodeChar

/-- `str::from_utf8`. -/
def fromUtf8 (bytes : List UInt8) : Option String := String.fromUTF8? bytes.toByteArray

/-- `char::is_whitespace`. -/
def isWhitespace (c : Char) : Bool :=
  let n := c.toNat
  (9 ≤ n && n ≤ 13) || n == 0x20 || n == 0x85 || n == 0xA0 || n == 0x1680 ||
    (0x2000 ≤ n && n ≤ 0x200A) || n == 0x2028 || n == 0x2029 || n == 0x202F || n == 0x205F ||
    n == 0x3000

/-- What is left between separators, without the parts that are empty. -/
def words (isSeparator : Char → Bool) (s : String) : List String :=
  ((s.toList.splitOnP isSeparator).filter (· ≠ [])).map String.ofList

theorem append_left_cancel {a b c : String} (h : a ++ b = a ++ c) : b = c := by
  have hlist := congrArg String.toList h
  rw [String.toList_append, String.toList_append] at hlist
  exact String.toList_injective (List.append_cancel_left hlist)

theorem append_right_cancel {a b c : String} (h : a ++ c = b ++ c) : a = b := by
  have hlist := congrArg String.toList h
  rw [String.toList_append, String.toList_append] at hlist
  exact String.toList_injective (List.append_cancel_right hlist)

theorem stripPrefix_eq_some {start s rest : String} :
    stripPrefix start s = some rest ↔ s = start ++ rest := by
  unfold stripPrefix
  split
  · rename_i h
    obtain ⟨tail, htail⟩ := List.isPrefixOf_iff_prefix.mp h
    have hs : s = start ++ String.ofList tail := by
      apply String.toList_injective
      rw [String.toList_append, String.toList_ofList, htail]
    rw [← htail, List.drop_left, Option.some.injEq]
    constructor
    · rintro rfl
      exact hs
    · rintro rfl
      exact (append_left_cancel hs).symm
  · rename_i h
    refine ⟨fun hs => by simp at hs, ?_⟩
    rintro rfl
    refine absurd (List.isPrefixOf_iff_prefix.mpr ?_) h
    rw [String.toList_append]
    exact List.prefix_append _ _

theorem stripSuffix_eq_some {stop s rest : String} :
    stripSuffix stop s = some rest ↔ s = rest ++ stop := by
  unfold stripSuffix
  split
  · rename_i h
    obtain ⟨front, hfront⟩ := List.isSuffixOf_iff_suffix.mp h
    have hs : s = String.ofList front ++ stop := by
      apply String.toList_injective
      rw [String.toList_append, String.toList_ofList, hfront]
    rw [← hfront, List.length_append, Nat.add_sub_cancel, List.take_left, Option.some.injEq]
    constructor
    · rintro rfl
      exact hs
    · rintro rfl
      exact (append_right_cancel hs).symm
  · rename_i h
    refine ⟨fun hs => by simp at hs, ?_⟩
    rintro rfl
    refine absurd (List.isSuffixOf_iff_suffix.mpr ?_) h
    rw [String.toList_append]
    exact List.suffix_append _ _

theorem stripSuffix_append (rest stop : String) : stripSuffix stop (rest ++ stop) = some rest :=
  stripSuffix_eq_some.mpr rfl

theorem stripPrefix_append (start rest : String) : stripPrefix start (start ++ rest) = some rest :=
  stripPrefix_eq_some.mpr rfl

theorem mem_intercalate {sep c : Char} {parts : List (List Char)}
    (h : c ∈ [sep].intercalate parts) : c = sep ∨ ∃ part ∈ parts, c ∈ part := by
  induction parts with
  | nil => simp at h
  | cons part rest ih =>
    cases rest with
    | nil => exact .inr ⟨part, List.mem_cons_self, by simpa using h⟩
    | cons next rest =>
      rw [List.intercalate_cons_cons, List.append_assoc, List.mem_append, List.mem_append,
        List.mem_singleton] at h
      rcases h with h | h | h
      · exact .inr ⟨part, List.mem_cons_self, h⟩
      · exact .inl h
      · rcases ih h with h | ⟨other, hother, hc⟩
        · exact .inl h
        · exact .inr ⟨other, List.mem_cons_of_mem _ hother, hc⟩

theorem rsplitOnce_none {c : Char} {s : List Char} (h : c ∉ s) : rsplitOnce c s = none := by
  induction s with
  | nil => rfl
  | cons x xs ih =>
    obtain ⟨hx, hxs⟩ := not_or.mp (mt List.mem_cons.mpr h)
    rw [rsplitOnce, ih hxs, if_neg (Ne.symm hx)]

theorem rsplitOnce_append {c : Char} {before after : List Char} (h : c ∉ after) :
    rsplitOnce c (before ++ c :: after) = some (before, after) := by
  induction before with
  | nil => rw [List.nil_append, rsplitOnce, rsplitOnce_none h, if_pos rfl]
  | cons x xs ih => rw [List.cons_append, rsplitOnce, ih]

theorem rsplitOnce_eq_some {c : Char} {s before after : List Char}
    (h : rsplitOnce c s = some (before, after)) : s = before ++ c :: after := by
  induction s generalizing before with
  | nil => cases h
  | cons x xs ih =>
    unfold rsplitOnce at h
    split at h
    · rename_i before' after' hrest
      cases h
      rw [ih hrest, List.cons_append]
    · split_ifs at h with hx
      cases h
      rw [hx, List.nil_append]

/-- A separator that does not start again before the end is the last one. -/
theorem rsplitOnceAt_append {c : Char} {sep before after : List Char}
    (h : rsplitOnceAt (c :: sep) (sep ++ after) = none) :
    rsplitOnceAt (c :: sep) (before ++ (c :: sep ++ after)) = some (before, after) := by
  induction before with
  | nil =>
    have hprefix : (c :: sep).isPrefixOf (c :: (sep ++ after)) = true :=
      List.isPrefixOf_iff_prefix.mpr (List.prefix_append (c :: sep) after)
    have hdrop : (c :: sep ++ after).drop (c :: sep).length = after := List.drop_left
    rw [List.nil_append, List.cons_append, rsplitOnceAt, h]
    dsimp only
    rw [if_pos hprefix, ← List.cons_append, hdrop]
  | cons x xs ih => rw [List.cons_append, rsplitOnceAt, ih]

theorem fromUtf8_eq_some {bytes : List UInt8} {s : String} :
    fromUtf8 bytes = some s ↔ bytes = encodeUtf8 s := by
  have hencode : (encodeUtf8 s).toByteArray = s.toByteArray := String.utf8Encode_toList
  unfold fromUtf8 String.fromUTF8?
  constructor
  · intro h
    split_ifs at h with hvalid
    cases h
    have hbytes := congrArg (fun a : ByteArray => a.data.toList) hencode
    simpa [String.fromUTF8] using hbytes.symm
  · rintro rfl
    rw [dif_pos (hencode ▸ s.isValidUTF8), Option.some.injEq]
    exact String.toByteArray_inj.mp hencode

/-- A byte of a character below 128 is all there is of it. -/
theorem utf8EncodeChar_ascii {c : Char} {b : UInt8} (hb : b < 128)
    (h : b ∈ String.utf8EncodeChar c) : c.toNat = b.toNat := by
  rw [UInt8.lt_iff_toNat_lt] at hb
  unfold String.utf8EncodeChar at h
  dsimp only at h
  split_ifs at h with hone htwo hthree
  · rw [List.mem_singleton] at h
    subst h
    simp only [UInt8.toNat_ofNat']
    have : c.toNat = c.val.toNat := rfl
    omega
  all_goals
    simp only [List.mem_cons, List.not_mem_nil, or_false] at h
    exfalso
    rcases h with rfl | rfl | rfl | rfl <;> simp at hb <;> omega

section Words

variable {isSeparator : Char → Bool} {w s : String}

theorem words_single (hne : w ≠ "") (hw : ∀ c ∈ w.toList, isSeparator c = false) :
    words isSeparator w = [w] := by
  have hlist : w.toList ≠ [] := fun h => hne (String.toList_injective h)
  rw [words, List.splitOnP_eq_singleton hw, List.filter_cons_of_pos (by simpa using hlist)]
  simp

theorem words_append {sep : String} {c : Char} (hsep : sep.toList = [c])
    (hc : isSeparator c = true) (hne : w ≠ "") (hw : ∀ c ∈ w.toList, isSeparator c = false) :
    words isSeparator (w ++ (sep ++ s)) = w :: words isSeparator s := by
  have hlist : w.toList ≠ [] := fun h => hne (String.toList_injective h)
  rw [words, String.toList_append, String.toList_append, hsep, List.singleton_append,
    List.splitOnP_append_cons_of_forall_mem hw _ hc,
    List.filter_cons_of_pos (by simpa using hlist), List.map_cons, String.ofList_toList]
  rfl

theorem mem_splitOnP {α : Type} {p : α → Bool} {x : α} {xs : List α} (hx : x ∈ xs)
    (hp : p x = false) : ∃ part ∈ xs.splitOnP p, x ∈ part := by
  induction xs with
  | nil => cases hx
  | cons y ys ih =>
    rw [List.splitOnP_cons_eq_if_modifyHead]
    obtain ⟨first, others, hsplit⟩ := List.exists_cons_of_ne_nil (List.splitOnP_ne_nil p ys)
    rw [hsplit] at ih ⊢
    rcases List.mem_cons.mp hx with rfl | hx
    · exact ⟨x :: first, by simp [hp], List.mem_cons_self⟩
    · obtain ⟨part, hpart, hin⟩ := ih hx
      split_ifs
      · exact ⟨part, List.mem_cons_of_mem _ hpart, hin⟩
      · rw [List.modifyHead_cons]
        rcases List.mem_cons.mp hpart with rfl | hpart
        · exact ⟨y :: part, List.mem_cons_self, List.mem_cons_of_mem _ hin⟩
        · exact ⟨part, List.mem_cons_of_mem _ hpart, hin⟩

/-- What is no separator is in one of the words. -/
theorem exists_word {c : Char} (hc : c ∈ s.toList) (hsep : isSeparator c = false) :
    ∃ w ∈ words isSeparator s, c ∈ w.toList := by
  obtain ⟨part, hpart, hin⟩ := mem_splitOnP hc hsep
  have hne : part ≠ [] := List.ne_nil_of_mem hin
  refine ⟨String.ofList part, List.mem_map.mpr ⟨part, ?_, rfl⟩, by rwa [String.toList_ofList]⟩
  exact List.mem_filter.mpr ⟨hpart, by simpa using hne⟩

end Words

end Elfshaker.Library.Text
