import Mathlib.Algebra.GroupWithZero.Nat
import Mathlib.Data.List.Basic
import Mathlib.Data.List.Nodup

namespace Elfshaker.Library

/-- A stretch of a stream. -/
structure Extent where
  offset : Nat
  size : Nat
  deriving DecidableEq, Repr

namespace Extent

variable {β : Type}

def stop (e : Extent) : Nat := e.offset + e.size

def slice (stream : List β) (e : Extent) : List β :=
  (stream.drop e.offset).take e.size

/-- The stretch lies inside the stream. -/
def Within (stream : List β) (e : Extent) : Prop := e.stop ≤ stream.length

theorem slice_length {stream : List β} {e : Extent} (h : e.Within stream) :
    (e.slice stream).length = e.size := by
  simp only [Within, stop] at h
  simp only [slice, List.length_take, List.length_drop]
  omega

theorem slice_of_size_zero {stream : List β} {e : Extent} (h : e.size = 0) :
    e.slice stream = [] := by
  simp [slice, h]

/-- Two stretches are one, or one of them ends before the other begins. -/
def Apart (e d : Extent) : Prop := e = d ∨ e.stop ≤ d.offset ∨ d.stop ≤ e.offset

/-- Two stretches that are apart, as far as there is something in them. -/
def Clear (e d : Extent) : Prop := e.size ≠ 0 → d.size ≠ 0 → e.Apart d

theorem Apart.clear {e d : Extent} (h : e.Apart d) : e.Clear d := fun _ _ => h

/-- A stretch seen from a later start of the stream. -/
def relativeTo (start : Nat) (e : Extent) : Extent := ⟨e.offset - start, e.size⟩

theorem slice_relativeTo {stream : List β} {start : Nat} {e : Extent} (h : start ≤ e.offset) :
    (e.relativeTo start).slice (stream.drop start) = e.slice stream := by
  simp only [slice, relativeTo, List.drop_drop]
  rw [Nat.add_sub_cancel' h]

theorem within_relativeTo {stream : List β} {start : Nat} {e : Extent} (h : start ≤ e.offset)
    (hwithin : e.Within stream) : (e.relativeTo start).Within (stream.drop start) := by
  simp only [Within, stop, relativeTo, List.length_drop] at hwithin ⊢
  omega

theorem apart_relativeTo {start : Nat} {e d : Extent} (h : e.Apart d) (he : start ≤ e.offset)
    (hd : start ≤ d.offset) : (e.relativeTo start).Apart (d.relativeTo start) := by
  rcases h with rfl | h | h
  · exact .inl rfl
  · right
    left
    simp only [stop, relativeTo] at h ⊢
    omega
  · right
    right
    simp only [stop, relativeTo] at h ⊢
    omega

theorem clear_relativeTo {start : Nat} {e d : Extent} (h : e.Clear d) (he : start ≤ e.offset)
    (hd : start ≤ d.offset) : (e.relativeTo start).Clear (d.relativeTo start) :=
  fun hsize hsize' => apart_relativeTo (h hsize hsize') he hd

end Extent

/-- The state of a reader that only moves forward and keeps what it read last: for
every stretch that is still to come, the reader has not passed its start, or the
stretch is empty, or it is the one that was kept. -/
structure Ahead {β : Type} (stream : List β) (todo : List Extent) (pos : Nat)
    (buf rest : List β) : Prop where
  rest_eq : rest = stream.drop pos
  todo : ∀ e ∈ todo, pos ≤ e.offset ∨ e.size = 0 ∨ e.slice stream = buf

namespace Ahead

variable {β : Type} {stream buf rest : List β} {todo : List Extent} {pos : Nat} {e : Extent}

theorem start (stream : List β) (todo : List Extent) : Ahead stream todo 0 [] stream :=
  ⟨rfl, fun _ _ => .inl (Nat.zero_le _)⟩

/-- What is read after the seek is the stretch. -/
theorem read_eq (h : Ahead stream (e :: todo) pos buf rest) (hpos : pos ≤ e.offset) :
    (rest.drop (e.offset - pos)).take e.size = e.slice stream := by
  rw [h.rest_eq, List.drop_drop, Nat.add_sub_cancel' hpos, Extent.slice]

theorem read_enough (h : Ahead stream (e :: todo) pos buf rest) (hpos : pos ≤ e.offset)
    (hwithin : e.Within stream) : e.size ≤ (rest.drop (e.offset - pos)).length := by
  simp only [Extent.Within, Extent.stop] at hwithin
  rw [h.rest_eq, List.drop_drop, Nat.add_sub_cancel' hpos, List.length_drop]
  omega

/-- Reading a stretch keeps it for the stretches that start where it does. -/
theorem read (h : Ahead stream (e :: todo) pos buf rest) (hpos : pos ≤ e.offset)
    (sorted : ∀ d ∈ todo, e.offset ≤ d.offset) (clear : ∀ d ∈ todo, e.Clear d) :
    Ahead stream todo e.stop (e.slice stream) ((rest.drop (e.offset - pos)).drop e.size) := by
  refine ⟨?_, fun d hd => ?_⟩
  · rw [h.rest_eq, List.drop_drop, List.drop_drop, Extent.stop]
    congr 1
    omega
  · have hle := sorted d hd
    by_cases hsize : d.size = 0
    · exact .inr (.inl hsize)
    by_cases hempty : e.size = 0
    · left
      simpa [Extent.stop, hempty] using hle
    rcases clear d hd hempty hsize with rfl | hstop | hstop
    · exact .inr (.inr rfl)
    · exact .inl hstop
    · simp only [Extent.stop] at hstop ⊢
      omega

/-- A stretch that the reader has passed needs no reading. -/
theorem skip (h : Ahead stream (e :: todo) pos buf rest) : Ahead stream todo pos buf rest :=
  ⟨h.rest_eq, fun d hd => h.todo d (List.mem_cons_of_mem _ hd)⟩

theorem kept (h : Ahead stream (e :: todo) pos buf rest) (hpos : ¬ pos ≤ e.offset)
    (hsize : e.size ≠ 0) : e.slice stream = buf := by
  rcases h.todo e List.mem_cons_self with hle | hzero | hkept
  · exact absurd hle hpos
  · exact absurd hzero hsize
  · exact hkept

end Ahead

/-- Contents laid out one after another: where one of them lies. -/
def Placed {α : Type} (size : α → Nat) (xs : List α) (x : α) (e : Extent) : Prop :=
  ∃ before after, xs = before ++ x :: after ∧ e = ⟨(before.map size).sum, size x⟩

namespace Placed

variable {α β : Type} {size : α → Nat} {content : α → List β} {xs : List α} {x y : α}
  {e d : Extent}

theorem length_flatMap (hsize : ∀ x ∈ xs, (content x).length = size x) :
    (xs.flatMap content).length = (xs.map size).sum := by
  induction xs with
  | nil => rfl
  | cons x xs ih =>
    rw [List.flatMap_cons, List.length_append, List.map_cons, List.sum_cons,
      hsize x List.mem_cons_self, ih fun y hy => hsize y (List.mem_cons_of_mem _ hy)]

theorem exists_of_mem (hx : x ∈ xs) : ∃ e, Placed size xs x e := by
  obtain ⟨before, after, hxs⟩ := List.append_of_mem hx
  exact ⟨_, before, after, hxs, rfl⟩

/-- The content is found at its place. -/
theorem slice_eq (h : Placed size xs x e) (hsize : ∀ x ∈ xs, (content x).length = size x) :
    e.slice (xs.flatMap content) = content x := by
  obtain ⟨before, after, rfl, rfl⟩ := h
  have hbefore : (before.flatMap content).length = (before.map size).sum :=
    length_flatMap fun y hy => hsize y (List.mem_append_left _ hy)
  have hx : (content x).length = size x :=
    hsize x (List.mem_append_right _ List.mem_cons_self)
  simp only [Extent.slice, List.flatMap_append, List.flatMap_cons]
  rw [List.drop_left' hbefore, List.take_left' hx]

theorem within (h : Placed size xs x e) (hsize : ∀ x ∈ xs, (content x).length = size x) :
    e.Within (xs.flatMap content) := by
  rw [Extent.Within, length_flatMap hsize]
  obtain ⟨before, after, rfl, rfl⟩ := h
  simp only [Extent.stop, List.map_append, List.map_cons, List.sum_append, List.sum_cons]
  omega

theorem stop_le (h : Placed size xs x e) : e.stop ≤ (xs.map size).sum := by
  obtain ⟨before, after, rfl, rfl⟩ := h
  simp only [Extent.stop, List.map_append, List.map_cons, List.sum_append, List.sum_cons]
  omega

/-- No two contents overlap. -/
theorem apart (hx : Placed size xs x e) (hy : Placed size xs y d) : e.Apart d := by
  obtain ⟨before, after, rfl, rfl⟩ := hx
  obtain ⟨before', after', heq, rfl⟩ := hy
  rcases List.append_eq_append_iff.mp heq with ⟨mid, hbefore, hrest⟩ | ⟨mid, hbefore, hrest⟩
  · cases mid with
    | nil =>
      obtain ⟨rfl, -⟩ := List.cons.inj hrest
      left
      simp [hbefore]
    | cons z mid =>
      obtain ⟨rfl, -⟩ := List.cons.inj hrest
      right
      left
      simp only [Extent.stop, hbefore, List.map_append, List.map_cons, List.sum_append,
        List.sum_cons]
      omega
  · cases mid with
    | nil =>
      obtain ⟨rfl, -⟩ := List.cons.inj hrest
      left
      simp [hbefore]
    | cons z mid =>
      obtain ⟨rfl, -⟩ := List.cons.inj hrest
      right
      right
      simp only [Extent.stop, hbefore, List.map_append, List.map_cons, List.sum_append,
        List.sum_cons]
      omega

end Placed

end Elfshaker.Library
