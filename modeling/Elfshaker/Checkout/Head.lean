import Elfshaker.Checkout.Extract
import Elfshaker.Format.MessagePack
import Elfshaker.Store.IndexPaths

namespace Elfshaker.Checkout

open Elfshaker.Library Elfshaker.Format Elfshaker.Store

section Text

variable {unicode : Unicode} {id : SnapshotId} {text : String}

theorem validate_name_ne_nil {pack : PackId} (h : pack.validate unicode = .ok ()) :
    pack.name.toList ≠ [] := by
  rcases PackId.validate_eq_ok.mp h with ⟨tag, rfl, -⟩ | hregular
  · simp [PackId.looseOf, loosePrefix, String.toList_append]
  · intro hnil
    simp [PackId.isValidRegular, hnil] at hregular

theorem withoutSuffix_append (stop : String) : withoutSuffix stop (text ++ stop) = text := by
  rw [withoutSuffix, Text.stripSuffix_append, Option.getD_some]

theorem withoutSuffix_of_getLast {stop : String} {c : Char} (hstop : stop.toList = [c])
    (h : text.toList.getLast? ≠ some c) : withoutSuffix stop text = text := by
  cases hstrip : Text.stripSuffix stop text with
  | none => rw [withoutSuffix, hstrip, Option.getD_none]
  | some rest =>
    rw [Text.stripSuffix_eq_some.mp hstrip, String.toList_append, hstop] at h
    simp at h

/-- The text of an identifier does not end like a line of another system. -/
theorem display_getLast (htag : SnapshotId.isValid unicode id.tag = true) :
    id.display.toList.getLast? ≠ some '\r' := by
  intro hlast
  have hdisplay : id.display.toList = (id.pack.name.toList ++ [':']) ++ id.tag.toList := by
    simp [SnapshotId.display, String.toList_append]
  rw [hdisplay, List.getLast?_append_of_ne_nil _ (SnapshotId.isValid_ne_nil htag)] at hlast
  exact SnapshotId.isValid_no_return htag (List.mem_of_getLast? hlast)

end Text

theorem setHead_head {text : String} {s s' : Session Disk Fault}
    (h : Io.setHead text s = (.ok (), s')) : ∃ time, s'.state.dataDir.head = some (text, time) := by
  have hrun := Session.os_eq_ok h
  obtain ⟨-, hstate⟩ := Prod.mk.inj hrun
  rw [← hstate]
  exact ⟨_, rfl⟩

theorem storeUpdateHead_head {snapshot : SnapshotId} {s s' : Session Disk Fault}
    (h : Store.updateHead snapshot s = (.ok (), s')) :
    ∃ time, s'.state.dataDir.head = some (snapshot.display ++ "\n", time) := by
  obtain ⟨_, t, -, h⟩ := Effect.bind_eq_ok.mp h
  obtain ⟨_, u, -, h⟩ := Effect.bind_eq_ok.mp h
  exact setHead_head (Effect.mapError_eq_ok.mp h)

theorem onDisk_ok {files : List (List Name)} {x : Call α} {s s' : Session World Fault} {a : α}
    (h : onDisk files x s = (.ok a, s')) :
    ∃ d, x ⟨s.state.disk, s.faults⟩ = (.ok a, d) ∧ s'.state.disk = d.state := by
  obtain ⟨hok, hstate⟩ := Prod.mk.inj h
  refine ⟨_, Prod.ext hok rfl, ?_⟩
  rw [← hstate]

/-- What a repository that can be written to has as its HEAD after an update. -/
theorem updateHead_head {repo : Repository} (hwritable : repo.readOnly = false)
    {snapshot : SnapshotId} {s s' : Session World Fault}
    (h : updateHead repo snapshot s = (.ok (), s')) :
    ∃ time, s'.state.disk.dataDir.head = some (snapshot.display ++ "\n", time) := by
  rw [updateHead, hwritable, if_neg Bool.false_ne_true] at h
  obtain ⟨d, hrun, hstate⟩ := onDisk_ok h
  rw [hstate]
  exact storeUpdateHead_head hrun

theorem readHead_display {env : Env} {dataDir : DataDir} {id : SnapshotId} {time : Nat}
    (hpack : id.pack.validate env.crates.unicode = .ok ())
    (htag : SnapshotId.isValid env.crates.unicode id.tag = true)
    (hhead : dataDir.head = some (id.display ++ "\n", time)) :
    readHead env dataDir = .ok (some id, if env.timestamps then some time else none) := by
  have hline : withoutSuffix "\r" (withoutSuffix "\n" (id.display ++ "\n")) = id.display := by
    rw [withoutSuffix_append]
    exact withoutSuffix_of_getLast rfl (display_getLast htag)
  rw [readHead, hhead]
  dsimp only
  rw [hline, SnapshotId.fromStr_display hpack (validate_name_ne_nil hpack) htag]
  rfl

/-- The text of an identifier is read back, also from HEAD, which an update leaves as
it is where nothing can be written; and a tag is not such a text. -/
theorem snapshot_id_round_trip (env : Env) (repo : Repository) (pack : PackId) (tag : String)
    (hpack : pack.validate env.crates.unicode = .ok ())
    (htag : SnapshotId.isValid env.crates.unicode tag = true) :
    SnapshotId.fromStr env.crates.unicode (SnapshotId.display ⟨pack, tag⟩) = .ok ⟨pack, tag⟩ ∧
    (∀ s s', updateHead repo ⟨pack, tag⟩ s = (.ok (), s') →
      if repo.readOnly then s' = s
      else ∃ time, readHead env s'.state.disk.dataDir = .ok (some ⟨pack, tag⟩, time)) ∧
    ∀ text id, SnapshotId.isValid env.crates.unicode text = true →
      SnapshotId.fromStr env.crates.unicode text ≠ .ok id := by
  refine ⟨SnapshotId.fromStr_display hpack (validate_name_ne_nil hpack) htag, ?_, ?_⟩
  · intro s s' h
    cases hreadOnly : repo.readOnly with
    | true =>
      rw [updateHead, hreadOnly] at h
      simp only [if_true] at h ⊢
      exact (Effect.pure_eq_ok.mp h).2.symm
    | false =>
      simp only [Bool.false_eq_true, if_false]
      obtain ⟨time, hhead⟩ := updateHead_head hreadOnly h
      exact ⟨_, readHead_display hpack htag hhead⟩
  · intro text id htext hparse
    rw [SnapshotId.fromStr_tag htext] at hparse
    cases hparse

namespace HeadSample

def env : Env where
  crates := ⟨messagePack, fun _ => .zero, PathSample.unicode⟩
  randomName := fun _ => []
  mayRead := fun _ => true
  ord := .insertion
  entryOrd := .insertion
  timestamps := true
  openPack := fun _ _ => Exec.fail .corruptPack
  fetchPack := fun _ _ => Exec.fail .corruptPack

def repo (readOnly : Bool) : Repository := ⟨[], [], readOnly⟩

def world : World where
  tree := .empty
  disk := ⟨⟨∅, ∅, none⟩, 0⟩
  touched := []

theorem pack_valid : (PackId.mk "p").validate env.crates.unicode = .ok () := by rfl

theorem tag_valid : SnapshotId.isValid env.crates.unicode "a/b" = true := by rfl

end HeadSample

theorem snapshot_id_round_trip_written : ∃ s' time,
    updateHead (HeadSample.repo false) ⟨⟨"p"⟩, "a/b"⟩ ⟨HeadSample.world, []⟩ = (.ok (), s') ∧
      readHead HeadSample.env s'.state.disk.dataDir = .ok (some ⟨⟨"p"⟩, "a/b"⟩, time) := by
  obtain ⟨s', hrun⟩ : ∃ s', updateHead (HeadSample.repo false) ⟨⟨"p"⟩, "a/b"⟩
      ⟨HeadSample.world, []⟩ = (.ok (), s') := ⟨_, rfl⟩
  obtain ⟨time, hread⟩ := (snapshot_id_round_trip HeadSample.env (HeadSample.repo false) ⟨"p"⟩ "a/b"
    HeadSample.pack_valid HeadSample.tag_valid).2.1 _ s' hrun
  exact ⟨s', time, hrun, hread⟩

/-- An update succeeds where nothing can be written, and HEAD stays. -/
theorem snapshot_id_not_always_written : ¬ ∀ (env : Env) (repo : Repository) (pack : PackId)
    (tag : String), pack.validate env.crates.unicode = .ok () →
      SnapshotId.isValid env.crates.unicode tag = true →
      ∀ s s', updateHead repo ⟨pack, tag⟩ s = (.ok (), s') →
        ∃ time, readHead env s'.state.disk.dataDir = .ok (some ⟨pack, tag⟩, time) := by
  intro h
  obtain ⟨time, hread⟩ := h HeadSample.env (HeadSample.repo true) ⟨"p"⟩ "a/b" HeadSample.pack_valid
    HeadSample.tag_valid ⟨HeadSample.world, []⟩ _ rfl
  cases hread

end Elfshaker.Checkout
