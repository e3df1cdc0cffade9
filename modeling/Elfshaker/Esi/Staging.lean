import Elfshaker.Esi.Commit
import Elfshaker.Library.Overlay

namespace Elfshaker.Esi

open Elfshaker.Library

/-- How often each operation is still asked for. -/
abbrev Demand := Operation → Nat

def Demand.spend (demand : Demand) (operation : Operation) : Demand :=
  Function.update demand operation (demand operation - 1)

/-- The operation that fails is one of those asked for. -/
def Disk.fails (s : Disk) (demand : Demand) : Bool :=
  match s.failing with
  | some failing => decide (failing.after < demand failing.operation)
  | none => false

/-- What the staging files with these permissions ask for, once they are there. -/
def demand (permissions : List (Option UInt32)) : Demand
  | .write => permissions.length
  | .sync => permissions.length
  | .setPermissions => (permissions.filter Option.isSome).length
  | _ => 0

section Steps

variable {operation : Operation} {broken : Failing → Disk → Disk}
  {run : Disk → Exec CommitError α × Disk} {s t : Disk} {d : Demand}

/-- A state that differs in what is still to fail. -/
structure SameFiles (s t : Disk) : Prop where
  files : t.files = s.files
  drawn : t.drawn = s.drawn

theorem SameFiles.refl (s : Disk) : SameFiles s s := ⟨rfl, rfl⟩

/-- An operation runs, or it is the one that fails. -/
theorem os_run (operation : Operation) (broken : Failing → Disk → Disk)
    (run : Disk → Exec CommitError α × Disk) (s : Disk) :
    (∃ t, os operation broken run s = run t ∧ SameFiles s t ∧
      ∀ d : Demand, t.fails (d.spend operation) = s.fails d) ∨
    ∃ failing t, os operation broken run s =
        (Exec.fail (.system failing.error), broken failing t) ∧ SameFiles s t ∧ t.failing = none ∧
      ∀ d : Demand, s.fails d = decide (0 < d operation) := by
  obtain ⟨files, drawn, failing⟩ := s
  cases failing with
  | none => exact .inl ⟨⟨files, drawn, none⟩, rfl, ⟨rfl, rfl⟩, fun d => rfl⟩
  | some failing =>
    obtain ⟨op, after, error, written, present⟩ := failing
    by_cases hop : op = operation
    · subst hop
      cases after with
      | zero =>
        refine .inr ⟨⟨op, 0, error, written, present⟩, ⟨files, drawn, none⟩, ?_, ⟨rfl, rfl⟩, rfl,
          fun d => rfl⟩
        simp [os]
      | succ n =>
        refine .inl ⟨⟨files, drawn, some ⟨op, n, error, written, present⟩⟩, ?_, ⟨rfl, rfl⟩,
          fun d => ?_⟩
        · simp [os]
        · simp only [Disk.fails, Demand.spend, Function.update_self, decide_eq_decide]
          omega
    · refine .inl ⟨⟨files, drawn, some ⟨op, after, error, written, present⟩⟩, ?_, ⟨rfl, rfl⟩,
        fun d => ?_⟩
      · simp [os, hop]
      · simp [Disk.fails, Demand.spend, Function.update_of_ne hop]

theorem spend_zero (h : d operation = 0) : d.spend operation = d := by
  rw [Demand.spend, h]
  exact Function.update_eq_self_iff.mpr h.symm

/-- An operation that is not asked for any more: where it fails, none of the others
does. -/
theorem os_free (hd : d operation = 0) (broken : Failing → Disk → Disk)
    (run : Disk → Exec CommitError α × Disk) (s : Disk) :
    (∃ t, os operation broken run s = run t ∧ SameFiles s t ∧ t.fails d = s.fails d) ∨
    ∃ failing t, os operation broken run s =
        (Exec.fail (.system failing.error), broken failing t) ∧ SameFiles s t ∧ t.failing = none ∧
      s.fails d = false := by
  rcases os_run operation broken run s with ⟨t, hrun, hsame, hfails⟩ | ⟨failing, t, hrun, hsame, hnone, hfails⟩
  · refine .inl ⟨t, hrun, hsame, ?_⟩
    have := hfails d
    rwa [spend_zero hd] at this
  · refine .inr ⟨failing, t, hrun, hsame, hnone, ?_⟩
    rw [hfails d, hd]
    rfl

theorem SameFiles.trans {u : Disk} (h : SameFiles s t) (h' : SameFiles t u) : SameFiles s u :=
  ⟨h'.files.trans h.files, h'.drawn.trans h.drawn⟩

/-- An operation on a file is one step. -/
theorem onFile_step (operation : Operation) (path : String) (broken : Failing → Disk → Disk)
    (run : File → Disk → α × Disk) : ∃ step, onFile operation path broken run =
        os operation broken step ∧
      (∀ file t, t.files path = some file → step t = (.ok (run file t).1, (run file t).2)) ∧
      ∀ t, t.files path = none → step t = (Exec.fail (.system .notFound), t) := by
  refine ⟨_, rfl, fun file t hfile => ?_, fun t hfile => ?_⟩
  · simp only [hfile]
  · simp only [hfile]

/-- What an operation on a file makes of the one that is there. -/
theorem onFile_run (operation : Operation) (path : String) (broken : Failing → Disk → Disk)
    (run : File → Disk → α × Disk) (s : Disk) :
    (∃ file t, s.files path = some file ∧
      onFile operation path broken run s = (.ok (run file t).1, (run file t).2) ∧ SameFiles s t ∧
      ∀ d : Demand, t.fails (d.spend operation) = s.fails d) ∨
    (∃ t, s.files path = none ∧
      onFile operation path broken run s = (Exec.fail (.system .notFound), t) ∧ SameFiles s t ∧
      ∀ d : Demand, t.fails (d.spend operation) = s.fails d) ∨
    ∃ failing t, onFile operation path broken run s =
        (Exec.fail (.system failing.error), broken failing t) ∧ SameFiles s t ∧ t.failing = none ∧
      ∀ d : Demand, s.fails d = decide (0 < d operation) := by
  obtain ⟨step, hstep, hfound, hmissing⟩ := onFile_step operation path broken run
  rw [hstep]
  rcases os_run operation broken step s with ⟨t, hrun, hsame, hfails⟩ | hfailed
  · cases hfile : s.files path with
    | none =>
      rw [← hsame.files] at hfile
      rw [hmissing t hfile] at hrun
      exact .inr (.inl ⟨t, rfl, hrun, hsame, hfails⟩)
    | some file =>
      rw [← hsame.files] at hfile
      rw [hfound file t hfile] at hrun
      exact .inl ⟨file, t, rfl, hrun, hsame, hfails⟩
  · exact .inr (.inr hfailed)

theorem onFile_free (hd : d operation = 0) (path : String) (broken : Failing → Disk → Disk)
    (run : File → Disk → α × Disk) (s : Disk) :
    (∃ file t, s.files path = some file ∧
      onFile operation path broken run s = (.ok (run file t).1, (run file t).2) ∧ SameFiles s t ∧
      t.fails d = s.fails d) ∨
    (∃ t, s.files path = none ∧
      onFile operation path broken run s = (Exec.fail (.system .notFound), t) ∧ SameFiles s t ∧
      t.fails d = s.fails d) ∨
    ∃ failing t, onFile operation path broken run s =
        (Exec.fail (.system failing.error), broken failing t) ∧ SameFiles s t ∧ t.failing = none ∧
      s.fails d = false := by
  have hspent (t : Disk) (h : ∀ d : Demand, t.fails (d.spend operation) = s.fails d) :
      t.fails d = s.fails d := by
    rw [← h d, spend_zero hd]
  rcases onFile_run operation path broken run s with ⟨file, t, hfile, hrun, hsame, hfails⟩ |
    ⟨t, hfile, hrun, hsame, hfails⟩ | ⟨failing, t, hrun, hsame, hnone, hfails⟩
  · exact .inl ⟨file, t, hfile, hrun, hsame, hspent t hfails⟩
  · exact .inr (.inl ⟨t, hfile, hrun, hsame, hspent t hfails⟩)
  · refine .inr (.inr ⟨failing, t, hrun, hsame, hnone, ?_⟩)
    rw [hfails d, hd]
    rfl

/-- What is read of a path is what is there. -/
theorem readExisting_run (path : String) (hread : d .read = 0) (hmetadata : d .metadata = 0)
    (s : Disk) :
    (∃ t, readExisting path s = (.ok (s.files path), t) ∧ SameFiles s t ∧ t.fails d = s.fails d) ∨
    ∃ e t, readExisting path s = (.error e, t) ∧ SameFiles s t ∧ s.fails d = false := by
  rcases onFile_free hread path (fun _ s => s) (fun file s => (file.bytes, s)) s with
    ⟨file, t, hfile, hread, hsame, hfails⟩ | ⟨t, hfile, hread, hsame, hfails⟩ |
      ⟨failing, t, hread, hsame, -, hfails⟩
  · have hattempt := Effect.attempt_eq_ok (δ := CommitError).mpr hread
    rw [readExisting, read, Effect.bind_of_ok hattempt]
    rcases onFile_free hmetadata path (fun _ s => s) (fun file s => (file.permissions, s)) t with
      ⟨file', u, hfile', hmeta, hsame', hfails'⟩ | ⟨u, hfile', -⟩ |
        ⟨failing, u, hmeta, hsame', -, hfails'⟩
    · rw [hsame.files, hfile, Option.some.injEq] at hfile'
      subst hfile'
      refine .inl ⟨u, ?_, hsame.trans hsame', hfails'.trans hfails⟩
      simp only [metadata]
      rw [Effect.bind_of_ok hmeta, hfile]
      rfl
    · rw [hsame.files, hfile] at hfile'
      cases hfile'
    · exact .inr ⟨.error (.system failing.error), u, Effect.bind_of_error hmeta,
        hsame.trans hsame', hfails ▸ hfails'⟩
  · have hattempt := Effect.attempt_eq_error (δ := CommitError).mpr hread
    rw [readExisting, read, Effect.bind_of_ok hattempt, hfile]
    exact .inl ⟨t, rfl, hsame, hfails⟩
  · have hattempt := Effect.attempt_eq_error (δ := CommitError).mpr hread
    rw [readExisting, read, Effect.bind_of_ok hattempt]
    obtain ⟨_, _, error, _, hpresent⟩ := failing
    refine .inr ⟨.error (.system error), t, ?_, hsame, hfails⟩
    cases error with
    | notFound => exact absurd rfl hpresent
    | _ => rfl

end Steps

/-- The names that are drawn up to a limit: none is that of a file that is to be kept, and
of a hundred in a row one is free. -/
structure Draws (system : System) (kept : Set String) (files : String → Option File)
    (limit : Nat) : Prop where
  apart : ∀ target k, stagingPath target (system.random k) ∉ kept
  supply : ∀ target n, n + 100 ≤ limit → ∃ i < 100, files (stagingPath target (system.random (n + i))) = none ∧
    ∀ other, ∀ k < n + i,
      stagingPath other (system.random k) ≠ stagingPath target (system.random (n + i))

/-- The files are those of `base`, and staging files with names that have been drawn. -/
structure Holds (system : System) (kept : Set String) (base : String → Option File)
    (staged : List (String × File)) (s : Disk) : Prop extends
    Overlay kept base staged s.files where
  drawn : ∀ x ∈ staged, ∃ target, ∃ k < s.drawn, x.1 = stagingPath target (system.random k)

section Holds

variable {system : System} {kept : Set String} {base : String → Option File}
  {staged staged' : List (String × File)} {s t : Disk} {fails : Bool} {path target : String}
  {file : File} {d : Demand} {limit budget : Nat} {permissions : Option UInt32} {rest : List (Option UInt32)}

/-- Where a file is left that nothing owns, it is one of those that are staged. -/
def Ends (system : System) (kept : Set String) (base : String → Option File) (fails : Bool)
    (staged : List (String × File)) (s : Disk) : Prop :=
  ∃ extra, (extra = [] ↔ fails = false) ∧ Holds system kept base (extra ++ staged) s

/-- The files, whether one of the operations to come fails, and how many names can still be
drawn. -/
structure At (system : System) (kept : Set String) (base : String → Option File) (fails : Bool)
    (limit budget : Nat) (d : Demand) (staged : List (String × File)) (s : Disk) : Prop where
  holds : Holds system kept base staged s
  fails_eq : s.fails d = fails
  supply : s.drawn + budget ≤ limit

/-- What is staged, before staging files with these permissions are made. -/
abbrev Ready (system : System) (kept : Set String) (base : String → Option File) (fails : Bool)
    (limit : Nat) (permissions : List (Option UInt32)) (staged : List (String × File))
    (s : Disk) : Prop :=
  At system kept base fails limit (100 * permissions.length) (demand permissions) staged s

theorem Holds.same (h : Holds system kept base staged s) (hsame : SameFiles s t) :
    Holds system kept base staged t :=
  ⟨hsame.files ▸ h.toOverlay, fun x hx => hsame.drawn ▸ h.drawn x hx⟩

theorem Holds.perm (h : Holds system kept base staged s) (hperm : staged.Perm staged') :
    Holds system kept base staged' s :=
  ⟨h.toOverlay.perm hperm, fun x hx => h.drawn x (hperm.mem_iff.mpr hx)⟩

theorem Ends.of_holds (h : Holds system kept base staged s) (hfails : fails = false) :
    Ends system kept base fails staged s :=
  ⟨[], by simp [hfails], h⟩

theorem Ends.leak {x : String × File} (h : Holds system kept base (x :: staged) s)
    (hfails : fails = true) : Ends system kept base fails staged s :=
  ⟨[x], by simp [hfails], h⟩

theorem Ends.perm (h : Ends system kept base fails staged s) (hperm : staged.Perm staged') :
    Ends system kept base fails staged' s := by
  obtain ⟨extra, hextra, hholds⟩ := h
  exact ⟨extra, hextra, hholds.perm (hperm.append_left extra)⟩

/-- A free name has been drawn, or none of `n` that there are is free. -/
inductive Allocated (system : System) (d : Demand) (target : String) (n : Nat) (s : Disk) :
    Exec CommitError String × Disk → Prop where
  | found {path : String} {t : Disk} (hnone : s.files path = none)
    (hfiles : t.files = Function.update s.files path (some ⟨[], system.newPermissions⟩))
    (hdrawn : s.drawn ≤ t.drawn) (hlast : t.drawn ≤ s.drawn + n)
    (hname : ∃ k < t.drawn, path = stagingPath target (system.random k))
    (hfails : t.fails d = s.fails d) : Allocated system d target n s (.ok path, t)
  | failed {e : Failure CommitError} {t : Disk} (hfiles : t.files = s.files)
    (hdrawn : s.drawn ≤ t.drawn) (hcause : s.fails d = false ∨
      ∀ i < n, s.files (stagingPath target (system.random (s.drawn + i))) ≠ none) :
    Allocated system d target n s (.error e, t)

/-- The first name was taken. -/
theorem Allocated.again {n : Nat} {result : Exec CommitError String × Disk}
    (h : Allocated system d target n t result) (hfiles : t.files = s.files)
    (hdrawn : t.drawn = s.drawn + 1) (hfails : t.fails d = s.fails d)
    (htaken : s.fails d = false ∨ s.files (stagingPath target (system.random s.drawn)) ≠ none) :
    Allocated system d target (n + 1) s result := by
  cases h with
  | found hnone hput hle hlast hname hu =>
    rw [hfiles] at hnone hput
    exact .found hnone hput (by omega) (by omega) hname (hu.trans hfails)
  | failed hu hle hcause =>
    rw [hfails, hfiles, hdrawn] at hcause
    refine .failed (hu.trans hfiles) (by omega) ?_
    rcases hcause with hcause | hcause
    · exact .inl hcause
    rcases htaken with htaken | htaken
    · exact .inl htaken
    refine .inr fun i hi => ?_
    cases i with
    | zero => exact htaken
    | succ i =>
      have hi := hcause i (by omega)
      rwa [Nat.add_assoc, Nat.add_comm 1 i] at hi

theorem createNew_step (system : System) (path : String) : ∃ step, createNew system path =
        os .create (fun _ s => s) step ∧
      (∀ file t, t.files path = some file →
        step t = (Exec.fail (.system .alreadyExists), t)) ∧
      ∀ t, t.files path = none →
        step t = (.ok (), t.put path (some ⟨[], system.newPermissions⟩)) := by
  refine ⟨_, rfl, fun file t hfile => ?_, fun t hfile => ?_⟩
  · simp only [hfile]
  · simp only [hfile]

theorem createNew_run (system : System) (hcreate : d .create = 0) (path : String) (s : Disk) :
    (∃ t, createNew system path s = (.ok (), t.put path (some ⟨[], system.newPermissions⟩)) ∧
      s.files path = none ∧ SameFiles s t ∧ t.fails d = s.fails d) ∨
    (∃ t, createNew system path s = (Exec.fail (.system .alreadyExists), t) ∧
      s.files path ≠ none ∧ SameFiles s t ∧ t.fails d = s.fails d) ∨
    ∃ error t, createNew system path s = (Exec.fail (.system error), t) ∧ SameFiles s t ∧
      t.failing = none ∧ s.fails d = false := by
  obtain ⟨step, hstep, htaken, hfree⟩ := createNew_step system path
  rw [hstep]
  rcases os_free hcreate (fun _ s => s) step s with
    ⟨t, hrun, hsame, hfails⟩ | ⟨failing, t, hrun, hsame, hnone, hfails⟩
  · cases hfile : s.files path with
    | none =>
      rw [← hsame.files] at hfile
      rw [hfree t hfile] at hrun
      exact .inl ⟨t, hrun, rfl, hsame, hfails⟩
    | some file =>
      rw [← hsame.files] at hfile
      rw [htaken file t hfile] at hrun
      refine .inr (.inl ⟨t, hrun, ?_, hsame, hfails⟩)
      exact Option.some_ne_none file
  · exact .inr (.inr ⟨failing.error, t, hrun, hsame, hnone, hfails⟩)

theorem createStagingFile_run (hcreate : d .create = 0) (target : String) (n : Nat) (s : Disk) :
    Allocated system d target n s (createStagingFile system target n s) := by
  induction n generalizing s with
  | zero => exact .failed rfl (Nat.le_refl _) (.inr nofun)
  | succ n ih =>
    have hdraw : draw system s = (.ok (system.random s.drawn), { s with drawn := s.drawn + 1 }) := rfl
    rw [createStagingFile, Effect.bind_of_ok hdraw]
    have hfails : Disk.fails { s with drawn := s.drawn + 1 } d = s.fails d := rfl
    rcases createNew_run system hcreate (stagingPath target (system.random s.drawn))
      { s with drawn := s.drawn + 1 } with ⟨t, hrun, hnone, hsame, ht⟩ | ⟨t, hrun, htaken, hsame, ht⟩ |
        ⟨error, t, hrun, hsame, hclear, ht⟩
    · rw [Effect.bind_of_ok (Effect.attempt_eq_ok.mpr hrun)]
      have hdrawn : t.drawn = s.drawn + 1 := hsame.drawn
      refine .found hnone ?_ ?_ ?_ ⟨s.drawn, ?_, rfl⟩ ht
      · exact congrArg (fun files => Function.update files _ _) hsame.files
      · exact (Nat.le_succ _).trans (Nat.le_of_eq hdrawn.symm)
      · exact (Nat.le_of_eq hdrawn).trans (by omega)
      · exact hdrawn ▸ Nat.lt_succ_self _
    · rw [Effect.bind_of_ok (Effect.attempt_eq_error.mpr hrun)]
      exact (ih t).again hsame.files hsame.drawn ht (.inr htaken)
    · rw [Effect.bind_of_ok (Effect.attempt_eq_error.mpr hrun)]
      have hdrawn : t.drawn = s.drawn + 1 := hsame.drawn
      have hnow : t.fails d = s.fails d := by
        rw [hfails] at ht
        rw [ht, Disk.fails, hclear]
      cases error with
      | alreadyExists => exact (ih t).again hsame.files hdrawn hnow (.inl ht)
      | _ => exact .failed hsame.files (hdrawn ▸ Nat.le_succ _) (.inl ht)

/-- What an operation does to the last staging file, and that a failure leaves it. -/
theorem onStaged_triple {operation : Operation} {broken : Failing → Disk → Disk}
  {run : File → Disk → Unit × Disk} {changed : File} (hasked : 0 < d operation)
    (hbroken : ∀ failing s, s.files path = some file → SameFiles s (broken failing s) ∨
      ∃ other, broken failing s = s.put path (some other))
    (hrun : ∀ s, s.files path = some file → (run file s).2 = s.put path (some changed)) :
    Effect.Triple (At system kept base fails limit budget d ((path, file) :: staged))
      (onFile operation path broken run)
      (fun _ => At system kept base fails limit budget (d.spend operation) ((path, changed) :: staged))
      (Ends system kept base fails staged) := by
  have hput (s : Disk) (other : File) (h : Holds system kept base ((path, file) :: staged) s) :
      Holds system kept base ((path, other) :: staged) (s.put path (some other)) := by
    refine ⟨h.toOverlay.set other, fun x hx => ?_⟩
    rcases List.mem_cons.mp hx with rfl | hx
    · exact h.drawn (path, file) List.mem_cons_self
    · exact h.drawn x (List.mem_cons_of_mem _ hx)
  have hfile {s : Disk} (h : Holds system kept base ((path, file) :: staged) s) :
      s.files path = some file :=
    h.entry (path, file) List.mem_cons_self
  refine .intro (fun s s' _ ⟨hholds, hfails, hsupply⟩ hx => ?_) (fun s s' e ⟨hholds, hfails, _⟩ hx => ?_)
  · rcases onFile_run operation path broken run s with ⟨other, t, hother, hos, hsame, hspent⟩ |
      ⟨t, hnone, hos, -⟩ | ⟨failing, t, hos, -⟩
    · cases hother.symm.trans (hfile hholds)
      cases hos.symm.trans hx
      rw [hrun t (hfile (hholds.same hsame))]
      refine ⟨hput t _ (hholds.same hsame), (hspent d).trans hfails, ?_⟩
      exact hsame.drawn.symm ▸ hsupply
    · cases hos.symm.trans hx
    · cases hos.symm.trans hx
  · rcases onFile_run operation path broken run s with ⟨other, t, hother, hos, -⟩ |
      ⟨t, hnone, -⟩ | ⟨failing, t, hos, hsame, -, hfailed⟩
    · cases hos.symm.trans hx
    · cases hnone.symm.trans (hfile hholds)
    · have htrue : fails = true := by
        rw [← hfails, hfailed d]
        exact decide_eq_true hasked
      cases hos.symm.trans hx
      rcases hbroken failing t (hfile (hholds.same hsame)) with hkept | ⟨other, hother⟩
      · exact .leak ((hholds.same hsame).same hkept) htrue
      · refine .leak (x := (path, other)) ?_ htrue
        rw [hother]
        exact hput t other (hholds.same hsame)

theorem writeAll_triple (hasked : 0 < d .write) (contents : List UInt8) :
    Effect.Triple (At system kept base fails limit budget d ((path, file) :: staged)) (writeAll path contents)
      (fun _ => At system kept base fails limit budget (d.spend .write)
        ((path, { file with bytes := contents }) :: staged))
      (Ends system kept base fails staged) := by
  have hbroken (failing : Failing) (s : Disk) (hfile : s.files path = some file) :
      writeBroken path contents failing s =
        s.put path (some { file with bytes := contents.take failing.written }) := by
    rw [writeBroken, hfile]
    rfl
  unfold writeAll
  exact onStaged_triple hasked (fun failing s hfile => .inr ⟨_, hbroken failing s hfile⟩)
    fun _ _ => rfl

theorem syncData_triple (hasked : 0 < d .sync) :
    Effect.Triple (At system kept base fails limit budget d ((path, file) :: staged)) (syncData path)
      (fun _ => At system kept base fails limit budget (d.spend .sync) ((path, file) :: staged))
      (Ends system kept base fails staged) := by
  have hkept (s : Disk) (hfile : s.files path = some file) : s = s.put path (some file) := by
    rw [Disk.put, ← hfile, Function.update_eq_self]
  unfold syncData
  exact onStaged_triple hasked (fun _ s _ => .inl (.refl s)) hkept

theorem setPermissions_triple (file : File) (hasked : 0 < d .setPermissions) (permissions : UInt32) :
    Effect.Triple (At system kept base fails limit budget d ((path, file) :: staged))
      (setPermissions path permissions)
      (fun _ => At system kept base fails limit budget (d.spend .setPermissions)
        ((path, { file with permissions }) :: staged))
      (Ends system kept base fails staged) := by
  unfold setPermissions
  exact onStaged_triple hasked (fun _ s _ => .inl (.refl s)) fun _ _ => rfl

theorem spend_demand_none (rest : List (Option UInt32)) :
    ((demand (none :: rest)).spend .write).spend .sync = demand rest := by
  funext operation
  cases operation <;> rfl

theorem spend_demand_some (permissions : UInt32) (rest : List (Option UInt32)) :
    (((demand (some permissions :: rest)).spend .write).spend .sync).spend .setPermissions =
      demand rest := by
  funext operation
  cases operation <;> rfl

theorem createStagingFile_triple (hdraws : Draws system kept base limit) (hcreate : d .create = 0)
    (target : String) :
    Effect.Triple (At system kept base fails limit (budget + 100) d staged) (createStagingFile system target 100)
      (fun path => At system kept base fails limit budget d ((path, ⟨[], system.newPermissions⟩) :: staged))
      (Ends system kept base fails staged) := by
  refine .intro (fun s s' path ⟨hholds, hfails, hsupply⟩ hx => ?_)
    (fun s s' e ⟨hholds, hfails, hsupply⟩ hx => ?_)
  all_goals
    have hrun : Allocated system d target 100 s _ := createStagingFile_run hcreate target 100 s
    rw [hx] at hrun
  · cases hrun with
    | found hnone hfiles hdrawn hlast hname hnow =>
      obtain ⟨k, hk, rfl⟩ := hname
      refine ⟨⟨?_, fun x hx => ?_⟩, hnow.trans hfails, by omega⟩
      · rw [hfiles]
        exact hholds.toOverlay.add hnone (hdraws.apart target k) _
      · rcases List.mem_cons.mp hx with rfl | hx
        · exact ⟨target, k, hk, rfl⟩
        · obtain ⟨other, j, hj, hname⟩ := hholds.drawn x hx
          exact ⟨other, j, by omega, hname⟩
  · cases hrun with
    | failed hfiles hdrawn hcause =>
      have hsame : Holds system kept base staged s' := by
        refine ⟨hfiles ▸ hholds.toOverlay, fun x hx => ?_⟩
        obtain ⟨other, j, hj, hname⟩ := hholds.drawn x hx
        exact ⟨other, j, by omega, hname⟩
      rcases hcause with hcause | hcause
      · exact .of_holds hsame (hfails.symm.trans hcause)
      · -- One of the names was free.
        obtain ⟨i, hi, hfree, hfresh⟩ := hdraws.supply target s.drawn (by omega)
        refine absurd ((hholds.other _ fun hin => ?_).trans hfree) (hcause i hi)
        obtain ⟨x, hx, hpath⟩ := List.mem_map.mp hin
        obtain ⟨other, j, hj, hname⟩ := hholds.drawn x hx
        exact hfresh other j (by omega) (hname.symm.trans hpath)

/-- A staging file is made with its content, or what has been made of it is left. -/
theorem new_triple (hdraws : Draws system kept base limit) (target : String) (contents : List UInt8)
    (permissions : Option UInt32) :
    Effect.Triple (Ready system kept base fails limit (permissions :: rest) staged)
      (StagedFile.new system target contents permissions)
      (fun created => Ready system kept base fails limit rest
        ((created.path, ⟨contents, permissions.getD system.newPermissions⟩) :: staged))
      (Ends system kept base fails staged) := by
  have hpermissions (path : String) : Effect.Triple
      (At system kept base fails limit (100 * rest.length)
        (((demand (permissions :: rest)).spend .write).spend .sync)
        ((path, ⟨contents, system.newPermissions⟩) :: staged))
      (StagedFile.setAny path permissions)
      (fun _ => Ready system kept base fails limit rest
        ((path, ⟨contents, permissions.getD system.newPermissions⟩) :: staged))
      (Ends system kept base fails staged) := by
    cases permissions with
    | none =>
      rw [spend_demand_none]
      exact .pure fun _ h => h
    | some permissions =>
      have hasked : 0 < (((demand (some permissions :: rest)).spend .write).spend .sync)
          .setPermissions := Nat.succ_pos _
      have htriple : Effect.Triple _ (setPermissions path permissions)
          (fun _ => At system kept base fails limit (100 * rest.length) _ _)
          (Ends system kept base fails staged) :=
        setPermissions_triple ⟨contents, system.newPermissions⟩ hasked permissions
      rwa [spend_demand_some] at htriple
  unfold StagedFile.new
  refine (createStagingFile_triple hdraws rfl target).bind fun path => ?_
  refine (writeAll_triple (Nat.succ_pos _) contents).bind fun _ => ?_
  refine (syncData_triple (Nat.succ_pos _)).bind fun _ => ?_
  exact (hpermissions path).bind fun _ => .pure fun _ h => h

theorem stagingPath_ne_empty (target : String) (random : List UInt8) :
    stagingPath target random ≠ "" := by
  intro h
  have hlist := congrArg String.toList h
  rw [stagingPath, String.toList_append, String.toList_append] at hlist
  simp at hlist

theorem Holds.path_ne_empty {x : String × File} (h : Holds system kept base staged s)
    (hx : x ∈ staged) : x.1 ≠ "" := by
  obtain ⟨target, k, -, hname⟩ := h.drawn x hx
  rw [hname]
  exact stagingPath_ne_empty target _

end Holds

/-- The staging file that is owned, with what is in it. -/
def StagedFile.held (staged : StagedFile) (file : File) : List (String × File) :=
  if staged.path = "" then [] else [(staged.path, file)]

def heldOption : Option StagedFile → Option File → List (String × File)
  | some staged, some file => staged.held file
  | _, _ => []

def PendingFile.held (pending : PendingFile) (new : File) (old : Option File) :
    List (String × File) :=
  pending.replacement.held new ++ heldOption pending.restore old

/-- What a target is to be. -/
def newFile (system : System) (files : String → Option File) (write : DocumentWrite) : File :=
  ⟨write.contents, ((files write.path).map File.permissions).getD system.newPermissions⟩

/-- What a backup is to be: what the target was. -/
def backupFile (files : String → Option File) (write : DocumentWrite) : File :=
  match files write.path with
  | some original =>
    ⟨original.bytes,
      ((files (backupPath write.path)).map File.permissions).getD original.permissions⟩
  | none => ⟨[], 0⟩

def heldBackup (files : String → Option File) (write : DocumentWrite) :
    Option PendingBackup → List (String × File)
  | some backup => backup.held (backupFile files write) (files (backupPath write.path))
  | none => []

def PendingWrite.held (system : System) (files : String → Option File) (write : DocumentWrite)
    (pending : PendingWrite) : List (String × File) :=
  pending.toPendingFile.held (newFile system files write) (files write.path) ++
    heldBackup files write pending.backup

def restorePermissions : Option File → List (Option UInt32)
  | some old => [some old.permissions]
  | none => []

def backupPermissions (files : String → Option File) (write : DocumentWrite) :
    List (Option UInt32) :=
  match write.backup, files write.path with
  | true, some original =>
    some (((files (backupPath write.path)).map File.permissions).getD original.permissions) ::
      restorePermissions (files (backupPath write.path))
  | _, _ => []

/-- The permissions of the staging files of a document, in the order they are made. -/
def stagingPermissions (files : String → Option File) (write : DocumentWrite) :
    List (Option UInt32) :=
  (files write.path).map File.permissions :: restorePermissions (files write.path) ++
    backupPermissions files write

/-- The staging files that are owned are dropped, and nothing else changes. -/
def Drops (system : System) (kept : Set String) (x : Commit Unit)
    (held : List (String × File)) : Prop :=
  ∀ base staged s, Holds system kept base (held ++ staged) s →
    ∃ t, x s = (.ok (), t) ∧ Holds system kept base staged t ∧ t.failing = s.failing

section Drops

variable {system : System} {kept : Set String} {x y : Commit Unit}
  {held held' : List (String × File)}

theorem Drops.pure : Drops system kept (Pure.pure ()) [] :=
  fun _ _ s h => ⟨s, rfl, h, rfl⟩

theorem Drops.bind (hx : Drops system kept x held) (hy : Drops system kept y held') :
    Drops system kept (x >>= fun _ => y) (held ++ held') := by
  intro base staged s h
  rw [List.append_assoc] at h
  obtain ⟨t, hrun, ht, hfailing⟩ := hx base _ s h
  obtain ⟨u, hrun', hu, hfailing'⟩ := hy base staged t ht
  exact ⟨u, (Effect.bind_of_ok hrun).trans hrun', hu, hfailing'.trans hfailing⟩

theorem Drops.perm (hx : Drops system kept x held) (hperm : held'.Perm held) :
    Drops system kept x held' :=
  fun base staged s h => hx base staged s (h.perm (hperm.append_right staged))

theorem drops_staged (staged : StagedFile) (file : File) :
    Drops system kept staged.drop (staged.held file) := by
  intro base rest s h
  unfold StagedFile.drop
  unfold StagedFile.held at h
  split_ifs with hempty
  · rw [if_pos hempty] at h
    exact ⟨s, rfl, h, rfl⟩
  · rw [if_neg hempty] at h
    exact ⟨s.put staged.path none, rfl,
      ⟨h.toOverlay.remove, fun x hx => h.drawn x (List.mem_cons_of_mem _ hx)⟩, rfl⟩

theorem drops_option {restore : Option StagedFile} {old : Option File}
    (h : restore.isSome = old.isSome) :
    Drops system kept (dropOption restore) (heldOption restore old) := by
  match restore, old, h with
  | none, none, _ => exact .pure
  | some staged, some file, _ => exact drops_staged staged file

theorem drops_file {pending : PendingFile} (new : File) {old : Option File}
    (h : pending.restore.isSome = old.isSome) :
    Drops system kept pending.drop (pending.held new old) :=
  (drops_staged pending.replacement new).bind (drops_option h)

/-- What is owned is dropped also where something else is left. -/
theorem Drops.ends (h : Drops system kept x held) {base : String → Option File} {fails : Bool}
    {staged : List (String × File)} :
    Effect.Triple (Ends system kept base fails (held ++ staged)) x
      (fun _ => Ends system kept base fails staged) (Ends system kept base fails staged) := by
  have hrun {s : Disk} (hs : Ends system kept base fails (held ++ staged) s) :
      ∃ t, x s = (.ok (), t) ∧ Ends system kept base fails staged t := by
    obtain ⟨extra, hextra, hholds⟩ := hs
    have hperm : (extra ++ (held ++ staged)).Perm (held ++ (extra ++ staged)) := by
      rw [← List.append_assoc, ← List.append_assoc]
      exact List.perm_append_comm.append_right staged
    obtain ⟨t, ht, hdropped, -⟩ := h base _ s (hholds.perm hperm)
    exact ⟨t, ht, extra, hextra, hdropped⟩
  refine .intro (fun s s' _ hs hx => ?_) (fun s s' _ hs hx => ?_)
  · obtain ⟨t, ht, hend⟩ := hrun hs
    cases ht.symm.trans hx
    exact hend
  · obtain ⟨t, ht, hend⟩ := hrun hs
    cases ht.symm.trans hx

end Drops

end Elfshaker.Esi
