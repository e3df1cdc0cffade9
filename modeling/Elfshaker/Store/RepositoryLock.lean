import Elfshaker.Library.Locking
import Elfshaker.Store.Files

namespace Elfshaker.Store

open Elfshaker.Library Elfshaker.Format

/-- A process that shares a data directory with others. -/
abbrev Process (α : Type) := Program (Session Disk Fault) IoError Error α

/-- A repository, as far as its lock goes. -/
structure OpenRepository where
  /-- There is none where nothing may be written. -/
  hasLockFile : Bool
  isLockedExclusively : Bool
  deriving DecidableEq, Repr

/-- What the system says when `mutex` is opened. -/
inductive MutexFile where
  | opened
  | readOnly
  | failing (e : IoError)
  deriving DecidableEq, Repr

/-- `fs2::lock_contended_error`. -/
def lockContended : IoError := .other "Resource temporarily unavailable (os error 11)"

/-- What is shown of an error. -/
def IoError.shown : IoError → String
  | .notFound => "No such file or directory (os error 2)"
  | .alreadyExists => "File exists (os error 17)"
  | .notADirectory => "Not a directory (os error 20)"
  | .isADirectory => "Is a directory (os error 21)"
  | .directoryNotEmpty => "Directory not empty (os error 39)"
  | .filesystemLoop => "Too many levels of symbolic links (os error 40)"
  | .invalidInput => "Invalid argument (os error 22)"
  | .unexpectedEof => "unexpected end of file"
  | .other message => message

def neitherLocked (lockError restoreError : IoError) : IoError :=
  .other ("failed to acquire exclusive repository lock (" ++ IoError.shown lockError ++
    "); failed to restore shared repository lock (" ++ IoError.shown restoreError ++ ")")

/-- A failed request is an error of the repository. -/
def granted : Except IoError Unit → Process Unit
  | .ok () => pure ()
  | .error e => .done (Exec.fail (.ioError e))

/-- The lock, at once or after it was waited for. -/
def waitLock (mode : LockMode) : Process (Except IoError Unit) := do
  let tried ← Program.request (.tryLock mode)
  if tried = .error lockContended then Program.request (.lock mode) else pure tried

namespace OpenRepository

/-- `Repository::open_with_data_dir`. -/
def openWithDataDir (mutex : MutexFile) : Process OpenRepository :=
  match mutex with
  | .readOnly => pure ⟨false, false⟩
  | .failing e => .done (Exec.fail (.ioError e))
  | .opened => do
    let locked ← waitLock .shared
    granted locked
    pure ⟨true, false⟩

def restoreSharedLockOnError : Except IoError Unit → Process Unit
  | .ok () => pure ()
  | .error lockError => do
    let restored ← Program.request (.lock .shared)
    match restored with
    | .ok () => .done (Exec.fail (.ioError lockError))
    | .error restoreError => .done (Exec.fail (.ioError (neitherLocked lockError restoreError)))

/-- `Repository::lock_exclusive`. The shared lock is given back before the exclusive one is
asked for. -/
def lockExclusive (repo : OpenRepository) : Process OpenRepository :=
  if repo.isLockedExclusively then pure repo
  else if !repo.hasLockFile then
    .done (Exec.fail (.ioError (.other "modifying readonly repository is not allowed")))
  else do
    let unlocked ← Program.request .unlock
    granted unlocked
    let lockResult ← waitLock .exclusive
    restoreSharedLockOnError lockResult
    pure { repo with isLockedExclusively := true }

section Alone

theorem alone_openWithDataDir : (openWithDataDir .opened).alone = pure ⟨true, false⟩ := rfl

theorem alone_lockExclusive : (lockExclusive ⟨true, false⟩).alone = pure ⟨true, true⟩ := rfl

end Alone

section Safe

variable {I P : Session Disk Fault → Prop} {G : Session Disk Fault → Session Disk Fault → Prop}
  {mode wanted : LockMode} {held : Option LockMode}

theorem exists_session : ∃ _ : Session Disk Fault, True :=
  ⟨⟨⟨⟨∅, ∅, none⟩, 0⟩, []⟩, trivial⟩

/-- What a request leads to. -/
def Replied (r : LockRequest) (held : Option LockMode) (result : Exec Error (Except IoError Unit))
    (now : Option LockMode) (_ : Session Disk Fault) : Prop :=
  ∃ reply, result = .ok reply ∧ now = r.heldAfter held reply

theorem safe_request {r : LockRequest} (free : ∀ m, r = .lock m → held = none) :
    Program.Safe I G mode (Replied r held) held P (Program.request r : Process (Except IoError Unit)) :=
  .ask free fun reply => .done fun _ _ => ⟨reply, rfl, rfl⟩

/-- What was waited for is held, or nothing is. -/
theorem safe_waitLock :
    Program.Safe I G mode (Replied (.lock wanted) none) none (fun _ => True) (waitLock wanted) := by
  have htried : Program.Safe I G mode (Replied (.tryLock wanted) none) none (fun _ => True)
      (Program.request (.tryLock wanted) : Process (Except IoError Unit)) :=
    safe_request fun _ h => by cases h
  refine htried.bind exists_session ?_ fun e now s h => by obtain ⟨_, h, -⟩ := h; cases h
  rintro tried now ⟨s, reply, hreply, hnow⟩
  obtain rfl := Except.ok.inj hreply
  split_ifs with hcontended
  · obtain rfl : now = none := by simpa [hcontended, LockRequest.heldAfter] using hnow
    exact safe_request fun _ _ => rfl
  · refine .done fun t _ => ⟨tried, rfl, ?_⟩
    rw [hnow]
    cases tried <;> rfl

def Opened (result : Exec Error OpenRepository) (now : Option LockMode)
    (_ : Session Disk Fault) : Prop :=
  match result with
  | .ok repo => repo = ⟨true, false⟩ ∧ now = some .shared
  | .error _ => now = none

/-- A repository that was opened with its lock file has the shared lock. -/
theorem safe_openWithDataDir :
    Program.Safe I G mode Opened none (fun _ => True) (openWithDataDir .opened) := by
  refine safe_waitLock.bind exists_session ?_ fun e now s h => by obtain ⟨_, h, -⟩ := h; cases h
  rintro locked now ⟨s, reply, hreply, rfl⟩
  obtain rfl := Except.ok.inj hreply
  cases locked with
  | ok _ => exact .done fun _ _ => ⟨rfl, rfl⟩
  | error e => exact .done fun _ _ => rfl

/-- After a failure the shared lock is held, as before, or the error says why it is not. -/
def Restored (now : Option LockMode) (e : Failure Error) : Prop :=
  now = some .shared ∨
    now = none ∧ ∃ lockError restoreError, e = .error (.ioError (neitherLocked lockError restoreError))

/-- How an upgrade ends. -/
def Upgraded (result : Exec Error OpenRepository) (now : Option LockMode)
    (_ : Session Disk Fault) : Prop :=
  match result with
  | .ok repo => repo = ⟨true, true⟩ ∧ now = some .exclusive
  | .error e => Restored now e

/-- An upgrade ends with the exclusive lock, or restores the shared one. -/
theorem safe_lockExclusive :
    Program.Safe I G mode Upgraded (some .shared) P (lockExclusive ⟨true, false⟩) := by
  refine .ask (fun _ h => by cases h) fun reply => ?_
  cases reply with
  | error e => exact .done fun _ _ => .inl rfl
  | ok _ =>
    suffices hrest : Program.Safe I G mode Upgraded none (fun _ => True)
        (waitLock .exclusive >>= fun lockResult => restoreSharedLockOnError lockResult >>= fun _ =>
          (pure ⟨true, true⟩ : Process OpenRepository)) from hrest
    refine safe_waitLock.bind exists_session ?_ fun e now s h => by obtain ⟨_, h, -⟩ := h; cases h
    rintro lockResult now ⟨s, reply, hreply, rfl⟩
    obtain rfl := Except.ok.inj hreply
    cases lockResult with
    | ok _ => exact .done fun _ _ => ⟨rfl, rfl⟩
    | error lockError =>
      refine .ask (fun _ _ => rfl) fun restored => ?_
      cases restored with
      | ok _ => exact .done fun _ _ => .inl rfl
      | error restoreError => exact .done fun _ _ => .inr ⟨rfl, lockError, restoreError, rfl⟩

end Safe

end OpenRepository

end Elfshaker.Store
