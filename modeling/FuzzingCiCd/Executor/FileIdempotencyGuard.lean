import FuzzingCiCd.Executor.JobHandler

/-!
# The idempotency guard

`FileIdempotencyGuard`: for each execution a lock file, held while the job is executed, and a state
file, which outlives it. The guards of several executors meet in the directory of these files, so
a delivery of the job is known here by a number, and an access to the files carries the number of
its delivery. A delivery whose process dies releases its lock like one that closes its claim.

Who holds the lock keeps the others out until it is released, and a recorded success keeps
everybody out for ever. A recorded failure keeps nobody out: the job is then executed again.

## Main results

* `holder_after`: only the delivery that holds the lock can release it.
* `duplicate_of_holder`: a claimed job is not started by anybody else.
* `settled_of_success`, `after_of_settled`: after a recorded success nothing changes any more.
-/

namespace FuzzingCiCd.Executor

open Contracts

/-! ## Decisions -/

namespace IdempotencyDecision

def started : IdempotencyDecision :=
  ⟨.started, some .running, some "Job принята к выполнению", none, []⟩

def duplicateRunning (updatedAt : Option Instant) : IdempotencyDecision :=
  ⟨.duplicateRunning, some .running, some "Повторная доставка job пропущена: job уже выполняется",
    updatedAt, []⟩

def duplicateCompleted (previousStatus : ExecutionStatus) (summary : Option String)
    (updatedAt : Option Instant) (metadata : JsonMap) : IdempotencyDecision where
  type := .duplicateCompleted
  previousStatus := some previousStatus
  summary := match summary with
    | none => some "Повторная доставка job пропущена: результат уже зафиксирован"
    | some summary =>
      if JavaText.isBlank summary then
        some "Повторная доставка job пропущена: результат уже зафиксирован"
      else some ("Повторная доставка job пропущена: " ++ summary)
  updatedAt := updatedAt
  metadata := metadata

end IdempotencyDecision

namespace FileIdempotencyGuard

/-! ## The files -/

/-- The content of a state file; the time stands for its text. -/
structure IdempotencyState where
  schemaVersion : Int32
  messageId : Option UUID
  attempt : Int32
  status : ExecutionStatus
  summary : Option String
  updatedAt : Instant
  metadata : JsonMap

/-- `JobType.name`. -/
def jobTypeName : JobType → String
  | .vcs => "VCS"
  | .storage => "STORAGE"
  | .build => "BUILD"
  | .fuzzing => "FUZZING"
  | .deploy => "DEPLOY"
  | .script => "SCRIPT"

namespace IdempotencyState

def running (job : JobMessage) (updatedAt : Instant) : IdempotencyState where
  schemaVersion := job.schemaVersion
  messageId := job.messageId
  attempt := job.attempt
  status := .running
  summary := some "Job выполняется"
  updatedAt := updatedAt
  metadata := []

/-- The names of the event types are their wire values. -/
def completed (event : ExecutorEventMessage) (updatedAt : Instant) : IdempotencyState where
  schemaVersion := event.schemaVersion
  messageId := some event.messageId
  attempt := event.attempt
  status := event.status
  summary := event.summary
  updatedAt := updatedAt
  metadata := [("eventType", .str event.eventType.wireValue),
    ("jobType", Json.ofOption (fun type ↦ .str (jobTypeName type)) event.jobType),
    ("templatePath", Json.ofOption .str event.templatePath)]

end IdempotencyState

/-- The files of one execution: the delivery that holds the lock, and the state. -/
structure Files where
  holder : Option ℕ
  state : Option IdempotencyState

/-- Before the first delivery. -/
def Files.empty : Files := ⟨none, none⟩

def isDuplicateCompleted (status : ExecutionStatus) : Bool :=
  status = .success || status = .skipped

/-! ## Accesses -/

section Accesses

variable (job : JobMessage)

/-- The part of `acquire` that holds the lock. -/
def acquireLocked (delivery : ℕ) (now : Instant) (files : Files) : IdempotencyDecision × Files :=
  let start : IdempotencyDecision × Files :=
    (.started, ⟨some delivery, some (.running job now)⟩)
  match files.state with
  | none => start
  | some currentState =>
    if isDuplicateCompleted currentState.status then
      (.duplicateCompleted currentState.status currentState.summary (some currentState.updatedAt)
        currentState.metadata, files)
    else start

/-- `acquire`: the decision and the files after it. -/
def acquire (delivery : ℕ) (now : Instant) (files : Files) : IdempotencyDecision × Files :=
  if files.holder.isSome then
    (.duplicateRunning (files.state.map IdempotencyState.updatedAt), files)
  else acquireLocked job delivery now files

/-- What the deliveries do with the files. -/
inductive Access where
  | acquire (delivery : ℕ) (now : Instant)
  | complete (delivery : ℕ) (event : ExecutorEventMessage) (now : Instant)
  | close (delivery : ℕ)

/-- An access changes the files. The claim of a duplicate neither writes nor releases anything. -/
def access (files : Files) : Access → Files
  | .acquire delivery now => (acquire job delivery now files).2
  | .complete delivery event now =>
    if files.holder = some delivery then { files with state := some (.completed event now) }
    else files
  | .close delivery => if files.holder = some delivery then { files with holder := none } else files

/-- The files after a sequence of accesses. -/
def after (files : Files) (accesses : List Access) : Files := accesses.foldl (access job) files

/-- The guard has answered the delivery in the course of the accesses. -/
def Answered (accesses : List Access) (delivery : ℕ) (decision : IdempotencyDecision) : Prop :=
  ∃ earlier now later, accesses = earlier ++ .acquire delivery now :: later ∧
    (acquire job delivery now (after job .empty earlier)).1 = decision

end Accesses

/-! ## Exclusion -/

section Exclusion

variable {job : JobMessage} {files : Files} {accesses : List Access} {delivery : ℕ}

/-- A claimed job is not started by anybody. -/
theorem duplicate_of_holder {holder : ℕ} (h : files.holder = some holder) (now : Instant) :
    (acquire job delivery now files).1.shouldExecute = false ∧
      (acquire job delivery now files).2 = files := by
  rw [acquire, h, Option.isSome_some, if_pos rfl]
  exact ⟨rfl, rfl⟩

/-- **While the lock is held.** Only the delivery that holds it can release it. -/
theorem holder_after (h : files.holder = some delivery)
    (hclose : ∀ a ∈ accesses, a ≠ .close delivery) :
    (after job files accesses).holder = some delivery := by
  induction accesses generalizing files with
  | nil => exact h
  | cons a accesses ih =>
    rw [List.forall_mem_cons] at hclose
    refine ih ?_ hclose.2
    rcases a with ⟨other, now⟩ | ⟨other, event, now⟩ | other
    · rw [access, (duplicate_of_holder h now).2, h]
    · rw [access]
      split
      · exact h
      · exact h
    · have hne : files.holder ≠ some other := by
        rw [h]
        rintro heq
        exact hclose.1 (Option.some.inj heq ▸ rfl)
      rw [access, if_neg hne, h]

/-- Nobody holds the lock and a success is recorded. -/
structure Settled (files : Files) : Prop where
  free : files.holder = none
  completed : ∃ state ∈ files.state, isDuplicateCompleted state.status = true

theorem duplicate_of_settled (h : Settled files) (now : Instant) :
    (acquire job delivery now files).1.shouldExecute = false ∧
      (acquire job delivery now files).2 = files := by
  obtain ⟨state, hstate, hcompleted⟩ := h.completed
  rw [acquire, h.free, Option.isSome_none, if_neg Bool.false_ne_true, acquireLocked, hstate]
  dsimp only
  rw [if_pos hcompleted]
  exact ⟨rfl, rfl⟩

/-- **After a success.** The files do not change any more. -/
theorem after_of_settled (h : Settled files) : after job files accesses = files := by
  induction accesses with
  | nil => rfl
  | cons a accesses ih =>
    rw [after, List.foldl_cons]
    have hfree : ∀ other, files.holder ≠ some other := fun other ↦ by simp [h.free]
    rcases a with ⟨other, now⟩ | ⟨other, event, now⟩ | other
    · rw [access, (duplicate_of_settled h now).2]
      exact ih
    · rw [access, if_neg (hfree other)]
      exact ih
    · rw [access, if_neg (hfree other)]
      exact ih

/-- **A success.** When the delivery that holds the lock records a success and closes, nobody is
started from then on. -/
theorem settled_of_success (h : files.holder = some delivery)
    (hclose : ∀ a ∈ accesses, a ≠ .close delivery) {event : ExecutorEventMessage}
    (hsuccess : isDuplicateCompleted event.status = true) (now : Instant) :
    Settled (after job files (accesses ++ [.complete delivery event now, .close delivery])) := by
  have hheld : (after job files accesses).holder = some delivery := holder_after h hclose
  rw [after] at hheld
  rw [after, List.foldl_append, List.foldl_cons, List.foldl_cons, List.foldl_nil, access,
    access, if_pos hheld, if_pos hheld]
  exact ⟨rfl, _, rfl, hsuccess⟩

end Exclusion

end FileIdempotencyGuard

end FuzzingCiCd.Executor
