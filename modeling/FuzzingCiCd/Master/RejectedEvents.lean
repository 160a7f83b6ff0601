import FuzzingCiCd.Master.ConcurrentUpdates
import FuzzingCiCd.Master.Transactions

/-!
# Events whose transition is refused

`ExecutorEventService.handle` asks the state machine before it sets the status of an execution, and
writes every other field that the event carries without asking. An event that comes too late
therefore leaves the status alone and may still replace the times and the error of an execution
that has ended, and with them the decision whether it may be retried.

## The result

`leaves_alone_iff` says which of these events are harmless: those that nobody acts on, because they
are not consumed or because the schema refuses to store them and the transaction is rolled back, and
those that say about the times and the error nothing that the row does not say already.

The retry decision is not read off once. `SameRetries` asks for the same decision after every
sequence of later changes of the row, and `SameState.sameRetries` carries the agreement of two rows
along such a sequence.
-/

namespace FuzzingCiCd.Master

open Transition PipelineRunService

/-! ## Rows that agree -/

/-- Two rows of an execution agree on its status, its times and its error. -/
structure SameState (e e' : JobExecutionEntity) : Prop where
  status : e'.status = e.status
  startedAt : e'.startedAt = e.startedAt
  finishedAt : e'.finishedAt = e.finishedAt
  durationMs : e'.durationMs = e.durationMs
  errorType : e'.errorType = e.errorType
  errorCode : e'.errorCode = e.errorCode
  errorMessage : e'.errorMessage = e.errorMessage
  errorRetryable : e'.errorRetryable = e.errorRetryable

/-- What can happen to the row of an execution: a transaction that any execution may meet, or a
decision about the approval that it waits for. -/
inductive RowChange where
  | transaction (t : RowTransaction)
  | approve (now : Instant)
  | reject (now : Instant)

def RowChange.apply (e : JobExecutionEntity) : RowChange → JobExecutionEntity
  | .transaction t => (t.write e).getD e
  | .approve now => if e.status = .waitingApproval then e.setStatus .queued now else e
  | .reject now => if e.status = .waitingApproval then e.finish .skipped now else e

/-- Every later request to retry the execution is decided alike for both rows. -/
def SameRetries (e e' : JobExecutionEntity) : Prop :=
  ∀ (later : List RowChange) (job : JobEntity),
    isRetryCandidate (later.foldl RowChange.apply e') job =
        isRetryCandidate (later.foldl RowChange.apply e) job ∧
      canRetry (later.foldl RowChange.apply e') job = canRetry (later.foldl RowChange.apply e) job

section Rows

variable {e e' : JobExecutionEntity}

theorem SameState.canRetry_eq (h : SameState e e') (hattempt : e'.attempt = e.attempt)
    (job : JobEntity) : canRetry e' job = canRetry e job := by
  rw [canRetry, canRetry, hattempt, h.errorRetryable, h.errorType]

theorem SameState.isRetryCandidate_eq (h : SameState e e') (hattempt : e'.attempt = e.attempt)
    (job : JobEntity) : isRetryCandidate e' job = isRetryCandidate e job := by
  rw [isRetryCandidate, isRetryCandidate, hattempt, h.status, h.canRetry_eq hattempt]

theorem SameState.setStatus (h : SameState e e') (status : JobExecutionStatus) (now : Instant) :
    SameState (e.setStatus status now) (e'.setStatus status now) :=
  { h with status := rfl }

theorem SameState.finish (h : SameState e e') (status : JobExecutionStatus) (now : Instant) :
    SameState (e.finish status now) (e'.finish status now) :=
  { h with status := rfl, finishedAt := rfl }

theorem SameState.applyEvent (h : SameState e e') (now : Instant) (message : ExecutorEventMessage)
    (statusChanged : Bool) (target : Option JobExecutionStatus) :
    SameState (ExecutorEventService.applyEvent now message statusChanged target e)
      (ExecutorEventService.applyEvent now message statusChanged target e') := by
  constructor <;> dsimp only [ExecutorEventService.applyEvent]
  · rw [h.status]
  · rw [h.startedAt]
  · rw [h.finishedAt]
  · rw [h.durationMs]
  · rw [h.errorType]
  · rw [h.errorCode]
  · rw [h.errorMessage]
  · rw [h.errorRetryable]

theorem SameState.ite {p p' : Prop} [Decidable p] [Decidable p'] (h : SameState e e')
    (hp : p' ↔ p) {u u' : JobExecutionEntity} (hu : SameState u u') :
    SameState (if p then u else e) (if p' then u' else e') := by
  by_cases hpos : p
  · rwa [if_pos hpos, if_pos (hp.mpr hpos)]
  · rwa [if_neg hpos, if_neg (mt hp.mp hpos)]

end Rows

/-! ## Later changes -/

namespace RowChange

variable {e e' : JobExecutionEntity}

theorem getD_ite (p : Prop) [Decidable p] (u e : JobExecutionEntity) :
    (if p then some u else none).getD e = if p then u else e := by
  rw [apply_ite (Option.getD · e), Option.getD_some, Option.getD_none]

theorem attempt_apply (e : JobExecutionEntity) (change : RowChange) :
    (change.apply e).attempt = e.attempt := by
  rcases change with t | now | now
  · rcases t with ⟨now, message⟩ | now | now | now | ⟨now, job⟩ <;>
      rw [apply, RowTransaction.write]
    · rfl
    all_goals
      split
      · rfl
      · rfl
  · rw [apply, apply_ite JobExecutionEntity.attempt]
    exact ite_self _
  · rw [apply, apply_ite JobExecutionEntity.attempt]
    exact ite_self _

/-- **One change.** Rows that agree still do after it. -/
theorem sameState_apply (h : SameState e e') (hattempt : e'.attempt = e.attempt)
    (change : RowChange) : SameState (change.apply e) (change.apply e') := by
  rcases change with t | now | now
  · rcases t with ⟨now, message⟩ | now | now | now | ⟨now, job⟩ <;>
      dsimp only [apply, RowTransaction.write]
    · rw [h.status]
      exact h.applyEvent now message _ _
    · rw [h.status]
      split
      · exact h
      · exact h.setStatus .canceling now
    · rw [getD_ite, getD_ite]
      exact h.ite (by rw [h.status]) (h.setStatus .canceling now)
    · rw [getD_ite, getD_ite]
      refine h.ite ?_ (h.finish .timeout now)
      rw [h.status, TimeoutWatchdog.isExpired, TimeoutWatchdog.isExpired, h.startedAt, h.durationMs]
    · rw [getD_ite, getD_ite]
      exact h.ite (by rw [h.isRetryCandidate_eq hattempt]) (h.setStatus .retrying now)
  · exact h.ite (by rw [h.status]) (h.setStatus .queued now)
  · exact h.ite (by rw [h.status]) (h.finish .skipped now)

end RowChange

/-- **All later changes.** Retries of rows that agree are decided alike. -/
theorem SameState.sameRetries {e e' : JobExecutionEntity} (h : SameState e e')
    (hattempt : e'.attempt = e.attempt) : SameRetries e e' := by
  intro later
  induction later generalizing e e' with
  | nil => exact fun job ↦ ⟨h.isRetryCandidate_eq hattempt job, h.canRetry_eq hattempt job⟩
  | cons change later ih =>
    refine ih (RowChange.sameState_apply h hattempt change) ?_
    rw [RowChange.attempt_apply, RowChange.attempt_apply, hattempt]

/-! ## Refused events

A refused event that is consumed and writable is stored with its times and its error, and nothing
else happens. The row then agrees with the one before, also for all that is decided from it
later, exactly if these fields were there already. -/

namespace ExecutorEventService

/-- The state machine refuses the transition to the status of the event. -/
def Refused (message : ExecutorEventMessage) (e : JobExecutionEntity) : Prop :=
  ∃ target ∈ mapStatus message.status, canTransition e.status target = false

/-- Once the event was handled the row agrees with the one before, also for every later retry. -/
def LeavesAlone (c : Catalog) (now : Instant) (delivery : Delivery)
    (message : ExecutorEventMessage) (db : Db) (e : JobExecutionEntity) : Prop :=
  ∃ e' ∈ (handled c now delivery message db).findExecution e.id,
    SameState e e' ∧ SameRetries e e'

/-- The times and the error that the event carries are those of the row. -/
structure SaysNothingNew (message : ExecutorEventMessage) (e : JobExecutionEntity) : Prop where
  startedAt : ∀ startedAt ∈ message.startedAt, e.startedAt = some startedAt
  finishedAt : ∀ finishedAt ∈ message.finishedAt, e.finishedAt = some finishedAt
  durationMs : ∀ durationMs ∈ message.durationMs, e.durationMs = some durationMs
  error : ∀ error ∈ message.error, e.errorType = error.type ∧ e.errorCode = error.code ∧
    e.errorMessage = error.message ∧ e.errorRetryable = error.retryable

section Handling

variable {c : Catalog} {now : Instant} {delivery : Delivery} {message : ExecutorEventMessage}
  {db : Db} {e : JobExecutionEntity}

theorem changesStatus_of_refused (hrefused : Refused message e) :
    changesStatus e.status (mapStatus message.status) = false := by
  obtain ⟨target, htarget, hrefused⟩ := hrefused
  rw [Option.mem_def.mp htarget, changesStatus, hrefused]

theorem handle_of_not_consumes (hold : ¬ Consumes db delivery message) :
    ∃ db', handle c now delivery message db = .ok db' ∧ db'.executions = db.executions := by
  rw [handle]
  by_cases hdup : InboxDeduplicationService.isDuplicate delivery.consumerName delivery.eventSource
      delivery.sourceDocumentId message.messageId db = true
  · rw [if_pos hdup]
    exact ⟨db, rfl, rfl⟩
  rw [if_neg hdup]
  rcases htype : ExecutorEventType.fromValue message.eventType with _ | type
  · exact ⟨_, rfl, rfl⟩
  · exact absurd ⟨by simpa using hdup, by rw [htype]; rfl⟩ hold

/-- A refused event that is consumed ends nothing, so it is only stored. -/
theorem handle_of_refused (hs : Sound db) (he : e ∈ db.executions)
    (hid : message.jobExecutionId = some e.id) (hnew : Consumes db delivery message)
    (hrefused : Refused message e) :
    handle c now delivery message db = .ok (store now delivery message e db) := by
  rw [handle_of_consumes c now hs he hid hnew, if_neg]
  rw [endsExecution, changesStatus_of_refused hrefused, Bool.false_and]
  exact Bool.false_ne_true

/-- A value that may be replaced stays when the replacement is the value. -/
theorem orElse_eq_right_iff {α : Type*} {new old : Option α} :
    (new <|> old) = old ↔ ∀ a ∈ new, old = some a := by
  rcases new with _ | a
  · simp
  · simpa using eq_comm

/-- **What a refused event writes** makes no difference exactly when it says nothing new. -/
theorem sameState_applyEvent_iff (target : Option JobExecutionStatus) :
    SameState e (applyEvent now message false target e) ↔ SaysNothingNew message e := by
  constructor
  · intro h
    refine ⟨orElse_eq_right_iff.mp h.startedAt, orElse_eq_right_iff.mp h.finishedAt,
      orElse_eq_right_iff.mp h.durationMs, fun error herror ↦ ?_⟩
    obtain ⟨-, -, -, -, htype, hcode, hmessage, hretryable⟩ := h
    dsimp only [applyEvent] at htype hcode hmessage hretryable
    rw [Option.mem_def.mp herror] at htype hcode hmessage hretryable
    exact ⟨htype.symm, hcode.symm, hmessage.symm, hretryable.symm⟩
  · intro h
    have hstarted := orElse_eq_right_iff.mpr h.startedAt
    have hfinished := orElse_eq_right_iff.mpr h.finishedAt
    have hduration := orElse_eq_right_iff.mpr h.durationMs
    rcases herror : message.error with _ | error
    · refine ⟨rfl, hstarted, hfinished, hduration, ?_, ?_, ?_, ?_⟩
      all_goals simp only [applyEvent, herror]
    · obtain ⟨htype, hcode, hmessage, hretryable⟩ := h.error error herror
      refine ⟨rfl, hstarted, hfinished, hduration, ?_, ?_, ?_, ?_⟩
      all_goals simp only [applyEvent, herror, htype, hcode, hmessage, hretryable]

theorem handled_of_unheeded (h : Schema c db) (hs : Sound db) (hfresh : InboxFresh db)
    (he : e ∈ db.executions) (hid : message.jobExecutionId = some e.id)
    (hold : ¬ (Consumes db delivery message ∧ Writable db delivery message)) :
    (handled c now delivery message db).executions = db.executions := by
  by_cases hnew : Consumes db delivery message
  · rw [handled_of_not_writable h hs hfresh he hid hnew fun hwritable ↦ hold ⟨hnew, hwritable⟩]
  · rw [handled]
    rcases htransaction : transaction c now delivery message db with failure | db'
    · rw [apply_of_error htransaction]
    · obtain ⟨db₁, hok, hrows⟩ := @handle_of_not_consumes c now _ _ _ hnew
      obtain rfl := Except.ok.inj
        (hok.symm.trans (handle_of_transaction h hs hfresh htransaction).1)
      rw [apply_of_ok htransaction, hrows]

/-- **A refused event leaves the execution alone exactly when it is not consumed, the schema refuses
to store it, or it says nothing new about the times and the error.** -/
theorem leaves_alone_iff (h : Schema c db) (hs : Sound db) (hfresh : InboxFresh db)
    (he : e ∈ db.executions) (hid : message.jobExecutionId = some e.id)
    (hrefused : Refused message e) :
    LeavesAlone c now delivery message db e ↔
      (Consumes db delivery message → Writable db delivery message →
        SaysNothingNew message e) := by
  by_cases hacts : Consumes db delivery message ∧ Writable db delivery message
  · obtain ⟨hnew, hwritable⟩ := hacts
    have hhandle := @handle_of_refused c now _ _ _ _ hs he hid hnew hrefused
    have hrow := handle_row hs he hid hnew hhandle
    rw [RowTransaction.write, changesStatus_of_refused hrefused] at hrow
    have hhandled : handled c now delivery message db = store now delivery message e db := by
      rw [handled_of_writable h hs hfresh he hid hnew hwritable, apply_of_ok hhandle]
    rw [LeavesAlone, hhandled, ← @sameState_applyEvent_iff now _ _ (mapStatus message.status)]
    constructor
    · rintro ⟨e', he', hsame, -⟩ - -
      rwa [Option.some.inj (hrow.symm.trans he')]
    · intro hnothing
      have hsame := hnothing hnew hwritable
      exact ⟨_, hrow, hsame, hsame.sameRetries rfl⟩
  · refine iff_of_true ?_ fun hnew hwritable ↦ absurd ⟨hnew, hwritable⟩ hacts
    have hsame : SameState e e := ⟨rfl, rfl, rfl, rfl, rfl, rfl, rfl, rfl⟩
    refine ⟨e, ?_, hsame, hsame.sameRetries rfl⟩
    rw [Db.findExecution, handled_of_unheeded h hs hfresh he hid hacts]
    exact hs.findExecution.mpr ⟨he, rfl⟩

end Handling

/-! ## A late error

An execution failed without an error that may be retried. Its executor then reports that it runs,
with an infrastructure error, and the execution may be retried. -/

/-- The execution has failed. -/
def failed : Db :=
  history Small.solo
    [Small.call (.createRun 0 none), Small.deliver (Small.message 10 2 .running),
      Small.deliver (Small.message 11 2 .failed)]

/-- A report of the execution that is late. -/
def late : ExecutorEventMessage :=
  { Small.failure 12 2 with
    eventType := some ExecutorEventType.jobProgress.name
    status := some ExecutorStatus.running.name }

instance (message : ExecutorEventMessage) (e : JobExecutionEntity) :
    Decidable (Refused message e) :=
  inferInstanceAs (Decidable (∃ target ∈ mapStatus message.status, _))

theorem failed_row :
    ∃ e ∈ failed.findExecution 2, Refused late e ∧ e.id = 2 ∧
      isRetryCandidate e (Small.job 2 0) = false := by
  decide +kernel

theorem leaves_alone_late_iff :
    ∃ e ∈ failed.executions, (LeavesAlone Small.solo 0 Small.results late failed e ↔
      (Consumes failed Small.results late → Writable failed Small.results late →
        SaysNothingNew late e)) := by
  obtain ⟨e, he, hrefused, hid, -⟩ := failed_row
  have hs : Sound failed := sound_history _ _
  have hmem := (hs.findExecution.mp he).1
  refine ⟨e, hmem, leaves_alone_iff (by decide +kernel) hs (inboxFresh_history _) hmem ?_ hrefused⟩
  rw [hid]
  rfl

theorem not_leaves_alone :
    ∃ e ∈ failed.findExecution 2, Refused late e ∧ isRetryCandidate e (Small.job 2 0) = false ∧
      ¬ LeavesAlone Small.solo 0 Small.results late failed e := by
  obtain ⟨e, he, hrefused, hid, hfalse⟩ := failed_row
  have hafter : ∀ e' ∈ (handled Small.solo 0 Small.results late failed).findExecution 2,
      isRetryCandidate e' (Small.job 2 0) = true := by
    decide +kernel
  refine ⟨e, he, hrefused, hfalse, ?_⟩
  rintro ⟨e', he', -, hretries⟩
  have htrue := hafter e' (hid ▸ he')
  have hsame := (hretries [] (Small.job 2 0)).1
  rw [List.foldl_nil, List.foldl_nil, htrue, hfalse] at hsame
  cases hsame

end ExecutorEventService

end FuzzingCiCd.Master
