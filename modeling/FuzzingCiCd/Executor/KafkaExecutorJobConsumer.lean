import FuzzingCiCd.Executor.HandlerRelease

/-!
# Answering a record

`KafkaExecutorJobConsumer.onJob` takes one record from the topic of the executor. It looks the code
of the job up by the template path, lets the handler run it and acknowledges the record. A throw
leaves the record unacknowledged: it is delivered again, and nothing behind it in its partition is.

Two calls stand outside the `catch` branches of the handler. The map of the jobs is an immutable
one, which throws when it is asked for `null`, so a message without a template path never comes to
the validation that would report it. And the `finally` block throws when the workspace policy asks
for a cleanup that the workspace manager does not know, after the terminal event has been published.
Together with an `Error` of the code of the job these are the only ways to fail: `answered_iff`.

## Main results

* `due_of_admitted`: which terminal event an admitted job comes to.
* `returned_iff`: when a call with dependable surroundings returns.
-/

namespace FuzzingCiCd.Executor

open Contracts Transition ExecutorJobHandler

/-! ## The consumer -/

/-- The code of a job, as the handler calls it. -/
abbrev ExecutorJob := JobMessage → Except Thrown (Option ExecutorJobResult)

/-- What a delivery has come to: how the listener ends, the events that were published and how often
the record was acknowledged. -/
structure Delivery where
  outcome : Except Thrown Unit
  published : List ExecutorEventMessage
  acknowledged : ℕ

namespace KafkaExecutorJobConsumer

/-- An immutable map, which does not admit `null` as a key. -/
def get (jobsByTemplatePath : String → Option ExecutorJob) :
    Option String → Except Failure (Option ExecutorJob)
  | none => .error (.exception "java.lang.NullPointerException" none)
  | some templatePath => .ok (jobsByTemplatePath templatePath)

def unsupportedTemplateJob : ExecutorJob := fun job ↦
  .error (.job (.validation ("Executor не поддерживает templatePath=" ++
    job.templatePath.getD "null")))

section Listener

variable (env : Environment) (metrics : ExecutorJobMetrics)
  (jobsByTemplatePath : String → Option ExecutorJob) (job : JobMessage)

/-- The surroundings of the handler with the code of a job. -/
def withJob (executorJob : ExecutorJob) : Environment := { env with execute := executorJob }

/-- `onJob`. -/
def onJob : Delivery :=
  match get jobsByTemplatePath job.templatePath with
  | .error failure => ⟨.error (.failure failure), [], 0⟩
  | .ok executorJob =>
    let call := run (withJob env (executorJob.getD unsupportedTemplateJob)) metrics job
    match call.1 with
    | .error thrown => ⟨.error thrown, call.2.1.published, 0⟩
    | .ok _ => ⟨.ok (), call.2.1.published, 1⟩

/-- The code that the consumer chooses for a message with the given template path. -/
def chosen (templatePath : String) : ExecutorJob :=
  (jobsByTemplatePath templatePath).getD unsupportedTemplateJob

end Listener

/-! ## Answers -/

/-- **An answer.** The listener returns, one terminal event is out and names the execution, and the
record is acknowledged once. -/
structure Answered (job : JobMessage) (delivery : Delivery) : Prop where
  returned : delivery.outcome = .ok ()
  terminal : ∃ message, delivery.published.filter isTerminal = [message] ∧
    message.jobExecutionId = job.jobExecutionId
  acknowledged : delivery.acknowledged = 1

/-- The publishers, the counters and the storage do not fail. -/
structure Dependable (env : Environment) (metrics : ExecutorJobMetrics) : Prop where
  published : ∀ message, env.publish message = .ok ()
  logged : ∀ message, env.publishLog message = .ok ()
  counted : ∀ message, env.jobFinished message = .ok ()
  started : metrics.jobStarted = .ok ()
  stopped : metrics.jobStopped = .ok ()
  created : ∀ job, env.createWorkspace job = .ok ()
  acquired : ∀ job, ∃ decision, env.acquire job = .ok decision
  recorded : ∀ message, env.complete message = .ok ()
  closed : env.close = .ok ()

/-- The status that the code of a job comes to. -/
def endingOf : Except Thrown (Option ExecutorJobResult) → ExecutionStatus
  | .ok (some result) => result.status
  | .ok none => emptyResult.status
  | .error thrown => failureStatus thrown

/-- The message is valid and new to the guard, so that the code of the job is called. -/
def Admitted (env : Environment) (job : JobMessage) : Prop :=
  validate job = .ok () ∧
    ∃ decision, env.acquire job = .ok decision ∧ decision.shouldExecute = true

/-- The cleanup that a policy asks for is one that the workspace manager knows. -/
def KnownCleanup (policy : WorkspacePolicy) : Prop :=
  JavaText.toLowerCase (LocalWorkspaceManager.requestedCleanup policy).toList =
      LocalWorkspaceManager.cleanupAlways.toList ∨
    JavaText.toLowerCase (LocalWorkspaceManager.requestedCleanup policy).toList =
      LocalWorkspaceManager.cleanupNever.toList

/-- **When a message can be answered.** It has a template path and, if the code of its job is
called, this ends without an `Error` and the workspace can be left. -/
structure Answerable (env : Environment) (jobsByTemplatePath : String → Option ExecutorJob)
    (job : JobMessage) : Prop where
  named : job.templatePath ≠ none
  caught : Admitted env job → ∀ templatePath, job.templatePath = some templatePath →
    chosen jobsByTemplatePath templatePath job ≠ .error (.failure .error)
  leavable : Admitted env job → ∀ templatePath, job.templatePath = some templatePath →
    KnownCleanup (LocalWorkspaceManager.resolvedPolicy job.workspacePolicy) ∨
      ((LocalWorkspaceManager.resolvedPolicy job.workspacePolicy).preserveOnFailure = true ∧
        shouldPreserveAsFailure (endingOf (chosen jobsByTemplatePath templatePath job)) = true)

/-! ## What the handler does with dependable surroundings -/

section Handler

variable {env : Environment} {metrics : ExecutorJobMetrics} {job : JobMessage}

theorem Dependable.publishersWork (h : Dependable env metrics) : PublishersWork env :=
  ⟨h.published, h.logged⟩

theorem executes_iff : executes env job = true ↔ Admitted env job := by
  rw [executes, accepted, Admitted]
  rcases validate job with exception | ⟨⟨⟩⟩
  · exact iff_of_false Bool.false_ne_true fun h ↦ by cases h.1
  rcases env.acquire job with failure | decision
  · refine iff_of_false Bool.false_ne_true ?_
    rintro ⟨-, decision, hdecision, -⟩
    cases hdecision
  · refine ⟨fun h ↦ ⟨rfl, decision, rfl, h⟩, ?_⟩
    rintro ⟨-, other, hother, hexecute⟩
    rwa [← Except.ok.inj hother] at hexecute

theorem hasWorkspace_eq (h : Dependable env metrics) :
    hasWorkspace env job = executes env job := by
  rw [hasWorkspace, h.created]
  exact Bool.and_true _

theorem accepted_of_valid {decision : IdempotencyDecision} (hvalid : validate job = .ok ())
    (hdecision : env.acquire job = .ok decision) : accepted env job = .ok decision := by
  rw [accepted, hvalid, hdecision]
  rfl

theorem served_eq (h : Dependable env metrics) : served env job = returned env job := by
  rw [served]
  rcases returned env job with thrown | result
  · rfl
  have hlogged : logged env job result = .ok () := by
    rw [logged]
    rcases result.logs with _ | logs
    · rfl
    · dsimp only
      rw [h.logged]
      split_ifs
      · rfl
      · rfl
  have hstored : stored env job result = .ok () := by
    rw [stored, h.published]
    split_ifs
    · rfl
    · rfl
  rw [ok_bind, hlogged, ok_bind, hstored]
  rfl

/-- **An admitted job.** What is due is what the code of the job has come to. -/
theorem due_of_admitted (h : Dependable env metrics) (hadmitted : Admitted env job) :
    due env job = (returned env job).map fun result ↦ (finishedEvent env job result, true) := by
  obtain ⟨hvalid, decision, hdecision, hexecute⟩ := hadmitted
  have hstarted : started env job = .ok () := by
    rw [started, h.created, h.published]
    rfl
  rw [due, accepted_of_valid hvalid hdecision, ok_bind, if_pos hexecute, hstarted, ok_bind,
    served_eq h]
  rcases returned env job with thrown | result
  · rfl
  · rfl

/-- The body ends with an `Error` only if the code of an admitted job does. -/
theorem due_eq_error_iff (h : Dependable env metrics) :
    due env job = .error (.failure .error) ↔
      Admitted env job ∧ env.execute job = .error (.failure .error) := by
  by_cases hadmitted : Admitted env job
  · rw [due_of_admitted h hadmitted, and_iff_right hadmitted, returned]
    rcases env.execute job with thrown | ⟨⟨⟩ | result⟩
    · refine ⟨fun hdue ↦ ?_, fun hthrown ↦ ?_⟩
      · exact congrArg Except.error (Except.error.inj hdue)
      · rw [Except.error.inj hthrown]
        rfl
    · exact iff_of_false (fun h ↦ by cases h) fun h ↦ by cases h
    · exact iff_of_false (fun h ↦ by cases h) fun h ↦ by cases h
  refine iff_of_false (fun hdue ↦ ?_) fun hcode ↦ hadmitted hcode.1
  obtain ⟨decision, hdecision⟩ := h.acquired job
  rcases hvalid : validate job with exception | ⟨⟨⟩⟩
  · rw [due, accepted, hvalid] at hdue
    cases hdue
  · rw [due, accepted_of_valid hvalid hdecision, ok_bind,
      if_neg fun hexecute ↦ hadmitted ⟨hvalid, decision, hdecision, hexecute⟩] at hdue
    cases hdue

/-- The first terminal event of an admitted job has the status that its code has come to. -/
theorem status_of_firstOut (h : Dependable env metrics) (hadmitted : Admitted env job)
    {message : ExecutorEventMessage} {completes : Bool}
    (hfirst : firstOut env job = some (message, completes)) :
    message.status = endingOf (env.execute job) := by
  rw [firstOut, due_of_admitted h hadmitted, returned] at hfirst
  -- a thrown exception is reported with its own status or that of a failure
  have hreported : ∀ thrown, acceptedFailure env job thrown = some (message, completes) →
      message.status = failureStatus thrown := by
    intro thrown hfailure
    rw [acceptedFailure, Option.filter_eq_some_iff, failureOf, Option.map_eq_some_iff] at hfailure
    obtain ⟨⟨⟨exception, marks⟩, hcaught, hmessage⟩, -⟩ := hfailure
    obtain ⟨rfl, -⟩ := Prod.mk.inj hmessage
    rcases thrown with thrown | text | ⟨className, text⟩ | _
    · rw [caught] at hcaught
      split_ifs at hcaught
      obtain ⟨rfl, -⟩ := Prod.mk.inj (Option.some.inj hcaught)
      rfl
    · obtain ⟨rfl, -⟩ := Prod.mk.inj (Option.some.inj hcaught)
      rfl
    · obtain ⟨rfl, -⟩ := Prod.mk.inj (Option.some.inj hcaught)
      rfl
    · cases hcaught
  rcases hcode : env.execute job with thrown | ⟨⟨⟩ | result⟩
  · rw [hcode] at hfirst
    exact hreported thrown hfirst
  · rw [hcode] at hfirst
    exact hreported (.job emptyResult) hfirst
  · rw [hcode] at hfirst
    dsimp only [Except.map, bind, Except.bind] at hfirst
    rw [h.published] at hfirst
    obtain ⟨rfl, -⟩ := Prod.mk.inj (Option.some.inj hfirst)
    rfl

theorem jobExecutionId_of_terminal {message : ExecutorEventMessage}
    (hmessage : message ∈ (terminal env job).2) : message.jobExecutionId = job.jobExecutionId := by
  have hhandle : (handle env job .initial).2 = tried env job := by
    have hrun := observes_handle env job (.initial, .empty)
    rw [← congrArg Prod.snd hrun]
    change (run env .noop job).2.1 = _
    rw [run_eq]
    rfl
  refine jobExecutionId_of_published env job message ?_
  rw [hhandle]
  exact List.mem_append_right _ hmessage

end Handler

/-! ## The whole delivery

With publishers and storage that do not fail there are three ways to lose an answer: there is no
template path, the code of the job ends with an `Error`, or the workspace cannot be left.
`answered_iff` says that there are no others. -/

section Whole

variable {env : Environment} {metrics : ExecutorJobMetrics}
  {jobsByTemplatePath : String → Option ExecutorJob} {job : JobMessage}

theorem feasible_iff {policy : WorkspacePolicy} :
    LocalWorkspaceManager.Feasible policy (.ok ()) ↔ KnownCleanup policy :=
  ⟨fun h ↦ h.known, fun h ↦ ⟨h, fun _ ↦ rfl⟩⟩

/-- When the workspace manager can leave a workspace that it can delete. -/
theorem leaves_iff {failed : Bool} :
    (onDisk env job (.ok ())).cleanup failed = .ok () ↔
      KnownCleanup (LocalWorkspaceManager.resolvedPolicy job.workspacePolicy) ∨
        ((LocalWorkspaceManager.resolvedPolicy job.workspacePolicy).preserveOnFailure = true ∧
          failed = true) := by
  rw [← feasible_iff, or_comm, and_comm, ← LocalWorkspaceManager.cleanup_returns_iff]
  dsimp only [onDisk]
  rcases LocalWorkspaceManager.cleanup _ _ _ with failure | deleted
  · exact iff_of_false nofun nofun
  · exact iff_of_true rfl ⟨deleted, rfl⟩

theorem Dependable.onDisk (h : Dependable env metrics) (executorJob : ExecutorJob) :
    Dependable (withJob (onDisk env job (.ok ())) executorJob) metrics :=
  ⟨h.published, h.logged, h.counted, h.started, h.stopped, h.created, h.acquired, h.recorded,
    h.closed⟩

/-- A delivery with a template path is answered exactly when the handler returns with one terminal
event. -/
theorem answered_of_named {templatePath : String} (hnamed : job.templatePath = some templatePath) :
    Answered job (onJob env metrics jobsByTemplatePath job) ↔
      (∃ message,
        (run (withJob env (chosen jobsByTemplatePath templatePath)) metrics job).1 = .ok message) ∧
      ∃ message,
        terminals (withJob env (chosen jobsByTemplatePath templatePath)) metrics job = [message] ∧
          message.jobExecutionId = job.jobExecutionId := by
  have hget : get jobsByTemplatePath job.templatePath = .ok (jobsByTemplatePath templatePath) := by
    rw [hnamed]
    rfl
  rw [onJob, hget]
  change Answered job (match (run (withJob env (chosen jobsByTemplatePath templatePath))
    metrics job).1 with | .error thrown => _ | .ok _ => _) ↔ _
  rcases (run (withJob env (chosen jobsByTemplatePath templatePath)) metrics job).1 with
    thrown | message
  · refine iff_of_false (fun h ↦ ?_) ?_
    · cases h.returned
    · rintro ⟨⟨message, hmessage⟩, -⟩
      cases hmessage
  · exact ⟨fun h ↦ ⟨⟨message, rfl⟩, h.terminal⟩, fun h ↦ ⟨rfl, h.2, rfl⟩⟩

/-- **A call with a dependable environment.** It returns with one terminal event exactly when no
`Error` ends its code and the workspace can be left. -/
theorem returned_iff (h : Dependable env metrics) (hid : job.jobExecutionId ≠ none) :
    ((∃ message, (run env metrics job).1 = .ok message) ∧
      ∃ message, terminals env metrics job = [message] ∧
        message.jobExecutionId = job.jobExecutionId) ↔
    (Admitted env job → env.execute job ≠ .error (.failure .error)) ∧
      (Admitted env job →
        env.cleanup (shouldPreserveAsFailure (endingOf (env.execute job))) = .ok ()) := by
  have houtcome : (run env metrics job).1 =
      (do released env metrics (tried env job); (terminal env job).1) := by
    rw [run_eq, h.started]
  rw [houtcome, terminals_eq h.started]
  rcases hfirst : firstOut env job with _ | ⟨message, completes⟩
  · -- an `Error` leaves the body
    obtain ⟨hadmitted, hcode⟩ :=
      (due_eq_error_iff h).mp ((firstOut_eq_none_iff h.publishersWork hid).mp hfirst)
    obtain ⟨thrown, hterminal⟩ := terminal_of_none hfirst
    rw [hterminal]
    refine iff_of_false ?_ fun hcondition ↦ hcondition.1 hadmitted hcode
    rintro ⟨-, message, hmessage, -⟩
    cases hmessage
  have hfollowed : followed env message (completes && claims env job) = .ok () :=
    followed_eq_ok.mpr ⟨h.counted message, fun _ ↦ h.recorded message⟩
  have hterminal := (terminal_of_some hfirst).1 hfollowed
  have hid' : message.jobExecutionId = job.jobExecutionId :=
    jobExecutionId_of_terminal (by rw [hterminal]; exact List.mem_singleton_self _)
  have hcaught : Admitted env job → env.execute job ≠ .error (.failure .error) := by
    intro hadmitted hcode
    have hnone := (firstOut_eq_none_iff h.publishersWork hid).mpr
      ((due_eq_error_iff h).mpr ⟨hadmitted, hcode⟩)
    rw [hnone] at hfirst
    cases hfirst
  -- the `finally` block asks for the cleanup that goes with the status of the event
  have hreleased : released env metrics (tried env job) = .ok () ↔ (Admitted env job →
      env.cleanup (shouldPreserveAsFailure (endingOf (env.execute job))) = .ok ()) := by
    rw [released_eq_ok]
    dsimp only [tried]
    rw [finalStatus, hterminal, hasWorkspace_eq h, executes_iff]
    constructor
    · rintro ⟨hcleaned, -⟩ hadmitted
      rw [← status_of_firstOut h hadmitted hfirst]
      exact hcleaned hadmitted
    · intro hcleaned
      refine ⟨fun hadmitted ↦ ?_, fun _ ↦ h.closed, h.stopped⟩
      dsimp only
      rw [status_of_firstOut h hadmitted hfirst]
      exact hcleaned hadmitted
  rw [hterminal, and_iff_right hcaught, ← hreleased]
  constructor
  · rintro ⟨⟨sent, hsent⟩, -⟩
    rw [bind_eq_ok] at hsent
    obtain ⟨⟨⟩, hok, -⟩ := hsent
    exact hok
  · intro hok
    rw [hok]
    exact ⟨⟨message, rfl⟩, message, rfl, hid'⟩

/-- **When a message is answered.** With publishers and storage that do not fail, a message is
answered exactly when it has a template path, the code of its job does not end with an `Error`, and
the workspace policy is one that the workspace manager knows or does not need. -/
theorem answered_iff (env : Environment) (metrics : ExecutorJobMetrics)
    (jobsByTemplatePath : String → Option ExecutorJob) (job : JobMessage)
    (hdependable : Dependable env metrics) (hid : job.jobExecutionId ≠ none) :
    Answered job (onJob (onDisk env job (.ok ())) metrics jobsByTemplatePath job) ↔
      Answerable env jobsByTemplatePath job := by
  rcases hnamed : job.templatePath with _ | templatePath
  · refine iff_of_false (fun h ↦ ?_) fun h ↦ h.named hnamed
    have hreturned := h.returned
    rw [onJob, hnamed] at hreturned
    cases hreturned
  rw [answered_of_named hnamed, returned_iff (hdependable.onDisk _) hid]
  have hcode : ∀ executorJob : ExecutorJob,
      (withJob (onDisk env job (.ok ())) executorJob).execute job = executorJob job := fun _ ↦ rfl
  have hcleanup : ∀ (executorJob : ExecutorJob) failed,
      (withJob (onDisk env job (.ok ())) executorJob).cleanup failed =
        (onDisk env job (.ok ())).cleanup failed := fun _ _ ↦ rfl
  have hadmitted : ∀ executorJob : ExecutorJob,
      Admitted (withJob (onDisk env job (.ok ())) executorJob) job ↔ Admitted env job :=
    fun _ ↦ Iff.rfl
  rw [hcode, hcleanup, hadmitted, leaves_iff]
  constructor
  · rintro ⟨hcaught, hleavable⟩
    refine ⟨by rw [hnamed]; exact nofun, fun h other hother ↦ ?_, fun h other hother ↦ ?_⟩
    · obtain rfl := Option.some.inj (hnamed.symm.trans hother)
      exact hcaught h
    · obtain rfl := Option.some.inj (hnamed.symm.trans hother)
      exact hleavable h
  · exact fun h ↦ ⟨fun ha ↦ h.caught ha _ hnamed, fun ha ↦ h.leavable ha _ hnamed⟩

end Whole

/-! ## A message without a template path -/

namespace Small

def unnamed : JobMessage := { Contracts.Small.job with templatePath := none }

/-- An executor whose one job succeeds. -/
def jobsByTemplatePath : String → Option ExecutorJob
  | "build/custom" => some fun _ ↦ .ok (some ExecutorJobHandler.Small.result)
  | _ => none

def surroundings : Environment := .smooth fun _ ↦ .ok none

theorem dependable : Dependable surroundings .noop where
  published _ := rfl
  logged _ := rfl
  counted _ := rfl
  started := rfl
  stopped := rfl
  created _ := rfl
  acquired _ := ⟨_, rfl⟩
  recorded _ := rfl
  closed := rfl

end Small

/-- A job that succeeds in a workspace with the default policy is answered. -/
theorem answered_small :
    Answered Contracts.Small.job
      (onJob (onDisk Small.surroundings Contracts.Small.job (.ok ())) .noop
        Small.jobsByTemplatePath Contracts.Small.job) := by
  refine (answered_iff _ _ _ _ Small.dependable (by decide)).mpr
    ⟨by decide, fun _ templatePath hnamed hcode ↦ ?_, fun _ _ _ ↦ Or.inl (Or.inl (by decide))⟩
  obtain rfl := Option.some.inj hnamed
  cases hcode

/-- The message names its execution and everything works, and it is neither reported nor
acknowledged. -/
theorem not_answered :
    (Dependable Small.surroundings .noop ∧ Small.unnamed.jobExecutionId ≠ none) ∧
    ¬ Answered Small.unnamed (onJob (onDisk Small.surroundings Small.unnamed (.ok ())) .noop
      Small.jobsByTemplatePath Small.unnamed) :=
  ⟨⟨Small.dependable, by decide⟩, fun h ↦ by cases h.returned⟩

end KafkaExecutorJobConsumer

end FuzzingCiCd.Executor
