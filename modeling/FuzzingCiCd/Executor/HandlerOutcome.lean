import FuzzingCiCd.Executor.HandlerTrace

/-!
# The outcome of a call in closed form

A call has at most two terminal events to publish. The first is *due* when the body comes to its
end; each is *announced*, that is published, counted and marked in the claim; and whatever is thrown
on the way is *reported* by a `catch` branch, which announces a failure. All three are values of the
surroundings, and `run_eq` says that a call is made of them: what it returns, what it publishes,
what it holds at the end and which calls its `finally` block attempts.

## Main results

* `announce_apply`: what an announcement publishes, and how it can end.
* `serveNoted_apply`, `bodyNoted_apply`: the body comes to the terminal event that is due, or throws
  before it.
* `tried_apply`, `finish_apply`: the `try` statement and the `finally` block around it.
-/

namespace FuzzingCiCd.Executor.ExecutorJobHandler

open Contracts Transition

/-! ## Terminal events -/

section Terminal

variable (env : Environment) (job : JobMessage)

/-- A call that is made only if the test says so. -/
def made (test : Bool) (outcome : Except Failure Unit) : Except Thrown Unit :=
  if test then outcome.mapError Thrown.failure else .ok ()

/-- What follows the publication of a terminal event. -/
def followed (message : ExecutorEventMessage) (completes : Bool) : Except Thrown Unit := do
  (env.jobFinished message).mapError Thrown.failure
  made completes (env.complete message)

/-- A terminal event on its way out: how this ends, and what the publisher accepted. -/
def announced (message : ExecutorEventMessage) (completes : Bool) :
    Except Thrown ExecutorEventMessage × List ExecutorEventMessage :=
  match env.publish message with
  | .error failure => (.error (.failure failure), [])
  | .ok _ => ((followed env message completes).map fun _ ↦ message, [message])

/-- The terminal event that the body comes to, and whether it is marked in the claim. -/
def due : Except Thrown (ExecutorEventMessage × Bool) := do
  let decision ← accepted env job
  if decision.shouldExecute then
    started env job
    let result ← served env job
    return (finishedEvent env job result, true)
  else return (skippedDuplicateEvent env job decision, false)

/-- The exception of the `catch` branch that a throw ends in, and whether the branch marks its
event in the claim. -/
def caught : Thrown → Option (ExecutorJobException × Bool)
  | .job exception => if job.jobExecutionId = none then none else some (exception, true)
  | .failure (.idempotency message) => some (idempotencyFailure message, false)
  | .failure (.exception className message) => some (unexpectedFailure className message, true)
  | .failure .error => none

/-- The guard has answered the call. -/
def claims : Bool := (accepted env job).toBool

/-- A throw on its way through the `catch` branches. -/
def reported (thrown : Thrown) : Except Thrown ExecutorEventMessage × List ExecutorEventMessage :=
  match caught job thrown with
  | none => (.error thrown, [])
  | some (exception, completes) =>
    announced env (failedEvent env job exception) (completes && claims env job)

/-- How the `try` statement ends after what its body comes to, and the terminal events that the
publisher accepted. -/
def endOf (ends : Except Thrown (ExecutorEventMessage × Bool)) :
    Except Thrown ExecutorEventMessage × List ExecutorEventMessage :=
  match ends with
  | .error thrown => reported env job thrown
  | .ok (message, completes) =>
    match announced env message (completes && claims env job) with
    | (.ok message, events) => (.ok message, events)
    | (.error thrown, events) =>
      ((reported env job thrown).1, events ++ (reported env job thrown).2)

/-- The end of the `try` statement of a call. -/
def terminal : Except Thrown ExecutorEventMessage × List ExecutorEventMessage :=
  endOf env job (due env job)

end Terminal

/-! ## What comes before -/

section Before

variable (env : Environment) (job : JobMessage)

/-- The call is one that goes on to create a workspace. -/
def executes : Bool :=
  match accepted env job with
  | .error _ => false
  | .ok decision => decision.shouldExecute

def hasWorkspace : Bool := executes env job && (env.createWorkspace job).toBool

/-- The call reaches the code of the job. -/
def reaches : Bool := executes env job && (started env job).toBool

/-- The log messages of a result that the log publisher accepts. -/
def acceptedLogs (result : ExecutorJobResult) : List ExecutorEventMessage :=
  match result.logs with
  | none => []
  | some logs =>
    if JavaText.isBlank logs then []
    else if (env.publishLog (logEvent env job logs)).toBool then [logEvent env job logs] else []

/-- The events of a result that the publisher accepts before the terminal one. -/
def acceptedArtifacts (result : ExecutorJobResult) : List ExecutorEventMessage :=
  if result.artifacts.isEmpty then []
  else if (env.publish (artifactsEvent env job result)).toBool then
    [artifactsEvent env job result]
  else []

def servedLogs : List ExecutorEventMessage :=
  match returned env job with
  | .error _ => []
  | .ok result => acceptedLogs env job result

def servedEvents : List ExecutorEventMessage :=
  match returned env job with
  | .error _ => []
  | .ok result =>
    if (logged env job result).toBool then acceptedArtifacts env job result else []

def progressEvents : List ExecutorEventMessage :=
  if reaches env job then runningEvent env job :: servedEvents env job else []

def logEvents : List ExecutorEventMessage :=
  if reaches env job then servedLogs env job else []

/-- The state in which the body comes to its terminal event, or throws before it. -/
def reached : Progress where
  published := progressEvents env job
  executed := reaches env job
  claimed := claims env job
  workspace := hasWorkspace env job
  cleanupStatus := .failed

/-- The status that decides about the workspace. -/
def finalStatus : ExecutionStatus :=
  match (terminal env job).1 with
  | .ok message => message.status
  | .error _ => .failed

/-- The state at the end of the `try` statement. -/
def tried : Progress where
  published := progressEvents env job ++ (terminal env job).2
  executed := reaches env job
  claimed := claims env job
  workspace := hasWorkspace env job
  cleanupStatus := finalStatus env job

end Before

/-! ## Announcing -/

section Announcing

variable {env : Environment} {job : JobMessage}

/-- The steps that announce a terminal event. -/
def announce (env : Environment) (message : ExecutorEventMessage) (completes : Bool) :
    Step ExecutorEventMessage := do
  publishEvent env message
  call (env.jobFinished message)
  callIf (fun progress ↦ completes && progress.claimed) fun _ ↦ env.complete message
  setCleanupStatus message.status
  return message

theorem publishEvent_of_ok {message : ExecutorEventMessage} (h : env.publish message = .ok ())
    (p : Progress) :
    publishEvent env message p = (.ok (), { p with published := p.published ++ [message] }) := by
  rw [publishEvent, call, Exec.ofExcept_bind_ok (a := ()) (by rw [h]; rfl)]
  rfl

theorem publishEvent_of_error {message : ExecutorEventMessage} {failure : Failure}
    (h : env.publish message = .error failure) (p : Progress) :
    publishEvent env message p = (.error (.failure failure), p) := by
  rw [publishEvent, call, Exec.ofExcept_bind_error (e := .failure failure) (by rw [h]; rfl)]

theorem call_apply {α : Type} (outcome : Except Failure α) (p : Progress) :
    call outcome p = (outcome.mapError Thrown.failure, p) := rfl

theorem callIf_apply (test : Progress → Bool) (outcome : Progress → Except Failure Unit)
    (p : Progress) : callIf test outcome p = (made (test p) (outcome p), p) := by
  rw [callIf, made, Exec.bind_of_ok (Exec.get_apply p)]
  by_cases htest : test p = true
  · rw [if_pos htest, if_pos htest]
    rfl
  · rw [if_neg htest, if_neg htest]
    rfl

/-- **Announcing.** An announcement ends and publishes as `announced` says, and takes the status of
the event over when it returns. -/
theorem announce_apply (message : ExecutorEventMessage) (completes : Bool) (p : Progress) :
    announce env message completes p =
      ((announced env message (completes && p.claimed)).1,
        { p with
          published := p.published ++ (announced env message (completes && p.claimed)).2
          cleanupStatus := match (announced env message (completes && p.claimed)).1 with
            | .ok sent => sent.status
            | .error _ => p.cleanupStatus }) := by
  rw [announce, announced]
  rcases hpublish : env.publish message with failure | ⟨⟨⟩⟩
  · rw [Exec.bind_of_error (publishEvent_of_error hpublish p), List.append_nil]
  rw [Exec.bind_of_ok (publishEvent_of_ok hpublish p), followed]
  rcases hfinished : env.jobFinished message with failure | ⟨⟨⟩⟩
  · rfl
  rw [Exec.bind_of_ok (call_apply _ _), Exec.bind_apply, callIf_apply]
  dsimp only
  rcases made (completes && p.claimed) (env.complete message) with thrown | ⟨⟨⟩⟩
  · rfl
  · rfl

/-- What a `catch` branch does after it has published and counted the failure. -/
theorem publishFailure_bind (exception : ExecutorJobException)
    (rest : ExecutorEventMessage → Step ExecutorEventMessage) (p : Progress) :
    (publishFailure env job exception >>= rest) p =
      (do
        publishEvent env (failedEvent env job exception)
        call (env.jobFinished (failedEvent env job exception))
        rest (failedEvent env job exception)) p := by
  rw [publishFailure, Exec.bind_apply]
  rcases hpublish : env.publish (failedEvent env job exception) with failure | ⟨⟨⟩⟩
  · rw [Exec.bind_of_error (publishEvent_of_error hpublish p),
      Exec.bind_of_error (publishEvent_of_error hpublish p)]
  rw [Exec.bind_of_ok (publishEvent_of_ok hpublish p),
    Exec.bind_of_ok (publishEvent_of_ok hpublish p)]
  rcases hfinished : env.jobFinished (failedEvent env job exception) with failure | ⟨⟨⟩⟩
  · rfl
  · rfl

/-- **Catching.** After a throw, which finds the status still at its start, a `catch` branch is an
announcement or throws again. -/
theorem handleThrown_apply (thrown : Thrown) {p : Progress} (hp : p.cleanupStatus = .failed) :
    handleThrown env job thrown p =
      match caught job thrown with
      | none => (.error thrown, p)
      | some (exception, completes) =>
        announce env (failedEvent env job exception) completes p := by
  rcases thrown with exception | message | ⟨className, message⟩ | _
  · rw [handleThrown, caught]
    by_cases hid : job.jobExecutionId = none
    · rw [if_pos hid, if_pos hid]
      rfl
    · rw [if_neg hid, if_neg hid]
      exact publishFailure_bind exception _ p
  · exact publishFailure_bind (idempotencyFailure message) _ p
  · rw [handleThrown, publishFailure_bind]
    dsimp only [caught]
    -- the branch does not set the status, and the status that it would set is there already
    obtain ⟨published, executed, claimed, workspace, status⟩ := p
    obtain rfl : status = .failed := hp
    rcases hpublish : env.publish
      (failedEvent env job (unexpectedFailure className message)) with failure | ⟨⟨⟩⟩
    · rw [announce, Exec.bind_of_error (publishEvent_of_error hpublish _),
        Exec.bind_of_error (publishEvent_of_error hpublish _)]
    rw [announce, Exec.bind_of_ok (publishEvent_of_ok hpublish _),
      Exec.bind_of_ok (publishEvent_of_ok hpublish _)]
    rcases hfinished : env.jobFinished
      (failedEvent env job (unexpectedFailure className message)) with failure | ⟨⟨⟩⟩
    · rfl
    rw [Exec.bind_of_ok (call_apply (.ok ()) _), Exec.bind_of_ok (call_apply (.ok ()) _),
      Exec.bind_apply, Exec.bind_apply, completeIdempotencyClaim, callIf_apply, callIf_apply]
    simp only [Bool.true_and]
    rcases made claimed (env.complete _) with thrown | ⟨⟨⟩⟩
    · rfl
    · rfl
  · rfl

end Announcing

/-! ## The body

Each part of the handler is replaced by its outcome: what it returns or throws, and how the
progress and the notes have changed. The parts are put together in the order of the code, up to
the `try` statement, which ends with the terminal event of the call. -/

section Body

variable (env : Environment) (job : JobMessage)

theorem execute_apply (p : Progress) :
    execute env job p = (returned env job, { p with executed := true }) := by
  rw [execute, Exec.bind_of_ok (Exec.modify_apply _ _), returned]
  rcases env.execute job with thrown | ⟨⟨⟩ | result⟩
  · rfl
  · rfl
  · rfl

theorem publishLogsNoted_apply (result : ExecutorJobResult) (p : Progress) (notes : Notes) :
    publishLogsNoted env job result (p, notes) =
      (logged env job result,
        (p, { notes with logs := notes.logs ++ acceptedLogs env job result })) := by
  rw [publishLogsNoted, logged, acceptedLogs]
  cases result.logs with
  | none =>
    dsimp only
    rw [List.append_nil]
    rfl
  | some logs =>
    dsimp only
    by_cases hblank : JavaText.isBlank logs = true
    · rw [if_pos hblank, if_pos hblank, if_pos hblank, List.append_nil]
      rfl
    · rw [if_neg hblank, if_neg hblank, if_neg hblank, Exec.bind_apply]
      dsimp only [Exec.onFst]
      rw [call_apply]
      rcases env.publishLog (logEvent env job logs) with failure | ⟨⟨⟩⟩
      · simp [Except.toBool]
      · rfl

theorem publishArtifacts_apply (result : ExecutorJobResult) (p : Progress) :
    publishArtifacts env job result p =
      (stored env job result,
        { p with published := p.published ++ acceptedArtifacts env job result }) := by
  rw [publishArtifacts, stored, acceptedArtifacts]
  by_cases hempty : result.artifacts.isEmpty = true
  · rw [if_pos hempty, if_pos hempty, if_pos hempty, List.append_nil]
    rfl
  · rw [if_neg hempty, if_neg hempty, if_neg hempty]
    rcases hpublish : env.publish (artifactsEvent env job result) with failure | ⟨⟨⟩⟩
    · rw [publishEvent_of_error hpublish]
      simp [Except.toBool]
    · rw [publishEvent_of_ok hpublish]
      rfl

/-- **Serving.** What the part of the body between `JOB_RUNNING` and the terminal event does. -/
theorem serveNoted_apply (p : Progress) (notes : Notes) :
    serveNoted env job (p, notes) =
      (served env job,
        ({ p with executed := true, published := p.published ++ servedEvents env job },
          { notes with logs := notes.logs ++ servedLogs env job })) := by
  rw [serveNoted, served, servedEvents, servedLogs, Exec.bind_apply]
  dsimp only [Exec.onFst]
  rw [execute_apply]
  rcases returned env job with thrown | result
  · simp [bind, Except.bind]
  dsimp only
  rw [ok_bind, Exec.bind_apply, publishLogsNoted_apply]
  rcases logged env job result with thrown | ⟨⟨⟩⟩
  · simp [bind, Except.bind, Except.toBool]
  dsimp only
  rw [ok_bind, Exec.bind_apply]
  dsimp only [Exec.onFst]
  rw [publishArtifacts_apply]
  rcases stored env job result with thrown | ⟨⟨⟩⟩
  · rfl
  · rfl

/-- **The body.** It comes to the terminal event that is due, or throws before it. -/
theorem bodyNoted_apply (attempts : List Surrounding) :
    bodyNoted env job (.initial, ⟨[], attempts⟩) =
      match due env job with
      | .error thrown => (.error thrown, (reached env job, ⟨logEvents env job, attempts⟩))
      | .ok (message, completes) =>
        Exec.onFst (announce env message completes)
          (reached env job, ⟨logEvents env job, attempts⟩) := by
  rw [bodyNoted, due, reached, logEvents, progressEvents, reaches, hasWorkspace, executes, claims,
    accepted, call]
  -- the guard
  rcases (validate job).mapError Thrown.job with thrown | ⟨⟨⟩⟩
  · rfl
  rcases (env.acquire job).mapError Thrown.failure with thrown | decision
  · rfl
  rw [Exec.onFst_bind_ok (Exec.ofExcept_apply _ _), Exec.onFst_bind_ok (Exec.ofExcept_apply _ _),
    Exec.onFst_bind_ok (Exec.modify_apply _ _), ok_bind, ok_bind]
  dsimp only
  by_cases hexecute : decision.shouldExecute = true
  swap
  · rw [Bool.not_eq_true] at hexecute
    simp only [hexecute]
    rfl
  simp only [hexecute, Bool.not_true, Bool.true_and]
  rw [if_neg Bool.false_ne_true, if_pos trivial, started]
  -- the workspace and the event `JOB_RUNNING`
  rcases env.createWorkspace job with failure | ⟨⟨⟩⟩
  · rfl
  rw [Exec.onFst_bind_ok (call_apply (.ok ()) _), Exec.onFst_bind_ok (Exec.modify_apply _ _)]
  rcases hrunning : env.publish (runningEvent env job) with failure | ⟨⟨⟩⟩
  · rw [Exec.onFst_bind_error (publishEvent_of_error hrunning _)]
    rfl
  rw [Exec.onFst_bind_ok (publishEvent_of_ok hrunning _), Exec.bind_apply, serveNoted_apply]
  rcases served env job with thrown | result
  · rfl
  · rfl

/-- What a throw that finds the state `reached` ends with, when some terminal events are out. -/
theorem handleThrown_reached (thrown : Thrown) (events : List ExecutorEventMessage) :
    handleThrown env job thrown
        { reached env job with published := progressEvents env job ++ events } =
      ((reported env job thrown).1,
        { reached env job with
          published := progressEvents env job ++ (events ++ (reported env job thrown).2)
          cleanupStatus := match (reported env job thrown).1 with
            | .ok message => message.status
            | .error _ => .failed }) := by
  rw [handleThrown_apply thrown rfl, reported]
  rcases caught job thrown with _ | ⟨exception, completes⟩
  · rw [List.append_nil]
    rfl
  dsimp only
  rw [announce_apply]
  dsimp only [reached]
  rw [List.append_assoc]

/-- **The `try` statement.** It ends with the terminal event of the call. -/
theorem tried_apply (attempts : List Surrounding) :
    Exec.recover (bodyNoted env job) (fun thrown ↦ Exec.onFst (handleThrown env job thrown))
        (.initial, ⟨[], attempts⟩) =
      ((terminal env job).1, (tried env job, ⟨logEvents env job, attempts⟩)) := by
  have hbody := bodyNoted_apply env job attempts
  have hstart : reached env job =
      { reached env job with published := progressEvents env job ++ [] } := by
    rw [List.append_nil]
    rfl
  rw [tried, finalStatus, terminal]
  rcases hdue : due env job with thrown | ⟨message, completes⟩
  · rw [hdue] at hbody
    rw [Exec.recover_of_error hbody, Exec.onFst, hstart, handleThrown_reached]
    rfl
  · have hsent : bodyNoted env job (.initial, ⟨[], attempts⟩) =
        ((announced env message (completes && claims env job)).1,
          ({ reached env job with
            published := progressEvents env job ++
              (announced env message (completes && claims env job)).2
            cleanupStatus := match (announced env message (completes && claims env job)).1 with
              | .ok sent => sent.status
              | .error _ => .failed }, ⟨logEvents env job, attempts⟩)) := by
      rw [hbody, hdue]
      dsimp only
      rw [Exec.onFst, announce_apply]
      rfl
    dsimp only [endOf]
    revert hsent
    rcases announced env message (completes && claims env job) with ⟨thrown | sent, events⟩
    · intro hsent
      rw [Exec.recover_of_error hsent, Exec.onFst]
      have hcatch := handleThrown_reached env job thrown events
      dsimp only [reached] at hcatch ⊢
      rw [hcatch]
    · exact fun hsent ↦ Exec.recover_of_ok hsent

end Body

/-! ## The whole call -/

section Run

variable (env : Environment) (metrics : ExecutorJobMetrics) (job : JobMessage)

/-- How the `finally` block ends when it is entered in the given state. -/
def released (p : Progress) : Except Thrown Unit := do
  made p.workspace (env.cleanup (shouldPreserveAsFailure p.cleanupStatus))
  made p.claimed env.close
  metrics.jobStopped.mapError Thrown.failure

/-- The attempts of the `finally` block: each is the last one if it throws. -/
def attempted (p : Progress) : List Surrounding :=
  let stopping := [Surrounding.jobStopped]
  let closing :=
    if p.claimed then .close :: if env.close.toBool then stopping else [] else stopping
  if p.workspace then
    .cleanup (shouldPreserveAsFailure p.cleanupStatus) ::
      if (env.cleanup (shouldPreserveAsFailure p.cleanupStatus)).toBool then closing else []
  else closing

theorem attemptIf_apply (test : Progress → Bool) (surrounding : Progress → Surrounding)
    (outcome : Progress → Except Failure Unit) (p : Progress) (notes : Notes) :
    attemptIf test surrounding outcome (p, notes) =
      if test p then
        ((outcome p).mapError Thrown.failure,
          (p, { notes with attempts := notes.attempts ++ [surrounding p] }))
      else (.ok (), (p, notes)) := by
  rw [attemptIf, Exec.bind_of_ok (Exec.get_apply _)]
  by_cases htest : test p = true
  · rw [if_pos htest, if_pos htest]
    rfl
  · rw [if_neg htest, if_neg htest]
    rfl

/-- **The `finally` block.** It attempts its calls up to the first that throws. -/
theorem finish_apply (p : Progress) (notes : Notes) :
    finish env metrics (p, notes) =
      (released env metrics p,
        (p, { notes with attempts := notes.attempts ++ attempted env p })) := by
  rw [finish, released, attempted, Exec.bind_apply, attemptIf_apply]
  have hclose : ∀ notes : Notes,
      (attemptIf Progress.claimed (fun _ ↦ .close) (fun _ ↦ env.close) >>=
      fun _ ↦ attemptIf (fun _ ↦ true) (fun _ ↦ .jobStopped) fun _ ↦ metrics.jobStopped)
        (p, notes) =
      (do
        made p.claimed env.close
        metrics.jobStopped.mapError Thrown.failure,
        (p, { notes with attempts := notes.attempts ++
          if p.claimed then .close :: if env.close.toBool then [.jobStopped] else []
          else [.jobStopped] })) := by
    intro notes
    rw [Exec.bind_apply, attemptIf_apply]
    by_cases hclaimed : p.claimed = true
    · rw [if_pos hclaimed, if_pos hclaimed, made, if_pos hclaimed]
      rcases env.close with failure | ⟨⟨⟩⟩
      · rfl
      · rw [Exec.except_mapError_ok]
        dsimp only
        rw [attemptIf_apply, if_pos rfl, List.append_assoc]
        rfl
    · rw [if_neg hclaimed, if_neg hclaimed, made, if_neg hclaimed]
      exact attemptIf_apply _ _ _ _ _
  by_cases hworkspace : p.workspace = true
  · rw [if_pos hworkspace, if_pos hworkspace, made, if_pos hworkspace]
    rcases env.cleanup (shouldPreserveAsFailure p.cleanupStatus) with failure | ⟨⟨⟩⟩
    · rfl
    · refine (hclose _).trans ?_
      rw [List.append_assoc]
      rfl
  · rw [if_neg hworkspace, if_neg hworkspace, made, if_neg hworkspace]
    exact hclose notes

/-- **A call.** What it returns, publishes and holds, and what its `finally` block attempts. -/
theorem run_eq : run env metrics job =
    match metrics.jobStarted with
    | .error failure => (.error (.failure failure), (.initial, ⟨[], [.jobStarted]⟩))
    | .ok _ =>
      ((do released env metrics (tried env job); (terminal env job).1),
        (tried env job, ⟨logEvents env job, .jobStarted :: attempted env (tried env job)⟩)) := by
  rw [run, handleWithLoggingContext, Exec.bind_apply, attemptIf_apply, if_pos rfl]
  rcases metrics.jobStarted with failure | ⟨⟨⟩⟩
  · rfl
  change Exec.ensure _ _ (Progress.initial, (⟨[], [.jobStarted]⟩ : Notes)) = _
  rw [Exec.ensure, tried_apply]
  dsimp only
  rw [finish_apply]
  rcases released env metrics (tried env job) with thrown | ⟨⟨⟩⟩
  · rfl
  · rfl

end Run

end FuzzingCiCd.Executor.ExecutorJobHandler
