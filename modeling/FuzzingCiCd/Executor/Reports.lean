import FuzzingCiCd.Executor.JobHandler
import FuzzingCiCd.Foundation.Transition

/-!
# What a call of the handler reports

The handler decides in four stages: it *accepts* a job when the message is valid and the guard
answers, it *starts* it when the workspace is there and `JOB_RUNNING` is out, it *serves* it when
the code of the job and the publication of its logs and artifacts succeed, and it *concludes* it
when the terminal event is counted and marked. Each stage is a fallible value of the surroundings.

The code of the job is called exactly when the job is accepted, not a duplicate and started.

## Main results

* `executed_iff`: when the code of the job is called.
* `body_ending`: the ways in which a body can end.
* `handle_report`: what a call that returns has published.
* `published_of_executed`, `published_of_not_executed`: what any call publishes, whether it returns
  or not.
-/

namespace FuzzingCiCd.Executor.ExecutorJobHandler

open Contracts Transition

/-! ## Stages -/

section Stages

variable (env : Environment) (job : JobMessage)

def accepted : Except Thrown IdempotencyDecision := do
  (validate job).mapError Thrown.job
  (env.acquire job).mapError Thrown.failure

/-- The end of a duplicate. -/
def skipped (decision : IdempotencyDecision) : Except Thrown Unit := do
  (env.publish (skippedDuplicateEvent env job decision)).mapError Thrown.failure
  (env.jobFinished (skippedDuplicateEvent env job decision)).mapError Thrown.failure

def started : Except Thrown Unit := do
  (env.createWorkspace job).mapError Thrown.failure
  (env.publish (runningEvent env job)).mapError Thrown.failure

/-- The result of the code of the job. -/
def returned : Except Thrown ExecutorJobResult := do
  match ← env.execute job with
  | none => .error (.job emptyResult)
  | some result => .ok result

/-- The publication of the logs of a result. -/
def logged (result : ExecutorJobResult) : Except Thrown Unit :=
  match result.logs with
  | none => .ok ()
  | some logs =>
    if JavaText.isBlank logs then .ok ()
    else (env.publishLog (logEvent env job logs)).mapError Thrown.failure

/-- The publication of the artifacts of a result. -/
def stored (result : ExecutorJobResult) : Except Thrown Unit :=
  if result.artifacts.isEmpty then .ok ()
  else (env.publish (artifactsEvent env job result)).mapError Thrown.failure

def served : Except Thrown ExecutorJobResult := do
  let result ← returned env job
  logged env job result
  stored env job result
  return result

def concluded (result : ExecutorJobResult) : Except Thrown Unit := do
  (env.jobFinished (finishedEvent env job result)).mapError Thrown.failure
  (env.complete (finishedEvent env job result)).mapError Thrown.failure

end Stages

/-! ## What the steps leave alone -/

section Parts

variable {γ : Type} {part : Progress → γ} (env : Environment) (job : JobMessage)

theorem leaves_call {α : Type} (outcome : Except Failure α) : Exec.Leaves part (call outcome) :=
  Exec.leaves_ofExcept _

theorem leaves_publishEvent
    (hpublished : ∀ p events, part { p with published := events } = part p)
    (message : ExecutorEventMessage) : Exec.Leaves part (publishEvent env message) :=
  (leaves_call _).bind fun _ ↦ Exec.leaves_modify fun _ ↦ hpublished _ _

theorem leaves_callIf (test : Progress → Bool) (outcome : Progress → Except Failure Unit) :
    Exec.Leaves part (callIf test outcome) := by
  refine Exec.leaves_get.bind fun progress ↦ ?_
  by_cases htest : test progress = true
  · rw [if_pos htest]
    exact leaves_call _
  · rw [if_neg htest]
    exact Exec.leaves_pure _

theorem leaves_execute (hexecuted : ∀ p executed, part { p with executed := executed } = part p) :
    Exec.Leaves part (execute env job) := by
  rw [execute]
  refine Exec.Leaves.bind (Exec.leaves_modify fun p ↦ hexecuted p true) fun _ ↦
    Exec.Leaves.bind (Exec.leaves_ofExcept _) fun result ↦ ?_
  cases result with
  | none => exact Exec.leaves_throw _
  | some result => exact Exec.leaves_pure _

theorem leaves_publishLogs (result : ExecutorJobResult) :
    Exec.Leaves part (publishLogs env job result) := by
  rw [publishLogs]
  split
  · exact Exec.leaves_pure _
  · split
    · exact Exec.leaves_pure _
    · exact leaves_call _

theorem leaves_publishArtifacts
    (hpublished : ∀ p events, part { p with published := events } = part p)
    (result : ExecutorJobResult) : Exec.Leaves part (publishArtifacts env job result) := by
  rw [publishArtifacts]
  split
  · exact Exec.leaves_pure _
  · exact leaves_publishEvent env hpublished _

theorem leaves_serve (hexecuted : ∀ p executed, part { p with executed := executed } = part p)
    (hpublished : ∀ p events, part { p with published := events } = part p) :
    Exec.Leaves part (serve env job) :=
  (leaves_execute env job hexecuted).bind fun result ↦
    (leaves_publishLogs env job result).bind fun _ ↦
      (leaves_publishArtifacts env job hpublished result).bind fun _ ↦ Exec.leaves_pure _

theorem leaves_setCleanupStatus
    (hcleanup : ∀ p status, part { p with cleanupStatus := status } = part p)
    (status : ExecutionStatus) : Exec.Leaves part (setCleanupStatus status) :=
  Exec.leaves_modify fun _ ↦ hcleanup _ _

theorem leaves_release : Exec.Leaves part (release env) :=
  (leaves_callIf _ _).bind fun _ ↦ leaves_callIf _ _

theorem leaves_conclude (hpublished : ∀ p events, part { p with published := events } = part p)
    (hcleanup : ∀ p status, part { p with cleanupStatus := status } = part p)
    (result : ExecutorJobResult) : Exec.Leaves part (conclude env job result) :=
  (leaves_publishEvent env hpublished _).bind fun _ ↦ (leaves_call _).bind fun _ ↦
    (leaves_callIf _ _).bind fun _ ↦ (leaves_setCleanupStatus hcleanup _).bind fun _ ↦
      Exec.leaves_pure _

theorem leaves_skipDuplicate
    (hpublished : ∀ p events, part { p with published := events } = part p)
    (hcleanup : ∀ p status, part { p with cleanupStatus := status } = part p)
    (decision : IdempotencyDecision) : Exec.Leaves part (skipDuplicate env job decision) :=
  (leaves_publishEvent env hpublished _).bind fun _ ↦ (leaves_call _).bind fun _ ↦
    (leaves_setCleanupStatus hcleanup _).bind fun _ ↦ Exec.leaves_pure _

theorem leaves_handleThrown
    (hpublished : ∀ p events, part { p with published := events } = part p)
    (hcleanup : ∀ p status, part { p with cleanupStatus := status } = part p)
    (thrown : Thrown) : Exec.Leaves part (handleThrown env job thrown) := by
  have hfailure : ∀ exception, Exec.Leaves part (publishFailure env job exception) :=
    fun exception ↦ (leaves_publishEvent env hpublished _).bind fun _ ↦
      (leaves_call _).bind fun _ ↦ Exec.leaves_pure _
  have hset := leaves_setCleanupStatus hcleanup
  rcases thrown with exception | message | ⟨className, message⟩ | _
  · rw [handleThrown]
    split
    · exact Exec.leaves_throw _
    · exact (hfailure _).bind fun _ ↦ (leaves_callIf _ _).bind fun _ ↦ (hset _).bind fun _ ↦
        Exec.leaves_pure _
  · exact (hfailure _).bind fun _ ↦ (hset _).bind fun _ ↦ Exec.leaves_pure _
  · exact (hfailure _).bind fun _ ↦ (leaves_callIf _ _).bind fun _ ↦ Exec.leaves_pure _
  · exact Exec.leaves_throw _

end Parts

/-! ## The body in stages -/

section Body

variable {env : Environment} {job : JobMessage}

theorem body_of_refused {thrown : Thrown} (h : accepted env job = .error thrown) :
    body env job .initial = (.error thrown, .initial) := by
  rw [accepted] at h
  rw [body]
  cases hvalid : (validate job).mapError Thrown.job with
  | error e =>
    rw [hvalid] at h
    obtain rfl := Except.error.inj h
    exact Exec.ofExcept_bind_error rfl _
  | ok a =>
    rw [hvalid] at h
    rw [Exec.ofExcept_bind_ok rfl]
    exact Exec.ofExcept_bind_error h _

/-- The state in which an accepted job goes on. -/
def acceptedState : Progress := { Progress.initial with claimed := true }

theorem body_of_accepted {decision : IdempotencyDecision} (h : accepted env job = .ok decision) :
    body env job .initial =
      (if !decision.shouldExecute then skipDuplicate env job decision
      else do
        call (env.createWorkspace job)
        Exec.modify fun progress ↦ { progress with workspace := true }
        publishEvent env (runningEvent env job)
        let result ← serve env job
        conclude env job result) acceptedState := by
  rw [accepted, bind_eq_ok] at h
  obtain ⟨⟨⟩, hvalid, hacquire⟩ := h
  rw [body, Exec.ofExcept_bind_ok hvalid, call, Exec.ofExcept_bind_ok hacquire,
    Exec.bind_of_ok (Exec.modify_apply _ _)]
  rfl

theorem body_of_unstarted {decision : IdempotencyDecision} (h : accepted env job = .ok decision)
    (hexecute : decision.shouldExecute = true) {thrown : Thrown}
    (hstart : started env job = .error thrown) : ∃ workspace, body env job .initial =
      (.error thrown, { acceptedState with workspace := workspace }) := by
  rw [body_of_accepted h, hexecute, Bool.not_true, if_neg Bool.false_ne_true]
  rw [started] at hstart
  cases hcreate : (env.createWorkspace job).mapError Thrown.failure with
  | error e =>
    rw [hcreate] at hstart
    obtain rfl := Except.error.inj hstart
    exact ⟨false, Exec.ofExcept_bind_error hcreate _⟩
  | ok a =>
    rw [hcreate] at hstart
    refine ⟨true, ?_⟩
    rw [call, Exec.ofExcept_bind_ok hcreate, Exec.bind_of_ok (Exec.modify_apply _ _)]
    exact Exec.bind_of_error (Exec.ofExcept_bind_error hstart _)

/-- The state in which a started job goes on. -/
def startedState (env : Environment) (job : JobMessage) : Progress :=
  { acceptedState with workspace := true, published := [runningEvent env job] }

theorem body_of_started {decision : IdempotencyDecision} (h : accepted env job = .ok decision)
    (hexecute : decision.shouldExecute = true) (hstart : started env job = .ok ()) :
    body env job .initial = (serve env job >>= conclude env job) (startedState env job) := by
  rw [body_of_accepted h, hexecute, Bool.not_true, if_neg Bool.false_ne_true]
  rw [started, bind_eq_ok] at hstart
  obtain ⟨⟨⟩, hcreate, hpublish⟩ := hstart
  rw [call, Exec.ofExcept_bind_ok hcreate, Exec.bind_of_ok (Exec.modify_apply _ _)]
  refine Exec.bind_of_ok (a := ()) ?_
  rw [publishEvent, call, Exec.ofExcept_bind_ok hpublish]
  rfl

/-! ## When the code of the job is called -/

theorem executed_serve (p : Progress) : (serve env job p).2.executed = true := by
  have hrest : ∀ result : ExecutorJobResult, Exec.Leaves Progress.executed
      (do publishLogs env job result; publishArtifacts env job result; return result) :=
    fun result ↦ (leaves_publishLogs env job result).bind fun _ ↦
      (leaves_publishArtifacts env job (fun _ _ ↦ rfl) result).bind fun _ ↦ Exec.leaves_pure _
  have hexecute : (execute env job p).2.executed = true := by
    rw [execute, Exec.bind_of_ok (Exec.modify_apply _ _)]
    refine (Exec.part_bind (fun result ↦ ?_) _ _).trans rfl
    cases result with
    | none => exact Exec.leaves_throw _
    | some result => exact Exec.leaves_pure _
  exact (Exec.part_bind hrest _ _).trans hexecute

/-- **When the code of the job is called.** -/
theorem executed_iff : (handle env job .initial).2.executed = true ↔
    ∃ decision, accepted env job = .ok decision ∧ decision.shouldExecute = true ∧
      started env job = .ok () := by
  have hbody : (handle env job .initial).2.executed = (body env job .initial).2.executed :=
    (Exec.part_ensure (leaves_release env) _ _).trans (Exec.part_recover
      (leaves_handleThrown env job (fun _ _ ↦ rfl) (fun _ _ ↦ rfl)) _ _)
  rw [hbody]
  cases haccept : accepted env job with
  | error thrown =>
    rw [body_of_refused haccept]
    exact iff_of_false Bool.false_ne_true (by simp)
  | ok decision =>
    by_cases hexecute : decision.shouldExecute = true
    · cases hstart : started env job with
      | error thrown =>
        obtain ⟨workspace, hrun⟩ := body_of_unstarted haccept hexecute hstart
        rw [hrun]
        exact iff_of_false Bool.false_ne_true (by simp)
      | ok a =>
        rw [body_of_started haccept hexecute hstart]
        refine iff_of_true ?_ ⟨decision, rfl, hexecute, rfl⟩
        exact (Exec.part_bind (leaves_conclude env job (fun _ _ ↦ rfl) (fun _ _ ↦ rfl)) _ _).trans
          (executed_serve _)
    · have hskip : body env job .initial = skipDuplicate env job decision acceptedState := by
        rw [body_of_accepted haccept, if_pos (by simpa using hexecute)]
      have hleaves : Exec.Leaves Progress.executed (skipDuplicate env job decision) :=
        leaves_skipDuplicate env job (fun _ _ ↦ rfl) (fun _ _ ↦ rfl) decision
      rw [hskip, hleaves]
      refine iff_of_false Bool.false_ne_true ?_
      rintro ⟨d, hd, hd', -⟩
      obtain rfl := Except.ok.inj hd
      exact hexecute hd'

/-- **Validation guards the code of the job.** Some surroundings make the handler call the code of
the job exactly when the message is valid. -/
theorem exists_executed_iff :
    (∃ env, (handle env job .initial).2.executed = true) ↔ validate job = .ok () := by
  constructor
  · rintro ⟨env, hexecuted⟩
    obtain ⟨decision, haccepted, -⟩ := executed_iff.mp hexecuted
    rw [accepted, bind_eq_ok] at haccepted
    obtain ⟨⟨⟩, hvalid, -⟩ := haccepted
    cases hcase : validate job with
    | error exception =>
      rw [hcase] at hvalid
      cases hvalid
    | ok a => rfl
  · intro hvalid
    refine ⟨.smooth fun _ ↦ .ok none, executed_iff.mpr
      ⟨⟨.started, none, none, none, []⟩, ?_, rfl, rfl⟩⟩
    rw [accepted, hvalid]
    rfl

end Body

/-! ## Reports

`Report` lists the ways in which a call that returns can have gone, with the events that it has
published. `Exec.Emits` says what one step adds to the published events; the steps of the body
are followed in the order of the code, and `Ending` has one constructor for each way out of it.
The `catch` branches add at most the failure. -/

/-- The status of the event that reports what was thrown. -/
def failureStatus : Thrown → ExecutionStatus
  | .job exception => exception.status
  | .failure _ => .failed

/-- The details of the event that reports what was thrown. -/
def failureDetails : Thrown → Option String
  | .job exception => exception.details
  | .failure (.idempotency message) => message
  | .failure (.exception _ message) => message
  | .failure .error => none

/-- The exception of a `catch` branch has the status and the details of what was thrown. -/
structure Conveys (exception : ExecutorJobException) (thrown : Thrown) : Prop where
  status : exception.status = failureStatus thrown
  details : exception.details = failureDetails thrown

section Report

variable (env : Environment) (job : JobMessage)

/-- What a call publishes before a terminal event once the job is started. -/
def IsProgress (events : List ExecutorEventMessage) : Prop :=
  events = [runningEvent env job] ∨
    ∃ result, events = [runningEvent env job, artifactsEvent env job result]

/-- What a call that returns has published, with the event that it returns. -/
inductive Report : List ExecutorEventMessage → ExecutorEventMessage → Prop
  /-- The job did not start: the only event is the failure. -/
  | refused {exception : ExecutorJobException} (hstatus : exception.status = .failed)
      (hrefused : ∀ decision, accepted env job = .ok decision →
        if decision.shouldExecute then started env job ≠ .ok () else
          skipped env job decision ≠ .ok ()) :
      Report [failedEvent env job exception] (failedEvent env job exception)
  | duplicate {decision : IdempotencyDecision} (haccepted : accepted env job = .ok decision)
      (hduplicate : decision.shouldExecute = false) (hskipped : skipped env job decision = .ok ()) :
      Report [skippedDuplicateEvent env job decision] (skippedDuplicateEvent env job decision)
  /-- The event of a duplicate is out but could not be counted. -/
  | duplicateFailed {decision : IdempotencyDecision} {exception : ExecutorJobException}
      (haccepted : accepted env job = .ok decision) (hduplicate : decision.shouldExecute = false)
      (hskipped : skipped env job decision ≠ .ok ()) (hstatus : exception.status = .failed) :
      Report [skippedDuplicateEvent env job decision, failedEvent env job exception]
        (failedEvent env job exception)
  | failed {decision : IdempotencyDecision} {thrown : Thrown} {events : List ExecutorEventMessage}
      {exception : ExecutorJobException} (haccepted : accepted env job = .ok decision)
      (hexecute : decision.shouldExecute = true) (hstarted : started env job = .ok ())
      (hserved : served env job = .error thrown) (hevents : IsProgress env job events)
      (hconveys : Conveys exception thrown) :
      Report (events ++ [failedEvent env job exception]) (failedEvent env job exception)
  /-- The terminal event of a result could not be published. -/
  | unpublished {decision : IdempotencyDecision} {result : ExecutorJobResult} {failure : Failure}
      {events : List ExecutorEventMessage} {exception : ExecutorJobException}
      (haccepted : accepted env job = .ok decision) (hexecute : decision.shouldExecute = true)
      (hstarted : started env job = .ok ()) (hserved : served env job = .ok result)
      (hpublish : env.publish (finishedEvent env job result) = .error failure)
      (hevents : IsProgress env job events) (hconveys : Conveys exception (.failure failure)) :
      Report (events ++ [failedEvent env job exception]) (failedEvent env job exception)
  | finished {decision : IdempotencyDecision} {result : ExecutorJobResult}
      {events : List ExecutorEventMessage} (haccepted : accepted env job = .ok decision)
      (hexecute : decision.shouldExecute = true) (hstarted : started env job = .ok ())
      (hserved : served env job = .ok result)
      (hpublish : env.publish (finishedEvent env job result) = .ok ())
      (hconcluded : concluded env job result = .ok ()) (hevents : IsProgress env job events) :
      Report (events ++ [finishedEvent env job result]) (finishedEvent env job result)
  /-- The terminal event of a result is out but could not be counted or marked. -/
  | unconcluded {decision : IdempotencyDecision} {result : ExecutorJobResult} {thrown : Thrown}
      {events : List ExecutorEventMessage} {exception : ExecutorJobException}
      (haccepted : accepted env job = .ok decision) (hexecute : decision.shouldExecute = true)
      (hstarted : started env job = .ok ()) (hserved : served env job = .ok result)
      (hpublish : env.publish (finishedEvent env job result) = .ok ())
      (hconcluded : concluded env job result = .error thrown) (hevents : IsProgress env job events)
      (hconveys : Conveys exception thrown) :
      Report (events ++ [finishedEvent env job result, failedEvent env job exception])
        (failedEvent env job exception)

end Report

section Reports

variable {env : Environment} {job : JobMessage}

theorem publishEvent_emits {message : ExecutorEventMessage}
    (h : (env.publish message).mapError Thrown.failure = .ok ()) (p : Progress) :
    Exec.Emits Progress.published (publishEvent env message) p (.ok ()) [message] := by
  have hrun : publishEvent env message p =
      (.ok (), { p with published := p.published ++ [message] }) := by
    rw [publishEvent, call, Exec.ofExcept_bind_ok h]
    rfl
  exact ⟨by rw [hrun], by rw [hrun]⟩

theorem publishEvent_emits_error {message : ExecutorEventMessage} {thrown : Thrown}
    (h : (env.publish message).mapError Thrown.failure = .error thrown) (p : Progress) :
    Exec.Emits Progress.published (publishEvent env message) p (.error thrown) [] :=
  Exec.Emits.bind_error (by rw [call, h]; exact Exec.emits_ofExcept _ _)

theorem execute_emits (env : Environment) (job : JobMessage) (p : Progress) :
    Exec.Emits Progress.published (execute env job) p (returned env job) [] := by
  have hout : (execute env job p).1 = returned env job := by
    rw [execute, Exec.bind_of_ok (Exec.modify_apply _ _), returned]
    rcases hexecute : env.execute job with thrown | ⟨⟨⟩ | result⟩
    · rw [Exec.ofExcept_bind_error rfl]
      rfl
    · rw [Exec.ofExcept_bind_ok rfl]
      rfl
    · rw [Exec.ofExcept_bind_ok rfl]
      rfl
  exact hout ▸ (leaves_execute env job fun _ _ ↦ rfl).emits p

theorem publishLogs_emits (env : Environment) (job : JobMessage) (result : ExecutorJobResult)
    (p : Progress) :
    Exec.Emits Progress.published (publishLogs env job result) p (logged env job result) [] := by
  have hout : (publishLogs env job result p).1 = logged env job result := by
    rw [publishLogs, logged]
    cases result.logs with
    | none => rfl
    | some logs =>
      dsimp only
      by_cases hblank : JavaText.isBlank logs = true
      · rw [if_pos hblank, if_pos hblank]
        rfl
      · rw [if_neg hblank, if_neg hblank]
        rfl
  exact hout ▸ (leaves_publishLogs env job result).emits p

theorem publishArtifacts_emits (env : Environment) (job : JobMessage) (result : ExecutorJobResult)
    (p : Progress) :
    ∃ events, Exec.Emits Progress.published (publishArtifacts env job result) p
      (stored env job result) events ∧
        (events = [] ∨ events = [artifactsEvent env job result]) := by
  rw [publishArtifacts, stored]
  by_cases hempty : result.artifacts.isEmpty = true
  · rw [if_pos hempty, if_pos hempty]
    exact ⟨[], Exec.emits_pure _ _, Or.inl rfl⟩
  · rw [if_neg hempty, if_neg hempty]
    cases h : (env.publish (artifactsEvent env job result)).mapError Thrown.failure with
    | error thrown => exact ⟨[], publishEvent_emits_error h p, Or.inl rfl⟩
    | ok a => exact ⟨_, publishEvent_emits h p, Or.inr rfl⟩

theorem serve_emits (env : Environment) (job : JobMessage) (p : Progress) :
    ∃ events, Exec.Emits Progress.published (serve env job) p (served env job) events ∧
      (events = [] ∨ ∃ result, events = [artifactsEvent env job result]) := by
  have hexecute := execute_emits env job p
  rw [serve, served]
  cases hreturned : returned env job with
  | error thrown =>
    rw [hreturned] at hexecute
    exact ⟨[], hexecute.bind_error, Or.inl rfl⟩
  | ok result =>
    rw [hreturned] at hexecute
    have hlogs := publishLogs_emits env job result (execute env job p).2
    change ∃ events, Exec.Emits _ _ _ (logged env job result >>= fun _ ↦ _) events ∧ _
    cases hlogged : logged env job result with
    | error thrown =>
      rw [hlogged] at hlogs
      exact ⟨[], hexecute.bind hlogs.bind_error, Or.inl rfl⟩
    | ok a =>
      rw [hlogged] at hlogs
      obtain ⟨events, hartifacts, hevents⟩ := publishArtifacts_emits env job
        result (publishLogs env job result (execute env job p).2).2
      change ∃ events, Exec.Emits _ _ _ (stored env job result >>= fun _ ↦ _) events ∧ _
      refine ⟨events, ?_, hevents.imp_right fun h ↦ ⟨result, h⟩⟩
      cases hstored : stored env job result with
      | error thrown =>
        rw [hstored] at hartifacts
        have hall : Exec.Emits Progress.published (serve env job) p (.error thrown)
            ([] ++ ([] ++ events)) := hexecute.bind (hlogs.bind hartifacts.bind_error)
        exact hall
      | ok b =>
        rw [hstored] at hartifacts
        have hall : Exec.Emits Progress.published (serve env job) p (.ok result)
            ([] ++ ([] ++ (events ++ []))) :=
          hexecute.bind (hlogs.bind (hartifacts.bind (Exec.emits_pure result _)))
        rwa [List.append_nil] at hall

theorem leaves_publishEvent_claimed (env : Environment) (message : ExecutorEventMessage) :
    Exec.Leaves Progress.claimed (publishEvent env message) :=
  leaves_publishEvent env (fun _ _ ↦ rfl) message

theorem leaves_serve_claimed (env : Environment) (job : JobMessage) :
    Exec.Leaves Progress.claimed (serve env job) :=
  leaves_serve env job (fun _ _ ↦ rfl) fun _ _ ↦ rfl

theorem callIf_claimed {outcome : Progress → Except Failure Unit} {p : Progress}
    (h : p.claimed = true) : callIf Progress.claimed outcome p = call (outcome p) p := by
  rw [callIf, Exec.bind_of_ok (Exec.get_apply p), if_pos h]

theorem conclude_emits (env : Environment) (job : JobMessage) (result : ExecutorJobResult)
    {p : Progress} (hp : p.claimed = true) :
    (∀ thrown, (env.publish (finishedEvent env job result)).mapError Thrown.failure =
      .error thrown → Exec.Emits Progress.published (conclude env job result) p
        (.error thrown) []) ∧
    ((env.publish (finishedEvent env job result)).mapError Thrown.failure = .ok () →
      Exec.Emits Progress.published (conclude env job result) p
        ((concluded env job result).map fun _ ↦ finishedEvent env job result)
        [finishedEvent env job result]) := by
  refine ⟨fun thrown h ↦ (publishEvent_emits_error h p).bind_error, fun h ↦ ?_⟩
  let rest : Step ExecutorEventMessage := do
    call (env.jobFinished (finishedEvent env job result))
    completeIdempotencyClaim env (finishedEvent env job result)
    setCleanupStatus result.status
    return finishedEvent env job result
  have hleaves : Exec.Leaves Progress.published rest :=
    (leaves_call _).bind fun _ ↦ (leaves_callIf _ _).bind fun _ ↦
      (leaves_setCleanupStatus (fun _ _ ↦ rfl) _).bind fun _ ↦ Exec.leaves_pure _
  have hout : ∀ s : Progress, s.claimed = true →
      (rest s).1 = (concluded env job result).map fun _ ↦ finishedEvent env job result := by
    intro s hs
    simp only [rest, concluded, call]
    cases hfinished : (env.jobFinished (finishedEvent env job result)).mapError Thrown.failure with
    | error thrown =>
      rw [Exec.ofExcept_bind_error rfl]
      rfl
    | ok a =>
      rw [Exec.ofExcept_bind_ok rfl]
      cases hcomplete : (env.complete (finishedEvent env job result)).mapError Thrown.failure with
      | error thrown =>
        rw [Exec.bind_of_error (by rw [completeIdempotencyClaim, callIf_claimed hs, call,
          hcomplete, Exec.ofExcept_apply])]
        rfl
      | ok b =>
        rw [Exec.bind_of_ok (by rw [completeIdempotencyClaim, callIf_claimed hs, call,
          hcomplete, Exec.ofExcept_apply])]
        rfl
  have hclaimed : (publishEvent env (finishedEvent env job result) p).2.claimed = true :=
    (leaves_publishEvent_claimed env _ p).trans hp
  have hrest := hleaves.emits (publishEvent env (finishedEvent env job result) p).2
  rw [hout _ hclaimed] at hrest
  exact (publishEvent_emits h p).bind hrest

theorem skipDuplicate_emits (env : Environment) (job : JobMessage) (decision : IdempotencyDecision)
    (p : Progress) :
    (skipped env job decision = .ok () ∧ Exec.Emits Progress.published
      (skipDuplicate env job decision) p (.ok (skippedDuplicateEvent env job decision))
        [skippedDuplicateEvent env job decision]) ∨
    ∃ failure, skipped env job decision = .error (.failure failure) ∧ ∃ events,
      Exec.Emits Progress.published (skipDuplicate env job decision) p
        (.error (.failure failure)) events ∧
      (events = [] ∨ events = [skippedDuplicateEvent env job decision]) := by
  rw [skipped]
  rcases hpublish : env.publish (skippedDuplicateEvent env job decision) with failure | ⟨⟨⟩⟩
  · refine Or.inr ⟨failure, rfl, [], ?_, Or.inl rfl⟩
    exact (publishEvent_emits_error (by rw [hpublish]; rfl) p).bind_error
  have hfirst : Exec.Emits Progress.published (publishEvent env (skippedDuplicateEvent env job
      decision)) p (.ok ()) [skippedDuplicateEvent env job decision] :=
    publishEvent_emits (by rw [hpublish]; rfl) p
  rcases hfinished : env.jobFinished (skippedDuplicateEvent env job decision) with failure | ⟨⟨⟩⟩
  · have hcount : ∀ s, Exec.Emits Progress.published
        (call (env.jobFinished (skippedDuplicateEvent env job decision))) s
        (.error (.failure failure)) [] := by
      intro s
      rw [call, hfinished]
      exact Exec.emits_ofExcept _ _
    exact Or.inr ⟨failure, rfl, _, hfirst.bind (hcount _).bind_error, Or.inr rfl⟩
  · have hcount : ∀ s, Exec.Emits Progress.published
        (call (env.jobFinished (skippedDuplicateEvent env job decision))) s (.ok ()) [] := by
      intro s
      rw [call, hfinished]
      exact Exec.emits_ofExcept _ _
    have hset : ∀ s, Exec.Emits Progress.published (setCleanupStatus .skipped) s (.ok ()) [] :=
      (leaves_setCleanupStatus (fun _ _ ↦ rfl) _).emits
    exact Or.inl ⟨rfl, hfirst.bind ((hcount _).bind ((hset _).bind (Exec.emits_pure _ _)))⟩

theorem handleThrown_ok {thrown : Thrown} {p q : Progress} {ev : ExecutorEventMessage}
    (h : handleThrown env job thrown p = (.ok ev, q)) : ∃ exception : ExecutorJobException,
      Conveys exception thrown ∧ ev = failedEvent env job exception ∧
        q.published = p.published ++ [ev] := by
  have hfailure : ∀ {exception : ExecutorJobException} {message : ExecutorEventMessage}
      {q : Progress}, publishFailure env job exception p = (.ok message, q) →
        message = failedEvent env job exception ∧ q.published = p.published ++ [message] := by
    intro exception message q h
    rw [publishFailure, Exec.bind_eq_ok] at h
    obtain ⟨⟨⟩, p₁, hpublish, h⟩ := h
    obtain ⟨⟨⟩, p₂, hfinished, h⟩ := Exec.bind_eq_ok.mp h
    obtain ⟨hmessage, rfl⟩ := Prod.mk.inj h
    obtain rfl := Except.ok.inj hmessage
    refine ⟨rfl, ((leaves_call _).of_eq hfinished).trans ?_⟩
    rw [publishEvent, Exec.bind_eq_ok] at hpublish
    obtain ⟨⟨⟩, p₃, hcall, hmodify⟩ := hpublish
    obtain ⟨-, rfl⟩ := Prod.mk.inj hmodify
    obtain ⟨-, rfl⟩ := Prod.mk.inj hcall
    rfl
  have hset : ∀ {status : ExecutionStatus} {p q : Progress},
      setCleanupStatus status p = (.ok (), q) → q.published = p.published :=
    fun h ↦ (leaves_setCleanupStatus (fun _ _ ↦ rfl) _).of_eq h
  have hcomplete : ∀ {message : ExecutorEventMessage} {p q : Progress},
      completeIdempotencyClaim env message p = (.ok (), q) → q.published = p.published :=
    fun h ↦ (leaves_callIf _ _).of_eq h
  -- one case for each `catch`; an `Error` passes through
  rcases thrown with exception | message | ⟨className, message⟩ | _
  · rw [handleThrown] at h
    by_cases hid : job.jobExecutionId = none
    · rw [if_pos hid] at h
      cases (Prod.mk.inj h).1
    rw [if_neg hid, Exec.bind_eq_ok] at h
    obtain ⟨event, p₁, hpublish, h⟩ := h
    obtain ⟨⟨⟩, p₂, h₂, h⟩ := Exec.bind_eq_ok.mp h
    obtain ⟨⟨⟩, p₃, h₃, h⟩ := Exec.bind_eq_ok.mp h
    obtain ⟨hev, rfl⟩ := Prod.mk.inj h
    obtain rfl := Except.ok.inj hev
    obtain ⟨rfl, hp₁⟩ := hfailure hpublish
    exact ⟨exception, ⟨rfl, rfl⟩, rfl, ((hset h₃).trans (hcomplete h₂)).trans hp₁⟩
  · rw [handleThrown, Exec.bind_eq_ok] at h
    obtain ⟨event, p₁, hpublish, h⟩ := h
    obtain ⟨⟨⟩, p₂, h₂, h⟩ := Exec.bind_eq_ok.mp h
    obtain ⟨hev, rfl⟩ := Prod.mk.inj h
    obtain rfl := Except.ok.inj hev
    obtain ⟨rfl, hp₁⟩ := hfailure hpublish
    exact ⟨_, ⟨rfl, rfl⟩, rfl, (hset h₂).trans hp₁⟩
  · rw [handleThrown, Exec.bind_eq_ok] at h
    obtain ⟨event, p₁, hpublish, h⟩ := h
    obtain ⟨⟨⟩, p₂, h₂, h⟩ := Exec.bind_eq_ok.mp h
    obtain ⟨hev, rfl⟩ := Prod.mk.inj h
    obtain rfl := Except.ok.inj hev
    obtain ⟨rfl, hp₁⟩ := hfailure hpublish
    exact ⟨_, ⟨rfl, rfl⟩, rfl, (hcomplete h₂).trans hp₁⟩
  · cases (Prod.mk.inj h).1

/-- What a call that returns has published, from what its body has published. -/
theorem handle_of_body {r : Except Thrown ExecutorEventMessage} {events : List ExecutorEventMessage}
    (hbody : Exec.Emits Progress.published (body env job) .initial r events)
    {ev : ExecutorEventMessage} {p : Progress} (h : handle env job .initial = (.ok ev, p)) :
    (r = .ok ev ∧ p.published = events) ∨ ∃ thrown exception, r = .error thrown ∧
      Conveys exception thrown ∧ ev = failedEvent env job exception ∧
        p.published = events ++ [ev] := by
  rw [handle, Exec.ensure_eq_ok] at h
  obtain ⟨q, hrecover, hrelease⟩ := h
  have hpublished : p.published = q.published := (leaves_release env).of_eq hrelease
  have hs : (body env job .initial).2.published = events := hbody.log
  rcases hrun : body env job .initial with ⟨thrown | message, s⟩
  · rw [Exec.recover_of_error hrun] at hrecover
    rw [hrun] at hs
    obtain ⟨exception, hconveys, hev, hq⟩ := handleThrown_ok hrecover
    refine Or.inr ⟨thrown, exception, ?_, hconveys, hev, ?_⟩
    · rw [← hbody.outcome, hrun]
    · rw [hpublished, hq, hs]
  · rw [Exec.recover_of_ok hrun] at hrecover
    rw [hrun] at hs
    obtain ⟨hmessage, rfl⟩ := Prod.mk.inj hrecover
    refine Or.inl ⟨?_, hpublished.trans hs⟩
    rw [← hbody.outcome, hrun, hmessage]

/-- Whatever keeps a job from starting is reported as a failure. -/
theorem status_of_validate {exception : ExecutorJobException}
    (h : validate job = .error exception) : exception.status = .failed := by
  rw [validate] at h
  split_ifs at h
  all_goals first
    | exact SandboxPolicyValidator.status_of_validate h
    | (obtain rfl := Except.error.inj h; rfl)

theorem failureStatus_mapError {α : Type} (outcome : Except Failure α) {thrown : Thrown}
    (h : outcome.mapError Thrown.failure = .error thrown) : failureStatus thrown = .failed := by
  cases outcome with
  | error failure =>
    obtain rfl := Except.error.inj h
    rfl
  | ok a => cases h

theorem failureStatus_accepted {thrown : Thrown} (h : accepted env job = .error thrown) :
    failureStatus thrown = .failed := by
  rw [accepted] at h
  cases hvalid : validate job with
  | error exception =>
    rw [hvalid] at h
    obtain rfl := Except.error.inj h
    exact status_of_validate hvalid
  | ok a =>
    rw [hvalid] at h
    exact failureStatus_mapError (env.acquire job) h

theorem failureStatus_bind {x y : Except Failure Unit} {thrown : Thrown}
    (h : (do x.mapError Thrown.failure; y.mapError Thrown.failure) = .error thrown) :
    failureStatus thrown = .failed := by
  cases x with
  | error failure =>
    obtain rfl := Except.error.inj h
    rfl
  | ok a => exact failureStatus_mapError y h

/-- How the body of a call ends, with what it has published by then. -/
inductive Ending (env : Environment) (job : JobMessage) :
    Except Thrown ExecutorEventMessage → List ExecutorEventMessage → Prop
  | refused {thrown : Thrown} (hstatus : failureStatus thrown = .failed)
      (hrefused : ∀ decision, accepted env job = .ok decision →
        if decision.shouldExecute then started env job ≠ .ok () else
          skipped env job decision ≠ .ok ()) : Ending env job (.error thrown) []
  | duplicate {decision : IdempotencyDecision} (haccepted : accepted env job = .ok decision)
      (hduplicate : decision.shouldExecute = false) (hskipped : skipped env job decision = .ok ()) :
      Ending env job (.ok (skippedDuplicateEvent env job decision))
        [skippedDuplicateEvent env job decision]
  | duplicateFailed {decision : IdempotencyDecision} {thrown : Thrown}
      (haccepted : accepted env job = .ok decision) (hduplicate : decision.shouldExecute = false)
      (hskipped : skipped env job decision ≠ .ok ()) (hstatus : failureStatus thrown = .failed) :
      Ending env job (.error thrown) [skippedDuplicateEvent env job decision]
  | failed {decision : IdempotencyDecision} {thrown : Thrown} {events : List ExecutorEventMessage}
      (haccepted : accepted env job = .ok decision) (hexecute : decision.shouldExecute = true)
      (hstarted : started env job = .ok ()) (hserved : served env job = .error thrown)
      (hevents : IsProgress env job events) : Ending env job (.error thrown) events
  | unpublished {decision : IdempotencyDecision} {result : ExecutorJobResult} {failure : Failure}
      {events : List ExecutorEventMessage} (haccepted : accepted env job = .ok decision)
      (hexecute : decision.shouldExecute = true) (hstarted : started env job = .ok ())
      (hserved : served env job = .ok result)
      (hpublish : env.publish (finishedEvent env job result) = .error failure)
      (hevents : IsProgress env job events) : Ending env job (.error (.failure failure)) events
  | finished {decision : IdempotencyDecision} {result : ExecutorJobResult}
      {events : List ExecutorEventMessage} (haccepted : accepted env job = .ok decision)
      (hexecute : decision.shouldExecute = true) (hstarted : started env job = .ok ())
      (hserved : served env job = .ok result)
      (hpublish : env.publish (finishedEvent env job result) = .ok ())
      (hconcluded : concluded env job result = .ok ()) (hevents : IsProgress env job events) :
      Ending env job (.ok (finishedEvent env job result))
        (events ++ [finishedEvent env job result])
  | unconcluded {decision : IdempotencyDecision} {result : ExecutorJobResult} {thrown : Thrown}
      {events : List ExecutorEventMessage} (haccepted : accepted env job = .ok decision)
      (hexecute : decision.shouldExecute = true) (hstarted : started env job = .ok ())
      (hserved : served env job = .ok result)
      (hpublish : env.publish (finishedEvent env job result) = .ok ())
      (hconcluded : concluded env job result = .error thrown)
    (hevents : IsProgress env job events) :
      Ending env job (.error thrown) (events ++ [finishedEvent env job result])

theorem ending_of_started {decision : IdempotencyDecision}
    (haccept : accepted env job = .ok decision)
    (hexecute : decision.shouldExecute = true) (hstart : started env job = .ok ()) :
    ∃ r events, Exec.Emits Progress.published (body env job) .initial r events ∧
      Ending env job r events := by
  obtain ⟨events, hserve, hevents⟩ := serve_emits env job (startedState env job)
  have hprogress : IsProgress env job (runningEvent env job :: events) := by
    rcases hevents with rfl | ⟨result, rfl⟩
    · exact Or.inl rfl
    · exact Or.inr ⟨result, rfl⟩
  -- what the rest of the body adds to the event `JOB_RUNNING`
  have hbody : ∀ {r more}, Exec.Emits Progress.published
      (serve env job >>= conclude env job) (startedState env job) r (events ++ more) →
      Exec.Emits Progress.published (body env job) .initial r
        (runningEvent env job :: events ++ more) := by
    intro r more hrest
    rw [Exec.emits_iff, body_of_started haccept hexecute hstart]
    exact ⟨hrest.outcome, hrest.log⟩
  have hclaimed : (serve env job (startedState env job)).2.claimed = true :=
    leaves_serve_claimed env job (startedState env job)
  rcases hserved : served env job with thrown | result
  · rw [hserved] at hserve
    have hrest := hbody (by rw [List.append_nil]; exact hserve.bind_error)
    rw [List.append_nil] at hrest
    exact ⟨_, _, hrest, .failed haccept hexecute hstart hserved hprogress⟩
  rw [hserved] at hserve
  obtain ⟨hunpublished, hpublished⟩ := conclude_emits env job result hclaimed
  rcases hpublish : env.publish (finishedEvent env job result) with failure | ⟨⟨⟩⟩
  · have hrest := hbody (hserve.bind (hunpublished (.failure failure) (by rw [hpublish]; rfl)))
    rw [List.append_nil] at hrest
    exact ⟨_, _, hrest, .unpublished haccept hexecute hstart hserved hpublish hprogress⟩
  have hrest := hbody (hserve.bind (hpublished (by rw [hpublish]; rfl)))
  rcases hconcluded : concluded env job result with thrown | ⟨⟨⟩⟩
  · rw [hconcluded] at hrest
    exact ⟨_, _, hrest, .unconcluded haccept hexecute hstart hserved hpublish hconcluded hprogress⟩
  · rw [hconcluded] at hrest
    exact ⟨_, _, hrest, .finished haccept hexecute hstart hserved hpublish hconcluded hprogress⟩

theorem ending_of_duplicate {decision : IdempotencyDecision}
    (haccept : accepted env job = .ok decision) (hduplicate : decision.shouldExecute = false) :
    ∃ r events, Exec.Emits Progress.published (body env job) .initial r events ∧
      Ending env job r events := by
  have hrun : body env job .initial = skipDuplicate env job decision acceptedState := by
    rw [body_of_accepted haccept, hduplicate, Bool.not_false, if_pos rfl]
  have hbody : ∀ {r events}, Exec.Emits Progress.published (skipDuplicate env job decision)
      acceptedState r events → Exec.Emits Progress.published (body env job) .initial r events := by
    intro r events hskip
    rw [Exec.emits_iff, hrun]
    exact ⟨hskip.outcome, hskip.log⟩
  obtain ⟨hskipped, hemits⟩ | ⟨failure, hskipped, events, hemits, hevents⟩ :=
    skipDuplicate_emits env job decision acceptedState
  · exact ⟨_, _, hbody hemits, .duplicate haccept hduplicate hskipped⟩
  have hne : skipped env job decision ≠ .ok () := by
    rw [hskipped]
    exact nofun
  refine ⟨_, _, hbody hemits, ?_⟩
  rcases hevents with rfl | rfl
  · refine .refused rfl fun d hd ↦ ?_
    obtain rfl := Except.ok.inj (haccept.symm.trans hd)
    rw [hduplicate, if_neg Bool.false_ne_true]
    exact hne
  · exact .duplicateFailed haccept hduplicate hne rfl

/-- **The body.** Every body ends in one of these ways. -/
theorem body_ending (env : Environment) (job : JobMessage) :
    ∃ r events, Exec.Emits Progress.published (body env job) .initial r events ∧
      Ending env job r events := by
  rcases haccept : accepted env job with thrown | decision
  · refine ⟨.error thrown, [], ?_, .refused (failureStatus_accepted haccept) fun decision hd ↦ ?_⟩
    · rw [Exec.emits_iff, body_of_refused haccept]
      exact ⟨rfl, rfl⟩
    · rw [haccept] at hd
      cases hd
  by_cases hexecute : decision.shouldExecute = true
  · rcases hstart : started env job with thrown | ⟨⟨⟩⟩
    · obtain ⟨workspace, hrun⟩ := body_of_unstarted haccept hexecute hstart
      refine ⟨.error thrown, [], ?_, .refused (failureStatus_bind hstart) fun d hd ↦ ?_⟩
      · rw [Exec.emits_iff, hrun]
        exact ⟨rfl, rfl⟩
      · obtain rfl := Except.ok.inj (haccept.symm.trans hd)
        rw [if_pos hexecute, hstart]
        exact nofun
    · exact ending_of_started haccept hexecute hstart
  · exact ending_of_duplicate haccept (Bool.eq_false_iff.mpr hexecute)

/-- **Reports.** Every call that returns has published one of the reports. -/
theorem handle_report {ev : ExecutorEventMessage} {p : Progress}
    (h : handle env job .initial = (.ok ev, p)) : Report env job p.published ev := by
  obtain ⟨r, events, hbody, hending⟩ := body_ending env job
  obtain ⟨rfl, hp⟩ | ⟨thrown, exception, rfl, hconveys, rfl, hp⟩ := handle_of_body hbody h
  · rw [hp]
    cases hending with
    | duplicate haccepted hduplicate hskipped =>
      exact .duplicate haccepted hduplicate hskipped
    | finished haccepted hexecute hstarted hserved hpublish hconcluded hevents =>
      exact .finished haccepted hexecute hstarted hserved hpublish hconcluded hevents
  · rw [hp]
    cases hending with
    | refused hfailed hrefused => exact .refused (hconveys.status.trans hfailed) hrefused
    | duplicateFailed haccepted hduplicate hskipped hfailed =>
      exact .duplicateFailed haccepted hduplicate hskipped (hconveys.status.trans hfailed)
    | failed haccepted hexecute hstarted hserved hevents =>
      exact .failed haccepted hexecute hstarted hserved hevents hconveys
    | unpublished haccepted hexecute hstarted hserved hpublish hevents =>
      exact .unpublished haccepted hexecute hstarted hserved hpublish hevents hconveys
    | unconcluded haccepted hexecute hstarted hserved hpublish hconcluded hevents =>
      rw [List.append_assoc]
      exact .unconcluded haccepted hexecute hstarted hserved hpublish hconcluded hevents hconveys

/-! ## What any call publishes

Also of a call that throws the published events are known: what its body has published, and the
failure if the body has thrown and the failure could be published. A call that does not reach the
code of the job has published only skips and failures; one that does begins with `JOB_RUNNING`. -/

theorem appends_publishEvent (env : Environment) {S : ExecutorEventMessage → Prop}
    {message : ExecutorEventMessage} (h : S message) :
    Exec.Appends Progress.published S (publishEvent env message) := by
  intro p
  rcases hpublish : env.publish message with failure | ⟨⟨⟩⟩
  · exact ⟨[], (publishEvent_emits_error (by rw [hpublish]; rfl) p).log, by simp⟩
  · exact ⟨[message], (publishEvent_emits (by rw [hpublish]; rfl) p).log, by simpa using h⟩

/-- A `catch` branch publishes nothing but the failure that it catches. -/
theorem appends_handleThrown (env : Environment) (job : JobMessage) (thrown : Thrown) :
    Exec.Appends Progress.published (fun m ↦ ∃ exception : ExecutorJobException,
      exception.status = failureStatus thrown ∧ m = failedEvent env job exception)
      (handleThrown env job thrown) := by
  have hcatch : ∀ exception : ExecutorJobException, exception.status = failureStatus thrown →
      ∀ rest : ExecutorEventMessage → Step ExecutorEventMessage,
      (∀ m, Exec.Leaves Progress.published (rest m)) →
      Exec.Appends Progress.published (fun m ↦ ∃ exception : ExecutorJobException,
        exception.status = failureStatus thrown ∧ m = failedEvent env job exception)
        (publishFailure env job exception >>= rest) := by
    intro exception hstatus rest hrest
    refine Exec.Appends.bind ?_ fun m ↦ (hrest m).appends
    exact (appends_publishEvent env ⟨exception, hstatus, rfl⟩).bind fun _ ↦
      ((leaves_call _).bind fun _ ↦ Exec.leaves_pure _).appends
  have hset : ∀ status, Exec.Leaves Progress.published (setCleanupStatus status) :=
    leaves_setCleanupStatus fun _ _ ↦ rfl
  rcases thrown with exception | message | ⟨className, message⟩ | _
  · rw [handleThrown]
    split
    · exact (Exec.leaves_throw _).appends
    · exact hcatch exception rfl _ fun _ ↦ (leaves_callIf _ _).bind fun _ ↦ (hset _).bind fun _ ↦
        Exec.leaves_pure _
  · exact hcatch _ rfl _ fun _ ↦ (hset _).bind fun _ ↦ Exec.leaves_pure _
  · exact hcatch _ rfl _ fun _ ↦ (leaves_callIf _ _).bind fun _ ↦ Exec.leaves_pure _
  · exact (Exec.leaves_throw _).appends

/-- What a call has published, whether it returns or throws: what its body has published, and the
failure if the body has thrown. -/
theorem handle_published {r : Except Thrown ExecutorEventMessage}
    {events : List ExecutorEventMessage}
    (hbody : Exec.Emits Progress.published (body env job) .initial r events) :
    ∃ more, (handle env job .initial).2.published = events ++ more ∧
      ∀ m ∈ more, ∃ thrown exception, r = .error thrown ∧
        exception.status = failureStatus thrown ∧ m = failedEvent env job exception := by
  have hs : (body env job .initial).2.published = events := hbody.log
  have hrelease : (handle env job .initial).2.published =
      (Exec.recover (body env job) (handleThrown env job) .initial).2.published :=
    Exec.part_ensure (leaves_release env) _ _
  rw [hrelease]
  rcases hrun : body env job .initial with ⟨thrown | ev, q⟩
  · rw [hrun] at hs
    obtain ⟨more, hlog, hmore⟩ := appends_handleThrown env job thrown q
    refine ⟨more, ?_, fun m hm ↦ ?_⟩
    · rw [Exec.recover_of_error hrun, hlog, hs]
    · obtain ⟨exception, hstatus, rfl⟩ := hmore m hm
      refine ⟨thrown, exception, ?_, hstatus, rfl⟩
      rw [← hbody.outcome, hrun]
  · rw [hrun] at hs
    exact ⟨[], by rw [Exec.recover_of_ok hrun, hs, List.append_nil], by simp⟩

/-- Every event that a call publishes carries the execution of the job. -/
theorem jobExecutionId_of_published (env : Environment) (job : JobMessage) :
    ∀ m ∈ (handle env job .initial).2.published, m.jobExecutionId = job.jobExecutionId := by
  have hprogress : ∀ {events}, IsProgress env job events →
      ∀ m ∈ events, m.jobExecutionId = job.jobExecutionId := by
    rintro events (rfl | ⟨result, rfl⟩)
    · rintro m (_ | ⟨_, ⟨⟩⟩)
      rfl
    · rintro m (_ | ⟨_, _ | ⟨_, ⟨⟩⟩⟩)
      · rfl
      · rfl
  obtain ⟨r, events, hbody, hending⟩ := body_ending env job
  obtain ⟨more, hp, hmore⟩ := handle_published hbody
  rw [hp, List.forall_mem_append]
  constructor
  · cases hending with
    | refused => exact fun _ hm ↦ absurd hm List.not_mem_nil
    | duplicate | duplicateFailed => simp [skippedDuplicateEvent, event]
    | failed _ _ _ _ hevents | unpublished _ _ _ _ _ hevents => exact hprogress hevents
    | finished _ _ _ _ _ _ hevents | unconcluded _ _ _ _ _ _ hevents =>
      exact List.forall_mem_append.mpr ⟨hprogress hevents, by simp [finishedEvent, event]⟩
  · intro m hm
    obtain ⟨thrown, exception, -, -, rfl⟩ := hmore m hm
    rfl

/-- **Calls that do not reach the code of the job.** They report a duplicate or a failure. -/
theorem published_of_not_executed (h : (handle env job .initial).2.executed = false) :
    ∀ m ∈ (handle env job .initial).2.published, m.status = .skipped ∨ m.status = .failed := by
  obtain ⟨r, events, hbody, hending⟩ := body_ending env job
  obtain ⟨more, hp, hmore⟩ := handle_published hbody
  have hnot : ∀ decision, accepted env job = .ok decision → decision.shouldExecute = true →
      started env job ≠ .ok () := by
    intro decision haccepted hexecute hstarted
    rw [executed_iff.mpr ⟨decision, haccepted, hexecute, hstarted⟩] at h
    cases h
  rw [hp, List.forall_mem_append]
  have hfailed : ∀ {thrown}, r = .error thrown → failureStatus thrown = .failed →
      ∀ m ∈ more, m.status = .skipped ∨ m.status = .failed := by
    intro thrown hr hstatus m hm
    obtain ⟨thrown', exception, hr', hstatus', rfl⟩ := hmore m hm
    obtain rfl := Except.error.inj (hr.symm.trans hr')
    exact Or.inr (hstatus'.trans hstatus)
  cases hending with
  | refused hstatus => exact ⟨fun _ hm ↦ absurd hm List.not_mem_nil, hfailed rfl hstatus⟩
  | duplicate =>
    refine ⟨by simp [skippedDuplicateEvent, event], fun m hm ↦ ?_⟩
    obtain ⟨_, _, hr, -⟩ := hmore m hm
    cases hr
  | duplicateFailed _ _ _ hstatus =>
    exact ⟨by simp [skippedDuplicateEvent, event], hfailed rfl hstatus⟩
  | failed haccepted hexecute hstarted | unpublished haccepted hexecute hstarted
  | finished haccepted hexecute hstarted | unconcluded haccepted hexecute hstarted =>
    exact absurd hstarted (hnot _ haccepted hexecute)

/-- **Calls that reach the code of the job.** Their first event is `JOB_RUNNING`. -/
theorem published_of_executed (h : (handle env job .initial).2.executed = true) :
    ∃ rest, (handle env job .initial).2.published = runningEvent env job :: rest := by
  obtain ⟨decision, haccept, hexecute, hstart⟩ := executed_iff.mp h
  obtain ⟨r, events, hbody, hending⟩ := body_ending env job
  obtain ⟨more, hp, -⟩ := handle_published hbody
  have hprogress : ∀ {events}, IsProgress env job events →
      ∃ rest, events = runningEvent env job :: rest := by
    rintro events (rfl | ⟨result, rfl⟩)
    · exact ⟨_, rfl⟩
    · exact ⟨_, rfl⟩
  have hduplicate : ∀ {other}, accepted env job = .ok other → other.shouldExecute ≠ false := by
    intro other hother hnot
    obtain rfl := Except.ok.inj (haccept.symm.trans hother)
    rw [hexecute] at hnot
    cases hnot
  rw [hp]
  cases hending with
  | refused _ hrefused =>
    have hnot := hrefused decision haccept
    rw [if_pos hexecute] at hnot
    exact absurd hstart hnot
  | duplicate hother hnot | duplicateFailed hother hnot => exact absurd hnot (hduplicate hother)
  | failed _ _ _ _ hevents | unpublished _ _ _ _ _ hevents
  | finished _ _ _ _ _ _ hevents | unconcluded _ _ _ _ _ _ hevents =>
    obtain ⟨rest, rfl⟩ := hprogress hevents
    exact ⟨_, rfl⟩

end Reports

end FuzzingCiCd.Executor.ExecutorJobHandler
