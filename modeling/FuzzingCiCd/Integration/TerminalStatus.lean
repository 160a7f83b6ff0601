import FuzzingCiCd.Executor.Reports
import FuzzingCiCd.Integration.EventDelivery

/-!
# Terminal statuses

The events that one call of the job handler publishes meet the transition table and the schema of
the master. Each of them can stop the result of a job.

An execution waits in `queued`, and from there the table allows `running` and `skipped` but no other
status that an executor reports at the end. A job that is refused before `JOB_RUNNING` was published
therefore stays queued for ever, although its executor has reported the failure. And of the terminal
event of a job that has run, the master can read nothing if its error has details, and store nothing
if it brings an artifact; the execution then stays running.

## The condition

`follow` is what one event makes of the status: the rule `after` if the event is admitted, and
nothing otherwise. `outcome_iff` runs it over the events of a call, one case for each way in which
a call can end. `Agrees` is the condition that comes out: the job starts, or is a duplicate, and
what it ends with is an event that the master takes, with one of the statuses that leave `running`,
that comes first and leaves the master with jobs it can dispatch.
-/

namespace FuzzingCiCd.Integration

open Master Transition Decoder Executor Executor.ExecutorJobHandler

/-! ## What a call publishes -/

section Published

variable {env : Environment} {job : Contracts.JobMessage}
  {events : List Contracts.ExecutorEventMessage} {ev : Contracts.ExecutorEventMessage}

/-- Each place that builds an event is reached at most once. -/
theorem sites_of_report (h : Report env job events ev) : ∃ sites : List Site, sites.Nodup ∧
    events.map Contracts.ExecutorEventMessage.messageId = sites.map env.messageId := by
  have hprogress : ∀ {events}, IsProgress env job events → ∀ last : List Site,
      last = [.failed] ∨ last = [.finished] ∨ last = [.finished, .failed] →
      ∃ sites : List Site, (sites ++ last).Nodup ∧
        events.map Contracts.ExecutorEventMessage.messageId = sites.map env.messageId := by
    rintro events (rfl | ⟨result, rfl⟩) last hlast
    · exact ⟨[.running], by rcases hlast with rfl | rfl | rfl <;> decide, rfl⟩
    · exact ⟨[.running, .artifacts], by rcases hlast with rfl | rfl | rfl <;> decide, rfl⟩
  cases h with
  | refused => exact ⟨[.failed], by decide, rfl⟩
  | duplicate => exact ⟨[.skipped], by decide, rfl⟩
  | duplicateFailed => exact ⟨[.skipped, .failed], by decide, rfl⟩
  | failed _ _ _ _ hevents | unpublished _ _ _ _ _ hevents =>
    obtain ⟨sites, hnodup, hmap⟩ := hprogress hevents [.failed] (by simp)
    exact ⟨_, hnodup, by rw [List.map_append, List.map_append, hmap]; rfl⟩
  | finished _ _ _ _ _ _ hevents =>
    obtain ⟨sites, hnodup, hmap⟩ := hprogress hevents [.finished] (by simp)
    exact ⟨_, hnodup, by rw [List.map_append, List.map_append, hmap]; rfl⟩
  | unconcluded _ _ _ _ _ _ hevents =>
    obtain ⟨sites, hnodup, hmap⟩ := hprogress hevents [.finished, .failed] (by simp)
    exact ⟨_, hnodup, by rw [List.map_append, List.map_append, hmap]; rfl⟩

theorem nodup_messageId (h : Report env job events ev) :
    (events.map Contracts.ExecutorEventMessage.messageId).Nodup := by
  obtain ⟨sites, hnodup, hmap⟩ := sites_of_report h
  rw [hmap]
  exact hnodup.map env.messageId_injective

end Published

/-! ## The condition -/

/-- The terminal statuses that leave `running`. -/
def Ends (s : Contracts.ExecutionStatus) : Prop :=
  s = .success ∨ s = .failed ∨ s = .timeout ∨ s = .canceled

instance (s : Contracts.ExecutionStatus) : Decidable (Ends s) :=
  inferInstanceAs (Decidable (s = .success ∨ s = .failed ∨ s = .timeout ∨ s = .canceled))

/-- The master can read the event of the result and store what it brings. -/
def Admissible (result : ExecutorJobResult) : Prop :=
  result.artifacts = [] ∧ ∀ error ∈ result.error, error.details = none

section Condition

variable (dispatches : JobExecutionStatus → Bool)

/-- The result ends a running execution. -/
def Taken (result : ExecutorJobResult) : Prop :=
  Admissible result ∧ Ends result.status ∧ dispatches (corresponding result.status) = true

/-- A started job ends in a way that the master follows. -/
def EndsWell (env : Environment) (job : Contracts.JobMessage) : Prop :=
  match served env job with
  | .error thrown =>
    failureDetails thrown = none ∧ Ends (failureStatus thrown) ∧
      dispatches (corresponding (failureStatus thrown)) = true
  | .ok result =>
    match env.publish (finishedEvent env job result) with
    | .error failure => failureDetails (.failure failure) = none ∧ dispatches .failed = true
    | .ok _ =>
      match concluded env job result with
      | .ok _ => Taken dispatches result
      | .error thrown =>
        (Taken dispatches result → result.status = .failed) ∧
          (¬ Taken dispatches result → failureDetails thrown = none ∧ dispatches .failed = true)

/-- The job starts or is a duplicate, and its end is one that the master follows. -/
def Agrees (env : Environment) (job : Contracts.JobMessage) : Prop :=
  ∃ decision, accepted env job = .ok decision ∧
    if decision.shouldExecute = true then started env job = .ok () ∧ EndsWell dispatches env job
    else skipped env job decision = .ok () ∧ dispatches .skipped = true

/-- What an event makes of the status of an execution. -/
def follow (s : JobExecutionStatus) (m : Contracts.ExecutorEventMessage) : JobExecutionStatus :=
  if Admitted m then after dispatches s (corresponding m.status) else s

/-! ## Which events are admitted -/

section Admission

variable {env : Environment} {job : Contracts.JobMessage} {decision : IdempotencyDecision}

theorem schemaVersion_of_accepted (h : accepted env job = .ok decision) :
    0 < job.schemaVersion.toInt := by
  rw [accepted, bind_eq_ok] at h
  obtain ⟨⟨⟩, hvalid, -⟩ := h
  by_contra hversion
  have hne : job.schemaVersion ≠ 1 := by
    rintro heq
    rw [heq] at hversion
    exact hversion (by decide)
  rw [validate, if_pos hne] at hvalid
  cases hvalid

theorem admitted_runningEvent (h : 0 < job.schemaVersion.toInt) :
    Admitted (runningEvent env job) := ⟨nofun, rfl, h⟩

theorem admitted_skippedDuplicateEvent (h : 0 < job.schemaVersion.toInt) :
    Admitted (skippedDuplicateEvent env job decision) := ⟨nofun, rfl, h⟩

theorem admitted_failedEvent_iff {exception : ExecutorJobException}
    (h : 0 < job.schemaVersion.toInt) :
    Admitted (failedEvent env job exception) ↔ exception.details = none :=
  ⟨fun hadmitted ↦ hadmitted.readable _ rfl, fun hdetails ↦
    ⟨fun _ herror ↦ Option.some.inj herror ▸ hdetails, rfl, h⟩⟩

theorem admitted_finishedEvent_iff {result : ExecutorJobResult}
    (h : 0 < job.schemaVersion.toInt) :
    Admitted (finishedEvent env job result) ↔ Admissible result :=
  ⟨fun hadmitted ↦ ⟨hadmitted.artifacts, hadmitted.readable⟩, fun hresult ↦
    ⟨hresult.2, hresult.1, h⟩⟩

end Admission

/-! ## Following the events -/

variable {dispatches} {m m' : Contracts.ExecutorEventMessage}

theorem follow_of_admitted (h : Admitted m) (s : JobExecutionStatus) :
    follow dispatches s m = after dispatches s (corresponding m.status) := if_pos h

theorem follow_of_not_admitted (h : ¬ Admitted m) (s : JobExecutionStatus) :
    follow dispatches s m = s := if_neg h

/-- Following a list of events is applying the admitted ones. -/
theorem foldl_follow (events : List Contracts.ExecutorEventMessage) (s : JobExecutionStatus) :
    events.foldl (follow dispatches) s =
      ((events.filter fun m ↦ decide (Admitted m)).map fun m ↦ corresponding m.status).foldl
        (after dispatches) s := by
  rw [List.foldl_map, List.foldl_filter]
  congr 1
  funext s m
  simp only [follow, decide_eq_true_eq]

theorem follow_of_final {s : JobExecutionStatus} (hs : s.isFinalStatus = true)
    (m : Contracts.ExecutorEventMessage) : follow dispatches s m = s := by
  rw [follow, after_of_final hs, ite_self]

theorem after_running_iff {s : Contracts.ExecutionStatus} :
    (after dispatches .running (corresponding s) = corresponding s ∧
      (corresponding s).isFinalStatus = true) ↔
      Ends s ∧ dispatches (corresponding s) = true := by
  cases s <;> simp [after, canTransition, corresponding, Ends, JobExecutionStatus.isFinalStatus]

/-- A status that an executor cannot end with leaves an execution where it can still fail. -/
theorem after_running_of_not {s : Contracts.ExecutionStatus}
    (h : ¬ (Ends s ∧ dispatches (corresponding s) = true)) :
    after dispatches .running (corresponding s) = .running ∨
      after dispatches .running (corresponding s) = .canceling := by
  by_cases hcan : (canTransition .running (corresponding s) &&
      (!(corresponding s).isFinalStatus || dispatches (corresponding s))) = true
  · rw [after, if_pos hcan]
    cases s <;> simp_all [canTransition, corresponding, Ends, JobExecutionStatus.isFinalStatus]
  · rw [after, if_neg hcan]
    exact Or.inl rfl

theorem follow_running_iff :
    (follow dispatches .running m = corresponding m.status ∧
      (corresponding m.status).isFinalStatus = true) ↔
      Admitted m ∧ Ends m.status ∧ dispatches (corresponding m.status) = true := by
  by_cases hadmitted : Admitted m
  · rw [follow_of_admitted hadmitted, after_running_iff, and_iff_right hadmitted]
  · rw [follow_of_not_admitted hadmitted]
    refine iff_of_false ?_ fun h ↦ hadmitted h.1
    rintro ⟨hrunning, hfinal⟩
    rw [← hrunning] at hfinal
    cases hfinal

/-- A failure that follows the terminal event of a result. -/
theorem follow_failed_iff (hfailed : m'.status = .failed) :
    follow dispatches (follow dispatches .running m) m' = .failed ↔
      (Admitted m ∧ Ends m.status ∧ dispatches (corresponding m.status) = true →
        m.status = .failed) ∧
      (¬ (Admitted m ∧ Ends m.status ∧ dispatches (corresponding m.status) = true) →
        Admitted m' ∧ dispatches .failed = true) := by
  by_cases hends : Admitted m ∧ Ends m.status ∧ dispatches (corresponding m.status) = true
  · -- the result was applied first and the failure comes too late
    obtain ⟨happly, hfinal⟩ := follow_running_iff.mpr hends
    have hinj : corresponding m.status = .failed ↔ m.status = .failed := by
      cases m.status <;> simp [corresponding]
    rw [happly, follow_of_final hfinal, imp_iff_right hends, hinj,
      and_iff_left fun hnot ↦ absurd hends hnot]
  · have hopen : follow dispatches .running m = .running ∨
        follow dispatches .running m = .canceling := by
      by_cases hadmitted : Admitted m
      · rw [follow_of_admitted hadmitted]
        exact after_running_of_not fun h ↦ hends ⟨hadmitted, h⟩
      · exact Or.inl (follow_of_not_admitted hadmitted _)
    rw [and_iff_right fun h ↦ absurd h hends, imp_iff_right hends]
    by_cases hadmitted : Admitted m'
    · rw [follow_of_admitted hadmitted, hfailed, and_iff_right hadmitted]
      rcases hopen with h | h
      · rw [h]
        simp [after, canTransition, corresponding, JobExecutionStatus.isFinalStatus]
      · rw [h]
        simp [after, canTransition, corresponding, JobExecutionStatus.isFinalStatus]
    · rw [follow_of_not_admitted hadmitted]
      refine iff_of_false ?_ fun h ↦ hadmitted h.1
      rcases hopen with h | h
      · rw [h]
        decide
      · rw [h]
        decide

/-- A queued execution does not fail. -/
theorem follow_queued_of_failed (hfailed : m.status = .failed) :
    follow dispatches .queued m = .queued := by
  rw [follow, hfailed]
  exact ite_self _

theorem foldl_progress {env : Environment} {job : Contracts.JobMessage}
    {events : List Contracts.ExecutorEventMessage} (hversion : 0 < job.schemaVersion.toInt)
    (h : IsProgress env job events) :
    events.foldl (follow dispatches) .queued = .running := by
  have hrunning : follow dispatches .queued (runningEvent env job) = .running :=
    follow_of_admitted (admitted_runningEvent hversion) _
  rcases h with rfl | ⟨result, rfl⟩
  · exact hrunning
  · rw [List.foldl_cons, hrunning, List.foldl_cons, List.foldl_nil, follow]
    exact ite_self _

/-! ## The outcome of a call

One case for each report: a failure before the start leaves the execution queued, a duplicate
skips it or leaves it queued, and behind `JOB_RUNNING` the first admitted event with a final
status decides. Where a result was published and could not be counted, the failure follows it,
and both orders have to be looked at. -/

section Outcome

variable {env : Environment} {job : Contracts.JobMessage} {decision : IdempotencyDecision}

theorem agrees_iff (h : accepted env job = .ok decision) :
    Agrees dispatches env job ↔ if decision.shouldExecute = true then
      started env job = .ok () ∧ EndsWell dispatches env job
    else skipped env job decision = .ok () ∧ dispatches .skipped = true := by
  constructor
  · rintro ⟨other, hother, hagrees⟩
    obtain rfl := Except.ok.inj (hother.symm.trans h)
    exact hagrees
  · exact fun hagrees ↦ ⟨decision, h, hagrees⟩

theorem agrees_of_started (h : accepted env job = .ok decision)
    (hexecute : decision.shouldExecute = true) (hstarted : started env job = .ok ()) :
    Agrees dispatches env job ↔ EndsWell dispatches env job := by
  rw [agrees_iff h, if_pos hexecute, and_iff_right hstarted]

theorem outcome_of_failed {thrown : Thrown} {exception : ExecutorJobException}
    {events : List Contracts.ExecutorEventMessage} (hversion : 0 < job.schemaVersion.toInt)
    (hevents : IsProgress env job events) (hconveys : Conveys exception thrown) :
    ((events ++ [failedEvent env job exception]).foldl (follow dispatches) .queued =
        corresponding (failedEvent env job exception).status ∧
      (corresponding (failedEvent env job exception).status).isFinalStatus = true) ↔
      failureDetails thrown = none ∧ Ends (failureStatus thrown) ∧
        dispatches (corresponding (failureStatus thrown)) = true := by
  have hstatus : (failedEvent env job exception).status = failureStatus thrown := hconveys.status
  rw [List.foldl_append, foldl_progress hversion hevents, List.foldl_cons, List.foldl_nil,
    follow_running_iff, admitted_failedEvent_iff hversion, hstatus, hconveys.details]

theorem taken_iff_of_finished {result : ExecutorJobResult}
    (hversion : 0 < job.schemaVersion.toInt) :
    Admitted (finishedEvent env job result) ∧ Ends (finishedEvent env job result).status ∧
        dispatches (corresponding (finishedEvent env job result).status) = true ↔
      Taken dispatches result := by
  rw [admitted_finishedEvent_iff hversion]
  exact Iff.rfl

/-- A duplicate leaves an execution queued or skips it. -/
theorem follow_queued_duplicate (hversion : 0 < job.schemaVersion.toInt) :
    follow dispatches .queued (skippedDuplicateEvent env job decision) =
      if dispatches .skipped then .skipped else .queued := by
  rw [follow_of_admitted (admitted_skippedDuplicateEvent hversion)]
  have hstatus : (skippedDuplicateEvent env job decision).status = .skipped := rfl
  rw [hstatus]
  cases hdispatches : dispatches .skipped <;>
    simp [after, canTransition, corresponding, JobExecutionStatus.isFinalStatus, hdispatches]

/-- **The outcome of a call.** Applied to a queued execution, the published events end it with the
status of the returned one exactly when the job agrees with the master. -/
theorem outcome_iff {events : List Contracts.ExecutorEventMessage}
    {ev : Contracts.ExecutorEventMessage} (h : Report env job events ev) :
    (events.foldl (follow dispatches) .queued = corresponding ev.status ∧
        (corresponding ev.status).isFinalStatus = true) ↔ Agrees dispatches env job := by
  cases h with
  | @refused exception hstatus hrefused =>
    have hev : (failedEvent env job exception).status = .failed := hstatus
    rw [List.foldl_cons, List.foldl_nil, follow_queued_of_failed hev, hev]
    refine iff_of_false (fun hend ↦ absurd hend.1 (by decide)) ?_
    rintro ⟨decision, hdecision, hagrees⟩
    have hnot := hrefused decision hdecision
    by_cases hexecute : decision.shouldExecute = true
    · rw [if_pos hexecute] at hagrees hnot
      exact hnot hagrees.1
    · rw [if_neg hexecute] at hagrees hnot
      exact hnot hagrees.1
  | @duplicate decision haccepted hduplicate hskipped =>
    have hev : (skippedDuplicateEvent env job decision).status = .skipped := rfl
    rw [agrees_iff haccepted, hduplicate, if_neg Bool.false_ne_true, and_iff_right hskipped,
      List.foldl_cons, List.foldl_nil,
      follow_queued_duplicate (schemaVersion_of_accepted haccepted), hev]
    cases dispatches .skipped <;> simp [corresponding, JobExecutionStatus.isFinalStatus]
  | @duplicateFailed decision exception haccepted hduplicate hskipped hstatus =>
    have hev : (failedEvent env job exception).status = .failed := hstatus
    rw [agrees_iff haccepted, hduplicate, if_neg Bool.false_ne_true, List.foldl_cons,
      List.foldl_cons, List.foldl_nil,
      follow_queued_duplicate (schemaVersion_of_accepted haccepted), hev]
    refine iff_of_false ?_ fun hagrees ↦ hskipped hagrees.1
    -- skipped or still queued, neither of which can fail
    cases dispatches .skipped with
    | true =>
      rw [if_pos rfl, follow_of_final rfl]
      exact fun hend ↦ absurd hend.1 (by decide)
    | false =>
      rw [if_neg Bool.false_ne_true, follow_queued_of_failed hev]
      exact fun hend ↦ absurd hend.1 (by decide)
  | @failed _ thrown _ exception haccepted hexecute hstarted hserved hevents hconveys =>
    rw [agrees_of_started haccepted hexecute hstarted, EndsWell, hserved]
    exact outcome_of_failed (schemaVersion_of_accepted haccepted) hevents hconveys
  | @unpublished _ result failure _ exception haccepted hexecute hstarted hserved hpublish hevents
      hconveys =>
    rw [agrees_of_started haccepted hexecute hstarted, EndsWell, hserved]
    dsimp only
    rw [hpublish, outcome_of_failed (schemaVersion_of_accepted haccepted) hevents hconveys]
    have hends : Ends (failureStatus (.failure failure)) := Or.inr (Or.inl rfl)
    rw [and_iff_right hends]
    rfl
  | @finished _ result _ haccepted hexecute hstarted hserved hpublish hconcluded hevents =>
    have hversion := schemaVersion_of_accepted haccepted
    rw [agrees_of_started haccepted hexecute hstarted, EndsWell, hserved]
    dsimp only
    rw [hpublish]
    dsimp only
    rw [hconcluded, List.foldl_append, foldl_progress hversion hevents, List.foldl_cons,
      List.foldl_nil, follow_running_iff]
    exact taken_iff_of_finished hversion
  | @unconcluded _ result thrown _ exception haccepted hexecute hstarted hserved hpublish hconcluded
      hevents hconveys =>
    have hversion := schemaVersion_of_accepted haccepted
    have hev : (failedEvent env job exception).status = .failed :=
      hconveys.status.trans (failureStatus_bind hconcluded)
    rw [agrees_of_started haccepted hexecute hstarted, EndsWell, hserved]
    dsimp only
    rw [hpublish]
    dsimp only
    have hfailed : (corresponding .failed).isFinalStatus = true := rfl
    rw [hconcluded, List.foldl_append, foldl_progress hversion hevents, List.foldl_cons,
      List.foldl_cons, List.foldl_nil, hev, and_iff_left hfailed]
    refine (follow_failed_iff hev).trans ?_
    rw [taken_iff_of_finished hversion, admitted_failedEvent_iff hversion, hconveys.details]
    rfl

end Outcome

end Condition

/-! ## The agreement

The admitted events of the stream are those of the call, and `replay_receive` and the rule
`after` turn their statuses into the one of the execution. That a message id is new is true of
all of them, as every place in the handler that builds an event has its own. -/

/-- What is left of a stream when the events that are not admitted are taken out. -/
theorem map_event_admitted (stream : List Delivered) :
    (admitted stream).map Delivered.event =
      (stream.map Delivered.event).filter fun m ↦ decide (Admitted m) := by
  rw [admitted, List.filter_map]
  rfl

/-- **Terminal-status agreement.** A queued execution for which the master receives the events of
one call in order ends with the final status that the returned event reports, exactly when the job
agrees. -/
theorem terminalStatus_iff {uuid : TextCodec UUID} {instant : TextCodec Instant} {c : Catalog}
    {db : Db} (x : JobExecutionEntity) (run : PipelineRunEntity) {env : Environment}
    {job : Contracts.JobMessage} {ev : Contracts.ExecutorEventMessage} {p : Executor.Progress}
    {stream : List Delivered} (hdb : Reachable c db) (hschema : Schema c db)
    (hx : x ∈ db.executions) (hqueued : x.status = .queued) (hrun : run ∈ db.runs)
    (hrunid : run.id = x.pipelineRunId) (hjob : job.jobExecutionId = some x.id)
    (hreturned : handle env job .initial = (.ok ev, p))
    (hstream : stream.map Delivered.event = p.published)
    (hdocuments : stream.Pairwise Delivered.Apart)
    (hfresh : ∀ d ∈ stream, d.report.Unseen db.inbox) :
    (∃ e, (replay (receive uuid instant c) db stream).findExecution x.id = some e ∧
      e.status = corresponding ev.status ∧ (corresponding ev.status).isFinalStatus = true) ↔
      Agrees (lands c run.pipelineId (db.findByPipelineRunId run.id) x.id) env job := by
  have hreport := handle_report hreturned
  have hids : ∀ d ∈ stream, d.event.jobExecutionId = some x.id := by
    intro d hd
    have hid := jobExecutionId_of_published env job d.event
    rw [hreturned] at hid
    rw [hid (hstream ▸ List.mem_map_of_mem hd), hjob]
  have hsub : (admitted stream).Sublist stream := List.filter_sublist
  have hcalls : List.Forall₂ (Delivers x.id) ((admitted stream).map Delivered.call)
      ((admitted stream).map Delivered.report) := by
    rw [List.forall₂_map_left_iff, List.forall₂_map_right_iff, List.forall₂_same]
    exact fun d hd ↦ Delivered.delivers (hids d (hsub.subset hd))
  have hmessages := nodup_messageId hreport
  rw [← hstream] at hmessages
  obtain ⟨e, he, hstatus⟩ := status_of_replay (c := c) hdb hx hrun hrunid hcalls
    (pairwise_report (hdocuments.sublist hsub)
      (((hsub.map _).map _).nodup hmessages))
    (List.forall_mem_map.mpr fun d hd ↦ hfresh d (hsub.subset hd))
  rw [map_report_status, map_event_admitted, hstream, hqueued, ← foldl_follow] at hstatus
  rw [replay_receive hdb hschema hx hids, ← outcome_iff hreport, ← hstatus]
  constructor
  · rintro ⟨e', he', hend⟩
    obtain rfl := Option.some.inj (he.symm.trans he')
    exact hend
  · exact fun hend ↦ ⟨e, he, hend⟩

/-- A job whose attempts are counted from the given number. -/
def smallJob (attempt : Int32) : Contracts.JobMessage where
  schemaVersion := 1
  messageId := some 90
  correlationId := none
  pipelineRunId := some 0
  pipelineId := some 0
  stageId := some 1
  jobId := some 2
  jobExecutionId := some 2
  jobType := some .build
  templatePath := some "build/custom"
  attempt := attempt
  maxAttempts := 3
  timeoutSeconds := 60
  resourceLimits := .empty
  workspacePolicy := none
  sandboxPolicy := none
  inputs := []
  params := []
  secrets := []
  createdAt := none

/-- What the code of a job returns that succeeds with the given artifacts. -/
def success (artifacts : List Contracts.ArtifactDescriptor) : ExecutorJobResult where
  status := .success
  summary := none
  artifacts := artifacts
  metrics := []
  logs := none
  error := none
  additionalData := []

/-- Surroundings in which the job succeeds. -/
def succeeding : Environment := .smooth fun _ ↦ .ok (some (success []))

/-- The consumer of results takes an event from its topic. -/
def consumedFrom (event : Contracts.ExecutorEventMessage) : Delivered where
  context := ⟨0, none⟩
  delivery := ⟨"kafka-results-consumer", "jobs.results", none, "kafka", none⟩
  eventSource := by decide
  event := event

/-- The events of a call as the consumer of results delivers them. -/
def consumed (events : List Contracts.ExecutorEventMessage) : List Delivered :=
  events.map consumedFrom

theorem map_event_consumed (events : List Contracts.ExecutorEventMessage) :
    (consumed events).map Delivered.event = events := by
  rw [consumed, List.map_map]
  exact List.map_id _

/-- The run whose only execution is queued. -/
def queuedRun : List Call := [Small.call (.createRun 0 none)]

/-- Its run. -/
def startedRun : PipelineRunEntity :=
  { PipelineRunService.newRun 0 0 1 0 none none with status := .running }

/-- Its execution. -/
def queuedExecution : JobExecutionEntity :=
  PipelineRunService.newExecution 0 2 startedRun (Small.job 2 0) 1

theorem mem_queuedRun : queuedExecution ∈ (history Small.solo queuedRun).executions := by
  decide +kernel

theorem schema_queuedRun : Schema Small.solo (history Small.solo queuedRun) := by
  decide +kernel

theorem unseen_queuedRun (report : StatusReport) :
    report.Unseen (history Small.solo queuedRun).inbox := by
  have hinbox : (history Small.solo queuedRun).inbox = [] := by decide +kernel
  rw [hinbox]
  exact fun _ hevent ↦ absurd hevent List.not_mem_nil

theorem terminalStatus_iff_success : ∃ ev p,
    handle succeeding (smallJob 1) .initial = (.ok ev, p) ∧
    ((∃ e, (replay (receive strokes instantStrokes Small.solo) (history Small.solo queuedRun)
        (consumed p.published)).findExecution 2 = some e ∧
      e.status = corresponding ev.status ∧ (corresponding ev.status).isFinalStatus = true) ↔
      Agrees (lands Small.solo 0 ((history Small.solo queuedRun).findByPipelineRunId 0) 2)
        succeeding (smallJob 1)) := by
  have hdocuments : ∀ events, (consumed events).Pairwise Delivered.Apart := by
    intro events
    rw [consumed, List.pairwise_map]
    exact List.pairwise_of_forall fun _ _ ↦ Or.inl rfl
  exact ⟨_, _, rfl, terminalStatus_iff queuedExecution startedRun ⟨queuedRun, rfl⟩ schema_queuedRun
    mem_queuedRun rfl (by decide +kernel) rfl rfl rfl (map_event_consumed _) (hdocuments _)
    fun d _ ↦ unseen_queuedRun d.report⟩

theorem replay_consumed (env : Environment) (attempt : Int32) :
    replay (receive strokes instantStrokes Small.solo) (history Small.solo queuedRun)
        (consumed (handle env (smallJob attempt) .initial).2.published) =
      replay (step Small.solo) (history Small.solo queuedRun)
        ((admitted (consumed (handle env (smallJob attempt) .initial).2.published)).map
          Delivered.call) := by
  refine replay_receive ⟨queuedRun, rfl⟩ schema_queuedRun mem_queuedRun fun d hd ↦ ?_
  obtain ⟨event, hevent, rfl⟩ := List.mem_map.mp hd
  exact jobExecutionId_of_published env (smallJob attempt) event hevent

/-- A job with attempt zero is refused: its executor reports the failure, and the execution stays
queued. -/
theorem refused_job_stays_queued :
    (handle succeeding (smallJob 0) .initial).1.toOption.map (fun ev ↦ ev.status) = some .failed ∧
    ∃ e ∈ (replay (receive strokes instantStrokes Small.solo) (history Small.solo queuedRun)
      (consumed (handle succeeding (smallJob 0) .initial).2.published)).findExecution 2,
      e.status = .queued := by
  rw [replay_consumed]
  decide +kernel

/-- A job that succeeds with an artifact stays running. -/
example : ∃ e ∈ (replay (receive strokes instantStrokes Small.solo) (history Small.solo queuedRun)
    (consumed (handle (.smooth fun _ ↦ .ok (some (success eventWithBinary.artifacts))) (smallJob 1)
      .initial).2.published)).findExecution 2, e.status = .running := by
  rw [replay_consumed]
  decide +kernel

end FuzzingCiCd.Integration
