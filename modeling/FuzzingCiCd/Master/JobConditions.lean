import FuzzingCiCd.Master.Completion
import FuzzingCiCd.Master.Dependencies
import FuzzingCiCd.Master.StageOrder
import FuzzingCiCd.Master.TriggerRecords

/-!
# The condition of a job

Every job is stored with a condition: it runs after success, after failure or always. The builder
never reads it. The edges that it makes from the stages all say `on_success`, so a job that waits
for other jobs runs exactly when all of these have succeeded, whatever was stored.

`conditions_honoured_iff` says for which histories nobody can tell: those in which no job that
is meant for failures sees all of its predecessors succeed, and no job that is meant to run always
sees all of them end in another way, or end while nothing is dispatched.

## Representation

Whether a condition is honoured depends on the latest statuses of the jobs alone, and a job without
an execution is one without a latest status. All properties of a run are therefore stated about
the function `latestStatus` of its rows.
-/

namespace FuzzingCiCd.Master

open Transition PipelineRunService ReadyJobResolver

/-! ## Predecessors -/

namespace Catalog

variable (c : Catalog) (pipelineId : UUID)

/-- The pipeline has no explicit dependencies. -/
def ImplicitOnly : Prop := c.dependenciesOf ((c.jobsOf pipelineId).map JobEntity.id) = []

instance : Decidable (c.ImplicitOnly pipelineId) := inferInstanceAs (Decidable (_ = []))

/-- The jobs that a job waits for. -/
def predecessors (jobId : UUID) : List UUID :=
  ((c.graphOf pipelineId).dependencies jobId).map DependencyEdge.dependsOnJobId

/-- The edges into a job carry its condition. -/
def CarriesConditions : Prop :=
  ∀ job ∈ c.jobsOf pipelineId, ∀ edge ∈ (c.graphOf pipelineId).dependencies job.id,
    edge.condition = job.condition

variable {c pipelineId}

theorem condition_of_implicitOnly (himplicit : c.ImplicitOnly pipelineId) {jobId : UUID}
    {edge : DependencyEdge} (hedge : edge ∈ (c.graphOf pipelineId).dependencies jobId) :
    edge.condition = .onSuccess := by
  rw [graphOf, himplicit, ExecutionGraphBuilder.mem_dependencies] at hedge
  obtain ⟨-, -, -, -, -, -, -, -, -, target, -, rfl⟩ := hedge
  rfl

/-- **The builder.** It carries the conditions of a pipeline exactly when no job that waits has one
to carry. -/
theorem carriesConditions_iff (himplicit : c.ImplicitOnly pipelineId) :
    c.CarriesConditions pipelineId ↔ ∀ job ∈ c.jobsOf pipelineId,
      c.predecessors pipelineId job.id ≠ [] → job.condition = .onSuccess := by
  refine forall₂_congr fun job _ ↦ ?_
  constructor
  · intro hcarries hwaits
    obtain ⟨k, hk⟩ := List.exists_mem_of_ne_nil _ hwaits
    obtain ⟨edge, hedge, -⟩ := List.mem_map.mp hk
    rw [← hcarries edge hedge, condition_of_implicitOnly himplicit hedge]
  · intro hdefault edge hedge
    rw [hdefault (List.ne_nil_of_mem (List.mem_map_of_mem hedge)),
      condition_of_implicitOnly himplicit hedge]

end Catalog

/-! ## Latest statuses -/

section Statuses

/-- The latest statuses of the jobs. -/
abbrev Statuses := UUID → Option JobExecutionStatus

/-- The jobs have all ended. -/
def Finished (statuses : Statuses) (jobIds : List UUID) : Prop :=
  ∀ k ∈ jobIds, ∃ s, statuses k = some s ∧ s.isFinalStatus = true

/-- The jobs have all succeeded. -/
def Succeeded (statuses : Statuses) (jobIds : List UUID) : Prop :=
  ∀ k ∈ jobIds, statuses k = some .success

/-- The jobs have all failed or timed out. -/
def Broken (statuses : Statuses) (jobIds : List UUID) : Prop :=
  ∀ k ∈ jobIds, statuses k = some .failed ∨ statuses k = some .timeout

variable {c : Catalog} {pipelineId : UUID} {rows : List JobExecutionEntity}

theorem latestStatus_eq_none {k : UUID} :
    latestStatus rows k = none ↔ ∀ e ∈ rows, e.jobId ≠ k := by
  rw [latestStatus, Option.map_eq_none_iff, Latest.latest_eq_none]

/-- **Readiness.** A job is ready when it has no execution and its predecessors have succeeded,
whatever its condition is. -/
theorem mem_readyJobs_iff (himplicit : c.ImplicitOnly pipelineId) {job : JobEntity} :
    job ∈ c.readyJobs pipelineId rows ↔ job ∈ c.jobsOf pipelineId ∧
      latestStatus rows job.id = none ∧
      Succeeded (latestStatus rows) (c.predecessors pipelineId job.id) := by
  rw [Catalog.mem_readyJobs, latestStatus_eq_none, Succeeded, Catalog.predecessors,
    List.forall_mem_map]
  refine and_congr_right fun _ ↦ and_congr_right fun _ ↦ forall₂_congr fun edge hedge ↦ ?_
  rw [edgeSatisfied_iff, Catalog.condition_of_implicitOnly himplicit hedge]
  constructor
  · rintro ⟨s, hs, -, hsuccess⟩
    rw [hs, of_decide_eq_true hsuccess]
  · intro hs
    exact ⟨.success, hs, rfl, rfl⟩

end Statuses

/-! ## What the conditions ask for -/

/-- An execution that the operation created, of a job that is meant for failures, comes after
predecessors that have all failed or timed out. -/
def StartsOnFailure (c : Catalog) (db db' : Db) : Prop :=
  ∀ r v', db'.view r = some v' → c.ImplicitOnly v'.run.pipelineId →
    ∀ e ∈ v'.rows, (∀ x ∈ db.findByPipelineRunId r, x.id ≠ e.id) →
      ∀ job ∈ c.jobsOf v'.run.pipelineId, job.id = e.jobId → job.condition = .onFailure →
        Broken (latestStatus v'.rows) (c.predecessors v'.run.pipelineId job.id)

/-- A job that is meant to run always has an execution once its predecessors have ended. -/
def StartsAlways (c : Catalog) (v : RunView) : Prop :=
  c.ImplicitOnly v.run.pipelineId → ∀ job ∈ c.jobsOf v.run.pipelineId, job.condition = .always →
    Finished (latestStatus v.rows) (c.predecessors v.run.pipelineId job.id) →
      ∃ e ∈ v.rows, e.jobId = job.id

/-- With these statuses, no job that is meant for failures and waits for others has run, and no job
that is meant to run always is left behind. -/
structure Honoured (c : Catalog) (pipelineId : UUID) (statuses : Statuses) : Prop where
  onFailure : ∀ job ∈ c.jobsOf pipelineId, job.condition = .onFailure →
    c.predecessors pipelineId job.id ≠ [] → statuses job.id = none
  always : ∀ job ∈ c.jobsOf pipelineId, job.condition = .always →
    Finished statuses (c.predecessors pipelineId job.id) → statuses job.id ≠ none

/-- No job that is meant to run always waits while its predecessors have ended. -/
def LeavesNoneBehind (c : Catalog) (pipelineId : UUID) (statuses : Statuses) : Prop :=
  ∀ job ∈ c.jobsOf pipelineId, statuses job.id = none → job.condition = .always →
    ¬ Finished statuses (c.predecessors pipelineId job.id)

/-- When the ready jobs are dispatched, no job that is meant for failures is among them without
reason, and no job that is meant to run always is missing. -/
def DispatchesAsMeant (c : Catalog) (pipelineId : UUID) (statuses : Statuses) : Prop :=
  ∀ job ∈ c.jobsOf pipelineId, statuses job.id = none →
    (job.condition = .onFailure → c.predecessors pipelineId job.id ≠ [] →
      ¬ Succeeded statuses (c.predecessors pipelineId job.id)) ∧
    (job.condition = .always → Finished statuses (c.predecessors pipelineId job.id) →
      Succeeded statuses (c.predecessors pipelineId job.id))

/-- The condition on an operation: an event that ends an execution leads to a dispatch as meant, and
a rejection and a tick of the watchdog, which dispatch nothing, leave no job behind. -/
def HonoursConditions (c : Catalog) (db : Db) (v : RunView) (call : Call) : Prop :=
  c.ImplicitOnly v.run.pipelineId →
  match call.operation with
  | .executorEvent delivery message =>
    Consumes db delivery message → ∀ x ∈ v.rows, message.jobExecutionId = some x.id →
      ∀ t, ExecutorEventService.mapStatus message.status = some t →
        canTransition x.status t = true → t.isFinalStatus = true →
          DispatchesAsMeant c v.run.pipelineId (latestStatus (withStatus v.rows x.id t))
  | .reject approvalId =>
    ∀ a ∈ v.approvals, a.id = approvalId → ∀ x ∈ v.rows, x.id = a.jobExecutionId →
      x.status = .waitingApproval →
        LeavesNoneBehind c v.run.pipelineId (latestStatus (withStatus v.rows x.id .skipped))
  | .checkTimeouts =>
    LeavesNoneBehind c v.run.pipelineId (latestStatus (withTimeouts call.context.now v.rows))
  | _ => True

/-! ## Steps -/

section Steps

variable {c : Catalog} {pipelineId : UUID} {statuses statuses' : Statuses}

theorem Honoured.of_quiet (h : Honoured c pipelineId statuses)
    (hnone : ∀ k, statuses' k = none ↔ statuses k = none)
    (hfinal : ∀ k s, statuses' k = some s → s.isFinalStatus = true →
      ∃ s, statuses k = some s ∧ s.isFinalStatus = true) : Honoured c pipelineId statuses' := by
  constructor
  · intro job hjob hcondition hwaits
    rw [hnone]
    exact h.onFailure job hjob hcondition hwaits
  · intro job hjob hcondition hended
    rw [Ne, hnone]
    refine h.always job hjob hcondition fun k hk ↦ ?_
    obtain ⟨s, hs, hsfinal⟩ := hended k hk
    exact hfinal k s hs hsfinal

theorem Honoured.of_idle_iff (h : Honoured c pipelineId statuses)
    (hnone : ∀ k, statuses' k = none ↔ statuses k = none) :
    Honoured c pipelineId statuses' ↔ LeavesNoneBehind c pipelineId statuses' := by
  constructor
  · intro h' job hjob hwaiting hcondition hended
    exact h'.always job hjob hcondition hended hwaiting
  · intro hbehind
    refine ⟨fun job hjob hcondition hwaits ↦ ?_, fun job hjob hcondition hended hwaiting ↦ ?_⟩
    · rw [hnone]
      exact h.onFailure job hjob hcondition hwaits
    · exact hbehind job hjob hwaiting hcondition hended

/-- **Statuses are set and the ready jobs are dispatched**: those without a status whose
predecessors have succeeded get one that is not final. -/
theorem Honoured.of_dispatch_iff {middle : Statuses} (h : Honoured c pipelineId statuses)
    (hnone : ∀ k, middle k = none ↔ statuses k = none)
    (hready : ∀ job ∈ c.jobsOf pipelineId, middle job.id = none →
      Succeeded middle (c.predecessors pipelineId job.id) →
        ∃ s, statuses' job.id = some s ∧ s.isFinalStatus = false)
    (hother : ∀ k, (∀ job ∈ c.jobsOf pipelineId, job.id = k → middle k = none →
      ¬ Succeeded middle (c.predecessors pipelineId k)) → statuses' k = middle k) :
    Honoured c pipelineId statuses' ↔ DispatchesAsMeant c pipelineId middle := by
  have hkeep : ∀ k, middle k ≠ none → statuses' k = middle k :=
    fun k hk ↦ hother k fun _ _ _ hwaiting ↦ absurd hwaiting hk
  -- a job that was dispatched has not ended
  have hended : ∀ ks, Finished statuses' ks → Finished middle ks := by
    intro ks hks k hk
    obtain ⟨s, hs, hfinal⟩ := hks k hk
    refine ⟨s, ?_, hfinal⟩
    rw [← hs]
    refine (hother k fun job hjob hid hwaiting hsucceeded ↦ ?_).symm
    subst hid
    obtain ⟨s', hs', hopen⟩ := hready job hjob hwaiting hsucceeded
    rw [Option.some.inj (hs.symm.trans hs'), hopen] at hfinal
    cases hfinal
  constructor
  · intro h' job hjob hwaiting
    refine ⟨fun hcondition hwaits hsucceeded ↦ ?_, fun hcondition hfinished ↦ ?_⟩
    · obtain ⟨s, hs, -⟩ := hready job hjob hwaiting hsucceeded
      rw [h'.onFailure job hjob hcondition hwaits] at hs
      cases hs
    · by_contra hnot
      refine h'.always job hjob hcondition (fun k hk ↦ ?_) ?_
      · obtain ⟨s, hs, hfinal⟩ := hfinished k hk
        exact ⟨s, by rw [hkeep k (by rw [hs]; exact Option.some_ne_none s), hs], hfinal⟩
      · rw [hother job.id fun _ _ _ _ ↦ hnot]
        exact hwaiting
  · intro hmeant
    refine ⟨fun job hjob hcondition hwaits ↦ ?_, fun job hjob hcondition hfinished ↦ ?_⟩
    · have hwaiting := (hnone job.id).mpr (h.onFailure job hjob hcondition hwaits)
      have hnot := (hmeant job hjob hwaiting).1 hcondition hwaits
      rw [hother job.id fun _ _ _ _ ↦ hnot]
      exact hwaiting
    · by_cases hwaiting : middle job.id = none
      · have hsucceeded := (hmeant job hjob hwaiting).2 hcondition (hended _ hfinished)
        obtain ⟨s, hs, -⟩ := hready job hjob hwaiting hsucceeded
        rw [hs]
        exact Option.some_ne_none s
      · rw [hkeep job.id hwaiting]
        exact hwaiting

end Steps

/-! ## Runs

The conditions of the jobs can be broken where a dispatch happens, or fails to happen. Steps that
end no execution are quiet; an event that ends one dispatches what the graph makes ready, and has
to be compared with what the conditions ask for; a rejection and a tick of the watchdog end
executions and dispatch nothing. -/

section Runs

variable {c : Catalog} {db db' : Db} {call : Call} {v v' : RunView}
  {u : JobExecutionEntity → JobExecutionEntity} {fresh : List JobExecutionEntity}
  {sent : List UUID}

theorem latestStatus_map_eq_none {rows : List JobExecutionEntity} (hu : Keeps u) {k : UUID} :
    latestStatus (rows.map u) k = none ↔ latestStatus rows k = none := by
  rw [latestStatus_eq_none, latestStatus_eq_none, List.forall_mem_map]
  exact forall₂_congr fun e _ ↦ by rw [hu.jobId]

/-- A step that makes no execution final, and adds attempts of jobs that have some. -/
theorem honoured_of_quiet (hv : Attempted c v) (h : ViewEffect v v' u fresh sent)
    (hadds : AddsAttempts c v fresh) (hold : ∀ f ∈ fresh, ∃ e ∈ v.rows, e.jobId = f.jobId)
    (hstatus : ∀ e ∈ v.rows, (u e).status.isFinalStatus = true → e.status.isFinalStatus = true)
    {pipelineId : UUID} (hhonoured : Honoured c pipelineId (latestStatus v.rows)) :
    Honoured c pipelineId (latestStatus v'.rows) := by
  refine hhonoured.of_quiet (fun k ↦ ?_) fun k s hs hfinal ↦ ?_
  · refine Iff.trans ?_ (latestStatus_map_eq_none h.keeps)
    rw [latestStatus_eq_none, latestStatus_eq_none, h.rows]
    constructor
    · exact fun hnone e he ↦ hnone e (List.mem_append_left _ he)
    · intro hnone e he
      rcases List.mem_append.mp he with he | he
      · exact hnone e he
      · obtain ⟨x, hx, hjob⟩ := hold e he
        have := hnone (u x) (List.mem_map_of_mem hx)
        rwa [h.keeps.jobId, hjob] at this
  · by_cases hnew : ∃ f ∈ fresh, f.jobId = k
    · obtain ⟨f, hf, rfl⟩ := hnew
      have hactive := hadds.active f hf
      rw [latestStatus_of_mem hv h hadds hf] at hs
      rw [Option.some.inj hs, JobExecutionStatus.not_active_of_final hfinal] at hactive
      cases hactive
    · rw [latestStatus_of_ne hv h fun f hf hjob ↦ hnew ⟨f, hf, hjob⟩] at hs
      obtain ⟨e, he, rfl⟩ := Option.map_eq_some_iff.mp hs
      exact ⟨e.status, by rw [latestStatus, he]; rfl, hstatus e (Latest.of_latest he).1 hfinal⟩

theorem honoured_of_idle_iff {w : JobExecutionEntity → JobExecutionEntity} (hw : Keeps w)
    (hlatest : latestStatus v'.rows = latestStatus (v.rows.map w)) {pipelineId : UUID}
    (hhonoured : Honoured c pipelineId (latestStatus v.rows)) :
    Honoured c pipelineId (latestStatus v'.rows) ↔
      LeavesNoneBehind c pipelineId (latestStatus (v.rows.map w)) := by
  rw [hlatest]
  exact hhonoured.of_idle_iff fun k ↦ latestStatus_map_eq_none hw

/-- **An event that ends an execution** honours the conditions exactly when the dispatch that
follows it is what they ask for. -/
theorem honoured_of_dispatch_iff (hv : Attempted c v)
    (himplicit : c.ImplicitOnly v.run.pipelineId) {x : UUID} {t : JobExecutionStatus}
    {created : List JobExecutionEntity} (h : ViewEffect v v' u created sent)
    (hset : SetsStatus v.rows u x t)
    (hcreated : List.Forall₂ (fun job e ↦ FreshRow c v.run.id job 1 e)
      (c.readyJobs v.run.pipelineId (v.rows.map u)) created)
    (hhonoured : Honoured c v.run.pipelineId (latestStatus v.rows)) :
    Honoured c v.run.pipelineId (latestStatus v'.rows) ↔
      DispatchesAsMeant c v.run.pipelineId (latestStatus (withStatus v.rows x t)) := by
  have hmiddle := latestStatus_setsStatus h.keeps hset
  have hadds := addsAttempts_ready h.keeps hcreated
  rw [← hmiddle]
  refine hhonoured.of_dispatch_iff (fun k ↦ latestStatus_map_eq_none h.keeps) ?_ ?_
  · intro job hjob hwaiting hsucceeded
    obtain ⟨f, hf, hrow⟩ := exists_of_forall₂_left hcreated
      ((mem_readyJobs_iff himplicit).mpr ⟨hjob, hwaiting, hsucceeded⟩)
    refine ⟨f.status, ?_, ?_⟩
    · rw [← hrow.jobId]
      exact latestStatus_of_mem hv h hadds hf
    · rw [Bool.eq_false_iff]
      intro hfinal
      have hactive := hadds.active f hf
      rw [JobExecutionStatus.not_active_of_final hfinal] at hactive
      cases hactive
  · intro k hnot
    have hne : ∀ f ∈ created, f.jobId ≠ k := by
      intro f hf hjob
      obtain ⟨job, hready, hrow⟩ := exists_of_forall₂_right hcreated hf
      obtain ⟨hmem, hwaiting, hsucceeded⟩ := (mem_readyJobs_iff himplicit).mp hready
      obtain rfl : job.id = k := hrow.jobId.symm.trans hjob
      exact hnot job hmem rfl hwaiting hsucceeded
    rw [latestStatus_of_ne hv h hne, latestStatus,
      Latest.latest_map h.keeps.jobId h.keeps.attempt, Option.map_map]
    rfl

private theorem honoured_of_open (hv : Attempted c v) (h : ViewEffect v v' u [] sent) {x : UUID}
    {t : JobExecutionStatus} (hstatus : SetsStatus v.rows u x t) (hopen : t.isFinalStatus = false)
    {pipelineId : UUID} (hhonoured : Honoured c pipelineId (latestStatus v.rows)) :
    Honoured c pipelineId (latestStatus v'.rows) := by
  refine honoured_of_quiet hv h (addsAttempts_nil c v) (by simp) (fun e he hfinal ↦ ?_) hhonoured
  rw [hstatus e he] at hfinal
  split at hfinal
  · rw [hopen] at hfinal
    cases hfinal
  · exact hfinal

/-- What finds nothing to do on a run meets the condition. -/
theorem HonoursConditions.of_idles (hidle : Idles c db v call) :
    HonoursConditions c db v call := by
  intro _
  obtain ⟨ctx, operation⟩ := call
  cases operation with
  | executorEvent delivery message =>
    intro hnew x hx hid t htarget hcan
    have hno := hidle hnew x hx hid
    rw [htarget, ExecutorEventService.changesStatus, hcan] at hno
    cases hno
  | reject approvalId =>
    intro a ha hid x hx hfor hwaiting
    exact absurd hwaiting (hidle a ha hid x hx hfor)
  | checkTimeouts => exact hidle.elim
  | _ => trivial

end Runs

/-- The view honours the conditions. -/
def HonouredView (c : Catalog) (v : RunView) : Prop :=
  c.ImplicitOnly v.run.pipelineId → Honoured c v.run.pipelineId (latestStatus v.rows)

/-- **One step.** It honours the conditions exactly when the operation meets the condition there. -/
theorem RunStep.honoured_iff {c : Catalog} {db : Db} {call : Call} {v v' : RunView}
    (hv : Attempted c v) (hP : HonouredView c v) (h : RunStep c db call v v') :
    HonoursConditions c db v call ↔ HonouredView c v' := by
  have hpipeline := h.run_pipeline.2
  rw [HonouredView, hpipeline]
  refine forall_congr' fun himplicit ↦ ?_
  have hhonoured := hP himplicit
  cases h with
  | idle hidle heffect hstatus hrun =>
    refine iff_of_true (HonoursConditions.of_idles hidle himplicit) (honoured_of_quiet hv heffect
      (addsAttempts_nil c v) (by simp) (fun e he hfinal ↦ ?_) hhonoured)
    rwa [hstatus e he] at hfinal
  | @move _ _ _ _ _ _ x t hnew hx hid htarget hcan hfinal heffect hstatus hrun =>
    refine iff_of_true ?_ (honoured_of_open hv heffect hstatus hfinal hhonoured)
    intro _ y hy hyid t' htarget' _ hfinal'
    rw [Option.some.inj (htarget'.symm.trans htarget), hfinal] at hfinal'
    cases hfinal'
  | @finish ctx delivery message _ _ u x t created hnew hx hid htarget hcan hfinal heffect hstatus
      hcreated hrun =>
    rw [honoured_of_dispatch_iff hv himplicit heffect hstatus hcreated hhonoured]
    constructor
    · exact fun hok ↦ hok hnew x hx hid t htarget hcan hfinal
    · intro hok _ y hy hyid t' htarget' _ _
      obtain rfl := hv.keyed.eq hy hx (Option.some.inj (hyid.symm.trans hid))
      obtain rfl := Option.some.inj (htarget'.symm.trans htarget)
      exact hok
  | cancelRun heffect hstatus hrun =>
    refine iff_of_true trivial (honoured_of_quiet hv heffect (addsAttempts_nil c v) (by simp)
      (fun e he hfinal ↦ ?_) hhonoured)
    rw [hstatus e he] at hfinal
    split at hfinal
    · cases hfinal
    · exact hfinal
  | cancelExecution hx hfinal heffect hstatus hrun =>
    exact iff_of_true trivial (honoured_of_open hv heffect hstatus rfl hhonoured)
  | @retryRun _ _ _ u retried hpicks heffect hstatus hretried hrun =>
    refine iff_of_true trivial (honoured_of_quiet hv heffect (addsAttempts_retried hv hretried)
      (fun f hf ↦ ?_) (fun e he hfinal ↦ ?_) hhonoured)
    · obtain ⟨x, hx, hretries⟩ := exists_of_forall₂_right hretried hf
      exact ⟨x, mem_of_mem_retryPicks hx, (jobId_of_retries hretries).symm⟩
    · rw [hstatus e he] at hfinal
      split at hfinal
      · cases hfinal
      · exact hfinal
  | @retryExecution _ _ _ u x retried job hx hjob hjobId hcandidate heffect hstatus hretried hrun =>
    refine iff_of_true trivial (honoured_of_quiet hv heffect
      (addsAttempts_retry hv hx hjobId hretried)
      (fun f hf ↦ ?_) (fun e he hfinal ↦ ?_) hhonoured)
    · rw [List.mem_singleton.mp hf, hretried.jobId, hjobId]
      exact ⟨x, hx, rfl⟩
    · rw [hstatus e he] at hfinal
      split at hfinal
      · cases hfinal
      · exact hfinal
  | approve hx happroval hfor hpending hwaiting heffect hstatus hrun =>
    exact iff_of_true trivial (honoured_of_open hv heffect hstatus rfl hhonoured)
  | @reject _ _ _ u x approval hx happroval hunique hfor hpending hwaiting heffect hstatus hrun =>
    have hlatest : latestStatus v'.rows = latestStatus (withStatus v.rows x.id .skipped) := by
      rw [heffect.rows, List.append_nil]
      exact latestStatus_setsStatus heffect.keeps hstatus
    rw [honoured_of_idle_iff (keeps_withStatus x.id .skipped) hlatest hhonoured]
    constructor
    · exact fun hok ↦ hok approval happroval rfl x hx hfor.symm hwaiting
    · intro hok a ha haid y hy hyfor _
      obtain rfl := hunique a ha haid
      obtain rfl := hv.keyed.eq hy hx (hyfor.trans hfor)
      exact hok
  | @checkTimeouts ctx _ _ u heffect hstatus hrun =>
    have hlatest : latestStatus v'.rows = latestStatus (withTimeouts ctx.now v.rows) := by
      rw [heffect.rows, List.append_nil]
      exact latestStatus_timesOut heffect.keeps hstatus
    exact (honoured_of_idle_iff (keeps_withTimeouts ctx.now) hlatest hhonoured).symm

/-- A new run starts with the jobs that wait for nothing. -/
theorem RunStart.honoured {c : Catalog} {v : RunView} (h : RunStart c v) : HonouredView c v := by
  intro himplicit
  have hempty : ∀ k, latestStatus [] k = none := fun k ↦ latestStatus_eq_none.mpr (by simp)
  constructor
  · intro job hjob _ hwaits
    rw [latestStatus_eq_none]
    intro e he hid
    obtain ⟨job', hready, hrow⟩ := exists_of_forall₂_right h.rows he
    obtain ⟨k, hk⟩ := List.exists_mem_of_ne_nil _ hwaits
    have hsucceeded := ((mem_readyJobs_iff himplicit).mp hready).2.2 k
    rw [← hrow.jobId, hid, hempty k] at hsucceeded
    cases hsucceeded hk
  · intro job hjob _ hended hnone
    -- nothing has ended yet, so the job waits for nothing
    have hpredecessors : c.predecessors v.run.pipelineId job.id = [] := by
      refine List.eq_nil_iff_forall_not_mem.mpr fun k hk ↦ ?_
      obtain ⟨s, hs, hfinal⟩ := hended k hk
      obtain ⟨e, he, rfl⟩ := Option.map_eq_some_iff.mp hs
      obtain ⟨job', -, hrow⟩ := exists_of_forall₂_right h.rows (Latest.of_latest he).1
      have hactive := hrow.isActive
      rw [JobExecutionStatus.not_active_of_final hfinal] at hactive
      cases hactive
    have hready : job ∈ c.readyJobs v.run.pipelineId [] := by
      rw [mem_readyJobs_iff himplicit, hpredecessors]
      exact ⟨hjob, hempty job.id, fun k hk ↦ absurd hk List.not_mem_nil⟩
    obtain ⟨e, he, hrow⟩ := exists_of_forall₂_left h.rows hready
    exact latestStatus_eq_none.mp hnone e he hrow.jobId

/-! ## Histories

The two parts of the condition are put together: the graphs have to carry the conditions of the
jobs, which is a matter of the stored pipelines alone, and the operations have to honour them on
every view that a history reaches. -/

section Histories

variable {c : Catalog} {db db' : Db} {call : Call} {v v' : RunView}

/-- **What a step creates** belongs to a job that had an execution or to one whose predecessors have
all succeeded. -/
theorem RunStep.created_cases (hv : Attempted c v) (himplicit : c.ImplicitOnly v.run.pipelineId)
    (h : RunStep c db call v v') {e : JobExecutionEntity} (he : e ∈ v'.rows) :
    (∃ x ∈ v.rows, x.jobId = e.jobId) ∨
      Succeeded (latestStatus v'.rows) (c.predecessors v.run.pipelineId e.jobId) ∧
        ∀ x ∈ v.rows, x.id ≠ e.id := by
  have hold : ∀ {u : JobExecutionEntity → JobExecutionEntity} {fresh : List JobExecutionEntity}
      {sent : List UUID}, ViewEffect v v' u fresh sent →
      (∀ f ∈ fresh, ∃ x ∈ v.rows, x.jobId = f.jobId) → ∃ x ∈ v.rows, x.jobId = e.jobId := by
    intro u fresh sent heffect hfresh
    rcases heffect.mem.mp he with ⟨x, hx, rfl⟩ | he
    · exact ⟨x, hx, (heffect.keeps.jobId x).symm⟩
    · exact hfresh e he
  cases h with
  | idle _ heffect _ _ => exact Or.inl (hold heffect (by simp))
  | move _ _ _ _ _ _ heffect _ _ => exact Or.inl (hold heffect (by simp))
  | finish _ _ _ _ _ _ heffect _ hcreated _ =>
    rcases heffect.mem.mp he with ⟨x, hx, rfl⟩ | he
    · exact Or.inl ⟨x, hx, (heffect.keeps.jobId x).symm⟩
    · refine Or.inr ⟨fun k hk ↦ ?_, fun x hx ↦ heffect.fresh_ids x hx e he⟩
      obtain ⟨edge, hedge, rfl⟩ := List.mem_map.mp hk
      obtain ⟨s, hs, -, hsuccess⟩ :=
        edgeSatisfied_iff.mp (edgeSatisfied_of_created hv heffect hcreated he hedge)
      rw [Catalog.condition_of_implicitOnly himplicit hedge] at hsuccess
      rw [hs, of_decide_eq_true hsuccess]
  | cancelRun heffect _ _ => exact Or.inl (hold heffect (by simp))
  | cancelExecution _ _ heffect _ _ => exact Or.inl (hold heffect (by simp))
  | retryRun _ heffect _ hretried _ =>
    refine Or.inl (hold heffect fun f hf ↦ ?_)
    obtain ⟨x, hx, hretries⟩ := exists_of_forall₂_right hretried hf
    exact ⟨x, mem_of_mem_retryPicks hx, (jobId_of_retries hretries).symm⟩
  | retryExecution hx _ hjobId _ heffect _ hretried _ =>
    refine Or.inl (hold heffect fun f hf ↦ ?_)
    rw [List.mem_singleton.mp hf, hretried.jobId, hjobId]
    exact ⟨_, hx, rfl⟩
  | approve _ _ _ _ _ heffect _ _ => exact Or.inl (hold heffect (by simp))
  | reject _ _ _ _ _ _ heffect _ _ => exact Or.inl (hold heffect (by simp))
  | checkTimeouts heffect _ _ => exact Or.inl (hold heffect (by simp))

/-- No job that is meant for failures and waits for others has run. -/
def NoneOnFailure (c : Catalog) (v : RunView) : Prop :=
  c.ImplicitOnly v.run.pipelineId → ∀ job ∈ c.jobsOf v.run.pipelineId,
    job.condition = .onFailure → c.predecessors v.run.pipelineId job.id ≠ [] →
      latestStatus v.rows job.id = none

theorem honouredView_iff : HonouredView c v ↔ NoneOnFailure c v ∧ StartsAlways c v := by
  have hrow : ∀ k, latestStatus v.rows k ≠ none ↔ ∃ e ∈ v.rows, e.jobId = k := by
    intro k
    rw [Ne, latestStatus_eq_none]
    push Not
    rfl
  constructor
  · intro h
    exact ⟨fun himplicit ↦ (h himplicit).onFailure, fun himplicit job hjob hcondition hended ↦
      (hrow job.id).mp ((h himplicit).always job hjob hcondition hended)⟩
  · rintro ⟨hfailure, halways⟩ himplicit
    exact ⟨hfailure himplicit, fun job hjob hcondition hended ↦
      (hrow job.id).mpr (halways himplicit job hjob hcondition hended)⟩

theorem startsOnFailure_of_none (h : EveryView (NoneOnFailure c) db') :
    StartsOnFailure c db db' := by
  intro r v' hv' himplicit e he _ job hjob hid hcondition
  by_contra hbroken
  have hwaits : c.predecessors v'.run.pipelineId job.id ≠ [] := by
    intro hnil
    rw [hnil] at hbroken
    exact hbroken fun k hk ↦ absurd hk List.not_mem_nil
  exact latestStatus_eq_none.mp (h r v' hv' himplicit job hjob hcondition hwaits) e he hid.symm

/-- **One operation** starts such a job only after its predecessors have succeeded. -/
theorem none_of_startsOnFailure (hdb : Reachable c db) (h : step c call db = .ok db')
    (hnone : EveryView (NoneOnFailure c) db) (hstarts : StartsOnFailure c db db') :
    EveryView (NoneOnFailure c) db' := by
  have href := step_refines hdb.sound h
  intro r v' hv' himplicit job hjob hcondition hwaits
  rcases hold : db.view r with _ | v
  · exact ((href.new r v' hold hv').1.honoured himplicit).onFailure job hjob hcondition hwaits
  obtain ⟨v'', hv'', hstep⟩ := href.old r v hold
  obtain rfl := Option.some.inj (hv''.symm.trans hv')
  have hpipeline := hstep.run_pipeline.2
  have hbefore : latestStatus v.rows job.id = none := by
    rw [hpipeline] at himplicit hjob hwaits
    exact hnone r v hold himplicit job hjob hcondition hwaits
  rw [latestStatus_eq_none] at hbefore ⊢
  intro e he hid
  rcases hstep.created_cases (attempted_view hdb r v hold) (hpipeline ▸ himplicit) he with
    ⟨x, hx, hxid⟩ | ⟨hsucceeded, hnew⟩
  · exact hbefore x hx (hxid.trans hid)
  · rw [(Db.view_eq_some hold).2.1] at hnew
    have hbroken := hstarts r v'' hv' himplicit e he hnew job hjob hid.symm hcondition
    obtain ⟨k, hk⟩ := List.exists_mem_of_ne_nil _ hwaits
    rw [← hpipeline, hid] at hsucceeded
    rcases hbroken k hk with hfailed | htimeout
    · rw [hsucceeded k hk] at hfailed
      cases hfailed
    · rw [hsucceeded k hk] at htimeout
      cases htimeout

/-- Over a whole history both readings of `on_failure` agree. -/
theorem startsOnFailure_throughout_iff {calls : List Call} :
    (∀ past call, past ++ [call] <+: calls →
      StartsOnFailure c (history c past) (history c (past ++ [call]))) ↔
      ∀ past, past <+: calls → EveryView (NoneOnFailure c) (history c past) := by
  constructor
  · intro hstarts past
    induction past using List.reverseRecOn with
    | nil => exact fun _ ↦ everyView_empty _
    | append_singleton past call ih =>
      intro hpast
      have hbefore := ih ((List.prefix_append past [call]).trans hpast)
      have hafter := hstarts past call hpast
      have hnext : history c (past ++ [call]) = apply (step c) (history c past) call := by
        rw [history, replay_concat]
      rw [hnext] at hafter ⊢
      rcases apply_cases (step c) (history c past) call with ⟨db', hok, heq⟩ | heq
      · rw [heq] at hafter ⊢
        exact none_of_startsOnFailure ⟨past, rfl⟩ hok hbefore hafter
      · rw [heq]
        exact hbefore
  · intro hnone past call hpast
    exact startsOnFailure_of_none (hnone (past ++ [call]) hpast)

end Histories

/-- **Conditions of jobs.** The builder carries the conditions of a pipeline without explicit
dependencies exactly when all jobs that wait for others have the default one. The conditions are
honoured throughout a history exactly when its operations give no occasion to tell. -/
theorem conditions_honoured_iff (c : Catalog) :
    (∀ pipelineId, c.ImplicitOnly pipelineId → (c.CarriesConditions pipelineId ↔
      ∀ job ∈ c.jobsOf pipelineId, c.predecessors pipelineId job.id ≠ [] →
        job.condition = .onSuccess)) ∧
    ∀ calls, ((∀ past call, past ++ [call] <+: calls →
        StartsOnFailure c (history c past) (history c (past ++ [call]))) ∧
      ∀ past, past <+: calls → EveryView (StartsAlways c) (history c past)) ↔
      Along (step c) (Permitted c (HonoursConditions c)) Db.empty calls := by
  refine ⟨fun pipelineId himplicit ↦ Catalog.carriesConditions_iff himplicit, fun calls ↦ ?_⟩
  rw [startsOnFailure_throughout_iff, ← view_always_iff (J := Attempted c)
    (P := HonouredView c) (fun _ hdb ↦ attempted_view hdb) (fun _ hv ↦ hv.honoured)
    (fun _ _ _ _ hv hP h ↦ h.honoured_iff hv hP) calls]
  constructor
  · rintro ⟨hfailure, halways⟩ past hpast r v hv
    exact honouredView_iff.mpr ⟨hfailure past hpast r v hv, halways past hpast r v hv⟩
  · intro h
    exact ⟨fun past hpast r v hv ↦ (honouredView_iff.mp (h past hpast r v hv)).1,
      fun past hpast r v hv ↦ (honouredView_iff.mp (h past hpast r v hv)).2⟩

/-! ## Two stages

The second stage has a job that is meant for failures and one that is meant to run always. -/

namespace Small

/-- A job, and in the next stage one that is to report failures and one that is to clean up. -/
def notifying : Catalog where
  pipelines := [⟨0, true⟩]
  stages := [⟨1, 0, 0, .parallel⟩, ⟨5, 0, 1, .parallel⟩]
  jobs := [job 2 0, { job 3 0 with stageId := 5, condition := .onFailure },
    { job 4 1 with stageId := 5, condition := .always }]
  dependencies := []
  templates := []
  environments := []
  jobTopics := [("build", "jobs.build")]
  cancelTopic := "jobs.cancel"
  jobs_keyed := by decide
  stages_keyed := by decide
  maxAttempts_pos := by decide

end Small

/-- The pipeline has no explicit dependencies, so the equivalence applies to it. -/
theorem carriesConditions_notifying_iff :
    Small.notifying.CarriesConditions 0 ↔ ∀ job ∈ Small.notifying.jobsOf 0,
      Small.notifying.predecessors 0 job.id ≠ [] → job.condition = .onSuccess :=
  (conditions_honoured_iff Small.notifying).1 0 (by decide +kernel)

/-- The first job runs. -/
def firstRuns : List Call :=
  [Small.call (.createRun 0 none), Small.deliver (Small.message 10 2 .running)]

/-- The report of failures starts after a success, and nothing cleans up after a failure. -/
theorem conditions_not_honoured :
    ¬ StartsOnFailure Small.notifying (history Small.notifying firstRuns)
        (history Small.notifying (firstRuns ++ [Small.deliver (Small.message 11 2 .success)])) ∧
      ¬ EveryView (StartsAlways Small.notifying)
        (history Small.notifying (firstRuns ++ [Small.deliver (Small.message 11 2 .failed)])) := by
  constructor
  · intro h
    have hbad : ∃ v' ∈ (history Small.notifying (firstRuns ++
          [Small.deliver (Small.message 11 2 .success)])).view 0,
        Small.notifying.ImplicitOnly v'.run.pipelineId ∧ ∃ e ∈ v'.rows,
          (∀ x ∈ (history Small.notifying firstRuns).findByPipelineRunId 0, x.id ≠ e.id) ∧
          ∃ job ∈ Small.notifying.jobsOf v'.run.pipelineId, job.id = e.jobId ∧
            job.condition = .onFailure ∧
            ∃ k ∈ Small.notifying.predecessors v'.run.pipelineId job.id,
              latestStatus v'.rows k = some .success := by
      decide +kernel
    obtain ⟨v', hv', himplicit, e, he, hnew, job, hjob, hid, hcondition, k, hk, hsuccess⟩ := hbad
    have hbroken := h 0 v' hv' himplicit e he hnew job hjob hid hcondition k hk
    rw [hsuccess] at hbroken
    revert hbroken
    decide
  · intro h
    have hbad : ∃ v ∈ (history Small.notifying (firstRuns ++
          [Small.deliver (Small.message 11 2 .failed)])).view 0,
        Small.notifying.ImplicitOnly v.run.pipelineId ∧
          ∃ job ∈ Small.notifying.jobsOf v.run.pipelineId, job.condition = .always ∧
            (∀ k ∈ Small.notifying.predecessors v.run.pipelineId job.id,
              latestStatus v.rows k = some .failed) ∧ ∀ e ∈ v.rows, e.jobId ≠ job.id := by
      decide +kernel
    obtain ⟨v, hv, himplicit, job, hjob, hcondition, hfailed, hnone⟩ := hbad
    obtain ⟨e, he, hid⟩ := h 0 v hv himplicit job hjob hcondition
      fun k hk ↦ ⟨.failed, hfailed k hk, rfl⟩
    exact hnone e he hid

end FuzzingCiCd.Master
