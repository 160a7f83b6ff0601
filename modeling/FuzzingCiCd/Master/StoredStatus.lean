import FuzzingCiCd.Master.Completion
import FuzzingCiCd.Master.Exclusivity

/-!
# The stored status

The master stores the status of a run and recomputes it only when an execution ends or is rejected.
The other operations either write a status by a rule of their own or change executions and leave
the stored status as it is. `Reduced` says that the stored status is the reduction of the
executions, `KeepsReduced` when an operation keeps it so, and `reduced_throughout_iff` that these
conditions are exact over whole histories.

## The operations

What an operation does to the reduction is said once for each kind of step: an execution that
changes (`reduceRunStatus_setsStatus_iff`), the watchdog (`reduceRunStatus_timeouts_iff`), an event
that ends an execution (`finish_reduced_iff`), a run that is canceled (`cancelRun_reduced_iff`) and
the retries (`retried_reduced_iff`). A run starts reduced exactly when its first jobs all need an
approval, or none of them does.
-/

namespace FuzzingCiCd.Master

open Transition PipelineRunService PipelineStateReducer

/-! ## Reductions

The reduction depends on the executions through the greatest severity alone. Where one execution
changes, it stays if the severity does, or if another execution is as severe before and after;
where the watchdog ends some, it stays if one at work is left. -/

theorem reduce_eq_canceling_iff {l : List JobExecutionStatus} :
    reduce l = .canceling ↔ .canceling ∈ l := by
  by_cases hempty : l = []
  · rw [hempty]
    exact iff_of_false (by decide) List.not_mem_nil
  have hcanceling : PipelineRunStatus.canceling = statusOfSeverity 5 := rfl
  rw [reduce_eq hempty, hcanceling, statusOfSeverity_inj (worst_le l) le_rfl]
  constructor
  · intro h
    obtain ⟨s, hs, heq⟩ := exists_severity_eq_worst hempty
    rw [h] at heq
    have hs' : s = .canceling := by
      revert heq
      cases s <;> decide
    exact hs' ▸ hs
  · intro h
    exact le_antisymm (worst_le l) (severity_le_worst h)

/-- With an execution at work and none being canceled, a run is running. -/
theorem reduce_eq_running {l : List JobExecutionStatus} {s : JobExecutionStatus} (hs : s ∈ l)
    (hseverity : severity s = 4) (hcanceling : .canceling ∉ l) : reduce l = .running := by
  have hempty : l ≠ [] := List.ne_nil_of_mem hs
  have hworst : worst l = 4 := by
    refine le_antisymm (worst_le_iff.mpr fun t ht ↦ ?_) (hseverity ▸ severity_le_worst hs)
    have hne : t ≠ .canceling := fun h ↦ hcanceling (h ▸ ht)
    revert hne
    cases t <;> decide
  rw [reduce_eq hempty, hworst]
  rfl

section Change

variable {rows : List JobExecutionEntity} {u : JobExecutionEntity → JobExecutionEntity}

theorem reduceRunStatus_map_iff (hrows : rows ≠ []) :
    reduceRunStatus (rows.map u) = reduceRunStatus rows ↔
      worst ((rows.map u).map JobExecutionEntity.status) =
        worst (rows.map JobExecutionEntity.status) :=
  reduce_eq_reduce_iff (by simpa using hrows) (by simpa using hrows)

theorem worst_rows_le_iff {rows : List JobExecutionEntity} {n : ℕ} :
    worst (rows.map JobExecutionEntity.status) ≤ n ↔ ∀ e ∈ rows, severity e.status ≤ n := by
  rw [worst_le_iff, List.forall_mem_map]

theorem severity_le_worst_rows {rows : List JobExecutionEntity} {e : JobExecutionEntity}
    (he : e ∈ rows) : severity e.status ≤ worst (rows.map JobExecutionEntity.status) :=
  severity_le_worst (List.mem_map_of_mem he)

theorem exists_worst_row {rows : List JobExecutionEntity} (hrows : rows ≠ []) :
    ∃ e ∈ rows, severity e.status = worst (rows.map JobExecutionEntity.status) := by
  obtain ⟨s, hs, heq⟩ := exists_severity_eq_worst
    (l := rows.map JobExecutionEntity.status) (by simpa using hrows)
  obtain ⟨e, he, rfl⟩ := List.mem_map.mp hs
  exact ⟨e, he, heq⟩

/-- **One execution changes.** The reduction stays when the severity does, or when another
execution is at least as severe before and after. -/
theorem reduceRunStatus_setsStatus_iff {x : JobExecutionEntity} (hx : x ∈ rows)
    {t : JobExecutionStatus} (hkeyed : Table.Keyed JobExecutionEntity.id rows)
    (hstatus : SetsStatus rows u x.id t) :
    reduceRunStatus (rows.map u) = reduceRunStatus rows ↔ severity t = severity x.status ∨
      ∃ e ∈ rows, e.id ≠ x.id ∧ severity t ≤ severity e.status ∧
        severity x.status ≤ severity e.status := by
  have hrows : rows ≠ [] := List.ne_nil_of_mem hx
  have hx' : (u x).status = t := by rw [hstatus x hx, if_pos rfl]
  have hother : ∀ e ∈ rows, e.id ≠ x.id → (u e).status = e.status :=
    fun e he hne ↦ by rw [hstatus e he, if_neg hne]
  have hmem : ∀ e ∈ rows, severity (u e).status ≤
      worst ((rows.map u).map JobExecutionEntity.status) :=
    fun e he ↦ severity_le_worst_rows (List.mem_map_of_mem he)
  rw [reduceRunStatus_map_iff hrows]
  constructor
  · intro heq
    by_contra hnot
    rw [not_or] at hnot
    obtain ⟨hne, hnone⟩ := hnot
    -- the more severe of the two makes the maximum on its side, and some other row must match it
    rcases Nat.lt_or_gt_of_ne hne with hlt | hgt
    · have hrows' : rows.map u ≠ [] := by simpa using hrows
      obtain ⟨e', he', hworst⟩ := exists_worst_row hrows'
      obtain ⟨e, he, rfl⟩ := List.mem_map.mp he'
      have hle := severity_le_worst_rows hx
      have hid : e.id ≠ x.id := by
        intro hid
        rw [hkeyed.eq he hx hid, hx'] at hworst
        omega
      rw [hother e he hid] at hworst
      exact hnone ⟨e, he, hid, by omega, by omega⟩
    · obtain ⟨e, he, hworst⟩ := exists_worst_row hrows
      have hle := hmem x hx
      rw [hx'] at hle
      have hid : e.id ≠ x.id := by
        intro hid
        rw [hkeyed.eq he hx hid] at hworst
        omega
      exact hnone ⟨e, he, hid, by omega, by omega⟩
  · intro h
    refine le_antisymm (worst_rows_le_iff.mpr ?_) (worst_rows_le_iff.mpr fun e he ↦ ?_)
    · intro e' he'
      obtain ⟨e, he, rfl⟩ := List.mem_map.mp he'
      by_cases hid : e.id = x.id
      · rw [hkeyed.eq he hx hid, hx']
        rcases h with heq | ⟨y, hy, -, hty, -⟩
        · exact heq ▸ severity_le_worst_rows hx
        · exact hty.trans (severity_le_worst_rows hy)
      · rw [hother e he hid]
        exact severity_le_worst_rows he
    · by_cases hid : e.id = x.id
      · rw [hkeyed.eq he hx hid]
        rcases h with heq | ⟨y, hy, hyx, -, hxy⟩
        · rw [← heq, ← hx']
          exact hmem x hx
        · exact hxy.trans (hother y hy hyx ▸ hmem y hy)
      · exact hother e he hid ▸ hmem e he

end Change

/-- The watchdog leaves the reduction alone unless it ends the last execution at work. -/
theorem reduceRunStatus_timeouts_iff {rows : List JobExecutionEntity}
    {u : JobExecutionEntity → JobExecutionEntity} {now : Instant}
    (hstatus : ∀ e ∈ rows, (u e).status =
      if e.status = .running ∧ TimeoutWatchdog.isExpired now e = true then .timeout
      else e.status) (hrows : rows ≠ []) :
    reduceRunStatus (rows.map u) = reduceRunStatus rows ↔
      ((∃ e ∈ rows, e.status = .running ∧ TimeoutWatchdog.isExpired now e = true) →
        ∃ e ∈ rows, 4 ≤ severity e.status ∧
          ¬ (e.status = .running ∧ TimeoutWatchdog.isExpired now e = true)) := by
  have hstay : ∀ e ∈ rows, ¬ (e.status = .running ∧ TimeoutWatchdog.isExpired now e = true) →
      (u e).status = e.status := fun e he hnot ↦ by rw [hstatus e he, if_neg hnot]
  have hmem : ∀ e ∈ rows, severity (u e).status ≤
      worst ((rows.map u).map JobExecutionEntity.status) :=
    fun e he ↦ severity_le_worst_rows (List.mem_map_of_mem he)
  rw [reduceRunStatus_map_iff hrows]
  constructor
  · rintro heq ⟨x, hx, hrunning, -⟩
    have hrows' : rows.map u ≠ [] := by simpa using hrows
    obtain ⟨e', he', hworst⟩ := exists_worst_row hrows'
    obtain ⟨e, he, rfl⟩ := List.mem_map.mp he'
    have hfour : 4 ≤ severity (u e).status := by
      have hle := severity_le_worst_rows hx
      rw [hrunning] at hle
      rw [hworst, heq]
      exact hle
    have hnot : ¬ (e.status = .running ∧ TimeoutWatchdog.isExpired now e = true) := by
      intro hexpired
      rw [hstatus e he, if_pos hexpired] at hfour
      exact absurd hfour (by decide)
    rw [hstay e he hnot] at hfour
    exact ⟨e, he, hfour, hnot⟩
  · intro h
    refine le_antisymm (worst_rows_le_iff.mpr ?_) (worst_rows_le_iff.mpr fun e he ↦ ?_)
    · intro e' he'
      obtain ⟨e, he, rfl⟩ := List.mem_map.mp he'
      by_cases hexpired : e.status = .running ∧ TimeoutWatchdog.isExpired now e = true
      · have hdrop : severity (u e).status ≤ severity e.status := by
          rw [hstatus e he, if_pos hexpired, hexpired.1]
          decide
        exact hdrop.trans (severity_le_worst_rows he)
      · rw [hstay e he hexpired]
        exact severity_le_worst_rows he
    · by_cases hexpired : e.status = .running ∧ TimeoutWatchdog.isExpired now e = true
      · obtain ⟨y, hy, hfour, hnot⟩ := h ⟨e, he, hexpired⟩
        rw [hexpired.1]
        exact hfour.trans (hstay y hy hnot ▸ hmem y hy)
      · exact hstay e he hexpired ▸ hmem e he

/-! ## The invariant

An operation leaves the row of a run alone, reopens it, marks it canceling or recomputes its
status, and for each of the four a lemma says when the result is reduced. What is left for each
operation is what it does to the executions: which severities it changes and whether one of them
is being canceled. The conditions of the operations are put together in `KeepsReduced`. -/

/-- The stored status of a run with executions is their reduction, and the run has an end exactly
when it is final. -/
def Reduced (v : RunView) : Prop :=
  v.rows ≠ [] → v.run.status = reduceRunStatus v.rows ∧
    (v.run.finishedAt ≠ none ↔ v.run.status.isFinalStatus = true)

/-- The jobs that a run of the pipeline starts with all need an approval, or none of them does. -/
def StartsEvenly (c : Catalog) (pipelineId : UUID) : Prop :=
  (∀ job ∈ c.readyJobs pipelineId [], initialStatus c job = .waitingApproval) ∨
    ∀ job ∈ c.readyJobs pipelineId [], initialStatus c job = .queued

/-- The job can be retried without another approval. -/
def NeedsNoApproval (c : Catalog) (jobId : UUID) : Prop :=
  ∀ job ∈ c.jobs, job.id = jobId → initialStatus c job = .queued

/-- The condition on an operation.

* An event that does not end an execution keeps its severity, or another execution is at least as
  severe before and after. An event that repeats the end of an execution in a run that has ended
  makes no job ready.
* A canceled run has an active execution, and a single execution is canceled only in a run that has
  a canceling one.
* Retries and approvals happen in runs without a canceling execution, and what is retried needs no
  approval.
* The watchdog does not end the last execution at work. -/
def KeepsReduced (c : Catalog) (db : Db) (v : RunView) (call : Call) : Prop :=
  match call.operation with
  | .executorEvent delivery message =>
    Consumes db delivery message → ∀ x ∈ v.rows, message.jobExecutionId = some x.id →
      ∀ t, ExecutorEventService.mapStatus message.status = some t →
        canTransition x.status t = true →
          if t.isFinalStatus = true then
            (∀ e ∈ v.rows, e.status.isFinalStatus = true) →
              c.readyJobs v.run.pipelineId v.rows = []
          else severity t = severity x.status ∨
            ∃ e ∈ v.rows, e.id ≠ x.id ∧ severity t ≤ severity e.status ∧
              severity x.status ≤ severity e.status
  | .cancelRun runId =>
    runId = v.run.id → v.rows ≠ [] → ∃ e ∈ v.rows, e.status.isActive = true
  | .cancelExecution executionId =>
    ∀ x ∈ v.rows, x.id = executionId → x.status.isFinalStatus = false →
      ∃ e ∈ v.rows, e.status = .canceling
  | .retryRun runId => runId = v.run.id → ∀ x ∈ retryPicks c v.rows,
    NeedsNoApproval c x.jobId ∧ ∀ e ∈ v.rows, e.status ≠ .canceling
  | .retryExecution executionId => ∀ x ∈ v.rows, x.id = executionId →
    NeedsNoApproval c x.jobId ∧ ∀ e ∈ v.rows, e.status ≠ .canceling
  | .approve approvalId =>
    ∀ a ∈ v.approvals, a.id = approvalId → ∀ x ∈ v.rows, x.id = a.jobExecutionId →
      x.status = .waitingApproval → ∀ e ∈ v.rows, e.status ≠ .canceling
  | .checkTimeouts =>
    (∃ e ∈ v.rows, e.status = .running ∧
      TimeoutWatchdog.isExpired call.context.now e = true) →
      ∃ e ∈ v.rows, 4 ≤ severity e.status ∧
        ¬ (e.status = .running ∧ TimeoutWatchdog.isExpired call.context.now e = true)
  | _ => True

section Steps

variable {c : Catalog} {v v' : RunView} {u : JobExecutionEntity → JobExecutionEntity}
  {fresh : List JobExecutionEntity} {sent : List UUID}

/-- A run whose row is left alone stays reduced exactly when the reduction stays. -/
theorem reduced_same_iff (hP : Reduced v) (h : ViewEffect v v' u [] sent) (hrun : v'.run = v.run) :
    Reduced v' ↔ (v.rows ≠ [] → reduceRunStatus (v.rows.map u) = reduceRunStatus v.rows) := by
  have hrows : v'.rows = v.rows.map u := by rw [h.rows, List.append_nil]
  have hne : v'.rows ≠ [] ↔ v.rows ≠ [] := by rw [hrows, ne_eq, List.map_eq_nil_iff]
  rw [Reduced, hne, hrun, hrows]
  refine forall_congr' fun hsome ↦ ?_
  obtain ⟨hstatus, hfinished⟩ := hP hsome
  rw [and_iff_left hfinished, hstatus]
  exact eq_comm

/-- The status of a reduced run is final exactly when its executions are. -/
theorem Reduced.finished_iff (hP : Reduced v) (hsome : v.rows ≠ []) :
    v.run.finishedAt ≠ none ↔ ∀ e ∈ v.rows, e.status.isFinalStatus = true := by
  obtain ⟨hstatus, hfinished⟩ := hP hsome
  rw [hfinished, hstatus, reduceRunStatus, isFinalStatus_reduce, List.forall_mem_map]
  exact and_iff_right (by simpa using hsome)

/-- A recomputed run is reduced unless an end that it had is left over. -/
theorem reduced_recomputed_iff {now : Instant} (hrun : v'.run = recomputed now v.run v'.rows)
    (hsome : v'.rows ≠ []) : Reduced v' ↔
      (v.run.finishedAt ≠ none → ∀ e ∈ v'.rows, e.status.isFinalStatus = true) := by
  have hfinal : (reduceRunStatus v'.rows).isFinalStatus = true ↔
      ∀ e ∈ v'.rows, e.status.isFinalStatus = true := by
    rw [reduceRunStatus, isFinalStatus_reduce, List.forall_mem_map]
    exact and_iff_right (by simpa using hsome)
  have hstatus : (recomputed now v.run v'.rows).status = reduceRunStatus v'.rows := rfl
  rw [Reduced, imp_iff_right hsome, hrun, hstatus, eq_self_iff_true, true_and, hfinal, recomputed]
  dsimp only
  by_cases h : (reduceRunStatus v'.rows).isFinalStatus = true
  · rw [if_pos h, iff_true_intro (hfinal.mp h)]
    simp
  · rw [if_neg h]
    exact ⟨Iff.mp, fun himp ↦ ⟨himp, fun hall ↦ absurd (hfinal.mpr hall) h⟩⟩

/-- A reopened run with an execution at work is reduced exactly when it is running and none of its
executions is being canceled. -/
theorem reduced_reopened_iff {run : PipelineRunEntity} {status : PipelineRunStatus}
    (hrun : v'.run = reopened run status) (hstatus : status ≠ .canceling)
    {y : JobExecutionEntity} (hy : y ∈ v'.rows) (hwork : severity y.status = 4) :
    Reduced v' ↔ status = .running ∧ ∀ e ∈ v'.rows, e.status ≠ .canceling := by
  have hmem : y.status ∈ v'.rows.map JobExecutionEntity.status := List.mem_map_of_mem hy
  rw [Reduced, imp_iff_right (List.ne_nil_of_mem hy), hrun, reopened, reduceRunStatus]
  dsimp only
  by_cases hcanceling : .canceling ∈ v'.rows.map JobExecutionEntity.status
  · rw [reduce_eq_canceling_iff.mpr hcanceling]
    obtain ⟨e, he, heq⟩ := List.mem_map.mp hcanceling
    exact iff_of_false (fun h ↦ hstatus h.1) fun h ↦ h.2 e he heq
  · rw [reduce_eq_running hmem hwork hcanceling]
    have hnone : ∀ e ∈ v'.rows, e.status ≠ .canceling :=
      fun e he heq ↦ hcanceling (heq ▸ List.mem_map_of_mem he)
    rw [and_iff_left hnone]
    refine ⟨And.left, fun h ↦ ⟨h, ?_⟩⟩
    rw [h]
    decide

theorem no_canceling_iff (h : ViewEffect v v' u fresh sent)
    (hu : ∀ e ∈ v.rows, (u e).status = .canceling ↔ e.status = .canceling)
    (hfresh : ∀ f ∈ fresh, f.status ≠ .canceling) :
    (∀ e ∈ v'.rows, e.status ≠ .canceling) ↔ ∀ e ∈ v.rows, e.status ≠ .canceling := by
  constructor
  · intro hall e he hcanceling
    exact hall (u e) (h.mem.mpr (Or.inl ⟨e, he, rfl⟩)) ((hu e he).mpr hcanceling)
  · intro hall e he hcanceling
    rcases h.mem.mp he with ⟨x, hx, rfl⟩ | hnew
    · exact hall x hx ((hu x hx).mp hcanceling)
    · exact hfresh e hnew hcanceling

theorem PipelineRunService.FreshRow.not_canceling {r : UUID} {job : JobEntity} {n : ℕ}
    {e : JobExecutionEntity}
    (h : FreshRow c r job n e) : e.status ≠ .canceling := by
  rw [h.status, initialStatus]
  split <;> decide

theorem PipelineRunService.FreshRow.queued_iff {r : UUID} {job : JobEntity} {n : ℕ}
    {e : JobExecutionEntity}
    (h : FreshRow c r job n e) : initialStatus c job = .queued ↔ e.status ≠ .waitingApproval := by
  rw [h.status, initialStatus]
  split <;> decide

theorem statusOfCreated_eq_running {created : List JobExecutionEntity} :
    statusOfCreated created = .running ↔ ∀ e ∈ created, e.status ≠ .waitingApproval := by
  rw [statusOfCreated]
  by_cases h : (created.any fun execution ↦ execution.status = .waitingApproval) = true
  · rw [if_pos h]
    refine iff_of_false (by decide) fun hall ↦ ?_
    obtain ⟨e, he, hwaiting⟩ := List.any_eq_true.mp h
    exact hall e he (of_decide_eq_true hwaiting)
  · rw [if_neg h]
    refine iff_of_true rfl fun e he hwaiting ↦ h ?_
    exact List.any_eq_true.mpr ⟨e, he, decide_eq_true hwaiting⟩

theorem statusOfCreated_ne_canceling (created : List JobExecutionEntity) :
    statusOfCreated created ≠ .canceling := by
  rw [statusOfCreated]
  split <;> decide

theorem needsNoApproval_iff {job : JobEntity} (hjob : job ∈ c.jobs) :
    NeedsNoApproval c job.id ↔ initialStatus c job = .queued := by
  constructor
  · exact fun h ↦ h job hjob rfl
  · intro h other hother hid
    rw [c.jobs_keyed.eq hother hjob hid]
    exact h

/-- Nothing is picked for a retry that is still being canceled. -/
theorem not_canceling_of_candidate {e : JobExecutionEntity} {job : JobEntity}
    (h : isRetryCandidate e job = true) : e.status ≠ .canceling := by
  intro hcanceling
  rw [isRetryCandidate, hcanceling] at h
  exact absurd h (by simp)

/-- An event that ends an execution. -/
theorem finish_reduced_iff (hv : Attempted c v) (hP : Reduced v) {now : Instant}
    {created : List JobExecutionEntity} {x : JobExecutionEntity} (hx : x ∈ v.rows)
    {t : JobExecutionStatus} (hcan : canTransition x.status t = true)
    (h : ViewEffect v v' u created sent)
    (hstatus : SetsStatus v.rows u x.id t)
    (hcreated : List.Forall₂ (fun job e ↦ FreshRow c v.run.id job 1 e)
      (c.readyJobs v.run.pipelineId (v.rows.map u)) created)
    (hrun : v'.run = recomputed now v.run v'.rows) :
    ((∀ e ∈ v.rows, e.status.isFinalStatus = true) → c.readyJobs v.run.pipelineId v.rows = []) ↔
      Reduced v' := by
  have hsome : v.rows ≠ [] := List.ne_nil_of_mem hx
  have hsome' : v'.rows ≠ [] := List.ne_nil_of_mem (h.mem.mpr (Or.inl ⟨x, hx, rfl⟩))
  rw [reduced_recomputed_iff hrun hsome', hP.finished_iff hsome]
  refine forall_congr' fun hall ↦ ?_
  -- all executions are final, so the event changes no status
  have hsame : ∀ e ∈ v.rows, (u e).status = e.status := by
    intro e he
    rw [hstatus e he]
    split
    · rename_i hid
      rw [hv.keyed.eq he hx hid]
      exact JobExecutionStatus.eq_of_canTransition_of_final (hall x hx) hcan
    · rfl
  have hready : c.readyJobs v.run.pipelineId (v.rows.map u) = [] ↔
      c.readyJobs v.run.pipelineId v.rows = [] :=
    readyJobs_eq_nil_congr (latestStatus_map_of_eq h.keeps fun e he _ ↦ hsame e he)
  rw [← hready]
  constructor
  · intro hnil e he
    rw [hnil] at hcreated
    obtain rfl := List.forall₂_nil_left_iff.mp hcreated
    rcases h.mem.mp he with ⟨y, hy, rfl⟩ | hnew
    · rw [hsame y hy]
      exact hall y hy
    · exact absurd hnew List.not_mem_nil
  · intro hfinal
    by_contra hne
    obtain ⟨job, hjob⟩ := List.exists_mem_of_ne_nil _ hne
    obtain ⟨e, he, hrow⟩ := exists_of_forall₂_left hcreated hjob
    have hactive := hrow.isActive
    rw [JobExecutionStatus.not_active_of_final (hfinal e (h.mem.mpr (Or.inr he)))] at hactive
    exact absurd hactive (by decide)

/-- A run that is canceled. -/
theorem cancelRun_reduced_iff (hP : Reduced v) (h : ViewEffect v v' u [] [])
    (hstatus : ∀ e ∈ v.rows, (u e).status = if e.status.isActive then .canceling else e.status)
    (hrun : v'.run = canceling v.run) :
    (v.rows ≠ [] → ∃ e ∈ v.rows, e.status.isActive = true) ↔ Reduced v' := by
  have hrows : v'.rows = v.rows.map u := by rw [h.rows, List.append_nil]
  have hne : v'.rows ≠ [] ↔ v.rows ≠ [] := by rw [hrows, ne_eq, List.map_eq_nil_iff]
  rw [Reduced, hne, hrun]
  refine forall_congr' fun hsome ↦ ?_
  rw [canceling, eq_comm, reduceRunStatus, reduce_eq_canceling_iff, List.mem_map]
  constructor
  · rintro ⟨e, he, hactive⟩
    have hcanceling : (u e).status = .canceling := by rw [hstatus e he, if_pos hactive]
    refine ⟨⟨u e, h.mem.mpr (Or.inl ⟨e, he, rfl⟩), hcanceling⟩, ?_⟩
    refine iff_of_false (fun hfinished ↦ ?_) Bool.false_ne_true
    have hfinal := (hP.finished_iff hsome).mp hfinished e he
    rw [JobExecutionStatus.not_active_of_final hfinal] at hactive
    exact absurd hactive (by decide)
  · rintro ⟨⟨e', he', hcanceling⟩, -⟩
    rw [hrows] at he'
    obtain ⟨e, he, rfl⟩ := List.mem_map.mp he'
    refine ⟨e, he, ?_⟩
    by_contra hactive
    rw [hstatus e he, if_neg hactive] at hcanceling
    exact hactive (by rw [hcanceling]; rfl)

/-- Rows of executions that are retried: one is superseded and one is new. -/
theorem retried_reduced_iff (h : ViewEffect v v' u fresh sent) {x : JobExecutionEntity}
    (hx : x ∈ v.rows) (hsuperseded : (u x).status = .retrying)
    (hu : ∀ e ∈ v.rows, (u e).status = .canceling ↔ e.status = .canceling)
    (hfresh : ∀ f ∈ fresh, f.status ≠ .canceling)
    (hrun : v'.run = reopened v.run (statusOfCreated fresh)) :
    Reduced v' ↔ (∀ f ∈ fresh, f.status ≠ .waitingApproval) ∧
      ∀ e ∈ v.rows, e.status ≠ .canceling := by
  have hmem : u x ∈ v'.rows := h.mem.mpr (Or.inl ⟨x, hx, rfl⟩)
  rw [reduced_reopened_iff hrun (statusOfCreated_ne_canceling fresh) hmem
    (by rw [hsuperseded]; rfl),
    statusOfCreated_eq_running, no_canceling_iff h hu hfresh]

/-- What the retried jobs need is what the new rows wait for. -/
theorem retries_queued_iff {rows retried : List JobExecutionEntity} {r : UUID}
    (h : List.Forall₂ (Retries c r) rows retried) :
    (∀ x ∈ rows, NeedsNoApproval c x.jobId) ↔ ∀ f ∈ retried, f.status ≠ .waitingApproval := by
  have hone : ∀ {x f}, Retries c r x f → (NeedsNoApproval c x.jobId ↔
      f.status ≠ .waitingApproval) := by
    rintro x f ⟨job, hjob, hjobId, hrow⟩
    rw [← hjobId, needsNoApproval_iff hjob, hrow.queued_iff]
  constructor
  · intro hall f hf
    obtain ⟨x, hx, hretries⟩ := exists_of_forall₂_right h hf
    exact (hone hretries).mp (hall x hx)
  · intro hall x hx
    obtain ⟨f, hf, hretries⟩ := exists_of_forall₂_left h hx
    exact (hone hretries).mpr (hall f hf)

/-- Setting a status from one to another that is not canceling cancels nothing. -/
private theorem canceling_iff_of_setsStatus {x : JobExecutionEntity} {t : JobExecutionStatus}
    (hkeyed : Table.Keyed JobExecutionEntity.id v.rows) (hx : x ∈ v.rows)
    (hstatus : SetsStatus v.rows u x.id t) (hold : x.status ≠ .canceling) (hnew : t ≠ .canceling) :
    ∀ e ∈ v.rows, (u e).status = .canceling ↔ e.status = .canceling := by
  intro e he
  rw [hstatus e he]
  split
  · rename_i hid
    rw [hkeyed.eq he hx hid]
    exact iff_of_false hnew hold
  · rfl

/-- What finds nothing to do on a run meets the condition. -/
theorem KeepsReduced.of_idles {db : Db} {call : Call} (hidle : Idles c db v call) :
    KeepsReduced c db v call := by
  obtain ⟨ctx, operation⟩ := call
  cases operation with
  | executorEvent delivery message =>
    intro hnew x hx hid t htarget hcan
    have hnot := hidle hnew x hx hid
    rw [htarget, ExecutorEventService.changesStatus_some, hcan] at hnot
    exact absurd hnot (by decide)
  | cancelRun runId => exact fun hself ↦ absurd hself hidle
  | cancelExecution executionId =>
    intro x hx hid hfinal
    rw [hidle x hx hid] at hfinal
    exact absurd hfinal (by decide)
  | retryRun runId =>
    intro hself x hx
    have hnil : retryPicks c v.rows = [] := hidle hself
    rw [hnil] at hx
    exact absurd hx List.not_mem_nil
  | retryExecution executionId => exact fun x hx hid ↦ absurd hid (hidle x hx)
  | approve approvalId =>
    exact fun a ha haid x hx hid hwaiting ↦ absurd hwaiting (hidle a ha haid x hx hid)
  | checkTimeouts => exact hidle.elim
  | _ => trivial

/-- An event that does not end an execution. -/
theorem move_reduced_iff {x : JobExecutionEntity} {t : JobExecutionStatus}
    (hkeyed : Table.Keyed JobExecutionEntity.id v.rows) (hP : Reduced v)
    (h : ViewEffect v v' u [] sent) (hx : x ∈ v.rows) (hstatus : SetsStatus v.rows u x.id t)
    (hrun : v'.run = v.run) :
    (severity t = severity x.status ∨ ∃ e ∈ v.rows, e.id ≠ x.id ∧
      severity t ≤ severity e.status ∧ severity x.status ≤ severity e.status) ↔ Reduced v' := by
  rw [reduced_same_iff hP h hrun, imp_iff_right (List.ne_nil_of_mem hx),
    reduceRunStatus_setsStatus_iff hx hkeyed hstatus]

/-- An execution that is canceled alone: the run must already be canceling. -/
theorem cancelExecution_reduced_iff {x : JobExecutionEntity} (hP : Reduced v)
    (h : ViewEffect v v' u [] sent) (hx : x ∈ v.rows)
    (hstatus : SetsStatus v.rows u x.id .canceling) (hrun : v'.run = v.run) :
    (∃ e ∈ v.rows, e.status = .canceling) ↔ Reduced v' := by
  have hcanceling : (u x).status = .canceling := by rw [hstatus x hx, if_pos rfl]
  have hmem : u x ∈ v.rows.map u := List.mem_map_of_mem hx
  have hreduce : reduceRunStatus (v.rows.map u) = .canceling :=
    reduce_eq_canceling_iff.mpr (hcanceling ▸ List.mem_map_of_mem hmem)
  rw [reduced_same_iff hP h hrun, imp_iff_right (List.ne_nil_of_mem hx), hreduce, eq_comm,
    reduceRunStatus, reduce_eq_canceling_iff, List.mem_map]

/-- The retry of a run. -/
theorem retryRun_reduced_iff {retried : List JobExecutionEntity} (hv : Attempted c v)
    (hpicks : retryPicks c v.rows ≠ []) (h : ViewEffect v v' u retried sent)
    (hstatus : ∀ e ∈ v.rows, (u e).status =
      if e.id ∈ (retryPicks c v.rows).map JobExecutionEntity.id then .retrying else e.status)
    (hretried : List.Forall₂ (Retries c v.run.id) (retryPicks c v.rows) retried)
    (hrun : v'.run = reopened v.run (statusOfCreated retried)) :
    (∀ x ∈ retryPicks c v.rows,
      NeedsNoApproval c x.jobId ∧ ∀ e ∈ v.rows, e.status ≠ .canceling) ↔ Reduced v' := by
  obtain ⟨x, hx⟩ := List.exists_mem_of_ne_nil _ hpicks
  have hrow := mem_of_mem_retryPicks hx
  have hsuperseded : (u x).status = .retrying := by
    rw [hstatus x hrow, if_pos (List.mem_map_of_mem hx)]
  have hu : ∀ e ∈ v.rows, (u e).status = .canceling ↔ e.status = .canceling := by
    intro e he
    rw [hstatus e he]
    split
    · rename_i hid
      obtain ⟨y, hy, hye⟩ := List.mem_map.mp hid
      obtain rfl := hv.keyed.eq (mem_of_mem_retryPicks hy) he hye
      obtain ⟨job, -, -, hcandidate⟩ := of_retryable (mem_retryPicks.mp hy).2
      exact iff_of_false (by decide) (not_canceling_of_candidate hcandidate)
    · rfl
  have hfresh : ∀ f ∈ retried, f.status ≠ .canceling := by
    intro f hf
    obtain ⟨y, -, job, -, -, hfresh⟩ := exists_of_forall₂_right hretried hf
    exact hfresh.not_canceling
  rw [retried_reduced_iff h hrow hsuperseded hu hfresh hrun, ← retries_queued_iff hretried]
  constructor
  · exact fun hok ↦ ⟨fun y hy ↦ (hok y hy).1, (hok x hx).2⟩
  · exact fun hboth y hy ↦ ⟨hboth.1 y hy, hboth.2⟩

/-- The retry of an execution. -/
theorem retryExecution_reduced_iff {x retried : JobExecutionEntity} {job : JobEntity} {n : ℕ}
    (hkeyed : Table.Keyed JobExecutionEntity.id v.rows) (hx : x ∈ v.rows) (hjob : job ∈ c.jobs)
    (hjobId : job.id = x.jobId) (hcandidate : isRetryCandidate x job = true)
    (h : ViewEffect v v' u [retried] sent) (hstatus : SetsStatus v.rows u x.id .retrying)
    (hretried : FreshRow c v.run.id job n retried)
    (hrun : v'.run = reopened v.run (statusOfCreated [retried])) :
    (NeedsNoApproval c x.jobId ∧ ∀ e ∈ v.rows, e.status ≠ .canceling) ↔ Reduced v' := by
  have hsuperseded : (u x).status = .retrying := by rw [hstatus x hx, if_pos rfl]
  have hu := canceling_iff_of_setsStatus hkeyed hx hstatus (not_canceling_of_candidate hcandidate)
    (by decide)
  have hneeds : NeedsNoApproval c x.jobId ↔ retried.status ≠ .waitingApproval := by
    rw [← hjobId, needsNoApproval_iff hjob, hretried.queued_iff]
  rw [retried_reduced_iff h hx hsuperseded hu
    (List.forall_mem_singleton.mpr hretried.not_canceling) hrun, List.forall_mem_singleton,
    ← hneeds]

/-- The approval of an execution. -/
theorem approve_reduced_iff {x : JobExecutionEntity}
    (hkeyed : Table.Keyed JobExecutionEntity.id v.rows) (hx : x ∈ v.rows)
    (hwaiting : x.status = .waitingApproval) (h : ViewEffect v v' u [] sent)
    (hstatus : SetsStatus v.rows u x.id .queued) (hrun : v'.run = reopened v.run .running) :
    (∀ e ∈ v.rows, e.status ≠ .canceling) ↔ Reduced v' := by
  have hmem : u x ∈ v'.rows := h.mem.mpr (Or.inl ⟨x, hx, rfl⟩)
  have hqueued : (u x).status = .queued := by rw [hstatus x hx, if_pos rfl]
  have hu := canceling_iff_of_setsStatus hkeyed hx hstatus (by rw [hwaiting]; decide) (by decide)
  rw [reduced_reopened_iff hrun (by decide) hmem (by rw [hqueued]; rfl),
    no_canceling_iff h hu (by simp), eq_self_iff_true, true_and]

/-- The rejection of an execution: the run has not ended, so its status is computed rightly. -/
theorem reject_reduced {x : JobExecutionEntity} (hP : Reduced v) (hx : x ∈ v.rows)
    (hwaiting : x.status = .waitingApproval) (h : ViewEffect v v' u [] sent) {now : Instant}
    (hrun : v'.run = recomputed now v.run v'.rows) : Reduced v' := by
  have hsome' : v'.rows ≠ [] := List.ne_nil_of_mem (h.mem.mpr (Or.inl ⟨x, hx, rfl⟩))
  refine (reduced_recomputed_iff hrun hsome').mpr fun hfinished ↦ ?_
  have hfinal := (hP.finished_iff (List.ne_nil_of_mem hx)).mp hfinished x hx
  rw [hwaiting] at hfinal
  exact absurd hfinal (by decide)

/-- A tick of the watchdog. -/
theorem checkTimeouts_reduced_iff (hP : Reduced v) {now : Instant} (h : ViewEffect v v' u [] sent)
    (hstatus : ∀ e ∈ v.rows, (u e).status =
      if e.status = .running ∧ TimeoutWatchdog.isExpired now e = true then .timeout
      else e.status) (hrun : v'.run = v.run) :
    ((∃ e ∈ v.rows, e.status = .running ∧ TimeoutWatchdog.isExpired now e = true) →
      ∃ e ∈ v.rows, 4 ≤ severity e.status ∧
        ¬ (e.status = .running ∧ TimeoutWatchdog.isExpired now e = true)) ↔ Reduced v' := by
  rw [reduced_same_iff hP h hrun]
  by_cases hsome : v.rows = []
  · have hnone : ¬ ∃ e ∈ v.rows, e.status = .running ∧
        TimeoutWatchdog.isExpired now e = true := by
      rw [hsome]
      simp
    exact iff_of_true (fun hexpired ↦ absurd hexpired hnone) fun hne ↦ absurd hsome hne
  · rw [imp_iff_right hsome, reduceRunStatus_timeouts_iff hstatus hsome]

end Steps

/-- **One operation.** It keeps a run reduced exactly when it meets the condition there. -/
theorem RunStep.reduced_iff {c : Catalog} {db : Db} {call : Call} {v v' : RunView}
    (hv : Attempted c v) (hP : Reduced v) (h : RunStep c db call v v') :
    KeepsReduced c db v call ↔ Reduced v' := by
  cases h with
  | @idle call _ _ u hidle heffect hstatus hrun =>
    refine iff_of_true (.of_idles hidle) ((reduced_same_iff hP heffect hrun).mpr fun _ ↦ ?_)
    have hsame : (v.rows.map u).map JobExecutionEntity.status =
        v.rows.map JobExecutionEntity.status := by
      rw [List.map_map]
      exact List.map_congr_left hstatus
    rw [reduceRunStatus, hsame, reduceRunStatus]
  | @move ctx delivery message _ _ u x t hnew hx hid htarget hcan hfinal heffect hstatus hrun =>
    rw [← move_reduced_iff hv.keyed hP heffect hx hstatus hrun]
    constructor
    · intro hok
      have hkeep := hok hnew x hx hid t htarget hcan
      rwa [hfinal, if_neg Bool.false_ne_true] at hkeep
    · intro hkeep _ y hy hyid s hs _
      obtain rfl := hv.keyed.eq hy hx (Option.some.inj (hyid.symm.trans hid))
      obtain rfl := Option.some.inj (hs.symm.trans htarget)
      rwa [hfinal, if_neg Bool.false_ne_true]
  | @finish ctx delivery message _ _ u x t created hnew hx hid htarget hcan hfinal heffect hstatus
      hcreated hrun =>
    rw [← finish_reduced_iff hv hP hx hcan heffect hstatus hcreated hrun]
    constructor
    · intro hok
      have hkeep := hok hnew x hx hid t htarget hcan
      rwa [if_pos hfinal] at hkeep
    · intro hkeep _ y hy hyid s hs _
      obtain rfl := Option.some.inj (hs.symm.trans htarget)
      rwa [if_pos hfinal]
  | cancelRun heffect hstatus hrun =>
    rw [← cancelRun_reduced_iff hP heffect hstatus hrun]
    exact imp_iff_right rfl
  | @cancelExecution ctx _ _ u x hx hfinal heffect hstatus hrun =>
    rw [← cancelExecution_reduced_iff hP heffect hx hstatus hrun]
    exact ⟨fun hok ↦ hok x hx rfl hfinal, fun hexists y _ _ _ ↦ hexists⟩
  | retryRun hpicks heffect hstatus hretried hrun =>
    rw [← retryRun_reduced_iff hv hpicks heffect hstatus hretried hrun]
    exact imp_iff_right rfl
  | @retryExecution ctx _ _ u x retried job hx hjob hjobId hcandidate heffect hstatus hretried
      hrun =>
    rw [← retryExecution_reduced_iff hv.keyed hx hjob hjobId hcandidate heffect hstatus hretried
      hrun]
    refine ⟨fun hok ↦ hok x hx rfl, fun hboth y hy hid ↦ ?_⟩
    rwa [hv.keyed.eq hy hx hid]
  | @approve ctx _ _ u x approval hx happroval hfor hpending hwaiting heffect hstatus hrun =>
    rw [← approve_reduced_iff hv.keyed hx hwaiting heffect hstatus hrun]
    constructor
    · exact fun hok ↦ hok approval happroval rfl x hx hfor.symm hwaiting
    · exact fun hnone _ _ _ _ _ _ _ ↦ hnone
  | reject hx happroval hunique hfor hpending hwaiting heffect hstatus hrun =>
    exact iff_of_true trivial (reject_reduced hP hx hwaiting heffect hrun)
  | checkTimeouts heffect hstatus hrun =>
    exact checkTimeouts_reduced_iff hP heffect hstatus hrun

theorem statusOfCreated_eq_waiting {created : List JobExecutionEntity} {e : JobExecutionEntity}
    (he : e ∈ created) (hwaiting : e.status = .waitingApproval) :
    statusOfCreated created = .waitingApproval :=
  if_pos (List.any_eq_true.mpr ⟨e, he, decide_eq_true hwaiting⟩)

/-- A new run is reduced exactly when its jobs start evenly. -/
theorem RunStart.reduced_iff {c : Catalog} {v : RunView} (h : RunStart c v) :
    StartsEvenly c v.run.pipelineId ↔ Reduced v := by
  have heven : ∀ s, (∀ job ∈ c.readyJobs v.run.pipelineId [], initialStatus c job = s) ↔
      ∀ e ∈ v.rows, e.status = s := by
    intro s
    constructor
    · intro hall e he
      obtain ⟨job, hjob, hrow⟩ := exists_of_forall₂_right h.rows he
      rw [hrow.status, hall job hjob]
    · intro hall job hjob
      obtain ⟨e, he, hrow⟩ := exists_of_forall₂_left h.rows hjob
      rw [← hrow.status, hall e he]
  have hinitial : ∀ e ∈ v.rows, e.status = .waitingApproval ∨ e.status = .queued := by
    intro e he
    obtain ⟨job, -, hrow⟩ := exists_of_forall₂_right h.rows he
    rw [hrow.status, initialStatus]
    split
    · exact Or.inl rfl
    · exact Or.inr rfl
  rw [StartsEvenly, heven, heven]
  by_cases hempty : v.rows = []
  · refine iff_of_true (Or.inl fun e he ↦ ?_) fun hsome ↦ absurd hempty hsome
    rw [hempty] at he
    exact absurd he List.not_mem_nil
  have hstatus : v.run.status = statusOfCreated v.rows := by rw [h.status, if_neg hempty]
  have hnotfinal : ¬ (statusOfCreated v.rows).isFinalStatus = true := by
    rw [statusOfCreated]
    split <;> decide
  have hreduced : Reduced v ↔ statusOfCreated v.rows = reduceRunStatus v.rows := by
    rw [Reduced, imp_iff_right hempty, hstatus]
    refine and_iff_left (iff_of_false (fun hfinished ↦ ?_) hnotfinal)
    exact hfinished (h.unfinished hempty)
  obtain ⟨first, hfirst⟩ := List.exists_mem_of_ne_nil _ hempty
  have hqueued : ∀ e ∈ v.rows, e.status = .queued → reduceRunStatus v.rows = .running := by
    intro e he hq
    refine reduce_eq_running (List.mem_map_of_mem he) (by rw [hq]; rfl) fun hcanceling ↦ ?_
    obtain ⟨f, hf, heq⟩ := List.mem_map.mp hcanceling
    rcases hinitial f hf with hw | hq
    · rw [hw] at heq
      cases heq
    · rw [hq] at heq
      cases heq
  rw [hreduced]
  -- all waiting or all queued: the status of the new run is the reduction; with both it is not
  constructor
  · rintro (hwaiting | hall)
    · rw [statusOfCreated_eq_waiting hfirst (hwaiting first hfirst), reduceRunStatus,
        reduce_eq (by simpa using hempty)]
      have hworst : worst (v.rows.map JobExecutionEntity.status) = 3 := by
        refine le_antisymm (worst_rows_le_iff.mpr fun e he ↦ ?_) ?_
        · rw [hwaiting e he]
          decide
        · have hle := severity_le_worst_rows hfirst
          rwa [hwaiting first hfirst] at hle
      rw [hworst]
      rfl
    · rw [hqueued first hfirst (hall first hfirst), statusOfCreated_eq_running]
      intro e he hw
      rw [hall e he] at hw
      cases hw
  · intro heq
    by_contra hmixed
    rw [not_or, not_forall, not_forall] at hmixed
    obtain ⟨⟨e, he⟩, ⟨f, hf⟩⟩ := hmixed
    rw [Classical.not_imp] at he hf
    have he' := (hinitial e he.1).resolve_left he.2
    have hf' := (hinitial f hf.1).resolve_right hf.2
    rw [statusOfCreated_eq_waiting hf.1 hf', hqueued e he.1 he'] at heq
    cases heq

/-- **The stored status.** It is the reduction of the executions throughout a history exactly when
every accepted operation keeps it so and the runs start evenly. -/
theorem reduced_throughout_iff (c : Catalog) (calls : List Call) :
    (∀ past, past <+: calls → EveryView Reduced (history c past)) ↔
      Along (step c) (PermittedFrom c (StartsEvenly c) (KeepsReduced c)) Db.empty calls :=
  view_always_iff_from (StartsEvenly c) (fun _ hdb ↦ attempted_view hdb)
    (fun _ hv ↦ hv.reduced_iff) (fun _ _ _ _ hv hP h ↦ h.reduced_iff hv hP) calls

/-- The only job of a run is canceled by itself: the execution is canceling, the run is running. -/
def canceledAlone : List Call :=
  [Small.call (.createRun 0 none), Small.call (.cancelExecution 2)]

theorem not_reduced_throughout : ¬ ∀ c db, Reachable c db → EveryView Reduced db := by
  intro h
  have hview : ∃ v ∈ (history Small.solo canceledAlone).view 0,
      v.rows ≠ [] ∧ v.run.status = .running ∧ reduceRunStatus v.rows = .canceling := by
    decide +kernel
  obtain ⟨v, hv, hsome, hrunning, hcanceling⟩ := hview
  have hreduced := h Small.solo _ ⟨canceledAlone, rfl⟩ 0 v hv hsome
  rw [hrunning, hcanceling] at hreduced
  exact absurd hreduced.1 (by decide)

end FuzzingCiCd.Master
