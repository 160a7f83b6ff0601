import FuzzingCiCd.Master.Attempts

/-!
# The end of a run

A run should end when, and only when, there is nothing left to do: it is *settled* when the latest
attempts are all final and no job is ready. Two properties compare this with the status of the run:
a settled run has a final status, and a run with a final status is settled.

Both fail, for different reasons. The status is computed from all executions, so a superseded
attempt that is not final keeps a settled run open; cancellation and timeouts do not compute it at
all; and a rejection computes it without dispatching what the rejection made ready. Each property
holds exactly as long as the operations avoid these cases.

## The conditions

`RejectsLast` and `ClosesRun` are the two conditions on an operation. Each of them is shown to be
exact for a single step of a view, one lemma for each kind of step that can violate it, and the
exact rule for views carries it to whole histories.
-/

namespace FuzzingCiCd.Master

open Transition PipelineRunService

/-! ## Settled runs -/

/-- The latest attempts are final and no job is ready. -/
def Settled (c : Catalog) (pipelineId : UUID) (rows : List JobExecutionEntity) : Prop :=
  (∀ e ∈ Latest.latestEntries JobExecutionEntity.jobId JobExecutionEntity.attempt rows,
    e.status.isFinalStatus = true) ∧ c.resolveReadyJobs pipelineId rows = .ok []

/-- The final statuses of a run. -/
def Ended (status : PipelineRunStatus) : Prop :=
  status = .success ∨ status = .failed ∨ status = .canceled

instance (status : PipelineRunStatus) : Decidable (Ended status) :=
  inferInstanceAs (Decidable (status = .success ∨ status = .failed ∨ status = .canceled))

/-- The rows with another status for one of them. -/
def withStatus (rows : List JobExecutionEntity) (x : UUID) (t : JobExecutionStatus) :
    List JobExecutionEntity :=
  rows.map fun e ↦ if e.id = x then { e with status := t } else e

/-- The rows after a tick of the watchdog. -/
def withTimeouts (now : Instant) (rows : List JobExecutionEntity) : List JobExecutionEntity :=
  rows.map fun e ↦ if e.status = .running ∧ TimeoutWatchdog.isExpired now e = true then
    { e with status := .timeout } else e

/-! ## Latest statuses -/

section Latest

variable {c : Catalog} {pipelineId : UUID} {rows rows' : List JobExecutionEntity}

theorem mem_readyJobs_congr (h : latestStatus rows = latestStatus rows') {job : JobEntity} :
    job ∈ c.readyJobs pipelineId rows ↔ job ∈ c.readyJobs pipelineId rows' := by
  have hnone : ∀ rows, (∀ e ∈ rows, e.jobId ≠ job.id) ↔ latestStatus rows job.id = none := by
    intro rows
    rw [latestStatus, Option.map_eq_none_iff, Latest.latest_eq_none]
  rw [Catalog.mem_readyJobs, Catalog.mem_readyJobs, hnone, hnone, h]

theorem readyJobs_eq_nil_congr (h : latestStatus rows = latestStatus rows') :
    c.readyJobs pipelineId rows = [] ↔ c.readyJobs pipelineId rows' = [] := by
  simp only [List.eq_nil_iff_forall_not_mem, mem_readyJobs_congr h]

theorem latest_final_iff : (∀ e ∈ Latest.latestEntries JobExecutionEntity.jobId
      JobExecutionEntity.attempt rows, e.status.isFinalStatus = true) ↔
    ∀ k s, latestStatus rows k = some s → s.isFinalStatus = true := by
  simp only [latestStatus, Option.map_eq_some_iff]
  constructor
  · rintro h k s ⟨e, he, rfl⟩
    obtain ⟨-, rfl, -⟩ := Latest.of_latest he
    exact h e (Latest.mem_latestEntries.mpr he)
  · intro h e he
    exact h e.jobId e.status ⟨e, Latest.mem_latestEntries.mp he, rfl⟩

theorem settled_iff (hvalid : ExecutionGraphValidator.validate (c.graphOf pipelineId) = .ok ()) :
    Settled c pipelineId rows ↔
      (∀ k s, latestStatus rows k = some s → s.isFinalStatus = true) ∧
        c.readyJobs pipelineId rows = [] := by
  rw [Settled, latest_final_iff, Catalog.resolveReadyJobs_eq_ok, eq_comm (a := [])]
  simp [hvalid]

theorem settled_congr (h : latestStatus rows = latestStatus rows') :
    Settled c pipelineId rows ↔ Settled c pipelineId rows' := by
  rw [Settled, Settled, latest_final_iff, latest_final_iff, h, Catalog.resolveReadyJobs_eq_ok,
    Catalog.resolveReadyJobs_eq_ok, eq_comm (a := []), eq_comm (a := []),
    readyJobs_eq_nil_congr h]

theorem latestStatus_map_congr {u w : JobExecutionEntity → JobExecutionEntity} (hu : Keeps u)
    (hw : Keeps w) (h : ∀ e ∈ rows, Latest.latest JobExecutionEntity.jobId
      JobExecutionEntity.attempt e.jobId rows = some e → (u e).status = (w e).status) :
    latestStatus (rows.map u) = latestStatus (rows.map w) := by
  funext k
  rw [latestStatus, latestStatus, Latest.latest_map hu.jobId hu.attempt,
    Latest.latest_map hw.jobId hw.attempt, Option.map_map, Option.map_map]
  refine Option.map_congr fun e he ↦ ?_
  obtain ⟨hmem, rfl, -⟩ := Latest.of_latest he
  exact h e hmem he

theorem keeps_withStatus (x : UUID) (t : JobExecutionStatus) :
    Keeps fun e ↦ if e.id = x then { e with status := t } else e :=
  Keeps.ite (u := fun e ↦ { e with status := t })
    ⟨fun _ ↦ rfl, fun _ ↦ rfl, fun _ ↦ rfl, fun _ ↦ rfl⟩ _

theorem latestStatus_setsStatus {u : JobExecutionEntity → JobExecutionEntity} (hu : Keeps u)
    {x : UUID} {t : JobExecutionStatus} (h : SetsStatus rows u x t) :
    latestStatus (rows.map u) = latestStatus (withStatus rows x t) := by
  refine latestStatus_map_congr hu (keeps_withStatus x t) fun e he _ ↦ ?_
  rw [h e he, apply_ite JobExecutionEntity.status]

theorem keeps_withTimeouts (now : Instant) :
    Keeps fun e ↦ if e.status = .running ∧ TimeoutWatchdog.isExpired now e = true then
      { e with status := .timeout } else e :=
  Keeps.ite (u := fun e ↦ { e with status := .timeout })
    ⟨fun _ ↦ rfl, fun _ ↦ rfl, fun _ ↦ rfl, fun _ ↦ rfl⟩ _

theorem latestStatus_timesOut {u : JobExecutionEntity → JobExecutionEntity} (hu : Keeps u)
    {now : Instant} (h : ∀ e ∈ rows, (u e).status =
      if e.status = .running ∧ TimeoutWatchdog.isExpired now e = true then .timeout
      else e.status) : latestStatus (rows.map u) = latestStatus (withTimeouts now rows) := by
  refine latestStatus_map_congr hu (keeps_withTimeouts now) fun e he _ ↦ ?_
  rw [h e he, apply_ite JobExecutionEntity.status]

theorem latestStatus_map_of_eq {u : JobExecutionEntity → JobExecutionEntity} (hu : Keeps u)
    (h : ∀ e ∈ rows, Latest.latest JobExecutionEntity.jobId JobExecutionEntity.attempt e.jobId
      rows = some e → (u e).status = e.status) : latestStatus (rows.map u) = latestStatus rows := by
  have := latestStatus_map_congr hu keeps_id h
  rwa [List.map_id'] at this

end Latest

/-! ## Runs with a final status -/

theorem ended_reduce_iff {l : List JobExecutionStatus} : Ended (PipelineStateReducer.reduce l) ↔
    l ≠ [] ∧ ∀ s ∈ l, s.isFinalStatus = true := by
  rw [← PipelineStateReducer.isFinalStatus_reduce]
  by_cases h : l = []
  · subst h
    decide
  have hall : ∀ n ≤ 5, (Ended (PipelineStateReducer.statusOfSeverity n) ↔
      (PipelineStateReducer.statusOfSeverity n).isFinalStatus = true) := by decide
  rw [PipelineStateReducer.reduce_eq h]
  exact hall _ (PipelineStateReducer.worst_le l)

theorem ended_recomputed_iff {now : Instant} {run : PipelineRunEntity}
    {rows : List JobExecutionEntity} : Ended (recomputed now run rows).status ↔
      rows ≠ [] ∧ ∀ e ∈ rows, e.status.isFinalStatus = true := by
  have hstatus : (recomputed now run rows).status =
      PipelineStateReducer.reduce (rows.map JobExecutionEntity.status) := rfl
  rw [hstatus, ended_reduce_iff, List.forall_mem_map]
  simp

theorem recomputed_finishedAt {now : Instant} {run : PipelineRunEntity}
    {rows : List JobExecutionEntity} (h : Ended (recomputed now run rows).status) :
    (recomputed now run rows).finishedAt ≠ none := by
  have hfinal : (reduceRunStatus rows).isFinalStatus = true :=
    PipelineStateReducer.isFinalStatus_reduce.mpr (ended_reduce_iff.mp h)
  rw [recomputed, if_pos hfinal]
  exact Option.some_ne_none now

theorem not_ended_statusOfCreated (created : List JobExecutionEntity) :
    ¬ Ended (statusOfCreated created) := by
  rw [statusOfCreated]
  split <;> decide

/-- What a final status of a run says. -/
structure Concluded (v : RunView) : Prop where
  rows : Ended v.run.status → ∀ e ∈ v.rows, e.status.isFinalStatus = true
  finishedAt : Ended v.run.status → v.run.finishedAt ≠ none

/-- The status of the run stays, and so do final statuses. -/
private theorem Concluded.keep {v v' : RunView} {u : JobExecutionEntity → JobExecutionEntity}
    {sent : List UUID} (hv : Concluded v) (h : ViewEffect v v' u [] sent) (hrun : v'.run = v.run)
    (hstatus : (∀ e ∈ v.rows, e.status.isFinalStatus = true) →
      ∀ e ∈ v.rows, (u e).status.isFinalStatus = true) : Concluded v' := by
  constructor
  · intro hended e he
    rw [hrun] at hended
    obtain ⟨x, hx, rfl⟩ := (h.mem.mp he).resolve_right List.not_mem_nil
    exact hstatus (hv.rows hended) x hx
  · rw [hrun]
    exact hv.finishedAt

private theorem concluded_of_not_ended {v : RunView} (h : ¬ Ended v.run.status) : Concluded v :=
  ⟨fun hended ↦ absurd hended h, fun hended ↦ absurd hended h⟩

private theorem concluded_of_recomputed {v : RunView} {now : Instant} {run : PipelineRunEntity}
    (h : v.run = recomputed now run v.rows) : Concluded v := by
  constructor
  · intro hended
    rw [h] at hended
    exact (ended_recomputed_iff.mp hended).2
  · intro hended
    rw [h] at hended ⊢
    exact recomputed_finishedAt hended

theorem RunStep.concluded {c : Catalog} {db : Db} {call : Call} {v v' : RunView}
    (hv : Concluded v) (h : RunStep c db call v v') : Concluded v' := by
  cases h with
  | idle hidle heffect hstatus hrun =>
    refine hv.keep heffect hrun fun hfinal e he ↦ ?_
    rw [hstatus e he]
    exact hfinal e he
  | move hnew hx hid htarget hcan hfinal heffect hstatus hrun =>
    refine hv.keep heffect hrun fun hall ↦ ?_
    have hsame := JobExecutionStatus.eq_of_canTransition_of_final (hall _ hx) hcan
    rw [hsame, hall _ hx] at hfinal
    exact absurd hfinal (by decide)
  | finish hnew hx hid htarget hcan hfinal heffect hstatus hcreated hrun =>
    exact concluded_of_recomputed hrun
  | cancelRun heffect hstatus hrun =>
    exact concluded_of_not_ended (by rw [hrun]; simp [Ended, canceling])
  | cancelExecution hx hfinal heffect hstatus hrun =>
    refine hv.keep heffect hrun fun hall ↦ ?_
    rw [hall _ hx] at hfinal
    exact absurd hfinal (by decide)
  | retryRun hpicks heffect hstatus hretried hrun =>
    exact concluded_of_not_ended (by rw [hrun]; exact not_ended_statusOfCreated _)
  | retryExecution hx hjob hjobId hcandidate heffect hstatus hretried hrun =>
    exact concluded_of_not_ended (by rw [hrun]; exact not_ended_statusOfCreated _)
  | approve hx happroval hfor hpending hwaiting heffect hstatus hrun =>
    exact concluded_of_not_ended (by rw [hrun]; simp [Ended, reopened])
  | reject hx happroval hunique hfor hpending hwaiting heffect hstatus hrun =>
    exact concluded_of_recomputed hrun
  | checkTimeouts heffect hstatus hrun =>
    refine hv.keep heffect hrun fun hall e he ↦ ?_
    rw [hstatus e he]
    split
    · rfl
    · exact hall e he

theorem RunStart.concluded {c : Catalog} {v : RunView} (h : RunStart c v) : Concluded v := by
  by_cases hempty : v.rows = []
  · refine ⟨fun _ e he ↦ ?_, fun _ ↦ h.finishedAt hempty⟩
    rw [hempty] at he
    exact absurd he List.not_mem_nil
  · refine concluded_of_not_ended ?_
    rw [h.status, if_neg hempty]
    exact not_ended_statusOfCreated _

/-- A run with a final status has only final executions and an end. -/
theorem concluded_view {c : Catalog} {db : Db} (hdb : Reachable c db) :
    EveryView Concluded db :=
  view_invariant (fun _ hv ↦ hv.concluded) (fun _ _ _ _ hv h ↦ h.concluded hv) hdb

/-! ## Not too early

A run gets a final status only where its status is recomputed: after an event that ends an
execution and after a rejection. The event has dispatched what was ready first, and what it
dispatched keeps the run open. The rejection dispatches nothing, and it is the only operation
with a condition. -/

/-- A run with a final status has no active execution and no ready job. -/
def DoneWhenEnded (c : Catalog) (v : RunView) : Prop :=
  Ended v.run.status → (∀ e ∈ v.rows, e.status.isActive = false) ∧
    c.resolveReadyJobs v.run.pipelineId v.rows = .ok []

/-- The condition on an operation: a rejection that leaves only final executions makes no job
ready. -/
def RejectsLast (c : Catalog) (v : RunView) (call : Call) : Prop :=
  match call.operation with
  | .reject approvalId =>
    ∀ a ∈ v.approvals, a.id = approvalId → ∀ x ∈ v.rows, x.id = a.jobExecutionId →
      x.status = .waitingApproval → (∀ e ∈ v.rows, e.id ≠ x.id → e.status.isFinalStatus = true) →
        c.resolveReadyJobs v.run.pipelineId (withStatus v.rows x.id .skipped) = .ok []
  | _ => True

section Early

variable {c : Catalog} {v v' : RunView} {u : JobExecutionEntity → JobExecutionEntity}
  {sent : List UUID}

theorem resolveReadyJobs_eq_nil (hv : Attempted c v) {rows : List JobExecutionEntity} :
    c.resolveReadyJobs v.run.pipelineId rows = .ok [] ↔ c.readyJobs v.run.pipelineId rows = [] := by
  rw [Catalog.resolveReadyJobs_eq_ok, eq_comm (a := [])]
  simp [hv.valid]

private theorem doneWhenEnded_of_not_ended (h : ¬ Ended v.run.status) : DoneWhenEnded c v :=
  fun hended ↦ absurd hended h

/-- The status of the run stays, and so do those of the executions if it is final. -/
private theorem DoneWhenEnded.keep (hv : Attempted c v) (hP : DoneWhenEnded c v)
    (h : ViewEffect v v' u [] sent) (hrun : v'.run = v.run)
    (hstatus : Ended v.run.status → ∀ e ∈ v.rows, (u e).status = e.status) :
    DoneWhenEnded c v' := by
  intro hended
  rw [hrun] at hended ⊢
  obtain ⟨hrows, hready⟩ := hP hended
  refine ⟨fun e he ↦ ?_, ?_⟩
  · obtain ⟨x, hx, rfl⟩ := (h.mem.mp he).resolve_right List.not_mem_nil
    rw [hstatus hended x hx]
    exact hrows x hx
  · rw [resolveReadyJobs_eq_nil hv] at hready ⊢
    rw [h.rows, List.append_nil, readyJobs_eq_nil_congr
      (latestStatus_map_of_eq h.keeps fun e he _ ↦ hstatus hended e he)]
    exact hready

/-- A status computed after nothing was created is final when all executions are. -/
private theorem all_final_iff {x : JobExecutionEntity} {t : JobExecutionStatus}
    (h : ViewEffect v v' u [] sent) (hstatus : SetsStatus v.rows u x.id t)
    (ht : t.isFinalStatus = true) : (∀ e ∈ v'.rows, e.status.isFinalStatus = true) ↔
      ∀ e ∈ v.rows, e.id ≠ x.id → e.status.isFinalStatus = true := by
  rw [h.rows, List.append_nil, List.forall_mem_map]
  refine forall₂_congr fun e he ↦ ?_
  rw [hstatus e he]
  by_cases hid : e.id = x.id
  · simp [hid, ht]
  · simp [hid]

/-- An event that ends an execution: what it dispatches would keep the run from ending. -/
theorem finish_doneWhenEnded (hv : Attempted c v) {now : Instant}
    {created : List JobExecutionEntity} (h : ViewEffect v v' u created sent)
    (hcreated : List.Forall₂ (fun job e ↦ FreshRow c v.run.id job 1 e)
      (c.readyJobs v.run.pipelineId (v.rows.map u)) created)
    (hrun : v'.run = recomputed now v.run v'.rows) : DoneWhenEnded c v' := by
  intro hended
  have hpipeline : v'.run.pipelineId = v.run.pipelineId := by
    rw [hrun]
    rfl
  rw [hrun] at hended
  have hall := (ended_recomputed_iff.mp hended).2
  refine ⟨fun e he ↦ JobExecutionStatus.not_active_of_final (hall e he), ?_⟩
  have hnothing : created = [] := by
    rw [List.eq_nil_iff_forall_not_mem]
    intro f hf
    have hactive := (addsAttempts_ready h.keeps hcreated).active f hf
    rw [JobExecutionStatus.not_active_of_final (hall f (h.mem.mpr (Or.inr hf)))] at hactive
    exact absurd hactive (by decide)
  subst hnothing
  rw [hpipeline, resolveReadyJobs_eq_nil hv, h.rows, List.append_nil]
  exact List.forall₂_nil_right_iff.mp hcreated

/-- A rejection ends the run exactly when the other executions have ended. -/
theorem reject_doneWhenEnded_iff (hv : Attempted c v) {now : Instant}
    (h : ViewEffect v v' u [] sent) {x : JobExecutionEntity} (hx : x ∈ v.rows)
    (hstatus : SetsStatus v.rows u x.id .skipped)
    (hrun : v'.run = recomputed now v.run v'.rows) :
    ((∀ e ∈ v.rows, e.id ≠ x.id → e.status.isFinalStatus = true) →
      c.resolveReadyJobs v.run.pipelineId (withStatus v.rows x.id .skipped) = .ok []) ↔
      DoneWhenEnded c v' := by
  have hpipeline : v'.run.pipelineId = v.run.pipelineId := by
    rw [hrun]
    rfl
  have hended : Ended v'.run.status ↔ ∀ e ∈ v.rows, e.id ≠ x.id →
      e.status.isFinalStatus = true := by
    rw [hrun, ended_recomputed_iff, all_final_iff h hstatus (by decide)]
    refine and_iff_right (List.ne_nil_of_mem (a := u x) ?_)
    exact h.mem.mpr (Or.inl ⟨x, hx, rfl⟩)
  have hready : c.resolveReadyJobs v'.run.pipelineId v'.rows = .ok [] ↔
      c.resolveReadyJobs v.run.pipelineId (withStatus v.rows x.id .skipped) = .ok [] := by
    rw [hpipeline, resolveReadyJobs_eq_nil hv, resolveReadyJobs_eq_nil hv, h.rows,
      List.append_nil, readyJobs_eq_nil_congr (latestStatus_setsStatus h.keeps hstatus)]
  constructor
  · intro hok hend
    refine ⟨fun e he ↦ ?_, hready.mpr (hok (hended.mp hend))⟩
    rw [hrun] at hend
    exact JobExecutionStatus.not_active_of_final ((ended_recomputed_iff.mp hend).2 e he)
  · intro hP' hall
    exact hready.mp (hP' (hended.mpr hall)).2

end Early

/-- **One operation.** It ends a run early exactly when it fails the condition. -/
theorem RunStep.doneWhenEnded_iff {c : Catalog} {db : Db} {call : Call} {v v' : RunView}
    (hv : Attempted c v) (hdone : Concluded v) (hP : DoneWhenEnded c v)
    (h : RunStep c db call v v') : RejectsLast c v call ↔ DoneWhenEnded c v' := by
  cases h with
  | @idle call _ _ _ hidle heffect hstatus hrun =>
    refine iff_of_true ?_ (hP.keep hv heffect hrun fun _ ↦ hstatus)
    obtain ⟨ctx, operation⟩ := call
    cases operation with
    | reject approvalId =>
      intro a ha hid x hx hfor hwaiting
      exact absurd hwaiting (hidle a ha hid x hx hfor)
    | _ => trivial
  | @move _ _ _ _ _ _ x t hnew hx hid htarget hcan hfinal heffect hstatus hrun =>
    refine iff_of_true trivial (hP.keep hv heffect hrun fun hended ↦ ?_)
    have hxfinal := hdone.rows hended x hx
    rw [JobExecutionStatus.eq_of_canTransition_of_final hxfinal hcan, hxfinal] at hfinal
    exact absurd hfinal (by decide)
  | finish hnew hx hid htarget hcan hfinal heffect hstatus hcreated hrun =>
    exact iff_of_true trivial (finish_doneWhenEnded hv heffect hcreated hrun)
  | cancelRun heffect hstatus hrun =>
    exact iff_of_true trivial (doneWhenEnded_of_not_ended (by rw [hrun]; simp [Ended, canceling]))
  | cancelExecution hx hfinal heffect hstatus hrun =>
    refine iff_of_true trivial (hP.keep hv heffect hrun fun hended ↦ ?_)
    rw [hdone.rows hended _ hx] at hfinal
    exact absurd hfinal (by decide)
  | retryRun hpicks heffect hstatus hretried hrun =>
    exact iff_of_true trivial
      (doneWhenEnded_of_not_ended (by rw [hrun]; exact not_ended_statusOfCreated _))
  | retryExecution hx hjob hjobId hcandidate heffect hstatus hretried hrun =>
    exact iff_of_true trivial
      (doneWhenEnded_of_not_ended (by rw [hrun]; exact not_ended_statusOfCreated _))
  | approve hx happroval hfor hpending hwaiting heffect hstatus hrun =>
    exact iff_of_true trivial (doneWhenEnded_of_not_ended (by rw [hrun]; simp [Ended, reopened]))
  | @reject _ _ _ u x approval hx happroval hunique hfor hpending hwaiting heffect hstatus hrun =>
    rw [← reject_doneWhenEnded_iff hv heffect hx hstatus hrun]
    constructor
    · exact fun hok ↦ hok approval happroval rfl x hx hfor.symm hwaiting
    · intro hok a ha haid y hy hyfor _
      obtain rfl := hunique a ha haid
      obtain rfl := hv.keyed.eq hx hy (hfor.symm.trans hyfor.symm)
      exact hok
  | checkTimeouts heffect hstatus hrun =>
    refine iff_of_true trivial (hP.keep hv heffect hrun fun hended e he ↦ ?_)
    rw [hstatus e he, if_neg]
    rintro ⟨hrunning, -⟩
    have := hdone.rows hended e he
    rw [hrunning] at this
    exact absurd this (by decide)

theorem RunStart.doneWhenEnded {c : Catalog} {v : RunView} (h : RunStart c v) :
    DoneWhenEnded c v := by
  intro hended
  by_cases hempty : v.rows = []
  · rw [resolveReadyJobs_eq_nil h.attempted, hempty]
    have hrows := h.rows
    rw [hempty, List.forall₂_nil_right_iff] at hrows
    exact ⟨by simp, hrows⟩
  · rw [h.status, if_neg hempty] at hended
    exact absurd hended (not_ended_statusOfCreated _)

/-- **No run is declared finished early**, as long as rejections meet the condition, and no
longer. -/
theorem doneWhenEnded_throughout_iff (c : Catalog) (calls : List Call) :
    (∀ past, past <+: calls → EveryView (DoneWhenEnded c) (history c past)) ↔
      Along (step c) (Permitted c fun _ v call ↦ RejectsLast c v call) Db.empty calls :=
  view_always_iff (J := fun v ↦ Attempted c v ∧ Concluded v)
    (fun _ hdb r v hv ↦ ⟨attempted_view hdb r v hv, concluded_view hdb r v hv⟩)
    (fun _ hv ↦ hv.doneWhenEnded)
    (fun _ _ _ _ hv hP h ↦ h.doneWhenEnded_iff hv.1 hv.2 hP) calls

/-- The deployment of a pipeline is rejected; the job that always follows it is never dispatched. -/
def rejectedDeployment : List Call :=
  [Small.call (.createRun 0 none), Small.call (.reject 3)]

theorem not_doneWhenEnded_throughout :
    ¬ ∀ c db, Reachable c db → EveryView (DoneWhenEnded c) db := by
  intro h
  let db := history Small.guarded rejectedDeployment
  have hbad : ∃ v ∈ db.view 0, Ended v.run.status ∧
      Small.guarded.readyJobs v.run.pipelineId v.rows ≠ [] := by decide +kernel
  obtain ⟨v, hv, hended, hready⟩ := hbad
  have hnone := (h Small.guarded db ⟨_, rfl⟩ 0 v hv hended).2
  exact hready (Catalog.resolveReadyJobs_eq_ok.mp hnone).2.symm

/-! ## Not too late

The same recomputation is the only way to an end. A run that is settled by anything else, as by a
tick of the watchdog, stays without one, and so does a run with a superseded attempt, which
counts for the reduction as one at work. The condition of an operation says that neither happens. -/

/-- A settled run has a final status and an end. -/
def EndedWhenDone (c : Catalog) (v : RunView) : Prop :=
  Settled c v.run.pipelineId v.rows → Ended v.run.status ∧ v.run.finishedAt ≠ none

/-- The condition on an operation: an event or a rejection that settles the run finds no other
execution that is not final, a settled run is not canceled, and no tick of the watchdog settles a
run. -/
def ClosesRun (c : Catalog) (db : Db) (v : RunView) (call : Call) : Prop :=
  match call.operation with
  | .executorEvent delivery message =>
    Consumes db delivery message → ∀ x ∈ v.rows, message.jobExecutionId = some x.id →
      ∀ t, ExecutorEventService.mapStatus message.status = some t →
        canTransition x.status t = true → t.isFinalStatus = true →
          Settled c v.run.pipelineId (withStatus v.rows x.id t) →
            ∀ e ∈ v.rows, e.id ≠ x.id → e.status.isFinalStatus = true
  | .cancelRun runId => runId = v.run.id → ¬ Settled c v.run.pipelineId v.rows
  | .reject approvalId =>
    ∀ a ∈ v.approvals, a.id = approvalId → ∀ x ∈ v.rows, x.id = a.jobExecutionId →
      x.status = .waitingApproval →
        Settled c v.run.pipelineId (withStatus v.rows x.id .skipped) →
          ∀ e ∈ v.rows, e.id ≠ x.id → e.status.isFinalStatus = true
  | .checkTimeouts =>
    (∃ e ∈ v.rows, e.status = .running ∧
      TimeoutWatchdog.isExpired call.context.now e = true) →
      ¬ Settled c v.run.pipelineId (withTimeouts call.context.now v.rows)
  | _ => True

section Late

variable {c : Catalog} {v v' : RunView} {u : JobExecutionEntity → JobExecutionEntity}
  {fresh : List JobExecutionEntity} {sent : List UUID}

/-- A run whose latest attempt of some job is not final is not settled. -/
theorem not_settled {pipelineId : UUID} {rows : List JobExecutionEntity} {k : UUID}
    {s : JobExecutionStatus} (h : latestStatus rows k = some s) (hs : s.isFinalStatus = false) :
    ¬ Settled c pipelineId rows := by
  intro hsettled
  have := latest_final_iff.mp hsettled.1 k s h
  rw [hs] at this
  exact absurd this (by decide)

theorem not_settled_of_fresh (hv : Attempted c v) (h : ViewEffect v v' u fresh sent)
    (hadds : AddsAttempts c v fresh) {f : JobExecutionEntity} (hf : f ∈ fresh) {pipelineId : UUID} :
    ¬ Settled c pipelineId v'.rows := by
  refine not_settled (latestStatus_of_mem hv h hadds hf) ?_
  have hactive := hadds.active f hf
  revert hactive
  cases f.status <;> decide

private theorem EndedWhenDone.keep (hP : EndedWhenDone c v) (hrun : v'.run = v.run)
    (hlatest : latestStatus v'.rows = latestStatus v.rows) : EndedWhenDone c v' := by
  intro hsettled
  rw [hrun, settled_congr hlatest] at hsettled
  rw [hrun]
  exact hP hsettled

/-- Setting a status that is not final either hits the latest attempt of a job, and then the run is
not settled, or changes no latest status. -/
private theorem set_nonfinal_cases (h : ViewEffect v v' u [] sent) {x : JobExecutionEntity}
    (hx : x ∈ v.rows) {t : JobExecutionStatus} (hkeyed : Table.Keyed JobExecutionEntity.id v.rows)
    (hstatus : SetsStatus v.rows u x.id t) (ht : t.isFinalStatus = false) :
    (∀ pipelineId, ¬ Settled c pipelineId v'.rows) ∨
      latestStatus v'.rows = latestStatus v.rows := by
  rw [h.rows, List.append_nil]
  by_cases hlatest : Latest.latest JobExecutionEntity.jobId JobExecutionEntity.attempt x.jobId
      v.rows = some x
  · refine Or.inl fun pipelineId ↦ not_settled (k := x.jobId) (s := t) ?_ ht
    rw [latestStatus, Latest.latest_map h.keeps.jobId h.keeps.attempt, hlatest, Option.map_some,
      Option.map_some, hstatus x hx, if_pos rfl]
  · refine Or.inr (latestStatus_map_of_eq h.keeps fun e he hlate ↦ ?_)
    rw [hstatus e he, if_neg]
    intro hid
    obtain rfl := hkeyed.eq he hx hid
    exact hlatest hlate

private theorem endedWhenDone_recomputed_iff (h : ViewEffect v v' u [] sent)
    {x : JobExecutionEntity} (hx : x ∈ v.rows) {t : JobExecutionStatus}
    (hstatus : SetsStatus v.rows u x.id t) (ht : t.isFinalStatus = true) {now : Instant}
    (hrun : v'.run = recomputed now v.run v'.rows) : EndedWhenDone c v' ↔
      (Settled c v.run.pipelineId (withStatus v.rows x.id t) →
        ∀ e ∈ v.rows, e.id ≠ x.id → e.status.isFinalStatus = true) := by
  have hpipeline : v'.run.pipelineId = v.run.pipelineId := by
    rw [hrun]
    rfl
  have hended : Ended v'.run.status ↔ ∀ e ∈ v.rows, e.id ≠ x.id →
      e.status.isFinalStatus = true := by
    rw [hrun, ended_recomputed_iff, all_final_iff h hstatus ht]
    refine and_iff_right (List.ne_nil_of_mem (a := u x) ?_)
    exact h.mem.mpr (Or.inl ⟨x, hx, rfl⟩)
  have hfinished : Ended v'.run.status → v'.run.finishedAt ≠ none := by
    rw [hrun]
    exact recomputed_finishedAt
  have hlatest : latestStatus v'.rows = latestStatus (withStatus v.rows x.id t) := by
    rw [h.rows, List.append_nil]
    exact latestStatus_setsStatus h.keeps hstatus
  rw [EndedWhenDone, hpipeline, settled_congr hlatest, and_iff_left_of_imp hfinished, hended]

/-- What finds nothing to do on a run meets the condition. -/
theorem ClosesRun.of_idles {db : Db} {call : Call} (hidle : Idles c db v call) :
    ClosesRun c db v call := by
  obtain ⟨ctx, operation⟩ := call
  cases operation with
  | executorEvent delivery message =>
    intro hnew x hx hid t htarget hcan
    have hno := hidle hnew x hx hid
    rw [htarget, ExecutorEventService.changesStatus, hcan] at hno
    exact absurd hno (by decide)
  | cancelRun runId => exact fun hid ↦ absurd hid hidle
  | reject approvalId =>
    intro a ha hid x hx hfor hwaiting
    exact absurd hwaiting (hidle a ha hid x hx hfor)
  | checkTimeouts => exact absurd hidle id
  | _ => trivial

private theorem EndedWhenDone.set_nonfinal (hP : EndedWhenDone c v)
    (h : ViewEffect v v' u [] sent) {x : JobExecutionEntity} (hx : x ∈ v.rows)
    {t : JobExecutionStatus} (hkeyed : Table.Keyed JobExecutionEntity.id v.rows)
    (hstatus : SetsStatus v.rows u x.id t) (ht : t.isFinalStatus = false)
    (hrun : v'.run = v.run) : EndedWhenDone c v' := by
  rcases set_nonfinal_cases (c := c) h hx hkeyed hstatus ht with hnot | hlatest
  · exact fun hsettled ↦ absurd hsettled (hnot _)
  · exact hP.keep hrun hlatest

/-- An event that ends an execution: either nothing becomes ready and the status is computed, or
the run is not settled. -/
theorem finish_endedWhenDone_iff (hv : Attempted c v) {now : Instant}
    {created : List JobExecutionEntity} {x : JobExecutionEntity} (hx : x ∈ v.rows)
    {t : JobExecutionStatus} (hfinal : t.isFinalStatus = true)
    (h : ViewEffect v v' u created sent) (hstatus : SetsStatus v.rows u x.id t)
    (hcreated : List.Forall₂ (fun job e ↦ FreshRow c v.run.id job 1 e)
      (c.readyJobs v.run.pipelineId (v.rows.map u)) created)
    (hrun : v'.run = recomputed now v.run v'.rows) :
    (Settled c v.run.pipelineId (withStatus v.rows x.id t) →
      ∀ e ∈ v.rows, e.id ≠ x.id → e.status.isFinalStatus = true) ↔ EndedWhenDone c v' := by
  by_cases hempty : created = []
  · subst hempty
    exact (endedWhenDone_recomputed_iff h hx hstatus hfinal hrun).symm
  · obtain ⟨f, hf⟩ := List.exists_mem_of_ne_nil created hempty
    have hadds := addsAttempts_ready h.keeps hcreated
    refine iff_of_true (fun hsettled ↦ absurd ?_ hempty) fun hsettled ↦
      absurd hsettled (not_settled_of_fresh hv h hadds hf)
    have hready := ((settled_iff hv.valid).mp hsettled).2
    rw [← readyJobs_eq_nil_congr (latestStatus_setsStatus h.keeps hstatus)] at hready
    rw [hready] at hcreated
    exact List.forall₂_nil_left_iff.mp hcreated

/-- Telling the active executions to stop settles nothing and unsettles nothing. -/
private theorem settled_cancelRun_iff (h : ViewEffect v v' u [] sent)
    (hstatus : ∀ e ∈ v.rows, (u e).status = if e.status.isActive then .canceling else e.status)
    (pipelineId : UUID) : Settled c pipelineId v'.rows ↔ Settled c pipelineId v.rows := by
  rw [h.rows, List.append_nil]
  by_cases hactive : ∃ e ∈ v.rows, Latest.latest JobExecutionEntity.jobId
      JobExecutionEntity.attempt e.jobId v.rows = some e ∧ e.status.isActive = true
  · obtain ⟨e, he, hlate, hactive⟩ := hactive
    refine iff_of_false (not_settled (k := e.jobId) (s := .canceling) ?_ (by decide))
      (not_settled (k := e.jobId) (s := e.status) (by rw [latestStatus, hlate]; rfl) ?_)
    · rw [latestStatus, Latest.latest_map h.keeps.jobId h.keeps.attempt, hlate, Option.map_some,
        Option.map_some, hstatus e he, if_pos hactive]
    · revert hactive
      cases e.status <;> decide
  · refine settled_congr (latestStatus_map_of_eq h.keeps fun e he hlate ↦ ?_)
    rw [hstatus e he, if_neg fun h ↦ hactive ⟨e, he, hlate, h⟩]

/-- A run that is canceled. -/
theorem cancelRun_endedWhenDone_iff (h : ViewEffect v v' u [] sent)
    (hstatus : ∀ e ∈ v.rows, (u e).status = if e.status.isActive then .canceling else e.status)
    (hrun : v'.run = canceling v.run) :
    ¬ Settled c v.run.pipelineId v.rows ↔ EndedWhenDone c v' := by
  have hnot : ¬ Ended v'.run.status := by
    rw [hrun]
    simp [Ended, canceling]
  have hpipeline : v'.run.pipelineId = v.run.pipelineId := by
    rw [hrun]
    rfl
  rw [EndedWhenDone, hpipeline, settled_cancelRun_iff h hstatus]
  exact ⟨fun hok hsettled ↦ absurd hsettled hok, fun hP' hsettled ↦ hnot (hP' hsettled).1⟩

/-- An execution that is approved was waiting, so its run has not ended. -/
private theorem EndedWhenDone.approve (hP : EndedWhenDone c v) (hdone : Concluded v)
    (h : ViewEffect v v' u [] sent) {x : JobExecutionEntity} (hx : x ∈ v.rows)
    (hkeyed : Table.Keyed JobExecutionEntity.id v.rows) (hwaiting : x.status = .waitingApproval)
    (hstatus : SetsStatus v.rows u x.id .queued) (hrun : v'.run = reopened v.run .running) :
    EndedWhenDone c v' := by
  rcases set_nonfinal_cases (c := c) h hx hkeyed hstatus (by decide) with hnot | hlatest
  · exact fun hsettled ↦ absurd hsettled (hnot _)
  · intro hsettled
    rw [settled_congr hlatest, hrun] at hsettled
    have hfinal := hdone.rows (hP hsettled).1 x hx
    rw [hwaiting] at hfinal
    exact absurd hfinal (by decide)

/-- A tick of the watchdog: what it ends was running, so the run has not ended. -/
theorem checkTimeouts_endedWhenDone_iff {now : Instant} (hP : EndedWhenDone c v)
    (hdone : Concluded v) (h : ViewEffect v v' u [] sent)
    (hstatus : ∀ e ∈ v.rows, (u e).status =
      if e.status = .running ∧ TimeoutWatchdog.isExpired now e = true then .timeout
      else e.status) (hrun : v'.run = v.run) :
    ((∃ e ∈ v.rows, e.status = .running ∧ TimeoutWatchdog.isExpired now e = true) →
      ¬ Settled c v.run.pipelineId (withTimeouts now v.rows)) ↔ EndedWhenDone c v' := by
  have hlatest : latestStatus v'.rows = latestStatus (withTimeouts now v.rows) := by
    rw [h.rows, List.append_nil]
    exact latestStatus_timesOut h.keeps hstatus
  by_cases hexpired : ∃ e ∈ v.rows, e.status = .running ∧ TimeoutWatchdog.isExpired now e = true
  · have hnot : ¬ Ended v.run.status := by
      obtain ⟨e, he, hrunning, -⟩ := hexpired
      intro hended
      have hfinal := hdone.rows hended e he
      rw [hrunning] at hfinal
      exact absurd hfinal (by decide)
    rw [EndedWhenDone, settled_congr hlatest, hrun]
    exact ⟨fun hok hs ↦ absurd hs (hok hexpired), fun hP' _ hs ↦ hnot (hP' hs).1⟩
  · refine iff_of_true (fun hsome ↦ absurd hsome hexpired) (hP.keep hrun ?_)
    rw [h.rows, List.append_nil]
    refine latestStatus_map_of_eq h.keeps fun e he _ ↦ ?_
    rw [hstatus e he, if_neg fun hrunning ↦ hexpired ⟨e, he, hrunning⟩]

end Late

/-- **One operation.** It keeps a run from being stuck exactly when it meets the condition. -/
theorem RunStep.endedWhenDone_iff {c : Catalog} {db : Db} {call : Call} {v v' : RunView}
    (hv : Attempted c v) (hdone : Concluded v) (hP : EndedWhenDone c v)
    (h : RunStep c db call v v') : ClosesRun c db v call ↔ EndedWhenDone c v' := by
  cases h with
  | idle hidle heffect hstatus hrun =>
    refine iff_of_true (.of_idles hidle) (hP.keep hrun ?_)
    rw [heffect.rows, List.append_nil]
    exact latestStatus_map_of_eq heffect.keeps fun e he _ ↦ hstatus e he
  | move hnew hx hid htarget hcan hfinal heffect hstatus hrun =>
    refine iff_of_true ?_ (hP.set_nonfinal heffect hx hv.keyed hstatus hfinal hrun)
    intro _ y hy hyid t' htarget' _ hfinal'
    rw [Option.some.inj (htarget'.symm.trans htarget)] at hfinal'
    exact absurd (hfinal'.symm.trans hfinal) (by decide)
  | finish hnew hx hid htarget hcan hfinal heffect hstatus hcreated hrun =>
    rw [← finish_endedWhenDone_iff hv hx hfinal heffect hstatus hcreated hrun]
    constructor
    · exact fun hok ↦ hok hnew _ hx hid _ htarget hcan hfinal
    · intro hok _ y hy hyid t' htarget' _ _
      obtain rfl := hv.keyed.eq hy hx (Option.some.inj (hyid.symm.trans hid))
      obtain rfl := Option.some.inj (htarget'.symm.trans htarget)
      exact hok
  | cancelRun heffect hstatus hrun =>
    rw [← cancelRun_endedWhenDone_iff heffect hstatus hrun]
    exact imp_iff_right rfl
  | cancelExecution hx hfinal heffect hstatus hrun =>
    exact iff_of_true trivial
      (hP.set_nonfinal heffect hx hv.keyed hstatus (by decide) hrun)
  | retryRun hpicks heffect hstatus hretried hrun =>
    obtain ⟨x, hx⟩ := List.exists_mem_of_ne_nil _ hpicks
    obtain ⟨f, hf, -⟩ := exists_of_forall₂_left hretried hx
    exact iff_of_true trivial fun hsettled ↦
      absurd hsettled (not_settled_of_fresh hv heffect (addsAttempts_retried hv hretried) hf)
  | retryExecution hx hjob hjobId hcandidate heffect hstatus hretried hrun =>
    exact iff_of_true trivial fun hsettled ↦ absurd hsettled (not_settled_of_fresh hv heffect
      (addsAttempts_retry hv hx hjobId hretried) (List.mem_singleton.mpr rfl))
  | approve hx happroval hfor hpending hwaiting heffect hstatus hrun =>
    exact iff_of_true trivial (hP.approve hdone heffect hx hv.keyed hwaiting hstatus hrun)
  | @reject _ _ _ u x approval hx happroval hunique hfor hpending hwaiting heffect hstatus hrun =>
    rw [endedWhenDone_recomputed_iff heffect hx hstatus (by decide) hrun]
    constructor
    · intro hok
      exact hok approval happroval rfl x hx hfor.symm hwaiting
    · intro hok a ha haid y hy hyfor _
      obtain rfl := hunique a ha haid
      obtain rfl := hv.keyed.eq hy hx (hyfor.trans hfor)
      exact hok
  | checkTimeouts heffect hstatus hrun =>
    exact checkTimeouts_endedWhenDone_iff hP hdone heffect hstatus hrun

theorem RunStart.endedWhenDone {c : Catalog} {v : RunView} (h : RunStart c v) :
    EndedWhenDone c v := by
  intro hsettled
  by_cases hempty : v.rows = []
  · refine ⟨?_, h.finishedAt hempty⟩
    rw [h.status, if_pos hempty]
    exact Or.inl rfl
  · obtain ⟨e, he⟩ := List.exists_mem_of_ne_nil _ hempty
    obtain ⟨a, ha⟩ := Latest.exists_latest JobExecutionEntity.jobId
      JobExecutionEntity.attempt he
    obtain ⟨job, -, hrow⟩ := exists_of_forall₂_right h.rows (Latest.of_latest ha).1
    have hactive := hrow.isActive
    have hfinal := latest_final_iff.mp hsettled.1 e.jobId a.status (by rw [latestStatus, ha]; rfl)
    rw [JobExecutionStatus.not_active_of_final hfinal] at hactive
    exact absurd hactive (by decide)

/-- **No run is stuck**, as long as the operations meet the condition, and no longer. -/
theorem endedWhenDone_throughout_iff (c : Catalog) (calls : List Call) :
    (∀ past, past <+: calls → EveryView (EndedWhenDone c) (history c past)) ↔
      Along (step c) (Permitted c (ClosesRun c)) Db.empty calls :=
  view_always_iff (J := fun v ↦ Attempted c v ∧ Concluded v)
    (fun _ hdb r v hv ↦ ⟨attempted_view hdb r v hv, concluded_view hdb r v hv⟩)
    (fun _ hv ↦ hv.endedWhenDone)
    (fun _ _ _ _ hv hP h ↦ h.endedWhenDone_iff hv.1 hv.2 hP) calls

/-- A failed attempt is retried and the retry succeeds. The superseded attempt keeps the run
open. -/
def retriedWithSuccess : List Call :=
  [Small.call (.createRun 0 none), Small.deliver (Small.message 100 2 .running),
   Small.deliver (Small.failure 101 2), Small.call (.retryRun 0),
   Small.deliver (Small.message 102 7 .running), Small.deliver (Small.message 103 7 .success)]

theorem not_endedWhenDone_throughout :
    ¬ ∀ c db, Reachable c db → EveryView (EndedWhenDone c) db := by
  intro h
  let db := history Small.solo retriedWithSuccess
  have hbad : ∃ v ∈ db.view 0, (∀ e ∈ Latest.latestEntries JobExecutionEntity.jobId
      JobExecutionEntity.attempt v.rows, e.status.isFinalStatus = true) ∧
      Small.solo.resolveReadyJobs v.run.pipelineId v.rows = .ok [] ∧ ¬ Ended v.run.status := by
    decide +kernel
  obtain ⟨v, hv, hfinal, hready, hnot⟩ := hbad
  exact hnot (h Small.solo db ⟨_, rfl⟩ 0 v hv ⟨hfinal, hready⟩).1

end FuzzingCiCd.Master
