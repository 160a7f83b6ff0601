import FuzzingCiCd.Master.Completion

/-!
# After the cancellation of a run

Canceling a run stops the executions that exist. Whether new ones follow is decided later, when the
events of the executors arrive, by code that does not look at the status of the run. So no new work
follows only if the graph rules it out: each job that has no execution yet has an incoming edge that
is dead, in the sense that no answer of the executors can satisfy it any more. A message can
also go out for an old execution, through an approval of a superseded attempt.

## Main results

* `RunStep.halted`: a step that does not retry the run adds nothing to a halted one.
* `no_new_work_after_cancel`: the condition at the moment of the cancellation, and what holds in
  every continuation from there.
-/

namespace FuzzingCiCd.Master

open Transition PipelineRunService ReadyJobResolver

/-- No event can bring the source of an edge, in a run that is being canceled, to a status that
satisfies the condition. -/
def Dead (condition : DependencyCondition) : Option JobExecutionStatus → Prop
  | none => True
  | some status =>
    if status.isFinalStatus then conditionSatisfied condition status = false
    else condition = .onSuccess

instance decidableDead (condition : DependencyCondition) :
    ∀ status, Decidable (Dead condition status)
  | none => .isTrue trivial
  | some status => inferInstanceAs (Decidable (if status.isFinalStatus then
      conditionSatisfied condition status = false else condition = .onSuccess))

/-- No event can satisfy the edge. -/
def DeadEdge (rows : List JobExecutionEntity) (edge : DependencyEdge) : Prop :=
  Dead edge.condition (latestStatus rows edge.dependsOnJobId)

instance (rows : List JobExecutionEntity) (edge : DependencyEdge) :
    Decidable (DeadEdge rows edge) :=
  decidableDead _ _

/-- Every job of the pipeline that has no execution has a dead edge. -/
def NoSuccessors (c : Catalog) (v : RunView) : Prop :=
  ∀ job ∈ c.jobsOf v.run.pipelineId, (∀ e ∈ v.rows, e.jobId ≠ job.id) →
    ∃ edge ∈ (c.graphOf v.run.pipelineId).dependencies job.id, DeadEdge v.rows edge

/-- The condition on a run when it is canceled. -/
def CancelStops (c : Catalog) (v : RunView) : Prop :=
  NoSuccessors c v ∧ ∀ e ∈ v.rows, e.status = .retrying → e.id ∉ v.awaiting

instance (c : Catalog) (v : RunView) : Decidable (CancelStops c v) :=
  inferInstanceAs (Decidable ((∀ job ∈ c.jobsOf v.run.pipelineId,
    (∀ e ∈ v.rows, e.jobId ≠ job.id) →
      ∃ edge ∈ (c.graphOf v.run.pipelineId).dependencies job.id, DeadEdge v.rows edge) ∧
    ∀ e ∈ v.rows, e.status = .retrying → e.id ∉ v.awaiting))

/-- The operation retries the run or one of its executions. -/
def RetriesRun (v : RunView) (call : Call) : Prop :=
  match call.operation with
  | .retryRun runId => runId = v.run.id
  | .retryExecution executionId => ∃ e ∈ v.rows, e.id = executionId
  | _ => False

/-! ## The invariant

A halted run has nothing that could still grow: the latest attempts have stopped or are being
stopped, a job without an attempt waits for an edge that can no longer be satisfied, and no
pending approval has an execution that waits for it. An execution that stops goes on stopping, so
every operation but a retry keeps this. -/

/-- The statuses of an execution that was told to stop. -/
def Stopping (status : JobExecutionStatus) : Prop :=
  status.isFinalStatus = true ∨ status = .canceling

/-- What a canceled run keeps: the latest attempts stop, nothing can follow them, and nothing that
awaits an approval can get one. -/
structure Halted (c : Catalog) (v : RunView) : Prop where
  attempted : Attempted c v
  stopping : ∀ k s, latestStatus v.rows k = some s → Stopping s
  noSuccessors : NoSuccessors c v
  awaiting : ∀ e ∈ v.rows, e.id ∈ v.awaiting → Stopping e.status

/-- How the status of a stopping execution can change. -/
def Stops (s t : JobExecutionStatus) : Prop :=
  (s.isFinalStatus = true → t = s) ∧
    (s = .canceling → t = .canceling ∨ t = .canceled ∨ t = .failed)

instance (s t : JobExecutionStatus) : Decidable (Stops s t) :=
  inferInstanceAs (Decidable ((s.isFinalStatus = true → t = s) ∧
    (s = .canceling → t = .canceling ∨ t = .canceled ∨ t = .failed)))

theorem Stops.refl (s : JobExecutionStatus) : Stops s s :=
  ⟨fun _ ↦ rfl, fun h ↦ Or.inl h⟩

theorem stops_of_canTransition {s t : JobExecutionStatus} (h : canTransition s t = true) :
    Stops s t := by
  revert h
  cases s <;> cases t <;> decide

theorem Stopping.stops {s t : JobExecutionStatus} (hs : Stopping s) (h : Stops s t) :
    Stopping t := by
  rcases hs with hs | rfl
  · exact Or.inl (h.1 hs ▸ hs)
  · rcases h.2 rfl with rfl | rfl | rfl
    · exact Or.inr rfl
    · exact Or.inl rfl
    · exact Or.inl rfl

theorem not_satisfied_of_dead {rows : List JobExecutionEntity} {edge : DependencyEdge}
    (h : DeadEdge rows edge) : edgeSatisfied (latestStatus rows) edge = false := by
  rw [DeadEdge] at h
  rw [edgeSatisfied]
  cases hlatest : latestStatus rows edge.dependsOnJobId with
  | none => rfl
  | some status =>
    rw [hlatest] at h
    cases hfinal : status.isFinalStatus with
    | false => simp [hfinal]
    | true => simpa [Dead, hfinal] using h

theorem latestStatus_map {u : JobExecutionEntity → JobExecutionEntity} (hu : Keeps u)
    (rows : List JobExecutionEntity) (k : UUID) : latestStatus (rows.map u) k =
      (Latest.latest JobExecutionEntity.jobId JobExecutionEntity.attempt k rows).map
        fun e ↦ (u e).status := by
  rw [latestStatus, Latest.latest_map hu.jobId hu.attempt, Option.map_map]
  rfl

theorem DeadEdge.map {rows : List JobExecutionEntity} {edge : DependencyEdge}
    {u : JobExecutionEntity → JobExecutionEntity} (hu : Keeps u) (h : DeadEdge rows edge)
    (hstops : ∀ e ∈ rows, Latest.latest JobExecutionEntity.jobId JobExecutionEntity.attempt e.jobId
      rows = some e → e.status.isFinalStatus = true ∧ (u e).status = e.status ∨
        e.status.isFinalStatus = false ∧ Stops .canceling (u e).status) :
    DeadEdge (rows.map u) edge := by
  rw [DeadEdge] at h ⊢
  rw [latestStatus_map hu]
  cases hlatest : Latest.latest JobExecutionEntity.jobId JobExecutionEntity.attempt
    edge.dependsOnJobId rows with
  | none => trivial
  | some e =>
    have hold : latestStatus rows edge.dependsOnJobId = some e.status := by
      rw [latestStatus, hlatest]
      rfl
    obtain ⟨hmem, hjob, -⟩ := Latest.of_latest hlatest
    rw [hold] at h
    rw [Option.map_some]
    rcases hstops e hmem (hjob ▸ hlatest) with ⟨hfinal, hsame⟩ | ⟨hfinal, hstop⟩
    · rw [hsame]
      exact h
    · have honSuccess : edge.condition = .onSuccess := by simpa [Dead, hfinal] using h
      rw [honSuccess]
      rcases hstop.2 rfl with hs | hs | hs <;> (rw [hs]; decide)

section Steps

variable {c : Catalog} {v v' : RunView} {u : JobExecutionEntity → JobExecutionEntity}

theorem Halted.deadEdge (hv : Halted c v) (hu : Keeps u)
    (hstops : ∀ e ∈ v.rows, Stops e.status (u e).status) {edge : DependencyEdge}
    (h : DeadEdge v.rows edge) : DeadEdge (v.rows.map u) edge := by
  refine h.map hu fun e he hlatest ↦ ?_
  have hstop := hstops e he
  rcases hv.stopping e.jobId e.status (by rw [latestStatus, hlatest]; rfl) with hfinal | hcanceling
  · exact Or.inl ⟨hfinal, hstop.1 hfinal⟩
  · rw [hcanceling] at hstop ⊢
    exact Or.inr ⟨rfl, hstop⟩

/-- Nothing is ready in a halted run, now or after a step. -/
theorem Halted.readyJobs (hv : Halted c v) (hu : Keeps u)
    (hstops : ∀ e ∈ v.rows, Stops e.status (u e).status) :
    c.readyJobs v.run.pipelineId (v.rows.map u) = [] := by
  rw [List.eq_nil_iff_forall_not_mem]
  intro job hjob
  obtain ⟨hmem, hnone, hedges⟩ := Catalog.mem_readyJobs.mp hjob
  obtain ⟨edge, hedge, hdead⟩ := hv.noSuccessors job hmem fun e he hjobId ↦
    hnone (u e) (List.mem_map_of_mem he) (by rw [hu.jobId, hjobId])
  have hsatisfied := hedges edge hedge
  rw [not_satisfied_of_dead (hv.deadEdge hu hstops hdead)] at hsatisfied
  exact absurd hsatisfied (by decide)

/-- A step that adds nothing and along which executions only stop. -/
theorem Halted.keep (hv : Halted c v) (hv' : Attempted c v') (h : ViewEffect v v' u [] [])
    (hpipeline : v'.run.pipelineId = v.run.pipelineId)
    (hstops : ∀ e ∈ v.rows, Stops e.status (u e).status) : Halted c v' := by
  have hrows : v'.rows = v.rows.map u := by rw [h.rows, List.append_nil]
  refine ⟨hv', ?_, ?_, ?_⟩
  · intro k s hs
    rw [hrows, latestStatus_map h.keeps, Option.map_eq_some_iff] at hs
    obtain ⟨e, he, rfl⟩ := hs
    have hold := hv.stopping k e.status (by rw [latestStatus, he]; rfl)
    exact hold.stops (hstops e (Latest.of_latest he).1)
  · intro job hjob hnone
    rw [hpipeline] at hjob ⊢
    rw [hrows] at hnone ⊢
    obtain ⟨edge, hedge, hdead⟩ := hv.noSuccessors job hjob fun e he hjobId ↦
      hnone (u e) (List.mem_map_of_mem he) (by rw [h.keeps.jobId, hjobId])
    exact ⟨edge, hedge, hv.deadEdge h.keeps hstops hdead⟩
  · intro e he hawaiting
    rw [hrows] at he
    obtain ⟨x, hx, rfl⟩ := List.mem_map.mp he
    have hx' : x.id ∈ v.awaiting := by
      rcases h.awaiting _ hawaiting with hmem | ⟨f, hf, -⟩
      · rwa [h.keeps.id] at hmem
      · exact absurd hf List.not_mem_nil
    exact (hv.awaiting x hx hx').stops (hstops x hx)

private theorem stops_setsStatus {rows : List JobExecutionEntity}
    (hkeyed : Table.Keyed JobExecutionEntity.id rows) {x : JobExecutionEntity} (hx : x ∈ rows)
    {t : JobExecutionStatus} (hstatus : SetsStatus rows u x.id t) (h : Stops x.status t) :
    ∀ e ∈ rows, Stops e.status (u e).status := by
  intro e he
  rw [hstatus e he]
  by_cases hid : e.id = x.id
  · rw [if_pos hid, hkeyed.eq he hx hid]
    exact h
  · rw [if_neg hid]
    exact Stops.refl _

private theorem not_waiting (hv : Halted c v) {x : JobExecutionEntity} (hx : x ∈ v.rows)
    {approval : DeploymentApprovalEntity} (happroval : approval ∈ v.approvals)
    (hfor : approval.jobExecutionId = x.id) (hpending : approval.status = .pending) :
    x.status ≠ .waitingApproval := by
  intro hwaiting
  have hmem : x.id ∈ v.awaiting := by
    rw [← hfor]
    exact List.mem_map_of_mem (List.mem_filter.mpr ⟨happroval, by simpa using hpending⟩)
  have hstopping := hv.awaiting x hx hmem
  rw [hwaiting] at hstopping
  rcases hstopping with h | h <;> exact absurd h (by decide)

/-- **One step.** A step that does not retry the run keeps it halted and adds nothing to it. -/
theorem RunStep.halted {db : Db} {call : Call} (hv : Halted c v) (hretry : ¬ RetriesRun v call)
    (h : RunStep c db call v v') : Halted c v' ∧
      v'.rows.map JobExecutionEntity.id = v.rows.map JobExecutionEntity.id ∧
      v'.dispatched = v.dispatched := by
  have hv' : Attempted c v' := by
    obtain ⟨u, fresh, sent, hshape⟩ := h.shape hv.attempted
    exact hv.attempted.step hshape
  -- every step left but the retries adds no row and only stops rows
  have hkeep : ∀ {u : JobExecutionEntity → JobExecutionEntity}, ViewEffect v v' u [] [] →
      v'.run.pipelineId = v.run.pipelineId → (∀ e ∈ v.rows, Stops e.status (u e).status) →
      Halted c v' ∧ v'.rows.map JobExecutionEntity.id = v.rows.map JobExecutionEntity.id ∧
        v'.dispatched = v.dispatched := by
    intro u heffect hpipeline hstops
    refine ⟨hv.keep hv' heffect hpipeline hstops, ?_, ?_⟩
    · rw [heffect.rows, List.append_nil, List.map_map]
      exact List.map_congr_left fun e _ ↦ heffect.keeps.id e
    · rw [heffect.dispatched, List.append_nil]
  have hkeyed := hv.attempted.keyed
  cases h with
  | idle hidle heffect hstatus hrun =>
    exact hkeep heffect (by rw [hrun]) fun e he ↦ by rw [hstatus e he]; exact Stops.refl _
  | move hnew hx hid htarget hcan hfinal heffect hstatus hrun =>
    exact hkeep heffect (by rw [hrun])
      (stops_setsStatus hkeyed hx hstatus (stops_of_canTransition hcan))
  | finish hnew hx hid htarget hcan hfinal heffect hstatus hcreated hrun =>
    have hstops := stops_setsStatus hkeyed hx hstatus (stops_of_canTransition hcan)
    rw [hv.readyJobs heffect.keeps hstops, List.forall₂_nil_left_iff] at hcreated
    subst hcreated
    exact hkeep heffect (by rw [hrun]; rfl) hstops
  | cancelRun heffect hstatus hrun =>
    refine hkeep heffect (by rw [hrun]; rfl) fun e he ↦ ?_
    rw [hstatus e he]
    cases e.status <;> decide
  | cancelExecution hx hfinal heffect hstatus hrun =>
    refine hkeep heffect (by rw [hrun]) (stops_setsStatus hkeyed hx hstatus ?_)
    exact ⟨fun h ↦ absurd (hfinal.symm.trans h) (by decide), fun _ ↦ Or.inl rfl⟩
  | retryRun hpicks heffect hstatus hretried hrun => exact absurd rfl hretry
  | retryExecution hx hjob hjobId hcandidate heffect hstatus hretried hrun =>
    exact absurd ⟨_, hx, rfl⟩ hretry
  | approve hx happroval hfor hpending hwaiting heffect hstatus hrun =>
    exact absurd hwaiting (not_waiting hv hx happroval hfor hpending)
  | reject hx happroval hunique hfor hpending hwaiting heffect hstatus hrun =>
    exact absurd hwaiting (not_waiting hv hx happroval hfor hpending)
  | @checkTimeouts ctx _ _ _ heffect hstatus hrun =>
    refine hkeep heffect (by rw [hrun]) fun e he ↦ ?_
    rw [hstatus e he]
    by_cases hexpired : e.status = .running ∧ TimeoutWatchdog.isExpired ctx.now e = true
    · rw [if_pos hexpired, hexpired.1]
      decide
    · rw [if_neg hexpired]
      exact Stops.refl _

/-- What the cancellation of a run does to it. -/
theorem RunStep.of_cancelRun {db : Db} {ctx : CallContext} {r : UUID} (hr : r = v.run.id)
    (h : RunStep c db ⟨ctx, .cancelRun r⟩ v v') : ∃ u, ViewEffect v v' u [] [] ∧
      (∀ e ∈ v.rows, (u e).status = if e.status.isActive then .canceling else e.status) ∧
      v'.run = canceling v.run := by
  cases h with
  | idle hidle heffect hstatus hrun => exact absurd hr hidle
  | cancelRun heffect hstatus hrun => exact ⟨_, heffect, hstatus, hrun⟩

theorem halted_of_cancel (hv : Attempted c v) (hv' : Attempted c v') (hstops : CancelStops c v)
    (h : ViewEffect v v' u [] []) (hpipeline : v'.run.pipelineId = v.run.pipelineId)
    (hstatus : ∀ e ∈ v.rows, (u e).status = if e.status.isActive then .canceling else e.status) :
    Halted c v' := by
  have hrows : v'.rows = v.rows.map u := by rw [h.rows, List.append_nil]
  have hcases : ∀ e ∈ v.rows, e.status ≠ .retrying →
      e.status.isFinalStatus = true ∧ (u e).status = e.status ∨
        e.status.isFinalStatus = false ∧ (u e).status = .canceling := by
    intro e he hne
    rw [hstatus e he]
    revert hne
    cases e.status <;> decide
  -- a superseded row is not cancelled, and it is never the latest of its job
  have hlatest : ∀ e ∈ v.rows, Latest.latest JobExecutionEntity.jobId JobExecutionEntity.attempt
      e.jobId v.rows = some e → e.status ≠ .retrying := by
    intro e he hlate hretrying
    have hlt := hv.superseded e he hretrying
    rw [hv.numbered.rank_latest hlate] at hlt
    exact absurd hlt (lt_irrefl _)
  have hstopping : ∀ e ∈ v.rows, e.status ≠ .retrying → Stopping (u e).status := by
    intro e he hne
    rcases hcases e he hne with ⟨hfinal, hsame⟩ | ⟨-, hcanceling⟩
    · rw [hsame]
      exact Or.inl hfinal
    · exact Or.inr hcanceling
  refine ⟨hv', ?_, ?_, ?_⟩
  · intro k s hs
    rw [hrows, latestStatus_map h.keeps, Option.map_eq_some_iff] at hs
    obtain ⟨e, he, rfl⟩ := hs
    obtain ⟨hmem, rfl, -⟩ := Latest.of_latest he
    exact hstopping e hmem (hlatest e hmem he)
  · intro job hjob hnone
    rw [hpipeline] at hjob ⊢
    rw [hrows] at hnone ⊢
    obtain ⟨edge, hedge, hdead⟩ := hstops.1 job hjob fun e he hjobId ↦
      hnone (u e) (List.mem_map_of_mem he) (by rw [h.keeps.jobId, hjobId])
    refine ⟨edge, hedge, hdead.map h.keeps fun e he hlate ↦ ?_⟩
    rcases hcases e he (hlatest e he hlate) with hsame | ⟨hfinal, hcanceling⟩
    · exact Or.inl hsame
    · rw [hcanceling]
      exact Or.inr ⟨hfinal, Stops.refl _⟩
  · intro e he hawaiting
    rw [hrows] at he
    obtain ⟨x, hx, rfl⟩ := List.mem_map.mp he
    refine hstopping x hx fun hretrying ↦ hstops.2 x hx hretrying ?_
    rcases h.awaiting _ hawaiting with hmem | ⟨f, hf, -⟩
    · rwa [h.keeps.id] at hmem
    · exact absurd hf List.not_mem_nil

end Steps

/-! ## No new work -/

/-- **No new work after the cancellation of a run.** When a run meets the condition at the moment
it is canceled, then, until it is retried, nothing that happens adds an execution to it or
dispatches a message for it. -/
theorem no_new_work_after_cancel {c : Catalog} {ctx : CallContext} {r : UUID} {db db₁ : Db}
    {v : RunView} (hdb : Reachable c db) (hv : db.view r = some v) (hstops : CancelStops c v)
    (hcancel : step c ⟨ctx, .cancelRun r⟩ db = .ok db₁) {later : List Call}
    (hlater : Along (step c) (PermittedOn c r fun _ v call ↦ ¬ RetriesRun v call) db₁ later) :
    ((replay (step c) db₁ later).findByPipelineRunId r).map JobExecutionEntity.id =
        (db.findByPipelineRunId r).map JobExecutionEntity.id ∧
      (replay (step c) db₁ later).dispatched r = db.dispatched r := by
  obtain rfl : v.run.id = r := (hdb.sound.findRun.mp (Db.view_eq_some hv).1).2
  have hattempted := attempted_view hdb _ v hv
  obtain ⟨v₁, hv₁, hstep⟩ := (step_refines hdb.sound hcancel).old _ v hv
  have hdb₁ : Reachable c db₁ := by
    obtain ⟨past, rfl⟩ := hdb
    exact ⟨past ++ [⟨ctx, .cancelRun v.run.id⟩], by
      rw [history, replay_concat, apply_of_ok hcancel]⟩
  have hstart : Halted c v₁ ∧
      v₁.rows.map JobExecutionEntity.id = v.rows.map JobExecutionEntity.id ∧
      v₁.dispatched = v.dispatched := by
    obtain ⟨u, heffect, hstatus, hrun⟩ := hstep.of_cancelRun rfl
    refine ⟨halted_of_cancel hattempted (attempted_view hdb₁ _ v₁ hv₁) hstops heffect
      (by rw [hrun]; rfl) hstatus, ?_, ?_⟩
    · rw [heffect.rows, List.append_nil, List.map_map]
      exact List.map_congr_left fun e _ ↦ heffect.keeps.id e
    · rw [heffect.dispatched, List.append_nil]
  obtain ⟨v', hv', -, hids, hdispatched⟩ := view_continuation
    (I := fun w ↦ Halted c w ∧
      w.rows.map JobExecutionEntity.id = v.rows.map JobExecutionEntity.id ∧
      w.dispatched = v.dispatched)
    (fun db call w w' hw hok h ↦ by
      obtain ⟨hhalted, hids, hdispatched⟩ := h.halted hw.1 hok
      exact ⟨hhalted, hids.trans hw.2.1, hdispatched.trans hw.2.2⟩)
    hdb₁ hv₁ hstart hlater
  rw [← (Db.view_eq_some hv').2.1, ← (Db.view_eq_some hv).2.1, ← (Db.view_eq_some hv').2.2.2,
    ← (Db.view_eq_some hv).2.2.2]
  exact ⟨hids, hdispatched⟩

/-- A run whose first job is running. -/
def firstRunning : List Call :=
  [Small.call (.createRun 0 none), Small.deliver (Small.message 100 2 .running)]

/-- The executor of the first job confirms the cancellation. -/
def firstCanceled : List Call := [Small.deliver (Small.message 101 2 .canceled)]

theorem no_new_work_onSuccess : ∃ db₁,
    step (Small.chain .onSuccess) (Small.call (.cancelRun 0))
      (history (Small.chain .onSuccess) firstRunning) = .ok db₁ ∧
    ((replay (step (Small.chain .onSuccess)) db₁ firstCanceled).findByPipelineRunId 0).map
        JobExecutionEntity.id =
      ((history (Small.chain .onSuccess) firstRunning).findByPipelineRunId 0).map
        JobExecutionEntity.id ∧
    (replay (step (Small.chain .onSuccess)) db₁ firstCanceled).dispatched 0 =
      (history (Small.chain .onSuccess) firstRunning).dispatched 0 := by
  have hview : ∃ v ∈ (history (Small.chain .onSuccess) firstRunning).view 0,
      CancelStops (Small.chain .onSuccess) v := by decide +kernel
  have hok : (step (Small.chain .onSuccess) (Small.call (.cancelRun 0))
      (history (Small.chain .onSuccess) firstRunning)).toBool = true := by decide +kernel
  obtain ⟨v, hv, hstops⟩ := hview
  cases h : step (Small.chain .onSuccess) (Small.call (.cancelRun 0))
      (history (Small.chain .onSuccess) firstRunning) with
  | error e =>
    rw [h] at hok
    exact absurd hok Bool.false_ne_true
  | ok db₁ =>
    exact ⟨db₁, rfl, no_new_work_after_cancel ⟨_, rfl⟩ hv hstops h
      ⟨fun _ _ _ _ hretries ↦ hretries, trivial⟩⟩

/-- The successor of a canceled job is started when its edge is always satisfied. -/
theorem new_work_always : ∃ db₁ ∈ (step (Small.chain .always) (Small.call (.cancelRun 0))
      (history (Small.chain .always) firstRunning)).toOption,
    (db₁.findByPipelineRunId 0).map JobExecutionEntity.id = [2] ∧ db₁.dispatched 0 = [2] ∧
    ((replay (step (Small.chain .always)) db₁ firstCanceled).findByPipelineRunId 0).map
        (fun e ↦ (e.id, e.jobId, e.status)) = [(2, 2, .canceled), (10, 3, .queued)] ∧
    (replay (step (Small.chain .always)) db₁ firstCanceled).dispatched 0 = [2, 10] := by
  decide +kernel

end FuzzingCiCd.Master
