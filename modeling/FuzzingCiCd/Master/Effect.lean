import FuzzingCiCd.Master.Soundness

/-!
# Effects on executions

What the services do to the executions of the database has one shape: rows are changed in place,
rows are added, approvals are decided or come with a new row, and messages are dispatched.
`Effect` states this shape. It composes, so the loops over executions have the same description as
a single step of them.

## Main results

* `createExecution_ok`: what creating an execution does, with and without an approval.
* `dispatchReadyJobs_ok`: every ready job gets its first attempt, and nothing else happens.
* `retryLatest_ok`: the retryable attempts are superseded by new ones.
-/

namespace FuzzingCiCd.Master

open Transition

theorem exists_of_forall₂_right {α β : Type*} {R : α → β → Prop} {l : List α} {l' : List β}
    (h : List.Forall₂ R l l') {b : β} (hb : b ∈ l') : ∃ a ∈ l, R a b := by
  induction h with
  | nil => exact absurd hb List.not_mem_nil
  | cons hab _ ih =>
    rcases List.mem_cons.mp hb with rfl | hb
    · exact ⟨_, List.mem_cons_self, hab⟩
    · obtain ⟨a, ha, har⟩ := ih hb
      exact ⟨a, List.mem_cons_of_mem _ ha, har⟩

theorem exists_of_forall₂_left {α β : Type*} {R : α → β → Prop} {l : List α} {l' : List β}
    (h : List.Forall₂ R l l') {a : α} (ha : a ∈ l) : ∃ b ∈ l', R a b := by
  obtain ⟨b, hb, hab⟩ := exists_of_forall₂_right h.flip ha
  exact ⟨b, hb, hab⟩

/-- The executions among `sent` that belong to a run. -/
def sentIds (runId : UUID) (sent : List JobExecutionEntity) : List UUID :=
  (sent.filter fun e ↦ e.pipelineRunId = runId).map JobExecutionEntity.id

theorem sentIds_append (r : UUID) (es fs : List JobExecutionEntity) :
    sentIds r (es ++ fs) = sentIds r es ++ sentIds r fs := by
  rw [sentIds, List.filter_append, List.map_append, sentIds, sentIds]

/-- The created executions a message goes out for. -/
def queuedRows (fresh : List JobExecutionEntity) : List JobExecutionEntity :=
  fresh.filter fun e ↦ e.status = .queued

theorem queuedRows_append (es fs : List JobExecutionEntity) :
    queuedRows (es ++ fs) = queuedRows es ++ queuedRows fs :=
  List.filter_append _ _

/-- The executions are changed by `u`, those in `fresh` are created, and messages are dispatched
for those in `sent`. Approvals are decided or come with a created execution. -/
structure Effect (db db' : Db) (u : JobExecutionEntity → JobExecutionEntity)
    (fresh sent : List JobExecutionEntity) : Prop where
  sound : Sound db'
  keeps : Keeps u
  executions : db'.executions = db.executions.map u ++ fresh
  runs : db'.runs = db.runs
  awaiting : ∀ r, ∀ x ∈ db'.awaiting r,
    x ∈ db.awaiting r ∨ ∃ e ∈ fresh, e.pipelineRunId = r ∧ e.id = x
  dispatched : ∀ r, db'.dispatched r = db.dispatched r ++ sentIds r sent

namespace Effect

theorem inPlace {db db' : Db} {u : JobExecutionEntity → JobExecutionEntity} (hs : Sound db')
    (hu : Keeps u) (hexec : db'.executions = db.executions.map u) (hruns : db'.runs = db.runs)
    (happr : db'.approvals = db.approvals) (hdisp : ∀ r, db'.dispatched r = db.dispatched r) :
    Effect db db' u [] [] where
  sound := hs
  keeps := hu
  executions := by rw [hexec, List.append_nil]
  runs := hruns
  awaiting r x hx := Or.inl (by rwa [Db.awaiting, happr] at hx)
  dispatched r := by rw [hdisp, sentIds, List.filter_nil, List.map_nil, List.append_nil]

theorem refl {db : Db} (hs : Sound db) : Effect db db (fun e ↦ e) [] [] :=
  inPlace hs keeps_id (List.map_id' _).symm rfl rfl fun _ ↦ rfl

theorem trans {db db' db'' : Db} {u v : JobExecutionEntity → JobExecutionEntity}
    {fresh fresh' sent sent' : List JobExecutionEntity} (h : Effect db db' u fresh sent)
    (h' : Effect db' db'' v fresh' sent') (hv : ∀ e ∈ fresh, v e = e) :
    Effect db db'' (fun e ↦ v (u e)) (fresh ++ fresh') (sent ++ sent') where
  sound := h'.sound
  keeps := h'.keeps.comp h.keeps
  executions := by
    have hfresh : fresh.map v = fresh := (List.map_congr_left hv).trans (List.map_id fresh)
    rw [h'.executions, h.executions, List.map_append, hfresh, List.map_map, List.append_assoc]
    rfl
  runs := h'.runs.trans h.runs
  awaiting := by
    intro r x hx
    rcases h'.awaiting r x hx with hx | ⟨e, he, her⟩
    · refine (h.awaiting r x hx).imp_right ?_
      rintro ⟨e, he, her⟩
      exact ⟨e, List.mem_append_left _ he, her⟩
    · exact Or.inr ⟨e, List.mem_append_right _ he, her⟩
  dispatched r := by rw [h'.dispatched, h.dispatched, sentIds_append, List.append_assoc]

theorem id_ne {db db' : Db} {u : JobExecutionEntity → JobExecutionEntity}
    {fresh sent : List JobExecutionEntity} (h : Effect db db' u fresh sent)
    {e : JobExecutionEntity} (he : e ∈ db.executions) {f : JobExecutionEntity} (hf : f ∈ fresh) :
    e.id ≠ f.id := by
  have hkeyed := h.sound.executions_keyed
  rw [h.executions, Table.keyed_append] at hkeyed
  have hne := hkeyed.2.2 (u e) (List.mem_map_of_mem he) f hf
  rwa [h.keeps.id] at hne

end Effect

theorem effect_mapExecutions {db : Db} (hs : Sound db)
    {u : JobExecutionEntity → JobExecutionEntity} (hu : Keeps u) :
    Effect db (db.mapExecutions u) u [] [] :=
  Effect.inPlace (hs.mapExecutions hu) hu rfl rfl rfl fun _ ↦ rfl

theorem effect_updateApproval {db : Db} (hs : Sound db)
    {f : DeploymentApprovalEntity → DeploymentApprovalEntity} (hid : ∀ a, (f a).id = a.id)
    (hexec : ∀ a, (f a).jobExecutionId = a.jobExecutionId)
    (hrun : ∀ a, (f a).pipelineRunId = a.pipelineRunId) (hf : ∀ a, (f a).status ≠ .pending)
    (k : UUID) : Effect db (db.updateApproval k f) (fun e ↦ e) [] [] where
  sound := hs.updateApproval hid hexec hrun k
  keeps := keeps_id
  executions := by
    rw [List.map_id', List.append_nil]
    rfl
  runs := rfl
  awaiting := by
    intro r x hx
    refine Or.inl ?_
    obtain ⟨a', ha', rfl⟩ := List.mem_map.mp hx
    obtain ⟨ha', htest⟩ := List.mem_filter.mp ha'
    obtain ⟨a, ha, rfl⟩ := List.mem_map.mp ha'
    by_cases hk : a.id = k
    · rw [if_pos hk] at htest
      simp [hf] at htest
    · rw [if_neg hk] at htest ⊢
      exact List.mem_map_of_mem (List.mem_filter.mpr ⟨ha, htest⟩)
  dispatched r := (List.append_nil _).symm

namespace PipelineRunService

/-- The status an execution of the job is created with. -/
def initialStatus (c : Catalog) (job : JobEntity) : JobExecutionStatus :=
  if (resolveApprovalEnvironment c job).isSome then .waitingApproval else .queued

/-- A row as `createExecution` makes it. -/
structure FreshRow (c : Catalog) (runId : UUID) (job : JobEntity) (attempt : ℕ)
    (e : JobExecutionEntity) : Prop where
  pipelineRunId : e.pipelineRunId = runId
  jobId : e.jobId = job.id
  attempt : e.attempt = attempt
  status : e.status = initialStatus c job

theorem FreshRow.isActive {c : Catalog} {r : UUID} {job : JobEntity} {n : ℕ}
    {e : JobExecutionEntity} (h : FreshRow c r job n e) : e.status.isActive = true := by
  rw [h.status, initialStatus]
  split <;> rfl

/-- The message that goes out for an execution says which run and execution it is for. -/
theorem enqueueExecution_ok {c : Catalog} {now : Instant} {run : PipelineRunEntity}
    {job : JobEntity} {e : JobExecutionEntity} {db db' : Db} (hs : Sound db)
    (hrun : ∃ run' ∈ db.runs, run'.id = run.id)
    (h : enqueueExecution c now run job e db = .ok db') :
    Sound db' ∧ db'.executions = db.executions ∧ db'.runs = db.runs ∧
      db'.approvals = db.approvals ∧
      ∀ r, db'.dispatched r = db.dispatched r ++ if run.id = r then [e.id] else [] := by
  rw [enqueueExecution] at h
  obtain ⟨message, hmessage, h⟩ := bind_eq_ok.mp h
  obtain ⟨topic, -, h⟩ := bind_eq_ok.mp h
  rw [outboxEnqueue_eq (hs.drawIds 1)] at h
  obtain rfl := Except.ok.inj h
  have htarget : message.pipelineRunId = run.id ∧ message.jobExecutionId = e.id := by
    rw [JobMessageFactory.build] at hmessage
    obtain ⟨params, -, hmessage⟩ := bind_eq_ok.mp hmessage
    obtain ⟨limits, -, hmessage⟩ := bind_eq_ok.mp hmessage
    obtain ⟨policy, -, hmessage⟩ := bind_eq_ok.mp hmessage
    obtain rfl := Except.ok.inj hmessage
    exact ⟨rfl, rfl⟩
  have hlt : message.pipelineRunId < db.nextId + 1 := by
    obtain ⟨run', hmem, hid⟩ := hrun
    rw [htarget.1, ← hid]
    exact (hs.runs_lt run' hmem).trans (Nat.lt_succ_self _)
  refine ⟨(hs.drawIds 1).addOutboxEvent rfl ?_, rfl, rfl, rfl, fun r ↦ ?_⟩
  · intro m hm
    obtain rfl := OutboxPayload.job.inj hm
    exact hlt
  rw [Db.dispatched, Db.addOutboxEvent, List.filterMap_append]
  congr 1
  by_cases hr : run.id = r
  · simp [Db.dispatchTarget, newOutboxEvent, htarget.1, htarget.2, hr]
  · simp [Db.dispatchTarget, newOutboxEvent, htarget.1, hr]

/-- **Creation.** Creating an execution adds one row, waiting for an approval or dispatched. -/
theorem createExecution_ok {c : Catalog} {now : Instant} {run : PipelineRunEntity}
    {job : JobEntity} {attempt : ℕ} {db db' : Db} {e : JobExecutionEntity} (hs : Sound db)
    (hrun : ∃ run' ∈ db.runs, run'.id = run.id)
    (h : createExecution c now run job attempt db = .ok (e, db')) :
    FreshRow c run.id job attempt e ∧ e.id = db.nextId ∧
      Effect db db' (fun x ↦ x) [e] (queuedRows [e]) := by
  rw [createExecution, saveExecution_fresh hs rfl] at h
  -- without an environment to approve the execution is dispatched, else it waits
  cases henv : resolveApprovalEnvironment c job with
  | none =>
    simp only [henv] at h
    have hadd := hs.addExecution (e := newExecution now db.nextId run job attempt) rfl hrun
    obtain ⟨db₁, hdb₁, h⟩ := bind_eq_ok.mp h
    obtain ⟨hsound, hexec, hruns, happr, hdisp⟩ := enqueueExecution_ok hadd hrun hdb₁
    obtain ⟨rfl, rfl⟩ := Prod.mk.inj (Except.ok.inj h)
    refine ⟨⟨rfl, rfl, rfl, by rw [initialStatus, henv]; rfl⟩, rfl,
      hsound, keeps_id, ?_, hruns, fun r x hx ↦ Or.inl ?_, fun r ↦ ?_⟩
    · rw [hexec, List.map_id']
      rfl
    · rwa [Db.awaiting, happr] at hx
    · rw [hdisp]
      by_cases hr : run.id = r <;>
        simp [queuedRows, sentIds, newExecution, hr, Db.dispatched, Db.addExecution, Db.drawIds]
  | some environment =>
    simp only [henv] at h
    have hadd := hs.addExecution (e := (newExecution now db.nextId run job attempt).setStatus
      .waitingApproval now) rfl hrun
    rw [saveExecution_added (e := newExecution now db.nextId run job attempt) hs rfl (by rfl),
      createDeploymentApproval, saveApproval_fresh hadd (by rfl)] at h
    obtain ⟨rfl, rfl⟩ := Prod.mk.inj (Except.ok.inj h)
    refine ⟨⟨rfl, rfl, rfl, by rw [initialStatus, henv]; rfl⟩, rfl,
      hadd.addApproval rfl (Nat.lt_succ_self _) ?_, keeps_id, ?_, rfl, fun r x hx ↦ ?_,
      fun r ↦ ?_⟩
    · intro x hx hid
      rcases List.mem_append.mp hx with hx | hx
      · exact absurd hid (hs.executions_lt x hx).ne
      · rw [List.mem_singleton.mp hx]
        rfl
    · rw [List.map_id']
      rfl
    · rw [Db.awaiting, Db.addApproval, List.filter_append, List.map_append, List.mem_append] at hx
      refine hx.imp_right fun hx ↦ ?_
      obtain ⟨a, ha, rfl⟩ := List.mem_map.mp hx
      obtain ⟨ha, htest⟩ := List.mem_filter.mp ha
      obtain rfl := List.mem_singleton.mp ha
      rw [Bool.and_eq_true, decide_eq_true_iff] at htest
      exact ⟨_, List.mem_singleton.mpr rfl, htest.1, rfl⟩
    · simp [Db.dispatched, Db.addApproval, Db.addExecution, queuedRows, sentIds, newExecution,
        JobExecutionEntity.setStatus, Db.drawIds]

/-! ## Dispatching -/

private theorem foldl_max_zero {l : List ℕ} (h : l = []) : l.foldl max 0 = 0 := by
  rw [h]
  rfl

theorem nextAttempt_eq_one {executions : List JobExecutionEntity} {jobId : UUID}
    (h : ∀ e ∈ executions, e.jobId ≠ jobId) : nextAttempt executions jobId = 1 := by
  rw [nextAttempt, foldl_max_zero]
  rw [List.map_eq_nil_iff, List.filter_eq_nil_iff]
  simpa using h

theorem createReady_ok {c : Catalog} {now : Instant} {run : PipelineRunEntity}
    {jobs : List JobEntity} {existing created : List JobExecutionEntity} {db db' : Db}
    (hs : Sound db) (hrun : ∃ run' ∈ db.runs, run'.id = run.id)
    (hnew : ∀ job ∈ jobs, ∀ e ∈ existing, e.jobId ≠ job.id)
    (hkeyed : Table.Keyed JobEntity.id jobs)
    (h : createReady c now run jobs existing db = .ok (created, db')) :
    List.Forall₂ (fun job e ↦ FreshRow c run.id job 1 e) jobs created ∧
      Effect db db' (fun e ↦ e) created (queuedRows created) := by
  induction jobs generalizing existing created db with
  | nil =>
    rw [createReady] at h
    obtain ⟨rfl, rfl⟩ := Prod.mk.inj (Except.ok.inj h)
    exact ⟨.nil, Effect.refl hs⟩
  | cons job jobs ih =>
    rw [createReady, nextAttempt_eq_one (hnew job List.mem_cons_self)] at h
    obtain ⟨⟨e, db₁⟩, hcreate, h⟩ := bind_eq_ok.mp h
    obtain ⟨⟨rest, db₂⟩, hrest, h⟩ := bind_eq_ok.mp h
    obtain ⟨rfl, rfl⟩ := Prod.mk.inj (Except.ok.inj h)
    obtain ⟨hrow, -, heffect⟩ := createExecution_ok hs hrun hcreate
    rw [Table.Keyed, List.map_cons, List.nodup_cons] at hkeyed
    obtain ⟨hrows, heffect'⟩ := ih heffect.sound (heffect.runs ▸ hrun) (by
      intro job' hjob' x hx
      rcases List.mem_append.mp hx with hx | hx
      · exact hnew job' (List.mem_cons_of_mem _ hjob') x hx
      · rw [List.mem_singleton.mp hx, hrow.jobId]
        intro heq
        exact hkeyed.1 (heq ▸ List.mem_map_of_mem hjob')) hkeyed.2 hrest
    refine ⟨.cons hrow hrows, ?_⟩
    have hboth := heffect.trans heffect' fun _ _ ↦ rfl
    rwa [← queuedRows_append] at hboth

/-- **Dispatching.** Every ready job gets its first attempt, and nothing else happens. -/
theorem dispatchReadyJobs_ok {c : Catalog} {now : Instant} {run : PipelineRunEntity}
    {existing created : List JobExecutionEntity} {db db' : Db} (hs : Sound db)
    (hrun : ∃ run' ∈ db.runs, run'.id = run.id)
    (h : dispatchReadyJobs c now run existing db = .ok (created, db')) :
    ExecutionGraphValidator.validate (c.graphOf run.pipelineId) = .ok () ∧
      List.Forall₂ (fun job e ↦ FreshRow c run.id job 1 e) (c.readyJobs run.pipelineId existing)
        created ∧
      Effect db db' (fun e ↦ e) created (queuedRows created) := by
  rw [dispatchReadyJobs] at h
  obtain ⟨ready, hready, h⟩ := bind_eq_ok.mp h
  obtain ⟨hvalid, rfl⟩ := Catalog.resolveReadyJobs_eq_ok.mp hready
  refine ⟨hvalid, createReady_ok hs hrun ?_ (Catalog.keyed_readyJobs _ _) h⟩
  intro job hjob
  exact (Catalog.mem_readyJobs.mp hjob).2.1

/-! ## Canceling -/

/-- The rows named by `ids` get a status, the others stay. -/
def mark (ids : List UUID) (status : JobExecutionStatus) (now : Instant)
    (e : JobExecutionEntity) : JobExecutionEntity :=
  if e.id ∈ ids then e.setStatus status now else e

theorem keeps_mark (ids : List UUID) (status : JobExecutionStatus) (now : Instant) :
    Keeps (mark ids status now) :=
  Keeps.ite (u := fun e ↦ e.setStatus status now)
    ⟨fun _ ↦ rfl, fun _ ↦ rfl, fun _ ↦ rfl, fun _ ↦ rfl⟩ fun e ↦ e.id ∈ ids

theorem mark_of_mem {ids : List UUID} {status : JobExecutionStatus} {now : Instant}
    {e : JobExecutionEntity} (h : e.id ∈ ids) : mark ids status now e = e.setStatus status now :=
  if_pos h

theorem mark_of_not_mem {ids : List UUID} {status : JobExecutionStatus} {now : Instant}
    {e : JobExecutionEntity} (h : e.id ∉ ids) : mark ids status now e = e :=
  if_neg h

theorem mark_comp {id : UUID} {ids : List UUID} (h : id ∉ ids) (status : JobExecutionStatus)
    (now : Instant) :
    (fun e ↦ mark ids status now (mark [id] status now e)) = mark (id :: ids) status now := by
  funext e
  by_cases he : e.id = id
  · have hone : mark [id] status now e = e.setStatus status now :=
      mark_of_mem (List.mem_singleton.mpr he)
    have hid : (e.setStatus status now).id ∉ ids := fun hmem ↦ h (he ▸ hmem)
    rw [hone, mark_of_not_mem hid, mark_of_mem (he ▸ List.mem_cons_self)]
  · have hone : mark [id] status now e = e :=
      mark_of_not_mem fun hmem ↦ he (List.mem_singleton.mp hmem)
    rw [hone]
    by_cases hids : e.id ∈ ids
    · rw [mark_of_mem hids, mark_of_mem (List.mem_cons_of_mem _ hids)]
    · rw [mark_of_not_mem hids, mark_of_not_mem]
      intro hmem
      rcases List.mem_cons.mp hmem with hmem | hmem
      · exact he hmem
      · exact hids hmem

theorem saveExecution_setStatus {db : Db} (hs : Sound db) {e : JobExecutionEntity}
    (he : e ∈ db.executions) (status : JobExecutionStatus) (now : Instant) :
    db.saveExecution (e.setStatus status now) = db.mapExecutions (mark [e.id] status now) := by
  rw [saveExecution_update hs he (f := fun x ↦ x.setStatus status now) rfl]
  congr 1
  funext x
  simp [mark]

theorem requestCancellation_ok (c : Catalog) (ctx : CallContext) (run : PipelineRunEntity)
    {db : Db} {e : JobExecutionEntity} (hs : Sound db) (he : e ∈ db.executions) :
    Effect db (requestCancellation c ctx run db e) (mark [e.id] .canceling ctx.now) [] [] := by
  have hkeeps := keeps_mark [e.id] .canceling ctx.now
  have hcancel : ∀ cancel : CancellationRequestEntity,
      Sound (((db.mapExecutions (mark [e.id] .canceling ctx.now)).drawIds 2).saveCancellation
        cancel) :=
    fun _ ↦ (hs.mapExecutions hkeeps).of_tables rfl rfl rfl rfl (Nat.le_add_right _ 2)
  rw [requestCancellation, saveExecution_setStatus hs he, outboxEnqueue_eq (hcancel _)]
  refine Effect.inPlace ((hcancel _).addOutboxEvent rfl nofun) hkeeps rfl rfl rfl fun r ↦ ?_
  rw [Db.dispatched, Db.addOutboxEvent, List.filterMap_append]
  exact List.append_nil _

theorem foldl_requestCancellation_ok (c : Catalog) (ctx : CallContext) (run : PipelineRunEntity)
    {active : List JobExecutionEntity} {db : Db} (hs : Sound db)
    (hmem : ∀ e ∈ active, e ∈ db.executions)
    (hkeyed : Table.Keyed JobExecutionEntity.id active) :
    Effect db (active.foldl (requestCancellation c ctx run) db)
      (mark (active.map JobExecutionEntity.id) .canceling ctx.now) [] [] := by
  induction active generalizing db with
  | nil =>
    have hnil : mark [] .canceling ctx.now = fun e ↦ e :=
      funext fun e ↦ mark_of_not_mem (List.not_mem_nil)
    rw [List.foldl_nil, List.map_nil, hnil]
    exact Effect.refl hs
  | cons e active ih =>
    have hfirst := requestCancellation_ok c ctx run hs
      (hmem e List.mem_cons_self)
    rw [Table.Keyed, List.map_cons, List.nodup_cons] at hkeyed
    have hrest := ih hfirst.sound (by
      intro x hx
      rw [hfirst.executions, List.append_nil]
      have hne : x.id ∉ [e.id] := by
        intro h
        exact hkeyed.1 (List.mem_singleton.mp h ▸ List.mem_map_of_mem hx)
      exact List.mem_map.mpr ⟨x, hmem x (List.mem_cons_of_mem _ hx), mark_of_not_mem hne⟩) hkeyed.2
    have hboth := hfirst.trans hrest (by simp)
    rw [mark_comp hkeyed.1] at hboth
    exact hboth

/-! ## Retrying -/

/-- Whether `retryRun` retries a latest attempt. -/
def retryable (c : Catalog) (e : JobExecutionEntity) : Bool :=
  match c.findJob e.jobId with
  | none => false
  | some job => isRetryCandidate e job

/-- The row that a retry of `e` creates. -/
def Retries (c : Catalog) (runId : UUID) (e retried : JobExecutionEntity) : Prop :=
  ∃ job ∈ c.jobs, job.id = e.jobId ∧ FreshRow c runId job (e.attempt + 1) retried

/-- The loop of `retryRun` supersedes the retryable attempts and creates one attempt for each. -/
theorem retryLatest_ok {c : Catalog} {now : Instant} {run : PipelineRunEntity}
    {latests retried : List JobExecutionEntity} {db db' : Db} (hs : Sound db)
    (hrun : ∃ run' ∈ db.runs, run'.id = run.id) (hmem : ∀ e ∈ latests, e ∈ db.executions)
    (hkeyed : Table.Keyed JobExecutionEntity.id latests)
    (h : retryLatest c now run latests db = .ok (retried, db')) :
    List.Forall₂ (Retries c run.id) (latests.filter (retryable c)) retried ∧
      Effect db db'
        (mark ((latests.filter (retryable c)).map JobExecutionEntity.id) .retrying now)
        retried (queuedRows retried) := by
  induction latests generalizing retried db with
  | nil =>
    rw [retryLatest] at h
    obtain ⟨rfl, rfl⟩ := Prod.mk.inj (Except.ok.inj h)
    have hnil : mark [] .retrying now = fun e ↦ e :=
      funext fun e ↦ mark_of_not_mem (List.not_mem_nil)
    rw [List.filter_nil, List.map_nil, hnil]
    exact ⟨.nil, Effect.refl hs⟩
  | cons latest latests ih =>
    rw [Table.Keyed, List.map_cons, List.nodup_cons] at hkeyed
    have htail : ∀ e ∈ latests, e ∈ db.executions :=
      fun e he ↦ hmem e (List.mem_cons_of_mem _ he)
    rw [retryLatest] at h
    obtain ⟨job, hjob, h⟩ := bind_eq_ok.mp h
    rw [orNotFound_eq_ok] at hjob
    have hcand : retryable c latest = isRetryCandidate latest job := by rw [retryable, hjob]
    by_cases hretry : isRetryCandidate latest job = true
    · simp only [hretry, Bool.not_true, Bool.false_eq_true, if_false] at h
      rw [saveExecution_setStatus hs (hmem latest List.mem_cons_self)] at h
      obtain ⟨⟨e, db₁⟩, hcreate, h⟩ := bind_eq_ok.mp h
      obtain ⟨⟨rest, db₂⟩, hrest, h⟩ := bind_eq_ok.mp h
      obtain ⟨rfl, rfl⟩ := Prod.mk.inj (Except.ok.inj h)
      have hmark := effect_mapExecutions hs (keeps_mark [latest.id] .retrying now)
      obtain ⟨hrow, hid, hcreated⟩ := createExecution_ok hmark.sound hrun hcreate
      have hfirst := hmark.trans hcreated (by simp)
      rw [List.nil_append, List.nil_append] at hfirst
      have hstay : ∀ x ∈ latests, x ∈ db₁.executions := by
        intro x hx
        rw [hfirst.executions]
        have hne : x.id ∉ [latest.id] := by
          intro h
          exact hkeyed.1 (List.mem_singleton.mp h ▸ List.mem_map_of_mem hx)
        exact List.mem_append_left _ (List.mem_map.mpr ⟨x, htail x hx, mark_of_not_mem hne⟩)
      obtain ⟨hrows, heffect⟩ := ih hfirst.sound (hfirst.runs ▸ hrun) hstay hkeyed.2 hrest
      -- the new attempt is none of the rows that the rest of the loop supersedes
      have hout : ∀ ids : List UUID, (∀ id ∈ ids, ∃ x ∈ latests, x.id = id) → e.id ∉ ids := by
        intro ids hids hmem'
        obtain ⟨x, hx, hxe⟩ := hids e.id hmem'
        exact hfirst.id_ne (htail x hx) (List.mem_singleton.mpr rfl) hxe
      have hsub : ∀ id ∈ (latests.filter (retryable c)).map JobExecutionEntity.id,
          ∃ x ∈ latests, x.id = id := by
        intro id hid
        obtain ⟨x, hx, rfl⟩ := List.mem_map.mp hid
        exact ⟨x, (List.mem_filter.mp hx).1, rfl⟩
      have hboth := hfirst.trans heffect (by
        intro x hx
        rw [List.mem_singleton.mp hx]
        exact mark_of_not_mem (hout _ hsub))
      have hnot : latest.id ∉ (latests.filter (retryable c)).map JobExecutionEntity.id := by
        intro hid
        obtain ⟨x, hx, hxe⟩ := hsub _ hid
        exact hkeyed.1 (hxe ▸ List.mem_map_of_mem hx)
      rw [mark_comp hnot, ← queuedRows_append] at hboth
      rw [List.filter_cons_of_pos (hcand.trans hretry)]
      obtain ⟨hjobmem, hjobid⟩ := Catalog.findJob_eq_some.mp hjob
      exact ⟨.cons ⟨job, hjobmem, hjobid, hrow⟩ hrows, hboth⟩
    · rw [Bool.not_eq_true] at hretry
      simp only [hretry, Bool.not_false, if_true] at h
      rw [List.filter_cons_of_neg (by rw [hcand, hretry]; decide)]
      exact ih hs hrun htail hkeyed.2 h

end PipelineRunService

end FuzzingCiCd.Master
