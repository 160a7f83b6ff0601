import FuzzingCiCd.Master.Delivery

/-!
# Canceled executions

A cancel puts executions into `canceling` and tells their executors to stop. What ends them is the
terminal event of the executor, and from `canceling` the transition table accepts `canceled` and
`failed` only: an executor that had finished before the cancel reached it is not heard. An
execution that waits for an approval has no executor, yet a cancel puts it into `canceling` too.

## Main results

* `status_of_cancel`: what a cancel does to the statuses.
* `status_of_reported`: what a terminal event does to them.
* `converges_iff`: cancel converges exactly when it is in time.
-/

namespace FuzzingCiCd.Master

open Transition

/-! ## What a cancel does -/

/-- The operation cancels a run or an execution. -/
def IsCancel : Operation → Prop
  | .cancelRun _ => True
  | .cancelExecution _ => True
  | _ => False

/-- The executions that a cancel is about. -/
def targets (operation : Operation) (e : JobExecutionEntity) : Bool :=
  match operation with
  | .cancelRun runId => e.pipelineRunId = runId && e.status.isActive
  | .cancelExecution executionId => e.id = executionId && !e.status.isFinalStatus
  | _ => false

theorem RunStep.of_cancel {c : Catalog} {db : Db} {call : Call} {v v' : RunView}
    (hcancel : IsCancel call.operation) (hrows : ∀ e ∈ v.rows, e.pipelineRunId = v.run.id)
    (h : RunStep c db call v v') : ∃ u, ViewEffect v v' u [] [] ∧
      ∀ e ∈ v.rows, (u e).status = if targets call.operation e then .canceling else e.status := by
  obtain ⟨ctx, operation⟩ := call
  cases h with
  | @idle _ _ _ u hidle heffect hstatus hrun =>
    refine ⟨u, heffect, fun e he ↦ ?_⟩
    rw [hstatus e he, if_neg]
    cases operation with
    | cancelRun runId =>
      have hother : runId ≠ v.run.id := hidle
      simp [targets, hrows e he, hother.symm]
    | cancelExecution executionId =>
      have hfinal : e.id = executionId → e.status.isFinalStatus = true := hidle e he
      simpa [targets] using hfinal
    | _ => exact Bool.false_ne_true
  | @cancelRun _ _ _ u heffect hstatus hrun =>
    refine ⟨u, heffect, fun e he ↦ ?_⟩
    rw [hstatus e he]
    exact if_congr (by simp [targets, hrows e he]) rfl rfl
  | @cancelExecution _ _ _ u x hx hfinal heffect hstatus hrun =>
    refine ⟨u, heffect, fun e he ↦ ?_⟩
    rw [hstatus e he]
    have hkeyed : Table.Keyed JobExecutionEntity.id v.rows := by
      have hkeyed := heffect.keyed
      rw [heffect.rows, List.append_nil] at hkeyed
      exact (Table.keyed_map heffect.keeps.id).mp hkeyed
    refine if_congr ⟨fun hid ↦ ?_, fun htarget ↦ ?_⟩ rfl rfl
    · obtain rfl := hkeyed.eq he hx hid
      simp [targets, hfinal]
    · rw [targets, Bool.and_eq_true, decide_eq_true_iff] at htarget
      exact htarget.1
  | _ => cases hcancel

/-- **A cancel** puts its targets into `canceling` and leaves the other statuses alone. -/
theorem status_of_cancel {c : Catalog} {call : Call} {db db₁ : Db} (hs : Sound db)
    (hcancel : IsCancel call.operation) (h : step c call db = .ok db₁) {e : JobExecutionEntity}
    (he : e ∈ db.executions) : ∃ e₁ ∈ db₁.executions, e₁.id = e.id ∧
      e₁.status = if targets call.operation e then .canceling else e.status := by
  obtain ⟨run, hrun, hrunid⟩ := hs.run_of_execution e he
  obtain ⟨v, hv, hvrun⟩ := Db.view_of_findRun (hs.findRun.mpr ⟨hrun, hrunid⟩)
  obtain ⟨v', hv', hstep⟩ := (step_refines hs h).old _ v hv
  have hrows : ∀ e ∈ v.rows, e.pipelineRunId = v.run.id := by
    intro x hx
    rw [hvrun, hrunid]
    exact ((mem_rows hv).mp hx).2
  obtain ⟨u, heffect, hstatus⟩ := hstep.of_cancel hcancel hrows
  have hrow : e ∈ v.rows := (mem_rows hv).mpr ⟨he, rfl⟩
  refine ⟨u e, ((mem_rows hv').mp ?_).1, heffect.keeps.id e, hstatus e hrow⟩
  rw [heffect.rows, List.append_nil]
  exact List.mem_map_of_mem hrow

/-! ## What a terminal event does -/

/-- The operation handles an event that reports the status of the execution. -/
def Reported (db : Db) (call : Call) (x : UUID) (t : JobExecutionStatus) : Prop :=
  ∃ ctx delivery message, call = ⟨ctx, .executorEvent delivery message⟩ ∧
    Consumes db delivery message ∧ message.jobExecutionId = some x ∧
      ExecutorEventService.mapStatus message.status = some t

/-- **An event** sets the status it reports if the table allows it. -/
theorem status_of_reported {c : Catalog} {call : Call} {db db' : Db} {e : JobExecutionEntity}
    {t : JobExecutionStatus} (hs : Sound db) (he : e ∈ db.executions)
    (hreported : Reported db call e.id t) (h : step c call db = .ok db') :
    ∃ e' ∈ db'.executions, e'.id = e.id ∧
      e'.status = if canTransition e.status t = true then t else e.status := by
  obtain ⟨ctx, delivery, message, rfl, hnew, hid, htarget⟩ := hreported
  obtain ⟨run, hrun, hrunid⟩ := hs.run_of_execution e he
  have hstore := ExecutorEventService.store_effect ctx.now delivery message hs he
  have hhandle := ExecutorEventService.handle_of_consumes c ctx.now hs he hid hnew
  have hstatus : (ExecutorEventService.applyTo ctx.now message e e).status =
      if canTransition e.status t = true then t else e.status := by
    rw [ExecutorEventService.applyTo_status, htarget, ExecutorEventService.changesStatus_some]
    simp
  have hmem : ExecutorEventService.applyTo ctx.now message e e ∈
      (ExecutorEventService.store ctx.now delivery message e db).executions := by
    rw [hstore.executions, List.append_nil]
    exact List.mem_map_of_mem he
  refine ⟨ExecutorEventService.applyTo ctx.now message e e, ?_, hstore.keeps.id e, hstatus⟩
  have hstep : step c ⟨ctx, .executorEvent delivery message⟩ db =
      ExecutorEventService.handle c ctx.now delivery message db := rfl
  rw [hstep, hhandle] at h
  split at h
  · obtain ⟨-, -, -, created, db₁, -, hdispatch, rfl⟩ := ExecutorEventService.continueRun_ok
      hstore.sound ⟨run, hstore.runs ▸ hrun, hrunid⟩ h
    have hexec : ExecutorEventService.applyTo ctx.now message e e ∈ db₁.executions := by
      rw [hdispatch.executions, List.map_id']
      exact List.mem_append_left _ hmem
    exact hexec
  · obtain rfl := Except.ok.inj h
    exact hmem

/-! ## Convergence -/

/-- Every execution that the cancel puts into `canceling` has an executor and becomes final with
the terminal event that is handled while it is in `canceling`. -/
def Converges (c : Catalog) (db : Db) (cancel : Call) (later : List Call) : Prop :=
  ∀ db₁, step c cancel db = .ok db₁ → ∀ e ∈ db.executions, ∀ e₁ ∈ db₁.executions, e₁.id = e.id →
    e.status ≠ .canceling → e₁.status = .canceling → e.status ≠ .waitingApproval ∧
      ∀ between event, between ++ [event] <+: later → ∀ t, t.isFinalStatus = true →
        Reported (replay (step c) db₁ between) event e.id t →
          ∀ e₂ ∈ (replay (step c) db₁ between).executions, e₂.id = e.id → e₂.status = .canceling →
            ∀ db₃, step c event (replay (step c) db₁ between) = .ok db₃ →
              ∃ e₃ ∈ db₃.executions, e₃.id = e.id ∧ e₃.status.isFinalStatus = true

/-- No target of the cancel waits for an approval, and the terminal events that are handled while
they are in `canceling` report that they were canceled or failed. -/
def CancelsInTime (c : Catalog) (db : Db) (cancel : Call) (later : List Call) : Prop :=
  ∀ db₁, step c cancel db = .ok db₁ → ∀ e ∈ db.executions, targets cancel.operation e = true →
    e.status ≠ .canceling → e.status ≠ .waitingApproval ∧
      ∀ between event, between ++ [event] <+: later → ∀ t, t.isFinalStatus = true →
        Reported (replay (step c) db₁ between) event e.id t →
          ∀ e₂ ∈ (replay (step c) db₁ between).executions, e₂.id = e.id → e₂.status = .canceling →
            ∀ db₃, step c event (replay (step c) db₁ between) = .ok db₃ →
              t = .canceled ∨ t = .failed

theorem final_of_canceling_iff {t : JobExecutionStatus} :
    (if canTransition .canceling t = true then t else .canceling).isFinalStatus = true ↔
      t = .canceled ∨ t = .failed := by
  cases t <;> decide

/-- A terminal event ends a canceled execution exactly when the table accepts it. -/
theorem final_of_reported_iff {c : Catalog} {call : Call} {db db' : Db} {e : JobExecutionEntity}
    {t : JobExecutionStatus} (hs : Sound db) (he : e ∈ db.executions)
    (hcanceling : e.status = .canceling)
    (hreported : Reported db call e.id t) (h : step c call db = .ok db') :
    (∃ e' ∈ db'.executions, e'.id = e.id ∧ e'.status.isFinalStatus = true) ↔
      t = .canceled ∨ t = .failed := by
  obtain ⟨e', he', hid, hstatus⟩ := status_of_reported hs he hreported h
  rw [hcanceling] at hstatus
  rw [← final_of_canceling_iff, ← hstatus]
  constructor
  · rintro ⟨other, hother, hsame, hfinal⟩
    obtain rfl := (step_refines hs h).sound.executions_keyed.eq he' hother (hid.trans hsame.symm)
    exact hfinal
  · exact fun hfinal ↦ ⟨e', he', hid, hfinal⟩

/-- **Cancel converges** exactly when it is in time. -/
theorem converges_iff {c : Catalog} {db : Db} (hdb : Reachable c db) {cancel : Call}
    (hcancel : IsCancel cancel.operation) (later : List Call) :
    Converges c db cancel later ↔ CancelsInTime c db cancel later := by
  refine forall_congr' fun db₁ ↦ forall_congr' fun h ↦ forall₂_congr fun e he ↦ ?_
  have hs₁ : Sound db₁ := (step_refines hdb.sound h).sound
  obtain ⟨e₁, he₁, hid, hstatus⟩ := status_of_cancel hdb.sound hcancel h he
  have hput : e.status ≠ .canceling →
      (e₁.status = .canceling ↔ targets cancel.operation e = true) := by
    intro hne
    rw [hstatus]
    by_cases htarget : targets cancel.operation e = true
    · simp [htarget]
    · simp [htarget, hne]
  -- both sides speak of the same events of the same executions
  have hevents : ∀ between event t,
      Reported (replay (step c) db₁ between) event e.id t →
        ∀ e₂ ∈ (replay (step c) db₁ between).executions, e₂.id = e.id → e₂.status = .canceling →
          ∀ db₃, step c event (replay (step c) db₁ between) = .ok db₃ →
            ((∃ e₃ ∈ db₃.executions, e₃.id = e.id ∧ e₃.status.isFinalStatus = true) ↔
              t = .canceled ∨ t = .failed) := by
    intro between event t hreported e₂ he₂ hid₂ hcanceling db₃ h₃
    have hs₂ : Sound (replay (step c) db₁ between) :=
      replay_invariant' (fun _ _ _ hs h ↦ (step_refines hs h).sound) between hs₁
    rw [← hid₂] at hreported ⊢
    exact final_of_reported_iff hs₂ he₂ hcanceling hreported h₃
  constructor
  · intro hconverges htarget hne
    obtain ⟨hwaiting, hrest⟩ := hconverges e₁ he₁ hid hne ((hput hne).mpr htarget)
    refine ⟨hwaiting, fun between event hpre t ht hrep e₂ he₂ hid₂ hcanceling db₃ h₃ ↦ ?_⟩
    exact (hevents between event t hrep e₂ he₂ hid₂ hcanceling db₃ h₃).mp
      (hrest between event hpre t ht hrep e₂ he₂ hid₂ hcanceling db₃ h₃)
  · intro hintime other hother hsame hne hcanceling₁
    obtain rfl := hs₁.executions_keyed.eq he₁ hother (hid.trans hsame.symm)
    obtain ⟨hwaiting, hrest⟩ := hintime ((hput hne).mp hcanceling₁) hne
    refine ⟨hwaiting, fun between event hpre t ht hrep e₂ he₂ hid₂ hcanceling db₃ h₃ ↦ ?_⟩
    exact (hevents between event t hrep e₂ he₂ hid₂ hcanceling db₃ h₃).mpr
      (hrest between event hpre t ht hrep e₂ he₂ hid₂ hcanceling db₃ h₃)

/-- A job is running when its execution is canceled. -/
def runningJob : List Call :=
  [Small.call (.createRun 0 none), Small.deliver (Small.message 100 2 .running)]

theorem converges_iff_running : Converges Small.solo (history Small.solo runningJob)
    (Small.call (.cancelExecution 2)) [Small.deliver (Small.message 101 2 .success)] ↔
    CancelsInTime Small.solo (history Small.solo runningJob)
      (Small.call (.cancelExecution 2)) [Small.deliver (Small.message 101 2 .success)] := by
  have hcancel : IsCancel (Small.call (.cancelExecution 2)).operation := trivial
  exact converges_iff ⟨runningJob, rfl⟩ hcancel _

/-- The job succeeds before the cancel reaches it, and its execution is canceling for ever; so is
an execution that waited for an approval. -/
theorem canceled_for_ever :
    (∃ db₁ ∈ (step Small.solo (Small.call (.cancelExecution 2))
        (history Small.solo runningJob)).toOption, ∃ db₂ ∈
      (step Small.solo (Small.deliver (Small.message 101 2 .success)) db₁).toOption,
      ∃ e ∈ db₂.findExecution 2, e.status = .canceling) ∧
    ∃ e ∈ (history Small.guarded [Small.call (.createRun 0 none)]).findExecution 2,
      e.status = .waitingApproval ∧
      ∃ db₁ ∈ (step Small.guarded (Small.call (.cancelRun 0))
        (history Small.guarded [Small.call (.createRun 0 none)])).toOption,
        ∃ e₁ ∈ db₁.findExecution 2, e₁.status = .canceling := by
  decide +kernel

end FuzzingCiCd.Master
