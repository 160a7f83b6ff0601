import FuzzingCiCd.Master.EventRefinement

/-!
# Runs and each other's operations

All runs share the tables of the master, its identifiers and its watchdog. What happens to one of
them is nevertheless no business of the others: an operation moves a run only if it is addressed to
the run, to one of its executions or to one of its approvals, or if it is a tick of the watchdog and
an execution of the run has expired. So a run stays where it is for as long as only others are
addressed, and every operation but the tick moves one run at the most.
-/

namespace FuzzingCiCd.Master

open Transition

/-- The operation is about the run. -/
def Addresses (v : RunView) (call : Call) : Prop :=
  match call.operation with
  | .createRun _ _ => False
  | .createRunBySystem _ _ _ => False
  | .executorEvent _ message => ∃ e ∈ v.rows, message.jobExecutionId = some e.id
  | .cancelRun runId => runId = v.run.id
  | .cancelExecution executionId => ∃ e ∈ v.rows, e.id = executionId
  | .retryRun runId => runId = v.run.id
  | .retryExecution executionId => ∃ e ∈ v.rows, e.id = executionId
  | .approve approvalId => ∃ a ∈ v.approvals, a.id = approvalId
  | .reject approvalId => ∃ a ∈ v.approvals, a.id = approvalId
  | .checkTimeouts =>
    ∃ e ∈ v.rows, e.status = .running ∧ TimeoutWatchdog.isExpired call.context.now e = true

/-- The run is where it was: its row, the statuses of its executions and what was sent. -/
structure Unmoved (v v' : RunView) : Prop where
  run : v'.run = v.run
  rows : v'.rows.map (fun e ↦ (e.id, e.jobId, e.attempt, e.status)) =
    v.rows.map fun e ↦ (e.id, e.jobId, e.attempt, e.status)
  dispatched : v'.dispatched = v.dispatched

theorem Db.id_of_view {db : Db} {r : UUID} {v : RunView} (h : db.view r = some v) :
    v.run.id = r := by
  simpa using List.find?_some (Db.view_eq_some h).1

section Steps

variable {c : Catalog} {db db' : Db} {call : Call} {v v' w : RunView} {r q : UUID}

theorem Unmoved.refl (v : RunView) : Unmoved v v := ⟨rfl, rfl, rfl⟩

theorem Unmoved.trans (h : Unmoved v v') (h' : Unmoved v' w) : Unmoved v w :=
  ⟨h'.run.trans h.run, h'.rows.trans h.rows, h'.dispatched.trans h.dispatched⟩

theorem ViewEffect.unmoved {u : JobExecutionEntity → JobExecutionEntity}
    (h : ViewEffect v v' u [] []) (hstatus : ∀ e ∈ v.rows, (u e).status = e.status)
    (hrun : v'.run = v.run) : Unmoved v v' := by
  refine ⟨hrun, ?_, by rw [h.dispatched, List.append_nil]⟩
  rw [h.rows, List.append_nil, List.map_map]
  refine List.map_congr_left fun e he ↦ ?_
  rw [Function.comp_apply, h.keeps.id, h.keeps.jobId, h.keeps.attempt, hstatus e he]

/-- **One step.** An operation that is not about the run does not move it. -/
theorem RunStep.unmoved (h : RunStep c db call v v') (hcall : ¬ Addresses v call) :
    Unmoved v v' := by
  cases h with
  | idle _ heffect hstatus hrun => exact heffect.unmoved hstatus hrun
  | move _ hx hid => exact absurd ⟨_, hx, hid⟩ hcall
  | finish _ hx hid => exact absurd ⟨_, hx, hid⟩ hcall
  | cancelRun => exact absurd rfl hcall
  | cancelExecution hx => exact absurd ⟨_, hx, rfl⟩ hcall
  | retryRun => exact absurd rfl hcall
  | retryExecution hx => exact absurd ⟨_, hx, rfl⟩ hcall
  | approve _ happroval => exact absurd ⟨_, happroval, rfl⟩ hcall
  | reject _ happroval => exact absurd ⟨_, happroval, rfl⟩ hcall
  | checkTimeouts heffect hstatus hrun =>
    -- the tick passes over executions that have not expired
    refine heffect.unmoved (fun e he ↦ ?_) hrun
    rw [hstatus e he, if_neg fun hexpired ↦ hcall ⟨e, he, hexpired⟩]

/-- The tick moves exactly the runs with an execution that has expired. -/
theorem RunStep.unmoved_tick_iff {ctx : CallContext}
    (h : RunStep c db ⟨ctx, .checkTimeouts⟩ v v') :
    Unmoved v v' ↔ ¬ Addresses v ⟨ctx, .checkTimeouts⟩ := by
  refine ⟨fun hsame ⟨e, he, hexpired⟩ ↦ ?_, h.unmoved⟩
  cases h with
  | idle hidle => exact hidle
  | checkTimeouts heffect hstatus hrun =>
    have hrows := hsame.rows
    rw [heffect.rows, List.append_nil, List.map_map, List.map_inj_left] at hrows
    have hkept := congrArg (fun row ↦ row.2.2.2) (hrows e he)
    rw [Function.comp_apply, hstatus e he, if_pos hexpired, hexpired.1] at hkept
    cases hkept

theorem eq_of_row (hs : Sound db) (hv : db.view r = some v) (hw : db.view q = some w)
    {executionId : UUID} (h : ∃ e ∈ v.rows, e.id = executionId)
    (h' : ∃ e ∈ w.rows, e.id = executionId) : r = q := by
  obtain ⟨e, he, hid⟩ := h
  obtain ⟨f, hf, hid'⟩ := h'
  obtain ⟨hmem, rfl⟩ := (mem_rows hv).mp he
  obtain ⟨hmem', rfl⟩ := (mem_rows hw).mp hf
  rw [hs.executions_keyed.eq hmem hmem' (hid.trans hid'.symm)]

theorem eq_of_approval (hs : Sound db) (hv : db.view r = some v) (hw : db.view q = some w)
    {approvalId : UUID} (h : ∃ a ∈ v.approvals, a.id = approvalId)
    (h' : ∃ a ∈ w.approvals, a.id = approvalId) : r = q := by
  obtain ⟨a, ha, hid⟩ := h
  obtain ⟨b, hb, hid'⟩ := h'
  obtain ⟨hmem, rfl⟩ := (mem_approvals hv).mp ha
  obtain ⟨hmem', rfl⟩ := (mem_approvals hw).mp hb
  rw [hs.approvals_keyed.eq hmem hmem' (hid.trans hid'.symm)]

/-- What an operation is about belongs to one run, unless it is a tick of the watchdog. -/
theorem Addresses.eq (hs : Sound db) (hv : db.view r = some v) (hw : db.view q = some w)
    (htick : call.operation ≠ .checkTimeouts) (h : Addresses v call) (h' : Addresses w call) :
    r = q := by
  have hrun : ∀ {runId}, runId = v.run.id → runId = w.run.id → r = q := by
    intro runId hid hid'
    rw [← Db.id_of_view hv, ← Db.id_of_view hw, ← hid, ← hid']
  obtain ⟨ctx, operation⟩ := call
  cases operation with
  | createRun pipelineId request => exact h.elim
  | createRunBySystem pipelineId triggerType payload => exact h.elim
  | executorEvent delivery message =>
    obtain ⟨e, he, hid⟩ := h
    obtain ⟨f, hf, hid'⟩ := h'
    exact eq_of_row hs hv hw ⟨e, he, rfl⟩ ⟨f, hf, Option.some.inj (hid'.symm.trans hid)⟩
  | cancelRun runId => exact hrun h h'
  | cancelExecution executionId => exact eq_of_row hs hv hw h h'
  | retryRun runId => exact hrun h h'
  | retryExecution executionId => exact eq_of_row hs hv hw h h'
  | approve approvalId => exact eq_of_approval hs hv hw h h'
  | reject approvalId => exact eq_of_approval hs hv hw h h'
  | checkTimeouts => exact absurd rfl htick

end Steps

/-! ## The results -/

/-- **Isolation.** Whatever happens, a run stays where it is until something is about it. -/
theorem unmoved_of_unaddressed {c : Catalog} {db : Db} {r : UUID} {v : RunView}
    (hdb : Reachable c db) (hv : db.view r = some v) {later : List Call}
    (hlater : Along (step c) (PermittedOn c r fun _ v call ↦ ¬ Addresses v call) db later) :
    ∃ v', (replay (step c) db later).view r = some v' ∧ Unmoved v v' :=
  view_continuation (I := Unmoved v) (fun _ _ _ _ hv hcall h ↦ hv.trans (h.unmoved hcall)) hdb hv
    (.refl v) hlater

/-- A run is created. -/
def Small.oneRun : List Call := [Small.call (.createRun 0 none)]

/-- Two runs are created. -/
def Small.twoRuns : List Call := Small.oneRun ++ [Small.call (.createRun 0 none)]

/-- Another run is created and canceled. -/
def Small.otherRun : List Call := [Small.call (.createRun 0 none), Small.call (.cancelRun 5)]

theorem unmoved_otherRun : ∃ v, (history Small.solo Small.oneRun).view 0 = some v ∧
    ∃ v', (replay (step Small.solo) (history Small.solo Small.oneRun) Small.otherRun).view 0 =
      some v' ∧ Unmoved v v' := by
  obtain ⟨v, hv⟩ : ∃ v, (history Small.solo Small.oneRun).view 0 = some v :=
    Option.isSome_iff_exists.mp (by decide +kernel)
  refine ⟨v, hv, unmoved_of_unaddressed ⟨_, rfl⟩ hv ⟨fun _ _ _ _ h ↦ h, ?_, trivial⟩⟩
  intro db' _ w hw hcall
  exact absurd (hcall.trans (Db.id_of_view hw)) (by decide)

/-- **One run at a time.** Every operation but a tick of the watchdog moves one run at the most. -/
theorem exists_unmoved_of_ne {c : Catalog} {db db' : Db} {call : Call} (hdb : Reachable c db)
    (htick : call.operation ≠ .checkTimeouts) (h : step c call db = .ok db') :
    ∃ r, ∀ q v, q ≠ r → db.view q = some v → ∃ v', db'.view q = some v' ∧ Unmoved v v' := by
  have hunmoved : ∀ q v, db.view q = some v → ¬ Addresses v call →
      ∃ v', db'.view q = some v' ∧ Unmoved v v' := by
    intro q v hv hcall
    obtain ⟨v', hv', hstep⟩ := (step_refines hdb.sound h).old q v hv
    exact ⟨v', hv', hstep.unmoved hcall⟩
  by_cases haddressed : ∃ r v, db.view r = some v ∧ Addresses v call
  · obtain ⟨r, v, hv, hcall⟩ := haddressed
    refine ⟨r, fun q w hq hw ↦ hunmoved q w hw fun hcall' ↦ hq ?_⟩
    exact hcall'.eq hdb.sound hw hv htick hcall
  · exact ⟨0, fun q w _ hw ↦ hunmoved q w hw fun hcall ↦ haddressed ⟨q, w, hw, hcall⟩⟩

theorem exists_unmoved_canceled : ∃ db',
    step Small.solo (Small.call (.cancelRun 5))
      (history Small.solo Small.twoRuns) = .ok db' ∧
    ∃ r, ∀ q v, q ≠ r → (history Small.solo Small.twoRuns).view q = some v →
      ∃ v', db'.view q = some v' ∧ Unmoved v v' := by
  have hok : (step Small.solo (Small.call (.cancelRun 5))
      (history Small.solo Small.twoRuns)).toBool = true := by decide +kernel
  cases h : step Small.solo (Small.call (.cancelRun 5))
      (history Small.solo Small.twoRuns) with
  | error e =>
    rw [h] at hok
    exact absurd hok Bool.false_ne_true
  | ok db' => exact ⟨db', rfl, exists_unmoved_of_ne ⟨_, rfl⟩ (by decide) h⟩

end FuzzingCiCd.Master
