import FuzzingCiCd.Master.Operations

/-!
# Sound databases

`Sound` collects what the keys, references and fresh identifiers of the schema guarantee. It is
preserved by everything the services do and is what allows a saved row to be read as a change of
one row or as a new one.

The additions and updates that services make through `save` are named here, with a lemma for each
that says when saving is one of them.

## How it is used

A row that was read and changed is saved as an update of that row, and a row with a drawn identifier
as a new one (`drawIds`). Updates of the rows that pass a test are `Keeps.ite`, and an operation
that touches a table nobody refers to is `of_tables`.
-/

namespace FuzzingCiCd.Master

open Transition

/-! ## Readings of the database -/

namespace Db

variable (db : Db)

/-- The executions of a run with an approval to decide. -/
def awaiting (runId : UUID) : List UUID :=
  (db.approvals.filter fun approval ↦
    approval.pipelineRunId = runId && approval.status = .pending).map
      DeploymentApprovalEntity.jobExecutionId

/-- The execution that a dispatched message of a run is for. -/
def dispatchTarget (runId : UUID) (event : OutboxEventEntity) : Option UUID :=
  match event.payload with
  | .job message =>
    if event.eventType = "job.dispatch" ∧ message.pipelineRunId = runId then
      some message.jobExecutionId
    else none
  | .cancel _ => none

/-- The executions of a run for which a `job.dispatch` event was written, once for each event. -/
def dispatched (runId : UUID) : List UUID := db.outbox.filterMap (dispatchTarget runId)

end Db

/-! ## Adding rows

What saving a row under the next identifier amounts to in a sound database. -/

namespace Db

variable (db : Db)

def addRun (run : PipelineRunEntity) : Db := { db.drawIds 2 with runs := db.runs ++ [run] }

def addExecution (e : JobExecutionEntity) : Db :=
  { db.drawIds 1 with executions := db.executions ++ [e] }

def addApproval (a : DeploymentApprovalEntity) : Db :=
  { db.drawIds 1 with approvals := db.approvals ++ [a] }

def addOutboxEvent (event : OutboxEventEntity) : Db :=
  { db.drawIds 1 with outbox := db.outbox ++ [event] }

def mapExecutions (u : JobExecutionEntity → JobExecutionEntity) : Db :=
  { db with executions := db.executions.map u }

def updateRun (r : UUID) (f : PipelineRunEntity → PipelineRunEntity) : Db :=
  { db with runs := Table.update PipelineRunEntity.id r f db.runs }

def updateApproval (k : UUID) (f : DeploymentApprovalEntity → DeploymentApprovalEntity) : Db :=
  { db with approvals := Table.update DeploymentApprovalEntity.id k f db.approvals }

end Db

/-! ## Soundness

`Sound` holds in the empty database, and every way in which the services change the tables keeps
it: drawing identifiers, adding a row and changing rows by a map that `Keeps` their keys. The
services are made of these changes, so the proofs about them cite the lemmas here and never go
through the tables again. -/

/-- Keys are unique, rows carry identifiers drawn before, and references lead to rows. -/
structure Sound (db : Db) : Prop where
  runs_keyed : Table.Keyed PipelineRunEntity.id db.runs
  executions_keyed : Table.Keyed JobExecutionEntity.id db.executions
  approvals_keyed : Table.Keyed DeploymentApprovalEntity.id db.approvals
  runs_lt : ∀ run ∈ db.runs, run.id < db.nextId
  executions_lt : ∀ execution ∈ db.executions, execution.id < db.nextId
  approvals_lt : ∀ approval ∈ db.approvals,
    approval.id < db.nextId ∧ approval.jobExecutionId < db.nextId
  outbox_lt : ∀ event ∈ db.outbox, event.id < db.nextId
  dispatched_lt : ∀ event ∈ db.outbox, ∀ message, event.payload = .job message →
    message.pipelineRunId < db.nextId
  run_of_execution : ∀ execution ∈ db.executions, ∃ run ∈ db.runs, run.id = execution.pipelineRunId
  approval_run : ∀ approval ∈ db.approvals, ∀ execution ∈ db.executions,
    execution.id = approval.jobExecutionId → execution.pipelineRunId = approval.pipelineRunId

theorem sound_empty : Sound Db.empty := by
  constructor <;> simp [Db.empty, Table.Keyed]

/-- An update that changes neither the key of a row nor what it belongs to. -/
structure Keeps (u : JobExecutionEntity → JobExecutionEntity) : Prop where
  id : ∀ e, (u e).id = e.id
  pipelineRunId : ∀ e, (u e).pipelineRunId = e.pipelineRunId
  jobId : ∀ e, (u e).jobId = e.jobId
  attempt : ∀ e, (u e).attempt = e.attempt

theorem keeps_id : Keeps fun e ↦ e := ⟨fun _ ↦ rfl, fun _ ↦ rfl, fun _ ↦ rfl, fun _ ↦ rfl⟩

theorem Keeps.comp {u v : JobExecutionEntity → JobExecutionEntity} (hv : Keeps v) (hu : Keeps u) :
    Keeps fun e ↦ v (u e) := by
  constructor <;> intro e
  · rw [hv.id, hu.id]
  · rw [hv.pipelineRunId, hu.pipelineRunId]
  · rw [hv.jobId, hu.jobId]
  · rw [hv.attempt, hu.attempt]

theorem Keeps.ite {u : JobExecutionEntity → JobExecutionEntity} (hu : Keeps u)
    (p : JobExecutionEntity → Prop) [DecidablePred p] : Keeps fun e ↦ if p e then u e else e := by
  constructor <;> intro e <;> by_cases h : p e <;> simp only [h, if_true, if_false]
  · exact hu.id e
  · exact hu.pipelineRunId e
  · exact hu.jobId e
  · exact hu.attempt e

namespace Sound

variable {db : Db}

theorem findRun (hs : Sound db) {r : UUID} {run : PipelineRunEntity} :
    db.findRun r = some run ↔ run ∈ db.runs ∧ run.id = r :=
  Table.findById_eq_some hs.runs_keyed

theorem findExecution (hs : Sound db) {x : UUID} {e : JobExecutionEntity} :
    db.findExecution x = some e ↔ e ∈ db.executions ∧ e.id = x :=
  Table.findById_eq_some hs.executions_keyed

/-- Drawing identifiers. -/
theorem drawIds (hs : Sound db) (n : ℕ) : Sound (db.drawIds n) where
  runs_keyed := hs.runs_keyed
  executions_keyed := hs.executions_keyed
  approvals_keyed := hs.approvals_keyed
  runs_lt run h := (hs.runs_lt run h).trans_le (Nat.le_add_right _ _)
  executions_lt e h := (hs.executions_lt e h).trans_le (Nat.le_add_right _ _)
  approvals_lt a h := ⟨(hs.approvals_lt a h).1.trans_le (Nat.le_add_right _ _),
    (hs.approvals_lt a h).2.trans_le (Nat.le_add_right _ _)⟩
  outbox_lt e h := (hs.outbox_lt e h).trans_le (Nat.le_add_right _ _)
  dispatched_lt e h m hm := (hs.dispatched_lt e h m hm).trans_le (Nat.le_add_right _ _)
  run_of_execution := hs.run_of_execution
  approval_run := hs.approval_run

theorem mapExecutions (hs : Sound db) {u : JobExecutionEntity → JobExecutionEntity}
    (hu : Keeps u) : Sound (db.mapExecutions u) where
  runs_keyed := hs.runs_keyed
  executions_keyed := (Table.keyed_map hu.id).mpr hs.executions_keyed
  approvals_keyed := hs.approvals_keyed
  runs_lt := hs.runs_lt
  executions_lt := by
    intro _ h
    obtain ⟨e, he, rfl⟩ := List.mem_map.mp h
    rw [hu.id]
    exact hs.executions_lt e he
  approvals_lt := hs.approvals_lt
  outbox_lt := hs.outbox_lt
  dispatched_lt := hs.dispatched_lt
  run_of_execution := by
    intro _ h
    obtain ⟨e, he, rfl⟩ := List.mem_map.mp h
    rw [hu.pipelineRunId]
    exact hs.run_of_execution e he
  approval_run := by
    intro a ha _ h hid
    obtain ⟨e, he, rfl⟩ := List.mem_map.mp h
    rw [hu.id] at hid
    rw [hu.pipelineRunId]
    exact hs.approval_run a ha e he hid

theorem addExecution (hs : Sound db) {e : JobExecutionEntity} (hid : e.id = db.nextId)
    (hrun : ∃ run ∈ db.runs, run.id = e.pipelineRunId) : Sound (db.addExecution e) where
  runs_keyed := hs.runs_keyed
  executions_keyed := by
    refine Table.keyed_append.mpr ⟨hs.executions_keyed, by simp [Table.Keyed], ?_⟩
    intro x hx y hy
    rw [List.mem_singleton.mp hy, hid]
    exact (hs.executions_lt x hx).ne
  approvals_keyed := hs.approvals_keyed
  runs_lt := (hs.drawIds 1).runs_lt
  executions_lt := by
    intro x hx
    rcases List.mem_append.mp hx with hx | hx
    · exact (hs.drawIds 1).executions_lt x hx
    · rw [List.mem_singleton.mp hx, hid]
      exact Nat.lt_succ_self _
  approvals_lt := (hs.drawIds 1).approvals_lt
  outbox_lt := (hs.drawIds 1).outbox_lt
  dispatched_lt := (hs.drawIds 1).dispatched_lt
  run_of_execution := by
    intro x hx
    rcases List.mem_append.mp hx with hx | hx
    · exact hs.run_of_execution x hx
    · rw [List.mem_singleton.mp hx]
      exact hrun
  approval_run := by
    intro a ha x hx hax
    rcases List.mem_append.mp hx with hx | hx
    · exact hs.approval_run a ha x hx hax
    · rw [List.mem_singleton.mp hx, hid] at hax
      exact absurd hax (hs.approvals_lt a ha).2.ne'

theorem addApproval (hs : Sound db) {a : DeploymentApprovalEntity} (hid : a.id = db.nextId)
    (hlt : a.jobExecutionId < db.nextId)
    (hrun : ∀ e ∈ db.executions, e.id = a.jobExecutionId → e.pipelineRunId = a.pipelineRunId) :
    Sound (db.addApproval a) where
  runs_keyed := hs.runs_keyed
  executions_keyed := hs.executions_keyed
  approvals_keyed := by
    refine Table.keyed_append.mpr ⟨hs.approvals_keyed, by simp [Table.Keyed], ?_⟩
    intro x hx y hy
    rw [List.mem_singleton.mp hy, hid]
    exact (hs.approvals_lt x hx).1.ne
  runs_lt := (hs.drawIds 1).runs_lt
  executions_lt := (hs.drawIds 1).executions_lt
  approvals_lt := by
    intro x hx
    rcases List.mem_append.mp hx with hx | hx
    · exact (hs.drawIds 1).approvals_lt x hx
    · rw [List.mem_singleton.mp hx, hid]
      exact ⟨Nat.lt_succ_self _, hlt.trans (Nat.lt_succ_self _)⟩
  outbox_lt := (hs.drawIds 1).outbox_lt
  dispatched_lt := (hs.drawIds 1).dispatched_lt
  run_of_execution := hs.run_of_execution
  approval_run := by
    intro x hx
    rcases List.mem_append.mp hx with hx | hx
    · exact hs.approval_run x hx
    · rw [List.mem_singleton.mp hx]
      exact hrun

theorem addOutboxEvent (hs : Sound db) {e : OutboxEventEntity} (hid : e.id = db.nextId)
    (hrun : ∀ message, e.payload = .job message → message.pipelineRunId < db.nextId) :
    Sound (db.addOutboxEvent e) where
  runs_keyed := hs.runs_keyed
  executions_keyed := hs.executions_keyed
  approvals_keyed := hs.approvals_keyed
  runs_lt := (hs.drawIds 1).runs_lt
  executions_lt := (hs.drawIds 1).executions_lt
  approvals_lt := (hs.drawIds 1).approvals_lt
  outbox_lt := by
    intro x hx
    rcases List.mem_append.mp hx with hx | hx
    · exact (hs.drawIds 1).outbox_lt x hx
    · rw [List.mem_singleton.mp hx, hid]
      exact Nat.lt_succ_self _
  dispatched_lt := by
    intro x hx message hm
    rcases List.mem_append.mp hx with hx | hx
    · exact (hs.drawIds 1).dispatched_lt x hx message hm
    · rw [List.mem_singleton.mp hx] at hm
      exact (hrun message hm).trans (Nat.lt_succ_self _)
  run_of_execution := hs.run_of_execution
  approval_run := hs.approval_run

theorem addRun (hs : Sound db) {run : PipelineRunEntity} (hid : run.id = db.nextId) :
    Sound (db.addRun run) where
  runs_keyed := by
    refine Table.keyed_append.mpr ⟨hs.runs_keyed, by simp [Table.Keyed], ?_⟩
    intro x hx y hy
    rw [List.mem_singleton.mp hy, hid]
    exact (hs.runs_lt x hx).ne
  executions_keyed := hs.executions_keyed
  approvals_keyed := hs.approvals_keyed
  runs_lt := by
    intro x hx
    rcases List.mem_append.mp hx with hx | hx
    · exact (hs.drawIds 2).runs_lt x hx
    · rw [List.mem_singleton.mp hx, hid]
      exact Nat.lt_add_of_pos_right (Nat.succ_pos 1)
  executions_lt := (hs.drawIds 2).executions_lt
  approvals_lt := (hs.drawIds 2).approvals_lt
  outbox_lt := (hs.drawIds 2).outbox_lt
  dispatched_lt := (hs.drawIds 2).dispatched_lt
  run_of_execution := by
    intro e he
    obtain ⟨run, hrun, hid⟩ := hs.run_of_execution e he
    exact ⟨run, List.mem_append_left _ hrun, hid⟩
  approval_run := hs.approval_run

theorem updateRun (hs : Sound db) {f : PipelineRunEntity → PipelineRunEntity}
    (hf : ∀ run, (f run).id = run.id) (r : UUID) :
    Sound (db.updateRun r f) where
  runs_keyed := (Table.keyed_update hf r).mpr hs.runs_keyed
  executions_keyed := hs.executions_keyed
  approvals_keyed := hs.approvals_keyed
  runs_lt := by
    intro _ h
    obtain ⟨run, hrun, hid⟩ := Table.exists_of_mem_update hf h
    exact hid ▸ hs.runs_lt run hrun
  executions_lt := hs.executions_lt
  approvals_lt := hs.approvals_lt
  outbox_lt := hs.outbox_lt
  dispatched_lt := hs.dispatched_lt
  run_of_execution := by
    intro e he
    obtain ⟨run, hrun, hid⟩ := hs.run_of_execution e he
    exact ⟨_, List.mem_map_of_mem hrun, (Table.key_update hf r run).trans hid⟩
  approval_run := hs.approval_run

/-- Tables that nothing refers to may change. -/
theorem of_tables (hs : Sound db) {db' : Db} (hruns : db'.runs = db.runs)
    (hexec : db'.executions = db.executions) (happr : db'.approvals = db.approvals)
    (hout : db'.outbox = db.outbox) (hid : db.nextId ≤ db'.nextId) : Sound db' where
  runs_keyed := hruns ▸ hs.runs_keyed
  executions_keyed := hexec ▸ hs.executions_keyed
  approvals_keyed := happr ▸ hs.approvals_keyed
  runs_lt run h := (hs.runs_lt run (hruns ▸ h)).trans_le hid
  executions_lt e h := (hs.executions_lt e (hexec ▸ h)).trans_le hid
  approvals_lt a h := ⟨(hs.approvals_lt a (happr ▸ h)).1.trans_le hid,
    (hs.approvals_lt a (happr ▸ h)).2.trans_le hid⟩
  outbox_lt e h := (hs.outbox_lt e (hout ▸ h)).trans_le hid
  dispatched_lt e h m hm := (hs.dispatched_lt e (hout ▸ h) m hm).trans_le hid
  run_of_execution := by
    rw [hexec, hruns]
    exact hs.run_of_execution
  approval_run := by
    rw [happr, hexec]
    exact hs.approval_run

theorem updateApproval (hs : Sound db) {f : DeploymentApprovalEntity → DeploymentApprovalEntity}
    (hid : ∀ a, (f a).id = a.id) (hexec : ∀ a, (f a).jobExecutionId = a.jobExecutionId)
    (hrun : ∀ a, (f a).pipelineRunId = a.pipelineRunId) (k : UUID) :
    Sound (db.updateApproval k f) where
  runs_keyed := hs.runs_keyed
  executions_keyed := hs.executions_keyed
  approvals_keyed := (Table.keyed_update hid k).mpr hs.approvals_keyed
  runs_lt := hs.runs_lt
  executions_lt := hs.executions_lt
  approvals_lt := by
    intro _ h
    obtain ⟨a, ha, rfl⟩ := List.mem_map.mp h
    have hlt := hs.approvals_lt a ha
    by_cases h : a.id = k
    · rw [if_pos h, hid, hexec]
      exact hlt
    · rw [if_neg h]
      exact hlt
  outbox_lt := hs.outbox_lt
  dispatched_lt := hs.dispatched_lt
  run_of_execution := hs.run_of_execution
  approval_run := by
    intro _ h e he hax
    obtain ⟨a, ha, rfl⟩ := List.mem_map.mp h
    by_cases h : a.id = k
    · rw [if_pos h, hexec] at hax
      rw [if_pos h, hrun]
      exact hs.approval_run a ha e he hax
    · rw [if_neg h] at hax ⊢
      exact hs.approval_run a ha e he hax

end Sound

/-! ## Saving in a sound database -/

theorem saveExecution_update {db : Db} (hs : Sound db) {e : JobExecutionEntity}
    (he : e ∈ db.executions) {f : JobExecutionEntity → JobExecutionEntity} (hf : (f e).id = e.id) :
    db.saveExecution (f e) = db.mapExecutions fun x ↦ if x.id = e.id then f x else x := by
  rw [Db.saveExecution, Table.save_update hs.executions_keyed he f hf]
  rfl

theorem saveRun_update {db : Db} (hs : Sound db) {run : PipelineRunEntity} (hrun : run ∈ db.runs)
    {f : PipelineRunEntity → PipelineRunEntity} (hf : (f run).id = run.id) :
    db.saveRun (f run) = db.updateRun run.id f := by
  rw [Db.saveRun, Table.save_update hs.runs_keyed hrun f hf]
  rfl

theorem saveApproval_update {db : Db} (hs : Sound db) {a : DeploymentApprovalEntity}
    (ha : a ∈ db.approvals) {f : DeploymentApprovalEntity → DeploymentApprovalEntity}
    (hf : (f a).id = a.id) : db.saveApproval (f a) = db.updateApproval a.id f := by
  rw [Db.saveApproval, Table.save_update hs.approvals_keyed ha f hf]
  rfl

theorem saveRun_fresh {db : Db} (hs : Sound db) {run : PipelineRunEntity}
    (hrun : run.id = db.nextId) : (db.drawIds 2).saveRun run = db.addRun run := by
  rw [Db.saveRun, Table.save_fresh]
  · rfl
  · exact fun x hx ↦ hrun ▸ (hs.runs_lt x hx).ne

theorem saveExecution_fresh {db : Db} (hs : Sound db) {e : JobExecutionEntity}
    (he : e.id = db.nextId) : (db.drawIds 1).saveExecution e = db.addExecution e := by
  rw [Db.saveExecution, Table.save_fresh]
  · rfl
  · exact fun x hx ↦ he ▸ (hs.executions_lt x hx).ne

theorem saveExecution_added {db : Db} (hs : Sound db) {e e' : JobExecutionEntity}
    (he : e.id = db.nextId) (he' : e'.id = e.id) :
    (db.addExecution e).saveExecution e' = db.addExecution e' := by
  rw [Db.saveExecution, Db.addExecution, Table.save_last _ he']
  · rfl
  · exact fun x hx ↦ he ▸ (hs.executions_lt x hx).ne

theorem saveApproval_fresh {db : Db} (hs : Sound db) {a : DeploymentApprovalEntity}
    (ha : a.id = db.nextId) : (db.drawIds 1).saveApproval a = db.addApproval a := by
  rw [Db.saveApproval, Table.save_fresh]
  · rfl
  · exact fun x hx ↦ ha ▸ (hs.approvals_lt x hx).1.ne

theorem outboxEnqueue_eq {db : Db} (hs : Sound db) (now : Instant) (aggregateType : String)
    (aggregateId : UUID) (eventType topic : String) (messageKey : UUID) (payload : OutboxPayload) :
    outboxEnqueue now aggregateType aggregateId eventType topic messageKey payload db =
      db.addOutboxEvent (newOutboxEvent now db.nextId aggregateType aggregateId eventType topic
        messageKey payload) := by
  rw [outboxEnqueue, Db.saveOutboxEvent, Table.save_fresh]
  · rfl
  · exact fun e he ↦ (hs.outbox_lt e he).ne

end FuzzingCiCd.Master
