import FuzzingCiCd.Foundation.WriteBack
import FuzzingCiCd.Master.EventRefinement

/-!
# Concurrent updates of an execution

Events, both ways to cancel and the watchdog read the row of an execution, decide with the status
they have read, and write the whole row back when they commit. No row is locked and no version is
checked. An event writes its row back even where its status is refused, with the status that it has
read.

Each of these transactions leaves a final status alone when nothing interferes. In a run of many,
`finalsAbsorbed_iff` says when a final status that is committed stays: no transaction may commit a
row that it has read before. `overtaken_iff` says it in the statuses of the row that was read and of
the event, and `finalsAbsorbed_of_current` is the rule without them: a final status stays when every
transaction commits on the status that is stored.
-/

namespace FuzzingCiCd.Master

open Transition PipelineRunService

/-! ## Transactions on one row -/

/-- A transaction that can write the row of an execution. -/
inductive RowTransaction where
  | handle (now : Instant) (message : ExecutorEventMessage)
  | cancel (now : Instant)
  | cancelRun (now : Instant)
  | checkTimeouts (now : Instant)
  | retryExecution (now : Instant) (job : JobEntity)

namespace RowTransaction

/-- The row that the transaction writes back, if any. -/
def write : RowTransaction → JobExecutionEntity → Option JobExecutionEntity
  | .handle now message, e =>
    let target := ExecutorEventService.mapStatus message.status
    some (ExecutorEventService.applyEvent now message
      (ExecutorEventService.changesStatus e.status target) target e)
  | .cancel now, e =>
    if e.status = .success || e.status = .failed || e.status = .timeout || e.status = .canceled ||
        e.status = .skipped then none
    else some (e.setStatus .canceling now)
  | .cancelRun now, e =>
    if e.status.isActive then some (e.setStatus .canceling now) else none
  | .checkTimeouts now, e =>
    if e.status = .running ∧ TimeoutWatchdog.isExpired now e = true then
      some (e.finish .timeout now)
    else none
  | .retryExecution now job, e =>
    if PipelineRunService.isRetryCandidate e job then some (e.setStatus .retrying now) else none

/-- An explicit retry. -/
def IsRetry : RowTransaction → Prop
  | .retryExecution _ _ => True
  | _ => False

/-- **Alone.** A transaction that reads a final status writes it back. -/
theorem status_of_write {t : RowTransaction} (ht : ¬ t.IsRetry) {e e' : JobExecutionEntity}
    (hfinal : e.status.isFinalStatus = true) (h : t.write e = some e') : e'.status = e.status := by
  rcases t with ⟨now, message⟩ | now | now | now | ⟨now, job⟩
  · obtain rfl := Option.some.inj h
    rw [ExecutorEventService.applyEvent]
    dsimp only
    rcases hmap : ExecutorEventService.mapStatus message.status with _ | target
    · exact ite_self _
    by_cases hchange : ExecutorEventService.changesStatus e.status (some target) = true
    · rw [if_pos hchange]
      exact JobExecutionStatus.eq_of_canTransition_of_final hfinal hchange
    · rw [if_neg hchange]
  · rw [write, if_pos (by simpa [JobExecutionStatus.isFinalStatus] using hfinal)] at h
    cases h
  · rw [write, JobExecutionStatus.not_active_of_final hfinal, if_neg Bool.false_ne_true] at h
    cases h
  · rw [write, if_neg] at h
    · cases h
    · rintro ⟨hrunning, -⟩
      rw [hrunning] at hfinal
      cases hfinal
  · exact absurd trivial ht

/-- What the transaction decides on the row that it has read puts another status in the place of the
given final one. -/
def Replaces (t : RowTransaction) (e : JobExecutionEntity) (status : JobExecutionStatus) : Prop :=
  match t with
  | .handle _ message =>
    ¬ (ExecutorEventService.mapStatus message.status = some status ∧
      canTransition e.status status = true)
  | .cancel _ => e.status.isFinalStatus = false
  | .cancelRun _ => e.status.isActive = true
  | .checkTimeouts now =>
    e.status = .running ∧ TimeoutWatchdog.isExpired now e = true ∧ status ≠ .timeout
  | .retryExecution _ _ => False

/-- **The status that is written** follows from the row that was read and the status of the
event. -/
theorem replaces_iff {t : RowTransaction} (ht : ¬ t.IsRetry) {e : JobExecutionEntity}
    {status : JobExecutionStatus} (hfinal : status.isFinalStatus = true)
    (hne : e.status ≠ status) :
    (∃ e' ∈ t.write e, e'.status ≠ status) ↔ t.Replaces e status := by
  have hcanceling : JobExecutionStatus.canceling ≠ status := by
    rintro rfl
    cases hfinal
  rcases t with ⟨now, message⟩ | now | now | now | ⟨now, job⟩
  · rw [write, Replaces]
    simp only [Option.mem_def, Option.some.injEq, exists_eq_left']
    rw [ExecutorEventService.applyEvent]
    dsimp only
    rcases hmap : ExecutorEventService.mapStatus message.status with _ | target
    · simpa using hne
    by_cases hchange : ExecutorEventService.changesStatus e.status (some target) = true
    · rw [if_pos hchange]
      refine not_congr ⟨fun h ↦ ?_, fun h ↦ Option.some.inj h.1⟩
      exact ⟨congrArg some h, h ▸ hchange⟩
    · rw [if_neg hchange]
      refine iff_of_true hne fun h ↦ hchange ?_
      rw [h.1]
      exact h.2
  · rw [write, Replaces]
    by_cases h : e.status.isFinalStatus = true
    · rw [if_pos (by simpa [JobExecutionStatus.isFinalStatus] using h)]
      simp [h]
    · rw [if_neg (by simpa [JobExecutionStatus.isFinalStatus] using h)]
      simpa [h, JobExecutionEntity.setStatus] using hcanceling
  · rw [write, Replaces]
    by_cases h : e.status.isActive = true
    · rw [if_pos h]
      simpa [h, JobExecutionEntity.setStatus] using hcanceling
    · rw [if_neg h]
      simp [h]
  · rw [write, Replaces]
    by_cases h : e.status = .running ∧ TimeoutWatchdog.isExpired now e = true
    · rw [if_pos h, ← and_assoc, and_iff_right h]
      simp [JobExecutionEntity.finish, ne_comm]
    · rw [if_neg h, ← and_assoc]
      simp [h]
  · exact absurd trivial ht

end RowTransaction

/-! ## The operations on their rows

The operations are transactions on single rows: each reads a row, decides and writes it back, and
`row_of_step` says that this is what is left of it in the database when it runs alone. What
happens when two of them overlap is then a matter of the rows. -/

/-- The call runs the transaction on the row of the execution. -/
inductive WritesRow (c : Catalog) (db : Db) (e : JobExecutionEntity) : Call → RowTransaction → Prop
  | executorEvent (ctx : CallContext) (delivery : ExecutorEventService.Delivery)
      {message : ExecutorEventMessage} (hid : message.jobExecutionId = some e.id)
      (hnew : Consumes db delivery message) :
      WritesRow c db e ⟨ctx, .executorEvent delivery message⟩ (.handle ctx.now message)
  | cancelExecution (ctx : CallContext) :
      WritesRow c db e ⟨ctx, .cancelExecution e.id⟩ (.cancel ctx.now)
  | cancelRun (ctx : CallContext) :
      WritesRow c db e ⟨ctx, .cancelRun e.pipelineRunId⟩ (.cancelRun ctx.now)
  | checkTimeouts (ctx : CallContext) :
      WritesRow c db e ⟨ctx, .checkTimeouts⟩ (.checkTimeouts ctx.now)
  | retryExecution (ctx : CallContext) {job : JobEntity} (hjob : c.findJob e.jobId = some job) :
      WritesRow c db e ⟨ctx, .retryExecution e.id⟩ (.retryExecution ctx.now job)

section Rows

variable {c : Catalog} {db db' : Db} {e : JobExecutionEntity}

theorem Effect.findExecution {u : JobExecutionEntity → JobExecutionEntity}
    {fresh sent : List JobExecutionEntity} (h : Effect db db' u fresh sent)
    (he : e ∈ db.executions) : db'.findExecution e.id = some (u e) := by
  refine h.sound.findExecution.mpr ⟨?_, h.keeps.id e⟩
  rw [h.executions]
  exact List.mem_append_left _ (List.mem_map_of_mem he)

theorem handle_row {now : Instant} {delivery : ExecutorEventService.Delivery}
    {message : ExecutorEventMessage} (hs : Sound db) (he : e ∈ db.executions)
    (hid : message.jobExecutionId = some e.id)
    (hnew : Consumes db delivery message)
    (h : ExecutorEventService.handle c now delivery message db = .ok db') :
    db'.findExecution e.id = (RowTransaction.handle now message).write e := by
  have hstore := ExecutorEventService.store_effect now delivery message hs he
  have happly : ExecutorEventService.applyTo now message e e =
      ExecutorEventService.applyEvent now message (ExecutorEventService.changesStatus e.status
        (ExecutorEventService.mapStatus message.status))
        (ExecutorEventService.mapStatus message.status) e := if_pos rfl
  rw [RowTransaction.write, ← happly]
  obtain ⟨-, hmissing⟩ | ⟨-, x, hx, hxid, hrest⟩ := ExecutorEventService.handle_cases hs h
  · exact absurd hid (hmissing hnew e he)
  obtain rfl : x = e :=
    hs.executions_keyed.eq hx he (Option.some.inj (hxid.symm.trans hid))
  split at hrest
  · obtain ⟨run, hrun, hrunid⟩ := hs.run_of_execution x he
    obtain ⟨-, -, -, created, db₁, -, heffect, rfl⟩ := ExecutorEventService.continueRun_ok
      hstore.sound ⟨run, hstore.runs ▸ hrun, hrunid⟩ hrest
    exact (hstore.trans heffect (by simp)).findExecution he
  · obtain rfl := hrest
    exact hstore.findExecution he

theorem cancelExecution_row {ctx : CallContext} (hs : Sound db) (he : e ∈ db.executions)
    (h : JobExecutionService.cancel c ctx e.id db = .ok db') :
    db'.findExecution e.id = some (((RowTransaction.cancel ctx.now).write e).getD e) := by
  rw [JobExecutionService.cancel, hs.findExecution.mpr ⟨he, rfl⟩] at h
  obtain ⟨x, hx, h⟩ := bind_eq_ok.mp h
  obtain ⟨run, -, h⟩ := bind_eq_ok.mp h
  obtain rfl := Option.some.inj (orNotFound_eq_ok.mp hx)
  rw [RowTransaction.write]
  split at h
  · rename_i hfinal
    obtain rfl := Except.ok.inj h
    rw [if_pos hfinal, hs.findExecution.mpr ⟨he, rfl⟩]
    rfl
  · rename_i hfinal
    obtain rfl := Except.ok.inj h
    rw [if_neg hfinal, (requestCancellation_ok c ctx run hs he).findExecution he,
      mark_of_mem List.mem_cons_self]
    rfl

theorem cancelRun_row {ctx : CallContext} (hs : Sound db) (he : e ∈ db.executions)
    (h : cancelRun c ctx e.pipelineRunId db = .ok db') :
    db'.findExecution e.id = some (((RowTransaction.cancelRun ctx.now).write e).getD e) := by
  rw [cancelRun, bind_eq_ok] at h
  obtain ⟨run, hrun, h⟩ := h
  rw [orNotFound_eq_ok, hs.findRun] at hrun
  obtain ⟨hrun, hrunid⟩ := hrun
  have hcancel : ∀ run : PipelineRunEntity, (canceling run).id = run.id := fun _ ↦ rfl
  have hsave := saveRun_update hs hrun (hcancel run)
  rw [canceling] at hsave
  dsimp only at h
  rw [hsave, ← hrunid] at h
  obtain rfl := Except.ok.inj h
  have hrows : ∀ x ∈ (db.findByPipelineRunId run.id).filter (fun e ↦ e.status.isActive),
      x ∈ (db.updateRun run.id canceling).executions := fun x hx ↦ (mem_active.mp hx).1
  have heffect := foldl_requestCancellation_ok c ctx (canceling run) (hs.updateRun hcancel run.id)
    hrows ((hs.executions_keyed.filter _).filter _)
  refine (heffect.findExecution he).trans ?_
  rw [RowTransaction.write]
  -- the row is among those that are canceled when it is active
  have hmem : e.id ∈ ((db.findByPipelineRunId run.id).filter
      (fun e ↦ e.status.isActive)).map JobExecutionEntity.id ↔ e.status.isActive = true := by
    rw [List.mem_map]
    constructor
    · rintro ⟨x, hx, hxid⟩
      obtain ⟨hx, -, hactive⟩ := mem_active.mp hx
      rwa [hs.executions_keyed.eq hx he hxid] at hactive
    · exact fun hactive ↦ ⟨e, mem_active.mpr ⟨he, hrunid.symm, hactive⟩, rfl⟩
  by_cases hactive : e.status.isActive = true
  · rw [if_pos hactive]
    exact congrArg some (mark_of_mem (hmem.mpr hactive))
  · rw [if_neg hactive]
    exact congrArg some (mark_of_not_mem (mt hmem.mp hactive))

theorem checkTimeouts_row (now : Instant) (hs : Sound db) (he : e ∈ db.executions) :
    (TimeoutWatchdog.checkTimeouts now db).findExecution e.id =
      some (((RowTransaction.checkTimeouts now).write e).getD e) := by
  rw [checkTimeouts_eq hs, (effect_mapExecutions hs (keeps_expire now)).findExecution he, expire,
    RowTransaction.write]
  split
  · rfl
  · rfl

theorem retryExecution_row {ctx : CallContext} {job : JobEntity} (hs : Sound db)
    (he : e ∈ db.executions) (hjob : c.findJob e.jobId = some job)
    (h : retryExecution c ctx e.id db = .ok db') :
    db'.findExecution e.id =
      some (((RowTransaction.retryExecution ctx.now job).write e).getD e) := by
  rw [retryExecution, bind_eq_ok] at h
  obtain ⟨x, hx, h⟩ := h
  rw [bind_eq_ok] at h
  obtain ⟨run, hrun, h⟩ := h
  rw [bind_eq_ok] at h
  obtain ⟨job', hjob', h⟩ := h
  rw [orNotFound_eq_ok, hs.findExecution] at hx
  obtain rfl := hs.executions_keyed.eq hx.1 he hx.2
  rw [orNotFound_eq_ok, hs.findRun] at hrun
  obtain rfl := Option.some.inj (hjob.symm.trans (orNotFound_eq_ok.mp hjob'))
  rw [RowTransaction.write]
  by_cases hcand : isRetryCandidate x job = true
  · rw [if_neg (by simpa using hcand)] at h
    dsimp only at h
    rw [saveExecution_setStatus hs he] at h
    obtain ⟨⟨retried, db₁⟩, hcreate, h⟩ := bind_eq_ok.mp h
    have hmark := effect_mapExecutions hs (keeps_mark [x.id] .retrying ctx.now)
    obtain ⟨-, -, hcreated⟩ := createExecution_ok hmark.sound ⟨run, hrun.1, rfl⟩ hcreate
    have heffect := hmark.trans hcreated (by simp)
    obtain rfl := Except.ok.inj h
    rw [if_pos hcand, Option.getD_some]
    refine (heffect.findExecution he).trans (congrArg some ?_)
    exact mark_of_mem List.mem_cons_self
  · rw [if_pos (by simpa using hcand)] at h
    cases h

/-- **Refinement.** An operation that runs alone leaves the row with what its transaction writes
back for it. -/
theorem row_of_step (hs : Sound db) (he : e ∈ db.executions) {call : Call} {t : RowTransaction}
    (hcall : WritesRow c db e call t) (h : step c call db = .ok db') :
    db'.findExecution e.id = some ((t.write e).getD e) := by
  cases hcall with
  | executorEvent ctx delivery hid hnew => exact handle_row hs he hid hnew h
  | cancelExecution ctx => exact cancelExecution_row hs he h
  | cancelRun ctx => exact cancelRun_row hs he h
  | checkTimeouts ctx =>
    obtain rfl := Except.ok.inj h
    exact checkTimeouts_row ctx.now hs he
  | retryExecution ctx hjob => exact retryExecution_row hs he hjob h

end Rows

/-! ## Runs -/

section Runs

variable (transactions : ℕ → RowTransaction)

/-- The row of an execution under concurrent transactions. -/
abbrev RowState := WriteBack.State ℕ JobExecutionEntity

/-- Once a final status of the row is committed, no transaction but a retry replaces it. -/
def FinalsAbsorbed (e : JobExecutionEntity) (accesses : List (WriteBack.Access ℕ)) : Prop :=
  WriteBack.Absorbs (fun i ↦ (transactions i).write) JobExecutionEntity.status
    (fun s ↦ s.isFinalStatus = true) (fun i ↦ (transactions i).IsRetry) (.initial e) accesses

/-- Since the transaction has read the row, another status that is final was committed, and the
transaction writes back one that differs from it. -/
def Overtaken (s : RowState) (i : ℕ) : Prop :=
  ∃ e ∈ s.snapshot i, ∃ e' ∈ (transactions i).write e, s.committed.status.isFinalStatus = true ∧
    e.status ≠ s.committed.status ∧ e'.status ≠ s.committed.status

/-- A transaction is overtaken when the row that it has read is stale and its decision on that row
replaces the final status. -/
theorem overtaken_iff {s : RowState} {i : ℕ} (hi : ¬ (transactions i).IsRetry) :
    Overtaken transactions s i ↔ ∃ e ∈ s.snapshot i, s.committed.status.isFinalStatus = true ∧
      e.status ≠ s.committed.status ∧ (transactions i).Replaces e s.committed.status := by
  constructor
  · rintro ⟨e, he, e', he', hfinal, hne, hne'⟩
    exact ⟨e, he, hfinal, hne, (RowTransaction.replaces_iff hi hfinal hne).mp ⟨e', he', hne'⟩⟩
  · rintro ⟨e, he, hfinal, hne, hreplaces⟩
    obtain ⟨e', he', hne'⟩ := (RowTransaction.replaces_iff hi hfinal hne).mpr hreplaces
    exact ⟨e, he, e', he', hfinal, hne, hne'⟩

/-- No transaction but a retry commits after it was overtaken. -/
def NoneOvertaken (e : JobExecutionEntity) (accesses : List (WriteBack.Access ℕ)) : Prop :=
  ∀ earlier i, earlier ++ [.commit i] <+: accesses → ¬ (transactions i).IsRetry →
    ¬ Overtaken transactions
      (WriteBack.run (fun i ↦ (transactions i).write) (.initial e) earlier) i

/-- **Final statuses under concurrency.** They are absorbing in a run exactly when no transaction
commits after it was overtaken. -/
theorem finalsAbsorbed_iff (e : JobExecutionEntity) (accesses : List (WriteBack.Access ℕ)) :
    FinalsAbsorbed transactions e accesses ↔ NoneOvertaken transactions e accesses :=
  WriteBack.absorbs_iff fun _ hi _ _ hfinal hwrite ↦
    RowTransaction.status_of_write hi hfinal hwrite

/-- **No stale commits.** Final statuses are absorbing when every transaction but a retry that meets
a final status at its commit has read that status. -/
theorem finalsAbsorbed_of_current (e : JobExecutionEntity) (accesses : List (WriteBack.Access ℕ))
    (h : ∀ earlier i, earlier ++ [.commit i] <+: accesses → ¬ (transactions i).IsRetry →
      let s := WriteBack.run (fun i ↦ (transactions i).write) (.initial e) earlier
      ∀ read ∈ s.snapshot i, s.committed.status.isFinalStatus = true →
        read.status = s.committed.status) :
    FinalsAbsorbed transactions e accesses := by
  refine (WriteBack.absorbs_iff fun _ hi _ _ hfinal hwrite ↦
    RowTransaction.status_of_write hi hfinal hwrite).mpr ?_
  rintro earlier i hpre hi ⟨read, hread, -, -, hfinal, hne, -⟩
  exact hne (h earlier i hpre hi read hread hfinal)

end Runs

/-- The event of an executor that has finished, and a cancel of the same execution. -/
def finishedAndCanceled : ℕ → RowTransaction
  | 0 => .handle 0 (Small.message 100 2 .success)
  | _ => .cancel 0

/-- A running execution. -/
def runningExecution : JobExecutionEntity :=
  (newExecution 0 2 (newRun 0 0 1 0 none none) (Small.job 2 0) 1).setStatus .running 0

/-- Both read the running execution; the success is committed, and then the cancel over it. -/
theorem not_finalsAbsorbed : ¬ FinalsAbsorbed finishedAndCanceled runningExecution
    [.read 0, .read 1, .commit 0, .commit 1] := by
  intro h
  have hsame := h [.read 0, .read 1, .commit 0] [.commit 1] (List.prefix_refl _)
    (by decide +kernel) fun i hi ↦ by
      obtain rfl := WriteBack.Access.commit.inj (List.mem_singleton.mp hi)
      exact id
  revert hsame
  decide +kernel

end FuzzingCiCd.Master
