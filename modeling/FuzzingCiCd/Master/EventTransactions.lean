import FuzzingCiCd.Master.Attempts

/-!
# Transactions of events

`ExecutorEventService.handle` as a transaction whose reads see what is committed and its own
writes. It reads at three points: the row of its execution, then the executions of the run to find
the jobs that are ready, then the executions again for the status of the run. Nothing locks the
run, so other transactions may commit between these points. A row whose attempt another transaction
has created in the meantime violates `unique_job_execution_attempt`, and the transaction is rolled
back.

A schedule says which transaction moves next. `play_alone` shows that the four moves of a
transaction in a row do what `handle` does.

## Representation

The moves of a transaction are functions of the committed database. What a transaction has read is
kept in its state, and what it has written is applied when it commits, so that a schedule is a list
of numbers of transactions.
-/

namespace FuzzingCiCd.Master

open Transition PipelineRunService

/-! ## Transactions

Transactions under read committed see what has been committed and what they have written
themselves, and each reads anew at every statement. `Progress` keeps what a transaction has
written, `view` is what it sees, and a schedule is any sequence of their moves. The one
constraint that can fail at the commit is the unique attempt of a job in a run. -/

/-- An event that is handled in a transaction of its own, and the ids it draws for the executions
that it creates. -/
structure EventTransaction where
  now : Instant
  message : ExecutorEventMessage
  newId : UUID → UUID

namespace EventTransaction

variable (t : EventTransaction)

/-- The row with the event applied. -/
def applied (e : JobExecutionEntity) : JobExecutionEntity :=
  let target := ExecutorEventService.mapStatus t.message.status
  ExecutorEventService.applyEvent t.now t.message
    (ExecutorEventService.changesStatus e.status target) target e

@[simp] theorem applied_id (e : JobExecutionEntity) : (t.applied e).id = e.id := rfl

end EventTransaction

/-- The row that `createExecution` leaves for a job. -/
def createdExecution (c : Catalog) (now : Instant) (id : UUID) (run : PipelineRunEntity)
    (job : JobEntity) (attempt : ℕ) : JobExecutionEntity :=
  let execution := newExecution now id run job attempt
  match resolveApprovalEnvironment c job with
  | some _ => execution.setStatus .waitingApproval now
  | none => execution

section Created

variable (c : Catalog) (now : Instant) (id : UUID) (run : PipelineRunEntity) (job : JobEntity)
  (attempt : ℕ)

theorem createdExecution_jobId : (createdExecution c now id run job attempt).jobId = job.id := by
  rw [createdExecution]
  split
  · rfl
  · rfl

theorem createdExecution_id : (createdExecution c now id run job attempt).id = id := by
  rw [createdExecution]
  split
  · rfl
  · rfl

theorem createExecution_created {c : Catalog} {now : Instant} {run : PipelineRunEntity}
    {job : JobEntity} {attempt : ℕ} {db db' : Db} {e : JobExecutionEntity}
    (h : createExecution c now run job attempt db = .ok (e, db')) :
    e = createdExecution c now db.nextId run job attempt := by
  rw [createExecution] at h
  rw [createdExecution]
  cases henv : resolveApprovalEnvironment c job with
  | none =>
    simp only [henv] at h
    obtain ⟨db₁, -, h⟩ := bind_eq_ok.mp h
    exact (Prod.mk.inj (Except.ok.inj h)).1.symm
  | some environment =>
    simp only [henv] at h
    exact (Prod.mk.inj (Except.ok.inj h)).1.symm

end Created

/-- How far a transaction has come, with what it has written. -/
inductive Progress where
  | pending
  | applied (own : JobExecutionEntity)
  | dispatched (own : JobExecutionEntity) (created : List JobExecutionEntity)
  | recomputed (own : JobExecutionEntity) (created : List JobExecutionEntity)
      (run : Option PipelineRunEntity)
  | committed
  | rolledBack
  deriving DecidableEq

/-- The committed rows as the transaction sees them. -/
def Progress.view (rows : List JobExecutionEntity) : Progress → List JobExecutionEntity
  | .pending => rows
  | .applied own => Table.save JobExecutionEntity.id rows own
  | .dispatched own created => Table.save JobExecutionEntity.id rows own ++ created
  | .recomputed own created _ => Table.save JobExecutionEntity.id rows own ++ created
  | .committed => rows
  | .rolledBack => rows

/-- `unique_job_execution_attempt`: a created row has the job and the attempt of a committed one. -/
def violatesAttempt (rows created : List JobExecutionEntity) : Bool :=
  created.any fun f ↦ rows.any fun e ↦ e.jobId = f.jobId && e.attempt = f.attempt

/-- What is committed about a run, and the transactions on it. -/
structure Concurrent where
  run : PipelineRunEntity
  rows : List JobExecutionEntity
  progress : ℕ → Progress

namespace Concurrent

/-- No transaction has begun. -/
def start (v : RunView) : Concurrent := ⟨v.run, v.rows, fun _ ↦ .pending⟩

section Move

variable (c : Catalog)

def setProgress (s : Concurrent) (i : ℕ) (p : Progress) : Concurrent :=
  { s with progress := Function.update s.progress i p }

@[simp] theorem setProgress_self (s : Concurrent) (i : ℕ) (p : Progress) :
    (s.setProgress i p).progress i = p :=
  Function.update_self ..

@[simp] theorem setProgress_of_ne (s : Concurrent) {i j : ℕ} (h : j ≠ i) (p : Progress) :
    (s.setProgress i p).progress j = s.progress j :=
  Function.update_of_ne h ..

@[simp] theorem setProgress_run (s : Concurrent) (i : ℕ) (p : Progress) :
    (s.setProgress i p).run = s.run := rfl

@[simp] theorem setProgress_rows (s : Concurrent) (i : ℕ) (p : Progress) :
    (s.setProgress i p).rows = s.rows := rfl

@[simp] theorem setProgress_setProgress (s : Concurrent) (i : ℕ) (p q : Progress) :
    (s.setProgress i p).setProgress i q = s.setProgress i q := by
  rw [setProgress, setProgress, setProgress, Function.update_idem]

/-- The next move of one transaction. An event that does not end its execution is committed without
looking at the run; a transaction that finds no execution has nothing more to do here. -/
def advance (t : EventTransaction) (i : ℕ) (s : Concurrent) : Concurrent :=
  match s.progress i with
  | .pending =>
    match s.rows.find? fun e ↦ t.message.jobExecutionId = some e.id with
    | none => s.setProgress i .committed
    | some e =>
      if ExecutorEventService.endsExecution t.message e then
        s.setProgress i (.applied (t.applied e))
      else s.setProgress i (.recomputed (t.applied e) [] none)
  | .applied own =>
    let rows := Progress.view s.rows (.applied own)
    let created := (c.readyJobs s.run.pipelineId rows).map fun job ↦
      createdExecution c t.now (t.newId job.id) s.run job (nextAttempt rows job.id)
    s.setProgress i (.dispatched own created)
  | .dispatched own created =>
    let rows := Progress.view s.rows (.dispatched own created)
    s.setProgress i (.recomputed own created (some (recomputed t.now s.run rows)))
  | .recomputed own created run =>
    if violatesAttempt s.rows created then s.setProgress i .rolledBack
    else
      { run := run.getD s.run
        rows := Progress.view s.rows (.recomputed own created run)
        progress := Function.update s.progress i .committed }
  | .committed => s
  | .rolledBack => s

/-- The transaction with the given number moves, if there is one. -/
def move (transactions : List EventTransaction) (s : Concurrent) (i : ℕ) : Concurrent :=
  match transactions[i]? with
  | none => s
  | some t => advance c t i s

/-- The moves of a schedule one after the other. -/
def play (transactions : List EventTransaction) (s : Concurrent) (schedule : List ℕ) : Concurrent :=
  schedule.foldl (move c transactions) s

theorem play_cons (transactions : List EventTransaction) (s : Concurrent) (i : ℕ)
    (schedule : List ℕ) :
    play c transactions s (i :: schedule) =
      play c transactions (move c transactions s i) schedule :=
  rfl

theorem play_append (transactions : List EventTransaction) (s : Concurrent)
    (earlier later : List ℕ) : play c transactions s (earlier ++ later) =
      play c transactions (play c transactions s earlier) later :=
  List.foldl_append

end Move

end Concurrent

/-! ## One transaction alone

The four moves are cut out of `handle` at the places where it reads the database again. Played in
a row, they do what `handle` does: the first applies the event, the second dispatches the jobs
that are ready, the third recomputes the run, the fourth commits. An event that ends nothing has
no second and third. -/

theorem createReady_created {c : Catalog} {now : Instant} {run : PipelineRunEntity}
    {jobs : List JobEntity} {existing created : List JobExecutionEntity} {db db' : Db}
    (hnew : ∀ job ∈ jobs, ∀ e ∈ existing, e.jobId ≠ job.id)
    (hkeyed : Table.Keyed JobEntity.id jobs)
    (h : createReady c now run jobs existing db = .ok (created, db')) :
    ∃ newId : UUID → UUID, created = jobs.map fun job ↦
      createdExecution c now (newId job.id) run job 1 := by
  induction jobs generalizing existing created db with
  | nil =>
    rw [createReady] at h
    obtain ⟨rfl, -⟩ := Prod.mk.inj (Except.ok.inj h)
    exact ⟨id, rfl⟩
  | cons job jobs ih =>
    rw [createReady, nextAttempt_eq_one (hnew job List.mem_cons_self)] at h
    obtain ⟨⟨e, db₁⟩, hcreate, h⟩ := bind_eq_ok.mp h
    obtain ⟨⟨rest, db₂⟩, hrest, h⟩ := bind_eq_ok.mp h
    obtain ⟨rfl, rfl⟩ := Prod.mk.inj (Except.ok.inj h)
    have he := createExecution_created hcreate
    rw [Table.Keyed, List.map_cons, List.nodup_cons] at hkeyed
    have hne : ∀ job' ∈ jobs, job'.id ≠ job.id :=
      fun job' hjob' heq ↦ hkeyed.1 (heq ▸ List.mem_map_of_mem hjob')
    have hnew' : ∀ job' ∈ jobs, ∀ e' ∈ existing ++ [e], e'.jobId ≠ job'.id := by
      intro job' hjob'
      refine List.forall_mem_append.mpr ⟨hnew job' (List.mem_cons_of_mem _ hjob'), ?_⟩
      rw [List.forall_mem_singleton, he, createdExecution_jobId]
      exact (hne job' hjob').symm
    obtain ⟨newId, rfl⟩ := ih hnew' hkeyed.2 hrest
    refine ⟨Function.update newId job.id db.nextId, ?_⟩
    rw [List.map_cons, Function.update_self, he]
    congr 1
    refine List.map_congr_left fun job' hjob' ↦ ?_
    rw [Function.update_of_ne (hne job' hjob')]

namespace Concurrent

section Alone

variable {c : Catalog} {v : RunView} {t : EventTransaction} {e : JobExecutionEntity}

theorem save_applied_alone (hkeyed : Table.Keyed JobExecutionEntity.id v.rows)
    (he : e ∈ v.rows) : Table.save JobExecutionEntity.id v.rows (t.applied e) =
      v.rows.map (ExecutorEventService.applyTo t.now t.message e) := by
  rw [Table.save_existing ⟨e, he, (t.applied_id e).symm⟩]
  refine List.map_congr_left fun e' he' ↦ ?_
  rw [ExecutorEventService.applyTo, t.applied_id]
  by_cases hsame : e'.id = e.id
  · rw [if_pos hsame, if_pos hsame, hkeyed.eq he' he hsame]
    rfl
  · rw [if_neg hsame, if_neg hsame]

theorem move_start (hkeyed : Table.Keyed JobExecutionEntity.id v.rows) (he : e ∈ v.rows)
    (hid : t.message.jobExecutionId = some e.id) : move c [t] (.start v) 0 =
      Concurrent.setProgress (.start v) 0
        (if ExecutorEventService.endsExecution t.message e then .applied (t.applied e)
        else .recomputed (t.applied e) [] none) := by
  have hfind : v.rows.find? (fun e' ↦ t.message.jobExecutionId = some e'.id) = some e := by
    rw [hid]
    simp only [Option.some.injEq]
    simp only [eq_comm (a := e.id)]
    exact (Table.findById_eq_some hkeyed).mpr ⟨he, rfl⟩
  rw [move, List.getElem?_cons_zero]
  dsimp only
  rw [advance, start]
  dsimp only
  rw [hfind]
  dsimp only
  split
  · rfl
  · rfl

theorem play_of_ends (hkeyed : Table.Keyed JobExecutionEntity.id v.rows) (he : e ∈ v.rows)
    (hid : t.message.jobExecutionId = some e.id)
    (hends : ExecutorEventService.endsExecution t.message e = true)
    {rows : List JobExecutionEntity}
    (hrows : v.rows.map (ExecutorEventService.applyTo t.now t.message e) = rows) :
    ∃ progress, progress 0 = .committed ∧ play c [t] (.start v) [0, 0, 0, 0] =
      (let created := (c.readyJobs v.run.pipelineId rows).map fun job ↦
        createdExecution c t.now (t.newId job.id) v.run job 1
      ⟨recomputed t.now v.run (rows ++ created), rows ++ created, progress⟩) := by
  have hview : Progress.view v.rows (.applied (t.applied e)) = rows := by
    rw [Progress.view, save_applied_alone hkeyed he, hrows]
  have hcreated : ((c.readyJobs v.run.pipelineId rows).map fun job ↦ createdExecution c t.now
      (t.newId job.id) v.run job (nextAttempt rows job.id)) =
      (c.readyJobs v.run.pipelineId rows).map fun job ↦
        createdExecution c t.now (t.newId job.id) v.run job 1 := by
    refine List.map_congr_left fun job hjob ↦ ?_
    rw [nextAttempt_eq_one (Catalog.mem_readyJobs.mp hjob).2.1]
  generalize hcreated' : ((c.readyJobs v.run.pipelineId rows).map fun job ↦
    createdExecution c t.now (t.newId job.id) v.run job 1) = created at hcreated ⊢
  -- the jobs that are ready have no attempt yet, so the constraint of the attempts holds
  have hnone : violatesAttempt v.rows created = false := by
    rw [violatesAttempt, List.any_eq_false]
    intro f hf
    rw [Bool.not_eq_true, List.any_eq_false]
    intro e' he'
    obtain ⟨job, hjob, rfl⟩ := List.mem_map.mp (hcreated' ▸ hf)
    have hne := (Catalog.mem_readyJobs.mp hjob).2.1 _ (hrows ▸ List.mem_map_of_mem he')
    rw [(ExecutorEventService.keeps_applyTo t.now t.message e).jobId] at hne
    rw [createdExecution_jobId]
    simp [hne]
  have hmove : ∀ s : Concurrent, move c [t] s 0 = advance c t 0 s := fun _ ↦ rfl
  have hdispatch : advance c t 0 (Concurrent.setProgress (.start v) 0 (.applied (t.applied e))) =
      Concurrent.setProgress (.start v) 0 (.dispatched (t.applied e) created) := by
    rw [advance, setProgress_self]
    dsimp only
    rw [setProgress_rows, setProgress_run, start, hview, hcreated]
    exact setProgress_setProgress ..
  have hview' : Progress.view v.rows (.dispatched (t.applied e) created) = rows ++ created := by
    rw [← hview]
    rfl
  have hrecompute : advance c t 0
      (Concurrent.setProgress (.start v) 0 (.dispatched (t.applied e) created)) =
      Concurrent.setProgress (.start v) 0 (.recomputed (t.applied e) created
        (some (recomputed t.now v.run (rows ++ created)))) := by
    rw [advance, setProgress_self]
    dsimp only
    rw [setProgress_rows, setProgress_run, start, hview']
    exact setProgress_setProgress ..
  refine ⟨Function.update (Concurrent.setProgress (.start v) 0 (.recomputed (t.applied e) created
    (some (recomputed t.now v.run (rows ++ created))))).progress 0 .committed,
    Function.update_self .., ?_⟩
  rw [play_cons, move_start hkeyed he hid, if_pos hends, play_cons, hmove, hdispatch, play_cons,
    hmove, hrecompute, play_cons, hmove, advance, setProgress_self]
  dsimp only
  rw [setProgress_rows, start, if_neg (by rw [hnone]; exact Bool.false_ne_true), ← hview']
  rfl

theorem play_of_not_ends (hkeyed : Table.Keyed JobExecutionEntity.id v.rows) (he : e ∈ v.rows)
    (hid : t.message.jobExecutionId = some e.id)
    (hends : ExecutorEventService.endsExecution t.message e = false) :
    ∃ progress, progress 0 = .committed ∧ play c [t] (.start v) [0, 0, 0, 0] =
      ⟨v.run, v.rows.map (ExecutorEventService.applyTo t.now t.message e), progress⟩ := by
  have hmove : ∀ s : Concurrent, move c [t] s 0 = advance c t 0 s := fun _ ↦ rfl
  have hcommit : advance c t 0
      (Concurrent.setProgress (.start v) 0 (.recomputed (t.applied e) [] none)) =
      ⟨v.run, v.rows.map (ExecutorEventService.applyTo t.now t.message e),
        Function.update (Concurrent.setProgress (.start v) 0
          (.recomputed (t.applied e) [] none)).progress 0 .committed⟩ := by
    rw [advance, setProgress_self, ← save_applied_alone hkeyed he]
    dsimp only
    rw [if_neg (by simp [violatesAttempt]), Progress.view, List.append_nil]
    rfl
  have hstay : ∀ s : Concurrent, s.progress 0 = .committed → advance c t 0 s = s := by
    intro s hp
    rw [advance, hp]
  generalize hprogress : Function.update (Concurrent.setProgress (.start v) 0
    (.recomputed (t.applied e) [] none)).progress 0 .committed = progress at hcommit
  have hcommitted : progress 0 = .committed := by
    rw [← hprogress]
    exact Function.update_self ..
  refine ⟨progress, hcommitted, ?_⟩
  rw [play_cons, move_start hkeyed he hid, if_neg (by rw [hends]; exact Bool.false_ne_true),
    play_cons, hmove, hcommit, play_cons, hmove, hstay _ hcommitted, play_cons, hmove,
    hstay _ hcommitted]
  rfl

end Alone

/-- **Alone.** The four moves of a transaction in a row do to a run what `handle` does. -/
theorem play_alone {c : Catalog} {now : Instant} {delivery : ExecutorEventService.Delivery}
    {message : ExecutorEventMessage} {db db' : Db} {r : UUID} {v : RunView}
    {e : JobExecutionEntity} (hs : Sound db) (hv : db.view r = some v) (he : e ∈ v.rows)
    (hid : message.jobExecutionId = some e.id) (hnew : Consumes db delivery message)
    (h : ExecutorEventService.handle c now delivery message db = .ok db') :
    ∃ newId v' progress, db'.view r = some v' ∧ progress 0 = .committed ∧
      play c [⟨now, message, newId⟩] (.start v) [0, 0, 0, 0] = ⟨v'.run, v'.rows, progress⟩ := by
  obtain ⟨hrun, hvrows, -, -⟩ := Db.view_eq_some hv
  obtain ⟨hrunmem, rfl⟩ := hs.findRun.mp hrun
  obtain ⟨hemem, her⟩ := (mem_rows hv).mp he
  have hkeyed : Table.Keyed JobExecutionEntity.id v.rows := by
    rw [hvrows]
    exact hs.executions_keyed.filter _
  rcases ExecutorEventService.handle_cases hs h with ⟨-, hnone⟩ | ⟨-, x, hx, hid', hrest⟩
  · exact absurd hid (hnone hnew e hemem)
  obtain rfl := hs.executions_keyed.eq hemem hx (Option.some.inj (hid.symm.trans hid'))
  have hstore := ExecutorEventService.store_effect now delivery message hs hx
  -- only an event that ends the execution goes on with the run
  by_cases hends : ExecutorEventService.endsExecution message e = true
  · rw [if_pos hends, her, ExecutorEventService.continueRun,
      hstore.sound.findRun.mpr ⟨hstore.runs ▸ hrunmem, rfl⟩] at hrest
    dsimp only at hrest
    rw [bind_eq_ok] at hrest
    obtain ⟨⟨created, db₁⟩, hdispatch, hrest⟩ := hrest
    have hrows := findByPipelineRunId_of_effect hstore v.run.id
    rw [List.filter_nil, List.append_nil, ← hvrows] at hrows
    have hready := hdispatch
    rw [dispatchReadyJobs, bind_eq_ok] at hready
    obtain ⟨ready, hready, hcreate⟩ := hready
    obtain ⟨-, rfl⟩ := Catalog.resolveReadyJobs_eq_ok.mp hready
    obtain ⟨newId, hcreated⟩ := createReady_created
      (fun job hjob ↦ (Catalog.mem_readyJobs.mp hjob).2.1) (Catalog.keyed_readyJobs _ _) hcreate
    obtain ⟨-, hfresh, heffect⟩ := dispatchReadyJobs_ok hstore.sound
      ⟨v.run, hstore.runs ▸ hrunmem, rfl⟩ hdispatch
    have hall := hstore.trans heffect (by simp)
    have hown : ∀ f ∈ created, f.pipelineRunId = v.run.id := by
      intro f hf
      obtain ⟨job, -, hrow⟩ := exists_of_forall₂_right hfresh hf
      exact hrow.pipelineRunId
    obtain ⟨v₁, hv₁, hrun₁, hview⟩ := view_of_effect_self hs hall hv
      (by rw [List.nil_append]; exact hown)
      (by rw [List.nil_append]; exact fun f hf ↦ hown f (List.mem_filter.mp hf).1)
    have hrows₁ : v₁.rows = v.rows.map (ExecutorEventService.applyTo now message e) ++ created :=
      hview.rows
    obtain ⟨progress, hprogress, hplay⟩ := play_of_ends (c := c) (t := ⟨now, message, newId⟩)
      hkeyed he hid hends hrows.symm
    dsimp only at hplay
    rw [← hcreated, hrows, ← hrows₁] at hplay
    rw [recomputeRunStatus_ok heffect.sound hrest]
    refine ⟨newId, { v₁ with run := recomputed now v.run v₁.rows }, progress, ?_, hprogress, hplay⟩
    have hid : ∀ run, (recomputed now run (db₁.findByPipelineRunId v.run.id)).id = run.id :=
      fun _ ↦ rfl
    rw [view_updateRun hid, hv₁, Option.map_some, if_pos rfl, hrun₁,
      ← (Db.view_eq_some hv₁).2.1]
  · rw [if_neg hends] at hrest
    obtain ⟨progress, hprogress, hplay⟩ := play_of_not_ends (c := c) (t := ⟨now, message, id⟩)
      hkeyed he hid (by simpa using hends)
    obtain ⟨v', hv', hrun', hview⟩ := view_of_effect_self hs hstore hv (by simp) (by simp)
    rw [hrest]
    refine ⟨id, v', progress, hv', hprogress, hplay.trans ?_⟩
    rw [hrun', hview.rows, List.append_nil]

end Concurrent

end FuzzingCiCd.Master
