import FuzzingCiCd.Master.Attempts

/-!
# One attempt at a time

The attempts of a job are to be worked on one after the other, and at most as many as the job
allows. Only the execution named in a call is checked by the services, so four operations can break
this: an event that requeues a superseded attempt, the cancellation of one, and the two retries.
The condition under which they do not is `KeepsExclusive`, and it is exact.

## Main results

* `exclusive_append_iff`, `exclusive_activate_iff`: adding attempts, and activating one.
* `RunStep.exclusive_iff`: the condition is exact for one step.
* `exclusive_throughout_iff`: and for whole histories.
-/

namespace FuzzingCiCd.Master

open Transition PipelineRunService

/-- The attempts of every job are numbered from one, are at most as many as the job allows, and
at most one of them is worked on. -/
structure Exclusive (c : Catalog) (v : RunView) : Prop where
  numbered : Latest.Numbered JobExecutionEntity.jobId JobExecutionEntity.attempt v.rows
  bounded : ∀ job ∈ c.jobs, attempts v.rows job.id ≤ job.maxAttempts
  exclusive : ∀ e ∈ v.rows, ∀ f ∈ v.rows, e.jobId = f.jobId → e.status.isActive = true →
    f.status.isActive = true → e = f

/-- Nobody works on the job. -/
def Unworked (rows : List JobExecutionEntity) (jobId : UUID) : Prop :=
  ∀ e ∈ rows, e.jobId = jobId → e.status.isActive = false

/-- The job may be attempted once more. -/
def MayRetry (c : Catalog) (rows : List JobExecutionEntity) (jobId : UUID) : Prop :=
  ∀ job ∈ c.jobs, job.id = jobId → attempts rows job.id < job.maxAttempts

/-- The condition on an operation: it does not revive a superseded attempt, or retry a job, while
another attempt of the job is worked on, and no retry of a single execution goes beyond the
attempts the job allows. -/
def KeepsExclusive (c : Catalog) (db : Db) (v : RunView) (call : Call) : Prop :=
  match call.operation with
  | .executorEvent delivery message =>
    Consumes db delivery message → ExecutorEventService.mapStatus message.status = some .queued →
      ∀ x ∈ v.rows, message.jobExecutionId = some x.id → x.status = .retrying →
        Unworked v.rows x.jobId
  | .cancelExecution executionId =>
    ∀ x ∈ v.rows, x.id = executionId → x.status = .retrying → Unworked v.rows x.jobId
  | .retryRun runId =>
    runId = v.run.id → ∀ x ∈ retryPicks c v.rows, Unworked v.rows x.jobId
  | .retryExecution executionId =>
    ∀ x ∈ v.rows, x.id = executionId → Unworked v.rows x.jobId ∧ MayRetry c v.rows x.jobId
  | _ => True

/-! ## Adding attempts -/

section Steps

variable {c : Catalog} {v v' : RunView} {u : JobExecutionEntity → JobExecutionEntity}
  {fresh : List JobExecutionEntity} {sent : List UUID}

/-- New attempts keep a run exclusive exactly when their jobs are unworked and allow one more. -/
theorem exclusive_append_iff (hv : Attempted c v) (h : ViewEffect v v' u fresh sent)
    (hadds : AddsAttempts c v fresh)
    (hle : ∀ e ∈ v.rows, (u e).status.isActive = true → e.status.isActive = true)
    (hP : Exclusive c v) : Exclusive c v' ↔
      ∀ f ∈ fresh, Unworked (v.rows.map u) f.jobId ∧ MayRetry c v.rows f.jobId := by
  have hone : ∀ f ∈ fresh, attempts fresh f.jobId = 1 :=
    fun f hf ↦ Latest.count_of_nodup hadds.continues.distinct hf
  constructor
  · intro hP' f hf
    have hf' : f ∈ v'.rows := h.mem.mpr (Or.inr hf)
    refine ⟨fun e he hjob ↦ ?_, fun job hjob hid ↦ ?_⟩
    · obtain ⟨x, hx, rfl⟩ := List.mem_map.mp he
      by_contra hactive
      rw [Bool.not_eq_false] at hactive
      have heq := hP'.exclusive (u x) (h.mem.mpr (Or.inl ⟨x, hx, rfl⟩)) f hf' hjob hactive
        (hadds.active f hf)
      exact h.fresh_ids x hx f hf (by rw [← heq, h.keeps.id])
    · have hle := hP'.bounded job hjob
      rw [h.attempts, hid, hone f hf] at hle
      rw [hid]
      omega
  · intro hfresh
    refine ⟨h.numbered hv hadds, fun job hjob ↦ ?_, fun e he f hf hjob hae haf ↦ ?_⟩
    · rw [h.attempts]
      by_cases hnew : ∃ f ∈ fresh, f.jobId = job.id
      · obtain ⟨f, hf, hid⟩ := hnew
        have hlt := (hfresh f hf).2 job hjob hid.symm
        have := hone f hf
        rw [hid] at this
        omega
      · have hzero : attempts fresh job.id = 0 :=
          Latest.count_eq_zero.mpr fun f hf hid ↦ hnew ⟨f, hf, hid⟩
        have := hP.bounded job hjob
        omega
    · rcases h.mem.mp he with ⟨x, hx, rfl⟩ | he'
      · rcases h.mem.mp hf with ⟨y, hy, rfl⟩ | hf'
        · rw [h.keeps.jobId, h.keeps.jobId] at hjob
          rw [hP.exclusive x hx y hy hjob (hle x hx hae) (hle y hy haf)]
        · have hidle := (hfresh f hf').1 (u x) (List.mem_map_of_mem hx) hjob
          exact absurd hae (by rw [hidle]; decide)
      · rcases h.mem.mp hf with ⟨y, hy, rfl⟩ | hf'
        · have hidle := (hfresh e he').1 (u y) (List.mem_map_of_mem hy) hjob.symm
          exact absurd haf (by rw [hidle]; decide)
        · exact List.inj_on_of_nodup_map hadds.continues.distinct he' hf' hjob

/-- A step that adds no attempt and activates none keeps a run exclusive. -/
theorem Exclusive.quiet (hv : Attempted c v) (h : ViewEffect v v' u [] sent)
    (hle : ∀ e ∈ v.rows, (u e).status.isActive = true → e.status.isActive = true)
    (hP : Exclusive c v) : Exclusive c v' :=
  (exclusive_append_iff hv h (addsAttempts_nil c v) hle hP).mpr (by simp)

/-- Activating an attempt keeps a run exclusive exactly when its job is unworked. -/
theorem exclusive_activate_iff (hv : Attempted c v) (h : ViewEffect v v' u [] sent)
    {x : JobExecutionEntity} (hx : x ∈ v.rows) {t : JobExecutionStatus}
    (hstatus : SetsStatus v.rows u x.id t) (hold : x.status.isActive = false)
    (hnew : t.isActive = true) (hP : Exclusive c v) :
    Exclusive c v' ↔ Unworked v.rows x.jobId := by
  have hux : (u x).status = t := by rw [hstatus x hx, if_pos rfl]
  have hother : ∀ e ∈ v.rows, e.id ≠ x.id → (u e).status = e.status := by
    intro e he hne
    rw [hstatus e he, if_neg hne]
  constructor
  · intro hP' e he hjob
    by_cases hid : e.id = x.id
    · rwa [hv.keyed.eq he hx hid]
    · by_contra hactive
      rw [Bool.not_eq_false] at hactive
      have heq := hP'.exclusive (u e) (h.mem.mpr (Or.inl ⟨e, he, rfl⟩)) (u x)
        (h.mem.mpr (Or.inl ⟨x, hx, rfl⟩)) (by rw [h.keeps.jobId, h.keeps.jobId, hjob])
        (by rw [hother e he hid, hactive]) (by rw [hux, hnew])
      exact hid (by rw [← h.keeps.id e, heq, h.keeps.id])
  · intro hunworked
    have hactive : ∀ e ∈ v.rows, e.jobId = x.jobId → (u e).status.isActive = true → e = x := by
      intro e he hjob hae
      by_contra hne
      have hid : e.id ≠ x.id := fun hid ↦ hne (hv.keyed.eq he hx hid)
      rw [hother e he hid, hunworked e he hjob] at hae
      exact absurd hae (by decide)
    refine ⟨h.numbered hv (addsAttempts_nil c v), fun job hjob ↦ ?_, ?_⟩
    · rw [h.rows, List.append_nil, h.keeps.attempts]
      exact hP.bounded job hjob
    · intro e' he' f' hf' hjob hae haf
      obtain ⟨e, he, rfl⟩ := (h.mem.mp he').resolve_right List.not_mem_nil
      obtain ⟨f, hf, rfl⟩ := (h.mem.mp hf').resolve_right List.not_mem_nil
      rw [h.keeps.jobId, h.keeps.jobId] at hjob
      by_cases hex : e.jobId = x.jobId
      · rw [hactive e he hex hae, hactive f hf (hjob ▸ hex) haf]
      · have hne : ∀ y ∈ v.rows, y.jobId = e.jobId → (u y).status = y.status := by
          intro y hy hyjob
          refine hother y hy fun hid ↦ hex ?_
          rw [← hyjob, hv.keyed.eq hy hx hid]
        rw [hne e he rfl] at hae
        rw [hne f hf hjob.symm] at haf
        rw [hP.exclusive e he f hf hjob hae haf]

end Steps

/-! ## The exact condition -/

/-- What may be retried is not worked on. -/
theorem not_active_of_isRetryCandidate {e : JobExecutionEntity} {job : JobEntity}
    (h : isRetryCandidate e job = true) :
    e.status.isActive = false ∧ e.attempt < job.maxAttempts := by
  rw [isRetryCandidate] at h
  by_cases hattempt : e.attempt ≥ job.maxAttempts
  · simp [hattempt] at h
  · refine ⟨?_, by omega⟩
    revert h
    cases e.status <;> simp [JobExecutionStatus.isActive]

theorem of_retryable {c : Catalog} {e : JobExecutionEntity} (h : retryable c e = true) :
    ∃ job ∈ c.jobs, job.id = e.jobId ∧ isRetryCandidate e job = true := by
  rw [retryable] at h
  split at h
  · exact absurd h (by decide)
  · rename_i job hfind
    obtain ⟨hjob, hid⟩ := Catalog.findJob_eq_some.mp hfind
    exact ⟨job, hjob, hid, h⟩

/-- Only a superseded attempt becomes active without having been so. -/
theorem active_of_canTransition {s t : JobExecutionStatus} (h : canTransition s t = true)
    (ht : t.isActive = true) : s.isActive = true ∨ s = .retrying ∧ t = .queued := by
  revert h ht
  cases s <;> cases t <;> decide

private theorem le_of_setsStatus {rows : List JobExecutionEntity}
    {u : JobExecutionEntity → JobExecutionEntity} {x : JobExecutionEntity} {t : JobExecutionStatus}
    (hkeyed : Table.Keyed JobExecutionEntity.id rows) (hx : x ∈ rows)
    (hstatus : SetsStatus rows u x.id t) (h : t.isActive = true → x.status.isActive = true) :
    ∀ e ∈ rows, (u e).status.isActive = true → e.status.isActive = true := by
  intro e he hactive
  rw [hstatus e he] at hactive
  by_cases hid : e.id = x.id
  · rw [if_pos hid] at hactive
    rw [hkeyed.eq he hx hid]
    exact h hactive
  · rwa [if_neg hid] at hactive

/-- What finds nothing to do on a run meets the condition. -/
theorem KeepsExclusive.of_idles {c : Catalog} {db : Db} {v : RunView} {call : Call}
    (hidle : Idles c db v call) : KeepsExclusive c db v call := by
  obtain ⟨ctx, operation⟩ := call
  cases operation with
  | executorEvent delivery message =>
    intro hnew htarget x hx hid hold
    have hno := hidle hnew x hx hid
    rw [htarget, hold] at hno
    exact absurd hno (by decide)
  | cancelExecution executionId =>
    intro x hx hid hold
    have hfinal := hidle x hx hid
    rw [hold] at hfinal
    exact absurd hfinal (by decide)
  | retryRun runId =>
    intro hid x hx
    rw [hidle hid] at hx
    exact absurd hx List.not_mem_nil
  | retryExecution executionId =>
    intro x hx hid
    exact absurd hid (hidle x hx)
  | _ => trivial

/-! ## Each kind of step

An attempt becomes active again if an event requeues a superseded one or a cancellation reaches
it, and new attempts come from the dispatch behind the end of an execution and from the two
retries. The other steps only end attempts. Of those with a condition, the retries add attempts,
and the lemma on added attempts is theirs; the other two move one row. -/

section Kinds

variable {c : Catalog} {db : Db} {ctx : CallContext} {v v' : RunView}
  {u : JobExecutionEntity → JobExecutionEntity} {x : JobExecutionEntity}

/-- An event that does not end an execution: it matters whether it requeues a superseded one. -/
theorem move_exclusive_iff {delivery : ExecutorEventService.Delivery}
    {message : ExecutorEventMessage} {t : JobExecutionStatus} (hv : Attempted c v)
    (hP : Exclusive c v) (hnew : Consumes db delivery message) (hx : x ∈ v.rows)
    (hid : message.jobExecutionId = some x.id)
    (htarget : ExecutorEventService.mapStatus message.status = some t)
    (hcan : canTransition x.status t = true) (heffect : ViewEffect v v' u [] [])
    (hstatus : SetsStatus v.rows u x.id t) :
    KeepsExclusive c db v ⟨ctx, .executorEvent delivery message⟩ ↔ Exclusive c v' := by
  have hsame : ∀ y ∈ v.rows, message.jobExecutionId = some y.id → y = x :=
    fun y hy hyid ↦ hv.keyed.eq hy hx (Option.some.inj (hyid.symm.trans hid))
  by_cases hrevive : x.status = .retrying ∧ t = .queued
  · obtain ⟨hold, rfl⟩ := hrevive
    rw [exclusive_activate_iff hv heffect hx hstatus (by rw [hold]; decide) (by decide) hP]
    refine ⟨fun hok ↦ hok hnew htarget x hx hid hold, fun hunworked _ _ y hy hyid _ ↦ ?_⟩
    rwa [hsame y hy hyid]
  · refine iff_of_true ?_ (hP.quiet hv heffect (le_of_setsStatus hv.keyed hx hstatus ?_))
    · intro _ hqueued y hy hyid hold
      rw [hsame y hy hyid] at hold
      exact absurd ⟨hold, Option.some.inj (htarget.symm.trans hqueued)⟩ hrevive
    · intro hactive
      exact (active_of_canTransition hcan hactive).resolve_right hrevive

/-- An event that ends an execution: what it makes ready has not been attempted before. -/
theorem finish_exclusive {t : JobExecutionStatus} {created : List JobExecutionEntity}
    (hv : Attempted c v) (hP : Exclusive c v) (hx : x ∈ v.rows) (hfinal : t.isFinalStatus = true)
    (heffect : ViewEffect v v' u created (queuedIds created))
    (hstatus : SetsStatus v.rows u x.id t)
    (hcreated : List.Forall₂ (fun job e ↦ FreshRow c v.run.id job 1 e)
      (c.readyJobs v.run.pipelineId (v.rows.map u)) created) : Exclusive c v' := by
  have hadds := addsAttempts_ready heffect.keeps hcreated
  have hinactive : t.isActive = false := JobExecutionStatus.not_active_of_final hfinal
  have hle := le_of_setsStatus hv.keyed hx hstatus (by rw [hinactive]; simp)
  refine (exclusive_append_iff hv heffect hadds hle hP).mpr fun f hf ↦ ?_
  obtain ⟨job, hjob, hrow⟩ := exists_of_forall₂_right hcreated hf
  obtain ⟨hmem, hnone, -⟩ := Catalog.mem_readyJobs.mp hjob
  rw [hrow.jobId]
  refine ⟨fun e he hjobId ↦ absurd hjobId (hnone e he), fun job' hjob' hid' ↦ ?_⟩
  have hzero : attempts v.rows job'.id = 0 := by
    rw [← heffect.keeps.attempts, hid']
    exact Latest.count_eq_zero.mpr hnone
  rw [hzero]
  exact c.maxAttempts_pos job' hjob'

/-- The cancellation of an execution: it matters whether the execution was superseded. -/
theorem cancelExecution_exclusive_iff (hv : Attempted c v) (hP : Exclusive c v) (hx : x ∈ v.rows)
    (hfinal : x.status.isFinalStatus = false) (heffect : ViewEffect v v' u [] [])
    (hstatus : SetsStatus v.rows u x.id .canceling) :
    KeepsExclusive c db v ⟨ctx, .cancelExecution x.id⟩ ↔ Exclusive c v' := by
  by_cases hold : x.status = .retrying
  · rw [exclusive_activate_iff hv heffect hx hstatus (by rw [hold]; decide) (by decide) hP]
    refine ⟨fun hok ↦ hok x hx rfl hold, fun hunworked y hy hyid _ ↦ ?_⟩
    rwa [hv.keyed.eq hy hx hyid]
  · refine iff_of_true ?_ (hP.quiet hv heffect (le_of_setsStatus hv.keyed hx hstatus ?_))
    · intro y hy hyid hyold
      rw [hv.keyed.eq hy hx hyid] at hyold
      exact absurd hyold hold
    · intro _
      rcases x.status.final_or_active with h | h | h
      · rw [h] at hfinal
        exact absurd hfinal (by decide)
      · exact h
      · exact absurd h hold

/-- Attempts that are added while the others stay as active as they are. -/
theorem exclusive_retried_iff {fresh : List JobExecutionEntity} {sent : List UUID}
    (hv : Attempted c v) (hP : Exclusive c v) (heffect : ViewEffect v v' u fresh sent)
    (hadds : AddsAttempts c v fresh)
    (hactive : ∀ e ∈ v.rows, (u e).status.isActive = e.status.isActive) : Exclusive c v' ↔
      ∀ f ∈ fresh, Unworked v.rows f.jobId ∧ MayRetry c v.rows f.jobId := by
  have hunworked : ∀ k, Unworked (v.rows.map u) k ↔ Unworked v.rows k := by
    intro k
    simp only [Unworked, List.forall_mem_map, heffect.keeps.jobId]
    exact forall₂_congr fun e he ↦ by rw [hactive e he]
  rw [exclusive_append_iff hv heffect hadds (fun e he ↦ by rw [hactive e he]; exact id) hP]
  exact forall₂_congr fun f _ ↦ and_congr_left' (hunworked f.jobId)

/-- What a retry of the run picks is not worked on, and its job may be attempted once more. -/
theorem of_mem_retryPicks (hv : Attempted c v) (hx : x ∈ retryPicks c v.rows) :
    x.status.isActive = false ∧ MayRetry c v.rows x.jobId := by
  obtain ⟨job, hjob, hid, hcandidate⟩ := of_retryable (mem_retryPicks.mp hx).2
  obtain ⟨hidle, hlt⟩ := not_active_of_isRetryCandidate hcandidate
  refine ⟨hidle, fun job' hjob' hid' ↦ ?_⟩
  rw [c.jobs_keyed.eq hjob' hjob (hid'.trans hid.symm), hid,
    ← attempt_of_mem_retryPicks hv.numbered hx]
  exact hlt

/-- The retry of a run: the attempts allowed are checked, other attempts at work are not. -/
theorem retryRun_exclusive_iff {retried : List JobExecutionEntity} (hv : Attempted c v)
    (hP : Exclusive c v) (heffect : ViewEffect v v' u retried (queuedIds retried))
    (hstatus : ∀ e ∈ v.rows, (u e).status =
      if e.id ∈ (retryPicks c v.rows).map JobExecutionEntity.id then .retrying else e.status)
    (hretried : List.Forall₂ (Retries c v.run.id) (retryPicks c v.rows) retried) :
    KeepsExclusive c db v ⟨ctx, .retryRun v.run.id⟩ ↔ Exclusive c v' := by
  have hactive : ∀ e ∈ v.rows, (u e).status.isActive = e.status.isActive := by
    intro e he
    rw [hstatus e he]
    by_cases hid : e.id ∈ (retryPicks c v.rows).map JobExecutionEntity.id
    · obtain ⟨y, hy, hyid⟩ := List.mem_map.mp hid
      obtain rfl := hv.keyed.eq he (mem_of_mem_retryPicks hy) hyid.symm
      rw [if_pos hid, (of_mem_retryPicks hv hy).1]
      rfl
    · rw [if_neg hid]
  rw [exclusive_retried_iff hv hP heffect (addsAttempts_retried hv hretried) hactive]
  constructor
  · intro hok f hf
    obtain ⟨y, hy, hretries⟩ := exists_of_forall₂_right hretried hf
    rw [jobId_of_retries hretries]
    exact ⟨hok rfl y hy, (of_mem_retryPicks hv hy).2⟩
  · intro hfresh _ y hy
    obtain ⟨f, hf, hretries⟩ := exists_of_forall₂_left hretried hy
    rw [← jobId_of_retries hretries]
    exact (hfresh f hf).1

/-- The retry of an execution: neither is checked. -/
theorem retryExecution_exclusive_iff {job : JobEntity} {retried : JobExecutionEntity}
    (hv : Attempted c v) (hP : Exclusive c v) (hx : x ∈ v.rows) (hjobId : job.id = x.jobId)
    (hcandidate : isRetryCandidate x job = true)
    (heffect : ViewEffect v v' u [retried] (queuedIds [retried]))
    (hstatus : SetsStatus v.rows u x.id .retrying)
    (hretried : FreshRow c v.run.id job (nextAttempt v.rows job.id) retried) :
    KeepsExclusive c db v ⟨ctx, .retryExecution x.id⟩ ↔ Exclusive c v' := by
  have hactive : ∀ e ∈ v.rows, (u e).status.isActive = e.status.isActive := by
    intro e he
    rw [hstatus e he]
    by_cases hid : e.id = x.id
    · rw [if_pos hid, hv.keyed.eq he hx hid, (not_active_of_isRetryCandidate hcandidate).1]
      rfl
    · rw [if_neg hid]
  rw [exclusive_retried_iff hv hP heffect (addsAttempts_retry hv hx hjobId hretried) hactive]
  simp only [List.forall_mem_singleton, hretried.jobId, hjobId]
  refine ⟨fun hok ↦ hok x hx rfl, fun hfresh y hy hyid ↦ ?_⟩
  rwa [hv.keyed.eq hy hx hyid]

end Kinds

/-- **One step.** An operation keeps a run exclusive exactly when it meets the condition. -/
theorem RunStep.exclusive_iff {c : Catalog} {db : Db} {call : Call} {v v' : RunView}
    (hv : Attempted c v) (hP : Exclusive c v) (h : RunStep c db call v v') :
    KeepsExclusive c db v call ↔ Exclusive c v' := by
  cases h with
  | idle hidle heffect hstatus hrun =>
    refine iff_of_true (.of_idles hidle) (hP.quiet hv heffect fun e he hactive ↦ ?_)
    rwa [← hstatus e he]
  | move hnew hx hid htarget hcan hfinal heffect hstatus hrun =>
    exact move_exclusive_iff hv hP hnew hx hid htarget hcan heffect hstatus
  | finish hnew hx hid htarget hcan hfinal heffect hstatus hcreated hrun =>
    refine iff_of_true ?_ (finish_exclusive hv hP hx hfinal heffect hstatus hcreated)
    intro _ hqueued
    rw [htarget] at hqueued
    rw [Option.some.inj hqueued] at hfinal
    exact absurd hfinal (by decide)
  | cancelRun heffect hstatus hrun =>
    refine iff_of_true trivial (hP.quiet hv heffect fun e he hactive ↦ ?_)
    rw [hstatus e he] at hactive
    by_cases he : e.status.isActive = true
    · exact he
    · rwa [if_neg he] at hactive
  | cancelExecution hx hfinal heffect hstatus hrun =>
    exact cancelExecution_exclusive_iff hv hP hx hfinal heffect hstatus
  | retryRun hpicks heffect hstatus hretried hrun =>
    exact retryRun_exclusive_iff hv hP heffect hstatus hretried
  | retryExecution hx hjob hjobId hcandidate heffect hstatus hretried hrun =>
    exact retryExecution_exclusive_iff hv hP hx hjobId hcandidate heffect hstatus hretried
  | approve hx happroval hfor hpending hwaiting heffect hstatus hrun =>
    refine iff_of_true trivial (hP.quiet hv heffect (le_of_setsStatus hv.keyed hx hstatus ?_))
    rw [hwaiting]
    decide
  | reject hx happroval hunique hfor hpending hwaiting heffect hstatus hrun =>
    refine iff_of_true trivial (hP.quiet hv heffect (le_of_setsStatus hv.keyed hx hstatus ?_))
    exact fun hactive ↦ absurd hactive (by decide)
  | checkTimeouts heffect hstatus hrun =>
    refine iff_of_true trivial (hP.quiet hv heffect fun e he hactive ↦ ?_)
    rw [hstatus e he] at hactive
    split at hactive
    · exact absurd hactive (by decide)
    · exact hactive

theorem RunStart.exclusive {c : Catalog} {v : RunView} (h : RunStart c v) : Exclusive c v := by
  have hv := h.attempted
  have hone : ∀ e ∈ v.rows, e.attempt = 1 := by
    intro e he
    obtain ⟨job, -, hrow⟩ := exists_of_forall₂_right h.rows he
    exact hrow.attempt
  refine ⟨hv.numbered, fun job hjob ↦ ?_, fun e he f hf hjobId _ _ ↦ ?_⟩
  · have hpos := c.maxAttempts_pos job hjob
    by_contra hlt
    obtain ⟨e, he, -, hrank⟩ := hv.numbered.exists_rank (k := job.id) (n := 2) (by omega)
      (show 2 ≤ attempts v.rows job.id by omega)
    have := hone e he
    omega
  · exact hv.numbered.ranked e he f hf hjobId (by rw [hone e he, hone f hf])

/-- **Attempt numbering and exclusivity.** Throughout a history every run is exclusive exactly when
the operations of the history meet the condition on every run. -/
theorem exclusive_throughout_iff (c : Catalog) (calls : List Call) :
    (∀ past, past <+: calls → EveryView (Exclusive c) (history c past)) ↔
      Along (step c) (Permitted c (KeepsExclusive c)) Db.empty calls :=
  view_always_iff (fun _ hdb ↦ attempted_view hdb) (fun _ hv ↦ hv.exclusive)
    (fun _ _ _ _ hv hP h ↦ h.exclusive_iff hv hP) calls

/-- A failed attempt is superseded, canceled, reported failed again and retried once more, while
its second attempt is queued. -/
def revivedAttempt : List Call :=
  [Small.call (.createRun 0 none), Small.deliver (Small.message 100 2 .running),
   Small.deliver (Small.failure 101 2), Small.call (.retryRun 0), Small.call (.cancelExecution 2),
   Small.deliver (Small.failure 102 2), Small.call (.retryExecution 2)]

theorem not_exclusive_throughout : ¬ ∀ c db, Reachable c db → EveryView (Exclusive c) db := by
  intro h
  let db := history Small.solo revivedAttempt
  have hbad : ∃ v ∈ db.view 0, ∃ e ∈ v.rows, ∃ f ∈ v.rows, e.jobId = f.jobId ∧
      e.status.isActive = true ∧ f.status.isActive = true ∧ e ≠ f := by decide +kernel
  obtain ⟨v, hv, e, he, f, hf, hjob, hae, haf, hne⟩ := hbad
  exact hne ((h Small.solo db ⟨_, rfl⟩ 0 v hv).exclusive e he f hf hjob hae haf)

end FuzzingCiCd.Master
