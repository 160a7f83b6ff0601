import FuzzingCiCd.Master.EventRefinement

/-!
# Attempts

How the executions of a run are numbered. In every reachable database the attempts of a job are
`1, 2, …, n`, every execution belongs to a job of the run's pipeline, and a superseded attempt is
followed by a later one; these facts are `Attempted`, an invariant of views that the properties of
runs build on.

What is *not* invariant is that at most one attempt of a job is worked on. A superseded attempt is
not final, so it can still be requeued by an event or be told to stop, and from there it can become
retryable again. `keepsExclusive_iff` says exactly which operations let two attempts overlap.

## Main results

* `RunStep.shape`: a step changes rows in place and adds attempts, nothing else.
* `attempted_view`: the numbering of the attempts in every reachable database.
* `latestStatus_of_mem`: a new attempt is the latest of its job.
-/

namespace FuzzingCiCd.Master

open Transition PipelineRunService

/-! ## The invariant

The attempts of a job are numbered from one, a superseded attempt is not the latest, and every
row belongs to a job of the pipeline. Both ways in which attempts are added draw the next number:
a ready job has no attempt and gets the first, a retry counts on from the one it supersedes. -/

/-- The executions of a job in a run. -/
abbrev attempts (rows : List JobExecutionEntity) (jobId : UUID) : ℕ :=
  Latest.count JobExecutionEntity.jobId jobId rows

/-- How the executions of a run come about. -/
structure Attempted (c : Catalog) (v : RunView) : Prop where
  valid : ExecutionGraphValidator.validate (c.graphOf v.run.pipelineId) = .ok ()
  keyed : Table.Keyed JobExecutionEntity.id v.rows
  jobs : ∀ e ∈ v.rows, ∃ job ∈ c.jobsOf v.run.pipelineId, job.id = e.jobId
  numbered : Latest.Numbered JobExecutionEntity.jobId JobExecutionEntity.attempt v.rows
  /-- A superseded attempt is not the latest. -/
  superseded : ∀ e ∈ v.rows, e.status = .retrying → e.attempt < attempts v.rows e.jobId

/-- The rows a step adds: active attempts of jobs of the pipeline, with the next number. -/
structure AddsAttempts (c : Catalog) (v : RunView) (fresh : List JobExecutionEntity) : Prop where
  continues : Latest.Continues JobExecutionEntity.jobId JobExecutionEntity.attempt v.rows fresh
  active : ∀ e ∈ fresh, e.status.isActive = true
  jobs : ∀ e ∈ fresh, ∃ job ∈ c.jobsOf v.run.pipelineId, job.id = e.jobId

theorem addsAttempts_nil (c : Catalog) (v : RunView) : AddsAttempts c v [] where
  continues := ⟨List.nodup_nil, by simp⟩
  active := by simp
  jobs := by simp

section Lists

variable {c : Catalog} {r : UUID} {u : JobExecutionEntity → JobExecutionEntity}
  {rows : List JobExecutionEntity}

theorem Keeps.attempts (hu : Keeps u) (rows : List JobExecutionEntity) (jobId : UUID) :
    attempts (rows.map u) jobId = attempts rows jobId :=
  Latest.count_map hu.jobId jobId rows

theorem map_jobId_of_forall₂ {α : Type} {R : α → JobExecutionEntity → Prop} {f : α → UUID}
    (hR : ∀ a e, R a e → e.jobId = f a) {as : List α} {es : List JobExecutionEntity}
    (h : List.Forall₂ R as es) : es.map JobExecutionEntity.jobId = as.map f := by
  induction h with
  | nil => rfl
  | cons hrow _ ih => rw [List.map_cons, List.map_cons, ih, hR _ _ hrow]

theorem addsAttempts_ready {v : RunView} {created : List JobExecutionEntity} (hu : Keeps u)
    (hcreated : List.Forall₂ (fun job e ↦ FreshRow c r job 1 e)
      (c.readyJobs v.run.pipelineId (v.rows.map u)) created) : AddsAttempts c v created where
  continues := by
    refine ⟨?_, fun e he ↦ ?_⟩
    · rw [map_jobId_of_forall₂ (fun _ _ hrow ↦ hrow.jobId) hcreated]
      exact Catalog.keyed_readyJobs _ _
    · obtain ⟨job, hjob, hrow⟩ := exists_of_forall₂_right hcreated he
      have hzero : attempts v.rows e.jobId = 0 := by
        rw [← hu.attempts, hrow.jobId]
        exact Latest.count_eq_zero.mpr (Catalog.mem_readyJobs.mp hjob).2.1
      exact hrow.attempt.trans (congrArg (· + 1) hzero.symm)
  active := by
    intro e he
    obtain ⟨job, -, hrow⟩ := exists_of_forall₂_right hcreated he
    exact hrow.isActive
  jobs := by
    intro e he
    obtain ⟨job, hjob, hrow⟩ := exists_of_forall₂_right hcreated he
    exact ⟨job, (Catalog.mem_readyJobs.mp hjob).1, hrow.jobId.symm⟩

theorem mem_retryPicks {e : JobExecutionEntity} : e ∈ retryPicks c rows ↔
    Latest.latest JobExecutionEntity.jobId JobExecutionEntity.attempt e.jobId rows = some e ∧
      retryable c e = true := by
  rw [retryPicks, List.mem_filter, Latest.mem_latestEntries]

theorem mem_of_mem_retryPicks {e : JobExecutionEntity} (h : e ∈ retryPicks c rows) : e ∈ rows :=
  (Latest.of_latest (mem_retryPicks.mp h).1).1

theorem attempt_of_mem_retryPicks
    (hrows : Latest.Numbered JobExecutionEntity.jobId JobExecutionEntity.attempt rows)
    {e : JobExecutionEntity} (h : e ∈ retryPicks c rows) : e.attempt = attempts rows e.jobId :=
  hrows.rank_latest (mem_retryPicks.mp h).1

theorem jobId_of_retries {e retried : JobExecutionEntity} (h : Retries c r e retried) :
    retried.jobId = e.jobId := by
  obtain ⟨job, -, hid, hrow⟩ := h
  rw [hrow.jobId, hid]

theorem addsAttempts_retried {v : RunView} (hv : Attempted c v)
    {retried : List JobExecutionEntity}
    (hretried : List.Forall₂ (Retries c v.run.id) (retryPicks c v.rows) retried) :
    AddsAttempts c v retried where
  continues := by
    refine ⟨?_, fun e he ↦ ?_⟩
    · rw [map_jobId_of_forall₂ (f := JobExecutionEntity.jobId)
        (fun _ _ h ↦ jobId_of_retries h) hretried]
      exact (List.filter_sublist.map _).nodup (Latest.nodup_keys_latestEntries v.rows)
    · obtain ⟨x, hx, h⟩ := exists_of_forall₂_right hretried he
      have hattempt := attempt_of_mem_retryPicks hv.numbered hx
      rw [jobId_of_retries h]
      obtain ⟨job, -, -, hrow⟩ := h
      rw [hrow.attempt, hattempt]
  active := by
    intro e he
    obtain ⟨x, -, job, -, -, hrow⟩ := exists_of_forall₂_right hretried he
    exact hrow.isActive
  jobs := by
    intro e he
    obtain ⟨x, hx, h⟩ := exists_of_forall₂_right hretried he
    rw [jobId_of_retries h]
    exact hv.jobs x (mem_of_mem_retryPicks hx)

private theorem foldl_max_range (n : ℕ) : (List.range' 1 n).foldl max 0 = n := by
  induction n with
  | zero => rfl
  | succ n ih =>
    rw [List.range'_concat, List.foldl_append, ih, List.foldl_cons, List.foldl_nil]
    omega

theorem nextAttempt_eq
    (hrows : Latest.Numbered JobExecutionEntity.jobId JobExecutionEntity.attempt rows)
    (jobId : UUID) : nextAttempt rows jobId = attempts rows jobId + 1 := by
  have hranks := hrows jobId
  rw [Latest.ranks] at hranks
  rw [nextAttempt, hranks, foldl_max_range]

theorem addsAttempts_retry {v : RunView} (hv : Attempted c v) {x retried : JobExecutionEntity}
    {job : JobEntity} (hx : x ∈ v.rows) (hjobId : job.id = x.jobId)
    (hretried : FreshRow c v.run.id job (nextAttempt v.rows job.id) retried) :
    AddsAttempts c v [retried] where
  continues := by
    refine ⟨by simp, fun e he ↦ ?_⟩
    rw [List.mem_singleton.mp he, hretried.attempt, hretried.jobId, nextAttempt_eq hv.numbered]
  active := by
    intro e he
    rw [List.mem_singleton.mp he]
    exact hretried.isActive
  jobs := by
    intro e he
    rw [List.mem_singleton.mp he, hretried.jobId, hjobId]
    exact hv.jobs x hx

end Lists

/-! ## Every step

All steps have one shape: rows change in place, keep their job and attempt, and at most one
attempt is added for a job, with the next number. The numbering is carried from there, without
another look at the operations. -/

/-- What all steps have in common. -/
structure Shape (c : Catalog) (v v' : RunView) (u : JobExecutionEntity → JobExecutionEntity)
    (fresh : List JobExecutionEntity) (sent : List UUID) : Prop where
  effect : ViewEffect v v' u fresh sent
  adds : AddsAttempts c v fresh
  id : v'.run.id = v.run.id
  pipeline : v'.run.pipelineId = v.run.pipelineId
  /-- An attempt is superseded only by a new one. -/
  superseded : ∀ e ∈ v.rows, (u e).status = .retrying →
    e.status = .retrying ∨ ∃ f ∈ fresh, f.jobId = e.jobId

/-- Setting another status supersedes nothing. -/
private theorem superseded_setsStatus {rows fresh : List JobExecutionEntity}
    {u : JobExecutionEntity → JobExecutionEntity} {x : UUID} {t : JobExecutionStatus}
    (h : SetsStatus rows u x t) (ht : t ≠ .retrying) : ∀ e ∈ rows, (u e).status = .retrying →
      e.status = .retrying ∨ ∃ f ∈ fresh, f.jobId = e.jobId := by
  intro e he hu
  rw [h e he] at hu
  split at hu
  · exact absurd hu ht
  · exact Or.inl hu

/-- **The shape of a step.** Rows change in place and attempts are added. -/
theorem RunStep.shape {c : Catalog} {db : Db} {call : Call} {v v' : RunView}
    (hv : Attempted c v) (h : RunStep c db call v v') :
      ∃ u fresh sent, Shape c v v' u fresh sent := by
  cases h with
  | idle hidle heffect hstatus hrun =>
    refine ⟨_, _, _, heffect, addsAttempts_nil c v, by rw [hrun], by rw [hrun], ?_⟩
    intro e he hu
    rw [hstatus e he] at hu
    exact Or.inl hu
  | @move _ _ _ _ _ _ x t hnew hx hid htarget hcan hfinal heffect hstatus hrun =>
    refine ⟨_, _, _, heffect, addsAttempts_nil c v, by rw [hrun], by rw [hrun], ?_⟩
    by_cases ht : t = .retrying
    · -- only a superseded attempt is set to `retrying`
      have hxstatus : x.status = .retrying := by
        rw [ht] at hcan
        revert hcan
        cases x.status <;> decide
      intro e he hu
      rw [hstatus e he] at hu
      by_cases hex : e.id = x.id
      · rw [hv.keyed.eq he hx hex]
        exact Or.inl hxstatus
      · rw [if_neg hex] at hu
        exact Or.inl hu
    · exact superseded_setsStatus hstatus ht
  | finish hnew hx hid htarget hcan hfinal heffect hstatus hcreated hrun =>
    refine ⟨_, _, _, heffect, addsAttempts_ready heffect.keeps hcreated, by rw [hrun]; rfl,
      by rw [hrun]; rfl, superseded_setsStatus hstatus ?_⟩
    rintro rfl
    exact absurd hfinal (by decide)
  | cancelRun heffect hstatus hrun =>
    refine ⟨_, _, _, heffect, addsAttempts_nil c v, by rw [hrun]; rfl, by rw [hrun]; rfl, ?_⟩
    intro e he hu
    rw [hstatus e he] at hu
    split at hu
    · exact absurd hu (by decide)
    · exact Or.inl hu
  | cancelExecution hx hfinal heffect hstatus hrun =>
    exact ⟨_, _, _, heffect, addsAttempts_nil c v, by rw [hrun], by rw [hrun],
      superseded_setsStatus hstatus (by decide)⟩
  | @retryRun _ _ _ _ retried hpicks heffect hstatus hretried hrun =>
    refine ⟨_, _, _, heffect, addsAttempts_retried hv hretried, by rw [hrun]; rfl,
      by rw [hrun]; rfl, ?_⟩
    intro e he hu
    rw [hstatus e he] at hu
    by_cases hpick : e.id ∈ (retryPicks c v.rows).map JobExecutionEntity.id
    · obtain ⟨x, hx, hid⟩ := List.mem_map.mp hpick
      obtain rfl := hv.keyed.eq (mem_of_mem_retryPicks hx) he hid
      obtain ⟨f, hf, hretries⟩ := exists_of_forall₂_left hretried hx
      exact Or.inr ⟨f, hf, jobId_of_retries hretries⟩
    · rw [if_neg hpick] at hu
      exact Or.inl hu
  | @retryExecution _ _ _ _ x retried job hx hjob hjobId hcandidate heffect hstatus hretried hrun =>
    refine ⟨_, _, _, heffect, addsAttempts_retry hv hx hjobId hretried, by rw [hrun]; rfl,
      by rw [hrun]; rfl, ?_⟩
    intro e he hu
    rw [hstatus e he] at hu
    by_cases hex : e.id = x.id
    · obtain rfl := hv.keyed.eq he hx hex
      exact Or.inr ⟨retried, List.mem_singleton.mpr rfl, by rw [hretried.jobId, hjobId]⟩
    · rw [if_neg hex] at hu
      exact Or.inl hu
  | approve hx happroval hfor hpending hwaiting heffect hstatus hrun =>
    exact ⟨_, _, _, heffect, addsAttempts_nil c v, by rw [hrun]; rfl, by rw [hrun]; rfl,
      superseded_setsStatus hstatus (by decide)⟩
  | reject hx happroval hunique hfor hpending hwaiting heffect hstatus hrun =>
    exact ⟨_, _, _, heffect, addsAttempts_nil c v, by rw [hrun]; rfl, by rw [hrun]; rfl,
      superseded_setsStatus hstatus (by decide)⟩
  | checkTimeouts heffect hstatus hrun =>
    refine ⟨_, _, _, heffect, addsAttempts_nil c v, by rw [hrun], by rw [hrun], ?_⟩
    intro e he hu
    rw [hstatus e he] at hu
    split at hu
    · exact absurd hu (by decide)
    · exact Or.inl hu

theorem ViewEffect.mem {v v' : RunView} {u : JobExecutionEntity → JobExecutionEntity}
    {fresh : List JobExecutionEntity} {sent : List UUID} (h : ViewEffect v v' u fresh sent)
    {e : JobExecutionEntity} : e ∈ v'.rows ↔ (∃ x ∈ v.rows, u x = e) ∨ e ∈ fresh := by
  rw [h.rows, List.mem_append, List.mem_map]

theorem ViewEffect.attempts {v v' : RunView} {u : JobExecutionEntity → JobExecutionEntity}
    {fresh : List JobExecutionEntity} {sent : List UUID} (h : ViewEffect v v' u fresh sent)
    (jobId : UUID) : attempts v'.rows jobId = attempts v.rows jobId + attempts fresh jobId := by
  rw [h.rows, Master.attempts, Latest.count_append, Latest.count_map h.keeps.jobId]

theorem ViewEffect.numbered {c : Catalog} {v v' : RunView}
    {u : JobExecutionEntity → JobExecutionEntity} {fresh : List JobExecutionEntity}
    {sent : List UUID} (h : ViewEffect v v' u fresh sent) (hv : Attempted c v)
    (hadds : AddsAttempts c v fresh) :
    Latest.Numbered JobExecutionEntity.jobId JobExecutionEntity.attempt v'.rows := by
  have hmap := hv.numbered.map h.keeps.jobId h.keeps.attempt
  rw [h.rows]
  refine hmap.append ⟨hadds.continues.distinct, fun e he ↦ ?_⟩
  rw [Latest.count_map h.keeps.jobId]
  exact hadds.continues.next e he

theorem Attempted.step {c : Catalog} {v v' : RunView}
    {u : JobExecutionEntity → JobExecutionEntity} {fresh : List JobExecutionEntity}
    {sent : List UUID} (hv : Attempted c v) (h : Shape c v v' u fresh sent) : Attempted c v' where
  valid := by
    rw [h.pipeline]
    exact hv.valid
  keyed := h.effect.keyed
  jobs := by
    intro e he
    rw [h.pipeline]
    rcases h.effect.mem.mp he with ⟨x, hx, rfl⟩ | he
    · rw [h.effect.keeps.jobId]
      exact hv.jobs x hx
    · exact h.adds.jobs e he
  numbered := h.effect.numbered hv h.adds
  superseded := by
    intro e he hstatus
    rw [h.effect.attempts]
    rcases h.effect.mem.mp he with ⟨x, hx, rfl⟩ | he
    · rw [h.effect.keeps.attempt, h.effect.keeps.jobId]
      rcases h.superseded x hx hstatus with hold | ⟨f, hf, hjob⟩
      · have := hv.superseded x hx hold
        omega
      · have hle : x.attempt ≤ attempts v.rows x.jobId := (hv.numbered.rank_mem hx).2
        have hpos : attempts fresh x.jobId ≠ 0 :=
          fun hzero ↦ Latest.count_eq_zero.mp hzero f hf hjob
        omega
    · have hactive := h.adds.active e he
      rw [hstatus] at hactive
      exact absurd hactive (by decide)

theorem RunStart.attempted {c : Catalog} {v : RunView} (h : RunStart c v) : Attempted c v := by
  have hrows : ∀ e ∈ v.rows, ∃ job ∈ c.readyJobs v.run.pipelineId [],
      FreshRow c v.run.id job 1 e := fun e he ↦ exists_of_forall₂_right h.rows he
  constructor
  · exact h.valid
  · exact h.keyed
  · intro e he
    obtain ⟨job, hjob, hrow⟩ := hrows e he
    exact ⟨job, (Catalog.mem_readyJobs.mp hjob).1, hrow.jobId.symm⟩
  · have hcontinues : Latest.Continues JobExecutionEntity.jobId JobExecutionEntity.attempt
        [] v.rows := by
      refine ⟨?_, fun e he ↦ ?_⟩
      · rw [map_jobId_of_forall₂ (fun _ _ hrow ↦ hrow.jobId) h.rows]
        exact Catalog.keyed_readyJobs _ _
      · obtain ⟨job, -, hrow⟩ := hrows e he
        exact hrow.attempt
    exact Latest.numbered_nil.append hcontinues
  · intro e he hstatus
    obtain ⟨job, -, hrow⟩ := hrows e he
    have hactive := hrow.isActive
    rw [hstatus] at hactive
    exact absurd hactive (by decide)

/-- **Attempts of reachable databases.** -/
theorem attempted_view {c : Catalog} {db : Db} (hdb : Reachable c db) :
    EveryView (Attempted c) db := by
  refine view_invariant (fun v hv ↦ hv.attempted) ?_ hdb
  intro db call v v' hv h
  obtain ⟨u, fresh, sent, hshape⟩ := h.shape hv
  exact hv.step hshape

/-! ## Latest statuses -/

section Statuses

variable {c : Catalog} {v v' : RunView} {u : JobExecutionEntity → JobExecutionEntity}
  {fresh : List JobExecutionEntity} {sent : List UUID}

theorem latestStatus_of_ne (hv : Attempted c v) (h : ViewEffect v v' u fresh sent)
    {jobId : UUID} (hne : ∀ f ∈ fresh, f.jobId ≠ jobId) :
    latestStatus v'.rows jobId =
      (Latest.latest JobExecutionEntity.jobId JobExecutionEntity.attempt jobId v.rows).map
        fun e ↦ (u e).status := by
  have hranked := (hv.numbered.map h.keeps.jobId h.keeps.attempt).ranked
  rw [latestStatus, h.rows, Latest.latest_append_of_ne hranked hne,
    Latest.latest_map h.keeps.jobId h.keeps.attempt, Option.map_map]
  rfl

/-- A new attempt is the latest of its job. -/
theorem latestStatus_of_mem (hv : Attempted c v) (h : ViewEffect v v' u fresh sent)
    (hadds : AddsAttempts c v fresh) {f : JobExecutionEntity} (hf : f ∈ fresh) :
    latestStatus v'.rows f.jobId = some f.status := by
  have hmap := hv.numbered.map h.keeps.jobId h.keeps.attempt
  have hcontinues : Latest.Continues JobExecutionEntity.jobId JobExecutionEntity.attempt
      (v.rows.map u) fresh := by
    refine ⟨hadds.continues.distinct, fun e he ↦ ?_⟩
    rw [Latest.count_map h.keeps.jobId]
    exact hadds.continues.next e he
  rw [latestStatus, h.rows, hcontinues.latest hmap hf, Option.map_some]

end Statuses

end FuzzingCiCd.Master
