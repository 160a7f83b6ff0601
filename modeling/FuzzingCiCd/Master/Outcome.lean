import FuzzingCiCd.Master.Completion

/-!
# The outcome of a run

The status of a run is the most severe status among *all* its executions, superseded attempts
included, with `CANCELED` as the mildest. Compared with what it should be this is wrong at both
ends: a superseded attempt outweighs the attempts that replaced it, and a canceled execution
weighs less than a successful one. Both statements are exact.

## Main results

* `recomputeRunStatus_latest_iff`: when the stored status is that of the latest attempts.
* `canceled_outcome_iff`: when a canceled execution shows in the status of its run.
-/

namespace FuzzingCiCd.Master

open Transition PipelineRunService PipelineStateReducer

/-- The executions that count: for each job the one with the greatest attempt. -/
def latestAttempts (rows : List JobExecutionEntity) : List JobExecutionEntity :=
  Latest.latestEntries JobExecutionEntity.jobId JobExecutionEntity.attempt rows

/-- The statuses of executions that nothing went wrong with. -/
def Harmless (status : JobExecutionStatus) : Prop :=
  status = .success ∨ status = .skipped ∨ status = .canceled

instance (status : JobExecutionStatus) : Decidable (Harmless status) :=
  inferInstanceAs (Decidable (status = .success ∨ status = .skipped ∨ status = .canceled))

theorem severity_le_one_iff {s : JobExecutionStatus} : severity s ≤ 1 ↔ Harmless s := by
  cases s <;> decide

/-- The status `SUCCESS` is computed when nothing is worse and something is not canceled. -/
theorem reduce_eq_success_iff {l : List JobExecutionStatus} :
    reduce l = .success ↔ (∀ s ∈ l, Harmless s) ∧ ∃ s ∈ l, s ≠ .canceled := by
  by_cases h : l = []
  · subst h
    simp [reduce]
  have hone : ∀ n ≤ 5, (statusOfSeverity n = .success ↔ n = 1) := by decide
  have hzero : worst l ≤ 0 ↔ ∀ s ∈ l, s = .canceled := by
    rw [worst_le_iff]
    refine forall₂_congr fun s _ ↦ ?_
    cases s <;> decide
  have hle : worst l ≤ 1 ↔ ∀ s ∈ l, Harmless s := by
    rw [worst_le_iff]
    exact forall₂_congr fun s _ ↦ severity_le_one_iff
  rw [reduce_eq h, hone _ (worst_le l), ← hle]
  have hexists : (∃ s ∈ l, s ≠ .canceled) ↔ ¬ worst l ≤ 0 := by
    rw [hzero]
    push Not
    rfl
  rw [hexists]
  omega

/-! ## Superseded attempts -/

theorem latestAttempts_eq_nil {rows : List JobExecutionEntity} :
    latestAttempts rows = [] ↔ rows = [] := by
  constructor
  · intro h
    rw [List.eq_nil_iff_forall_not_mem]
    intro e he
    obtain ⟨a, ha⟩ := Latest.exists_latest JobExecutionEntity.jobId
      JobExecutionEntity.attempt he
    have hmem : a ∈ latestAttempts rows := by
      refine Latest.mem_latestEntries.mpr ?_
      rwa [(Latest.of_latest ha).2.1]
    rw [h] at hmem
    exact absurd hmem List.not_mem_nil
  · rintro rfl
    rfl

/-- The status of a run is that of its latest attempts exactly when no execution is more severe
than all of them. -/
theorem reduceRunStatus_latest_iff (rows : List JobExecutionEntity) :
    reduceRunStatus rows = reduceRunStatus (latestAttempts rows) ↔
      ∀ e ∈ rows, ∃ f ∈ latestAttempts rows, severity e.status ≤ severity f.status := by
  by_cases hempty : rows = []
  · subst hempty
    simp [latestAttempts, Latest.latestEntries, Latest.descending, Latest.firsts]
  have hlatest : latestAttempts rows ≠ [] := fun h ↦ hempty (latestAttempts_eq_nil.mp h)
  have hsub : worst ((latestAttempts rows).map JobExecutionEntity.status) ≤
      worst (rows.map JobExecutionEntity.status) := by
    rw [worst_le_iff, List.forall_mem_map]
    intro e he
    exact severity_le_worst (List.mem_map_of_mem (Latest.mem_of_mem_latestEntries he))
  rw [reduceRunStatus, reduceRunStatus, reduce_eq_reduce_iff (by simpa) (by simpa)]
  constructor
  · intro heq e he
    obtain ⟨s, hs, hworst⟩ := exists_severity_eq_worst
      (l := (latestAttempts rows).map JobExecutionEntity.status) (by simpa)
    obtain ⟨f, hf, rfl⟩ := List.mem_map.mp hs
    refine ⟨f, hf, ?_⟩
    rw [hworst, ← heq]
    exact severity_le_worst (List.mem_map_of_mem he)
  · intro h
    refine le_antisymm (worst_le_iff.mpr ?_) hsub
    rw [List.forall_mem_map]
    intro e he
    obtain ⟨f, hf, hle⟩ := h e he
    exact hle.trans (severity_le_worst (List.mem_map_of_mem hf))

theorem status_of_recomputeRunStatus {now : Instant} {r : UUID} {db db' : Db} (hs : Sound db)
    (h : recomputeRunStatus now r db = .ok db') : ∃ run, db'.findRun r = some run ∧
      run.status = reduceRunStatus (db.findByPipelineRunId r) := by
  have hfound : ∃ run, db.findRun r = some run := by
    rw [recomputeRunStatus, bind_eq_ok] at h
    obtain ⟨run, hrun, -⟩ := h
    exact ⟨run, orNotFound_eq_ok.mp hrun⟩
  obtain ⟨run, hrun⟩ := hfound
  refine ⟨recomputed now run (db.findByPipelineRunId r), ?_, rfl⟩
  rw [recomputeRunStatus_ok hs h, findRun_updateRun
    (f := fun run ↦ recomputed now run (db.findByPipelineRunId r)) (fun _ ↦ rfl), hrun,
    Option.map_some, if_pos rfl]

/-- **The outcome and the latest attempts.** The status that `recomputeRunStatus` stores is that of
the latest attempts exactly when no execution is more severe than all of them. When the latest
attempts have all succeeded it is `SUCCESS` exactly when there are any and the superseded attempts
are harmless too. -/
theorem recomputeRunStatus_latest_iff {c : Catalog} {now : Instant} {r : UUID} {db db' : Db}
    (hdb : Reachable c db) (h : recomputeRunStatus now r db = .ok db') :
    ∃ run, db'.findRun r = some run ∧
      (run.status = reduceRunStatus (latestAttempts (db.findByPipelineRunId r)) ↔
        ∀ e ∈ db.findByPipelineRunId r, ∃ f ∈ latestAttempts (db.findByPipelineRunId r),
          severity e.status ≤ severity f.status) ∧
      ((∀ f ∈ latestAttempts (db.findByPipelineRunId r), f.status = .success) →
        (run.status = .success ↔ db.findByPipelineRunId r ≠ [] ∧
          ∀ e ∈ db.findByPipelineRunId r, Harmless e.status)) := by
  obtain ⟨run, hrun, hstatus⟩ := status_of_recomputeRunStatus hdb.sound h
  refine ⟨run, hrun, ?_, fun hsuccess ↦ ?_⟩
  · rw [hstatus]
    exact reduceRunStatus_latest_iff _
  · rw [hstatus, reduceRunStatus, reduce_eq_success_iff, List.forall_mem_map, and_comm]
    refine and_congr_left fun _ ↦ ⟨?_, fun hne ↦ ?_⟩
    · rintro ⟨s, hs, -⟩ hempty
      rw [hempty] at hs
      exact absurd hs List.not_mem_nil
    · have hlatest : latestAttempts (db.findByPipelineRunId r) ≠ [] :=
        fun hnil ↦ hne (latestAttempts_eq_nil.mp hnil)
      obtain ⟨f, hf⟩ := List.exists_mem_of_ne_nil _ hlatest
      refine ⟨f.status, List.mem_map_of_mem (Latest.mem_of_mem_latestEntries hf), ?_⟩
      rw [hsuccess f hf]
      decide

theorem recomputeRunStatus_latest_iff_retried : ∃ db', recomputeRunStatus 0 0
      (history Small.solo retriedWithSuccess) = .ok db' ∧ ∃ run, db'.findRun 0 = some run ∧
    (run.status = reduceRunStatus (latestAttempts
        ((history Small.solo retriedWithSuccess).findByPipelineRunId 0)) ↔
      ∀ e ∈ (history Small.solo retriedWithSuccess).findByPipelineRunId 0,
        ∃ f ∈ latestAttempts ((history Small.solo retriedWithSuccess).findByPipelineRunId 0),
          severity e.status ≤ severity f.status) ∧
    ((∀ f ∈ latestAttempts ((history Small.solo retriedWithSuccess).findByPipelineRunId 0),
        f.status = .success) →
      (run.status = .success ↔ (history Small.solo retriedWithSuccess).findByPipelineRunId 0 ≠ [] ∧
        ∀ e ∈ (history Small.solo retriedWithSuccess).findByPipelineRunId 0,
          Harmless e.status)) := by
  have hok : (recomputeRunStatus 0 0 (history Small.solo retriedWithSuccess)).toBool = true := by
    decide +kernel
  cases h : recomputeRunStatus 0 0 (history Small.solo retriedWithSuccess) with
  | error e =>
    rw [h] at hok
    exact absurd hok Bool.false_ne_true
  | ok db' => exact ⟨db', rfl, recomputeRunStatus_latest_iff ⟨_, rfl⟩ h⟩

/-- The run stays open although its only job has succeeded in the end. -/
theorem retried_success_is_running :
    ∃ v ∈ (history Small.solo retriedWithSuccess).view 0,
      (∀ f ∈ latestAttempts v.rows, f.status = .success) ∧
        reduceRunStatus (latestAttempts v.rows) = .success ∧ v.run.status = .running ∧
          reduceRunStatus v.rows = .running := by decide +kernel

/-! ## Canceled executions -/

/-- **Canceling and the outcome.** A list of final statuses with a canceled one reduces to
`CANCELED` or `FAILED` exactly when all are canceled or one failed. In whatever state a run is
after a cancellation, once an execution that the cancellation hit is canceled, the status that
`recomputeRunStatus` stores differs from `SUCCESS` exactly when all executions are canceled or one
is not harmless. -/
theorem canceled_outcome_iff (l : List JobExecutionStatus) (c : Catalog) (db : Db)
    (later : List Call) :
    ((∀ s ∈ l, s.isFinalStatus = true) → .canceled ∈ l →
      ((reduce l = .canceled ∨ reduce l = .failed) ↔
        (∀ s ∈ l, s = .canceled) ∨ ∃ s ∈ l, s = .failed ∨ s = .timeout)) ∧
    (Reachable c db → ∀ ctx r db₁, step c ⟨ctx, .cancelRun r⟩ db = .ok db₁ →
      ∀ x ∈ db.findByPipelineRunId r, x.status.isActive = true →
        ∀ x' ∈ (replay (step c) db₁ later).findByPipelineRunId r, x'.id = x.id →
          x'.status = .canceled →
            ∀ now db', recomputeRunStatus now r (replay (step c) db₁ later) = .ok db' →
              ∃ run, db'.findRun r = some run ∧ (run.status ≠ .success ↔
                (∀ e ∈ (replay (step c) db₁ later).findByPipelineRunId r, e.status = .canceled) ∨
                  ∃ e ∈ (replay (step c) db₁ later).findByPipelineRunId r,
                    ¬ Harmless e.status)) := by
  constructor
  · intro hfinal hmem
    have hended := ended_reduce_iff.mpr ⟨List.ne_nil_of_mem hmem, hfinal⟩
    have hnot : (reduce l = .canceled ∨ reduce l = .failed) ↔ ¬ reduce l = .success := by
      rcases hended with h | h | h <;> rw [h] <;> decide
    rw [hnot, reduce_eq_success_iff, not_and_or, or_comm]
    push Not
    refine or_congr_right (exists_congr fun s ↦ and_congr_right fun hs ↦ ?_)
    have := hfinal s hs
    revert this
    cases s <;> decide
  · intro hdb ctx r db₁ hcancel x _ _ x' _ _ _ now db' h
    have hreach : Reachable c (replay (step c) db₁ later) := by
      obtain ⟨past, rfl⟩ := hdb
      refine ⟨past ++ ⟨ctx, .cancelRun r⟩ :: later, ?_⟩
      rw [history, replay_append, replay_cons, apply_of_ok hcancel]
    obtain ⟨run, hrun, hstatus⟩ := status_of_recomputeRunStatus hreach.sound h
    refine ⟨run, hrun, ?_⟩
    rw [hstatus, Ne, reduceRunStatus, reduce_eq_success_iff, not_and_or, or_comm,
      List.forall_mem_map]
    simp

/-- One of two jobs has succeeded when the run is canceled. -/
def canceledHalfway : List Call :=
  [Small.call (.createRun 0 none), Small.deliver (Small.message 100 2 .running),
   Small.deliver (Small.message 101 2 .success), Small.deliver (Small.message 102 5 .running)]

/-- The executor of the other job confirms the cancellation. -/
def confirmedCancel : List Call := [Small.deliver (Small.message 103 5 .canceled)]

theorem canceledHalfway_ends_green :
    (∀ s ∈ [JobExecutionStatus.success, .canceled], s.isFinalStatus = true) ∧
    reduce [.success, .canceled] = .success ∧
    ∃ db₁ ∈ (step Small.twins (Small.call (.cancelRun 0))
        (history Small.twins canceledHalfway)).toOption,
      (∃ x ∈ (history Small.twins canceledHalfway).findByPipelineRunId 0, x.id = 5 ∧
        x.status = .running) ∧
      ∃ v ∈ (replay (step Small.twins) db₁ confirmedCancel).view 0,
        (∃ x ∈ v.rows, x.id = 5 ∧ x.status = .canceled) ∧ v.run.status = .success := by
  decide +kernel

end FuzzingCiCd.Master
