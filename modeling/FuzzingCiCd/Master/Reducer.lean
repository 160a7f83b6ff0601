import FuzzingCiCd.Master.Entities
import Mathlib.Order.Defs.LinearOrder

/-!
# The status of a run

`PipelineStateReducer.reduce` computes the status of a run from those of its executions by a
cascade of any/all tests. The cascade is a maximum: the statuses fall into six classes of
increasing severity, and the status of the run is that of the most severe class present. All later
arguments about run statuses compare severities.

## Main results

* `reduce_eq`: the cascade is a maximum of severities.
* `severity`: what the maximum is taken of.
-/

namespace FuzzingCiCd.Master

namespace PipelineStateReducer

/-- `PipelineStateReducer.reduce`. -/
def reduce (statuses : List JobExecutionStatus) : PipelineRunStatus :=
  if statuses.isEmpty then .queued
  else if statuses.any fun status ↦ status = .canceling then .canceling
  else if statuses.any fun status ↦
      status = .queued || status = .running || status = .retrying then .running
  else if statuses.any fun status ↦ status = .waitingApproval then .waitingApproval
  else if statuses.all fun status ↦ status = .canceled then .canceled
  else if statuses.any fun status ↦ status = .failed || status = .timeout then .failed
  else .success

/-! ## Severity -/

/-- The class of a status in the cascade. -/
def severity : JobExecutionStatus → ℕ
  | .canceled => 0
  | .success | .skipped => 1
  | .failed | .timeout => 2
  | .waitingApproval => 3
  | .queued | .running | .retrying => 4
  | .canceling => 5

/-- The run status of a class. -/
def statusOfSeverity : ℕ → PipelineRunStatus
  | 0 => .canceled
  | 1 => .success
  | 2 => .failed
  | 3 => .waitingApproval
  | 4 => .running
  | _ => .canceling

/-- The greatest severity in a list. -/
def worst : List JobExecutionStatus → ℕ
  | [] => 0
  | s :: l => max (severity s) (worst l)

theorem worst_le_iff {l : List JobExecutionStatus} {n : ℕ} :
    worst l ≤ n ↔ ∀ s ∈ l, severity s ≤ n := by
  induction l with
  | nil => simp [worst]
  | cons s l ih => simp [worst, ih]

theorem severity_le_worst {l : List JobExecutionStatus} {s : JobExecutionStatus} (h : s ∈ l) :
    severity s ≤ worst l :=
  worst_le_iff.mp le_rfl s h

theorem exists_severity_eq_worst {l : List JobExecutionStatus} (h : l ≠ []) :
    ∃ s ∈ l, severity s = worst l := by
  induction l with
  | nil => exact absurd rfl h
  | cons s l ih =>
    by_cases hs : worst l ≤ severity s
    · exact ⟨s, List.mem_cons_self, by rw [worst, max_eq_left hs]⟩
    · have hlt : severity s < worst l := by omega
      have hl : l ≠ [] := by
        rintro rfl
        exact absurd hlt (Nat.not_lt_zero _)
      obtain ⟨t, ht, heq⟩ := ih hl
      exact ⟨t, List.mem_cons_of_mem _ ht, by rw [worst, max_eq_right hlt.le, heq]⟩

theorem severity_le (s : JobExecutionStatus) : severity s ≤ 5 := by
  cases s <;> decide

theorem worst_le (l : List JobExecutionStatus) : worst l ≤ 5 :=
  worst_le_iff.mpr fun s _ ↦ severity_le s

/-- **The cascade is a maximum.** -/
theorem reduce_eq {l : List JobExecutionStatus} (h : l ≠ []) :
    reduce l = statusOfSeverity (worst l) := by
  have hmem : ∀ s ∈ l, severity s ≤ worst l := fun s ↦ severity_le_worst
  obtain ⟨top, htop, heq⟩ := exists_severity_eq_worst h
  have hbound := worst_le l
  have hempty : l.isEmpty = false := by simpa using h
  have hany : ∀ p : JobExecutionStatus → Bool,
      (∀ s, p s = true → severity s ≤ worst l → False) → l.any p = false := by
    intro p hp
    rw [List.any_eq_false]
    exact fun s hs hps ↦ hp s hps (hmem s hs)
  have hsome : ∀ p : JobExecutionStatus → Bool, p top = true → l.any p = true :=
    fun p hp ↦ List.any_eq_true.mpr ⟨top, htop, hp⟩
  rw [reduce, hempty, if_neg (by decide)]
  by_cases h5 : worst l = 5
  · rw [hsome _ (by rw [h5] at heq; revert heq; cases top <;> decide), if_pos rfl, h5]
    rfl
  rw [hany _ (by intro s; cases s <;> (simp [severity]; try omega)), if_neg (by decide)]
  by_cases h4 : worst l = 4
  · rw [hsome _ (by rw [h4] at heq; revert heq; cases top <;> decide), if_pos rfl, h4]
    rfl
  rw [hany _ (by intro s; cases s <;> (simp [severity]; try omega)), if_neg (by decide)]
  by_cases h3 : worst l = 3
  · rw [hsome _ (by rw [h3] at heq; revert heq; cases top <;> decide), if_pos rfl, h3]
    rfl
  rw [hany _ (by intro s; cases s <;> (simp [severity]; try omega)), if_neg (by decide)]
  by_cases h0 : worst l = 0
  · have hall : l.all (fun status ↦ status = .canceled) = true := by
      rw [List.all_eq_true]
      intro s hs
      have hle := hmem s hs
      rw [h0] at hle
      revert hle
      cases s <;> decide
    rw [hall, if_pos rfl, h0]
    rfl
  have hall : l.all (fun status ↦ status = .canceled) = false := by
    rw [List.all_eq_false]
    refine ⟨top, htop, ?_⟩
    rw [← heq] at h0
    revert h0
    cases top <;> decide
  rw [hall, if_neg (by decide)]
  by_cases h2 : worst l = 2
  · rw [hsome _ (by rw [h2] at heq; revert heq; cases top <;> decide), if_pos rfl, h2]
    rfl
  rw [hany _ (by intro s; cases s <;> (simp [severity]; try omega)), if_neg (by decide)]
  have h1 : worst l = 1 := by omega
  rw [h1]
  rfl

theorem statusOfSeverity_inj {m n : ℕ} (hm : m ≤ 5) (hn : n ≤ 5) :
    statusOfSeverity m = statusOfSeverity n ↔ m = n := by
  have hinj : ∀ m ≤ 5, ∀ n ≤ 5, statusOfSeverity m = statusOfSeverity n → m = n := by decide
  exact ⟨hinj m hm n hn, fun h ↦ by rw [h]⟩

/-- Two lists of statuses give the same run status when they are equally severe. -/
theorem reduce_eq_reduce_iff {l l' : List JobExecutionStatus} (h : l ≠ []) (h' : l' ≠ []) :
    reduce l = reduce l' ↔ worst l = worst l' := by
  rw [reduce_eq h, reduce_eq h', statusOfSeverity_inj (worst_le l) (worst_le l')]

/-! ## Final run statuses -/

theorem severity_le_two_iff {s : JobExecutionStatus} :
    severity s ≤ 2 ↔ s.isFinalStatus = true := by
  cases s <;> decide

/-- A computed run status is final exactly when there are executions and all of them are. -/
theorem isFinalStatus_reduce {l : List JobExecutionStatus} :
    (reduce l).isFinalStatus = true ↔ l ≠ [] ∧ ∀ s ∈ l, s.isFinalStatus = true := by
  by_cases h : l = []
  · subst h
    simp [reduce, PipelineRunStatus.isFinalStatus]
  have hfinal : ∀ n ≤ 5, ((statusOfSeverity n).isFinalStatus = true ↔ n ≤ 2) := by decide
  rw [reduce_eq h, hfinal _ (worst_le l), worst_le_iff]
  simp [h, severity_le_two_iff]

end PipelineStateReducer

/-- `PipelineOrchestrator.reduceRunStatus`. -/
def reduceRunStatus (executions : List JobExecutionEntity) : PipelineRunStatus :=
  PipelineStateReducer.reduce (executions.map JobExecutionEntity.status)

end FuzzingCiCd.Master
