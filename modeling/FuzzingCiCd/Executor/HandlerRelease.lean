import FuzzingCiCd.Executor.TerminalEvents

/-!
# What a call leaves behind

A call takes a claim, which locks the job, a workspace, and a place among the running jobs. Its
`finally` block gives all three back, one after the other: it cleans the workspace up, closes the
claim and counts the job out. A call of the block that throws takes the calls after it with it.

`LocalWorkspaceManager.cleanup` throws when it cannot delete the workspace, and also when the policy
of the job message asks for something that it does not know. The claim is then never closed and the
job stays locked for as long as the executor lives.

## Main results

* `cleanup_returns_iff`: when the workspace manager cleans up without a throw.
* `cleansUp_iff`: when a call gives everything back.
-/

namespace FuzzingCiCd.Executor

open Contracts Transition

/-! ## The workspace manager -/

namespace LocalWorkspaceManager

def cleanupAlways : String := "always"

def cleanupNever : String := "never"

/-- The policy of a created workspace. -/
def resolvedPolicy (policy : Option WorkspacePolicy) : WorkspacePolicy :=
  policy.getD ⟨some cleanupAlways, false⟩

/-- The cleanup that a policy asks for, by default `always`. -/
def requestedCleanup (policy : WorkspacePolicy) : String :=
  match policy.cleanup with
  | none => cleanupAlways
  | some cleanup => if JavaText.isBlank cleanup then cleanupAlways else cleanup

def unknownPolicy (cleanup : String) : Failure :=
  .exception "ru.diplom.cicd.executor.core.workspace.WorkspaceException"
    (some ("Неизвестная политика очистки workspace: " ++ cleanup))

def shouldCleanup (policy : WorkspacePolicy) (failed : Bool) : Except Failure Bool :=
  if failed && policy.preserveOnFailure then .ok false
  else if JavaText.toLowerCase (requestedCleanup policy).toList = cleanupAlways.toList then .ok true
  else if JavaText.toLowerCase (requestedCleanup policy).toList = cleanupNever.toList then .ok false
  else .error (unknownPolicy (requestedCleanup policy))

/-- `cleanup`, given how the deletion of the directory ends. -/
def cleanup (policy : WorkspacePolicy) (deleteRecursively : Except Failure Unit) (failed : Bool) :
    Except Failure Bool := do
  let delete ← shouldCleanup policy failed
  if delete then
    deleteRecursively
    return true
  else return false

/-- The policy asks for a cleanup that the manager knows and can carry out. -/
structure Feasible (policy : WorkspacePolicy) (deleteRecursively : Except Failure Unit) : Prop where
  known : JavaText.toLowerCase (requestedCleanup policy).toList = cleanupAlways.toList ∨
    JavaText.toLowerCase (requestedCleanup policy).toList = cleanupNever.toList
  deleted : JavaText.toLowerCase (requestedCleanup policy).toList = cleanupAlways.toList →
    deleteRecursively = .ok ()

/-- **When a cleanup returns.** The workspace is preserved after a failure, or what the policy asks
for can be done. -/
theorem cleanup_returns_iff {policy : WorkspacePolicy} {deleteRecursively : Except Failure Unit}
    {failed : Bool} : (∃ deleted, cleanup policy deleteRecursively failed = .ok deleted) ↔
      (failed = true ∧ policy.preserveOnFailure = true) ∨ Feasible policy deleteRecursively := by
  have hdistinct : cleanupAlways.toList ≠ cleanupNever.toList := by decide
  rw [cleanup, shouldCleanup]
  by_cases hpreserve : (failed && policy.preserveOnFailure) = true
  · rw [if_pos hpreserve, ok_bind]
    exact iff_of_true ⟨false, rfl⟩ (Or.inl (Bool.and_eq_true _ _ ▸ hpreserve))
  rw [if_neg hpreserve, ← Bool.and_eq_true, or_iff_right hpreserve]
  by_cases halways : JavaText.toLowerCase (requestedCleanup policy).toList = cleanupAlways.toList
  · rw [if_pos halways, ok_bind, if_pos rfl]
    rcases deleteRecursively with failure | ⟨⟨⟩⟩
    · refine iff_of_false ?_ fun h ↦ ?_
      · rintro ⟨deleted, hdeleted⟩
        cases hdeleted
      · cases h.deleted halways
    · exact iff_of_true ⟨true, rfl⟩ ⟨Or.inl halways, fun _ ↦ rfl⟩
  rw [if_neg halways]
  by_cases hnever : JavaText.toLowerCase (requestedCleanup policy).toList = cleanupNever.toList
  · rw [if_pos hnever, ok_bind]
    exact iff_of_true ⟨false, rfl⟩ ⟨Or.inr hnever, fun h ↦ absurd h halways⟩
  · rw [if_neg hnever]
    refine iff_of_false ?_ fun h ↦ ?_
    · rintro ⟨deleted, hdeleted⟩
      cases hdeleted
    · exact h.known.elim halways hnever

end LocalWorkspaceManager

namespace ExecutorJobHandler

/-! ## What is given back

The `finally` block cleans the workspace up, closes the claim and counts the job out, in this
order, and a call that throws keeps the rest from being attempted. `attempted` follows it;
whether the cleanup is for a failed job is decided by the status that the call has ended with. -/

section Statement

variable (env : Environment) (metrics : ExecutorJobMetrics) (job : JobMessage)

/-- **Giving back.** The claim is closed, the job is counted out as often as it was counted in, and
the workspace is cleaned up if there is one. -/
structure CleansUp : Prop where
  closed : (run env metrics job).2.1.claimed = true →
    Surrounding.close ∈ (run env metrics job).2.2.attempts
  stopped : (run env metrics job).2.2.attempts.count .jobStopped =
    if metrics.jobStarted.toBool then 1 else 0
  cleaned : (∃ failed, Surrounding.cleanup failed ∈ (run env metrics job).2.2.attempts) ↔
    (run env metrics job).2.1.workspace = true

/-- A terminal event with the status of a success is accepted, counted and marked. -/
def Succeeds : Prop :=
  ∃ message completes, firstOut env job = some (message, completes) ∧
    followed env message (completes && claims env job) = .ok () ∧
    (message.status = .success ∨ message.status = .skipped)

/-- The surroundings with the local workspace manager, given how it deletes a directory. -/
def onDisk (deleteRecursively : Except Failure Unit) : Environment :=
  { env with
    cleanup := fun failed ↦
      (LocalWorkspaceManager.cleanup (LocalWorkspaceManager.resolvedPolicy job.workspacePolicy)
        deleteRecursively failed).map fun _ ↦ () }

end Statement

section Attempts

variable {env : Environment} {metrics : ExecutorJobMetrics} {job : JobMessage}

/-- What the `finally` block attempts when it is entered without a workspace. -/
theorem attempted_closing (p : Progress) (closing : List Surrounding)
    (hclosing : closing = if p.claimed = true then
      .close :: if env.close.toBool = true then [.jobStopped] else [] else [.jobStopped]) :
    ((p.claimed = true → Surrounding.close ∈ closing) ∧ closing.count .jobStopped = 1) ↔
      (p.claimed = true → env.close = .ok ()) := by
  by_cases hclaimed : p.claimed = true
  · rw [hclosing, if_pos hclaimed]
    rcases env.close with failure | ⟨⟨⟩⟩
    · refine iff_of_false (fun h ↦ ?_) fun h ↦ by cases h hclaimed
      cases h.2
    · exact iff_of_true ⟨fun _ ↦ List.mem_cons_self, rfl⟩ fun _ ↦ rfl
  · rw [hclosing, if_neg hclaimed]
    exact iff_of_true ⟨fun h ↦ absurd h hclaimed, by decide⟩ fun h ↦ absurd h hclaimed

/-- The `finally` block makes every attempt unless one of its first two calls throws. -/
theorem attempted_iff (p : Progress) :
    ((p.claimed = true → Surrounding.close ∈ attempted env p) ∧
      (attempted env p).count .jobStopped = 1) ↔
    (p.workspace = true → env.cleanup (shouldPreserveAsFailure p.cleanupStatus) = .ok ()) ∧
      (p.claimed = true → env.close = .ok ()) := by
  rw [attempted]
  by_cases hworkspace : p.workspace = true
  · rw [if_pos hworkspace]
    rcases env.cleanup (shouldPreserveAsFailure p.cleanupStatus) with failure | ⟨⟨⟩⟩
    · refine iff_of_false (fun h ↦ ?_) fun h ↦ by cases h.1 hworkspace
      cases h.2
    · have hne : Surrounding.close ≠ .cleanup (shouldPreserveAsFailure p.cleanupStatus) :=
        fun h ↦ by cases h
      have hcount : Surrounding.cleanup (shouldPreserveAsFailure p.cleanupStatus) ≠ .jobStopped :=
        fun h ↦ by cases h
      have hcleaned : (Except.ok () : Except Failure Unit).toBool = true := rfl
      rw [if_pos hcleaned, and_iff_right fun _ ↦ rfl, ← attempted_closing p _ rfl, List.mem_cons,
        or_iff_right hne, List.count_cons_of_ne hcount]
  · rw [if_neg hworkspace, and_iff_right fun h ↦ absurd h hworkspace]
    exact attempted_closing p _ rfl

theorem cleanup_mem_attempted (p : Progress) :
    (∃ failed, Surrounding.cleanup failed ∈ attempted env p) ↔ p.workspace = true := by
  rw [attempted]
  by_cases hworkspace : p.workspace = true
  · rw [if_pos hworkspace]
    exact iff_of_true ⟨_, List.mem_cons_self⟩ hworkspace
  · rw [if_neg hworkspace]
    refine iff_of_false ?_ hworkspace
    rintro ⟨failed, hfailed⟩
    split_ifs at hfailed
    · simp at hfailed
    · simp at hfailed
    · simp at hfailed

/-- The status that decides about the workspace is that of a success exactly when the call
succeeds. -/
theorem not_preserved_iff :
    shouldPreserveAsFailure (finalStatus env job) = false ↔ Succeeds env job := by
  have hpreserve : ∀ status, shouldPreserveAsFailure status = false ↔
      (status = .success ∨ status = .skipped) := by
    intro status
    cases status <;> decide
  rw [hpreserve, finalStatus]
  rcases hfirst : firstOut env job with _ | ⟨message, completes⟩
  · obtain ⟨thrown, hterminal⟩ := terminal_of_none hfirst
    rw [hterminal]
    refine iff_of_false (fun h ↦ by rcases h with h | h <;> cases h) ?_
    rintro ⟨message, completes, hsome, -⟩
    rw [hfirst] at hsome
    cases hsome
  obtain ⟨hreturned, hdisturbed⟩ := terminal_of_some hfirst
  rcases hfollowed : followed env message (completes && claims env job) with thrown | ⟨⟨⟩⟩
  · obtain ⟨-, hfailed⟩ := hdisturbed ⟨thrown, hfollowed⟩
    refine iff_of_false ?_ ?_
    · rcases hout : (terminal env job).1 with thrown' | sent
      · exact fun h ↦ by rcases h with h | h <;> cases h
      · dsimp only
        rw [hfailed sent hout]
        exact fun h ↦ by rcases h with h | h <;> cases h
    · rintro ⟨other, marks, hother, hok, -⟩
      obtain ⟨rfl, rfl⟩ := Prod.mk.inj (Option.some.inj (hfirst.symm.trans hother))
      rw [hfollowed] at hok
      cases hok
  · rw [hreturned hfollowed]
    constructor
    · exact fun hstatus ↦ ⟨message, completes, hfirst, hfollowed, hstatus⟩
    · rintro ⟨other, marks, hother, -, hstatus⟩
      obtain ⟨rfl, rfl⟩ := Prod.mk.inj (Option.some.inj (hfirst.symm.trans hother))
      exact hstatus

/-- A call that begins gives everything back exactly when neither the cleanup nor the closing
throws. -/
theorem cleansUp_of_started (hstarted : metrics.jobStarted = .ok ()) :
    CleansUp env metrics job ↔
      (hasWorkspace env job = true →
        env.cleanup (shouldPreserveAsFailure (finalStatus env job)) = .ok ()) ∧
      (claims env job = true → env.close = .ok ()) := by
  have hrun : (run env metrics job).2 =
      (tried env job, ⟨logEvents env job, .jobStarted :: attempted env (tried env job)⟩) := by
    rw [run_eq, hstarted]
  have hclose : ∀ l : List Surrounding, Surrounding.close ∈ Surrounding.jobStarted :: l ↔
      Surrounding.close ∈ l := fun l ↦ by simp
  have hcleanup : ∀ (l : List Surrounding) failed,
      Surrounding.cleanup failed ∈ Surrounding.jobStarted :: l ↔ Surrounding.cleanup failed ∈ l :=
    fun l failed ↦ by simp
  have hcount : ∀ l : List Surrounding, (Surrounding.jobStarted :: l).count .jobStopped =
      l.count .jobStopped := fun l ↦ by simp
  have hstopped : (if metrics.jobStarted.toBool = true then 1 else 0) = 1 := by
    rw [hstarted]
    rfl
  have hall := @attempted_iff env (tried env job)
  constructor
  · rintro ⟨hclosed, hstop, -⟩
    rw [hrun] at hclosed hstop
    rw [hstopped] at hstop
    exact hall.mp ⟨fun h ↦ (hclose _).mp (hclosed h), (hcount _).symm.trans hstop⟩
  · intro h
    obtain ⟨hclosed, hstop⟩ := hall.mpr h
    refine ⟨?_, ?_, ?_⟩
    · rw [hrun]
      exact fun h ↦ (hclose _).mpr (hclosed h)
    · rw [hrun, hstopped]
      exact (hcount _).trans hstop
    · rw [hrun]
      simp only [hcleanup]
      exact cleanup_mem_attempted _

/-- A call that does not begin has nothing to give back. -/
theorem cleansUp_of_not_started {failure : Failure}
    (hstarted : metrics.jobStarted = .error failure) :
    CleansUp env metrics job := by
  refine ⟨?_, ?_, ?_⟩
  · rw [run_eq, hstarted]
    exact fun h ↦ absurd h Bool.false_ne_true
  · rw [run_eq, hstarted]
    rfl
  · rw [run_eq, hstarted]
    exact iff_of_false (by simp) Bool.false_ne_true

/-- **What a call gives back.** With the local workspace manager it gives everything back exactly
when the requested cleanup is known and works, or is not made for a failed job, and the claim can be
closed. -/
theorem cleansUp_iff (env : Environment) (metrics : ExecutorJobMetrics) (job : JobMessage)
    (deleteRecursively : Except Failure Unit) :
    CleansUp (onDisk env job deleteRecursively) metrics job ↔ (metrics.jobStarted = .ok () →
      (hasWorkspace env job = true →
        (¬ Succeeds env job ∧
          (LocalWorkspaceManager.resolvedPolicy job.workspacePolicy).preserveOnFailure = true) ∨
        LocalWorkspaceManager.Feasible
          (LocalWorkspaceManager.resolvedPolicy job.workspacePolicy) deleteRecursively) ∧
      (claims env job = true → env.close = .ok ())) := by
  rcases hstarted : metrics.jobStarted with failure | ⟨⟨⟩⟩
  · exact iff_of_true (cleansUp_of_not_started hstarted) nofun
  rw [cleansUp_of_started hstarted, forall_prop_of_true rfl]
  -- the workspace manager is not asked for anything before the `finally` block
  have hsucceeds : Succeeds (onDisk env job deleteRecursively) job ↔ Succeeds env job := Iff.rfl
  have hcleanup : (onDisk env job deleteRecursively).cleanup (shouldPreserveAsFailure
      (finalStatus (onDisk env job deleteRecursively) job)) = .ok () ↔
      ((¬ Succeeds env job ∧
        (LocalWorkspaceManager.resolvedPolicy job.workspacePolicy).preserveOnFailure = true) ∨
      LocalWorkspaceManager.Feasible
        (LocalWorkspaceManager.resolvedPolicy job.workspacePolicy) deleteRecursively) := by
    rw [← hsucceeds, ← not_preserved_iff, Bool.not_eq_false,
      ← LocalWorkspaceManager.cleanup_returns_iff]
    dsimp only [onDisk]
    rcases LocalWorkspaceManager.cleanup _ _ _ with failure | deleted
    · exact iff_of_false nofun nofun
    · exact iff_of_true rfl ⟨deleted, rfl⟩
  exact and_congr (imp_congr Iff.rfl hcleanup) Iff.rfl

end Attempts

/-! ## An unknown policy -/

namespace Small

/-- The message asks for a cleanup that the manager does not know. -/
def misspelt : JobMessage :=
  { Contracts.Small.job with workspacePolicy := some ⟨some "on-success", false⟩ }

end Small

/-- The job succeeds, and its claim is neither closed nor is the job counted out. -/
theorem claim_left_open :
    (run (onDisk Small.succeeding Small.misspelt (.ok ())) .noop Small.misspelt).2.2.attempts =
      [.jobStarted, .cleanup false] ∧
    ¬ CleansUp (onDisk Small.succeeding Small.misspelt (.ok ())) .noop Small.misspelt := by
  have hattempts : (run (onDisk Small.succeeding Small.misspelt (.ok ())) .noop
      Small.misspelt).2.2.attempts = [.jobStarted, .cleanup false] := by decide +kernel
  refine ⟨hattempts, fun h ↦ ?_⟩
  have hstopped := h.stopped
  rw [hattempts] at hstopped
  exact absurd hstopped (by decide)

end ExecutorJobHandler

end FuzzingCiCd.Executor
