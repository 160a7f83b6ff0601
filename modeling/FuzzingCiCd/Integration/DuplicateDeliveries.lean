import FuzzingCiCd.Executor.FileIdempotencyGuard
import FuzzingCiCd.Foundation.Interleaving
import FuzzingCiCd.Integration.TerminalStatus

/-!
# Duplicate deliveries

One job message that is delivered several times, to executors whose guards share their files. A
delivery that the guard keeps out publishes `SKIPPED`, and the master follows it as long as the
execution is queued: handled before the `RUNNING` event of the delivery that executes the job, it
skips the execution for good, and the real result is rejected.

## The condition

`Redelivered` is any number of deliveries and any merge of their events into the stream that the
master receives. Of these events only the admitted ones count; the others leave no trace
(`replay_receive`). `Harmless` is the exact condition on what is left: no `SKIPPED` comes before the
first `RUNNING`, and the first later event that can end the execution has the status of the delivery
that executed the job.

A delivery that executes the job publishes `RUNNING` first, and that event is always admitted. This
is why only the events of other deliveries can come before the first `RUNNING`
(`status_before_running`).
-/

namespace FuzzingCiCd.Integration

open Master Transition Decoder Executor Executor.ExecutorJobHandler

open Contracts (ExecutionStatus)

/-! ## Deliveries and their stream

A stream is any merge of what the deliveries publish that keeps the order of each. Before the
first `RUNNING` that leaves a trace there can only be events of deliveries that do not execute
the job, since `RUNNING` is the first event of one that does, and it is always admitted. -/

/-- What the delivery with the given number publishes. -/
def publishedBy (job : Contracts.JobMessage) (deliveries : List Environment) (i : ℕ) :
    List Contracts.ExecutorEventMessage :=
  (deliveries[i]?.map fun env ↦ (handle env job .initial).2.published).getD []

/-- Deliveries of one message about an execution, the accesses to the files of their guards, and
the stream in which the master, starting from `db`, gets their events. -/
structure Redelivered (db : Db) (x : UUID) where
  job : Contracts.JobMessage
  jobExecutionId : job.jobExecutionId = some x
  deliveries : List Environment
  accesses : List FileIdempotencyGuard.Access
  answered : validate job = .ok () → ∀ i env, deliveries[i]? = some env → ∀ decision,
    env.acquire job = .ok decision → FileIdempotencyGuard.Answered job accesses i decision
  stream : List (ℕ × Delivered)
  merges : Interleaving.Merges (publishedBy job deliveries)
    (stream.map fun entry ↦ (entry.1, entry.2.event))
  messageId : (((stream.map Prod.snd).map Delivered.event).map
    Contracts.ExecutorEventMessage.messageId).Nodup
  documents : (stream.map Prod.snd).Pairwise Delivered.Apart
  unseen : ∀ entry ∈ stream, entry.2.report.Unseen db.inbox

namespace Redelivered

variable {db : Db} {x : UUID} (r : Redelivered db x)

/-- The events that leave a trace, in the order in which the master receives them. -/
def taken : List (ℕ × Delivered) := r.stream.filter fun entry ↦ decide (Admitted entry.2.event)

/-- The statuses of the events that leave a trace. -/
def statuses : List ExecutionStatus := r.taken.map fun entry ↦ entry.2.event.status

/-- What the master receives. -/
def received : List Delivered := r.stream.map Prod.snd

variable {r}

theorem exists_delivery {entry : ℕ × Delivered} (h : entry ∈ r.stream) :
    ∃ env, r.deliveries[entry.1]? = some env ∧
      entry.2.event ∈ (handle env r.job .initial).2.published := by
  have hmem : entry.2.event ∈ publishedBy r.job r.deliveries entry.1 :=
    r.merges.mem_iff.mp (List.mem_map_of_mem h)
  rw [publishedBy] at hmem
  cases henv : r.deliveries[entry.1]? with
  | none =>
    rw [henv] at hmem
    exact absurd hmem List.not_mem_nil
  | some env =>
    rw [henv] at hmem
    exact ⟨env, rfl, hmem⟩

theorem jobExecutionId_of_received : ∀ d ∈ r.received, d.event.jobExecutionId = some x := by
  intro d hd
  obtain ⟨entry, hentry, rfl⟩ := List.mem_map.mp hd
  obtain ⟨env, -, hpublished⟩ := exists_delivery hentry
  exact (jobExecutionId_of_published env r.job _ hpublished).trans r.jobExecutionId

theorem publishedBy_eq {i : ℕ} {env : Environment} (henv : r.deliveries[i]? = some env) :
    publishedBy r.job r.deliveries i = (handle env r.job .initial).2.published := by
  rw [publishedBy, henv, Option.map_some, Option.getD_some]

theorem mem_taken {entry : ℕ × Delivered} :
    entry ∈ r.taken ↔ entry ∈ r.stream ∧ Admitted entry.2.event := by
  rw [taken, List.mem_filter, decide_eq_true_iff]

theorem admitted_received : admitted r.received = r.taken.map Prod.snd := by
  rw [admitted, received, List.filter_map]
  rfl

/-- The event `RUNNING` of a delivery that executes the job is admitted. -/
theorem admitted_of_executed {env : Environment}
    (hexecuted : (handle env r.job .initial).2.executed = true) :
    Admitted (runningEvent env r.job) := by
  obtain ⟨decision, haccepted, -⟩ := executed_iff.mp hexecuted
  exact admitted_runningEvent (schemaVersion_of_accepted haccepted)

/-- The event `RUNNING` of a delivery that executes the job leaves a trace. -/
theorem running_mem_statuses {i : ℕ} {env : Environment} (henv : r.deliveries[i]? = some env)
    (hexecuted : (handle env r.job .initial).2.executed = true) :
    ExecutionStatus.running ∈ r.statuses := by
  obtain ⟨rest, hrest⟩ := published_of_executed hexecuted
  have hmem : (i, runningEvent env r.job) ∈ r.stream.map fun entry ↦ (entry.1, entry.2.event) := by
    rw [r.merges.mem_iff, publishedBy_eq henv, hrest]
    exact List.mem_cons_self
  obtain ⟨entry, hentry, heq⟩ := List.mem_map.mp hmem
  have hevent : entry.2.event = runningEvent env r.job := (Prod.mk.inj heq).2
  refine List.mem_map.mpr ⟨entry, mem_taken.mpr ⟨hentry, ?_⟩, ?_⟩
  · rw [hevent]
    exact admitted_of_executed hexecuted
  · rw [hevent]
    rfl

/-- **Before the first `RUNNING`.** Only deliveries that do not execute the job have published. -/
theorem status_before_running {before later : List ExecutionStatus}
    (h : r.statuses = before ++ later) (hrunning : ExecutionStatus.running ∉ before) :
    ∀ s ∈ before, s = .skipped ∨ s = .failed := by
  obtain ⟨first, last, htaken, rfl, rfl⟩ := List.map_eq_append_iff.mp h
  obtain ⟨early, late, hstream, hfirst, -⟩ := List.filter_eq_append_iff.mp htaken
  intro s hs
  obtain ⟨entry, hentry, rfl⟩ := List.mem_map.mp hs
  have hearly : entry ∈ early := (List.mem_filter.mp (hfirst ▸ hentry)).1
  obtain ⟨env, henv, hpublished⟩ :=
    exists_delivery (r := r) (hstream ▸ List.mem_append_left _ hearly)
  refine published_of_not_executed ?_ _ hpublished
  -- a delivery that executes the job has published `RUNNING` before
  by_contra hexecuted
  rw [Bool.not_eq_false] at hexecuted
  obtain ⟨rest, hrest⟩ := published_of_executed hexecuted
  have hmerges := r.merges
  rw [hstream, List.map_append] at hmerges
  have hhead : (entry.1, runningEvent env r.job) ∈ early.map fun e ↦ (e.1, e.2.event) :=
    hmerges.head_mem ((publishedBy_eq henv).trans hrest) (List.mem_map_of_mem hearly)
  obtain ⟨e, he, heq⟩ := List.mem_map.mp hhead
  have hevent : e.2.event = runningEvent env r.job := (Prod.mk.inj heq).2
  refine hrunning (List.mem_map.mpr ⟨e, ?_, ?_⟩)
  · rw [← hfirst]
    refine List.mem_filter.mpr ⟨he, decide_eq_true ?_⟩
    rw [hevent]
    exact admitted_of_executed hexecuted
  · rw [hevent]
    rfl

end Redelivered

/-! ## The condition

Before the first `RUNNING` a stream has only events that skip or fail, and of those only a skip
can be applied to a queued execution. Behind it, `ended` is the rule of a running execution,
which the first event with a final status ends. `Harmless` says that no skip was applied and that
the event that ends the execution is the right one. -/

section Condition

variable (dispatches : JobExecutionStatus → Bool)

/-- The status that a canceling execution gets from the events. -/
def stopped : List ExecutionStatus → ExecutionStatus
  | [] => .canceling
  | s :: later =>
    if (s = .failed ∨ s = .canceled) ∧ dispatches (corresponding s) = true then s
    else stopped later

/-- The status that a running execution gets from the events: that of the first event that can
end it. -/
def ended : List ExecutionStatus → ExecutionStatus
  | [] => .running
  | s :: later =>
    if Ends s ∧ dispatches (corresponding s) = true then s
    else if s = .canceling then stopped dispatches later
    else ended later

/-- No event skips the execution before the first `RUNNING`, and the first event after it that can
end the execution has the given status. -/
def Harmless (statuses : List ExecutionStatus) (status : ExecutionStatus) : Prop :=
  ∃ before later, statuses = before ++ .running :: later ∧ ExecutionStatus.running ∉ before ∧
    (ExecutionStatus.skipped ∈ before → dispatches .skipped = false) ∧
    ended dispatches later = status

variable {dispatches}

theorem corresponding_injective : Function.Injective corresponding := by
  intro s t h
  cases s <;> cases t <;> first | rfl | cases h

theorem foldl_after_of_final {s : JobExecutionStatus} (hs : s.isFinalStatus = true)
    (statuses : List JobExecutionStatus) : statuses.foldl (after dispatches) s = s := by
  induction statuses with
  | nil => rfl
  | cons t later ih => rw [List.foldl_cons, after_of_final hs, ih]

theorem foldl_stopped (statuses : List ExecutionStatus) :
    (statuses.map corresponding).foldl (after dispatches) .canceling =
      corresponding (stopped dispatches statuses) := by
  induction statuses with
  | nil => rfl
  | cons s later ih =>
    rw [List.map_cons, List.foldl_cons, stopped]
    by_cases hends : (s = .failed ∨ s = .canceled) ∧ dispatches (corresponding s) = true
    · have hafter : after dispatches .canceling (corresponding s) = corresponding s := by
        rw [after, hends.2]
        rcases hends.1 with rfl | rfl
        · rfl
        · rfl
      have hfinal : (corresponding s).isFinalStatus = true := by
        rcases hends.1 with rfl | rfl
        · rfl
        · rfl
      rw [if_pos hends, hafter, foldl_after_of_final hfinal]
    · have hafter : after dispatches .canceling (corresponding s) = .canceling := by
        cases s <;> simp_all [after, canTransition, corresponding, JobExecutionStatus.isFinalStatus]
      rw [if_neg hends, hafter, ih]

theorem foldl_ended (statuses : List ExecutionStatus) :
    (statuses.map corresponding).foldl (after dispatches) .running =
      corresponding (ended dispatches statuses) := by
  induction statuses with
  | nil => rfl
  | cons s later ih =>
    rw [List.map_cons, List.foldl_cons, ended]
    by_cases hends : Ends s ∧ dispatches (corresponding s) = true
    · obtain ⟨hafter, hfinal⟩ := after_running_iff.mpr hends
      rw [if_pos hends, hafter, foldl_after_of_final hfinal]
    rw [if_neg hends]
    by_cases hcanceling : s = .canceling
    · rw [if_pos hcanceling, hcanceling]
      exact foldl_stopped later
    · have hafter : after dispatches .running (corresponding s) = .running := by
        cases s <;> simp_all [after, canTransition, corresponding, Ends,
          JobExecutionStatus.isFinalStatus]
      rw [if_neg hcanceling, hafter, ih]

/-- Events after the first `RUNNING` cannot skip an execution. -/
theorem ended_ne_skipped (statuses : List ExecutionStatus) :
    ended dispatches statuses ≠ .skipped := by
  have hstopped : ∀ statuses, stopped dispatches statuses ≠ .skipped := by
    intro statuses
    induction statuses with
    | nil => exact nofun
    | cons s later ih =>
      rw [stopped]
      split
      · rename_i h
        rcases h.1 with rfl | rfl
        · exact nofun
        · exact nofun
      · exact ih
  induction statuses with
  | nil => exact nofun
  | cons s later ih =>
    rw [ended]
    split
    · rename_i h
      rcases h.1 with rfl | rfl | rfl | rfl
      · exact nofun
      · exact nofun
      · exact nofun
      · exact nofun
    · split
      · exact hstopped later
      · exact ih

/-- A queued execution that the deliveries which do not execute the job report on. -/
theorem foldl_before_running {before : List ExecutionStatus}
    (h : ∀ s ∈ before, s = .skipped ∨ s = .failed) :
    (before.map corresponding).foldl (after dispatches) .queued =
      if ExecutionStatus.skipped ∈ before ∧ dispatches .skipped = true then .skipped
      else .queued := by
  induction before with
  | nil => rfl
  | cons s before ih =>
    rw [List.forall_mem_cons] at h
    rw [List.map_cons, List.foldl_cons]
    rcases h.1 with rfl | rfl
    · cases hdispatches : dispatches .skipped with
      | true =>
        have hafter : after dispatches .queued (corresponding .skipped) = .skipped := by
          rw [corresponding, after, hdispatches]
          rfl
        rw [hafter, foldl_after_of_final rfl, if_pos ⟨List.mem_cons_self, rfl⟩]
      | false =>
        have hafter : after dispatches .queued (corresponding .skipped) = .queued := by
          rw [corresponding, after, hdispatches]
          rfl
        rw [hafter, ih h.2, hdispatches, if_neg (by simp), if_neg (by simp)]
    · have hafter : after dispatches .queued (corresponding .failed) = .queued := rfl
      rw [hafter, ih h.2]
      simp

/-- What the events of a stream with a first `RUNNING` make of a queued execution. -/
theorem foldl_statuses_iff {before later : List ExecutionStatus} {status : ExecutionStatus}
    (h : ∀ s ∈ before, s = .skipped ∨ s = .failed) :
    (((before ++ .running :: later).map corresponding).foldl (after dispatches) .queued =
        corresponding status ∧
      ((before ++ .running :: later).map corresponding).foldl (after dispatches) .queued ≠
        .skipped) ↔
      (ExecutionStatus.skipped ∈ before → dispatches .skipped = false) ∧
        ended dispatches later = status := by
  rw [List.map_append, List.foldl_append, foldl_before_running h, List.map_cons, List.foldl_cons]
  by_cases hskipped : ExecutionStatus.skipped ∈ before ∧ dispatches .skipped = true
  · rw [if_pos hskipped, after_of_final rfl, foldl_after_of_final rfl]
    refine iff_of_false (fun hend ↦ hend.2 rfl) fun hend ↦ ?_
    rw [hend.1 hskipped.1] at hskipped
    exact Bool.false_ne_true hskipped.2
  · have hbefore : ExecutionStatus.skipped ∈ before → dispatches .skipped = false :=
      fun hmem ↦ Bool.eq_false_iff.mpr fun htrue ↦ hskipped ⟨hmem, htrue⟩
    have hrunning : after dispatches .queued (corresponding .running) = .running := rfl
    have hne : corresponding (ended dispatches later) ≠ .skipped :=
      fun heq ↦ ended_ne_skipped later (corresponding_injective heq)
    rw [if_neg hskipped, hrunning, foldl_ended, corresponding_injective.eq_iff, and_iff_left hne,
      and_iff_right hbefore]

end Condition

/-! ## The claim of the executing delivery

The statuses of the admitted events decide: those before the first `RUNNING` are of deliveries
that do not execute the job, and behind it the first one that can end the execution does. -/

/-- **Duplicate deliveries.** For a delivery that executes the job and returns, the queued execution
ends with the status which that delivery returned, and not as skipped, exactly when the stream is
harmless. -/
theorem duplicates_harmless_iff {uuid : TextCodec UUID} {instant : TextCodec Instant} {c : Catalog}
    {db : Db} (x : JobExecutionEntity) (run : PipelineRunEntity) (hdb : Reachable c db)
    (hschema : Schema c db) (hx : x ∈ db.executions) (hqueued : x.status = .queued)
    (hrun : run ∈ db.runs) (hrunid : run.id = x.pipelineRunId) (r : Redelivered db x.id) {i : ℕ}
    {env : Environment} {ev : Contracts.ExecutorEventMessage} {p : Executor.Progress}
    (henv : r.deliveries[i]? = some env) (hreturned : handle env r.job .initial = (.ok ev, p))
    (hexecuted : p.executed = true) :
    (∃ e, (replay (receive uuid instant c) db r.received).findExecution x.id = some e ∧
      e.status = corresponding ev.status ∧ e.status ≠ .skipped) ↔
      Harmless (lands c run.pipelineId (db.findByPipelineRunId run.id) x.id) r.statuses
        ev.status := by
  have hids := r.jobExecutionId_of_received
  have hsub : (admitted r.received).Sublist r.received := List.filter_sublist
  have hcalls : List.Forall₂ (Delivers x.id) ((admitted r.received).map Delivered.call)
      ((admitted r.received).map Delivered.report) := by
    rw [List.forall₂_map_left_iff, List.forall₂_map_right_iff, List.forall₂_same]
    exact fun d hd ↦ Delivered.delivers (hids d (hsub.subset hd))
  have hunseen : ∀ d ∈ r.received, d.report.Unseen db.inbox := List.forall_mem_map.mpr r.unseen
  obtain ⟨e, he, hstatus⟩ := status_of_replay (c := c) hdb hx hrun hrunid hcalls
    (pairwise_report (r.documents.sublist hsub) (((hsub.map _).map _).nodup r.messageId))
    (List.forall_mem_map.mpr fun d hd ↦ hunseen d (hsub.subset hd))
  have hstatuses : (((admitted r.received).map Delivered.event).map
      fun m ↦ corresponding m.status) = r.statuses.map corresponding := by
    rw [Redelivered.admitted_received, Redelivered.statuses, List.map_map, List.map_map,
      List.map_map]
    rfl
  rw [map_report_status, hstatuses, hqueued] at hstatus
  rw [replay_receive hdb hschema hx hids]
  have hfound : (∃ e, (replay (step c) db ((admitted r.received).map
      Delivered.call)).findExecution x.id = some e ∧
        e.status = corresponding ev.status ∧ e.status ≠ .skipped) ↔
      e.status = corresponding ev.status ∧ e.status ≠ .skipped := by
    rw [he]
    simp
  rw [hfound, hstatus, Harmless]
  have hrunning : ExecutionStatus.running ∈ r.statuses := by
    refine Redelivered.running_mem_statuses henv ?_
    rw [hreturned, hexecuted]
  constructor
  · intro hend
    obtain ⟨before, later, hsplit, hnot⟩ := List.eq_append_cons_of_mem hrunning
    refine ⟨before, later, hsplit, hnot, ?_⟩
    rw [hsplit] at hend
    exact (foldl_statuses_iff (Redelivered.status_before_running hsplit hnot)).mp hend
  · rintro ⟨before, later, hsplit, hnot, hharmless⟩
    rw [hsplit]
    exact (foldl_statuses_iff (Redelivered.status_before_running hsplit hnot)).mpr hharmless

/-- Surroundings of the delivery that gets the lock; its job succeeds. -/
def holding : Environment := { succeeding with acquire := fun _ ↦ .ok .started }

/-- Surroundings of a delivery that finds the lock held. -/
def keptOut : Environment :=
  { succeeding with
    acquire := fun _ ↦ .ok (.duplicateRunning (some 0))
    messageId := fun site ↦ 10 + site.number
    messageId_injective := fun _ _ h ↦ Site.number_injective (Nat.add_left_cancel h) }

/-- The event of the delivery that is kept out. -/
def skip : ℕ × Contracts.ExecutorEventMessage :=
  (1, skippedDuplicateEvent keptOut (smallJob 1) (.duplicateRunning (some 0)))

/-- The events of the delivery that executes the job. -/
def progress : List (ℕ × Contracts.ExecutorEventMessage) :=
  (handle holding (smallJob 1) .initial).2.published.map fun event ↦ (0, event)

/-- The events as the consumer of results delivers them. -/
def consumedBy (events : List (ℕ × Contracts.ExecutorEventMessage)) : List (ℕ × Delivered) :=
  events.map fun entry ↦ (entry.1, consumedFrom entry.2)

/-- Two deliveries, the second of which finds the lock held by the first, and a merge of their
events. -/
def twice (events : List (ℕ × Contracts.ExecutorEventMessage))
    (hmerges : Interleaving.Merges (publishedBy (smallJob 1) [holding, keptOut]) events)
    (hids : (events.map fun entry ↦ entry.2.messageId).Nodup) :
    Redelivered (history Small.solo queuedRun) 2 where
  job := smallJob 1
  jobExecutionId := rfl
  deliveries := [holding, keptOut]
  accesses := [.acquire 0 0, .acquire 1 1]
  answered := by
    rintro - i env henv decision hdecision
    match i with
    | 0 =>
      obtain rfl := Option.some.inj henv
      obtain rfl := Except.ok.inj hdecision
      exact ⟨[], 0, [.acquire 1 1], rfl, rfl⟩
    | 1 =>
      obtain rfl := Option.some.inj henv
      obtain rfl := Except.ok.inj hdecision
      exact ⟨[.acquire 0 0], 1, [], rfl, rfl⟩
    | n + 2 => cases henv
  stream := consumedBy events
  merges := by
    rw [consumedBy, List.map_map]
    exact (List.map_id _).symm ▸ hmerges
  messageId := by
    rw [consumedBy, List.map_map, List.map_map, List.map_map]
    exact hids
  documents := by
    rw [consumedBy, List.map_map, List.pairwise_map]
    exact List.pairwise_of_forall fun _ _ ↦ Or.inl rfl
  unseen := fun entry _ ↦ unseen_queuedRun entry.2.report

theorem merges_skip_last :
    Interleaving.Merges (publishedBy (smallJob 1) [holding, keptOut]) (progress ++ [skip]) := by
  rintro (_ | _ | n)
  · rfl
  · rfl
  · rfl

theorem duplicates_harmless_iff_afterwards :
    ∃ (r : Redelivered (history Small.solo queuedRun) 2) (ev : Contracts.ExecutorEventMessage)
      (p : Executor.Progress), handle holding r.job .initial = (.ok ev, p) ∧
      ((∃ e, (replay (receive strokes instantStrokes Small.solo) (history Small.solo queuedRun)
          r.received).findExecution 2 = some e ∧
        e.status = corresponding ev.status ∧ e.status ≠ .skipped) ↔
        Harmless (lands Small.solo 0 ((history Small.solo queuedRun).findByPipelineRunId 0) 2)
          r.statuses ev.status) :=
  ⟨twice _ merges_skip_last (by decide +kernel), _, _, rfl,
    duplicates_harmless_iff queuedExecution startedRun ⟨queuedRun, rfl⟩ schema_queuedRun
      mem_queuedRun rfl (by decide +kernel) rfl (twice _ merges_skip_last (by decide +kernel))
      (i := 0) rfl rfl rfl⟩

theorem merges_skip_first :
    Interleaving.Merges (publishedBy (smallJob 1) [holding, keptOut]) (skip :: progress) := by
  rintro (_ | _ | n)
  · rfl
  · rfl
  · rfl

/-- The event of the duplicate is handled first: the execution is skipped for good, although the
other delivery executes the job with success. -/
theorem skipped_by_duplicate : ∃ r : Redelivered (history Small.solo queuedRun) 2,
    r.deliveries = [holding, keptOut] ∧
    (handle holding r.job .initial).2.executed = true ∧
    (handle holding r.job .initial).1.toOption.map (fun ev ↦ ev.status) = some .success ∧
    ∃ e ∈ (replay (receive strokes instantStrokes Small.solo) (history Small.solo queuedRun)
      r.received).findExecution 2, e.status = .skipped := by
  refine ⟨twice _ merges_skip_first (by decide +kernel), rfl, rfl, rfl, ?_⟩
  rw [replay_receive ⟨queuedRun, rfl⟩ schema_queuedRun mem_queuedRun
    (Redelivered.jobExecutionId_of_received (r := twice _ merges_skip_first (by decide +kernel)))]
  decide +kernel

end FuzzingCiCd.Integration
