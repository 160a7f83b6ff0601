import FuzzingCiCd.Master.ConcurrentUpdates

/-!
# The watchdog and the deadline

A running execution has to end before the time limit of its job is over. The watchdog does not
read that limit. It compares the time since the start with the duration in the row, which every
event may overwrite while the execution still runs, and leaves a row without a duration alone.

So there are two ends, the deadline and the end of the reported duration, and a tick that falls
between them is wrong about the execution. `exact_throughout_iff` says that nothing else is.
-/

namespace FuzzingCiCd.Master

open Transition

namespace TimeoutWatchdog

/-! ## The two ends -/

/-- The start and the time limit of the job. -/
def deadline (job : JobEntity) (startedAt : Instant) : Instant :=
  startedAt + job.timeoutSeconds * 1000000

/-- The first instant that is more than the reported duration after the start, both in whole
seconds. -/
def reportedEnd (durationMs : Int64) (startedAt : Instant) : Instant :=
  startedAt + (durationMs.toInt.tdiv 1000 + 1) * 1000000

/-- A number of whole seconds is exceeded from the next full second on. -/
theorem lt_seconds_iff {seconds start now : ℤ} :
    seconds < (now - start) / 1000000 ↔ start + (seconds + 1) * 1000000 ≤ now := by
  omega

theorem isExpired_iff {now : Instant} {e : JobExecutionEntity} :
    isExpired now e = true ↔
      ∃ startedAt ∈ e.startedAt, ∃ durationMs ∈ e.durationMs,
        reportedEnd durationMs startedAt ≤ now := by
  rw [isExpired]
  rcases hstart : e.startedAt with _ | startedAt
  · simp
  rcases hduration : e.durationMs with _ | durationMs
  · simp
  simpa [reportedEnd] using lt_seconds_iff

/-! ## Ticks -/

/-- The tick moves a running execution to `timeout` exactly when it is past the deadline. -/
def ExactTick (c : Catalog) (now : Instant) (db : Db) : Prop :=
  ∀ e ∈ db.executions, e.status = .running → ∀ job ∈ c.findJob e.jobId,
    ((∃ row ∈ (checkTimeouts now db).findExecution e.id, row.status = .timeout) ↔
      ∃ startedAt ∈ e.startedAt, deadline job startedAt < now)

/-- The tick is on the same side of both ends. Where no duration is reported there is only the
deadline, and the tick comes before it. -/
def OutsideGap (c : Catalog) (now : Instant) (db : Db) : Prop :=
  ∀ e ∈ db.executions, e.status = .running → ∀ job ∈ c.findJob e.jobId,
    ∀ startedAt ∈ e.startedAt,
      match e.durationMs with
      | none => now ≤ deadline job startedAt
      | some durationMs =>
        now ≤ deadline job startedAt ∧ now < reportedEnd durationMs startedAt ∨
          deadline job startedAt < now ∧ reportedEnd durationMs startedAt ≤ now

instance (c : Catalog) (now : Instant) (db : Db) : Decidable (ExactTick c now db) :=
  inferInstanceAs (Decidable (∀ e ∈ db.executions, _ → _))

theorem timeout_iff {now : Instant} {db : Db} (hs : Sound db) {e : JobExecutionEntity}
    (he : e ∈ db.executions) (hrunning : e.status = .running) :
    (∃ row ∈ (checkTimeouts now db).findExecution e.id, row.status = .timeout) ↔
      isExpired now e = true := by
  rw [checkTimeouts_row now hs he]
  constructor
  · rintro ⟨row, hrow, htimeout⟩
    obtain rfl := Option.some.inj hrow
    by_contra hexpired
    rw [RowTransaction.write, if_neg fun h ↦ hexpired h.2, Option.getD_none, hrunning] at htimeout
    cases htimeout
  · intro hexpired
    refine ⟨_, rfl, ?_⟩
    rw [RowTransaction.write, if_pos ⟨hrunning, hexpired⟩]
    rfl

theorem exactTick_iff {c : Catalog} {now : Instant} {db : Db} (hs : Sound db) :
    ExactTick c now db ↔ OutsideGap c now db := by
  refine forall₂_congr fun e he ↦ forall_congr' fun hrunning ↦ forall₂_congr fun job _ ↦ ?_
  rw [timeout_iff hs he hrunning, isExpired_iff]
  rcases hstart : e.startedAt with _ | startedAt
  · simp
  rcases hduration : e.durationMs with _ | durationMs
  · simp
  by_cases hpast : deadline job startedAt < now
  · simp [hpast, not_le.mpr hpast]
  · simp [hpast, not_lt.mp hpast]

/-! ## Histories -/

/-- The calls that are ticks meet a condition. -/
def AtTicks (P : Instant → Db → Prop) (db : Db) (call : Call) : Prop :=
  call.operation = .checkTimeouts → P call.context.now db

instance {P : Instant → Db → Prop} [∀ now db, Decidable (P now db)] (db : Db) (call : Call) :
    Decidable (AtTicks P db call) :=
  inferInstanceAs (Decidable (_ → _))

/-- **The watchdog is exact in a history when no tick falls between the deadline of an execution
and the end of its reported duration.** -/
theorem exact_throughout_iff (c : Catalog) (calls : List Call) :
    Along (step c) (AtTicks (ExactTick c)) Db.empty calls ↔
      Along (step c) (AtTicks (OutsideGap c)) Db.empty calls := by
  rw [along_iff, along_iff]
  refine forall₂_congr fun past call ↦ forall₂_congr fun _ _ ↦ ?_
  exact exactTick_iff (sound_history c past)

/-! ## Two failures

Both runs have one job with a limit of sixty seconds, which starts at time zero. -/

/-- The job of the run starts and reports nothing more; the tick comes an hour later. -/
def silent : List Call :=
  [Small.call (.createRun 0 none),
    Small.deliver { Small.message 10 2 .running with durationMs := none },
    ⟨⟨3600000000, none⟩, .checkTimeouts⟩]

/-- The job reports a second of progress; the tick comes two seconds after the start. -/
def early : List Call :=
  [Small.call (.createRun 0 none),
    Small.deliver { Small.message 10 2 .running with
      eventType := some ExecutorEventType.jobProgress.name, durationMs := some 1000 },
    ⟨⟨2000000, none⟩, .checkTimeouts⟩]

/-- A silent executor is never timed out, and one that reports a partial duration is timed out
early. -/
theorem not_exact :
    ¬ Along (step Small.solo) (AtTicks (ExactTick Small.solo)) Db.empty silent ∧
      ¬ Along (step Small.solo) (AtTicks (ExactTick Small.solo)) Db.empty early := by
  decide +kernel

end TimeoutWatchdog

end FuzzingCiCd.Master
