import FuzzingCiCd.Master.Delivery
import FuzzingCiCd.Master.ScheduledRuns

/-!
# The fire times of cron triggers

Every poll takes the first time of an expression in the window before it, so it takes a fire time
exactly when it comes within a window after it and the earlier fire times have left the window. The
call that it makes records an event unless there is one already, or the trigger has capacity and its
run cannot be created: the transaction is rolled back then, with the event.

So a fire time has its event at the end of a history exactly if a poll serves it in this sense
(`fired_iff`), and the times between the first and the last poll all have theirs exactly if each of
them is served (`nothingMissed_iff`). Times that are less than a window apart are lost.

## Main results

* `resolvePlannedFireTime_cron`: the fire time that a poll takes.
* `taken_apply`, `taken_history`: when the event of a fire time is there, after one call and after a
  history.
* `fired_iff`, `nothingMissed_iff`: one fire time, and all of them.
* `nothingMissed_of_spaced`: polls within the interval miss nothing of fire times that are a window
  apart.
-/

namespace FuzzingCiCd.Master

open Transition TriggerService TriggerScheduler

/-! ## Fire times -/

section Times

variable (library : SchedulerLibrary) (properties : TriggerProperties)

/-- The times at which a trigger with a cron expression is to fire. -/
def fireTimes (trigger : TriggerEntity) : Option (Recurrence Instant) :=
  (((readString trigger.config "cron").bind normalizeCron).bind library.parseCron).map
    fun expression ↦ expression (parseZoneId library (readString trigger.config "timezone"))

/-- How far a poll looks back. -/
def window : ℤ := lookback properties + second

variable {library properties}

theorem ediv_mul_second {time : ℤ} (h : 1000000 ∣ time) : time / second * second = time :=
  Int.ediv_mul_cancel h

/-- **What a poll takes** of a cron trigger. -/
theorem resolvePlannedFireTime_cron {trigger : TriggerEntity} {times : Recurrence Instant}
    (h : fireTimes library trigger = some times) (now : Instant) :
    resolvePlannedFireTime library properties trigger now =
      times.polled (window properties) now := by
  rw [fireTimes, Option.map_eq_some_iff] at h
  obtain ⟨expression, hexpression, rfl⟩ := h
  obtain ⟨cron, hnormal, hparse⟩ := Option.bind_eq_some_iff.mp hexpression
  obtain ⟨rawCron, hread, hnormalize⟩ := Option.bind_eq_some_iff.mp hnormal
  have hgiven : JavaText.isBlank rawCron = false := by
    by_contra hblank
    rw [normalizeCron, if_pos (by simpa using hblank)] at hnormalize
    cases hnormalize
  rw [resolvePlannedFireTime, hread]
  dsimp only
  rw [hgiven, if_neg Bool.false_ne_true, resolveCronPlannedTime, hnormalize]
  simp only [Option.bind_eq_bind, Option.bind_some, hparse]
  generalize hzone : parseZoneId library (readString trigger.config "timezone") = zone
  rw [Recurrence.polled, window, ← sub_sub]
  rcases hnext : (expression zone).next (now - lookback properties - second) with _ | found
  · rfl
  · -- the fire times are whole seconds, so nothing is cut off
    have hoccurs := ((expression zone).next_eq_some _ _).mp hnext
    have hwhole := ediv_mul_second (library.parseCron_whole _ _ _ _ hparse hoccurs.1)
    rw [Option.bind_some, hwhole, Option.filter_some]
    by_cases hnow : found ≤ now
    · rw [if_neg (not_lt.mpr hnow), if_pos (decide_eq_true hnow)]
    · rw [if_pos (not_le.mp hnow), if_neg (by simpa using hnow)]

end Times

/-! ## Events of fire times -/

section Events

variable (c : TriggerCatalog) (trigger : TriggerEntity) (time : Instant)

/-- The event is that of the fire time. -/
def IsFiring (e : TriggerEventEntity) : Prop :=
  e.triggerId = trigger.id ∧ e.eventSource = "schedule" ∧
    e.externalEventId = some (dueKey c trigger time)

instance (e : TriggerEventEntity) : Decidable (IsFiring c trigger time e) :=
  inferInstanceAs (Decidable (_ ∧ _ ∧ _))

/-- A call for the fire time can record an event: it is ignored, or the run can be created. -/
def CanRecord (ctx : CallContext) (payload : Option Json) (s : TriggerDb) : Prop :=
  hasScheduleCapacity trigger s = true → ∃ db, step c.toCatalog
    ⟨ctx, .createRunBySystem trigger.pipelineId (some "trigger") (some (payloadNode payload))⟩
    s.db = .ok db

variable {c trigger time} {s s' : TriggerDb} {ctx : CallContext} {payload : Option Json}

/-- A run of a pipeline whose first jobs can be dispatched can be created in every state. -/
theorem canRecord_of_dispatchable {pipeline : PipelineEntity}
    (hpipeline : c.findActivePipeline trigger.pipelineId = some pipeline)
    (hvalid : ExecutionGraphValidator.validate (c.graphOf pipeline.id) = .ok ())
    (hready : ∀ job ∈ c.readyJobs pipeline.id [], dispatchable c.toCatalog job = true) :
    CanRecord c trigger ctx payload s := fun _ ↦
  (createRunInternal_isOk hpipeline hvalid _ none s.db).mpr hready

/-- The keys of fire times are read back, if the identifiers of triggers are written without
colons. -/
theorem dueKey_inj (hcolon : ∀ id, ':' ∉ (c.uuid.format id).toList) {trigger' : TriggerEntity}
    {time' : Instant} (h : dueKey c trigger time = dueKey c trigger' time') :
    trigger.id = trigger'.id ∧ time = time' := by
  have htext := congrArg String.toList h
  simp only [dueKey, String.toList_append, List.append_assoc] at htext
  change _ ++ ':' :: _ = _ ++ ':' :: _ at htext
  have hsplit := congrArg (List.splitOn ':') htext
  rw [List.splitOn_append_cons_self_of_not_mem (hcolon _),
    List.splitOn_append_cons_self_of_not_mem (hcolon _)] at hsplit
  have hsame := String.toList_inj.mp (List.cons.inj hsplit).1
  rw [hsame, List.append_cancel_left_eq] at htext
  have hinstant := String.toList_inj.mp (List.cons.inj htext).2
  have hparse := c.uuid.parse_format trigger.id
  have hparse' := c.offsetDateTime.parse_format time
  rw [hsame, c.uuid.parse_format] at hparse
  rw [hinstant, c.offsetDateTime.parse_format] at hparse'
  exact ⟨(Option.some.inj hparse).symm, (Option.some.inj hparse').symm⟩

theorem isFiring_apart (hcolon : ∀ id, ':' ∉ (c.uuid.format id).toList) {time' : Instant}
    {e : TriggerEventEntity} (h : IsFiring c trigger time e) (h' : IsFiring c trigger time' e) :
    time = time' :=
  (dueKey_inj hcolon (Option.some.inj (h.2.2.symm.trans h'.2.2))).2

theorem firings_le_one (h : TriggerEventSchema s.triggerEvents) :
    (s.triggerEvents.filter fun e ↦ IsFiring c trigger time e).length ≤ 1 := by
  have hnodup := h.trigger_event_external_uq
  rw [Table.Unique] at hnodup
  have hsome : ∀ l : List TriggerEventEntity,
      (l.filterMap fun e ↦ e.externalEventId.map fun id ↦ (e.eventSource, id)).Nodup →
      (l.filter fun e ↦ IsFiring c trigger time e).length ≤ 1 := by
    intro l hl
    have hcount := List.nodup_iff_count_le_one.mp hl ("schedule", dueKey c trigger time)
    refine le_trans ?_ hcount
    rw [← List.countP_eq_length_filter, List.count, List.countP_filterMap]
    refine List.countP_mono_left fun e _ he ↦ ?_
    obtain ⟨-, hsource, hkey⟩ := of_decide_eq_true he
    rw [hkey, hsource]
    simp
  exact hsome _ hnodup

/-! ### One call

The key of a fire time has the trigger and the time in it, so it is taken exactly when there is
an event of this fire time. `DueOutcome` says what a call for a fire time does to the events: it
leaves them if the key is taken or the event cannot be recorded, and otherwise adds one. -/

/-- The event that a call for the fire time makes, before it has a run. -/
structure IsNew (c : TriggerCatalog) (trigger : TriggerEntity) (time : Instant) (s : TriggerDb)
    (e : TriggerEventEntity) : Prop where
  id : e.id = s.nextEventId
  firing : IsFiring c trigger time e
  idempotencyKey : e.idempotencyKey = e.externalEventId
  payloadHash : e.payloadHash = none

/-- The events are those of fire times; this is so after polls and operations of the master. -/
structure Polled (c : TriggerCatalog) (s : TriggerDb) : Prop where
  traced : Traced c s
  idempotencyKey : ∀ e ∈ s.triggerEvents, e.idempotencyKey = e.externalEventId
  firing : ∀ e ∈ s.triggerEvents, ∃ trigger ∈ c.triggers, ∃ time, IsFiring c trigger time e

theorem findDuplicate_dueKey (h : Polled c s) :
    (findDuplicate "schedule" s.triggerEvents (some (dueKey c trigger time))
        (some (dueKey c trigger time)) none).isSome = true ↔
      Taken s (some (dueKey c trigger time)) := by
  rw [← Option.ne_none_iff_isSome, ne_eq, findDuplicate_eq_none, Taken, not_iff_comm]
  push Not
  refine forall₂_congr fun e he ↦ ?_
  rw [HasValue, HasValue, HasValue, h.idempotencyKey e he, missing_dueKey]
  constructor
  · intro hother
    have hnot : ¬(false = false ∧ e.eventSource = "schedule" ∧
        e.externalEventId = some (dueKey c trigger time)) := fun hall ↦ hother hall.2.1 hall.2.2
    exact ⟨hnot, hnot, fun hhash ↦ absurd hhash.1 (by decide)⟩
  · rintro ⟨hother, -, -⟩ hsource hkey
    exact hother ⟨rfl, hsource, hkey⟩

theorem schema_concat {e : TriggerEventEntity} (h : Polled c s) (hnew : IsNew c trigger time s e)
    (htaken : ¬Taken s (some (dueKey c trigger time))) :
    TriggerEventSchema (s.triggerEvents ++ [e]) := by
  have hschema := h.traced.schema
  obtain ⟨-, ⟨-, hsource, hkey⟩, hidempotency, hhash⟩ := hnew
  have hfresh : ∀ x ∈ s.triggerEvents, x.eventSource = "schedule" →
      x.externalEventId ≠ some (dueKey c trigger time) :=
    fun x hx hxsource hxkey ↦ htaken ⟨x, hx, hxsource, hxkey⟩
  have hcolumn : ∀ column : TriggerEventEntity → Option String,
      (∀ x ∈ s.triggerEvents, column x = x.externalEventId) → column e = e.externalEventId →
      Table.Unique (fun e ↦ (column e).map fun v ↦ (e.eventSource, v)) s.triggerEvents →
      Table.Unique (fun e ↦ (column e).map fun v ↦ (e.eventSource, v))
        (s.triggerEvents ++ [e]) := by
    intro column hold he hunique
    rw [Table.Unique, List.filterMap_append, List.nodup_append]
    refine ⟨hunique, by rw [List.filterMap_cons, he, hkey]; exact List.nodup_singleton _, ?_⟩
    rintro v hv w hw rfl
    obtain ⟨x, hx, hxv⟩ := List.mem_filterMap.mp hv
    rw [List.filterMap_cons, he, hkey, hsource] at hw
    obtain rfl := List.mem_singleton.mp hw
    rw [hold x hx] at hxv
    obtain ⟨key, hxkey, hpair⟩ := Option.map_eq_some_iff.mp hxv
    obtain ⟨hxsource, rfl⟩ := Prod.mk.inj hpair
    exact hfresh x hx hxsource hxkey
  constructor
  · exact hcolumn _ (fun _ _ ↦ rfl) rfl hschema.trigger_event_external_uq
  · exact hcolumn _ h.idempotencyKey hidempotency hschema.trigger_event_idempotency_uq
  · rw [Table.Unique, List.filterMap_append, List.filterMap_cons, hhash]
    exact (List.append_nil _).symm ▸ hschema.trigger_event_payload_hash_uq

theorem saveTriggerEvent_new {e : TriggerEventEntity} (h : Polled c s)
    (hnew : IsNew c trigger time s e) (htaken : ¬Taken s (some (dueKey c trigger time))) :
    { s with nextEventId := s.nextEventId + 1 }.saveTriggerEvent e = .ok
      { s with nextEventId := s.nextEventId + 1, triggerEvents := s.triggerEvents ++ [e] } := by
  have hsave : Table.save TriggerEventEntity.id s.triggerEvents e = s.triggerEvents ++ [e] := by
    refine Table.save_fresh fun x hx ↦ ?_
    rw [hnew.id]
    exact (h.traced.ids_lt x hx).ne
  refine TriggerDb.saveTriggerEvent_eq_ok.mpr ⟨?_, ?_⟩
  · exact schema_concat h hnew htaken
  · dsimp only
    rw [hsave]

theorem startRun_of_step {pipelineId : UUID} {node : Json} {db : Db} (hs : Sound s.db)
    (hstep : step c.toCatalog ⟨ctx, .createRunBySystem pipelineId (some "trigger") (some node)⟩
      s.db = .ok db) :
    ∃ run, startRun c ctx pipelineId node true s = .ok (run, { s with db := db }) := by
  have hcreates : Creates (.createRunBySystem pipelineId (some "trigger") (some node))
      pipelineId := rfl
  obtain ⟨run, hfind, -, -⟩ := findRun_of_creates hs hcreates hstep
  refine ⟨run, ?_⟩
  rw [startRun, if_pos rfl, TriggerDb.master_eq_ok.mpr ⟨db, hstep, rfl⟩, ok_bind]
  dsimp only
  rw [hfind]

/-- What a call for the fire time does to the events. -/
inductive DueOutcome (c : TriggerCatalog) (ctx : CallContext) (trigger : TriggerEntity)
    (time : Instant) (payload : Option Json) (s s' : TriggerDb) : Prop where
  /-- It finds an event, or its transaction is rolled back. -/
  | unchanged (hevents : s'.triggerEvents = s.triggerEvents)
      (hwhy : Taken s (some (dueKey c trigger time)) ∨ ¬CanRecord c trigger ctx payload s)
  /-- It records the event of the fire time. -/
  | recorded (e : TriggerEventEntity) (hevents : s'.triggerEvents = s.triggerEvents ++ [e])
      (hfiring : IsFiring c trigger time e) (hkey : e.idempotencyKey = e.externalEventId)
      (hcan : CanRecord c trigger ctx payload s)

theorem findTrigger_of_mem (hmem : trigger ∈ c.triggers) :
    findTrigger c trigger.id = .ok trigger := by
  rw [findTrigger, (Table.findById_eq_some c.triggers_keyed).mpr ⟨hmem, rfl⟩]

theorem triggerStep_due (hmem : trigger ∈ c.triggers) :
    triggerStep c ⟨ctx, .fireScheduledAt trigger.id time payload⟩ s =
      (fireScheduled c ctx trigger (some (dueKey c trigger time)) payload s).map Prod.snd := by
  rw [triggerStep, respond]
  dsimp only
  rw [findTrigger_of_mem hmem, ok_bind, fireScheduledAt]
  rcases fireScheduled c ctx trigger (some (dueKey c trigger time)) payload s with _ | answer
  · rfl
  · rfl

theorem fireScheduled_due (hactive : trigger.isActive = true) :
    fireScheduled c ctx trigger (some (dueKey c trigger time)) payload s =
      if hasScheduleCapacity trigger s then
        (processEvent c ctx trigger "schedule" (some (dueKey c trigger time))
          (some (dueKey c trigger time)) none none payload true s).map fun (run, s) ↦ (some run, s)
      else (recordIgnoredScheduleEvent c ctx trigger (some (dueKey c trigger time)) payload s).map
        fun s ↦ (none, s) := by
  rw [fireScheduled, if_neg (by simp [hactive]), plannedKey_dueKey]
  dsimp only
  by_cases hcapacity : hasScheduleCapacity trigger s = true
  · rw [if_neg (by simp [hcapacity]), if_pos hcapacity]
    rcases processEvent c ctx trigger "schedule" _ _ none none payload true s with _ | _
    · rfl
    · rfl
  · rw [if_pos (by simpa using hcapacity), if_neg hcapacity]
    rcases recordIgnoredScheduleEvent c ctx trigger _ payload s with _ | _
    · rfl
    · rfl

theorem shouldUsePayloadHash_dueKey :
    shouldUsePayloadHash (some (dueKey c trigger time)) (some (dueKey c trigger time)) = false := by
  rw [shouldUsePayloadHash, missing_dueKey]
  rfl

theorem fireScheduled_taken {answer : Option PipelineRunEntity × TriggerDb} (h : Polled c s)
    (hactive : trigger.isActive = true) (htaken : Taken s (some (dueKey c trigger time)))
    (hok : fireScheduled c ctx trigger (some (dueKey c trigger time)) payload s = .ok answer) :
    answer.2 = s := by
  have hfound := (findDuplicate_dueKey h).mpr htaken
  obtain ⟨duplicate, hduplicate⟩ := Option.isSome_iff_exists.mp hfound
  rw [fireScheduled_due hactive] at hok
  split at hok
  · rw [processEvent, shouldUsePayloadHash_dueKey, if_neg (by decide)] at hok
    dsimp only at hok
    rw [hduplicate] at hok
    dsimp only at hok
    split at hok
    · cases hok
    · rw [← Except.ok.inj hok]
  · rw [recordIgnoredScheduleEvent, shouldUsePayloadHash_dueKey, if_neg Bool.false_ne_true] at hok
    rw [if_pos hfound] at hok
    rw [← Except.ok.inj hok]

/-- The event of a fire time, as it is saved first. -/
def dueEvent (c : TriggerCatalog) (ctx : CallContext) (trigger : TriggerEntity) (time : Instant)
    (payload : Option Json) (id : UUID) : TriggerEventEntity where
  id := id
  triggerId := trigger.id
  pipelineId := trigger.pipelineId
  pipelineRunId := none
  eventSource := "schedule"
  externalEventId := some (dueKey c trigger time)
  idempotencyKey := some (dueKey c trigger time)
  ref := none
  commitHash := none
  payloadHash := none
  payload := payloadNode payload
  status := "received"
  errorMessage := none
  receivedAt := ctx.now
  processedAt := none

theorem isNew_dueEvent :
    IsNew c trigger time s (dueEvent c ctx trigger time payload s.nextEventId) :=
  ⟨rfl, ⟨rfl, rfl, rfl⟩, rfl, rfl⟩

section New

variable (h : Polled c s) (htaken : ¬Taken s (some (dueKey c trigger time)))

include h htaken

theorem fireScheduled_unstarted (hactive : trigger.isActive = true)
    (hcapacity : hasScheduleCapacity trigger s = false) :
    ∃ e s', fireScheduled c ctx trigger (some (dueKey c trigger time)) payload s = .ok (none, s') ∧
      s'.triggerEvents = s.triggerEvents ++ [e] ∧ IsFiring c trigger time e ∧
      e.idempotencyKey = e.externalEventId := by
  have hfound := mt (findDuplicate_dueKey h).mp htaken
  rw [fireScheduled_due hactive, hcapacity, if_neg Bool.false_ne_true, recordIgnoredScheduleEvent,
    shouldUsePayloadHash_dueKey, if_neg Bool.false_ne_true, if_neg hfound]
  have hsave := @saveTriggerEvent_new c trigger time s
    { dueEvent c ctx trigger time payload s.nextEventId with
      status := "ignored"
      errorMessage := some "max_parallel_runs_exceeded"
      processedAt := some ctx.now } h ⟨rfl, ⟨rfl, rfl, rfl⟩, rfl, rfl⟩ htaken
  rw [dueEvent] at hsave
  rw [hsave]
  exact ⟨_, _, rfl, rfl, ⟨rfl, rfl, rfl⟩, rfl⟩

/-- A new fire time that is not ignored: its event is saved before its run is started. -/
theorem processEvent_new :
    processEvent c ctx trigger "schedule" (some (dueKey c trigger time))
        (some (dueKey c trigger time)) none none payload true s = (do
      let event := dueEvent c ctx trigger time payload s.nextEventId
      let (run, s) ← startRun c ctx trigger.pipelineId (payloadNode payload) true
        { s with nextEventId := s.nextEventId + 1, triggerEvents := s.triggerEvents ++ [event] }
      let s := { s with runTriggers := s.runTriggers ++ [(run.id, trigger.id)] }
      let s ← s.saveTriggerEvent { event with
        status := "accepted"
        pipelineRunId := some run.id
        processedAt := some ctx.now }
      return (run, s)) := by
  have hfound := mt (findDuplicate_dueKey h).mp htaken
  have hsave := saveTriggerEvent_new h (@isNew_dueEvent c trigger time s ctx payload) htaken
  rw [processEvent, shouldUsePayloadHash_dueKey, if_neg Bool.false_ne_true]
  rw [Option.not_isSome_iff_eq_none.mp hfound]
  dsimp only
  rw [dueEvent] at hsave
  rw [hsave, ok_bind]
  rfl

theorem processEvent_started {db : Db}
    (hstep : step c.toCatalog ⟨ctx, .createRunBySystem trigger.pipelineId (some "trigger")
      (some (payloadNode payload))⟩ s.db = .ok db) :
    ∃ e run s', processEvent c ctx trigger "schedule" (some (dueKey c trigger time))
        (some (dueKey c trigger time)) none none payload true s = .ok (run, s') ∧
      s'.triggerEvents = s.triggerEvents ++ [e] ∧ IsFiring c trigger time e ∧
      e.idempotencyKey = e.externalEventId := by
  have hfresh : ∀ x ∈ s.triggerEvents, x.id ≠ s.nextEventId := fun x hx ↦ (h.traced.ids_lt x hx).ne
  obtain ⟨run, hstart⟩ := @startRun_of_step c { s with
    nextEventId := s.nextEventId + 1
    triggerEvents := s.triggerEvents ++ [dueEvent c ctx trigger time payload s.nextEventId] }
    ctx _ _ _ h.traced.reachable.sound hstep
  rw [processEvent_new h htaken]
  dsimp only
  rw [hstart, ok_bind]
  dsimp only
  -- the accepted event replaces the one that was received
  have hsave := @Table.save_last _ _ _ TriggerEventEntity.id s.triggerEvents
    (dueEvent c ctx trigger time payload s.nextEventId)
    { dueEvent c ctx trigger time payload s.nextEventId with
      status := "accepted"
      pipelineRunId := some run.id
      processedAt := some ctx.now } hfresh rfl
  have hschema := @schema_concat c trigger time s
    { dueEvent c ctx trigger time payload s.nextEventId with
      status := "accepted"
      pipelineRunId := some run.id
      processedAt := some ctx.now } h ⟨rfl, ⟨rfl, rfl, rfl⟩, rfl, rfl⟩ htaken
  rw [TriggerDb.saveTriggerEvent_eq_ok.mpr ⟨?_, rfl⟩, ok_bind]
  · refine ⟨_, _, _, rfl, hsave, ⟨rfl, rfl, rfl⟩, rfl⟩
  · dsimp only
    rw [hsave]
    exact hschema

theorem step_of_processEvent {answer : PipelineRunEntity × TriggerDb}
    (hok : processEvent c ctx trigger "schedule" (some (dueKey c trigger time))
        (some (dueKey c trigger time)) none none payload true s = .ok answer) :
    ∃ db, step c.toCatalog ⟨ctx, .createRunBySystem trigger.pipelineId (some "trigger")
      (some (payloadNode payload))⟩ s.db = .ok db := by
  rw [processEvent_new h htaken] at hok
  obtain ⟨⟨run, s₁⟩, hstart, -⟩ := bind_eq_ok.mp hok
  rw [startRun] at hstart
  obtain ⟨s₂, hmaster, -⟩ := bind_eq_ok.mp hstart
  obtain ⟨db, hstep, -⟩ := TriggerDb.master_eq_ok.mp hmaster
  exact ⟨db, hstep⟩

end New

theorem dueOutcome (h : Polled c s) (hmem : trigger ∈ c.triggers)
    (hactive : trigger.isActive = true) :
    DueOutcome c ctx trigger time payload s
      (apply (triggerStep c) s ⟨ctx, .fireScheduledAt trigger.id time payload⟩) := by
  have happly : ∀ {run s'}, fireScheduled c ctx trigger (some (dueKey c trigger time)) payload s =
      .ok (run, s') → apply (triggerStep c) s ⟨ctx, .fireScheduledAt trigger.id time payload⟩ =
        s' := by
    intro run s' hok
    refine apply_of_ok ?_
    rw [triggerStep_due hmem, hok]
    rfl
  have hfails : (∀ answer, fireScheduled c ctx trigger (some (dueKey c trigger time)) payload s ≠
      .ok answer) → apply (triggerStep c) s ⟨ctx, .fireScheduledAt trigger.id time payload⟩ =
        s := by
    intro hnone
    rcases apply_cases (triggerStep c) s ⟨ctx, .fireScheduledAt trigger.id time payload⟩ with
      ⟨t, hstep, -⟩ | hsame
    · rw [triggerStep_due hmem] at hstep
      rcases hfire : fireScheduled c ctx trigger (some (dueKey c trigger time)) payload s with
        _ | answer
      · rw [hfire] at hstep
        cases hstep
      · exact absurd hfire (hnone answer)
    · exact hsame
  -- the key is taken, there is no capacity, the run starts, or it cannot start
  by_cases htaken : Taken s (some (dueKey c trigger time))
  · refine .unchanged ?_ (.inl htaken)
    rcases hfire : fireScheduled c ctx trigger (some (dueKey c trigger time)) payload s with
      _ | ⟨run, s'⟩
    · rw [hfails (by simp [hfire])]
    · rw [happly hfire]
      exact congrArg TriggerDb.triggerEvents (fireScheduled_taken h hactive htaken hfire)
  rcases hcapacity : hasScheduleCapacity trigger s with _ | _
  · obtain ⟨e, s', hok, hevents, hfiring, hkey⟩ :=
      @fireScheduled_unstarted c trigger time s ctx payload h htaken hactive hcapacity
    rw [happly hok]
    exact .recorded e hevents hfiring hkey fun hsome ↦
      absurd (hcapacity.symm.trans hsome) (by decide)
  by_cases hcan : CanRecord c trigger ctx payload s
  · obtain ⟨db, hstep⟩ := hcan hcapacity
    obtain ⟨e, run, s', hok, hevents, hfiring, hkey⟩ := processEvent_started h htaken hstep
    have hfire : fireScheduled c ctx trigger (some (dueKey c trigger time)) payload s =
        .ok (some run, s') := by
      rw [fireScheduled_due hactive, if_pos hcapacity, hok]
      rfl
    rw [happly hfire]
    exact .recorded e hevents hfiring hkey hcan
  · refine .unchanged ?_ (.inr hcan)
    rw [hfails]
    intro answer hfire
    rw [fireScheduled_due hactive, if_pos hcapacity] at hfire
    rcases hok : processEvent c ctx trigger "schedule" (some (dueKey c trigger time))
        (some (dueKey c trigger time)) none none payload true s with _ | answer'
    · rw [hok] at hfire
      cases hfire
    · exact hcan fun _ ↦ step_of_processEvent h htaken hok

theorem Polled.due (h : Polled c s) (hmem : trigger ∈ c.triggers)
    (hactive : trigger.isActive = true) :
    Polled c (apply (triggerStep c) s ⟨ctx, .fireScheduledAt trigger.id time payload⟩) := by
  have htraced :
      Traced c (apply (triggerStep c) s ⟨ctx, .fireScheduledAt trigger.id time payload⟩) := by
    rcases apply_cases (triggerStep c) s ⟨ctx, .fireScheduledAt trigger.id time payload⟩ with
      ⟨t, hstep, happly⟩ | hsame
    · rw [happly]
      exact h.traced.step hstep
    · rw [hsame]
      exact h.traced
  cases @dueOutcome c trigger time s ctx payload h hmem hactive with
  | unchanged hevents hwhy => exact ⟨htraced, hevents ▸ h.idempotencyKey, hevents ▸ h.firing⟩
  | recorded e hevents hfiring hkey hcan =>
    refine ⟨htraced, ?_, ?_⟩
    · rw [hevents]
      exact List.forall_mem_append.mpr ⟨h.idempotencyKey, List.forall_mem_singleton.mpr hkey⟩
    · rw [hevents]
      exact List.forall_mem_append.mpr
        ⟨h.firing, List.forall_mem_singleton.mpr ⟨trigger, hmem, time, hfiring⟩⟩

end Events

/-! ## Histories of polls

Between polls the master may do anything else, which touches no trigger event. So the events of a
history are those that its polls have recorded, and a key that is taken stays taken. -/

/-- The call of a poll, or an operation of the master. -/
inductive IsDue (c : TriggerCatalog) : TriggerCall → Prop
  | fire (ctx : CallContext) (trigger : TriggerEntity) (time : Instant) (payload : Option Json)
      (hmem : trigger ∈ c.triggers) (hactive : trigger.isActive = true) :
      IsDue c ⟨ctx, .fireScheduledAt trigger.id time payload⟩
  | master (ctx : CallContext) (operation : Operation) : IsDue c ⟨ctx, .master operation⟩

section Histories

variable {c : TriggerCatalog} {trigger : TriggerEntity} {time : Instant} {calls : List TriggerCall}
  {call : TriggerCall} {s : TriggerDb}

theorem apply_master_triggerEvents (ctx : CallContext) (operation : Operation) :
    (apply (triggerStep c) s ⟨ctx, .master operation⟩).triggerEvents = s.triggerEvents := by
  rcases apply_cases (triggerStep c) s ⟨ctx, .master operation⟩ with ⟨t, hstep, happly⟩ | hsame
  · rw [happly]
    obtain ⟨⟨run, s₁⟩, hrespond, hs'⟩ := bind_eq_ok.mp hstep
    obtain rfl := Except.ok.inj hs'
    obtain ⟨s₂, hmaster, hs₂⟩ := bind_eq_ok.mp hrespond
    obtain ⟨-, rfl⟩ := Prod.mk.inj (Except.ok.inj hs₂)
    obtain ⟨db, -, rfl⟩ := TriggerDb.master_eq_ok.mp hmaster
    rfl
  · rw [hsame]

theorem Polled.apply (h : Polled c s) (hcall : IsDue c call) :
    Polled c (apply (triggerStep c) s call) := by
  cases hcall with
  | fire ctx trigger time payload hmem hactive => exact h.due hmem hactive
  | master ctx operation =>
    have hevents := @apply_master_triggerEvents c s ctx operation
    refine ⟨?_, hevents ▸ h.idempotencyKey, hevents ▸ h.firing⟩
    rcases apply_cases (triggerStep c) s ⟨ctx, .master operation⟩ with ⟨t, hstep, happly⟩ | hsame
    · rw [happly]
      exact h.traced.step hstep
    · rw [hsame]
      exact h.traced

theorem polled_empty (c : TriggerCatalog) : Polled c .empty :=
  ⟨traced_empty c, by simp [TriggerDb.empty], by simp [TriggerDb.empty]⟩

theorem polled_replay (h : Polled c s) (hdue : ∀ call ∈ calls, IsDue c call) :
    Polled c (replay (triggerStep c) s calls) := by
  induction calls generalizing s with
  | nil => exact h
  | cons call calls ih =>
    exact ih (h.apply (hdue call List.mem_cons_self)) fun x hx ↦ hdue x (List.mem_cons_of_mem _ hx)

theorem next_taken_iff (hcolon : ∀ id, ':' ∉ (c.uuid.format id).toList) (h : Polled c s) :
    Taken s (some (dueKey c trigger time)) ↔ ∃ e ∈ s.triggerEvents, IsFiring c trigger time e := by
  constructor
  · rintro ⟨e, he, hsource, hkey⟩
    obtain ⟨owner, -, due, howner, -, hdue⟩ := h.firing e he
    obtain ⟨hid, rfl⟩ := dueKey_inj hcolon (Option.some.inj (hdue.symm.trans hkey))
    exact ⟨e, he, howner.trans hid, hsource, hkey⟩
  · rintro ⟨e, he, -, hsource, hkey⟩
    exact ⟨e, he, hsource, hkey⟩

theorem taken_apply (hcolon : ∀ id, ':' ∉ (c.uuid.format id).toList) (h : Polled c s)
    (hmem : trigger ∈ c.triggers) (hcall : IsDue c call) :
    Taken (apply (triggerStep c) s call) (some (dueKey c trigger time)) ↔
      Taken s (some (dueKey c trigger time)) ∨
        ∃ ctx payload, call = ⟨ctx, .fireScheduledAt trigger.id time payload⟩ ∧
          CanRecord c trigger ctx payload s := by
  cases hcall with
  | master ctx operation =>
    rw [Taken, apply_master_triggerEvents, ← Taken]
    refine (or_iff_left ?_).symm
    rintro ⟨_, _, hcall, -⟩
    cases hcall
  | fire ctx trigger' time' payload hmem' hactive =>
    -- the call is the one for the fire time, or its key is another one
    have hsame : ∀ {ctx' payload'},
        (⟨ctx, .fireScheduledAt trigger'.id time' payload⟩ : TriggerCall) =
          ⟨ctx', .fireScheduledAt trigger.id time payload'⟩ →
          ctx = ctx' ∧ trigger' = trigger ∧ time' = time ∧ payload = payload' := by
      intro ctx' payload' hcall
      obtain ⟨hctx, hoperation⟩ := TriggerCall.mk.inj hcall
      obtain ⟨hid, htime, hpayload⟩ := TriggerOperation.fireScheduledAt.inj hoperation
      exact ⟨hctx, c.triggers_keyed.eq hmem' hmem hid, htime, hpayload⟩
    cases @dueOutcome c trigger' time' s ctx payload h hmem' hactive with
    | unchanged hevents hwhy =>
      rw [Taken, hevents, ← Taken]
      refine (or_iff_left_of_imp ?_).symm
      rintro ⟨_, _, hcall, hcan⟩
      obtain ⟨rfl, rfl, rfl, rfl⟩ := hsame hcall
      exact hwhy.resolve_right (not_not_intro hcan)
    | recorded e hevents hfiring hkey hcan =>
      obtain ⟨howner, hsource, hexternal⟩ := hfiring
      rw [Taken, hevents]
      constructor
      · rintro ⟨x, hx, hxsource, hxkey⟩
        rcases List.mem_append.mp hx with hold | hnew
        · exact .inl ⟨x, hold, hxsource, hxkey⟩
        · obtain rfl := List.mem_singleton.mp hnew
          obtain ⟨hid, rfl⟩ := dueKey_inj hcolon (Option.some.inj (hexternal.symm.trans hxkey))
          obtain rfl := c.triggers_keyed.eq hmem' hmem hid
          exact .inr ⟨ctx, payload, rfl, hcan⟩
      · rintro (⟨x, hx, htaken⟩ | ⟨_, _, hcall, -⟩)
        · exact ⟨x, List.mem_append_left _ hx, htaken⟩
        · obtain ⟨-, rfl, rfl, -⟩ := hsame hcall
          exact ⟨e, List.mem_append_right _ List.mem_cons_self, hsource, hexternal⟩

/-- **The event of a fire time** is there at the end exactly if a call could record it. -/
theorem taken_history (hcolon : ∀ id, ':' ∉ (c.uuid.format id).toList)
    (hmem : trigger ∈ c.triggers) (hdue : ∀ call ∈ calls, IsDue c call) :
    Taken (triggerHistory c calls) (some (dueKey c trigger time)) ↔
      ∃ past ctx payload, past ++ [⟨ctx, .fireScheduledAt trigger.id time payload⟩] <+: calls ∧
        CanRecord c trigger ctx payload (triggerHistory c past) := by
  induction calls using List.reverseRecOn with
  | nil =>
    refine iff_of_false ?_ ?_
    · rintro ⟨e, he, -⟩
      cases he
    · rintro ⟨past, ctx, payload, hpre, -⟩
      exact absurd (List.prefix_nil.mp hpre) (by simp)
  | append_singleton calls call ih =>
    have hbefore : ∀ x ∈ calls, IsDue c x := fun x hx ↦ hdue x (List.mem_append_left _ hx)
    have hlast := hdue call (List.mem_append_right _ List.mem_cons_self)
    have hpolled : Polled c (triggerHistory c calls) := polled_replay (polled_empty c) hbefore
    rw [triggerHistory, replay_concat, taken_apply hcolon hpolled hmem hlast, ih hbefore]
    constructor
    · rintro (⟨past, ctx, payload, hpre, hcan⟩ | ⟨ctx, payload, rfl, hcan⟩)
      · exact ⟨past, ctx, payload, hpre.trans (List.prefix_append _ _), hcan⟩
      · exact ⟨calls, ctx, payload, List.prefix_refl _, hcan⟩
    · rintro ⟨past, ctx, payload, hpre, hcan⟩
      rcases List.prefix_concat_iff.mp hpre with hall | hpre
      · obtain ⟨rfl, hcall⟩ := List.append_inj' hall rfl
        exact .inr ⟨ctx, payload, (List.cons.inj hcall).1.symm, hcan⟩
      · exact .inl ⟨past, ctx, payload, hpre, hcan⟩

theorem firings_eq_one (hcolon : ∀ id, ':' ∉ (c.uuid.format id).toList) (h : Polled c s) :
    (s.triggerEvents.filter fun e ↦ IsFiring c trigger time e).length = 1 ↔
      Taken s (some (dueKey c trigger time)) := by
  rw [next_taken_iff hcolon h]
  constructor
  · intro hone
    obtain ⟨e, he⟩ := List.exists_mem_of_length_pos (hone ▸ Nat.one_pos)
    obtain ⟨hmem, hfiring⟩ := List.mem_filter.mp he
    exact ⟨e, hmem, of_decide_eq_true hfiring⟩
  · rintro ⟨e, he, hfiring⟩
    refine le_antisymm (firings_le_one h.traced.schema) ?_
    exact List.length_pos_of_mem (List.mem_filter.mpr ⟨he, decide_eq_true hfiring⟩)

end Histories

/-! ## Polls

A poll passes one call for each trigger that is due, so a history of polls is a history of calls,
and the calls for one fire time are found again in it (`prefix_serviceCalls`). A fire time has
its event at the end exactly if one of them could record it. -/

/-- The element after a prefix of the results comes from one element of the list. -/
theorem prefix_flatMap {α β : Type} {f : α → List β} {l : List α} {past : List β} {b : β} :
    past ++ [b] <+: l.flatMap f ↔ ∃ before a after begun, l = before ++ a :: after ∧
      begun ++ [b] <+: f a ∧ past = before.flatMap f ++ begun := by
  constructor
  · intro hpre
    induction l generalizing past with
    | nil => exact absurd (List.prefix_nil.mp hpre) (by simp)
    | cons a l ih =>
      rw [List.flatMap_cons] at hpre
      rcases List.prefix_or_prefix_of_prefix hpre (List.prefix_append _ _) with
        hfirst | ⟨rest, hrest⟩
      · exact ⟨[], a, l, past, rfl, hfirst, rfl⟩
      · rcases List.eq_nil_or_concat rest with rfl | ⟨rest, last, rfl⟩
        · rw [List.append_nil] at hrest
          exact ⟨[], a, l, past, rfl, hrest ▸ List.prefix_refl _, rfl⟩
        · rw [List.concat_eq_append, ← List.append_assoc] at hrest
          obtain ⟨rfl, hlast⟩ := List.append_inj' hrest rfl
          obtain rfl := (List.cons.inj hlast).1
          rw [List.append_assoc, List.prefix_append_right_inj] at hpre
          obtain ⟨before, x, after, begun, rfl, hbegun, rfl⟩ := ih hpre
          exact ⟨a :: before, x, after, begun, rfl, hbegun, by
            rw [List.flatMap_cons, List.append_assoc]⟩
  · rintro ⟨before, a, after, begun, rfl, hbegun, rfl⟩
    rw [List.flatMap_append, List.flatMap_cons, List.append_assoc, List.prefix_append_right_inj]
    exact hbegun.trans (List.prefix_append _ _)

theorem prefix_filterMap {α β : Type} {f : α → Option β} {l : List α} {past : List β} {b : β} :
    past ++ [b] <+: l.filterMap f ↔ ∃ before a after, l = before ++ a :: after ∧ f a = some b ∧
      past = before.filterMap f := by
  constructor
  · intro hpre
    obtain ⟨rest, hrest⟩ := hpre
    rw [List.append_assoc] at hrest
    obtain ⟨front, back, rfl, rfl, hback⟩ := List.filterMap_eq_append_iff.mp hrest.symm
    obtain ⟨skipped, a, after, rfl, hskipped, ha, -⟩ := List.filterMap_eq_cons_iff.mp hback
    refine ⟨front ++ skipped, a, after, by rw [List.append_assoc], ha, ?_⟩
    rw [List.filterMap_append, List.filterMap_eq_nil_iff.mpr hskipped, List.append_nil]
  · rintro ⟨before, a, after, rfl, ha, rfl⟩
    rw [List.filterMap_append, List.filterMap_cons, ha, List.prefix_append_right_inj]
    exact List.prefix_append [b] _

/-- A poll, or an operation of the master. -/
def Timed : SchedulerCall → Prop
  | .poll _ => True
  | .call call => ∃ operation, call.operation = .master operation

/-- The times of the polls. -/
def pollTimes (calls : List SchedulerCall) : List Instant :=
  calls.filterMap fun
    | .poll ctx => some ctx.now
    | .call _ => none

section Properties

variable (library : SchedulerLibrary) (properties : TriggerProperties) (c : TriggerCatalog)
  (calls : List SchedulerCall)

/-- A poll passes the fire time to `fireScheduled`, and in the end there is one event of it. -/
structure Fired (trigger : TriggerEntity) (time : Instant) : Prop where
  passed : ∃ ctx payload, SchedulerCall.poll ctx ∈ calls ∧
    ⟨ctx, .fireScheduledAt trigger.id time payload⟩ ∈
      dispatchScheduledTriggers library properties c ctx
  once : ((triggerHistory c (serviceCalls library properties c calls)).triggerEvents.filter
    fun e ↦ IsFiring c trigger time e).length = 1

/-- No fire time between the first and the last poll is missed, and no two of them are merged. -/
structure NothingMissed : Prop where
  fired : ∀ trigger ∈ activeScheduleTriggers c, ∀ times ∈ fireTimes library trigger,
    ∀ time, times.Occurs time → (∃ first ∈ pollTimes calls, first ≤ time) →
      (∃ last ∈ pollTimes calls, time ≤ last) → Fired library properties c calls trigger time
  apart : ∀ trigger time time' e, IsFiring c trigger time e → IsFiring c trigger time' e →
    time = time'

/-- A poll comes within a window after the fire time and at least a window after the earlier ones,
and its call for the trigger can record an event. -/
def Served (trigger : TriggerEntity) (times : Recurrence Instant) (time : Instant) : Prop :=
  ∃ earlier ctx later before after, calls = earlier ++ .poll ctx :: later ∧
    activeScheduleTriggers c = before ++ trigger :: after ∧
    time ≤ ctx.now ∧ ctx.now < time + window properties ∧
    (∀ other, times.Occurs other → other < time → other + window properties ≤ ctx.now) ∧
    CanRecord c trigger ctx (some (buildPayload library c trigger time ctx.now))
      (triggerHistory c (serviceCalls library properties c earlier ++
        before.filterMap (dispatched library properties c ctx)))

end Properties

section Polls

variable {library : SchedulerLibrary} {properties : TriggerProperties} {c : TriggerCatalog}
  {calls : List SchedulerCall} {ctx : CallContext} {trigger : TriggerEntity} {time : Instant}
  {payload : Option Json}

theorem mem_activeScheduleTriggers (h : trigger ∈ activeScheduleTriggers c) :
    trigger ∈ c.triggers ∧ trigger.isActive = true := by
  obtain ⟨hmem, htest⟩ := List.mem_filter.mp h
  exact ⟨hmem, (Bool.and_eq_true _ _ ▸ htest).1⟩

theorem dispatched_eq_some {call : TriggerCall} :
    dispatched library properties c ctx trigger = some call ↔ ∃ time,
      resolvePlannedFireTime library properties trigger ctx.now = some time ∧
        ⟨ctx, .fireScheduledAt trigger.id time
          (some (buildPayload library c trigger time ctx.now))⟩ = call :=
  Option.map_eq_some_iff

theorem isDue_of_mem (hcalls : ∀ call ∈ calls, Timed call) :
    ∀ call ∈ serviceCalls library properties c calls, IsDue c call := by
  intro call hcall
  obtain ⟨source, hsource, hcall⟩ := List.mem_flatMap.mp hcall
  have htimed := hcalls source hsource
  cases source with
  | poll ctx =>
    obtain ⟨trigger, htrigger, hdispatched⟩ := List.mem_filterMap.mp hcall
    obtain ⟨time, -, rfl⟩ := dispatched_eq_some.mp hdispatched
    obtain ⟨hmem, hactive⟩ := mem_activeScheduleTriggers htrigger
    exact .fire ctx trigger time _ hmem hactive
  | call single =>
    obtain rfl := List.mem_singleton.mp hcall
    obtain ⟨ctx, operation⟩ := call
    obtain ⟨operation, rfl⟩ := htimed
    exact .master ctx operation

theorem prefix_serviceCalls {past : List TriggerCall} (hcalls : ∀ call ∈ calls, Timed call)
    (hmem : trigger ∈ c.triggers) :
    past ++ [⟨ctx, .fireScheduledAt trigger.id time payload⟩] <+:
        serviceCalls library properties c calls ↔
      ∃ earlier later before after, calls = earlier ++ .poll ctx :: later ∧
        activeScheduleTriggers c = before ++ trigger :: after ∧
        resolvePlannedFireTime library properties trigger ctx.now = some time ∧
        payload = some (buildPayload library c trigger time ctx.now) ∧
        past = serviceCalls library properties c earlier ++
          before.filterMap (dispatched library properties c ctx) := by
  rw [serviceCalls, prefix_flatMap]
  constructor
  · rintro ⟨earlier, source, later, begun, rfl, hbegun, rfl⟩
    have htimed := hcalls source (List.mem_append_right _ List.mem_cons_self)
    cases source with
    | poll ctx' =>
      obtain ⟨before, owner, after, hactive, hdispatched, rfl⟩ := prefix_filterMap.mp hbegun
      obtain ⟨time', hresolve, hcall⟩ := dispatched_eq_some.mp hdispatched
      obtain ⟨rfl, hoperation⟩ := TriggerCall.mk.inj hcall
      obtain ⟨hid, rfl, rfl⟩ := TriggerOperation.fireScheduledAt.inj hoperation
      have howner : owner ∈ activeScheduleTriggers c := by
        rw [hactive]
        exact List.mem_append_right _ List.mem_cons_self
      obtain rfl := c.triggers_keyed.eq (mem_activeScheduleTriggers howner).1 hmem hid
      exact ⟨earlier, later, before, after, rfl, hactive, hresolve, rfl, rfl⟩
    | call single =>
      obtain ⟨operation, hoperation⟩ := htimed
      have hlast := hbegun.mem (List.mem_append_right _ List.mem_cons_self)
      rw [← List.mem_singleton.mp hlast] at hoperation
      cases hoperation
  · rintro ⟨earlier, later, before, after, rfl, hactive, hresolve, rfl, rfl⟩
    refine ⟨earlier, .poll ctx, later, _, rfl, ?_, rfl⟩
    refine prefix_filterMap.mpr ⟨before, trigger, after, hactive, ?_, rfl⟩
    exact dispatched_eq_some.mpr ⟨time, hresolve, rfl⟩

/-- **One fire time.** Its event is there at the end exactly if a poll serves it. -/
theorem fired_iff (hcolon : ∀ id, ':' ∉ (c.uuid.format id).toList)
    (hcalls : ∀ call ∈ calls, Timed call) {times : Recurrence Instant}
    (hactive : trigger ∈ activeScheduleTriggers c) (htimes : fireTimes library trigger = some times)
    (hoccurs : times.Occurs time) :
    Fired library properties c calls trigger time ↔
      Served library properties c calls trigger times time := by
  have hmem := (mem_activeScheduleTriggers hactive).1
  have hdue := @isDue_of_mem library properties c calls hcalls
  have htaken := @taken_history c trigger time _ hcolon hmem hdue
  have hone := @firings_eq_one c trigger time _ hcolon (polled_replay (polled_empty c) hdue)
  have hpolled : ∀ now, resolvePlannedFireTime library properties trigger now = some time ↔
      time ≤ now ∧ now < time + window properties ∧
        ∀ other, times.Occurs other → other < time → other + window properties ≤ now := by
    intro now
    rw [resolvePlannedFireTime_cron htimes, Recurrence.polled_eq_some, and_iff_right hoccurs]
  constructor
  · rintro ⟨-, honce⟩
    obtain ⟨past, ctx, payload, hpre, hcan⟩ := htaken.mp (hone.mp honce)
    obtain ⟨earlier, later, before, after, hsplit, hactive, hresolve, rfl, rfl⟩ :=
      (prefix_serviceCalls hcalls hmem).mp hpre
    obtain ⟨hafter, hwithin, hlater⟩ := (hpolled ctx.now).mp hresolve
    exact ⟨earlier, ctx, later, before, after, hsplit, hactive, hafter, hwithin, hlater, hcan⟩
  · rintro ⟨earlier, ctx, later, before, after, hsplit, hsplit', hafter, hwithin, hlater, hcan⟩
    have hresolve := (hpolled ctx.now).mpr ⟨hafter, hwithin, hlater⟩
    refine ⟨⟨ctx, some (buildPayload library c trigger time ctx.now), ?_, ?_⟩, ?_⟩
    · rw [hsplit]
      exact List.mem_append_right _ List.mem_cons_self
    · exact List.mem_filterMap.mpr ⟨trigger, hactive, dispatched_eq_some.mpr ⟨time, hresolve, rfl⟩⟩
    · refine hone.mpr (htaken.mpr ⟨_, ctx, _, ?_, hcan⟩)
      exact (prefix_serviceCalls hcalls hmem).mpr
        ⟨earlier, later, before, after, hsplit, hsplit', hresolve, rfl, rfl⟩

end Polls

/-- **The fire times of cron triggers.** In a history of polls and operations of the master nothing
is missed exactly if every fire time between the first and the last poll is served. -/
theorem nothingMissed_iff (library : SchedulerLibrary) (properties : TriggerProperties)
    (c : TriggerCatalog) (hcolon : ∀ id, ':' ∉ (c.uuid.format id).toList)
    (calls : List SchedulerCall) (hcalls : ∀ call ∈ calls, Timed call) :
    NothingMissed library properties c calls ↔
      ∀ trigger ∈ activeScheduleTriggers c, ∀ times ∈ fireTimes library trigger,
        ∀ time, times.Occurs time → (∃ first ∈ pollTimes calls, first ≤ time) →
          (∃ last ∈ pollTimes calls, time ≤ last) →
            Served library properties c calls trigger times time := by
  constructor
  · intro h trigger htrigger times htimes time hoccurs hfirst hlast
    exact (fired_iff hcolon hcalls htrigger htimes hoccurs).mp
      (h.fired trigger htrigger times htimes time hoccurs hfirst hlast)
  · intro h
    refine ⟨fun trigger htrigger times htimes time hoccurs hfirst hlast ↦ ?_,
      fun trigger time time' e he he' ↦ ?_⟩
    · exact (fired_iff hcolon hcalls htrigger htimes hoccurs).mpr
        (h trigger htrigger times htimes time hoccurs hfirst hlast)
    · exact isFiring_apart hcolon he he'

/-- Polls within the interval miss nothing of triggers whose fire times are a window apart and whose
runs can be created. -/
theorem nothingMissed_of_spaced {library : SchedulerLibrary} {properties : TriggerProperties}
    {c : TriggerCatalog} (hcolon : ∀ id, ':' ∉ (c.uuid.format id).toList)
    {calls : List SchedulerCall} (hcalls : ∀ call ∈ calls, Timed call)
    (hpositive : 0 ≤ lookback properties)
    (hgaps : List.IsChain (fun earlier later ↦ earlier ≤ later ∧
      later ≤ earlier + lookback properties) (pollTimes calls))
    (hspaced : ∀ trigger ∈ activeScheduleTriggers c, ∀ times ∈ fireTimes library trigger,
      ∀ time other, times.Occurs time → times.Occurs other → other < time →
        other + window properties ≤ time)
    (hcreated : ∀ trigger ∈ activeScheduleTriggers c, ∀ ctx payload s,
      CanRecord c trigger ctx payload s) :
    NothingMissed library properties c calls := by
  refine ⟨fun trigger htrigger times htimes time hoccurs hfirst hlast ↦ ?_,
    fun trigger time time' e he he' ↦ ?_⟩
  · refine (fired_iff hcolon hcalls htrigger htimes hoccurs).mpr ?_
    obtain ⟨first, hfirst, hbegin⟩ := hfirst
    obtain ⟨last, hlast, hend⟩ := hlast
    rcases hpolls : pollTimes calls with _ | ⟨head, polls⟩
    · rw [hpolls] at hfirst
      cases hfirst
    rw [hpolls] at hgaps hfirst hlast
    have hsorted : List.Pairwise (· ≤ ·) (head :: polls) :=
      (hgaps.imp fun _ _ h ↦ h.1).pairwise
    have hhead : head ≤ time := by
      rcases List.mem_cons.mp hfirst with rfl | hrest
      · exact hbegin
      · exact ((List.pairwise_cons.mp hsorted).1 first hrest).trans hbegin
    have hgetLast : time ≤ (head :: polls).getLast (List.cons_ne_nil _ _) :=
      hend.trans (hsorted.rel_getLast hlast)
    have hwindow : lookback properties < window properties :=
      lt_add_of_pos_right _ (by decide : (0 : ℤ) < second)
    obtain ⟨poll, hpoll, htaken⟩ := Recurrence.exists_polled_of_spaced hwindow
      (hpositive.trans_lt hwindow) (hgaps.imp fun _ _ h ↦ h.2)
      (fun other hother ↦ hspaced trigger htrigger times htimes time other hoccurs hother)
      hoccurs hhead hgetLast
    rw [← hpolls] at hpoll
    obtain ⟨source, hsource, hctx⟩ := List.mem_filterMap.mp hpoll
    rcases source with ctx | single
    · obtain rfl := Option.some.inj hctx
      obtain ⟨earlier, later, hsplit⟩ := List.append_of_mem hsource
      obtain ⟨before, after, hsplit'⟩ := List.append_of_mem htrigger
      obtain ⟨-, hafter, hwithin, hlater⟩ := Recurrence.polled_eq_some.mp htaken
      exact ⟨earlier, ctx, later, before, after, hsplit, hsplit', hafter, hwithin, hlater,
        hcreated trigger htrigger ctx _ _⟩
    · cases hctx
  · exact isFiring_apart hcolon he he'

/-! ## Fire times of one period

Expressions whose fire times are the multiples of a period, with polls of both kinds: every
minute is passed on by polls less than half a minute apart, and of times ten seconds apart one is
missed. -/

namespace Small

/-- The multiples of a period. -/
def multiples (period : ℤ) (h : 0 < period) : Recurrence ℤ where
  Occurs time := period ∣ time
  next time := some ((time / period + 1) * period)
  next_eq_some time found := by
    have hquotient := Int.ediv_mul_le time h.ne'
    have hrest := Int.lt_ediv_add_one_mul_self time h
    rw [Option.some.injEq]
    constructor
    · rintro rfl
      refine ⟨Int.dvd_mul_left _ _, hrest, fun other hother hlt ↦ ?_⟩
      obtain ⟨k, rfl⟩ := hother
      rw [mul_comm period k]
      refine Int.mul_le_mul_of_nonneg_right ?_ h.le
      exact Int.ediv_lt_of_lt_mul h (by rwa [mul_comm k period])
    · rintro ⟨hoccurs, hlt, hleast⟩
      refine le_antisymm ?_ (hleast _ (Int.dvd_mul_left _ _) hrest)
      obtain ⟨k, rfl⟩ := hoccurs
      rw [mul_comm period k]
      refine Int.mul_le_mul_of_nonneg_right ?_ h.le
      exact Int.ediv_lt_of_lt_mul h (by rwa [mul_comm k period])

/-- A library in which every expression means the multiples of so many seconds. -/
def periodic (seconds : ℤ) (h : 0 < seconds) : SchedulerLibrary where
  Zone := Unit
  UTC := ()
  zoneOf _ := none
  parseCron _ := some fun _ ↦ multiples (seconds * second) (Int.mul_pos h (by decide))
  parseCron_whole text cron zone time hcron htime := by
    obtain rfl := Option.some.inj hcron
    exact (Int.dvd_mul_left seconds second).trans htime
  durationSeconds _ := none
  offsetDateTimeText _ := ""

/-- A pipeline with a cron trigger. -/
def cronTimetable : TriggerCatalog :=
  { neighbours with
    triggers := [⟨20, 0, "schedule", .obj [("cron", .str "*/10 * * * * *")], true⟩]
    triggers_keyed := by decide }

/-- The identifiers are written in strokes. -/
theorem colon_notMem (id : UUID) : ':' ∉ (cronTimetable.uuid.format id).toList := by
  intro h
  have hmem : ':' ∈ (String.ofList (List.replicate id '|')).toList := h
  rw [String.toList_ofList] at hmem
  exact absurd (List.eq_of_mem_replicate hmem) (by decide)

/-- The run of the cron trigger can be created in every state. -/
theorem canRecord_cron {trigger : TriggerEntity}
    (htrigger : trigger ∈ activeScheduleTriggers cronTimetable) (ctx : CallContext)
    (payload : Option Json) (s : TriggerDb) : CanRecord cronTimetable trigger ctx payload s := by
  obtain rfl : trigger = _ := List.mem_singleton.mp htrigger
  have hpipeline : cronTimetable.findActivePipeline 0 = some ⟨0, true⟩ := rfl
  exact canRecord_of_dispatchable hpipeline (by decide +kernel) (by decide +kernel)

end Small

/-- Polls twenty-five seconds apart, of a trigger that fires every minute. -/
def minutePolls : List SchedulerCall :=
  [.poll ⟨0, none⟩, .poll ⟨25000000, none⟩, .poll ⟨50000000, none⟩, .poll ⟨75000000, none⟩,
    .poll ⟨100000000, none⟩, .poll ⟨125000000, none⟩]

/-- The polls pass each of the three minutes once, the second one fifteen seconds late. -/
theorem nothingMissed_minutely :
    NothingMissed (Small.periodic 60 (by decide)) ⟨none⟩ Small.cronTimetable minutePolls := by
  refine (nothingMissed_iff (Small.periodic 60 (by decide)) ⟨none⟩ Small.cronTimetable
    Small.colon_notMem minutePolls (by simp [minutePolls, Timed])).mpr ?_
  rintro trigger htrigger times htimes time hoccurs ⟨first, hfirst, hbegin⟩ ⟨last, hlast, hend⟩
  have hcan := fun ctx payload s ↦ Small.canRecord_cron htrigger ctx payload s
  obtain rfl : trigger = _ := List.mem_singleton.mp htrigger
  obtain rfl : Small.multiples 60000000 (by decide) = times := Option.some.inj htimes
  obtain ⟨k, rfl⟩ : (60000000 : ℤ) ∣ time := hoccurs
  have hpolls : ∀ t ∈ pollTimes minutePolls, 0 ≤ t ∧ t ≤ 125000000 := by
    simp [minutePolls, pollTimes]
  have hnonneg : (0 : ℤ) ≤ 60000000 * k := (hpolls first hfirst).1.trans hbegin
  have hbounded : (60000000 : ℤ) * k ≤ 125000000 := hend.trans (hpolls last hlast).2
  -- an earlier minute is a window before the poll
  have hearlier : ∀ now : ℤ, 60000000 * (k - 1) + 31000000 ≤ now →
      ∀ other, (Small.multiples 60000000 (by decide)).Occurs other → other < 60000000 * k →
        other + window ⟨none⟩ ≤ now := by
    rintro now hnow other ⟨m, rfl⟩ hlt
    change 60000000 * m + 31000000 ≤ now
    omega
  obtain rfl | rfl | rfl : k = 0 ∨ k = 1 ∨ k = 2 := by omega
  · exact ⟨[], ⟨0, none⟩, _, [], [], rfl, rfl, by decide, by decide, hearlier 0 (by decide),
      hcan _ _ _⟩
  · exact ⟨[.poll ⟨0, none⟩, .poll ⟨25000000, none⟩, .poll ⟨50000000, none⟩], ⟨75000000, none⟩,
      _, [], [], rfl, rfl, by decide, by decide, hearlier 75000000 (by decide), hcan _ _ _⟩
  · exact ⟨[.poll ⟨0, none⟩, .poll ⟨25000000, none⟩, .poll ⟨50000000, none⟩,
      .poll ⟨75000000, none⟩, .poll ⟨100000000, none⟩], ⟨125000000, none⟩, _, [], [], rfl, rfl,
      by decide, by decide, hearlier 125000000 (by decide), hcan _ _ _⟩

/-- A trigger that fires every ten seconds, polled within the interval of half a minute: the time
after forty seconds is missed. -/
theorem not_nothingMissed :
    List.IsChain (fun earlier later ↦ earlier ≤ later ∧ later ≤ earlier + lookback ⟨none⟩)
        (pollTimes [.poll ⟨30000000, none⟩, .poll ⟨60000000, none⟩]) ∧
      ¬NothingMissed (Small.periodic 10 (by decide)) ⟨none⟩ Small.cronTimetable
        [.poll ⟨30000000, none⟩, .poll ⟨60000000, none⟩] := by
  refine ⟨by decide, fun h ↦ ?_⟩
  have hfired := h.fired _ (List.mem_singleton.mpr rfl) (Small.multiples 10000000 (by decide))
    rfl 40000000 ⟨4, rfl⟩ ⟨30000000, by simp [pollTimes], by decide⟩
    ⟨60000000, by simp [pollTimes], by decide⟩
  obtain ⟨ctx, payload, hpoll, hcall⟩ := hfired.passed
  obtain ⟨trigger, htrigger, hdispatched⟩ := List.mem_filterMap.mp hcall
  obtain rfl : trigger = _ := List.mem_singleton.mp htrigger
  obtain ⟨time, hresolve, hsame⟩ := dispatched_eq_some.mp hdispatched
  obtain ⟨-, hoperation⟩ := TriggerCall.mk.inj hsame
  obtain ⟨-, rfl, -⟩ := TriggerOperation.fireScheduledAt.inj hoperation
  -- the first poll takes the time zero, the second one the time after thirty seconds
  rcases List.mem_cons.mp hpoll with hfirst | hsecond
  · obtain rfl := SchedulerCall.poll.inj hfirst
    revert hresolve
    decide +kernel
  · obtain rfl := SchedulerCall.poll.inj (List.mem_singleton.mp hsecond)
    revert hresolve
    decide +kernel

end FuzzingCiCd.Master
