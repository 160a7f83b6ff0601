import FuzzingCiCd.Master.TriggerService

/-!
# What triggers record

The lookup of duplicates in terms of the recorded events, what processing an event does, and the
invariant of trigger databases: every event was recorded by a trigger, and an event with a run has
one of its own, of the pipeline of that trigger.

## Main results

* `respond_run`: the calls that return a run process the event that they present.
* `startRun_ok`, `guarded_eq_ok`: the run that an event starts, and the guards in front of it.
* `traced_history`: the invariant holds of every history.
-/

namespace FuzzingCiCd.Master

open Transition

/-! ## Runs -/

/-- The runs are there still, and belong to the same pipelines. -/
def KeepsRuns (db db' : Db) : Prop :=
  ∀ run ∈ db.runs, ∃ run' ∈ db'.runs, run'.id = run.id ∧ run'.pipelineId = run.pipelineId

theorem KeepsRuns.refl (db : Db) : KeepsRuns db db := fun run hrun ↦ ⟨run, hrun, rfl, rfl⟩

theorem RunStep.run_pipeline {c : Catalog} {db : Db} {call : Call} {v v' : RunView}
    (h : RunStep c db call v v') : v'.run.id = v.run.id ∧ v'.run.pipelineId = v.run.pipelineId := by
  cases h with
  | idle _ _ _ hrun => rw [hrun]; exact ⟨rfl, rfl⟩
  | move _ _ _ _ _ _ _ _ hrun => rw [hrun]; exact ⟨rfl, rfl⟩
  | finish _ _ _ _ _ _ _ _ _ hrun => rw [hrun]; exact ⟨rfl, rfl⟩
  | cancelRun _ _ hrun => rw [hrun]; exact ⟨rfl, rfl⟩
  | cancelExecution _ _ _ _ hrun => rw [hrun]; exact ⟨rfl, rfl⟩
  | retryRun _ _ _ _ hrun => rw [hrun]; exact ⟨rfl, rfl⟩
  | retryExecution _ _ _ _ _ _ _ hrun => rw [hrun]; exact ⟨rfl, rfl⟩
  | approve _ _ _ _ _ _ _ hrun => rw [hrun]; exact ⟨rfl, rfl⟩
  | reject _ _ _ _ _ _ _ _ hrun => rw [hrun]; exact ⟨rfl, rfl⟩
  | checkTimeouts _ _ hrun => rw [hrun]; exact ⟨rfl, rfl⟩

theorem keepsRuns_of_step {c : Catalog} {call : Call} {db db' : Db} (hs : Sound db)
    (h : step c call db = .ok db') : KeepsRuns db db' := by
  intro run hrun
  have href := step_refines hs h
  obtain ⟨v, hv, rfl⟩ := Db.view_of_findRun (hs.findRun.mpr ⟨hrun, rfl⟩)
  obtain ⟨v', hv', hstep⟩ := href.old _ v hv
  obtain ⟨hid, hpipeline⟩ := hstep.run_pipeline
  exact ⟨v'.run, (href.sound.findRun.mp (Db.view_eq_some hv').1).1, hid, hpipeline⟩

theorem findRun_of_creates {c : Catalog} {call : Call} {pipelineId : UUID} {db db' : Db}
    (hs : Sound db) (hcreates : Creates call.operation pipelineId) (h : step c call db = .ok db') :
    ∃ run, db'.findRun db.nextId = some run ∧ run.id = db.nextId ∧
      run.pipelineId = pipelineId := by
  have hcreated : ∃ now request startedBy, PipelineRunService.createRunInternal c now pipelineId
      request startedBy db = .ok db' := by
    obtain ⟨ctx, operation⟩ := call
    cases operation with
    | createRun p request =>
      obtain rfl : p = pipelineId := hcreates
      exact ⟨_, _, _, h⟩
    | createRunBySystem p triggerType payload =>
      obtain rfl : p = pipelineId := hcreates
      exact ⟨_, _, _, h⟩
    | _ => exact hcreates.elim
  obtain ⟨now, request, startedBy, hcreated⟩ := hcreated
  obtain ⟨run, created, db₁, hid, hpipeline, -, -, -, heffect, rfl⟩ :=
    createRunInternal_ok hs hcreated
  have hstart : ∀ run, (started now created run).id = run.id := by
    intro run
    rw [started, apply_ite PipelineRunEntity.id, ite_self]
  have hpipe : (started now created run).pipelineId = run.pipelineId := by
    rw [started, apply_ite PipelineRunEntity.pipelineId, ite_self]
  have hmem : run ∈ db₁.runs := by
    rw [heffect.runs]
    exact List.mem_append_right _ (List.mem_singleton.mpr rfl)
  refine ⟨started now created run, ?_, (hstart run).trans hid, hpipe.trans hpipeline⟩
  rw [findRun_updateRun hstart, heffect.sound.findRun.mpr ⟨hmem, hid⟩, Option.map_some,
    if_pos hid.symm]

/-! ## Duplicates -/

namespace TriggerService

section Lookup

variable {eventSource : String} {events : List TriggerEventEntity}
  {column : TriggerEventEntity → Option String} {value : Option String}

/-- The event has the source and, in the column, the value. -/
def HasValue (eventSource : String) (column : TriggerEventEntity → Option String)
    (value : Option String) (e : TriggerEventEntity) : Prop :=
  missing value = false ∧ e.eventSource = eventSource ∧ column e = value

instance (e : TriggerEventEntity) : Decidable (HasValue eventSource column value e) :=
  inferInstanceAs (Decidable (_ ∧ _ ∧ _))

/-- A lookup of `findDuplicate`. -/
theorem lookup_eq_none :
    (if missing value then none else findByEventSourceAnd eventSource events column value) = none ↔
      ∀ e ∈ events, ¬ HasValue eventSource column value e := by
  by_cases hmissing : missing value = true
  · rw [if_pos hmissing]
    exact iff_of_true rfl fun e _ h ↦ absurd (hmissing.symm.trans h.1) (by decide)
  · rw [if_neg hmissing, findByEventSourceAnd, List.find?_eq_none]
    refine forall₂_congr fun e _ ↦ ?_
    have hgiven : missing value = false := by simpa using hmissing
    rw [Bool.and_eq_true, decide_eq_true_iff, decide_eq_true_iff, HasValue, hgiven,
      and_iff_right rfl]

theorem lookup_eq_some {e : TriggerEventEntity}
    (hunique : Table.Unique (fun e ↦ (column e).map fun v ↦ (e.eventSource, v)) events) :
    (if missing value then none else findByEventSourceAnd eventSource events column value) =
      some e ↔ e ∈ events ∧ HasValue eventSource column value e := by
  constructor
  · intro h
    by_cases hmissing : missing value = true
    · rw [if_pos hmissing] at h
      cases h
    · rw [if_neg hmissing, findByEventSourceAnd] at h
      have htest := List.find?_some h
      rw [Bool.and_eq_true, decide_eq_true_iff, decide_eq_true_iff] at htest
      exact ⟨List.mem_of_find?_eq_some h, by simpa using hmissing, htest⟩
  · rintro ⟨he, hvalue⟩
    cases h : (if missing value then none
        else findByEventSourceAnd eventSource events column value) with
    | none => exact absurd hvalue (lookup_eq_none.mp h e he)
    | some x =>
      obtain ⟨hmissing, hsource, hcolumn⟩ := hvalue
      rw [if_neg (by simp [hmissing]), findByEventSourceAnd] at h
      have htest := List.find?_some h
      rw [Bool.and_eq_true, decide_eq_true_iff, decide_eq_true_iff] at htest
      cases value with
      | none => exact absurd hmissing (by decide)
      | some v =>
        refine congrArg some (hunique.eq (List.mem_of_find?_eq_some h) he
          (v := (eventSource, v)) ?_ ?_)
        · rw [htest.2, htest.1, Option.map_some]
        · rw [hcolumn, hsource, Option.map_some]

variable {externalEventId idempotencyKey payloadHash : Option String}

/-- What `findDuplicate` finds: the event with the external id, else the one with the idempotency
key, else the one with the hash. -/
def Duplicates (eventSource : String) (events : List TriggerEventEntity)
    (externalEventId idempotencyKey payloadHash : Option String) (e : TriggerEventEntity) : Prop :=
  let external := HasValue eventSource TriggerEventEntity.externalEventId externalEventId
  let idempotency := HasValue eventSource TriggerEventEntity.idempotencyKey idempotencyKey
  let hash := HasValue eventSource TriggerEventEntity.payloadHash payloadHash
  external e ∨ (∀ x ∈ events, ¬ external x) ∧
    (idempotency e ∨ (∀ x ∈ events, ¬ idempotency x) ∧ hash e)

instance (e : TriggerEventEntity) : Decidable (Duplicates eventSource events externalEventId
    idempotencyKey payloadHash e) :=
  inferInstanceAs (Decidable (_ ∨ _ ∧ (_ ∨ _ ∧ _)))

theorem findDuplicate_eq_some (h : TriggerEventSchema events) {e : TriggerEventEntity} :
    findDuplicate eventSource events externalEventId idempotencyKey payloadHash = some e ↔
      e ∈ events ∧ Duplicates eventSource events externalEventId idempotencyKey payloadHash e := by
  simp only [findDuplicate, findByEventSourceAndExternalEventId,
    findByEventSourceAndIdempotencyKey, findByEventSourceAndPayloadHash, Option.orElse_eq_orElse,
    Option.orElse_eq_or]
  rw [Option.or_eq_some_iff, Option.or_eq_some_iff,
    lookup_eq_some h.trigger_event_external_uq, lookup_eq_some h.trigger_event_idempotency_uq,
    lookup_eq_some h.trigger_event_payload_hash_uq, lookup_eq_none, lookup_eq_none, Duplicates]
  tauto

theorem findDuplicate_eq_none :
    findDuplicate eventSource events externalEventId idempotencyKey payloadHash = none ↔
      ∀ e ∈ events, ¬ HasValue eventSource TriggerEventEntity.externalEventId externalEventId e ∧
        ¬ HasValue eventSource TriggerEventEntity.idempotencyKey idempotencyKey e ∧
        ¬ HasValue eventSource TriggerEventEntity.payloadHash payloadHash e := by
  simp only [findDuplicate, findByEventSourceAndExternalEventId,
    findByEventSourceAndIdempotencyKey, findByEventSourceAndPayloadHash, Option.orElse_eq_orElse,
    Option.orElse_eq_or]
  rw [Option.or_eq_none_iff, Option.or_eq_none_iff, lookup_eq_none, lookup_eq_none, lookup_eq_none]
  exact ⟨fun ⟨h₁, h₂, h₃⟩ e he ↦ ⟨h₁ e he, h₂ e he, h₃ e he⟩,
    fun h ↦ ⟨fun e he ↦ (h e he).1, fun e he ↦ (h e he).2.1, fun e he ↦ (h e he).2.2⟩⟩

end Lookup

end TriggerService

/-! ## Saving -/

namespace TriggerDb

variable {s s' : TriggerDb} {event : TriggerEventEntity}

theorem saveTriggerEvent_eq_ok : s.saveTriggerEvent event = .ok s' ↔
    TriggerEventSchema s'.triggerEvents ∧ s' =
      { s with triggerEvents := Table.save TriggerEventEntity.id s.triggerEvents event } := by
  rw [saveTriggerEvent]
  by_cases h : TriggerEventSchema (Table.save TriggerEventEntity.id s.triggerEvents event)
  · rw [if_pos h, Except.ok.injEq]
    refine ⟨fun heq ↦ ⟨heq ▸ h, heq.symm⟩, fun heq ↦ heq.2.symm⟩
  · rw [if_neg h]
    refine iff_of_false nofun ?_
    rintro ⟨hschema, rfl⟩
    exact h hschema

theorem master_eq_ok {c : Catalog} {call : Call} : s.master c call = .ok s' ↔
    ∃ db, step c call s.db = .ok db ∧ s' = { s with db := db } := by
  rw [master]
  cases step c call s.db with
  | ok db =>
    rw [Except.ok.injEq]
    refine ⟨fun h ↦ ⟨db, rfl, h.symm⟩, ?_⟩
    rintro ⟨db', hdb', rfl⟩
    rw [Except.ok.inj hdb']
  | error exception =>
    refine iff_of_false nofun ?_
    rintro ⟨db', hdb', -⟩
    cases hdb'

end TriggerDb

/-! ## Processing -/

namespace TriggerService

variable {c : TriggerCatalog} {ctx : CallContext} {s s' : TriggerDb}

/-- What a call changes: the database of the runs by an operation of the master, and the recorded
events. -/
structure Changes (c : TriggerCatalog) (s s' : TriggerDb) : Prop where
  reachable : Reachable c.toCatalog s.db → Reachable c.toCatalog s'.db
  runs : Reachable c.toCatalog s.db → KeepsRuns s.db s'.db

theorem changes_of_step {call : Call} {db : Db} (h : step c.toCatalog call s.db = .ok db)
    (hdb : s'.db = db) : Changes c s s' := by
  constructor
  · intro hreach
    rw [hdb]
    exact hreach.step h
  · intro hreach
    rw [hdb]
    exact keepsRuns_of_step hreach.sound h

theorem startRun_ok {pipelineId : UUID} {payloadNode : Json} {systemInitiated : Bool}
    {run : PipelineRunEntity} (hs : Sound s.db)
    (h : startRun c ctx pipelineId payloadNode systemInitiated s = .ok (run, s')) :
    ∃ call db, step c.toCatalog call s.db = .ok db ∧ s' = { s with db := db } ∧
      run ∈ db.runs ∧ run.id = s.db.nextId ∧ run.pipelineId = pipelineId := by
  rw [startRun, bind_eq_ok] at h
  obtain ⟨s₁, hmaster, h⟩ := h
  obtain ⟨db, hstep, rfl⟩ := TriggerDb.master_eq_ok.mp hmaster
  refine ⟨_, db, hstep, ?_⟩
  have hcreates : Creates (if systemInitiated then
      Operation.createRunBySystem pipelineId (some "trigger") (some payloadNode)
      else .createRun pipelineId (some ⟨some "trigger", some payloadNode⟩)) pipelineId := by
    split
    · rfl
    · rfl
  obtain ⟨run', hfind, hid, hpipeline⟩ := findRun_of_creates hs hcreates hstep
  rw [hfind] at h
  obtain ⟨rfl, rfl⟩ := Prod.mk.inj (Except.ok.inj h)
  exact ⟨rfl, ((step_refines hs hstep).sound.findRun.mp hfind).1, hid, hpipeline⟩

/-- An event as `processEvent` receives it. -/
structure IncomingEvent where
  trigger : TriggerEntity
  eventSource : String
  externalEventId : Option String
  idempotencyKey : Option String
  ref : Option String
  commitHash : Option String
  payload : Option Json
  systemInitiated : Bool

namespace IncomingEvent

variable (c) (ctx) (ev : IncomingEvent)

def payloadHash : Option String :=
  if shouldUsePayloadHash ev.externalEventId ev.idempotencyKey then
    buildPayloadHash c.sha256 ev.payload else none

/-- The event is processed. -/
def process (s : TriggerDb) : Except TriggerFailure (PipelineRunEntity × TriggerDb) :=
  processEvent c ctx ev.trigger ev.eventSource ev.externalEventId ev.idempotencyKey ev.ref
    ev.commitHash ev.payload ev.systemInitiated s

/-- A recorded event is the one that the incoming event is taken to repeat. -/
def Repeats (s : TriggerDb) (e : TriggerEventEntity) : Prop :=
  e ∈ s.triggerEvents ∧ Duplicates ev.eventSource s.triggerEvents ev.externalEventId
    ev.idempotencyKey (ev.payloadHash c) e

/-- The event recorded for an incoming one that has started a run. -/
structure Recorded (runId : UUID) (e : TriggerEventEntity) : Prop where
  triggerId : e.triggerId = ev.trigger.id
  pipelineRunId : e.pipelineRunId = some runId
  eventSource : e.eventSource = ev.eventSource
  externalEventId : e.externalEventId = ev.externalEventId
  idempotencyKey : e.idempotencyKey = ev.idempotencyKey
  payloadHash : e.payloadHash = ev.payloadHash c

/-- What becomes of an incoming event. -/
inductive Outcome (s s' : TriggerDb) (run : PipelineRunEntity) : Prop where
  /-- It is answered with the run of the event that it repeats. -/
  | repeated (e : TriggerEventEntity) (hrepeats : ev.Repeats c s e)
      (hrun : e.pipelineRunId = some run.id) (hmem : run ∈ s.db.runs) (hs' : s' = s)
  /-- It is recorded and starts a run. -/
  | started (e : TriggerEventEntity) (hnew : ∀ x, ¬ ev.Repeats c s x)
      (hchanges : Changes c s s') (hmem : run ∈ s'.db.runs) (hid : run.id = s.db.nextId)
      (hpipeline : run.pipelineId = ev.trigger.pipelineId) (heid : e.id = s.nextEventId)
      (hrecorded : ev.Recorded c run.id e) (hschema : TriggerEventSchema s'.triggerEvents)
      (hevents : s'.triggerEvents = s.triggerEvents ++ [e])
      (hnext : s'.nextEventId = s.nextEventId + 1)
      (hruns : s'.runTriggers = s.runTriggers ++ [(run.id, ev.trigger.id)])

variable {c ctx ev}

theorem process_ok {run : PipelineRunEntity} (hreach : Reachable c.toCatalog s.db)
    (hschema : TriggerEventSchema s.triggerEvents)
    (hlt : ∀ e ∈ s.triggerEvents, e.id < s.nextEventId)
    (h : ev.process c ctx s = .ok (run, s')) : ev.Outcome c s s' run := by
  rw [process, processEvent] at h
  dsimp only at h
  split at h
  · rename_i duplicate hfind
    obtain ⟨hmem, hduplicates⟩ := (findDuplicate_eq_some hschema).mp hfind
    split at h
    · cases h
    · rename_i existingRun hrun
      obtain ⟨rfl, rfl⟩ := Prod.mk.inj (Except.ok.inj h)
      obtain ⟨r, hr, hfound⟩ := Option.bind_eq_some_iff.mp hrun
      obtain ⟨hrunmem, rfl⟩ := hreach.sound.findRun.mp hfound
      exact .repeated duplicate ⟨hmem, hduplicates⟩ hr hrunmem rfl
  · rename_i hfind
    obtain ⟨s₁, hsave, h⟩ := bind_eq_ok.mp h
    obtain ⟨-, rfl⟩ := TriggerDb.saveTriggerEvent_eq_ok.mp hsave
    obtain ⟨⟨run', s₂⟩, hstart, h⟩ := bind_eq_ok.mp h
    have hsound : Sound s.db := hreach.sound
    obtain ⟨call, db, hstep, rfl, hmem, hid, hpipeline⟩ := startRun_ok (by exact hsound) hstart
    obtain ⟨s₃, hsave', h⟩ := bind_eq_ok.mp h
    obtain ⟨hschema', rfl⟩ := TriggerDb.saveTriggerEvent_eq_ok.mp hsave'
    obtain ⟨rfl, rfl⟩ := Prod.mk.inj (Except.ok.inj h)
    have hfresh : ∀ e ∈ s.triggerEvents, e.id ≠ s.nextEventId := fun e he ↦ (hlt e he).ne
    have hnone : ∀ x, ¬ ev.Repeats c s x := by
      intro x hx
      have hfound := (findDuplicate_eq_some hschema).mpr hx
      rw [payloadHash, hfind] at hfound
      cases hfound
    exact .started _ hnone (changes_of_step hstep rfl) hmem hid hpipeline rfl
      ⟨rfl, rfl, rfl, rfl, rfl, rfl⟩ hschema' (Table.save_save hfresh rfl) rfl rfl

end IncomingEvent

/-! ## The calls

The four calls of the service differ in how they find their trigger and what event they make of
the request. `presented` is that event, and a call returns a run exactly if the processing of the
event does (`respond_run`). A call that returns none has recorded at most an ignored event. -/

/-- The trigger that a call is about. -/
def triggerOf (c : TriggerCatalog) (call : TriggerCall) : Option TriggerEntity :=
  match call.operation with
  | .fire triggerId _ => (findTrigger c triggerId).toOption
  | .ingestWebhook request => (resolveWebhookTrigger c request).toOption
  | .fireScheduled triggerId _ _ => (findTrigger c triggerId).toOption
  | .fireScheduledAt triggerId _ _ => (findTrigger c triggerId).toOption
  | .master _ => none

/-- A scheduled event of a trigger that has capacity. -/
def scheduled (c : TriggerCatalog) (ctx : CallContext) (trigger : TriggerEntity)
    (externalEventId : Option String) (payload : Option Json) (s : TriggerDb) :
    Option IncomingEvent :=
  let plannedKey := plannedKey c ctx trigger externalEventId
  if hasScheduleCapacity trigger s then
    some ⟨trigger, "schedule", plannedKey, plannedKey, none, none, payload, true⟩
  else none

/-- The event that a call processes: its trigger is active and, if it is a scheduled one, has
capacity for one more run. -/
def presented (c : TriggerCatalog) (call : TriggerCall) (s : TriggerDb) : Option IncomingEvent :=
  (triggerOf c call).bind fun trigger ↦
    if trigger.isActive = false then none else
    match call.operation with
    | .fire _ request => some ⟨trigger, "api", request.bind TriggerFireRequest.externalEventId,
        request.bind TriggerFireRequest.idempotencyKey, none, none,
        request.bind TriggerFireRequest.payload, false⟩
    | .ingestWebhook request => some ⟨trigger, request.eventSource.getD "vcs_webhook",
        request.externalEventId, request.idempotencyKey, request.ref, request.commitHash,
        request.payload, true⟩
    | .fireScheduled _ externalEventId payload =>
      scheduled c call.context trigger externalEventId payload s
    | .fireScheduledAt _ plannedFireTime payload =>
      scheduled c call.context trigger (some (dueKey c trigger plannedFireTime)) payload s
    | .master _ => none

section Calls

variable {call : TriggerCall} {run : PipelineRunEntity}

theorem requireActiveTrigger_eq_ok {trigger : TriggerEntity} {u : Unit} :
    requireActiveTrigger trigger = .ok u ↔ trigger.isActive = true := by
  rw [requireActiveTrigger]
  split
  · rename_i h
    exact iff_of_true rfl h
  · rename_i h
    exact iff_of_false nofun h

private theorem returned_eq_ok {x : Except TriggerFailure (PipelineRunEntity × TriggerDb)} :
    (x >>= fun (run, s) ↦ (pure (some run, s) : Except TriggerFailure _)) = .ok (some run, s') ↔
      x = .ok (run, s') := by
  rw [bind_eq_ok]
  constructor
  · rintro ⟨⟨run', s₁⟩, hx, h⟩
    obtain ⟨hrun, rfl⟩ := Prod.mk.inj (Except.ok.inj h)
    rw [hx, Option.some.inj hrun]
  · intro hx
    exact ⟨(run, s'), hx, rfl⟩

private theorem guarded_eq_ok {resolve : Except TriggerFailure TriggerEntity}
    {process : TriggerEntity → Except TriggerFailure (PipelineRunEntity × TriggerDb)} :
    (do
      let trigger ← resolve
      requireActiveTrigger trigger
      process trigger) = .ok (run, s') ↔
    ∃ trigger, resolve = .ok trigger ∧ trigger.isActive = true ∧
      process trigger = .ok (run, s') := by
  rw [bind_eq_ok]
  refine exists_congr fun trigger ↦ and_congr_right fun _ ↦ ?_
  rw [bind_eq_ok]
  constructor
  · rintro ⟨u, hactive, h⟩
    exact ⟨requireActiveTrigger_eq_ok.mp hactive, h⟩
  · rintro ⟨hactive, h⟩
    exact ⟨(), requireActiveTrigger_eq_ok.mpr hactive, h⟩

theorem fireScheduled_run {ctx : CallContext} {trigger : TriggerEntity}
    {externalEventId : Option String} {payload : Option Json} :
    fireScheduled c ctx trigger externalEventId payload s = .ok (some run, s') ↔
      trigger.isActive = true ∧ ∃ ev ∈ scheduled c ctx trigger externalEventId payload s,
        ev.process c ctx s = .ok (run, s') := by
  rw [fireScheduled, scheduled]
  by_cases hactive : trigger.isActive = true
  · rw [if_neg (by simp [hactive]), and_iff_right hactive]
    dsimp only
    by_cases hcapacity : hasScheduleCapacity trigger s = true
    · rw [if_neg (by simp [hcapacity]), if_pos hcapacity, returned_eq_ok]
      simp only [Option.mem_some_iff, exists_eq_left']
      rfl
    · rw [if_pos (by simpa using hcapacity), if_neg hcapacity]
      refine iff_of_false (fun h ↦ ?_) (by simp)
      obtain ⟨s₁, -, h⟩ := bind_eq_ok.mp h
      cases h
  · rw [if_pos (by simpa using hactive)]
    exact iff_of_false nofun fun h ↦ hactive h.1

private theorem toOption_eq_some {x : Except TriggerFailure TriggerEntity}
    {trigger : TriggerEntity} : x.toOption = some trigger ↔ x = .ok trigger := by
  cases x with
  | ok a => simp [Except.toOption]
  | error e => simp [Except.toOption]

/-- **The calls that return a run.** They process the event they present. -/
theorem respond_run : respond c call s = .ok (some run, s') ↔
    ∃ ev ∈ presented c call s, ev.process c call.context s = .ok (run, s') := by
  obtain ⟨ctx, operation⟩ := call
  -- every operation resolves its trigger, and an inactive one presents nothing
  have hpresented : ∀ {process : TriggerEntity → Option IncomingEvent}
      {resolve : Except TriggerFailure TriggerEntity},
      (∃ trigger, resolve = .ok trigger ∧ trigger.isActive = true ∧
        ∃ ev ∈ process trigger, ev.process c ctx s = .ok (run, s')) ↔
      ∃ ev ∈ (resolve.toOption.bind fun trigger ↦
        if trigger.isActive = false then none else process trigger),
        ev.process c ctx s = .ok (run, s') := by
    intro process resolve
    constructor
    · rintro ⟨trigger, hresolve, hactive, ev, hev, h⟩
      refine ⟨ev, ?_, h⟩
      rw [Option.mem_def, Option.bind_eq_some_iff]
      exact ⟨trigger, toOption_eq_some.mpr hresolve, by rw [if_neg (by simp [hactive])]; exact hev⟩
    · rintro ⟨ev, hev, h⟩
      rw [Option.mem_def, Option.bind_eq_some_iff] at hev
      obtain ⟨trigger, hresolve, hev⟩ := hev
      by_cases hactive : trigger.isActive = false
      · rw [if_pos hactive] at hev
        cases hev
      · rw [if_neg hactive] at hev
        exact ⟨trigger, toOption_eq_some.mp hresolve, by simpa using hactive, ev, hev, h⟩
  cases operation with
  | fire triggerId request =>
    rw [respond, returned_eq_ok, fire, guarded_eq_ok, presented, triggerOf, ← hpresented]
    simp only [Option.mem_some_iff, exists_eq_left']
    rfl
  | ingestWebhook request =>
    rw [respond, returned_eq_ok, ingestWebhook, guarded_eq_ok, presented, triggerOf, ← hpresented]
    simp only [Option.mem_some_iff, exists_eq_left']
    rfl
  | fireScheduled triggerId externalEventId payload =>
    rw [respond, presented, triggerOf, ← hpresented]
    dsimp only
    rw [bind_eq_ok]
    simp only [fireScheduled_run]
  | fireScheduledAt triggerId plannedFireTime payload =>
    rw [respond, presented, triggerOf, ← hpresented]
    dsimp only
    rw [bind_eq_ok]
    simp only [fireScheduledAt, fireScheduled_run]
  | master operation =>
    rw [respond, presented, triggerOf, Option.bind_none]
    refine iff_of_false (fun h ↦ ?_) (by simp)
    obtain ⟨s₁, -, h⟩ := bind_eq_ok.mp h
    cases h

theorem mem_of_findTrigger {triggerId : UUID} {trigger : TriggerEntity}
    (h : findTrigger c triggerId = .ok trigger) : trigger ∈ c.triggers := by
  rw [findTrigger] at h
  split at h
  · cases h
  · rename_i found hfind
    rw [← Except.ok.inj h]
    exact (Table.findById_some hfind).1

theorem mem_of_resolveWebhookTrigger {request : WebhookTriggerRequest} {trigger : TriggerEntity}
    (h : resolveWebhookTrigger c request = .ok trigger) : trigger ∈ c.triggers := by
  rw [resolveWebhookTrigger] at h
  split at h
  · obtain ⟨found, hfound, h⟩ := bind_eq_ok.mp h
    split at h
    · cases h
    · rw [← Except.ok.inj h]
      exact mem_of_findTrigger hfound
  · split at h
    · cases h
    · split at h
      · cases h
      · rename_i found hfind
        rw [← Except.ok.inj h]
        exact List.mem_of_find?_eq_some hfind

theorem mem_of_triggerOf {trigger : TriggerEntity} (h : triggerOf c call = some trigger) :
    trigger ∈ c.triggers := by
  rw [triggerOf] at h
  split at h
  · exact mem_of_findTrigger (toOption_eq_some.mp h)
  · exact mem_of_resolveWebhookTrigger (toOption_eq_some.mp h)
  · exact mem_of_findTrigger (toOption_eq_some.mp h)
  · exact mem_of_findTrigger (toOption_eq_some.mp h)
  · cases h

theorem triggerOf_of_presented {ev : IncomingEvent} (h : presented c call s = some ev) :
    triggerOf c call = some ev.trigger := by
  rw [presented, Option.bind_eq_some_iff] at h
  obtain ⟨trigger, htrigger, h⟩ := h
  have hscheduled : ∀ {externalEventId : Option String} {payload : Option Json},
      scheduled c call.context trigger externalEventId payload s = some ev →
        trigger = ev.trigger := by
    intro externalEventId payload h
    rw [scheduled] at h
    split at h
    · rw [← Option.some.inj h]
    · cases h
  rw [htrigger]
  split at h
  · cases h
  · split at h
    · rw [← Option.some.inj h]
    · rw [← Option.some.inj h]
    · rw [hscheduled h]
    · rw [hscheduled h]
    · cases h

/-- What a call does that returns no run. -/
inductive Unanswered (c : TriggerCatalog) (s s' : TriggerDb) : Prop where
  /-- The trigger is inactive, or the slot is recorded already. -/
  | nothing (hs' : s' = s)
  /-- A slot without capacity is recorded. -/
  | ignored (trigger : TriggerEntity) (e : TriggerEventEntity) (hmem : trigger ∈ c.triggers)
      (htrigger : e.triggerId = trigger.id) (hrun : e.pipelineRunId = none)
      (hid : e.id = s.nextEventId)
      (hsave : { s with nextEventId := s.nextEventId + 1 }.saveTriggerEvent e = .ok s')
  /-- It is an operation of the master. -/
  | master (call : Call) (db : Db) (hstep : step c.toCatalog call s.db = .ok db)
      (hs' : s' = { s with db := db })

theorem fireScheduled_none {ctx : CallContext} {trigger : TriggerEntity}
    {externalEventId : Option String} {payload : Option Json} (hmem : trigger ∈ c.triggers)
    (h : fireScheduled c ctx trigger externalEventId payload s = .ok (none, s')) :
    Unanswered c s s' := by
  rw [fireScheduled] at h
  split at h
  · obtain ⟨-, rfl⟩ := Prod.mk.inj (Except.ok.inj h)
    exact .nothing rfl
  · split at h
    · obtain ⟨s₁, hrecord, h⟩ := bind_eq_ok.mp h
      obtain ⟨-, rfl⟩ := Prod.mk.inj (Except.ok.inj h)
      rw [recordIgnoredScheduleEvent] at hrecord
      generalize (if shouldUsePayloadHash _ _ = true then buildPayloadHash c.sha256 _ else none) =
        payloadHash at hrecord
      split at hrecord
      · exact .nothing (Except.ok.inj hrecord).symm
      · exact .ignored trigger _ hmem rfl rfl rfl hrecord
    · obtain ⟨⟨run, s₁⟩, -, h⟩ := bind_eq_ok.mp h
      cases (Prod.mk.inj (Except.ok.inj h)).1

theorem respond_none (h : respond c call s = .ok (none, s')) : Unanswered c s s' := by
  obtain ⟨ctx, operation⟩ := call
  rw [respond] at h
  split at h
  · obtain ⟨⟨run, s₁⟩, -, h⟩ := bind_eq_ok.mp h
    cases (Prod.mk.inj (Except.ok.inj h)).1
  · obtain ⟨⟨run, s₁⟩, -, h⟩ := bind_eq_ok.mp h
    cases (Prod.mk.inj (Except.ok.inj h)).1
  · obtain ⟨trigger, htrigger, h⟩ := bind_eq_ok.mp h
    exact fireScheduled_none (mem_of_findTrigger htrigger) h
  · obtain ⟨trigger, htrigger, h⟩ := bind_eq_ok.mp h
    exact fireScheduled_none (mem_of_findTrigger htrigger) h
  · obtain ⟨s₁, hmaster, h⟩ := bind_eq_ok.mp h
    obtain ⟨-, rfl⟩ := Prod.mk.inj (Except.ok.inj h)
    obtain ⟨db, hstep, hs'⟩ := TriggerDb.master_eq_ok.mp hmaster
    exact .master _ db hstep hs'

end Calls

end TriggerService

/-! ## The invariant

The run of an event is of the pipeline of its trigger, a run belongs to one event, and the keys
are unique as the schema says. This holds of the empty database, and each way in which a call
ends keeps it: a repeated one changes nothing, and one that starts a run adds one event and one
run. -/

open TriggerService

/-- What the recorded events say about the runs. -/
structure Traced (c : TriggerCatalog) (s : TriggerDb) : Prop where
  reachable : Reachable c.toCatalog s.db
  schema : TriggerEventSchema s.triggerEvents
  ids_lt : ∀ e ∈ s.triggerEvents, e.id < s.nextEventId
  recorded : ∀ e ∈ s.triggerEvents, ∃ trigger ∈ c.triggers, trigger.id = e.triggerId
  /-- An event with a run has one of the pipeline of its trigger. -/
  runs : ∀ e ∈ s.triggerEvents, ∀ r ∈ e.pipelineRunId, ∃ run ∈ s.db.runs, run.id = r ∧
    ∀ trigger ∈ c.triggers, trigger.id = e.triggerId → run.pipelineId = trigger.pipelineId
  /-- A run belongs to one event. -/
  distinct : ∀ e ∈ s.triggerEvents, ∀ e' ∈ s.triggerEvents, ∀ r ∈ e.pipelineRunId,
    r ∈ e'.pipelineRunId → e = e'

section Traced

variable {c : TriggerCatalog} {s s' : TriggerDb}

theorem traced_empty (c : TriggerCatalog) : Traced c .empty where
  reachable := ⟨[], rfl⟩
  schema := by decide
  ids_lt := by simp [TriggerDb.empty]
  recorded := by simp [TriggerDb.empty]
  runs := by simp [TriggerDb.empty]
  distinct := by simp [TriggerDb.empty]

theorem Traced.runs_of_keeps (h : Traced c s) {db : Db} (hkeeps : KeepsRuns s.db db) :
    ∀ e ∈ s.triggerEvents, ∀ r ∈ e.pipelineRunId, ∃ run ∈ db.runs, run.id = r ∧
      ∀ trigger ∈ c.triggers, trigger.id = e.triggerId →
        run.pipelineId = trigger.pipelineId := by
  intro e he r hr
  obtain ⟨run, hrun, rfl, hpipeline⟩ := h.runs e he r hr
  obtain ⟨run', hrun', hid, hpipeline'⟩ := hkeeps run hrun
  exact ⟨run', hrun', hid, fun trigger htrigger heq ↦
    hpipeline'.trans (hpipeline trigger htrigger heq)⟩

theorem Traced.outcome (h : Traced c s) {ev : IncomingEvent} {run : PipelineRunEntity}
    (hmem : ev.trigger ∈ c.triggers) (houtcome : ev.Outcome c s s' run) : Traced c s' := by
  cases houtcome with
  | repeated e hrepeats hrun hrunmem hs' =>
    rw [hs']
    exact h
  | started e hnew hchanges hrunmem hid hpipeline heid hrecorded hschema hevents hnext hruns =>
    have hkeeps := hchanges.runs h.reachable
    have hfresh : ∀ x ∈ s.triggerEvents, run.id ∉ x.pipelineRunId := by
      intro x hx hrun
      obtain ⟨run', hrun', hid', -⟩ := h.runs x hx _ hrun
      exact (h.reachable.sound.runs_lt run' hrun').ne (hid'.trans hid)
    constructor
    · exact hchanges.reachable h.reachable
    · exact hschema
    · rw [hevents, hnext]
      refine List.forall_mem_append.mpr ⟨fun x hx ↦ (h.ids_lt x hx).trans (Nat.lt_succ_self _), ?_⟩
      rw [List.forall_mem_singleton, heid]
      exact Nat.lt_succ_self _
    · rw [hevents]
      refine List.forall_mem_append.mpr ⟨h.recorded, ?_⟩
      rw [List.forall_mem_singleton, hrecorded.triggerId]
      exact ⟨ev.trigger, hmem, rfl⟩
    · rw [hevents]
      refine List.forall_mem_append.mpr ⟨h.runs_of_keeps hkeeps, ?_⟩
      rw [List.forall_mem_singleton, hrecorded.pipelineRunId, hrecorded.triggerId]
      rintro r ⟨⟩
      refine ⟨run, hrunmem, rfl, fun trigger htrigger heq ↦ ?_⟩
      rw [hpipeline, c.triggers_keyed.eq htrigger hmem heq]
    · intro x hx y hy r hxr hyr
      rw [hevents, List.mem_append, List.mem_singleton] at hx hy
      rcases hx with hx | rfl
      · rcases hy with hy | rfl
        · exact h.distinct x hx y hy r hxr hyr
        · rw [hrecorded.pipelineRunId] at hyr
          obtain rfl := Option.mem_some_iff.mp hyr
          exact absurd hxr (hfresh x hx)
      · rcases hy with hy | rfl
        · rw [hrecorded.pipelineRunId] at hxr
          obtain rfl := Option.mem_some_iff.mp hxr
          exact absurd hyr (hfresh y hy)
        · rfl

theorem Traced.unanswered (h : Traced c s) (hcall : Unanswered c s s') : Traced c s' := by
  cases hcall with
  | nothing hs' =>
    rw [hs']
    exact h
  | ignored trigger e hmem htrigger hrun hid hsave =>
    obtain ⟨hschema, rfl⟩ := TriggerDb.saveTriggerEvent_eq_ok.mp hsave
    have hevents : Table.save TriggerEventEntity.id s.triggerEvents e = s.triggerEvents ++ [e] := by
      refine Table.save_fresh fun x hx ↦ ?_
      rw [hid]
      exact (h.ids_lt x hx).ne
    rw [hevents] at hschema ⊢
    constructor
    · exact h.reachable
    · exact hschema
    · refine List.forall_mem_append.mpr ⟨fun x hx ↦ (h.ids_lt x hx).trans (Nat.lt_succ_self _), ?_⟩
      rw [List.forall_mem_singleton, hid]
      exact Nat.lt_succ_self _
    · refine List.forall_mem_append.mpr ⟨h.recorded, ?_⟩
      rw [List.forall_mem_singleton, htrigger]
      exact ⟨trigger, hmem, rfl⟩
    · refine List.forall_mem_append.mpr ⟨h.runs, ?_⟩
      rw [List.forall_mem_singleton, hrun]
      nofun
    · intro x hx y hy r hxr hyr
      rw [List.mem_append, List.mem_singleton] at hx hy
      rcases hx with hx | rfl
      · rcases hy with hy | rfl
        · exact h.distinct x hx y hy r hxr hyr
        · rw [hrun] at hyr
          cases hyr
      · rw [hrun] at hxr
        cases hxr
  | master call db hstep hs' =>
    rw [hs']
    exact ⟨h.reachable.step hstep, h.schema, h.ids_lt, h.recorded,
      h.runs_of_keeps (keepsRuns_of_step h.reachable.sound hstep), h.distinct⟩

theorem Traced.process (h : Traced c s) {ctx : CallContext} {ev : IncomingEvent}
    {run : PipelineRunEntity} (hprocess : ev.process c ctx s = .ok (run, s')) :
    ev.Outcome c s s' run :=
  IncomingEvent.process_ok h.reachable h.schema h.ids_lt hprocess

theorem Traced.step (h : Traced c s) {call : TriggerCall} (hstep : triggerStep c call s = .ok s') :
    Traced c s' := by
  obtain ⟨⟨run, s₁⟩, hrespond, hs'⟩ := bind_eq_ok.mp hstep
  obtain rfl := Except.ok.inj hs'
  cases run with
  | none => exact h.unanswered (respond_none hrespond)
  | some run =>
    obtain ⟨ev, hev, hprocess⟩ := respond_run.mp hrespond
    exact h.outcome (mem_of_triggerOf (triggerOf_of_presented hev)) (h.process hprocess)

/-- **What triggers record.** In every history an event and its run belong to the trigger. -/
theorem traced_history (c : TriggerCatalog) (calls : List TriggerCall) :
    Traced c (triggerHistory c calls) :=
  replay_invariant' (fun _ _ _ h hstep ↦ h.step hstep) calls (traced_empty c)

end Traced

end FuzzingCiCd.Master
