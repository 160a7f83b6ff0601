import FuzzingCiCd.Master.TriggerIsolation
import FuzzingCiCd.Master.TriggerScheduler

/-!
# Runs that the scheduler starts

A scheduled call is about a slot: its trigger and the key under which its event is recorded. Over
every history of polls and other calls

* a slot starts at most one run, because the event that started it is found by the next call;
* a scheduled call does not raise the number of active runs of its trigger above the cap, because it
  starts one run at most and only if there is capacity for one;
* a slot that was recorded as ignored is never started, because the record is found and has no run.

The three are `scheduled_runs`. The records are never changed once they are made, which is
`mem_triggerHistory`.
-/

namespace FuzzingCiCd.Master

open Transition TriggerService

/-! ## Slots -/

/-- The trigger and the key of a scheduled call. -/
def slotOf (c : TriggerCatalog) (call : TriggerCall) : Option (UUID × Option String) :=
  match call.operation with
  | .fireScheduled triggerId externalEventId _ => (findTrigger c triggerId).toOption.map
      fun trigger ↦ (trigger.id, plannedKey c call.context trigger externalEventId)
  | .fireScheduledAt triggerId plannedFireTime _ => (findTrigger c triggerId).toOption.map
      fun trigger ↦ (trigger.id,
        plannedKey c call.context trigger (some (dueKey c trigger plannedFireTime)))
  | _ => none

/-- The cap of a trigger, as `hasScheduleCapacity` reads it. -/
def maxParallelRuns (trigger : TriggerEntity) : ℤ :=
  readPositiveInt trigger.config "max_parallel_runs" "maxParallelRuns" 1

/-- The call is answered with a run that was not there before. -/
def Starts (c : TriggerCatalog) (s : TriggerDb) (call : TriggerCall) : Prop :=
  ∃ run s', respond c call s = .ok (some run, s') ∧ s.db.findRun run.id = none

section Keys

variable {c : TriggerCatalog} {ctx : CallContext} {call : TriggerCall} {s s' : TriggerDb}

theorem missing_dueKey (trigger : TriggerEntity) (time : Instant) :
    missing (some (dueKey c trigger time)) = false := by
  have hcolon : ':' ∈ (dueKey c trigger time).toList := by
    rw [dueKey, String.toList_append, String.toList_append]
    exact List.mem_append_left _ (List.mem_append_right _ (by decide))
  rw [missing, Option.all_some, JavaText.isBlank, List.all_eq_false]
  exact ⟨':', hcolon, by decide⟩

theorem plannedKey_dueKey (trigger : TriggerEntity) (time : Instant) :
    plannedKey c ctx trigger (some (dueKey c trigger time)) = some (dueKey c trigger time) := by
  rw [plannedKey, missing_dueKey]
  rfl

theorem missing_plannedKey (trigger : TriggerEntity) (externalEventId : Option String) :
    missing (plannedKey c ctx trigger externalEventId) = false := by
  rw [plannedKey]
  split
  · exact missing_dueKey trigger ctx.now
  · rename_i h
    simpa using h

theorem missing_of_slotOf {slot : UUID × Option String} (h : slotOf c call = some slot) :
    missing slot.2 = false := by
  rw [slotOf] at h
  split at h
  · obtain ⟨trigger, -, rfl⟩ := Option.map_eq_some_iff.mp h
    exact missing_plannedKey trigger _
  · obtain ⟨trigger, -, rfl⟩ := Option.map_eq_some_iff.mp h
    exact missing_plannedKey trigger _
  · cases h

theorem exists_fireScheduled {slot : UUID × Option String} (h : slotOf c call = some slot) :
    ∃ trigger externalEventId payload, trigger ∈ c.triggers ∧ trigger.id = slot.1 ∧
      plannedKey c call.context trigger externalEventId = slot.2 ∧
      ∀ s, respond c call s =
        fireScheduled c call.context trigger externalEventId payload s := by
  have hfound : ∀ {triggerId : UUID} {key : TriggerEntity → Option String},
      (findTrigger c triggerId).toOption.map (fun trigger ↦ (trigger.id, key trigger)) =
        some slot →
      ∃ trigger, findTrigger c triggerId = .ok trigger ∧ trigger.id = slot.1 ∧
        key trigger = slot.2 := by
    intro triggerId key hslot
    obtain ⟨trigger, hfind, rfl⟩ := Option.map_eq_some_iff.mp hslot
    rcases hok : findTrigger c triggerId with _ | found
    · rw [hok] at hfind
      cases hfind
    · rw [hok] at hfind
      obtain rfl := Option.some.inj hfind
      exact ⟨found, rfl, rfl, rfl⟩
  obtain ⟨ctx, operation⟩ := call
  cases operation with
  | fireScheduled triggerId externalEventId payload =>
    obtain ⟨trigger, hok, hid, hkey⟩ := hfound h
    refine ⟨trigger, externalEventId, payload, mem_of_findTrigger hok, hid, hkey, fun s ↦ ?_⟩
    change (findTrigger c triggerId >>= fun trigger ↦ _) = _
    rw [hok, ok_bind]
  | fireScheduledAt triggerId plannedFireTime payload =>
    obtain ⟨trigger, hok, hid, hkey⟩ := hfound h
    refine ⟨trigger, some (dueKey c trigger plannedFireTime), payload, mem_of_findTrigger hok, hid,
      hkey, fun s ↦ ?_⟩
    change (findTrigger c triggerId >>= fun trigger ↦ _) = _
    rw [hok, ok_bind]
    rfl
  | fire triggerId request => cases h
  | ingestWebhook request => cases h
  | master operation => cases h

theorem maxParallelRuns_pos (trigger : TriggerEntity) : 0 < maxParallelRuns trigger := by
  have hpos : ∀ node value, positiveInt node = some value → 0 < value := by
    intro node value h
    cases node with
    | num number =>
      obtain ⟨hboth, hvalue⟩ := Option.ite_none_right_eq_some.mp h
      rw [Bool.and_eq_true, decide_eq_true_iff] at hboth
      rw [← Option.some.inj hvalue]
      exact hboth.2
    | _ => cases h
  have hfield : ∀ field value, (trigger.config.get? field).bind positiveInt = some value →
      0 < value := by
    intro field value h
    obtain ⟨node, -, hnode⟩ := Option.bind_eq_some_iff.mp h
    exact hpos node value hnode
  rw [maxParallelRuns, readPositiveInt]
  rcases hsnake : (trigger.config.get? "max_parallel_runs").bind positiveInt with _ | value
  · rcases hcamel : (trigger.config.get? "maxParallelRuns").bind positiveInt with _ | value
    · exact Int.one_pos
    · exact hfield _ value hcamel
  · exact hfield _ value hsnake

end Keys

/-! ## One call -/

section Calls

variable {c : TriggerCatalog} {ctx : CallContext} {call : TriggerCall} {s s' : TriggerDb}
  {trigger : TriggerEntity}

/-- What a record says of a call that was ignored for lack of capacity. -/
structure IgnoredRecord (e : TriggerEventEntity) : Prop where
  run : e.pipelineRunId = none
  source : e.eventSource = "schedule"
  key : e.externalEventId = e.idempotencyKey

/-- What a call does to the records: nothing, or one record more. -/
def Records (s s' : TriggerDb) : Prop :=
  s'.triggerEvents = s.triggerEvents ∨ ∃ e, s'.triggerEvents = s.triggerEvents ++ [e] ∧
    (e.status = "ignored" → IgnoredRecord e)

theorem startRun_triggerEvents {pipelineId : UUID} {payloadNode : Json} {systemInitiated : Bool}
    {run : PipelineRunEntity}
    (h : startRun c ctx pipelineId payloadNode systemInitiated s = .ok (run, s')) :
    s'.triggerEvents = s.triggerEvents := by
  rw [startRun] at h
  obtain ⟨s₁, hmaster, h⟩ := bind_eq_ok.mp h
  obtain ⟨db, -, rfl⟩ := TriggerDb.master_eq_ok.mp hmaster
  split at h
  · cases h
  · obtain ⟨-, rfl⟩ := Prod.mk.inj (Except.ok.inj h)
    rfl

theorem processEvent_records {ev : IncomingEvent} {run : PipelineRunEntity}
    (hlt : ∀ e ∈ s.triggerEvents, e.id < s.nextEventId)
    (h : ev.process c ctx s = .ok (run, s')) : Records s s' := by
  rw [IncomingEvent.process, processEvent] at h
  dsimp only at h
  split at h
  · split at h
    · cases h
    · obtain ⟨-, rfl⟩ := Prod.mk.inj (Except.ok.inj h)
      exact .inl rfl
  · obtain ⟨s₁, hsave, h⟩ := bind_eq_ok.mp h
    obtain ⟨-, rfl⟩ := TriggerDb.saveTriggerEvent_eq_ok.mp hsave
    obtain ⟨⟨run', s₂⟩, hstart, h⟩ := bind_eq_ok.mp h
    obtain ⟨s₃, hsave', h⟩ := bind_eq_ok.mp h
    obtain ⟨-, rfl⟩ := TriggerDb.saveTriggerEvent_eq_ok.mp hsave'
    obtain ⟨-, rfl⟩ := Prod.mk.inj (Except.ok.inj h)
    have hfresh : ∀ e ∈ s.triggerEvents, e.id ≠ s.nextEventId := fun e he ↦ (hlt e he).ne
    rw [Records]
    dsimp only
    rw [startRun_triggerEvents hstart]
    refine .inr ⟨_, Table.save_save hfresh rfl, fun hstatus ↦ ?_⟩
    dsimp only at hstatus
    exact absurd hstatus (by decide)

theorem recordIgnored_records {key : Option String} {payload : Option Json}
    (hlt : ∀ e ∈ s.triggerEvents, e.id < s.nextEventId)
    (h : recordIgnoredScheduleEvent c ctx trigger key payload s = .ok s') :
    Records s s' ∧ s'.db = s.db ∧ s'.runTriggers = s.runTriggers := by
  rw [recordIgnoredScheduleEvent] at h
  generalize (if shouldUsePayloadHash _ _ = true then buildPayloadHash c.sha256 _ else none) =
    payloadHash at h
  split at h
  · obtain rfl := Except.ok.inj h
    exact ⟨.inl rfl, rfl, rfl⟩
  · obtain ⟨-, rfl⟩ := TriggerDb.saveTriggerEvent_eq_ok.mp h
    have hfresh : ∀ e ∈ s.triggerEvents, e.id ≠ s.nextEventId := fun e he ↦ (hlt e he).ne
    exact ⟨.inr ⟨_, Table.save_fresh hfresh, fun _ ↦ ⟨rfl, rfl, rfl⟩⟩, rfl, rfl⟩

theorem fireScheduled_ignored {externalEventId : Option String} {payload : Option Json}
    (hlt : ∀ e ∈ s.triggerEvents, e.id < s.nextEventId)
    (h : fireScheduled c ctx trigger externalEventId payload s = .ok (none, s')) :
    Records s s' ∧ s'.db = s.db ∧ s'.runTriggers = s.runTriggers := by
  rw [fireScheduled] at h
  split at h
  · obtain ⟨-, rfl⟩ := Prod.mk.inj (Except.ok.inj h)
    exact ⟨.inl rfl, rfl, rfl⟩
  · dsimp only at h
    split at h
    · obtain ⟨s₁, hrecord, h⟩ := bind_eq_ok.mp h
      obtain ⟨-, rfl⟩ := Prod.mk.inj (Except.ok.inj h)
      exact recordIgnored_records hlt hrecord
    · obtain ⟨⟨run, s₁⟩, -, h⟩ := bind_eq_ok.mp h
      cases (Prod.mk.inj (Except.ok.inj h)).1

theorem respond_records {run : Option PipelineRunEntity}
    (hlt : ∀ e ∈ s.triggerEvents, e.id < s.nextEventId)
    (h : respond c call s = .ok (run, s')) : Records s s' := by
  rcases run with _ | run
  · obtain ⟨ctx, operation⟩ := call
    cases operation with
    | fire triggerId request =>
      obtain ⟨⟨run, s₁⟩, -, h⟩ := bind_eq_ok.mp h
      cases (Prod.mk.inj (Except.ok.inj h)).1
    | ingestWebhook request =>
      obtain ⟨⟨run, s₁⟩, -, h⟩ := bind_eq_ok.mp h
      cases (Prod.mk.inj (Except.ok.inj h)).1
    | fireScheduled triggerId externalEventId payload =>
      obtain ⟨trigger, -, h⟩ := bind_eq_ok.mp h
      exact (fireScheduled_ignored hlt h).1
    | fireScheduledAt triggerId plannedFireTime payload =>
      obtain ⟨trigger, -, h⟩ := bind_eq_ok.mp h
      exact (fireScheduled_ignored hlt h).1
    | master operation =>
      obtain ⟨s₁, hmaster, h⟩ := bind_eq_ok.mp h
      obtain ⟨-, rfl⟩ := Prod.mk.inj (Except.ok.inj h)
      obtain ⟨db, -, rfl⟩ := TriggerDb.master_eq_ok.mp hmaster
      exact .inl rfl
  · obtain ⟨ev, -, hprocess⟩ := respond_run.mp h
    exact processEvent_records hlt hprocess

/-! ### Active runs -/

theorem createRunInternal_runs {catalog : Catalog} {now : Instant} {pipelineId : UUID}
    {request : Option PipelineRunService.CreatePipelineRunRequest} {startedBy : Option UUID}
    {db db' : Db} (hs : Sound db)
    (h : PipelineRunService.createRunInternal catalog now pipelineId request startedBy db =
      .ok db') :
    ∃ created, created.id = db.nextId ∧ db'.runs = db.runs ++ [created] := by
  obtain ⟨run, executions, db₁, hid, -, -, -, -, heffect, rfl⟩ := createRunInternal_ok hs h
  have hstart : (started now executions run).id = db.nextId := by
    rw [started, apply_ite PipelineRunEntity.id, ite_self]
    exact hid
  refine ⟨started now executions run, hstart, ?_⟩
  rw [Db.updateRun, Table.update, heffect.runs, Db.addRun, List.map_append, List.map_singleton,
    if_pos rfl]
  refine congrArg (· ++ _) ((List.map_congr_left fun other hother ↦ if_neg ?_).trans
    (List.map_id _))
  rw [hid]
  exact (hs.runs_lt other hother).ne

theorem startRun_runs {pipelineId : UUID} {payloadNode : Json} {systemInitiated : Bool}
    {run : PipelineRunEntity} (hs : Sound s.db)
    (h : startRun c ctx pipelineId payloadNode systemInitiated s = .ok (run, s')) :
    s'.runTriggers = s.runTriggers ∧ run.id = s.db.nextId ∧
      ∃ created, created.id = s.db.nextId ∧ s'.db.runs = s.db.runs ++ [created] := by
  obtain ⟨_, _, -, -, -, hid, -⟩ := startRun_ok hs h
  rw [startRun] at h
  obtain ⟨s₁, hmaster, h⟩ := bind_eq_ok.mp h
  obtain ⟨db, hstep, rfl⟩ := TriggerDb.master_eq_ok.mp hmaster
  have hruns : ∃ created, created.id = s.db.nextId ∧ db.runs = s.db.runs ++ [created] := by
    split at hstep
    · exact createRunInternal_runs hs hstep
    · exact createRunInternal_runs hs hstep
  split at h
  · cases h
  · obtain ⟨rfl, rfl⟩ := Prod.mk.inj (Except.ok.inj h)
    exact ⟨rfl, hid, hruns⟩

theorem process_runs {ev : IncomingEvent} {run : PipelineRunEntity} (hs : Sound s.db)
    (h : ev.process c ctx s = .ok (run, s')) : s' = s ∨
      ∃ created, created.id = s.db.nextId ∧ s'.db.runs = s.db.runs ++ [created] ∧
        s'.runTriggers = s.runTriggers ++ [(s.db.nextId, ev.trigger.id)] := by
  rw [IncomingEvent.process, processEvent] at h
  dsimp only at h
  split at h
  · split at h
    · cases h
    · obtain ⟨-, rfl⟩ := Prod.mk.inj (Except.ok.inj h)
      exact .inl rfl
  · obtain ⟨s₁, hsave, h⟩ := bind_eq_ok.mp h
    obtain ⟨-, rfl⟩ := TriggerDb.saveTriggerEvent_eq_ok.mp hsave
    obtain ⟨⟨run', s₂⟩, hstart, h⟩ := bind_eq_ok.mp h
    obtain ⟨s₃, hsave', h⟩ := bind_eq_ok.mp h
    obtain ⟨-, rfl⟩ := TriggerDb.saveTriggerEvent_eq_ok.mp hsave'
    obtain ⟨-, rfl⟩ := Prod.mk.inj (Except.ok.inj h)
    obtain ⟨htriggers, hid, created, hcreated, hruns⟩ := startRun_runs (by exact hs) hstart
    refine .inr ⟨created, hcreated, hruns, ?_⟩
    dsimp only
    rw [htriggers, hid]

theorem activeRuns_congr (hruns : s'.db.runs = s.db.runs)
    (htriggers : s'.runTriggers = s.runTriggers) :
    activeRuns trigger s' = activeRuns trigger s := by
  rw [activeRuns, activeRuns, hruns, htriggers]

theorem activeRuns_started {created : PipelineRunEntity} {owner : UUID} (hs : Sound s.db)
    (hruns : s'.db.runs = s.db.runs ++ [created])
    (htriggers : s'.runTriggers = s.runTriggers ++ [(s.db.nextId, owner)]) :
    activeRuns trigger s' ≤ activeRuns trigger s + 1 := by
  have hold : ∀ run ∈ s.db.runs, s'.runTriggers.contains (run.id, trigger.id) =
      s.runTriggers.contains (run.id, trigger.id) := by
    intro run hrun
    have hne : run.id ≠ s.db.nextId := (hs.runs_lt run hrun).ne
    rw [htriggers, Bool.eq_iff_iff, List.contains_iff_mem, List.contains_iff_mem,
      List.mem_append, List.mem_singleton, Prod.mk.injEq]
    simp [hne]
  rw [activeRuns, activeRuns, hruns, List.filter_append, List.length_append]
  refine Nat.add_le_add (Nat.le_of_eq (congrArg List.length ?_)) (List.length_filter_le _ _)
  exact List.filter_congr fun run hrun ↦ by rw [hold run hrun]

/-- **The cap.** A scheduled call does not raise the number of active runs above it. -/
theorem activeRuns_fireScheduled {run : Option PipelineRunEntity} {externalEventId : Option String}
    {payload : Option Json} (h : Traced c s)
    (hcall : fireScheduled c ctx trigger externalEventId payload s = .ok (run, s')) :
    (activeRuns trigger s' : ℤ) ≤ max (activeRuns trigger s : ℤ) (maxParallelRuns trigger) := by
  rcases run with _ | run
  · obtain ⟨-, hdb, htriggers⟩ := fireScheduled_ignored h.ids_lt hcall
    rw [activeRuns_congr (congrArg Db.runs hdb) htriggers]
    exact le_max_left _ _
  obtain ⟨-, ev, hev, hprocess⟩ := fireScheduled_run.mp hcall
  rcases process_runs h.reachable.sound hprocess with rfl | ⟨created, -, hruns, htriggers⟩
  · exact le_max_left _ _
  · -- it had capacity for one more
    rw [scheduled] at hev
    split at hev
    · rename_i hcapacity
      rw [hasScheduleCapacity] at hcapacity
      have hpos := maxParallelRuns_pos trigger
      rw [maxParallelRuns] at hpos ⊢
      rw [if_neg (not_le.mpr hpos), decide_eq_true_iff] at hcapacity
      have hstep := @activeRuns_started _ s' trigger _ _ h.reachable.sound hruns htriggers
      omega
    · cases hev

/-! ### Slots that are taken -/

/-- A record of the slot, under the key that the next call of the slot looks for first. -/
def Taken (s : TriggerDb) (key : Option String) : Prop :=
  ∃ e ∈ s.triggerEvents, e.eventSource = "schedule" ∧ e.externalEventId = key

/-- **A slot that starts a run** was not taken and is taken then. -/
theorem Starts.taken {slot : UUID × Option String} (h : Traced c s)
    (hslot : slotOf c call = some slot) (hstarts : Starts c s call) :
    ¬Taken s slot.2 ∧ Taken (apply (triggerStep c) s call) slot.2 := by
  have hmissing := missing_of_slotOf hslot
  obtain ⟨run, s', hrespond, hnone⟩ := hstarts
  obtain ⟨trigger, externalEventId, payload, -, -, hkey, hfire⟩ := exists_fireScheduled hslot
  have happly : apply (triggerStep c) s call = s' := by
    refine apply_of_ok ?_
    rw [triggerStep, hrespond]
    rfl
  rw [hfire] at hrespond
  obtain ⟨-, ev, hev, hprocess⟩ := fireScheduled_run.mp hrespond
  rw [scheduled] at hev
  split at hev
  · obtain rfl := Option.some.inj hev
    cases h.process hprocess with
    | repeated e hrepeats hrun hmem hs' =>
      rw [h.reachable.sound.findRun.mpr ⟨hmem, rfl⟩] at hnone
      cases hnone
    | started e hnew hchanges hmem hid hpipeline heid hrecorded hschema hevents hnext hruns =>
      constructor
      · rintro ⟨x, hx, hsource, hexternal⟩
        refine hnew x ⟨hx, .inl ⟨?_, hsource, hexternal.trans hkey.symm⟩⟩
        dsimp only
        rw [hkey, hmissing]
      · rw [happly]
        refine ⟨e, ?_, hrecorded.eventSource, hrecorded.externalEventId.trans hkey⟩
        rw [hevents]
        exact List.mem_append_right _ List.mem_cons_self
  · cases hev

end Calls

/-! ## Histories

The events that a history has recorded are never changed or removed, so a key that is taken once
stays taken, and what was recorded as ignored stays without a run. That a slot starts one run,
and that the cap holds when it starts, are then statements about one call after some others. -/

section Histories

variable {c : TriggerCatalog} {past : List TriggerCall} {e : TriggerEventEntity}

theorem triggerStep_records {call : TriggerCall} {s s' : TriggerDb} (h : Traced c s)
    (hstep : triggerStep c call s = .ok s') : Records s s' := by
  obtain ⟨⟨run, s₁⟩, hrespond, hs'⟩ := bind_eq_ok.mp hstep
  obtain rfl := Except.ok.inj hs'
  exact respond_records h.ids_lt hrespond

/-- **Records are never changed.** -/
theorem mem_triggerHistory (h : e ∈ (triggerHistory c past).triggerEvents)
    (later : List TriggerCall) : e ∈ (triggerHistory c (past ++ later)).triggerEvents := by
  rw [triggerHistory, replay_append]
  refine (replay_invariant' (I := fun s ↦ Traced c s ∧ e ∈ s.triggerEvents)
    (fun s call s' hs hstep ↦ ⟨hs.1.step hstep, ?_⟩) later ⟨traced_history c past, h⟩).2
  rcases triggerStep_records hs.1 hstep with hsame | ⟨x, hmore, -⟩
  · rw [hsame]
    exact hs.2
  · rw [hmore]
    exact List.mem_append_left _ hs.2

/-- What is recorded as ignored has no run. -/
theorem ignoredRecord_of_mem (h : e ∈ (triggerHistory c past).triggerEvents)
    (hstatus : e.status = "ignored") : IgnoredRecord e := by
  refine (replay_invariant' (I := fun s ↦ Traced c s ∧
      ∀ e ∈ s.triggerEvents, e.status = "ignored" → IgnoredRecord e)
    (fun s call s' hs hstep ↦ ⟨hs.1.step hstep, ?_⟩) past
    ⟨traced_empty c, by simp [TriggerDb.empty]⟩).2 e h hstatus
  rcases triggerStep_records hs.1 hstep with hsame | ⟨x, hmore, hx⟩
  · rw [hsame]
    exact hs.2
  · rw [hmore]
    exact List.forall_mem_append.mpr ⟨hs.2, List.forall_mem_singleton.mpr hx⟩

theorem Taken.later {key : Option String} (h : Taken (triggerHistory c past) key)
    (later : List TriggerCall) : Taken (triggerHistory c (past ++ later)) key := by
  obtain ⟨e, he, hsource, hkey⟩ := h
  exact ⟨e, mem_triggerHistory he later, hsource, hkey⟩

/-- A slot that has started a run starts no other one later. -/
theorem not_starts_later {later : List TriggerCall} {call call' : TriggerCall}
    {slot : UUID × Option String}
    (hslot : slotOf c call = some slot) (hslot' : slotOf c call' = some slot)
    (hstarts : Starts c (triggerHistory c past) call) :
    ¬Starts c (triggerHistory c (past ++ call :: later)) call' := by
  intro hstarts'
  have htaken := (hstarts.taken (traced_history c past) hslot).2
  rw [← replay_concat] at htaken
  refine (hstarts'.taken (traced_history c _) hslot').1 ?_
  have hmore := @Taken.later c (past ++ [call]) _ htaken later
  rwa [List.append_assoc] at hmore

/-- A scheduled call does not raise the number of active runs of its trigger above the cap. -/
theorem activeRuns_concat {call : TriggerCall} {slot : UUID × Option String}
    {trigger : TriggerEntity} (hslot : slotOf c call = some slot) (hmem : trigger ∈ c.triggers)
    (hid : trigger.id = slot.1) :
    (activeRuns trigger (triggerHistory c (past ++ [call])) : ℤ) ≤
      max (activeRuns trigger (triggerHistory c past) : ℤ) (maxParallelRuns trigger) := by
  obtain ⟨owner, externalEventId, payload, hown, hownid, -, hfire⟩ := exists_fireScheduled hslot
  obtain rfl := c.triggers_keyed.eq hmem hown (hid.trans hownid.symm)
  rw [triggerHistory, replay_concat]
  rcases apply_cases (triggerStep c) (triggerHistory c past) call with ⟨s', hstep, happly⟩ | hsame
  · obtain ⟨⟨run, s₁⟩, hrespond, hs'⟩ := bind_eq_ok.mp hstep
    obtain rfl := Except.ok.inj hs'
    rw [happly]
    rw [hfire] at hrespond
    exact activeRuns_fireScheduled (traced_history c past) hrespond
  · rw [hsame]
    exact le_max_left _ _

/-- A slot that was recorded as ignored is taken, by a record without a run. -/
theorem not_starts_ignored {later : List TriggerCall} {call : TriggerCall}
    {slot : UUID × Option String} (hslot : slotOf c call = some slot)
    (hmem : e ∈ (triggerHistory c past).triggerEvents) (hstatus : e.status = "ignored")
    (hkey : e.idempotencyKey = slot.2) :
    ¬Starts c (triggerHistory c (past ++ later)) call ∧
      ∀ x ∈ (triggerHistory c (past ++ later)).triggerEvents, x.eventSource = "schedule" →
        x.idempotencyKey = slot.2 → x.pipelineRunId = none := by
  have hrecord := ignoredRecord_of_mem hmem hstatus
  have hlater := mem_triggerHistory hmem later
  have htraced := traced_history c (past ++ later)
  refine ⟨fun hstarts ↦ (hstarts.taken htraced hslot).1
    ⟨e, hlater, hrecord.source, hrecord.key.trans hkey⟩, fun x hx hsource hxkey ↦ ?_⟩
  rcases hsome : slot.2 with _ | key
  · have hmissing := missing_of_slotOf hslot
    rw [hsome] at hmissing
    cases hmissing
  · rw [hsome] at hkey hxkey
    have hsame : x = e := @TriggerEventSchema.eq_of_hasKey _ htraced.schema _ _ hx hlater
      (.idempotency "schedule" key) ⟨hsource, hxkey⟩ ⟨hrecord.source, hkey⟩
    rw [hsame]
    exact hrecord.run

end Histories

/-- **Scheduled runs.** Over every history of polls, scheduled calls and other calls, a slot starts
at most one run; a scheduled call does not raise the number of active runs of its trigger above its
cap; and a slot that was recorded as ignored is never started. -/
theorem scheduled_runs (library : SchedulerLibrary) (properties : TriggerProperties)
    (c : TriggerCatalog) (calls : List SchedulerCall) :
    (∀ past call later call' slot,
      past ++ call :: later ++ [call'] <+: serviceCalls library properties c calls →
      slotOf c call = some slot → slotOf c call' = some slot →
      Starts c (triggerHistory c past) call →
        ¬Starts c (triggerHistory c (past ++ call :: later)) call') ∧
    (∀ past call slot trigger, past ++ [call] <+: serviceCalls library properties c calls →
      slotOf c call = some slot → trigger ∈ c.triggers → trigger.id = slot.1 →
        (activeRuns trigger (triggerHistory c (past ++ [call])) : ℤ) ≤
          max (activeRuns trigger (triggerHistory c past) : ℤ) (maxParallelRuns trigger)) ∧
    ∀ past later call slot e,
      past ++ later ++ [call] <+: serviceCalls library properties c calls →
      slotOf c call = some slot → e ∈ (triggerHistory c past).triggerEvents →
      e.status = "ignored" → e.triggerId = slot.1 → e.idempotencyKey = slot.2 →
        ¬Starts c (triggerHistory c (past ++ later)) call ∧
        ∀ x ∈ (triggerHistory c (past ++ later)).triggerEvents, x.eventSource = "schedule" →
          x.idempotencyKey = slot.2 → x.pipelineRunId = none :=
  ⟨fun _ _ _ _ _ _ hslot hslot' hstarts ↦ not_starts_later hslot hslot' hstarts,
    fun _ _ _ _ _ hslot hmem hid ↦ activeRuns_concat hslot hmem hid,
    fun _ _ _ _ _ _ hslot hmem hstatus _ hkey ↦ not_starts_ignored hslot hmem hstatus hkey⟩

namespace Small

/-- A library without cron expressions and durations. -/
def plainLibrary : SchedulerLibrary where
  Zone := Unit
  UTC := ()
  zoneOf _ := none
  parseCron _ := none
  parseCron_whole _ _ _ _ h := by cases h
  durationSeconds _ := none
  offsetDateTimeText _ := ""

/-- A pipeline with a schedule trigger, of the default cap. -/
def timetable : TriggerCatalog :=
  { neighbours with
    triggers := [⟨20, 0, "schedule", .obj [], true⟩]
    triggers_keyed := by decide }

def due (plannedFireTime : Instant) : TriggerCall :=
  ⟨⟨0, none⟩, .fireScheduledAt 20 plannedFireTime none⟩

/-- The second slot is ignored while the run of the first one is active. -/
def dueTwice : List SchedulerCall :=
  [.call (due 0), .call (due 1), .call (due 0), .call (due 1)]

end Small

theorem scheduled_runs_small :
    ¬Starts Small.timetable (triggerHistory Small.timetable [Small.due 0, Small.due 1])
        (Small.due 0) ∧
      (activeRuns ⟨20, 0, "schedule", .obj [], true⟩
        (triggerHistory Small.timetable [Small.due 0]) : ℤ) ≤ 1 ∧
      ¬Starts Small.timetable
        (triggerHistory Small.timetable [Small.due 0, Small.due 1, Small.due 0]) (Small.due 1) := by
  obtain ⟨hslots, hcap, hignored⟩ :=
    scheduled_runs Small.plainLibrary ⟨none⟩ Small.timetable Small.dueTwice
  obtain ⟨slot, hslot⟩ : ∃ slot, slotOf Small.timetable (Small.due 0) = some slot :=
    Option.isSome_iff_exists.mp (by decide)
  refine ⟨?_, ?_, ?_⟩
  · refine hslots [] (Small.due 0) [Small.due 1] (Small.due 0) slot (by decide) hslot hslot ?_
    have hanswer : ((respond Small.timetable (Small.due 0) .empty).toOption.bind Prod.fst).isSome =
      true := by decide +kernel
    obtain ⟨run, hrun⟩ := Option.isSome_iff_exists.mp hanswer
    obtain ⟨⟨answer, s'⟩, hok, rfl⟩ := Option.bind_eq_some_iff.mp hrun
    rcases hrespond : respond Small.timetable (Small.due 0) .empty with _ | found
    · rw [hrespond] at hok
      cases hok
    · rw [hrespond] at hok
      obtain rfl := Option.some.inj hok
      exact ⟨run, s', hrespond, rfl⟩
  · have hid : (20 : UUID) = slot.1 := by
      have hfirst : (slotOf Small.timetable (Small.due 0)).map Prod.fst = some 20 := by decide
      rw [hslot] at hfirst
      exact (Option.some.inj hfirst).symm
    exact hcap [] (Small.due 0) slot _ (by decide) hslot List.mem_cons_self hid
  · obtain ⟨slot', hslot'⟩ : ∃ slot, slotOf Small.timetable (Small.due 1) = some slot :=
      Option.isSome_iff_exists.mp (by decide)
    have hrecorded : ((triggerHistory Small.timetable
        [Small.due 0, Small.due 1]).triggerEvents.find? (·.status = "ignored")).map
          (fun e ↦ (e.triggerId, e.idempotencyKey)) =
        slotOf Small.timetable (Small.due 1) := by decide +kernel
    rw [hslot'] at hrecorded
    obtain ⟨e, hfound, hkey⟩ := Option.map_eq_some_iff.mp hrecorded
    have hstatus := List.find?_some hfound
    exact (hignored [Small.due 0, Small.due 1] [Small.due 0] (Small.due 1) slot' e (by decide)
      hslot' (List.mem_of_find?_eq_some hfound) (of_decide_eq_true hstatus)
      (congrArg Prod.fst hkey) (congrArg Prod.snd hkey)).1

end FuzzingCiCd.Master
