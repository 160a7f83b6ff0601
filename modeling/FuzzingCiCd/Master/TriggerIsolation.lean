import FuzzingCiCd.Master.TriggerRecords

/-!
# Triggers and each other's events

A call to a trigger should be answered with a run of the trigger's own pipeline, from an event of
the trigger. The keys that duplicates are looked up by do not contain the trigger, so an event of
another trigger answers it as well. `isolated_throughout_iff` says that this is the only way: the
property holds throughout a history exactly when no call presents a key that an event of another
trigger has been answered under.

That a key of a trigger produces at most one run holds in every history.

## Main results

* `Traced.isolated_iff`: when one call is isolated.
* `isolated_throughout_iff`: when all calls of a history are.
-/

namespace FuzzingCiCd.Master

open Transition TriggerService

/-! ## The properties -/

/-- The run that a call returns belongs to the pipeline of its trigger, and to an event of the
trigger that the call has recorded or that was recorded before. -/
def Isolated (c : TriggerCatalog) (s : TriggerDb) (call : TriggerCall) : Prop :=
  ∀ run s', respond c call s = .ok (some run, s') → ∀ trigger ∈ triggerOf c call,
    run.pipelineId = trigger.pipelineId ∧
      ((∃ e ∈ s'.triggerEvents, (∀ x ∈ s.triggerEvents, x.id ≠ e.id) ∧
          e.triggerId = trigger.id ∧ e.pipelineRunId = some run.id) ∨
        ∃ e ∈ s.triggerEvents, e.triggerId = trigger.id ∧ e.pipelineRunId = some run.id)

/-- A key that events are deduplicated by. -/
inductive TriggerKey where
  | external (eventSource externalEventId : String)
  | idempotency (eventSource idempotencyKey : String)
  | payload (eventSource payloadHash : String)

/-- The event has the key. -/
def HasKey (e : TriggerEventEntity) : TriggerKey → Prop
  | .external eventSource id => e.eventSource = eventSource ∧ e.externalEventId = some id
  | .idempotency eventSource key => e.eventSource = eventSource ∧ e.idempotencyKey = some key
  | .payload eventSource hash => e.eventSource = eventSource ∧ e.payloadHash = some hash

/-- An event of the trigger with the key has started the run. -/
def Produces (s : TriggerDb) (triggerId : UUID) (key : TriggerKey) (runId : UUID) : Prop :=
  ∃ e ∈ s.triggerEvents, e.triggerId = triggerId ∧ HasKey e key ∧ e.pipelineRunId = some runId

/-- Every key of a trigger produces at most one run. -/
def AtMostOnce (s : TriggerDb) : Prop :=
  ∀ triggerId key r r', Produces s triggerId key r → Produces s triggerId key r' → r = r'

/-- The call presents an event that is taken to repeat an event of another trigger, which has a
run. -/
def TakenByOther (c : TriggerCatalog) (s : TriggerDb) (call : TriggerCall) : Prop :=
  ∃ ev ∈ presented c call s, ∃ e, ev.Repeats c s e ∧ e.pipelineRunId ≠ none ∧
    e.triggerId ≠ ev.trigger.id

/-! ## Every call -/

section Calls

variable {c : TriggerCatalog} {s : TriggerDb} {call : TriggerCall}

theorem TriggerEventSchema.eq_of_hasKey {events : List TriggerEventEntity}
    (h : TriggerEventSchema events) {e e' : TriggerEventEntity} (he : e ∈ events)
    (he' : e' ∈ events) {key : TriggerKey} (hkey : HasKey e key) (hkey' : HasKey e' key) :
    e = e' := by
  cases key with
  | external source id =>
    refine h.trigger_event_external_uq.eq he he' (v := (source, id)) ?_ ?_
    · rw [hkey.2, hkey.1, Option.map_some]
    · rw [hkey'.2, hkey'.1, Option.map_some]
  | idempotency source id =>
    refine h.trigger_event_idempotency_uq.eq he he' (v := (source, id)) ?_ ?_
    · rw [hkey.2, hkey.1, Option.map_some]
    · rw [hkey'.2, hkey'.1, Option.map_some]
  | payload source hash =>
    refine h.trigger_event_payload_hash_uq.eq he he' (v := (source, hash)) ?_ ?_
    · rw [hkey.2, hkey.1, Option.map_some]
    · rw [hkey'.2, hkey'.1, Option.map_some]

theorem Traced.atMostOnce (h : Traced c s) : AtMostOnce s := by
  rintro triggerId key r r' ⟨e, he, -, hkey, hr⟩ ⟨e', he', -, hkey', hr'⟩
  obtain rfl := h.schema.eq_of_hasKey he he' hkey hkey'
  exact Option.some.inj (hr.symm.trans hr')

theorem Traced.process_of_repeats (h : Traced c s) {ctx : CallContext} {ev : IncomingEvent}
    {e : TriggerEventEntity} (hrepeats : ev.Repeats c s e) {r : UUID}
    (hr : e.pipelineRunId = some r) :
    ∃ run, run.id = r ∧ ev.process c ctx s = .ok (run, s) := by
  obtain ⟨run, hrun, hid, -⟩ := h.runs e hrepeats.1 r hr
  have hfind := (findDuplicate_eq_some h.schema).mpr hrepeats
  have hfound : s.db.findRun r = some run := h.reachable.sound.findRun.mpr ⟨hrun, hid⟩
  refine ⟨run, hid, ?_⟩
  rw [IncomingEvent.payloadHash] at hfind
  rw [IncomingEvent.process, processEvent]
  dsimp only
  rw [hfind]
  dsimp only
  rw [hr, Option.bind_some, hfound]

/-- **One call.** It is isolated exactly when its keys are not taken by another trigger. -/
theorem Traced.isolated_iff (h : Traced c s) : Isolated c s call ↔ ¬ TakenByOther c s call := by
  constructor
  · rintro hisolated ⟨ev, hev, e, hrepeats, hrun, hother⟩
    obtain ⟨r, hr⟩ := Option.ne_none_iff_exists'.mp hrun
    obtain ⟨run, rfl, hprocess⟩ := @Traced.process_of_repeats _ _ h call.context _ _ hrepeats _ hr
    obtain ⟨-, hevent⟩ := hisolated run s (respond_run.mpr ⟨ev, hev, hprocess⟩) ev.trigger
      (triggerOf_of_presented hev)
    rcases hevent with ⟨x, hx, hnew, -⟩ | ⟨x, hx, htrigger, hxrun⟩
    · exact hnew x hx rfl
    · -- the run belongs to one event, which is of the other trigger
      rw [h.distinct x hx e hrepeats.1 run.id hxrun hr] at htrigger
      exact hother htrigger
  · rintro htaken run s' hrespond trigger htrigger
    obtain ⟨ev, hev, hprocess⟩ := respond_run.mp hrespond
    obtain rfl := Option.some.inj ((triggerOf_of_presented hev).symm.trans htrigger)
    cases h.process hprocess with
    | repeated e hrepeats hrun hmem hs' =>
      have hown : e.triggerId = ev.trigger.id := by
        by_contra hother
        exact htaken ⟨ev, hev, e, hrepeats, by rw [hrun]; exact Option.some_ne_none _, hother⟩
      obtain ⟨run', hrun', hid, hpipeline⟩ := h.runs e hrepeats.1 run.id hrun
      obtain rfl := h.reachable.sound.runs_keyed.eq hrun' hmem hid
      exact ⟨hpipeline ev.trigger (mem_of_triggerOf htrigger) hown.symm,
        Or.inr ⟨e, hrepeats.1, hown, hrun⟩⟩
    | started e hnew hchanges hmem hid hpipeline heid hrecorded hschema hevents hnext hruns =>
      refine ⟨hpipeline, Or.inl ⟨e, ?_, fun x hx ↦ ?_, hrecorded.triggerId,
        hrecorded.pipelineRunId⟩⟩
      · rw [hevents]
        exact List.mem_append_right _ (List.mem_singleton.mpr rfl)
      · rw [heid]
        exact (h.ids_lt x hx).ne

end Calls

/-! ## Histories -/

/-- **Isolation of triggers.** Every call of a history is isolated and every key produces at most
one run exactly when no call presents what an event of another trigger was answered under. -/
theorem isolated_throughout_iff (c : TriggerCatalog) (calls : List TriggerCall) :
    ((∀ past call, past ++ [call] <+: calls → Isolated c (triggerHistory c past) call) ∧
      ∀ past, past <+: calls → AtMostOnce (triggerHistory c past)) ↔
    Along (triggerStep c) (fun s call ↦ ¬ TakenByOther c s call) .empty calls := by
  rw [along_iff, and_iff_left fun past _ ↦ (traced_history c past).atMostOnce]
  refine forall_congr' fun past ↦ forall_congr' fun call ↦ ?_
  rw [(traced_history c past).isolated_iff]

/-! ## Two pipelines -/

namespace Small

/-- Two pipelines of one job, with a trigger each. -/
def neighbours : TriggerCatalog where
  pipelines := [⟨0, true⟩, ⟨10, true⟩]
  stages := [⟨1, 0, 0, .parallel⟩, ⟨11, 10, 0, .parallel⟩]
  jobs := [job 2 0, { job 12 0 with stageId := 11 }]
  dependencies := []
  templates := []
  environments := []
  jobTopics := [("build", "jobs.build")]
  cancelTopic := "jobs.cancel"
  jobs_keyed := by decide
  stages_keyed := by decide
  maxAttempts_pos := by decide
  triggers := [⟨20, 0, "vcs_push", .obj [], true⟩, ⟨21, 10, "vcs_push", .obj [], true⟩]
  uuid := .strokes id some fun _ ↦ rfl
  offsetDateTime := .intStrokes
  sha256 _ := "00"
  triggers_keyed := by decide

/-- A push of the repository to a trigger. -/
def push (triggerId : UUID) : TriggerCall :=
  ⟨⟨0, none⟩, .ingestWebhook
    ⟨some triggerId, none, none, some "push-1", none, none, none, none⟩⟩

end Small

/-- The push to the trigger of the second pipeline is answered with the run of the first one. -/
theorem not_isolated : ¬ Isolated Small.neighbours
    (triggerHistory Small.neighbours [Small.push 20]) (Small.push 21) := by
  intro h
  have hanswer : (respond Small.neighbours (Small.push 21)
        (triggerHistory Small.neighbours [Small.push 20])).toOption.bind
      (fun answer ↦ answer.1.map PipelineRunEntity.pipelineId) = some 0 := by decide +kernel
  obtain ⟨⟨run, s'⟩, hrespond, hrun⟩ := Option.bind_eq_some_iff.mp hanswer
  obtain ⟨run, rfl, hpipeline⟩ := Option.map_eq_some_iff.mp hrun
  cases hok : respond Small.neighbours (Small.push 21)
      (triggerHistory Small.neighbours [Small.push 20]) with
  | error e =>
    rw [hok] at hrespond
    cases hrespond
  | ok answer =>
    rw [hok] at hrespond
    obtain rfl := Option.some.inj hrespond
    obtain ⟨hsame, -⟩ := h run s' hok ⟨21, 10, "vcs_push", .obj [], true⟩ rfl
    rw [hpipeline] at hsame
    exact absurd hsame (by decide)

end FuzzingCiCd.Master
