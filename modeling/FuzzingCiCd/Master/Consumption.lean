import FuzzingCiCd.Master.Transactions

/-!
# Consuming executor events

Which executor events the master consumes: the transaction commits, the inbox knows the event, and
a second delivery changes nothing. An event that is not consumed leaves the database as it was, so
it fails again with every delivery.

`Acceptable` says what the constraints of the schema ask of an event, and what the dispatch asks
that it triggers. Most of it is in the event alone; the rest are references to rows that have to be
there.

## Main results

* `transaction_isOk_iff`: when the transaction of an event commits.
* `consumed_iff`: in a reachable database with constraints, an event is consumed exactly when it is
  registered already or acceptable.
-/

namespace FuzzingCiCd.Master

open Transition PipelineRunService

/-! ## Acceptable events

A duplicate commits without doing anything. An event of an unknown type writes its row of the
inbox only. Any other has to find its execution and its run, to satisfy the constraints of the
rows that it writes (`Writable`), and, if it ends the execution, to leave a run that can go on.
The three cases are put together in `consumed_iff`. -/

/-- The jobs that are ready once the event has ended its execution can be dispatched. -/
def Continues (c : Catalog) (db : Db) (message : ExecutorEventMessage) : Prop :=
  ∀ e ∈ db.executions, message.jobExecutionId = some e.id →
    ExecutorEventService.endsExecution message e = true →
    ∀ run ∈ db.runs, run.id = e.pipelineRunId →
    ∀ t ∈ ExecutorEventService.mapStatus message.status,
      lands c run.pipelineId (db.findByPipelineRunId run.id) e.id t = true

/-- What the schema, and the dispatch that follows, ask of an event. An event of a known type has
to name an execution; of an event without one, only the row of the inbox is written. -/
structure Acceptable (c : Catalog) (db : Db) (delivery : ExecutorEventService.Delivery)
    (message : ExecutorEventMessage) : Prop where
  registrable : Registrable db.executions delivery message
  applicable : (ExecutorEventType.fromValue message.eventType).isSome = true →
    message.jobExecutionId ≠ none ∧ Writable db delivery message ∧ Continues c db message

/-- The inbox has a row for the event. -/
def Registered (delivery : ExecutorEventService.Delivery) (message : ExecutorEventMessage)
    (db : Db) : Prop :=
  ∃ event ∈ db.inbox, event.consumerName = delivery.consumerName ∧
    (message.messageId ≠ none ∧ event.messageId = message.messageId ∨
      delivery.sourceDocumentId ≠ none ∧ event.eventSource = delivery.eventSource ∧
        event.sourceDocumentId = delivery.sourceDocumentId)

/-- The transaction commits, the event is registered, and redelivering it is a no-op. -/
def Consumed (c : Catalog) (now : Instant) (delivery : ExecutorEventService.Delivery)
    (message : ExecutorEventMessage) (db : Db) : Prop :=
  ∃ db', ExecutorEventService.transaction c now delivery message db = .ok db' ∧
    Registered delivery message db' ∧
    ∀ later, ExecutorEventService.transaction c later delivery message db' = .ok db'

section Consuming

variable {c : Catalog} {now : Instant} {delivery : ExecutorEventService.Delivery}
  {message : ExecutorEventMessage} {db db' : Db}

theorem isDuplicate_iff : InboxDeduplicationService.isDuplicate delivery.consumerName
    delivery.eventSource delivery.sourceDocumentId message.messageId db = true ↔
      Registered delivery message db := by
  rw [← Bool.not_eq_false, isDuplicate_eq_false, Registered]
  constructor
  · intro h
    by_contra hnone
    push Not at hnone
    refine h ⟨fun id hid event hevent hmessage hconsumer ↦ ?_,
      fun document hdocument event hevent hsame hsource hconsumer ↦ ?_⟩
    · exact (hnone event hevent hconsumer).1 (by simp [Option.mem_def.mp hid])
        (hmessage.trans hid.symm)
    · exact (hnone event hevent hconsumer).2 (by simp [Option.mem_def.mp hdocument]) hsource
        (hsame.trans hdocument.symm)
  · rintro ⟨event, hevent, hconsumer, ⟨hsome, hmessage⟩ | ⟨hsome, hsource, hdocument⟩⟩ ⟨hno, hno'⟩
    · obtain ⟨id, hid⟩ := Option.ne_none_iff_exists'.mp hsome
      exact hno id hid event hevent (hmessage.trans hid) hconsumer
    · obtain ⟨document, hid⟩ := Option.ne_none_iff_exists'.mp hsome
      exact hno' document hid event hevent (hdocument.trans hid) hsource hconsumer

theorem transaction_of_registered (h : Registered delivery message db) :
    ExecutorEventService.transaction c now delivery message db = .ok db :=
  if_pos (isDuplicate_iff.mpr h)

/-- After an event that ends its execution the run is continued when the event allows it. -/
theorem continueRun_of_store_iff (hdb : Reachable c db) (now : Instant)
    (delivery : ExecutorEventService.Delivery) {e : JobExecutionEntity}
    (he : e ∈ db.executions) (hid : message.jobExecutionId = some e.id)
    (hends : ExecutorEventService.endsExecution message e = true) :
    (∃ db', ExecutorEventService.continueRun c now e.pipelineRunId
      (ExecutorEventService.store now delivery message e db) = .ok db') ↔
      Continues c db message := by
  have hs := hdb.sound
  have hstore := ExecutorEventService.store_effect now delivery message hs he
  obtain ⟨run, hrun, hrunid⟩ := hs.run_of_execution e he
  obtain ⟨v, hv, hvrun⟩ := Db.view_of_findRun (hs.findRun.mpr ⟨hrun, hrunid⟩)
  have hvalid := (attempted_view hdb _ v hv).valid
  rw [hvrun] at hvalid
  rw [ExecutorEventService.endsExecution, Bool.and_eq_true] at hends
  obtain ⟨hchange, hfinal⟩ := hends
  obtain ⟨t, htarget⟩ : ∃ t, ExecutorEventService.mapStatus message.status = some t := by
    cases htarget : ExecutorEventService.mapStatus message.status with
    | none => simp [htarget] at hfinal
    | some t => exact ⟨t, rfl⟩
  have hset : SetsStatus db.executions (ExecutorEventService.applyTo now message e) e.id t := by
    rw [htarget] at hchange
    exact ExecutorEventService.setsStatus_applyTo htarget hchange _
  rw [← hrunid, continueRun_isOk now hstore.sound (hstore.runs ▸ hrun) hvalid,
    ready_iff_lands hstore.keeps (by rw [hstore.executions, List.append_nil]) hset]
  constructor
  · intro hlands x hx hxid _ run' hrun' hrunid' t' ht'
    obtain rfl := hs.executions_keyed.eq he hx (Option.some.inj (hid.symm.trans hxid))
    obtain rfl := hs.runs_keyed.eq hrun hrun' (hrunid.trans hrunid'.symm)
    obtain rfl := Option.some.inj (htarget.symm.trans ht')
    exact hlands
  · intro hcontinues
    refine hcontinues e he hid ?_ run hrun hrunid t htarget
    rw [ExecutorEventService.endsExecution, Bool.and_eq_true]
    exact ⟨hchange, hfinal⟩

theorem transaction_isOk_of_unknown (h : Schema c db) (hfresh : InboxFresh db)
    (hnew : InboxDeduplicationService.isDuplicate delivery.consumerName delivery.eventSource
      delivery.sourceDocumentId message.messageId db = false)
    (htype : ExecutorEventType.fromValue message.eventType = none) :
    (∃ db', ExecutorEventService.transaction c now delivery message db = .ok db') ↔
      Registrable db.executions delivery message := by
  rw [ExecutorEventService.transaction_of_register hnew htype,
    ← schema_registerProcessed_iff h now hfresh hnew]
  simp only [statement_eq_ok]
  exact ⟨fun ⟨_, hschema, heq⟩ ↦ heq ▸ hschema, fun hschema ↦ ⟨_, hschema, rfl⟩⟩

/-- The handler succeeds when the run of the execution can be continued. -/
theorem handle_isOk_iff (hdb : Reachable c db) {e : JobExecutionEntity} (he : e ∈ db.executions)
    (hid : message.jobExecutionId = some e.id) (hnew : Consumes db delivery message) :
    (∃ db', ExecutorEventService.handle c now delivery message db = .ok db') ↔
      Continues c db message := by
  rw [ExecutorEventService.handle_of_consumes c now hdb.sound he hid hnew]
  by_cases hends : ExecutorEventService.endsExecution message e = true
  · rw [if_pos hends]
    exact continueRun_of_store_iff hdb now delivery he hid hends
  · rw [if_neg hends]
    refine iff_of_true ⟨_, rfl⟩ fun x hx hxid hxends ↦ ?_
    obtain rfl := hdb.sound.executions_keyed.eq he hx (Option.some.inj (hid.symm.trans hxid))
    exact absurd hxends hends

/-- **The transaction.** An event that finds its execution commits when it is writable and the run
can be continued. -/
theorem transaction_isOk_iff (hdb : Reachable c db) (h : Schema c db) (hfresh : InboxFresh db)
    {e : JobExecutionEntity} (he : e ∈ db.executions) (hid : message.jobExecutionId = some e.id)
    (hnew : Consumes db delivery message) :
    (∃ db', ExecutorEventService.transaction c now delivery message db = .ok db') ↔
      Writable db delivery message ∧ Continues c db message := by
  rw [← @handle_isOk_iff _ now _ _ _ hdb _ he hid hnew, ← exists_and_left]
  exact exists_congr fun db' ↦
    ExecutorEventService.transaction_eq_ok_iff h hdb.sound hfresh he hid hnew

/-- **Consumption.** In every reachable database that meets its constraints, an event is consumed
exactly when it is registered already or acceptable. -/
theorem consumed_iff (hdb : Reachable c db) (h : Schema c db) (now : Instant)
    (delivery : ExecutorEventService.Delivery) (message : ExecutorEventMessage) :
    Consumed c now delivery message db ↔
      Registered delivery message db ∨ Acceptable c db delivery message := by
  have hfresh : InboxFresh db := by
    obtain ⟨calls, rfl⟩ := hdb
    exact inboxFresh_history calls
  by_cases hregistered : Registered delivery message db
  · exact iff_of_true ⟨db, transaction_of_registered hregistered, hregistered, fun _ ↦
      transaction_of_registered hregistered⟩ (Or.inl hregistered)
  have hdup := Bool.eq_false_of_not_eq_true fun hdup ↦ hregistered (isDuplicate_iff.mp hdup)
  -- a message that is not registered yet has to commit
  have hcommits : (∃ db', ExecutorEventService.transaction c now delivery message db = .ok db') ↔
      Acceptable c db delivery message := by
    cases htype : ExecutorEventType.fromValue message.eventType with
    | none =>
      rw [transaction_isOk_of_unknown h hfresh hdup htype]
      refine ⟨fun hregistrable ↦ ⟨hregistrable, fun hknown ↦ ?_⟩, Acceptable.registrable⟩
      rw [htype] at hknown
      cases hknown
    | some type =>
      have hnew : Consumes db delivery message := ⟨hdup, by rw [htype]; rfl⟩
      constructor
      · rintro ⟨db', hok⟩
        obtain ⟨e, he, hid⟩ :=
          (ExecutorEventService.handle_of_transaction h hdb.sound hfresh hok).2 hnew
        obtain ⟨hwritable, hcontinues⟩ :=
          (transaction_isOk_iff hdb h hfresh he hid hnew).mp ⟨db', hok⟩
        exact ⟨hwritable.registrable, fun _ ↦ ⟨by simp [hid], hwritable, hcontinues⟩⟩
      · rintro ⟨hregistrable, happlicable⟩
        obtain ⟨hid, hwritable, hcontinues⟩ := happlicable hnew.2
        obtain ⟨executionId, hid⟩ := Option.ne_none_iff_exists'.mp hid
        obtain ⟨e, he, rfl⟩ := hregistrable.job_execution executionId hid
        exact (transaction_isOk_iff hdb h hfresh he hid hnew).mpr ⟨hwritable, hcontinues⟩
  rw [or_iff_right hregistered, ← hcommits]
  constructor
  · rintro ⟨db', hok, -⟩
    exact ⟨db', hok⟩
  · rintro ⟨db', hok⟩
    have hregistrable := (hcommits.mp ⟨db', hok⟩).registrable
    obtain ⟨-, hknown | ⟨event, hevent, hmessage, hconsumer, hsource, hdocument⟩⟩ :=
      handle_grows hfresh (ExecutorEventService.handle_of_transaction h hdb.sound hfresh hok).1
    · exact absurd (isDuplicate_iff.mp hknown) hregistered
    have hafter : Registered delivery message db' :=
      ⟨event, hevent, hconsumer, hregistrable.identity.imp (⟨·, hmessage⟩)
        (⟨·, hsource, hdocument⟩)⟩
    exact ⟨db', hok, hafter, fun _ ↦ transaction_of_registered hafter⟩

end Consuming

/-- The only job of a run is queued, and nothing has arrived yet. -/
def queuedJob : Db := history Small.solo [Small.call (.createRun 0 none)]

/-- How the consumer of results delivers an event. -/
def resultsDelivery : ExecutorEventService.Delivery :=
  ⟨"kafka-results-consumer", "jobs.results", none, "kafka", none⟩

theorem consumed_running :
    Consumed Small.solo 0 resultsDelivery (Small.message 100 2 .running) queuedJob := by
  refine (consumed_iff ⟨_, rfl⟩ (by decide +kernel) 0 _ _).mpr (Or.inr ?_)
  have hregistrable : Registrable queuedJob.executions resultsDelivery
      (Small.message 100 2 .running) :=
    ⟨by decide +kernel, by decide, by decide, by decide, by decide⟩
  refine ⟨hregistrable, fun _ ↦ ⟨by decide, ⟨nofun, nofun, hregistrable⟩, ?_⟩⟩
  intro e _ _ hends
  exact absurd (Bool.and_eq_true _ _ ▸ hends : _ ∧ _).2 (by decide)

/-- The result of a build, with the bundle of its artifacts. -/
def builtBundle : ExecutorEventMessage :=
  { Small.message 101 2 .success with
    artifacts := some [
      { artifactId := none
        type := some "build_artifacts"
        name := some "build-artifacts.tar.gz"
        uri := some "storage://build-artifacts/2/build-artifacts.tar.gz"
        sizeBytes := some 1
        sha256 := none
        metadata := none }] }

theorem bundle_not_consumed : ¬ ∀ c db, Reachable c db → Schema c db →
    ∀ now delivery message, Consumed c now delivery message db := by
  intro h
  obtain ⟨db', hok, -⟩ := h Small.solo queuedJob ⟨_, rfl⟩ (by decide +kernel) 0 resultsDelivery
    builtBundle
  have hfails : (ExecutorEventService.transaction Small.solo 0 resultsDelivery builtBundle
      queuedJob).isOk = false := by decide +kernel
  rw [hok] at hfails
  cases hfails

end FuzzingCiCd.Master
