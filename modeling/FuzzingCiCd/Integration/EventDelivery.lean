import FuzzingCiCd.Integration.EventWire
import FuzzingCiCd.Master.Transactions

/-!
# Delivered events

An event of an executor reaches the database of the master in two steps: a consumer reads its text,
and `ExecutorEventService` handles what was read in one transaction. `receive` is both. Either step
may fail, and then the event leaves no trace: a text that cannot be read is not handled, and a
transaction that violates a constraint is rolled back.

## What is admitted

Whether an event about a known execution gets through depends on the event alone. The details of an
error are a text where the master reads an object, so that an event with details is not read. An
artifact arrives without its type, and the column of the type must not be null, so that an event
with an artifact is rolled back. `Admitted` is what is left, and `apply_receive` says that an
admitted event is handled as if there were no constraints, and any other one not at all.

`replay_receive` carries this over a stream: what the master makes of it is what it makes of the
admitted events.
-/

namespace FuzzingCiCd.Integration

open Master Transition Decoder

/-! ## Events as the master sees them -/

/-- The status of an execution that an executor's status stands for. -/
def corresponding : Contracts.ExecutionStatus → JobExecutionStatus
  | .queued => .queued
  | .running => .running
  | .success => .success
  | .failed => .failed
  | .timeout => .timeout
  | .canceling => .canceling
  | .canceled => .canceled
  | .retrying => .retrying
  | .skipped => .skipped
  | .waitingApproval => .waitingApproval

theorem mapStatus_received (m : Contracts.ExecutorEventMessage) :
    ExecutorEventService.mapStatus (received m).status = some (corresponding m.status) := by
  have h : ∀ s : Contracts.ExecutionStatus,
      ExecutorEventService.mapStatus (some s.wireValue) = some (corresponding s) := by
    intro s
    cases s <;> decide
  exact h m.status

theorem type_received (m : Contracts.ExecutorEventMessage) :
    (ExecutorEventType.fromValue (received m).eventType).isSome = true := by
  have h : ∀ t : Contracts.EventType,
      (ExecutorEventType.fromValue (some t.wireValue)).isSome = true := by
    intro t
    cases t <;> decide
  exact h m.eventType

theorem knownError_received (m : Contracts.ExecutorEventMessage) : KnownError (received m) := by
  have h : ∀ t : Contracts.ErrorType, t.wireValue ∈ ERROR_TYPES := by
    intro t
    cases t <;> decide
  intro error herror type htype
  obtain ⟨e, -, rfl⟩ := Option.map_eq_some_iff.mp herror
  obtain ⟨t, -, rfl⟩ := Option.map_eq_some_iff.mp htype
  exact h t

/-- An event on its way into the master. -/
structure Delivered where
  /-- When the event is handled, and by whom. -/
  context : CallContext
  /-- The consumer that hands it over. -/
  delivery : ExecutorEventService.Delivery
  /-- A consumer names one of the sources of events. -/
  eventSource : delivery.eventSource ∈ EVENT_SOURCES
  /-- The event as its executor has published it. -/
  event : Contracts.ExecutorEventMessage

namespace Delivered

def call (d : Delivered) : Call := ⟨d.context, .executorEvent d.delivery (received d.event)⟩

def report (d : Delivered) : StatusReport :=
  ⟨d.event.messageId, d.delivery.sourceDocumentId, corresponding d.event.status⟩

/-- The master takes two deliveries for different ones. -/
def Apart (a b : Delivered) : Prop :=
  b.delivery.sourceDocumentId = none ∨ a.delivery.sourceDocumentId ≠ b.delivery.sourceDocumentId

theorem delivers {d : Delivered} {x : UUID} (h : d.event.jobExecutionId = some x) :
    Delivers x d.call d.report :=
  ⟨d.context, d.delivery, received d.event, rfl, rfl, rfl, h, type_received d.event,
    mapStatus_received d.event⟩

end Delivered

theorem map_report_status (stream : List Delivered) :
    (stream.map Delivered.report).map StatusReport.status =
      (stream.map Delivered.event).map fun m ↦ corresponding m.status := by
  rw [List.map_map, List.map_map]
  rfl

theorem pairwise_report {stream : List Delivered} (hdocuments : stream.Pairwise Delivered.Apart)
    (hids : ((stream.map Delivered.event).map Contracts.ExecutorEventMessage.messageId).Nodup) :
    (stream.map Delivered.report).Pairwise StatusReport.Apart := by
  rw [List.map_map, List.nodup_iff_pairwise_ne, List.pairwise_map] at hids
  rw [List.pairwise_map]
  exact hids.imp₂ (fun _ _ hid hdocument ↦ ⟨hid, hdocument⟩) hdocuments

/-! ## Receiving

`receive` puts the wire and the transaction together. An event leaves a trace only if it is
`Admitted`, which can be told from the event alone, so a stream of deliveries is the stream of
its admitted events, handled without constraints, and the results on histories apply. -/

/-- Why an event leaves no trace. -/
inductive Refusal where
  | unreadable (mismatch : MismatchedInput)
  | rolledBack (failure : Failure)

/-- The text of the event is read, and what was read is handled in one transaction. -/
def receive (uuid : TextCodec UUID) (instant : TextCodec Instant) (c : Catalog) (d : Delivered)
    (db : Db) : Except Refusal Db := do
  let message ← (Master.ExecutorEventMessage.decode uuid instant (d.event.toJson uuid)).mapError
    .unreadable
  (ExecutorEventService.transaction c d.context.now d.delivery message db).mapError .rolledBack

/-- The event can be read, and stored with all that it brings. -/
structure Admitted (m : Contracts.ExecutorEventMessage) : Prop where
  readable : Readable m
  artifacts : m.artifacts = []
  schemaVersion : 0 < m.schemaVersion.toInt

instance (m : Contracts.ExecutorEventMessage) : Decidable (Admitted m) :=
  decidable_of_iff (Readable m ∧ m.artifacts = [] ∧ 0 < m.schemaVersion.toInt)
    ⟨fun ⟨h₁, h₂, h₃⟩ ↦ ⟨h₁, h₂, h₃⟩, fun ⟨h₁, h₂, h₃⟩ ↦ ⟨h₁, h₂, h₃⟩⟩

section Receiving

variable {uuid : TextCodec UUID} {instant : TextCodec Instant} {c : Catalog} {db : Db}
  {d : Delivered} {e : JobExecutionEntity}

theorem writable_received_iff (he : e ∈ db.executions)
    (hid : d.event.jobExecutionId = some e.id) :
    Writable db d.delivery (received d.event) ↔
      d.event.artifacts = [] ∧ 0 < d.event.schemaVersion.toInt := by
  constructor
  · rintro ⟨-, hstorable, hregistrable⟩
    refine ⟨List.eq_nil_iff_forall_not_mem.mpr fun a ha ↦ ?_, hregistrable.schema_version⟩
    -- the type of the artifact was lost on its way
    obtain ⟨type, -, htype⟩ := (hstorable _ (List.mem_map_of_mem ha)).type
    cases htype
  · rintro ⟨hartifacts, hversion⟩
    refine ⟨knownError_received d.event, ?_, ?_, nofun, d.eventSource, Or.inl nofun, hversion⟩
    · intro descriptor hdescriptor
      rw [received, hartifacts] at hdescriptor
      cases hdescriptor
    · intro id hmem
      exact ⟨e, he, Option.some.inj (hid.symm.trans hmem)⟩

theorem receive_of_readable (hr : Readable d.event) : receive uuid instant c d db =
    (ExecutorEventService.transaction c d.context.now d.delivery (received d.event) db).mapError
      .rolledBack := by
  rw [receive, decode_toJson, if_pos hr]
  rfl

theorem apply_receive_of_readable (hr : Readable d.event) :
    Transition.apply (receive uuid instant c) db d =
      ExecutorEventService.handled c d.context.now d.delivery (received d.event) db := by
  rw [Transition.apply, receive_of_readable hr, ExecutorEventService.handled, Transition.apply]
  cases ExecutorEventService.transaction c d.context.now d.delivery (received d.event) db with
  | error failure => rfl
  | ok db' => rfl

theorem apply_receive_of_not_readable (hr : ¬ Readable d.event) :
    Transition.apply (receive uuid instant c) db d = db := by
  rw [Transition.apply, receive, decode_toJson, if_neg hr]
  rfl

/-- **One delivery.** An admitted event of an execution is handled as without constraints, and any
other leaves no trace. -/
theorem apply_receive (h : Schema c db) (hs : Sound db) (hfresh : InboxFresh db)
    (he : e ∈ db.executions) (hid : d.event.jobExecutionId = some e.id) :
    Transition.apply (receive uuid instant c) db d =
      if Admitted d.event then Transition.apply (step c) db d.call else db := by
  by_cases hr : Readable d.event
  swap
  · rw [apply_receive_of_not_readable hr, if_neg fun hadmitted ↦ hr hadmitted.readable]
  rw [apply_receive_of_readable hr]
  by_cases hnew : Consumes db d.delivery (received d.event)
  · by_cases hwritable : Writable db d.delivery (received d.event)
    · obtain ⟨hartifacts, hversion⟩ := (writable_received_iff he hid).mp hwritable
      rw [if_pos ⟨hr, hartifacts, hversion⟩,
        ExecutorEventService.handled_of_writable h hs hfresh he hid hnew hwritable]
      rfl
    · rw [ExecutorEventService.handled_of_not_writable h hs hfresh he hid hnew hwritable, if_neg]
      exact fun hadmitted ↦ hwritable
        ((writable_received_iff he hid).mpr ⟨hadmitted.artifacts, hadmitted.schemaVersion⟩)
  · -- its type is known, so it is a duplicate, which neither handler touches
    have hdup : InboxDeduplicationService.isDuplicate d.delivery.consumerName
        d.delivery.eventSource d.delivery.sourceDocumentId (received d.event).messageId db =
          true := by
      by_contra hdup
      exact hnew ⟨Bool.eq_false_of_not_eq_true hdup, type_received d.event⟩
    have htransaction : ExecutorEventService.transaction c d.context.now d.delivery
        (received d.event) db = .ok db := by
      rw [ExecutorEventService.transaction, if_pos hdup]
    have hhandle : step c d.call db = .ok db := if_pos hdup
    rw [ExecutorEventService.handled, apply_of_ok htransaction, apply_of_ok hhandle, ite_self]

theorem schema_apply_receive (h : Schema c db) :
    Schema c (Transition.apply (receive uuid instant c) db d) := by
  by_cases hr : Readable d.event
  · rw [apply_receive_of_readable hr, ExecutorEventService.handled]
    obtain ⟨db', hok, happly⟩ | hsame := apply_cases (fun message ↦
      ExecutorEventService.transaction c d.context.now d.delivery message) db (received d.event)
    · rw [happly]
      exact ExecutorEventService.schema_of_transaction h hok
    · rw [hsame]
      exact h
  · rw [apply_receive_of_not_readable hr]
    exact h

/-- The admitted ones of a stream of deliveries. -/
def admitted (stream : List Delivered) : List Delivered :=
  stream.filter fun d ↦ decide (Admitted d.event)

/-- **A stream of deliveries.** The master makes of it what it makes of its admitted events. -/
theorem replay_receive (hdb : Reachable c db) (h : Schema c db) (he : e ∈ db.executions)
    {stream : List Delivered} (hids : ∀ d ∈ stream, d.event.jobExecutionId = some e.id) :
    replay (receive uuid instant c) db stream =
      replay (step c) db ((admitted stream).map Delivered.call) := by
  refine replay_filter (J := fun db ↦ Reachable c db ∧ Schema c db ∧
    ∃ e' ∈ db.executions, e'.id = e.id) ?_ ⟨hdb, h, e, he, rfl⟩
  rintro db ⟨hdb, h, e', he', hsame⟩ d hd
  have hfresh : InboxFresh db := by
    obtain ⟨calls, rfl⟩ := hdb
    exact inboxFresh_history calls
  have happly : Transition.apply (receive uuid instant c) db d =
      if Admitted d.event then Transition.apply (step c) db d.call else db :=
    apply_receive h hdb.sound hfresh he' (hsame ▸ hids d hd)
  refine ⟨?_, by simpa using happly⟩
  have hschema : Schema c (Transition.apply (receive uuid instant c) db d) :=
    schema_apply_receive h
  rw [happly] at hschema ⊢
  by_cases hadmitted : Admitted d.event
  · rw [if_pos hadmitted] at hschema ⊢
    obtain ⟨db', hok, hstep⟩ | hnothing := apply_cases (step c) db d.call
    · rw [hstep] at hschema ⊢
      obtain ⟨-, e'', he'', hid, -⟩ := ExecutorEventService.handle_keeps hdb.sound hok he'
      exact ⟨hdb.step hok, hschema, e'', he'', hid.trans hsame⟩
    · rw [hnothing]
      exact ⟨hdb, h, e', he', hsame⟩
  · rw [if_neg hadmitted]
    exact ⟨hdb, h, e', he', hsame⟩

end Receiving

end FuzzingCiCd.Integration
