import FuzzingCiCd.Foundation.Pages
import FuzzingCiCd.Master.EventCursor
import FuzzingCiCd.Master.EventService
import FuzzingCiCd.Master.PipelineService

/-!
# The OpenSearch poller

`OpenSearchExecutorEventPoller.poll` reads a page of documents behind its cursor, hands their events
to `ExecutorEventService.handle` and moves the cursor, all in one transaction. An exception of
`handle` is caught, but it has crossed the boundary of a transactional method by then and has marked
the transaction, so that the poll is rolled back when it ends.

A document is given with its source as `parseUuid`, `parseInt` and the like read the fields, and a
random message id is one that is not in use. What an event has written before its exception is
left out: it is rolled back in any case.
-/

namespace FuzzingCiCd.Master

namespace OpenSearchExecutorEventPoller

/-! ## Documents -/

/-- A document of the index: an event with the time at which it became visible. -/
structure Document where
  documentId : String
  /-- In milliseconds. -/
  ingestedAt : ℤ
  /-- The id of the document as an UUID, if it is one. -/
  documentUuid : Option UUID
  source : ExecutorEventMessage
  deriving DecidableEq

def Document.sort (d : Document) : SortKey := toLex (d.ingestedAt, d.documentId)

/-- A search that asks for an order answers with sort arrays. -/
def Document.hit (d : Document) : Hit where
  ingestedAt := ofEpochMilli d.ingestedAt
  documentId := d.documentId
  sorted := true

theorem Document.key_hit (d : Document) : d.hit.key = d.sort := by
  rw [Hit.key, Document.sort, toEpochMilli]
  dsimp only [Document.hit, ofEpochMilli]
  rw [Int.mul_ediv_cancel _ (by decide)]

/-- The required fields are there. -/
def Document.hasRequiredFields (d : Document) : Bool :=
  d.source.pipelineRunId.isSome && d.source.pipelineId.isSome && d.source.jobId.isSome &&
    d.source.jobExecutionId.isSome && (ExecutorEventType.fromValue d.source.eventType).isSome &&
    d.source.status.isSome && d.source.jobType.isSome

/-- `toEventMessage`. -/
def toEventMessage (random : UUID) (d : Document) : Option ExecutorEventMessage :=
  if d.hasRequiredFields then
    some { d.source with
      messageId := d.source.messageId <|> d.documentUuid <|> some random
      correlationId := d.source.correlationId <|> some random
      eventType := (ExecutorEventType.fromValue d.source.eventType).map ExecutorEventType.name
      artifacts := some (d.source.artifacts.getD []) }
  else none

/-! ## The cursor -/

/-- The properties that the poller reads. -/
structure AppProperties where
  executorEventsTransport : String
  cursorConsumerName : String
  index : String
  pollBatchSize : ℕ

def getOrCreateCursor (config : AppProperties) (now : Instant) :
    Option ExecutorEventCursorEntity → ExecutorEventCursorEntity
  | some cursor => cursor
  | none =>
    { consumerName := config.cursorConsumerName
      eventSource := "opensearch"
      indexName := config.index
      lastIngestedAt := none
      lastDocumentId := none
      updatedAt := now
      metadata := some [] }

/-! ## Polls -/

/-- The documents, the database, and what the polls have committed. -/
structure Polling where
  documents : List Document
  db : Db
  cursor : Option ExecutorEventCursorEntity
  /-- The documents and messages whose effects were committed, in order. -/
  committed : List (String × Option UUID)

/-- What the environment does in a poll. -/
structure Poll where
  now : Instant
  searchFails : Bool
  /-- The handling of the event of this document throws, whatever it does. -/
  throws : String → Bool

/-- The transaction of a poll, in the course of its page. -/
structure Page where
  db : Db
  cursor : ExecutorEventCursorEntity
  rollbackOnly : Bool
  /-- The events that were handled, and whether that threw. -/
  handled : List (Document × Bool)
  /-- Those that were not handled before. -/
  applied : List (String × Option UUID)

section Polls

variable (c : Catalog) (config : AppProperties) (poll : Poll)

/-- A random identifier that no message has. -/
def randomUUID (db : Db) : UUID := unusedKey (db.inbox.filterMap InboxEventEntity.messageId)

def deliveryOf (hit : Document) (event : ExecutorEventMessage) :
    ExecutorEventService.Delivery where
  consumerName := config.cursorConsumerName
  topic := config.index
  messageKey := event.jobExecutionId.map toString
  eventSource := "opensearch"
  sourceDocumentId := some hit.documentId

/-- The event of a hit is handled. -/
def applyHit (page : Page) (hit : Document) (event : ExecutorEventMessage) : Page :=
  if poll.throws hit.documentId then
    { page with rollbackOnly := true, handled := page.handled ++ [(hit, true)] }
  else
    match ExecutorEventService.handle c poll.now (deliveryOf config hit event) event page.db with
    | .error _ => { page with rollbackOnly := true, handled := page.handled ++ [(hit, true)] }
    | .ok db =>
      { page with
        db := db
        handled := page.handled ++ [(hit, false)]
        applied :=
          if InboxDeduplicationService.isDuplicate config.cursorConsumerName "opensearch"
              (some hit.documentId) event.messageId page.db then page.applied
          else page.applied ++ [(hit.documentId, event.messageId)] }

/-- The body of the loop over the hits. -/
def pollHit (page : Page) (hit : Document) : Page :=
  let moved (page : Page) : Page :=
    { page with cursor := updateCursorFromHit poll.now page.cursor hit.hit }
  if ExecutorEventType.fromValue hit.source.eventType = some .jobLog then moved page
  else
    match toEventMessage (randomUUID page.db) hit with
    | none => moved page
    | some event => moved (applyHit c config poll page hit event)

/-- `openSearchApiClient.search` with the body of `buildSearchBody`, behind a position. -/
def searchFrom (searchAfter : Option SortKey) (documents : List Document) : List Document :=
  Pages.page Document.sort searchAfter config.pollBatchSize
    (documents.filter fun d ↦ d.source.eventType ≠ some "JOB_LOG")

/-- The search, which refuses an array that is no position. -/
def search (searchAfter : List Json) (documents : List Document) : Option (List Document) :=
  if searchAfter = [] then some (searchFrom config none documents)
  else (sortKey? searchAfter).map fun key ↦ searchFrom config (some key) documents

def enabled : Bool :=
  JavaText.equalsIgnoreCase "opensearch" config.executorEventsTransport

/-- The hits of a poll, if it reads any. -/
def hitsOf (s : Polling) : List Document :=
  if enabled config && !poll.searchFails then
    let searchAfter := readSearchAfter (getOrCreateCursor config poll.now s.cursor)
    (searchAfter.bind fun searchAfter ↦ search config searchAfter s.documents).getD []
  else []

/-- The transaction when all hits have been processed. -/
def pageOf (s : Polling) : Page :=
  (hitsOf config poll s).foldl (pollHit c config poll)
    ⟨s.db, getOrCreateCursor config poll.now s.cursor, false, [], []⟩

/-- `poll`. A poll that reads nothing commits the cursor that it may have created. -/
def run (s : Polling) : Polling :=
  if enabled config then
    if hitsOf config poll s = [] then
      { s with cursor := some (getOrCreateCursor config poll.now s.cursor) }
    else
      let page := pageOf c config poll s
      if page.rollbackOnly then s
      else
        { s with
          db := page.db
          cursor := some page.cursor
          committed := s.committed ++ page.applied }
  else s

end Polls

end OpenSearchExecutorEventPoller

end FuzzingCiCd.Master
