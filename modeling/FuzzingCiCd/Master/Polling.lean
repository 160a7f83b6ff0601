import FuzzingCiCd.Master.Idempotence
import FuzzingCiCd.Master.OpenSearchPoller

/-!
# Runs of the poller

Documents become visible in any order, the master does other things with its database, and the
poller polls. Three things are asked of every step: the effects of an event are committed at most
once, the cursor does not pass an event whose effects are not committed, and what an exception
rolls back is its own event only.

The inbox gives the first one always. A document that becomes visible behind the cursor breaks the
second one, and an exception the third one, since the whole poll is rolled back with it.

## Main results

* `Processed.pollHit`: what one more hit of a page does.
* `coherent_apply`: the invariant of the steps that keep the promise.
* `kept_throughout_iff`: for which runs every step keeps it.
-/

namespace FuzzingCiCd.Master

open Transition

namespace OpenSearchExecutorEventPoller

/-! ## Steps -/

inductive PollingStep where
  /-- A document becomes visible, in place of an earlier version of it. -/
  | index (d : Document)
  | poll (poll : Poll)
  /-- Another operation of the master. -/
  | call (call : Call)

def pollingStep (c : Catalog) (config : AppProperties) :
    PollingStep → Polling → Except ServiceException Polling
  | .index d, s => .ok { s with documents := Table.save Document.documentId s.documents d }
  | .poll poll, s => .ok (run c config poll s)
  | .call call, s => do
    let db ← step c call s.db
    return { s with db := db }

/-- No documents, and a database without rows. -/
def Polling.start : Polling := ⟨[], .empty, none, []⟩

/-! ## What is promised -/

/-- The document is one of an event that can be handled, and no log. -/
def Document.IsEvent (d : Document) : Prop :=
  d.hasRequiredFields = true ∧ ExecutorEventType.fromValue d.source.eventType ≠ some .jobLog

/-- Its effects are committed: the inbox has the document or the message. -/
def Committed (config : AppProperties) (db : Db) (d : Document) : Prop :=
  InboxDeduplicationService.isDuplicate config.cursorConsumerName "opensearch" (some d.documentId)
    (d.source.messageId <|> d.documentUuid) db = true

/-- The position of the stored cursor. -/
def Polling.position (s : Polling) : Option SortKey :=
  s.cursor.bind OpenSearchExecutorEventPoller.position

/-- A search after the stored cursor does not return the document any more. -/
def Passed (s : Polling) (d : Document) : Prop := ¬ Pages.After s.position d.sort

/-- Effects of different documents and messages. -/
def Apart (a b : String × Option UUID) : Prop := a.1 ≠ b.1 ∧ a.2 ≠ b.2

/-- **The promise.** -/
structure Kept (c : Catalog) (config : AppProperties) (s : Polling) (step : PollingStep) :
    Prop where
  /-- No effects are committed twice, of a document or of a message. -/
  once : (apply (pollingStep c config) s step).committed.Pairwise Apart
  /-- An event whose effects are not committed is still returned by a search. -/
  returned : ∀ d ∈ (apply (pollingStep c config) s step).documents, d.IsEvent →
    Passed (apply (pollingStep c config) s step) d →
    Committed config (apply (pollingStep c config) s step).db d
  /-- An event whose handling did not throw is committed by its poll. -/
  isolated : ∀ poll, step = .poll poll → ∀ d, (d, false) ∈ (pageOf c config poll s).handled →
    Committed config (apply (pollingStep c config) s step).db d

/-- **The condition.** An event that becomes visible is not behind the cursor, or committed
already; and if the handling of an event throws, all others of its page are committed already. -/
def Orderly (c : Catalog) (config : AppProperties) (s : Polling) : PollingStep → Prop
  | .index d => d.IsEvent → Passed s d → Committed config s.db d
  | .poll poll => (∃ d, (d, true) ∈ (pageOf c config poll s).handled) →
    ∀ d, (d, false) ∈ (pageOf c config poll s).handled → Committed config s.db d
  | .call _ => True

/-! ## A page

The hits of a page are processed one after the other in one transaction. After some of them,
`Processed` says, every event among them is committed to the inbox or its handling has thrown,
the effects of those that were applied are known to the inbox and no two are of one event, and
the cursor is at the last of the hits. -/

/-- The inbox has a row for the effects. -/
def Known (config : AppProperties) (db : Db) (effects : String × Option UUID) : Prop :=
  effects.2 ≠ none ∧ ∃ event ∈ db.inbox, event.consumerName = config.cursorConsumerName ∧
    event.eventSource = "opensearch" ∧ event.sourceDocumentId = some effects.1 ∧
    event.messageId = effects.2

section Duplicates

variable {config : AppProperties} {db db' : Db} {documentId : String} {messageId : Option UUID}

theorem isDuplicate_of_document {event : InboxEventEntity} (hevent : event ∈ db.inbox)
    (hconsumer : event.consumerName = config.cursorConsumerName)
    (hsource : event.eventSource = "opensearch")
    (hdocument : event.sourceDocumentId = some documentId) :
    InboxDeduplicationService.isDuplicate config.cursorConsumerName "opensearch" (some documentId)
      messageId db = true := by
  rw [InboxDeduplicationService.isDuplicate, Bool.or_eq_true]
  refine Or.inr (Bool.and_eq_true_iff.mpr ⟨rfl, List.any_eq_true.mpr ⟨event, hevent, ?_⟩⟩)
  simp [hconsumer, hsource, hdocument]

theorem isDuplicate_of_message {event : InboxEventEntity} (hevent : event ∈ db.inbox)
    (hconsumer : event.consumerName = config.cursorConsumerName)
    (hmessage : event.messageId = messageId) (hsome : messageId ≠ none) :
    InboxDeduplicationService.isDuplicate config.cursorConsumerName "opensearch" (some documentId)
      messageId db = true := by
  rw [InboxDeduplicationService.isDuplicate, Bool.or_eq_true]
  refine Or.inl (Bool.and_eq_true_iff.mpr ⟨Option.isSome_iff_ne_none.mpr hsome,
    List.any_eq_true.mpr ⟨event, hevent, ?_⟩⟩)
  simp [hconsumer, hmessage]

/-- A random message id is no duplicate, so that the document is. -/
theorem isDuplicate_random
    (h : InboxDeduplicationService.isDuplicate config.cursorConsumerName "opensearch"
      (some documentId) (messageId <|> some (randomUUID db)) db = true) :
    InboxDeduplicationService.isDuplicate config.cursorConsumerName "opensearch" (some documentId)
      messageId db = true := by
  rcases messageId with _ | id
  · rw [InboxDeduplicationService.isDuplicate, Bool.or_eq_true] at h ⊢
    refine h.imp_left fun hmessage ↦ ?_
    obtain ⟨event, hevent, hsame⟩ := List.any_eq_true.mp (Bool.and_eq_true_iff.mp hmessage).2
    have hid : event.messageId = some (randomUUID db) :=
      of_decide_eq_true (Bool.and_eq_true_iff.mp hsame).1
    exact absurd (lt_unusedKey (List.mem_filterMap.mpr ⟨event, hevent, hid⟩)) (lt_irrefl _)
  · exact h

theorem Known.grows {effects : String × Option UUID} (h : Known config db effects)
    (hgrows : GrowsInbox db db') : Known config db' effects := by
  obtain ⟨hsome, event, hevent, hsame⟩ := h
  exact ⟨hsome, event, hgrows.inbox event hevent, hsame⟩

theorem Known.apart {effects : String × Option UUID} (h : Known config db effects)
    (hnew : InboxDeduplicationService.isDuplicate config.cursorConsumerName "opensearch"
      (some documentId) messageId db = false) : Apart effects (documentId, messageId) := by
  obtain ⟨hsome, event, hevent, hconsumer, hsource, hdocument, hmessage⟩ := h
  constructor
  · intro heq
    rw [isDuplicate_of_document hevent hconsumer hsource
      (hdocument.trans (congrArg some heq))] at hnew
    cases hnew
  · intro heq
    dsimp only at heq
    rw [isDuplicate_of_message hevent hconsumer (hmessage.trans heq) (heq ▸ hsome)] at hnew
    cases hnew

end Duplicates

/-- **The invariant of a page.** What has been processed of it, after the effects committed
before. -/
structure Processed (config : AppProperties) (s : Polling) (hits : List Document) (page : Page) :
    Prop where
  fresh : InboxFresh page.db
  grows : GrowsInbox s.db page.db
  once : (s.committed ++ page.applied).Pairwise Apart
  known : ∀ effects ∈ s.committed ++ page.applied, Known config page.db effects
  committed : ∀ d, (d, false) ∈ page.handled → Committed config page.db d
  thrown : page.rollbackOnly = true ↔ ∃ d, (d, true) ∈ page.handled
  complete : ∀ d ∈ hits, d.IsEvent → (d, false) ∈ page.handled ∨ (d, true) ∈ page.handled
  /-- The cursor is at the last hit. -/
  cursor : ∀ hit ∈ hits.getLast?, position page.cursor = some hit.sort

section Pages

variable {c : Catalog} {config : AppProperties} {poll : Poll} {s : Polling} {hits : List Document}
  {page : Page}

theorem Processed.threw (h : Processed config s hits page) (hit : Document)
    {cursor : ExecutorEventCursorEntity} (hcursor : position cursor = some hit.sort) :
    Processed config s (hits ++ [hit])
      { page with
        rollbackOnly := true
        handled := page.handled ++ [(hit, true)]
        cursor := cursor } where
  fresh := h.fresh
  grows := h.grows
  once := h.once
  known := h.known
  committed d hd := by
    rcases List.mem_append.mp hd with hold | hnew
    · exact h.committed d hold
    · cases List.mem_singleton.mp hnew
  thrown := iff_of_true rfl ⟨hit, List.mem_append_right _ (List.mem_singleton_self _)⟩
  complete d hd hd' := by
    rcases List.mem_append.mp hd with hold | hnew
    · exact (h.complete d hold hd').imp (List.mem_append_left _) (List.mem_append_left _)
    · rw [List.mem_singleton.mp hnew]
      exact Or.inr (List.mem_append_right _ (List.mem_singleton_self _))
  cursor hit' hhit' := by
    rw [List.getLast?_concat] at hhit'
    rw [← Option.some.inj hhit']
    exact hcursor

theorem toEventMessage_messageId {random : UUID} {hit : Document} {event : ExecutorEventMessage}
    (h : toEventMessage random hit = some event) :
    event.messageId = ((hit.source.messageId <|> hit.documentUuid) <|> some random) := by
  rw [toEventMessage] at h
  split at h
  · rw [← Option.some.inj h]
    dsimp only
    rcases hit.source.messageId with _ | id
    · rcases hit.documentUuid with _ | id
      · rfl
      · rfl
    · rfl
  · cases h

theorem Processed.handled (h : Processed config s hits page) {hit : Document}
    {event : ExecutorEventMessage} (hevent : toEventMessage (randomUUID page.db) hit = some event)
    {now : Instant} {db : Db}
    (hok : ExecutorEventService.handle c now (deliveryOf config hit event) event page.db = .ok db)
    {cursor : ExecutorEventCursorEntity} (hcursor : position cursor = some hit.sort) :
    Processed config s (hits ++ [hit])
      { page with
        db := db
        handled := page.handled ++ [(hit, false)]
        applied :=
          if InboxDeduplicationService.isDuplicate config.cursorConsumerName "opensearch"
              (some hit.documentId) event.messageId page.db then page.applied
          else page.applied ++ [(hit.documentId, event.messageId)]
        cursor := cursor } := by
  have hmessage := toEventMessage_messageId hevent
  obtain ⟨hgrows, hregistered⟩ := handle_grows h.fresh hok
  -- a duplicate is in the inbox already, any other event is there now
  have hnew : Committed config db hit := by
    rcases hregistered with hdup | ⟨row, hrow, -, hconsumer, hsource, hdocument⟩
    · rw [hmessage] at hdup
      exact isDuplicate_grows (isDuplicate_random hdup) hgrows
    · exact isDuplicate_of_document hrow hconsumer hsource hdocument
  have hknown : ∀ effects ∈ s.committed ++ page.applied, Known config db effects :=
    fun effects heffects ↦ (h.known effects heffects).grows hgrows
  refine ⟨hgrows.fresh h.fresh, h.grows.trans hgrows, ?_, ?_, fun d hd ↦ ?_, ?_, fun d hd hd' ↦ ?_,
    fun hit' hhit' ↦ ?_⟩
  · dsimp only
    split
    · exact h.once
    · rename_i hdup
      rw [← List.append_assoc, List.pairwise_append]
      refine ⟨h.once, List.pairwise_singleton _ _, fun a ha b hb ↦ ?_⟩
      rw [List.mem_singleton.mp hb]
      exact (h.known a ha).apart (Bool.not_eq_true _ ▸ hdup)
  · dsimp only
    split
    · exact hknown
    · rename_i hdup
      obtain ⟨row, hrow, hsame, hconsumer, hsource, hdocument⟩ := hregistered.resolve_left hdup
      rw [← List.append_assoc]
      intro effects heffects
      rcases List.mem_append.mp heffects with hold | hlast
      · exact hknown effects hold
      · rw [List.mem_singleton.mp hlast]
        refine ⟨?_, row, hrow, hconsumer, hsource, hdocument, hsame⟩
        dsimp only
        rw [hmessage]
        rcases (hit.source.messageId <|> hit.documentUuid) with _ | id
        · exact Option.some_ne_none _
        · exact Option.some_ne_none _
  · rcases List.mem_append.mp hd with hold | hlast
    · exact isDuplicate_grows (h.committed d hold) hgrows
    · obtain ⟨rfl, -⟩ := Prod.mk.inj (List.mem_singleton.mp hlast)
      exact hnew
  · rw [h.thrown]
    refine exists_congr fun d ↦ ?_
    simp
  · rcases List.mem_append.mp hd with hold | hlast
    · exact (h.complete d hold hd').imp (List.mem_append_left _) (List.mem_append_left _)
    · rw [List.mem_singleton.mp hlast]
      exact Or.inl (List.mem_append_right _ (List.mem_singleton_self _))
  · rw [List.getLast?_concat] at hhit'
    rw [← Option.some.inj hhit']
    exact hcursor

theorem Processed.pollHit (h : Processed config s hits page) (hit : Document) :
    Processed config s (hits ++ [hit]) (pollHit c config poll page hit) := by
  have hposition : position (updateCursorFromHit poll.now page.cursor hit.hit) = some hit.sort := by
    rw [position_update_of_sorted _ _ rfl, hit.key_hit]
  have hlast : ∀ hit' ∈ (hits ++ [hit]).getLast?,
      position (updateCursorFromHit poll.now page.cursor hit.hit) = some hit'.sort := by
    intro hit' hhit'
    rw [List.getLast?_concat] at hhit'
    rw [← Option.some.inj hhit']
    exact hposition
  have hskipped : ¬ hit.IsEvent → Processed config s (hits ++ [hit])
      { page with cursor := updateCursorFromHit poll.now page.cursor hit.hit } := by
    intro hnot
    refine ⟨h.fresh, h.grows, h.once, h.known, h.committed, h.thrown, fun d hd hd' ↦ ?_, hlast⟩
    rcases List.mem_append.mp hd with hold | hnew
    · exact h.complete d hold hd'
    · rw [List.mem_singleton.mp hnew] at hd'
      exact absurd hd' hnot
  rw [OpenSearchExecutorEventPoller.pollHit]
  dsimp only
  split
  · rename_i hlog
    exact hskipped fun hevent ↦ hevent.2 hlog
  · split
    · rename_i hnone
      refine hskipped fun hevent ↦ ?_
      rw [toEventMessage, if_pos hevent.1] at hnone
      cases hnone
    · rename_i event hevent
      rw [applyHit]
      split
      · exact h.threw hit hposition
      · split
        · exact h.threw hit hposition
        · rename_i db hok
          exact h.handled hevent hok hposition

theorem Processed.foldl (h : Processed config s hits page) (rest : List Document) :
    Processed config s (hits ++ rest)
      (rest.foldl (OpenSearchExecutorEventPoller.pollHit c config poll) page) := by
  induction rest generalizing hits page with
  | nil =>
    rw [List.append_nil]
    exact h
  | cons hit rest ih =>
    rw [List.foldl_cons, ← List.singleton_append, ← List.append_assoc]
    exact ih (h.pollHit hit)

end Pages

/-! ## The invariant of a run

Between polls every event that the cursor has passed is committed, and no two commits are of one
event. An event that becomes visible behind the cursor breaks this. A poll in which a handling
throws is rolled back as a whole, with the other events of its page; `kept_iff` says that the
promise is broken in these two ways only. -/

/-- What holds in every state of an orderly run. -/
structure Coherent (config : AppProperties) (s : Polling) : Prop where
  fresh : InboxFresh s.db
  keyed : Table.Keyed Document.documentId s.documents
  once : s.committed.Pairwise Apart
  known : ∀ effects ∈ s.committed, Known config s.db effects
  returned : ∀ d ∈ s.documents, d.IsEvent → Passed s d → Committed config s.db d

section Runs

variable {c : Catalog} {config : AppProperties} {s : Polling}

theorem processed_pageOf (h : Coherent config s) (poll : Poll) :
    Processed config s (hitsOf config poll s) (pageOf c config poll s) := by
  have hstart : Processed config s []
      ⟨s.db, getOrCreateCursor config poll.now s.cursor, false, [], []⟩ := by
    refine ⟨h.fresh, (KeepsInbox.refl s.db).grows, ?_, ?_, (fun _ hd ↦ by cases hd),
      iff_of_false Bool.false_ne_true ?_, (fun _ hd ↦ by cases hd), fun _ hd ↦ by cases hd⟩
    · rw [List.append_nil]
      exact h.once
    · rw [List.append_nil]
      exact h.known
    · rintro ⟨_, hd⟩
      cases hd
  exact hstart.foldl (hitsOf config poll s)

theorem position_getOrCreateCursor (config : AppProperties) (now : Instant) (s : Polling) :
    position (getOrCreateCursor config now s.cursor) = s.position := by
  rw [Polling.position]
  rcases s.cursor with _ | cursor
  · rfl
  · rfl

theorem hitsOf_eq (config : AppProperties) (poll : Poll) (s : Polling)
    (h : hitsOf config poll s ≠ []) :
    hitsOf config poll s = searchFrom config s.position s.documents := by
  rw [hitsOf] at h ⊢
  rw [← position_getOrCreateCursor config poll.now s, position]
  split at h
  swap
  · exact absurd rfl h
  rename_i hreads
  rw [if_pos hreads]
  dsimp only at h ⊢
  generalize readSearchAfter (getOrCreateCursor config poll.now s.cursor) = start at h ⊢
  rcases start with _ | searchAfter
  · exact absurd rfl h
  rw [Option.bind_some, search] at h ⊢
  by_cases hempty : searchAfter = []
  · rw [if_pos hempty, hempty]
    rfl
  · rw [if_neg hempty] at h ⊢
    rcases hkey : sortKey? searchAfter with _ | key
    · rw [hkey] at h
      exact absurd rfl h
    · rw [Option.bind_some, hkey]
      rfl

theorem keys_eq (h : Coherent config s) : ∀ x ∈ s.documents, ∀ y ∈ s.documents,
    x.sort = y.sort → x = y := by
  intro x hx y hy hkeys
  refine h.keyed.eq hx hy ?_
  have := congrArg (fun key : SortKey ↦ (ofLex key).2) hkeys
  exact this

theorem coherent_poll (h : Coherent config s) (poll : Poll) :
    Coherent config (run c config poll s) := by
  rw [run]
  split
  swap
  · exact h
  split
  · -- Only the cursor may have been created.
    refine ⟨h.fresh, h.keyed, h.once, h.known, fun d hd hevent hpassed ↦ h.returned d hd hevent ?_⟩
    rw [Passed, Polling.position] at hpassed
    dsimp only at hpassed
    rw [Option.bind_some, position_getOrCreateCursor] at hpassed
    exact hpassed
  dsimp only
  split
  · exact h
  rename_i henabled hhits hcommits
  have hprocessed : Processed config s (hitsOf config poll s) (pageOf c config poll s) :=
    processed_pageOf h poll
  refine ⟨hprocessed.fresh, h.keyed, hprocessed.once, hprocessed.known,
    fun d hd hevent hpassed ↦ ?_⟩
  by_cases hafter : Pages.After s.position d.sort
  swap
  · exact isDuplicate_grows (h.returned d hd hevent hafter) hprocessed.grows
  -- The document is behind the old position and not behind the new one, so it is a hit.
  have hlast := hprocessed.cursor _ (List.getLast?_eq_some_getLast hhits)
  have hhit : d ∈ hitsOf config poll s := by
    have hmem := List.getLast_mem hhits
    have hle : d.sort ≤ ((hitsOf config poll s).getLast hhits).sort := by
      rw [Passed, Polling.position] at hpassed
      dsimp only at hpassed
      rw [Option.bind_some, hlast] at hpassed
      refine le_of_not_gt fun hlt ↦ hpassed fun p hp ↦ ?_
      rw [← Option.some.inj hp]
      exact hlt
    generalize (hitsOf config poll s).getLast hhits = last at hmem hle
    rw [hitsOf_eq config poll s hhits, searchFrom] at hmem ⊢
    refine Pages.mem_page_of_le (fun x hx y hy ↦ ?_) hmem ?_ hafter hle
    · exact keys_eq h x (List.mem_filter.mp hx).1 y (List.mem_filter.mp hy).1
    · refine List.mem_filter.mpr ⟨hd, decide_eq_true fun hlog ↦ hevent.2 ?_⟩
      rw [hlog]
      exact ExecutorEventType.fromValue_name .jobLog
  rcases hprocessed.complete d hhit hevent with hhandled | hthrown
  · exact hprocessed.committed d hhandled
  · exact absurd (hprocessed.thrown.mpr ⟨d, hthrown⟩) hcommits

theorem coherent_index (h : Coherent config s) {d : Document}
    (hd : d.IsEvent → Passed s d → Committed config s.db d) :
    Coherent config { s with documents := Table.save Document.documentId s.documents d } where
  fresh := h.fresh
  keyed := h.keyed.save d
  once := h.once
  known := h.known
  returned d' hd' hevent hpassed := by
    rcases Table.mem_save hd' with hold | rfl
    · exact h.returned d' hold hevent hpassed
    · exact hd hevent hpassed

/-- **Preservation.** A step that is in order keeps the invariant. -/
theorem coherent_apply (h : Coherent config s) {step : PollingStep}
    (horderly : Orderly c config s step) :
    Coherent config (apply (pollingStep c config) s step) := by
  cases step with
  | index d => exact coherent_index h horderly
  | poll poll => exact coherent_poll h poll
  | call call =>
    rcases apply_cases (pollingStep c config) s (.call call) with ⟨t, ht, heq⟩ | heq
    · obtain ⟨db, hdb, hreturn⟩ := bind_eq_ok.mp ht
      obtain rfl := Except.ok.inj hreturn
      have hgrows := step_grows h.fresh hdb
      rw [heq]
      exact ⟨hgrows.fresh h.fresh, h.keyed, h.once,
        fun effects heffects ↦ (h.known effects heffects).grows hgrows,
        fun d hd hevent hpassed ↦ isDuplicate_grows (h.returned d hd hevent hpassed) hgrows⟩
    · rw [heq]
      exact h

/-- A poll that handles an event commits its page, unless an event has thrown. -/
theorem run_of_handled {poll : Poll} {d : Document} {threw : Bool}
    (hd : (d, threw) ∈ (pageOf c config poll s).handled) :
    run c config poll s =
      if (pageOf c config poll s).rollbackOnly then s
      else
        { s with
          db := (pageOf c config poll s).db
          cursor := some (pageOf c config poll s).cursor
          committed := s.committed ++ (pageOf c config poll s).applied } := by
  have hhits : hitsOf config poll s ≠ [] := by
    intro hnil
    rw [pageOf, hnil] at hd
    cases hd
  have henabled : enabled config = true := by
    by_contra hdisabled
    rw [hitsOf, Bool.eq_false_iff.mpr hdisabled, Bool.false_and, if_neg Bool.false_ne_true] at hhits
    exact hhits rfl
  rw [run, if_pos henabled, if_neg hhits]

theorem isolated_iff (h : Coherent config s) (poll : Poll) :
    (∀ d, (d, false) ∈ (pageOf c config poll s).handled →
      Committed config (run c config poll s).db d) ↔ Orderly c config s (.poll poll) := by
  have hprocessed : Processed config s (hitsOf config poll s) (pageOf c config poll s) :=
    processed_pageOf h poll
  constructor
  · rintro hcommitted ⟨d, hthrown⟩ d' hd'
    have hrun := hcommitted d' hd'
    rw [run_of_handled hthrown, if_pos (hprocessed.thrown.mpr ⟨d, hthrown⟩)] at hrun
    exact hrun
  · intro horderly d hd
    rw [run_of_handled hd]
    split
    · rename_i hrollback
      exact horderly (hprocessed.thrown.mp hrollback) d hd
    · exact hprocessed.committed d hd

/-- In a coherent state a step keeps the promise exactly when it meets the condition. -/
theorem kept_iff (h : Coherent config s) (step : PollingStep) :
    Kept c config s step ↔ Orderly c config s step := by
  constructor
  · intro hkept
    cases step with
    | index d => exact hkept.returned d (Table.mem_save_self _ _)
    | poll poll => exact (isolated_iff h poll).mp (hkept.isolated poll rfl)
    | call call => trivial
  · intro horderly
    have hnext := coherent_apply h horderly
    refine ⟨hnext.once, hnext.returned, ?_⟩
    rintro poll rfl
    exact (isolated_iff h poll).mpr horderly

end Runs

theorem coherent_start (config : AppProperties) : Coherent config .start where
  fresh _ h := by cases h
  keyed := List.nodup_nil
  once := List.Pairwise.nil
  known _ h := by cases h
  returned _ h := by cases h

/-- **Polling.** In every run from an empty index and database the promise is kept by every step
exactly when every step meets the condition. -/
theorem kept_throughout_iff (c : Catalog) (config : AppProperties) (steps : List PollingStep) :
    Along (pollingStep c config) (Kept c config) .start steps ↔
      Along (pollingStep c config) (Orderly c config) .start steps :=
  along_congr (J := Coherent config) (fun _ _ h horderly _ ↦ coherent_apply h horderly)
    (fun _ step h _ ↦ kept_iff h step) (coherent_start config) (along_true _ steps)

/-! ## A late document and a failing one -/

namespace Small

def config : AppProperties where
  executorEventsTransport := "opensearch"
  cursorConsumerName := "opensearch-event-poller"
  index := "cicd-executor-events"
  pollBatchSize := 200

/-- The end of an execution that the master does not know. -/
def finished (documentId : String) (ingestedAt : ℤ) (messageId : UUID) : Document where
  documentId := documentId
  ingestedAt := ingestedAt
  documentUuid := none
  source := { Master.Small.message messageId 9 .success with
    pipelineRunId := some 1, pipelineId := some 1, jobId := some 2, jobType := some "BUILD" }

/-- A poll in which the handling of some documents throws. -/
def pollThrowing (throws : String → Bool) : PollingStep := .poll ⟨0, false, throws⟩

/-- The second document becomes visible when the cursor is at the first one. -/
def late : List PollingStep :=
  [.index (finished "b" 2 11), pollThrowing fun _ ↦ false, .index (finished "a" 1 10)]

/-- The handling of one event of two throws. -/
def failing : List PollingStep :=
  [.index (finished "a" 1 10), .index (finished "b" 2 11), pollThrowing (· = "a")]

end Small

/-- The late event is behind the cursor, and the other event of the page is not committed. -/
theorem not_kept : ¬ Along (pollingStep Master.Small.solo Small.config)
      (Kept Master.Small.solo Small.config) .start Small.late ∧
    ¬ Along (pollingStep Master.Small.solo Small.config)
      (Kept Master.Small.solo Small.config) .start Small.failing := by
  constructor
  · intro hkept
    rw [along_iff] at hkept
    have hreturned := (hkept (Small.late.take 2) (.index (Small.finished "a" 1 10))
      (List.prefix_refl _)).returned (Small.finished "a" 1 10)
    have hevent : (Small.finished "a" 1 10).IsEvent := ⟨by decide, by decide⟩
    have hposition : (replay (pollingStep Master.Small.solo Small.config) .start
        (Small.late.take 2)).position = some (toLex ((2 : ℤ), "b")) := by decide +kernel
    have hbehind : ¬ toLex ((2 : ℤ), "b") < (Small.finished "a" 1 10).sort := by
      rw [Document.sort, Prod.Lex.toLex_lt_toLex]
      decide
    have hcommitted := hreturned (by decide +kernel) hevent
      fun hafter ↦ hbehind (hafter _ hposition)
    rw [Committed] at hcommitted
    exact absurd hcommitted (by decide +kernel)
  · intro hkept
    rw [along_iff] at hkept
    have hisolated := (hkept (Small.failing.take 2) (Small.pollThrowing (· = "a"))
      (List.prefix_refl _)).isolated _ rfl (Small.finished "b" 2 11) (by decide +kernel)
    rw [Committed] at hisolated
    exact absurd hisolated (by decide +kernel)

end OpenSearchExecutorEventPoller

end FuzzingCiCd.Master
