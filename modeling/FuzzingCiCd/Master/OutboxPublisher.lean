import FuzzingCiCd.Foundation.Transition
import FuzzingCiCd.Master.RunService

/-!
# The outbox publisher

`OutboxPublisher.publishPending` sends the pending rows of the outbox to the broker. A send fails in
one of two ways: it throws, or the future that it returns completes exceptionally later. The
publisher looks at the first only, and a row whose send has returned a future is published.

Beside the rows a database has the messages whose futures have not completed and those that the
broker has accepted. `delivers_throughout_iff` says that a row which is published has been accepted,
once its future has completed, exactly when no future completes exceptionally. That attempts are
bounded and that no row is pending without attempts left holds in any case.

## Main results

* `publishPending_eq`: what a tick saves and what it hands to the broker.
* `Consistent.delivers_iff`: under the invariant, the only way to lose a message is a future that
  completes exceptionally.
-/

namespace FuzzingCiCd.Master

open Transition

/-! ## Rows -/

/-- A row with the columns that the publisher sets. -/
structure OutboxRow extends OutboxEventEntity where
  lastError : Option String
  publishedAt : Option Instant
  deriving DecidableEq

/-- The primary key. -/
abbrev OutboxRow.key (e : OutboxRow) : UUID := e.id

/-- `AppProperties.Outbox`. -/
structure OutboxProperties where
  publisherEnabled : Bool
  batchSize : ℤ
  maxAttempts : ℤ

/-- What comes of converting a payload and sending it. -/
inductive SendReply where
  | thrown (message : Option String)
  | future
  deriving DecidableEq

/-- The table of the publisher with the sends that are under way. -/
structure Outbox where
  rows : List OutboxRow
  /-- The next random identifier. -/
  nextId : UUID
  /-- The rows whose futures have not completed. -/
  inFlight : List UUID
  /-- The rows whose messages the broker has accepted. -/
  accepted : List UUID

namespace Outbox

/-- An outbox without rows. -/
def empty : Outbox := ⟨[], 0, [], []⟩

/-- `outboxEventRepository.lockByStatus`. -/
def lockByStatus (status : String) (rows : List OutboxRow) : List OutboxRow :=
  (rows.filter fun e ↦ e.status = status).insertionSort fun a b ↦ a.createdAt ≤ b.createdAt

/-- `OutboxService.enqueue`. -/
def enqueue (now : Instant) (aggregateType : String) (aggregateId : UUID)
    (eventType topic : String) (messageKey : UUID) (payload : OutboxPayload) (o : Outbox) :
    Outbox :=
  let entity : OutboxRow :=
    { newOutboxEvent now o.nextId aggregateType aggregateId eventType topic messageKey payload with
      lastError := none
      publishedAt := none }
  { o with rows := Table.save OutboxRow.key o.rows entity, nextId := o.nextId + 1 }

end Outbox

namespace OutboxPublisher

variable (p : OutboxProperties) (now : Instant)

/-- The row that `publishSingle` saves. Nothing is sent while the publisher is disabled. -/
def publishSingle (reply : SendReply) (event : OutboxRow) : OutboxRow :=
  match if p.publisherEnabled then reply else .future with
  | .future => { event with status := "published", publishedAt := some now, lastError := none }
  | .thrown message =>
    let attempts := event.attempts + 1
    { event with
      attempts := attempts
      lastError := message
      status := if attempts ≥ p.maxAttempts then "failed" else event.status }

/-- One round of the loop of `publishPending`, with the reply of the broker's client. -/
def publish (send : UUID → SendReply) (o : Outbox) (event : OutboxRow) : Outbox :=
  { o with
    rows := Table.save OutboxRow.key o.rows (publishSingle p now (send event.id) event)
    inFlight := if p.publisherEnabled && send event.id = .future then o.inFlight ++ [event.id]
      else o.inFlight }

def publishPending (send : UUID → SendReply) (o : Outbox) : Outbox :=
  let pending := Outbox.lockByStatus "pending" o.rows
  let max := min p.batchSize pending.length
  (pending.take max.toNat).foldl (publish p now send) o

end OutboxPublisher

/-! ## Runs -/

inductive OutboxOperation where
  | enqueue (now : Instant) (aggregateType : String) (aggregateId : UUID)
      (eventType topic : String) (messageKey : UUID) (payload : OutboxPayload)
  | publishPending (now : Instant) (send : UUID → SendReply)
  /-- The future of a row completes. -/
  | complete (id : UUID) (accepted : Bool)

/-- The future of a row completes; one that has completed stays as it is. -/
def Outbox.complete (id : UUID) (accepted : Bool) (o : Outbox) : Outbox :=
  if id ∈ o.inFlight then
    { o with
      inFlight := o.inFlight.erase id
      accepted := if accepted then o.accepted ++ [id] else o.accepted }
  else o

/-- No operation fails. -/
def outboxStep (p : OutboxProperties) (operation : OutboxOperation) (o : Outbox) :
    Except ServiceException Outbox :=
  match operation with
  | .enqueue now aggregateType aggregateId eventType topic messageKey payload =>
    .ok (o.enqueue now aggregateType aggregateId eventType topic messageKey payload)
  | .publishPending now send => .ok (OutboxPublisher.publishPending p now send o)
  | .complete id accepted => .ok (o.complete id accepted)

/-- The outbox at the end of a run. -/
abbrev outboxHistory (p : OutboxProperties) (operations : List OutboxOperation) : Outbox :=
  replay (outboxStep p) .empty operations

/-! ## The property -/

/-- What the outbox promises. -/
structure OutboxDelivers (p : OutboxProperties) (o : Outbox) : Prop where
  /-- A published row whose future has completed has been accepted. -/
  published : ∀ e ∈ o.rows, e.status = "published" → e.id ∉ o.inFlight → e.id ∈ o.accepted
  attempts_le : ∀ e ∈ o.rows, e.attempts ≤ p.maxAttempts
  /-- A row that was not accepted and has attempts left is selected by later ticks. -/
  pending : ∀ e ∈ o.rows, e.id ∉ o.accepted → e.id ∉ o.inFlight → e.attempts < p.maxAttempts →
    e ∈ Outbox.lockByStatus "pending" o.rows
  not_exhausted : ∀ e ∈ o.rows, ¬ (e.status = "pending" ∧ p.maxAttempts ≤ e.attempts)

/-- A future completes exceptionally. -/
def RejectsLater (o : Outbox) : OutboxOperation → Prop
  | .complete id accepted => id ∈ o.inFlight ∧ accepted = false
  | _ => False

instance (o : Outbox) : ∀ operation, Decidable (RejectsLater o operation)
  | .complete _ _ => instDecidableAnd
  | .enqueue .. => .isFalse id
  | .publishPending .. => .isFalse id

/-! ## Ticks -/

namespace OutboxPublisher

variable {p : OutboxProperties} {now : Instant} {send : UUID → SendReply} {o : Outbox}

theorem publishSingle_key (reply : SendReply) (e : OutboxRow) :
    (publishSingle p now reply e).key = e.key := by
  rw [publishSingle]
  split
  · rfl
  · rfl

/-- The rows of a tick. -/
def batch (p : OutboxProperties) (o : Outbox) : List OutboxRow :=
  let pending := Outbox.lockByStatus "pending" o.rows
  pending.take (min p.batchSize pending.length).toNat

theorem mem_of_mem_batch {e : OutboxRow} (h : e ∈ batch p o) :
    e ∈ o.rows ∧ e.status = "pending" := by
  have hpending := List.mem_of_mem_take h
  rw [Outbox.lockByStatus, List.mem_insertionSort, List.mem_filter, decide_eq_true_iff] at hpending
  exact hpending

theorem keyed_batch (h : Table.Keyed OutboxRow.key o.rows) :
    Table.Keyed OutboxRow.key (batch p o) := by
  have hperm := List.perm_insertionSort (fun a b : OutboxRow ↦ a.createdAt ≤ b.createdAt)
    (o.rows.filter fun e ↦ e.status = "pending")
  have hpending : Table.Keyed OutboxRow.key (Outbox.lockByStatus "pending" o.rows) :=
    (hperm.map OutboxRow.key).nodup_iff.mpr (h.filter _)
  exact ((List.take_sublist _ _).map OutboxRow.key).nodup hpending

theorem foldl_publish (es : List OutboxRow) (o : Outbox) :
    es.foldl (publish p now send) o =
      { o with
        rows := es.foldl (fun rows e ↦ Table.save OutboxRow.key rows
          (publishSingle p now (send e.id) e)) o.rows
        inFlight := o.inFlight ++ (es.filter fun e ↦
          p.publisherEnabled && send e.id = .future).map OutboxRow.key } := by
  induction es generalizing o with
  | nil => simp
  | cons e es ih =>
    rw [List.foldl_cons, ih, List.foldl_cons, publish, List.filter_cons]
    dsimp only
    split
    · rw [List.map_cons, List.append_assoc]
      rfl
    · rfl

/-- **A tick.** It saves the rows of the batch and hands those that do not throw to the broker. -/
theorem publishPending_eq (h : Table.Keyed OutboxRow.key o.rows) :
    publishPending p now send o =
      { o with
        rows := o.rows.map fun e ↦
          if e ∈ batch p o then publishSingle p now (send e.id) e else e
        inFlight := o.inFlight ++ ((batch p o).filter fun e ↦
          p.publisherEnabled && send e.id = .future).map OutboxRow.key } := by
  have hrows := Table.foldl_save (f := fun e ↦ publishSingle p now (send e.id) e)
    (fun e ↦ publishSingle_key (send e.id) e) (keyed_batch (p := p) h) (l := o.rows)
    fun e he ↦ ⟨e, (mem_of_mem_batch he).1, rfl⟩
  rw [publishPending, foldl_publish]
  congr 1
  refine hrows.trans (List.map_congr_left fun e he ↦ ?_)
  by_cases hbatch : e ∈ batch p o
  · rw [if_pos hbatch, (Table.findById_eq_some (keyed_batch h)).mpr ⟨hbatch, rfl⟩]
    rfl
  · have hnone : Table.findById OutboxRow.key e.key (batch p o) = none := by
      refine Table.findById_eq_none.mpr fun x hx hkey ↦ hbatch ?_
      rw [← h.eq (mem_of_mem_batch hx).1 he hkey]
      exact hx
    rw [if_neg hbatch, hnone]
    rfl

end OutboxPublisher

/-! ## The invariant -/

/-- The states of a row. -/
def OutboxRowState (p : OutboxProperties) (e : OutboxRow) : Prop :=
  e.status = "pending" ∧ e.attempts < p.maxAttempts ∨
    e.status = "published" ∧ e.attempts < p.maxAttempts ∨
    e.status = "failed" ∧ e.attempts = p.maxAttempts

/-- What holds of every outbox, whatever becomes of the futures. -/
structure Consistent (p : OutboxProperties) (o : Outbox) : Prop where
  keyed : Table.Keyed OutboxRow.key o.rows
  ids_lt : ∀ e ∈ o.rows, e.id < o.nextId
  state : ∀ e ∈ o.rows, OutboxRowState p e
  /-- What was handed to the broker is published. -/
  sent : ∀ id, id ∈ o.inFlight ∨ id ∈ o.accepted → ∃ e ∈ o.rows, e.id = id ∧ e.status = "published"
  once : (o.inFlight ++ o.accepted).Nodup

/-- A published row is on its way to the broker or has been accepted. -/
def Carried (o : Outbox) : Prop :=
  ∀ e ∈ o.rows, e.status = "published" → e.id ∈ o.inFlight ∨ e.id ∈ o.accepted

section Invariant

variable {p : OutboxProperties} {o o' : Outbox}

theorem consistent_empty (p : OutboxProperties) : Consistent p .empty where
  keyed := List.nodup_nil
  ids_lt := by simp [Outbox.empty]
  state := by simp [Outbox.empty]
  sent := by simp [Outbox.empty]
  once := by simp [Outbox.empty]

/-- **What is left to show.** Of the promise, only that published messages are carried needs a
condition. -/
theorem Consistent.delivers_iff (h : Consistent p o) : OutboxDelivers p o ↔ Carried o := by
  constructor
  · intro hdelivers e he hpublished
    by_cases hflight : e.id ∈ o.inFlight
    · exact Or.inl hflight
    · exact Or.inr (hdelivers.published e he hpublished hflight)
  · intro hcarried
    constructor
    · exact fun e he hpublished hflight ↦ (hcarried e he hpublished).resolve_left hflight
    · intro e he
      rcases h.state e he with ⟨-, hlt⟩ | ⟨-, hlt⟩ | ⟨-, heq⟩
      · exact hlt.le
      · exact hlt.le
      · exact heq.le
    · intro e he haccepted hflight hlt
      rw [Outbox.lockByStatus, List.mem_insertionSort, List.mem_filter, decide_eq_true_iff]
      refine ⟨he, ?_⟩
      rcases h.state e he with ⟨hpending, -⟩ | ⟨hpublished, -⟩ | ⟨-, heq⟩
      · exact hpending
      · exact ((hcarried e he hpublished).elim hflight haccepted).elim
      · exact absurd heq hlt.ne
    · rintro e he ⟨hpending, hle⟩
      rcases h.state e he with ⟨-, hlt⟩ | ⟨hpublished, -⟩ | ⟨hfailed, -⟩
      · exact absurd hle (not_le.mpr hlt)
      · rw [hpending] at hpublished
        exact absurd hpublished (by decide)
      · rw [hpending] at hfailed
        exact absurd hfailed (by decide)

/-! ### Enqueuing -/

theorem enqueue_rows (h : Consistent p o) (now : Instant) (aggregateType : String)
    (aggregateId : UUID) (eventType topic : String) (messageKey : UUID)
    (payload : OutboxPayload) : ∃ e : OutboxRow, e.id = o.nextId ∧ e.status = "pending" ∧
      e.attempts = 0 ∧ o.enqueue now aggregateType aggregateId eventType topic messageKey payload =
        { o with rows := o.rows ++ [e], nextId := o.nextId + 1 } := by
  refine ⟨{ newOutboxEvent now o.nextId aggregateType aggregateId eventType topic messageKey
    payload with lastError := none, publishedAt := none }, rfl, rfl, rfl, ?_⟩
  rw [Outbox.enqueue]
  congr 1
  exact Table.save_fresh fun x hx ↦ (h.ids_lt x hx).ne

theorem Consistent.enqueue (h : Consistent p o) (hmax : 1 ≤ p.maxAttempts) {e : OutboxRow}
    (hid : e.id = o.nextId) (hpending : e.status = "pending") (hattempts : e.attempts = 0) :
    Consistent p { o with rows := o.rows ++ [e], nextId := o.nextId + 1 } where
  keyed := by
    refine Table.keyed_append.mpr ⟨h.keyed, by simp [Table.Keyed], fun x hx y hy ↦ ?_⟩
    rw [List.mem_singleton.mp hy]
    exact ((h.ids_lt x hx).trans_eq hid.symm).ne
  ids_lt := by
    refine List.forall_mem_append.mpr ⟨fun x hx ↦ (h.ids_lt x hx).trans (Nat.lt_succ_self _), ?_⟩
    rw [List.forall_mem_singleton, hid]
    exact Nat.lt_succ_self _
  state := by
    refine List.forall_mem_append.mpr ⟨h.state, ?_⟩
    rw [List.forall_mem_singleton]
    refine Or.inl ⟨hpending, ?_⟩
    rw [hattempts]
    exact hmax
  sent id hid := by
    obtain ⟨x, hx, hrest⟩ := h.sent id hid
    exact ⟨x, List.mem_append_left _ hx, hrest⟩
  once := h.once

theorem carried_enqueue {e : OutboxRow} (hpending : e.status = "pending") (n : UUID)
    (h : Carried o) : Carried { o with rows := o.rows ++ [e], nextId := n } := by
  refine List.forall_mem_append.mpr ⟨h, ?_⟩
  rw [List.forall_mem_singleton, hpending]
  exact fun hpublished ↦ absurd hpublished (by decide)

/-! ### Ticks -/

/-- What the publisher makes of a pending row. -/
theorem rowState_publishSingle (henabled : p.publisherEnabled = true) (now : Instant)
    (reply : SendReply) {e : OutboxRow} (hpending : e.status = "pending")
    (hlt : e.attempts < p.maxAttempts) :
    OutboxRowState p (OutboxPublisher.publishSingle p now reply e) ∧
      ((OutboxPublisher.publishSingle p now reply e).status = "published" ↔ reply = .future) := by
  rw [OutboxPublisher.publishSingle, if_pos henabled]
  cases reply with
  | future => exact ⟨Or.inr (Or.inl ⟨rfl, hlt⟩), iff_of_true rfl rfl⟩
  | thrown message =>
    dsimp only
    by_cases hlast : ((e.attempts + 1 : ℕ) : ℤ) ≥ p.maxAttempts
    · rw [if_pos hlast]
      refine ⟨Or.inr (Or.inr ⟨rfl, ?_⟩), iff_of_false (by decide) nofun⟩
      dsimp only
      omega
    · rw [if_neg hlast]
      refine ⟨Or.inl ⟨hpending, not_le.mp hlast⟩, iff_of_false ?_ nofun⟩
      rw [hpending]
      decide

section Tick

variable {now : Instant} {send : UUID → SendReply}

/-- The rows handed to the broker in a tick. -/
abbrev handed (p : OutboxProperties) (send : UUID → SendReply) (o : Outbox) : List UUID :=
  ((OutboxPublisher.batch p o).filter fun e ↦
    p.publisherEnabled && send e.id = .future).map OutboxRow.key

theorem mem_handed (henabled : p.publisherEnabled = true) {id : UUID} :
    id ∈ handed p send o ↔ ∃ e ∈ OutboxPublisher.batch p o, e.id = id ∧ send e.id = .future := by
  rw [handed, List.mem_map]
  simp only [List.mem_filter, henabled, Bool.true_and, decide_eq_true_iff]
  constructor
  · rintro ⟨e, ⟨he, hsend⟩, rfl⟩
    exact ⟨e, he, rfl, hsend⟩
  · rintro ⟨e, he, rfl, hsend⟩
    exact ⟨e, ⟨he, hsend⟩, rfl⟩

theorem Consistent.batch_attempts (h : Consistent p o) {e : OutboxRow}
    (he : e ∈ OutboxPublisher.batch p o) : e.attempts < p.maxAttempts := by
  obtain ⟨hmem, hpending⟩ := OutboxPublisher.mem_of_mem_batch he
  rcases h.state e hmem with ⟨-, hlt⟩ | ⟨-, hlt⟩ | ⟨hfailed, -⟩
  · exact hlt
  · exact hlt
  · rw [hpending] at hfailed
    exact absurd hfailed (by decide)

theorem Consistent.not_batch (h : Consistent p o) {id : UUID}
    (hid : id ∈ o.inFlight ∨ id ∈ o.accepted) : ∀ e ∈ OutboxPublisher.batch p o, e.id ≠ id := by
  rintro e he rfl
  obtain ⟨x, hx, hkey, hpublished⟩ := h.sent _ hid
  obtain ⟨hmem, hpending⟩ := OutboxPublisher.mem_of_mem_batch he
  obtain rfl := h.keyed.eq hx hmem hkey
  rw [hpublished] at hpending
  exact absurd hpending (by decide)

theorem Consistent.publishPending (h : Consistent p o) (henabled : p.publisherEnabled = true) :
    Consistent p (OutboxPublisher.publishPending p now send o) := by
  rw [OutboxPublisher.publishPending_eq h.keyed]
  have hkey : ∀ e : OutboxRow, (if e ∈ OutboxPublisher.batch p o then
      OutboxPublisher.publishSingle p now (send e.id) e else e).key = e.key := by
    intro e
    split
    · exact OutboxPublisher.publishSingle_key _ e
    · rfl
  constructor
  · exact (Table.keyed_map hkey).mpr h.keyed
  · intro e' he'
    obtain ⟨e, he, rfl⟩ := List.mem_map.mp he'
    exact (hkey e).trans_lt (h.ids_lt e he)
  · intro e' he'
    obtain ⟨e, he, rfl⟩ := List.mem_map.mp he'
    split
    · rename_i hbatch
      exact (rowState_publishSingle henabled now _ (OutboxPublisher.mem_of_mem_batch hbatch).2
        (h.batch_attempts hbatch)).1
    · exact h.state e he
  · intro id hid
    dsimp only at hid
    rw [List.mem_append, or_assoc, or_left_comm, mem_handed henabled] at hid
    -- the row is handed over in this turn, or it was before
    rcases hid with ⟨e, hbatch, rfl, hsend⟩ | hid
    · obtain ⟨he, hpending⟩ := OutboxPublisher.mem_of_mem_batch hbatch
      refine ⟨_, List.mem_map_of_mem he, hkey e, ?_⟩
      rw [if_pos hbatch]
      exact (rowState_publishSingle henabled now _ hpending (h.batch_attempts hbatch)).2.mpr hsend
    · obtain ⟨e, he, rfl, hpublished⟩ := h.sent id hid
      refine ⟨_, List.mem_map_of_mem he, hkey e, ?_⟩
      rw [if_neg fun hbatch ↦ h.not_batch hid e hbatch rfl]
      exact hpublished
  · have hnodup : (handed p send o).Nodup :=
      ((List.filter_sublist.map OutboxRow.key).nodup (OutboxPublisher.keyed_batch h.keyed))
    have hdisjoint : ∀ id ∈ handed p send o, id ∉ o.inFlight ∧ id ∉ o.accepted := by
      intro id hid
      obtain ⟨e, hbatch, rfl, -⟩ := (mem_handed henabled).mp hid
      exact ⟨fun hin ↦ h.not_batch (Or.inl hin) e hbatch rfl,
        fun hin ↦ h.not_batch (Or.inr hin) e hbatch rfl⟩
    have honce := h.once
    rw [List.nodup_append] at honce ⊢
    rw [List.nodup_append]
    refine ⟨⟨honce.1, hnodup, ?_⟩, honce.2.1, ?_⟩
    · rintro a ha b hb rfl
      exact (hdisjoint a hb).1 ha
    · rintro a ha b hb rfl
      rcases List.mem_append.mp ha with ha | ha
      · exact honce.2.2 a ha a hb rfl
      · exact (hdisjoint a ha).2 hb

theorem carried_publishPending (h : Consistent p o) (henabled : p.publisherEnabled = true)
    (hcarried : Carried o) : Carried (OutboxPublisher.publishPending p now send o) := by
  rw [OutboxPublisher.publishPending_eq h.keyed]
  intro e' he' hpublished
  obtain ⟨e, he, rfl⟩ := List.mem_map.mp he'
  dsimp only at hpublished ⊢
  by_cases hbatch : e ∈ OutboxPublisher.batch p o
  · rw [if_pos hbatch] at hpublished ⊢
    have hkey := @OutboxPublisher.publishSingle_key p now (send e.id) e
    rw [OutboxRow.key, OutboxRow.key] at hkey
    rw [hkey]
    refine Or.inl (List.mem_append_right _ ((mem_handed henabled).mpr ⟨e, hbatch, rfl, ?_⟩))
    exact (rowState_publishSingle henabled now _ (OutboxPublisher.mem_of_mem_batch hbatch).2
      (h.batch_attempts hbatch)).2.mp hpublished
  · rw [if_neg hbatch] at hpublished ⊢
    exact (hcarried e he hpublished).imp_left (List.mem_append_left _)

end Tick

/-! ### Futures -/

theorem Consistent.complete (h : Consistent p o) (id : UUID) (accepted : Bool) :
    Consistent p (o.complete id accepted) := by
  rw [Outbox.complete]
  by_cases hid : id ∈ o.inFlight
  · rw [if_pos hid]
    have honce := h.once
    rw [List.nodup_append] at honce
    refine ⟨h.keyed, h.ids_lt, h.state, fun id' hid' ↦ h.sent id' ?_, ?_⟩
    · rcases hid' with hid' | hid'
      · exact Or.inl (List.mem_of_mem_erase hid')
      · dsimp only at hid'
        split at hid'
        · rcases List.mem_append.mp hid' with hid' | hid'
          · exact Or.inr hid'
          · rw [List.mem_singleton.mp hid']
            exact Or.inl hid
        · exact Or.inr hid'
    · rw [List.nodup_append]
      refine ⟨honce.1.erase id, ?_, ?_⟩
      · split
        · rw [List.nodup_append]
          refine ⟨honce.2.1, List.nodup_singleton id, ?_⟩
          rintro a ha b hb rfl
          rw [List.mem_singleton.mp hb] at ha
          exact honce.2.2 id hid id ha rfl
        · exact honce.2.1
      · rintro a ha b hb rfl
        obtain ⟨hne, hflight⟩ := honce.1.mem_erase_iff.mp ha
        split at hb
        · rcases List.mem_append.mp hb with hb | hb
          · exact honce.2.2 a hflight a hb rfl
          · exact hne (List.mem_singleton.mp hb)
        · exact honce.2.2 a hflight a hb rfl
  · rw [if_neg hid]
    exact h

/-- A row stays carried exactly when its future does not complete exceptionally. -/
theorem carried_complete_iff (h : Consistent p o) (hcarried : Carried o) {id : UUID}
    {accepted : Bool} :
    Carried (o.complete id accepted) ↔ ¬ (id ∈ o.inFlight ∧ accepted = false) := by
  rw [Outbox.complete]
  by_cases hid : id ∈ o.inFlight
  · rw [if_pos hid]
    have honce := h.once
    rw [List.nodup_append] at honce
    constructor
    · rintro hlater ⟨-, rfl⟩
      obtain ⟨e, he, rfl, hpublished⟩ := h.sent id (Or.inl hid)
      rcases hlater e he hpublished with hflight | haccepted
      · exact (honce.1.mem_erase_iff.mp hflight).1 rfl
      · exact honce.2.2 e.id hid e.id haccepted rfl
    · intro haccepted e he hpublished
      have htrue : accepted = true := by simpa [hid] using haccepted
      dsimp only
      rw [if_pos htrue, List.mem_append, List.mem_singleton, honce.1.mem_erase_iff]
      by_cases heid : e.id = id
      · exact Or.inr (Or.inr heid)
      · rcases hcarried e he hpublished with hflight | hdone
        · exact Or.inl ⟨heid, hflight⟩
        · exact Or.inr (Or.inl hdone)
  · rw [if_neg hid]
    exact iff_of_true hcarried fun hand ↦ hid hand.1

end Invariant

/-! ## Runs of the outbox -/

theorem Consistent.step {p : OutboxProperties} (hmax : 1 ≤ p.maxAttempts)
    (henabled : p.publisherEnabled = true) {o o' : Outbox} {operation : OutboxOperation}
    (h : Consistent p o) (hstep : outboxStep p operation o = .ok o') : Consistent p o' := by
  cases operation with
  | enqueue now aggregateType aggregateId eventType topic messageKey payload =>
    obtain rfl := Except.ok.inj hstep
    obtain ⟨e, hid, hpending, hattempts, heq⟩ :=
      enqueue_rows h now aggregateType aggregateId eventType topic messageKey payload
    rw [heq]
    exact h.enqueue hmax hid hpending hattempts
  | publishPending now send =>
    obtain rfl := Except.ok.inj hstep
    exact h.publishPending henabled
  | complete id accepted =>
    obtain rfl := Except.ok.inj hstep
    exact h.complete id accepted

theorem carried_step_iff {p : OutboxProperties} (henabled : p.publisherEnabled = true)
    {o o' : Outbox} {operation : OutboxOperation} (h : Consistent p o) (hcarried : Carried o)
    (hstep : outboxStep p operation o = .ok o') : ¬ RejectsLater o operation ↔ Carried o' := by
  cases operation with
  | enqueue now aggregateType aggregateId eventType topic messageKey payload =>
    obtain rfl := Except.ok.inj hstep
    obtain ⟨e, hid, hpending, hattempts, heq⟩ :=
      enqueue_rows h now aggregateType aggregateId eventType topic messageKey payload
    rw [heq]
    exact iff_of_true id (carried_enqueue hpending _ hcarried)
  | publishPending now send =>
    obtain rfl := Except.ok.inj hstep
    exact iff_of_true id (carried_publishPending h henabled hcarried)
  | complete id accepted =>
    obtain rfl := Except.ok.inj hstep
    exact (carried_complete_iff h hcarried).symm

/-- **Delivery.** Throughout a run the outbox delivers exactly when no future of a send completes
exceptionally. -/
theorem delivers_throughout_iff {p : OutboxProperties} (henabled : p.publisherEnabled = true)
    (hmax : 1 ≤ p.maxAttempts) (operations : List OutboxOperation) :
    (∀ past, past <+: operations → OutboxDelivers p (outboxHistory p past)) ↔
      Along (outboxStep p) (fun o operation ↦ ¬ RejectsLater o operation) .empty operations := by
  have hconsistent : ∀ past, Consistent p (outboxHistory p past) := fun past ↦
    replay_invariant' (fun _ _ _ h hstep ↦ h.step hmax henabled hstep) past (consistent_empty p)
  rw [← always_iff (J := Consistent p) (I := Carried) (fun _ _ _ h hstep ↦
    h.step hmax henabled hstep) (fun _ _ _ h hcarried hstep ↦
    carried_step_iff henabled h hcarried hstep) ?_ (consistent_empty p)
    (by simp [Carried, Outbox.empty])]
  · exact forall₂_congr fun past _ ↦ (hconsistent past).delivers_iff
  · intro o operation e herror
    cases operation with
    | enqueue now aggregateType aggregateId eventType topic messageKey payload => cases herror
    | publishPending now send => cases herror
    | complete id accepted => cases herror

namespace Small

/-- The publisher of `application.yml`. -/
def outboxProperties : OutboxProperties := ⟨true, 100, 10⟩

/-- A cancellation is enqueued and sent; then its future completes. -/
def cancellation (accepted : Bool) : List OutboxOperation :=
  [.enqueue 0 "job_execution" 1 "job.cancel" "jobs.cancel" 1
      (.cancel ⟨1, 5, 6, 7, 1, "user_requested", some 8, 30, 0⟩),
    .publishPending 1 fun _ ↦ .future, .complete 0 accepted]

end Small

/-- The outbox delivers at the end of a run without rejections. -/
theorem delivers_cancellation : OutboxDelivers Small.outboxProperties
    (outboxHistory Small.outboxProperties (Small.cancellation true)) :=
  (delivers_throughout_iff (by decide) (by decide) (Small.cancellation true)).mpr
    (by decide +kernel) _ List.prefix_rfl

/-- A row is published although the broker has refused its message. -/
theorem published_not_accepted : ¬ OutboxDelivers Small.outboxProperties
    (outboxHistory Small.outboxProperties (Small.cancellation false)) := by
  intro h
  have hlost : ∃ e ∈ (outboxHistory Small.outboxProperties (Small.cancellation false)).rows,
      e.status = "published" ∧
      e.id ∉ (outboxHistory Small.outboxProperties (Small.cancellation false)).inFlight ∧
      e.id ∉ (outboxHistory Small.outboxProperties (Small.cancellation false)).accepted := by
    decide +kernel
  obtain ⟨e, he, hpublished, hflight, haccepted⟩ := hlost
  exact haccepted (h.published e he hpublished hflight)

end FuzzingCiCd.Master
