import FuzzingCiCd.Foundation.Numerals
import FuzzingCiCd.Foundation.Reading
import FuzzingCiCd.Master.EventCursor
import FuzzingCiCd.Master.EventRefinement

/-!
# The events of a run, page by page

`PipelineRunService.listRunEvents` returns the executions of a run from the newest to the oldest
and, where there are more than fit the page, a cursor made of the time and the id of the last one.
The time is kept in milliseconds and the executions are compared in microseconds, so the cursor
may lie before executions that have not been returned.

No reading returns an execution twice, and every reading ends. It is complete exactly when at each
end of a page the next execution is older than the cursor: `listRunEvents_complete_iff`.

The id of an execution is a number here; its text is that number, and the order of ids is that of
the numbers.

## Main results

* `parseEventCursor_encode`: a cursor is read back.
* `pairwise_sortedEvents`: the order of the executions.
* `behind_encode_eq_iff`: when a cursor loses nothing.
* `eventsAnswer_cases`: what an answer consists of.
-/

namespace FuzzingCiCd.Master

open Transition Reading

namespace PipelineRunService

open OpenSearchExecutorEventPoller (toEpochMilli ofEpochMilli)

/-! ## Cursors -/

/-- The place of an execution in the order of the events. -/
structure EventCursor where
  updatedAt : Instant
  executionId : UUID

/-- The answer to a request for the events of a run. -/
structure RunEventsPage where
  items : List JobExecutionEntity
  nextCursor : Option String

/-- The time of the last update, which every row has. -/
def sortTimestamp (execution : JobExecutionEntity) : Instant := execution.updatedAt

def normalizePageSize (limit : Option ℤ) : ℕ :=
  match limit with
  | none => 100
  | some limit => if limit ≤ 0 then 100 else min limit.toNat 500

def isOlderThanCursor (execution : JobExecutionEntity) (cursor : Option EventCursor) : Bool :=
  match cursor with
  | none => true
  | some cursor =>
    let timestamp := sortTimestamp execution
    if timestamp < cursor.updatedAt then true
    else if timestamp > cursor.updatedAt then false
    else execution.id < cursor.executionId

def invalidCursor : ServiceException :=
  .api .badRequest "invalid_cursor" "Cursor has invalid format"

def parseEventCursor (cursor : Option String) : Except ServiceException (Option EventCursor) :=
  match cursor with
  | none => .ok none
  | some cursor =>
    if JavaText.isBlank cursor then .ok none
    else match JavaText.split '|' cursor.toList with
      | [epochMillis, executionId] =>
        match JavaText.parseLong epochMillis, JavaText.parseDigits executionId with
        | some epochMillis, some executionId =>
          .ok (some ⟨ofEpochMilli epochMillis, executionId⟩)
        | _, _ => .error invalidCursor
      | _ => .error invalidCursor

def encodeEventCursor (execution : JobExecutionEntity) : String :=
  .ofList (JavaText.longText (toEpochMilli (sortTimestamp execution)) ++
    '|' :: Nat.toDigits 10 execution.id)

/-- Newest first, and of those with one time the greatest id first. -/
def eventKey (execution : JobExecutionEntity) : ℤ ×ₗ ℕ :=
  toLex (sortTimestamp execution, execution.id)

def newestFirst (executions : List JobExecutionEntity) : List JobExecutionEntity :=
  executions.insertionSort fun a b ↦ eventKey b ≤ eventKey a

def listRunEvents (runId : UUID) (cursor : Option String) (limit : Option ℤ) (db : Db) :
    Except ServiceException RunEventsPage := do
  let _ ← orNotFound "run_not_found" "Pipeline run not found" (db.findRun runId)
  let eventCursor ← parseEventCursor cursor
  let pageSize := normalizePageSize limit
  let sorted := (newestFirst (db.findByPipelineRunId runId)).filter fun execution ↦
    isOlderThanCursor execution eventCursor
  let window := sorted.take (pageSize + 1)
  let hasMore := window.length > pageSize
  let items := if hasMore then window.take pageSize else window
  return {
    items := items
    nextCursor := if hasMore then items.getLast?.map encodeEventCursor else none }

/-! ### What a cursor says -/

/-- The cursor of an execution, read back. -/
def cursorOf (execution : JobExecutionEntity) : EventCursor :=
  ⟨ofEpochMilli (toEpochMilli (sortTimestamp execution)), execution.id⟩

def EventCursor.key (cursor : EventCursor) : ℤ ×ₗ ℕ :=
  toLex (cursor.updatedAt, cursor.executionId)

section Cursors

variable {e : JobExecutionEntity} {cursor : EventCursor}

theorem isOlderThanCursor_iff :
    isOlderThanCursor e (some cursor) = true ↔ eventKey e < cursor.key := by
  rw [isOlderThanCursor, eventKey, EventCursor.key, Prod.Lex.toLex_lt_toLex]
  dsimp only
  split
  · rename_i hlt
    simp [hlt]
  · rename_i hnot
    split
    · rename_i hgt
      simp [hnot, hgt.ne']
    · rename_i hgt
      simp [le_antisymm (not_lt.mp hgt) (not_lt.mp hnot)]

theorem key_cursorOf_le (e : JobExecutionEntity) : (cursorOf e).key ≤ eventKey e := by
  rw [EventCursor.key, eventKey, Prod.Lex.toLex_le_toLex]
  have htrunc : ofEpochMilli (toEpochMilli (sortTimestamp e)) ≤ sortTimestamp e :=
    Int.ediv_mul_le _ (by decide)
  rcases htrunc.lt_or_eq with hlt | heq
  · exact Or.inl hlt
  · exact Or.inr ⟨heq, le_rfl⟩

/-- **The codec.** A cursor is read back if its time has the size of a `long`. -/
theorem parseEventCursor_encode (e : JobExecutionEntity) :
    parseEventCursor (some (encodeEventCursor e)) =
      if JavaText.IsLong (toEpochMilli (sortTimestamp e)) then .ok (some (cursorOf e))
      else .error invalidCursor := by
  have hblank : JavaText.isBlank (encodeEventCursor e) = false := by
    rw [JavaText.isBlank, encodeEventCursor, String.toList_ofList, List.all_append, List.all_cons]
    simp [JavaText.isWhitespace]
  have hsplit : JavaText.split '|' (encodeEventCursor e).toList =
      [JavaText.longText (toEpochMilli (sortTimestamp e)), Nat.toDigits 10 e.id] := by
    rw [encodeEventCursor, String.toList_ofList]
    refine JavaText.split_pair (JavaText.not_mem_longText (by decide) (by decide) _) ?_
      Nat.toDigits_ne_nil
    intro hmem
    cases JavaText.isDigit_of_mem hmem
  rw [parseEventCursor, hblank, if_neg Bool.false_ne_true, hsplit]
  dsimp only
  rw [JavaText.parseLong_longText, JavaText.parseDigits_toDigits]
  by_cases hlong : JavaText.IsLong (toEpochMilli (sortTimestamp e))
  · rw [if_pos hlong, if_pos hlong]
    rfl
  · rw [if_neg hlong, if_neg hlong]

end Cursors

/-! ## Readings -/

/-- What a reader sees of an answer. -/
def eventsAnswer (runId : UUID) (limit : Option ℤ) (db : Db) (cursor : Option String) :
    Except ServiceException (List JobExecutionEntity × Option String) :=
  (listRunEvents runId cursor limit db).map fun page ↦ (page.items, page.nextCursor)

/-- Following the cursors from the start ends and returns every execution of the run once, the
newest first. -/
def ReturnsEverything (runId : UUID) (limit : Option ℤ) (db : Db) : Prop :=
  ∃ items, Reads (eventsAnswer runId limit db) none items ∧
    items.Perm (db.findByPipelineRunId runId) ∧ items.Pairwise fun a b ↦ eventKey b < eventKey a

/-- The cursor made from one execution lies after the next one. -/
def TellsApart (last next : JobExecutionEntity) : Prop :=
  let millis := toEpochMilli (sortTimestamp last)
  JavaText.IsLong millis ∧ (sortTimestamp next < ofEpochMilli millis ∨
    sortTimestamp next = ofEpochMilli millis ∧ next.id < last.id)

theorem tellsApart_iff {last next : JobExecutionEntity} :
    TellsApart last next ↔ JavaText.IsLong (toEpochMilli (sortTimestamp last)) ∧
      eventKey next < (cursorOf last).key := by
  rw [TellsApart, eventKey, EventCursor.key, Prod.Lex.toLex_lt_toLex]
  rfl

theorem normalizePageSize_pos (limit : Option ℤ) : 0 < normalizePageSize limit := by
  rcases limit with _ | limit
  · decide
  · rw [normalizePageSize]
    split
    · decide
    · rename_i hpos
      rw [lt_min_iff]
      omega

/-! ### One page

The executions of a run, sorted by their keys, are one list, and every answer is a piece of it:
the rest behind the cursor, or a page and a cursor for its last execution. A cursor has the time
in milliseconds and so says less than the key it was made from: what lies behind it can begin
later than behind the execution, and paging is complete exactly if it does so at no end of a
page. -/

section Pages

variable {runId : UUID} {limit : Option ℤ} {db : Db}

/-- The executions of the run, the newest first. -/
def sortedEvents (runId : UUID) (db : Db) : List JobExecutionEntity :=
  newestFirst (db.findByPipelineRunId runId)

/-- What lies behind a cursor. -/
def behind (runId : UUID) (db : Db) (cursor : Option String) : List JobExecutionEntity :=
  match parseEventCursor cursor with
  | .ok eventCursor => (sortedEvents runId db).filter fun e ↦ isOlderThanCursor e eventCursor
  | .error _ => []

theorem eventsAnswer_error {error : ServiceException} {cursor : Option String}
    (hcursor : parseEventCursor cursor = .error error) :
    ∀ r, eventsAnswer runId limit db cursor ≠ .ok r := by
  intro r
  rw [eventsAnswer, listRunEvents]
  rcases orNotFound "run_not_found" "Pipeline run not found" (db.findRun runId) with e | run
  · exact fun h ↦ by cases h
  · rw [ok_bind, hcursor]
    exact fun h ↦ by cases h

theorem eventsAnswer_last {run : PipelineRunEntity} (hrun : db.findRun runId = some run)
    {cursor : Option String} {eventCursor : Option EventCursor}
    (hcursor : parseEventCursor cursor = .ok eventCursor)
    (hle : (behind runId db cursor).length ≤ normalizePageSize limit) :
    eventsAnswer runId limit db cursor = .ok (behind runId db cursor, none) := by
  rw [behind, hcursor] at hle ⊢
  dsimp only at hle ⊢
  rw [sortedEvents] at hle ⊢
  rw [eventsAnswer, listRunEvents, hrun, orNotFound, ok_bind, hcursor, ok_bind]
  dsimp only
  rw [List.take_of_length_le (hle.trans (Nat.le_succ _)), if_neg (by simpa using hle),
    if_neg (by simpa using hle)]
  rfl

theorem eventsAnswer_next {run : PipelineRunEntity} (hrun : db.findRun runId = some run)
    {cursor : Option String} {eventCursor : Option EventCursor}
    (hcursor : parseEventCursor cursor = .ok eventCursor)
    {page tail : List JobExecutionEntity} {last next : JobExecutionEntity}
    (hpage : (page ++ [last]).length = normalizePageSize limit)
    (hbehind : behind runId db cursor = page ++ [last] ++ next :: tail) :
    eventsAnswer runId limit db cursor =
      .ok (page ++ [last], some (encodeEventCursor last)) := by
  rw [behind, hcursor] at hbehind
  dsimp only at hbehind
  rw [sortedEvents] at hbehind
  rw [eventsAnswer, listRunEvents, hrun, orNotFound, ok_bind, hcursor, ok_bind]
  dsimp only
  have hwindow : (page ++ [last] ++ next :: tail).take (normalizePageSize limit + 1) =
      page ++ [last] ++ [next] := by
    rw [← hpage, List.take_append, List.take_of_length_le (Nat.le_succ _),
      Nat.add_sub_cancel_left]
    rfl
  have hmore : (page ++ [last] ++ [next]).length > normalizePageSize limit := by
    rw [List.length_append, hpage]
    exact Nat.lt_succ_self _
  rw [hbehind, hwindow, if_pos hmore, if_pos hmore, ← hpage, List.take_left' rfl,
    List.getLast?_concat]
  rfl

/-- **The order.** The executions of a run, the newest first, have descending keys. -/
theorem pairwise_sortedEvents (hs : Sound db) :
    (sortedEvents runId db).Pairwise fun a b ↦ eventKey b < eventKey a := by
  have : Std.Total (fun a b : JobExecutionEntity ↦ eventKey b ≤ eventKey a) :=
    ⟨fun a b ↦ le_total (eventKey b) (eventKey a)⟩
  have : IsTrans JobExecutionEntity (fun a b ↦ eventKey b ≤ eventKey a) :=
    ⟨fun _ _ _ hab hbc ↦ le_trans hbc hab⟩
  have hle := List.pairwise_insertionSort (fun a b : JobExecutionEntity ↦ eventKey b ≤ eventKey a)
    (db.findByPipelineRunId runId)
  have hids : (sortedEvents runId db).Pairwise fun a b ↦ a.id ≠ b.id := by
    have hkeyed : Table.Keyed JobExecutionEntity.id (db.findByPipelineRunId runId) :=
      hs.executions_keyed.filter _
    exact List.pairwise_map.mp
      (((List.perm_insertionSort _ _).map JobExecutionEntity.id).nodup_iff.mpr hkeyed)
  refine (hle.and hids).imp fun {a b} hab ↦ lt_of_le_of_ne hab.1 fun heq ↦ hab.2 ?_
  exact (Prod.mk.inj (toLex_inj.mp heq)).2.symm

/-- Behind the cursor of an execution lies some of what comes after the execution. -/
theorem behind_encode (hs : Sound db) {before after : List JobExecutionEntity}
    {last : JobExecutionEntity} (hsorted : sortedEvents runId db = before ++ last :: after) :
    behind runId db (some (encodeEventCursor last)) =
      if JavaText.IsLong (toEpochMilli (sortTimestamp last)) then
        after.filter fun e ↦ eventKey e < (cursorOf last).key
      else [] := by
  rw [behind, parseEventCursor_encode]
  by_cases hlong : JavaText.IsLong (toEpochMilli (sortTimestamp last))
  · rw [if_pos hlong, if_pos hlong]
    dsimp only
    have hdescending := @pairwise_sortedEvents runId _ hs
    rw [hsorted, List.pairwise_append, List.pairwise_cons] at hdescending
    obtain ⟨-, ⟨-, -⟩, hbefore⟩ := hdescending
    have hnot : ∀ e ∈ before ++ [last], isOlderThanCursor e (some (cursorOf last)) = false := by
      intro e he
      rw [Bool.eq_false_iff, Ne, isOlderThanCursor_iff, not_lt]
      rcases List.mem_append.mp he with he | he
      · exact (key_cursorOf_le last).trans (hbefore e he last List.mem_cons_self).le
      · rw [List.mem_singleton.mp he]
        exact key_cursorOf_le last
    rw [hsorted, ← List.singleton_append, ← List.append_assoc, List.filter_append,
      List.filter_eq_nil_iff.mpr fun e he ↦ by simp [hnot e he], List.nil_append]
    refine List.filter_congr fun e _ ↦ ?_
    rw [Bool.eq_iff_iff, isOlderThanCursor_iff, decide_eq_true_iff]
  · rw [if_neg hlong, if_neg hlong]

/-- **The cursor loses nothing** exactly when the next execution is older. -/
theorem behind_encode_eq_iff (hs : Sound db) {before tail : List JobExecutionEntity}
    {last next : JobExecutionEntity}
    (hsorted : sortedEvents runId db = before ++ last :: next :: tail) :
    behind runId db (some (encodeEventCursor last)) = next :: tail ↔ TellsApart last next := by
  rw [behind_encode hs hsorted, tellsApart_iff]
  have hdescending := @pairwise_sortedEvents runId _ hs
  rw [hsorted, List.pairwise_append, List.pairwise_cons, List.pairwise_cons] at hdescending
  obtain ⟨-, ⟨-, hnext, -⟩, -⟩ := hdescending
  by_cases hlong : JavaText.IsLong (toEpochMilli (sortTimestamp last))
  · rw [if_pos hlong, and_iff_right hlong, List.filter_eq_self, List.forall_mem_cons]
    constructor
    · exact fun h ↦ of_decide_eq_true h.1
    · intro h
      exact ⟨decide_eq_true h, fun e he ↦ decide_eq_true ((hnext e he).trans h)⟩
  · rw [if_neg hlong]
    exact iff_of_false (List.cons_ne_nil _ _).symm fun h ↦ hlong h.1

/-- What lies behind a cursor are the oldest executions. -/
theorem behind_suffix (hs : Sound db) (cursor : Option String) :
    behind runId db cursor <:+ sortedEvents runId db := by
  rw [behind]
  rcases parseEventCursor cursor with error | eventCursor
  · exact List.nil_suffix
  refine filter_suffix ((pairwise_sortedEvents hs).imp fun {a b} hab ha ↦ ?_)
  rcases eventCursor with _ | eventCursor
  · rfl
  · rw [isOlderThanCursor_iff] at ha ⊢
    exact hab.trans ha

/-- **One answer.** It is the rest, or a page and the cursor of its last execution. -/
theorem eventsAnswer_cases (hs : Sound db) {run : PipelineRunEntity}
    (hrun : db.findRun runId = some run) (limit : Option ℤ) {cursor : Option String}
    {eventCursor : Option EventCursor} (hcursor : parseEventCursor cursor = .ok eventCursor) :
    (behind runId db cursor).length ≤ normalizePageSize limit ∧
        eventsAnswer runId limit db cursor = .ok (behind runId db cursor, none) ∨
      ∃ page last next tail, (page ++ [last]).length = normalizePageSize limit ∧
        behind runId db cursor = page ++ [last] ++ next :: tail ∧
        (∃ before, sortedEvents runId db = before ++ last :: next :: tail) ∧
        eventsAnswer runId limit db cursor =
          .ok (page ++ [last], some (encodeEventCursor last)) := by
  rcases Nat.lt_or_ge (normalizePageSize limit) (behind runId db cursor).length with hlt | hle
  · obtain ⟨page, last, next, tail, hpage, hbehind⟩ :=
      exists_pageEnd (normalizePageSize_pos limit) hlt
    obtain ⟨before, hbefore⟩ := @behind_suffix runId _ hs cursor
    refine Or.inr ⟨page, last, next, tail, hpage, hbehind, ⟨before ++ page, ?_⟩,
      eventsAnswer_next hrun hcursor hpage hbehind⟩
    rw [← hbefore, hbehind]
    simp
  · exact Or.inl ⟨hle, eventsAnswer_last hrun hcursor hle⟩

theorem page_sublist (hs : Sound db) {before tail : List JobExecutionEntity}
    {last next : JobExecutionEntity}
    (hsorted : sortedEvents runId db = before ++ last :: next :: tail)
    (page : List JobExecutionEntity) :
    (page ++ [last] ++ behind runId db (some (encodeEventCursor last))).Sublist
      (page ++ [last] ++ next :: tail) := by
  refine List.Sublist.append_left ?_ _
  rw [behind_encode hs hsorted]
  split
  · exact List.filter_sublist
  · exact List.nil_sublist _

theorem reads_sublist (hs : Sound db) {run : PipelineRunEntity}
    (hrun : db.findRun runId = some run) {cursor : Option String} {items : List JobExecutionEntity}
    (h : Reads (eventsAnswer runId limit db) cursor items) :
    items.Sublist (behind runId db cursor) := by
  refine @Reads.sublist _ _ _ _ _ _ _ (fun cursor all ↦ all = behind runId db cursor) ?_ ?_ h rfl
  · rintro cursor items _ rfl hanswer
    rcases hcursor : parseEventCursor cursor with error | eventCursor
    · exact absurd hanswer (eventsAnswer_error hcursor _)
    rcases eventsAnswer_cases hs hrun limit hcursor with ⟨-, hlast⟩ | ⟨_, _, _, _, -, -, -, hnext⟩
    · rw [(Prod.mk.inj (Except.ok.inj (hlast.symm.trans hanswer))).1]
    · cases (Prod.mk.inj (Except.ok.inj (hnext.symm.trans hanswer))).2
  · rintro cursor items following _ rfl hanswer
    rcases hcursor : parseEventCursor cursor with error | eventCursor
    · exact absurd hanswer (eventsAnswer_error hcursor _)
    rcases eventsAnswer_cases hs hrun limit hcursor with
      ⟨-, hlast⟩ | ⟨page, last, next, tail, -, hbehind, ⟨before, hsorted⟩, hnext⟩
    · cases (Prod.mk.inj (Except.ok.inj (hlast.symm.trans hanswer))).2
    obtain ⟨rfl, hfollowing⟩ := Prod.mk.inj (Except.ok.inj (hnext.symm.trans hanswer))
    obtain rfl := Option.some.inj hfollowing
    exact ⟨_, rfl, hbehind ▸ page_sublist hs hsorted page⟩

/-- **From any cursor on**, everything that lies behind it is returned exactly when the ends of its
pages are told apart. -/
theorem reads_behind_iff (hs : Sound db) {run : PipelineRunEntity}
    (hrun : db.findRun runId = some run) {cursor : Option String}
    {eventCursor : Option EventCursor} (hcursor : parseEventCursor cursor = .ok eventCursor) :
    Reads (eventsAnswer runId limit db) cursor (behind runId db cursor) ↔
      PageEnds TellsApart (normalizePageSize limit) (behind runId db cursor) := by
  induction hlength : (behind runId db cursor).length using Nat.strong_induction_on
    generalizing cursor eventCursor with
  | _ length ih =>
    rcases eventsAnswer_cases hs hrun limit hcursor with
      ⟨hle, hlast⟩ | ⟨page, last, next, tail, hpage, hbehind, ⟨before, hsorted⟩, hnext⟩
    · exact iff_of_true (.last hlast) (pageEnds_of_le hle)
    rw [hbehind, reads_next_iff hnext (page_sublist hs hsorted page)
      fun out hout ↦ reads_sublist hs hrun hout, pageEnds_append hpage,
      List.append_cancel_left_eq, behind_encode_eq_iff hs hsorted]
    refine and_congr_right fun hapart ↦ ?_
    have hlater := (behind_encode_eq_iff hs hsorted).mpr hapart
    have hparse : parseEventCursor (some (encodeEventCursor last)) =
        .ok (some (cursorOf last)) := by
      rw [parseEventCursor_encode, if_pos hapart.1]
    rw [← hlater]
    refine ih _ ?_ hparse rfl
    rw [hlater, ← hlength, hbehind, List.length_append, hpage]
    have := normalizePageSize_pos limit
    omega

/-- What the property asks for is a reading of the sorted executions. -/
theorem returnsEverything_iff_reads (hs : Sound db) :
    ReturnsEverything runId limit db ↔
      Reads (eventsAnswer runId limit db) none (sortedEvents runId db) := by
  constructor
  · rintro ⟨items, hreads, hperm, hpairwise⟩
    have hsorted : items = sortedEvents runId db := by
      refine List.Perm.eq_of_pairwise (fun a b _ _ hab hba ↦ absurd hab hba.asymm) hpairwise
        (pairwise_sortedEvents hs) ?_
      exact hperm.trans (List.perm_insertionSort _ _).symm
    rwa [hsorted] at hreads
  · intro hreads
    exact ⟨sortedEvents runId db, hreads, List.perm_insertionSort _ _, pairwise_sortedEvents hs⟩

theorem reads_sorted_iff (hs : Sound db) {run : PipelineRunEntity}
    (hrun : db.findRun runId = some run) :
    Reads (eventsAnswer runId limit db) none (sortedEvents runId db) ↔
      PageEnds TellsApart (normalizePageSize limit) (sortedEvents runId db) := by
  have hbehind : behind runId db none = sortedEvents runId db := by
    rw [behind, parseEventCursor]
    exact List.filter_eq_self.mpr fun _ _ ↦ rfl
  have hcursor : parseEventCursor none = .ok none := rfl
  rw [← hbehind]
  exact reads_behind_iff hs hrun hcursor

/-- **Paging is complete** exactly when every cursor tells the last execution of its page from the
next one. -/
theorem listRunEvents_complete_iff (hs : Sound db) {run : PipelineRunEntity}
    (hrun : db.findRun runId = some run) (limit : Option ℤ) :
    ReturnsEverything runId limit db ↔
      PageEnds TellsApart (normalizePageSize limit) (sortedEvents runId db) :=
  (returnsEverything_iff_reads hs).trans (reads_sorted_iff hs hrun)

end Pages

/-! ## Executions of one millisecond

The two jobs of a parallel stage report within a millisecond and are read one by one. -/

/-- Two reports, at 1500 and at 1200 microseconds. -/
def parallel : Db :=
  history Small.twins
    [Small.call (.createRun 0 none),
      ⟨⟨1200, none⟩, .executorEvent Small.results (Small.message 10 2 .running)⟩,
      ⟨⟨1500, none⟩, .executorEvent Small.results (Small.message 11 5 .running)⟩]

theorem findRun_parallel : ∃ run, parallel.findRun 0 = some run :=
  Option.isSome_iff_exists.mp (by decide +kernel)

theorem complete_parallel_iff :
    ReturnsEverything 0 (some 2) parallel ↔
      PageEnds TellsApart (normalizePageSize (some 2)) (sortedEvents 0 parallel) := by
  obtain ⟨run, hrun⟩ := findRun_parallel
  exact listRunEvents_complete_iff (sound_history _ _) hrun (some 2)

instance (last next : JobExecutionEntity) : Decidable (TellsApart last next) :=
  inferInstanceAs (Decidable (_ ∧ _))

theorem not_complete : ¬ ReturnsEverything 0 (some 1) parallel := by
  obtain ⟨run, hrun⟩ := findRun_parallel
  have hs : Sound parallel := sound_history _ _
  rw [returnsEverything_iff_reads hs, reads_sorted_iff hs hrun]
  intro h
  have hbad : ∃ last ∈ (sortedEvents 0 parallel)[0]?, ∃ next ∈ (sortedEvents 0 parallel)[1]?,
      ¬ TellsApart last next := by
    decide +kernel
  obtain ⟨last, hlast, next, hnext, hnot⟩ := hbad
  exact hnot (h 1 Nat.one_pos last hlast next hnext)

end PipelineRunService

end FuzzingCiCd.Master
