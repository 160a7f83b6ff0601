import FuzzingCiCd.Foundation.Base64
import FuzzingCiCd.Foundation.Pages
import FuzzingCiCd.Foundation.Reading
import FuzzingCiCd.Foundation.Text
import FuzzingCiCd.Foundation.Transition
import FuzzingCiCd.Master.EventCursor

/-!
# The log history

`OpenSearchHistoryLogService.loadLogs` reads the `JOB_LOG` documents of an execution page by page,
oldest first, or the last of them with `tail`. A page counts documents and a document without a text
is no line. The cursor is the position of the last line that was put into the answer, so that a page
without lines has none, and in a tail, which is searched from the end and turned round, it is the
position of the oldest line.

The search is that of the index: the documents that match, in the order of their sort values, and
with `search_after` those strictly after the given ones. What Jackson writes and reads is a
parameter.

## Main results

* `loadLogs_complete_iff`: following the cursors returns every line exactly when every gap of
  documents without a text is shorter than a page, and the cursor of a tail leads to no line of it
  exactly when the tail has at most one.
-/

namespace FuzzingCiCd.Master

open Reading Transition

namespace OpenSearchHistoryLogService

open OpenSearchExecutorEventPoller (SortKey sortValues sortKey?)

/-! ## Documents -/

/-- A document of the index, and what a hit shows of it. -/
structure ExecutorEventDocument where
  /-- The `_id` of the document and its field `documentId`. -/
  documentId : String
  /-- `ingestedAt` as it is sorted by, in milliseconds. -/
  ingestedAtMillis : ℤ
  /-- The text of `parseOffsetDateTime(ingestedAt)`. -/
  ingestedAt : Option String
  eventType : String
  jobExecutionId : UUID
  logs : Option String
  deriving DecidableEq

def ExecutorEventDocument.key (d : ExecutorEventDocument) : SortKey :=
  toLex (d.ingestedAtMillis, d.documentId)

/-- The `sort` of a hit. -/
def ExecutorEventDocument.sort (d : ExecutorEventDocument) : List Json := sortValues d.key

def ExecutorEventDocument.hasText (d : ExecutorEventDocument) : Bool := d.logs.isSome

/-- An index has one document of an id. -/
structure Index where
  documents : List ExecutorEventDocument
  ids : (documents.map ExecutorEventDocument.documentId).Nodup

/-! ## Cursors -/

/-- The exceptions of a request, with the texts of those that are thrown here. -/
inductive LoadException where
  | illegalArgument (message : String)
  | nullPointer
  /-- The index has refused the search. -/
  | restClient
  deriving DecidableEq

/-- Jackson, as the codec calls it; `none` is an exception. -/
structure ObjectMapper where
  writeValueAsBytes : List Json → Option (List UInt8)
  /-- A value that is read as a list is an array, or `null`. -/
  readValue : List UInt8 → Option (Option (List Json))

namespace SearchAfterCursorCodec

variable (mapper : ObjectMapper)

def encode (searchAfter : List Json) : Except LoadException String :=
  match mapper.writeValueAsBytes searchAfter with
  | some bytes => .ok (.ofList (Base64.encode bytes))
  | none => .error (.illegalArgument "Cannot encode cursor")

/-- The list, or `null`. -/
def decode (cursor : Option String) : Except LoadException (Option (List Json)) :=
  match cursor with
  | none => .ok (some [])
  | some cursor =>
    if JavaText.isBlank cursor then .ok (some [])
    else match (Base64.decode cursor.toList).bind mapper.readValue with
      | some searchAfter => .ok searchAfter
      | none => .error (.illegalArgument "Invalid cursor")

end SearchAfterCursorCodec

/-! ## Searches -/

/-- The query parameters of a request for logs. -/
structure LogRequest where
  cursor : Option String
  limit : Option ℤ
  tail : Option ℤ
  /-- The times between `from` and `to`, if they are given, in milliseconds. -/
  range : ℤ → Bool

/-- The body of the search that a request for logs becomes. -/
structure SearchBody where
  size : ℕ
  jobExecutionId : UUID
  eventType : String
  range : ℤ → Bool
  descending : Bool
  /-- Empty if there is no `search_after`. -/
  searchAfter : List Json

def normalizeSize (requested : Option ℤ) (fallback : ℕ) : ℕ :=
  match requested with
  | none => fallback
  | some requested => (min (max requested 1) 1000).toNat

def isTailMode (tail : Option ℤ) : Bool := tail.any (0 < ·)

/-- The size of a page of `loadLogs`, of a tail or another one. -/
def pageSize (logsPageSize : ℕ) (limit tail : Option ℤ) : ℕ :=
  match tail with
  | some tail => if 0 < tail then (min tail 1000).toNat else normalizeSize limit logsPageSize
  | none => normalizeSize limit logsPageSize

def buildSearchBody (mapper : ObjectMapper) (jobExecutionId : UUID) (cursor : Option String)
    (size : ℕ) (descending tailMode : Bool) (range : ℤ → Bool) :
    Except LoadException SearchBody := do
  let searchAfter ←
    if tailMode then pure []
    else match ← SearchAfterCursorCodec.decode mapper cursor with
      | some searchAfter => pure searchAfter
      | none => throw .nullPointer
  return {
    size := size
    jobExecutionId := jobExecutionId
    eventType := "JOB_LOG"
    range := range
    descending := descending
    searchAfter := searchAfter }

/-- The documents that match a query. -/
def Index.matching (index : Index) (jobExecutionId : UUID) (eventType : String) (range : ℤ → Bool) :
    List ExecutorEventDocument :=
  index.documents.filter fun d ↦
    d.jobExecutionId = jobExecutionId && d.eventType = eventType && range d.ingestedAtMillis

/-- What the index answers. A search from the end has no `search_after` here. -/
def search (index : Index) (body : SearchBody) :
    Except LoadException (List ExecutorEventDocument) :=
  let found := index.matching body.jobExecutionId body.eventType body.range
  if body.descending then
    .ok ((Pages.sorted ExecutorEventDocument.key found).reverse.take body.size)
  else if body.searchAfter.isEmpty then
    .ok (Pages.page ExecutorEventDocument.key none body.size found)
  else match sortKey? body.searchAfter with
    | some key => .ok (Pages.page ExecutorEventDocument.key (some key) body.size found)
    | none => .error .restClient

/-! ## Pages of lines -/

/-- A line of a log as it is answered. -/
structure LogLine where
  id : String
  message : String
  ts : Option String
  deriving DecidableEq

/-- The answer to a request for logs. -/
structure LogPage where
  items : List LogLine
  nextCursor : Option String

/-- The line of a document with a text. -/
def toLine (d : ExecutorEventDocument) : Option LogLine :=
  d.logs.map fun logs ↦ ⟨d.documentId, logs, d.ingestedAt⟩

/-- The lines and `nextSearchAfter` after a hit. -/
def readHit (read : List LogLine × List Json) (d : ExecutorEventDocument) :
    List LogLine × List Json :=
  match toLine d with
  | none => read
  | some line => (read.1 ++ [line], if d.sort.isEmpty then read.2 else d.sort)

/-- The text of the cursor, if there is one. -/
def encodeNext (mapper : ObjectMapper) (nextSearchAfter : List Json) :
    Except LoadException (Option String) :=
  if nextSearchAfter.isEmpty then .ok none
  else (SearchAfterCursorCodec.encode mapper nextSearchAfter).map some

def loadLogs (logsPageSize : ℕ) (mapper : ObjectMapper) (index : Index) (jobExecutionId : UUID)
    (request : LogRequest) : Except LoadException LogPage := do
  let tailMode := isTailMode request.tail
  let size := pageSize logsPageSize request.limit request.tail
  let body ← buildSearchBody mapper jobExecutionId request.cursor size tailMode tailMode
    request.range
  let hits ← search index body
  let (lines, nextSearchAfter) := hits.foldl readHit ([], [])
  let nextCursor ← encodeNext mapper nextSearchAfter
  return {
    items := if tailMode then lines.reverse else lines
    nextCursor := nextCursor }

/-! ## What an answer consists of -/

/-- The documents that a request without a limit on its pages would show, oldest first. -/
def Index.history (index : Index) (jobExecutionId : UUID) (range : ℤ → Bool) :
    List ExecutorEventDocument :=
  Pages.sorted ExecutorEventDocument.key (index.matching jobExecutionId "JOB_LOG" range)

def lines (documents : List ExecutorEventDocument) : List LogLine := documents.filterMap toLine

/-- The cursor after some hits: the position of the last one with a text. -/
def cursorAfter (mapper : ObjectMapper) (hits : List ExecutorEventDocument) :
    Except LoadException (Option String) :=
  match (hits.filter ExecutorEventDocument.hasText).getLast? with
  | none => .ok none
  | some d => (SearchAfterCursorCodec.encode mapper d.sort).map some

section Answers

variable {mapper : ObjectMapper} {index : Index} {jobExecutionId : UUID} {request : LogRequest}
  {logsPageSize : ℕ} {hits : List ExecutorEventDocument} {d : ExecutorEventDocument}

theorem lines_append (a b : List ExecutorEventDocument) : lines (a ++ b) = lines a ++ lines b :=
  List.filterMap_append

theorem lines_eq_nil_iff : lines hits = [] ↔ ∀ d ∈ hits, d.hasText = false := by
  rw [lines, List.filterMap_eq_nil_iff]
  refine forall₂_congr fun d _ ↦ ?_
  rw [toLine, Option.map_eq_none_iff, ← Option.not_isSome_iff_eq_none, Bool.not_eq_true]
  rfl

theorem toLine_isSome (d : ExecutorEventDocument) : (toLine d).isSome = d.hasText := by
  rw [toLine, Option.isSome_map, ExecutorEventDocument.hasText]

theorem foldl_readHit (hits : List ExecutorEventDocument) :
    hits.foldl readHit ([], []) = (lines hits,
      ((hits.filter ExecutorEventDocument.hasText).getLast?.map
        ExecutorEventDocument.sort).getD []) := by
  induction hits using List.reverseRecOn with
  | nil => rfl
  | append_singleton hits d ih =>
    rw [List.foldl_append, ih, List.foldl_cons, List.foldl_nil, readHit, lines_append,
      List.filter_append]
    rcases hline : toLine d with _ | line
    · have htext : d.hasText = false := by rw [← toLine_isSome, hline]; rfl
      simp [lines, hline, htext]
    · have htext : d.hasText = true := by rw [← toLine_isSome, hline]; rfl
      simp [lines, hline, htext, ExecutorEventDocument.sort, sortValues]

theorem encodeNext_foldl (mapper : ObjectMapper) (hits : List ExecutorEventDocument) :
    encodeNext mapper (hits.foldl readHit ([], [])).2 = cursorAfter mapper hits := by
  rw [foldl_readHit, encodeNext, cursorAfter]
  rcases (hits.filter ExecutorEventDocument.hasText).getLast? with _ | d
  · rfl
  · rw [if_neg (by simp [ExecutorEventDocument.sort, sortValues])]
    rfl

/-- What a reader sees of an answer. -/
def logsAnswer (logsPageSize : ℕ) (mapper : ObjectMapper) (index : Index) (jobExecutionId : UUID)
    (request : LogRequest) : Except LoadException (List LogLine × Option String) :=
  (loadLogs logsPageSize mapper index jobExecutionId request).map fun page ↦
    (page.items, page.nextCursor)

theorem logsAnswer_of_hits {body : SearchBody}
    (hbody : buildSearchBody mapper jobExecutionId request.cursor
      (pageSize logsPageSize request.limit request.tail) (isTailMode request.tail)
      (isTailMode request.tail) request.range = .ok body)
    (hhits : search index body = .ok hits) :
    logsAnswer logsPageSize mapper index jobExecutionId request =
      (cursorAfter mapper hits).map fun nextCursor ↦
        (if isTailMode request.tail then (lines hits).reverse else lines hits, nextCursor) := by
  rw [logsAnswer, loadLogs]
  dsimp only
  rw [hbody, ok_bind, hhits, ok_bind, encodeNext_foldl, foldl_readHit]
  rcases cursorAfter mapper hits with e | nextCursor
  · rfl
  · rfl

/-- **A tail** is the end of the history, whatever the cursor. -/
theorem logsAnswer_tail (htail : isTailMode request.tail = true)
    (hhits : (index.history jobExecutionId request.range).reverse.take
      (pageSize logsPageSize request.limit request.tail) = hits) :
    logsAnswer logsPageSize mapper index jobExecutionId request =
      (cursorAfter mapper hits).map fun nextCursor ↦ ((lines hits).reverse, nextCursor) := by
  rw [@logsAnswer_of_hits _ _ _ _ _ hits _ (by rw [buildSearchBody, htail]; rfl), htail]
  · rfl
  · rw [← hhits]
    rfl

/-- The position that a list of sort values stands for. -/
def Denotes (searchAfter : List Json) (position : Option SortKey) : Prop :=
  searchAfter = [] ∧ position = none ∨
    ∃ key, searchAfter = sortValues key ∧ position = some key

/-- **A page** is one of the history, behind the position of the cursor. -/
theorem logsAnswer_page (hpage : isTailMode request.tail = false) {searchAfter : List Json}
    {position : Option SortKey}
    (hdecode : SearchAfterCursorCodec.decode mapper request.cursor = .ok (some searchAfter))
    (hdenotes : Denotes searchAfter position)
    (hhits : Pages.page ExecutorEventDocument.key position
      (pageSize logsPageSize request.limit request.tail)
      (index.matching jobExecutionId "JOB_LOG" request.range) = hits) :
    logsAnswer logsPageSize mapper index jobExecutionId request =
      (cursorAfter mapper hits).map fun nextCursor ↦ (lines hits, nextCursor) := by
  rw [@logsAnswer_of_hits _ _ _ _ _ hits _ (by rw [buildSearchBody, hpage, hdecode]; rfl), hpage]
  · rfl
  · rw [← hhits]
    rcases hdenotes with ⟨rfl, rfl⟩ | ⟨key, rfl, rfl⟩
    · rfl
    · rfl

end Answers

/-! ## Readings

Behind a cursor come the documents with greater keys, and a page is the first of them. A page
without a line of text gives no cursor and ends the reading, so that a reading is complete
exactly if no page that lies between two lines is empty of them: the gaps are short. -/

/-- Jackson reads back the sort values it has written, and nothing from no content. -/
structure ObjectMapper.ReadsBack (mapper : ObjectMapper) (index : Index) : Prop where
  sortValues : ∀ d ∈ index.documents, ∃ bytes,
    mapper.writeValueAsBytes d.sort = some bytes ∧ mapper.readValue bytes = some (some d.sort)
  noContent : mapper.readValue [] = none

section Readings

variable {mapper : ObjectMapper} {index : Index} {jobExecutionId : UUID} {request : LogRequest}
  {logsPageSize : ℕ} {limit : Option ℤ} {range : ℤ → Bool} {cursor : Option String}
  {rest before later : List ExecutorEventDocument} {d : ExecutorEventDocument}

/-- **The codec.** The cursor of a document is read back. -/
theorem decode_encode (hmapper : mapper.ReadsBack index) (hd : d ∈ index.documents) :
    ∃ cursor, SearchAfterCursorCodec.encode mapper d.sort = .ok cursor ∧
      SearchAfterCursorCodec.decode mapper (some cursor) = .ok (some d.sort) := by
  obtain ⟨bytes, hwrite, hread⟩ := hmapper.sortValues d hd
  refine ⟨.ofList (Base64.encode bytes), by rw [SearchAfterCursorCodec.encode, hwrite], ?_⟩
  have hbytes : bytes ≠ [] := by
    rintro rfl
    rw [hmapper.noContent] at hread
    cases hread
  have hblank : JavaText.isBlank (.ofList (Base64.encode bytes)) = false := by
    obtain ⟨ch, hch⟩ := List.exists_mem_of_ne_nil _ (Base64.encode_ne_nil hbytes)
    have hall : (Base64.alphabet.all fun ch ↦ !JavaText.isWhitespace ch) = true := by
      decide +kernel
    have hvisible := List.all_eq_true.mp hall ch (Base64.mem_alphabet_of_mem_encode hch)
    rw [JavaText.isBlank, String.toList_ofList, List.all_eq_false]
    exact ⟨ch, hch, by simpa using hvisible⟩
  rw [SearchAfterCursorCodec.decode, hblank, if_neg Bool.false_ne_true, String.toList_ofList,
    Base64.decode_encode, Option.bind_some, hread]

theorem mem_history (h : d ∈ index.history jobExecutionId range) : d ∈ index.documents :=
  List.mem_of_mem_filter ((Pages.perm_sorted _).mem_iff.mp h)

theorem nodup_keys (index : Index) (jobExecutionId : UUID) (range : ℤ → Bool) :
    ((index.matching jobExecutionId "JOB_LOG" range).map ExecutorEventDocument.key).Nodup := by
  refine List.Nodup.of_map (fun key ↦ (ofLex key).2) ?_
  rw [List.map_map]
  exact (List.filter_sublist.map ExecutorEventDocument.documentId).nodup index.ids

/-- Behind the cursor come these documents of the history. -/
def Behind (mapper : ObjectMapper) (index : Index) (jobExecutionId : UUID) (range : ℤ → Bool)
    (cursor : Option String) (rest : List ExecutorEventDocument) : Prop :=
  ∃ searchAfter position,
    rest <:+ index.history jobExecutionId range ∧
    SearchAfterCursorCodec.decode mapper cursor = .ok (some searchAfter) ∧
    Denotes searchAfter position ∧
    ∀ size, Pages.page ExecutorEventDocument.key position size
      (index.matching jobExecutionId "JOB_LOG" range) = rest.take size

theorem behind_none (mapper : ObjectMapper) (index : Index) (jobExecutionId : UUID)
    (range : ℤ → Bool) :
    Behind mapper index jobExecutionId range none (index.history jobExecutionId range) :=
  ⟨[], none, List.suffix_rfl, rfl, Or.inl ⟨rfl, rfl⟩, fun _ ↦ Pages.page_none (nodup_keys _ _ _)⟩

theorem behind_some
    (hdecode : SearchAfterCursorCodec.decode mapper cursor = .ok (some d.sort))
    (hhistory : index.history jobExecutionId range = before ++ d :: rest) :
    Behind mapper index jobExecutionId range cursor rest := by
  refine ⟨d.sort, some d.key, ?_, hdecode, Or.inr ⟨d.key, rfl, rfl⟩,
    fun _ ↦ Pages.page_some (nodup_keys _ _ _) hhistory⟩
  rw [hhistory]
  exact (List.suffix_cons d rest).trans (List.suffix_append before _)

/-- A request for the page behind a cursor. -/
def pageRequest (limit : Option ℤ) (range : ℤ → Bool) (cursor : Option String) : LogRequest where
  cursor := cursor
  limit := limit
  tail := none
  range := range

/-- **One answer.** A page without lines is the last one; another one leads to what comes after its
last line. -/
theorem logsAnswer_cases (hmapper : mapper.ReadsBack index)
    (hbehind : Behind mapper index jobExecutionId range cursor rest) :
    let size := normalizeSize limit logsPageSize
    let answer := logsAnswer logsPageSize mapper index jobExecutionId
      (pageRequest limit range cursor)
    (∀ d ∈ rest.take size, d.hasText = false) ∧ answer = .ok ([], none) ∨
      ∃ page d later following, rest = page ++ d :: later ∧ page.length < size ∧
        d.hasText = true ∧ Behind mapper index jobExecutionId range (some following) later ∧
        answer = .ok (lines (page ++ [d]), some following) := by
  intro size answer
  obtain ⟨searchAfter, position, ⟨before, hbefore⟩, hdecode, hdenotes, hpage⟩ := hbehind
  have hanswer : answer = (cursorAfter mapper (rest.take size)).map fun nextCursor ↦
      (lines (rest.take size), nextCursor) :=
    logsAnswer_page rfl hdecode hdenotes (hpage _)
  rw [hanswer, cursorAfter]
  rcases hlast : ((rest.take size).filter ExecutorEventDocument.hasText).getLast? with _ | d
  · have hnone : ∀ d ∈ rest.take size, d.hasText = false := fun d hd ↦
      Bool.eq_false_iff.mpr (List.filter_eq_nil_iff.mp (List.getLast?_eq_none_iff.mp hlast) d hd)
    refine Or.inl ⟨hnone, ?_⟩
    rw [lines_eq_nil_iff.mpr hnone]
    rfl
  · obtain ⟨htext, page, others, htake, hothers⟩ := exists_of_getLast?_filter hlast
    have hrest : rest = page ++ d :: (others ++ rest.drop size) :=
      calc rest = rest.take size ++ rest.drop size := (List.take_append_drop size rest).symm
        _ = page ++ d :: (others ++ rest.drop size) := by
          rw [htake, List.append_assoc, List.cons_append]
    have hhistory : index.history jobExecutionId range =
        (before ++ page) ++ d :: (others ++ rest.drop size) := by
      rw [← hbefore, List.append_assoc, ← hrest]
    have hd : d ∈ index.history jobExecutionId range := by
      rw [hhistory]
      exact List.mem_append_right _ List.mem_cons_self
    obtain ⟨following, hencode, hdecode⟩ := decode_encode hmapper (mem_history hd)
    refine Or.inr ⟨page, d, _, following, hrest, ?_, htext, behind_some hdecode hhistory, ?_⟩
    · have hlength := congrArg List.length htake
      rw [List.length_take, List.length_append, List.length_cons] at hlength
      omega
    · rw [htake, ← List.singleton_append, ← List.append_assoc, lines_append _ others,
        lines_eq_nil_iff.mpr hothers, List.append_nil]
      dsimp only
      rw [hencode]
      rfl

/-- The answers to the requests for a history, from cursor to cursor. -/
def pages (logsPageSize : ℕ) (mapper : ObjectMapper) (index : Index) (jobExecutionId : UUID)
    (limit : Option ℤ) (range : ℤ → Bool) (cursor : Option String) :
    Except LoadException (List LogLine × Option String) :=
  logsAnswer logsPageSize mapper index jobExecutionId (pageRequest limit range cursor)

theorem lines_page (hothers : rest = before ++ d :: later) :
    lines (before ++ [d]) ++ lines later = lines rest := by
  rw [← lines_append, hothers, List.append_assoc, List.singleton_append]

theorem reads_sublist (hmapper : mapper.ReadsBack index) {items : List LogLine}
    (hbehind : Behind mapper index jobExecutionId range cursor rest)
    (h : Reads (pages logsPageSize mapper index jobExecutionId limit range) cursor items) :
    items.Sublist (lines rest) := by
  refine @Reads.sublist _ _ _ _ _ _ _ (fun cursor all ↦ ∃ rest,
    Behind mapper index jobExecutionId range cursor rest ∧ all = lines rest) ?_ ?_ h
      ⟨rest, hbehind, rfl⟩
  · rintro cursor items _ ⟨rest, hbehind, rfl⟩ hanswer
    rcases @logsAnswer_cases _ _ _ logsPageSize limit _ _ _ hmapper hbehind with
      ⟨-, hlast⟩ | ⟨_, _, _, _, -, -, -, -, hnext⟩
    · rw [← (Prod.mk.inj (Except.ok.inj (hlast.symm.trans hanswer))).1]
      exact List.nil_sublist _
    · cases (Prod.mk.inj (Except.ok.inj (hnext.symm.trans hanswer))).2
  · rintro cursor items following _ ⟨rest, hbehind, rfl⟩ hanswer
    rcases @logsAnswer_cases _ _ _ logsPageSize limit _ _ _ hmapper hbehind with
      ⟨-, hlast⟩ | ⟨page, d, later, _, hrest, -, -, hlater, hnext⟩
    · cases (Prod.mk.inj (Except.ok.inj (hlast.symm.trans hanswer))).2
    obtain ⟨rfl, hfollowing⟩ := Prod.mk.inj (Except.ok.inj (hnext.symm.trans hanswer))
    obtain rfl := Option.some.inj hfollowing
    exact ⟨lines later, ⟨later, hlater, rfl⟩, by rw [lines_page hrest]⟩

/-- **From any cursor on**, all lines behind it are returned exactly when the gaps are short. -/
theorem reads_behind_iff (hmapper : mapper.ReadsBack index)
    (hbehind : Behind mapper index jobExecutionId range cursor rest) :
    Reads (pages logsPageSize mapper index jobExecutionId limit range) cursor (lines rest) ↔
      ShortGaps ExecutorEventDocument.hasText (normalizeSize limit logsPageSize) rest := by
  induction hlength : rest.length using Nat.strong_induction_on generalizing cursor rest with
  | _ length ih =>
    rcases @logsAnswer_cases _ _ _ logsPageSize limit _ _ _ hmapper hbehind with
      ⟨hnone, hlast⟩ | ⟨page, d, later, following, rfl, hpage, htext, hlater, hnext⟩
    · rw [reads_last_iff hlast, shortGaps_iff_of_page hnone, eq_comm, lines_eq_nil_iff]
    · have hlines := @lines_page (page ++ d :: later) _ _ _ rfl
      rw [reads_next_iff hnext (by rw [hlines]) fun out hout ↦
        reads_sublist hmapper hlater hout, and_iff_right hlines,
        shortGaps_append hpage htext]
      refine ih _ ?_ hlater rfl
      rw [← hlength, List.length_append, List.length_cons]
      omega

end Readings

/-! ## Tails

A tail is the newest lines, returned oldest first, with the cursor of its oldest line. A page
that is asked for with this cursor goes on forward and begins with the next line of the tail; it
returns lines again unless the tail has at most one. -/

/-- The documents of a tail, newest first. -/
def Index.tailOf (index : Index) (logsPageSize : ℕ) (jobExecutionId : UUID) (request : LogRequest) :
    List ExecutorEventDocument :=
  (index.history jobExecutionId request.range).reverse.take
    (pageSize logsPageSize request.limit request.tail)

/-- A page asked for with the cursor of a tail returns no line of the tail. -/
def ContinuesTail (logsPageSize : ℕ) (mapper : ObjectMapper) (index : Index) (jobExecutionId : UUID)
    (request : LogRequest) : Prop :=
  ∀ items cursor,
    logsAnswer logsPageSize mapper index jobExecutionId request = .ok (items, some cursor) →
    ∀ following : LogRequest, following.cursor = some cursor → isTailMode following.tail = false →
    ∀ later next,
      logsAnswer logsPageSize mapper index jobExecutionId following = .ok (later, next) →
      items.Disjoint later

section Tails

variable {mapper : ObjectMapper} {index : Index} {jobExecutionId : UUID}
  {request following : LogRequest} {logsPageSize : ℕ} {d e : ExecutorEventDocument}
  {documents : List ExecutorEventDocument}

theorem mem_lines {line : LogLine} (h : line ∈ lines documents) :
    ∃ d ∈ documents, toLine d = some line ∧ d.hasText = true := by
  obtain ⟨d, hd, hline⟩ := List.mem_filterMap.mp h
  exact ⟨d, hd, hline, by rw [← toLine_isSome, hline]; rfl⟩

theorem eq_of_toLine_eq (hd : d ∈ index.documents) (he : e ∈ index.documents) {line : LogLine}
    (hdline : toLine d = some line) (heline : toLine e = some line) : d = e := by
  obtain ⟨_, -, hdid⟩ := Option.map_eq_some_iff.mp hdline
  obtain ⟨_, -, heid⟩ := Option.map_eq_some_iff.mp heline
  refine List.inj_on_of_nodup_map index.ids hd he ?_
  exact congrArg LogLine.id (hdid.trans heid.symm)

theorem key_lt_of_page
    (hdecode : SearchAfterCursorCodec.decode mapper following.cursor = .ok (some d.sort))
    (hmode : isTailMode following.tail = false) {later : List LogLine} {next : Option String}
    (hanswer : logsAnswer logsPageSize mapper index jobExecutionId following = .ok (later, next))
    {line : LogLine} (hline : line ∈ later) :
    ∃ e ∈ index.documents, toLine e = some line ∧ d.key < e.key := by
  rw [logsAnswer_page hmode hdecode (Or.inr ⟨d.key, rfl, rfl⟩) rfl] at hanswer
  rcases hcursor : cursorAfter mapper (Pages.page ExecutorEventDocument.key (some d.key)
    (pageSize logsPageSize following.limit following.tail)
    (index.matching jobExecutionId "JOB_LOG" following.range)) with error | cursor
  · rw [hcursor] at hanswer
    cases hanswer
  rw [hcursor] at hanswer
  obtain ⟨rfl, -⟩ := Prod.mk.inj (Except.ok.inj hanswer)
  obtain ⟨e, he, heline, -⟩ := mem_lines hline
  obtain ⟨hmem, hafter⟩ := Pages.mem_of_mem_page he
  exact ⟨e, List.mem_of_mem_filter hmem, heline, hafter d.key rfl⟩

theorem cursorAfter_ok (hmapper : mapper.ReadsBack index)
    (h : ∀ d ∈ documents, d ∈ index.documents) :
      ∃ next, cursorAfter mapper documents = .ok next := by
  rw [cursorAfter]
  rcases hlast : (documents.filter ExecutorEventDocument.hasText).getLast? with _ | d
  · exact ⟨none, rfl⟩
  · obtain ⟨cursor, hencode, -⟩ := decode_encode hmapper
      (h d (List.mem_of_mem_filter (List.mem_of_getLast? hlast)))
    exact ⟨some cursor, by dsimp only; rw [hencode]; rfl⟩

theorem pageSize_tail_le (htail : isTailMode request.tail = true) :
    pageSize logsPageSize request.limit request.tail ≤ 1000 := by
  rcases hrequest : request.tail with _ | tail
  · rw [hrequest] at htail
    cases htail
  · rw [hrequest, isTailMode, Option.any_some, decide_eq_true_iff] at htail
    rw [pageSize, if_pos htail]
    omega

/-- The documents newer than the oldest line of a tail fit a page, and come behind its cursor. -/
theorem page_behind_tail (htail : isTailMode request.tail = true)
    {newer older : List ExecutorEventDocument}
    (hsplit : index.tailOf logsPageSize jobExecutionId request = newer ++ d :: older) :
    Pages.page ExecutorEventDocument.key (some d.key) 1000
      (index.matching jobExecutionId "JOB_LOG" request.range) = newer.reverse := by
  have hhistory : index.history jobExecutionId request.range =
      (((index.history jobExecutionId request.range).reverse.drop
        (pageSize logsPageSize request.limit request.tail)).reverse ++ older.reverse) ++
          d :: newer.reverse := by
    rw [Index.tailOf] at hsplit
    rw [← List.reverse_inj, List.reverse_append, List.reverse_append, List.reverse_reverse,
      List.reverse_cons, List.reverse_reverse, List.reverse_reverse]
    calc (index.history jobExecutionId request.range).reverse
      _ = newer ++ d :: older ++ (index.history jobExecutionId request.range).reverse.drop
          (pageSize logsPageSize request.limit request.tail) := by
        rw [← hsplit, List.take_append_drop]
      _ = _ := by simp
  have hlength := congrArg List.length hsplit
  rw [Index.tailOf, List.length_take, List.length_append, List.length_cons] at hlength
  have hle := @pageSize_tail_le _ logsPageSize htail
  rw [Pages.page_some (nodup_keys _ _ _) hhistory, List.take_of_length_le]
  rw [List.length_reverse]
  omega

/-- **A tail's cursor** is that of its oldest line. -/
theorem continuesTail_iff (hmapper : mapper.ReadsBack index)
    (htail : isTailMode request.tail = true) :
    ContinuesTail logsPageSize mapper index jobExecutionId request ↔
      (index.tailOf logsPageSize jobExecutionId request).countP
        ExecutorEventDocument.hasText ≤ 1 := by
  have hanswer := @logsAnswer_tail mapper _ _ _ _ _ htail
    (rfl : _ = index.tailOf logsPageSize jobExecutionId request)
  rcases hlast : ((index.tailOf logsPageSize jobExecutionId request).filter
    ExecutorEventDocument.hasText).getLast? with _ | d
  · -- a tail without lines has no cursor
    rw [List.countP_eq_length_filter, List.getLast?_eq_none_iff.mp hlast]
    refine iff_of_true (fun items cursor h ↦ ?_) (Nat.zero_le 1)
    rw [hanswer, cursorAfter, hlast] at h
    cases h
  obtain ⟨htext, newer, older, hsplit, holder⟩ := exists_of_getLast?_filter hlast
  have hmem : ∀ e ∈ newer ++ d :: older, e ∈ index.documents := by
    intro e he
    rw [← hsplit] at he
    exact mem_history (List.mem_reverse.mp (List.mem_of_mem_take he))
  have hd := hmem d (List.mem_append_right _ List.mem_cons_self)
  obtain ⟨text, hencode, hdecode⟩ := decode_encode hmapper hd
  rw [cursorAfter, hlast] at hanswer
  dsimp only at hanswer
  rw [hencode] at hanswer
  have hcount : (index.tailOf logsPageSize jobExecutionId request).countP
      ExecutorEventDocument.hasText ≤ 1 ↔ ∀ e ∈ newer, e.hasText = false := by
    have holder' : older.countP ExecutorEventDocument.hasText = 0 :=
      List.countP_eq_zero.mpr fun e he ↦ Bool.eq_false_iff.mp (holder e he)
    rw [hsplit, List.countP_append, List.countP_cons_of_pos htext, holder', Nat.zero_add,
      Nat.add_le_add_iff_right, Nat.le_zero, List.countP_eq_zero]
    exact forall₂_congr fun e _ ↦ by rw [Bool.not_eq_true]
  rw [hcount]
  constructor
  · intro hcontinues e he
    by_contra hetext
    rw [Bool.not_eq_false] at hetext
    obtain ⟨next, hnext⟩ := @cursorAfter_ok _ _ newer.reverse hmapper fun e' he' ↦
      hmem e' (List.mem_append_left _ (List.mem_reverse.mp he'))
    have hlater : logsAnswer logsPageSize mapper index jobExecutionId
        (pageRequest (some 1000) request.range (some text)) =
          .ok (lines newer.reverse, next) := by
      rw [@logsAnswer_page _ _ _ (pageRequest (some 1000) request.range (some text)) _ _ rfl _ _
        hdecode (Or.inr ⟨d.key, rfl, rfl⟩) (page_behind_tail htail hsplit), hnext]
      rfl
    obtain ⟨line, hline⟩ := Option.isSome_iff_exists.mp ((toLine_isSome e).trans hetext)
    refine hcontinues _ text hanswer _ rfl rfl _ _ hlater (a := line) ?_ ?_
    · rw [List.mem_reverse, hsplit]
      exact List.mem_filterMap.mpr ⟨e, List.mem_append_left _ he, hline⟩
    · exact List.mem_filterMap.mpr ⟨e, List.mem_reverse.mpr he, hline⟩
  · intro hnewer items cursor h following hcursor hmode later next hlater
    obtain ⟨rfl, hsome⟩ := Prod.mk.inj (Except.ok.inj (hanswer.symm.trans h))
    obtain rfl := Option.some.inj hsome
    rw [← hcursor] at hdecode
    rintro line hline hline'
    obtain ⟨e, he, heline, hlt⟩ := key_lt_of_page hdecode hmode hlater hline'
    obtain ⟨d', hd', hdline, hdtext⟩ := mem_lines (List.mem_reverse.mp hline)
    rw [hsplit] at hd'
    have hsame : d' = d := by
      rcases List.mem_append.mp hd' with hd' | hd'
      · rw [hnewer d' hd'] at hdtext
        cases hdtext
      rcases List.mem_cons.mp hd' with rfl | hd'
      · rfl
      · rw [holder d' hd'] at hdtext
        cases hdtext
    rw [hsame] at hdline
    rw [eq_of_toLine_eq hd he hdline heline] at hlt
    exact lt_irrefl _ hlt

end Tails

/-! ## Complete histories -/

/-- Following the cursors from the start ends and returns every line once, oldest first. -/
def ReturnsEveryLine (logsPageSize : ℕ) (mapper : ObjectMapper) (index : Index)
    (jobExecutionId : UUID) (limit : Option ℤ) (range : ℤ → Bool) : Prop :=
  Reads (pages logsPageSize mapper index jobExecutionId limit range) none
    (lines (index.history jobExecutionId range))

/-- **Paging is complete** exactly when before every line come fewer documents without a text, in a
row, than a page has; and the cursor of a tail leads to no line of the tail exactly when the tail
has at most one. -/
theorem loadLogs_complete_iff {mapper : ObjectMapper} {index : Index}
    (hmapper : mapper.ReadsBack index) (logsPageSize : ℕ) (jobExecutionId : UUID)
    (request : LogRequest) :
    (ReturnsEveryLine logsPageSize mapper index jobExecutionId request.limit request.range ↔
      ShortGaps ExecutorEventDocument.hasText (normalizeSize request.limit logsPageSize)
        (index.history jobExecutionId request.range)) ∧
    (isTailMode request.tail = true →
      (ContinuesTail logsPageSize mapper index jobExecutionId request ↔
        (index.tailOf logsPageSize jobExecutionId request).countP
          ExecutorEventDocument.hasText ≤ 1)) :=
  ⟨reads_behind_iff hmapper (behind_none mapper index jobExecutionId request.range),
    continuesTail_iff hmapper⟩

/-! ## Three documents

The first one has no text. Read one by one, the history ends with it; and the cursor of the last two
is that of the first of them. -/

def silentStart : Index where
  documents := ["a", "b", "c"].zipIdx.map fun (documentId, i) ↦
    { documentId := documentId
      ingestedAtMillis := i
      ingestedAt := none
      eventType := "JOB_LOG"
      jobExecutionId := 0
      logs := if i = 0 then none else some documentId }
  ids := by decide

/-- Jackson on the sort values of these documents. -/
def silentMapper : ObjectMapper where
  writeValueAsBytes values := (texts.find? fun text ↦ text.1 = values).map Prod.snd
  readValue bytes := (texts.find? fun text ↦ text.2 = bytes).map fun text ↦ some text.1
where
  texts : List (List Json × List UInt8) :=
    ["[0,\"a\"]", "[1,\"b\"]", "[2,\"c\"]"].zipWith
      (fun text d ↦ (d.sort, text.toList.map fun ch ↦ .ofNat ch.toNat)) silentStart.documents

theorem silentMapper_readsBack : silentMapper.ReadsBack silentStart where
  sortValues := by
    have hall : ∀ d ∈ silentStart.documents, ∃ bytes ∈ silentMapper.writeValueAsBytes d.sort,
        silentMapper.readValue bytes = some (some d.sort) := by
      decide +kernel
    exact hall
  noContent := by decide +kernel

/-- A request for a tail of two, or for pages of one. -/
def silentRequest : LogRequest where
  cursor := none
  limit := some 1
  tail := some 2
  range := fun _ ↦ true

theorem loadLogs_complete_silent_iff :
    (ReturnsEveryLine 200 silentMapper silentStart 0 (some 1) silentRequest.range ↔
      ShortGaps ExecutorEventDocument.hasText 1 (silentStart.history 0 silentRequest.range)) ∧
    (ContinuesTail 200 silentMapper silentStart 0 silentRequest ↔
      (silentStart.tailOf 200 0 silentRequest).countP ExecutorEventDocument.hasText ≤ 1) := by
  have h := loadLogs_complete_iff silentMapper_readsBack 200 0 silentRequest
  exact ⟨h.1, h.2 (by decide)⟩

theorem loadLogs_not_complete :
    ¬ ReturnsEveryLine 200 silentMapper silentStart 0 (some 1) silentRequest.range ∧
      ¬ ContinuesTail 200 silentMapper silentStart 0 silentRequest := by
  constructor
  · rw [ReturnsEveryLine, reads_behind_iff silentMapper_readsBack (behind_none _ _ _ _)]
    rw [shortGaps_iff_of_page (by decide +kernel)]
    decide +kernel
  · rw [continuesTail_iff silentMapper_readsBack (by decide)]
    decide +kernel

end OpenSearchHistoryLogService

end FuzzingCiCd.Master
