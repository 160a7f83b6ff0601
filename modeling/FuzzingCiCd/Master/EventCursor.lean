import FuzzingCiCd.Contracts.Messages
import Mathlib.Data.List.Induction
import Mathlib.Data.Prod.Lex
import Mathlib.Data.String.Basic

/-!
# The cursor of the poller

A cursor row stores the position of the last hit twice: in two columns, and as an array in its
metadata, which is read first. A hit with a sort array refreshes both of them, a hit without one
only the columns, and then the array is a stale copy.

## Main results

* `searchAfterField_updateCursor`: the array in the metadata is the newest sort array.
* `readsLast_iff`, `cursor_follows_iff`: the position that is read is the one of the last hit
  exactly when the newest sort array is.
-/

namespace FuzzingCiCd.Master

namespace OpenSearchExecutorEventPoller

/-! ## Positions -/

/-- The values that hits are sorted by: `ingestedAt`, in milliseconds, and `documentId`. -/
abbrev SortKey := ℤ ×ₗ String

def ofEpochMilli (millis : ℤ) : Instant := millis * 1000

def toEpochMilli (instant : Instant) : ℤ := instant / 1000

/-- The values as they are sent to the index. -/
def sortValues (key : SortKey) : List Json :=
  [.num (.int (ofLex key).1), .str (ofLex key).2]

/-- The values as the index reads them. -/
def sortKey? : List Json → Option SortKey
  | [.num (.int millis), .str documentId] => some (toLex (millis, documentId))
  | _ => none

/-- A hit: the two fields of its source, and whether it has a sort array. -/
structure Hit where
  ingestedAt : Instant
  documentId : String
  sorted : Bool
  deriving DecidableEq

def Hit.key (hit : Hit) : SortKey := toLex (toEpochMilli hit.ingestedAt, hit.documentId)

/-- The sort array, empty if there is none. -/
def Hit.sort (hit : Hit) : List Json := if hit.sorted then sortValues hit.key else []

/-! ## The row -/

/-- A row of `executor_event_cursor`. The position of the poller is in the two columns and, as a
whole sort array, in the metadata. -/
structure ExecutorEventCursorEntity where
  consumerName : String
  eventSource : String
  indexName : String
  lastIngestedAt : Option Instant
  lastDocumentId : Option String
  updatedAt : Instant
  metadata : Option JsonMap
  deriving DecidableEq

/-- `metadata.get("searchAfter")`. -/
def searchAfterField (cursor : ExecutorEventCursorEntity) : Option Json :=
  cursor.metadata.bind fun metadata ↦ (Json.obj metadata).get? "searchAfter"

/-- `readSearchAfter`, or no list where the conversion of the field fails or gives `null`. -/
def readSearchAfter (cursor : ExecutorEventCursorEntity) : Option (List Json) :=
  match searchAfterField cursor with
  | some (.arr searchAfter) => some searchAfter
  | some _ => none
  | none =>
    match cursor.lastIngestedAt, cursor.lastDocumentId with
    | some ingestedAt, some documentId =>
      some [.num (.int (toEpochMilli ingestedAt)), .str documentId]
    | _, _ => some []

/-- `toOffsetDateTime` of a sort value, which is a number. -/
def toOffsetDateTime : Json → Option Instant
  | .num (.int millis) => some (ofEpochMilli millis)
  | _ => none

/-- `stringValue` of a sort value, which is a text. -/
def stringValue : Json → Option String
  | .str text => some text
  | _ => none

def updateCursorFromHit (now : Instant) (cursor : ExecutorEventCursorEntity) (hit : Hit) :
    ExecutorEventCursorEntity :=
  match hit.sort with
  | ingestedAt :: documentId :: _ =>
    { cursor with
      lastIngestedAt := toOffsetDateTime ingestedAt
      lastDocumentId := stringValue documentId
      metadata := some (Json.put (cursor.metadata.getD []) "searchAfter" (.arr hit.sort))
      updatedAt := now }
  | _ =>
    { cursor with
      lastIngestedAt := some hit.ingestedAt
      lastDocumentId := some hit.documentId
      updatedAt := now }

/-- The row after the hits of a page. -/
def updateCursor (now : Instant) (cursor : ExecutorEventCursorEntity) (hits : List Hit) :
    ExecutorEventCursorEntity :=
  hits.foldl (updateCursorFromHit now) cursor

/-- The row after pages that were read at some times. -/
def updatePages (cursor : ExecutorEventCursorEntity) (pages : List (Instant × List Hit)) :
    ExecutorEventCursorEntity :=
  pages.foldl (fun cursor page ↦ updateCursor page.1 cursor page.2) cursor

def hitsOfPages (pages : List (Instant × List Hit)) : List Hit := pages.flatMap Prod.snd

/-- Where the next search starts. -/
def position (cursor : ExecutorEventCursorEntity) : Option SortKey :=
  (readSearchAfter cursor).bind sortKey?

/-! ## The copies -/

/-- The newest sort array: that of a hit, or else the one of the row. -/
def newestCopy (cursor : ExecutorEventCursorEntity) (hits : List Hit) : Option Json :=
  ((hits.filter Hit.sorted).getLast?.map fun hit ↦ .arr (sortValues hit.key)) <|>
    searchAfterField cursor

section Updates

variable {now : Instant} {cursor : ExecutorEventCursorEntity} {hit : Hit} {hits : List Hit}
  {pages : List (Instant × List Hit)}

theorem get?_put (fields : JsonMap) (key : String) (value : Json) :
    (Json.obj (Json.put fields key value)).get? key = some value := by
  rw [Json.get?, Json.put]
  by_cases hkey : (fields.any fun f ↦ f.1 = key) = true
  · rw [if_pos hkey]
    obtain ⟨field, hfield, hsame⟩ := List.any_eq_true.mp hkey
    induction fields with
    | nil => cases hfield
    | cons f fields ih =>
      rw [List.map_cons, List.find?_cons]
      by_cases hf : f.1 = key
      · simp [hf]
      · rw [if_neg hf, decide_eq_false hf]
        rcases List.mem_cons.mp hfield with rfl | hmem
        · exact absurd (of_decide_eq_true hsame) hf
        · exact ih (List.any_eq_true.mpr ⟨field, hmem, hsame⟩) hmem
  · rw [if_neg hkey, List.find?_append]
    have hnone : (fields.find? fun f ↦ f.1 = key) = none := by
      rw [List.find?_eq_none]
      exact fun f hf heq ↦ hkey (List.any_eq_true.mpr ⟨f, hf, heq⟩)
    simp [hnone]

theorem searchAfterField_update (now : Instant) (cursor : ExecutorEventCursorEntity) (hit : Hit) :
    searchAfterField (updateCursorFromHit now cursor hit) =
      if hit.sorted then some (.arr (sortValues hit.key)) else searchAfterField cursor := by
  rw [updateCursorFromHit]
  by_cases hsorted : hit.sorted = true
  · simp only [Hit.sort, if_pos hsorted, sortValues]
    exact get?_put _ _ _
  · simp only [Hit.sort, if_neg hsorted]
    rfl

theorem position_update_of_sorted (now : Instant) (cursor : ExecutorEventCursorEntity)
    (hsorted : hit.sorted = true) :
    position (updateCursorFromHit now cursor hit) = some hit.key := by
  rw [position, readSearchAfter, searchAfterField_update, if_pos hsorted]
  rfl

/-- **The copy.** The array in the metadata is the newest sort array. -/
theorem searchAfterField_updateCursor (now : Instant) (cursor : ExecutorEventCursorEntity)
    (hits : List Hit) :
    searchAfterField (updateCursor now cursor hits) = newestCopy cursor hits := by
  induction hits using List.reverseRecOn with
  | nil => rfl
  | append_singleton hits hit ih =>
    rw [updateCursor, List.foldl_append, List.foldl_cons, List.foldl_nil,
      searchAfterField_update, ← updateCursor, ih, newestCopy, newestCopy, List.filter_append]
    by_cases hsorted : hit.sorted = true
    · simp [hsorted]
    · simp [hsorted]

theorem newestCopy_append (cursor : ExecutorEventCursorEntity) (hits hits' : List Hit) :
    newestCopy cursor (hits ++ hits') =
      newestCopy (updateCursor now cursor hits) hits' := by
  rw [← searchAfterField_updateCursor now, ← searchAfterField_updateCursor now, updateCursor,
    List.foldl_append]
  rfl

theorem searchAfterField_updatePages (cursor : ExecutorEventCursorEntity)
    (pages : List (Instant × List Hit)) :
    searchAfterField (updatePages cursor pages) = newestCopy cursor (hitsOfPages pages) := by
  induction pages generalizing cursor with
  | nil => rfl
  | cons page pages ih =>
    rw [updatePages, List.foldl_cons, ← updatePages, ih, hitsOfPages, hitsOfPages,
      List.flatMap_cons, newestCopy_append]

theorem columns_update (now : Instant) (cursor : ExecutorEventCursorEntity) (hit : Hit) :
    (updateCursorFromHit now cursor hit).lastIngestedAt.map toEpochMilli =
        some (toEpochMilli hit.ingestedAt) ∧
      (updateCursorFromHit now cursor hit).lastDocumentId = some hit.documentId := by
  rw [updateCursorFromHit]
  by_cases hsorted : hit.sorted = true
  · simp only [Hit.sort, if_pos hsorted, sortValues]
    refine ⟨?_, rfl⟩
    have hmillis : toEpochMilli (ofEpochMilli (toEpochMilli hit.ingestedAt)) =
        toEpochMilli hit.ingestedAt := by
      rw [toEpochMilli, ofEpochMilli]
      omega
    rw [← hmillis]
    rfl
  · simp [Hit.sort, hsorted]

theorem columns_updatePages {last : Hit} (h : (hitsOfPages pages).getLast? = some last) :
    (updatePages cursor pages).lastIngestedAt.map toEpochMilli =
        some (toEpochMilli last.ingestedAt) ∧
      (updatePages cursor pages).lastDocumentId = some last.documentId := by
  induction pages using List.reverseRecOn with
  | nil => cases h
  | append_singleton pages page ih =>
    obtain ⟨now, hits⟩ := page
    rw [hitsOfPages, List.flatMap_append, List.flatMap_singleton, ← hitsOfPages] at h
    rw [updatePages, List.foldl_append, List.foldl_cons, List.foldl_nil, ← updatePages]
    rcases List.eq_nil_or_concat hits with rfl | ⟨hits, hit, rfl⟩
    · rw [List.append_nil] at h
      exact ih h
    · rw [List.concat_eq_append, ← List.append_assoc, List.getLast?_concat] at h
      rw [← Option.some.inj h, updateCursor, List.concat_eq_append, List.foldl_append]
      exact columns_update _ _ _

/-- The array of the row, if it has one, decides what is read. -/
theorem readSearchAfter_eq_iff
    (hmillis : cursor.lastIngestedAt.map toEpochMilli = some (toEpochMilli hit.ingestedAt))
    (hid : cursor.lastDocumentId = some hit.documentId) :
    readSearchAfter cursor = some (sortValues hit.key) ↔
      ∀ copy ∈ searchAfterField cursor, copy = .arr (sortValues hit.key) := by
  rw [readSearchAfter]
  rcases searchAfterField cursor with _ | copy
  · obtain ⟨ingestedAt, hingested, hsame⟩ := Option.map_eq_some_iff.mp hmillis
    rw [hingested, hid]
    refine iff_of_true ?_ fun copy hcopy ↦ by cases hcopy
    dsimp only
    rw [hsame]
    rfl
  · cases copy with
    | arr searchAfter => simp
    | _ => simp

end Updates

/-! ## What is read after the updates

The row has two copies of the position, and a hit without a sort array updates only one. The
reader prefers the sort array, so it reads the last hit exactly when the sort array is of this
hit or there is none. -/

/-- The position that is read is the one of the last hit. -/
def ReadsLast (cursor : ExecutorEventCursorEntity) (pages : List (Instant × List Hit)) : Prop :=
  ∀ last ∈ (hitsOfPages pages).getLast?,
    readSearchAfter (updatePages cursor pages) = some (sortValues last.key)

/-- The newest sort array, if there is any, is the one of the last hit. -/
def NoStaleCopy (cursor : ExecutorEventCursorEntity) (pages : List (Instant × List Hit)) : Prop :=
  ∀ last ∈ (hitsOfPages pages).getLast?, ∀ copy ∈ newestCopy cursor (hitsOfPages pages),
    copy = .arr (sortValues last.key)

/-- The hits come in the order of their keys, behind the cursor. -/
structure Ascending (cursor : ExecutorEventCursorEntity) (pages : List (Instant × List Hit)) :
    Prop where
  sorted : ((hitsOfPages pages).map Hit.key).Pairwise (· < ·)
  behind : ∀ key ∈ position cursor, ∀ hit ∈ hitsOfPages pages, key < hit.key

/-- The cursor follows the hits: after every page it is at the last hit, and not before where it
was. -/
structure Follows (cursor : ExecutorEventCursorEntity) (pages : List (Instant × List Hit)) :
    Prop where
  current : ∀ past, past <+: pages → ReadsLast cursor past
  forward : ∀ past page, past ++ [page] <+: pages →
    ∀ before ∈ position (updatePages cursor past),
      ∀ after ∈ position (updatePages cursor (past ++ [page])), before ≤ after

section Follow

variable {cursor : ExecutorEventCursorEntity} {pages : List (Instant × List Hit)}

theorem readsLast_iff : ReadsLast cursor pages ↔ NoStaleCopy cursor pages := by
  refine forall₂_congr fun last hlast ↦ ?_
  obtain ⟨hmillis, hid⟩ := @columns_updatePages cursor _ _ hlast
  rw [readSearchAfter_eq_iff hmillis hid, searchAfterField_updatePages]

theorem hitsOfPages_append (pages pages' : List (Instant × List Hit)) :
    hitsOfPages (pages ++ pages') = hitsOfPages pages ++ hitsOfPages pages' :=
  List.flatMap_append

theorem position_of_readsLast (h : ReadsLast cursor pages) {last : Hit}
    (hlast : (hitsOfPages pages).getLast? = some last) :
    position (updatePages cursor pages) = some last.key := by
  rw [position, h last hlast]
  rfl

theorem updatePages_of_no_hits (h : hitsOfPages pages = []) :
    updatePages cursor pages = cursor := by
  induction pages with
  | nil => rfl
  | cons page pages ih =>
    rw [hitsOfPages, List.flatMap_cons, List.append_eq_nil_iff] at h
    rw [updatePages, List.foldl_cons, h.1]
    exact ih h.2

theorem updatePages_concat (cursor : ExecutorEventCursorEntity)
    (pages : List (Instant × List Hit)) (page : Instant × List Hit) :
    updatePages cursor (pages ++ [page]) =
      updateCursor page.1 (updatePages cursor pages) page.2 := by
  rw [updatePages, List.foldl_append]
  rfl

/-- A cursor that is at the last hit after every page moves forward on pages in ascending order. -/
theorem follows_of_current (hasc : Ascending cursor pages)
    (h : ∀ past, past <+: pages → ReadsLast cursor past) : Follows cursor pages := by
  refine ⟨h, fun past page hpast before hbefore after hafter ↦ ?_⟩
  have hhits : hitsOfPages (past ++ [page]) = hitsOfPages past ++ page.2 := by
    rw [hitsOfPages_append, hitsOfPages, hitsOfPages, List.flatMap_singleton]
  have hpre : hitsOfPages past ++ page.2 <+: hitsOfPages pages := by
    obtain ⟨rest, rfl⟩ := hpast
    rw [hitsOfPages_append, hhits]
    exact List.prefix_append _ _
  rcases List.eq_nil_or_concat page.2 with hnil | ⟨hits, last, hlast⟩
  · -- An empty page leaves the cursor where it is.
    rw [updatePages_concat, hnil] at hafter
    exact le_of_eq (Option.some.inj (hbefore.symm.trans hafter))
  rw [List.concat_eq_append] at hlast
  rw [hlast] at hhits hpre
  have hposition : position (updatePages cursor (past ++ [page])) = some last.key := by
    refine position_of_readsLast (h _ hpast) ?_
    rw [hhits, ← List.append_assoc, List.getLast?_concat]
  rw [hposition] at hafter
  rw [← Option.some.inj hafter]
  rcases List.eq_nil_or_concat (hitsOfPages past) with hnone | ⟨olds, old, hold⟩
  · rw [updatePages_of_no_hits hnone] at hbefore
    refine (hasc.behind before hbefore last (hpre.subset ?_)).le
    simp
  · rw [List.concat_eq_append] at hold
    have hpastPrefix : past <+: pages := (List.prefix_append past [page]).trans hpast
    have hbefore' : position (updatePages cursor past) = some old.key := by
      refine position_of_readsLast (h past hpastPrefix) ?_
      rw [hold, List.getLast?_concat]
    rw [hbefore'] at hbefore
    rw [← Option.some.inj hbefore]
    have hpairwise := List.Pairwise.sublist (hpre.sublist.map Hit.key) hasc.sorted
    rw [List.map_append, List.pairwise_append] at hpairwise
    refine (hpairwise.2.2 old.key ?_ last.key ?_).le
    · rw [hold]
      simp
    · simp

/-- **The cursor.** After any pages the position that is read is the one of the last hit exactly
when no sort array older than that is left. So on pages in ascending order the cursor follows the
hits exactly when that holds after every page. -/
theorem cursor_follows_iff (cursor : ExecutorEventCursorEntity)
    (pages : List (Instant × List Hit)) :
    (ReadsLast cursor pages ↔ NoStaleCopy cursor pages) ∧
      (Ascending cursor pages →
        (Follows cursor pages ↔ ∀ past, past <+: pages → NoStaleCopy cursor past)) := by
  refine ⟨readsLast_iff, fun hasc ↦ ⟨fun h past hpast ↦ ?_, fun h ↦ ?_⟩⟩
  · exact readsLast_iff.mp (h.current past hpast)
  · exact follows_of_current hasc fun past hpast ↦ readsLast_iff.mpr (h past hpast)

end Follow

namespace Small

/-- A row that was just created. -/
def newCursor : ExecutorEventCursorEntity where
  consumerName := "opensearch-event-poller"
  eventSource := "opensearch"
  indexName := "cicd-executor-events"
  lastIngestedAt := none
  lastDocumentId := none
  updatedAt := 0
  metadata := some []

/-- A hit with a sort array and then one without. -/
def mixedPage : List Hit := [⟨1000, "a", true⟩, ⟨2000, "b", false⟩]

end Small

/-- The next search starts behind the first hit again. -/
theorem not_readsLast_mixed : ¬ ReadsLast Small.newCursor [(0, Small.mixedPage)] := by
  intro h
  have hread := h ⟨2000, "b", false⟩ (by decide)
  exact absurd hread (by decide +kernel)

end OpenSearchExecutorEventPoller

end FuzzingCiCd.Master
