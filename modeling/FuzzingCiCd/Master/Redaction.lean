import FuzzingCiCd.Foundation.JsonPositions
import FuzzingCiCd.Master.Sanitizer

/-!
# What redaction overwrites

`redact` and `requireNoInlineSecrets` walk through a document separately. Both are about the same
positions: those right under a sensitive key that does not look like a reference, with no other
such key above. `redact` writes its mask there and keeps everything outside; `collectInlineSecrets`
reports those of them that hold something.

## Main results

* `redact_noninterference`: the result does not depend on what is overwritten.
* `collectInlineSecrets_eq`: what is reported is what is overwritten, unless it is harmless.
* `rejection_agrees`: the two functions agree on every document.
-/

namespace FuzzingCiCd.Master.SensitiveDataSanitizer

open Json

/-- A sensitive key that does not look like a reference. -/
def isMasked (key : String) : Bool := isSensitiveKey key && !looksLikeReferenceKey key

/-- The positions that `redact` overwrites, with the values they hold. -/
def overwritten (node : Json) : List (Position × Json) := node.frontier isMasked

/-- `null`, a blank text, an empty array or an empty object. -/
def Harmless (value : Json) : Prop :=
  value = .null ∨ (∃ text, value = .str text ∧ JavaText.isBlank text = true) ∨
    value = .arr [] ∨ value = .obj []

/-! ## Redaction as a mask -/

mutual

theorem redact_eq_mask : ∀ node : Json, redact node = mask isMasked (.str REDACTED_VALUE) node
  | .null | .bool _ | .num _ | .str _ => by rw [redact, mask] <;> simp
  | .arr items => by rw [redact, mask, redactItems_eq_mask items]
  | .obj fields => by rw [redact, mask, redactFields_eq_mask fields]

theorem redactFields_eq_mask : ∀ fields : JsonMap,
    redactFields fields = maskFields isMasked (.str REDACTED_VALUE) fields
  | [] => by rw [redactFields, maskFields]
  | (key, value) :: fields => by
    rw [redactFields, maskFields, redact_eq_mask value, redactFields_eq_mask fields, isMasked]

theorem redactItems_eq_mask : ∀ items : List Json,
    redactItems items = maskItems isMasked (.str REDACTED_VALUE) items
  | [] => by rw [redactItems, maskItems]
  | item :: items => by
    rw [redactItems, maskItems, redact_eq_mask item, redactItems_eq_mask items]

end

/-- **Noninterference.** Two documents with the same values outside of sensitive keys are redacted
to the same document; redacting again changes nothing; and the values outside stay as they are. -/
theorem redact_noninterference :
    (∀ a b : Json, a.outside isMasked = b.outside isMasked → redact a = redact b) ∧
      (∀ node : Json, redact (redact node) = redact node) ∧
      ∀ node : Json, (redact node).outside isMasked = node.outside isMasked := by
  refine ⟨fun a b h ↦ ?_, fun node ↦ ?_, fun node ↦ ?_⟩
  · rw [redact_eq_mask, redact_eq_mask, mask_eq_mask_iff]
    exact h
  · rw [redact_eq_mask, redact_eq_mask, mask_mask]
  · rw [redact_eq_mask, outside_mask]

/-! ## Inline secrets as overwritten positions -/

theorem hasMaterialValue_eq_false {value : Json} :
    hasMaterialValue value = false ↔ Harmless value := by
  rw [Harmless]
  cases value with
  | arr items => simp [hasMaterialValue]
  | obj fields => simp [hasMaterialValue]
  | _ => simp [hasMaterialValue]

instance : DecidablePred Harmless := fun _ ↦ decidable_of_iff _ hasMaterialValue_eq_false

theorem collectInlineSecrets_of_harmless {value : Json} (h : Harmless value) (path : String) :
    collectInlineSecrets path value = [] := by
  rcases h with rfl | ⟨text, rfl, -⟩ | rfl | rfl
  · rw [collectInlineSecrets] <;> simp
  · rw [collectInlineSecrets] <;> simp
  · rw [collectInlineSecrets, collectItems]
  · rw [collectInlineSecrets, collectFields]

/-- The entries that hold something, as they are reported. -/
def reported (path : String) (entries : List (Position × Json)) : List String :=
  (entries.filter fun entry ↦ ¬ Harmless entry.2).map fun entry ↦ entry.1.render path

theorem reported_append (path : String) (entries entries' : List (Position × Json)) :
    reported path (entries ++ entries') = reported path entries ++ reported path entries' := by
  rw [reported, List.filter_append, List.map_append, reported, reported]

theorem reported_within (path path' : String) {s : Step}
    (hpath : ∀ p : Position, Position.render path (s :: p) = p.render path')
    (entries : List (Position × Json)) :
    reported path (entries.map (within s)) = reported path' entries := by
  rw [reported, List.filter_map, List.map_map, reported]
  exact List.map_congr_left fun entry _ ↦ hpath entry.1

mutual

/-- **Collecting.** Reported is what `redact` overwrites, unless it is harmless. -/
theorem collectInlineSecrets_eq (path : String) : ∀ node : Json,
    collectInlineSecrets path node = reported path (overwritten node)
  | .null | .bool _ | .num _ | .str _ => by
    rw [collectInlineSecrets] <;> simp [reported, overwritten, Json.frontier, positions,
      Position.isFrontier]
  | .arr items => by
    rw [collectInlineSecrets, overwritten, frontier_arr, collectItems_eq path 0 items]
  | .obj fields => by
    rw [collectInlineSecrets, overwritten, frontier_obj, collectFields_eq path fields]

theorem collectFields_eq (path : String) : ∀ fields : JsonMap,
    collectFields path fields = reported path (fieldFrontier isMasked fields)
  | [] => by
    rw [collectFields, fieldFrontier, fieldPositions]
    rfl
  | (key, value) :: fields => by
    rw [collectFields, fieldFrontier_cons, reported_append, collectFields_eq path fields]
    congr 1
    rw [← isMasked]
    by_cases hkey : isMasked key = true
    · rw [if_pos hkey, hkey, Bool.true_and]
      by_cases hharmless : Harmless value
      · rw [hasMaterialValue_eq_false.mpr hharmless, if_neg Bool.false_ne_true,
          collectInlineSecrets_of_harmless hharmless, reported,
          List.filter_cons_of_neg (by simpa using hharmless)]
        rfl
      · have hmaterial : hasMaterialValue value = true :=
          Bool.not_eq_false _ ▸ fun h ↦ hharmless (hasMaterialValue_eq_false.mp h)
        rw [hmaterial, if_pos rfl, reported, List.filter_cons_of_pos (by simpa using hharmless)]
        rfl
    · rw [if_neg hkey, Bool.eq_false_iff.mpr hkey, Bool.false_and, if_neg Bool.false_ne_true,
        collectInlineSecrets_eq _ value, ← overwritten]
      exact (reported_within path _ (fun _ ↦ rfl) _).symm

theorem collectItems_eq (path : String) : ∀ (i : ℕ) (items : List Json),
    collectItems path i items = reported path (itemFrontier isMasked i items)
  | i, [] => by
    rw [collectItems, itemFrontier, itemPositions]
    rfl
  | i, item :: items => by
    rw [collectItems, itemFrontier_cons, reported_append, collectItems_eq path (i + 1) items,
      collectInlineSecrets_eq _ item, ← overwritten]
    congr 1
    exact (reported_within path _ (fun _ ↦ rfl) _).symm

end

/-- **Rejection and redaction agree.** `redact` writes the mask at the overwritten positions and
keeps what is outside. `requireNoInlineSecrets` accepts a document exactly when these positions hold
harmless values, and reports the others of them in document order. -/
theorem rejection_agrees (node : Json) (fieldName : String) :
    ((redact node).outside isMasked = node.outside isMasked ∧
      overwritten (redact node) =
        (overwritten node).map fun entry ↦ (entry.1, .str REDACTED_VALUE)) ∧
    (requireNoInlineSecrets node fieldName = .ok () ↔
      ∀ entry ∈ overwritten node, Harmless entry.2) ∧
    ∀ details, requireNoInlineSecrets node fieldName = .error details →
      details = ⟨fieldName, ((overwritten node).filter fun entry ↦ ¬ Harmless entry.2).map
        fun entry ↦ entry.1.render "$"⟩ := by
  refine ⟨⟨?_, ?_⟩, ?_, fun details h ↦ ?_⟩
  · rw [redact_eq_mask, outside_mask]
  · rw [redact_eq_mask, overwritten, frontier_mask, overwritten]
  · rw [requireNoInlineSecrets, collectInlineSecrets_eq]
    rw [reported, List.isEmpty_map]
    by_cases hall : ∀ entry ∈ overwritten node, Harmless entry.2
    · rw [List.filter_eq_nil_iff.mpr fun entry hentry ↦ by simpa using hall entry hentry]
      exact iff_of_true rfl hall
    · refine iff_of_false (fun h ↦ hall fun entry hentry ↦ ?_) hall
      split at h
      · rename_i hempty
        rw [List.isEmpty_iff, List.filter_eq_nil_iff] at hempty
        simpa using hempty entry hentry
      · cases h
  · rw [requireNoInlineSecrets, collectInlineSecrets_eq] at h
    split at h
    · cases h
    · exact (Except.error.inj h).symm

end FuzzingCiCd.Master.SensitiveDataSanitizer
