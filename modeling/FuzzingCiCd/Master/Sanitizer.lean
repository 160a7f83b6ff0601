import FuzzingCiCd.Foundation.Json

/-!
# Masking of sensitive values

`SensitiveDataSanitizer.redact`: every value under a sensitive key that does not look like a
reference is replaced by a fixed text, at any depth. The shape of a tree outside the masked
positions does not change.

`requireNoInlineSecrets` refuses a document with such a key, but only when there is something under
it: `null`, a blank text and an empty array or object pass. Of the documents that pass, masking
leaves exactly those without such a key as they are.
-/

namespace FuzzingCiCd.Master.SensitiveDataSanitizer

def REDACTED_VALUE : String := "***redacted***"

def SENSITIVE_KEY_MARKERS : List String :=
  ["password", "passwd", "passphrase", "secret", "token", "apikey", "privatekey", "accesskey",
   "clientsecret", "authorization", "credential"]

/-- Lower case, with everything but ASCII letters and digits dropped. -/
def normalize (value : String) : List Char :=
  (JavaText.toLowerCase value.toList).filter fun ch ↦
    ('a' ≤ ch && ch ≤ 'z') || ('0' ≤ ch && ch ≤ '9')

def isSensitiveKey (key : String) : Bool :=
  let normalized := normalize key
  if normalized = [] then false
  else SENSITIVE_KEY_MARKERS.any fun marker ↦ JavaText.contains normalized marker.toList

def looksLikeReferenceKey (key : String) : Bool :=
  let normalized := normalize key
  "ref".toList.isSuffixOf normalized || "refid".toList.isSuffixOf normalized ||
    JavaText.contains normalized "reference".toList || normalized = "refs".toList ||
    normalized = "secretrefs".toList

mutual

/-- `redact(JsonNode)`. -/
def redact : Json → Json
  | .obj fields => .obj (redactFields fields)
  | .arr items => .arr (redactItems items)
  | node => node

def redactFields : JsonMap → JsonMap
  | [] => []
  | (key, value) :: fields =>
    (key, if isSensitiveKey key && !looksLikeReferenceKey key then .str REDACTED_VALUE
      else redact value) :: redactFields fields

def redactItems : List Json → List Json
  | [] => []
  | item :: items => redact item :: redactItems items

end

theorem keys_redactFields (fields : JsonMap) :
    (redactFields fields).map Prod.fst = fields.map Prod.fst := by
  induction fields with
  | nil => rw [redactFields]
  | cons field fields ih =>
    obtain ⟨key, value⟩ := field
    rw [redactFields, List.map_cons, List.map_cons, ih]

theorem get?_redact {key : String} (hkey : isSensitiveKey key = false) (value : Json) :
    (redact value).get? key = (value.get? key).map redact := by
  cases value with
  | obj fields =>
    rw [redact, Json.get?, Json.get?, Option.map_map]
    induction fields with
    | nil => rfl
    | cons field fields ih =>
      obtain ⟨k, v⟩ := field
      rw [redactFields, List.find?_cons, List.find?_cons]
      by_cases hk : k = key
      · subst hk
        simp [hkey]
      · simp only [hk, decide_false]
        exact ih
  | _ => rfl

theorem redact_eq_null {value : Json} : redact value = .null ↔ value = .null := by
  cases value <;> simp [redact]

theorem redact_eq_str {value : Json} {text : String} :
    redact value = .str text ↔ value = .str text := by
  cases value <;> simp [redact]

/-! ## Inline secrets

Two traversals of a document decide over the same keys: one collects the paths where there is
something under a sensitive key, the other masks whatever is there. So a document can pass the
first with nothing material under such a key and be changed by the second. -/

def hasMaterialValue : Json → Bool
  | .null => false
  | .str text => !JavaText.isBlank text
  | .arr items => !items.isEmpty
  | .obj fields => !fields.isEmpty
  | _ => true

mutual

/-- `collectInlineSecrets`: the paths at which there is something under a sensitive key. -/
def collectInlineSecrets (path : String) : Json → List String
  | .obj fields => collectFields path fields
  | .arr items => collectItems path 0 items
  | _ => []

def collectFields (path : String) : JsonMap → List String
  | [] => []
  | (key, value) :: fields =>
    let childPath := path ++ "." ++ key
    (if isSensitiveKey key && !looksLikeReferenceKey key && hasMaterialValue value then [childPath]
      else collectInlineSecrets childPath value) ++ collectFields path fields

def collectItems (path : String) (i : ℕ) : List Json → List String
  | [] => []
  | item :: items =>
    collectInlineSecrets (path ++ "[" ++ toString i ++ "]") item ++ collectItems path (i + 1) items

end

/-- What is wrong with a body that has secrets in it: the field, and the paths below it. -/
structure InlineSecretDetails where
  field : String
  paths : List String
  deriving DecidableEq

/-- `requireNoInlineSecrets`, with the details of what it throws. -/
def requireNoInlineSecrets (node : Json) (fieldName : String) :
    Except InlineSecretDetails Unit :=
  let paths := collectInlineSecrets "$" node
  if paths.isEmpty then .ok () else .error ⟨fieldName, paths⟩

mutual

/-- Whether a document has, at any depth, a sensitive key that does not look like a reference. -/
def namesSecret : Json → Bool
  | .obj fields => namesSecretFields fields
  | .arr items => namesSecretItems items
  | _ => false

def namesSecretFields : JsonMap → Bool
  | [] => false
  | (key, value) :: fields =>
    (isSensitiveKey key && !looksLikeReferenceKey key) || namesSecret value ||
      namesSecretFields fields

def namesSecretItems : List Json → Bool
  | [] => false
  | item :: items => namesSecret item || namesSecretItems items

end

/-- The mask itself is a material value, so a document that passes does not have it under a
sensitive key. -/
theorem ne_mask {value : Json} (h : hasMaterialValue value = false) :
    value ≠ .str REDACTED_VALUE := by
  rintro rfl
  exact absurd h (by decide)

mutual

/-- **Masking what passes.** A document without inline secrets stays as it is exactly when it does
not name a secret. -/
theorem redact_eq_self_iff {path : String} :
    ∀ {node : Json}, collectInlineSecrets path node = [] →
      (redact node = node ↔ namesSecret node = false)
  | .null, _ | .bool _, _ | .num _, _ | .str _, _ => by simp [redact, namesSecret]
  | .arr items, h => by
    rw [collectInlineSecrets] at h
    rw [redact, namesSecret, Json.arr.injEq, redactItems_eq_self_iff h]
  | .obj fields, h => by
    rw [collectInlineSecrets] at h
    rw [redact, namesSecret, Json.obj.injEq, redactFields_eq_self_iff h]

theorem redactFields_eq_self_iff {path : String} :
    ∀ {fields : JsonMap}, collectFields path fields = [] →
      (redactFields fields = fields ↔ namesSecretFields fields = false)
  | [], _ => by simp [redactFields, namesSecretFields]
  | (key, value) :: fields, h => by
    rw [collectFields, List.append_eq_nil_iff] at h
    obtain ⟨hvalue, hfields⟩ := h
    rw [redactFields, namesSecretFields, List.cons.injEq, Prod.mk.injEq, Bool.or_eq_false_iff,
      Bool.or_eq_false_iff, redactFields_eq_self_iff hfields, and_iff_right rfl]
    by_cases hmasked : (isSensitiveKey key && !looksLikeReferenceKey key) = true
    · -- what is under the key is not material, and the mask would be
      rw [hmasked, Bool.true_and] at hvalue
      rw [if_pos hmasked, hmasked]
      have himmaterial : hasMaterialValue value = false := by
        by_contra hmaterial
        rw [if_pos (Bool.not_eq_false _ ▸ hmaterial)] at hvalue
        exact absurd hvalue (List.cons_ne_nil _ _)
      exact iff_of_false (fun heq ↦ ne_mask himmaterial heq.1.symm) (by simp)
    · rw [Bool.eq_false_iff.mpr hmasked, Bool.false_and, if_neg Bool.false_ne_true] at hvalue
      rw [if_neg hmasked, redact_eq_self_iff hvalue, Bool.eq_false_iff.mpr hmasked,
        and_iff_right rfl]

theorem redactItems_eq_self_iff {path : String} {i : ℕ} :
    ∀ {items : List Json}, collectItems path i items = [] →
      (redactItems items = items ↔ namesSecretItems items = false)
  | [], _ => by simp [redactItems, namesSecretItems]
  | item :: items, h => by
    rw [collectItems, List.append_eq_nil_iff] at h
    rw [redactItems, namesSecretItems, List.cons.injEq, Bool.or_eq_false_iff,
      redact_eq_self_iff h.1, redactItems_eq_self_iff h.2]

end

theorem collectInlineSecrets_of_ok {node : Json} {fieldName : String}
    (h : requireNoInlineSecrets node fieldName = .ok ()) :
    collectInlineSecrets "$" node = [] := by
  rw [requireNoInlineSecrets] at h
  split at h
  case isTrue hempty => exact List.isEmpty_iff.mp hempty
  case isFalse => cases h

end FuzzingCiCd.Master.SensitiveDataSanitizer
