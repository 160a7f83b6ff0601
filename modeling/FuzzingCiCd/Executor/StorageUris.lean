import FuzzingCiCd.Executor.Path
import FuzzingCiCd.Foundation.Text
import FuzzingCiCd.Foundation.Transition
import FuzzingCiCd.Foundation.Uri

/-!
# Storage identifiers

A namespace names a stored object relative to the root of the storage: `normalizeNamespacePath`
takes either slash, refuses what is absolute or has an empty segment inside, and normalizes the
rest. An identifier is a normalized namespace behind `storage://`, so that the parser takes the
first segment for an authority and the others for a path; `namespacePath` puts them together again.

## Main results

A normalized namespace is *canonical*: none of its segments is empty or one of the two special
names.

* `normalizeNamespacePath_ok`: what is accepted, and that the result is canonical.
* `normalizeNamespacePath_canonical`, `namespacePath_canonical`, `resolve_canonical`: a canonical
  namespace is its own normal form, is read back from its identifier and lies below every root.
* `storageUri_laws`: the laws of the three functions, for every text.
-/

namespace FuzzingCiCd.Executor

open Transition

/-- `IllegalArgumentException`, with its subclass `InvalidPathException`, `StorageClientException`,
`StorageChecksumMismatchException` and `NullPointerException`. -/
inductive StorageException
  | illegalArgument (message : String)
  | storageClient (message : String)
  | checksumMismatch (message : String)
  | nullPointer
  deriving DecidableEq

namespace StorageUris

def SCHEME : List Char := "storage".toList

/-- `replace('\\', '/')`. -/
def unixPath (text : List Char) : List Char := text.map fun ch ↦ if ch = '\\' then '/' else ch

/-- A character of the class of `ALLOWED_NAMESPACE`. -/
def isAllowed (ch : Char) : Bool := ch.isAlphanum || "._/-".toList.contains ch

def ALLOWED_NAMESPACE (text : List Char) : Bool := text ≠ [] && text.all isAllowed

/-- `Path.of`, with the exception it throws. -/
def pathOf (text : List Char) : Except StorageException Path :=
  match Path.of text with
  | some path => .ok path
  | none => .error (.illegalArgument ("Nul character not allowed: " ++ .ofList text))

def normalizeNamespacePath (namespacePath : Option (List Char)) :
    Except StorageException (List Char) :=
  match namespacePath with
  | none => .error (.illegalArgument "Storage namespace должен быть непустым")
  | some namespacePath =>
    if JavaText.isBlank (.ofList namespacePath) then
      .error (.illegalArgument "Storage namespace должен быть непустым")
    else if "/".toList.isPrefixOf (unixPath namespacePath) then
      .error (.storageClient
        ("Storage namespace должен быть относительным: " ++ .ofList namespacePath))
    else if JavaText.contains (unixPath namespacePath) "//".toList then
      .error (.storageClient
        ("Storage namespace не должен содержать пустые сегменты: " ++ .ofList namespacePath))
    else if !ALLOWED_NAMESPACE (unixPath namespacePath) then
      .error (.storageClient
        ("Storage namespace содержит недопустимые символы: " ++ .ofList namespacePath))
    else do
      let path ← pathOf (unixPath namespacePath)
      let normalized := unixPath path.normalize.text
      if JavaText.isBlank (.ofList normalized) || normalized = ".".toList ||
          "../".toList.isPrefixOf normalized || normalized = "..".toList then
        .error (.storageClient
          ("Storage namespace выходит за пределы корня: " ++ .ofList namespacePath))
      else .ok normalized

def toStorageUri (namespacePath : Option (List Char)) : Except StorageException (List Char) := do
  let normalized ← normalizeNamespacePath namespacePath
  return SCHEME ++ "://".toList ++ normalized

def stripLeadingSlash (value : List Char) : List Char := value.dropWhile (· = '/')

/-- The authority of an identifier and its path, put together. -/
def namespaceOf (uri : Uri) : List Char :=
  let authority := uri.getAuthority.getD []
  match uri.getPath with
  | none => authority
  | some path =>
    if JavaText.isBlank (.ofList path) then authority
    else if authority ≠ [] ∧ path.head? ≠ some '/' then authority ++ '/' :: path
    else authority ++ path

/-- `literal` says which authorities with an IPv6 address the parser of identifiers takes. -/
def namespacePath (literal : List Char → Bool) (storageUri : Option (List Char)) :
    Except StorageException (List Char) :=
  match storageUri with
  | none => .error .nullPointer
  | some storageUri =>
    match Uri.parse literal storageUri with
    | none => .error (.storageClient ("Некорректный storage URI: " ++ .ofList storageUri))
    | some uri =>
      if uri.scheme ≠ some SCHEME then
        .error (.storageClient "Storage URI должен использовать схему storage://")
      else if uri.getQuery ≠ none ∨ uri.getFragment ≠ none then
        .error (.storageClient "Storage URI не должен содержать query или fragment")
      else normalizeNamespacePath (some (stripLeadingSlash (namespaceOf uri)))

end StorageUris

/-- `LocalStorageClient.resolve`. -/
def LocalStorageClient.resolve (root : Directory) (namespacePath : List Char) :
    Except StorageException Path := do
  let path ← StorageUris.pathOf namespacePath
  let resolvedPath := (root.path.resolve path).normalize
  if !resolvedPath.startsWith root.path then
    .error (.storageClient
      ("Storage namespace выходит за пределы root: " ++ .ofList namespacePath))
  else .ok resolvedPath

/-! ## Canonical namespaces -/

namespace StorageUris

/-- The segments between the slashes. -/
def segments (text : List Char) : List (List Char) := text.splitOn '/'

/-- A relative path of segments that are names. -/
structure Canonical (text : List Char) : Prop where
  nonempty : ∀ segment ∈ segments text, segment ≠ []
  plain : Paths.Plain ['.'] ['.', '.'] (segments text)
  allowed : ∀ segment ∈ segments text, ∀ ch ∈ segment, isAllowed ch = true

section Canonical

variable {text normalized : List Char} {literal : List Char → Bool}

theorem isAllowed_cases {ch : Char} (h : isAllowed ch = true) :
    ch.isAlphanum = true ∨ ch = '.' ∨ ch = '_' ∨ ch = '/' ∨ ch = '-' := by
  rw [isAllowed, Bool.or_eq_true] at h
  refine h.imp_right fun h ↦ ?_
  simpa using h

theorem isAllowed_toNat {ch : Char} (h : isAllowed ch = true) :
    45 ≤ ch.toNat ∧ ch.toNat ≤ 122 ∧ ch.toNat ≠ 63 ∧ ch.toNat ≠ 92 := by
  rcases isAllowed_cases h with h | rfl | rfl | rfl | rfl
  · change (decide (65 ≤ ch.val ∧ ch.val ≤ 90) ||
      (decide (97 ≤ ch.val) && decide (ch.val ≤ 122)) ||
        (decide (48 ≤ ch.val) && decide (ch.val ≤ 57))) = true at h
    simp only [Bool.or_eq_true, Bool.and_eq_true, decide_eq_true_eq,
      UInt32.le_iff_toNat_le] at h
    change ((65 ≤ ch.toNat ∧ ch.toNat ≤ 90) ∨ (97 ≤ ch.toNat ∧ ch.toNat ≤ 122)) ∨
      (48 ≤ ch.toNat ∧ ch.toNat ≤ 57) at h
    omega
  all_goals decide

theorem ne_of_isAllowed {ch other : Char} (h : isAllowed ch = true)
    (hother : other.toNat < 45 ∨ other.toNat = 63 ∨ other.toNat = 92) : ch ≠ other := by
  rintro rfl
  have hrange := isAllowed_toNat h
  omega

theorem isWhitespace_of_isAllowed {ch : Char} (h : isAllowed ch = true) :
    JavaText.isWhitespace ch = false := by
  have hrange := isAllowed_toNat h
  simp only [JavaText.isWhitespace, Bool.or_eq_false_iff, Bool.and_eq_false_iff,
    decide_eq_false_iff_not]
  omega

theorem isUnreserved_of_isAllowed {ch : Char} (h : isAllowed ch = true) (hslash : ch ≠ '/') :
    Uri.isUnreserved ch = true := by
  rw [Uri.isUnreserved]
  rcases isAllowed_cases h with h | rfl | rfl | rfl | rfl
  · rw [h]
    rfl
  · rfl
  · rfl
  · exact absurd rfl hslash
  · rfl

/-! ### The characters of a namespace -/

theorem Canonical.isAllowed (h : Canonical text) : ∀ ch ∈ text, isAllowed ch = true := by
  intro ch hch
  by_cases hslash : ch = '/'
  · rw [hslash]
    decide
  · obtain ⟨segment, hsegment, hin⟩ := Paths.exists_mem_splitOn hch hslash
    exact h.allowed segment hsegment ch hin

theorem unixPath_eq_self (h : ∀ ch ∈ text, isAllowed ch = true) : unixPath text = text := by
  rw [unixPath]
  refine (List.map_congr_left fun ch hch ↦ ?_).trans (List.map_id text)
  exact if_neg (ne_of_isAllowed (h ch hch) (by decide))

theorem isBlank_of_isAllowed (h : ∀ ch ∈ text, isAllowed ch = true) (hsome : text ≠ []) :
    JavaText.isBlank (.ofList text) = false := by
  obtain ⟨ch, rest, rfl⟩ := List.exists_cons_of_ne_nil hsome
  rw [JavaText.isBlank, String.toList_ofList, List.all_cons,
    isWhitespace_of_isAllowed (h ch List.mem_cons_self), Bool.false_and]

theorem pathOf_eq (h : ∀ ch ∈ text, isAllowed ch = true) :
    pathOf text =
      .ok ⟨text.head? = some '/', (Paths.segments '/' text).map String.ofList⟩ := by
  rw [pathOf, Path.of, if_neg fun hmem ↦ ne_of_isAllowed (h _ hmem) (by decide) rfl]

/-! ### The shape of a canonical namespace -/

theorem segments_ne_nil (text : List Char) : segments text ≠ [] := List.splitOn_ne_nil _ _

theorem segments_append (before after : List Char) :
    segments (before ++ '/' :: after) = segments before ++ segments after :=
  List.splitOn_append_cons_self _ _

theorem Canonical.ne_nil (h : Canonical text) : text ≠ [] := by
  rintro rfl
  exact h.nonempty [] List.mem_cons_self rfl

theorem Canonical.head? (h : Canonical text) : text.head? ≠ some '/' := by
  intro hhead
  obtain ⟨rest, rfl⟩ := List.head?_eq_some_iff.mp hhead
  have hsplit := segments_append [] rest
  exact h.nonempty [] (by rw [← List.nil_append ('/' :: rest), hsplit]; exact List.mem_cons_self)
    rfl

theorem Canonical.pathSegments (h : Canonical text) : Paths.segments '/' text = segments text :=
  List.filter_eq_self.mpr fun segment hsegment ↦ decide_eq_true (h.nonempty segment hsegment)

theorem Canonical.pathOf (h : Canonical text) :
    pathOf text = .ok ⟨false, (segments text).map String.ofList⟩ := by
  rw [pathOf_eq h.isAllowed, h.pathSegments, decide_eq_false h.head?]

theorem plain_map_ofList {segments : List (List Char)}
    (h : Paths.Plain ['.'] ['.', '.'] segments) :
    Paths.Plain "." ".." (segments.map String.ofList) := by
  intro name hname
  obtain ⟨segment, hsegment, rfl⟩ := List.mem_map.mp hname
  obtain ⟨hdot, hparent⟩ := h segment hsegment
  exact ⟨fun h ↦ hdot (String.ofList_inj.mp h), fun h ↦ hparent (String.ofList_inj.mp h)⟩

theorem text_map_ofList (segments : List (List Char)) :
    Path.text ⟨false, segments.map String.ofList⟩ = List.intercalate ['/'] segments := by
  rw [Path.text, List.map_map]
  have hid : (String.toList ∘ String.ofList : List Char → List Char) = id :=
    funext fun cs ↦ String.toList_ofList
  rw [hid, List.map_id]
  rfl

/-- A canonical namespace does not leave the root, as the code asks it. -/
theorem Canonical.inside (h : Canonical text) :
    (JavaText.isBlank (.ofList text) || text = ".".toList || "../".toList.isPrefixOf text ||
      text = "..".toList) = false := by
  have hplain := h.plain
  rw [isBlank_of_isAllowed h.isAllowed h.ne_nil, Bool.false_or, Bool.or_eq_false_iff,
    Bool.or_eq_false_iff, decide_eq_false_iff_not, decide_eq_false_iff_not]
  refine ⟨⟨?_, ?_⟩, ?_⟩
  · rintro rfl
    exact (hplain ['.'] (by decide)).1 rfl
  · rw [Bool.eq_false_iff]
    intro hpre
    obtain ⟨rest, rfl⟩ := List.isPrefixOf_iff_prefix.mp hpre
    refine (hplain ['.', '.'] ?_).2 rfl
    rw [show "../".toList ++ rest = ['.', '.'] ++ '/' :: rest from rfl, segments_append]
    exact List.mem_cons_self
  · rintro rfl
    exact (hplain ['.', '.'] (by decide)).2 rfl

/-! ### The laws of a canonical namespace -/

/-- **A canonical namespace** is its own normal form. -/
theorem normalizeNamespacePath_canonical (h : Canonical text) :
    normalizeNamespacePath (some text) = .ok text := by
  have hunix := unixPath_eq_self h.isAllowed
  have hslash : "/".toList.isPrefixOf text = false := by
    rw [Bool.eq_false_iff]
    intro hpre
    obtain ⟨rest, rfl⟩ := List.isPrefixOf_iff_prefix.mp hpre
    exact h.head? rfl
  have hempty : JavaText.contains text "//".toList = false := by
    rw [Bool.eq_false_iff]
    intro hcontains
    exact h.nonempty [] (Paths.nil_mem_splitOn_of_infix ((JavaText.contains_iff _ _).mp hcontains))
      rfl
  have hclass : ALLOWED_NAMESPACE text = true := by
    rw [ALLOWED_NAMESPACE, decide_eq_true h.ne_nil, Bool.true_and, List.all_eq_true]
    exact h.isAllowed
  have hnormal : Path.normalize ⟨false, (segments text).map String.ofList⟩ =
      ⟨false, (segments text).map String.ofList⟩ := by
    rw [Path.normalize, normalizeName_eq]
    exact congrArg (Path.mk false) (Paths.normalize_plain (plain_map_ofList h.plain))
  have htext : Path.text ⟨false, (segments text).map String.ofList⟩ = text := by
    rw [text_map_ofList]
    exact List.intercalate_splitOn '/'
  rw [normalizeNamespacePath, isBlank_of_isAllowed h.isAllowed h.ne_nil]
  rw [hunix, hslash, hempty, hclass, h.pathOf]
  simp only [Bool.false_eq_true, if_false, Bool.not_true]
  rw [ok_bind, hnormal, htext, hunix, h.inside]
  rfl

theorem Canonical.exists_first (h : Canonical text) :
    ∃ authority path, text = authority ++ path ∧ authority ≠ [] ∧ '/' ∉ authority ∧
      ∀ ch, path.head? = some ch → ch = '/' := by
  obtain ⟨first, rest, htext⟩ := List.exists_cons_of_ne_nil h.ne_nil
  have hfirst : first ≠ '/' := fun heq ↦ h.head? (by rw [htext, heq]; rfl)
  refine ⟨text.takeWhile (· ≠ '/'), text.dropWhile (· ≠ '/'),
    List.takeWhile_append_dropWhile.symm, ?_, fun hmem ↦ ?_, fun ch hch ↦ ?_⟩
  · rw [htext, List.takeWhile_cons, if_pos (decide_eq_true hfirst)]
    exact List.cons_ne_nil _ _
  · have hne := List.mem_takeWhile_imp hmem
    exact of_decide_eq_true hne rfl
  · have hstop := List.head?_dropWhile_not (fun ch ↦ decide (ch ≠ '/')) text
    rw [hch] at hstop
    exact not_not.mp (of_decide_eq_false hstop)

/-- **A canonical namespace** is read back from its identifier: the parser takes the first segment
for the authority, and the rest for the path. -/
theorem namespacePath_canonical (h : Canonical text) :
    namespacePath literal (some (SCHEME ++ "://".toList ++ text)) = .ok text := by
  have hallowed := h.isAllowed
  have hhead := h.head?
  have hnormal := normalizeNamespacePath_canonical h
  obtain ⟨authority, path, rfl, hsome, hslash, habsolute⟩ := h.exists_first
  -- neither part holds a character that the parser splits at or decodes
  have hother : ∀ ch ∈ authority ++ path, ∀ other ∈ "%?#".toList, ch ≠ other := by
    intro ch hch other hother
    refine ne_of_isAllowed (hallowed ch hch) ?_
    simp at hother
    rcases hother with rfl | rfl | rfl
    · decide
    · decide
    · decide
  have hauthority : ∀ ch ∈ authority,
      ch ≠ '%' ∧ Uri.isRegName ch = true ∧ "/?#".toList.contains ch = false := by
    intro ch hch
    have hin := List.mem_append_left path hch
    have hne : ch ≠ '/' := fun heq ↦ hslash (heq ▸ hch)
    refine ⟨hother ch hin _ (by decide), ?_, ?_⟩
    · rw [Uri.isRegName, isUnreserved_of_isAllowed (hallowed ch hin) hne, Bool.true_or]
    · simp [hne, hother ch hin '?' (by decide), hother ch hin '#' (by decide)]
  have hpath : ∀ ch ∈ path,
      ch ≠ '%' ∧ Uri.isPathChar ch = true ∧ "?#".toList.contains ch = false := by
    intro ch hch
    have hin := List.mem_append_right authority hch
    refine ⟨hother ch hin _ (by decide), ?_, ?_⟩
    · by_cases hne : ch = '/'
      · rw [hne]
        decide
      · rw [Uri.isPathChar, isUnreserved_of_isAllowed (hallowed ch hin) hne, Bool.true_or]
    · simp [hother ch hin '?' (by decide), hother ch hin '#' (by decide)]
  have hparse := @Uri.parse_authority SCHEME authority path literal (by decide)
    (JavaText.forall_mem_of_all (by decide)) hsome hauthority hpath habsolute
  have hnamespace : namespaceOf ⟨some SCHEME, some authority, some path, none, none⟩ =
      authority ++ path := by
    rw [namespaceOf, Uri.getAuthority, Uri.getPath, Option.map_some, Option.map_some,
      Uri.decodeFrom_eq_self fun hmem ↦ (hauthority _ hmem).1 rfl,
      Uri.decodeFrom_eq_self fun hmem ↦ (hpath _ hmem).1 rfl]
    dsimp only [Option.getD_some]
    rcases path with _ | ⟨ch, rest⟩
    · exact (List.append_nil _).symm
    · rw [isBlank_of_isAllowed (fun ch hch ↦ hallowed ch (List.mem_append_right _ hch))
        (List.cons_ne_nil _ _), habsolute ch rfl]
      simp
  have hstrip : stripLeadingSlash (authority ++ path) = authority ++ path := by
    obtain ⟨first, rest, rfl⟩ := List.exists_cons_of_ne_nil hsome
    exact List.dropWhile_cons_of_neg (by simpa using hhead)
  rw [namespacePath, hparse]
  dsimp only
  rw [if_neg (fun h ↦ h rfl), if_neg (by simp [Uri.getQuery, Uri.getFragment]), hnamespace,
    hstrip, hnormal]

/-- **A canonical namespace** lies below every root. -/
theorem resolve_canonical (h : Canonical text) (root : Directory) :
    LocalStorageClient.resolve root text =
      .ok ⟨true, root.names ++ (segments text).map String.ofList⟩ := by
  have hplain := plain_map_ofList h.plain
  have hnormal : (root.path.resolve ⟨false, (segments text).map String.ofList⟩).normalize =
      ⟨true, root.names ++ (segments text).map String.ofList⟩ := by
    rw [Path.normalize, normalizeName_eq]
    exact congrArg (Path.mk true) (Paths.normalize_plain (root.plain.append hplain))
  rw [LocalStorageClient.resolve, h.pathOf, ok_bind, hnormal]
  dsimp only
  rw [Path.startsWith_append]
  rfl

/-! ### What is accepted

The method splits the text, normalizes it as a path and tests the result. Names of allowed
characters stay names of allowed characters, so the normal form is a canonical namespace as soon
as it is not blank and does not climb. -/

/-- A relative path whose names are made of allowed characters. -/
structure Named (path : Path) : Prop where
  relative : path.isAbsolute = false
  nonempty : ∀ name ∈ path.names, name.toList ≠ []
  allowed : ∀ name ∈ path.names, ∀ ch ∈ name.toList, isAllowed ch = true ∧ ch ≠ '/'

theorem Named.normalize {path : Path} (h : Named path) : Named path.normalize := by
  have hmem : ∀ name ∈ path.normalize.names, name ∈ path.names := fun name hname ↦
    Paths.mem_of_mem_normalize (by rw [← Path.normalize_names]; exact hname)
  exact ⟨h.relative, fun name hname ↦ h.nonempty name (hmem name hname),
    fun name hname ↦ h.allowed name (hmem name hname)⟩

theorem Named.text_eq {path : Path} (h : Named path) :
    path.text = List.intercalate ['/'] (path.names.map String.toList) := by
  rw [Path.text, h.relative]
  rfl

theorem Named.isAllowed {path : Path} (h : Named path) : ∀ ch ∈ path.text, isAllowed ch = true := by
  intro ch hch
  rw [h.text_eq] at hch
  rcases Paths.mem_intercalate hch with rfl | ⟨segment, hsegment, hin⟩
  · decide
  · obtain ⟨name, hname, rfl⟩ := List.mem_map.mp hsegment
    exact (h.allowed name hname ch hin).1

theorem named_of_allowed (h : ∀ ch ∈ text, isAllowed ch = true) :
    Named ⟨false, (Paths.segments '/' text).map String.ofList⟩ := by
  refine ⟨rfl, fun name hname ↦ ?_, fun name hname ch hch ↦ ?_⟩
  · obtain ⟨segment, hsegment, rfl⟩ := List.mem_map.mp hname
    rw [String.toList_ofList]
    exact of_decide_eq_true (List.mem_filter.mp hsegment).2
  · obtain ⟨segment, hsegment, rfl⟩ := List.mem_map.mp hname
    rw [String.toList_ofList] at hch
    have hin := Paths.mem_of_mem_splitOn (List.mem_filter.mp hsegment).1 hch
    exact ⟨h ch hin.1, hin.2⟩

/-- The normal form of a path that is accepted: the path has neither climbed nor come back to its
start. -/
theorem canonical_of_inside {path : Path} (h : Named path) (hblank : path.normalize.text ≠ [])
    (hparent : ¬"../".toList.isPrefixOf path.normalize.text)
    (hup : path.normalize.text ≠ "..".toList) :
    (∃ d, path.depth = some (d + 1)) ∧ Canonical path.normalize.text := by
  have hnormal := h.normalize
  rw [hnormal.text_eq] at hblank hparent hup ⊢
  rcases hdepth : path.depth with _ | d
  · -- a parent is left in front
    have hhead := (Paths.head?_normalize (by decide)).mpr hdepth
    rw [← h.relative, ← Path.normalize_names] at hhead
    obtain ⟨rest, hrest⟩ := List.head?_eq_some_iff.mp hhead
    rw [hrest, List.map_cons] at hparent hup
    by_cases hnil : rest.map String.toList = []
    · rw [hnil, List.intercalate_singleton] at hup
      exact absurd rfl hup
    · rw [List.intercalate_cons_of_ne_nil hnil] at hparent
      exact absurd rfl hparent
  obtain ⟨hplain, hlength, -⟩ := Paths.normalize_of_depth (by decide) hdepth
  rw [← h.relative, ← Path.normalize_names] at hplain hlength
  have hsome : path.normalize.names.map String.toList ≠ [] := by
    intro hnil
    rw [hnil] at hblank
    exact hblank rfl
  have hsegments : segments (List.intercalate ['/'] (path.normalize.names.map String.toList)) =
      path.normalize.names.map String.toList := by
    refine List.splitOn_intercalate _ (fun segment hsegment hslash ↦ ?_) hsome
    obtain ⟨name, hname, rfl⟩ := List.mem_map.mp hsegment
    exact (hnormal.allowed name hname _ hslash).2 rfl
  refine ⟨?_, ?_, ?_, ?_⟩
  · rcases d with _ | d
    · rw [List.length_eq_zero_iff] at hlength
      rw [hlength] at hsome
      exact absurd rfl hsome
    · exact ⟨d, rfl⟩
  all_goals rw [hsegments]
  · intro segment hsegment
    obtain ⟨name, hname, rfl⟩ := List.mem_map.mp hsegment
    exact hnormal.nonempty name hname
  · intro segment hsegment
    obtain ⟨name, hname, rfl⟩ := List.mem_map.mp hsegment
    obtain ⟨hdot, hparent⟩ := hplain name hname
    exact ⟨fun heq ↦ hdot (String.toList_inj.mp heq), fun heq ↦ hparent (String.toList_inj.mp heq)⟩
  · intro segment hsegment ch hch
    obtain ⟨name, hname, rfl⟩ := List.mem_map.mp hsegment
    exact (hnormal.allowed name hname ch hch).1

/-- **What is accepted**, and that the result is canonical. -/
theorem normalizeNamespacePath_ok (h : normalizeNamespacePath (some text) = .ok normalized) :
    (unixPath text).head? ≠ some '/' ∧ ¬['/', '/'] <:+: unixPath text ∧
      (∃ d, Paths.depth ['.'] ['.', '.'] 0 (Paths.segments '/' (unixPath text)) = some (d + 1)) ∧
      Canonical normalized := by
  rw [normalizeNamespacePath] at h
  split at h
  · cases h
  split at h
  · cases h
  split at h
  · cases h
  split at h
  · cases h
  rename_i hblank hslash hempty hclass
  have hallowed : ∀ ch ∈ unixPath text, isAllowed ch = true := by
    rw [ALLOWED_NAMESPACE, Bool.not_eq_true', Bool.not_eq_false, Bool.and_eq_true,
      List.all_eq_true] at hclass
    exact hclass.2
  have hhead : (unixPath text).head? ≠ some '/' := by
    intro hhead
    obtain ⟨rest, hrest⟩ := List.head?_eq_some_iff.mp hhead
    rw [hrest] at hslash
    exact hslash rfl
  have hpath := pathOf_eq hallowed
  have hnamed := named_of_allowed hallowed
  rw [hpath, ok_bind, decide_eq_false hhead] at h
  dsimp only at h
  rw [unixPath_eq_self hnamed.normalize.isAllowed] at h
  split at h
  · cases h
  obtain rfl := Except.ok.inj h
  rename_i hinside
  rw [Bool.or_eq_true, not_or, Bool.or_eq_true, not_or, Bool.or_eq_true, not_or,
    decide_eq_true_iff, decide_eq_true_iff] at hinside
  obtain ⟨⟨⟨hsome, -⟩, hparent⟩, hup⟩ := hinside
  obtain ⟨⟨d, hdepth⟩, hcanonical⟩ := canonical_of_inside hnamed
    (fun hnil ↦ hsome (by rw [hnil]; rfl)) hparent hup
  rw [Path.depth_map_ofList] at hdepth
  exact ⟨hhead, fun hinfix ↦ hempty ((JavaText.contains_iff _ _).mpr hinfix), ⟨d, hdepth⟩,
    hcanonical⟩

end Canonical

/-- A text that can name an object: it is not absolute with either slash, none of its segments
between two others is empty, and its segments end, from left to right, below the root. -/
structure Relative (text : List Char) : Prop where
  relative : text.head? ≠ some '/' ∧ text.head? ≠ some '\\'
  inner : [] ∉ (segments (unixPath text)).tail.dropLast
  below : ∃ d, Paths.depth ['.'] ['.', '.'] 0 (Paths.segments '/' (unixPath text)) = some (d + 1)

theorem relative_of_ok {text normalized : List Char}
    (h : normalizeNamespacePath (some text) = .ok normalized) : Relative text := by
  obtain ⟨hhead, hempty, hbelow, -⟩ := normalizeNamespacePath_ok h
  refine ⟨⟨fun hslash ↦ hhead ?_, fun hslash ↦ hhead ?_⟩, fun hinner ↦ hempty ?_, hbelow⟩
  · rw [unixPath, List.head?_map, hslash]
    rfl
  · rw [unixPath, List.head?_map, hslash]
    rfl
  · exact (Paths.infix_of_nil_mem_inner (unixPath text)).2 hinner

/-- **The laws of storage identifiers.** A text that is accepted has a normal form of non-empty
segments, none of them one of the special names; the form is normal, is read back from the
identifier of the text and denotes something strictly below every root. A text that is absolute, has
an empty segment inside or denotes the root or something above it is refused. -/
theorem storageUri_laws (literal : List Char → Bool) (text : List Char) :
    (∀ normalized, normalizeNamespacePath (some text) = .ok normalized →
      (normalized.head? ≠ some '/' ∧ ∀ segment ∈ segments normalized,
        segment ≠ [] ∧ segment ≠ ['.'] ∧ segment ≠ ['.', '.']) ∧
      normalizeNamespacePath (some normalized) = .ok normalized ∧
      (∃ uri, toStorageUri (some text) = .ok uri ∧
        namespacePath literal (some uri) = .ok normalized) ∧
      ∀ root : Directory, ∃ path, LocalStorageClient.resolve root normalized = .ok path ∧
        path.StrictlyInside root.path) ∧
    (¬Relative text → ∃ exception, normalizeNamespacePath (some text) = .error exception) := by
  refine ⟨fun normalized h ↦ ?_, fun hnot ↦ ?_⟩
  · obtain ⟨-, -, -, hcanonical⟩ := normalizeNamespacePath_ok h
    refine ⟨⟨hcanonical.head?, fun segment hsegment ↦ ⟨hcanonical.nonempty segment hsegment,
        hcanonical.plain segment hsegment⟩⟩, normalizeNamespacePath_canonical hcanonical,
      ⟨SCHEME ++ "://".toList ++ normalized, ?_, namespacePath_canonical hcanonical⟩,
      fun root ↦ ⟨_, resolve_canonical hcanonical root, ?_⟩⟩
    · rw [toStorageUri, h]
      rfl
    · refine Path.strictlyInside_append.mpr fun hnil ↦ ?_
      exact segments_ne_nil normalized (List.map_eq_nil_iff.mp hnil)
  · rcases h : normalizeNamespacePath (some text) with exception | normalized
    · exact ⟨exception, rfl⟩
    · exact absurd (relative_of_ok h) hnot

/-- A namespace with both slashes and names that cancel. -/
theorem storageUri_laws_small :
    (∃ uri, toStorageUri (some "a\\./b/../c/".toList) = .ok uri ∧
        namespacePath (fun _ ↦ false) (some uri) = .ok "a/c".toList) ∧
      ∃ exception, normalizeNamespacePath (some "a/../".toList) = .error exception := by
  obtain ⟨haccepted, -⟩ := storageUri_laws (fun _ ↦ false) "a\\./b/../c/".toList
  obtain ⟨-, hrefused⟩ := storageUri_laws (fun _ ↦ false) "a/../".toList
  refine ⟨(haccepted "a/c".toList (by decide +kernel)).2.2.1, hrefused fun hrelative ↦ ?_⟩
  obtain ⟨d, hd⟩ := hrelative.below
  have hzero : Paths.depth ['.'] ['.', '.'] 0 (Paths.segments '/' (unixPath "a/../".toList)) =
    some 0 := by decide
  rw [hzero] at hd
  cases hd

end StorageUris

end FuzzingCiCd.Executor
