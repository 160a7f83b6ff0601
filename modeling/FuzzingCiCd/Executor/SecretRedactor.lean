import FuzzingCiCd.Foundation.Replacement
import FuzzingCiCd.Foundation.Text

/-!
# The redactor of secrets

`SecretRedactor.redact` puts a mask in the place of what looks like a secret: the body of a private
key, a string field of a JSON text, a value after the name of a secret, and a bearer token.

The four regular expressions never have to go back on a choice. No name of a secret begins another
one, and after each repetition comes a character that the repetition does not take. So a pattern is
a *chain* of pieces, each of which takes what it can from the front of the text.

## Main results

* `replaceMatches_eq`: the bound on the loop of a search does not matter.
* `isBlank_redact`: a text is blank exactly when it is blank after the redaction.
-/

namespace FuzzingCiCd.Executor

open Replacement

namespace SecretRedactor

/-! ## Pieces of a pattern -/

/-- A piece takes a part off the front of a text, or does not match. -/
abbrev Piece := List Char → Option (List Char × List Char)

/-- `(?i)` on a character: ASCII letters only. -/
def foldAscii (c : Char) : Char :=
  if 65 ≤ c.toNat && c.toNat ≤ 90 then Char.ofNat (c.toNat + 32) else c

/-- `\s`. -/
def isSpace (c : Char) : Bool := (9 ≤ c.toNat && c.toNat ≤ 13) || c = ' '

/-- A character next to which `\b` looks for a boundary. -/
def isWord (c : Char) : Bool :=
  (48 ≤ c.toNat && c.toNat ≤ 57) || (65 ≤ c.toNat && c.toNat ≤ 90) ||
    (97 ≤ c.toNat && c.toNat ≤ 122) || c = '_'

/-- What `.` does not take. -/
def isLineTerminator (c : Char) : Bool :=
  c = '\n' || c = '\r' || c.toNat = 0x85 || c.toNat = 0x2028 || c.toNat = 0x2029

/-- A given text, up to a folding of characters. -/
def literal (fold : Char → Char) : List Char → Piece
  | [], cs => some ([], cs)
  | _ :: _, [] => none
  | p :: ps, c :: cs =>
    if fold c = p then (literal fold ps cs).map fun taken ↦ (c :: taken.1, taken.2) else none

/-- As many characters of a class as there are. -/
def run (class' : Char → Bool) : Piece := fun cs ↦ some (cs.takeWhile class', cs.dropWhile class')

/-- As many characters of a class as there are, at least one. -/
def run₁ (class' : Char → Bool) : Piece := fun cs ↦
  if (cs.takeWhile class').isEmpty then none else run class' cs

/-- One character of a class. -/
def one (class' : Char → Bool) : Piece
  | [] => none
  | c :: cs => if class' c then some ([c], cs) else none

/-- Pieces one after the other. -/
def chain : List Piece → Piece
  | [], cs => some ([], cs)
  | piece :: pieces, cs =>
    (piece cs).bind fun taken ↦
      (chain pieces taken.2).map fun more ↦ (taken.1 ++ more.1, more.2)

/-- `\b` before a word, seen from the character before it. -/
def boundaryBefore (before : Option Char) : Bool := !(before.any isWord)

/-- `\b` behind a word. -/
def boundary : Piece := fun cs ↦ if cs.head?.any isWord then none else some ([], cs)

/-- `SECRET_FIELD_NAMES`. -/
def secretFieldNames : List String :=
  ["password", "passwd", "pwd", "token", "accesstoken", "access-token", "access_token",
    "refreshtoken", "refresh-token", "refresh_token", "apikey", "api-key", "api_key", "privatekey",
    "private-key", "private_key"]

def secretFieldName : Piece := fun cs ↦
  secretFieldNames.findSome? fun name ↦ literal foldAscii name.toList cs

/-! ## Patterns -/

/-- `(?:\\.|[^"\\])*+`: the inside of a JSON string. -/
def jsonCharacters : List Char → List Char × List Char
  | [] => ([], [])
  | c :: cs =>
    if c = '\\' then
      match cs with
      | [] => ([], [c])
      | d :: ds =>
        if isLineTerminator d then ([], c :: d :: ds)
        else (c :: d :: (jsonCharacters ds).1, (jsonCharacters ds).2)
    else if c = '"' then ([], c :: cs)
    else (c :: (jsonCharacters cs).1, (jsonCharacters cs).2)

/-- `[^\s,;&]+`. -/
def bareValue : Piece := run₁ fun c ↦ !(isSpace c || c = ',' || c = ';' || c = '&')

/-- A text between two quotes of one kind. -/
def quoted (quote : Char) : Piece :=
  chain [one (· = quote), run (· ≠ quote), one (· = quote)]

/-- `"[^"]*"|'[^']*'|[^\s,;&]+`. -/
def secretValue : Piece := fun cs ↦
  (quoted '"' cs).orElse fun _ ↦ (quoted '\'' cs).orElse fun _ ↦ bareValue cs

/-- A place where the given pieces stand before, as and behind a secret. -/
def secretAt (prefix' secret suffix' : Piece) (mask cs : List Char) : Option (Match Char) :=
  (prefix' cs).bind fun head ↦ (secret head.2).bind fun value ↦
    (suffix' value.2).map fun tail ↦
      ⟨head.1 ++ value.1 ++ tail.1, head.1 ++ mask ++ tail.1, tail.2⟩

def jsonSecretValue (mask : List Char) : Pattern Char := fun _ cs ↦
  secretAt
    (chain [one (· = '"'), secretFieldName, one (· = '"'), run isSpace, one (· = ':'), run isSpace,
      one (· = '"')])
    (fun cs ↦ some (jsonCharacters cs)) (one (· = '"')) mask cs

def keyValueSecret (mask : List Char) : Pattern Char := fun before cs ↦
  if boundaryBefore before then
    secretAt
      (chain [secretFieldName, boundary, run isSpace, one (fun c ↦ c = ':' || c = '='),
        run isSpace])
      secretValue (chain []) mask cs
  else none

def authorizationBearer (mask : List Char) : Pattern Char := fun before cs ↦
  if boundaryBefore before then
    secretAt
      (chain [literal foldAscii "authorization".toList, run isSpace, one (· = ':'), run isSpace,
        literal foldAscii "bearer".toList, run₁ isSpace])
      bareValue (chain []) mask cs
  else none

def isLabel (c : Char) : Bool :=
  (48 ≤ c.toNat && c.toNat ≤ 57) || (65 ≤ c.toNat && c.toNat ≤ 90) || c = ' '

/-- `[A-Z0-9 ]*PRIVATE KEY`. -/
def keyLabel : Piece := fun cs ↦
  if "PRIVATE KEY".toList.isSuffixOf (cs.takeWhile isLabel) then run isLabel cs else none

/-- `.*?` up to the first occurrence of a text, with the text taken off. -/
def upTo (end' : List Char) : List Char → Option (List Char × List Char)
  | [] => (literal id end' []).map fun taken ↦ ([], taken.2)
  | c :: cs =>
    match literal id end' (c :: cs) with
    | some taken => some ([], taken.2)
    | none => (upTo end' cs).map fun skipped ↦ (c :: skipped.1, skipped.2)

/-- `PRIVATE_KEY_BLOCK` with its replacement. -/
def privateKeyBlock (lineSeparator mask : List Char) : Pattern Char := fun _ cs ↦
  (literal id "-----BEGIN ".toList cs).bind fun begin' ↦ (keyLabel begin'.2).bind fun label ↦
    (literal id "-----".toList label.2).bind fun dashes ↦
      let head := begin'.1 ++ label.1 ++ dashes.1
      let end' := "-----END ".toList ++ label.1 ++ "-----".toList
      (upTo end' dashes.2).map fun body ↦
        ⟨head ++ body.1 ++ end', head ++ lineSeparator ++ mask ++ lineSeparator ++ end', body.2⟩

end SecretRedactor

/-! ## The redactor -/

/-- A redactor is built with a mask that can be seen. -/
structure SecretRedactor where
  mask : String
  lineSeparator : String
  visible : JavaText.isBlank mask = false

namespace SecretRedactor

/-- The mask `DEFAULT_MASK`. -/
def default (lineSeparator : String) : SecretRedactor := ⟨"[REDACTED]", lineSeparator, by decide⟩

/-- The loop over the matches of a pattern. -/
def replaceMatches (pattern : Pattern Char) (cs : List Char) : List Char :=
  replaceAll pattern cs.length none cs

@[irreducible] def redact (redactor : SecretRedactor) (text : String) : String :=
  let mask := redactor.mask.toList
  let redacted := replaceMatches (privateKeyBlock redactor.lineSeparator.toList mask) text.toList
  let redacted := replaceMatches (jsonSecretValue mask) redacted
  let redacted := replaceMatches (keyValueSecret mask) redacted
  String.ofList (replaceMatches (authorizationBearer mask) redacted)

/-! ## Pieces split the text

A piece of a pattern takes a beginning of the text and leaves the rest, and a chain of pieces
takes what they take together. All patterns are chains, so each match is a part of the text in
front of what is left. -/

/-- What a piece takes and what it leaves make up the text. -/
def Splits (piece : Piece) : Prop := ∀ cs m r, piece cs = some (m, r) → cs = m ++ r

theorem splits_literal (fold : Char → Char) (text : List Char) : Splits (literal fold text) := by
  induction text with
  | nil =>
    intro cs m r h
    obtain ⟨rfl, rfl⟩ := Prod.mk.inj (Option.some.inj h)
    rfl
  | cons p ps ih =>
    rintro (_ | ⟨c, cs⟩) m r h
    · cases h
    rw [literal] at h
    by_cases hc : fold c = p
    · rw [if_pos hc, Option.map_eq_some_iff] at h
      obtain ⟨⟨m', r'⟩, htaken, heq⟩ := h
      obtain ⟨rfl, rfl⟩ := Prod.mk.inj heq
      rw [ih cs m' r' htaken]
      rfl
    · rw [if_neg hc] at h
      cases h

theorem splits_run (class' : Char → Bool) : Splits (run class') := by
  intro cs m r h
  obtain ⟨rfl, rfl⟩ := Prod.mk.inj (Option.some.inj h)
  exact List.takeWhile_append_dropWhile.symm

theorem splits_run₁ (class' : Char → Bool) : Splits (run₁ class') := by
  intro cs m r h
  rw [run₁] at h
  split_ifs at h
  exact splits_run class' cs m r h

theorem splits_one (class' : Char → Bool) : Splits (one class') := by
  rintro (_ | ⟨c, cs⟩) m r h
  · cases h
  · rw [one] at h
    split_ifs at h
    obtain ⟨rfl, rfl⟩ := Prod.mk.inj (Option.some.inj h)
    rfl

theorem splits_boundary : Splits boundary := by
  intro cs m r h
  rw [boundary] at h
  split_ifs at h
  obtain ⟨rfl, rfl⟩ := Prod.mk.inj (Option.some.inj h)
  rfl

theorem splits_chain {pieces : List Piece} (h : ∀ piece ∈ pieces, Splits piece) :
    Splits (chain pieces) := by
  induction pieces with
  | nil =>
    intro cs m r hchain
    obtain ⟨rfl, rfl⟩ := Prod.mk.inj (Option.some.inj hchain)
    rfl
  | cons piece pieces ih =>
    rw [List.forall_mem_cons] at h
    intro cs m r hchain
    rw [chain, Option.bind_eq_some_iff] at hchain
    obtain ⟨⟨m₁, r₁⟩, hfirst, hrest⟩ := hchain
    obtain ⟨⟨m₂, r₂⟩, hmore, heq⟩ := Option.map_eq_some_iff.mp hrest
    obtain ⟨rfl, rfl⟩ := Prod.mk.inj heq
    rw [h.1 cs m₁ r₁ hfirst, ih h.2 r₁ m₂ r₂ hmore, List.append_assoc]

theorem splits_secretFieldName : Splits secretFieldName := by
  intro cs m r h
  obtain ⟨name, -, hname⟩ := List.exists_of_findSome?_eq_some h
  exact splits_literal _ _ cs m r hname

theorem jsonCharacters_append (cs : List Char) :
    (jsonCharacters cs).1 ++ (jsonCharacters cs).2 = cs := by
  fun_induction jsonCharacters cs with
  | case1 => rfl
  | case2 => rfl
  | case3 => rfl
  | case4 d ds _ ih => rw [List.cons_append, List.cons_append, ih]
  | case5 => rfl
  | case6 c cs _ _ ih => rw [List.cons_append, ih]

theorem splits_orElse {first second : Piece} (h₁ : Splits first) (h₂ : Splits second) :
    Splits fun cs ↦ (first cs).orElse fun _ ↦ second cs := by
  intro cs m r h
  dsimp only at h
  rcases hfirst : first cs with _ | ⟨m', r'⟩
  · rw [hfirst] at h
    exact h₂ cs m r h
  · rw [hfirst] at h
    obtain ⟨rfl, rfl⟩ := Prod.mk.inj (Option.some.inj h)
    exact h₁ cs m' r' hfirst

theorem splits_secretValue : Splits secretValue := by
  have hquoted : ∀ quote, Splits (quoted quote) := by
    intro quote
    refine splits_chain ?_
    simp only [List.forall_mem_cons]
    exact ⟨splits_one _, splits_run _, splits_one _, by simp⟩
  exact splits_orElse (hquoted _) (splits_orElse (hquoted _) (splits_run₁ _))

theorem splits_keyLabel : Splits keyLabel := by
  intro cs m r h
  rw [keyLabel] at h
  split_ifs at h
  exact splits_run isLabel cs m r h

theorem literal_id {text cs m r : List Char} (h : literal id text cs = some (m, r)) : m = text := by
  induction text generalizing cs m with
  | nil =>
    obtain ⟨rfl, -⟩ := Prod.mk.inj (Option.some.inj h)
    rfl
  | cons p ps ih =>
    rcases cs with _ | ⟨c, cs⟩
    · cases h
    rw [literal] at h
    by_cases hc : id c = p
    · rw [if_pos hc, Option.map_eq_some_iff] at h
      obtain ⟨⟨m', r'⟩, htaken, heq⟩ := h
      obtain ⟨rfl, rfl⟩ := Prod.mk.inj heq
      rw [ih htaken, ← hc]
      rfl
    · rw [if_neg hc] at h
      cases h

theorem upTo_append {end' cs m r : List Char} (h : upTo end' cs = some (m, r)) :
    cs = m ++ end' ++ r := by
  have hend : ∀ {text taken : List Char}, literal id end' text = some (taken, r) →
      text = end' ++ r := by
    intro text taken htaken
    rw [splits_literal id end' text taken r htaken, literal_id htaken]
  induction cs generalizing m with
  | nil =>
    rw [upTo, Option.map_eq_some_iff] at h
    obtain ⟨⟨taken, r'⟩, htaken, heq⟩ := h
    obtain ⟨rfl, rfl⟩ := Prod.mk.inj heq
    exact hend htaken
  | cons c cs ih =>
    rw [upTo] at h
    rcases hfirst : literal id end' (c :: cs) with _ | ⟨taken, r'⟩
    · rw [hfirst, Option.map_eq_some_iff] at h
      obtain ⟨⟨m', r'⟩, hskipped, heq⟩ := h
      obtain ⟨rfl, rfl⟩ := Prod.mk.inj heq
      rw [ih hskipped]
      rfl
    · rw [hfirst] at h
      obtain ⟨rfl, rfl⟩ := Prod.mk.inj (Option.some.inj h)
      exact hend hfirst

/-! ## Matches

A match begins with a visible character and its replacement has one, because the mask has. That
is all that is needed to see that a text that is not blank is not blank after any of the four
passes. -/

/-- A piece takes something, and what it takes begins with a visible character. -/
def Visible (piece : Piece) : Prop :=
  ∀ cs m r, piece cs = some (m, r) → ∃ c m', m = c :: m' ∧ JavaText.isWhitespace c = false

theorem visible_one {class' : Char → Bool}
    (h : ∀ c, class' c = true → JavaText.isWhitespace c = false) : Visible (one class') := by
  rintro (_ | ⟨c, cs⟩) m r hone
  · cases hone
  · rw [one] at hone
    split_ifs at hone with hc
    obtain ⟨rfl, -⟩ := Prod.mk.inj (Option.some.inj hone)
    exact ⟨c, [], rfl, h c hc⟩

theorem visible_chain {piece : Piece} {pieces : List Piece} (h : Visible piece) :
    Visible (chain (piece :: pieces)) := by
  intro cs m r hchain
  rw [chain, Option.bind_eq_some_iff] at hchain
  obtain ⟨⟨m₁, r₁⟩, hfirst, hrest⟩ := hchain
  obtain ⟨⟨m₂, r₂⟩, -, heq⟩ := Option.map_eq_some_iff.mp hrest
  obtain ⟨rfl, -⟩ := Prod.mk.inj heq
  obtain ⟨c, m', rfl, hc⟩ := h cs m₁ r₁ hfirst
  exact ⟨c, m' ++ m₂, rfl, hc⟩

theorem isWhitespace_foldAscii {c : Char} (h : JavaText.isWhitespace c = true) :
    foldAscii c = c := by
  have hrange : ¬ (65 ≤ c.toNat ∧ c.toNat ≤ 90) := by
    rintro ⟨hlow, hhigh⟩
    simp only [JavaText.isWhitespace, Bool.or_eq_true, Bool.and_eq_true, decide_eq_true_eq] at h
    omega
  rw [foldAscii, if_neg (by simpa using hrange)]

theorem visible_literal {fold : Char → Char}
    (hfold : ∀ c, JavaText.isWhitespace c = true → fold c = c) {p : Char} {ps : List Char}
    (hp : JavaText.isWhitespace p = false) : Visible (literal fold (p :: ps)) := by
  rintro (_ | ⟨c, cs⟩) m r h
  · cases h
  rw [literal] at h
  split_ifs at h with hc
  obtain ⟨⟨m', r'⟩, -, heq⟩ := Option.map_eq_some_iff.mp h
  obtain ⟨rfl, -⟩ := Prod.mk.inj heq
  refine ⟨c, m', rfl, ?_⟩
  by_contra hblank
  rw [Bool.not_eq_false] at hblank
  rw [← hc, hfold c hblank, hblank] at hp
  cases hp

theorem visible_secretFieldName : Visible secretFieldName := by
  have hheads : ∀ name ∈ secretFieldNames,
      (name.toList.head?.any fun p ↦ !JavaText.isWhitespace p) = true := by decide
  intro cs m r h
  obtain ⟨name, hmem, hname⟩ := List.exists_of_findSome?_eq_some h
  have hhead := hheads name hmem
  rcases hlist : name.toList with _ | ⟨p, ps⟩
  · rw [hlist] at hhead
    cases hhead
  · rw [hlist] at hhead hname
    exact visible_literal (fun _ ↦ isWhitespace_foldAscii) (by simpa using hhead) cs m r hname

/-- What every match of a pattern is: a part of the text that begins with a visible character, and
a replacement with a visible character. -/
structure Masking (cs : List Char) (m : Match Char) : Prop where
  split : cs = m.matched ++ m.rest
  visible : ∃ c matched, m.matched = c :: matched ∧ JavaText.isWhitespace c = false
  masked : m.replacement.all JavaText.isWhitespace = false

theorem masking_secretAt {prefix' secret suffix' : Piece} {mask cs : List Char} {m : Match Char}
    (hpre : Splits prefix') (hsecret : Splits secret) (hsuffix : Splits suffix')
    (hvisible : Visible prefix') (hmask : mask.all JavaText.isWhitespace = false)
    (h : secretAt prefix' secret suffix' mask cs = some m) : Masking cs m := by
  rw [secretAt, Option.bind_eq_some_iff] at h
  obtain ⟨⟨m₁, r₁⟩, h₁, h⟩ := h
  obtain ⟨⟨m₂, r₂⟩, h₂, h⟩ := Option.bind_eq_some_iff.mp h
  obtain ⟨⟨m₃, r₃⟩, h₃, rfl⟩ := Option.map_eq_some_iff.mp h
  obtain ⟨c, matched, rfl, hc⟩ := hvisible cs m₁ r₁ h₁
  refine ⟨?_, ⟨c, matched ++ m₂ ++ m₃, rfl, hc⟩, ?_⟩
  · rw [hpre cs _ r₁ h₁, hsecret r₁ m₂ r₂ h₂, hsuffix r₂ m₃ r₃ h₃]
    simp only [List.append_assoc]
  · rw [List.all_append, List.all_append, hmask, Bool.and_false, Bool.false_and]

section Patterns

variable {mask : List Char}

theorem masking_jsonSecretValue (hmask : mask.all JavaText.isWhitespace = false)
    {before : Option Char} {cs : List Char} {m : Match Char}
    (h : jsonSecretValue mask before cs = some m) : Masking cs m := by
  have hquote : ∀ c : Char, decide (c = '"') = true → JavaText.isWhitespace c = false := by
    intro c hc
    rw [of_decide_eq_true hc]
    decide
  refine masking_secretAt (splits_chain ?_) ?_ (splits_one _) (visible_chain (visible_one hquote))
    hmask h
  · simp only [List.forall_mem_cons]
    exact ⟨splits_one _, splits_secretFieldName, splits_one _, splits_run _, splits_one _,
      splits_run _, splits_one _, by simp⟩
  · intro cs m r hsecret
    obtain ⟨rfl, rfl⟩ := Prod.mk.inj (Option.some.inj hsecret)
    exact (jsonCharacters_append cs).symm

theorem masking_keyValueSecret (hmask : mask.all JavaText.isWhitespace = false)
    {before : Option Char} {cs : List Char} {m : Match Char}
    (h : keyValueSecret mask before cs = some m) : Masking cs m := by
  rw [keyValueSecret] at h
  split_ifs at h
  refine masking_secretAt (splits_chain ?_) splits_secretValue (splits_chain (by simp))
    (visible_chain visible_secretFieldName) hmask h
  simp only [List.forall_mem_cons]
  exact ⟨splits_secretFieldName, splits_boundary, splits_run _, splits_one _, splits_run _, by simp⟩

theorem masking_authorizationBearer (hmask : mask.all JavaText.isWhitespace = false)
    {before : Option Char} {cs : List Char} {m : Match Char}
    (h : authorizationBearer mask before cs = some m) : Masking cs m := by
  rw [authorizationBearer] at h
  split_ifs at h
  have hvisible : Visible (literal foldAscii "authorization".toList) :=
    visible_literal (fun _ ↦ isWhitespace_foldAscii) (p := 'a') (by decide)
  refine masking_secretAt (splits_chain ?_) (splits_run₁ _) (splits_chain (by simp))
    (visible_chain hvisible) hmask h
  simp only [List.forall_mem_cons]
  exact ⟨splits_literal _ _, splits_run _, splits_one _, splits_run _, splits_literal _ _,
    splits_run₁ _, by simp⟩

theorem masking_privateKeyBlock (hmask : mask.all JavaText.isWhitespace = false)
    {lineSeparator : List Char} {before : Option Char} {cs : List Char} {m : Match Char}
    (h : privateKeyBlock lineSeparator mask before cs = some m) : Masking cs m := by
  rw [privateKeyBlock, Option.bind_eq_some_iff] at h
  obtain ⟨⟨m₁, r₁⟩, h₁, h⟩ := h
  obtain ⟨⟨m₂, r₂⟩, h₂, h⟩ := Option.bind_eq_some_iff.mp h
  obtain ⟨⟨m₃, r₃⟩, h₃, h⟩ := Option.bind_eq_some_iff.mp h
  obtain ⟨⟨m₄, r₄⟩, h₄, rfl⟩ := Option.map_eq_some_iff.mp h
  dsimp only at h₂ h₃ h₄ ⊢
  have hbegin : m₁ = '-' :: "----BEGIN ".toList := literal_id h₁
  have hsplit := upTo_append h₄
  refine ⟨?_, ⟨'-', "----BEGIN ".toList ++ m₂ ++ m₃ ++ m₄ ++
    ("-----END ".toList ++ m₂ ++ "-----".toList), ?_, by decide⟩, ?_⟩
  · rw [splits_literal _ _ cs m₁ r₁ h₁, splits_keyLabel r₁ m₂ r₂ h₂,
      splits_literal _ _ r₂ m₃ r₃ h₃, hsplit]
    simp only [List.append_assoc]
  · rw [hbegin]
    rfl
  · simp only [List.all_append, hmask, Bool.and_false, Bool.false_and]

end Patterns

/-! ## The redacted text -/

/-- A text is blank exactly when it is blank after the matches of a pattern are replaced. -/
theorem isBlank_replaceMatches {pattern : Pattern Char}
    (h : ∀ before cs m, pattern before cs = some m → Masking cs m) (cs : List Char) :
    (replaceMatches pattern cs).all JavaText.isWhitespace = cs.all JavaText.isWhitespace := by
  refine all_replaceAll (fun before c cs m hfound ↦ ?_) _ _ _
  have hmasking := h before (c :: cs) m hfound
  obtain ⟨c', matched, hmatched, hc⟩ := hmasking.visible
  have hsplit := hmasking.split
  rw [hmatched, List.cons_append] at hsplit
  obtain ⟨rfl, -⟩ := List.cons.inj hsplit
  exact ⟨hc, hmasking.masked⟩

theorem proper_of_masking {pattern : Pattern Char}
    (h : ∀ before cs m, pattern before cs = some m → Masking cs m) : Proper pattern := by
  intro before cs m hfound
  have hmasking := h before cs m hfound
  obtain ⟨c, matched, hmatched, -⟩ := hmasking.visible
  exact ⟨hmasking.split, by rw [hmatched]; exact List.cons_ne_nil _ _⟩

/-- **The loop ends by itself.** With any larger bound the matches are replaced in the same way. -/
theorem replaceMatches_eq {pattern : Pattern Char}
    (h : ∀ before cs m, pattern before cs = some m → Masking cs m) {cs : List Char} {n : ℕ}
    (hn : cs.length ≤ n) : replaceMatches pattern cs = replaceAll pattern n none cs :=
  replaceAll_of_le (proper_of_masking h) (Nat.le_refl _) hn

/-- **Blank texts.** A text is blank exactly when it is blank after the redaction. -/
theorem isBlank_redact (redactor : SecretRedactor) (text : String) :
    JavaText.isBlank (redactor.redact text) = JavaText.isBlank text := by
  have hmask : redactor.mask.toList.all JavaText.isWhitespace = false := redactor.visible
  rw [redact, JavaText.isBlank, String.toList_ofList,
    isBlank_replaceMatches fun _ _ _ ↦ masking_authorizationBearer hmask,
    isBlank_replaceMatches fun _ _ _ ↦ masking_keyValueSecret hmask,
    isBlank_replaceMatches fun _ _ _ ↦ masking_jsonSecretValue hmask,
    isBlank_replaceMatches fun _ _ _ ↦ masking_privateKeyBlock hmask]
  rfl

example : (default "\n").redact
    "private_key='inline-key'\nAuthorization: Bearer eyJh next=visible" =
    "private_key=[REDACTED]\nAuthorization: Bearer [REDACTED] next=visible" := by decide +kernel

end SecretRedactor

end FuzzingCiCd.Executor
