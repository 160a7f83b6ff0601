import FuzzingCiCd.Executor.SecretSearches

/-!
# Secrets behind their names

A text holds a secret behind a name and a separator. The redactor is meant to hide it: whatever the
secret is, the redacted text is the same.

The searches for private keys and for JSON fields leave the name and the secret alone or cover both.
The search for names comes to the name, and then it masks the secret, unless an earlier name has
taken this one for its own value. A value without quotes ends at the first space, and line ends are
spaces like others: of the two lines `password:` and `token: abc` the redactor masks `token:` and
keeps `abc`.

A secret may end in `-----BEGIN` or `-----END`, and the text behind it may go on with the rest of
the marker. Where the search finds a private key with this marker, the key takes a part of the
secret and of the text behind it, and the text depends on the secret (`Marks`). Where it finds none,
the secret is masked as any other (`admits_of_not_infix`).

## Main results

* `conceals_of_not_taken`: a name that no earlier one takes hides its secret.
* `not_conceals_of_taken`: a name that an earlier one takes does not, unless the mask ends in the
  word `bearer`.
* `conceals_iff`: the two together, for every text around the name.
-/

namespace FuzzingCiCd.Executor.SecretRedactor

open Replacement

/-! ## Secrets in a text -/

/-- A place for a secret in a text: the name of the secret and its separator, with what stands
before and after. -/
structure Occurrence where
  before : List Char
  stem : Stem
  after : List Char
  apart : ∀ c ∈ before.getLast?, isWord c = false
  ends : ∀ c ∈ after.head?, isDelimiter c = true

namespace Occurrence

def text (o : Occurrence) (value : List Char) : String :=
  String.ofList (o.before ++ o.stem.chars ++ value ++ o.after)

/-- A value whose end does not make it a part of a private key. -/
structure Admits (redactor : SecretRedactor) (o : Occurrence) (value : List Char) : Prop where
  plain : IsValue value
  unmarked : ¬ Marks (privateKeyBlock redactor.lineSeparator.toList redactor.mask.toList)
    (o.before ++ o.stem.chars) o.after value

end Occurrence

/-- **Noninterference.** The redacted text does not depend on the secret. -/
def Conceals (redactor : SecretRedactor) (o : Occurrence) : Prop :=
  ∀ value value', o.Admits redactor value → o.Admits redactor value' →
    redactor.redact (o.text value) = redactor.redact (o.text value')

/-- **An earlier name takes this one.** The searches for private keys and for JSON fields leave the
name and the secret in their place, and the search for names finds a match that begins before the
name and ends in the name or its separator. -/
def Taken (redactor : SecretRedactor) (o : Occurrence) : Prop :=
  ∃ front tail front' tail',
    Stays (privateKeyBlock redactor.lineSeparator.toList redactor.mask.toList)
      (o.Admits redactor) o.stem o.before o.after front tail ∧
    Stays (jsonSecretValue redactor.mask.toList) (o.Admits redactor) o.stem front tail
      front' tail' ∧
    ∀ value, o.Admits redactor value → Straddles (keyValueSecret redactor.mask.toList) none front'
      o.stem.chars (value ++ tail')

/-- A marker that has no partner behind it is masked with the secret. -/
theorem Occurrence.admits_of_not_infix {redactor : SecretRedactor} {o : Occurrence}
    {value : List Char} (hvalue : IsValue value)
    (h : ¬ "-----END ".toList <:+: value ++ o.after) : o.Admits redactor value := by
  refine ⟨hvalue, fun hmarks ↦ h ?_⟩
  have hproper : Proper (privateKeyBlock redactor.lineSeparator.toList redactor.mask.toList) :=
    proper_of_masking fun _ _ _ ↦ masking_privateKeyBlock redactor.visible
  rcases hmarks with ⟨start, m, rfl, out, b, rest, htext, -, hfound⟩ |
    ⟨start, label, front', m, rfl, -, ⟨out, b, rest, htext, -, hfound⟩, hmatched⟩
  · have hrest : rest = "-----BEGIN".toList ++ o.after := by
      simp only [List.append_assoc] at htext
      exact (List.append_cancel_left (List.append_cancel_left (List.append_cancel_left htext))).symm
    have hinfix : m.matched <:+: start ++ "-----BEGIN".toList ++ o.after :=
      ⟨start, m.rest, by rw [List.append_assoc start, ← (hproper _ _ _ hfound).1, hrest]; simp⟩
    exact (infix_of_privateKeyBlock hfound).trans hinfix
  · rw [(hproper _ _ _ hfound).1, ← List.append_assoc front', hmatched, endMarker_eq] at htext
    simp only [List.append_assoc] at htext
    have hbehind := List.append_cancel_left (List.append_cancel_left htext)
    refine ⟨start, label ++ "-----".toList ++ m.rest, ?_⟩
    rw [List.append_assoc start "-----END".toList, hbehind]
    simp

example {redactor : SecretRedactor} {o : Occurrence} (h : o.after = " PRIVATE KEY-----".toList) :
    o.Admits redactor "x-----BEGIN".toList :=
  o.admits_of_not_infix ⟨by decide, JavaText.forall_mem_of_all (by decide)⟩ (by rw [h]; decide)

/-! ## Names that are found -/

section Found

variable {redactor : SecretRedactor} {o : Occurrence}

theorem redact_ofList (cs : List Char) : redactor.redact (String.ofList cs) =
    String.ofList (replaceMatches (authorizationBearer redactor.mask.toList)
      (replaceMatches (keyValueSecret redactor.mask.toList)
        (replaceMatches (jsonSecretValue redactor.mask.toList)
          (replaceMatches
            (privateKeyBlock redactor.lineSeparator.toList redactor.mask.toList) cs)))) := by
  rw [redact, String.toList_ofList]

theorem proper_keyValueSecret : Proper (keyValueSecret redactor.mask.toList) :=
  proper_of_masking fun _ _ _ ↦ masking_keyValueSecret redactor.visible

theorem keyValueSecret_of_bar {mask : List Char} {c : Char} (hc : BarsNames c)
    (before : Option Char) (cs : List Char) : keyValueSecret mask before (c :: cs) = none := by
  rw [keyValueSecret]
  split_ifs
  · rw [secretAt, chain, secretFieldName_of_bar hc]
    rfl
  · rfl

/-- The search for names does not look behind the delimiter after a value. -/
theorem sweep_keyValueSecret {tail : List Char} (htail : ∀ c ∈ tail.head?, isDelimiter c = true)
    (b b' : Option Char) : sweep (keyValueSecret redactor.mask.toList) b tail =
      sweep (keyValueSecret redactor.mask.toList) b' tail := by
  rcases tail with _ | ⟨c, tail⟩
  · rfl
  · have hbars : BarsNames c := barsNames_of_not (isNameChar_of_isDelimiter (htail c rfl))
    refine sweep_before proper_keyValueSecret ?_
    rw [keyValueSecret_of_bar hbars, keyValueSecret_of_bar hbars]

/-- **The search for names.** It covers the secret, or an earlier name takes this one. -/
theorem straddles_or_hides {Fills : List Char → Prop} {stem : Stem} {front tail : List Char}
    (hfills : ∀ w, Fills w → IsValue w) (hfront : ∀ c ∈ front.getLast?, isWord c = false)
    (htail : ∀ c ∈ tail.head?, isDelimiter c = true) :
    (∃ out, (∀ w, Fills w → Comes (keyValueSecret redactor.mask.toList) none
        (front ++ stem.chars ++ w ++ tail) out ((front ++ stem.chars).getLast?.or none)
        (w ++ tail)) ∧
      ∀ w, Fills w → Straddles (keyValueSecret redactor.mask.toList) none front stem.chars
        (w ++ tail)) ∨
    Replacement.Hides (keyValueSecret redactor.mask.toList) Fills none (front ++ stem.chars)
      tail := by
  rcases comes_or_hides proper_keyValueSecret (fun w hw ↦ (hfills w hw).nonempty)
    (sweep_keyValueSecret htail)
    none (fun b place hplace hne _ ↦ treated_keyValueSecret hfills htail hplace hne) with
    ⟨out, hcomes⟩ | hhides
  swap
  · exact Or.inr hhides
  refine Or.inl ⟨out, hcomes, fun w hw ↦ ?_⟩
  have hw' := hcomes w hw
  rw [List.append_assoc (front ++ stem.chars)] at hw'
  rcases hw'.cut proper_keyValueSecret with ⟨out₁, out₂, b, hbefore, hbehind, -⟩ | hstraddles
  swap
  · exact hstraddles
  -- the search comes to the name, where it masks the value
  exfalso
  have hb : boundaryBefore b = true := by
    rw [hbefore.before_eq proper_keyValueSecret (List.append_assoc _ _ _), boundaryBefore]
    rcases hlast : front.getLast? with _ | c
    · rfl
    · rw [Option.some_or, Option.any_some, hfront c hlast]
      rfl
  obtain ⟨m, hfound, hrest⟩ := @keyValueSecret_at_stem redactor.mask.toList stem w tail
    (hfills w hw) htail b hb
  rcases hchars : stem.chars ++ (w ++ tail) with _ | ⟨c, cs⟩
  · exact absurd (List.append_eq_nil_iff.mp hchars).1
      (List.append_ne_nil_of_left_ne_nil stem.key_ne_nil _)
  have hpos := List.length_pos_iff.mpr (hfills w hw).nonempty
  have hkey := List.length_pos_iff.mpr stem.key_ne_nil
  have hlength := congrArg List.length hchars
  rw [hchars] at hbehind hfound
  simp only [Stem.chars, List.length_append, List.length_cons] at hlength
  rcases hbehind.first (by simp only [List.length_append, List.length_cons]; omega) with
    ⟨hnone, -⟩ | ⟨m', hm', out', hcomes'⟩
  · cases hfound.symm.trans hnone
  · obtain rfl := Option.some.inj (hfound.symm.trans hm')
    have hle := (hcomes'.suffix proper_keyValueSecret).length_le
    rw [hrest, List.length_append] at hle
    omega

/-- **A name that no earlier one takes.** The redacted text does not depend on the secret. -/
theorem conceals_of_not_taken (h : ¬ Taken redactor o) : Conceals redactor o := by
  have hfills : ∀ w, o.Admits redactor w → IsValue w := fun w hw ↦ hw.plain
  have hall : ∃ out, ∀ value, o.Admits redactor value → redactor.redact (o.text value) = out := by
    simp only [Occurrence.text, redact_ofList]
    rcases privateKeyBlock_stays redactor.visible (fun w hw ↦ ⟨hfills w hw, hw.unmarked⟩) o.apart
      o.ends with ⟨front, tail, hblocks⟩ | ⟨out, hout⟩
    swap
    · exact ⟨_, fun value hvalue ↦ by rw [hout value hvalue]⟩
    rcases jsonSecretValue_stays redactor.visible hfills hblocks.apart hblocks.ends with
      ⟨front', tail', hfields⟩ | ⟨out, hout⟩
    swap
    · exact ⟨_, fun value hvalue ↦ by rw [hblocks.replaced value hvalue, hout value hvalue]⟩
    rcases @straddles_or_hides redactor (o.Admits redactor) o.stem front' tail' hfills
      hfields.apart hfields.ends with ⟨-, -, hstraddles⟩ | hhides
    · exact absurd ⟨front, tail, front', tail', hblocks, hfields, hstraddles⟩ h
    · obtain ⟨out, hout⟩ := hhides.same
      have hswept : ∀ value, o.Admits redactor value →
          replaceMatches (keyValueSecret redactor.mask.toList)
            (front' ++ o.stem.chars ++ value ++ tail') = out := hout
      exact ⟨_, fun value hvalue ↦ by
        rw [hblocks.replaced value hvalue, hfields.replaced value hvalue, hswept value hvalue]⟩
  obtain ⟨out, hout⟩ := hall
  exact fun value value' hvalue hvalue' ↦ (hout value hvalue).trans (hout value' hvalue').symm

end Found

/-! ## Names that an earlier one takes

A match that begins before the name and ends in it, or in its separator, has the name for its
value. From there on the text is that of another search: what stands behind the mask is a rest of
the separator and the value, and only the word `bearer` in front of it could make a token of
that. -/

/-- A text that ends in the word `bearer`. -/
def EndsInBearer (cs : List Char) : Prop :=
  ∃ front word spaces, cs = front ++ word ++ spaces ∧ word.map foldAscii = "bearer".toList ∧
    ∀ c ∈ spaces, isSpace c = true

theorem chain_concat {pieces : List Piece} {last : Piece} {cs taken left : List Char}
    (h : chain (pieces ++ [last]) cs = some (taken, left)) :
    ∃ taken₁ left₁ taken₂, chain pieces cs = some (taken₁, left₁) ∧
      last left₁ = some (taken₂, left) ∧ taken = taken₁ ++ taken₂ := by
  induction pieces generalizing cs taken with
  | nil =>
    rw [List.nil_append, chain, Option.bind_eq_some_iff] at h
    obtain ⟨⟨taken₂, left₂⟩, hlast, h⟩ := h
    obtain ⟨rfl, rfl⟩ := Prod.mk.inj (Option.some.inj h)
    exact ⟨[], cs, taken₂, rfl, hlast, List.append_nil _⟩
  | cons piece pieces ih =>
    rw [List.cons_append, chain, Option.bind_eq_some_iff] at h
    obtain ⟨⟨taken₀, left₀⟩, hpiece, h⟩ := h
    obtain ⟨⟨more, left'⟩, hrest, heq⟩ := Option.map_eq_some_iff.mp h
    obtain ⟨rfl, rfl⟩ := Prod.mk.inj heq
    obtain ⟨taken₁, left₁, taken₂, hchain, hlast, rfl⟩ := ih hrest
    refine ⟨taken₀ ++ taken₁, left₁, taken₂, ?_, hlast, (List.append_assoc _ _ _).symm⟩
    rw [chain, hpiece, Option.bind_some, hchain]
    rfl

section Taken

variable {mask : List Char}

theorem found_of_keyValueSecret {before : Option Char} {cs : List Char} {m : Match Char}
    (h : keyValueSecret mask before cs = some m) :
    ∃ head value, m.matched = head ++ value ∧ m.replacement = head ++ mask ∧
      (∃ c ∈ head.getLast?, isSpace c = true ∨ c = ':' ∨ c = '=') ∧
      secretValue (value ++ m.rest) = some (value, m.rest) := by
  rw [keyValueSecret] at h
  split_ifs at h
  rw [secretAt, Option.bind_eq_some_iff] at h
  obtain ⟨⟨head, left⟩, hhead, h⟩ := h
  obtain ⟨⟨value, rest⟩, hvalue, h⟩ := Option.bind_eq_some_iff.mp h
  obtain ⟨⟨closing, rest'⟩, hclosing, rfl⟩ := Option.map_eq_some_iff.mp h
  obtain ⟨rfl, rfl⟩ := Prod.mk.inj (Option.some.inj hclosing)
  refine ⟨head, value, List.append_nil _, List.append_nil _, ?_, ?_⟩
  · obtain ⟨taken, left', spaces, hchain, hspaces, rfl⟩ := @chain_concat
      [secretFieldName, boundary, run isSpace, one (fun c ↦ c = ':' || c = '=')] _ _ _ _ hhead
    obtain ⟨taken, left'', sign, -, hsign, rfl⟩ :=
      @chain_concat [secretFieldName, boundary, run isSpace] _ _ _ _ hchain
    obtain ⟨c, rfl, hc⟩ := eq_singleton_of_one hsign
    rcases List.eq_nil_or_concat' spaces with rfl | ⟨spaces, d, rfl⟩
    · refine ⟨c, by simp, Or.inr ?_⟩
      simpa using hc
    · refine ⟨d, ?_, Or.inl (forall_of_run hspaces d (by simp))⟩
      rw [← List.append_assoc, List.getLast?_concat]
      rfl
  · rw [← splits_secretValue left value rest hvalue]
    exact hvalue

/-- A quoted value ends in its quote. -/
theorem getLast?_of_quoted {quote : Char} {cs value left : List Char}
    (h : quoted quote cs = some (value, left)) : value.getLast? = some quote := by
  obtain ⟨taken, left', closing, -, hclosing, rfl⟩ :=
    @chain_concat [one (· = quote), run (· ≠ quote)] _ _ _ _ h
  obtain ⟨c, rfl, hc⟩ := eq_singleton_of_one hclosing
  rw [List.getLast?_append, ← of_decide_eq_true hc]
  rfl

/-- A value that ends in a character of a name or a separator ends at a delimiter. -/
theorem delimiter_of_secretValue {value left rest : List Char} {stem : Stem}
    (hvalue : secretValue (value ++ (left ++ rest)) = some (value, left ++ rest))
    (hlast : ∀ c ∈ value.getLast?, c ∈ stem.chars)
    (hrest : ∃ c ∈ rest.head?, isDelimiter c = false) :
    ∃ c left', left = c :: left' ∧ isDelimiter c = true := by
  -- a quote is in no name and in no separator, so the value has none
  have hquoted : ∀ quote, isNameChar quote = false → isSpace quote = false →
      quote ≠ ':' ∧ quote ≠ '=' → ∀ left', quoted quote (value ++ (left ++ rest)) ≠
        some (value, left') :=
    fun quote hname hspace hsign left' h ↦
      stem.not_mem_chars hname hspace hsign (hlast quote (getLast?_of_quoted h))
  rw [secretValue] at hvalue
  rcases hdouble : quoted '"' (value ++ (left ++ rest)) with _ | found
  swap
  · rw [hdouble] at hvalue
    rw [Option.some.inj hvalue] at hdouble
    exact absurd hdouble (hquoted '"' (by decide) (by decide) (by decide) _)
  rcases hsingle : quoted '\'' (value ++ (left ++ rest)) with _ | found
  swap
  · rw [hdouble, hsingle] at hvalue
    rw [Option.some.inj hvalue] at hsingle
    exact absurd hsingle (hquoted '\'' (by decide) (by decide) (by decide) _)
  rw [hdouble, hsingle] at hvalue
  change run₁ (fun c ↦ !isDelimiter c) _ = _ at hvalue
  rw [run₁] at hvalue
  split_ifs at hvalue
  obtain ⟨-, hdrop⟩ := Prod.mk.inj (Option.some.inj hvalue)
  have hhead := List.head?_dropWhile_not (fun c ↦ !isDelimiter c) (value ++ (left ++ rest))
  rw [hdrop] at hhead
  rcases left with _ | ⟨c, left⟩
  · obtain ⟨c, hc, hfalse⟩ := hrest
    rw [List.nil_append, hc] at hhead
    have htrue : (!isDelimiter c) = false := hhead
    rw [hfalse] at htrue
    cases htrue
  · refine ⟨c, left, rfl, ?_⟩
    simpa using hhead

/-- What an earlier match leaves of a name and its separator: the last spaces of the separator, or
its sign with spaces before it. -/
structure Leaves (stem : Stem) (spaces sign : List Char) : Prop where
  suffix : spaces ++ sign <:+ stem.separator
  nonempty : spaces ≠ []
  blank : ∀ c ∈ spaces, isSpace c = true
  signed : sign = [] ∨ sign = stem.sign :: stem.padding'

theorem leaves_of_delimiter {stem : Stem} {c : Char} {left : List Char}
    (h : c :: left <:+ stem.chars) (hc : isDelimiter c = true) :
    ∃ spaces sign, c :: left = spaces ++ sign ∧ Leaves stem spaces sign := by
  have hseparator : c :: left <:+ stem.separator := by
    rcases suffix_or_append_of_suffix h with hsuffix | ⟨place, hplace, hkey⟩
    · exact hsuffix
    rcases place with _ | ⟨d, place⟩
    · exact hplace ▸ List.suffix_refl _
    · -- no character of a name is a delimiter
      obtain ⟨rfl, -⟩ := List.cons.inj hplace
      have hname := stem.isNameChar_of_mem_key (hkey.subset List.mem_cons_self)
      rw [isNameChar_of_isDelimiter hc] at hname
      cases hname
  have hne : c ≠ stem.sign := by
    rintro rfl
    rw [stem.isDelimiter_sign] at hc
    cases hc
  rcases suffix_or_append_of_suffix hseparator with hsuffix | ⟨spaces, hsplit, hspaces⟩
  · rcases List.suffix_cons_iff.mp hsuffix with heq | hsuffix
    · exact absurd (List.cons.inj heq).1 hne
    · exact ⟨c :: left, [], (List.append_nil _).symm, by rwa [List.append_nil],
        List.cons_ne_nil _ _, fun d hd ↦ stem.spaces' d (hsuffix.subset hd), Or.inl rfl⟩
  · refine ⟨spaces, _, hsplit, hsplit ▸ hseparator, ?_,
      fun d hd ↦ stem.spaces d (hspaces.subset hd), Or.inr rfl⟩
    rintro rfl
    exact hne (List.cons.inj hsplit).1

/-- **An earlier match.** The search puts out the mask and what the match leaves of the name, and
comes to the value. -/
theorem comes_of_straddles {stem : Stem} {front rest : List Char}
    (hproper : Proper (keyValueSecret mask)) (hrest : ∃ c ∈ rest.head?, isDelimiter c = false)
    (h : Straddles (keyValueSecret mask) none front stem.chars rest) :
    ∃ out spaces sign b, Comes (keyValueSecret mask) none (front ++ stem.chars ++ rest)
        (out ++ mask ++ (spaces ++ sign)) b rest ∧ Leaves stem spaces sign ∧
      ∃ c ∈ out.getLast?, isSpace c = true ∨ c = ':' ∨ c = '=' := by
  obtain ⟨out, b, front', place, taken, left, m, rfl, hstretch, hplace, htaken, hcomes, hfound,
    hmatched⟩ := h
  obtain ⟨head, value, hsplit, hreplacement, ⟨c, hc, hlast⟩, hvalue⟩ :=
    found_of_keyValueSecret hfound
  have hleft : m.rest = left ++ rest := by
    have htext := (hproper _ _ _ hfound).1
    rw [hmatched, hstretch, List.append_assoc, List.append_assoc, List.append_assoc] at htext
    exact (List.append_cancel_left (List.append_cancel_left htext)).symm
  rw [hleft] at hvalue
  -- the value of the match ends in the name or in its separator
  have hends : ∀ d ∈ value.getLast?, d ∈ stem.chars := by
    intro d hd
    have hend := congrArg List.getLast? (hsplit.symm.trans hmatched)
    rw [List.getLast?_append, Option.mem_def.mp hd, List.getLast?_append,
      List.getLast?_eq_some_getLast htaken] at hend
    rw [hstretch, Option.some.inj hend]
    exact List.mem_append_left _ (List.getLast_mem htaken)
  obtain ⟨d, left', rfl, hd⟩ := delimiter_of_secretValue hvalue hends hrest
  obtain ⟨spaces, sign, heq, hleaves⟩ :=
    leaves_of_delimiter (hstretch ▸ List.suffix_append taken _) hd
  rw [heq] at hleft
  have hnone : ∀ b place, place <:+ spaces ++ sign → place ≠ [] →
      keyValueSecret mask b (place ++ rest) = none := by
    rintro b (_ | ⟨e, place⟩) hsuffix hne
    · exact absurd rfl hne
    · exact keyValueSecret_of_bar (barsNames_of_not (stem.isNameChar_of_mem_separator
        ((hsuffix.trans hleaves.suffix).subset List.mem_cons_self))) _ _
  have hbehind : ∃ b', Comes (keyValueSecret mask) m.matched.getLast? m.rest (spaces ++ sign) b'
      rest := ⟨_, hleft ▸ comes_of_none _ hnone⟩
  obtain ⟨b', hbehind⟩ := hbehind
  obtain ⟨e, place, rfl⟩ := List.exists_cons_of_ne_nil hplace
  have hwhole := hcomes.trans (.replace hfound hbehind)
  rw [hreplacement, ← List.append_assoc out, ← List.append_assoc out] at hwhole
  refine ⟨out ++ head, spaces, sign, b', hwhole, hleaves, c, ?_, hlast⟩
  rw [List.getLast?_append, Option.mem_def.mp hc]
  rfl

end Taken

/-! ## Bearer tokens -/

section Bearer

variable {mask : List Char}

theorem eq_of_trailing {class' : Char → Bool} {a b s s' : List Char} (h : a ++ s = b ++ s')
    (hs : ∀ c ∈ s, class' c = true) (hs' : ∀ c ∈ s', class' c = true)
    (ha : ∀ c ∈ a.getLast?, class' c = false) (hb : ∀ c ∈ b.getLast?, class' c = false) :
    a = b := by
  have hdrop : ∀ {a s : List Char}, (∀ c ∈ s, class' c = true) →
      (∀ c ∈ a.getLast?, class' c = false) → (a ++ s).reverse.dropWhile class' = a.reverse := by
    intro a s hs ha
    rw [List.reverse_append]
    refine (takeWhile_of_all (fun c hc ↦ hs c (List.mem_reverse.mp hc)) fun c hc ↦ ha c ?_).2
    rwa [List.head?_reverse] at hc
  have hreverse := hdrop hs ha
  rw [h, hdrop hs' hb] at hreverse
  exact (List.reverse_injective hreverse).symm

theorem exists_trailing (class' : Char → Bool) (cs : List Char) : ∃ a s, cs = a ++ s ∧
    (∀ c ∈ s, class' c = true) ∧ ∀ c ∈ a.getLast?, class' c = false := by
  refine ⟨(cs.reverse.dropWhile class').reverse, (cs.reverse.takeWhile class').reverse, ?_,
    fun c hc ↦ ?_, fun c hc ↦ ?_⟩
  · rw [← List.reverse_append, List.takeWhile_append_dropWhile, List.reverse_reverse]
  · exact List.mem_takeWhile_imp (List.mem_reverse.mp hc)
  · rw [List.getLast?_reverse] at hc
    have hhead := List.head?_dropWhile_not class' cs.reverse
    rw [Option.mem_def.mp hc] at hhead
    simpa using hhead

theorem getLast?_of_bearer {word : List Char} (h : word.map foldAscii = "bearer".toList) :
    ∃ c ∈ word.getLast?, foldAscii c = 'r' := by
  have hlast := congrArg List.getLast? h
  rw [List.getLast?_map] at hlast
  obtain ⟨c, hc, heq⟩ := Option.map_eq_some_iff.mp hlast
  exact ⟨c, hc, heq⟩

theorem isLetter_of_mem_bearer {word : List Char} (h : word.map foldAscii = "bearer".toList)
    {c : Char} (hc : c ∈ word) : isSpace c = false ∧ c ≠ ':' ∧ c ≠ '=' := by
  have hletters : ("bearer".toList.all fun p ↦ isNameChar p) = true := by decide
  have hmem : foldAscii c ∈ "bearer".toList := h ▸ List.mem_map_of_mem hc
  have hname := isNameChar_foldAscii (List.all_eq_true.mp hletters _ hmem)
  refine ⟨?_, ?_, ?_⟩
  · by_contra hspace
    rw [Bool.not_eq_false] at hspace
    rw [isNameChar_of_isDelimiter (isDelimiter_of_isSpace hspace)] at hname
    cases hname
  · rintro rfl
    cases hname
  · rintro rfl
    cases hname

theorem isWhitespace_of_isSpace {c : Char} (h : isSpace c = true) :
    JavaText.isWhitespace c = true := by
  have hcode : (9 ≤ c.toNat ∧ c.toNat ≤ 13) ∨ c = ' ' := by simpa [isSpace] using h
  rcases hcode with hcode | rfl
  · simp [JavaText.isWhitespace, hcode]
  · decide

/-- Behind a name and its sign the word has to stand in the mask. -/
theorem endsInBearer_of_append {out spaces : List Char}
    (hmask : mask.all JavaText.isWhitespace = false) (hspaces : ∀ c ∈ spaces, isSpace c = true)
    (hout : ∃ c ∈ out.getLast?, isSpace c = true ∨ c = ':' ∨ c = '=')
    (h : EndsInBearer (out ++ mask ++ spaces)) : EndsInBearer mask := by
  obtain ⟨front, word, spaces', heq, hword, hspaces'⟩ := h
  obtain ⟨visible, trailing, rfl, htrailing, hvisible⟩ := exists_trailing isSpace mask
  have hne : visible ≠ [] := by
    rintro rfl
    rw [List.nil_append, List.all_eq_false] at hmask
    obtain ⟨c, hc, hfalse⟩ := hmask
    exact hfalse (isWhitespace_of_isSpace (htrailing c hc))
  have hends : out ++ visible = front ++ word := by
    refine @eq_of_trailing isSpace _ _ (trailing ++ spaces) spaces' (by simpa using heq)
      (fun c hc ↦ (List.mem_append.mp hc).elim (htrailing c) (hspaces c)) hspaces' ?_ ?_
    · rw [List.getLast?_append, List.getLast?_eq_some_getLast hne, Option.some_or,
        ← List.getLast?_eq_some_getLast hne]
      exact hvisible
    · obtain ⟨c, hc, -⟩ := getLast?_of_bearer hword
      rw [List.getLast?_append, Option.mem_def.mp hc, Option.some_or]
      intro d hd
      obtain rfl := Option.some.inj hd
      exact (isLetter_of_mem_bearer hword (List.mem_of_mem_getLast? hc)).1
  rcases suffix_or_append_of_suffix ⟨front, hends.symm⟩ with ⟨front', rfl⟩ | ⟨s, hsplit, hsuffix⟩
  · exact ⟨front', word, trailing, rfl, hword, htrailing⟩
  rcases List.eq_nil_or_concat' s with rfl | ⟨s, d, rfl⟩
  · exact ⟨[], word, trailing, by rw [hsplit]; rfl, hword, htrailing⟩
  · -- a letter of the word stands at the end of the name and its sign
    exfalso
    obtain ⟨c, hc, hlast⟩ := hout
    obtain ⟨more, rfl⟩ := hsuffix
    rw [← List.append_assoc, List.getLast?_concat] at hc
    obtain rfl := Option.some.inj hc
    obtain ⟨hspace, hcolon, hequals⟩ := @isLetter_of_mem_bearer word hword d
      (by rw [hsplit]; exact List.mem_append_left _ (List.mem_append_right _ List.mem_cons_self))
    rcases hlast with h | h | h
    · rw [hspace] at h
      cases h
    · exact hcolon h
    · exact hequals h

/-! ### The search for bearer tokens -/

/-- What the search for bearer tokens takes in front of a token. -/
def bearerHead : Piece :=
  chain [literal foldAscii "authorization".toList, run isSpace, one (· = ':'), run isSpace,
    literal foldAscii "bearer".toList, run₁ isSpace]

/-- One of two values that differ and are of no use to the search. -/
def Probe (value : List Char) : Prop := value = ['0'] ∨ value = ['1']

theorem Probe.head {value : List Char} (h : Probe value) {bars : Char → Prop} (h₀ : bars '0')
    (h₁ : bars '1') : ∃ c rest, value = c :: rest ∧ bars c := by
  rcases h with rfl | rfl
  · exact ⟨'0', [], rfl, h₀⟩
  · exact ⟨'1', [], rfl, h₁⟩

theorem Probe.isValue {value : List Char} (h : Probe value) : IsValue value := by
  rcases h with rfl | rfl
  · exact ⟨List.cons_ne_nil _ _, JavaText.forall_mem_of_all (by decide)⟩
  · exact ⟨List.cons_ne_nil _ _, JavaText.forall_mem_of_all (by decide)⟩

theorem settled_bearerHead (place tail : List Char) : Settled bearerHead Probe place tail := by
  have hword : ∀ {text head}, (∀ p ∈ text, foldAscii '0' ≠ p) → (∀ p ∈ text, foldAscii '1' ≠ p) →
      Settled (literal foldAscii text) Probe head tail :=
    fun h₀ h₁ ↦ settled_literal (barred_of_fills fun w hw ↦ hw.head h₀ h₁)
  have hspaces : ∀ {head}, Settled (run isSpace) Probe head tail :=
    settled_run (barred_of_fills fun w hw ↦ hw.head (by decide) (by decide))
  refine settled_cons (hword (JavaText.forall_mem_of_all (by decide))
    (JavaText.forall_mem_of_all (by decide))) fun _ _ _ _ ↦ ?_
  refine settled_cons hspaces fun _ _ _ _ ↦ ?_
  refine settled_cons (settled_one fun _ w hw ↦ hw.head (by decide) (by decide)) fun _ _ _ _ ↦ ?_
  refine settled_cons hspaces fun _ _ _ _ ↦ ?_
  refine settled_cons (hword (JavaText.forall_mem_of_all (by decide))
    (JavaText.forall_mem_of_all (by decide))) fun _ _ _ _ ↦ ?_
  refine settled_cons (settled_run₁ (barred_of_fills fun w hw ↦ hw.head (by decide) (by decide)))
    fun _ _ _ _ ↦ settled_nil

theorem treated_authorizationBearer {place tail : List Char}
    (htail : ∀ c ∈ tail.head?, isDelimiter c = true) (before : Option Char) :
    Treated (authorizationBearer mask) Probe before place tail := by
  by_cases hboundary : boundaryBefore before = true
  swap
  · exact .passes fun w _ ↦ if_neg hboundary
  refine treated_secretAt (fun cs ↦ if_pos hboundary) (splits_chain (by simp))
    (settled_bearerHead place tail) (fun left _ ↦ framed_bareValue (fun w hw ↦ hw.isValue) htail)
    fun _ _ ↦ settled_nil

/-- **A bearer token that covers a probe.** In front of the probe stands the word, then spaces, and
no delimiter behind these. -/
theorem bearer_of_covers {before : Option Char} {place tail taken replacement rest w : List Char}
    (hw : Probe w) (h : authorizationBearer mask before (place ++ w ++ tail) =
      some ⟨place ++ w ++ taken, replacement, rest⟩) :
    ∃ front word spaces left, place = front ++ word ++ spaces ++ left ∧
      word.map foldAscii = "bearer".toList ∧ (∀ c ∈ spaces, isSpace c = true) ∧
      ∀ c ∈ left, isDelimiter c = false := by
  rw [authorizationBearer] at h
  split_ifs at h
  rw [secretAt, Option.bind_eq_some_iff] at h
  obtain ⟨⟨head, behind⟩, hhead, h⟩ := h
  obtain ⟨⟨value, rest'⟩, hvalue, h⟩ := Option.bind_eq_some_iff.mp h
  obtain ⟨⟨closing, rest''⟩, hclosing, heq⟩ := Option.map_eq_some_iff.mp h
  obtain ⟨rfl, rfl⟩ := Prod.mk.inj (Option.some.inj hclosing)
  obtain ⟨hmatched, -, -⟩ := (Match.mk.injEq _ _ _ _ _ _).mp heq
  rcases settled_bearerHead place tail with hnone | ⟨head', left, rfl, hsome⟩
  · cases hhead.symm.trans (hnone w hw)
  obtain ⟨rfl, rfl⟩ := Prod.mk.inj (Option.some.inj (hhead.symm.trans (hsome w hw)))
  have hplain : ∀ c ∈ value, isDelimiter c = false := by
    change run₁ (fun c ↦ !isDelimiter c) _ = _ at hvalue
    rw [run₁] at hvalue
    split_ifs at hvalue
    intro c hc
    simpa using forall_of_run hvalue c hc
  have hleft : value = left ++ (w ++ taken) := by simpa using hmatched
  obtain ⟨before', behind, spaces, hbefore, hspaces, rfl⟩ := @chain_concat
    [literal foldAscii "authorization".toList, run isSpace, one (· = ':'), run isSpace,
      literal foldAscii "bearer".toList] _ _ _ _ hhead
  obtain ⟨front, behind', word, -, hword, rfl⟩ := @chain_concat
    [literal foldAscii "authorization".toList, run isSpace, one (· = ':'), run isSpace] _ _ _ _
    hbefore
  rw [run₁] at hspaces
  split_ifs at hspaces
  refine ⟨front, word, spaces, left, rfl, map_of_literal hword, forall_of_run hspaces,
    fun c hc ↦ hplain c ?_⟩
  rw [hleft]
  exact List.mem_append_left _ hc

/-- What an earlier match leaves of a name keeps the word out of the way. -/
theorem endsInBearer_of_leaves {stem : Stem} {out spaces sign front word spaces' left : List Char}
    (hleaves : Leaves stem spaces sign) (hword : word.map foldAscii = "bearer".toList)
    (hspaces' : ∀ c ∈ spaces', isSpace c = true) (hleft : ∀ c ∈ left, isDelimiter c = false)
    (h : out ++ spaces ++ sign = front ++ word ++ spaces' ++ left) :
    EndsInBearer (out ++ spaces) := by
  rcases List.append_eq_append_iff.mp h with ⟨more, hmore, hsign⟩ | ⟨more, hmore, hsplit⟩
  · rcases more with _ | ⟨c, more⟩
    · rw [List.append_nil] at hmore
      exact ⟨front, word, spaces', hmore.symm, hword, hspaces'⟩
    · -- the sign would be the last letter of the word
      exfalso
      have hsigned := hleaves.signed.resolve_left (by rw [hsign]; exact List.cons_ne_nil _ _)
      obtain ⟨rfl, hpadding⟩ := List.cons.inj (hsign.symm.trans hsigned)
      have hends : front ++ word = out ++ spaces ++ [stem.sign] := by
        refine @eq_of_trailing isSpace _ _ spaces' more (by simpa using hmore) hspaces'
          (fun c hc ↦ stem.spaces' c (hpadding ▸ List.mem_append_left _ hc)) ?_ ?_
        · obtain ⟨c, hc, -⟩ := getLast?_of_bearer hword
          rw [List.getLast?_append, Option.mem_def.mp hc, Option.some_or]
          intro d hd
          obtain rfl := Option.some.inj hd
          exact (isLetter_of_mem_bearer hword (List.mem_of_mem_getLast? hc)).1
        · rw [List.getLast?_concat]
          intro d hd
          obtain rfl := Option.some.inj hd
          exact stem.isSpace_sign
      have hlast := congrArg List.getLast? hends
      obtain ⟨c, hc, -⟩ := getLast?_of_bearer hword
      rw [List.getLast?_append, Option.mem_def.mp hc, Option.some_or, List.getLast?_concat] at hlast
      obtain rfl := Option.some.inj hlast
      obtain ⟨-, hcolon, hequals⟩ := isLetter_of_mem_bearer hword (List.mem_of_mem_getLast? hc)
      exact stem.signs.elim hcolon hequals
  · rcases List.eq_nil_or_concat' more with rfl | ⟨more, c, rfl⟩
    · rw [List.append_nil] at hmore
      exact ⟨front, word, spaces', hmore, hword, hspaces'⟩
    · -- a space would stand behind the last delimiter
      exfalso
      have hlast := congrArg List.getLast? hmore
      rw [List.getLast?_append, List.getLast?_eq_some_getLast hleaves.nonempty, Option.some_or,
        ← List.append_assoc, List.getLast?_concat] at hlast
      have hspace := hleaves.blank _ (List.getLast_mem hleaves.nonempty)
      rw [Option.some.inj hlast] at hspace
      have hplain := hleft c (by rw [hsplit]; simp)
      rw [isDelimiter_of_isSpace hspace] at hplain
      cases hplain

end Bearer

/-! ## When the redacted text depends on the secret

If an earlier name takes this one, the search for names goes on behind the separator with the
value in front of it, and puts it out as it is. Two values that differ in one digit then have
different texts, unless the search for bearer tokens, which comes last, masks them; for that the
mask would have to end in its word. -/

section Disclosed

variable {redactor : SecretRedactor} {o : Occurrence}

theorem proper_authorizationBearer : Proper (authorizationBearer redactor.mask.toList) :=
  proper_of_masking fun _ _ _ ↦ masking_authorizationBearer redactor.visible

theorem Probe.admits {value : List Char} (h : Probe value) : o.Admits redactor value := by
  refine ⟨h.isValue, fun hmarks ↦ ?_⟩
  have hlength : value.length = 1 := by
    rcases h with rfl | rfl
    · rfl
    · rfl
  rcases hmarks with ⟨start, _, rfl, _⟩ | ⟨start, _, _, _, rfl, _, _, _⟩
  · rw [List.length_append] at hlength
    exact absurd (Nat.le_add_left _ start.length) (by rw [hlength]; decide)
  · rw [List.length_append] at hlength
    exact absurd (Nat.le_add_left _ start.length) (by rw [hlength]; decide)

/-- **A name that an earlier one takes.** The search for names leaves the value behind the mask. -/
theorem kept_of_straddles {stem : Stem} {front tail : List Char}
    (hfront : ∀ c ∈ front.getLast?, isWord c = false)
    (htail : ∀ c ∈ tail.head?, isDelimiter c = true)
    (h : ∀ w, Probe w → Straddles (keyValueSecret redactor.mask.toList) none front stem.chars
      (w ++ tail)) :
    ∃ out spaces sign tail', Leaves stem spaces sign ∧
      (∃ c ∈ out.getLast?, isSpace c = true ∨ c = ':' ∨ c = '=') ∧
      (∀ c ∈ tail'.head?, isDelimiter c = true) ∧
      ∀ w, Probe w → replaceMatches (keyValueSecret redactor.mask.toList)
        (front ++ stem.chars ++ w ++ tail) =
          out ++ redactor.mask.toList ++ spaces ++ sign ++ w ++ tail' := by
  have hproper : Proper (keyValueSecret redactor.mask.toList) := proper_keyValueSecret
  have hzero : Probe ['0'] := Or.inl rfl
  obtain ⟨out, spaces, sign, b, hmatch, hleaves, hout⟩ :=
    comes_of_straddles hproper ⟨'0', rfl, by decide⟩ (h ['0'] hzero)
  rw [← List.append_assoc (front ++ stem.chars)] at hmatch
  rcases straddles_or_hides (fun w (hw : Probe w) ↦ hw.isValue) hfront htail with
    ⟨out', hcomes, -⟩ | hhides
  swap
  · exact absurd hmatch (hhides.unseen ['0'] hzero _ _)
  have hbehind : ∀ w, Probe w → ∀ b, sweep (keyValueSecret redactor.mask.toList) b (w ++ tail) =
      w ++ sweep (keyValueSecret redactor.mask.toList) none tail := by
    intro w hw b
    have hname : ∀ c, isNameChar c = false →
        sweep (keyValueSecret redactor.mask.toList) b ([c] ++ tail) =
          [c] ++ sweep (keyValueSecret redactor.mask.toList) none tail := by
      intro c hc
      rw [sweep_keyValueSecret htail none (some c)]
      exact sweep_copy (keyValueSecret_of_bar (barsNames_of_not hc) _ _)
    rcases hw with rfl | rfl
    · exact hname '0' (by decide)
    · exact hname '1' (by decide)
  -- both ways to the value put out the same
  have hsame := ((hcomes _ hzero).sweep_eq hproper).symm.trans (hmatch.sweep_eq hproper)
  rw [hbehind _ hzero, hbehind _ hzero] at hsame
  obtain rfl := List.append_cancel_right hsame
  refine ⟨out, spaces, sign, sweep (keyValueSecret redactor.mask.toList) none tail, hleaves, hout,
    ?_, fun w hw ↦ ?_⟩
  · rcases tail with _ | ⟨c, tail⟩
    · exact htail
    · rw [sweep_copy (keyValueSecret_of_bar
        (barsNames_of_not (isNameChar_of_isDelimiter (htail c rfl))) _ _)]
      exact htail
  · have hswept := (hcomes w hw).sweep_eq hproper
    rw [hbehind w hw, ← List.append_assoc, ← List.append_assoc] at hswept
    exact hswept

theorem authorizationBearer_of_ne {mask : List Char} {c : Char} (hc : foldAscii c ≠ 'a')
    (before : Option Char) (cs : List Char) : authorizationBearer mask before (c :: cs) = none := by
  have hword : literal foldAscii "authorization".toList (c :: cs) = none := if_neg hc
  rw [authorizationBearer]
  split_ifs
  · rw [secretAt, chain, hword]
    rfl
  · rfl

theorem foldAscii_of_isDelimiter {c : Char} (h : isDelimiter c = true) : foldAscii c ≠ 'a' := by
  intro hfold
  have hname := @isNameChar_foldAscii c (by rw [hfold]; decide)
  rw [isNameChar_of_isDelimiter h] at hname
  cases hname

/-- **A name that an earlier one takes.** Two values have different redacted texts, unless the mask
ends in the word `bearer`. -/
theorem not_conceals_of_taken (hmask : ¬ EndsInBearer redactor.mask.toList)
    (h : Taken redactor o) : ¬ Conceals redactor o := by
  intro hconceals
  obtain ⟨front, tail, front', tail', hblocks, hfields, hstraddles⟩ := h
  obtain ⟨out, spaces, sign, tail'', hleaves, hout, htail, hkept⟩ :=
    kept_of_straddles hfields.apart hfields.ends fun w hw ↦ hstraddles w hw.admits
  have hredact : ∀ w, Probe w → redactor.redact (o.text w) =
      String.ofList (sweep (authorizationBearer redactor.mask.toList) none
        (out ++ redactor.mask.toList ++ spaces ++ sign ++ w ++ tail'')) := by
    intro w hw
    rw [Occurrence.text, redact_ofList, hblocks.replaced w hw.admits,
      hfields.replaced w hw.admits, hkept w hw]
    rfl
  have hends : ∀ b b', sweep (authorizationBearer redactor.mask.toList) b tail'' =
      sweep (authorizationBearer redactor.mask.toList) b' tail'' := by
    intro b b'
    rcases tail'' with _ | ⟨c, tail''⟩
    · rfl
    · have hne := foldAscii_of_isDelimiter (htail c rfl)
      refine sweep_before proper_authorizationBearer ?_
      rw [authorizationBearer_of_ne hne, authorizationBearer_of_ne hne]
  rcases comes_or_hides proper_authorizationBearer (fun w (hw : Probe w) ↦ hw.isValue.nonempty)
    hends none (fun b place _ _ _ ↦ treated_authorizationBearer htail b) with
    ⟨out', hcomes⟩ | hhides
  · -- the search for tokens comes to the value, which stays in the text
    have hzero : Probe ['0'] := Or.inl rfl
    have hone : Probe ['1'] := Or.inr rfl
    have hsame := hconceals ['0'] ['1'] hzero.admits hone.admits
    rw [hredact _ hzero, hredact _ hone, (hcomes _ hzero).sweep_eq proper_authorizationBearer,
      (hcomes _ hone).sweep_eq proper_authorizationBearer] at hsame
    have hrest := List.append_cancel_left (String.ofList_injective hsame)
    rw [List.singleton_append, List.singleton_append,
      sweep_copy (authorizationBearer_of_ne (by decide) _ _),
      sweep_copy (authorizationBearer_of_ne (by decide) _ _)] at hrest
    exact absurd (List.cons.inj hrest).1 (by decide)
  · -- a token would begin in the mask
    obtain ⟨b, place, taken, rest, ⟨more, hmore⟩, -, -, hfound⟩ := hhides.covered
    obtain ⟨replacement, hfound⟩ := hfound ['0'] (Or.inl rfl)
    obtain ⟨before, word, spaces', left, rfl, hword, hspaces', hleft⟩ :=
      bearer_of_covers (Or.inl rfl) hfound
    refine hmask (endsInBearer_of_append redactor.visible hleaves.blank hout
      (@endsInBearer_of_leaves _ _ _ _ (more ++ before) _ _ _ hleaves hword hspaces' hleft ?_))
    rw [← hmore]
    simp only [List.append_assoc]

/-- **When the redacted text does not depend on the secret.** It does not where no earlier name
takes this one, and with a mask that does not end in the word `bearer` only there. -/
theorem conceals_iff (redactor : SecretRedactor) (o : Occurrence) :
    (¬ Taken redactor o → Conceals redactor o) ∧
      (¬ EndsInBearer redactor.mask.toList → (Conceals redactor o ↔ ¬ Taken redactor o)) :=
  ⟨conceals_of_not_taken, fun hmask ↦
    ⟨fun h htaken ↦ not_conceals_of_taken hmask htaken h, conceals_of_not_taken⟩⟩

/-- Behind a line `password:` the name `token` is masked in the place of its value. -/
def tokenLine : Occurrence where
  before := "password:\n".toList
  stem :=
    { key := "token".toList
      padding := []
      sign := ':'
      padding' := [' ']
      named := by decide
      spaces := List.forall_mem_nil _
      signs := Or.inl rfl
      spaces' := List.forall_mem_singleton.mpr (by decide) }
  after := []
  apart := by
    rintro c ⟨⟩
    rfl
  ends := by
    rintro c ⟨⟩

theorem not_concealed : ¬ ∀ (redactor : SecretRedactor) (o : Occurrence) (value value' : List Char),
    IsValue value → IsValue value' →
      redactor.redact (o.text value) = redactor.redact (o.text value') := by
  intro h
  have hsame := h (default "\n") tokenLine "abc".toList "def".toList
    ⟨by decide, JavaText.forall_mem_of_all (by decide)⟩
    ⟨by decide, JavaText.forall_mem_of_all (by decide)⟩
  rw [Occurrence.text, Occurrence.text, redact_ofList, redact_ofList] at hsame
  exact absurd (String.ofList_injective hsame) (by decide +kernel)

end Disclosed

end FuzzingCiCd.Executor.SecretRedactor
