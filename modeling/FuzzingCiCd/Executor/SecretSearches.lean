import FuzzingCiCd.Executor.SecretFrames
import Mathlib.Data.List.Chain

/-!
# The searches of the redactor around a name

A *stem* is a name of a secret, in any letter case, with the separator behind it. In front of a
value it keeps the pieces of the patterns from reading on into the value: none of them takes its
sign before the name is over.

The searches for private keys and for JSON fields cover the secret or leave the stem and the secret
in their place (`Stays`). The one exception is a secret that ends in `-----BEGIN` or `-----END`,
where the text behind it goes on with the rest of the marker: `Marks` says that the search finds a
private key with this marker. A marker that has no partner stays in the text and is masked with the
secret. The search for names masks the secret when it comes to the stem.
-/

namespace FuzzingCiCd.Executor.SecretRedactor

open Replacement

/-! ## Names and separators

The characters of names, the sign and the spaces of a separator exclude each other. Almost every
step of the searches at the places of a pair is decided by this, so the lemmas on single
characters come first. -/

/-- The characters of the names of secrets, with their capitals. -/
def isNameChar (c : Char) : Bool :=
  (65 ≤ c.toNat && c.toNat ≤ 90) || (97 ≤ c.toNat && c.toNat ≤ 122) || c = '-' || c = '_'

/-- A name of a secret in any letter case, with a separator behind it. -/
structure Stem where
  key : List Char
  padding : List Char
  sign : Char
  padding' : List Char
  named : String.ofList (key.map foldAscii) ∈ secretFieldNames
  spaces : ∀ c ∈ padding, isSpace c = true
  signs : sign = ':' ∨ sign = '='
  spaces' : ∀ c ∈ padding', isSpace c = true

def Stem.separator (stem : Stem) : List Char := stem.padding ++ stem.sign :: stem.padding'

def Stem.chars (stem : Stem) : List Char := stem.key ++ stem.separator

/-- A character that is in no name. -/
def BarsNames (c : Char) : Prop := ∀ name ∈ secretFieldNames, ∀ p ∈ name.toList, foldAscii c ≠ p

theorem isNameChar_of_mem : ∀ name ∈ secretFieldNames, ∀ p ∈ name.toList, isNameChar p = true := by
  have hall : (secretFieldNames.all fun name ↦ name.toList.all isNameChar) = true := by decide
  intro name hname p hp
  exact List.all_eq_true.mp (List.all_eq_true.mp hall name hname) p hp

theorem isNameChar_foldAscii {c : Char} (h : isNameChar (foldAscii c) = true) :
    isNameChar c = true := by
  rw [foldAscii] at h
  by_cases hcapital : (65 ≤ c.toNat && c.toNat ≤ 90) = true
  · rw [isNameChar, hcapital]
    rfl
  · rwa [if_neg hcapital] at h

theorem barsNames_of_not {c : Char} (h : isNameChar c = false) : BarsNames c := by
  intro name hname p hp heq
  rw [isNameChar_foldAscii (heq ▸ isNameChar_of_mem name hname p hp)] at h
  cases h

theorem isNameChar_of_isDelimiter {c : Char} (h : isDelimiter c = true) : isNameChar c = false := by
  have hcode : (9 ≤ c.toNat ∧ c.toNat ≤ 13) ∨ c = ' ' ∨ c = ',' ∨ c = ';' ∨ c = '&' := by
    simpa [isDelimiter, isSpace, or_assoc] using h
  rcases hcode with ⟨hlow, hhigh⟩ | rfl | rfl | rfl | rfl
  · have hdash : c ≠ '-' := by rintro rfl; exact absurd hhigh (by decide)
    have hline : c ≠ '_' := by rintro rfl; exact absurd hhigh (by decide)
    simp [isNameChar, hdash, hline]
    omega
  · decide
  · decide
  · decide
  · decide

theorem isDelimiter_of_isSpace {c : Char} (h : isSpace c = true) : isDelimiter c = true := by
  rw [isDelimiter, h]
  rfl

namespace Stem

variable (stem : Stem)

theorem isNameChar_of_mem_key {c : Char} (hc : c ∈ stem.key) : isNameChar c = true := by
  refine isNameChar_foldAscii (isNameChar_of_mem _ stem.named _ ?_)
  rw [String.toList_ofList]
  exact List.mem_map_of_mem hc

theorem isNameChar_sign : isNameChar stem.sign = false := by
  rcases stem.signs with h | h
  · rw [h]
    decide
  · rw [h]
    decide

theorem isSpace_sign : isSpace stem.sign = false := by
  rcases stem.signs with h | h
  · rw [h]
    decide
  · rw [h]
    decide

theorem isDelimiter_sign : isDelimiter stem.sign = false := by
  rcases stem.signs with h | h
  · rw [h]
    decide
  · rw [h]
    decide

theorem isNameChar_of_mem_separator {c : Char} (hc : c ∈ stem.separator) :
    isNameChar c = false := by
  rcases List.mem_append.mp hc with hc | hc
  · exact isNameChar_of_isDelimiter (isDelimiter_of_isSpace (stem.spaces c hc))
  rcases List.mem_cons.mp hc with rfl | hc
  · exact stem.isNameChar_sign
  · exact isNameChar_of_isDelimiter (isDelimiter_of_isSpace (stem.spaces' c hc))

theorem key_ne_nil : stem.key ≠ [] := by
  intro h
  have hnamed := stem.named
  rw [h] at hnamed
  exact absurd hnamed (by decide)

theorem separator_ne_nil : stem.separator ≠ [] := by
  rw [separator]
  exact List.append_ne_nil_of_right_ne_nil _ (List.cons_ne_nil _ _)

theorem not_mem_chars {c : Char} (hname : isNameChar c = false) (hspace : isSpace c = false)
    (hsign : c ≠ ':' ∧ c ≠ '=') : c ∉ stem.chars := by
  intro hc
  rcases List.mem_append.mp hc with hc | hc
  · rw [stem.isNameChar_of_mem_key hc] at hname
    cases hname
  rcases List.mem_append.mp hc with hc | hc
  · rw [stem.spaces c hc] at hspace
    cases hspace
  rcases List.mem_cons.mp hc with rfl | hc
  · exact stem.signs.elim hsign.1 hsign.2
  · rw [stem.spaces' c hc] at hspace
    cases hspace

/-- A place in front of the end of a stem has its sign before it, or is among its last spaces. -/
theorem sign_mem_or {front place : List Char} (h : place <:+ front ++ stem.chars) :
    stem.sign ∈ place ∨ place <:+ stem.padding' := by
  have hsign : stem.sign :: stem.padding' <:+ front ++ stem.chars :=
    ⟨front ++ (stem.key ++ stem.padding), by simp [chars, separator]⟩
  rcases List.suffix_or_suffix_of_suffix h hsign with hplace | hplace
  · rcases List.suffix_cons_iff.mp hplace with rfl | hplace
    · exact Or.inl List.mem_cons_self
    · exact Or.inr hplace
  · exact Or.inl (hplace.subset List.mem_cons_self)

theorem getLast?_chars {c : Char} (hc : c ∈ stem.chars.getLast?) :
    c = stem.sign ∨ isSpace c = true := by
  have hlast : stem.chars.getLast? = (stem.sign :: stem.padding').getLast? := by
    rw [chars, separator, List.getLast?_append, List.getLast?_append, List.getLast?_cons]
    rfl
  rw [hlast] at hc
  rcases List.mem_cons.mp (List.mem_of_mem_getLast? hc) with rfl | hmem
  · exact Or.inl rfl
  · exact Or.inr (stem.spaces' c hmem)

theorem getLast?_of_suffix {front left : List Char} (h : left <:+ front ++ stem.chars) {c : Char}
    (hc : c ∈ left.getLast?) : c = stem.sign ∨ isSpace c = true := by
  obtain ⟨more, hmore⟩ := h
  have hlast := congrArg List.getLast? hmore
  rw [List.getLast?_append, List.getLast?_append, Option.mem_def.mp hc, Option.some_or] at hlast
  have hne : stem.chars ≠ [] := List.append_ne_nil_of_left_ne_nil stem.key_ne_nil _
  rw [List.getLast?_eq_some_getLast hne, Option.some_or, ← List.getLast?_eq_some_getLast hne]
    at hlast
  exact stem.getLast?_chars hlast.symm

end Stem

/-! ## What the pieces take -/

section Takes

variable {cs taken left : List Char}

theorem not_mem_of_secretFieldName {c : Char} (hc : BarsNames c)
    (h : secretFieldName cs = some (taken, left)) : c ∉ taken := by
  obtain ⟨name, hname, hliteral⟩ := List.exists_of_findSome?_eq_some h
  intro hmem
  refine hc name hname (foldAscii c) ?_ rfl
  rw [← map_of_literal hliteral]
  exact List.mem_map_of_mem hmem

theorem forall_of_run {class' : Char → Bool} (h : run class' cs = some (taken, left)) :
    ∀ c ∈ taken, class' c = true := by
  obtain ⟨rfl, -⟩ := Prod.mk.inj (Option.some.inj h)
  exact fun c hc ↦ List.mem_takeWhile_imp hc

theorem forall_of_one {class' : Char → Bool} (h : one class' cs = some (taken, left)) :
    ∀ c ∈ taken, class' c = true := by
  rcases cs with _ | ⟨d, cs⟩
  · cases h
  rw [one] at h
  split_ifs at h with hd
  obtain ⟨rfl, -⟩ := Prod.mk.inj (Option.some.inj h)
  exact fun c hc ↦ List.mem_singleton.mp hc ▸ hd

theorem nil_of_boundary (h : boundary cs = some (taken, left)) : taken = [] := by
  rw [boundary] at h
  split_ifs at h
  exact (Prod.mk.inj (Option.some.inj h)).1.symm

theorem secretFieldName_of_bar {c : Char} (h : BarsNames c) (cs : List Char) :
    secretFieldName (c :: cs) = none := by
  have hne : ∀ name ∈ secretFieldNames, name.toList ≠ [] := by decide
  refine List.findSome?_eq_none_iff.mpr fun name hname ↦ ?_
  rcases hlist : name.toList with _ | ⟨p, ps⟩
  · exact absurd hlist (hne name hname)
  · exact if_neg (h name hname p (by rw [hlist]; exact List.mem_cons_self))

end Takes

section Chains

variable {piece : Piece} {pieces : List Piece} {Fills : List Char → Prop} {head tail : List Char}

theorem settled_cons_of_mem {c : Char} (hmem : c ∈ head) (h : Settled piece Fills head tail)
    (htakes : ∀ cs taken left, piece cs = some (taken, left) → c ∉ taken)
    (hrest : ∀ left, c ∈ left → Settled (chain pieces) Fills left tail) :
    Settled (chain (piece :: pieces)) Fills head tail := by
  refine settled_cons h fun taken left hsplit hpiece ↦ hrest left ?_
  obtain ⟨w, hw⟩ := hpiece
  rw [hsplit] at hmem
  exact (List.mem_append.mp hmem).resolve_left (htakes _ _ _ hw)

/-- A filling does not begin with a character of a class that it keeps clear of. -/
theorem IsValue.bars {class' : Char → Bool} (hfills : ∀ w, Fills w → IsValue w)
    (h : ∀ c, isDelimiter c = false ∧ c ≠ '"' ∧ c ≠ '\'' ∧ c ≠ '\\' → class' c = false)
    (w : List Char) (hw : Fills w) : ∃ c w', w = c :: w' ∧ class' c = false := by
  obtain ⟨c, rest, heq, hplain⟩ := (hfills w hw).head
  exact ⟨c, rest, heq, h c hplain⟩

end Chains

/-! ## The search for names -/

section Searches

variable {Fills : List Char → Prop} {stem : Stem} {front place tail mask : List Char}
  {before : Option Char}

theorem settled_keyValue (hfills : ∀ w, Fills w → IsValue w) (hsign : stem.sign ∈ place) :
    Settled (chain [secretFieldName, boundary, run isSpace, one (fun c ↦ c = ':' || c = '='),
      run isSpace]) Fills place tail := by
  have hbars : BarsNames stem.sign := barsNames_of_not stem.isNameChar_sign
  have hspace : ∀ w, Fills w → ∃ c w', w = c :: w' ∧ isSpace c = false :=
    IsValue.bars hfills fun c hc ↦ isSpace_of_isDelimiter hc.1
  refine settled_cons_of_mem hsign (settled_secretFieldName (barred_of_mem hsign hbars))
    (fun _ _ _ ↦ not_mem_of_secretFieldName hbars) fun left hsign ↦ ?_
  refine settled_cons_of_mem hsign (settled_boundary (List.ne_nil_of_mem hsign))
    (fun _ _ _ h ↦ ?_) fun left hsign ↦ ?_
  · rw [nil_of_boundary h]
    exact List.not_mem_nil
  refine settled_cons_of_mem hsign (settled_run (barred_of_fills hspace))
    (fun _ _ _ h hmem ↦ ?_) fun left hsign ↦ ?_
  · have htrue := forall_of_run h _ hmem
    rw [stem.isSpace_sign] at htrue
    cases htrue
  refine settled_cons (settled_one fun hnil ↦ absurd hnil (List.ne_nil_of_mem hsign))
    fun _ left _ _ ↦ ?_
  exact settled_cons (settled_run (barred_of_fills hspace)) fun _ _ _ _ ↦ settled_nil

theorem treated_keyValueSecret (hfills : ∀ w, Fills w → IsValue w)
    (htail : ∀ c ∈ tail.head?, isDelimiter c = true) (hplace : place <:+ front ++ stem.chars)
    (hne : place ≠ []) : Treated (keyValueSecret mask) Fills before place tail := by
  by_cases hboundary : boundaryBefore before = true
  swap
  · exact .passes fun w _ ↦ if_neg hboundary
  rcases stem.sign_mem_or hplace with hsign | hspaces
  · exact treated_secretAt (fun cs ↦ if_pos hboundary) (splits_chain (by simp))
      (settled_keyValue hfills hsign) (fun left _ ↦ framed_secretValue hfills htail)
      fun left _ ↦ settled_nil
  · rcases place with _ | ⟨c, place⟩
    · exact absurd rfl hne
    have hbars : BarsNames c := barsNames_of_not (isNameChar_of_isDelimiter
      (isDelimiter_of_isSpace (stem.spaces' c (hspaces.subset List.mem_cons_self))))
    refine .passes fun w _ ↦ ?_
    rw [keyValueSecret, if_pos hboundary, secretAt, List.cons_append, List.cons_append, chain,
      secretFieldName_of_bar hbars]
    rfl

/-! ## The search for JSON fields -/

theorem settled_jsonField (hfills : ∀ w, Fills w → IsValue w) (hsign : stem.sign ∈ place) :
    Settled (chain [one (· = '"'), secretFieldName, one (· = '"'), run isSpace, one (· = ':'),
      run isSpace, one (· = '"')]) Fills place tail := by
  have hbars : BarsNames stem.sign := barsNames_of_not stem.isNameChar_sign
  have hspace : ∀ w, Fills w → ∃ c w', w = c :: w' ∧ isSpace c = false :=
    IsValue.bars hfills fun c hc ↦ isSpace_of_isDelimiter hc.1
  have hquote : ∀ w, Fills w → ∃ c w', w = c :: w' ∧ decide (c = '"') = false :=
    IsValue.bars hfills fun c hc ↦ decide_eq_false hc.2.1
  have hsignQuote : ∀ cs taken left, one (· = '"') cs = some (taken, left) → stem.sign ∉ taken := by
    intro cs taken left h hmem
    have htrue := of_decide_eq_true (forall_of_one h _ hmem)
    rcases stem.signs with heq | heq
    · exact absurd (heq.symm.trans htrue) (by decide)
    · exact absurd (heq.symm.trans htrue) (by decide)
  refine settled_cons_of_mem hsign (settled_one fun _ ↦ hquote) hsignQuote fun left hsign ↦ ?_
  refine settled_cons_of_mem hsign (settled_secretFieldName (barred_of_mem hsign hbars))
    (fun _ _ _ ↦ not_mem_of_secretFieldName hbars) fun left hsign ↦ ?_
  refine settled_cons_of_mem hsign (settled_one fun _ ↦ hquote) hsignQuote fun left hsign ↦ ?_
  refine settled_cons_of_mem hsign (settled_run (barred_of_fills hspace))
    (fun _ _ _ h hmem ↦ ?_) fun left hsign ↦ ?_
  · have htrue := forall_of_run h _ hmem
    rw [stem.isSpace_sign] at htrue
    cases htrue
  refine settled_cons (settled_one fun hnil ↦ absurd hnil (List.ne_nil_of_mem hsign))
    fun _ left _ _ ↦ ?_
  refine settled_cons (settled_run (barred_of_fills hspace)) fun _ left _ _ ↦ ?_
  exact settled_cons (settled_one fun _ ↦ hquote) fun _ _ _ _ ↦ settled_nil

theorem treated_jsonSecretValue (hfills : ∀ w, Fills w → IsValue w)
    (hplace : place <:+ front ++ stem.chars) (hne : place ≠ []) :
    Treated (jsonSecretValue mask) Fills before place tail := by
  rcases stem.sign_mem_or hplace with hsign | hspaces
  · refine treated_secretAt (fun cs ↦ rfl) (splits_one _) (settled_jsonField hfills hsign)
      (fun left hleft ↦ framed_jsonCharacters hfills fun c hc ↦ ?_) fun left _ ↦
        settled_one fun _ ↦ IsValue.bars hfills fun c hc ↦ decide_eq_false hc.2.1
    rcases stem.getLast?_of_suffix (hleft.trans hplace) hc with rfl | hspace
    · rcases stem.signs with heq | heq
      · rw [heq]
        decide
      · rw [heq]
        decide
    · rintro rfl
      cases hspace
  · rcases place with _ | ⟨c, place⟩
    · exact absurd rfl hne
    have hspace := stem.spaces' c (hspaces.subset List.mem_cons_self)
    refine .passes fun w _ ↦ ?_
    have hquote : ¬ decide (c = '"') = true := by
      intro h
      rw [of_decide_eq_true h] at hspace
      cases hspace
    rw [jsonSecretValue, secretAt, List.cons_append, List.cons_append, chain, one, if_neg hquote]
    rfl

/-! ## The search for private keys

The sign between a name and its value is part of no marker and no label. So where a key begins in
front of the value, its opening is read there and only its end is searched for behind; and the
end is in front of the value, or behind it, or begins with its last characters, and then the
value `Marks` a key. -/

/-- The end of a private key with the given label. -/
def endMarker (label : List Char) : List Char :=
  "-----END ".toList ++ label ++ "-----".toList

/-- A value that ends in the first part of a marker and that the text around it makes a part of a
private key: the search finds a key that begins with this marker, or one that ends with it. -/
inductive Marks (pattern : Pattern Char) (front tail value : List Char) : Prop
  | begins (start : List Char) (m : Match Char) (hvalue : value = start ++ "-----BEGIN".toList)
      (hfound : Finds pattern (front ++ value ++ tail) (front ++ start) m)
  | ends (start label front' : List Char) (m : Match Char)
      (hvalue : value = start ++ "-----END".toList) (hlabel : ∀ c ∈ label, isLabel c = true)
      (hfound : Finds pattern (front ++ value ++ tail) front' m)
      (hmatched : front' ++ m.matched = front ++ start ++ endMarker label)

/-- A word that begins in a value and is longer ends the value where the word has its first
space. -/
theorem eq_of_word {word rest value tail : List Char} (hword : ∀ c ∈ word, isDelimiter c = false)
    (hvalue : ∀ c ∈ value, isDelimiter c = false)
    (htail : ∀ c ∈ tail.head?, isDelimiter c = true) (h : word ++ ' ' :: rest <+: value ++ tail) :
    value = word ∧ ' ' :: rest <+: tail := by
  obtain ⟨more, hmore⟩ := h
  have hplain : ∀ {front back : List Char}, (∀ c ∈ front, isDelimiter c = false) →
      (∀ c ∈ back.head?, isDelimiter c = true) →
      (front ++ back).takeWhile (fun c ↦ !isDelimiter c) = front := by
    intro front back hfront hback
    exact (takeWhile_of_all (fun c hc ↦ by rw [hfront c hc]; rfl)
      fun c hc ↦ by rw [hback c hc]; rfl).1
  have heq : value = word := by
    have hleft := @hplain _ (' ' :: (rest ++ more)) hword fun c hc ↦ by
      rw [← Option.some.inj hc]
      rfl
    rw [← hplain hvalue htail, ← hmore, List.append_assoc, List.cons_append, hleft]
  subst heq
  rw [List.append_assoc] at hmore
  exact ⟨rfl, more, List.append_cancel_left hmore⟩

theorem label_of_keyLabel {cs taken left : List Char} (h : keyLabel cs = some (taken, left)) :
    ∀ c ∈ taken, isLabel c = true := by
  rw [keyLabel] at h
  split_ifs at h
  exact forall_of_run h

theorem settled_keyLabel {head : List Char}
    (h : Barred Fills head tail fun c ↦ isLabel c = false) : Settled keyLabel Fills head tail := by
  refine settled_of_append splits_keyLabel h fun front c rest hc ↦ ?_
  obtain ⟨htake, hdrop⟩ := takeWhile_append_cons hc front rest
  rw [keyLabel, keyLabel, run, run, htake, hdrop]
  split_ifs
  · rfl
  · rfl

theorem isLabel_sign (stem : Stem) : isLabel stem.sign = false := by
  rcases stem.signs with h | h
  · rw [h]
    decide
  · rw [h]
    decide

theorem sign_not_mem_endMarker {label : List Char} (hlabel : ∀ c ∈ label, isLabel c = true) :
    stem.sign ∉ endMarker label := by
  have hfixed : stem.sign ∉ "-----END ".toList ∧ stem.sign ∉ "-----".toList := by
    rcases stem.signs with h | h
    · rw [h]
      decide
    · rw [h]
      decide
  intro hmem
  rcases List.mem_append.mp hmem with hmem | hmem
  · rcases List.mem_append.mp hmem with hmem | hmem
    · exact hfixed.1 hmem
    · have htrue := hlabel _ hmem
      rw [isLabel_sign] at htrue
      cases htrue
  · exact hfixed.2 hmem

/-- A text without the sign that begins before the sign ends before it. -/
theorem prefix_of_not_mem {text rest : List Char} {c : Char} (hc : c ∉ text) (hmem : c ∈ place)
    (h : text <+: place ++ rest) : text <+: place := by
  obtain ⟨front, back, rfl⟩ := List.append_of_mem hmem
  have hfront : front ++ [c] <+: front ++ c :: back ++ rest := ⟨back ++ rest, by simp⟩
  rcases List.prefix_or_prefix_of_prefix h hfront with htext | htext
  · exact htext.trans ⟨back, by simp⟩
  · exact absurd (htext.subset (List.mem_append_right _ (List.mem_singleton_self c))) hc

/-- An end of a private key that begins in front of a value ends there. -/
theorem prefix_of_endMarker {label rest : List Char} (hlabel : ∀ c ∈ label, isLabel c = true)
    (hplace : place <:+ front ++ stem.chars) (hne : place ≠ [])
    (h : endMarker label <+: place ++ rest) : endMarker label <+: place := by
  rcases stem.sign_mem_or hplace with hsign | hspaces
  · exact prefix_of_not_mem (sign_not_mem_endMarker hlabel) hsign h
  · -- the end does not begin with a space
    rcases place with _ | ⟨c, place⟩
    · exact absurd rfl hne
    have hspace := stem.spaces' c (hspaces.subset List.mem_cons_self)
    obtain ⟨more, hmore⟩ := h
    obtain ⟨rfl, -⟩ := List.cons.inj hmore
    cases hspace

theorem endMarker_eq (label : List Char) :
    endMarker label = "-----END".toList ++ ' ' :: (label ++ "-----".toList) := rfl

/-- An end of a private key that begins in a value begins with the last characters of the value. -/
theorem eq_of_prefix_endMarker {label value : List Char}
    (hvalue : ∀ c ∈ value, isDelimiter c = false)
    (htail : ∀ c ∈ tail.head?, isDelimiter c = true) (h : endMarker label <+: value ++ tail) :
    value = "-----END".toList ∧ ' ' :: (label ++ "-----".toList) <+: tail := by
  rw [endMarker_eq] at h
  exact eq_of_word (JavaText.forall_mem_of_all (by decide)) hvalue htail h

/-- **The end of a private key.** It does not touch the filling, if no filling has its first part
where there is none in front. -/
theorem framed_endMarker {label : List Char} (hlabel : ∀ c ∈ label, isLabel c = true)
    (hfills : ∀ w, Fills w → IsValue w) (htail : ∀ c ∈ tail.head?, isDelimiter c = true)
    (hplace : place <:+ front ++ stem.chars)
    (hends : ¬ endMarker label <:+: place → ∀ start rest,
      "-----END".toList ++ tail = endMarker label ++ rest → ¬ Fills (start ++ "-----END".toList)) :
    Framed (fun cs ↦ (upTo (endMarker label) cs).map fun body ↦
      (body.1 ++ endMarker label, body.2)) Fills place tail := by
  refine framed_upTo (fun start hstart hne w _ hend ↦ ?_) fun hnone w hw start hstart _ hend ↦ ?_
  · rw [List.append_assoc] at hend
    exact prefix_of_endMarker hlabel (hstart.trans hplace) hne hend
  · obtain ⟨rfl, more, hmore⟩ := eq_of_prefix_endMarker
      (fun c hc ↦ ((hfills w hw).plain c (hstart.subset hc)).1) htail hend
    obtain ⟨front', rfl⟩ := hstart
    refine hends hnone front' more ?_ hw
    rw [← hmore, endMarker_eq, List.append_assoc]

theorem suffix_or_append_of_suffix {α : Type*} {place front back : List α}
    (h : place <:+ front ++ back) : place <:+ back ∨ ∃ s, place = s ++ back ∧ s <:+ front := by
  rcases List.suffix_or_suffix_of_suffix h (List.suffix_append front back) with hplace | ⟨s, rfl⟩
  · exact Or.inl hplace
  · obtain ⟨more, hmore⟩ := h
    rw [← List.append_assoc] at hmore
    exact Or.inr ⟨s, rfl, more, List.append_cancel_right hmore⟩

/-- A private key without an end in front of a value ends with a marker at the end of the value. -/
theorem upTo_endMarker {label start rest : List Char} (hlabel : ∀ c ∈ label, isLabel c = true)
    (hstart : IsValue (start ++ "-----END".toList)) (hplace : place <:+ front ++ stem.chars)
    (hnone : ¬ endMarker label <:+: place) :
    upTo (endMarker label) (place ++ start ++ (endMarker label ++ rest)) =
      some (place ++ start, rest) := by
  have hvalue : ∀ p, p <:+ start → p ≠ [] →
      ¬ endMarker label <+: p ++ (endMarker label ++ rest) := by
    intro p hp hne hend
    rw [endMarker_eq, List.append_assoc, ← List.append_assoc, ← endMarker_eq] at hend
    refine hne (List.self_eq_append_left.mp (eq_of_prefix_endMarker (fun c hc ↦ ?_) ?_ hend).1.symm)
    · refine (hstart.plain c ?_).1
      exact (List.mem_append.mp hc).elim (fun hc ↦ List.mem_append_left _ (hp.subset hc))
        (List.mem_append_right _)
    · rintro c ⟨⟩
      rfl
  rw [upTo_skip fun p hp hne hend ↦ ?_, upTo_of_prefix]
  · simp
  · rcases suffix_or_append_of_suffix hp with hp | ⟨s, rfl, hs⟩
    · exact hvalue p hp hne hend
    by_cases hnil : s = []
    · subst hnil
      exact hvalue start (List.suffix_refl _) hne hend
    · rw [List.append_assoc] at hend
      have hin := prefix_of_endMarker hlabel (hs.trans hplace) hnil hend
      exact hnone (hin.isInfix.trans hs.isInfix)

theorem begin_ne_sign (stem : Stem) : ∀ p ∈ "-----BEGIN ".toList, id stem.sign ≠ p := by
  rcases stem.signs with h | h
  · rw [h]
    exact JavaText.forall_mem_of_all (by decide)
  · rw [h]
    exact JavaText.forall_mem_of_all (by decide)

/-- In the spaces behind the sign no key begins. -/
theorem privateKeyBlock_spaces {lineSeparator rest : List Char} (hspaces : place <:+ stem.padding')
    (hne : place ≠ []) : privateKeyBlock lineSeparator mask before (place ++ rest) = none := by
  rcases place with _ | ⟨c, place⟩
  · exact absurd rfl hne
  have hspace := stem.spaces' c (hspaces.subset List.mem_cons_self)
  have hdash : ¬ id c = '-' := by
    rintro rfl
    cases hspace
  have hliteral : literal id "-----BEGIN ".toList (c :: (place ++ rest)) = none := if_neg hdash
  rw [privateKeyBlock, List.cons_append, hliteral]
  rfl

/-- At a place in front of the value no key begins, or the opening of one is read there and its end
is searched for behind it. -/
theorem privateKeyBlock_opens {lineSeparator : List Char} (hplace : place <:+ front ++ stem.chars)
    (hne : place ≠ []) {w₀ : List Char} (hw₀ : Fills w₀) :
    (∀ w, Fills w → privateKeyBlock lineSeparator mask before (place ++ w ++ tail) = none) ∨
    ∃ opening label left, place = opening ++ left ∧ (∀ c ∈ label, isLabel c = true) ∧
      ∀ w, Fills w → privateKeyBlock lineSeparator mask before (place ++ w ++ tail) =
        (upTo (endMarker label) (left ++ w ++ tail)).map fun body ↦
          ⟨opening ++ body.1 ++ endMarker label,
            opening ++ lineSeparator ++ mask ++ lineSeparator ++ endMarker label, body.2⟩ := by
  rcases stem.sign_mem_or hplace with hsign | hspaces
  swap
  · refine Or.inl fun w _ ↦ ?_
    rw [List.append_assoc]
    exact privateKeyBlock_spaces hspaces hne
  -- the sign stops the marker, the label and the dashes
  have hmarker : Settled (literal id "-----BEGIN ".toList) Fills place tail :=
    settled_literal (barred_of_mem hsign (begin_ne_sign stem))
  rcases hmarker with hnone | ⟨marker, left, rfl, hmarker⟩
  · exact Or.inl fun w hw ↦ by rw [privateKeyBlock, hnone w hw]; rfl
  have hleft : stem.sign ∈ left := by
    refine (List.mem_append.mp hsign).resolve_left fun hmem ↦ ?_
    rw [literal_id (hmarker w₀ hw₀)] at hmem
    exact begin_ne_sign stem _ hmem rfl
  have hlabel : Settled keyLabel Fills left tail :=
    settled_keyLabel (barred_of_mem hleft (isLabel_sign stem))
  rcases hlabel with hnone | ⟨label, left', rfl, hlabel⟩
  · exact Or.inl fun w hw ↦ by
      rw [privateKeyBlock, hmarker w hw, Option.bind_some, hnone w hw]
      rfl
  have hlabels := label_of_keyLabel (hlabel w₀ hw₀)
  have hleft' : stem.sign ∈ left' := by
    refine (List.mem_append.mp hleft).resolve_left fun hmem ↦ ?_
    have htrue := hlabels _ hmem
    rw [isLabel_sign] at htrue
    cases htrue
  have hdashes : Settled (literal id "-----".toList) Fills left' tail :=
    settled_literal (barred_of_mem hleft' fun p hp ↦
      begin_ne_sign stem p (List.mem_append_left "BEGIN ".toList hp))
  rcases hdashes with hnone | ⟨dashes, left'', rfl, hdashes⟩
  · exact Or.inl fun w hw ↦ by
      rw [privateKeyBlock, hmarker w hw, Option.bind_some, hlabel w hw, Option.bind_some,
        hnone w hw]
      rfl
  refine Or.inr ⟨marker ++ label ++ dashes, label, left'', by simp, hlabels, fun w hw ↦ ?_⟩
  rw [privateKeyBlock, hmarker w hw, Option.bind_some, hlabel w hw, Option.bind_some,
    hdashes w hw, Option.bind_some]
  rfl

/-- **Private keys.** The search for the end of a key treats all values alike, as long as none of
them marks an end of one. -/
theorem treated_privateKeyBlock {lineSeparator : List Char}
    (hfills : ∀ w, Fills w → IsValue w ∧
      ¬ Marks (privateKeyBlock lineSeparator mask) (front ++ stem.chars) tail w)
    (htail : ∀ c ∈ tail.head?, isDelimiter c = true)
    (hplace : place <:+ front ++ stem.chars) (hne : place ≠ [])
    (hcomes : ∀ w, Fills w → ∃ out, Comes (privateKeyBlock lineSeparator mask) none
      (front ++ stem.chars ++ w ++ tail) out before (place ++ w ++ tail)) :
    Treated (privateKeyBlock lineSeparator mask) Fills before place tail := by
  by_cases hfilled : ∃ w, Fills w
  swap
  · exact .passes fun w hw ↦ absurd ⟨w, hw⟩ hfilled
  obtain ⟨w₀, hw₀⟩ := hfilled
  rcases privateKeyBlock_opens hplace hne hw₀ with
    hnone | ⟨opening, label, left, hopening, hlabel, hfound⟩
  · exact .passes hnone
  subst hopening
  have hend : left <:+ front ++ stem.chars := List.IsSuffix.trans ⟨opening, rfl⟩ hplace
  -- an end that begins in a value makes the value a part of the key
  have hends : ¬ endMarker label <:+: left → ∀ start rest,
      "-----END".toList ++ tail = endMarker label ++ rest →
        ¬ Fills (start ++ "-----END".toList) := by
    intro hnone start rest hrest hw
    obtain ⟨out, hout⟩ := hcomes _ hw
    have hbody : upTo (endMarker label) (left ++ (start ++ "-----END".toList) ++ tail) =
        some (left ++ start, rest) := by
      rw [List.append_assoc, List.append_assoc, hrest, ← List.append_assoc]
      exact upTo_endMarker hlabel (hfills _ hw).1 hend hnone
    have hmatch := hfound _ hw
    rw [hbody, Option.map_some] at hmatch
    obtain ⟨front', hfront'⟩ := hplace
    refine (hfills _ hw).2 (.ends start label front' _ rfl hlabel
      ⟨out, before, _, ?_, hout, hmatch⟩ ?_)
    · rw [← hfront']
      simp only [List.append_assoc]
    · rw [← hfront']
      simp only [List.append_assoc]
  rcases framed_endMarker hlabel (fun w hw ↦ (hfills w hw).1) htail hend hends with
    hnone | ⟨taken, rest, hsplit, hbody⟩ | ⟨taken, rest, hsplit, hbody⟩
  · exact .passes fun w hw ↦ by
      rw [hfound w hw, Option.map_eq_none_iff.mp (hnone w hw)]
      rfl
  · refine .inside (opening ++ taken)
      (opening ++ lineSeparator ++ mask ++ lineSeparator ++ endMarker label)
      rest (by rw [hsplit, List.append_assoc]) fun w hw ↦ ?_
    obtain ⟨body, hupTo, heq⟩ := Option.map_eq_some_iff.mp (hbody w hw)
    obtain ⟨rfl, hrest⟩ := Prod.mk.inj heq
    rw [hfound w hw, hupTo, ← hrest]
    simp only [Option.map_some, List.append_assoc]
  · refine .covers (opening ++ lineSeparator ++ mask ++ lineSeparator ++ endMarker label)
      taken rest hsplit fun w hw ↦ ?_
    obtain ⟨body, hupTo, heq⟩ := Option.map_eq_some_iff.mp (hbody w hw)
    obtain ⟨htaken, rfl⟩ := Prod.mk.inj heq
    rw [hfound w hw, hupTo, Option.map_some, List.append_assoc _ body.1, htaken]
    simp only [List.append_assoc]

end Searches

/-! ## Searches that leave the pair alone -/

/-- A search whose matches do not depend on the character before them, do not begin with a delimiter
and end in a given text, as do their replacements. -/
structure Closed (pattern : Pattern Char) (closing : List Char) : Prop where
  proper : Proper pattern
  blind : ∀ b b' cs, pattern b cs = pattern b' cs
  ends : ∀ b cs m, pattern b cs = some m →
    ∃ x y, m.matched = x ++ closing ∧ m.replacement = y ++ closing
  delimiter : ∀ b c cs, isDelimiter c = true → pattern b (c :: cs) = none

/-- A text with a hole that keeps what stands around a name, a separator and a value. -/
structure Stays (pattern : Pattern Char) (Fills : List Char → Prop) (stem : Stem)
    (front tail front' tail' : List Char) : Prop where
  apart : ∀ c ∈ front'.getLast?, isWord c = false
  ends : ∀ c ∈ tail'.head?, isDelimiter c = true
  replaced : ∀ w, Fills w → replaceMatches pattern (front ++ stem.chars ++ w ++ tail) =
    front' ++ stem.chars ++ w ++ tail'

section Passes

variable {pattern : Pattern Char} {closing : List Char} {Fills : List Char → Prop} {stem : Stem}
  {front tail : List Char}

theorem Closed.sweep_tail (h : Closed pattern closing)
    (htail : ∀ c ∈ tail.head?, isDelimiter c = true) :
    ∀ c ∈ (sweep pattern none tail).head?, isDelimiter c = true := by
  rcases tail with _ | ⟨c, tail⟩
  · exact fun c hc ↦ by cases hc
  · have hc := htail c rfl
    rw [sweep_copy (h.delimiter none c tail hc)]
    rintro d ⟨⟩
    exact hc

/-- **A pair that stays.** The search covers the secret, or leaves the name, the separator and the
secret in their place. -/
theorem Closed.stays_or_hides (h : Closed pattern closing) (hclosing : closing ≠ [])
    (hword : ∀ c ∈ closing.getLast?, isWord c = false)
    (hfills : ∀ w, Fills w → IsValue w) (hfront : ∀ c ∈ front.getLast?, isWord c = false)
    (htail : ∀ c ∈ tail.head?, isDelimiter c = true)
    (htreated : ∀ b place, place <:+ front ++ stem.chars → place ≠ [] →
      (∀ w, Fills w → ∃ out,
        Comes pattern none (front ++ stem.chars ++ w ++ tail) out b (place ++ w ++ tail)) →
      Treated pattern Fills b place tail)
    (hspares : ∀ x place taken, x ++ closing = place ++ taken → taken ≠ [] →
      ¬ taken <+: stem.chars)
    (hstem : ∀ b w, Fills w → ∀ place, place <:+ stem.chars → place ≠ [] →
      pattern b (place ++ (w ++ tail)) = none)
    (hvalue : ∀ w, Fills w → ∀ out b,
      Comes pattern none (front ++ stem.chars ++ w ++ tail) out b (w ++ tail) →
        ∀ b place, place <:+ w → place ≠ [] → pattern b (place ++ tail) = none) :
    (∃ front' tail', Stays pattern Fills stem front tail front' tail') ∨
      ∃ out, ∀ w, Fills w → replaceMatches pattern (front ++ stem.chars ++ w ++ tail) = out := by
  by_cases hfilled : ∃ w, Fills w
  swap
  · exact Or.inr ⟨[], fun w hw ↦ absurd ⟨w, hw⟩ hfilled⟩
  obtain ⟨w₀, hw₀⟩ := hfilled
  have hblind : ∀ b b' cs, sweep pattern b cs = sweep pattern b' cs :=
    fun b b' cs ↦ sweep_before h.proper (h.blind b b' cs)
  rcases comes_or_hides h.proper (fun w hw ↦ (hfills w hw).nonempty) (fun b b' ↦ hblind b b' tail)
    none htreated with ⟨out, hcomes⟩ | hhides
  swap
  · exact Or.inr hhides.same
  have hcut : ∃ front', out = front' ++ stem.chars ∧ ∀ c ∈ front'.getLast?, isWord c = false := by
    have hcomes₀ := hcomes w₀ hw₀
    rw [List.append_assoc (front ++ stem.chars)] at hcomes₀
    rcases hcomes₀.cut h.proper with ⟨front', out₂, b, hbefore, hbehind, rfl⟩ | hstraddles
    · have hcopied := comes_of_none b fun b' ↦ hstem b' w₀ hw₀
      have hsweep := (hbehind.sweep_eq h.proper).symm.trans (hcopied.sweep_eq h.proper)
      rw [hblind _ none, hblind (stem.chars.getLast?.or b) none] at hsweep
      refine ⟨front', by rw [List.append_cancel_right hsweep], ?_⟩
      refine hbefore.getLast? h.proper (fun b' cs m hm ↦ ?_) (fun b' cs m hm ↦ ?_)
        (List.append_assoc _ _ _) hfront
      · obtain ⟨x, y, -, hy⟩ := h.ends b' cs m hm
        rw [hy]
        exact List.append_ne_nil_of_right_ne_nil _ hclosing
      · obtain ⟨x, y, -, hy⟩ := h.ends b' cs m hm
        rw [hy, List.getLast?_append, List.getLast?_eq_some_getLast hclosing, Option.some_or,
          ← List.getLast?_eq_some_getLast hclosing]
        exact hword
    · -- no match ends in the pair
      obtain ⟨-, b, -, place, taken, left, m, -, hchars, -, htaken, -, hfound, hmatched⟩ :=
        hstraddles
      obtain ⟨x, y, hx, -⟩ := h.ends _ _ m hfound
      exact absurd ⟨left, hchars.symm⟩ (hspares x place taken (hx.symm.trans hmatched) htaken)
  obtain ⟨front', rfl, hfront'⟩ := hcut
  refine Or.inl ⟨front', sweep pattern none tail, hfront', h.sweep_tail htail, fun w hw ↦ ?_⟩
  have hcopied := comes_of_none ((front ++ stem.chars).getLast?.or none)
    (hvalue w hw _ _ (hcomes w hw))
  change sweep pattern none _ = _
  rw [(hcomes w hw).sweep_eq h.proper, hcopied.sweep_eq h.proper, hblind _ none,
    ← List.append_assoc]

end Passes

/-! ## The two searches that leave the pair alone

`Hides` and `Stays` are the two cases for the searches that come first: the match covers name and
secret, and then nothing of the secret is left, or no match comes near the secret, and the search
for names finds the pair where it was. That nothing begins in the pair itself is checked place by
place: in the name, in the separator and in the value. -/

theorem eq_singleton_of_one {class' : Char → Bool} {cs taken left : List Char}
    (h : one class' cs = some (taken, left)) : ∃ c, taken = [c] ∧ class' c = true := by
  rcases cs with _ | ⟨c, cs⟩
  · cases h
  rw [one] at h
  split_ifs at h with hc
  exact ⟨c, (Prod.mk.inj (Option.some.inj h)).1.symm, hc⟩

section Instances

variable {mask lineSeparator : List Char}

theorem jsonSecretValue_of_ne {c : Char} (hc : c ≠ '"') (before : Option Char) (cs : List Char) :
    jsonSecretValue mask before (c :: cs) = none := by
  rw [jsonSecretValue, secretAt, chain, one, if_neg (by simpa using hc)]
  rfl

theorem ne_quote_of_isDelimiter {c : Char} (h : isDelimiter c = true) : c ≠ '"' := by
  rintro rfl
  cases h

theorem closed_jsonSecretValue (hmask : mask.all JavaText.isWhitespace = false) :
    Closed (jsonSecretValue mask) ['"'] where
  proper := proper_of_masking fun _ _ _ ↦ masking_jsonSecretValue hmask
  blind _ _ _ := rfl
  ends b cs m h := by
    rw [jsonSecretValue, secretAt, Option.bind_eq_some_iff] at h
    obtain ⟨head, -, h⟩ := h
    obtain ⟨value, -, h⟩ := Option.bind_eq_some_iff.mp h
    obtain ⟨⟨closing, left⟩, hclosing, rfl⟩ := Option.map_eq_some_iff.mp h
    obtain ⟨c, rfl, hc⟩ := eq_singleton_of_one hclosing
    rw [of_decide_eq_true hc]
    exact ⟨_, _, rfl, rfl⟩
  delimiter _ _ cs hc := jsonSecretValue_of_ne (ne_quote_of_isDelimiter hc) _ cs

theorem closed_privateKeyBlock (hmask : mask.all JavaText.isWhitespace = false) :
    Closed (privateKeyBlock lineSeparator mask) "-----".toList where
  proper := proper_of_masking fun _ _ _ ↦ masking_privateKeyBlock hmask
  blind _ _ _ := rfl
  ends b cs m h := by
    rw [privateKeyBlock, Option.bind_eq_some_iff] at h
    obtain ⟨begin', -, h⟩ := h
    obtain ⟨label, -, h⟩ := Option.bind_eq_some_iff.mp h
    obtain ⟨dashes, -, h⟩ := Option.bind_eq_some_iff.mp h
    obtain ⟨body, -, rfl⟩ := Option.map_eq_some_iff.mp h
    exact ⟨_, _, (List.append_assoc _ _ _).symm, (List.append_assoc _ _ _).symm⟩
  delimiter _ c cs hc := by
    have hdash : ¬ id c = '-' := by
      rintro rfl
      cases hc
    have hliteral : literal id "-----BEGIN ".toList (c :: cs) = none := if_neg hdash
    rw [privateKeyBlock, hliteral]
    rfl

theorem infix_of_privateKeyBlock {before : Option Char} {cs : List Char} {m : Match Char}
    (h : privateKeyBlock lineSeparator mask before cs = some m) :
    "-----END ".toList <:+: m.matched := by
  rw [privateKeyBlock, Option.bind_eq_some_iff] at h
  obtain ⟨begin', -, h⟩ := h
  obtain ⟨label, -, h⟩ := Option.bind_eq_some_iff.mp h
  obtain ⟨dashes, -, h⟩ := Option.bind_eq_some_iff.mp h
  obtain ⟨body, -, rfl⟩ := Option.map_eq_some_iff.mp h
  exact ⟨begin'.1 ++ label.1 ++ dashes.1 ++ body.1, label.1 ++ "-----".toList, by simp⟩

variable {Fills : List Char → Prop} {stem : Stem} {front tail : List Char}

/-- **JSON fields.** The search leaves the pair in its place, or its result does not depend on the
secret. -/
theorem jsonSecretValue_stays (hmask : mask.all JavaText.isWhitespace = false)
    (hfills : ∀ w, Fills w → IsValue w) (hfront : ∀ c ∈ front.getLast?, isWord c = false)
    (htail : ∀ c ∈ tail.head?, isDelimiter c = true) :
    (∃ front' tail', Stays (jsonSecretValue mask) Fills stem front tail front' tail') ∨
      ∃ out, ∀ w, Fills w →
        replaceMatches (jsonSecretValue mask) (front ++ stem.chars ++ w ++ tail) = out := by
  have hquote : '"' ∉ stem.chars := stem.not_mem_chars (by decide) (by decide) (by decide)
  refine (closed_jsonSecretValue hmask).stays_or_hides (by decide) (by rintro c ⟨⟩; rfl)
    hfills hfront htail (fun b place hplace hne _ ↦ treated_jsonSecretValue hfills hplace hne)
    (fun x place taken heq hne hpre ↦ ?_) (fun b w hw place hplace hne ↦ ?_)
    fun w hw _ _ _ b place hplace hne ↦ ?_
  · rcases List.eq_nil_or_concat taken with rfl | ⟨taken, c, rfl⟩
    · exact hne rfl
    · rw [List.concat_eq_append, ← List.append_assoc] at heq
      rw [List.concat_eq_append] at hpre
      obtain ⟨-, hc⟩ := List.append_inj' heq rfl
      rw [← hc] at hpre
      exact hquote (hpre.subset (List.mem_append_right _ (List.mem_singleton_self _)))
  · rcases place with _ | ⟨c, place⟩
    · exact absurd rfl hne
    · exact jsonSecretValue_of_ne (fun h ↦ hquote (h ▸ hplace.subset List.mem_cons_self)) b _
  · rcases place with _ | ⟨c, place⟩
    · exact absurd rfl hne
    · exact jsonSecretValue_of_ne
        ((hfills w hw).plain c (hplace.subset List.mem_cons_self)).2.1 b _

/-- No two dashes stand side by side. -/
def Undashed (cs : List Char) : Prop := cs.IsChain fun a b ↦ ¬ (a = '-' ∧ b = '-')

theorem undashed_names : ∀ name ∈ secretFieldNames, Undashed ('-' :: name.toList) := by
  unfold Undashed
  decide

theorem undashed_chars (stem : Stem) : Undashed ('-' :: stem.chars) := by
  have hkey : Undashed ('-' :: stem.key) := by
    have hname := undashed_names _ stem.named
    rw [String.toList_ofList] at hname
    refine List.isChain_of_isChain_map foldAscii (fun a b h hab ↦ h ?_) hname
    rw [hab.1, hab.2]
    decide
  have hseparator : ∀ c ∈ stem.separator, c ≠ '-' := by
    rintro c hc rfl
    have hfalse := stem.isNameChar_of_mem_separator hc
    cases hfalse
  rw [Stem.chars, ← List.cons_append, Undashed, List.isChain_append]
  refine ⟨hkey, ?_, fun a _ b hb hab ↦ hseparator b (List.mem_of_mem_head? hb) hab.2⟩
  exact (List.pairwise_of_forall_mem_list fun a _ b hb (hab : a = '-' ∧ b = '-') ↦
    hseparator b hb hab.2).isChain

theorem Undashed.not_isInfix_dashes {cs : List Char} (h : Undashed cs) : ¬ ['-', '-'] <:+: cs := by
  intro hinfix
  have hpair := h.infix hinfix
  rw [List.isChain_pair] at hpair
  exact hpair ⟨rfl, rfl⟩

theorem not_prefix_of_dashes {x place taken : List Char} (stem : Stem)
    (h : x ++ ['-', '-'] = place ++ taken) (hne : taken ≠ []) : ¬ taken <+: stem.chars := by
  intro hpre
  have hundashed := (undashed_chars stem).not_isInfix_dashes
  have hcons : '-' :: taken <+: '-' :: stem.chars := List.prefix_cons_inj _ |>.mpr hpre
  rcases List.eq_nil_or_concat taken with rfl | ⟨front, c, rfl⟩
  · exact hne rfl
  rw [List.concat_eq_append] at h hcons
  rw [show x ++ ['-', '-'] = x ++ ['-'] ++ ['-'] from by simp, ← List.append_assoc] at h
  obtain ⟨hfront, hc⟩ := List.append_inj' h rfl
  obtain rfl := (List.cons.inj hc).1
  rcases List.eq_nil_or_concat front with rfl | ⟨front, d, rfl⟩
  · exact hundashed hcons.isInfix
  · rw [List.concat_eq_append] at hfront hcons
    rw [← List.append_assoc] at hfront
    obtain ⟨-, hd⟩ := List.append_inj' hfront rfl
    obtain rfl := (List.cons.inj hd).1
    refine hundashed (List.IsInfix.trans ⟨'-' :: front, [], ?_⟩ hcons.isInfix)
    simp

theorem privateKeyBlock_of_not_prefix {cs : List Char} (h : ¬ "-----BEGIN ".toList <+: cs)
    (before : Option Char) : privateKeyBlock lineSeparator mask before cs = none := by
  rw [privateKeyBlock, literal_of_not_prefix h]
  rfl

/-- A private key does not begin in a name or a separator. -/
theorem privateKeyBlock_in_stem {place rest : List Char} (hplace : place <:+ stem.chars)
    (hne : place ≠ []) (before : Option Char) :
    privateKeyBlock lineSeparator mask before (place ++ rest) = none := by
  refine privateKeyBlock_of_not_prefix (fun hpre ↦ ?_) before
  have hundashed := (undashed_chars stem).not_isInfix_dashes
  have hdashes : ['-', '-'] <+: place ++ rest := List.IsPrefix.trans ⟨"---BEGIN ".toList, rfl⟩ hpre
  rcases place with _ | ⟨c, _ | ⟨d, place⟩⟩
  · exact hne rfl
  · obtain ⟨more, hmore⟩ := hdashes
    obtain ⟨rfl, -⟩ := List.cons.inj hmore
    rcases @Stem.getLast?_of_suffix stem [] _ hplace _ rfl with hsign | hspace
    · rcases stem.signs with h | h
      · exact absurd (hsign.trans h) (by decide)
      · exact absurd (hsign.trans h) (by decide)
    · cases hspace
  · obtain ⟨more, hmore⟩ := hdashes
    obtain ⟨rfl, hrest⟩ := List.cons.inj hmore
    obtain ⟨rfl, -⟩ := List.cons.inj hrest
    exact hundashed ((List.IsPrefix.isInfix ⟨place, rfl⟩).trans
      (hplace.isInfix.trans (List.suffix_cons _ _).isInfix))

theorem not_prefix_begin {value rest : List Char} (hvalue : ∀ c ∈ value, isDelimiter c = false)
    (hrest : ∀ c ∈ rest.head?, isDelimiter c = true) (hne : value ≠ "-----BEGIN".toList) :
    ¬ "-----BEGIN ".toList <+: value ++ rest :=
  fun h ↦ hne (@eq_of_word "-----BEGIN".toList [] value rest
    (JavaText.forall_mem_of_all (by decide)) hvalue hrest h).1

/-- A private key does not begin in a value, unless the value has the first part of its marker. -/
theorem privateKeyBlock_in_value {front' value place out : List Char} {b : Option Char}
    (hvalue : IsValue value)
    (hmarks : ¬ Marks (privateKeyBlock lineSeparator mask) front' tail value)
    (htail : ∀ c ∈ tail.head?, isDelimiter c = true)
    (hcomes : Comes (privateKeyBlock lineSeparator mask) none (front' ++ value ++ tail) out b
      (value ++ tail)) (hplace : place <:+ value) (before : Option Char) :
    privateKeyBlock lineSeparator mask before (place ++ tail) = none := by
  have hplain : ∀ p, p <:+ value → ∀ c ∈ p, isDelimiter c = false :=
    fun p hp c hc ↦ (hvalue.plain c (hp.subset hc)).1
  by_cases hplace' : place = "-----BEGIN".toList
  swap
  · exact privateKeyBlock_of_not_prefix (not_prefix_begin (hplain _ hplace) htail hplace') before
  subst hplace'
  obtain ⟨start, rfl⟩ := hplace
  rcases hfound : privateKeyBlock lineSeparator mask before ("-----BEGIN".toList ++ tail) with
    _ | m
  · rfl
  -- the search comes to the marker, for no key begins before it in the value
  have hstart : ∀ b p, p <:+ start → p ≠ [] →
      privateKeyBlock lineSeparator mask b (p ++ ("-----BEGIN".toList ++ tail)) = none := by
    intro b p hp hne
    have hmarker : p ++ "-----BEGIN".toList ≠ "-----BEGIN".toList :=
      fun h ↦ hne (List.append_left_eq_self.mp h)
    obtain ⟨more, rfl⟩ := hp
    rw [← List.append_assoc]
    exact privateKeyBlock_of_not_prefix
      (not_prefix_begin (hplain _ ⟨more, by simp⟩) htail hmarker) b
  have hmarker := comes_of_none b hstart
  rw [← List.append_assoc] at hmarker
  exact absurd (.begins start m rfl ⟨_, _, _, by simp, hcomes.trans hmarker, hfound⟩) hmarks

/-- **Private keys.** The search leaves the pair in its place, or its result does not depend on the
secret. -/
theorem privateKeyBlock_stays (hmask : mask.all JavaText.isWhitespace = false)
    (hfills : ∀ w, Fills w → IsValue w ∧
      ¬ Marks (privateKeyBlock lineSeparator mask) (front ++ stem.chars) tail w)
    (hfront : ∀ c ∈ front.getLast?, isWord c = false)
    (htail : ∀ c ∈ tail.head?, isDelimiter c = true) :
    (∃ front' tail',
      Stays (privateKeyBlock lineSeparator mask) Fills stem front tail front' tail') ∨
      ∃ out, ∀ w, Fills w → replaceMatches (privateKeyBlock lineSeparator mask)
        (front ++ stem.chars ++ w ++ tail) = out := by
  refine (closed_privateKeyBlock hmask).stays_or_hides (by decide) (by rintro c ⟨⟩; rfl)
    (fun w hw ↦ (hfills w hw).1) hfront htail
    (fun b place hplace hne hcomes ↦ treated_privateKeyBlock hfills htail hplace hne hcomes)
    (fun x place taken heq hne ↦ ?_) (fun b w _ place hplace hne ↦ ?_)
    fun w hw _ _ hcomes b place hplace _ ↦ ?_
  · refine @not_prefix_of_dashes (x ++ "---".toList) place taken stem ?_ hne
    rw [← heq, List.append_assoc]
    rfl
  · exact privateKeyBlock_in_stem hplace hne b
  · exact privateKeyBlock_in_value (hfills w hw).1 (hfills w hw).2 htail hcomes hplace b

end Instances

/-! ## The search for names at the name

At the name the pieces of the pattern are read one after the other: the longest name that fits is
the name itself, since none of the names begins another, and the value ends at the first
delimiter, where the text behind it begins. -/

section Names

variable {mask : List Char} {stem : Stem} {value tail : List Char}

theorem run_of_all {class' : Char → Bool} {front rest : List Char}
    (hfront : ∀ c ∈ front, class' c = true) (hrest : ∀ c ∈ rest.head?, class' c = false) :
    run class' (front ++ rest) = some (front, rest) := by
  obtain ⟨htake, hdrop⟩ := takeWhile_of_all hfront hrest
  rw [run, htake, hdrop]

theorem isWord_of_separator (stem : Stem) {c : Char} (hc : c ∈ stem.separator) :
    isWord c = false := by
  have hsign : isWord ':' = false ∧ isWord '=' = false := by decide
  have hspace : ∀ c, isSpace c = true → isWord c = false := by
    intro c hc
    have hcode : (9 ≤ c.toNat ∧ c.toNat ≤ 13) ∨ c = ' ' := by simpa [isSpace] using hc
    rcases hcode with ⟨hlow, hhigh⟩ | rfl
    · have hline : c ≠ '_' := by rintro rfl; exact absurd hhigh (by decide)
      simp [isWord, hline]
      omega
    · decide
  rcases List.mem_append.mp hc with hc | hc
  · exact hspace c (stem.spaces c hc)
  rcases List.mem_cons.mp hc with rfl | hc
  · rcases stem.signs with h | h
    · rw [h]
      exact hsign.1
    · rw [h]
      exact hsign.2
  · exact hspace c (stem.spaces' c hc)

theorem prefixFree_names : ∀ a ∈ secretFieldNames, ∀ b ∈ secretFieldNames,
    a.toList <+: b.toList → a = b := by decide

/-- The name of a stem is read to its end and no further. -/
theorem secretFieldName_key (rest : List Char) :
    secretFieldName (stem.key ++ (stem.separator ++ rest)) =
      some (stem.key, stem.separator ++ rest) := by
  have hname := stem.named
  have hkey : literal foldAscii (String.ofList (stem.key.map foldAscii)).toList
      (stem.key ++ (stem.separator ++ rest)) = some (stem.key, stem.separator ++ rest) := by
    rw [String.toList_ofList]
    generalize stem.separator ++ rest = back
    induction stem.key with
    | nil => rfl
    | cons c key ih =>
      rw [List.map_cons, List.cons_append, literal, if_pos rfl, ih]
      rfl
  rcases hfound : secretFieldName (stem.key ++ (stem.separator ++ rest)) with _ | ⟨taken, left⟩
  · rw [List.findSome?_eq_none_iff.mp hfound _ hname] at hkey
    cases hkey
  have hsplit := splits_secretFieldName _ taken left hfound
  obtain ⟨name, hmem, hliteral⟩ := List.exists_of_findSome?_eq_some hfound
  have hmap := map_of_literal hliteral
  -- neither name begins the other
  have htaken : taken <+: stem.key := by
    rcases List.prefix_or_prefix_of_prefix ⟨left, hsplit.symm⟩
      (List.prefix_append stem.key (stem.separator ++ rest)) with hpre | ⟨more, hmore⟩
    · exact hpre
    rcases more with _ | ⟨c, more⟩
    · rw [← hmore, List.append_nil]
    exfalso
    rw [← hmore, List.append_assoc] at hsplit
    have hback := List.append_cancel_left hsplit
    rcases hseparator : stem.separator with _ | ⟨d, back⟩
    · exact stem.separator_ne_nil hseparator
    rw [hseparator] at hback
    obtain ⟨rfl, -⟩ := List.cons.inj hback
    have hfalse := stem.isNameChar_of_mem_separator (c := d)
      (by rw [hseparator]; exact List.mem_cons_self)
    rw [isNameChar_foldAscii (isNameChar_of_mem name hmem _ (by
      rw [← hmap, ← hmore]
      exact List.mem_map_of_mem (List.mem_append_right _ List.mem_cons_self)))] at hfalse
    cases hfalse
  have heq : name = String.ofList (stem.key.map foldAscii) := by
    refine prefixFree_names name hmem _ hname ?_
    rw [← hmap, String.toList_ofList]
    exact htaken.map foldAscii
  have hlength : taken.length = stem.key.length := by
    rw [← List.length_map foldAscii, hmap, heq, String.toList_ofList, List.length_map]
  obtain rfl := htaken.eq_of_length hlength
  rw [List.append_cancel_left hsplit]

/-- **At the name.** The search for names masks the value. -/
theorem keyValueSecret_at_stem (hvalue : IsValue value)
    (htail : ∀ c ∈ tail.head?, isDelimiter c = true) {before : Option Char}
    (hbefore : boundaryBefore before = true) :
    ∃ m, keyValueSecret mask before (stem.chars ++ (value ++ tail)) = some m ∧ m.rest = tail := by
  obtain ⟨c, value', hcons, hdelimiter, hdouble, hsingle, -⟩ := hvalue.head
  have hboundary : boundary (stem.separator ++ (value ++ tail)) =
      some ([], stem.separator ++ (value ++ tail)) := by
    rcases hseparator : stem.separator with _ | ⟨d, back⟩
    · exact absurd hseparator stem.separator_ne_nil
    have hword := isWord_of_separator (c := d) stem (by rw [hseparator]; exact List.mem_cons_self)
    exact if_neg (by simpa using hword)
  have hpadding : run isSpace (stem.separator ++ (value ++ tail)) =
      some (stem.padding, stem.sign :: (stem.padding' ++ (value ++ tail))) := by
    rw [Stem.separator, List.append_assoc, List.cons_append]
    exact run_of_all stem.spaces fun d hd ↦ Option.some.inj hd ▸ stem.isSpace_sign
  have hsign : one (fun c ↦ c = ':' || c = '=')
      (stem.sign :: (stem.padding' ++ (value ++ tail))) =
        some ([stem.sign], stem.padding' ++ (value ++ tail)) := if_pos (by simpa using stem.signs)
  have hpadding' : run isSpace (stem.padding' ++ (value ++ tail)) =
      some (stem.padding', value ++ tail) := by
    refine run_of_all stem.spaces' fun d hd ↦ ?_
    rw [hcons] at hd
    rw [← Option.some.inj hd]
    exact isSpace_of_isDelimiter hdelimiter
  -- a plain value has no quote, so it is read up to the delimiter behind it
  have hbare : bareValue (value ++ tail) = some (value, tail) := by
    have hrun : run (fun c ↦ !isDelimiter c) (value ++ tail) = some (value, tail) :=
      run_of_all (fun c hc ↦ by rw [(hvalue.plain c hc).1]; rfl) fun c hc ↦ by
        rw [htail c hc]
        rfl
    change (if ((value ++ tail).takeWhile fun c ↦ !isDelimiter c).isEmpty then none
      else run (fun c ↦ !isDelimiter c) (value ++ tail)) = _
    obtain ⟨htake, -⟩ := Prod.mk.inj (Option.some.inj hrun)
    rw [htake, if_neg (by simpa using hvalue.nonempty), hrun]
  have hsecret : secretValue (value ++ tail) = some (value, tail) := by
    rw [secretValue, hcons, List.cons_append, quoted_of_ne hdouble, quoted_of_ne hsingle,
      ← List.cons_append, ← hcons, hbare]
    rfl
  have hpre : chain [secretFieldName, boundary, run isSpace, one (fun c ↦ c = ':' || c = '='),
      run isSpace] (stem.chars ++ (value ++ tail)) = some (stem.chars, value ++ tail) := by
    rw [Stem.chars, List.append_assoc]
    simp only [chain, secretFieldName_key, hboundary, hpadding, hsign, hpadding', Option.bind_some,
      Option.map_some, List.nil_append, List.append_nil, List.singleton_append]
    rfl
  refine ⟨⟨stem.chars ++ value ++ [], stem.chars ++ mask ++ [], tail⟩, ?_, rfl⟩
  rw [keyValueSecret, if_pos hbefore, secretAt, hpre, Option.bind_some, hsecret]
  rfl

end Names

end FuzzingCiCd.Executor.SecretRedactor
