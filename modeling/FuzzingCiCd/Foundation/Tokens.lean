import Mathlib.Data.List.TakeWhile

/-!
# Tokens

The tokens of a text are its longest parts without a delimiter. `strtok` finds them one after the
other, as the C function of that name does: it skips delimiters, and what it hands out together with
the token is the text after the delimiter that ended it.

`tokens` says at once what a loop over `strtok` sees (`tokens_of_strtok`, `strtok_fst`). A text can
be taken apart at a delimiter (`tokens_append_cons`), so what has been written token by token, with
any delimiters in between, is found again (`Written.tokens_eq`).
-/

namespace Tokens

variable {α : Type*} {delim : α → Bool}

/-- The next token and the text that comes after it. -/
def strtok (delim : α → Bool) (text : List α) : Option (List α) × List α :=
  match text.dropWhile delim with
  | [] => (none, [])
  | c :: cs =>
    (some ((c :: cs).takeWhile fun c ↦ !delim c), ((c :: cs).dropWhile fun c ↦ !delim c).tail)

def tokens (delim : α → Bool) (text : List α) : List (List α) :=
  (text.splitOnP delim).filter fun part ↦ !part.isEmpty

/-! ## Taking a text apart -/

@[simp] theorem tokens_nil : tokens delim [] = [] := rfl

theorem tokens_cons_delim {c : α} (h : delim c = true) (text : List α) :
    tokens delim (c :: text) = tokens delim text := by
  rw [tokens, List.splitOnP_cons_eq_if_modifyHead, if_pos h, List.filter_cons_of_neg (by simp),
    tokens]

/-- Delimiters in front of a text do not count. -/
theorem tokens_gap {gap : List α} (h : ∀ c ∈ gap, delim c = true) (text : List α) :
    tokens delim (gap ++ text) = tokens delim text := by
  induction gap with
  | nil => rfl
  | cons c gap ih =>
    rw [List.cons_append, tokens_cons_delim (h c List.mem_cons_self),
      ih fun d hd ↦ h d (List.mem_cons_of_mem _ hd)]

theorem tokens_dropWhile (text : List α) :
    tokens delim (text.dropWhile delim) = tokens delim text := by
  induction text with
  | nil => rfl
  | cons c text ih =>
    rw [List.dropWhile_cons]
    split
    · rename_i hdelim
      rw [ih, tokens_cons_delim hdelim]
    · rfl

theorem tokens_append_cons (front rest : List α) {c : α} (h : delim c = true) :
    tokens delim (front ++ c :: rest) = tokens delim front ++ tokens delim rest := by
  rw [tokens, List.splitOnP_append_cons _ _ h, List.filter_append, tokens, tokens]

theorem tokens_word {word : List α} (hne : word ≠ []) (h : ∀ c ∈ word, delim c = false) :
    tokens delim word = [word] := by
  rw [tokens, List.splitOnP_eq_singleton h, List.filter_cons_of_pos, List.filter_nil]
  rw [Bool.not_eq_true', List.isEmpty_eq_false_iff]
  exact hne

theorem tokens_eq_nil_of_delims {text : List α} (h : ∀ c ∈ text, delim c = true) :
    tokens delim text = [] := by
  rw [← tokens_dropWhile, List.dropWhile_eq_nil_iff.mpr h, tokens_nil]

/-- A character that is no delimiter begins a token or goes in front of one. -/
theorem length_tokens_cons {c : α} (h : delim c = false) (text : List α) :
    (tokens delim (c :: text)).length =
      (tokens delim text).length + if text.head?.all delim then 1 else 0 := by
  rcases text with _ | ⟨d, rest⟩
  · rw [tokens_word (List.cons_ne_nil _ _) (List.forall_mem_singleton.mpr h)]
    rfl
  by_cases hd : delim d = true
  · have happend := tokens_append_cons [c] rest hd
    rw [tokens_word (List.cons_ne_nil _ _) (List.forall_mem_singleton.mpr h)] at happend
    rw [← List.singleton_append, happend, tokens_cons_delim hd, List.head?_cons, Option.all_some,
      if_pos hd, List.length_append, Nat.add_comm]
    rfl
  · rw [tokens, tokens, List.splitOnP_cons_eq_if_modifyHead, if_neg (by simp [h]),
      List.splitOnP_cons_eq_if_modifyHead, if_neg hd, List.head?_cons, Option.all_some, if_neg hd]
    obtain ⟨first, others, hsplit⟩ := List.exists_cons_of_ne_nil
      (List.splitOnP_ne_nil delim rest)
    rw [hsplit]
    rfl

/-! ## What a token is -/

theorem ne_nil_of_mem {text token : List α} (h : token ∈ tokens delim text) : token ≠ [] := by
  have hpart := (List.mem_filter.mp h).2
  rw [Bool.not_eq_true', List.isEmpty_eq_false_iff] at hpart
  exact hpart

/-- A part that `splitOnP` makes has no delimiter, and nothing that the text does not have. -/
theorem of_mem_splitOnP {text part : List α} (h : part ∈ text.splitOnP delim) :
    ∀ c ∈ part, delim c = false ∧ c ∈ text := by
  induction text generalizing part with
  | nil =>
    obtain rfl := List.mem_singleton.mp h
    exact List.forall_mem_nil _
  | cons d text ih =>
    rw [List.splitOnP_cons_eq_if_modifyHead] at h
    split at h
    · rcases List.mem_cons.mp h with rfl | h
      · exact List.forall_mem_nil _
      · exact fun c hc ↦ ⟨(ih h c hc).1, List.mem_cons_of_mem _ (ih h c hc).2⟩
    · rename_i hdelim
      -- Only the first part is longer than a part of the tail, and by a character of the text.
      obtain ⟨first, others, hsplit⟩ := List.exists_cons_of_ne_nil
        (List.splitOnP_ne_nil delim text)
      rw [hsplit, List.modifyHead_cons] at h
      rcases List.mem_cons.mp h with rfl | h
      · have hfirst := ih (hsplit ▸ List.mem_cons_self)
        refine List.forall_mem_cons.mpr ⟨⟨by simpa using hdelim, List.mem_cons_self⟩, fun c hc ↦ ?_⟩
        exact ⟨(hfirst c hc).1, List.mem_cons_of_mem _ (hfirst c hc).2⟩
      · have hother := ih (hsplit ▸ List.mem_cons_of_mem _ h)
        exact fun c hc ↦ ⟨(hother c hc).1, List.mem_cons_of_mem _ (hother c hc).2⟩

theorem of_mem_tokens {text token : List α} (h : token ∈ tokens delim text) :
    ∀ c ∈ token, delim c = false ∧ c ∈ text := of_mem_splitOnP (List.mem_filter.mp h).1

/-! ## One token at a time -/

theorem strtok_eq_none {text : List α} (h : (strtok delim text).1 = none) :
    ∀ c ∈ text, delim c = true := by
  rw [strtok] at h
  split at h
  · rename_i hdrop
    exact List.dropWhile_eq_nil_iff.mp hdrop
  · cases h

/-- **What `strtok` does.** Its token ends with the text or at a delimiter. -/
theorem strtok_eq_some {text token : List α} (h : (strtok delim text).1 = some token) :
    ∃ gap, (∀ c ∈ gap, delim c = true) ∧ token ≠ [] ∧ (∀ c ∈ token, delim c = false) ∧
      (text = gap ++ token ∧ (strtok delim text).2 = [] ∨
        ∃ c, delim c = true ∧ text = gap ++ token ++ c :: (strtok delim text).2) := by
  rw [strtok] at h ⊢
  split at h
  · cases h
  rename_i c cs hdrop
  obtain rfl := Option.some.inj h
  have hc : delim c = false := by
    have hhead := List.head?_dropWhile_not delim text
    rw [hdrop] at hhead
    simpa using hhead
  have htext : text = text.takeWhile delim ++ (c :: cs) := by
    rw [← hdrop, List.takeWhile_append_dropWhile]
  have htoken := List.takeWhile_append_dropWhile (p := fun c ↦ !delim c) (l := c :: cs)
  refine ⟨text.takeWhile delim, fun d hd ↦ List.mem_takeWhile_imp hd, ?_, fun d hd ↦ ?_, ?_⟩
  · rw [List.takeWhile_cons, hc]
    exact List.cons_ne_nil _ _
  · simpa using List.mem_takeWhile_imp hd
  rcases hrest : (c :: cs).dropWhile fun c ↦ !delim c with _ | ⟨d, rest⟩
  · rw [hrest, List.append_nil] at htoken
    rw [htoken]
    exact Or.inl ⟨htext, rfl⟩
  · have hd : delim d = true := by
      have hhead := List.head?_dropWhile_not (fun c ↦ !delim c) (c :: cs)
      rw [hrest] at hhead
      simpa using hhead
    rw [hrest] at htoken
    refine Or.inr ⟨d, hd, ?_⟩
    rw [List.append_assoc, List.tail_cons, htoken]
    exact htext

theorem tokens_of_strtok {text token : List α} (h : (strtok delim text).1 = some token) :
    tokens delim text = token :: tokens delim (strtok delim text).2 := by
  obtain ⟨gap, hgap, hne, hword, ⟨htext, hrest⟩ | ⟨c, hc, htext⟩⟩ := strtok_eq_some h
  · rw [hrest, htext, tokens_gap hgap, tokens_word hne hword, tokens_nil]
  · refine (congrArg (tokens delim) htext).trans ?_
    rw [List.append_assoc, tokens_gap hgap, tokens_append_cons _ _ hc, tokens_word hne hword]
    rfl

/-- What `strtok` finds is the first token. -/
theorem strtok_fst (text : List α) : (strtok delim text).1 = (tokens delim text).head? := by
  rcases h : (strtok delim text).1 with _ | token
  · rw [tokens_eq_nil_of_delims (strtok_eq_none h), List.head?_nil]
  · rw [tokens_of_strtok h, List.head?_cons]

theorem tokens_strtok_snd (text : List α) :
    tokens delim (strtok delim text).2 = (tokens delim text).tail := by
  rcases h : (strtok delim text).1 with _ | token
  · rw [tokens_eq_nil_of_delims (strtok_eq_none h), List.tail_nil]
    rw [strtok] at h ⊢
    split at h
    · rfl
    · cases h
  · rw [tokens_of_strtok h, List.tail_cons]

theorem length_strtok_lt {text token : List α} (h : (strtok delim text).1 = some token) :
    (strtok delim text).2.length < text.length := by
  obtain ⟨gap, -, hne, -, ⟨htext, hrest⟩ | ⟨c, -, htext⟩⟩ := strtok_eq_some h
  · rw [hrest, htext, List.length_append, List.length_nil]
    have := List.length_pos_iff.mpr hne
    omega
  · have hlength := congrArg List.length htext
    rw [List.length_append, List.length_append, List.length_cons] at hlength
    omega

theorem length_tokens_le_append (front rest : List α) :
    (tokens delim front).length ≤ (tokens delim (front ++ rest)).length := by
  induction front with
  | nil => exact Nat.zero_le _
  | cons c front ih =>
    rw [List.cons_append]
    by_cases hc : delim c = true
    · rw [tokens_cons_delim hc, tokens_cons_delim hc]
      exact ih
    have hfalse : delim c = false := by simpa using hc
    rcases front with _ | ⟨d, front⟩
    · -- The single character is a token, and still begins one.
      have hsome : (strtok delim (c :: rest)).1 ≠ none := by
        rw [strtok, List.dropWhile_cons_of_neg hc]
        exact Option.some_ne_none _
      obtain ⟨token, htoken⟩ := Option.ne_none_iff_exists'.mp hsome
      rw [tokens_word (List.cons_ne_nil _ _) (List.forall_mem_singleton.mpr hfalse),
        List.nil_append, tokens_of_strtok htoken]
      exact Nat.succ_le_succ (Nat.zero_le _)
    · rw [length_tokens_cons hfalse, length_tokens_cons hfalse]
      exact Nat.add_le_add_right ih _

/-! ## Written texts -/

/-- The text has these words, in this order, and delimiters between and around them. -/
inductive Written (delim : α → Bool) : List (List α) → List α → Prop
  | nil {gap : List α} (h : ∀ c ∈ gap, delim c = true) : Written delim [] gap
  | last {gap word : List α} (hgap : ∀ c ∈ gap, delim c = true) (hne : word ≠ [])
    (hword : ∀ c ∈ word, delim c = false) : Written delim [word] (gap ++ word)
  | cons {gap word rest : List α} {words : List (List α)} {c : α}
    (hgap : ∀ c ∈ gap, delim c = true) (hne : word ≠ []) (hword : ∀ c ∈ word, delim c = false)
    (hc : delim c = true) (h : Written delim words rest) :
    Written delim (word :: words) (gap ++ word ++ c :: rest)

/-- **Words are found again**, however they have been spaced. -/
theorem Written.tokens_eq {words : List (List α)} {text : List α} (h : Written delim words text) :
    tokens delim text = words := by
  induction h with
  | nil hgap => exact tokens_eq_nil_of_delims hgap
  | last hgap hne hword => rw [tokens_gap hgap, tokens_word hne hword]
  | cons hgap hne hword hc _ ih =>
    rw [List.append_assoc, tokens_gap hgap, tokens_append_cons _ _ hc, tokens_word hne hword, ih]
    rfl

/-- **The texts of given words** are those that have these tokens. -/
theorem written_iff {words : List (List α)} {text : List α} :
    Written delim words text ↔ tokens delim text = words := by
  refine ⟨Written.tokens_eq, fun h ↦ ?_⟩
  induction words generalizing text with
  | nil =>
    refine .nil (strtok_eq_none ?_)
    rw [strtok_fst, h, List.head?_nil]
  | cons word words ih =>
    have hfirst : (strtok delim text).1 = some word := by rw [strtok_fst, h, List.head?_cons]
    have hrest : tokens delim (strtok delim text).2 = words := by
      rw [tokens_strtok_snd, h, List.tail_cons]
    obtain ⟨gap, hgap, hne, hword, ⟨htext, hend⟩ | ⟨c, hc, htext⟩⟩ := strtok_eq_some hfirst
    · rw [hend, tokens_nil] at hrest
      subst hrest
      rw [htext]
      exact .last hgap hne hword
    · rw [htext]
      exact .cons hgap hne hword hc (ih hrest)

theorem written_intercalate {c : α} (hc : delim c = true) {words : List (List α)} (hne : words ≠ [])
    (h : ∀ word ∈ words, word ≠ [] ∧ ∀ c ∈ word, delim c = false) :
    Written delim words ([c].intercalate words) := by
  induction words with
  | nil => exact absurd rfl hne
  | cons word words ih =>
    obtain ⟨hword, hrest⟩ := List.forall_mem_cons.mp h
    rcases words with _ | ⟨other, words⟩
    · rw [List.intercalate_singleton, ← List.nil_append word]
      exact .last (List.forall_mem_nil _) hword.1 hword.2
    · rw [List.intercalate_cons_cons, ← List.nil_append word, List.append_assoc]
      exact .cons (List.forall_mem_nil _) hword.1 hword.2 hc (ih (List.cons_ne_nil _ _) hrest)

/-- A delimiter at the end does not count. -/
theorem tokens_concat_delim {c : α} (hc : delim c = true) (text : List α) :
    tokens delim (text ++ [c]) = tokens delim text := by
  rw [tokens_append_cons _ _ hc, tokens_nil, List.append_nil]

end Tokens
