import FuzzingCiCd.Foundation.Shell
import Mathlib.Algebra.Order.BigOperators.Group.List
import Mathlib.Algebra.Order.Group.Nat
import Mathlib.Algebra.Ring.Nat

/-!
# How much a command line says

On a host without variables, files and output, a line can put no more characters into its arguments
than it has itself. The weight of what has been scanned bounds them: a part of a word weighs one, a
pair of quotes nothing, and the scanner adds at most one with each character (`weight_step_le`).

What is quoted, expanded or an operator therefore makes the arguments shorter than the line:
`run_ne_of_weight`.

## Main results

* `weight_step_le`: a character adds one to the weight at the most.
* `textLength_expand_le`, `textLength_run_le`: on a bare host the arguments are no longer than the
  words weigh.
-/

namespace Shell

/-! ## Weights

The weight of a scanner state counts the characters that have got into words, with one for an
escape, a `$` or a name that is still open. No character adds more than one, so the words of a
line weigh at most as much as the line is long. -/

def Part.weight : Part → ℕ
  | .char _ _ => 1
  | .quotes => 0
  | .expansion _ _ => 1

def weight (parts : Word) : ℕ := (parts.map Part.weight).sum

def Token.weight : Token → ℕ
  | .word parts => Shell.weight parts
  | .operator _ => 0

def tokensWeight (tokens : List Token) : ℕ := (tokens.map Token.weight).sum

/-- What the next character may still add on behalf of earlier ones. -/
def Scan.pending : Scan → ℕ
  | .escape _ | .dollar _ | .name _ _ => 1
  | .plain _ | .single | .nested _ _ _ => 0

def Mode.weight : Mode → ℕ
  | .word parts scan => Shell.weight parts + scan.pending
  | .blank | .comment | .operator _ => 0

def State.weight (s : State) : ℕ := tokensWeight s.tokens + s.mode.weight

section Weights

variable {tokens out : List Token} {parts : Word} {quoted redirection : Bool} {c : Char} {s : State}
  {line : List Char}

@[simp] theorem weight_append (a b : Word) : weight (a ++ b) = weight a + weight b := by
  rw [weight, List.map_append, List.sum_append]
  rfl

@[simp] theorem weight_singleton (part : Part) : weight [part] = part.weight := by
  simp [weight]

@[simp] theorem tokensWeight_append (a b : List Token) :
    tokensWeight (a ++ b) = tokensWeight a + tokensWeight b := by
  rw [tokensWeight, List.map_append, List.sum_append]
  rfl

@[simp] theorem tokensWeight_singleton (token : Token) : tokensWeight [token] = token.weight := by
  simp [tokensWeight]

theorem tokensWeight_endWord_le (tokens : List Token) (parts : Word) (redirection : Bool) :
    tokensWeight (endWord tokens parts redirection) ≤ tokensWeight tokens + weight parts := by
  rw [endWord]
  split
  · exact Nat.le_add_right _ _
  · rw [tokensWeight_append, tokensWeight_singleton]
    rfl

theorem weight_plainStep_le (tokens : List Token) (parts : Word) (quoted : Bool) (c : Char) :
    (plainStep tokens parts quoted c).weight ≤ tokensWeight tokens + weight parts + 1 := by
  have hend := tokensWeight_endWord_le tokens parts
  rw [plainStep]
  repeat' split
  all_goals
    simp only [State.weight, Mode.weight, Scan.pending, weight_append, weight_singleton,
      Part.weight]
  all_goals first
    | omega
    | exact (hend _).trans (Nat.le_succ _)

theorem weight_wordStep_le (tokens : List Token) (parts : Word) (scan : Scan) (c : Char) :
    (wordStep tokens parts scan c).weight ≤
      tokensWeight tokens + (weight parts + scan.pending) + 1 := by
  cases scan with
  | plain quoted => exact weight_plainStep_le tokens parts quoted c
  | single =>
    rw [wordStep]
    split
    · exact Nat.le_succ _
    · simp only [State.weight, Mode.weight, Scan.pending, weight_append, weight_singleton,
        Part.weight]
      omega
  | escape quoted =>
    cases quoted
    all_goals
      dsimp only [wordStep]
      repeat' split
    all_goals
      simp only [State.weight, Mode.weight, Scan.pending, weight, List.map_append, List.map_cons,
        List.map_nil, List.sum_append, List.sum_cons, List.sum_nil, Part.weight]
      omega
  | dollar quoted =>
    have hplain := weight_plainStep_le tokens (parts ++ [.char '$' quoted]) quoted c
    rw [weight_append, weight_singleton] at hplain
    dsimp only [wordStep]
    repeat' split
    all_goals first
      | exact hplain
      | simp only [State.weight, Mode.weight, Scan.pending, weight_append, weight_singleton,
          Part.weight]
        omega
  | name text quoted =>
    have hplain := weight_plainStep_le tokens (parts ++ [.expansion text quoted]) quoted c
    rw [weight_append, weight_singleton] at hplain
    dsimp only [wordStep]
    split
    · exact Nat.le_succ _
    · exact hplain
  | nested text enclosing quoted =>
    dsimp only [wordStep]
    split
    all_goals
      simp only [State.weight, Mode.weight, Scan.pending, weight_append, weight_singleton,
        Part.weight]
      omega

/-- **One character** adds one at most. -/
theorem weight_step_le (s : State) (c : Char) : (step s c).weight ≤ s.weight + 1 := by
  obtain ⟨tokens, mode⟩ := s
  have hplain := weight_plainStep_le
  have hblank : ∀ tokens, (blankStep tokens c).weight ≤ tokensWeight tokens + 1 := by
    intro tokens
    rw [blankStep]
    split
    · exact Nat.le_succ _
    split
    · exact Nat.le_succ _
    · exact hplain tokens [] false c
  cases mode with
  | blank => exact hblank tokens
  | comment =>
    rw [step]
    dsimp only
    split
    · exact Nat.le_succ _
    · exact Nat.le_succ _
  | operator text =>
    rw [step]
    dsimp only
    split
    · exact Nat.le_succ _
    · have h := hblank (tokens ++ [.operator text])
      rw [tokensWeight_append, tokensWeight_singleton] at h
      exact h
  | word parts scan =>
    exact weight_wordStep_le tokens parts scan c

theorem weight_foldl_le (s : State) (line : List Char) :
    (line.foldl step s).weight ≤ s.weight + line.length := by
  induction line generalizing s with
  | nil => exact Nat.le_refl _
  | cons c line ih =>
    have hstep := weight_step_le s c
    have hline := ih (step s c)
    rw [List.foldl_cons, List.length_cons]
    omega

theorem tokensWeight_finish_le (h : finish s = some out) : tokensWeight out ≤ s.weight := by
  obtain ⟨tokens, mode⟩ := s
  rw [finish] at h
  dsimp only at h
  split at h
  all_goals cases h
  · exact Nat.le_refl _
  · exact Nat.le_refl _
  · rw [tokensWeight_append, tokensWeight_singleton]
    exact Nat.le_refl _
  · exact tokensWeight_endWord_le _ _ _
  all_goals
    rw [tokensWeight_append, tokensWeight_singleton, Token.weight, weight_append, weight_singleton]
    exact Nat.le_refl _

end Weights

/-! ### The commands -/

def wordsWeight (words : List Word) : ℕ := (words.map weight).sum

def Reader.weight (r : Reader) : ℕ := (r.commands.map wordsWeight).sum + wordsWeight r.words

section Commands

variable {tokens : List Token} {token : Token} {r r' : Reader} {commands : List (List Word)}

theorem Reader.weight_endCommand {needed : Bool} (h : r.endCommand needed = some r') :
    r'.weight = r.weight := by
  rw [Reader.endCommand] at h
  split at h
  · cases h
  · obtain rfl := Option.some.inj h
    simp [Reader.weight, wordsWeight]

theorem weight_readToken_le (h : readToken r token = some r') :
    r'.weight ≤ r.weight + token.weight := by
  cases token with
  | word parts =>
    rw [readToken] at h
    split at h
    · obtain rfl := Option.some.inj h
      exact Nat.le_add_right _ _
    split at h
    · cases h
    · obtain rfl := Option.some.inj h
      simp only [Reader.weight, wordsWeight, List.map_append, List.map_cons, List.map_nil,
        List.sum_append, List.sum_cons, List.sum_nil, Token.weight]
      omega
  | operator text =>
    rw [readToken] at h
    repeat' split at h
    all_goals first
      | cases h
        done
      | exact (Reader.weight_endCommand h).le
      | obtain rfl := Option.some.inj h
        exact Nat.le_refl _

theorem weight_finish_le (h : r.finish = some commands) :
    (commands.map wordsWeight).sum ≤ r.weight := by
  rw [Reader.finish] at h
  split at h
  · split at h
    · cases h
    · obtain rfl := Option.some.inj h
      exact Nat.le_add_right _ _
  · obtain ⟨r', hr', rfl⟩ := Option.map_eq_some_iff.mp h
    rw [← Reader.weight_endCommand hr']
    exact Nat.le_add_right _ _

theorem weight_commandsOf_le (h : commandsOf tokens = some commands) :
    (commands.map wordsWeight).sum ≤ tokensWeight tokens := by
  obtain ⟨r, hr, hfinish⟩ := Option.bind_eq_some_iff.mp h
  have hfold : ∀ (tokens : List Token) (r r' : Reader), tokens.foldlM readToken r = some r' →
      r'.weight ≤ r.weight + tokensWeight tokens := by
    intro tokens
    induction tokens with
    | nil =>
      rintro r r' h
      obtain rfl := Option.some.inj h
      exact Nat.le_refl _
    | cons token tokens ih =>
      intro r r' h
      rw [List.foldlM_cons] at h
      obtain ⟨next, hnext, hrest⟩ := Option.bind_eq_some_iff.mp h
      have htoken := weight_readToken_le hnext
      have htokens := ih next r' hrest
      rw [tokensWeight, List.map_cons, List.sum_cons, ← tokensWeight]
      omega
  have hle := hfold tokens _ r hr
  have hzero : Reader.weight ⟨[], [], false, false, false⟩ = 0 := rfl
  have := weight_finish_le hfinish
  omega

end Commands

/-! ### Bare hosts -/

/-- A host on which nothing expands to more than a character. -/
structure Host.IsBare (host : Host) : Prop where
  value : ∀ text, (host.value text).length ≤ 1
  home : ∀ name, host.home name = none
  pathnames : ∀ pattern, host.pathnames pattern = []

/-- Without variables, files and output; arithmetic expressions are zero. -/
def bareHost : Host where
  value text := if ['$', '(', '('].isPrefixOf text then ['0'] else []
  home _ := none
  pathnames _ := []

theorem isBare_bareHost : bareHost.IsBare where
  value text := by
    rw [bareHost]
    dsimp only
    split
    · exact Nat.le_refl _
    · exact Nat.zero_le _
  home _ := rfl
  pathnames _ := rfl

def textLength (argv : List (List Char)) : ℕ := (argv.map List.length).sum

section Bare

variable {host : Host} {cells : List Cell} {parts : Word} {line : List Char}
  {argvs : List (List (List Char))}

theorem textLength_append (a b : List (List Char)) :
    textLength (a ++ b) = textLength a + textLength b := by
  rw [textLength, List.map_append, List.sum_append]
  rfl

theorem tilde_of_home (h : ∀ name, host.home name = none) (parts : Word) :
    tilde host parts = parts := by
  rw [tilde.eq_def]
  split
  · dsimp only
    rw [h]
    split
    · rfl
    · rfl
  · rfl

theorem textLength_fields_le (cells : List Cell) :
    ((fields cells).map fun field ↦ (field.filterMap Cell.text).length).sum ≤
      (cells.filterMap Cell.text).length := by
  have hsplit : ((cells.splitOnP isSeparator).map fun field ↦
      (field.filterMap Cell.text).length).sum ≤ (cells.filterMap Cell.text).length := by
    induction cells with
    | nil => exact Nat.le_refl _
    | cons cell cells ih =>
      rw [List.splitOnP_cons_eq_if_modifyHead]
      rcases hrest : cells.splitOnP isSeparator with _ | ⟨field, others⟩
      · exact absurd hrest (List.splitOnP_ne_nil _ _)
      rw [hrest] at ih
      split
      · rw [List.map_cons, List.sum_cons, List.filterMap_nil, List.length_nil, Nat.zero_add]
        refine ih.trans ?_
        rw [List.filterMap_cons]
        split
        · exact Nat.le_refl _
        · exact Nat.le_succ _
      · rw [List.modifyHead_cons, List.map_cons, List.sum_cons, List.filterMap_cons,
          List.filterMap_cons]
        rw [List.map_cons, List.sum_cons] at ih
        split
        · exact ih
        · rw [List.length_cons, List.length_cons]
          omega
  exact ((List.filter_sublist.map _).sum_le_sum fun _ _ ↦ Nat.zero_le _).trans hsplit

/-- **A word on a bare host** has no more characters than it weighs. -/
theorem textLength_expand_le (hbare : host.IsBare) (parts : Word) :
    textLength (expand host parts) ≤ weight parts := by
  have hfield : ∀ field, expandField host field = [(field.filterMap Cell.text).map Prod.fst] := by
    intro field
    rw [expandField, hbare.pathnames]
    split
    · rfl
    · rfl
  have hcells : ((parts.flatMap (Part.cells host)).filterMap Cell.text).length ≤ weight parts := by
    induction parts with
    | nil => exact Nat.le_refl _
    | cons part parts ih =>
      have hpart : ((part.cells host).filterMap Cell.text).length ≤ part.weight := by
        cases part with
        | char c quoted => exact Nat.le_refl _
        | quotes => exact Nat.le_refl _
        | expansion text quoted =>
          have hvalue := hbare.value text
          cases quoted
          all_goals
            refine (List.length_filterMap_le _ _).trans ?_
            rw [Part.cells, List.length_map]
            exact hvalue
      rw [List.flatMap_cons, List.filterMap_append, List.length_append, weight, List.map_cons,
        List.sum_cons]
      exact Nat.add_le_add hpart ih
  rw [expand, tilde_of_home hbare.home, textLength]
  have hmap : ∀ fields : List (List Cell), (fields.flatMap (expandField host)).map List.length =
      fields.map fun field ↦ (field.filterMap Cell.text).length := by
    intro fields
    induction fields with
    | nil => rfl
    | cons field fields ih =>
      rw [List.flatMap_cons, List.map_append, ih, hfield]
      simp
  rw [hmap]
  exact (textLength_fields_le _).trans hcells

/-- **A line on a bare host** has no more characters in its arguments than its words weigh. -/
theorem textLength_run_le (hbare : host.IsBare) (h : run host line = some argvs) :
    ∃ tokens, scan line = some tokens ∧ (argvs.map textLength).sum ≤ tokensWeight tokens := by
  obtain ⟨tokens, htokens, hrest⟩ := Option.bind_eq_some_iff.mp h
  obtain ⟨commands, hcommands, hargvs⟩ := Option.bind_eq_some_iff.mp hrest
  obtain rfl := Option.some.inj hargvs
  have hwords : ∀ words : List Word, textLength (words.flatMap (expand host)) ≤
      wordsWeight words := by
    intro words
    induction words with
    | nil => exact Nat.le_refl _
    | cons parts words ih =>
      rw [List.flatMap_cons, textLength_append, wordsWeight, List.map_cons, List.sum_cons]
      exact Nat.add_le_add (textLength_expand_le hbare parts) ih
  refine ⟨tokens, htokens, ?_⟩
  calc (((commands.map fun words ↦ words.flatMap (expand host)).filter _).map textLength).sum
    _ ≤ ((commands.map fun words ↦ words.flatMap (expand host)).map textLength).sum :=
      (List.filter_sublist.map _).sum_le_sum fun _ _ ↦ Nat.zero_le _
    _ ≤ (commands.map wordsWeight).sum := by
      rw [List.map_map]
      exact List.sum_le_sum fun words _ ↦ hwords words
    _ ≤ tokensWeight tokens := weight_commandsOf_le hcommands

/-- **Too little.** A line does not say more in its arguments than its start and the characters
that follow. -/
theorem run_ne_of_weight (hbare : host.IsBare) {rest : List Char}
    (h : (line.foldl step start).weight + rest.length < (argvs.map textLength).sum) :
    run host (line ++ rest) ≠ some argvs := by
  intro hrun
  obtain ⟨tokens, hscan, hle⟩ := textLength_run_le hbare hrun
  have hfinish := tokensWeight_finish_le hscan
  have hfold := weight_foldl_le (line.foldl step start) rest
  rw [List.foldl_append] at hfinish
  omega

end Bare

end Shell
