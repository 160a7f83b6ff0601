import FuzzingCiCd.Foundation.ShellWeight

/-!
# Arguments that arrive as written

A text that is appended to a command line arrives as one argument, and as the text it is, on every
host exactly when it is plain: no character of it acts on another one, it starts no comment and no
tilde prefix, and it is no pattern (`EndsWith.run_append_iff`).

That a plain text arrives is an induction over the scanner. For the converse, a character that acts
on another one makes the arguments shorter than the line on a bare host, and a tilde or a pattern is
replaced on a host that has a directory or files for it.

## Main results

* `literal_of_weight`: a text that adds all of its characters to a word is literal.
* `EndsWith.run_append_iff`: which texts arrive as they are written, whatever the host.
-/

namespace Shell

/-! ## Words that stand for themselves

A scanned character adds at most one to the weight of the words, so a text that adds all of its
characters has not lost one to a quote, an escape, an expansion or an operator. That is what
makes `literal` exact: the weights of the other cases are shown to fall behind, and a text cannot
make up for it. -/

def isOrdinary (c : Char) : Bool :=
  c ≠ '\\' && c ≠ '$' && c ≠ backquote && c ≠ doubleQuote && c ≠ singleQuote && !isBlank c &&
    !isOperatorStart c

/-- No character acts on another one: there are no quotes, blanks and operators, no `$` starts an
expansion, and a `\` is the last character. -/
def literal : List Char → Bool
  | [] => true
  | c :: rest =>
    if c = '\\' then rest.isEmpty
    else if c = '$' then !rest.head?.any startsExpansion && literal rest
    else isOrdinary c && literal rest

def literalWord (text : List Char) : Word := text.map (Part.char · false)

section Literal

variable {tokens out : List Token} {parts : Word} {text : List Char} {s : State} {c : Char}

theorem weight_literalWord (text : List Char) : weight (literalWord text) = text.length := by
  induction text with
  | nil => rfl
  | cons c text ih =>
    rw [literalWord, List.map_cons, ← literalWord, weight, List.map_cons, List.sum_cons, ← weight,
      ih, List.length_cons, Part.weight]
    exact Nat.add_comm _ _

/-- What is lost at a character is not made up for later. -/
theorem tokensWeight_le_of_step {n : ℕ} (hstep : (step s c).weight ≤ n)
    (h : finish ((c :: text).foldl step s) = some out) : tokensWeight out ≤ n + text.length := by
  rw [List.foldl_cons] at h
  have hfinish := tokensWeight_finish_le h
  have hfold := weight_foldl_le (step s c) text
  omega

theorem plainStep_ordinary (hc : isOrdinary c = true) :
    plainStep tokens parts false c = ⟨tokens, .word (parts ++ [.char c false]) (.plain false)⟩ := by
  simp only [isOrdinary, Bool.and_eq_true, decide_eq_true_eq, Bool.not_eq_true'] at hc
  obtain ⟨⟨⟨⟨⟨⟨h1, h2⟩, h3⟩, h4⟩, h5⟩, h6⟩, h7⟩ := hc
  simp [plainStep, h1, h2, h3, h4, h5, h6, h7]

theorem weight_plainStep_of_not (hc : isOrdinary c = false) (hescape : c ≠ '\\')
    (hdollar : c ≠ '$') :
    (plainStep tokens parts false c).weight ≤ tokensWeight tokens + weight parts := by
  have hend := tokensWeight_endWord_le tokens parts
  rw [plainStep, if_neg hescape, if_neg hdollar]
  split
  · exact Nat.le_refl _
  rw [if_neg Bool.false_ne_true]
  split
  · simp [State.weight, Mode.weight, Scan.pending, Part.weight]
  split
  · simp [State.weight, Mode.weight, Scan.pending, Part.weight]
  split
  · exact hend _
  split
  · exact hend _
  · simp_all [isOrdinary]

theorem step_escape (tokens : List Token) (parts : Word) :
    step ⟨tokens, .word parts (.plain false)⟩ '\\' = ⟨tokens, .word parts (.escape false)⟩ := rfl

theorem step_dollar (tokens : List Token) (parts : Word) :
    step ⟨tokens, .word parts (.plain false)⟩ '$' = ⟨tokens, .word parts (.dollar false)⟩ := rfl

theorem weight_escape_le (tokens : List Token) (parts : Word) (c : Char) :
    (step ⟨tokens, .word parts (.escape false)⟩ c).weight ≤
      tokensWeight tokens + weight parts + 1 := by
  dsimp only [step, wordStep]
  repeat' split
  all_goals simp [State.weight, Mode.weight, Scan.pending, Part.weight, Nat.add_assoc]

/-- The start of an expansion takes the place of the two. -/
theorem weight_dollar_le (tokens : List Token) (parts : Word) (hc : startsExpansion c = true) :
    (step ⟨tokens, .word parts (.dollar false)⟩ c).weight ≤
      tokensWeight tokens + weight parts + 1 := by
  dsimp only [step, wordStep]
  repeat' split
  all_goals first
    | simp [State.weight, Mode.weight, Scan.pending, Part.weight, Nat.add_assoc]
      done
    | simp_all [startsExpansion]

theorem step_dollar_of_not (hc : startsExpansion c = false) :
    step ⟨tokens, .word parts (.dollar false)⟩ c =
      step ⟨tokens, .word (parts ++ [.char '$' false]) (.plain false)⟩ c := by
  simp only [startsExpansion, Bool.or_eq_false_iff, decide_eq_false_iff_not] at hc
  obtain ⟨⟨⟨hname, hspecial⟩, hbrace⟩, hparen⟩ := hc
  dsimp only [step, wordStep]
  simp [hname, hspecial, hbrace, hparen]

/-- **Tightness.** A text that adds all of its characters to a word is literal. -/
theorem literal_of_weight
    (h : finish (text.foldl step ⟨tokens, .word parts (.plain false)⟩) = some out)
    (hweight : tokensWeight tokens + weight parts + text.length ≤ tokensWeight out) :
    literal text = true := by
  induction text generalizing parts with
  | nil => rfl
  | cons c rest ih =>
    rw [List.length_cons] at hweight
    rw [literal]
    split
    · -- what follows a backslash takes its place
      rename_i hescape
      subst hescape
      rcases rest with _ | ⟨d, rest⟩
      · rfl
      · rw [List.foldl_cons, step_escape] at h
        have hle := tokensWeight_le_of_step (weight_escape_le tokens parts d) h
        rw [List.length_cons] at hweight
        omega
    split
    · rename_i hdollar
      subst hdollar
      rw [List.foldl_cons, step_dollar] at h
      rcases rest with _ | ⟨d, rest⟩
      · rfl
      by_cases hd : startsExpansion d = true
      · have hle := tokensWeight_le_of_step (weight_dollar_le tokens parts hd) h
        rw [List.length_cons] at hweight
        omega
      · rw [List.head?_cons, Option.any_some, Bool.eq_false_iff.mpr hd, Bool.not_false,
          Bool.true_and]
        rw [List.foldl_cons, step_dollar_of_not (Bool.eq_false_iff.mpr hd), ← List.foldl_cons] at h
        refine ih h ?_
        rw [weight_append, weight_singleton, Part.weight]
        omega
    · rename_i hescape hdollar
      by_cases hc : isOrdinary c = true
      · rw [hc, Bool.true_and]
        rw [List.foldl_cons, step] at h
        dsimp only [wordStep] at h
        rw [plainStep_ordinary hc] at h
        refine ih h ?_
        rw [weight_append, weight_singleton, Part.weight]
        omega
      · have hstep : (step ⟨tokens, .word parts (.plain false)⟩ c).weight ≤
            tokensWeight tokens + weight parts :=
          weight_plainStep_of_not (Bool.eq_false_iff.mpr hc) hescape hdollar
        have hle := tokensWeight_le_of_step hstep h
        omega

theorem finish_literal (hliteral : literal text = true) (hparts : parts ++ literalWord text ≠ []) :
    finish (text.foldl step ⟨tokens, .word parts (.plain false)⟩) =
      some (tokens ++ [.word (parts ++ literalWord text)]) := by
  induction text generalizing parts with
  | nil =>
    rw [literalWord, List.map_nil, List.append_nil] at hparts ⊢
    simp [finish, endWord, hparts]
  | cons c rest ih =>
    have happend : parts ++ literalWord (c :: rest) =
        parts ++ [.char c false] ++ literalWord rest := by
      rw [List.append_assoc]
      rfl
    have hnext : parts ++ [Part.char c false] ++ literalWord rest ≠ [] := by
      rw [List.append_assoc]
      exact List.append_ne_nil_of_right_ne_nil _ (List.cons_ne_nil _ _)
    rw [happend]
    rw [literal] at hliteral
    split at hliteral
    · rename_i hescape
      subst hescape
      rw [List.isEmpty_iff.mp hliteral, List.foldl_cons, step_escape, literalWord, List.map_nil,
        List.append_nil]
      rfl
    split at hliteral
    · rename_i hdollar
      subst hdollar
      rw [Bool.and_eq_true] at hliteral
      have hfold := ih hliteral.2 hnext
      rcases rest with _ | ⟨d, rest⟩
      · rw [List.foldl_cons, step_dollar, literalWord, List.map_nil, List.append_nil]
        rfl
      · have hd : startsExpansion d = false := by simpa using hliteral.1
        rw [List.foldl_cons, step_dollar, List.foldl_cons, step_dollar_of_not hd,
          ← List.foldl_cons]
        exact hfold
    · rw [Bool.and_eq_true] at hliteral
      have hstep : step ⟨tokens, .word parts (.plain false)⟩ c =
          ⟨tokens, .word (parts ++ [.char c false]) (.plain false)⟩ :=
        plainStep_ordinary hliteral.1
      rw [List.foldl_cons, hstep]
      exact ih hliteral.2 hnext

/-- Between words, a text that does not start a comment is scanned like a part of a word. -/
theorem step_blank (hc : c ≠ '#') (hblank : isBlank c = false) :
    step ⟨tokens, .blank⟩ c = step ⟨tokens, .word [] (.plain false)⟩ c := by
  dsimp only [step]
  rw [blankStep, if_neg hc, hblank, if_neg Bool.false_ne_true]
  rfl

theorem finish_blank (hne : text ≠ []) (hliteral : literal text = true)
    (hcomment : text.head? ≠ some '#') :
    finish (text.foldl step ⟨tokens, .blank⟩) = some (tokens ++ [.word (literalWord text)]) := by
  rcases text with _ | ⟨c, rest⟩
  · exact absurd rfl hne
  have hblank : isBlank c = false := by
    by_contra hc
    rw [Bool.not_eq_false, isBlank, Bool.or_eq_true, decide_eq_true_iff, decide_eq_true_iff] at hc
    rcases hc with rfl | rfl
    · exact Bool.false_ne_true hliteral
    · exact Bool.false_ne_true hliteral
  rw [List.foldl_cons, step_blank (fun hc ↦ hcomment (congrArg some hc)) hblank, ← List.foldl_cons]
  exact finish_literal hliteral (by simp [literalWord])

/-- A text that adds all of its characters after a blank is a literal word. -/
theorem literal_of_weight_blank (hne : text ≠ [])
    (h : finish (text.foldl step ⟨tokens, .blank⟩) = some out)
    (hweight : tokensWeight tokens + text.length ≤ tokensWeight out) :
    literal text = true ∧ text.head? ≠ some '#' := by
  rcases text with _ | ⟨c, rest⟩
  · exact absurd rfl hne
  have hlost : (step ⟨tokens, .blank⟩ c).weight ≤ tokensWeight tokens → False := by
    intro hstep
    have hle := tokensWeight_le_of_step hstep h
    rw [List.length_cons] at hweight
    omega
  by_cases hc : c = '#'
  · subst hc
    exact (hlost (Nat.le_refl _)).elim
  by_cases hblank : isBlank c = true
  · refine (hlost ?_).elim
    dsimp only [step]
    rw [blankStep, if_neg hc, if_pos hblank]
    exact Nat.le_refl _
  · rw [List.foldl_cons, step_blank hc (Bool.eq_false_iff.mpr hblank), ← List.foldl_cons] at h
    exact ⟨literal_of_weight h hweight, fun heq ↦ hc (Option.some.inj heq)⟩

end Literal

/-! ## Commands that stand for themselves

A literal word can still be expanded: a `~` at its beginning by the home directories of a host,
and pattern characters by its files. An argument therefore arrives as it is written, whatever the
host, exactly when it is literal, does not begin with `#` and no host finds anything for it. -/

/-- No host finds a directory or files for the text. -/
structure Inert (text : List Char) : Prop where
  nonempty : text ≠ []
  noTilde : text.head? ≠ some '~'
  noPattern : isPattern (text.map fun c ↦ (c, true)) = false

/-- The text is an argument that a shell takes as it is. -/
structure Plain (text : List Char) : Prop extends Inert text where
  literal : Shell.literal text = true
  noComment : text.head? ≠ some '#'

section Commands

variable {host : Host} {argv : List (List Char)} {line text : List Char} {cells : List Cell}

theorem fields_of_not_separator (hne : cells ≠ []) (h : ∀ cell ∈ cells, isSeparator cell = false) :
    fields cells = [cells] := by
  have hsplit : cells.splitOnP isSeparator = [cells] := by
    clear hne
    induction cells with
    | nil => rfl
    | cons cell cells ih =>
      rw [List.splitOnP_cons_eq_if_modifyHead, if_neg (by rw [h cell List.mem_cons_self]; decide),
        ih fun cell hcell ↦ h cell (List.mem_cons_of_mem _ hcell)]
      rfl
  rw [fields, hsplit]
  simp [hne]

theorem expand_chars {chars : List (Char × Bool)} (hne : chars ≠ [])
    {parts : Word} (htilde : tilde host parts = chars.map fun x ↦ Part.char x.1 x.2) :
    expand host parts =
      expandField host (chars.map fun x ↦ Cell.char x.1 x.2) := by
  have hcells : (chars.map fun x ↦ Part.char x.1 x.2).flatMap (Part.cells host) =
      chars.map fun x ↦ Cell.char x.1 x.2 := by
    rw [List.flatMap_map]
    exact List.flatMap_pure_eq_map _ _
  rw [expand, htilde, hcells, fields_of_not_separator]
  · exact List.flatMap_singleton _ _
  · simpa using hne
  · intro cell hcell
    obtain ⟨x, -, rfl⟩ := List.mem_map.mp hcell
    rfl

theorem tilde_of_ne (host : Host) (h : text.head? ≠ some '~') :
    tilde host (literalWord text) = literalWord text := by
  rcases text with _ | ⟨c, rest⟩
  · rfl
  rw [literalWord, List.map_cons, tilde.eq_def]
  split
  · rename_i heq
    obtain ⟨hc, -⟩ := List.cons.inj heq
    rw [List.head?_cons, (Part.char.inj hc).1] at h
    exact absurd rfl h
  · rfl

theorem pattern_literalWord (text : List Char) :
    ((text.map fun c ↦ (c, false)).map fun x ↦ Cell.char x.1 x.2).filterMap Cell.text =
      text.map fun c ↦ (c, true) := by
  rw [List.map_map, List.filterMap_map]
  exact congrFun List.filterMap_eq_map' text

theorem expand_literalWord (host : Host) (hne : text ≠ []) (h : text.head? ≠ some '~') :
    expand host (literalWord text) =
      expandField host ((text.map fun c ↦ (c, false)).map fun x ↦ Cell.char x.1 x.2) := by
  have hchars : literalWord text =
      (text.map fun c ↦ (c, false)).map fun x ↦ Part.char x.1 x.2 := by
    rw [List.map_map]
    rfl
  have htilde := tilde_of_ne host h
  rw [hchars] at htilde ⊢
  exact expand_chars (by simpa using hne) htilde

theorem Inert.expand_eq (h : Inert text) (host : Host) :
    expand host (literalWord text) = [text] := by
  rw [expand_literalWord host h.nonempty h.noTilde, expandField, pattern_literalWord, h.noPattern,
    if_neg Bool.false_ne_true, List.map_map]
  exact congrArg (fun text ↦ [text]) (List.map_id text)

theorem commandsOf_words {words : List Word} (hne : words ≠ [])
    (hhead : ∀ parts ∈ words.head?, startsConstruct parts = false) :
    commandsOf (words.map Token.word) = some [words] := by
  have hmore : ∀ (more before : List Word), before ≠ [] →
      (more.map Token.word).foldlM readToken ⟨[], before, false, false, false⟩ =
        some ⟨[], before ++ more, false, false, false⟩ := by
    intro more
    induction more with
    | nil =>
      intro before _
      rw [List.append_nil]
      rfl
    | cons parts more ih =>
      intro before hbefore
      have hread : readToken ⟨[], before, false, false, false⟩ (.word parts) =
          some ⟨[], before ++ [parts], false, false, false⟩ := by
        simp [readToken, hbefore]
      rw [List.map_cons, List.foldlM_cons, hread]
      refine (ih _ (by simp)).trans ?_
      rw [List.append_assoc]
      rfl
  rcases words with _ | ⟨first, more⟩
  · exact absurd rfl hne
  have hfirst : readToken ⟨[], [], false, false, false⟩ (.word first) =
      some ⟨[], [first], false, false, false⟩ := by
    simp [readToken, hhead first rfl]
  have hall : ((first :: more).map Token.word).foldlM readToken ⟨[], [], false, false, false⟩ =
      some ⟨[], first :: more, false, false, false⟩ := by
    rw [List.map_cons, List.foldlM_cons, hfirst]
    exact hmore more [first] (List.cons_ne_nil _ _)
  rw [commandsOf, hall]
  rfl

theorem run_words {words : List Word} (host : Host) (hne : words ≠ [])
    (hhead : ∀ parts ∈ words.head?, startsConstruct parts = false)
    (hscan : scan line = some (words.map Token.word)) :
    run host line = some ([words.flatMap (expand host)].filter fun argv ↦ !argv.isEmpty) := by
  rw [run, hscan]
  change ((commandsOf (words.map Token.word)).bind _) = _
  rw [commandsOf_words hne hhead]
  rfl

theorem flatMap_expand_eq (h : ∀ a ∈ argv, Inert a) (host : Host) :
    (argv.map literalWord).flatMap (expand host) = argv := by
  rw [List.flatMap_map]
  induction argv with
  | nil => rfl
  | cons a argv ih =>
    rw [List.flatMap_cons, ih fun b hb ↦ h b (List.mem_cons_of_mem _ hb),
      (h a List.mem_cons_self).expand_eq]
    rfl

/-- A line that has been scanned to the end of a word, with these words so far. -/
structure EndsWith (line : List Char) (argv : List (List Char)) : Prop where
  state : line.foldl step start = ⟨argv.map fun a ↦ .word (literalWord a), .blank⟩
  nonempty : argv ≠ []
  head : ∀ a ∈ argv.head?, startsConstruct (literalWord a) = false
  inert : ∀ a ∈ argv, Inert a

theorem EndsWith.run_append (h : EndsWith line argv) (host : Host) (hne : text ≠ [])
    (hliteral : literal text = true) (hcomment : text.head? ≠ some '#') :
    run host (line ++ text) = some [argv ++ expand host (literalWord text)] := by
  have hscan : scan (line ++ text) =
      some (((argv ++ [text]).map literalWord).map Token.word) := by
    rw [scan, List.foldl_append, h.state, finish_blank hne hliteral hcomment, List.map_append,
      List.map_append, List.map_map]
    rfl
  have hwords : (argv ++ [text]).map literalWord ≠ [] := by simp
  have hhead : ∀ parts ∈ ((argv ++ [text]).map literalWord).head?,
      startsConstruct parts = false := by
    rcases hargv : argv with _ | ⟨a, rest⟩
    · exact absurd hargv h.nonempty
    · rintro parts hparts
      obtain rfl := Option.some.inj hparts
      exact h.head a (by rw [hargv]; rfl)
  rw [run_words host hwords hhead hscan, List.map_append, List.flatMap_append,
    flatMap_expand_eq h.inert]
  simp [h.nonempty]

theorem tokensWeight_words (argv : List (List Char)) :
    tokensWeight (argv.map fun a ↦ .word (literalWord a)) = textLength argv := by
  rw [tokensWeight, List.map_map, textLength]
  congr 1
  exact List.map_congr_left fun a _ ↦ weight_literalWord a

theorem EndsWith.run_line (h : EndsWith line argv) (host : Host) : run host line = some [argv] := by
  have hscan : scan line = some ((argv.map literalWord).map Token.word) := by
    rw [scan, h.state, List.map_map]
    rfl
  have hhead : ∀ parts ∈ (argv.map literalWord).head?, startsConstruct parts = false := by
    rintro parts hparts
    rw [List.head?_map] at hparts
    obtain ⟨a, ha, rfl⟩ := Option.map_eq_some_iff.mp hparts
    exact h.head a ha
  rw [run_words host (by simpa using h.nonempty) hhead hscan, flatMap_expand_eq h.inert]
  simp [h.nonempty]

theorem expand_tilde_ne {host : Host} {directory : List Char} (hhome : ∀ name, host.home name =
    some ('/' :: directory)) (hfiles : ∀ pattern, host.pathnames pattern = [])
    (rest : List Char) : expand host (literalWord ('~' :: rest)) ≠ ['~' :: rest] := by
  have hlogin : loginName (literalWord rest) =
      (rest.takeWhile (· ≠ '/'), literalWord (rest.dropWhile (· ≠ '/'))) := by
    induction rest with
    | nil => rfl
    | cons c rest ih =>
      rw [literalWord, List.map_cons, ← literalWord, loginName, ih]
      by_cases hc : c = '/'
      · subst hc
        rfl
      · rw [if_neg hc, List.takeWhile_cons_of_pos (by simpa using hc),
          List.dropWhile_cons_of_pos (by simpa using hc)]
        rfl
  have hafter : ((literalWord (rest.dropWhile (· ≠ '/'))).isEmpty ||
      (literalWord (rest.dropWhile (· ≠ '/'))).head? = some (.char '/' false)) = true := by
    rcases hdrop : rest.dropWhile (· ≠ '/') with _ | ⟨c, after⟩
    · rfl
    · have hc := List.head?_dropWhile_not (fun c ↦ decide (c ≠ '/')) rest
      rw [hdrop] at hc
      obtain rfl : c = '/' := by simpa using hc
      rfl
  have htilde : tilde host (literalWord ('~' :: rest)) =
      (('/' :: directory).map (·, true) ++ (rest.dropWhile (· ≠ '/')).map (·, false)).map
        fun x ↦ Part.char x.1 x.2 := by
    rw [literalWord, List.map_cons, ← literalWord, tilde, hlogin]
    dsimp only
    rw [if_pos hafter, hhome]
    dsimp only
    rw [List.map_append, List.map_map, List.map_map]
    rfl
  rw [expand_chars (by simp) htilde, expandField, hfiles]
  dsimp only
  rw [ite_self]
  intro heq
  obtain ⟨htext, -⟩ := List.cons.inj heq
  have hslash : '/' = '~' := (List.cons.inj htext).1
  exact absurd hslash (by decide)

/-- **An argument arrives as written**, whatever the host, exactly when it is plain. -/
theorem EndsWith.run_append_iff (h : EndsWith line argv) :
    (∀ host, run host (line ++ text) = some [argv ++ [text]]) ↔ Plain text := by
  constructor
  · intro hrun
    have hne : text ≠ [] := by
      rintro rfl
      have hline := hrun bareHost
      rw [List.append_nil, h.run_line bareHost] at hline
      simpa using List.cons.inj (Option.some.inj hline)
    -- on a bare host every character of the text has to be one of the argument
    obtain ⟨hliteral, hcomment⟩ : literal text = true ∧ text.head? ≠ some '#' := by
      obtain ⟨tokens, hscan, hle⟩ := textLength_run_le isBare_bareHost (hrun bareHost)
      rw [scan, List.foldl_append, h.state] at hscan
      refine literal_of_weight_blank hne hscan ?_
      rw [List.map_singleton, List.sum_singleton, textLength_append] at hle
      rw [tokensWeight_words]
      exact hle
    have hexpand : ∀ host, expand host (literalWord text) = [text] := by
      intro host
      have hhost := hrun host
      rw [h.run_append host hne hliteral hcomment] at hhost
      exact List.append_cancel_left (List.cons.inj (Option.some.inj hhost)).1
    have htilde : text.head? ≠ some '~' := by
      intro hhead
      obtain ⟨rest, rfl⟩ := List.head?_eq_some_iff.mp hhead
      exact @expand_tilde_ne ⟨bareHost.value, fun _ ↦ some ['/'], fun _ ↦ []⟩ []
        (fun _ ↦ rfl) (fun _ ↦ rfl) rest (hexpand _)
    refine ⟨⟨hne, htilde, ?_⟩, hliteral, hcomment⟩
    by_contra hpattern
    -- two files match
    have htwo := hexpand ⟨bareHost.value, fun _ ↦ none, fun _ ↦ [[], []]⟩
    rw [expand_literalWord _ hne htilde, expandField, pattern_literalWord,
      if_pos (by simpa using hpattern)] at htwo
    simpa using congrArg List.length htwo
  · intro hplain host
    rw [h.run_append host hplain.nonempty hplain.literal hplain.noComment,
      hplain.toInert.expand_eq]

end Commands

end Shell
