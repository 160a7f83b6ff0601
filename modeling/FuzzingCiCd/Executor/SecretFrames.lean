import FuzzingCiCd.Executor.SecretRedactor
import FuzzingCiCd.Foundation.Holes

/-!
# The patterns of the redactor around a hole

A piece of a pattern reads a text with a hole. It is *settled* if it ends in front of the hole or
does not match, with any filling, and *framed* if it may also run over the hole. The beginning of a
pattern is settled by a character that none of its pieces takes, the *bar*. What stands for a secret
is framed: a quoted value and a value without quotes run over any filling that has neither quotes
nor delimiters.

## Main results

* `settled_cons`: pieces one after the other are settled if each of them is.
* `framed_bareValue`, `framed_quoted`, `framed_jsonCharacters`, `framed_upTo`: the pieces that may
  run over the hole.
* `treated_secretAt`: a pattern that is made of both treats all fillings alike.
-/

namespace FuzzingCiCd.Executor.SecretRedactor

open Replacement

/-! ## Pieces and fillings -/

section Pieces

variable (piece : Piece) (Fills : List Char → Prop) (head tail : List Char)

/-- A piece that ends in front of the hole, or does not match. -/
inductive Settled : Prop
  | passes (h : ∀ w, Fills w → piece (head ++ w ++ tail) = none)
  | before (taken left : List Char) (hsplit : head = taken ++ left)
      (h : ∀ w, Fills w → piece (head ++ w ++ tail) = some (taken, left ++ w ++ tail))

/-- A piece that may also run over the hole. -/
inductive Framed : Prop
  | passes (h : ∀ w, Fills w → piece (head ++ w ++ tail) = none)
  | before (taken left : List Char) (hsplit : head = taken ++ left)
      (h : ∀ w, Fills w → piece (head ++ w ++ tail) = some (taken, left ++ w ++ tail))
  | over (taken left : List Char) (hsplit : tail = taken ++ left)
      (h : ∀ w, Fills w → piece (head ++ w ++ tail) = some (head ++ w ++ taken, left))

/-- There is a character, in front of the hole or first in it, that bars the way. -/
def Barred (bars : Char → Prop) : Prop :=
  ∃ front back, head = front ++ back ∧
    ∀ w, Fills w → ∃ c rest, back ++ w ++ tail = c :: rest ∧ bars c

end Pieces

section Chains

variable {piece : Piece} {pieces : List Piece} {Fills : List Char → Prop} {head tail : List Char}

theorem barred_of_mem {bars : Char → Prop} {c : Char} (hmem : c ∈ head) (hc : bars c) :
    Barred Fills head tail bars := by
  obtain ⟨front, back, rfl⟩ := List.append_of_mem hmem
  exact ⟨front, c :: back, rfl, fun w _ ↦ ⟨c, back ++ w ++ tail, rfl, hc⟩⟩

theorem barred_of_fills {bars : Char → Prop}
    (h : ∀ w, Fills w → ∃ c w', w = c :: w' ∧ bars c) : Barred Fills head tail bars := by
  refine ⟨head, [], (List.append_nil _).symm, fun w hw ↦ ?_⟩
  obtain ⟨c, w', rfl, hc⟩ := h w hw
  exact ⟨c, w' ++ tail, rfl, hc⟩

theorem framed_of_settled (h : Settled piece Fills head tail) : Framed piece Fills head tail := by
  rcases h with h | ⟨taken, left, hsplit, h⟩
  · exact .passes h
  · exact .before taken left hsplit h

theorem settled_nil : Settled (chain []) Fills head tail :=
  .before [] head rfl fun _ _ ↦ rfl

/-- **One piece after the other.** -/
theorem settled_cons (h : Settled piece Fills head tail)
    (hrest : ∀ taken left, head = taken ++ left →
      (∃ w, piece (head ++ w ++ tail) = some (taken, left ++ w ++ tail)) →
      Settled (chain pieces) Fills left tail) :
    Settled (chain (piece :: pieces)) Fills head tail := by
  by_cases hfilled : ∃ w, Fills w
  swap
  · exact .passes fun w hw ↦ absurd ⟨w, hw⟩ hfilled
  obtain ⟨w₀, hw₀⟩ := hfilled
  rcases h with hnone | ⟨taken, left, hsplit, hpiece⟩
  · refine .passes fun w hw ↦ ?_
    rw [chain, hnone w hw]
    rfl
  rcases hrest taken left hsplit ⟨w₀, hpiece w₀ hw₀⟩ with hnone | ⟨taken', left', hsplit', hchain⟩
  · refine .passes fun w hw ↦ ?_
    rw [chain, hpiece w hw, Option.bind_some, hnone w hw]
    rfl
  · refine .before (taken ++ taken') left' ?_ fun w hw ↦ ?_
    · rw [hsplit, hsplit', List.append_assoc]
    · rw [chain, hpiece w hw, Option.bind_some, hchain w hw]
      rfl

/-! ## Settled pieces -/

theorem literal_append {fold : Char → Char} {text front rest : List Char} {c : Char}
    (hc : ∀ p ∈ text, fold c ≠ p) : literal fold text (front ++ c :: rest) =
      (literal fold text front).map fun taken ↦ (taken.1, taken.2 ++ c :: rest) := by
  induction text generalizing front with
  | nil => rfl
  | cons p text ih =>
    rw [List.forall_mem_cons] at hc
    rcases front with _ | ⟨d, front⟩
    · exact if_neg hc.1
    rw [List.cons_append, literal, literal]
    by_cases hd : fold d = p
    · rw [if_pos hd, if_pos hd, ih hc.2, Option.map_map, Option.map_map]
      rfl
    · rw [if_neg hd, if_neg hd]
      rfl

theorem map_of_literal {fold : Char → Char} {text cs taken left : List Char}
    (h : literal fold text cs = some (taken, left)) : taken.map fold = text := by
  induction text generalizing cs taken with
  | nil =>
    obtain ⟨rfl, -⟩ := Prod.mk.inj (Option.some.inj h)
    rfl
  | cons p text ih =>
    rcases cs with _ | ⟨c, cs⟩
    · cases h
    rw [literal] at h
    split_ifs at h with hc
    obtain ⟨⟨taken', left'⟩, htaken, heq⟩ := Option.map_eq_some_iff.mp h
    obtain ⟨rfl, rfl⟩ := Prod.mk.inj heq
    rw [List.map_cons, hc, ih htaken]

theorem settled_of_append (hsplits : Splits piece) {bars : Char → Prop}
    (hbarred : Barred Fills head tail bars)
    (happend : ∀ front c rest, bars c → piece (front ++ c :: rest) =
      (piece front).map fun taken ↦ (taken.1, taken.2 ++ c :: rest)) :
    Settled piece Fills head tail := by
  obtain ⟨front, back, rfl, hback⟩ := hbarred
  have hpiece : ∀ w, Fills w → piece (front ++ back ++ w ++ tail) =
      (piece front).map fun taken ↦ (taken.1, taken.2 ++ back ++ w ++ tail) := by
    intro w hw
    obtain ⟨c, rest, heq, hc⟩ := hback w hw
    have htext : ∀ x : List Char, x ++ back ++ w ++ tail = x ++ c :: rest := by
      intro x
      rw [← heq]
      simp only [List.append_assoc]
    simp only [htext]
    exact happend front c rest hc
  rcases hfront : piece front with _ | ⟨taken, left⟩
  · refine .passes fun w hw ↦ ?_
    rw [hpiece w hw, hfront]
    rfl
  · refine .before taken (left ++ back) ?_ fun w hw ↦ ?_
    · rw [hsplits front taken left hfront, List.append_assoc]
    · rw [hpiece w hw, hfront]
      rfl

theorem settled_literal {fold : Char → Char} {text : List Char}
    (h : Barred Fills head tail fun c ↦ ∀ p ∈ text, fold c ≠ p) :
    Settled (literal fold text) Fills head tail :=
  settled_of_append (splits_literal _ _) h fun _ _ _ ↦ literal_append

theorem settled_secretFieldName
    (h : Barred Fills head tail fun c ↦
      ∀ name ∈ secretFieldNames, ∀ p ∈ name.toList, foldAscii c ≠ p) :
    Settled secretFieldName Fills head tail := by
  refine settled_of_append splits_secretFieldName h fun front c rest hc ↦ ?_
  rw [secretFieldName, secretFieldName]
  generalize secretFieldNames = names at hc ⊢
  induction names with
  | nil => rfl
  | cons name names ih =>
    rw [List.forall_mem_cons] at hc
    rw [List.findSome?_cons, List.findSome?_cons, literal_append hc.1]
    rcases literal foldAscii name.toList front with _ | taken
    · exact ih hc.2
    · rfl

theorem takeWhile_append_cons {class' : Char → Bool} {c : Char} (hc : class' c = false)
    (front rest : List Char) :
    (front ++ c :: rest).takeWhile class' = front.takeWhile class' ∧
      (front ++ c :: rest).dropWhile class' = front.dropWhile class' ++ c :: rest := by
  induction front with
  | nil =>
    rw [List.nil_append, List.takeWhile_cons_of_neg (by simp [hc]),
      List.dropWhile_cons_of_neg (by simp [hc])]
    exact ⟨rfl, rfl⟩
  | cons d front ih =>
    by_cases hd : class' d = true
    · rw [List.cons_append, List.takeWhile_cons_of_pos hd, List.takeWhile_cons_of_pos hd,
        List.dropWhile_cons_of_pos hd, List.dropWhile_cons_of_pos hd, ih.1, ih.2]
      exact ⟨rfl, rfl⟩
    · rw [List.cons_append, List.takeWhile_cons_of_neg hd, List.takeWhile_cons_of_neg hd,
        List.dropWhile_cons_of_neg hd, List.dropWhile_cons_of_neg hd]
      exact ⟨rfl, rfl⟩

theorem settled_run {class' : Char → Bool}
    (h : Barred Fills head tail fun c ↦ class' c = false) :
    Settled (run class') Fills head tail := by
  refine settled_of_append (splits_run _) h fun front c rest hc ↦ ?_
  obtain ⟨htake, hdrop⟩ := takeWhile_append_cons hc front rest
  rw [run, run, htake, hdrop]
  rfl

theorem settled_run₁ {class' : Char → Bool}
    (h : Barred Fills head tail fun c ↦ class' c = false) :
    Settled (run₁ class') Fills head tail := by
  refine settled_of_append (splits_run₁ _) h fun front c rest hc ↦ ?_
  obtain ⟨htake, hdrop⟩ := takeWhile_append_cons hc front rest
  rw [run₁, run₁, run, run, htake, hdrop]
  split_ifs
  · rfl
  · rfl

theorem settled_one {class' : Char → Bool}
    (h : head = [] → ∀ w, Fills w → ∃ c w', w = c :: w' ∧ class' c = false) :
    Settled (one class') Fills head tail := by
  rcases head with _ | ⟨c, head⟩
  · refine .passes fun w hw ↦ ?_
    obtain ⟨c, w', rfl, hc⟩ := h rfl w hw
    exact if_neg (by rw [hc]; exact Bool.false_ne_true)
  by_cases hc : class' c = true
  · exact .before [c] head rfl fun w _ ↦ if_pos hc
  · exact .passes fun w _ ↦ if_neg hc

theorem settled_boundary (h : head ≠ []) : Settled boundary Fills head tail := by
  rcases head with _ | ⟨c, head⟩
  · exact absurd rfl h
  by_cases hc : isWord c = true
  · exact .passes fun w _ ↦ if_pos hc
  · exact .before [] (c :: head) rfl fun w _ ↦ if_neg hc

end Chains

/-! ## Values -/

/-- The characters that end a value without quotes. -/
def isDelimiter (c : Char) : Bool := isSpace c || c = ',' || c = ';' || c = '&'

/-- A value without delimiters, quotes and backslashes. -/
structure IsValue (value : List Char) : Prop where
  nonempty : value ≠ []
  plain : ∀ c ∈ value, isDelimiter c = false ∧ c ≠ '"' ∧ c ≠ '\'' ∧ c ≠ '\\'

theorem IsValue.head {value : List Char} (h : IsValue value) :
    ∃ c rest, value = c :: rest ∧ isDelimiter c = false ∧ c ≠ '"' ∧ c ≠ '\'' ∧ c ≠ '\\' := by
  rcases value with _ | ⟨c, rest⟩
  · exact absurd rfl h.nonempty
  · exact ⟨c, rest, rfl, h.plain c List.mem_cons_self⟩

theorem isSpace_of_isDelimiter {c : Char} (h : isDelimiter c = false) : isSpace c = false := by
  rw [isDelimiter, Bool.or_eq_false_iff, Bool.or_eq_false_iff, Bool.or_eq_false_iff] at h
  exact h.1.1.1

section Values

variable {Fills : List Char → Prop} {head tail : List Char}

theorem takeWhile_of_all {class' : Char → Bool} {front rest : List Char}
    (hfront : ∀ c ∈ front, class' c = true) (hrest : ∀ c ∈ rest.head?, class' c = false) :
    (front ++ rest).takeWhile class' = front ∧ (front ++ rest).dropWhile class' = rest := by
  rw [List.takeWhile_append_of_pos hfront, List.dropWhile_append_of_pos hfront]
  rcases rest with _ | ⟨c, rest⟩
  · exact ⟨List.append_nil _, rfl⟩
  · have hc := hrest c rfl
    rw [List.takeWhile_cons_of_neg (by simp [hc]), List.dropWhile_cons_of_neg (by simp [hc])]
    exact ⟨List.append_nil _, rfl⟩

/-- **A value without quotes.** It ends at a delimiter in front of the hole, or at the end of the
filling. -/
theorem framed_bareValue (hfills : ∀ w, Fills w → IsValue w)
    (htail : ∀ c ∈ tail.head?, isDelimiter c = true) : Framed bareValue Fills head tail := by
  by_cases hdelimiter : ∃ c ∈ head, isDelimiter c = true
  · obtain ⟨c, hmem, hc⟩ := hdelimiter
    exact framed_of_settled
      (settled_run₁ (barred_of_mem hmem (by rw [isDelimiter] at hc; rw [hc]; rfl)))
  · refine .over [] tail rfl fun w hw ↦ ?_
    have hall : ∀ c ∈ head ++ w, (!isDelimiter c) = true := by
      intro c hc
      rcases List.mem_append.mp hc with hc | hc
      · rw [Bool.not_eq_true']
        exact Bool.eq_false_iff.mpr fun htrue ↦ hdelimiter ⟨c, hc, htrue⟩
      · rw [((hfills w hw).plain c hc).1]
        rfl
    obtain ⟨htake, hdrop⟩ := @takeWhile_of_all _ _ tail hall fun c hc ↦ by
      rw [htail c hc]
      rfl
    change (if ((head ++ w ++ tail).takeWhile fun d ↦ !isDelimiter d).isEmpty then none
      else some ((head ++ w ++ tail).takeWhile fun d ↦ !isDelimiter d,
        (head ++ w ++ tail).dropWhile fun d ↦ !isDelimiter d)) = _
    have hne : ¬ (head ++ w).isEmpty = true := by
      rw [List.isEmpty_iff, List.append_eq_nil_iff]
      exact fun h ↦ (hfills w hw).nonempty h.2
    rw [htake, hdrop, if_neg hne, List.append_nil]

theorem framed_orElse {first second : Piece} (h₁ : Framed first Fills head tail)
    (h₂ : Framed second Fills head tail) :
    Framed (fun cs ↦ (first cs).orElse fun _ ↦ second cs) Fills head tail := by
  rcases h₁ with hnone | ⟨taken, left, hsplit, hfirst⟩ | ⟨taken, left, hsplit, hfirst⟩
  · rcases h₂ with hnone' | ⟨taken, left, hsplit, hsecond⟩ | ⟨taken, left, hsplit, hsecond⟩
    · exact .passes fun w hw ↦ by rw [hnone w hw, hnone' w hw]; rfl
    · exact .before taken left hsplit fun w hw ↦ by rw [hnone w hw, hsecond w hw]; rfl
    · exact .over taken left hsplit fun w hw ↦ by rw [hnone w hw, hsecond w hw]; rfl
  · exact .before taken left hsplit fun w hw ↦ by rw [hfirst w hw]; rfl
  · exact .over taken left hsplit fun w hw ↦ by rw [hfirst w hw]; rfl

/-! ## Quoted values -/

theorem quoted_of_ne {quote c : Char} {rest : List Char} (h : c ≠ quote) :
    quoted quote (c :: rest) = none := by
  rw [quoted, chain, one, if_neg (by simpa using h)]
  rfl

theorem quoted_cons {quote : Char} {inner rest : List Char} (h : quote ∉ inner)
    (hrest : ∀ c ∈ rest.head?, c = quote) :
    quoted quote (quote :: (inner ++ rest)) =
      rest.head?.map fun _ ↦ (quote :: inner ++ [quote], rest.tail) := by
  obtain ⟨htake, hdrop⟩ := @takeWhile_of_all (fun c ↦ c ≠ quote) inner rest
    (fun c hc ↦ by simpa using fun heq : c = quote ↦ h (heq ▸ hc))
    fun c hc ↦ by simpa using hrest c hc
  rw [quoted, chain, one, if_pos (by simp), Option.bind_some, chain, run, Option.bind_some, htake,
    hdrop]
  rcases rest with _ | ⟨c, rest⟩
  · rfl
  · obtain rfl := hrest c rfl
    rw [chain, one, if_pos (by simp)]
    rfl

/-- **A quoted value.** Its second quote is in front of the hole or behind it. -/
theorem framed_quoted {quote : Char} (hfills : ∀ w, Fills w → w ≠ [] ∧ quote ∉ w) :
    Framed (quoted quote) Fills head tail := by
  rcases head with _ | ⟨c, head⟩
  · refine .passes fun w hw ↦ ?_
    obtain ⟨hne, hquote⟩ := hfills w hw
    rcases w with _ | ⟨c, w⟩
    · exact absurd rfl hne
    · exact quoted_of_ne fun h ↦ hquote (h ▸ List.mem_cons_self)
  by_cases hc : c = quote
  swap
  · exact .passes fun w _ ↦ quoted_of_ne hc
  obtain rfl := hc
  by_cases hhead : c ∈ head
  · obtain ⟨front, back, rfl, hfront⟩ := List.eq_append_cons_of_mem hhead
    refine .before (c :: front ++ [c]) back ?_ fun w _ ↦ ?_
    · simp
    · have hquoted := @quoted_cons c front (c :: back ++ w ++ tail) hfront (by simp)
      simpa using hquoted
  have hopen : ∀ w, Fills w → ∀ front, c ∉ front → c ∉ head ++ w ++ front := by
    intro w hw front hfront hmem
    rcases List.mem_append.mp hmem with hmem | hmem
    · exact (List.mem_append.mp hmem).elim hhead (hfills w hw).2
    · exact hfront hmem
  by_cases htail : c ∈ tail
  · obtain ⟨front, back, rfl, hfront⟩ := List.eq_append_cons_of_mem htail
    refine .over (front ++ [c]) back (by simp) fun w hw ↦ ?_
    have hquoted := @quoted_cons c _ (c :: back) (hopen w hw front hfront) (by simp)
    simpa using hquoted
  · refine .passes fun w hw ↦ ?_
    have hquoted := @quoted_cons c _ [] (hopen w hw tail htail) (by simp)
    simpa using hquoted

theorem framed_secretValue (hfills : ∀ w, Fills w → IsValue w)
    (htail : ∀ c ∈ tail.head?, isDelimiter c = true) : Framed secretValue Fills head tail := by
  have hquotes : ∀ w, Fills w → w ≠ [] ∧ '"' ∉ w ∧ '\'' ∉ w := fun w hw ↦
    ⟨(hfills w hw).nonempty, fun h ↦ ((hfills w hw).plain _ h).2.1 rfl,
      fun h ↦ ((hfills w hw).plain _ h).2.2.1 rfl⟩
  have hdouble := @framed_quoted Fills head tail '"' fun w hw ↦
    ⟨(hquotes w hw).1, (hquotes w hw).2.1⟩
  have hsingle := @framed_quoted Fills head tail '\'' fun w hw ↦
    ⟨(hquotes w hw).1, (hquotes w hw).2.2⟩
  exact framed_orElse hdouble (framed_orElse hsingle (framed_bareValue hfills htail))

/-! ## The inside of a JSON string -/

theorem jsonCharacters_cons {c : Char} (hescape : c ≠ '\\') (hquote : c ≠ '"') (cs : List Char) :
    jsonCharacters (c :: cs) = (c :: (jsonCharacters cs).1, (jsonCharacters cs).2) := by
  rcases cs with _ | ⟨d, cs⟩
  · simp [jsonCharacters, hescape, hquote]
  · rw [jsonCharacters, if_neg hescape, if_neg hquote]

theorem jsonCharacters_quote (cs : List Char) : jsonCharacters ('"' :: cs) = ([], '"' :: cs) := by
  rcases cs with _ | ⟨d, cs⟩
  · rfl
  · rfl

theorem jsonCharacters_plain {inner : List Char} (h : ∀ c ∈ inner, c ≠ '"' ∧ c ≠ '\\')
    (rest : List Char) : jsonCharacters (inner ++ rest) =
      (inner ++ (jsonCharacters rest).1, (jsonCharacters rest).2) := by
  induction inner with
  | nil => rfl
  | cons c inner ih =>
    rw [List.forall_mem_cons] at h
    rw [List.cons_append, jsonCharacters_cons h.1.2 h.1.1, ih h.2]
    rfl

theorem framed_jsonCharacters_append (front : List Char)
    (hfront : ∀ rest, jsonCharacters (front ++ rest) =
      (front ++ (jsonCharacters rest).1, (jsonCharacters rest).2))
    (h : Framed (fun cs ↦ some (jsonCharacters cs)) Fills head tail) :
    Framed (fun cs ↦ some (jsonCharacters cs)) Fills (front ++ head) tail := by
  have htext : ∀ w, jsonCharacters (front ++ head ++ w ++ tail) =
      (front ++ (jsonCharacters (head ++ w ++ tail)).1,
        (jsonCharacters (head ++ w ++ tail)).2) := by
    intro w
    rw [List.append_assoc, List.append_assoc, hfront, List.append_assoc]
  rcases h with hnone | ⟨taken, left, rfl, hpiece⟩ | ⟨taken, left, hsplit, hpiece⟩
  · exact .passes fun w hw ↦ by cases hnone w hw
  · refine .before (front ++ taken) left (List.append_assoc _ _ _).symm fun w hw ↦ ?_
    have hw' := Option.some.inj (hpiece w hw)
    rw [htext, hw']
  · refine .over taken left hsplit fun w hw ↦ ?_
    have hw' := Option.some.inj (hpiece w hw)
    rw [htext, hw']
    simp only [List.append_assoc]

/-- **The inside of a JSON string.** It ends in front of the hole, or runs over the filling, unless
a backslash stands right before the hole. -/
theorem framed_jsonCharacters (hfills : ∀ w, Fills w → IsValue w)
    (hlast : ∀ c ∈ head.getLast?, c ≠ '\\') :
    Framed (fun cs ↦ some (jsonCharacters cs)) Fills head tail := by
  fun_induction jsonCharacters head with
  | case1 =>
    refine .over (jsonCharacters tail).1 (jsonCharacters tail).2 (jsonCharacters_append tail).symm
      fun w hw ↦ ?_
    rw [List.nil_append, jsonCharacters_plain fun c hc ↦
      ⟨((hfills w hw).plain c hc).2.1, ((hfills w hw).plain c hc).2.2.2⟩]
  | case2 => exact absurd rfl (hlast '\\' rfl)
  | case3 d ds hd =>
    refine .before [] ('\\' :: d :: ds) rfl fun w _ ↦ ?_
    rw [List.cons_append, List.cons_append, List.cons_append, List.cons_append, jsonCharacters,
      if_pos rfl, if_pos hd]
  | case4 d ds hd ih =>
    refine framed_jsonCharacters_append ['\\', d] (fun rest ↦ ?_)
      (ih fun c hc ↦ hlast c ?_)
    · rw [List.cons_append, List.cons_append, jsonCharacters, if_pos rfl, if_neg hd]
      rfl
    · rcases ds with _ | ⟨e, ds⟩
      · cases hc
      · rwa [List.getLast?_cons_cons, List.getLast?_cons_cons]
  | case5 cs _ =>
    refine .before [] ('"' :: cs) rfl fun w _ ↦ ?_
    rw [List.cons_append, List.cons_append, jsonCharacters_quote]
  | case6 c cs hc hc' ih =>
    refine framed_jsonCharacters_append [c] (fun rest ↦ jsonCharacters_cons hc hc' rest)
      (ih fun d hd ↦ hlast d ?_)
    rcases cs with _ | ⟨e, cs⟩
    · cases hd
    · rwa [List.getLast?_cons_cons]

/-! ## The end of a private key -/

theorem literal_of_prefix (text rest : List Char) :
    literal id text (text ++ rest) = some (text, rest) := by
  induction text with
  | nil => rfl
  | cons c text ih =>
    rw [List.cons_append, literal, if_pos (by rfl), ih]
    rfl

theorem literal_of_not_prefix {text cs : List Char} (h : ¬ text <+: cs) :
    literal id text cs = none := by
  rcases hliteral : literal id text cs with _ | ⟨taken, left⟩
  · rfl
  · refine absurd ⟨left, ?_⟩ h
    rw [← literal_id hliteral]
    exact (splits_literal id text cs taken left hliteral).symm

theorem upTo_of_prefix (end' rest : List Char) : upTo end' (end' ++ rest) = some ([], rest) := by
  have hliteral := literal_of_prefix end' rest
  rcases htext : end' ++ rest with _ | ⟨c, cs⟩
  · rw [htext] at hliteral
    rw [upTo, hliteral]
    rfl
  · rw [htext] at hliteral
    rw [upTo, hliteral]

theorem upTo_of_not_prefix {end' cs : List Char} {c : Char} (h : ¬ end' <+: c :: cs) :
    upTo end' (c :: cs) = (upTo end' cs).map fun taken ↦ (c :: taken.1, taken.2) := by
  rw [upTo, literal_of_not_prefix h]

/-- A stretch in which the end does not begin is skipped. -/
theorem upTo_skip {end' skipped rest : List Char}
    (h : ∀ place, place <:+ skipped → place ≠ [] → ¬ end' <+: place ++ rest) :
    upTo end' (skipped ++ rest) =
      (upTo end' rest).map fun taken ↦ (skipped ++ taken.1, taken.2) := by
  induction skipped with
  | nil =>
    rw [List.nil_append]
    rcases upTo end' rest with _ | taken
    · rfl
    · rfl
  | cons c skipped ih =>
    have hfirst : ¬ end' <+: c :: (skipped ++ rest) :=
      h (c :: skipped) (List.suffix_refl _) (List.cons_ne_nil _ _)
    rw [List.cons_append, upTo_of_not_prefix hfirst,
      ih fun place hplace ↦ h place (hplace.trans (List.suffix_cons _ _)), Option.map_map]
    rfl

/-- **The end of a private key.** It is in front of the filling or behind it, if it does not begin
in the filling where there is none in front. -/
theorem framed_upTo {end' : List Char}
    (hhead : ∀ place, place <:+ head → place ≠ [] →
      ∀ w, Fills w → end' <+: place ++ w ++ tail → end' <+: place)
    (hfills : ¬ end' <:+: head →
      ∀ w, Fills w → ∀ place, place <:+ w → place ≠ [] → ¬ end' <+: place ++ tail) :
    Framed (fun cs ↦ (upTo end' cs).map fun body ↦ (body.1 ++ end', body.2)) Fills head tail := by
  induction head with
  | nil =>
    by_cases hend : end' <:+: []
    · obtain rfl := List.eq_nil_of_infix_nil hend
      refine .before [] [] rfl fun w _ ↦ ?_
      rw [show upTo [] ([] ++ w ++ tail) = some ([], w ++ tail) from upTo_of_prefix [] (w ++ tail)]
      rfl
    have htext : ∀ w, Fills w → upTo end' (w ++ tail) =
        (upTo end' tail).map fun taken ↦ (w ++ taken.1, taken.2) :=
      fun w hw ↦ upTo_skip (hfills hend w hw)
    rcases htail : upTo end' tail with _ | ⟨taken, left⟩
    · refine .passes fun w hw ↦ ?_
      rw [List.nil_append, htext w hw, htail]
      rfl
    · refine .over (taken ++ end') left (upTo_append htail) fun w hw ↦ ?_
      rw [List.nil_append, htext w hw, htail, ← List.append_assoc]
      rfl
  | cons c head ih =>
    by_cases hend : end' <+: c :: head
    · obtain ⟨left, hleft⟩ := hend
      refine .before end' left hleft.symm fun w _ ↦ ?_
      rw [← hleft, List.append_assoc, List.append_assoc, upTo_of_prefix, List.append_assoc]
      rfl
    -- the end is not here, so it is where it is without the first character
    have htext : ∀ w, Fills w → upTo end' (c :: head ++ w ++ tail) =
        (upTo end' (head ++ w ++ tail)).map fun taken ↦ (c :: taken.1, taken.2) := by
      intro w hw
      exact upTo_of_not_prefix fun h ↦
        hend (hhead _ (List.suffix_refl _) (List.cons_ne_nil _ _) w hw h)
    have hrest : ¬ end' <:+: head → ¬ end' <:+: c :: head :=
      fun hnone h ↦ (List.infix_cons_iff.mp h).elim hend hnone
    rcases ih (fun place hplace ↦ hhead place (hplace.trans (List.suffix_cons _ _)))
      fun hnone ↦ hfills (hrest hnone) with
      hnone | ⟨taken, left, rfl, hbody⟩ | ⟨taken, left, hsplit, hbody⟩
    · refine .passes fun w hw ↦ ?_
      rw [htext w hw, Option.map_eq_none_iff.mp (hnone w hw)]
      rfl
    · refine .before (c :: taken) left rfl fun w hw ↦ ?_
      obtain ⟨body, hbody', heq⟩ := Option.map_eq_some_iff.mp (hbody w hw)
      obtain ⟨rfl, hleft⟩ := Prod.mk.inj heq
      rw [htext w hw, hbody', ← hleft]
      rfl
    · refine .over taken left hsplit fun w hw ↦ ?_
      obtain ⟨body, hbody', heq⟩ := Option.map_eq_some_iff.mp (hbody w hw)
      obtain ⟨htaken, hleft⟩ := Prod.mk.inj heq
      rw [htext w hw, hbody', ← hleft]
      simp [htaken]

/-! ## A place with a secret -/

/-- **A pattern for a secret.** Its beginning ends in front of the hole, the secret itself may run
over it, and what follows the secret does not read the filling. -/
theorem treated_secretAt {pattern : Pattern Char} {before : Option Char} {mask : List Char}
    {prefix' secret suffix' : Piece}
    (hpattern : ∀ cs, pattern before cs = secretAt prefix' secret suffix' mask cs)
    (hsplits : Splits suffix') (hpre : Settled prefix' Fills head tail)
    (hsecret : ∀ left, left <:+ head → Framed secret Fills left tail)
    (hsuffix : ∀ left, left <:+ head → Settled suffix' Fills left tail) :
    Treated pattern Fills before head tail := by
  simp only [secretAt] at hpattern
  rcases hpre with hnone | ⟨taken, left, rfl, hpre⟩
  · refine .passes fun w hw ↦ ?_
    rw [hpattern, hnone w hw]
    rfl
  rcases hsecret left ⟨taken, rfl⟩ with hnone | ⟨value, left', rfl, hsecret⟩ |
    ⟨value, left', rfl, hsecret⟩
  · refine .passes fun w hw ↦ ?_
    rw [hpattern, hpre w hw, Option.bind_some, hnone w hw]
    rfl
  · rcases hsuffix left' ⟨taken ++ value, List.append_assoc _ _ _⟩ with
      hnone | ⟨closing, left'', rfl, hsuffix⟩
    · refine .passes fun w hw ↦ ?_
      rw [hpattern, hpre w hw, Option.bind_some, hsecret w hw, Option.bind_some, hnone w hw]
      rfl
    · refine .inside (taken ++ value ++ closing) (taken ++ mask ++ closing) left'' (by simp)
        fun w hw ↦ ?_
      rw [hpattern, hpre w hw, Option.bind_some, hsecret w hw, Option.bind_some, hsuffix w hw]
      rfl
  · rcases hclosing : suffix' left' with _ | ⟨closing, left''⟩
    · refine .passes fun w hw ↦ ?_
      rw [hpattern, hpre w hw, Option.bind_some, hsecret w hw, Option.bind_some, hclosing]
      rfl
    · obtain rfl := hsplits left' closing left'' hclosing
      refine .covers (taken ++ mask ++ closing) (value ++ closing) left'' (by simp) fun w hw ↦ ?_
      rw [hpattern, hpre w hw, Option.bind_some, hsecret w hw, Option.bind_some, hclosing]
      simp

end Values

end FuzzingCiCd.Executor.SecretRedactor
