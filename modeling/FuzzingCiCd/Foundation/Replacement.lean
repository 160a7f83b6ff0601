import Mathlib.Data.List.Basic

/-!
# Replacing what a pattern finds

A pattern is asked at a place of a text, which it sees as the character before and the characters
after, and answers with what it matches there and what is to stand for it. `replaceAll` goes through
a text from left to right, replaces each match and goes on behind it, as the usual
find-and-append loop over a regular expression does.

The search is driven by a bound on its steps. For a pattern that matches no empty text the length of
the text is enough: `replaceAll_of_le`.

## Main results

* `replaceAll_of_le`: more steps than there are characters change nothing.
* `all_replaceAll`: replacement with visible texts does not make a text blank.
-/

namespace Replacement

variable {α : Type*}

/-- What a pattern finds at a place. -/
structure Match (α : Type*) where
  matched : List α
  replacement : List α
  rest : List α

/-- The answer of a pattern, given the character before and the characters after a place. -/
abbrev Pattern (α : Type*) := Option α → List α → Option (Match α)

/-- Every match is a part of the text that is not empty. -/
def Proper (pattern : Pattern α) : Prop :=
  ∀ before cs m, pattern before cs = some m → cs = m.matched ++ m.rest ∧ m.matched ≠ []

def replaceAll (pattern : Pattern α) : ℕ → Option α → List α → List α
  | 0, _, cs => cs
  | _ + 1, _, [] => []
  | n + 1, before, c :: cs =>
    match pattern before (c :: cs) with
    | none => c :: replaceAll pattern n (some c) cs
    | some m => m.replacement ++ replaceAll pattern n m.matched.getLast? m.rest

theorem replaceAll_nil (pattern : Pattern α) (n : ℕ) (before : Option α) :
    replaceAll pattern n before [] = [] := by
  cases n with
  | zero => rfl
  | succ n => rfl

/-- **The bound.** More steps than characters change nothing. -/
theorem replaceAll_of_le {pattern : Pattern α} (h : Proper pattern) {m n : ℕ} {before : Option α}
    {cs : List α} (hm : cs.length ≤ m) (hn : cs.length ≤ n) :
    replaceAll pattern m before cs = replaceAll pattern n before cs := by
  induction m generalizing n before cs with
  | zero =>
    obtain rfl := List.length_eq_zero_iff.mp (Nat.le_zero.mp hm)
    rw [replaceAll_nil, replaceAll_nil]
  | succ m ih =>
    rcases cs with _ | ⟨c, cs⟩
    · rw [replaceAll_nil, replaceAll_nil]
    rcases n with _ | n
    · cases hn
    rw [List.length_cons] at hm hn
    rw [replaceAll, replaceAll]
    rcases hfound : pattern before (c :: cs) with _ | found
    · dsimp only
      rw [ih (by omega) (by omega : cs.length ≤ n)]
    · obtain ⟨htext, hne⟩ := h before _ found hfound
      have hlength := congrArg List.length htext
      rw [List.length_cons, List.length_append] at hlength
      have hpos : 0 < found.matched.length := List.length_pos_iff.mpr hne
      dsimp only
      rw [ih (by omega) (by omega : found.rest.length ≤ n)]

/-- **Blank texts.** When matches begin with a visible character and are replaced by texts with a
visible character, the whole text is blank before if and only if it is blank after. -/
theorem all_replaceAll {pattern : Pattern α} {blank : α → Bool}
    (hmatch : ∀ before c cs m, pattern before (c :: cs) = some m →
      blank c = false ∧ m.replacement.all blank = false) (n : ℕ) (before : Option α) (cs : List α) :
    (replaceAll pattern n before cs).all blank = cs.all blank := by
  induction n generalizing before cs with
  | zero => rfl
  | succ n ih =>
    rcases cs with _ | ⟨c, cs⟩
    · rfl
    rw [replaceAll]
    rcases hfound : pattern before (c :: cs) with _ | found
    · dsimp only
      rw [List.all_cons, List.all_cons, ih]
    · obtain ⟨hvisible, hreplaced⟩ := hmatch before c cs found hfound
      dsimp only
      rw [List.all_append, hreplaced, Bool.false_and, List.all_cons, hvisible, Bool.false_and]

end Replacement
