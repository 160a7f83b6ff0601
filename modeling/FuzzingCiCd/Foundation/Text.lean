import Mathlib.Data.List.Infix
import Mathlib.Data.List.TakeWhile

/-!
# Java string operations

The `java.lang.String` operations that the modelled services apply to texts they receive, over
`List Char`. Everything is structural recursion on the characters, so that a test on a literal
still reduces.

## Case mapping

`toUpperCase` and `toLowerCase` follow the full Unicode mapping for exactly those characters whose
image meets the ASCII letters: the ASCII letters themselves, the dotless `ı`, the long `ſ`, the
sharp `ß`, the Latin ligatures, the Kelvin sign and the dotted `İ`. Every other character is left
alone. The images that matter are compared with ASCII literals only, and no character outside this
list can produce or destroy an ASCII letter. The locale is the root locale.
-/

namespace JavaText

/-- A test of every character of a text, read as a statement about them. -/
theorem forall_mem_of_all {p : Char → Prop} [DecidablePred p] {cs : List Char}
    (h : (cs.all fun c ↦ p c) = true) : ∀ c ∈ cs, p c := fun c hc ↦
  of_decide_eq_true (List.all_eq_true.mp h c hc)

/-- `Character.isWhitespace`. -/
def isWhitespace (ch : Char) : Bool :=
  let n := ch.toNat
  (9 ≤ n && n ≤ 13) || (28 ≤ n && n ≤ 32) || n = 0x1680 || (0x2000 ≤ n && n ≤ 0x2006) ||
    (0x2008 ≤ n && n ≤ 0x200A) || n = 0x2028 || n = 0x2029 || n = 0x205F || n = 0x3000

/-- `String.isBlank`. -/
def isBlank (s : String) : Bool := s.toList.all isWhitespace

/-- `String.trim` strips control characters and spaces, that is everything up to `U+0020`. -/
def trim (cs : List Char) : List Char :=
  let strip (l : List Char) : List Char := l.dropWhile fun ch ↦ ch.toNat ≤ 32
  (strip (strip cs).reverse).reverse

private def isAsciiLower (ch : Char) : Bool := 97 ≤ ch.toNat && ch.toNat ≤ 122

private def isAsciiUpper (ch : Char) : Bool := 65 ≤ ch.toNat && ch.toNat ≤ 90

/-- The full upper-case image of one character. -/
def upperChar (ch : Char) : List Char :=
  if isAsciiLower ch then [Char.ofNat (ch.toNat - 32)] else
  match ch.toNat with
  | 0x131 => ['I']
  | 0x17F => ['S']
  | 0xDF => ['S', 'S']
  | 0xFB00 => ['F', 'F']
  | 0xFB01 => ['F', 'I']
  | 0xFB02 => ['F', 'L']
  | 0xFB03 => ['F', 'F', 'I']
  | 0xFB04 => ['F', 'F', 'L']
  | 0xFB05 => ['S', 'T']
  | 0xFB06 => ['S', 'T']
  | _ => [ch]

/-- The full lower-case image of one character. -/
def lowerChar (ch : Char) : List Char :=
  if isAsciiUpper ch then [Char.ofNat (ch.toNat + 32)] else
  match ch.toNat with
  | 0x130 => ['i', Char.ofNat 0x307]
  | 0x212A => ['k']
  | _ => [ch]

def toUpperCase (cs : List Char) : List Char := cs.flatMap upperChar

def toLowerCase (cs : List Char) : List Char := cs.flatMap lowerChar

/-- The key by which `String.equalsIgnoreCase` compares two characters: both are mapped to upper
case and the results to lower case, character by character and without expansion. -/
def foldChar (ch : Char) : Char :=
  if isAsciiUpper ch then Char.ofNat (ch.toNat + 32) else
  match ch.toNat with
  | 0x130 => 'i'
  | 0x131 => 'i'
  | 0x17F => 's'
  | 0x212A => 'k'
  | _ => ch

/-- `String.equalsIgnoreCase`. -/
def equalsIgnoreCase (a b : String) : Bool :=
  a.toList.map foldChar = b.toList.map foldChar

/-- Whether `needle` occurs in `cs` as a contiguous part (`String.contains`). -/
def contains (cs needle : List Char) : Bool :=
  cs.tails.any fun suffix ↦ needle.isPrefixOf suffix

theorem contains_iff (cs needle : List Char) : contains cs needle = true ↔ needle <:+: cs := by
  rw [contains, List.any_eq_true, List.infix_iff_prefix_suffix]
  refine exists_congr fun suffix ↦ ?_
  rw [List.mem_tails, List.isPrefixOf_iff_prefix, and_comm]

/-- The line breaks that the regular expression `\R` finds, from left to right; a carriage return
followed by a line feed is one break. -/
def lineBreaks : List Char → ℕ
  | [] => 0
  | '\r' :: '\n' :: cs => lineBreaks cs + 1
  | ch :: cs =>
    if (10 ≤ ch.toNat && ch.toNat ≤ 13) || ch.toNat = 0x85 || ch.toNat = 0x2028 ||
        ch.toNat = 0x2029 then lineBreaks cs + 1
    else lineBreaks cs

/-- The lines of a text after the line that has been begun. -/
def linesFrom (line : List Char) : List Char → List (List Char)
  | [] => if line = [] then [] else [line]
  | '\r' :: '\n' :: cs => line :: linesFrom [] cs
  | ch :: cs =>
    if ch = '\n' ∨ ch = '\r' then line :: linesFrom [] cs else linesFrom (line ++ [ch]) cs

/-- `String.lines`. -/
def lines (cs : List Char) : List (List Char) := linesFrom [] cs

section Trim

variable {ch : Char} {cs : List Char}

/-- A text is what is left of it by `trim` between two texts of control characters and spaces. -/
theorem trim_spec (cs : List Char) :
    ∃ lead trail, cs = lead ++ (trim cs ++ trail) ∧ (∀ ch ∈ lead, ch.toNat ≤ 32) ∧
      ∀ ch ∈ trail, ch.toNat ≤ 32 := by
  let blank : Char → Bool := fun ch ↦ ch.toNat ≤ 32
  let rest := (cs.dropWhile blank).reverse
  refine ⟨cs.takeWhile blank, (rest.takeWhile blank).reverse, ?_, fun ch hch ↦ ?_, fun ch hch ↦ ?_⟩
  · have hrest : trim cs ++ (rest.takeWhile blank).reverse = cs.dropWhile blank := by
      rw [trim, ← List.reverse_append]
      exact (congrArg List.reverse List.takeWhile_append_dropWhile).trans (List.reverse_reverse _)
    rw [hrest, List.takeWhile_append_dropWhile]
  · have hblank : blank ch = true := List.mem_takeWhile_imp hch
    exact of_decide_eq_true hblank
  · have hblank : blank ch = true := List.mem_takeWhile_imp (List.mem_reverse.mp hch)
    exact of_decide_eq_true hblank

/-- A text without control characters and spaces is left as it is. -/
theorem trim_eq_self (h : ∀ ch ∈ cs, 32 < ch.toNat) : trim cs = cs := by
  obtain ⟨lead, trail, hsplit, hlead, htrail⟩ := trim_spec cs
  have hnil : ∀ part : List Char, (∀ ch ∈ part, ch.toNat ≤ 32) → part ⊆ cs → part = [] :=
    fun part hpart hsub ↦ List.eq_nil_iff_forall_not_mem.mpr fun ch hch ↦
      absurd (hpart ch hch) (Nat.not_le.mpr (h ch (hsub hch)))
  have hleadNil : lead = [] := hnil lead hlead fun ch hch ↦
    hsplit ▸ List.mem_append_left _ hch
  have htrailNil : trail = [] := hnil trail htrail fun ch hch ↦
    hsplit ▸ List.mem_append_right _ (List.mem_append_right _ hch)
  rw [hleadNil, htrailNil, List.nil_append, List.append_nil] at hsplit
  exact hsplit.symm

theorem head?_trim_cons (h : 32 < ch.toNat) : (trim (ch :: cs)).head? = some ch := by
  obtain ⟨lead, trail, hsplit, hlead, htrail⟩ := trim_spec (ch :: cs)
  rcases lead with _ | ⟨first, lead⟩
  · rcases htrim : trim (ch :: cs) with _ | ⟨first, rest⟩
    · rw [htrim, List.nil_append, List.nil_append] at hsplit
      exact absurd (htrail ch (hsplit ▸ List.mem_cons_self)) (by omega)
    · rw [htrim, List.nil_append, List.cons_append] at hsplit
      rw [(List.cons.inj hsplit).1]
      rfl
  · rw [List.cons_append] at hsplit
    exact absurd (hlead ch ((List.cons.inj hsplit).1 ▸ List.mem_cons_self)) (by omega)

end Trim

section Lines

variable {line cs : List Char}

theorem linesFrom_cons {ch : Char} (hfeed : ch ≠ '\n') (hreturn : ch ≠ '\r') (line cs : List Char) :
    linesFrom line (ch :: cs) = linesFrom (line ++ [ch]) cs := by
  rw [linesFrom.eq_3 line ch cs fun rest h _ ↦ hreturn h]
  exact if_neg fun h ↦ h.elim hfeed hreturn

theorem linesFrom_break (h : ∀ ch ∈ cs, ch ≠ '\n' ∧ ch ≠ '\r') (line rest : List Char) :
    linesFrom line (cs ++ '\n' :: rest) = (line ++ cs) :: linesFrom [] rest := by
  induction cs generalizing line with
  | nil =>
    rw [List.nil_append, List.append_nil, linesFrom.eq_3 line '\n' rest fun _ h ↦ by cases h]
    exact if_pos (Or.inl rfl)
  | cons ch cs ih =>
    obtain ⟨hfeed, hreturn⟩ := h ch List.mem_cons_self
    rw [List.cons_append, linesFrom_cons hfeed hreturn,
      ih fun other hother ↦ h other (List.mem_cons_of_mem _ hother), List.append_assoc]
    rfl

/-- A text without line breaks is one line, if there is anything in it. -/
theorem linesFrom_of_no_break (h : ∀ ch ∈ cs, ch ≠ '\n' ∧ ch ≠ '\r') (hsome : line ++ cs ≠ []) :
    linesFrom line cs = [line ++ cs] := by
  induction cs generalizing line with
  | nil =>
    rw [List.append_nil] at hsome ⊢
    rw [linesFrom, if_neg hsome]
  | cons ch cs ih =>
    obtain ⟨hfeed, hreturn⟩ := h ch List.mem_cons_self
    rw [linesFrom_cons hfeed hreturn,
      ih (fun other hother ↦ h other (List.mem_cons_of_mem _ hother)) (by simp),
      List.append_assoc]
    rfl

theorem exists_mem_linesFrom (hsome : line ≠ []) (cs : List Char) :
    ∃ rest, line ++ rest ∈ linesFrom line cs := by
  have hbreak : ∀ (first : List Char) rest, first ++ [] ∈ first :: rest := fun first rest ↦ by
    rw [List.append_nil]
    exact List.mem_cons_self
  induction cs generalizing line with
  | nil => exact ⟨[], by rw [linesFrom, if_neg hsome]; exact hbreak line []⟩
  | cons ch cs ih =>
    by_cases hend : ch = '\n' ∨ ch = '\r'
    · by_cases hpair : ch = '\r' ∧ cs.head? = some '\n'
      · obtain ⟨rfl, hnext⟩ := hpair
        obtain ⟨cs', rfl⟩ := List.head?_eq_some_iff.mp hnext
        exact ⟨[], hbreak line _⟩
      · rw [linesFrom.eq_3 line ch cs fun rest h h' ↦ hpair ⟨h, by rw [h']; rfl⟩, if_pos hend]
        exact ⟨[], hbreak line _⟩
    · rw [not_or] at hend
      rw [linesFrom_cons hend.1 hend.2]
      obtain ⟨rest, hrest⟩ := @ih (line ++ [ch]) (by simp)
      exact ⟨ch :: rest, by rwa [← List.append_cons] at hrest⟩

end Lines

end JavaText
