import Mathlib.Data.Int.Order.Basic
import Mathlib.Data.List.DropRight

/-!
# Numbers and separators in texts

The texts of `long` numbers as `Long.toString` and `Long.parseLong` have them, with ASCII digits
only, and `String.split` at a character. What is written is read back: `parseLong_longText` and
`split_pair`.
-/

namespace JavaText

/-! ## Numbers -/

/-- A nonempty text of digits. -/
def parseDigits (digits : List Char) : Option ℕ :=
  if digits ≠ [] ∧ digits.all Char.isDigit = true then some (Nat.ofDigitChars 10 digits 0) else none

/-- The range of `long`. -/
def IsLong (n : ℤ) : Prop := -9223372036854775808 ≤ n ∧ n ≤ 9223372036854775807

instance (n : ℤ) : Decidable (IsLong n) := inferInstanceAs (Decidable (_ ∧ _))

/-- The number that the text shows, whatever its size. -/
def parseSigned (text : List Char) : Option ℤ :=
  match text with
  | '-' :: digits => (parseDigits digits).map fun n : ℕ ↦ -(n : ℤ)
  | '+' :: digits => (parseDigits digits).map fun n : ℕ ↦ (n : ℤ)
  | digits => (parseDigits digits).map fun n : ℕ ↦ (n : ℤ)

/-- `Long.parseLong`. -/
def parseLong (text : List Char) : Option ℤ := (parseSigned text).filter fun n ↦ IsLong n

/-- `Long.toString`. -/
def longText (n : ℤ) : List Char :=
  if n < 0 then '-' :: Nat.toDigits 10 n.natAbs else Nat.toDigits 10 n.natAbs

theorem isDigit_of_mem {n : ℕ} {c : Char} (h : c ∈ Nat.toDigits 10 n) : c.isDigit = true :=
  Nat.isDigit_of_mem_toDigits (by decide) (by decide) h

theorem parseDigits_toDigits (n : ℕ) : parseDigits (Nat.toDigits 10 n) = some n := by
  rw [parseDigits, if_pos, Nat.ofDigitChars_ten_toDigits]
  exact ⟨Nat.toDigits_ne_nil, List.all_eq_true.mpr fun c hc ↦ isDigit_of_mem hc⟩

theorem parseSigned_toDigits (n : ℕ) : parseSigned (Nat.toDigits 10 n) = some (n : ℤ) := by
  have hsign : ∀ c digits, Nat.toDigits 10 n = c :: digits → c.isDigit = true :=
    fun c digits h ↦ isDigit_of_mem (h ▸ List.mem_cons_self)
  rw [parseSigned]
  · rw [parseDigits_toDigits, Option.map_some]
  · intro digits hdigits
    cases hsign _ digits hdigits
  · intro digits hdigits
    cases hsign _ digits hdigits

theorem parseSigned_longText (n : ℤ) : parseSigned (longText n) = some n := by
  rw [longText]
  split
  · rename_i hneg
    rw [parseSigned, parseDigits_toDigits, Option.map_some]
    congr 1
    omega
  · rename_i hpos
    rw [parseSigned_toDigits]
    congr 1
    omega

/-- **A number is read back** if it has the size of a `long`. -/
theorem parseLong_longText (n : ℤ) :
    parseLong (longText n) = if IsLong n then some n else none := by
  rw [parseLong, parseSigned_longText, Option.filter_some]
  simp

theorem not_mem_longText {c : Char} (hminus : c ≠ '-') (hdigit : c.isDigit = false) (n : ℤ) :
    c ∉ longText n := by
  have hdigits : c ∉ Nat.toDigits 10 n.natAbs := by
    intro hc
    rw [isDigit_of_mem hc] at hdigit
    cases hdigit
  rw [longText]
  split
  · rw [List.mem_cons, not_or]
    exact ⟨hminus, hdigits⟩
  · exact hdigits

/-! ## Separators -/

/-- `String.split` at a character: trailing empty parts are left out. -/
def split (separator : Char) (text : List Char) : List (List Char) :=
  (text.splitOn separator).rdropWhile List.isEmpty

theorem split_pair {separator : Char} {first second : List Char} (hfirst : separator ∉ first)
    (hsecond : separator ∉ second) (hne : second ≠ []) :
    split separator (first ++ separator :: second) = [first, second] := by
  rw [split, List.splitOn_append_cons_self_of_not_mem hfirst, List.splitOn_eq_singleton hsecond,
    List.rdropWhile_eq_self_iff]
  intro _
  rw [List.getLast_cons (List.cons_ne_nil _ _), List.getLast_singleton, List.isEmpty_iff]
  exact hne

end JavaText
