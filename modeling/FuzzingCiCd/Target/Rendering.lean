import FuzzingCiCd.Foundation.Numerals
import FuzzingCiCd.Target.Program
import Mathlib.Tactic.FinCases

/-!
# Writing programs for the target

Every command has a line that means it, with its number in decimal. However the lines are spaced,
the target reads the commands that have been written (`commands_of_written`), so it does what they
do.
-/

namespace FuzzingCiCd.Target

open Tokens

/-! ## Numbers -/

def toByte (ch : Char) : UInt8 := UInt8.ofNat ch.toNat

/-- A number as text. -/
def decimal (n : ℤ) : Bytes := (JavaText.longText n).map toByte

theorem toNat_toByte {ch : Char} (h : ch.isDigit = true) :
    (toByte ch).toNat = ch.toNat ∧ 48 ≤ ch.toNat ∧ ch.toNat ≤ 57 := by
  rw [Char.isDigit, Bool.and_eq_true, decide_eq_true_iff, decide_eq_true_iff] at h
  have hlow : 48 ≤ ch.toNat := h.1
  have hhigh : ch.toNat ≤ 57 := h.2
  refine ⟨?_, hlow, hhigh⟩
  rw [toByte, UInt8.toNat_ofNat', Nat.mod_eq_of_lt (by omega)]

theorem isdigit_toByte {ch : Char} (h : ch.isDigit = true) : isdigit (toByte ch) = true := by
  obtain ⟨hbyte, hlow, hhigh⟩ := toNat_toByte h
  rw [isdigit, decide_eq_true_iff, UInt8.le_iff_toNat_le, UInt8.le_iff_toNat_le, hbyte]
  exact ⟨hlow, hhigh⟩

theorem foldl_digits (digits : List Char) (h : ∀ ch ∈ digits, ch.isDigit = true) (n : ℕ) :
    (digits.map toByte).foldl (fun n c ↦ 10 * n + (c.toNat - 48)) n =
      Nat.ofDigitChars 10 digits n := by
  induction digits generalizing n with
  | nil => rfl
  | cons ch digits ih =>
    rw [List.map_cons, List.foldl_cons, Nat.ofDigitChars_cons,
      (toNat_toByte (h ch List.mem_cons_self)).1]
    exact ih (fun d hd ↦ h d (List.mem_cons_of_mem _ hd)) _

theorem takeWhile_isdigit (n : ℕ) :
    ((Nat.toDigits 10 n).map toByte).takeWhile isdigit = (Nat.toDigits 10 n).map toByte := by
  rw [List.takeWhile_eq_self_iff]
  intro c hc
  obtain ⟨ch, hch, rfl⟩ := List.mem_map.mp hc
  exact isdigit_toByte (JavaText.isDigit_of_mem hch)

theorem digitsValue_toDigits (n : ℕ) :
    digitsValue (((Nat.toDigits 10 n).map toByte).takeWhile isdigit) = n := by
  rw [takeWhile_isdigit, digitsValue, foldl_digits _ fun ch hch ↦ JavaText.isDigit_of_mem hch,
    Nat.ofDigitChars_ten_toDigits]

theorem strtol_minus (digits : Bytes) : strtol (45 :: digits) =
    max (-(digitsValue (digits.takeWhile isdigit) : ℤ)) (-9223372036854775808) := by
  rw [strtol, List.dropWhile_cons_of_neg (by decide)]
  exact if_pos rfl

theorem strtol_digit {c : UInt8} (h : isdigit c = true) (rest : Bytes) : strtol (c :: rest) =
    min (digitsValue ((c :: rest).takeWhile isdigit) : ℤ) 9223372036854775807 := by
  rw [isdigit, decide_eq_true_iff, UInt8.le_iff_toNat_le, UInt8.le_iff_toNat_le] at h
  have hlow : 48 ≤ c.toNat := h.1
  have hspace : ¬isspace c = true := by
    rw [isspace, decide_eq_true_iff, UInt8.le_iff_toNat_le, UInt8.le_iff_toNat_le]
    rintro (rfl | ⟨-, hhigh⟩)
    · exact absurd hlow (by decide)
    · exact absurd (hlow.trans hhigh) (by decide)
  have hsign : ∀ sign : UInt8, sign.toNat < 48 → c ≠ sign := by
    rintro sign hlt rfl
    omega
  rw [strtol, List.dropWhile_cons_of_neg hspace]
  change (if c = 45 then _ else _) = _
  rw [if_neg (hsign 45 (by decide)), if_neg (hsign 43 (by decide))]

/-- **A number is read back**, if it has the size of a `long`. -/
theorem strtol_decimal {n : ℤ} (h : JavaText.IsLong n) : strtol (decimal n) = n := by
  obtain ⟨hlow, hhigh⟩ := h
  have hvalue := digitsValue_toDigits n.natAbs
  rw [decimal, JavaText.longText]
  split
  · rename_i hneg
    rw [List.map_cons, show toByte '-' = 45 from rfl, strtol_minus, hvalue]
    omega
  · rename_i hpos
    obtain ⟨ch, digits, hdigits⟩ := List.exists_cons_of_ne_nil
      (Nat.toDigits_ne_nil (b := 10) (n := n.natAbs))
    have hdigit := isdigit_toByte (JavaText.isDigit_of_mem (hdigits ▸ List.mem_cons_self))
    rw [hdigits, List.map_cons] at hvalue ⊢
    rw [strtol_digit hdigit, hvalue]
    omega

theorem atoi_decimal (value : BitVec 32) : atoi (decimal value.toInt) = value := by
  have hlow := BitVec.le_toInt value
  have hhigh := BitVec.toInt_lt (x := value)
  have hlong : JavaText.IsLong value.toInt := ⟨by omega, by omega⟩
  rw [atoi, strtol_decimal hlong, BitVec.ofInt_toInt]

/-! ## Lines -/

def VmMode.name : VmMode → Bytes
  | .fast => ascii "FAST"
  | .slow => ascii "SLOW"
  | .debug => ascii "DEBUG"

def regName : Fin 3 → Bytes
  | 0 => ascii "A"
  | 1 => ascii "B"
  | 2 => ascii "C"

def Check.name : Check → Bytes
  | .hello => ascii "HELLO"
  | .magic => ascii "MAGIC"
  | .please => ascii "PLEASE"
  | .fizz => ascii "FIZZ"
  | .opened => ascii "OPEN"
  | .world => ascii "WORLD"

/-- The words of a line. -/
def Command.words : Command → List Bytes
  | .mode m => [ascii "MODE", m.name]
  | .set reg value => [ascii "SET", regName reg, decimal value.toInt]
  | .copy dst src => [ascii "COPY", regName dst, regName src]
  | .xor reg value => [ascii "XOR", regName reg, decimal value.toInt]
  | .append word => [ascii "APPEND", word]
  | .check token => [ascii "CHECK", token.name]
  | .loop value => [ascii "LOOP", decimal value.toInt]
  | .crash => [ascii "CRASH", ascii "NOW"]
  | .skip => [ascii "CRASH", ascii "NO"]

theorem regIndex_regName (reg : Fin 3) : regIndex (regName reg) = some reg := by
  fin_cases reg <;> rfl

theorem parse_words (c : Command) : Command.parse c.words = c := by
  rcases c with m | ⟨reg, value⟩ | ⟨dst, src⟩ | ⟨reg, value⟩ | word | token | value | _ | _
  case mode => cases m <;> rfl
  case set =>
    change ((regIndex (regName reg)).bind fun reg ↦
      some (Command.set reg (atoi (decimal value.toInt)))).getD .skip = _
    rw [regIndex_regName, atoi_decimal]
    rfl
  case copy =>
    change ((regIndex (regName dst)).bind fun dst ↦ (regIndex (regName src)).bind fun src ↦
      some (Command.copy dst src)).getD .skip = _
    rw [regIndex_regName, regIndex_regName]
    rfl
  case xor =>
    change ((regIndex (regName reg)).bind fun reg ↦
      some (Command.xor reg (atoi (decimal value.toInt)))).getD .skip = _
    rw [regIndex_regName, atoi_decimal]
    rfl
  case check => cases token <;> rfl
  case loop =>
    change Command.loop (atoi (decimal value.toInt)) = _
    rw [atoi_decimal]
  all_goals rfl

/-- The text consists of the lines of the commands, each on a line of its own, and is no longer than
the buffer. -/
structure Renders (p : List Command) (data : Bytes) : Prop where
  lines : ∃ ls, Written (· = 10) ls data ∧
    List.Forall₂ (fun c line ↦ Written isBlank c.words line) p ls
  zero_notMem : 0 ∉ data
  length_le : data.length ≤ 4095

theorem programText_of_renders {p : List Command} {data : Bytes} (h : Renders p data) :
    programText data = data := by
  rw [programText, List.take_of_length_le h.length_le, List.takeWhile_eq_self_iff]
  intro c hc
  rw [decide_eq_true_iff]
  rintro rfl
  exact h.zero_notMem hc

/-- **Programs are read back**, however they are spaced. -/
theorem commands_of_renders {p : List Command} {data : Bytes} (h : Renders p data) :
    commands data = p := by
  obtain ⟨ls, hwritten, hlines⟩ := h.lines
  rw [commands, lines, programText_of_renders h, hwritten.tokens_eq]
  clear hwritten h
  induction hlines with
  | nil => rfl
  | cons hline _ ih => rw [List.map_cons, hline.tokens_eq, parse_words, ih]

/-- A program does what has been written. -/
theorem runProgram_of_renders {p : List Command} {data : Bytes} (h : Renders p data) :
    runProgram data = run p .initial := by
  rw [runProgram_eq, commands_of_renders h]

/-- A tab, a carriage return and an empty line do no harm. -/
theorem runProgram_spaced : runProgram (ascii " SET\tA -5\r\n\nCRASH  NO\n") =
    run [.set 0 (-5), .skip] .initial := by
  refine runProgram_of_renders
    ⟨⟨[ascii " SET\tA -5\r", ascii "CRASH  NO"], written_iff.mpr (by decide), ?_⟩, by decide,
      by decide⟩
  exact .cons (written_iff.mpr (by decide)) (.cons (written_iff.mpr (by decide)) .nil)

end FuzzingCiCd.Target
