import FuzzingCiCd.Mutator.Frames
import FuzzingCiCd.Target.Crash
import FuzzingCiCd.Target.Rendering

/-!
# Candidates without a model

`fake_generator` of `llm_mutator_server.py`, which makes the candidates when no language model is
configured. What `random` draws is its input, so every statement here is about every candidate that
it can make.

A candidate is a program for the target with at most ten lines, in which every line is a command of
the target (`commands_fakeGenerator`). It therefore never makes the target abort, also when it has
been cut to the size of a sample (`fakeGenerator_never_aborts`): the crash path has to be found by
the fuzzer.
-/

namespace FuzzingCiCd.Mutator

open Target Tokens

/-! ## The generator -/

def regs : Vector String 3 := #v["A", "B", "C"]

def modes : Vector String 3 := #v["FAST", "SLOW", "DEBUG"]

def checks : Vector String 6 := #v["HELLO", "MAGIC", "PLEASE", "FIZZ", "OPEN", "WORLD"]

def appendValues : Vector String 6 := #v["open", "world", "alpha", "beta", "trace", "seed"]

def crashFlags : Vector String 3 := #v["NO", "MAYBE", "NOW"]

/-- The draws for one line: the kind of the line and what stands in it. -/
inductive Choice
  | set (reg : Fin 3) (n : Fin 20001)
  | copy (dst src : Fin 3)
  | xor (reg : Fin 3) (n : Fin 20001)
  | append (value : Fin 6)
  | check (token : Fin 6)
  /-- `random.randint(1, 12)` is one more than `n`. -/
  | loop (n : Fin 12)

/-- The draws for a candidate. -/
structure Draws where
  mode : Fin 3
  choices : List Choice
  /-- `random.randint(2, 8)` -/
  two_le : 2 ≤ choices.length
  le_eight : choices.length ≤ 8
  /-- The flag, if `random.random() < 0.35`. -/
  crash : Option (Fin 3)

/-- The text of one line. -/
def Choice.line : Choice → Bytes
  | .set reg n => ascii "SET " ++ ascii regs[reg] ++ ascii " " ++ decimal n
  | .copy dst src => ascii "COPY " ++ ascii regs[dst] ++ ascii " " ++ ascii regs[src]
  | .xor reg n => ascii "XOR " ++ ascii regs[reg] ++ ascii " " ++ decimal n
  | .append value => ascii "APPEND " ++ ascii appendValues[value]
  | .check token => ascii "CHECK " ++ ascii checks[token]
  | .loop n => ascii "LOOP " ++ decimal (n + 1 : ℕ)

def Draws.lines (draws : Draws) : List Bytes :=
  (ascii "MODE " ++ ascii modes[draws.mode]) :: draws.choices.map Choice.line ++
    (draws.crash.map fun flag ↦ ascii "CRASH " ++ ascii crashFlags[flag]).toList

/-- `data[:MAX_SAMPLE_SIZE]` -/
def clampSample (maxSampleSize : ℕ) (data : Bytes) : Bytes := data.take maxSampleSize

def fakeGenerator (maxSampleSize : ℕ) (draws : Draws) : Bytes :=
  clampSample maxSampleSize ([10].intercalate draws.lines ++ [10])

/-! ## The program that is meant -/

def modeOf : Fin 3 → VmMode
  | 0 => .fast
  | 1 => .slow
  | 2 => .debug

def checkOf : Fin 6 → Check
  | 0 => .hello
  | 1 => .magic
  | 2 => .please
  | 3 => .fizz
  | 4 => .opened
  | 5 => .world

def Choice.command : Choice → Command
  | .set reg n => .set reg (BitVec.ofNat 32 n)
  | .copy dst src => .copy dst src
  | .xor reg n => .xor reg (BitVec.ofNat 32 n)
  | .append value => .append (ascii appendValues[value])
  | .check token => .check (checkOf token)
  | .loop n => .loop (BitVec.ofNat 32 (n + 1))

/-- Of the flags only `NOW` says anything to the target. -/
def crashCommand (flag : Fin 3) : Command := if flag = 2 then .crash else .skip

def Draws.commands (draws : Draws) : List Command :=
  .mode (modeOf draws.mode) :: draws.choices.map Choice.command ++
    (draws.crash.map crashCommand).toList

/-! ## The lines -/

/-- No control character, so neither the end of a line nor the end of a string. -/
def Plain (text : Bytes) : Prop := ∀ c ∈ text, 32 ≤ c.toNat

theorem plain_of_all {text : Bytes} (h : (text.all fun c ↦ 32 ≤ c.toNat) = true) : Plain text :=
  fun c hc ↦ of_decide_eq_true (List.all_eq_true.mp h c hc)

theorem Plain.append {front rest : Bytes} (hfront : Plain front) (hrest : Plain rest) :
    Plain (front ++ rest) := fun c hc ↦ (List.mem_append.mp hc).elim (hfront c) (hrest c)

/-- What may stand in a line as a word. -/
def Word (text : Bytes) : Prop := text ≠ [] ∧ ∀ c ∈ text, isBlank c = false

theorem word_of_all {text : Bytes} (h : (!text.isEmpty && text.all fun c ↦ !isBlank c) = true) :
    Word text := by
  rw [Bool.and_eq_true, List.all_eq_true] at h
  exact ⟨by simpa using h.1, fun c hc ↦ by simpa using h.2 c hc⟩

theorem digit_of_mem_decimal {n : ℕ} {c : UInt8} (h : c ∈ decimal n) :
    48 ≤ c.toNat ∧ c.toNat ≤ 57 := by
  rw [decimal, JavaText.longText, if_neg (by omega), Int.natAbs_natCast] at h
  obtain ⟨ch, hch, rfl⟩ := List.mem_map.mp h
  obtain ⟨hbyte, hlow, hhigh⟩ := toNat_toByte (JavaText.isDigit_of_mem hch)
  omega

theorem plain_decimal (n : ℕ) : Plain (decimal n) := by
  intro c hc
  have := digit_of_mem_decimal hc
  omega

theorem word_decimal (n : ℕ) : Word (decimal n) := by
  constructor
  · rw [decimal, JavaText.longText, if_neg (by omega), ne_eq, List.map_eq_nil_iff]
    exact Nat.toDigits_ne_nil
  · intro c hc
    have := digit_of_mem_decimal hc
    rw [isBlank, decide_eq_false_iff_not]
    rintro (rfl | rfl | rfl | rfl) <;> exact absurd this (by decide)

theorem length_decimal_le {n : ℕ} (h : n < 10 ^ 5) : (decimal n).length ≤ 5 := by
  rw [decimal, JavaText.longText, if_neg (by omega), Int.natAbs_natCast, List.length_map]
  exact (Nat.length_toDigits_le_iff (by decide) (by decide)).mpr h

theorem decimal_ofNat {n : ℕ} (h : n < 2 ^ 31) :
    decimal (BitVec.ofNat 32 n).toInt = decimal n := by
  rw [BitVec.toInt_ofNat', Int.bmod_eq_of_le (by omega) (by omega)]

/-- What is to be known of a line. -/
structure Good (line : Bytes) : Prop where
  ne_nil : line ≠ []
  plain : Plain line
  length_le : line.length ≤ 12

theorem good_number {front : Bytes} (n : ℕ) (hn : n < 10 ^ 5) (hne : front ≠ [])
    (hall : (front.all fun c ↦ 32 ≤ c.toNat) = true) (hlength : front.length ≤ 7) :
    Good (front ++ decimal n) where
  ne_nil := List.append_ne_nil_of_left_ne_nil hne _
  plain := (plain_of_all hall).append (plain_decimal n)
  length_le := by
    have := length_decimal_le hn
    rw [List.length_append]
    omega

theorem good_of_all {line : Bytes} (hne : line ≠ [])
    (hall : (line.all fun c ↦ 32 ≤ c.toNat) = true) (hlength : line.length ≤ 12) : Good line :=
  ⟨hne, plain_of_all hall, hlength⟩

theorem Choice.good_line (choice : Choice) : Good choice.line := by
  rcases choice with ⟨reg, n⟩ | ⟨dst, src⟩ | ⟨reg, n⟩ | value | token | n
  case set =>
    refine good_number n (by omega) ?_ ?_ ?_ <;> fin_cases reg <;> decide
  case copy =>
    refine good_of_all ?_ ?_ ?_ <;> fin_cases dst <;> fin_cases src <;> decide
  case xor =>
    refine good_number n (by omega) ?_ ?_ ?_ <;> fin_cases reg <;> decide
  case append =>
    refine good_of_all ?_ ?_ ?_ <;> fin_cases value <;> decide
  case check =>
    refine good_of_all ?_ ?_ ?_ <;> fin_cases token <;> decide
  case loop => exact good_number (n + 1) (by omega) (by decide) (by decide) (by decide)

theorem good_mode (mode : Fin 3) : Good (ascii "MODE " ++ ascii modes[mode]) := by
  refine good_of_all ?_ ?_ ?_ <;> fin_cases mode <;> decide

theorem good_lines (draws : Draws) : ∀ line ∈ draws.lines, Good line := by
  intro line hline
  rw [Draws.lines, List.mem_append, List.mem_cons] at hline
  rcases hline with (rfl | hline) | hline
  · exact good_mode draws.mode
  · obtain ⟨choice, -, rfl⟩ := List.mem_map.mp hline
    exact choice.good_line
  · obtain ⟨flag, -, rfl⟩ := Option.map_eq_some_iff.mp (Option.mem_toList.mp hline)
    refine good_of_all ?_ ?_ ?_ <;> fin_cases flag <;> decide

/-! ## What the lines say -/

theorem regs_eq (reg : Fin 3) : ascii regs[reg] = regName reg := by
  fin_cases reg <;> rfl

theorem intercalate_two (first second : Bytes) :
    [32].intercalate [first, second] = first ++ [32] ++ second := by
  rw [List.intercalate_cons_cons, List.intercalate_singleton]

theorem intercalate_three (first second third : Bytes) :
    [32].intercalate [first, second, third] = first ++ [32] ++ second ++ [32] ++ third := by
  rw [List.intercalate_cons_cons, intercalate_two]
  simp only [List.append_assoc]

theorem Choice.line_eq (choice : Choice) :
    choice.line = [32].intercalate choice.command.words := by
  rcases choice with ⟨reg, n⟩ | ⟨dst, src⟩ | ⟨reg, n⟩ | value | token | n
  case set =>
    rw [line, command, Command.words, decimal_ofNat (by omega), intercalate_three, regs_eq]
    rfl
  case copy =>
    rw [line, command, Command.words, intercalate_three, regs_eq, regs_eq]
    rfl
  case xor =>
    rw [line, command, Command.words, decimal_ofNat (by omega), intercalate_three, regs_eq]
    rfl
  case append =>
    rw [line, command, Command.words, intercalate_two]
    rfl
  case check => fin_cases token <;> decide
  case loop =>
    rw [line, command, Command.words, decimal_ofNat (by omega), intercalate_two]
    rfl

theorem word_regName (reg : Fin 3) : Word (regName reg) := by
  fin_cases reg <;> exact word_of_all (by decide)

theorem Choice.word_of_mem (choice : Choice) : ∀ word ∈ choice.command.words, Word word := by
  have hset : Word (ascii "SET") := word_of_all (by decide)
  have hcopy : Word (ascii "COPY") := word_of_all (by decide)
  have hxor : Word (ascii "XOR") := word_of_all (by decide)
  have happend : Word (ascii "APPEND") := word_of_all (by decide)
  have hcheck : Word (ascii "CHECK") := word_of_all (by decide)
  have hloop : Word (ascii "LOOP") := word_of_all (by decide)
  rcases choice with ⟨reg, n⟩ | ⟨dst, src⟩ | ⟨reg, n⟩ | value | token | n
  case set =>
    rw [command, Command.words, decimal_ofNat (by omega)]
    simp [hset, word_regName, word_decimal]
  case copy => simp [command, Command.words, hcopy, word_regName]
  case xor =>
    rw [command, Command.words, decimal_ofNat (by omega)]
    simp [hxor, word_regName, word_decimal]
  case append =>
    have hvalue : Word (ascii appendValues[value]) := by
      fin_cases value <;> exact word_of_all (by decide)
    simp only [command, Command.words, List.forall_mem_cons]
    exact ⟨happend, hvalue, List.forall_mem_nil _⟩
  case check =>
    have htoken : Word (checkOf token).name := by
      fin_cases token <;> exact word_of_all (by decide)
    simp [command, Command.words, hcheck, htoken]
  case loop =>
    rw [command, Command.words, decimal_ofNat (by omega)]
    exact List.forall_mem_cons.mpr ⟨hloop, List.forall_mem_singleton.mpr (word_decimal _)⟩

/-- The target reads the command that is meant. -/
theorem Choice.parse_line (choice : Choice) :
    Command.parse (tokens isBlank choice.line) = choice.command := by
  have hne : choice.command.words ≠ [] := by
    rcases choice with ⟨reg, n⟩ | ⟨dst, src⟩ | ⟨reg, n⟩ | value | token | n <;>
      exact List.cons_ne_nil _ _
  rw [choice.line_eq, (written_intercalate (by decide) hne choice.word_of_mem).tokens_eq,
    parse_words]

theorem parse_mode (mode : Fin 3) :
    Command.parse (tokens isBlank (ascii "MODE " ++ ascii modes[mode])) = .mode (modeOf mode) := by
  fin_cases mode <;> decide

theorem parse_crash (flag : Fin 3) :
    Command.parse (tokens isBlank (ascii "CRASH " ++ ascii crashFlags[flag])) =
      crashCommand flag := by
  fin_cases flag <;> decide

theorem map_parse_lines (draws : Draws) :
    draws.lines.map (fun line ↦ Command.parse (tokens isBlank line)) = draws.commands := by
  rw [Draws.lines, Draws.commands, List.map_append, List.map_cons, parse_mode, List.map_map]
  congr 2
  · exact List.map_congr_left fun choice _ ↦ choice.parse_line
  · rcases draws.crash with _ | flag
    · rfl
    · exact congrArg (fun c ↦ [c]) (parse_crash flag)

/-! ## The candidate -/

theorem length_lines_le (draws : Draws) : draws.lines.length ≤ 10 := by
  have hchoices := draws.le_eight
  rw [Draws.lines, List.length_append, List.length_cons, List.length_map]
  rcases draws.crash with _ | flag <;> simp <;> omega

/-- The candidate before it is cut. -/
def fullText (draws : Draws) : Bytes := [10].intercalate draws.lines ++ [10]

theorem tokens_fullText (draws : Draws) : tokens (· = 10) (fullText draws) = draws.lines := by
  rw [fullText, tokens_concat_delim (by decide)]
  refine (written_intercalate (by decide) (by simp [Draws.lines]) fun line hline ↦ ?_).tokens_eq
  refine ⟨(good_lines draws line hline).ne_nil, fun c hc ↦ ?_⟩
  have hplain := (good_lines draws line hline).plain c hc
  rw [decide_eq_false_iff_not]
  rintro rfl
  exact absurd hplain (by decide)

theorem join_eq {lines : List Bytes} (hne : lines ≠ []) :
    [10].intercalate lines ++ [10] = lines.flatMap fun line ↦ line ++ [10] := by
  induction lines with
  | nil => exact absurd rfl hne
  | cons line lines ih =>
    rcases lines with _ | ⟨other, lines⟩
    · rw [List.intercalate_singleton, List.flatMap_cons, List.flatMap_nil, List.append_nil]
    · rw [List.intercalate_cons_cons, List.flatMap_cons, ← ih (List.cons_ne_nil _ _),
        List.append_assoc]

theorem fullText_eq (draws : Draws) :
    fullText draws = draws.lines.flatMap fun line ↦ line ++ [10] := join_eq (by simp [Draws.lines])

theorem zero_notMem_fullText (draws : Draws) : 0 ∉ fullText draws := by
  rw [fullText_eq, List.mem_flatMap]
  rintro ⟨line, hline, hzero⟩
  rcases List.mem_append.mp hzero with hzero | hzero
  · exact absurd ((good_lines draws line hline).plain 0 hzero) (by decide)
  · exact absurd hzero (by decide)

theorem length_flatMap_le (lines : List Bytes) (h : ∀ line ∈ lines, Good line) :
    (lines.flatMap fun line ↦ line ++ [10]).length ≤ 13 * lines.length := by
  induction lines with
  | nil => exact Nat.le_refl _
  | cons line lines ih =>
    have hline := (h line List.mem_cons_self).length_le
    have hrest := ih fun other hother ↦ h other (List.mem_cons_of_mem _ hother)
    rw [List.flatMap_cons, List.length_append, List.length_append, List.length_singleton,
      List.length_cons]
    omega

theorem length_fullText_le (draws : Draws) : (fullText draws).length ≤ 130 := by
  have hlines := length_lines_le draws
  have hlength := length_flatMap_le draws.lines (good_lines draws)
  rw [fullText_eq]
  omega

/-- **Candidates are programs.** A candidate that is not cut says what is meant, line by line. -/
theorem commands_fakeGenerator {maxSampleSize : ℕ} (h : 130 ≤ maxSampleSize) (draws : Draws) :
    commands (fakeGenerator maxSampleSize draws) = draws.commands := by
  have hlength := length_fullText_le draws
  have hfull : fakeGenerator maxSampleSize draws = fullText draws :=
    List.take_of_length_le (hlength.trans h)
  have htext : programText (fullText draws) = fullText draws := by
    rw [programText, List.take_of_length_le (by omega), List.takeWhile_eq_self_iff]
    intro c hc
    rw [decide_eq_true_iff]
    rintro rfl
    exact zero_notMem_fullText draws hc
  rw [hfull, commands, lines, htext, tokens_fullText, map_parse_lines]

/-- A candidate with four lines. -/
theorem commands_fakeGenerator_four :
    commands (fakeGenerator 65535
      ⟨2, [.set 0 1337, .check 1], by decide, by decide, some 2⟩) =
      [.mode .debug, .set 0 1337, .check .magic, .crash] :=
  commands_fakeGenerator (by decide) _

/-- **Candidates are harmless.** No candidate makes the target abort. -/
theorem fakeGenerator_never_aborts (maxSampleSize : ℕ) (draws : Draws) :
    runProgram (fakeGenerator maxSampleSize draws) ≠ none := by
  intro habort
  have hlines := eleven_le_lines habort
  -- What the target reads is the beginning of the candidate, so it has no more lines.
  obtain ⟨rest, hrest⟩ : programText (fakeGenerator maxSampleSize draws) <+: fullText draws :=
    ((List.takeWhile_prefix _).trans (List.take_prefix _ _)).trans (List.take_prefix _ _)
  have hle : (tokens (· = 10) (programText (fakeGenerator maxSampleSize draws))).length ≤
      (tokens (· = 10) (programText (fakeGenerator maxSampleSize draws) ++ rest)).length :=
    length_tokens_le_append _ rest
  rw [hrest, tokens_fullText] at hle
  have := length_lines_le draws
  rw [lines] at hlines
  omega

end FuzzingCiCd.Mutator
