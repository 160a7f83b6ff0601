import FuzzingCiCd.Foundation.Commands
import FuzzingCiCd.Target.TargetDsl

/-!
# Programs of the target

What an input of the target means: a list of commands, one for every line that is not empty, each
with an effect on the machine. A line that says nothing to the target is a command without effect.

The interpreter works on bytes, with two pointers into its buffer. `runProgram_eq` is that all the
same it runs the commands of its input, on every input.
-/

namespace FuzzingCiCd.Target

open Tokens

/-- The checks, in the order of the branches of `run_check`. -/
inductive Check
  | hello | magic | please | fizz | opened | world
  deriving DecidableEq

inductive Command
  | mode (mode : VmMode)
  | set (reg : Fin 3) (value : BitVec 32)
  | copy (dst src : Fin 3)
  | xor (reg : Fin 3) (value : BitVec 32)
  | append (word : Bytes)
  | check (token : Check)
  | loop (value : BitVec 32)
  /-- `CRASH NOW` -/
  | crash
  | skip
  deriving DecidableEq

/-! ## What a line says -/

def VmMode.parse (value : Bytes) : Option VmMode :=
  if value = ascii "FAST" then some .fast
  else if value = ascii "SLOW" then some .slow
  else if value = ascii "DEBUG" then some .debug
  else none

def Check.parse (token : Bytes) : Option Check :=
  if token = ascii "HELLO" then some .hello
  else if token = ascii "MAGIC" then some .magic
  else if token = ascii "PLEASE" then some .please
  else if token = ascii "FIZZ" then some .fizz
  else if token = ascii "OPEN" then some .opened
  else if token = ascii "WORLD" then some .world
  else none

/-- The command of a line with these words, unless they make none. -/
def Command.parse? (cmd : Bytes) (args : List Bytes) : Option Command :=
  if cmd = ascii "MODE" then do return .mode (← VmMode.parse (← args[0]?))
  else if cmd = ascii "SET" then do return .set (← regIndex (← args[0]?)) (atoi (← args[1]?))
  else if cmd = ascii "COPY" then do
    return .copy (← regIndex (← args[0]?)) (← regIndex (← args[1]?))
  else if cmd = ascii "XOR" then do return .xor (← regIndex (← args[0]?)) (atoi (← args[1]?))
  else if cmd = ascii "APPEND" then do return .append (← args[0]?)
  else if cmd = ascii "CHECK" then do return .check (← Check.parse (← args[0]?))
  else if cmd = ascii "LOOP" then do return .loop (atoi (← args[0]?))
  else if cmd = ascii "CRASH" then do
    if (← args[0]?) = ascii "NOW" then return .crash else none
  else none

def Command.parse : List Bytes → Command
  | [] => .skip
  | cmd :: args => (Command.parse? cmd args).getD .skip

/-- The lines of an input. -/
def lines (data : Bytes) : List Bytes := tokens (· = 10) (programText data)

/-- The commands of an input. -/
def commands (data : Bytes) : List Command :=
  (lines data).map fun line ↦ Command.parse (tokens isBlank line)

/-! ## What a command does -/

def Check.bit : Check → BitVec 32
  | .hello => 0x01
  | .magic => 0x02
  | .please => 0x04
  | .fizz => 0x08
  | .opened => 0x10
  | .world => 0x20

/-- When a check succeeds. -/
def Check.Guard : Check → VmState → Prop
  | .hello, st => st.mode = .fast
  | .magic, st => st.mode = .debug ∧ st.regs 0 = 1337
  | .please, st => st.regs 1 = st.regs 0 ^^^ 1364
  | .fizz, st => st.Contains "open"
  | .opened, st => st.Contains "open"
  | .world, st => st.Contains "world"

instance (token : Check) (st : VmState) : Decidable (token.Guard st) :=
  match token with
  | .hello => inferInstanceAs (Decidable (st.mode = .fast))
  | .magic => inferInstanceAs (Decidable (st.mode = .debug ∧ st.regs 0 = 1337))
  | .please => inferInstanceAs (Decidable (st.regs 1 = st.regs 0 ^^^ 1364))
  | .fizz => inferInstanceAs (Decidable (st.Contains "open"))
  | .opened => inferInstanceAs (Decidable (st.Contains "open"))
  | .world => inferInstanceAs (Decidable (st.Contains "world"))

def Command.effect : Command → VmState → VmState
  | .mode m, st => { st with mode := m }
  | .set reg value, st => st.setReg reg value
  | .copy dst src, st => st.setReg dst (st.regs src)
  | .xor reg value, st => st.setReg reg (st.regs reg ^^^ value)
  | .append word, st => appendWord st word
  | .check token, st => if token.Guard st then { st with seen := st.seen ||| token.bit } else st
  | .loop value, st => { st with loopValue := value }
  | .crash, st => st
  | .skip, st => st

/-- The state in which `CRASH NOW` aborts. -/
structure Trap (st : VmState) : Prop where
  mode : st.mode = .debug
  loopValue : st.loopValue = 7
  regA : st.regs 0 = 1337
  regB : st.regs 1 = 1337 ^^^ 1364
  regC : st.regs 2 = 0x4141
  text : st.Contains "open"
  seen : st.seen &&& 0x1e = 0x1e

theorem trap_iff {st : VmState} : Trap st ↔ maybeCrash st (ascii "NOW") = true := by
  rw [maybeCrash, if_neg (by simp), decide_eq_true_iff]
  exact ⟨fun ⟨h₁, h₂, h₃, h₄, h₅, h₆, h₇⟩ ↦ ⟨h₁, h₂, h₃, h₄, h₅, h₆, h₇⟩,
    fun ⟨h₁, h₂, h₃, h₄, h₅, h₆, h₇⟩ ↦ ⟨h₁, h₂, h₃, h₄, h₅, h₆, h₇⟩⟩

instance (st : VmState) : Decidable (Trap st) := decidable_of_iff' _ trap_iff

/-- Does the program abort at the command? -/
def Command.aborts (c : Command) (st : VmState) : Bool := c = .crash ∧ Trap st

/-- What a program does. -/
def run : List Command → VmState → Option VmState := Commands.run Command.effect Command.aborts

/-! ## The interpreter runs the commands

`strtok` takes the words of a line off one by one, so that the chain of comparisons in
`execute_line` decides on the list of the words. With this every line is its command, and the
loop over the lines is the run of the commands. -/

theorem withArgument_eq (st : VmState) (save : Bytes) (f : Bytes → Option VmState) :
    withArgument st save f = ((tokens isBlank save)[0]?.map f).getD (some st) := by
  rw [withArgument, strtok_fst, ← List.head?_eq_getElem?]
  rcases (tokens isBlank save).head? with _ | value <;> rfl

theorem withArguments_eq (st : VmState) (save : Bytes) (f : Bytes → Bytes → Option VmState) :
    withArguments st save f = ((tokens isBlank save)[0]?.bind fun reg ↦
      (tokens isBlank save)[1]?.map fun val ↦ f reg val).getD (some st) := by
  have hsecond : (tokens isBlank save)[1]? = (tokens isBlank save).tail.head? := by
    rw [List.head?_eq_getElem?, List.getElem?_tail]
  rw [withArguments, hsecond, ← List.head?_eq_getElem?]
  rw [strtok_fst, strtok_fst, tokens_strtok_snd]
  rcases (tokens isBlank save).head? with _ | reg
  · rfl
  · rcases (tokens isBlank save).tail.head? with _ | val <;> rfl

theorem runCheck_eq (st : VmState) (token : Bytes) :
    runCheck st token =
      (Check.parse token).elim st fun token ↦ (Command.check token).effect st := by
  rw [Check.parse]
  split_ifs with h₁ h₂ h₃ h₄ h₅ h₆
  all_goals
    first
    | subst token
      simp +decide only [runCheck, Option.elim, Command.effect, Check.Guard, Check.bit,
        true_and, false_and, if_false]
      rfl
    | simp only [runCheck, Option.elim, *, false_and, if_false]

theorem aborts_crash (st : VmState) : Command.crash.aborts st = maybeCrash st (ascii "NOW") := by
  rw [Bool.eq_iff_iff, ← trap_iff, Command.aborts, decide_eq_true_iff]
  exact and_iff_right rfl

theorem executeLine_eq (st : VmState) (line : Bytes) : executeLine st line =
    Commands.step Command.effect Command.aborts (Command.parse (tokens isBlank line)) st := by
  rcases hline : strtok isBlank line with ⟨_ | cmd, save⟩
  · have hnil : tokens isBlank line = [] :=
      tokens_eq_nil_of_delims (strtok_eq_none (by rw [hline]))
    rw [executeLine, hline, hnil]
    rfl
  have hcons : tokens isBlank line = cmd :: tokens isBlank save := by
    have h : tokens isBlank line = cmd :: tokens isBlank (strtok isBlank line).2 :=
      tokens_of_strtok (by rw [hline])
    rwa [hline] at h
  rw [executeLine, hline, hcons, Command.parse]
  simp only [withArgument_eq, withArguments_eq, Command.parse?]
  generalize tokens isBlank save = args
  -- the chain of comparisons of the source, one keyword after the other
  by_cases hmode : cmd = ascii "MODE"
  · rw [if_pos hmode, if_pos hmode]
    rcases args[0]? with _ | value
    · rfl
    · simp only [Option.map_some, Option.getD_some, Option.bind_eq_bind, Option.bind_some,
        VmMode.parse]
      split_ifs <;> rfl
  rw [if_neg hmode, if_neg hmode]
  by_cases hset : cmd = ascii "SET"
  · rw [if_pos hset, if_pos hset]
    rcases args[0]? with _ | reg
    · rfl
    rcases args[1]? with _ | val
    · simp only [Option.map_none, Option.bind_eq_bind, Option.bind_some]
      rcases regIndex reg with _ | idx <;> rfl
    · simp only [Option.map_some, Option.bind_eq_bind, Option.bind_some, Option.getD_some]
      rcases regIndex reg with _ | idx <;> rfl
  rw [if_neg hset, if_neg hset]
  by_cases hcopy : cmd = ascii "COPY"
  · rw [if_pos hcopy, if_pos hcopy]
    rcases args[0]? with _ | dst
    · rfl
    rcases args[1]? with _ | src
    · simp only [Option.map_none, Option.bind_eq_bind, Option.bind_some]
      rcases regIndex dst with _ | dstIdx <;> rfl
    · simp only [Option.map_some, Option.bind_eq_bind, Option.bind_some, Option.getD_some]
      rcases regIndex dst with _ | dstIdx <;> rcases regIndex src with _ | srcIdx <;> rfl
  rw [if_neg hcopy, if_neg hcopy]
  by_cases hxor : cmd = ascii "XOR"
  · rw [if_pos hxor, if_pos hxor]
    rcases args[0]? with _ | reg
    · rfl
    rcases args[1]? with _ | val
    · simp only [Option.map_none, Option.bind_eq_bind, Option.bind_some]
      rcases regIndex reg with _ | idx <;> rfl
    · simp only [Option.map_some, Option.bind_eq_bind, Option.bind_some, Option.getD_some]
      rcases regIndex reg with _ | idx <;> rfl
  rw [if_neg hxor, if_neg hxor]
  by_cases happend : cmd = ascii "APPEND"
  · rw [if_pos happend, if_pos happend]
    rcases args[0]? with _ | word <;> rfl
  rw [if_neg happend, if_neg happend]
  by_cases hcheck : cmd = ascii "CHECK"
  · rw [if_pos hcheck, if_pos hcheck]
    rcases args[0]? with _ | token
    · rfl
    simp only [Option.map_some, Option.bind_eq_bind, Option.bind_some, Option.getD_some,
      runCheck_eq]
    rcases Check.parse token with _ | check <;> rfl
  rw [if_neg hcheck, if_neg hcheck]
  by_cases hloop : cmd = ascii "LOOP"
  · rw [if_pos hloop, if_pos hloop]
    rcases args[0]? with _ | val <;> rfl
  rw [if_neg hloop, if_neg hloop]
  by_cases hcrash : cmd = ascii "CRASH"
  · rw [if_pos hcrash, if_pos hcrash]
    rcases args[0]? with _ | flag
    · rfl
    simp only [Option.map_some, Option.bind_eq_bind, Option.bind_some, Option.getD_some]
    by_cases hnow : flag = ascii "NOW"
    · subst hnow
      rw [if_pos rfl]
      change _ = if Command.crash.aborts st then none else some st
      rw [aborts_crash]
    · rw [if_neg hnow, maybeCrash, if_pos hnow]
      rfl
  · rw [if_neg hcrash, if_neg hcrash]
    rfl

theorem runLines_eq (st : VmState) (text : Bytes) : runLines st text =
    run ((tokens (· = 10) text).map fun line ↦ Command.parse (tokens isBlank line)) st := by
  induction st, text using runLines.induct with
  | case1 st text hnone =>
    rw [runLines]
    split
    · rw [tokens_eq_nil_of_delims (strtok_eq_none hnone)]
      rfl
    · rename_i hsome
      rw [hnone] at hsome
      cases hsome
  | case2 st text line hline ih =>
    rw [runLines]
    split
    · rename_i hnone
      rw [hline] at hnone
      cases hnone
    rename_i line' hline'
    obtain rfl := Option.some.inj (hline.symm.trans hline')
    rw [tokens_of_strtok hline, List.map_cons, run, Commands.run, ← executeLine_eq]
    rcases executeLine st line with _ | next
    · rfl
    · exact ih next

/-- **Programs are their commands.** The interpreter does on every input what the commands of the
input do, one after the other. -/
theorem runProgram_eq (data : Bytes) : runProgram data = run (commands data) .initial :=
  runLines_eq _ _

/-- The loop of `main` keeps nothing of an input for the next one. -/
theorem main_eq_none_iff (reads : List Bytes) :
    main reads = none ↔ ∃ data ∈ reads, runProgram data = none := by
  have htake : ∀ data, runProgram (data.take 4096) = runProgram data := by
    intro data
    rw [runProgram, runProgram, programText, programText, List.take_take]
    rfl
  induction reads with
  | nil => simp [main]
  | cons data reads ih =>
    rw [main, List.exists_mem_cons_iff, htake]
    refine Iff.trans ?_ (or_congr_right ih)
    split
    · rename_i hempty
      rw [List.length_eq_zero_iff.mp hempty]
      refine (or_iff_right fun h ↦ ?_).symm
      rw [runProgram_eq] at h
      cases h
    · rcases runProgram data with _ | st <;> simp

end FuzzingCiCd.Target
