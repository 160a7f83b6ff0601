import FuzzingCiCd.Foundation.Tokens
import Mathlib.Algebra.Group.Int.Defs
import Mathlib.Data.List.Infix
import Mathlib.Data.UInt
import Mathlib.Logic.Function.Basic

/-!
# The target

`target_dsl.c`, the program that is fuzzed: an interpreter of a small language of lines, with a
hidden path to `abort`. A C string is the list of the bytes in front of its terminator.

The buffers of the source have a place in the model where their sizes decide something. The text of
the machine has 255 bytes at the most (`Text`), an index of a register is below three, and a program
is cut at 4095 bytes and at a zero byte.

`atoi` is the one of the C library that the target is built with: it is `strtol`, which stays within
the range of `long`, cut down to 32 bits.
-/

namespace FuzzingCiCd.Target

open Tokens

abbrev Bytes := List UInt8

/-- A literal of the source. -/
def ascii (s : String) : Bytes := s.toList.map fun ch ↦ UInt8.ofNat ch.toNat

/-! ## The C library -/

/-- `isspace` -/
def isspace (c : UInt8) : Bool := c = 32 ∨ 9 ≤ c ∧ c ≤ 13

def isdigit (c : UInt8) : Bool := 48 ≤ c ∧ c ≤ 57

/-- The number that the digits show. -/
def digitsValue (digits : Bytes) : ℕ := digits.foldl (fun n c ↦ 10 * n + (c.toNat - 48)) 0

/-- `strtol(nptr, NULL, 10)` -/
def strtol (nptr : Bytes) : ℤ :=
  match nptr.dropWhile isspace with
  | [] => 0
  | sign :: digits =>
    if sign = 45 then max (-(digitsValue (digits.takeWhile isdigit) : ℤ)) (-9223372036854775808)
    else if sign = 43 then min (digitsValue (digits.takeWhile isdigit) : ℤ) 9223372036854775807
    else min (digitsValue ((sign :: digits).takeWhile isdigit) : ℤ) 9223372036854775807

def atoi (nptr : Bytes) : BitVec 32 := BitVec.ofInt 32 (strtol nptr)

/-! ## The machine

The machine has registers, a mode, a loop value, the bits of what it has seen and a text. An
`Option` is the state after a line: there is none if the program has called `abort`. -/

inductive VmMode
  | fast | slow | debug
  deriving DecidableEq

/-- `char text[256]`, a string with its terminator. -/
structure Text where
  chars : Bytes
  length_le : chars.length ≤ 255
  zero_notMem : 0 ∉ chars

/-- `strncat(st->text, word, rem)`, where `rem` is what is free in front of the last byte. -/
def Text.append (text : Text) (word : Bytes) : Text where
  chars := text.chars ++ (word.takeWhile (· ≠ 0)).take (255 - text.chars.length)
  length_le := by
    have := text.length_le
    rw [List.length_append, List.length_take]
    omega
  zero_notMem := by
    rw [List.mem_append, not_or]
    refine ⟨text.zero_notMem, fun h ↦ ?_⟩
    have := List.mem_takeWhile_imp (List.mem_of_mem_take h)
    simp at this

/-- The registers are written as numbers. -/
instance neZero_registers : NeZero 3 := ⟨by decide⟩

/-- `vm_state_t` -/
structure VmState where
  regs : Fin 3 → BitVec 32
  mode : VmMode
  loopValue : BitVec 32
  seen : BitVec 32
  text : Text

/-- The state that a program starts in. -/
def VmState.initial : VmState where
  regs := fun _ ↦ 0
  mode := .slow
  loopValue := 0
  seen := 0
  text := ⟨[], by decide, List.not_mem_nil⟩

def VmState.setReg (st : VmState) (idx : Fin 3) (value : BitVec 32) : VmState :=
  { st with regs := Function.update st.regs idx value }

/-- `strstr(st->text, word) != NULL` -/
def VmState.Contains (st : VmState) (word : String) : Prop := ascii word <:+: st.text.chars

instance (st : VmState) (word : String) : Decidable (st.Contains word) :=
  inferInstanceAs (Decidable (_ <:+: _))

def regIndex : Bytes → Option (Fin 3)
  | [c] => if c = 65 then some 0 else if c = 66 then some 1 else if c = 67 then some 2 else none
  | _ => none

def appendWord (st : VmState) (word : Bytes) : VmState :=
  if 255 - st.text.chars.length = 0 then st else { st with text := st.text.append word }

/-- Does it call `abort`? -/
def maybeCrash (st : VmState) (flag : Bytes) : Bool :=
  if flag ≠ ascii "NOW" then false
  else
    st.mode = .debug ∧ st.loopValue = 7 ∧ st.regs 0 = 1337 ∧ st.regs 1 = 1337 ^^^ 1364 ∧
      st.regs 2 = 0x4141 ∧ st.Contains "open" ∧ st.seen &&& 0x1e = 0x1e

def runCheck (st : VmState) (token : Bytes) : VmState :=
  if token = ascii "HELLO" ∧ st.mode = .fast then { st with seen := st.seen ||| 0x01 }
  else if token = ascii "MAGIC" ∧ st.mode = .debug ∧ st.regs 0 = 1337 then
    { st with seen := st.seen ||| 0x02 }
  else if token = ascii "PLEASE" ∧ st.regs 1 = st.regs 0 ^^^ 1364 then
    { st with seen := st.seen ||| 0x04 }
  else if token = ascii "FIZZ" ∧ st.Contains "open" then { st with seen := st.seen ||| 0x08 }
  else if token = ascii "OPEN" ∧ st.Contains "open" then { st with seen := st.seen ||| 0x10 }
  else if token = ascii "WORLD" ∧ st.Contains "world" then { st with seen := st.seen ||| 0x20 }
  else st

/-- The delimiters of `execute_line`. -/
def isBlank (c : UInt8) : Bool := c = 32 ∨ c = 9 ∨ c = 13 ∨ c = 10

/-- The commands with one argument: what they do with it, or nothing if there is none. -/
def withArgument (st : VmState) (save : Bytes) (f : Bytes → Option VmState) : Option VmState :=
  match (strtok isBlank save).1 with
  | none => some st
  | some value => f value

/-- The commands with two arguments. -/
def withArguments (st : VmState) (save : Bytes) (f : Bytes → Bytes → Option VmState) :
    Option VmState :=
  let first := strtok isBlank save
  let second := strtok isBlank first.2
  match first.1 with
  | none => some st
  | some reg =>
    match second.1 with
    | none => some st
    | some val => f reg val

/-- One line. There is no state if the program aborts. -/
def executeLine (st : VmState) (line : Bytes) : Option VmState :=
  match strtok isBlank line with
  | (none, _) => some st
  | (some cmd, save) =>
    if cmd = ascii "MODE" then
      withArgument st save fun value ↦
        if value = ascii "FAST" then some { st with mode := .fast }
        else if value = ascii "SLOW" then some { st with mode := .slow }
        else if value = ascii "DEBUG" then some { st with mode := .debug }
        else some st
    else if cmd = ascii "SET" then
      withArguments st save fun reg val ↦
        match regIndex reg with
        | none => some st
        | some idx => some (st.setReg idx (atoi val))
    else if cmd = ascii "COPY" then
      withArguments st save fun dst src ↦
        match regIndex dst, regIndex src with
        | some dstIdx, some srcIdx => some (st.setReg dstIdx (st.regs srcIdx))
        | _, _ => some st
    else if cmd = ascii "XOR" then
      withArguments st save fun reg val ↦
        match regIndex reg with
        | none => some st
        | some idx => some (st.setReg idx (st.regs idx ^^^ atoi val))
    else if cmd = ascii "APPEND" then withArgument st save fun word ↦ some (appendWord st word)
    else if cmd = ascii "CHECK" then withArgument st save fun token ↦ some (runCheck st token)
    else if cmd = ascii "LOOP" then
      withArgument st save fun val ↦ some { st with loopValue := atoi val }
    else if cmd = ascii "CRASH" then
      withArgument st save fun flag ↦ if maybeCrash st flag then none else some st
    else some st

/-- The loop over the lines. -/
def runLines (st : VmState) (text : Bytes) : Option VmState :=
  match _h : (strtok (· = 10) text).1 with
  | none => some st
  | some line => (executeLine st line).bind fun st ↦ runLines st (strtok (· = 10) text).2
termination_by text.length
decreasing_by exact length_strtok_lt _h

/-- The buffer as a string: cut to its size, and read up to a zero byte. -/
def programText (data : Bytes) : Bytes := (data.take 4095).takeWhile (· ≠ 0)

def runProgram (data : Bytes) : Option VmState := runLines .initial (programText data)

/-- The loop of `main`, over what `read` delivers; `none` is an `abort`. -/
def main : List Bytes → Option Unit
  | [] => some ()
  | data :: reads =>
    if data.length = 0 then main reads
    else (runProgram (data.take 4096)).bind fun _ ↦ main reads

end FuzzingCiCd.Target
