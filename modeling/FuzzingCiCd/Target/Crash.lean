import FuzzingCiCd.Target.Program
import Mathlib.Order.Bounds.Defs
import Mathlib.Tactic.IntervalCases
import Mathlib.Tactic.FinCases

/-!
# The hidden crash of the target

The target aborts at a line `CRASH NOW`, in a state that the lines before it must have made. What
they must have done is read off the program (`runProgram_eq_none_iff`): the last `MODE` and `LOOP`
count, the words of all the `APPEND`s, and for each of four checks some line where it was made, at a
time when it succeeded.

Every line changes one thing at the most. The state of the trap is ten changes away from the one
that a program starts in, so it takes eleven lines to crash the target, and as many are enough
(`isLeast_lines`).
-/

namespace FuzzingCiCd.Target

open Tokens

/-- The state after the commands, as long as the program does not abort. -/
def state (p : List Command) : VmState := Commands.after Command.effect p .initial

/-! ## The history of a state -/

section History

def Command.mode? : Command → Option VmMode
  | .mode m => some m
  | _ => none

def Command.loop? : Command → Option (BitVec 32)
  | .loop value => some value
  | _ => none

def Command.word? : Command → Option Bytes
  | .append word => some word
  | _ => none

/-- The check was made by a command, at a time when it succeeds. -/
def Passed (token : Check) (p : List Command) : Prop :=
  ∃ pre post, p = pre ++ .check token :: post ∧ token.Guard (state pre)

/-- The appended words, as far as they fit. -/
def textOf (p : List Command) : Bytes := (p.filterMap Command.word?).flatten.take 255

variable {p : List Command}

/-- A full text is no special case. -/
theorem appendWord_eq (st : VmState) (word : Bytes) :
    appendWord st word = { st with text := st.text.append word } := by
  rw [appendWord]
  split
  · rename_i hfull
    have htext : st.text.append word = st.text := by
      rw [Text.append]
      congr
      rw [hfull, List.take_zero, List.append_nil]
    rw [htext]
  · rfl

theorem effect_mode (c : Command) (st : VmState) :
    (c.effect st).mode = c.mode?.getD st.mode := by
  rcases c with m | ⟨reg, value⟩ | ⟨dst, src⟩ | ⟨reg, value⟩ | word | token | value | _ | _
  case append => rw [Command.effect, appendWord_eq]; rfl
  case check => rw [Command.effect]; split <;> rfl
  all_goals rfl

theorem effect_loopValue (c : Command) (st : VmState) :
    (c.effect st).loopValue = c.loop?.getD st.loopValue := by
  rcases c with m | ⟨reg, value⟩ | ⟨dst, src⟩ | ⟨reg, value⟩ | word | token | value | _ | _
  case append => rw [Command.effect, appendWord_eq]; rfl
  case check => rw [Command.effect]; split <;> rfl
  all_goals rfl

theorem effect_text (c : Command) (st : VmState) :
    (c.effect st).text = c.word?.elim st.text st.text.append := by
  rcases c with m | ⟨reg, value⟩ | ⟨dst, src⟩ | ⟨reg, value⟩ | word | token | value | _ | _
  case append => rw [Command.effect, appendWord_eq]; rfl
  case check => rw [Command.effect]; split <;> rfl
  all_goals rfl

/-! ### The bits of the checks -/

/-- The bit of the check, counted from the lowest one. -/
def Check.index : Check → ℕ
  | .hello => 0
  | .magic => 1
  | .please => 2
  | .fizz => 3
  | .opened => 4
  | .world => 5

theorem bit_getLsbD (token token' : Check) :
    token'.bit.getLsbD token.index = decide (token = token') := by
  cases token <;> cases token' <;> rfl

/-- A check raises its own bit only. -/
theorem effect_seen (token : Check) (c : Command) (st : VmState) :
    (c.effect st).seen.getLsbD token.index = true ↔
      st.seen.getLsbD token.index = true ∨ c = .check token ∧ token.Guard st := by
  rcases c with m | ⟨reg, value⟩ | ⟨dst, src⟩ | ⟨reg, value⟩ | word | token' | value | _ | _
  case append =>
    rw [Command.effect, appendWord_eq]
    simp
  case check =>
    rw [Command.effect, Command.check.injEq]
    split
    · rename_i hguard
      change (st.seen ||| token'.bit).getLsbD token.index = true ↔ _
      rw [BitVec.getLsbD_or, bit_getLsbD, Bool.or_eq_true, decide_eq_true_iff]
      refine or_congr_right ⟨?_, fun h ↦ h.1.symm⟩
      rintro rfl
      exact ⟨rfl, hguard⟩
    · rename_i hguard
      refine (or_iff_left ?_).symm
      rintro ⟨rfl, h⟩
      exact hguard h
  all_goals simp [Command.effect, VmState.setReg]

theorem mask_iff (seen : BitVec 32) : seen &&& 0x1e = 0x1e ↔
    ∀ token, token ∈ [Check.magic, .please, .fizz, .opened] →
      seen.getLsbD token.index = true := by
  constructor
  · intro h token htoken
    have hbit := congrArg (BitVec.getLsbD · token.index) h
    simp only [BitVec.getLsbD_and] at hbit
    have hmask : (0x1e : BitVec 32).getLsbD token.index = true := by
      fin_cases htoken <;> rfl
    rw [hmask, Bool.and_true] at hbit
    exact hbit
  · intro h
    apply BitVec.eq_of_getLsbD_eq
    intro i hi
    have h₁ := h .magic (by decide)
    have h₂ := h .please (by decide)
    have h₃ := h .fizz (by decide)
    have h₄ := h .opened (by decide)
    simp only [Check.index] at h₁ h₂ h₃ h₄
    rw [BitVec.getLsbD_and]
    interval_cases i <;> simp [*]

/-! ### The text -/

/-- A text that has been cut takes no less of what comes next than it can hold. -/
theorem chars_append (text : Text) (word : Bytes) :
    (text.append word).chars = (text.chars ++ word.takeWhile (· ≠ 0)).take 255 := by
  rw [Text.append, List.take_append, List.take_of_length_le text.length_le]

theorem take_append_take (front rest : Bytes) :
    (front.take 255 ++ rest).take 255 = (front ++ rest).take 255 := by
  rw [List.take_append, List.take_append, List.take_take, min_self, List.length_take]
  congr 2
  omega

theorem foldl_text (p : List Command) (text : Text)
    (h : ∀ c ∈ p, ∀ word, c.word? = some word → 0 ∉ word) :
    (p.foldl (fun text c ↦ c.word?.elim text text.append) text).chars =
      (text.chars ++ (p.filterMap Command.word?).flatten).take 255 := by
  induction p generalizing text with
  | nil =>
    rw [List.filterMap_nil, List.flatten_nil, List.append_nil]
    exact (List.take_of_length_le text.length_le).symm
  | cons c p ih =>
    rw [List.foldl_cons, ih _ fun d hd ↦ h d (List.mem_cons_of_mem _ hd)]
    rcases hword : c.word? with _ | word
    · rw [List.filterMap_cons_none hword]
      rfl
    · have hclean : word.takeWhile (· ≠ 0) = word := by
        rw [List.takeWhile_eq_self_iff]
        intro d hd
        rw [decide_eq_true_iff]
        rintro rfl
        exact h c List.mem_cons_self word hword hd
      rw [List.filterMap_cons_some hword, List.flatten_cons, Option.elim_some, chars_append,
        take_append_take, hclean, List.append_assoc]

theorem chars_state (h : ∀ c ∈ p, ∀ word, c.word? = some word → 0 ∉ word) :
    (state p).text.chars = textOf p := by
  have hpart : (state p).text = p.foldl (fun text c ↦ c.word?.elim text text.append)
      VmState.initial.text :=
    Commands.part_after VmState.text fun c st ↦ effect_text c st
  rw [hpart, foldl_text p _ h]
  rfl

/-! ### The trap -/

theorem mode_state :
    (state p).mode = .debug ↔ (p.filterMap Command.mode?).getLast? = some .debug := by
  have hfield : (state p).mode = (p.filterMap Command.mode?).getLast?.getD .slow :=
    Commands.field_after VmState.mode effect_mode
  rw [hfield]
  rcases (p.filterMap Command.mode?).getLast? with _ | m <;> simp

theorem loopValue_state :
    (state p).loopValue = 7 ↔ (p.filterMap Command.loop?).getLast? = some 7 := by
  have hfield : (state p).loopValue = (p.filterMap Command.loop?).getLast?.getD 0 :=
    Commands.field_after VmState.loopValue effect_loopValue
  rw [hfield]
  rcases (p.filterMap Command.loop?).getLast? with _ | value <;> simp

theorem seen_state (token : Check) :
    (state p).seen.getLsbD token.index = true ↔ Passed token p := by
  have hflag := Commands.flag_after (p := p) (s := VmState.initial)
    (fun st ↦ st.seen.getLsbD token.index = true) (effect_seen token)
  rw [state, hflag]
  constructor
  · rintro (hzero | ⟨pre, c, post, hp, rfl, hguard⟩)
    · simp [VmState.initial] at hzero
    · exact ⟨pre, post, hp, hguard⟩
  · rintro ⟨pre, post, hp, hguard⟩
    exact Or.inr ⟨pre, _, post, hp, rfl, hguard⟩

theorem trap_state (h : ∀ c ∈ p, ∀ word, c.word? = some word → 0 ∉ word) : Trap (state p) ↔
    (p.filterMap Command.mode?).getLast? = some .debug ∧
      (p.filterMap Command.loop?).getLast? = some 7 ∧
      (state p).regs 0 = 1337 ∧ (state p).regs 1 = 109 ∧ (state p).regs 2 = 0x4141 ∧
      ascii "open" <:+: textOf p ∧
      ∀ token, token ∈ [Check.magic, .please, .fizz, .opened] → Passed token p := by
  rw [← mode_state, ← loopValue_state, ← chars_state h]
  simp only [← seen_state]
  rw [← mask_iff]
  exact ⟨fun ⟨h₁, h₂, h₃, h₄, h₅, h₆, h₇⟩ ↦ ⟨h₁, h₂, h₃, h₄, h₅, h₆, h₇⟩,
    fun ⟨h₁, h₂, h₃, h₄, h₅, h₆, h₇⟩ ↦ ⟨h₁, h₂, h₃, h₄, h₅, h₆, h₇⟩⟩

theorem mem_of_parse {words : List Bytes} {word : Bytes}
    (h : (Command.parse words).word? = some word) : word ∈ words := by
  rcases words with _ | ⟨cmd, args⟩
  · cases h
  rw [Command.parse] at h
  rcases hparse : Command.parse? cmd args with _ | c
  · rw [hparse] at h
    cases h
  rw [hparse, Option.getD_some] at h
  simp only [Command.parse?, Option.bind_eq_bind, Option.pure_def] at hparse
  by_cases hmode : cmd = ascii "MODE"
  · rw [if_pos hmode] at hparse
    simp only [Option.bind_eq_some_iff, Option.some_inj] at hparse
    grind [Command.word?]
  rw [if_neg hmode] at hparse
  by_cases hset : cmd = ascii "SET"
  · rw [if_pos hset] at hparse
    simp only [Option.bind_eq_some_iff, Option.some_inj] at hparse
    grind [Command.word?]
  rw [if_neg hset] at hparse
  by_cases hcopy : cmd = ascii "COPY"
  · rw [if_pos hcopy] at hparse
    simp only [Option.bind_eq_some_iff, Option.some_inj] at hparse
    grind [Command.word?]
  rw [if_neg hcopy] at hparse
  by_cases hxor : cmd = ascii "XOR"
  · rw [if_pos hxor] at hparse
    simp only [Option.bind_eq_some_iff, Option.some_inj] at hparse
    grind [Command.word?]
  rw [if_neg hxor] at hparse
  by_cases happend : cmd = ascii "APPEND"
  · rw [if_pos happend] at hparse
    obtain ⟨arg, harg, hc⟩ := Option.bind_eq_some_iff.mp hparse
    cases hc
    cases h
    exact List.mem_cons_of_mem _ (List.mem_of_getElem? harg)
  rw [if_neg happend] at hparse
  by_cases hcheck : cmd = ascii "CHECK"
  · rw [if_pos hcheck] at hparse
    simp only [Option.bind_eq_some_iff, Option.some_inj] at hparse
    grind [Command.word?]
  rw [if_neg hcheck] at hparse
  by_cases hloop : cmd = ascii "LOOP"
  · rw [if_pos hloop] at hparse
    simp only [Option.bind_eq_some_iff, Option.some_inj] at hparse
    grind [Command.word?]
  rw [if_neg hloop] at hparse
  by_cases hcrash : cmd = ascii "CRASH"
  · rw [if_pos hcrash] at hparse
    simp only [Option.bind_eq_some_iff] at hparse
    grind [Command.word?]
  · rw [if_neg hcrash] at hparse
    cases hparse

theorem zero_notMem_of_commands {data : Bytes} :
    ∀ c ∈ commands data, ∀ word, c.word? = some word → 0 ∉ word := by
  intro c hc word hword hzero
  obtain ⟨line, hline, rfl⟩ := List.mem_map.mp hc
  -- The byte would be one of the line, and so of the text that a zero byte ends.
  have htext := (of_mem_tokens hline 0 (of_mem_tokens (mem_of_parse hword) 0 hzero).2).2
  have hne := List.mem_takeWhile_imp htext
  simp at hne

end History

/-- **When the target aborts.** -/
theorem runProgram_eq_none_iff (data : Bytes) : runProgram data = none ↔
    ∃ pre post, commands data = pre ++ .crash :: post ∧
      (pre.filterMap Command.mode?).getLast? = some .debug ∧
      (pre.filterMap Command.loop?).getLast? = some 7 ∧
      (state pre).regs 0 = 1337 ∧ (state pre).regs 1 = 109 ∧ (state pre).regs 2 = 0x4141 ∧
      ascii "open" <:+: textOf pre ∧
      ∀ token, token ∈ [Check.magic, .please, .fizz, .opened] → Passed token pre := by
  rw [runProgram_eq, run, Commands.run_eq_none_iff]
  constructor
  · rintro ⟨pre, c, post, hp, habort⟩
    obtain ⟨rfl, htrap⟩ := of_decide_eq_true habort
    refine ⟨pre, post, hp, (trap_state fun c hc ↦ ?_).mp htrap⟩
    exact zero_notMem_of_commands c (hp ▸ List.mem_append_left _ hc)
  · rintro ⟨pre, post, hp, htrap⟩
    refine ⟨pre, .crash, post, hp, decide_eq_true ⟨rfl, (trap_state fun c hc ↦ ?_).mpr htrap⟩⟩
    exact zero_notMem_of_commands c (hp ▸ List.mem_append_left _ hc)

/-! ## How far a program has come -/

section Progress

/-- The values of the registers in the trap. -/
def trapRegs : Fin 3 → BitVec 32
  | 0 => 1337
  | 1 => 109
  | 2 => 0x4141

/-- The checks that the trap asks for. -/
def seenParts (seen : BitVec 32) : List Bool :=
  [Check.magic, .please, .fizz, .opened].map fun token ↦ seen.getLsbD token.index

/-- What is in place of a state of the trap, one part after the other. -/
def VmState.parts (st : VmState) : List Bool :=
  [decide (st.mode = .debug), decide (st.loopValue = 7), decide (st.regs 0 = trapRegs 0),
    decide (st.regs 1 = trapRegs 1), decide (st.regs 2 = trapRegs 2),
    decide (st.Contains "open")] ++ seenParts st.seen

def VmState.progress (st : VmState) : ℕ := st.parts.countP id

theorem progress_of_trap {st : VmState} (h : Trap st) : st.progress = 10 := by
  have hseen := (mask_iff _).mp h.seen
  have hparts : seenParts st.seen = [true, true, true, true] := by
    rw [seenParts, List.map_congr_left (g := fun _ ↦ true) hseen]
    rfl
  rw [VmState.progress, VmState.parts, hparts]
  simp [h.mode, h.loopValue, h.regA, h.regB, h.regC, h.text, trapRegs]

theorem countP_set_le (l : List Bool) (i : ℕ) (b : Bool) :
    (l.set i b).countP id ≤ l.countP id + 1 := by
  induction l generalizing i with
  | nil => simp
  | cons a l ih =>
    rcases i with _ | i
    · rw [List.set_cons_zero, List.countP_cons, List.countP_cons]
      split <;> omega
    · have := ih i
      rw [List.set_cons_succ, List.countP_cons, List.countP_cons]
      omega

theorem setReg_parts (st : VmState) (idx : Fin 3) (value : BitVec 32) :
    ∃ i b, (st.setReg idx value).parts = st.parts.set i b := by
  refine ⟨2 + idx, value = trapRegs idx, ?_⟩
  fin_cases idx <;> rfl

theorem exists_seenParts_eq (token : Check) (seen : BitVec 32) :
    ∃ i b, seenParts (seen ||| token.bit) = (seenParts seen).set i b := by
  refine ⟨(token.index + 4) % 5, true, ?_⟩
  simp only [seenParts, List.map_cons, List.map_nil, BitVec.getLsbD_or, bit_getLsbD]
  cases token <;> simp [Check.index]

/-- **One line, one change.** -/
theorem exists_parts_eq (c : Command) (st : VmState) :
    ∃ i b, (c.effect st).parts = st.parts.set i b := by
  rcases c with m | ⟨reg, value⟩ | ⟨dst, src⟩ | ⟨reg, value⟩ | word | token | value | _ | _
  case mode => exact ⟨0, _, rfl⟩
  case loop => exact ⟨1, _, rfl⟩
  case crash => exact ⟨10, true, rfl⟩
  case skip => exact ⟨10, true, rfl⟩
  case append =>
    rw [Command.effect, appendWord_eq]
    exact ⟨5, _, rfl⟩
  case set => exact setReg_parts st reg value
  case copy => exact setReg_parts st dst _
  case xor => exact setReg_parts st reg _
  case check =>
    rw [Command.effect]
    split
    · obtain ⟨i, b, hseen⟩ := exists_seenParts_eq token st.seen
      exact ⟨i + 6, b, congrArg (_ ++ ·) hseen⟩
    · exact ⟨10, true, rfl⟩

theorem progress_effect_le (c : Command) (st : VmState) :
    (c.effect st).progress ≤ st.progress + if true then 1 else 0 := by
  obtain ⟨i, b, hparts⟩ := exists_parts_eq c st
  rw [VmState.progress, hparts]
  exact countP_set_le _ i b

theorem ten_le_length {p : List Command} (h : Trap (state p)) : 10 ≤ p.length := by
  have hle := Commands.measure_after_le (p := p) (s := .initial) VmState.progress (fun _ ↦ true)
    progress_effect_le
  have hinitial : VmState.initial.progress = 0 := by decide
  rw [List.countP_true, hinitial, Nat.zero_add] at hle
  exact (progress_of_trap h).symm.le.trans hle

theorem eleven_le_lines {data : Bytes} (h : runProgram data = none) : 11 ≤ (lines data).length := by
  rw [runProgram_eq, run, Commands.run_eq_none_iff] at h
  obtain ⟨pre, c, post, hp, habort⟩ := h
  have hlength : (lines data).length = (pre ++ c :: post).length := by
    rw [← hp, commands, List.length_map]
  have := ten_le_length (of_decide_eq_true habort).2
  rw [hlength, List.length_append, List.length_cons]
  omega

end Progress

/-- A program that takes every step of the way. -/
def shortest : Bytes :=
  ascii "MODE DEBUG\nSET A 1337\nSET B 109\nSET C 16705\nAPPEND open\nCHECK MAGIC\n" ++
    ascii "CHECK PLEASE\nCHECK FIZZ\nCHECK OPEN\nLOOP 7\nCRASH NOW\n"

set_option maxRecDepth 4000 in
/-- **Eleven lines.** No input with fewer lines makes the target abort, and some input with eleven
lines does. -/
theorem isLeast_lines :
    IsLeast {n | ∃ data, runProgram data = none ∧ (lines data).length = n} 11 := by
  refine ⟨⟨shortest, ?_, by decide⟩, ?_⟩
  · rw [runProgram_eq, ← Option.isNone_iff_eq_none]
    decide
  · rintro n ⟨data, habort, rfl⟩
    exact eleven_le_lines habort

end FuzzingCiCd.Target
