import FuzzingCiCd.Executor.SshBashDeployment
import FuzzingCiCd.Executor.RelativePaths
import FuzzingCiCd.Foundation.Doubles
import FuzzingCiCd.Foundation.Numerals

/-!
# Numeric parameters of jobs

A depth, a limit, a budget or a port comes as a JSON number or as the text of one. Each parser
checks its range, behind `Number.intValue()` or `Number.longValue()`: these cut a whole number down
to its last 32 or 64 bits, and a fraction down to its whole part.

`taken_iff` says which numbers are taken exactly: accepted just when they are whole and in the
range, and then as they are. All texts are.

## Numbers
-/

namespace FuzzingCiCd.Executor

open Transition

/-- The number that a literal shows. -/
def literalValue : JsonNumber → ℚ
  | .int n => n
  | .dec unscaled scale => unscaled / 10 ^ scale

/-- The kinds of `Number` that a JSON number is read as. -/
inductive Number where
  | integer (n : ℤ)
  | long (n : ℤ)
  | bigInteger (n : ℤ)
  | double (d : Double)

namespace Number

/-- The kind that a literal is read as: the least that holds a whole number, and a double for
anything with a fraction or an exponent. -/
def ofLiteral : JsonNumber → Number
  | .int n =>
    if -2 ^ 31 ≤ n ∧ n < 2 ^ 31 then .integer n
    else if JavaText.IsLong n then .long n
    else .bigInteger n
  | .dec unscaled scale => .double (.ofRat (literalValue (.dec unscaled scale)))

def intValue : Number → ℤ
  | integer n => n
  | long n => n.bmod (2 ^ 32)
  | bigInteger n => n.bmod (2 ^ 32)
  | double d => d.narrow (-2 ^ 31) (2 ^ 31 - 1)

def longValue : Number → ℤ
  | integer n => n
  | long n => n
  | bigInteger n => n.bmod (2 ^ 64)
  | double d => d.narrow (-2 ^ 63) (2 ^ 63 - 1)

end Number

/-- `Integer.parseInt`. -/
def parseInt (text : String) : Option ℤ :=
  (JavaText.parseSigned text.toList).filter fun n ↦ -2 ^ 31 ≤ n ∧ n < 2 ^ 31

/-- `Long.parseLong`. -/
def parseLong (text : String) : Option ℤ := JavaText.parseLong text.toList

/-! ## Parsers -/

/-- What is thrown for a value that is no whole number. -/
def notWhole (key : String) : ExecutorJobException :=
  .validation (key ++ " должен быть целым числом")

/-- A number or its text, as an int. -/
def intParameter (value : Json) (key : String) : Except ExecutorJobException ℤ :=
  match value with
  | .num number => .ok (Number.ofLiteral number).intValue
  | .str text =>
    match parseInt text with
    | some n => .ok n
    | none => .error (notWhole key)
  | _ => .error (notWhole key)

namespace GitCheckoutParameters

def DEFAULT_CHECKOUT_DEPTH : ℤ := 1

def MAX_CHECKOUT_DEPTH : ℤ := 100

def checkoutDepth (value : Json) : Except ExecutorJobException ℤ :=
  match value with
  | .null => .ok DEFAULT_CHECKOUT_DEPTH
  | value => do
    let depth ← intParameter value "checkout_depth"
    if depth < 1 ∨ MAX_CHECKOUT_DEPTH < depth then
      .error (.validation "checkout_depth должен быть в диапазоне от 1 до 100")
    else .ok depth

end GitCheckoutParameters

namespace FuzzingParameters

def BUDGET_SECONDS_KEY : String := "budget_seconds"

def DEFAULT_BUDGET_SECONDS : ℤ := 30

def requirePositive (value : ℤ) (key : String) : Except ExecutorJobException Unit :=
  if value < 1 then .error (.validation (key ++ " должен быть положительным")) else .ok ()

def positiveInt (value : Json) (key : String) (defaultValue : ℤ) :
    Except ExecutorJobException ℤ :=
  match value with
  | .null => .ok defaultValue
  | value => do
    let result ← intParameter value key
    requirePositive result key
    return result

def llmWorkerQueueSize (params : JsonMap) : Except ExecutorJobException ℤ :=
  positiveInt (firstValue params ["llm_worker_queue_size", "llmWorkerQueueSize"])
    "llm_worker_queue_size" 8

def llmWorkerCount (params : JsonMap) : Except ExecutorJobException ℤ :=
  positiveInt (firstValue params ["llm_worker_count", "llmWorkerCount"]) "llm_worker_count" 1

def maxCandidateChars (params : JsonMap) : Except ExecutorJobException ℤ :=
  positiveInt (firstValue params ["max_candidate_chars", "maxCandidateChars"])
    "max_candidate_chars" 2048

def llmApiTimeoutSeconds (params : JsonMap) : Except ExecutorJobException ℤ :=
  positiveInt (firstValue params ["llm_api_timeout_seconds", "llmApiTimeoutSeconds"])
    "llm_api_timeout_seconds" 20

def budgetSeconds (params : JsonMap) (timeoutSeconds : ℤ) : Except ExecutorJobException ℤ :=
  match firstValue params [BUDGET_SECONDS_KEY, "budgetSeconds"] with
  | .null => .ok (min DEFAULT_BUDGET_SECONDS timeoutSeconds)
  | .num number => .ok (Number.ofLiteral number).longValue
  | .str text =>
    match parseLong text with
    | some n => .ok n
    | none => .error (notWhole BUDGET_SECONDS_KEY)
  | _ => .error (notWhole BUDGET_SECONDS_KEY)

/-- The budget of a job: `from` compares it with the timeout of the job, the constructor with
zero. -/
def budget (params : JsonMap) (timeoutSeconds : Int64) : Except ExecutorJobException ℤ := do
  let budgetSeconds ← budgetSeconds params timeoutSeconds.toInt
  if timeoutSeconds.toInt < budgetSeconds then
    .error (.validation "budget_seconds не должен превышать timeoutSeconds job")
  else if budgetSeconds < 1 then
    .error (.validation "budget_seconds должен быть положительным")
  else .ok budgetSeconds

end FuzzingParameters

namespace SshBashDeploymentParameters

def PORT_KEY : String := "port"

def DEFAULT_PORT : ℤ := 22

def intValue (value : Json) (defaultValue : ℤ) (key : String) : Except ExecutorJobException ℤ :=
  match value with
  | .null => .ok defaultValue
  | value => intParameter value key

/-- The target of a job with the given host, user and credentials. -/
def targetAt (host user credentialsRef : Option String) (port : Json) :
    Except ExecutorJobException SshBashTarget := do
  let port ← intValue port DEFAULT_PORT PORT_KEY
  validateTarget (some ⟨host, port, user, credentialsRef⟩)

end SshBashDeploymentParameters

/-! ## Parameters that are taken exactly -/

/-- The number that a parameter shows, as a number or in a text. -/
def shown : Json → Option ℚ
  | .num number => some (literalValue number)
  | .str text => (JavaText.parseSigned text.toList).map fun n : ℤ ↦ (n : ℚ)
  | _ => none

/-- **Taken exactly.** A number is accepted just when it is whole and in the range, and then as it
is. -/
def TakenExactly (parsed : Except ExecutorJobException ℤ) (high : ℤ) (q : ℚ) : Prop :=
  ∀ n : ℤ, parsed = .ok n ↔ (n : ℚ) = q ∧ 1 ≤ n ∧ n ≤ high

/-- A double below the range, or behind it where there are greater ints. -/
def Outside (high greatest : ℤ) : Double → Prop
  | .finite q => q < 1 ∨ (high < greatest ∧ (high + 1 : ℚ) ≤ q)
  | .infinity negative => negative = true ∨ high < greatest
  | .nan => True

/-- A number that is in the range, or whose last bits are not. With a fraction or an exponent: a
number in the range that is a double or the greatest int, or another one whose double lies
outside. A text is always kept. -/
def Kept (bits : ℕ) (high : ℤ) : Json → Prop
  | .num (.int n) => (1 ≤ n ∧ n ≤ high) ∨ n % 2 ^ bits < 1 ∨ high < n % 2 ^ bits
  | .num (.dec unscaled scale) =>
    let q := literalValue (.dec unscaled scale)
    ((∃ n : ℤ, (n : ℚ) = q ∧ 1 ≤ n ∧ n ≤ high) →
      Double.ofRat q = .finite q ∨ q = 2 ^ (bits - 1) - 1) ∧
    ((¬ ∃ n : ℤ, (n : ℚ) = q ∧ 1 ≤ n ∧ n ≤ high) →
      Outside high (2 ^ (bits - 1) - 1) (Double.ofRat q))
  | _ => True

/-! ## Narrowing

A whole number literal is cut to its last bits. A literal with a fraction or an exponent is a
double first, which rounds it, and is then cut at the ends of the range. `narrowed` is both, and
the lemmas say for which numbers it is the number itself. -/

/-- The narrowing of a literal to a number of bits. -/
def narrowed (bits : ℕ) : JsonNumber → ℤ
  | .int n => n.bmod (2 ^ bits)
  | .dec unscaled scale =>
    (Double.ofRat (literalValue (.dec unscaled scale))).narrow (-2 ^ (bits - 1))
      (2 ^ (bits - 1) - 1)

theorem intValue_ofLiteral (number : JsonNumber) :
    (Number.ofLiteral number).intValue = narrowed 32 number := by
  rcases number with n | ⟨unscaled, scale⟩
  · rw [Number.ofLiteral]
    split_ifs with hint
    · rw [narrowed, Int.bmod_eq_of_le (by omega) (by omega)]
      rfl
    · rfl
    · rfl
  · rfl

theorem longValue_ofLiteral (number : JsonNumber) :
    (Number.ofLiteral number).longValue = narrowed 64 number := by
  rcases number with n | ⟨unscaled, scale⟩
  · rw [Number.ofLiteral]
    split_ifs with hint hlong
    · rw [narrowed, Int.bmod_eq_of_le (by omega) (by omega)]
      rfl
    · rw [JavaText.IsLong] at hlong
      rw [narrowed, Int.bmod_eq_of_le (by omega) (by omega)]
      rfl
    · rfl
  · rfl

section Narrowing

variable {high : ℤ}

/-- The last bits of a whole number. -/
theorem bmod_eq_iff {bits : ℕ} (hbits : bits = 32 ∨ bits = 64) (hhigh : high ≤ 2 ^ (bits - 1) - 1)
    (n v : ℤ) : (n.bmod (2 ^ bits) = v ∧ 1 ≤ v ∧ v ≤ high) ↔
      (n % 2 ^ bits = v ∧ 1 ≤ v ∧ v ≤ high) := by
  rw [Int.bmod_def]
  rcases hbits with rfl | rfl
  · push_cast
    split_ifs
    · exact Iff.rfl
    · omega
  · push_cast
    split_ifs
    · exact Iff.rfl
    · omega

theorem kept_int_iff {bits : ℕ} (hbits : bits = 32 ∨ bits = 64)
    (hhigh : high ≤ 2 ^ (bits - 1) - 1) (n : ℤ) :
    (∀ v, (narrowed bits (.int n) = v ∧ 1 ≤ v ∧ v ≤ high) ↔
      ((v : ℚ) = literalValue (.int n) ∧ 1 ≤ v ∧ v ≤ high)) ↔ Kept bits high (.num (.int n)) := by
  simp only [narrowed, literalValue, Kept, bmod_eq_iff hbits hhigh, Int.cast_inj]
  constructor
  · intro h
    have hself := h (n % 2 ^ bits)
    omega
  · intro h v
    have hmod : 1 ≤ n ∧ n ≤ high → n % 2 ^ bits = n := by
      intro hn
      rcases hbits with rfl | rfl
      · omega
      · omega
    omega

theorem outside_iff {low greatest : ℤ} (hlow : low ≤ 0) (hgreatest : high ≤ greatest)
    (hone : 1 ≤ greatest) (d : Double) :
    Outside high greatest d ↔ ¬ (1 ≤ d.narrow low greatest ∧ d.narrow low greatest ≤ high) := by
  rcases d with q | negative | _
  · rw [Outside, Double.narrow]
    by_cases hq : 1 ≤ q
    · have hfloor : 1 ≤ ⌊q⌋ := Int.le_floor.mpr (by exact_mod_cast hq)
      have hhigh : (high + 1 : ℚ) ≤ q ↔ high + 1 ≤ ⌊q⌋ := by
        rw [Int.le_floor]
        push_cast
        exact Iff.rfl
      rw [if_pos (zero_le_one.trans hq), hhigh, or_iff_right (not_lt.mpr hq)]
      omega
    · rw [not_le] at hq
      have hlt : (if 0 ≤ q then ⌊q⌋ else ⌈q⌉) < 1 := by
        split_ifs with hnonneg
        · exact Int.floor_lt.mpr (by exact_mod_cast hq)
        · exact Int.lt_of_le_of_lt (Int.ceil_le.mpr (by push_cast; linarith)) zero_lt_one
      exact iff_of_true (Or.inl hq) (by omega)
  · rw [Outside, Double.narrow]
    cases negative
    · simp
      omega
    · simp
      omega
  · simp [Outside, Double.narrow]

/-- The greatest long rounds up, and is cut down again. -/
theorem narrow_greatest {bits : ℕ} (hbits : bits = 32 ∨ bits = 64) :
    (Double.ofRat (2 ^ (bits - 1) - 1)).narrow (-2 ^ (bits - 1)) (2 ^ (bits - 1) - 1) =
      2 ^ (bits - 1) - 1 := by
  rcases hbits with rfl | rfl
  · decide +kernel
  · decide +kernel

/-- **Whole numbers as doubles.** Narrowing gives a whole number back if it is a double, or the
greatest one. -/
theorem narrow_whole_iff {bits : ℕ} (hbits : bits = 32 ∨ bits = 64) {n : ℤ} (hone : 1 ≤ n)
    (hn : n ≤ 2 ^ (bits - 1) - 1) :
    (Double.ofRat n).narrow (-2 ^ (bits - 1)) (2 ^ (bits - 1) - 1) = n ↔
      Double.ofRat n = .finite n ∨ (n : ℚ) = 2 ^ (bits - 1) - 1 := by
  have hlow : -2 ^ (bits - 1) ≤ n := by
    have hpow : (0 : ℤ) < 2 ^ (bits - 1) := by positivity
    omega
  have hbound : n < 2 ^ 63 := by rcases hbits with rfl | rfl <;> omega
  constructor
  · intro h
    rcases lt_or_ge n (2 ^ 53) with hsmall | hlarge
    · refine Or.inl (Double.ofRat_intCast ?_)
      rw [abs_of_nonneg (by exact_mod_cast hone.trans' zero_le_one)]
      exact_mod_cast hsmall
    · have hnonneg : (0 : ℚ) ≤ n := by exact_mod_cast hone.trans' zero_le_one
      have hfinite : |(n : ℚ)| < 2 ^ 64 := by
        rw [abs_of_nonneg hnonneg]
        exact (by exact_mod_cast hbound : (n : ℚ) < 2 ^ 63).trans (by norm_num)
      obtain ⟨m, hm⟩ := Doubles.exists_rounded_eq (q := (n : ℚ)) (by
        rw [abs_of_nonneg hnonneg]
        exact_mod_cast hlarge)
      rw [Double.ofRat_eq_finite hfinite, hm] at h ⊢
      rw [Double.narrow, Int.floor_intCast, Int.ceil_intCast, ite_self] at h
      by_cases hle : m ≤ 2 ^ (bits - 1) - 1
      · have hmn : m = n := by omega
        exact Or.inl (by rw [hmn])
      · have hgreatest : n = 2 ^ (bits - 1) - 1 := by omega
        exact Or.inr (by rw [hgreatest]; push_cast; rfl)
  · rintro (h | h)
    · rw [h, Double.narrow_intCast hlow hn]
    · rw [h, narrow_greatest hbits]
      exact_mod_cast h.symm

theorem kept_dec_iff {bits : ℕ} (hbits : bits = 32 ∨ bits = 64)
    (hhigh : high ≤ 2 ^ (bits - 1) - 1) (unscaled : ℤ) (scale : ℕ) :
    (∀ v, (narrowed bits (.dec unscaled scale) = v ∧ 1 ≤ v ∧ v ≤ high) ↔
      ((v : ℚ) = literalValue (.dec unscaled scale) ∧ 1 ≤ v ∧ v ≤ high)) ↔
    Kept bits high (.num (.dec unscaled scale)) := by
  rw [Kept, narrowed]
  generalize literalValue (.dec unscaled scale) = q
  have hone : (1 : ℤ) ≤ 2 ^ (bits - 1) - 1 := by rcases hbits with rfl | rfl <;> norm_num
  by_cases hwhole : ∃ n : ℤ, (n : ℚ) = q ∧ 1 ≤ n ∧ n ≤ high
  · obtain ⟨n, rfl, hn⟩ := hwhole
    have hwhole : ∃ m : ℤ, (m : ℚ) = n ∧ 1 ≤ m ∧ m ≤ high := ⟨n, rfl, hn⟩
    have hnarrow := narrow_whole_iff hbits hn.1 (hn.2.trans hhigh)
    constructor
    · intro h
      exact ⟨fun _ ↦ hnarrow.mp ((h n).mpr ⟨rfl, hn⟩).1, fun hnone ↦ absurd hwhole hnone⟩
    · intro h v
      rw [hnarrow.mpr (h.1 hwhole), Int.cast_inj, eq_comm]
  · simp only [hwhole, false_implies, not_false_eq_true, true_implies, true_and]
    have houtside := @outside_iff high (-2 ^ (bits - 1)) (2 ^ (bits - 1) - 1)
      (neg_nonpos.mpr (by positivity)) hhigh hone (Double.ofRat q)
    rw [houtside]
    constructor
    · intro h hrange
      exact hwhole ⟨_, (h _).mp ⟨rfl, hrange⟩⟩
    · intro h v
      constructor
      · rintro ⟨rfl, hv⟩
        exact absurd hv h
      · intro hv
        exact absurd ⟨v, hv⟩ hwhole

end Narrowing

/-! ## What the parsers take

Every parser reads the node with a number of bits (`Reads`) and checks a range afterwards. A
number is narrowed before the check and a text is not, so that the question is the same for all
of them: for which numbers the narrowed value is the number itself. `takenExactly_iff` answers it
once. -/

/-- A value read with a number of bits: a number is narrowed, the text of one has to fit. -/
def Reads (bits : ℕ) : Json → ℤ → Prop
  | .num number, v => narrowed bits number = v
  | .str text, v =>
    JavaText.parseSigned text.toList = some v ∧ -2 ^ (bits - 1) ≤ v ∧ v ≤ 2 ^ (bits - 1) - 1
  | _, _ => False

theorem takenExactly_iff {bits : ℕ} (hbits : bits = 32 ∨ bits = 64) {high : ℤ}
    (hhigh : high ≤ 2 ^ (bits - 1) - 1) {value : Json} {q : ℚ} (hq : shown value = some q)
    {parsed : Except ExecutorJobException ℤ}
    (hparsed : ∀ v, parsed = .ok v ↔ Reads bits value v ∧ 1 ≤ v ∧ v ≤ high) :
    TakenExactly parsed high q ↔ Kept bits high value := by
  rw [TakenExactly]
  simp only [hparsed]
  rcases value with _ | b | number | text | items | fields
  · cases hq
  · cases hq
  · obtain rfl := Option.some.inj hq
    rcases number with n | ⟨unscaled, scale⟩
    · exact kept_int_iff hbits hhigh n
    · exact kept_dec_iff hbits hhigh unscaled scale
  · -- a text shows what is read, if it fits
    refine iff_of_true (fun v ↦ ?_) trivial
    obtain ⟨n, hn, rfl⟩ := Option.map_eq_some_iff.mp hq
    have hpow : (0 : ℤ) < 2 ^ (bits - 1) := by positivity
    rw [Reads, hn, Option.some_inj, Int.cast_inj]
    constructor
    · rintro ⟨⟨rfl, -⟩, hv⟩
      exact ⟨rfl, hv⟩
    · rintro ⟨rfl, hv⟩
      exact ⟨⟨rfl, by omega, by omega⟩, hv⟩
  · cases hq
  · cases hq

theorem intParameter_eq_ok {value : Json} {key : String} {v : ℤ} :
    intParameter value key = .ok v ↔ Reads 32 value v := by
  rcases value with _ | b | number | text | items | fields
  · exact ⟨nofun, nofun⟩
  · exact ⟨nofun, nofun⟩
  · rw [intParameter, intValue_ofLiteral, Except.ok.injEq, Reads]
  · have hint : ∀ n, parseInt text = some n ↔
        JavaText.parseSigned text.toList = some n ∧ -2 ^ 31 ≤ n ∧ n ≤ 2 ^ 31 - 1 := by
      intro n
      rw [parseInt, Option.filter_eq_some_iff, decide_eq_true_iff]
      exact and_congr_right fun _ ↦ by omega
    rw [intParameter, Reads, ← hint]
    rcases parseInt text with _ | n
    · exact ⟨nofun, nofun⟩
    · rw [Except.ok.injEq, Option.some_inj]
  · exact ⟨nofun, nofun⟩
  · exact ⟨nofun, nofun⟩

theorem range_eq_ok {read : Except ExecutorJobException ℤ} {exception : ExecutorJobException}
    {high v : ℤ} : (do
      let n ← read
      if n < 1 ∨ high < n then .error exception else .ok n) = (.ok v : Except _ ℤ) ↔
    read = .ok v ∧ 1 ≤ v ∧ v ≤ high := by
  rw [bind_eq_ok]
  constructor
  · rintro ⟨n, hread, h⟩
    split_ifs at h with hrange
    obtain rfl := Except.ok.inj h
    exact ⟨hread, by omega, by omega⟩
  · rintro ⟨hread, hv⟩
    exact ⟨v, hread, if_neg (by omega)⟩

theorem checkoutDepth_eq_ok {value : Json} (hvalue : value ≠ .null) {v : ℤ} :
    GitCheckoutParameters.checkoutDepth value = .ok v ↔ Reads 32 value v ∧ 1 ≤ v ∧ v ≤ 100 := by
  rw [← @intParameter_eq_ok value "checkout_depth", ← range_eq_ok]
  rw [GitCheckoutParameters.checkoutDepth]
  · rfl
  · exact hvalue

theorem le_of_reads {bits : ℕ} (hbits : bits = 32 ∨ bits = 64) {value : Json} {v : ℤ}
    (h : Reads bits value v) : v ≤ 2 ^ (bits - 1) - 1 := by
  have hone : (1 : ℤ) ≤ 2 ^ (bits - 1) := one_le_pow₀ one_le_two
  rcases value with _ | b | number | text | items | fields
  · cases h
  · cases h
  · obtain rfl : narrowed bits number = v := h
    rcases number with n | ⟨unscaled, scale⟩
    · rw [narrowed, Int.bmod_def]
      rcases hbits with rfl | rfl
      · push_cast
        omega
      · push_cast
        omega
    · rw [narrowed]
      rcases Double.ofRat (literalValue (.dec unscaled scale)) with q | negative | _
      · rw [Double.narrow]
        omega
      · rw [Double.narrow]
        split_ifs
        · omega
        · exact le_rfl
      · exact sub_nonneg.mpr hone
  · exact h.2.2
  · cases h
  · cases h

theorem positiveInt_eq_ok {value : Json} (hvalue : value ≠ .null) {key : String}
    {defaultValue v : ℤ} : FuzzingParameters.positiveInt value key defaultValue = .ok v ↔
      Reads 32 value v ∧ 1 ≤ v ∧ v ≤ 2 ^ 31 - 1 := by
  have hread := @intParameter_eq_ok value key v
  rw [FuzzingParameters.positiveInt]
  swap
  · exact hvalue
  rw [bind_eq_ok, ← hread]
  constructor
  · rintro ⟨n, hn, h⟩
    obtain ⟨⟨⟩, hpositive, h⟩ := bind_eq_ok.mp h
    obtain rfl := Except.ok.inj h
    rw [FuzzingParameters.requirePositive] at hpositive
    split_ifs at hpositive with hone
    exact ⟨hn, by omega, le_of_reads (Or.inl rfl) (intParameter_eq_ok.mp hn)⟩
  · rintro ⟨hn, hone, -⟩
    exact ⟨v, hn, bind_eq_ok.mpr ⟨(), if_neg (by omega), rfl⟩⟩

theorem positive_of_positiveInt {value : Json} {key : String} {defaultValue n : ℤ}
    (hdefault : 1 ≤ defaultValue)
    (h : FuzzingParameters.positiveInt value key defaultValue = .ok n) : 1 ≤ n := by
  by_cases hvalue : value = .null
  · subst hvalue
    obtain rfl := Except.ok.inj h
    exact hdefault
  · exact ((positiveInt_eq_ok hvalue).mp h).2.1

theorem limits_positive {params : JsonMap} {n : ℤ}
    (h : FuzzingParameters.llmWorkerQueueSize params = .ok n ∨
      FuzzingParameters.llmWorkerCount params = .ok n ∨
      FuzzingParameters.maxCandidateChars params = .ok n ∨
      FuzzingParameters.llmApiTimeoutSeconds params = .ok n) : 1 ≤ n := by
  rcases h with h | h | h | h
  · exact positive_of_positiveInt (by decide) h
  · exact positive_of_positiveInt (by decide) h
  · exact positive_of_positiveInt (by decide) h
  · exact positive_of_positiveInt (by decide) h

theorem budgetSeconds_eq_ok {params : JsonMap} {timeoutSeconds v : ℤ}
    (hvalue : firstValue params ["budget_seconds", "budgetSeconds"] ≠ .null) :
    FuzzingParameters.budgetSeconds params timeoutSeconds = .ok v ↔
      Reads 64 (firstValue params ["budget_seconds", "budgetSeconds"]) v := by
  rw [FuzzingParameters.budgetSeconds, FuzzingParameters.BUDGET_SECONDS_KEY]
  generalize firstValue params ["budget_seconds", "budgetSeconds"] = value at hvalue ⊢
  rcases value with _ | b | number | text | items | fields
  · exact absurd rfl hvalue
  · exact iff_of_false (fun h ↦ by cases h) fun h ↦ by cases h
  · dsimp only
    rw [longValue_ofLiteral, Except.ok.injEq, Reads]
  · have hlong : ∀ n, parseLong text = some n ↔
        JavaText.parseSigned text.toList = some n ∧ -2 ^ 63 ≤ n ∧ n ≤ 2 ^ 63 - 1 := by
      intro n
      rw [parseLong, JavaText.parseLong, Option.filter_eq_some_iff, decide_eq_true_iff,
        JavaText.IsLong]
      exact and_congr_right fun _ ↦ by omega
    dsimp only
    rw [Reads, ← hlong]
    rcases parseLong text with _ | n
    · exact iff_of_false (fun h ↦ by cases h) fun h ↦ by cases h
    · rw [Except.ok.injEq, Option.some_inj]
  · exact iff_of_false (fun h ↦ by cases h) fun h ↦ by cases h
  · exact iff_of_false (fun h ↦ by cases h) fun h ↦ by cases h

theorem budget_eq_ok {params : JsonMap} {timeoutSeconds : Int64}
    (hvalue : firstValue params ["budget_seconds", "budgetSeconds"] ≠ .null) {v : ℤ} :
    FuzzingParameters.budget params timeoutSeconds = .ok v ↔
      Reads 64 (firstValue params ["budget_seconds", "budgetSeconds"]) v ∧ 1 ≤ v ∧
        v ≤ timeoutSeconds.toInt := by
  rw [FuzzingParameters.budget, bind_eq_ok, ← @budgetSeconds_eq_ok _ timeoutSeconds.toInt _ hvalue]
  constructor
  · rintro ⟨n, hn, h⟩
    split_ifs at h with htimeout hone
    obtain rfl := Except.ok.inj h
    exact ⟨hn, by omega, by omega⟩
  · rintro ⟨hn, hone, htimeout⟩
    exact ⟨v, hn, by rw [if_neg (by omega), if_neg (by omega)]⟩

section Port

variable {host user credentialsRef : Option String} {host' user' : String}

theorem targetAt_eq_ok {value : Json} (hvalue : value ≠ .null)
    (hhost : SshBashDeploymentParameters.requireSafeRemoteToken host "target.host" = .ok host')
    (huser : SshBashDeploymentParameters.requireSafeRemoteToken user "target.user" = .ok user')
    {v : ℤ} :
    (SshBashDeploymentParameters.targetAt host user credentialsRef value).map (·.port) = .ok v ↔
      Reads 32 value v ∧ 1 ≤ v ∧ v ≤ 65535 := by
  have hport : (SshBashDeploymentParameters.targetAt host user credentialsRef value).map
      (·.port) = (do
        let port ← intParameter value "port"
        if port < 1 ∨ 65535 < port then
          .error (.validation "target.port должен быть в диапазоне 1..65535")
        else .ok port) := by
    rw [SshBashDeploymentParameters.targetAt, SshBashDeploymentParameters.intValue]
    swap
    · exact hvalue
    rw [SshBashDeploymentParameters.PORT_KEY]
    rcases intParameter value "port" with e | port
    · rfl
    rw [ok_bind, ok_bind, SshBashDeploymentParameters.validateTarget]
    dsimp only
    rw [hhost, ok_bind, huser, ok_bind]
    split_ifs
    · rfl
    · rfl
  rw [hport, range_eq_ok, intParameter_eq_ok]

end Port

/-- **Numeric parameters.** Which numbers are taken exactly, of each parameter. -/
theorem taken_iff (value : Json) (q : ℚ) (hq : shown value = some q) :
    (TakenExactly (GitCheckoutParameters.checkoutDepth value) 100 q ↔ Kept 32 100 value) ∧
    (∀ key defaultValue,
      TakenExactly (FuzzingParameters.positiveInt value key defaultValue) (2 ^ 31 - 1) q ↔
        Kept 32 (2 ^ 31 - 1) value) ∧
    (∀ params (timeoutSeconds : Int64),
      firstValue params ["budget_seconds", "budgetSeconds"] = value →
      (TakenExactly (FuzzingParameters.budget params timeoutSeconds) timeoutSeconds.toInt q ↔
        Kept 64 timeoutSeconds.toInt value)) ∧
    ∀ host user credentialsRef host' user',
      SshBashDeploymentParameters.requireSafeRemoteToken host "target.host" = .ok host' →
      SshBashDeploymentParameters.requireSafeRemoteToken user "target.user" = .ok user' →
      (TakenExactly
        ((SshBashDeploymentParameters.targetAt host user credentialsRef value).map (·.port))
        65535 q ↔ Kept 32 65535 value) := by
  have hvalue : value ≠ .null := by
    rintro rfl
    cases hq
  refine ⟨?_, fun key defaultValue ↦ ?_, ?_, ?_⟩
  · exact takenExactly_iff (Or.inl rfl) (by norm_num) hq fun v ↦ checkoutDepth_eq_ok hvalue
  · exact takenExactly_iff (Or.inl rfl) le_rfl hq fun v ↦ positiveInt_eq_ok hvalue
  · rintro params timeoutSeconds rfl
    have hlong := timeoutSeconds.toInt_lt
    exact takenExactly_iff (Or.inr rfl) (by omega) hq fun v ↦ budget_eq_ok hvalue
  · intro host user credentialsRef host' user' hhost huser
    exact takenExactly_iff (Or.inl rfl) (by norm_num) hq fun v ↦
      targetAt_eq_ok hvalue hhost huser

/-- The depth `5.0` is taken for five, and `2 ^ 32 + 200` is refused, though not for its value: its
last bits are those of two hundred. -/
theorem taken_five :
    TakenExactly (GitCheckoutParameters.checkoutDepth (.num (.dec 50 1))) 100 5 ∧
      TakenExactly (GitCheckoutParameters.checkoutDepth (.num (.int 4294967496))) 100
        4294967496 := by
  have hliteral : literalValue (.dec 50 1) = 5 := by norm_num [literalValue]
  refine ⟨(taken_iff (.num (.dec 50 1)) 5 (congrArg some hliteral)).1.mpr ⟨fun _ ↦ ?_, fun h ↦ ?_⟩,
    (taken_iff (.num (.int 4294967496)) 4294967496 rfl).1.mpr (Or.inr (Or.inr (by decide)))⟩
  · have hdouble : Double.ofRat ((5 : ℤ) : ℚ) = .finite ((5 : ℤ) : ℚ) :=
      Double.ofRat_intCast (by norm_num)
    rw [hliteral]
    exact Or.inl hdouble
  · exact absurd ⟨5, by rw [hliteral]; rfl, by decide, by decide⟩ h

/-- The depth `2 ^ 32 + 1` is taken for one. -/
theorem not_takenExactly : ¬ ∀ value q, shown value = some q →
    TakenExactly (GitCheckoutParameters.checkoutDepth value) 100 q := by
  intro h
  have hone := (h (.num (.int 4294967297)) 4294967297 rfl 1).mp rfl
  exact absurd hone.1 (by norm_num)

end FuzzingCiCd.Executor
