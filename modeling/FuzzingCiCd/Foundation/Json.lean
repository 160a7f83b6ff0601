import FuzzingCiCd.Foundation.Text
import Mathlib.Algebra.Group.Int.Defs
import Mathlib.Algebra.Group.Nat.Defs
import Mathlib.Logic.Equiv.Nat

/-!
# JSON trees and data binding

A JSON tree, and the binding of trees to typed values as Jackson does it with its default
features: record components are looked up by property name, a missing property binds like an
explicit `null`, unknown properties are ignored, scalars are coerced where the library coerces
them, and any other mismatch of kinds is an error.

The text forms of library types such as a UUID or a timestamp are not spelled out. A `TextCodec`
packages a formatter and a parser with the one law data binding relies on, that parsing a
formatted value gives it back; everything about messages is proved for every codec.
-/

/-- A JSON number literal: an integer, or a decimal `unscaled * 10 ^ (-scale)`. -/
inductive JsonNumber where
  | int (n : ℤ)
  | dec (unscaled : ℤ) (scale : ℕ)
  deriving DecidableEq

/-- A JSON tree. The fields of an object are kept in document order. -/
inductive Json where
  | null
  | bool (b : Bool)
  | num (n : JsonNumber)
  | str (s : String)
  | arr (items : List Json)
  | obj (fields : List (String × Json))

/-- `Map<String, Object>`, in iteration order. -/
abbrev JsonMap := List (String × Json)

namespace Json

instance : Inhabited Json := ⟨.null⟩

/-! ## Decidable equality

The derive handlers stop at nested inductive types, so equality is decided by the evident mutual
recursion. -/

mutual

/-- Structural equality of trees. -/
def beq : Json → Json → Bool
  | .null, .null => true
  | .bool a, .bool b => a = b
  | .num a, .num b => a = b
  | .str a, .str b => a = b
  | .arr xs, .arr ys => beqItems xs ys
  | .obj xs, .obj ys => beqFields xs ys
  | _, _ => false

def beqItems : List Json → List Json → Bool
  | [], [] => true
  | x :: xs, y :: ys => beq x y && beqItems xs ys
  | _, _ => false

def beqFields : JsonMap → JsonMap → Bool
  | [], [] => true
  | (k, x) :: xs, (l, y) :: ys => k = l && beq x y && beqFields xs ys
  | _, _ => false

end

mutual

theorem eq_of_beq : ∀ {a b : Json}, beq a b = true → a = b
  | .null, b, h => by cases b <;> simp_all [beq]
  | .bool _, b, h => by cases b <;> simp_all [beq]
  | .num _, b, h => by cases b <;> simp_all [beq]
  | .str _, b, h => by cases b <;> simp_all [beq]
  | .arr xs, b, h => by
    cases b with
    | arr ys =>
      rw [beq] at h
      rw [eq_of_beqItems h]
    | _ => simp [beq] at h
  | .obj xs, b, h => by
    cases b with
    | obj ys =>
      rw [beq] at h
      rw [eq_of_beqFields h]
    | _ => simp [beq] at h

theorem eq_of_beqItems : ∀ {xs ys : List Json}, beqItems xs ys = true → xs = ys
  | [], ys, h => by cases ys <;> simp_all [beqItems]
  | x :: xs, ys, h => by
    cases ys with
    | nil => simp [beqItems] at h
    | cons y ys =>
      rw [beqItems, Bool.and_eq_true] at h
      rw [eq_of_beq h.1, eq_of_beqItems h.2]

theorem eq_of_beqFields : ∀ {xs ys : JsonMap}, beqFields xs ys = true → xs = ys
  | [], ys, h => by cases ys <;> simp_all [beqFields]
  | (k, x) :: xs, ys, h => by
    cases ys with
    | nil => simp [beqFields] at h
    | cons y ys =>
      obtain ⟨l, y⟩ := y
      rw [beqFields, Bool.and_eq_true, Bool.and_eq_true, decide_eq_true_iff] at h
      rw [h.1.1, eq_of_beq h.1.2, eq_of_beqFields h.2]

end

mutual

theorem beq_refl : ∀ a : Json, beq a a = true
  | .null => by rw [beq]
  | .bool _ => by simp [beq]
  | .num _ => by simp [beq]
  | .str _ => by simp [beq]
  | .arr xs => by rw [beq, beqItems_refl xs]
  | .obj xs => by rw [beq, beqFields_refl xs]

theorem beqItems_refl : ∀ xs : List Json, beqItems xs xs = true
  | [] => by rw [beqItems]
  | x :: xs => by rw [beqItems, beq_refl x, beqItems_refl xs, Bool.and_self]

theorem beqFields_refl : ∀ xs : JsonMap, beqFields xs xs = true
  | [] => by rw [beqFields]
  | (k, x) :: xs => by
    rw [beqFields, beq_refl x, beqFields_refl xs, Bool.and_true, Bool.and_true]
    exact decide_eq_true rfl

end

instance : DecidableEq Json := fun a b ↦
  if h : beq a b = true then isTrue (eq_of_beq h)
  else isFalse fun e ↦ h (e ▸ beq_refl a)

/-! ## Building and reading objects -/

/-- `JsonNode.get(key)`; an object of a stored document has each key once. -/
def get? (key : String) : Json → Option Json
  | .obj fields => (fields.find? fun f ↦ f.1 = key).map Prod.snd
  | _ => none

/-- `JsonNode.path(key).asBoolean(false)`: a text counts only when it spells a boolean. -/
def pathAsBoolean (key : String) (j : Json) : Bool :=
  match j.get? key with
  | some (.bool b) => b
  | some (.num (.int n)) => n ≠ 0
  | some (.num (.dec u _)) => u ≠ 0
  | some (.str s) => JavaText.trim s.toList = "true".toList
  | _ => false

/-- The value bound to a property: a missing one binds like `null`. -/
def property (fields : JsonMap) (key : String) : Json :=
  ((fields.find? fun f ↦ f.1 = key).map Prod.snd).getD .null

@[simp] theorem property_cons_self (k : String) (v : Json) (fields : JsonMap) :
    property ((k, v) :: fields) k = v := by
  simp [property]

theorem property_cons_ne {k l : String} (v : Json) (fields : JsonMap) (h : l ≠ k) :
    property ((l, v) :: fields) k = property fields k := by
  simp [property, h]

@[simp] theorem property_nil (k : String) : property [] k = .null := rfl

/-- `LinkedHashMap.put`: a key that is there keeps its place. -/
def put (fields : JsonMap) (key : String) (value : Json) : JsonMap :=
  if fields.any fun f ↦ f.1 = key then fields.map fun f ↦ if f.1 = key then (key, value) else f
  else fields ++ [(key, value)]

/-- A nullable value as JSON. -/
def ofOption {α : Type*} (f : α → Json) : Option α → Json
  | none => .null
  | some a => f a

@[simp] theorem ofOption_none {α : Type*} (f : α → Json) : ofOption f none = .null := rfl

@[simp] theorem ofOption_some {α : Type*} (f : α → Json) (a : α) : ofOption f (some a) = f a := rfl

end Json

/-! ## Text codecs -/

/-- A textual form of a library type, with the round-trip law of its formatter and parser. -/
structure TextCodec (α : Type*) where
  /-- `toString`. -/
  format : α → String
  /-- The parser of the text form. -/
  parse : String → Option α
  /-- Parsing a formatted value gives the value back. -/
  parse_format : ∀ a, parse (format a) = some a

namespace TextCodec

/-- A codec that writes a value as a run of strokes, from a numbering of the values. -/
def strokes {α : Type*} (number : α → ℕ) (value : ℕ → Option α)
    (h : ∀ a, value (number a) = some a) : TextCodec α where
  format a := String.ofList (List.replicate (number a) '|')
  parse s := value s.length
  parse_format a := by simp [h]

/-- Integers in strokes. -/
def intStrokes : TextCodec ℤ :=
  strokes Equiv.intEquivNat (fun n ↦ some (Equiv.intEquivNat.symm n)) (by simp)

end TextCodec

/-- What a decoder reports: the kind of value it wanted. -/
inductive MismatchedInput where
  | expected (kind : String)
  deriving DecidableEq

/-- A binding of JSON trees to a type. -/
abbrev Decoder (α : Type*) := Json → Except MismatchedInput α

namespace Decoder

/-! ## Scalars

The coercions of Jackson with its default features: every scalar is accepted as a text, an
integer may come as a number with a fraction, which is cut off, or as a text, and `null` and
blank texts are the default of a primitive. -/

/-- A reference-typed value: `null` is absent. -/
def nullable {α : Type*} (d : Decoder α) : Decoder (Option α)
  | .null => .ok none
  | j => (d j).map some

@[simp] theorem nullable_null {α : Type*} (d : Decoder α) : nullable d .null = .ok none := rfl

theorem nullable_of_ne {α : Type*} (d : Decoder α) {j : Json} (h : j ≠ .null) :
    nullable d j = (d j).map some := by
  cases j with
  | null => exact absurd rfl h
  | _ => rfl

/-- Binding a nullable value that was written by an encoder the decoder inverts. -/
theorem nullable_ofOption {α : Type*} {d : Decoder α} {f : α → Json}
    (hd : ∀ a, d (f a) = .ok a) (hf : ∀ a, f a ≠ .null) (o : Option α) :
    nullable d (Json.ofOption f o) = .ok o := by
  cases o with
  | none => rfl
  | some a => rw [Json.ofOption_some, nullable_of_ne d (hf a), hd]; rfl

/-- The text of a number token. -/
def numberText : JsonNumber → String
  | .int n => toString n
  | .dec u s =>
    let digits := (toString u.natAbs).toList
    let padded := List.replicate (s + 1 - digits.length) '0' ++ digits
    (if u < 0 then "-" else "") ++ String.ofList (padded.take (padded.length - s)) ++ "." ++
      String.ofList (padded.drop (padded.length - s))

/-- `JsonNode.asText()`: the text of a scalar, and nothing for a container. -/
def asText : Json → String
  | .str s => s
  | .num n => numberText n
  | .bool b => if b then "true" else "false"
  | .null => "null"
  | _ => ""

/-- `StringDeserializer`: every scalar token is accepted by its text. -/
def string : Decoder String
  | .str s => .ok s
  | .num n => .ok (numberText n)
  | .bool b => .ok (if b then "true" else "false")
  | _ => .error (.expected "string")

@[simp] theorem string_str (s : String) : string (.str s) = .ok s := rfl

/-- A value written as text in the given form. -/
def text {α : Type*} (c : TextCodec α) : Decoder α
  | .str s => match c.parse s with
    | some a => .ok a
    | none => .error (.expected "text form")
  | _ => .error (.expected "text form")

@[simp] theorem text_format {α : Type*} (c : TextCodec α) (a : α) :
    text c (.str (c.format a)) = .ok a := by
  rw [text, c.parse_format]

@[simp] theorem nullable_str (s : String) : nullable string (.str s) = .ok (some s) := rfl

@[simp] theorem nullable_format {α : Type*} (c : TextCodec α) (a : α) :
    nullable (text c) (.str (c.format a)) = .ok (some a) := by
  rw [nullable_of_ne _ (by simp), text_format]
  rfl

private def digitValue (ch : Char) : Option ℕ :=
  if '0' ≤ ch ∧ ch ≤ '9' then some (ch.toNat - '0'.toNat) else none

private def parseDigits : ℕ → List Char → Option ℕ
  | acc, [] => some acc
  | acc, ch :: cs => (digitValue ch).bind fun d ↦ parseDigits (10 * acc + d) cs

/-- An optionally signed decimal integer. -/
def parseInteger : List Char → Option ℤ
  | [] => none
  | '-' :: c :: cs => (parseDigits 0 (c :: cs)).map fun n ↦ -(n : ℤ)
  | '+' :: c :: cs => (parseDigits 0 (c :: cs)).map fun n ↦ (n : ℤ)
  | cs => (parseDigits 0 cs).map fun n ↦ (n : ℤ)

/-- A number as an integer: a fraction is truncated towards zero. -/
def truncate : JsonNumber → ℤ
  | .int n => n
  | .dec u s => u.tdiv (10 ^ s)

/-- The range check of a two's complement type. -/
def inRange (bits : ℕ) (n : ℤ) : Except MismatchedInput (Option ℤ) :=
  if -(2 ^ (bits - 1)) ≤ n ∧ n < 2 ^ (bits - 1) then .ok (some n)
  else .error (.expected "number in range")

/-- A boxed integer of the given bit width. A blank text is `null`. -/
def integer (bits : ℕ) : Decoder (Option ℤ)
  | .null => .ok none
  | .num n => inRange bits (truncate n)
  | .str s =>
    let cs := JavaText.trim s.toList
    if cs = [] ∨ cs = "null".toList then .ok none else
    match parseInteger cs with
    | some n => inRange bits n
    | none => .error (.expected "number")
  | _ => .error (.expected "number")

/-- A primitive integer: `null` is zero. -/
def primitiveInteger (bits : ℕ) : Decoder ℤ := fun j ↦ (integer bits j).map fun n ↦ n.getD 0

theorem integer_int {bits : ℕ} {n : ℤ} (hlo : -(2 ^ (bits - 1)) ≤ n) (hhi : n < 2 ^ (bits - 1)) :
    integer bits (.num (.int n)) = .ok (some n) := by
  rw [integer, truncate, inRange, if_pos ⟨hlo, hhi⟩]

theorem primitiveInteger_int {bits : ℕ} {n : ℤ} (hlo : -(2 ^ (bits - 1)) ≤ n)
    (hhi : n < 2 ^ (bits - 1)) : primitiveInteger bits (.num (.int n)) = .ok n := by
  rw [primitiveInteger, integer_int hlo hhi]
  rfl

/-- `Integer`. -/
def boxedInt32 : Decoder (Option Int32) := fun j ↦ (integer 32 j).map (Option.map Int32.ofInt)

/-- `int`. -/
def int32 : Decoder Int32 := fun j ↦ (primitiveInteger 32 j).map Int32.ofInt

/-- `Long`. -/
def boxedInt64 : Decoder (Option Int64) := fun j ↦ (integer 64 j).map (Option.map Int64.ofInt)

/-- `long`. -/
def int64 : Decoder Int64 := fun j ↦ (primitiveInteger 64 j).map Int64.ofInt

@[simp] theorem int32_toInt (n : Int32) : int32 (.num (.int n.toInt)) = .ok n := by
  rw [int32, primitiveInteger_int n.le_toInt n.toInt_lt]
  simp [Except.map]

@[simp] theorem boxedInt64_ofOption (o : Option Int64) :
    boxedInt64 (Json.ofOption (fun n ↦ .num (.int n.toInt)) o) = .ok o := by
  cases o with
  | none => rfl
  | some n =>
    rw [Json.ofOption_some, boxedInt64, integer_int n.le_toInt n.toInt_lt]
    simp [Except.map]

theorem primitiveInteger_nat {bits n : ℕ} : primitiveInteger bits (.num (.int n)) =
    if n < 2 ^ (bits - 1) then .ok (n : ℤ) else .error (.expected "number in range") := by
  by_cases h : n < 2 ^ (bits - 1)
  · have hpow : (0 : ℤ) < 2 ^ (bits - 1) := Int.pow_pos (by decide)
    rw [if_pos h, primitiveInteger_int (by omega) (by exact_mod_cast h)]
  · have hout : ¬ (-(2 ^ (bits - 1)) ≤ (n : ℤ) ∧ (n : ℤ) < 2 ^ (bits - 1)) :=
      fun hand ↦ h (by exact_mod_cast hand.2)
    rw [if_neg h, primitiveInteger, integer, truncate, inRange, if_neg hout]
    rfl

theorem int32_nat (n : ℕ) : int32 (.num (.int n)) =
    if n < 2 ^ 31 then .ok (Int32.ofInt n) else .error (.expected "number in range") := by
  rw [int32, primitiveInteger_nat]
  by_cases h : n < 2 ^ (32 - 1)
  · rw [if_pos h, if_pos h]
    rfl
  · rw [if_neg h, if_neg h]
    rfl

theorem int64_nat (n : ℕ) : int64 (.num (.int n)) =
    if n < 2 ^ 63 then .ok (Int64.ofInt n) else .error (.expected "number in range") := by
  rw [int64, primitiveInteger_nat]
  by_cases h : n < 2 ^ (64 - 1)
  · rw [if_pos h, if_pos h]
    rfl
  · rw [if_neg h, if_neg h]
    rfl

/-- A boxed boolean: an integer is true unless zero, and a blank text is `null`. -/
def boolean : Decoder (Option Bool)
  | .null => .ok none
  | .bool b => .ok (some b)
  | .num (.int n) => .ok (some (n ≠ 0))
  | .str s =>
    let cs := JavaText.trim s.toList
    if cs = [] ∨ cs = "null".toList then .ok none
    else if cs = "true".toList ∨ cs = "True".toList ∨ cs = "TRUE".toList then .ok (some true)
    else if cs = "false".toList ∨ cs = "False".toList ∨ cs = "FALSE".toList then .ok (some false)
    else .error (.expected "boolean")
  | _ => .error (.expected "boolean")

/-- A primitive boolean: `null` is false. -/
def primitiveBoolean : Decoder Bool := fun j ↦ (boolean j).map fun b ↦ b.getD false

/-- An enumeration with a creator from its wire text. -/
def enum {α : Type*} (fromWireValue : String → Option α) : Decoder α := fun j ↦
  (string j).bind fun s ↦ match fromWireValue s with
    | some a => .ok a
    | none => .error (.expected "enumeration constant")

/-! ## Containers -/

/-- `Map<String, Object>`: an object, whose values stay untyped. -/
def map : Decoder JsonMap
  | .obj fields => .ok fields
  | _ => .error (.expected "object")

@[simp] theorem map_obj (fields : JsonMap) : map (.obj fields) = .ok fields := rfl

@[simp] theorem map_str (s : String) : map (.str s) = .error (.expected "object") := rfl

/-- Binds every item of a list, failing at the first that does not bind. -/
def items {α : Type*} (d : Decoder α) : List Json → Except MismatchedInput (List α)
  | [] => .ok []
  | j :: js => (d j).bind fun a ↦ (items d js).map fun as ↦ a :: as

/-- `List<T>`: an array. -/
def list {α : Type*} (d : Decoder α) : Decoder (List α)
  | .arr js => items d js
  | _ => .error (.expected "array")

theorem items_map {α β : Type*} {d : Decoder α} {f : β → Json} {g : β → α}
    (h : ∀ b, d (f b) = .ok (g b)) (bs : List β) : items d (bs.map f) = .ok (bs.map g) := by
  induction bs with
  | nil => rfl
  | cons b bs ih => rw [List.map_cons, items, h b, ih]; rfl

end Decoder
