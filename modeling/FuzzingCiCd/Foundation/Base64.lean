import Mathlib.Data.List.Basic

/-!
# Base64 for URLs

The encoding that `Base64.getUrlEncoder().withoutPadding()` writes and `Base64.getUrlDecoder()`
reads. Three octets are four digits of six bits; one or two octets at the end are two or three
digits, and the padding that would fill them up is read but not written. The decoder does not look
at the bits that are left over.

`decode_encode` is the round trip.
-/

namespace Base64

/-! ## Digits -/

/-- The digits from 0 to 63. -/
def alphabet : List Char :=
  "ABCDEFGHIJKLMNOPQRSTUVWXYZabcdefghijklmnopqrstuvwxyz0123456789-_".toList

def toDigit (n : ℕ) : Char := alphabet.getD n 'A'

/-- The value of a digit. -/
def ofDigit (ch : Char) : Option ℕ := alphabet.findIdx? fun digit ↦ digit = ch

theorem ofDigit_toDigit {n : ℕ} (h : n < 64) : ofDigit (toDigit n) = some n := by
  have hall : ∀ n < 64, ofDigit (toDigit n) = some n := by decide +kernel
  exact hall n h

theorem toDigit_ne_pad {n : ℕ} (h : n < 64) : toDigit n ≠ '=' := by
  have hall : ∀ n < 64, toDigit n ≠ '=' := by decide +kernel
  exact hall n h

/-! ## Octets -/

/-- The digits of a sequence of octets. -/
def digits : List UInt8 → List ℕ
  | a :: b :: c :: rest =>
    a.toNat / 4 :: (a.toNat % 4 * 16 + b.toNat / 16) :: (b.toNat % 16 * 4 + c.toNat / 64) ::
      c.toNat % 64 :: digits rest
  | [a, b] => [a.toNat / 4, a.toNat % 4 * 16 + b.toNat / 16, b.toNat % 16 * 4]
  | [a] => [a.toNat / 4, a.toNat % 4 * 16]
  | [] => []

def encode (octets : List UInt8) : List Char := (digits octets).map toDigit

/-- The first, second and third octet of a group of four digits. -/
def first (p q : ℕ) : UInt8 := .ofNat (p * 4 + q / 16)

def second (q r : ℕ) : UInt8 := .ofNat (q % 16 * 16 + r / 4)

def third (r s : ℕ) : UInt8 := .ofNat (r % 4 * 64 + s)

/-- The octets of a text, if it is one of digits, with or without padding. -/
def decode : List Char → Option (List UInt8)
  | [] => some []
  | [p, q] | [p, q, '=', '='] => do
    let p ← ofDigit p
    let q ← ofDigit q
    return [first p q]
  | [p, q, r] | [p, q, r, '='] => do
    let p ← ofDigit p
    let q ← ofDigit q
    let r ← ofDigit r
    return [first p q, second q r]
  | p :: q :: r :: s :: rest => do
    let p ← ofDigit p
    let q ← ofDigit q
    let r ← ofDigit r
    let s ← ofDigit s
    let octets ← decode rest
    return first p q :: second q r :: third r s :: octets
  | _ => none

/-! ## The round trip -/

section Digits

variable {p q r s : ℕ}

theorem decode_pair (hp : p < 64) (hq : q < 64) :
    decode [toDigit p, toDigit q] = some [first p q] := by
  rw [decode, ofDigit_toDigit hp, ofDigit_toDigit hq]
  rfl

theorem decode_triple (hp : p < 64) (hq : q < 64) (hr : r < 64) :
    decode [toDigit p, toDigit q, toDigit r] = some [first p q, second q r] := by
  rw [decode, ofDigit_toDigit hp, ofDigit_toDigit hq, ofDigit_toDigit hr]
  rfl

theorem decode_group (hp : p < 64) (hq : q < 64) (hr : r < 64) (hs : s < 64) (rest : List Char) :
    decode (toDigit p :: toDigit q :: toDigit r :: toDigit s :: rest) =
      (decode rest).map fun octets ↦ first p q :: second q r :: third r s :: octets := by
  rw [decode]
  · rw [ofDigit_toDigit hp, ofDigit_toDigit hq, ofDigit_toDigit hr, ofDigit_toDigit hs]
    cases decode rest <;> rfl
  · exact fun h _ _ ↦ toDigit_ne_pad hr h
  · exact fun h _ ↦ toDigit_ne_pad hs h

end Digits

section RoundTrip

variable (a b c : UInt8)

theorem first_digits : first (a.toNat / 4) (a.toNat % 4 * 16 + b.toNat / 16) = a := by
  have hb := b.toNat_lt
  rw [first, ← UInt8.toNat_inj, UInt8.toNat_ofNat']
  have ha := a.toNat_lt
  omega

theorem first_digits_last : first (a.toNat / 4) (a.toNat % 4 * 16) = a :=
  first_digits a 0

theorem second_digits :
    second (a.toNat % 4 * 16 + b.toNat / 16) (b.toNat % 16 * 4 + c.toNat / 64) = b := by
  have hc := c.toNat_lt
  rw [second, ← UInt8.toNat_inj, UInt8.toNat_ofNat']
  have hb := b.toNat_lt
  omega

theorem second_digits_last :
    second (a.toNat % 4 * 16 + b.toNat / 16) (b.toNat % 16 * 4) = b :=
  second_digits a b 0

theorem third_digits : third (b.toNat % 16 * 4 + c.toNat / 64) (c.toNat % 64) = c := by
  have hc := c.toNat_lt
  rw [third, ← UInt8.toNat_inj, UInt8.toNat_ofNat']
  omega

/-- **The round trip.** What is written reads back. -/
theorem decode_encode (octets : List UInt8) : decode (encode octets) = some octets := by
  rw [encode]
  induction octets using digits.induct with
  | case1 a b c rest ih =>
    have ha := a.toNat_lt
    have hb := b.toNat_lt
    have hc := c.toNat_lt
    rw [digits, List.map_cons, List.map_cons, List.map_cons, List.map_cons,
      decode_group (by omega) (by omega) (by omega) (by omega), ih, first_digits, second_digits,
      third_digits]
    rfl
  | case2 a b =>
    have ha := a.toNat_lt
    have hb := b.toNat_lt
    rw [digits, List.map_cons, List.map_cons, List.map_cons, List.map_nil,
      decode_triple (by omega) (by omega) (by omega), first_digits, second_digits_last]
  | case3 a =>
    have ha := a.toNat_lt
    rw [digits, List.map_cons, List.map_cons, List.map_nil,
      decode_pair (by omega) (by omega), first_digits_last]
  | case4 => rfl

end RoundTrip

theorem mem_alphabet_of_mem_encode {octets : List UInt8} {ch : Char} (h : ch ∈ encode octets) :
    ch ∈ alphabet := by
  rw [encode] at h
  obtain ⟨n, -, rfl⟩ := List.mem_map.mp h
  rw [toDigit, List.getD_eq_getElem?_getD]
  rcases hn : alphabet[n]? with _ | digit
  · decide
  · exact List.mem_of_getElem? hn

theorem encode_ne_nil {octets : List UInt8} (h : octets ≠ []) : encode octets ≠ [] := by
  rw [encode]
  rcases octets with _ | ⟨a, _ | ⟨b, _ | ⟨c, rest⟩⟩⟩
  · exact absurd rfl h
  all_goals
    rw [digits]
    exact List.cons_ne_nil _ _

end Base64
