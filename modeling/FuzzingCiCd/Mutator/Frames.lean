import FuzzingCiCd.Foundation.PrefixCodes
import Mathlib.Data.Nat.Bitwise
import Mathlib.Data.UInt

/-!
# What the mutator and its worker write

The custom mutator of the fuzzer and the worker that prepares candidates for it talk over a byte
stream. The mutator writes operations: one byte asks for a candidate, and another one, a length and
a payload report an input that the fuzzer has kept. The worker answers a request with a length
and a candidate; the length is zero when it has none.

Both programs write lengths with four bytes, the most significant first, each in its own way. The
operations form a prefix code, and so do the answers, as far as their lengths fit.

## Main results

* `toBytes_eq`, `payloadLen_eq`: both programs write and read a length in the same way.
-/

namespace FuzzingCiCd.Mutator

open PrefixCode

abbrev Bytes := List UInt8

/-! ## Lengths -/

/-- The bytes `(len >> 24) & 0xff`, …, `len & 0xff` of the mutator. -/
def header (len : ℕ) : Bytes :=
  [UInt8.ofNat (len >>> 24 &&& 0xff), UInt8.ofNat (len >>> 16 &&& 0xff),
    UInt8.ofNat (len >>> 8 &&& 0xff), UInt8.ofNat (len &&& 0xff)]

/-- The length that the mutator reads from a header, which has four bytes. -/
def payloadLen : Bytes → ℕ
  | [b₀, b₁, b₂, b₃] => b₀.toNat <<< 24 ||| b₁.toNat <<< 16 ||| b₂.toNat <<< 8 ||| b₃.toNat
  | _ => 0

/-- `int.to_bytes(4, "big")`, which raises when the number is too large. -/
def toBytes (n : ℕ) : Option Bytes :=
  if n < 256 ^ 4 then
    some [UInt8.ofNat (n / 256 ^ 3), UInt8.ofNat (n / 256 ^ 2), UInt8.ofNat (n / 256),
      UInt8.ofNat n]
  else none

/-- `int.from_bytes(raw, "big")`. -/
def fromBytes (raw : Bytes) : ℕ := raw.foldl (fun n b ↦ n * 256 + b.toNat) 0

theorem header_eq (len : ℕ) : header len =
    [UInt8.ofNat (len / 256 ^ 3), UInt8.ofNat (len / 256 ^ 2), UInt8.ofNat (len / 256),
      UInt8.ofNat len] := by
  have hmask : ∀ n, UInt8.ofNat (n &&& 0xff) = UInt8.ofNat n := by
    intro n
    rw [show 0xff = 2 ^ 8 - 1 from rfl, Nat.and_two_pow_sub_one_eq_mod, ← UInt8.toNat_inj]
    simp
  simp only [header, hmask, Nat.shiftRight_eq_div_pow]
  rfl

/-- Both programs write the same four bytes. -/
theorem toBytes_eq {n : ℕ} (h : n < 256 ^ 4) : toBytes n = some (header n) := by
  rw [toBytes, if_pos h, header_eq]

theorem fromBytes_four (b₀ b₁ b₂ b₃ : UInt8) : fromBytes [b₀, b₁, b₂, b₃] =
    b₀.toNat * 256 ^ 3 + b₁.toNat * 256 ^ 2 + b₂.toNat * 256 + b₃.toNat := by
  simp only [fromBytes, List.foldl]
  omega

theorem shiftLeft_or (a i : ℕ) {b : ℕ} (h : b < 2 ^ 8) :
    a <<< (8 + i) ||| b <<< i = (a * 256 + b) <<< i := by
  rw [Nat.shiftLeft_add, ← Nat.shiftLeft_or_distrib, ← Nat.shiftLeft_add_eq_or_of_lt h,
    Nat.shiftLeft_eq a 8]

/-- Both programs read the same length. -/
theorem payloadLen_eq {hdr : Bytes} (h : hdr.length = 4) : payloadLen hdr = fromBytes hdr := by
  obtain ⟨b₀, b₁, b₂, b₃, rfl⟩ := List.length_eq_four.mp h
  have h₁ := b₁.toNat_lt
  have h₂ := b₂.toNat_lt
  have h₃ := b₃.toNat_lt
  rw [payloadLen, fromBytes_four, shiftLeft_or _ 16 h₁, shiftLeft_or _ 8 h₂,
    ← Nat.shiftLeft_add_eq_or_of_lt h₃, Nat.shiftLeft_eq]
  omega

theorem fromBytes_lt {raw : Bytes} (h : raw.length = 4) : fromBytes raw < 256 ^ 4 := by
  obtain ⟨b₀, b₁, b₂, b₃, rfl⟩ := List.length_eq_four.mp h
  have h₀ := b₀.toNat_lt
  have h₁ := b₁.toNat_lt
  have h₂ := b₂.toNat_lt
  have h₃ := b₃.toNat_lt
  rw [fromBytes_four]
  omega

theorem fromBytes_header {n : ℕ} (h : n < 256 ^ 4) : fromBytes (header n) = n := by
  rw [header_eq, fromBytes_four]
  simp only [UInt8.toNat_ofNat']
  omega

theorem header_fromBytes {raw : Bytes} (h : raw.length = 4) : header (fromBytes raw) = raw := by
  obtain ⟨b₀, b₁, b₂, b₃, rfl⟩ := List.length_eq_four.mp h
  have h₀ := b₀.toNat_lt
  have h₁ := b₁.toNat_lt
  have h₂ := b₂.toNat_lt
  have h₃ := b₃.toNat_lt
  rw [header_eq, fromBytes_four]
  simp only [List.cons.injEq, and_true, ← UInt8.toNat_inj, UInt8.toNat_ofNat']
  omega

/-! ## Answers -/

/-- The length and the bytes of a candidate. -/
def answer (candidate : Bytes) : Bytes := header candidate.length ++ candidate

/-- The length of the candidate fits into the header. -/
def Short (candidate : Bytes) : Prop := candidate.length < 256 ^ 4

theorem short_nil : Short [] := by
  rw [Short]
  decide

theorem isPrefixCode_answer : IsPrefixCode Short answer := by
  intro a b ha hb hpre
  have hheader : header a.length = header b.length := by
    have := List.prefix_of_prefix_length_le
      ((List.prefix_append (header a.length) a).trans hpre)
      (List.prefix_append (header b.length) b) (Nat.le_refl 4)
    exact this.eq_of_length rfl
  have hlength : a.length = b.length := by
    rw [← fromBytes_header ha, hheader, fromBytes_header hb]
  rw [answer, answer, hheader, List.prefix_append_right_inj] at hpre
  exact hpre.eq_of_length hlength

/-- What a reader that trusts the header has read is a part of an answer. -/
theorem prefix_answer {hdr body : Bytes} (h : hdr.length = 4)
    (hbody : body.length ≤ fromBytes hdr) :
    ∃ candidate, Short candidate ∧ hdr ++ body <+: answer candidate := by
  have hlength : (body ++ List.replicate (fromBytes hdr - body.length) 0).length =
      fromBytes hdr := by
    rw [List.length_append, List.length_replicate]
    omega
  refine ⟨body ++ List.replicate (fromBytes hdr - body.length) 0, ?_, ?_⟩
  · rw [Short, hlength]
    exact fromBytes_lt h
  · rw [answer, hlength, header_fromBytes h, List.prefix_append_right_inj]
    exact List.prefix_append _ _

theorem prefix_answer_of_le {got : Bytes} (h : got.length ≤ 4) :
    ∃ candidate, Short candidate ∧ got <+: answer candidate := by
  obtain ⟨candidate, hshort, hpre⟩ :=
    @prefix_answer (got ++ List.replicate (4 - got.length) 0) []
      (by rw [List.length_append, List.length_replicate]; omega) (Nat.zero_le _)
  rw [List.append_nil] at hpre
  exact ⟨candidate, hshort, (List.prefix_append _ _).trans hpre⟩

/-! ## Operations -/

/-- What the mutator asks the worker. -/
inductive Operation where
  | get
  | put (payload : Bytes)
  deriving DecidableEq

namespace Operation

/-- `'G'`, or `'A'` with a length and a payload. -/
def encode : Operation → Bytes
  | .get => [71]
  | .put payload => 65 :: (header payload.length ++ payload)

/-- The length of the payload fits into the header. -/
def Fits : Operation → Prop
  | .get => True
  | .put payload => payload.length < 256 ^ 4

theorem fits_get : Fits .get := trivial

theorem encode_ne_nil (op : Operation) : op.encode ≠ [] := by
  cases op with
  | get => exact List.cons_ne_nil _ _
  | put payload => exact List.cons_ne_nil _ _

theorem isPrefixCode_encode : IsPrefixCode Fits encode := by
  rintro (_ | a) (_ | b) ha hb hpre
  · rfl
  · exact absurd (List.cons_prefix_cons.mp hpre).1 (by decide)
  · exact absurd (List.cons_prefix_cons.mp hpre).1 (by decide)
  · rw [isPrefixCode_answer a b ha hb (List.cons_prefix_cons.mp hpre).2]

end Operation

/-- The number of requests for a candidate. -/
def gets (operations : List Operation) : ℕ := operations.count .get

end FuzzingCiCd.Mutator
