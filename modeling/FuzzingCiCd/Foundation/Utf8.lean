import Mathlib.Data.List.Basic

/-!
# Decoding UTF-8

The decoder of `java.lang.String` for `StandardCharsets.UTF_8`: a character for every well-formed
sequence of octets, and one replacement character for every longest part of a sequence that does not
become one.

It is a machine that reads one octet at a time. Inside a sequence it knows how many octets may come
after the next one, the bounds of the next one and the value so far; an octet outside the bounds
ends the sequence and is read anew.

## ASCII

All that the services look for in a decoded text are ASCII characters. An octet below 128 is never
part of a sequence, so it decodes to its own character wherever it stands (`decodeFrom_ascii`), and
no other octet decodes to an ASCII character (`mem_of_mem_decodeFrom`). A text therefore splits at
an ASCII character where its octets split (`splitOn_decode`).
-/

namespace Utf8

inductive State
  | start
  /-- `more` octets may follow the next one, which lies between `lower` and `upper`. -/
  | inside (more lower upper value : ℕ)
  deriving DecidableEq

def replacement : Char := '\uFFFD'

/-- The character of a code point. A surrogate has none. -/
def scalar (n : ℕ) : Char := if n.isValidChar then Char.ofNat n else replacement

/-- The first octet of a sequence. -/
def lead (octet : UInt8) : List Char × State :=
  let n := octet.toNat
  if n < 0x80 then ([Char.ofNat n], .start)
  else if n < 0xC2 then ([replacement], .start)
  else if n < 0xE0 then ([], .inside 0 0x80 0xBF (n % 32))
  else if n = 0xE0 then ([], .inside 1 0xA0 0xBF 0)
  else if n < 0xF0 then ([], .inside 1 0x80 0xBF (n % 16))
  else if n = 0xF0 then ([], .inside 2 0x90 0xBF 0)
  else if n < 0xF4 then ([], .inside 2 0x80 0xBF (n % 8))
  else if n = 0xF4 then ([], .inside 2 0x80 0x8F 4)
  else ([replacement], .start)

def step : State → UInt8 → List Char × State
  | .start, octet => lead octet
  | .inside more lower upper value, octet =>
    if lower ≤ octet.toNat ∧ octet.toNat ≤ upper then
      let value := value * 64 + octet.toNat % 64
      if more = 0 then ([scalar value], .start) else ([], .inside (more - 1) 0x80 0xBF value)
    else (replacement :: (lead octet).1, (lead octet).2)

/-- A sequence that the text ends in is replaced like any other. -/
def finish : State → List Char
  | .start => []
  | .inside .. => [replacement]

def decodeFrom (state : State) : List UInt8 → List Char
  | [] => finish state
  | octet :: octets => (step state octet).1 ++ decodeFrom (step state octet).2 octets

def decode (octets : List UInt8) : List Char := decodeFrom .start octets

/-- The state inside a sequence is such that only characters beyond ASCII can come of it. -/
def Proper : State → Prop
  | .start => True
  | .inside more lower upper value =>
    0x80 ≤ lower ∧ (2 ≤ value ∨ 1 ≤ more ∧ (1 ≤ value ∨ 0x90 ≤ lower ∧ upper ≤ 0xBF))

section Steps

variable {state : State} {octet : UInt8} {ch : Char}

theorem toNat_ofNat {n : ℕ} (h : n.isValidChar) : (Char.ofNat n).toNat = n := by
  rw [Char.ofNat, dif_pos h]
  exact UInt32.toNat_ofNatLT ..

theorem toNat_ofOctet (octet : UInt8) : (Char.ofNat octet.toNat).toNat = octet.toNat := by
  have hbyte := octet.toNat_lt
  exact toNat_ofNat (Or.inl (by omega))

theorem replacement_toNat : replacement.toNat = 0xFFFD := by decide

theorem scalar_toNat {n : ℕ} (h : 128 ≤ n) : 128 ≤ (scalar n).toNat := by
  rw [scalar]
  by_cases hvalid : n.isValidChar
  · rw [if_pos hvalid, toNat_ofNat hvalid]
    exact h
  · rw [if_neg hvalid, replacement_toNat]
    decide

theorem lead_ascii (h : octet.toNat < 128) : lead octet = ([Char.ofNat octet.toNat], .start) := by
  rw [lead]
  exact if_pos h

theorem lead_of_not_ascii (h : ¬octet.toNat < 128) :
    Proper (lead octet).2 ∧ (∀ ch ∈ (lead octet).1, 128 ≤ ch.toNat) ∧
      ((lead octet).1 ≠ [] ∨ (lead octet).2 ≠ .start) := by
  have hbyte := octet.toNat_lt
  have hreplacement : ∀ ch ∈ [replacement], 128 ≤ ch.toNat :=
    List.forall_mem_singleton.mpr (by decide)
  have hnone : ∀ ch ∈ ([] : List Char), 128 ≤ ch.toNat := List.forall_mem_nil _
  rw [lead, if_neg h]
  split
  · exact ⟨trivial, hreplacement, Or.inl (by decide)⟩
  split
  · exact ⟨⟨by decide, by omega⟩, hnone, Or.inr (by simp)⟩
  split
  · exact ⟨⟨by decide, by omega⟩, hnone, Or.inr (by simp)⟩
  split
  · exact ⟨⟨by decide, by omega⟩, hnone, Or.inr (by simp)⟩
  split
  · exact ⟨⟨by decide, by omega⟩, hnone, Or.inr (by simp)⟩
  split
  · exact ⟨⟨by decide, by omega⟩, hnone, Or.inr (by simp)⟩
  split
  · exact ⟨⟨by decide, by omega⟩, hnone, Or.inr (by simp)⟩
  · exact ⟨trivial, hreplacement, Or.inl (by decide)⟩

theorem lead_proper (octet : UInt8) : Proper (lead octet).2 := by
  by_cases h : octet.toNat < 128
  · rw [lead_ascii h]
    trivial
  · exact (lead_of_not_ascii h).1

theorem step_proper (h : Proper state) (octet : UInt8) : Proper (step state octet).2 := by
  rcases state with _ | ⟨more, lower, upper, value⟩
  · exact lead_proper octet
  obtain ⟨hlower, hvalue⟩ := h
  rw [step]
  split
  · dsimp only
    by_cases hmore : more = 0
    · rw [if_pos hmore]
      trivial
    · rw [if_neg hmore]
      exact ⟨by decide, by omega⟩
  · exact lead_proper octet

/-- An octet that is not ASCII contributes nothing that is. -/
theorem step_of_not_ascii (h : Proper state) (hoctet : ¬octet.toNat < 128) :
    ∀ ch ∈ (step state octet).1, 128 ≤ ch.toNat := by
  obtain ⟨-, hlead, -⟩ := lead_of_not_ascii hoctet
  rcases state with _ | ⟨more, lower, upper, value⟩
  · exact hlead
  obtain ⟨hlower, hvalue⟩ := h
  rw [step]
  split
  · dsimp only
    by_cases hmore : more = 0
    · rw [if_pos hmore]
      intro ch hch
      rw [List.mem_singleton.mp hch]
      exact scalar_toNat (by omega)
    · rw [if_neg hmore]
      exact fun ch hch ↦ absurd hch List.not_mem_nil
  · intro ch hch
    rcases List.mem_cons.mp hch with rfl | hch
    · rw [replacement_toNat]
      decide
    · exact hlead ch hch

/-- An ASCII octet ends the sequence it meets. -/
theorem step_ascii (h : Proper state) (hoctet : octet.toNat < 128) :
    step state octet = (finish state ++ [Char.ofNat octet.toNat], .start) := by
  rcases state with _ | ⟨more, lower, upper, value⟩
  · exact lead_ascii hoctet
  · obtain ⟨hlower, -⟩ := h
    rw [step, if_neg (by omega), lead_ascii hoctet]
    rfl

theorem mem_finish (hch : ch ∈ finish state) : 128 ≤ ch.toNat := by
  rcases state with _ | ⟨more, lower, upper, value⟩
  · exact absurd hch List.not_mem_nil
  · rw [List.mem_singleton.mp hch, replacement_toNat]
    decide

end Steps

/-! ## ASCII characters of a text

An ASCII octet is never inside the encoding of another character, whatever comes before it. So
the decoder emits a character for it, and what follows is decoded alone; a text can be split at
an ASCII character before or after it is decoded. -/

section Ascii

variable {state : State} {octet : UInt8} {octets : List UInt8} {ch : Char}

/-- **An ASCII octet decodes to its character**, and what comes after it is decoded alone. -/
theorem decodeFrom_ascii (h : Proper state) (hoctet : octet.toNat < 128)
    (before after : List UInt8) :
    decodeFrom state (before ++ octet :: after) =
      decodeFrom state before ++ Char.ofNat octet.toNat :: decode after := by
  induction before generalizing state with
  | nil =>
    rw [List.nil_append, decodeFrom.eq_2, step_ascii h hoctet, List.append_assoc]
    rfl
  | cons first before ih =>
    rw [List.cons_append, decodeFrom.eq_2, decodeFrom.eq_2, ih (step_proper h first),
      List.append_assoc]

theorem decode_ascii (hoctet : octet.toNat < 128) (before after : List UInt8) :
    decode (before ++ octet :: after) =
      decode before ++ Char.ofNat octet.toNat :: decode after :=
  decodeFrom_ascii (show Proper .start from trivial) hoctet before after

/-- An ASCII character of the text is one of the octets. -/
theorem mem_of_mem_decodeFrom (h : Proper state) (hmem : ch ∈ decodeFrom state octets)
    (hch : ch.toNat < 128) : ∃ octet ∈ octets, octet.toNat = ch.toNat := by
  induction octets generalizing state with
  | nil => exact absurd (mem_finish hmem) (by omega)
  | cons first octets ih =>
    rw [decodeFrom, List.mem_append] at hmem
    rcases hmem with hstep | hrest
    · by_cases hfirst : first.toNat < 128
      · rw [step_ascii h hfirst, List.mem_append, List.mem_singleton] at hstep
        rcases hstep with hfinish | rfl
        · exact absurd (mem_finish hfinish) (by omega)
        · exact ⟨first, List.mem_cons_self, (toNat_ofOctet first).symm⟩
      · exact absurd (step_of_not_ascii h hfirst ch hstep) (by omega)
    · obtain ⟨octet, hoctet, heq⟩ := ih (step_proper h first) hrest
      exact ⟨octet, List.mem_cons_of_mem _ hoctet, heq⟩

theorem mem_of_mem_decode (hmem : ch ∈ decode octets) (hch : ch.toNat < 128) :
    ∃ octet ∈ octets, octet.toNat = ch.toNat :=
  mem_of_mem_decodeFrom (show Proper .start from trivial) hmem hch

theorem not_mem_decode (hoctet : octet.toNat < 128) (hmem : octet ∉ octets) :
    Char.ofNat octet.toNat ∉ decode octets := by
  intro h
  obtain ⟨other, hother, heq⟩ := mem_of_mem_decode h (by rwa [toNat_ofOctet])
  rw [toNat_ofOctet] at heq
  exact hmem (UInt8.toNat_inj.mp heq ▸ hother)

theorem exists_of_inside {more lower upper value : ℕ}
    (h : Proper (.inside more lower upper value)) (octets : List UInt8) :
    ∃ ch ∈ decodeFrom (.inside more lower upper value) octets, 128 ≤ ch.toNat := by
  induction octets generalizing more lower upper value with
  | nil => exact ⟨replacement, List.mem_singleton_self _, by decide⟩
  | cons octet octets ih =>
    obtain ⟨hlower, hvalue⟩ := h
    rw [decodeFrom, step]
    split
    · dsimp only
      by_cases hmore : more = 0
      · rw [if_pos hmore]
        exact ⟨_, List.mem_append_left _ (List.mem_singleton_self _), scalar_toNat (by omega)⟩
      · rw [if_neg hmore]
        obtain ⟨ch, hmem, hch⟩ := @ih (more - 1) 0x80 0xBF (value * 64 + octet.toNat % 64)
          ⟨by decide, by omega⟩
        exact ⟨ch, List.mem_append_right _ hmem, hch⟩
    · exact ⟨replacement, List.mem_append_left _ List.mem_cons_self, by decide⟩

theorem eq_map_of_decode (h : ∀ ch ∈ decode octets, ch.toNat < 128) :
    decode octets = octets.map fun octet ↦ Char.ofNat octet.toNat := by
  induction octets with
  | nil => rfl
  | cons octet octets ih =>
    by_cases hoctet : octet.toNat < 128
    · have hsplit : decode (octet :: octets) = Char.ofNat octet.toNat :: decode octets :=
        decode_ascii hoctet [] octets
      rw [hsplit] at h ⊢
      rw [ih fun ch hch ↦ h ch (List.mem_cons_of_mem _ hch), List.map_cons]
    · obtain ⟨-, hlead, hsome⟩ := lead_of_not_ascii hoctet
      have hfar : ∃ ch ∈ decode (octet :: octets), 128 ≤ ch.toNat := by
        rw [decode, decodeFrom, step]
        rcases hfirst : (lead octet).1 with _ | ⟨ch, rest⟩
        · have hproper := lead_proper octet
          rcases hstate : (lead octet).2 with _ | ⟨more, lower, upper, value⟩
          · exact absurd hsome (by rw [hfirst, hstate]; simp)
          · rw [hstate] at hproper
            obtain ⟨ch, hmem, hch⟩ := exists_of_inside hproper octets
            exact ⟨ch, List.mem_append_right _ hmem, hch⟩
        · exact ⟨ch, by simp, hlead ch (by rw [hfirst]; exact List.mem_cons_self)⟩
      obtain ⟨ch, hmem, hch⟩ := hfar
      exact absurd (h ch hmem) (by omega)

theorem decode_eq_map (h : ∀ octet ∈ octets, octet.toNat < 128) :
    decode octets = octets.map fun octet ↦ Char.ofNat octet.toNat := by
  induction octets with
  | nil => rfl
  | cons octet octets ih =>
    have hsplit : decode (octet :: octets) = Char.ofNat octet.toNat :: decode octets :=
      decode_ascii (h octet List.mem_cons_self) [] octets
    rw [hsplit, ih fun other hother ↦ h other (List.mem_cons_of_mem _ hother), List.map_cons]

/-- The octets of an ASCII text are the only ones that decode to it. -/
theorem decode_eq_iff {text : List UInt8} (htext : ∀ octet ∈ text, octet.toNat < 128) :
    decode octets = decode text ↔ octets = text := by
  refine ⟨fun h ↦ ?_, fun h ↦ by rw [h]⟩
  have hascii : ∀ ch ∈ decode octets, ch.toNat < 128 := by
    rw [h, decode_eq_map htext]
    intro ch hch
    obtain ⟨octet, hoctet, rfl⟩ := List.mem_map.mp hch
    rw [toNat_ofOctet]
    exact htext octet hoctet
  rw [eq_map_of_decode hascii, decode_eq_map htext] at h
  refine List.map_injective_iff.mpr (fun a b hab ↦ ?_) h
  have hcode := congrArg Char.toNat hab
  rw [toNat_ofOctet, toNat_ofOctet] at hcode
  exact UInt8.toNat_inj.mp hcode

/-- **A text splits where its octets do.** -/
theorem splitOn_decode (hoctet : octet.toNat < 128) (octets : List UInt8) :
    (decode octets).splitOn (Char.ofNat octet.toNat) = (octets.splitOn octet).map decode := by
  induction hlength : octets.length using Nat.strongRecOn generalizing octets with
  | ind n ih =>
    by_cases hmem : octet ∈ octets
    · -- the first occurrence cuts off one part, and the rest is shorter
      obtain ⟨before, after, rfl, hbefore⟩ := List.eq_append_cons_of_mem hmem
      have hshorter : after.length < n := by
        rw [← hlength, List.length_append, List.length_cons]
        omega
      rw [decode_ascii hoctet, List.splitOn_append_cons_self_of_not_mem
        (not_mem_decode hoctet hbefore), List.splitOn_append_cons_self_of_not_mem hbefore,
        ih after.length hshorter after rfl, List.map_cons]
    · rw [List.splitOn_eq_singleton hmem, List.splitOn_eq_singleton (not_mem_decode hoctet hmem)]
      rfl

end Ascii

end Utf8
