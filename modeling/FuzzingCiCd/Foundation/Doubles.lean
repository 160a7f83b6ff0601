import Mathlib.Data.Int.Log
import Mathlib.Data.Rat.Floor
import Mathlib.Tactic.FieldSimp
import Mathlib.Tactic.Linarith
import Mathlib.Tactic.Positivity

/-!
# Doubles

Numbers in double precision, as the rationals they stand for. A result is rounded to the nearest
double, and to the one with an even last digit if two are equally near. The two zeros are not told
apart.

Rounding does not go past an integer that is a double itself (`le_rounded`, `rounded_le`), and the
error is small against the number (`abs_rounded_sub_le`). So the quotient of two small integers
keeps its ceiling: `ceil_quotient`.

## Rounding
-/

namespace Doubles

/-- The nearest integer, or the even one of two. -/
def nearest (x : ℚ) : ℤ :=
  if x - ⌊x⌋ < 1 / 2 then ⌊x⌋
  else if 1 / 2 < x - ⌊x⌋ then ⌊x⌋ + 1
  else if ⌊x⌋ % 2 = 0 then ⌊x⌋
  else ⌊x⌋ + 1

/-- The exponent of the last binary digit of a double near a number: there are 53 digits, and none
behind `2 ^ (-1074)`. -/
def lastPlace (q : ℚ) : ℤ := max (Int.log 2 |q| - 52) (-1074)

/-- A number rounded to its last digit. -/
def rounded (q : ℚ) : ℚ := nearest (q / 2 ^ lastPlace q) * 2 ^ lastPlace q

theorem nearest_or (x : ℚ) : nearest x = ⌊x⌋ ∨ nearest x = ⌊x⌋ + 1 := by
  rw [nearest]
  split_ifs
  · exact Or.inl rfl
  · exact Or.inr rfl
  · exact Or.inl rfl
  · exact Or.inr rfl

theorem le_nearest {k : ℤ} {x : ℚ} (h : (k : ℚ) ≤ x) : k ≤ nearest x := by
  have hfloor := Int.le_floor.mpr h
  rcases nearest_or x with hx | hx
  · omega
  · omega

theorem nearest_le {k : ℤ} {x : ℚ} (h : x ≤ k) : nearest x ≤ k := by
  have hfloor := Int.floor_le x
  by_cases heq : x = ⌊x⌋
  · -- an integer is the nearest one to itself
    have hnear : nearest x = ⌊x⌋ := by
      rw [nearest, if_pos]
      rw [← heq]
      norm_num
    rw [hnear]
    exact Int.cast_le.mp (hfloor.trans h)
  · have hlt : ⌊x⌋ < k := Int.cast_lt.mp ((lt_of_le_of_ne hfloor (Ne.symm heq)).trans_le h)
    rcases nearest_or x with hx | hx
    · omega
    · omega

theorem abs_nearest_sub_le (x : ℚ) : |(nearest x : ℚ) - x| ≤ 1 / 2 := by
  have hfloor := Int.floor_le x
  have hlt := Int.lt_floor_add_one x
  rw [abs_le, nearest]
  split_ifs with hlow hhigh heven
  · constructor
    · linarith
    · linarith
  · push_cast
    constructor
    · linarith
    · linarith
  · constructor
    · linarith
    · linarith
  · push_cast
    constructor
    · linarith
    · linarith

section Rounded

variable {q : ℚ} {k m : ℤ}

theorem mul_le_rounded (h : (m : ℚ) * 2 ^ lastPlace q ≤ q) :
    (m : ℚ) * 2 ^ lastPlace q ≤ rounded q := by
  have hpos : (0 : ℚ) < 2 ^ lastPlace q := zpow_pos two_pos _
  exact mul_le_mul_of_nonneg_right (Int.cast_le.mpr (le_nearest ((le_div_iff₀ hpos).mpr h)))
    hpos.le

theorem rounded_le_mul (h : q ≤ (m : ℚ) * 2 ^ lastPlace q) :
    rounded q ≤ (m : ℚ) * 2 ^ lastPlace q := by
  have hpos : (0 : ℚ) < 2 ^ lastPlace q := zpow_pos two_pos _
  exact mul_le_mul_of_nonneg_right (Int.cast_le.mpr (nearest_le ((div_le_iff₀ hpos).mpr h)))
    hpos.le

theorem exists_mul (h : lastPlace q ≤ 0) (k : ℤ) : ∃ m : ℤ, (k : ℚ) = m * 2 ^ lastPlace q := by
  obtain ⟨n, hn⟩ := Int.eq_ofNat_of_zero_le (neg_nonneg.mpr h)
  refine ⟨k * 2 ^ n, ?_⟩
  rw [← neg_neg (lastPlace q), hn, zpow_neg, zpow_natCast]
  push_cast
  field_simp

/-- With a last place above the units a number has more than 53 binary digits. -/
theorem le_abs_of_lastPlace (h : 0 < lastPlace q) :
    (2 : ℚ) ^ (52 : ℕ) * 2 ^ lastPlace q ≤ |q| ∧
      (2 : ℚ) ^ (53 : ℕ) ≤ 2 ^ (52 : ℕ) * 2 ^ lastPlace q := by
  have hlog : lastPlace q = Int.log 2 |q| - 52 := by
    rw [lastPlace] at h ⊢
    omega
  have hpos : 0 < |q| := by
    rw [abs_pos]
    rintro rfl
    rw [hlog] at h
    simp at h
  constructor
  · have hpow := Int.zpow_log_le_self (R := ℚ) one_lt_two hpos
    refine le_trans (le_of_eq ?_) hpow
    rw [← zpow_natCast, ← zpow_add₀ two_ne_zero]
    congr 1
    push_cast
    omega
  · rw [← zpow_natCast, ← zpow_natCast, ← zpow_add₀ two_ne_zero]
    refine zpow_le_zpow_right₀ one_le_two ?_
    push_cast
    omega

/-- **Rounding does not go past an integer** of at most 53 binary digits. -/
theorem le_rounded (hk : |(k : ℚ)| < 2 ^ 53) (h : (k : ℚ) ≤ q) : (k : ℚ) ≤ rounded q := by
  rcases le_or_gt (lastPlace q) 0 with hplace | hplace
  · obtain ⟨m, hm⟩ := exists_mul hplace k
    rw [hm] at h ⊢
    exact mul_le_rounded h
  · obtain ⟨habs, hbound⟩ := le_abs_of_lastPlace hplace
    rw [abs_lt] at hk
    rcases le_total 0 q with hq | hq
    · rw [abs_of_nonneg hq] at habs
      have hle := @mul_le_rounded q (2 ^ 52) (by exact_mod_cast habs)
      push_cast at hle
      linarith
    · rw [abs_of_nonpos hq] at habs
      linarith

theorem rounded_le (hk : |(k : ℚ)| < 2 ^ 53) (h : q ≤ k) : rounded q ≤ k := by
  rcases le_or_gt (lastPlace q) 0 with hplace | hplace
  · obtain ⟨m, hm⟩ := exists_mul hplace k
    rw [hm] at h ⊢
    exact rounded_le_mul h
  · obtain ⟨habs, hbound⟩ := le_abs_of_lastPlace hplace
    rw [abs_lt] at hk
    rcases le_total 0 q with hq | hq
    · rw [abs_of_nonneg hq] at habs
      linarith
    · rw [abs_of_nonpos hq] at habs
      have hle := @rounded_le_mul q (-2 ^ 52) (by push_cast; linarith)
      push_cast at hle
      linarith

theorem rounded_intCast (hk : |(k : ℚ)| < 2 ^ 53) : rounded k = k :=
  le_antisymm (rounded_le hk le_rfl) (le_rounded hk le_rfl)

/-- The error of a number that is not too near to zero. -/
theorem abs_rounded_sub_le (h : (2 : ℚ) ^ (-1022 : ℤ) ≤ |q|) : |rounded q - q| ≤ |q| / 2 ^ 53 := by
  have hzero : 0 < |q| := (zpow_pos two_pos _).trans_le h
  have hlog : -1022 ≤ Int.log 2 |q| := (Int.zpow_le_iff_le_log one_lt_two hzero).mp h
  have hplace : lastPlace q = Int.log 2 |q| - 52 := max_eq_left (by omega)
  have hpos : (0 : ℚ) < 2 ^ lastPlace q := zpow_pos two_pos _
  have hsub : rounded q - q = ((nearest (q / 2 ^ lastPlace q) : ℚ) - q / 2 ^ lastPlace q) *
      2 ^ lastPlace q := by
    rw [sub_mul, div_mul_cancel₀ _ hpos.ne', rounded]
  rw [hsub, abs_mul, abs_of_pos hpos]
  calc |(nearest (q / 2 ^ lastPlace q) : ℚ) - q / 2 ^ lastPlace q| * 2 ^ lastPlace q
      ≤ 1 / 2 * 2 ^ lastPlace q := mul_le_mul_of_nonneg_right (abs_nearest_sub_le _) hpos.le
    _ = 2 ^ Int.log 2 |q| / 2 ^ 53 := by
      rw [hplace, zpow_sub₀ two_ne_zero]
      norm_num
      ring
    _ ≤ |q| / 2 ^ 53 := by
      have hpow := Int.zpow_log_le_self (R := ℚ) one_lt_two hzero
      push_cast at hpow
      gcongr

/-- A double of more than 53 binary digits is an integer. -/
theorem exists_rounded_eq (h : (2 : ℚ) ^ 53 ≤ |q|) : ∃ m : ℤ, rounded q = m := by
  have hpos : 0 < |q| := (by norm_num : (0 : ℚ) < 2 ^ 53).trans_le h
  have hlog : 53 ≤ Int.log 2 |q| := by
    rw [← Int.zpow_le_iff_le_log one_lt_two hpos]
    exact_mod_cast h
  have hplace : 0 ≤ lastPlace q := le_max_of_le_left (by omega)
  obtain ⟨n, hn⟩ := Int.eq_ofNat_of_zero_le hplace
  refine ⟨nearest (q / 2 ^ lastPlace q) * 2 ^ n, ?_⟩
  rw [rounded, hn, zpow_natCast]
  push_cast
  rfl

/-- A fraction lies above the integer before its ceiling by one part of its denominator. -/
theorem one_div_le_sub_ceil {n s : ℕ} (hs : 0 < s) :
    (1 : ℚ) / s ≤ (n : ℚ) / s - (⌈(n : ℚ) / s⌉ - 1) := by
  have hspos : (0 : ℚ) < s := Nat.cast_pos.mpr hs
  have hlt := Int.ceil_lt_add_one ((n : ℚ) / s)
  have hmul : (⌈(n : ℚ) / s⌉ - 1 : ℚ) * s < n := by
    rw [← lt_div_iff₀ hspos]
    linarith
  have hle : (⌈(n : ℚ) / s⌉ - 1) * (s : ℤ) + 1 ≤ (n : ℤ) := by exact_mod_cast hmul
  have hcast : ((⌈(n : ℚ) / s⌉ - 1 : ℚ) * s + 1) ≤ n := by exact_mod_cast hle
  rw [div_le_iff₀ hspos, sub_mul, div_mul_cancel₀ _ hspos.ne']
  linarith

theorem ceil_div_le {n s : ℕ} (hs : 0 < s) : ⌈(n : ℚ) / s⌉ ≤ (n : ℤ) := by
  rw [Int.ceil_le, div_le_iff₀ (Nat.cast_pos.mpr hs)]
  exact_mod_cast Nat.le_mul_of_pos_right n hs

/-- **Quotients of integers** of at most 53 binary digits keep their ceiling. -/
theorem ceil_rounded_div {n s : ℕ} (hs : 0 < s) (hn : n < 2 ^ 53) (hs' : s < 2 ^ 53) :
    ⌈rounded ((n : ℚ) / s)⌉ = ⌈(n : ℚ) / s⌉ := by
  have hspos : (0 : ℚ) < s := Nat.cast_pos.mpr hs
  rcases Nat.eq_zero_or_pos n with rfl | hnpos
  · have hzero := @rounded_intCast 0 (by norm_num)
    push_cast at hzero ⊢
    rw [zero_div, hzero]
  have hone : (1 : ℚ) / s ≤ (n : ℚ) / s := by
    gcongr
    exact_mod_cast hnpos
  have hquotient : (0 : ℚ) < (n : ℚ) / s := (one_div_pos.mpr hspos).trans_le hone
  have hn' : (n : ℚ) < 2 ^ 53 := by exact_mod_cast hn
  have hs'' : (s : ℚ) < 2 ^ 53 := by exact_mod_cast hs'
  have hlarge : (2 : ℚ) ^ (-1022 : ℤ) ≤ |(n : ℚ) / s| := by
    have hsmall : (2 : ℚ) ^ (-1022 : ℤ) ≤ 1 / 2 ^ 53 := by
      rw [one_div, ← zpow_natCast, ← zpow_neg]
      exact zpow_le_zpow_right₀ one_le_two (by norm_num)
    rw [abs_of_pos hquotient]
    exact hsmall.trans ((one_div_le_one_div_of_le hspos hs''.le).trans hone)
  rw [Int.ceil_eq_iff]
  constructor
  · -- the fraction lies above the integer before its ceiling by more than the error
    have hgap := @one_div_le_sub_ceil n s hs
    have herror := abs_rounded_sub_le hlarge
    rw [abs_of_pos hquotient] at herror
    have hless : (n : ℚ) / s / 2 ^ 53 < 1 / s := by
      rw [div_div, div_lt_div_iff₀ (by positivity) hspos, one_mul, mul_comm]
      exact mul_lt_mul_of_pos_left hn' hspos
    have hlow := (abs_le.mp herror).1
    linarith
  · have hle : (⌈(n : ℚ) / s⌉ : ℚ) ≤ n := by exact_mod_cast ceil_div_le hs
    have hnonneg : (0 : ℚ) ≤ ⌈(n : ℚ) / s⌉ := by exact_mod_cast Int.ceil_nonneg hquotient.le
    refine rounded_le ?_ (Int.le_ceil _)
    rw [abs_of_nonneg hnonneg]
    exact hle.trans_lt hn'

end Rounded

end Doubles

/-! ## Doubles and their operations -/

/-- A double. -/
inductive Double where
  | finite (value : ℚ)
  | infinity (negative : Bool)
  | nan

namespace Double

/-- The double nearest to a number. -/
def ofRat (q : ℚ) : Double :=
  if |Doubles.rounded q| < 2 ^ 1024 then .finite (Doubles.rounded q) else .infinity (q < 0)

/-- The division of doubles. A zero counts as the positive one. -/
def div : Double → Double → Double
  | .nan, _ => .nan
  | _, .nan => .nan
  | .infinity _, .infinity _ => .nan
  | .infinity negative, .finite b => .infinity (xor negative (b < 0))
  | .finite _, .infinity _ => .finite 0
  | .finite a, .finite b =>
    if b = 0 then if a = 0 then .nan else .infinity (a < 0) else ofRat (a / b)

/-- `Math.ceil`. -/
def ceil : Double → Double
  | .finite q => .finite ⌈q⌉
  | d => d

/-- The narrowing of a double to the integers from one bound to the other: the fraction is cut off,
what lies beyond a bound becomes the bound. -/
def narrow (low high : ℤ) : Double → ℤ
  | .finite q => max low (min high (if 0 ≤ q then ⌊q⌋ else ⌈q⌉))
  | .infinity negative => if negative then low else high
  | .nan => 0

theorem ofRat_intCast {k : ℤ} (hk : |(k : ℚ)| < 2 ^ 53) : ofRat k = .finite k := by
  rw [ofRat, Doubles.rounded_intCast hk, if_pos]
  exact hk.trans (pow_lt_pow_right₀ one_lt_two (by norm_num))

theorem ofRat_eq_finite {q : ℚ} (h : |q| < 2 ^ 64) : ofRat q = .finite (Doubles.rounded q) := by
  refine if_pos (lt_of_le_of_lt ?_ (pow_lt_pow_right₀ one_lt_two (by norm_num : 65 < 1024)))
  rcases lt_or_ge |q| (2 ^ 52) with hsmall | hlarge
  · -- between the two integers of the bound
    have hbound : |((2 ^ 52 : ℤ) : ℚ)| < 2 ^ 53 := by norm_num
    have hbound' : |((-2 ^ 52 : ℤ) : ℚ)| < 2 ^ 53 := by norm_num
    rw [abs_lt] at hsmall
    have hle := Doubles.rounded_le hbound (q := q) (by push_cast; linarith)
    have hge := Doubles.le_rounded hbound' (q := q) (by push_cast; linarith)
    push_cast at hle hge
    rw [abs_le]
    constructor
    · linarith
    · linarith
  · have herror := Doubles.abs_rounded_sub_le (q := q)
      (le_trans (zpow_le_zpow_right₀ one_le_two (by norm_num : (-1022 : ℤ) ≤ 52)) hlarge)
    have htriangle := abs_sub_abs_le_abs_sub (Doubles.rounded q) q
    have hpart : |q| / 2 ^ 53 ≤ |q| := div_le_self (abs_nonneg q) (by norm_num)
    linarith

/-- **Quotients of integers** of at most 53 binary digits. -/
theorem ceil_div {n s : ℕ} (hs : 0 < s) (hn : n < 2 ^ 53) (hs' : s < 2 ^ 53) :
    (div (ofRat n) (ofRat s)).ceil = .finite ⌈(n : ℚ) / s⌉ := by
  have hexact : ∀ {k : ℕ}, k < 2 ^ 53 → ofRat k = .finite k := by
    intro k hk
    have habs : |((k : ℤ) : ℚ)| < 2 ^ 53 := by
      push_cast
      rw [abs_of_nonneg (Nat.cast_nonneg k)]
      exact_mod_cast hk
    simpa using ofRat_intCast habs
  have hspos : (0 : ℚ) < s := Nat.cast_pos.mpr hs
  have hfinite : |(n : ℚ) / s| < 2 ^ 64 := by
    have hn' : (n : ℚ) < 2 ^ 53 := by exact_mod_cast hn
    have hle : (n : ℚ) / s ≤ n := div_le_self (Nat.cast_nonneg n) (by exact_mod_cast hs)
    rw [abs_of_nonneg (by positivity)]
    linarith
  rw [hexact hn, hexact hs', div, if_neg hspos.ne', ofRat_eq_finite hfinite, ceil,
    Doubles.ceil_rounded_div hs hn hs']

theorem narrow_intCast {low high k : ℤ} (hlow : low ≤ k) (hhigh : k ≤ high) :
    narrow low high (.finite k) = k := by
  rw [narrow, Int.floor_intCast, Int.ceil_intCast, ite_self]
  omega

end Double
