import Mathlib
import Parlance.Number.Decimal
import Parlance.Proofs.Numbers.Rounding
/-!
# Decimals and the numbers nearest to them

The value of a decimal is an exact fraction. A decimal is read as the number nearest to its value,
also where powers of ten are so far out that they are not computed (`Decimal.nearest_toNumber`), and
the shortest decimal of a magnitude is rounded to that magnitude again (`Decimal.units_shortest`).
-/
namespace Parlance

-- arithmetic is not to compute the powers of two
attribute [local irreducible] unit overflow

namespace Decimal

variable {d : Decimal} {u count : Nat}

/-- The value of a decimal. -/
def value (d : Decimal) : ℚ := d.digits * 10 ^ d.exponent

theorem quotient_pos (d : Decimal) : 0 < d.quotient.2 := by
  unfold quotient
  split
  · exact Nat.one_pos
  · exact Nat.pow_pos (by norm_num)

/-- The quotient is the value in units. -/
theorem quotient_eq (d : Decimal) : (d.quotient.1 / d.quotient.2 : ℚ) = d.value * unit := by
  obtain ⟨digits, exponent⟩ := d
  unfold quotient value
  simp only [Nat.pow_eq]
  split
  · next h =>
    obtain ⟨e, rfl⟩ := Int.eq_ofNat_of_zero_le h
    simp
  · next h =>
    obtain ⟨e, he⟩ := Int.eq_ofNat_of_zero_le (a := -exponent) (by omega)
    rw [he, show exponent = -(e : Int) by omega, zpow_neg]
    simp only [Int.toNat_natCast, zpow_natCast]
    push_cast
    ring

theorem rounded_iff_units (d : Decimal) : Rounded (d.value * unit) u ↔ d.units = u := by
  rw [← quotient_eq, rounded_iff (quotient_pos d)]
  rfl

/-! ### Powers of ten far out -/

theorem value_nonneg (d : Decimal) : 0 ≤ d.value := by
  unfold value
  positivity

theorem overflow_le_value (hdigits : d.digits ≠ 0) (h : 400 < d.exponent) :
    (overflow : ℚ) ≤ d.value * unit := by
  obtain ⟨e, he, hunits⟩ : ∃ e : Nat, (e : Int) ≤ d.exponent ∧ overflow ≤ 10 ^ e * unit :=
    ⟨401, by omega, by decide +kernel⟩
  have hone : (1 : ℚ) ≤ d.digits := by exact_mod_cast Nat.one_le_iff_ne_zero.mpr hdigits
  have hpow : (10 : ℚ) ^ e ≤ 10 ^ d.exponent := by
    rw [← zpow_natCast]
    exact zpow_le_zpow_right₀ (by norm_num) he
  have hvalue : (10 : ℚ) ^ e ≤ d.value := by
    unfold value
    calc (10 : ℚ) ^ e = 1 * 10 ^ e := (one_mul _).symm
      _ ≤ d.digits * 10 ^ d.exponent :=
        mul_le_mul hone hpow (by positivity) (Nat.cast_nonneg _)
  calc (overflow : ℚ) ≤ ((10 ^ e * unit : Nat) : ℚ) := by exact_mod_cast hunits
    _ = 10 ^ e * unit := by push_cast; rfl
    _ ≤ d.value * unit := mul_le_mul_of_nonneg_right hvalue (Nat.cast_nonneg _)

theorem value_lt_half (h : d.exponent < -(401 + d.digits.log2 : Int)) :
    d.value * unit < 1 / 2 := by
  obtain ⟨e, he, hunits⟩ : ∃ e : Nat, d.exponent ≤ -((e + d.digits.log2 : Nat) : Int) ∧
      4 * unit ≤ 10 ^ e := ⟨402, by omega, by decide +kernel⟩
  have hdigits : d.digits * unit * 2 < 10 ^ (e + d.digits.log2) := by
    calc d.digits * unit * 2 = d.digits * (2 * unit) := by ring
      _ < 2 ^ (d.digits.log2 + 1) * (2 * unit) :=
        Nat.mul_lt_mul_of_pos_right Nat.lt_log2_self (Nat.mul_pos (by norm_num) unit_pos)
      _ = 4 * unit * 2 ^ d.digits.log2 := by ring
      _ ≤ 10 ^ e * 10 ^ d.digits.log2 :=
        Nat.mul_le_mul hunits (Nat.pow_le_pow_left (by norm_num) _)
      _ = 10 ^ (e + d.digits.log2) := (pow_add ..).symm
  have hcast : (d.digits * unit * 2 : ℚ) < 10 ^ (e + d.digits.log2) := by exact_mod_cast hdigits
  have hpow : (10 : ℚ) ^ d.exponent ≤ (10 ^ (e + d.digits.log2))⁻¹ := by
    rw [← zpow_natCast, ← zpow_neg]
    exact zpow_le_zpow_right₀ (by norm_num) he
  have hnonneg : (0 : ℚ) ≤ d.digits * unit * 2 := by positivity
  rw [lt_div_iff₀ (by norm_num)]
  unfold value
  calc (d.digits * 10 ^ d.exponent * unit * 2 : ℚ)
      = d.digits * unit * 2 * 10 ^ d.exponent := by ring
    _ ≤ d.digits * unit * 2 * (10 ^ (e + d.digits.log2))⁻¹ :=
      mul_le_mul_of_nonneg_left hpow hnonneg
    _ < 1 := (mul_inv_lt_iff₀ (by positivity)).mpr (by rwa [one_mul])

/-- A decimal is read as the number nearest to it. -/
theorem nearest_toNumber (negative : Bool) (d : Decimal) :
    Number.Nearest negative (d.value * unit) (d.toNumber negative) := by
  have hrounded : Rounded (d.value * unit) d.units := (rounded_iff_units d).mpr rfl
  have hnonneg : 0 ≤ d.value * unit := mul_nonneg (value_nonneg d) (Nat.cast_nonneg _)
  unfold toNumber
  split
  · next hzero =>
    have hvalue : d.value * unit = (0 : Nat) := by simp [value, hzero]
    rw [hvalue]
    exact .finite _ Number.fits_zero.2.rounded
  · next hdigits =>
    split
    · next hlarge =>
      exact .infinite hrounded
        (hrounded.le_of_le short_overflow (overflow_le_value hdigits hlarge))
    · split
      · next hsmall =>
        have hzero := hrounded.eq_zero hnonneg (value_lt_half hsmall)
        rw [hzero] at hrounded
        exact .finite _ hrounded
      · rw [← quotient_eq]
        exact Number.nearest_ofQuotient negative _ (quotient_pos d)

/-! ### The shortest decimal -/

theorem units_of_withDigits? (h : withDigits? u count = some d) : d.units = u := by
  unfold withDigits? at h
  simp only at h
  split at h
  · next hbelow habove =>
    cases h
    split
    · exact of_decide_eq_true hbelow
    · exact of_decide_eq_true habove
  · next hbelow _ =>
    cases h
    exact of_decide_eq_true hbelow
  · next _ habove =>
    cases h
    exact of_decide_eq_true habove
  · cases h

theorem value_exact (u : Nat) : (exact u).value * unit = u := by
  obtain ⟨n, hexact, hunit⟩ : ∃ n : Nat, exact u = ⟨u * 5 ^ n, -n⟩ ∧ unit = 2 ^ n := by
    unfold exact unit
    rw [show (-1074 : Int) = -(1074 : Nat) from rfl]
    generalize 1074 = n
    exact ⟨n, rfl, rfl⟩
  have hten : (5 : ℚ) ^ n * 2 ^ n = 10 ^ n := by
    rw [← mul_pow]
    norm_num
  rw [hexact, hunit, value, zpow_neg, zpow_natCast]
  push_cast
  calc (u * 5 ^ n * (10 ^ n)⁻¹ * 2 ^ n : ℚ) = u * (5 ^ n * 2 ^ n) * (10 ^ n)⁻¹ := by ring
    _ = u := by rw [hten, mul_inv_cancel_right₀ (by positivity)]

/-- The shortest decimal of a magnitude is rounded to it. -/
theorem units_shortest (h : Short u) : (shortest u).units = u := by
  unfold shortest
  cases hfind : (List.range' 1 17).findSome? (withDigits? u) with
  | some d =>
    obtain ⟨count, -, hd⟩ := List.exists_of_findSome?_eq_some hfind
    exact units_of_withDigits? hd
  | none =>
    rw [Option.getD_none, ← rounded_iff_units, value_exact]
    exact h.rounded

theorem value_trim (d : Decimal) : d.trim.value = d.value := by
  induction d using trim.induct with
  | case1 d h ih =>
    rw [trim, if_pos h, ih]
    obtain ⟨k, hk⟩ := Nat.dvd_of_mod_eq_zero h.2
    unfold value
    rw [hk, Nat.mul_div_cancel_left k (by norm_num), zpow_add_one₀ (by norm_num)]
    push_cast
    ring
  | case2 d h => rw [trim, if_neg h]

/-- The decimal with which a magnitude is shown. -/
def shown (u : Nat) : Decimal := if u = 0 then ⟨0, 0⟩ else (shortest u).trim

/-- What is shown is rounded to the magnitude. -/
theorem rounded_shown (h : Short u) : Rounded ((shown u).value * unit) u := by
  unfold shown
  split
  · next hzero =>
    have hvalue : value ⟨0, 0⟩ * unit = (u : ℚ) := by simp [value, hzero]
    rw [hvalue]
    exact h.rounded
  · rw [value_trim, rounded_iff_units]
    exact units_shortest h

end Decimal
end Parlance
