import Mathlib
import Parlance.Proofs.Lists.Sequences
import Parlance.Proofs.Numbers.Rounding
import Parlance.Value.Operator
/-!
# Remainders

The remainder of two finite numbers is that of their floors, with the sign of the dividend, and it
is a number itself: nothing is rounded, however large the operands are (`Store.remainder_exact`).
The last bits of the two operands stand for two powers of two. What is left is a multiple of the
lesser one, and below the operand that ends there, so it has no more significant bits (`Short.mod`).
-/
namespace Parlance

-- arithmetic is not to compute the powers of two
attribute [local irreducible] unit overflow

/-- What a division that is cut off toward zero leaves. -/
structure IsRemainder (a b r : Int) : Prop where
  small : |r| < |b|
  dvd : b ∣ a - r
  sign : r = 0 ∨ r.sign = a.sign

section Integers

variable {a b r s : Int}

theorem IsRemainder.nonneg (h : IsRemainder a b r) (ha : 0 ≤ a) : 0 ≤ r := by
  rcases h.sign with rfl | hsign
  · exact le_rfl
  · rwa [← Int.sign_nonneg_iff, hsign, Int.sign_nonneg_iff]

theorem IsRemainder.nonpos (h : IsRemainder a b r) (ha : a ≤ 0) : r ≤ 0 := by
  rcases h.sign with rfl | hsign
  · exact le_rfl
  · rwa [← Int.sign_nonpos_iff, hsign, Int.sign_nonpos_iff]

theorem isRemainder_tmod (hb : b ≠ 0) : IsRemainder a b (a.tmod b) := by
  refine ⟨?_, ?_, ?_⟩
  · rw [Int.abs_eq_natAbs, Int.abs_eq_natAbs, Int.natAbs_tmod]
    exact_mod_cast Nat.mod_lt _ (Int.natAbs_pos.mpr hb)
  · refine ⟨a.tdiv b, ?_⟩
    have := Int.mul_tdiv_add_tmod a b
    omega
  · rw [or_iff_not_imp_left]
    intro hr
    rcases Int.le_total 0 a with ha | ha
    · have hnonneg := Int.tmod_nonneg b ha
      have hpos : a ≠ 0 := by
        rintro rfl
        exact hr (Int.zero_tmod b)
      rw [Int.sign_eq_one_of_pos (by omega), Int.sign_eq_one_of_pos (by omega)]
    · have hnonneg := Int.tmod_nonneg b (Int.neg_nonneg_of_nonpos ha)
      rw [Int.neg_tmod] at hnonneg
      have hneg : a ≠ 0 := by
        rintro rfl
        exact hr (Int.zero_tmod b)
      rw [Int.sign_eq_neg_one_of_neg (by omega), Int.sign_eq_neg_one_of_neg (by omega)]

/-- Two remainders are on the same side of zero, so they differ by less than the divisor. -/
theorem IsRemainder.unique (hr : IsRemainder a b r) (hs : IsRemainder a b s) : r = s := by
  have hdvd : |b| ∣ r - s := by
    rw [abs_dvd]
    have := Int.dvd_sub hs.dvd hr.dvd
    rwa [sub_sub_sub_cancel_left] at this
  have hsmall : |r - s| < |b| := by
    have hsameSide : 0 ≤ r ∧ 0 ≤ s ∨ r ≤ 0 ∧ s ≤ 0 := by
      rcases Int.le_total 0 a with ha | ha
      · exact .inl ⟨hr.nonneg ha, hs.nonneg ha⟩
      · exact .inr ⟨hr.nonpos ha, hs.nonpos ha⟩
    have hrsmall := abs_lt.mp hr.small
    have hssmall := abs_lt.mp hs.small
    rw [abs_lt]
    omega
  have := Int.eq_zero_of_abs_lt_dvd hdvd hsmall
  omega

end Integers

/-! ### Magnitudes -/

variable {u v : Nat}

theorem Short.mod (hu : Short u) (hv : Short v) : Short (u % v) := by
  obtain ⟨m, s, hm, rfl⟩ := short_iff.mp hu
  obtain ⟨n, t, hn, rfl⟩ := short_iff.mp hv
  rcases Nat.le_total t s with h | h
  · -- both are multiples of the divisor's last bit
    obtain ⟨d, rfl⟩ := Nat.exists_eq_add_of_le' h
    rcases Nat.eq_zero_or_pos n with rfl | hpos
    · simpa using hu
    · rw [pow_add, ← mul_assoc, Nat.mul_mod_mul_right]
      exact short_iff.mpr ⟨_, t, (Nat.mod_lt _ hpos).trans hn, rfl⟩
  · -- both are multiples of the dividend's last bit
    obtain ⟨d, rfl⟩ := Nat.exists_eq_add_of_le' h
    rw [pow_add, ← mul_assoc, Nat.mul_mod_mul_right]
    exact short_iff.mpr ⟨_, s, (Nat.mod_le _ _).trans_lt hm, rfl⟩

theorem Fits.mod (hu : Fits u) (hv : Short v) : Fits (u % v) :=
  ⟨(Nat.mod_le _ _).trans_lt hu.1, hu.2.mod hv⟩

namespace Number

variable {x : Number} {i : Int}

/-- The exact value of a finite number. -/
def value? : Number → Option ℚ
  | finite negative u _ => some (signed negative u / unit)
  | _ => none

theorem floor_eq_map (x : Number) : x.floor? = x.value?.map Int.floor := by
  cases x with
  | nan | infinite => rfl
  | finite negative u =>
    simp only [floor?, value?, Option.map_some, Rat.floor_intCast_div_natCast]

theorem signed_mul (negative : Bool) (u v : Nat) :
    signed negative (u * v) = signed negative u * v := by
  cases negative with
  | false => simp [signed]
  | true => simp [signed]

/-- The bits of a magnitude that is not whole go below one, so it has less than 53 above. -/
theorem small_of_not_dvd {u : Nat} (h : Short u) (hwhole : ¬ unit ∣ u) : u < 2 ^ 52 * unit := by
  obtain ⟨e, he⟩ := exists_unit_eq
  rw [he] at hwhole ⊢
  rcases h.grid e with ⟨j, rfl⟩ | ⟨-, h⟩
  · exact absurd (Nat.dvd_mul_left _ _) hwhole
  · exact h

/-- What is not whole has a small floor, and a small integer is not rounded. -/
theorem fits_floor (h : x.floor? = some i) : Fits (i.natAbs * unit) := by
  cases x with
  | nan | infinite => cases h
  | finite negative u fits =>
    cases h
    by_cases hwhole : unit ∣ u
    · obtain ⟨k, rfl⟩ := hwhole
      rw [mul_comm unit, signed_mul, Int.mul_ediv_cancel _ (by exact_mod_cast unit_pos.ne'),
        natAbs_signed, mul_comm]
      exact fits
    · have hsmall := small_of_not_dvd fits.2 hwhole
      obtain ⟨e, he⟩ := exists_unit_eq
      -- the floor of a negative number may be one further from zero than the number cut off
      have hle : (signed negative u / unit).natAbs ≤ 2 ^ 52 := by
        have hu : (signed negative u).natAbs = u := natAbs_signed negative u
        have hlow : -(2 ^ 52 : Int) ≤ signed negative u / unit :=
          Int.le_ediv_of_mul_le (by exact_mod_cast unit_pos) (by omega)
        have hhigh : signed negative u / unit < 2 ^ 52 :=
          Int.ediv_lt_of_lt_mul (by exact_mod_cast unit_pos) (by omega)
        omega
      constructor
      · calc _ ≤ 2 ^ 52 * unit := Nat.mul_le_mul_right unit hle
          _ < overflow := by decide +kernel
      · have hshort := (short_of_lt (lt_of_le_of_lt hle (by norm_num))).mul_two_pow e
        rwa [← he] at hshort

theorem value_ofInt (h : Fits (i.natAbs * unit)) : (ofInt i).value? = some (i : ℚ) := by
  have hsigned : signed (i < 0) i.natAbs = i := by
    unfold signed
    split
    · next hneg => rw [decide_eq_true_eq] at hneg; omega
    · next hneg => rw [decide_eq_true_eq] at hneg; omega
  have hunit : (unit : ℚ) ≠ 0 := by exact_mod_cast unit_pos.ne'
  rw [ofInt_of_fits h, value?, signed_mul, hsigned]
  push_cast
  rw [mul_div_cancel_right₀ _ hunit]

end Number

namespace Store

variable {store : Store} {x y : Value} {m n : Number}

theorem remainder_of_toNumber (hx : store.toNumber x = .ok m) (hy : store.toNumber y = .ok n) :
    store.remainder x y = .ok (.number (match m.floor?, n.floor? with
      | some a, some b => if b = 0 then .nan else .ofInt (a.tmod b)
      | _, _ => .nan)) := by
  simp only [remainder, toInteger, hx, hy, bind, Except.bind, pure, Except.pure]
  cases m.floor? with
  | none => rfl
  | some a => cases n.floor? <;> rfl

/-- For finite operands the remainder of their floors is taken, unless the divisor's is zero. Toward
zero there is one such remainder, and it is a number of the language: it is taken over as it is. In
every other case the result is no number. -/
theorem remainder_exact (hx : store.toNumber x = .ok m) (hy : store.toNumber y = .ok n) :
    (∀ p q, m.value? = some p → n.value? = some q → ⌊q⌋ ≠ 0 →
      ∃ r, IsRemainder ⌊p⌋ ⌊q⌋ r ∧ (∀ s, IsRemainder ⌊p⌋ ⌊q⌋ s → s = r) ∧
        store.applyBinary .remainder x y = .ok (.number (.ofInt r)) ∧
        (Number.ofInt r).value? = some (r : ℚ)) ∧
    ((m.value? = none ∨ n.value? = none ∨ n.value?.map Int.floor = some 0) →
      store.applyBinary .remainder x y = .ok (.number .nan)) := by
  have hremainder := remainder_of_toNumber hx hy
  rw [Number.floor_eq_map, Number.floor_eq_map] at hremainder
  constructor
  · intro p q hp hq hzero
    have hmod := isRemainder_tmod (a := ⌊p⌋) hzero
    refine ⟨⌊p⌋.tmod ⌊q⌋, hmod, fun s hs => hs.unique hmod, ?_, ?_⟩
    · rw [applyBinary, hremainder]
      simp only [hp, hq, Option.map_some, if_neg hzero]
    · apply Number.value_ofInt
      have hm := Number.fits_floor (x := m) (i := ⌊p⌋) (by rw [Number.floor_eq_map, hp]; rfl)
      have hn := Number.fits_floor (x := n) (i := ⌊q⌋) (by rw [Number.floor_eq_map, hq]; rfl)
      rw [Int.natAbs_tmod, ← Nat.mul_mod_mul_right]
      exact hm.mod hn.2
  · intro h
    rw [applyBinary, hremainder]
    rcases h with h | h | h
    · rw [h]
      rfl
    · rw [h]
      cases m.value? <;> rfl
    · rw [h]
      cases m.value? <;> rfl

/-- An operand beyond the integers that are numbers without gaps, and one that is not whole. -/
theorem large_remainder :
    let x : Value := .number (.ofInt (-10 ^ 22))
    let y : Value := .text "7.5"
    empty.toNumber x = .ok (.ofInt (-10 ^ 22)) ∧
      empty.toNumber y = .ok (Decimal.toNumber false ⟨75, -1⟩) ∧
      (Number.ofInt (-10 ^ 22)).value? = some (-10 ^ 22) ∧
      (Decimal.toNumber false ⟨75, -1⟩).value? = some (15 / 2) ∧
      empty.applyBinary .remainder x y = .ok (.number (.ofInt (-4))) ∧
      (Number.ofInt (-4)).value? = some (-4) := by
  have hp : (Number.ofInt (-10 ^ 22)).value? = some (-10 ^ 22) := by decide +kernel
  have hq : (Decimal.toNumber false ⟨75, -1⟩).value? = some (15 / 2) := by decide +kernel
  have hpfloor : ⌊(-10 ^ 22 : ℚ)⌋ = -10 ^ 22 := by norm_num
  have hqfloor : ⌊(15 / 2 : ℚ)⌋ = 7 := by norm_num
  have hx : empty.toNumber (.number (.ofInt (-10 ^ 22))) = .ok (.ofInt (-10 ^ 22)) := rfl
  have hy : empty.toNumber (.text "7.5") = .ok (Decimal.toNumber false ⟨75, -1⟩) := by
    have hread : readNumeral? (Text.trim "7.5".toList) = some (false, ⟨75, -1⟩) := by decide
    have hplain : "7.5".toList.any Text.isSeparator = false := by decide
    simp only [toNumber, readNumber, hread, hplain, Bool.false_eq_true, if_false]
  obtain ⟨r, hr, -, hresult, hexact⟩ := (remainder_exact hx hy).1 _ _ hp hq (by omega)
  have hfour : IsRemainder (-10 ^ 22) 7 (-4) := ⟨by decide, by decide, .inr (by decide)⟩
  rw [hpfloor, hqfloor] at hr
  obtain rfl := hr.unique hfour
  exact ⟨hx, hy, hp, hq, hresult, by exact_mod_cast hexact⟩

end Store
end Parlance
