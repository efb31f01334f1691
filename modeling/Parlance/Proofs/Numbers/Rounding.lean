import Mathlib
import Parlance.Number.Basic
/-!
# Rounding to the nearest number

Every magnitude that arithmetic or reading comes to is a quotient of units, rounded. `Rounded` says
what that means without saying how it is computed: no magnitude with 53 significant bits is nearer,
and of two equally near ones it is the one with the even significand. There is exactly one such
magnitude, and it is the one that is computed (`rounded_iff`); what has 53 significant bits already
stays as it is (`Number.ofInt_of_fits`).
-/
namespace Parlance

variable {x : ℚ} {num den n u v s : Nat} {negative : Bool} {y z : Number}

/-- A magnitude that an exact one, in units, is rounded to. -/
structure Rounded (x : ℚ) (u : Nat) : Prop where
  short : Short u
  /-- no other is nearer -/
  closest : ∀ v, Short v → |x - u| ≤ |x - v|
  /-- of two equally near ones it is the one whose significand is even -/
  even : ∀ v, Short v → v ≠ u → |x - u| = |x - v| →
    ∃ s i j, u = i * 2 ^ s ∧ v = j * 2 ^ s ∧ Even i ∧ Odd j

theorem two_pow_eq (n : Nat) : Nat.pow 2 n = 2 ^ n := Nat.pow_eq

theorem exists_unit_eq : ∃ k, unit = 2 ^ k := by
  unfold unit
  generalize 1074 = k
  exact ⟨k, two_pow_eq k⟩

theorem unit_pos : 0 < unit := by
  obtain ⟨k, hk⟩ := exists_unit_eq
  rw [hk]
  exact Nat.two_pow_pos k

/-! ### Quotients rounded to natural numbers -/

/-- A quotient is at most a half away from the natural number it is rounded to, and that number is
even if it is as much. -/
theorem roundQuotient_half (num : Nat) (hden : 0 < den) :
    |(num / den : ℚ) - roundQuotient num den| ≤ 1 / 2 ∧
      (|(num / den : ℚ) - roundQuotient num den| = 1 / 2 → Even (roundQuotient num den)) := by
  have hpos : (0 : ℚ) < den := by exact_mod_cast hden
  have hsplit : (num / den : ℚ) = (num / den : Nat) + (num % den : Nat) / den := by
    have hnum : ((num / den : Nat) * den + (num % den : Nat) : ℚ) = num := by
      exact_mod_cast Nat.div_add_mod' num den
    rw [← hnum, add_div, mul_div_cancel_right₀ _ hpos.ne']
  have htwice : ((num % den : Nat) / den : ℚ) * (2 * den) = (2 * (num % den) : Nat) := by
    push_cast
    field_simp
  have hnonneg : (0 : ℚ) ≤ (num % den : Nat) / den := by positivity
  have hone : ((num % den : Nat) / den : ℚ) < 1 := by
    rw [div_lt_one hpos]
    exact_mod_cast Nat.mod_lt num hden
  rw [hsplit]
  unfold roundQuotient
  simp only
  generalize num / den = q
  generalize ((num % den : Nat) / den : ℚ) = part at *
  split
  · next hlow =>
    have hpart : part < 1 / 2 := by
      have : part * (2 * den) < den := htwice ▸ by exact_mod_cast hlow
      nlinarith
    rw [add_sub_cancel_left, abs_of_nonneg hnonneg]
    exact ⟨hpart.le, fun heq => absurd heq hpart.ne⟩
  · split
    · next hhigh =>
      have hpart : 1 / 2 < part := by
        have : den < part * (2 * den) := htwice ▸ by exact_mod_cast hhigh
        nlinarith
      have habs : |(q : ℚ) + part - (q + 1 : Nat)| = 1 - part := by
        rw [abs_of_nonpos (by push_cast; linarith)]
        push_cast
        ring
      rw [habs]
      exact ⟨by linarith, fun heq => by linarith⟩
    · next hhigh hlow =>
      have hpart : part = 1 / 2 := by
        have : part * (2 * den) = den := htwice ▸ by exact_mod_cast (by omega)
        nlinarith
      rw [hpart]
      rcases Nat.even_or_odd q with heven | hodd
      · rw [Nat.even_iff.mp heven]
        exact ⟨by norm_num, fun _ => heven⟩
      · rw [Nat.odd_iff.mp hodd]
        exact ⟨by norm_num, fun _ => hodd.add_odd odd_one⟩

/-- What is at most a half away from one natural number is at least a half away from any other. -/
theorem half_le_of_ne {i j : Nat} (h : |x - i| ≤ 1 / 2) (hne : j ≠ i) : 1 / 2 ≤ |x - j| := by
  have hone : (1 : ℚ) ≤ |(j : ℚ) - i| := by
    have : (1 : Int) ≤ |(j : Int) - i| := Int.one_le_abs (by omega)
    exact_mod_cast this
  have htriangle : |(j : ℚ) - i| ≤ |x - j| + |x - i| := by
    rw [abs_sub_comm x j]
    exact abs_sub_le _ _ _
  linarith

/-- Two natural numbers a half away are neighbours. -/
theorem odd_of_half {i j : Nat} (hi : |x - i| = 1 / 2) (hj : |x - j| = 1 / 2) (hne : j ≠ i)
    (heven : Even i) : Odd j := by
  have hnear : |(j : ℚ) - i| ≤ 1 := by
    have := abs_sub_le (j : ℚ) x i
    rw [abs_sub_comm (j : ℚ) x, hi, hj] at this
    linarith
  have hstep : |(j : Int) - i| ≤ 1 := by exact_mod_cast hnear
  rw [abs_le] at hstep
  rcases heven with ⟨k, rfl⟩
  rw [Nat.odd_iff]
  omega

/-! ### Magnitudes with 53 significant bits -/

theorem short_iff : Short n ↔ ∃ m s, m < 2 ^ 53 ∧ n = m * 2 ^ s := by
  simp only [Short, significantBits, two_pow_eq]

theorem short_of_lt (h : n < 2 ^ 53) : Short n := short_iff.mpr ⟨n, 0, h, by simp⟩

theorem Short.mul_two_pow (h : Short n) (s : Nat) : Short (n * 2 ^ s) := by
  obtain ⟨m, t, hm, rfl⟩ := short_iff.mp h
  exact short_iff.mpr ⟨m, t + s, hm, by rw [pow_add, mul_assoc]⟩

theorem short_two_pow (s : Nat) : Short (2 ^ s) := by
  have := (short_of_lt (n := 1) (by norm_num)).mul_two_pow s
  rwa [one_mul] at this

theorem short_overflow : Short overflow := by
  unfold overflow
  generalize 2098 = k
  rw [two_pow_eq]
  exact short_two_pow k

/-- A short magnitude is a multiple of a power of two, unless it is below 2⁵² times this power. -/
theorem Short.grid (h : Short n) (s : Nat) : (∃ j, n = j * 2 ^ s) ∨ 0 < s ∧ n < 2 ^ 52 * 2 ^ s := by
  obtain ⟨m, t, hm, rfl⟩ := short_iff.mp h
  rcases Nat.lt_or_ge t s with hts | hst
  · right
    obtain ⟨k, rfl⟩ := Nat.exists_eq_add_of_lt hts
    refine ⟨by omega, ?_⟩
    calc m * 2 ^ t < 2 ^ 53 * 2 ^ t := Nat.mul_lt_mul_of_pos_right hm (Nat.two_pow_pos t)
      _ = 2 ^ 52 * 2 ^ (t + 1) := by ring
      _ ≤ 2 ^ 52 * 2 ^ (t + k + 1) :=
        Nat.mul_le_mul_left _ (Nat.pow_le_pow_right (by norm_num) (by omega))
  · left
    obtain ⟨k, rfl⟩ := Nat.exists_eq_add_of_le hst
    exact ⟨m * 2 ^ k, by ring⟩

/-- Where low bits are beyond the significand, the significand is full. -/
theorem le_of_excess_pos (h : 0 < excess n) : 2 ^ 52 * 2 ^ excess n ≤ n := by
  have hlog : n.log2 = 52 + excess n := by
    unfold excess significantBits at *
    omega
  have hn : n ≠ 0 := by
    rintro rfl
    simp [excess, significantBits] at h
  rw [← pow_add, ← hlog]
  exact Nat.log2_self_le hn

/-! ### The nearest magnitude -/

/-- Distances on the grid of the multiples of a power of two. -/
theorem abs_sub_grid (x : ℚ) (j s : Nat) :
    |x - (j * 2 ^ s : Nat)| = |x / 2 ^ s - j| * 2 ^ s := by
  have hpos : (0 : ℚ) < 2 ^ s := by positivity
  rw [← abs_of_pos hpos, ← abs_mul, abs_of_pos hpos, sub_mul, div_mul_cancel₀ _ hpos.ne']
  push_cast
  rfl

/-- On the grid of the multiples of a power of two a multiple that is at most half a step away is a
nearest one. -/
theorem closest_grid {i : Nat} (hhalf : |x / 2 ^ s - i| ≤ 1 / 2) (j : Nat) :
    |x - (i * 2 ^ s : Nat)| ≤ |x - (j * 2 ^ s : Nat)| := by
  rw [abs_sub_grid, abs_sub_grid]
  apply mul_le_mul_of_nonneg_right _ (by positivity)
  by_cases hj : j = i
  · rw [hj]
  · exact hhalf.trans (half_le_of_ne hhalf hj)

/-- What is off the grid lies below a full significand, which is on the grid. -/
theorem closer_than_below {i : Nat} (hhalf : |x / 2 ^ s - i| ≤ 1 / 2)
    (hfull : ((2 ^ 52 * 2 ^ s : Nat) : ℚ) ≤ x) (hv : v < 2 ^ 52 * 2 ^ s) :
    |x - (i * 2 ^ s : Nat)| < |x - v| := by
  have hbelow : (v : ℚ) < (2 ^ 52 * 2 ^ s : Nat) := by exact_mod_cast hv
  have hclosest := closest_grid hhalf (2 ^ 52)
  rw [abs_of_nonneg (sub_nonneg.mpr hfull)] at hclosest
  rw [abs_of_nonneg (a := x - v) (by linarith)]
  linarith

theorem rounded_of_half {i : Nat} (hshort : Short (i * 2 ^ s)) (hhalf : |x / 2 ^ s - i| ≤ 1 / 2)
    (heven : |x / 2 ^ s - i| = 1 / 2 → Even i)
    (hfull : 0 < s → ((2 ^ 52 * 2 ^ s : Nat) : ℚ) ≤ x) : Rounded x (i * 2 ^ s) := by
  refine ⟨hshort, ?_, ?_⟩
  · intro v hv
    obtain ⟨j, rfl⟩ | ⟨hpos, hlt⟩ := hv.grid s
    · exact closest_grid hhalf j
    · exact (closer_than_below hhalf (hfull hpos) hlt).le
  · intro v hv hne heq
    obtain ⟨j, rfl⟩ | ⟨hpos, hlt⟩ := hv.grid s
    · have hji : j ≠ i := by
        rintro rfl
        exact hne rfl
      rw [abs_sub_grid, abs_sub_grid] at heq
      have hsame : |x / 2 ^ s - i| = |x / 2 ^ s - j| := mul_right_cancel₀ (by positivity) heq
      have hi : |x / 2 ^ s - i| = 1 / 2 := le_antisymm hhalf (hsame ▸ half_le_of_ne hhalf hji)
      exact ⟨s, i, j, rfl, rfl, heven hi, odd_of_half hi (hsame ▸ hi) hji (heven hi)⟩
    · exact absurd heq (closer_than_below hhalf (hfull hpos) hlt).ne

theorem rounded_nearest (num : Nat) (hden : 0 < den) : Rounded (num / den) (nearest num den) := by
  have hshort := short_nearest num den
  unfold nearest at *
  simp only [two_pow_eq] at *
  have hscale : (num / (den * 2 ^ excess (num / den) : Nat) : ℚ)
      = num / den / 2 ^ excess (num / den) := by
    push_cast
    rw [div_div]
  have hpos : 0 < den * 2 ^ excess (num / den) := by positivity
  obtain ⟨hhalf, heven⟩ := roundQuotient_half num hpos
  rw [hscale] at hhalf heven
  refine rounded_of_half hshort hhalf heven fun hpos => ?_
  have hfloor : ((num / den : Nat) : ℚ) ≤ num / den := Nat.cast_div_le
  exact le_trans (by exact_mod_cast le_of_excess_pos hpos) hfloor

/-- A power of two divides an odd multiple of a power of two only if it is no larger. -/
theorem le_of_two_pow_dvd {j s t : Nat} (hj : Odd j) (h : 2 ^ t ∣ j * 2 ^ s) : t ≤ s := by
  have hcoprime : Nat.Coprime (2 ^ t) j := Nat.Coprime.pow_left t (Nat.coprime_two_left.mpr hj)
  exact (Nat.pow_dvd_pow_iff_le_right (by norm_num)).mp (hcoprime.dvd_of_dvd_mul_left h)

theorem Rounded.unique (hu : Rounded x u) (hv : Rounded x v) : u = v := by
  by_contra hne
  have heq : |x - u| = |x - v| := le_antisymm (hu.closest v hv.short) (hv.closest u hu.short)
  obtain ⟨s, i, j, hi, hj, heven, hodd⟩ := hu.even v hv.short (Ne.symm hne) heq
  obtain ⟨t, k, l, hk, hl, heven', hodd'⟩ := hv.even u hu.short hne heq.symm
  -- the one has more factors of two than the other, and the other way round
  have hdvd : ∀ {a b : Nat}, Even a → 2 ^ (b + 1) ∣ a * 2 ^ b := by
    rintro a b ⟨c, rfl⟩
    exact ⟨c, by ring⟩
  have hts : t + 1 ≤ s := le_of_two_pow_dvd hodd (by rw [← hj, hk]; exact hdvd heven')
  have hst : s + 1 ≤ t := le_of_two_pow_dvd hodd' (by rw [← hl, hi]; exact hdvd heven)
  omega

/-- The magnitude that is computed is the one that a quotient is rounded to. -/
theorem rounded_iff (hden : 0 < den) : Rounded (num / den) u ↔ nearest num den = u :=
  ⟨(rounded_nearest num hden).unique, fun h => h ▸ rounded_nearest num hden⟩

theorem rounded_natCast_iff {n : Nat} : Rounded n u ↔ nearest n 1 = u := by
  rw [← rounded_iff Nat.one_pos, Nat.cast_one, div_one]

/-- Rounding does not go past a magnitude that needs no rounding. -/
theorem Rounded.le_of_le (h : Rounded x u) (hv : Short v) (hle : (v : ℚ) ≤ x) : v ≤ u := by
  by_contra hlt
  have hcast : (u : ℚ) < v := by exact_mod_cast Nat.lt_of_not_le hlt
  have := h.closest v hv
  rw [abs_of_nonneg (by linarith), abs_of_nonneg (by linarith)] at this
  linarith

theorem Rounded.le_of_ge (h : Rounded x u) (hv : Short v) (hge : x ≤ v) : u ≤ v := by
  by_contra hlt
  have hcast : (v : ℚ) < u := by exact_mod_cast Nat.lt_of_not_le hlt
  have := h.closest v hv
  rw [abs_of_nonpos (by linarith), abs_of_nonpos (by linarith)] at this
  linarith

theorem Short.rounded (h : Short u) : Rounded u u := by
  refine ⟨h, fun v _ => by simp, fun v _ hne heq => ?_⟩
  rw [sub_self, abs_zero, eq_comm, abs_eq_zero, sub_eq_zero] at heq
  exact absurd (by exact_mod_cast heq.symm) hne

/-- Less than half a unit is rounded to nothing. -/
theorem Rounded.eq_zero (h : Rounded x u) (hx : 0 ≤ x) (hhalf : x < 1 / 2) : u = 0 := by
  by_contra hu
  have hone : (1 : ℚ) ≤ u := by exact_mod_cast Nat.one_le_iff_ne_zero.mpr hu
  have := h.closest 0 (short_of_lt (by norm_num))
  rw [abs_of_nonpos (by linarith), Nat.cast_zero, sub_zero, abs_of_nonneg hx] at this
  linarith

namespace Number

def isFinite : Number → Bool
  | finite .. => true
  | _ => false

theorem natAbs_signed (negative : Bool) (u : Nat) : (signed negative u).natAbs = u := by
  cases negative with
  | false => rfl
  | true => simp [signed]

/-- The number that an exact magnitude with a sign is rounded to: it is infinite if the magnitude is
rounded to one that is too large to be finite. -/
inductive Nearest (negative : Bool) (x : ℚ) : Number → Prop
  | finite {u : Nat} (fits : Fits u) : Rounded x u → Nearest negative x (.finite negative u fits)
  | infinite {u : Nat} : Rounded x u → overflow ≤ u → Nearest negative x (.infinite negative)

theorem nearest_ofQuotient (negative : Bool) (num : Nat) (hden : 0 < den) :
    Nearest negative (num / den) (ofQuotient negative num den) := by
  have h := rounded_nearest num hden
  unfold ofQuotient
  split
  · exact .finite _ h
  · next hlarge => exact .infinite h (Nat.le_of_not_lt hlarge)

theorem Nearest.unique (hy : Nearest negative x y) (hz : Nearest negative x z) : y = z := by
  cases hy with
  | finite fits h =>
    cases hz with
    | finite fits' h' =>
      cases h.unique h'
      rfl
    | infinite h' hlarge =>
      cases h.unique h'
      exact absurd fits.1 (Nat.not_lt.mpr hlarge)
  | infinite h hlarge =>
    cases hz with
    | finite fits h' =>
      cases h.unique h'
      exact absurd fits.1 (Nat.not_lt.mpr hlarge)
    | infinite => rfl

/-- A magnitude that fits is not rounded. -/
theorem ofQuotient_of_fits (negative : Bool) (h : Fits u) :
    ofQuotient negative u 1 = .finite negative u h := by
  have hnearest := nearest_ofQuotient negative u Nat.one_pos
  rw [Nat.cast_one, div_one] at hnearest
  exact hnearest.unique (.finite h h.2.rounded)

/-- An integer that is a number of the language is taken over as it is. -/
theorem ofInt_of_fits {i : Int} (h : Fits (i.natAbs * unit)) :
    ofInt i = .finite (i < 0) (i.natAbs * unit) h := ofQuotient_of_fits _ h

end Number
end Parlance
