/-!
# Rounding to 53 significant bits

Magnitudes are natural numbers of a fixed unit. `nearest` rounds a quotient of natural numbers to
the nearest natural number with at most 53 significant bits, a tie to the one whose significand is
even. Main statement: what it yields has at most 53 significant bits.
-/
namespace Parlance

/-- How many bits a significand has. -/
def significantBits : Nat := 53

/-- At most 53 significant bits. -/
def Short (n : Nat) : Prop := ∃ m s, m < Nat.pow 2 significantBits ∧ n = m * Nat.pow 2 s

/-- A quotient rounded to a natural number, a tie to the even one. -/
def roundQuotient (num den : Nat) : Nat :=
  let q := num / den
  let twice := 2 * (num % den)
  if twice < den then q else if den < twice then q + 1 else q + q % 2

/-- How many low bits of a quotient are beyond the significand. -/
def excess (n : Nat) : Nat := n.log2 + 1 - significantBits

/-- A quotient rounded to 53 significant bits. -/
def nearest (num den : Nat) : Nat :=
  let s := excess (num / den)
  roundQuotient num (den * Nat.pow 2 s) * Nat.pow 2 s

theorem roundQuotient_le (num den : Nat) : roundQuotient num den ≤ num / den + 1 := by
  unfold roundQuotient
  simp only
  split
  · omega
  · split <;> omega

theorem div_pow_excess_lt (n : Nat) :
    n / Nat.pow 2 (excess n) < Nat.pow 2 significantBits := by
  rcases Nat.eq_zero_or_pos n with rfl | hn
  · decide
  · apply Nat.div_lt_of_lt_mul
    have hlog : n < 2 ^ (n.log2 + 1) := Nat.lt_log2_self
    have hbits : n.log2 + 1 ≤ excess n + significantBits := by
      unfold excess
      omega
    calc n < 2 ^ (n.log2 + 1) := hlog
      _ ≤ 2 ^ (excess n + significantBits) := Nat.pow_le_pow_right (by omega) hbits
      _ = Nat.pow 2 (excess n) * Nat.pow 2 significantBits := Nat.pow_add ..

/-- Carrying into a new bit leaves a power of two. -/
theorem short_nearest (num den : Nat) : Short (nearest num den) := by
  unfold nearest
  simp only
  generalize hs : excess (num / den) = s
  have hle := roundQuotient_le num (den * Nat.pow 2 s)
  have hlt : num / (den * Nat.pow 2 s) < Nat.pow 2 significantBits := by
    rw [← Nat.div_div_eq_div_mul, ← hs]
    exact div_pow_excess_lt _
  rcases Nat.lt_or_ge (roundQuotient num (den * Nat.pow 2 s)) (Nat.pow 2 significantBits)
    with h | h
  · exact ⟨_, _, h, rfl⟩
  · have hcarry : roundQuotient num (den * Nat.pow 2 s) = 2 * Nat.pow 2 52 := by
      have hbits : Nat.pow 2 significantBits = 2 * Nat.pow 2 52 := by decide
      omega
    have hnext : Nat.pow 2 (s + 1) = Nat.pow 2 s * 2 := rfl
    refine ⟨Nat.pow 2 52, s + 1, by decide, ?_⟩
    rw [hcarry, hnext, Nat.mul_comm 2, Nat.mul_assoc, Nat.mul_comm 2]

end Parlance
