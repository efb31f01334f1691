import Parlance.Number.Basic
/-!
# Decimal fractions and the numbers nearest to them

A decimal is a natural number times a power of ten. `Decimal.units` rounds it to a magnitude and
`Decimal.shortest` goes back: of the decimals that round to a magnitude it takes one with the fewest
digits, and of those the one nearest to it.
-/
namespace Parlance

/-- The value `digits · 10 ^ exponent`. -/
structure Decimal where
  digits : Nat
  exponent : Int
  deriving DecidableEq, Repr

/-- How many decimal digits a natural number has. -/
def decimalLength (n : Nat) : Nat := if n < 10 then 1 else decimalLength (n / 10) + 1

namespace Decimal

/-- The value in units, as a quotient. -/
def quotient (d : Decimal) : Nat × Nat :=
  if 0 ≤ d.exponent then (d.digits * Nat.pow 10 d.exponent.toNat * unit, 1)
  else (d.digits * unit, Nat.pow 10 (-d.exponent).toNat)

/-- The nearest magnitude with 53 significant bits, in units. -/
def units (d : Decimal) : Nat := nearest d.quotient.1 d.quotient.2

/-- The number nearest to a decimal. Values far outside the range of the exponents are answered
without computing their powers of ten. -/
def toNumber (negative : Bool) (d : Decimal) : Number :=
  if d.digits = 0 then .zero negative
  else if 400 < d.exponent then .infinite negative
  else if d.exponent < -(401 + d.digits.log2 : Int) then .zero negative
  else .ofQuotient negative d.quotient.1 d.quotient.2

/-- The power of ten of the first digit of a magnitude above zero. -/
def leadingPower (u : Nat) : Int :=
  if unit ≤ u then (decimalLength (u / unit) : Int) - 1 else -(decimalLength ((unit - 1) / u) : Int)

/-- A magnitude as a quotient whose whole part counts steps of a power of ten. -/
def steps (u : Nat) (power : Int) : Nat × Nat :=
  if 0 ≤ power then (u, unit * Nat.pow 10 power.toNat)
  else (u * Nat.pow 10 (-power).toNat, unit)

/-- The decimal with the given number of digits that rounds to a magnitude, if there is one. Its two
neighbours on the decimal grid are tried; where both round to it the nearer is taken, and the even
one of two equally near. -/
def withDigits? (u count : Nat) : Option Decimal :=
  let power := leadingPower u - (count - 1 : Nat)
  let (num, den) := steps u power
  let below : Decimal := ⟨num / den, power⟩
  let above : Decimal := ⟨num / den + 1, power⟩
  match decide (below.units = u), decide (above.units = u) with
  | true, true => some (if roundQuotient num den = num / den then below else above)
  | true, false => some below
  | false, true => some above
  | false, false => none

/-- The magnitude itself, written out in full. -/
def exact (u : Nat) : Decimal := ⟨u * Nat.pow 5 1074, -1074⟩

/-- The decimal with the fewest digits that rounds to a magnitude. Seventeen digits always do. -/
def shortest (u : Nat) : Decimal := ((List.range' 1 17).findSome? (withDigits? u)).getD (exact u)

/-- The same value without zeros at the end. -/
def trim (d : Decimal) : Decimal :=
  if d.digits ≠ 0 ∧ d.digits % 10 = 0 then trim ⟨d.digits / 10, d.exponent + 1⟩ else d
  termination_by d.digits
  decreasing_by omega

end Decimal
end Parlance
