import Parlance.Number.Rounding
/-!
# Numbers of the language

A number is a binary64 value. Every finite one is a whole number of units of 2⁻¹⁰⁷⁴, so a finite
number is a sign and a natural number of units with at most 53 significant bits, below 2²⁰⁹⁸. There
is one value that is no number and there are two infinities; zero has both signs.
-/
namespace Parlance

/-- How many units make one. -/
def unit : Nat := Nat.pow 2 1074

/-- The first magnitude, in units, that is too large to be finite. -/
def overflow : Nat := Nat.pow 2 2098

/-- The magnitude of a finite number, in units of 2⁻¹⁰⁷⁴. -/
def Fits (units : Nat) : Prop := units < overflow ∧ Short units

inductive Number
  | nan
  | infinite (negative : Bool)
  | finite (negative : Bool) (units : Nat) (fits : Fits units)
  deriving DecidableEq

namespace Number

theorem overflow_pos : 0 < overflow := by
  unfold overflow
  generalize 2098 = n
  exact Nat.pow_pos (by omega)

theorem fits_zero : Fits 0 := ⟨overflow_pos, 0, 0, by decide, by simp⟩

/-- Zero with a sign. -/
def zero (negative : Bool) : Number := .finite negative 0 fits_zero

/-- The number nearest to a quotient of units; infinite from 2¹⁰²⁴ on. -/
def ofQuotient (negative : Bool) (num den : Nat) : Number :=
  if h : nearest num den < overflow then .finite negative (nearest num den) ⟨h, short_nearest _ _⟩
  else .infinite negative

/-- The number nearest to an integer. -/
def ofInt (i : Int) : Number := ofQuotient (i < 0) (i.natAbs * unit) 1

def ofNat (n : Nat) : Number := ofInt n

instance : Inhabited Number := ⟨zero false⟩

/-- A count of units with a sign. -/
def signed (negative : Bool) (units : Nat) : Int := if negative then -units else units

/-- The place of a number on the line, in units; an infinity stands at the overflow bound. -/
def place? : Number → Option Int
  | nan => none
  | infinite n => some (signed n overflow)
  | finite n u _ => some (signed n u)

/-- The largest integer that is not above the number; none for what is not finite. -/
def floor? : Number → Option Int
  | finite n u _ => some (signed n u / unit)
  | _ => none

/-- The number is a whole number. -/
def isWhole : Number → Bool
  | finite _ u _ => u % unit == 0
  | _ => false

/-- Neither zero is nonzero; what is no number is. -/
def isNonzero (x : Number) : Bool := x.place? != some 0

def neg : Number → Number
  | nan => nan
  | infinite n => infinite (!n)
  | finite n u h => finite (!n) u h

def abs : Number → Number
  | nan => nan
  | infinite _ => infinite false
  | finite _ u h => finite false u h

/-- A sum of zero is negative only if both terms are. -/
def add : Number → Number → Number
  | nan, _ => nan
  | _, nan => nan
  | infinite a, infinite b => if a = b then infinite a else nan
  | infinite a, finite .. => infinite a
  | finite .., infinite b => infinite b
  | finite a x _, finite b y _ =>
    let total := signed a x + signed b y
    if total = 0 then zero (a && b) else ofQuotient (total < 0) total.natAbs 1

def sub (x y : Number) : Number := add x y.neg

def mul : Number → Number → Number
  | nan, _ => nan
  | _, nan => nan
  | infinite a, infinite b => infinite (a != b)
  | infinite a, finite b y _ => if y = 0 then nan else infinite (a != b)
  | finite a x _, infinite b => if x = 0 then nan else infinite (a != b)
  | finite a x _, finite b y _ => ofQuotient (a != b) (x * y) unit

/-- A nonzero number over zero is infinite; zero over zero is no number. -/
def div : Number → Number → Number
  | nan, _ => nan
  | _, nan => nan
  | infinite _, infinite _ => nan
  | infinite a, finite b _ _ => infinite (a != b)
  | finite a _ _, infinite b => zero (a != b)
  | finite a x _, finite b y _ =>
    if y = 0 then (if x = 0 then nan else infinite (a != b))
    else ofQuotient (a != b) (x * unit) y

/-- What is no number is not below anything, nor anything below it. -/
def lt (x y : Number) : Bool :=
  match x.place?, y.place? with
  | some a, some b => a < b
  | _, _ => false

def le (x y : Number) : Bool :=
  match x.place?, y.place? with
  | some a, some b => a ≤ b
  | _, _ => false

end Number
end Parlance
