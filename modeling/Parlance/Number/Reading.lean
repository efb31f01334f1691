import Parlance.Number.Decimal
import Parlance.Text.Blank
import Parlance.Text.Digit
/-!
# Reading numbers

A numeral is a sign, digits with a point somewhere among them, and a power of ten; sign, point and
power may be missing, and the digits may be of any script. Text that is no numeral reads as zero.
-/
namespace Parlance
open Text

/-- Splits a sign off; no sign is a plus. -/
def readSign : List Char → Bool × List Char
  | '-' :: cs => (true, cs)
  | '+' :: cs => (false, cs)
  | cs => (false, cs)

/-- The digits at the start and what follows them. -/
def readDigits (cs : List Char) : List Char × List Char :=
  (cs.takeWhile isDigit, cs.dropWhile isDigit)

/-- The digits after a point, if a point comes first. -/
def readFraction : List Char → List Char × List Char
  | '.' :: cs => readDigits cs
  | cs => ([], cs)

/-- A power of ten that fills the rest of the text; none if the rest is something else. -/
def readPower? : List Char → Option Int
  | [] => some 0
  | c :: cs =>
    if c = 'e' ∨ c = 'E' then
      let (negative, cs) := readSign cs
      let (digits, rest) := readDigits cs
      if digits.isEmpty ∨ !rest.isEmpty then none
      else some (if negative then -(ofDigits digits : Int) else ofDigits digits)
    else none

/-- A sign and a decimal, read from a text that has no padding. -/
def readNumeral? (cs : List Char) : Option (Bool × Decimal) :=
  let (negative, cs) := readSign cs
  let (whole, cs) := readDigits cs
  let (fraction, cs) := readFraction cs
  if whole.isEmpty && fraction.isEmpty then none
  else (readPower? cs).map fun power =>
    (negative, ⟨ofDigits (whole ++ fraction), power - fraction.length⟩)

/-- A numeral padded by one of the four separator characters cannot be read at all. -/
inductive Reading
  | number (x : Number)
  | unreadable
  deriving DecidableEq

/-- The number that a text stands for: blanks around a numeral are allowed, and any other text
stands for zero. -/
def readNumber (cs : List Char) : Reading :=
  match readNumeral? (trim cs) with
  | none => .number (.zero false)
  | some (negative, d) => if cs.any isSeparator then .unreadable else .number (d.toNumber negative)

/-- The number that a literal of digits and at most one point stands for. -/
def Number.ofLiteral (cs : List Char) : Number :=
  match readNumeral? cs with
  | some (negative, d) => d.toNumber negative
  | none => .zero false

end Parlance
