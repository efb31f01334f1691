import Parlance.Number.Decimal
/-!
# Numbers as text

A finite number is written with the fewest digits that read back. From 10⁻⁴ up to 10¹⁶ it stands in
positional form, outside with a power of ten of at least two digits. The language and its tree dumps
differ in a few spellings only, which `Style` gathers.
-/
namespace Parlance

/-- The digits of a natural number, first to last. -/
def decimalDigits (n : Nat) : List Char :=
  if n < 10 then [Char.ofNat (48 + n)] else decimalDigits (n / 10) ++ [Char.ofNat (48 + n % 10)]

/-- A natural number as text. -/
def natText (n : Nat) : String := String.ofList (decimalDigits n)

/-- An integer as text. -/
def intText (i : Int) : String := if i < 0 then "-" ++ natText i.natAbs else natText i.natAbs

/-- The spellings in which two forms of a number differ. -/
structure Number.Style where
  /-- stands before a power of ten -/
  mark : Char
  /-- ends a whole number in positional form -/
  whole : String
  /-- shows the sign of zero -/
  zeroSign : Bool
  infinity : String
  nan : String

/-- The language's own display. -/
def Number.Style.display : Number.Style := ⟨'E', "", false, "Infinity", "NaN"⟩

/-- The form of numbers in tree dumps: a number can be told from an integer. -/
def Number.Style.dump : Number.Style := ⟨'e', ".0", true, "inf", "nan"⟩

namespace Decimal

/-- Positional form, for a first digit that stands for `10 ^ power`. -/
def positional (whole : String) (digits : List Char) (exponent power : Int) : List Char :=
  if 0 ≤ exponent then digits ++ List.replicate exponent.toNat '0' ++ whole.toList
  else if 0 ≤ power then
    digits.take (power.toNat + 1) ++ '.' :: digits.drop (power.toNat + 1)
  else '0' :: '.' :: List.replicate (-power - 1).toNat '0' ++ digits

/-- One digit before the point and a power of ten. -/
def scientific (mark : Char) (digits : List Char) (power : Int) : List Char :=
  let lead := digits.take 1
  let rest := digits.drop 1
  let point := if rest.isEmpty then [] else '.' :: rest
  let size := decimalDigits power.natAbs
  let padded := if size.length < 2 then '0' :: size else size
  lead ++ point ++ mark :: (if power < 0 then '-' else '+') :: padded

/-- The text of a decimal without zeros at its end. -/
def layout (style : Number.Style) (d : Decimal) : List Char :=
  let digits := decimalDigits d.digits
  let power := d.exponent + digits.length - 1
  if d.digits = 0 then '0' :: style.whole.toList
  else if -4 ≤ power ∧ power < 16 then positional style.whole digits d.exponent power
  else scientific style.mark digits power

end Decimal

/-- The text of a number. -/
def Number.textChars (style : Number.Style) : Number → List Char
  | .nan => style.nan.toList
  | .infinite negative => (if negative then ['-'] else []) ++ style.infinity.toList
  | .finite negative u _ =>
    let digits := if u = 0 then ⟨0, 0⟩ else (Decimal.shortest u).trim
    let signed := negative && (u != 0 || style.zeroSign)
    (if signed then ['-'] else []) ++ digits.layout style

/-- The language's display of a number. -/
def Number.text (x : Number) : String := String.ofList (x.textChars .display)

/-- A number as tree dumps show it. -/
def Number.dump (x : Number) : String := String.ofList (x.textChars .dump)

end Parlance
