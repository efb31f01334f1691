import Parlance.Value.Display
import Parlance.Number.Reading
import Parlance.Fault
/-!
# Coercions

Every value can be taken as a text, a number, a truth or an integer. Two things can go wrong: a list
that contains itself has no text, and a numeral between separator characters has no number.
-/
namespace Parlance
namespace Store

def toText (store : Store) (v : Value) : Except Fault String :=
  match store.display? v with
  | some s => .ok s
  | none => .error .tooDeep

/-- A list counts its elements; a text counts as the numeral it holds, or zero. -/
def toNumber (store : Store) : Value → Except Fault Number
  | .number x => .ok x
  | .text s =>
    match readNumber s.toList with
    | .number x => .ok x
    | .unreadable => .error (.breakdown .numeral)
  | .truth b => .ok (.ofNat b.toNat)
  | .list address => .ok (.ofNat (store.elements address).size)
  | .nothing => .ok (.ofNat 0)

/-- Zero, the empty text, the empty list and nothing are false. -/
def toTruth (store : Store) : Value → Bool
  | .number x => x.isNonzero
  | .text s => !s.isEmpty
  | .truth b => b
  | .list address => !(store.elements address).isEmpty
  | .nothing => false

/-- The number of a value rounded down; none if it is not finite. -/
def toInteger (store : Store) (v : Value) : Except Fault (Option Int) :=
  return (← store.toNumber v).floor?

end Store
end Parlance
