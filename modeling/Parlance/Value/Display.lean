import Parlance.Value.Basic
import Parlance.Number.Display
/-!
# The display of values

Every value has a text: numbers in the language's own form, texts as they are, lists as their
elements between brackets. A list that can be reached from itself has none. Displaying goes through
at most as many lists, one inside the other, as the store has; a display that wants to go deeper has
met some list twice on its way.
-/
namespace Parlance

def truthWord (b : Bool) : String := if b then "true" else "false"

/-- The display of a list, from the displays of its elements. -/
def bracketed (items : List String) : String := "[" ++ String.intercalate ", " items ++ "]"

/-- The display of a value that goes through at most `depth` lists, one inside the other. -/
def Store.displayWithin (store : Store) : (depth : Nat) → Value → Option String
  | _, .number x => some x.text
  | _, .text s => some s
  | _, .truth b => some (truthWord b)
  | _, .nothing => some "nothing"
  | 0, .list _ => none
  | depth + 1, .list address =>
    ((store.elements address).toList.mapM (store.displayWithin depth)).map bracketed

/-- The display of a value; none if a list in it can be reached from itself. -/
def Store.display? (store : Store) (v : Value) : Option String :=
  store.displayWithin (store.size + 1) v

end Parlance
