import Parlance.Value.Coercion
/-!
# Operations on lists

Reading and replacing an element, adding one at the end, deleting the elements that have a given
display, and the elements as they are at one moment. An operation that fails leaves the store as it
is.
-/
namespace Parlance
namespace Store

/-- The address of a list that is needed for something. -/
def addressOf (use : ListUse) : Value → Except Fault Nat
  | .list address => .ok address
  | v => .error (.notList use v.kind)

/-- The position that an index value denotes in a list of the given length. -/
def positionOf (store : Store) (length : Nat) (index : Value) : Except Fault Nat := do
  match ← store.toInteger index with
  | some i =>
    if 0 ≤ i ∧ i < length then return i.toNat
    else .error (.outOfRange (← store.toText index) length)
  | none => .error (.outOfRange (← store.toText index) length)

/-- The element at an index. -/
def getAt (store : Store) (target index : Value) : Except Fault Value := do
  let items := store.elements (← addressOf .indexing target)
  return items.getD (← store.positionOf items.size index) .nothing

/-- Replaces the element at an index. -/
def setAt (store : Store) (target index value : Value) : Except Fault Store := do
  let address ← addressOf .assignment target
  let position ← store.positionOf (store.elements address).size index
  return store.update address fun items => items.setIfInBounds position value

/-- Adds an element at the end. -/
def append (store : Store) (target value : Value) : Except Fault Store := do
  let address ← addressOf .append target
  return store.update address (·.push value)

/-- The elements whose display is not the given one. -/
def without (store : Store) (shown : String) : List Value → Except Fault (List Value)
  | [] => .ok []
  | v :: vs => do
    let text ← store.toText v
    let rest ← store.without shown vs
    return if text = shown then rest else v :: rest

/-- Deletes every element whose display is that of the value. -/
def remove (store : Store) (target value : Value) : Except Fault Store := do
  let address ← addressOf .remove target
  let shown ← store.toText value
  let kept ← store.without shown (store.elements address).toList
  return store.update address fun _ => kept.toArray

/-- The elements as they are now. -/
def items (store : Store) (source : Value) : Except Fault (List Value) := do
  let address ← addressOf .forEach source
  return (store.elements address).toList

end Store
end Parlance
