import Parlance.Number.Basic
/-!
# Values and the store of lists

A value is a number, a text, a truth, a list or nothing. Lists are shared: a value holds the address
of its list, and the elements are in the store. Lists are never given back, so an address stays
valid.
-/
namespace Parlance

inductive Value
  | number (x : Number)
  | text (s : String)
  | truth (b : Bool)
  | list (address : Nat)
  | nothing
  deriving DecidableEq

instance : Inhabited Value := ⟨.nothing⟩

inductive Kind
  | number | text | truth | list | nothing
  deriving DecidableEq, Repr

def Kind.label : Kind → String
  | number => "Number" | text => "Text" | truth => "Truth" | list => "List" | nothing => "Nothing"

def Value.kind : Value → Kind
  | number _ => .number | text _ => .text | truth _ => .truth | list _ => .list
  | nothing => .nothing

def Value.ofNat (n : Nat) : Value := .number (.ofNat n)

/-- The elements of every list, by address. -/
structure Store where
  lists : Array (Array Value)

namespace Store

def empty : Store := ⟨#[]⟩

/-- How many lists there are. -/
def size (s : Store) : Nat := s.lists.size

/-- The elements of the list at an address; no list has no elements. -/
def elements (s : Store) (address : Nat) : Array Value := s.lists.getD address #[]

/-- Adds a list and gives its address. -/
def alloc (s : Store) (items : Array Value) : Nat × Store := (s.lists.size, ⟨s.lists.push items⟩)

/-- Changes the elements of one list. -/
def update (s : Store) (address : Nat) (f : Array Value → Array Value) : Store :=
  ⟨s.lists.modify address f⟩

theorem size_alloc (s : Store) (items : Array Value) : (s.alloc items).2.size = s.size + 1 := by
  simp [alloc, size]

theorem elements_alloc (s : Store) (items : Array Value) (address : Nat) :
    (s.alloc items).2.elements address
      = if address = s.size then items else s.elements address := by
  simp only [alloc, elements, size, Array.getD_eq_getD_getElem?, Array.getElem?_push]
  by_cases h : address = s.lists.size <;> simp [h]

theorem size_update (s : Store) (address : Nat) (f : Array Value → Array Value) :
    (s.update address f).size = s.size := by
  simp [update, size]

theorem elements_update (s : Store) (address other : Nat) (f : Array Value → Array Value)
    (h : address < s.size) :
    (s.update address f).elements other
      = if other = address then f (s.elements address) else s.elements other := by
  simp only [update, elements, Array.getD_eq_getD_getElem?, Array.getElem?_modify]
  by_cases ho : address = other
  · subst ho
    simp [Array.getElem?_eq_getElem (show address < s.lists.size from h)]
  · simp [ho, Ne.symm ho]

end Store
end Parlance
