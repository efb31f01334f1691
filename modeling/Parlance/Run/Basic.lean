import Parlance.Fault
import Parlance.World.Basic
/-!
# Runs

A run changes a state and either yields a result or stops. What was done before it stopped stays
done: the state after a stop is as much an answer as the state after a result.
-/
namespace Parlance

/-- The variables of a program or of one call, by lower-case name. -/
abbrev Frame := Table Value

/-- What a run changes. -/
structure State where
  store : Store
  frame : Frame
  world : World
  /-- the program has been told to stop -/
  halted : Bool
  /-- after so many more writes the program is told to stop -/
  haltAfter : Option Nat
  /-- the texts written, the last one first -/
  written : List String
  /-- the lines of the trace, the last one first -/
  trace : List String

/-- The state after a text is written. -/
def State.afterWrite (s : State) (text : String) : State :=
  { s with
    written := text :: s.written
    halted := s.halted || s.haltAfter.any (· ≤ 1)
    haltAfter := s.haltAfter.map (· - 1) }

/-- Why a run stops before its end. -/
inductive Stop
  | fault (fault : Fault) (offset : Nat)
  /-- a function gives back a value -/
  | returned (v : Value)
  /-- a loop went through more rounds than the run may make -/
  | exhausted
  | waiting (need : Need)
  deriving DecidableEq

/-- A part of a run. -/
def Run (α : Type) : Type := State → Except Stop α × State

namespace Run

variable {α β : Type}

@[always_inline, inline]
def result (a : α) : Run α := fun s => (.ok a, s)

@[always_inline, inline]
def andThen (x : Run α) (f : α → Run β) : Run β := fun s =>
  match x s with
  | (.ok a, s) => f a s
  | (.error e, s) => (.error e, s)

instance : Monad Run where
  pure := result
  bind := andThen

theorem pure_apply (a : α) (s : State) : (pure a : Run α) s = (.ok a, s) := rfl

theorem bind_apply (x : Run α) (f : α → Run β) (s : State) :
    (x >>= f) s = match x s with
      | (.ok a, s) => f a s
      | (.error e, s) => (.error e, s) := rfl

/-- Stops. -/
@[always_inline, inline]
def stop (e : Stop) : Run α := fun s => (.error e, s)

/-- Stops at a node. -/
def fail (offset : Nat) (fault : Fault) : Run α := stop (.fault fault (fault.place offset))

@[always_inline, inline]
def getState : Run State := fun s => (.ok s, s)

@[always_inline, inline]
def change (f : State → State) : Run Unit := fun s => (.ok (), f s)

/-- Takes over the outcome of a computation on values; a fault is reported at the given offset. -/
@[always_inline, inline]
def ofExcept (offset : Nat) : Except Fault α → Run α
  | .ok a => result a
  | .error fault => fail offset fault

/-- Computes from the store. -/
@[always_inline, inline]
def fromStore (offset : Nat) (f : Store → Except Fault α) : Run α := fun s =>
  ofExcept offset (f s.store) s

/-- Changes the store, unless that fails. -/
@[always_inline, inline]
def changeStore (offset : Nat) (f : Store → Except Fault Store) : Run Unit := fun s =>
  match f s.store with
  | .ok store => (.ok (), { s with store := store })
  | .error fault => fail offset fault s

/-- Adds a list to the store. -/
def newList (items : Array Value) : Run Value := fun s =>
  let (address, store) := s.store.alloc items
  (.ok (.list address), { s with store := store })

/-- Binds a variable. -/
def assign (name : String) (v : Value) : Run Unit :=
  change fun s => { s with frame := s.frame.put (Text.lower name) v }

/-- The value of a variable. -/
def lookup (name : String) (offset : Nat) : Run Value := fun s =>
  match s.frame.get? (Text.lower name) with
  | some v => (.ok v, s)
  | none => fail offset (.undefined name) s

/-- Writes a text. -/
def write (text : String) : Run Unit := change fun s => s.afterWrite text

/-- Adds a line to the trace. -/
def note (line : String) : Run Unit := change fun s => { s with trace := line :: s.trace }

/-- Runs a part in a frame of its own; afterwards, whatever the outcome, the old frame is back. -/
@[always_inline, inline]
def within (frame : Frame) (body : Run α) : Run α := fun s =>
  let (r, after) := body { s with frame := frame }
  (r, { after with frame := s.frame })

/-- The value that a function body gives back; one that ends without a return gives nothing. -/
@[always_inline, inline]
def catchReturn (body : Run Unit) : Run Value := fun s =>
  match body s with
  | (.ok (), s) => (.ok .nothing, s)
  | (.error (.returned v), s) => (.ok v, s)
  | (.error e, s) => (.error e, s)

end Run
end Parlance
