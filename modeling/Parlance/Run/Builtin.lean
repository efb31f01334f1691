import Parlance.Run.Basic
import Parlance.Value.Coercion
/-!
# What the built-in functions do

Conversions, the length and the range need only the store. The others write, read a line, tell the
time, or read and write files. A file that is written is emptied before its new text is computed.
A format of the time ends before its first null character.
-/
namespace Parlance
namespace Run

/-- Characters of a text, elements of a list, and of anything else its number. -/
def lengthOf (store : Store) : Value → Except Fault Value
  | .text s => .ok (.ofNat s.length)
  | .list address => .ok (.ofNat (store.elements address).size)
  | v => return .number (← store.toNumber v)

/-- The integers from one to another, in either direction, both included. -/
def countFrom (first last : Int) : List Int :=
  if first ≤ last then (List.range ((last - first).toNat + 1)).map fun (k : Nat) => first + k
  else (List.range ((first - last).toNat + 1)).map fun (k : Nat) => first - k

/-- The elements of a range. -/
def rangeOf (store : Store) (first last : Value) : Except Fault (List Value) := do
  let p ← store.toInteger first
  let q ← store.toInteger last
  match p, q with
  | some p, some q => return (countFrom p q).map fun i => .number (.ofInt i)
  | _, _ => .error (.unboundedRange (← store.toText first) (← store.toText last))

/-- The next line of input; an empty one when there are no more. -/
def readLine : Run String := fun s =>
  match s.world.input with
  | line :: rest => (.ok line, { s with world := { s.world with input := rest } })
  | [] => if s.world.inputOpen then (.error (.waiting .line), s) else (.ok "", s)

/-- Runs a part that needs to know what is at a path. -/
def knowing {α : Type} (path : String) (body : Run α) : Run α := fun s =>
  if s.world.knows path then body s else (.error (.waiting (.path path)), s)

/-- The text of a file. -/
def readFile (offset : Nat) (path : String) : Run String := knowing path fun s =>
  match s.world.files.readText path with
  | .ok cs => (.ok (String.ofList cs), s)
  | .error reason => fail offset (.ofRead path reason) s

/-- Gives the file at a place new contents. -/
def storeFile (place : List String) (text : String) : Run Unit :=
  change fun s =>
    { s with world := { s.world with
        files := s.world.files.store place (Text.encode text.toList) } }

/-- Empties the file at a path, creating it if need be, and then writes a value's text to it. -/
def writeFile (offset : Nat) (path : String) (content : Value) : Run Unit := knowing path fun s =>
  match s.world.files.writable path with
  | .error reason => fail offset (.ofWrite path reason) s
  | .ok place => (do
      storeFile place ""
      let text ← fromStore offset (·.toText content)
      storeFile place text) s

/-- The time. -/
def clock : Run Moment := fun s => (.ok s.world.clock, s)

/-- Checks how many arguments a call has. -/
def checkCount (name : String) (expected got offset : Nat) : Run Unit :=
  if got = expected then pure () else fail offset (.argumentCount name expected got)

/-- The result of a built-in function for the right number of arguments. -/
def builtin (b : Builtin) (args : List Value) (offset : Nat) : Run Value :=
  match b, args with
  | .length, [v] => fromStore offset (lengthOf · v)
  | .range, [first, last] => do
    let items ← fromStore offset (rangeOf · first last)
    newList items.toArray
  | .toNumber, [v] => return .number (← fromStore offset (·.toNumber v))
  | .toText, [v] => return .text (← fromStore offset (·.toText v))
  | .toTruth, [v] => fromStore offset fun store => .ok (.truth (store.toTruth v))
  | .ask, [prompt] => do
    write (← fromStore offset (·.toText prompt))
    return .text (← readLine)
  | .now, [] => return .text (String.ofList (← clock).standard)
  | .formatNow, [v] => do
    let format ← fromStore offset (·.toText v)
    return .text (String.ofList ((← clock).format (format.toList.takeWhile (· != '\x00'))))
  | .readText, [v] => do
    let path ← fromStore offset (·.toText v)
    return .text (← readFile offset path)
  | .writeText, [v, content] => do
    let path ← fromStore offset (·.toText v)
    writeFile offset path content
    return .text path
  | b, args => fail offset (.argumentCount b.name b.arity args.length)

/-- A call of a built-in function under the name that the program uses. -/
def callBuiltin (b : Builtin) (called : String) (args : List Value) (offset : Nat) : Run Value := do
  checkCount called b.arity args.length offset
  builtin b args offset

end Run
end Parlance
