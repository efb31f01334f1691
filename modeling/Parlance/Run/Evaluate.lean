import Parlance.Run.Builtin
import Parlance.Value.Operator
import Parlance.Value.Lists
import Parlance.Syntax.NodeKind
/-!
# Evaluation

Expressions are evaluated and statements executed by recursion on the syntax. Calls of declared
functions go through a parameter, `invoke`, so that the depth of calls can be bounded outside; a
loop may make a bounded number of rounds. A run that is to heed the halt flag looks at it before
each statement and at the start of each round of a loop.
-/
namespace Parlance

/-- What stays the same during a run. -/
structure Context where
  functions : FunctionTable
  /-- the run keeps a trace -/
  debug : Bool
  /-- the run stops when it is told to -/
  heedsHalt : Bool
  /-- the most rounds that a loop may make -/
  rounds : Nat

/-- How a declared function is called. -/
abbrev Invoke := Declaration → List Value → Run Value

namespace Run

/-- Stops if the program has been told to. -/
def heed (c : Context) (offset : Nat) : Run Unit := fun s =>
  if c.heedsHalt && s.halted then fail offset .halted s else (.ok (), s)

/-- What comes before each statement: a look at the halt flag and a line of the trace. -/
def enter (c : Context) (kind : NodeKind) (offset : Nat) : Run Unit := do
  heed c offset
  if c.debug then note ("[interpreter] " ++ kind.label ++ " @" ++ toString offset)

/-- The displays of values. -/
def textsOf (store : Store) : List Value → Except Fault (List String)
  | [] => .ok []
  | v :: vs => do
    let text ← store.toText v
    return text :: (← textsOf store vs)

/-- The line of the trace for a call, which shows the arguments. -/
def noteCall (c : Context) (name : String) (args : List Value) : Run Unit :=
  if c.debug then do
    let texts ← fromStore 0 (textsOf · args)
    note ("[interpreter] call " ++ name ++ "(" ++ String.intercalate ", " texts ++ ")")
  else pure ()

/-- Repeats a body as long as a test holds; `rounds` bounds the number of tests. -/
def loop (test : Run Bool) (body : Run Unit) : (rounds : Nat) → Run Unit
  | 0 => stop .exhausted
  | rounds + 1 => do
    if ← test then
      body
      loop test body rounds
    else pure ()

/-- Runs a body a number of times. -/
def times (body : Run Unit) : Nat → Run Unit
  | 0 => pure ()
  | n + 1 => do
    body
    times body n

/-- Runs a body a number of times, but at most `rounds` times. -/
def timesWithin (body : Run Unit) (rounds n : Nat) : Run Unit := do
  times body (min n rounds)
  if rounds < n then stop .exhausted

/-- Runs a body for each of some values. -/
def forAll (body : Value → Run Unit) : List Value → Run Unit
  | [] => pure ()
  | v :: vs => do
    body v
    forAll body vs

/-- The frame of a call: the parameters and nothing else. -/
def parameterFrame (parameters : List String) (args : List Value) : Frame :=
  (parameters.zip args).foldl (fun frame p => frame.put (Text.lower p.1) p.2) []

/-- A call of a function by name; built-in functions come first. -/
def call (c : Context) (invoke : Invoke) (name : String) (args : List Value) (offset : Nat) :
    Run Value :=
  match Builtin.find? name with
  | some b => callBuiltin b name args offset
  | none =>
    match c.functions.get? (Text.lower name) with
    | none => fail offset (.unknownFunction name)
    | some d => do
      checkCount d.name d.parameters.length args.length offset
      invoke d args

end Run

open Run

mutual

/-- The value of an expression. Operands and arguments are evaluated from left to right. -/
def Expr.eval (c : Context) (invoke : Invoke) : Expr → Run Value
  | .number x _ => pure (.number x)
  | .text s _ => pure (.text s)
  | .truth b _ => pure (.truth b)
  | .name n o => lookup n o
  | .unary op x o => do
    let v ← x.eval c invoke
    fromStore o (·.applyUnary op v)
  | .binary op l r o => do
    let x ← l.eval c invoke
    let y ← r.eval c invoke
    fromStore o (·.applyBinary op x y)
  | .call f args o => do
    let vs ← Expr.evalAll c invoke args
    noteCall c f vs
    Run.call c invoke f vs o
  | .index t i o => do
    let target ← t.eval c invoke
    let index ← i.eval c invoke
    fromStore o (·.getAt target index)
  | .list items _ => do
    let vs ← Expr.evalAll c invoke items
    newList vs.toArray

def Expr.evalAll (c : Context) (invoke : Invoke) : List Expr → Run (List Value)
  | [] => pure []
  | e :: es => do
    let v ← e.eval c invoke
    let vs ← Expr.evalAll c invoke es
    return v :: vs

end

/-- Sets a target: a variable is bound, an element of a variable's list replaced. -/
def Target.assign (c : Context) (invoke : Invoke) (value : Expr) : Target → Run Unit
  | .name n _ => do
    let v ← value.eval c invoke
    Run.assign n v
  | .element list i o => do
    let owner ← lookup list o
    let index ← i.eval c invoke
    let v ← value.eval c invoke
    changeStore o (·.setAt owner index v)

mutual

/-- Executes a statement. The elements that a loop visits and the number of its repetitions are
fixed before its first round. -/
def Stmt.exec (c : Context) (invoke : Invoke) : Stmt → Run Unit
  | .letBe n value _ => do
    let v ← value.eval c invoke
    assign n v
  | .setTo t value _ => t.assign c invoke value
  | .say value o => do
    let v ← value.eval c invoke
    let text ← fromStore o (·.toText v)
    write (text ++ "\n")
  | .ifThen condition a b _ => do
    let v ← condition.eval c invoke
    if (← getState).store.toTruth v then Stmt.execAll c invoke a else Stmt.execAll c invoke b
  | .whileDo condition body o =>
    loop (do
        let v ← condition.eval c invoke
        return (← getState).store.toTruth v)
      (do
        heed c o
        Stmt.execAll c invoke body)
      c.rounds
  | .repeatTimes count body o => do
    let v ← count.eval c invoke
    match ← fromStore o (·.toInteger v) with
    | none => pure ()
    | some n =>
      timesWithin (do
          heed c o
          Stmt.execAll c invoke body)
        c.rounds n.toNat
  | .forEach item source body o => do
    let v ← source.eval c invoke
    let items ← fromStore o (·.items v)
    forAll (fun v => do
        heed c o
        assign item v
        Stmt.execAll c invoke body)
      items
  | .append value list o => do
    let v ← value.eval c invoke
    let target ← lookup list o
    changeStore o (·.append target v)
  | .remove value list o => do
    let v ← value.eval c invoke
    let target ← lookup list o
    changeStore o (·.remove target v)
  | .giveBack value _ => do
    let v ← value.eval c invoke
    stop (.returned v)
  | .evaluate value _ => do
    let _ ← value.eval c invoke

def Stmt.execAll (c : Context) (invoke : Invoke) : List Stmt → Run Unit
  | [] => pure ()
  | s :: ss => do
    enter c s.kind s.offset
    s.exec c invoke
    Stmt.execAll c invoke ss

end

namespace Run

/-- Calls a declared function, with at most `depth` calls inside one another. -/
def invoke (c : Context) : (depth : Nat) → Invoke
  | 0, _, _ => fail 0 .tooDeep
  | depth + 1, d, args =>
    within (parameterFrame d.parameters args)
      (catchReturn (Stmt.execAll c (invoke c depth) d.body))

/-- Executes the statements of a program. -/
def statements (c : Context) (depth : Nat) (p : Program) : Run Unit :=
  Stmt.execAll c (invoke c depth) p.statements

end Run
end Parlance
