import Parlance.Builtin
import Parlance.Syntax.Basic
import Parlance.Table
/-!
# Binding

Before a program runs, each call in it must name a function that takes as many arguments as the call
has, and `return` may stand in functions only. Function names and parameters ignore letter case. A
built-in function wins over a declared one, and cannot be declared.
-/
namespace Parlance

/-- The functions that calls may name, by lower-case name. -/
abbrev FunctionTable := Table Declaration

inductive BindingFault
  | shadowsBuiltin (name : String)
  | declaredTwice (name : String)
  | parameterTwice (parameter function : String)
  | returnOutside
  | unknownFunction (name : String)
  | argumentCount (name : String) (expected got : Nat)
  deriving DecidableEq, Repr

/-- A noun with its count: one argument, two arguments. -/
def argumentsText (n : Nat) : String := toString n ++ (if n = 1 then " argument" else " arguments")

def BindingFault.message : BindingFault → String
  | shadowsBuiltin name =>
    "Function '" ++ name ++ "' would shadow the built-in '" ++ Text.lower name ++ "'"
  | declaredTwice name => "Function '" ++ name ++ "' is declared more than once"
  | parameterTwice parameter function =>
    "Parameter '" ++ parameter ++ "' repeated in function '" ++ function ++ "'"
  | returnOutside => "'return' is only allowed inside a function"
  | unknownFunction name => "Unknown function: " ++ name
  | argumentCount name expected got =>
    name ++ " expects " ++ argumentsText expected ++ ", got " ++ toString got

namespace Binding

/-- The outcome of a check; a fault comes with the offset of the node at fault. -/
abbrev Check := Except (BindingFault × Nat)

/-- The first name that repeats an earlier one, given the keys of the names seen before. -/
def repeated? (seen : List String) : List String → Option String
  | [] => none
  | n :: ns => if Text.lower n ∈ seen then some n else repeated? (Text.lower n :: seen) ns

/-- Enters declarations into a table. `declared` holds the keys that the program has declared. -/
def declare (declared : List String) (table : FunctionTable) :
    List Declaration → Check FunctionTable
  | [] => .ok table
  | d :: ds =>
    let key := Text.lower d.name
    if (Builtin.find? d.name).isSome then .error (.shadowsBuiltin d.name, d.offset)
    else if key ∈ declared then .error (.declaredTwice d.name, d.offset)
    else
      match repeated? [] d.parameters with
      | some p => .error (.parameterTwice p d.name, d.offset)
      | none => declare (key :: declared) (table.put key d) ds

/-- How many arguments a function takes, if there is one of that name. -/
def arity? (table : FunctionTable) (name : String) : Option Nat :=
  match Builtin.find? name with
  | some b => some b.arity
  | none => (table.get? (Text.lower name)).map (·.parameters.length)

/-- Checks the name and the argument count of a call. -/
def checkCall (table : FunctionTable) (name : String) (count offset : Nat) : Check Unit :=
  match arity? table name with
  | none => .error (.unknownFunction name, offset)
  | some n => if count = n then .ok () else .error (.argumentCount name n count, offset)

mutual

/-- Checks the calls in an expression, a call before the calls in its arguments. -/
def checkExpr (table : FunctionTable) : Expr → Check Unit
  | .unary _ x _ => checkExpr table x
  | .binary _ l r _ => do
    checkExpr table l
    checkExpr table r
  | .call f args o => do
    checkCall table f args.length o
    checkExprs table args
  | .index t i _ => do
    checkExpr table t
    checkExpr table i
  | .list items _ => checkExprs table items
  | .number .. | .text .. | .truth .. | .name .. => .ok ()

def checkExprs (table : FunctionTable) : List Expr → Check Unit
  | [] => .ok ()
  | e :: es => do
    checkExpr table e
    checkExprs table es

end

def checkTarget (table : FunctionTable) : Target → Check Unit
  | .name .. => .ok ()
  | .element _ i _ => checkExpr table i

mutual

/-- Checks a statement: its own expressions, then the blocks in it. -/
def checkStmt (table : FunctionTable) (inFunction : Bool) : Stmt → Check Unit
  | .letBe _ v _ | .say v _ | .append v _ _ | .remove v _ _ | .evaluate v _ => checkExpr table v
  | .setTo t v _ => do
    checkTarget table t
    checkExpr table v
  | .ifThen c a b _ => do
    checkExpr table c
    checkBlock table inFunction a
    checkBlock table inFunction b
  | .whileDo c b _ => do
    checkExpr table c
    checkBlock table inFunction b
  | .repeatTimes c b _ => do
    checkExpr table c
    checkBlock table inFunction b
  | .forEach _ s b _ => do
    checkExpr table s
    checkBlock table inFunction b
  | .giveBack v o => if inFunction then checkExpr table v else .error (.returnOutside, o)

def checkBlock (table : FunctionTable) (inFunction : Bool) : List Stmt → Check Unit
  | [] => .ok ()
  | s :: ss => do
    checkStmt table inFunction s
    checkBlock table inFunction ss

end

/-- Checks the bodies of declarations. -/
def checkBodies (table : FunctionTable) : List Declaration → Check Unit
  | [] => .ok ()
  | d :: ds => do
    checkBlock table true d.body
    checkBodies table ds

end Binding

/-- The table that a program runs with: the functions known before and its own. -/
def Program.bind (known : FunctionTable) (p : Program) : Binding.Check FunctionTable := do
  let table ← Binding.declare [] known p.functions
  Binding.checkBodies table p.functions
  Binding.checkBlock table false p.statements
  return table

end Parlance
