import Parlance.Binding
import Parlance.Value.Basic
import Parlance.World.Files
/-!
# Faults of a run

What can go wrong while a program runs, and in which words it is reported.
-/
namespace Parlance

/-- What a list is needed for. -/
inductive ListUse
  | indexing | assignment | append | remove | forEach
  deriving DecidableEq, Repr

def ListUse.description : ListUse → String
  | indexing => "Indexing"
  | assignment => "Index assignment"
  | append => "append ... to"
  | remove => "remove ... from"
  | forEach => "for each"

/-- A cause of which no report is made: it ends a command, or the shell, and not only the program
that it runs. A session goes on after it. -/
inductive Breakdown
  /-- a numeral has separator characters around it -/
  | numeral
  /-- a file cannot be opened for a reason that is not reported -/
  | file (path : String) (reason : FileFault)
  /-- a time limit cannot be waited for -/
  | timeLimit
  /-- an option is given the lone double dash as its value -/
  | option
  deriving DecidableEq, Repr

inductive Fault
  | undefined (name : String)
  | notList (use : ListUse) (got : Kind)
  /-- the display of the index, and the length of the list -/
  | outOfRange (index : String) (length : Nat)
  | argumentCount (name : String) (expected got : Nat)
  | unknownFunction (name : String)
  /-- the displays of the two bounds, not both of which are finite -/
  | unboundedRange (first last : String)
  | readFailed (path : String) (reason : FileFault)
  | writeFailed (path : String) (reason : FileFault)
  /-- too many calls inside one another, or the display of a list that contains itself -/
  | tooDeep
  | breakdown (cause : Breakdown)
  /-- the run was told to stop -/
  | halted
  | timedOut (seconds : String)
  deriving DecidableEq, Repr

def Breakdown.message : Breakdown → String
  | numeral => "could not convert string to float"
  | file path reason => reason.message path
  | timeLimit => "timestamp too large"
  | option => "not enough values"

namespace Fault

/-- What the failed reading of a file comes to: a report, unless the path is malformed. -/
def ofRead (path : String) : FileFault → Fault
  | .malformed => breakdown (.file path .malformed)
  | reason => readFailed path reason

/-- What the failed writing of a file comes to: a report, unless the path is malformed. -/
def ofWrite (path : String) : FileFault → Fault
  | .malformed => breakdown (.file path .malformed)
  | reason => writeFailed path reason

def message : Fault → String
  | undefined name => "Undefined variable: " ++ name
  | notList use got => use.description ++ " requires a List, got " ++ got.label
  | outOfRange index length =>
    "Index out of range: " ++ index ++ " (list has " ++ toString length ++ " elements)"
  | argumentCount name expected got =>
    name ++ " requires " ++ argumentsText expected ++ ", got " ++ toString got
  | unknownFunction name => "Unknown function: " ++ name
  | unboundedRange first last =>
    "range needs finite bounds, got " ++ first ++ " and " ++ last
  | readFailed path reason => "read_text error for '" ++ path ++ "': " ++ reason.message path
  | writeFailed path reason => "write_text error for '" ++ path ++ "': " ++ reason.message path
  | tooDeep => "Maximum call depth exceeded"
  | breakdown cause => cause.message
  | halted => "Program stopped after its time limit"
  | timedOut seconds => "Program did not finish within " ++ seconds ++ " seconds"

/-- The offset at which a fault that arises at a node is reported: too deep a call and a breakdown
belong to no node. -/
def place (offset : Nat) : Fault → Nat
  | tooDeep | breakdown _ | timedOut _ => 0
  | _ => offset

end Fault
end Parlance
