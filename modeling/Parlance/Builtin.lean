import Parlance.Text.Case
/-!
# Built-in functions

The functions that every program can call: their names, how many arguments they take and the types
that describe them. What they do is in `Parlance.Run.Builtin`.
-/
namespace Parlance

inductive Builtin
  | length | range | toNumber | toText | toTruth | ask | now | formatNow | readText | writeText
  deriving DecidableEq, Repr

namespace Builtin

/-- All built-in functions, in the order in which they are listed and completed. -/
def all : List Builtin :=
  [length, range, toNumber, toText, toTruth, ask, now, formatNow, readText, writeText]

def name : Builtin → String
  | length => "length" | range => "range" | toNumber => "to_number" | toText => "to_text"
  | toTruth => "to_truth" | ask => "ask" | now => "now" | formatNow => "format_now"
  | readText => "read_text" | writeText => "write_text"

def arity : Builtin → Nat
  | now => 0
  | range | writeText => 2
  | _ => 1

def signature : Builtin → String
  | length | toNumber => "a -> Number"
  | range => "Number -> Number -> List Number"
  | toText | ask => "a -> Text"
  | toTruth => "a -> Truth"
  | now => "Text"
  | formatNow | readText => "Text -> Text"
  | writeText => "Text -> a -> Text"

/-- The function talks to whoever runs the program, or asks for the time. -/
def needsContext : Builtin → Bool
  | ask | now | formatNow => true
  | _ => false

/-- The built-in function of a name, in any letter case. -/
def find? (called : String) : Option Builtin := all.find? fun b => b.name == Text.lower called

theorem mem_all (b : Builtin) : b ∈ all := by cases b <;> decide

end Builtin
end Parlance
