import Parlance.Diagnostic
import Parlance.Syntax.Outline
import Parlance.Token.Scan
/-!
# Reading sources

From a source to its tokens and to a program, with the lines that a trace of the reading shows, and
the failures of every stage in one type.
-/
namespace Parlance

/-- Why a source was not read or a program not run to its end. -/
inductive Failure
  | lex (fault : LexFault × Nat)
  /-- with the length of the source -/
  | parse (fault : ParseFault) (length : Nat)
  | binding (fault : BindingFault × Nat)
  | run (fault : Fault) (offset : Nat)
  deriving DecidableEq

def Failure.diagnostic : Failure → Diagnostic
  | lex fault => LexFault.diagnostic fault
  | parse fault length => fault.diagnostic length
  | binding fault => BindingFault.diagnostic fault
  | run fault offset => fault.diagnostic offset

/-- The breakdown behind a failure, if there is one. -/
def Failure.breakdown? : Failure → Option Breakdown
  | run (.breakdown cause) _ => some cause
  | _ => none

namespace Source

/-- The tokens of a source. -/
def tokens (source : List Char) : Except Failure (List Token) :=
  match (Canonical.ofSource source).tokens with
  | .ok ts => .ok ts
  | .error fault => .error (.lex fault)

/-- The program of a source, nested no deeper than the limit. -/
def program (nesting : Nat) (source : List Char) : Except Failure Program := do
  match Program.parse nesting (← tokens source) with
  | .ok p => .ok p
  | .error fault => .error (.parse fault source.length)

/-- The expression that a source consists of, nested no deeper than the limit. -/
def expression (nesting : Nat) (source : List Char) : Except Failure Expr := do
  match Expr.parse nesting (← tokens source) with
  | .ok e => .ok e
  | .error fault => .error (.parse fault source.length)

def canonicalNote (source : List Char) : String :=
  "[normalizer] " ++ Text.quoted (Canonical.ofSource source).text

/-- The end of a source counts as a token here. -/
def tokensNote (tokens : List Token) : String :=
  "[lexer] " ++ toString (tokens.length + 1) ++ " tokens"

def programNote (p : Program) : String :=
  "[parser] " ++ toString p.functions.length ++ " functions, " ++ toString p.statements.length
    ++ " statements"

/-- The trace of reading the tokens of a source. -/
def tokensTrace (source : List Char) : List String :=
  match tokens source with
  | .ok ts => [tokensNote ts]
  | .error _ => []

/-- The trace of reading the program of a source. -/
def programTrace (nesting : Nat) (source : List Char) : List String :=
  canonicalNote source :: tokensTrace source
    ++ match program nesting source with
      | .ok p => [programNote p]
      | .error _ => []

end Source
end Parlance
