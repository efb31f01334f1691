import Parlance.Number.Basic
/-!
# Programs

The syntax of the language: expressions, statements, function declarations and programs. Each node
carries the offset of the token at which it starts in the source.
-/
namespace Parlance

inductive UnaryOp
  | not | minus | plus
  deriving DecidableEq, Repr

inductive BinaryOp
  | or | and | equal | unequal | less | lessEqual | greater | greaterEqual
  | add | subtract | multiply | divide | remainder
  deriving DecidableEq, Repr

/-- An expression; the callee of a call is always a bare name. -/
inductive Expr
  | number (value : Number) (offset : Nat)
  | text (value : String) (offset : Nat)
  | truth (value : Bool) (offset : Nat)
  | name (name : String) (offset : Nat)
  | unary (op : UnaryOp) (operand : Expr) (offset : Nat)
  | binary (op : BinaryOp) (left right : Expr) (offset : Nat)
  | call (name : String) (args : List Expr) (offset : Nat)
  | index (target index : Expr) (offset : Nat)
  | list (items : List Expr) (offset : Nat)

/-- What can be assigned to: a variable, or an element of the list that a variable holds. -/
inductive Target
  | name (name : String) (offset : Nat)
  | element (list : String) (index : Expr) (offset : Nat)

inductive Stmt
  | letBe (name : String) (value : Expr) (offset : Nat)
  | setTo (target : Target) (value : Expr) (offset : Nat)
  | say (value : Expr) (offset : Nat)
  | ifThen (condition : Expr) (thenBody elseBody : List Stmt) (offset : Nat)
  | whileDo (condition : Expr) (body : List Stmt) (offset : Nat)
  | repeatTimes (count : Expr) (body : List Stmt) (offset : Nat)
  | forEach (item : String) (source : Expr) (body : List Stmt) (offset : Nat)
  | append (value : Expr) (list : String) (offset : Nat)
  | remove (value : Expr) (list : String) (offset : Nat)
  | giveBack (value : Expr) (offset : Nat)
  | evaluate (value : Expr) (offset : Nat)

structure Declaration where
  name : String
  parameters : List String
  body : List Stmt
  offset : Nat

/-- Functions and statements, each in the order of the source. -/
structure Program where
  functions : List Declaration
  statements : List Stmt

namespace UnaryOp

def spelling : UnaryOp → String
  | not => "!" | minus => "-" | plus => "+"

end UnaryOp

namespace BinaryOp

def spelling : BinaryOp → String
  | or => "||" | and => "&&" | equal => "==" | unequal => "!="
  | less => "<" | lessEqual => "<=" | greater => ">" | greaterEqual => ">="
  | add => "+" | subtract => "-" | multiply => "*" | divide => "/" | remainder => "%"

/-- The level at which an operator binds: the higher, the tighter. -/
def precedence : BinaryOp → Nat
  | or => 1
  | and => 2
  | equal | unequal => 3
  | less | lessEqual | greater | greaterEqual => 4
  | add | subtract => 5
  | multiply | divide | remainder => 6

/-- The tightest level. -/
def levels : Nat := 6

theorem precedence_pos (op : BinaryOp) : 0 < op.precedence := by cases op <;> decide

theorem precedence_le_levels (op : BinaryOp) : op.precedence ≤ levels := by cases op <;> decide

end BinaryOp

namespace Expr

def offset : Expr → Nat
  | number _ o | text _ o | truth _ o | name _ o | unary _ _ o | binary _ _ _ o | call _ _ o
  | index _ _ o | list _ o => o

end Expr

namespace Target

def offset : Target → Nat
  | name _ o | element _ _ o => o

/-- The expression that reads what the target holds. -/
def toExpr : Target → Expr
  | name n o => .name n o
  | element list i o => .index (.name list o) i o

end Target

namespace Stmt

def offset : Stmt → Nat
  | letBe _ _ o | setTo _ _ o | say _ o | ifThen _ _ _ o | whileDo _ _ o | repeatTimes _ _ o
  | forEach _ _ _ o | append _ _ o | remove _ _ o | giveBack _ o | evaluate _ o => o

end Stmt
end Parlance
