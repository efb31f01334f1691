/-!
# Symbols

The punctuation and operators of the language, each with its spelling and the label under which
token dumps and messages name it.
-/
namespace Parlance

inductive Symbol
  | leftParen | rightParen | leftBracket | rightBracket
  | comma | dot | colon
  | plus | minus | star | slash | percent | bang
  | andAnd | orOr | equalEqual | bangEqual
  | less | lessEqual | greater | greaterEqual
  deriving DecidableEq, Repr

namespace Symbol

def spelling : Symbol → String
  | leftParen => "(" | rightParen => ")" | leftBracket => "[" | rightBracket => "]"
  | comma => "," | dot => "." | colon => ":"
  | plus => "+" | minus => "-" | star => "*" | slash => "/" | percent => "%" | bang => "!"
  | andAnd => "&&" | orOr => "||" | equalEqual => "==" | bangEqual => "!="
  | less => "<" | lessEqual => "<=" | greater => ">" | greaterEqual => ">="

def label : Symbol → String
  | leftParen => "LPAREN" | rightParen => "RPAREN"
  | leftBracket => "LBRACKET" | rightBracket => "RBRACKET"
  | comma => "COMMA" | dot => "DOT" | colon => "COLON"
  | plus => "PLUS" | minus => "MINUS" | star => "STAR" | slash => "SLASH"
  | percent => "PERCENT" | bang => "BANG" | andAnd => "AND_AND" | orOr => "OR_OR"
  | equalEqual => "EQUAL_EQUAL" | bangEqual => "BANG_EQUAL"
  | less => "LESS" | lessEqual => "LESS_EQUAL"
  | greater => "GREATER" | greaterEqual => "GREATER_EQUAL"

/-- The symbol that two characters form; it is looked for before `single?`. -/
def double? : Char → Char → Option Symbol
  | '&', '&' => some andAnd
  | '|', '|' => some orOr
  | '=', '=' => some equalEqual
  | '!', '=' => some bangEqual
  | '<', '=' => some lessEqual
  | '>', '=' => some greaterEqual
  | _, _ => none

/-- The symbol that one character forms. -/
def single? : Char → Option Symbol
  | '(' => some leftParen | ')' => some rightParen
  | '[' => some leftBracket | ']' => some rightBracket
  | ',' => some comma | '.' => some dot | ':' => some colon
  | '+' => some plus | '-' => some minus | '*' => some star | '/' => some slash
  | '%' => some percent | '!' => some bang
  | '<' => some less | '>' => some greater
  | _ => none

theorem spelling_of_double? {a b : Char} {s : Symbol} (h : double? a b = some s) :
    s.spelling.toList = [a, b] := by
  unfold double? at h
  split at h <;> first | (cases h; rfl) | simp at h

theorem spelling_of_single? {c : Char} {s : Symbol} (h : single? c = some s) :
    s.spelling.toList = [c] := by
  unfold single? at h
  split at h <;> first | (cases h; rfl) | simp at h

end Symbol
end Parlance
