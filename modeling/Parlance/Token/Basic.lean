import Parlance.Token.Symbol
import Parlance.Token.Keyword
import Parlance.Text.Quoted
/-!
# Tokens

A token is a kind, a text and an offset into the source. The end of a source is no token: where a
message names what was found there, it uses the label `Token.endLabel`.
-/
namespace Parlance

inductive TokenKind
  | number
  | string
  | name
  | symbol (s : Symbol)
  | keyword (k : Keyword)
  deriving DecidableEq, Repr

def TokenKind.label : TokenKind → String
  | number => "NUMBER"
  | string => "STRING"
  | name => "IDENT"
  | symbol s => s.label
  | keyword k => k.label

/-- The text of a string token is what the literal stands for; any other token has the text that it
has in the source, a phrase that of its symbol. -/
structure Token where
  kind : TokenKind
  text : String
  offset : Nat
  deriving DecidableEq, Repr

/-- The label of the end of a source. -/
def Token.endLabel : String := "EOF"

/-- One line of a token dump. -/
def tokenLine (label text : String) (offset : Nat) : String :=
  label ++ "(" ++ Text.quoted text ++ "@" ++ toString offset ++ ")"

def Token.line (t : Token) : String := tokenLine t.kind.label t.text t.offset

/-- The dump of the tokens of a source of the given length: a line each, the end included. -/
def tokenLines (tokens : List Token) (length : Nat) : List String :=
  tokens.map Token.line ++ [tokenLine Token.endLabel "" length]

end Parlance
