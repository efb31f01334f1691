import Parlance.Token.Symbol
import Parlance.Text.Case
/-!
# Phrases

English phrases that stand for a symbol: `is at least` for `>=`, `plus` for `+`. A phrase is found
in any letter case, and only where no letter or digit of ASCII touches it. Of two phrases one of
which starts with the other, the longer comes first in the table.
-/
namespace Parlance

structure Phrase where
  words : String
  symbol : Symbol
  /-- gives way where a colon follows, so that a block header keeps its keyword -/
  yieldsToColon : Bool
  deriving DecidableEq, Repr

namespace Phrase

def of (words : String) (symbol : Symbol) : Phrase := ⟨words, symbol, false⟩

/-- All phrases, in the order in which they are tried. -/
def all : List Phrase :=
  [of "is greater than or equal to" .greaterEqual,
   of "is less than or equal to" .lessEqual,
   of "is greater than" .greater,
   of "is less than" .less,
   of "is not equal to" .bangEqual,
   of "is not" .bangEqual,
   of "is equal to" .equalEqual,
   of "is at least" .greaterEqual,
   of "is at most" .lessEqual,
   of "plus" .plus,
   of "minus" .minus,
   of "multiplied by" .star,
   ⟨"times", .star, true⟩,
   of "divided by" .slash,
   of "modulo" .percent,
   of "mod" .percent,
   of "and" .andAnd,
   of "or" .orOr,
   of "not" .bang]

/-- How many characters of the source a phrase takes up. -/
def length (p : Phrase) : Nat := p.words.length

/-- Nothing, or a character that does not continue a word, stands beside a phrase. -/
def apart (c : Option Char) : Bool := c.all fun c => !Text.joinsWord c

/-- The space that may stand before a colon. -/
def isGap (c : Char) : Bool := c == ' ' || c == '\t' || c == '\r' || c == '\n'

/-- A colon comes next, perhaps after some space. -/
def colonNext (rest : List Char) : Bool := (rest.dropWhile isGap).head? == some ':'

/-- The phrase stands at the start of `rest`, after the character `before`. Only at the end of a
text can fewer characters than the phrase has stand for all of it. -/
def startsAt (p : Phrase) (before : Option Char) (rest : List Char) : Bool :=
  apart before
    && rest.head?.any Text.joinsWord
    && Text.inCapitals (rest.take p.length) == Text.inCapitals p.words.toList
    && apart (rest.drop p.length).head?
    && !(p.yieldsToColon && colonNext (rest.drop p.length))

/-- The first phrase of the table that stands at the start of `rest`. -/
def at? (before : Option Char) (rest : List Char) : Option Phrase :=
  all.find? fun p => p.startsAt before rest

end Phrase
end Parlance
