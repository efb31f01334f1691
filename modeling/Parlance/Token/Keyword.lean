import Parlance.Text.Case
/-!
# Keywords

The reserved words. A word is reserved in any letter case.
-/
namespace Parlance

inductive Keyword
  | letWord | beWord | setWord | toWord | ifWord | thenWord | otherwiseWord | whileWord | doWord
  | repeatWord | timesWord | forWord | eachWord | inWord | returnWord | sayWord | endWord
  | appendWord | removeWord | fromWord | trueWord | falseWord | increaseWord | decreaseWord | byWord
  deriving DecidableEq, Repr

namespace Keyword

def all : List Keyword :=
  [letWord, beWord, setWord, toWord, ifWord, thenWord, otherwiseWord, whileWord, doWord,
   repeatWord, timesWord, forWord, eachWord, inWord, returnWord, sayWord, endWord, appendWord,
   removeWord, fromWord, trueWord, falseWord, increaseWord, decreaseWord, byWord]

def spelling : Keyword → String
  | letWord => "let" | beWord => "be" | setWord => "set" | toWord => "to" | ifWord => "if"
  | thenWord => "then" | otherwiseWord => "otherwise" | whileWord => "while" | doWord => "do"
  | repeatWord => "repeat" | timesWord => "times" | forWord => "for" | eachWord => "each"
  | inWord => "in" | returnWord => "return" | sayWord => "say" | endWord => "end"
  | appendWord => "append" | removeWord => "remove" | fromWord => "from" | trueWord => "true"
  | falseWord => "false" | increaseWord => "increase" | decreaseWord => "decrease" | byWord => "by"

/-- The label of a keyword is its spelling in capitals. -/
def label (k : Keyword) : String := String.ofList (k.spelling.toList.map Char.toUpper)

/-- The keyword that a word is, if it is one. -/
def ofWord? (word : String) : Option Keyword := all.find? fun k => k.spelling == Text.lower word

theorem mem_all (k : Keyword) : k ∈ all := by cases k <;> decide

end Keyword
end Parlance
