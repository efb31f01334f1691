/-!
# Letter case

Names and keywords ignore case, and phrases are found in any case. Two mappings serve these
purposes: `lower` for names and `capitals` for phrases. Both act as the identity on characters that
cannot meet an ASCII letter in a comparison.
-/
namespace Parlance.Text

/-- Besides the capital letters of ASCII, only the Kelvin sign has a lower-case form in ASCII. -/
def lowerChar (c : Char) : Char := if c = '\u212A' then 'k' else c.toLower

/-- The key under which a name is kept. -/
def lower (name : String) : String := String.ofList (name.toList.map lowerChar)

/-- The capitals that a character stands for when phrases are looked for. The long s and the dotless
i count as the letters they resemble; the sharp s and two ligatures stand for two letters each. -/
def capitals (c : Char) : List Char :=
  if c = '\u017F' then ['S']
  else if c = '\u0131' then ['I']
  else if c = '\u00DF' then ['S', 'S']
  else if c = '\uFB05' || c = '\uFB06' then ['S', 'T']
  else [c.toUpper]

/-- The capital form of a text. -/
def inCapitals (cs : List Char) : List Char := cs.flatMap capitals

/-- A letter or digit of ASCII, in its capital form: the characters that continue a word. -/
def isWordChar (c : Char) : Bool := c.isUpper || c.isDigit

/-- The character continues a word on either side of a phrase. -/
def joinsWord (c : Char) : Bool :=
  match capitals c with
  | [u] => isWordChar u
  | _ => false

end Parlance.Text
