/-!
# Lines of a text

Lines end at U+000A only. `locate` turns an offset into a line and a column, both counted from one,
and `unifyBreaks` replaces the two other conventional line ends, as reading a text file does.
-/
namespace Parlance.Text

/-- A place in a text, line and column counted from one; zero for both when there is no text. -/
structure Position where
  line : Nat
  column : Nat
  deriving DecidableEq, Repr

/-- The position after a character. -/
def Position.step (p : Position) (c : Char) : Position :=
  if c = '\n' then ⟨p.line + 1, 1⟩ else ⟨p.line, p.column + 1⟩

/-- The position that follows a text. -/
def Position.after (cs : List Char) : Position := cs.foldl Position.step ⟨1, 1⟩

/-- An offset moved to the nearer end of a text if it lies outside. -/
def clamp (length : Nat) (offset : Int) : Nat := min offset.toNat length

/-- The position of an offset, moved inside the text if need be. -/
def locate (source : List Char) (offset : Int) : Position :=
  Position.after (source.take (clamp source.length offset))

/-- The position of an offset in a text that may not be known. -/
def locateIn (source : Option (List Char)) (offset : Int) : Position :=
  match source with
  | some cs => locate cs offset
  | none => ⟨0, 0⟩

/-- The lines of a text, without their ends; there is always at least one. -/
def lines : List Char → List (List Char)
  | [] => [[]]
  | c :: cs =>
    if c = '\n' then [] :: lines cs
    else
      match lines cs with
      | [] => [[c]]
      | l :: ls => (c :: l) :: ls

/-- Carriage returns, alone or before a line feed, become line feeds. -/
def unifyBreaks : List Char → List Char
  | [] => []
  | '\r' :: '\n' :: cs => '\n' :: unifyBreaks cs
  | c :: cs => (if c = '\r' then '\n' else c) :: unifyBreaks cs

/-- The lines of an input stream: cut at line feeds, without line ends. A last line without an end
counts, an empty rest does not. -/
def inputLines (input : List Char) : List (List Char) :=
  let stripped := (lines input).map fun l =>
    (l.reverse.dropWhile fun c => c == '\r' || c == '\n').reverse
  match (lines input).getLast? with
  | some [] => stripped.dropLast
  | _ => stripped

end Parlance.Text
