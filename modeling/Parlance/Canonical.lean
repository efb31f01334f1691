import Parlance.Phrase
/-!
# Canonical text

A source with its phrases replaced by symbols. Every character of the result keeps the offset of the
place that it comes from, so that all later offsets are offsets into the source. String literals
pass unchanged: from a quote to the next quote that no backslash precedes, or to the end.
-/
namespace Parlance

/-- A character and the offset in the source that it comes from. -/
structure Mark where
  char : Char
  origin : Nat
  deriving DecidableEq, Repr

/-- Where in a source a character stands, told from what comes before it. -/
inductive Zone
  | code
  | literal
  /-- after a backslash in a literal -/
  | escape
  /-- with so many characters of a replaced phrase still to come -/
  | phrase (left : Nat)
  deriving DecidableEq, Repr

/-- The characters of a symbol, all from one place. -/
def Symbol.marks (s : Symbol) (origin : Nat) : List Mark := s.spelling.toList.map (⟨·, origin⟩)

/-- The canonical text of the rest of a source, which starts at offset `pos` after `before`. -/
def canonicalFrom (zone : Zone) (before : Option Char) (pos : Nat) : List Char → List Mark
  | [] => []
  | c :: cs =>
    match zone with
    | .literal =>
      let next := if c = '"' then .code else if c = '\\' then .escape else .literal
      ⟨c, pos⟩ :: canonicalFrom next (some c) (pos + 1) cs
    | .escape => ⟨c, pos⟩ :: canonicalFrom .literal (some c) (pos + 1) cs
    | .phrase (left + 1) => canonicalFrom (.phrase left) (some c) (pos + 1) cs
    | _ =>
      if c = '"' then ⟨c, pos⟩ :: canonicalFrom .literal (some c) (pos + 1) cs
      else
        match Phrase.at? before (c :: cs) with
        | some p =>
          p.symbol.marks pos ++ canonicalFrom (.phrase (p.length - 1)) (some c) (pos + 1) cs
        | none => ⟨c, pos⟩ :: canonicalFrom .code (some c) (pos + 1) cs

/-- A source in canonical form. -/
structure Canonical where
  marks : List Mark
  /-- the length of the source, which is where its end comes from -/
  length : Nat
  deriving DecidableEq, Repr

namespace Canonical

/-- The canonical form of a source. -/
def ofSource (source : List Char) : Canonical := ⟨canonicalFrom .code none 0 source, source.length⟩

def chars (c : Canonical) : List Char := c.marks.map Mark.char

def text (c : Canonical) : String := String.ofList c.chars

/-- Where each character, and last the end, comes from. -/
def origins (c : Canonical) : List Nat := c.marks.map Mark.origin ++ [c.length]

/-- The offset in the source of a position in the canonical text. -/
def sourceOffset (c : Canonical) (position : Nat) : Nat := c.origins.getD position c.length

end Canonical
end Parlance
