import Parlance.Text.Ranges
/-!
# Blank characters

White space in the sense of the language: it separates tokens and pads numbers. Four control
characters (the separators U+001C to U+001F) are blank between tokens but may not pad a number.
-/
namespace Parlance.Text

/-- The blank characters. -/
def blanks : Ranges :=
  [(0x09, 0x0D), (0x1C, 0x20), (0x85, 0x85), (0xA0, 0xA0), (0x1680, 0x1680), (0x2000, 0x200A),
   (0x2028, 0x2029), (0x202F, 0x202F), (0x205F, 0x205F), (0x3000, 0x3000)]

def isBlank (c : Char) : Bool := blanks.has c

/-- The four control characters that separate files, groups, records and units. -/
def isSeparator (c : Char) : Bool := 0x1C ≤ c.toNat && c.toNat ≤ 0x1F

/-- The end of a line comment. -/
def isLineBreak (c : Char) : Bool := c == '\r' || c == '\n'

theorem isBlank_of_isSeparator {c : Char} (h : isSeparator c = true) : isBlank c = true := by
  simp [isSeparator] at h
  simp only [isBlank, Ranges.has_iff]
  exact ⟨(0x1C, 0x20), by simp [blanks], h.1, by simp; omega⟩

theorem isBlank_of_isLineBreak {c : Char} (h : isLineBreak c = true) : isBlank c = true := by
  simp [isLineBreak] at h
  rcases h with rfl | rfl <;> decide

/-- The text without the blanks at its start. -/
def dropBlanks (cs : List Char) : List Char := cs.dropWhile isBlank

/-- The text without the blanks at either end. -/
def trim (cs : List Char) : List Char := ((dropBlanks cs).reverse.dropWhile isBlank).reverse

end Parlance.Text
