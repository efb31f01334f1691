import Parlance.Canonical
import Parlance.Token.Basic
import Parlance.Text.Blank
/-!
# Tokens of a canonical text

Blanks and line comments separate tokens. A token takes as many characters as it can: a number its
digits and one point that a digit follows, a name its letters, digits and underscores, a literal all
up to its closing quote, a symbol of two characters before one of one.
-/
namespace Parlance

/-- What stands where no token can start. -/
inductive LexFault
  | bareEquals
  /-- one of the two characters that only count in pairs -/
  | unpaired (c : Char)
  | unexpected (c : Char)
  deriving DecidableEq, Repr

def LexFault.message : LexFault → String
  | bareEquals => "Single '=' not allowed; use 'let NAME be VALUE' or 'set NAME to VALUE'"
  | unpaired c => "Unexpected '" ++ c.toString ++ "'; did you mean '" ++ c.toString ++ c.toString
      ++ "'?"
  | unexpected c => "Unexpected character '" ++ c.toString ++ "'"

namespace Token

/-- A letter of ASCII or an underscore starts a name. -/
def startsName (c : Char) : Bool := c == '_' || c.isAlpha

def continuesName (c : Char) : Bool := c == '_' || c.isAlphanum

/-- The text of a run of marks. -/
def textOf (marks : List Mark) : String := String.ofList (marks.map Mark.char)

/-- A point and the digits after it, if a digit comes directly after the point. -/
def scanFraction : List Mark → List Mark × List Mark
  | p :: d :: rest =>
    if p.char = '.' ∧ d.char.isDigit then
      (p :: d :: rest.takeWhile (·.char.isDigit), rest.dropWhile (·.char.isDigit))
    else ([], p :: d :: rest)
  | rest => ([], rest)

/-- What a character stands for after a backslash. -/
def unescape : Char → Char
  | 'n' => '\n'
  | 'r' => '\r'
  | 't' => '\t'
  | c => c

/-- The text of a literal whose opening quote is past, and what follows the literal. -/
def scanLiteral : List Mark → List Char × List Mark
  | [] => ([], [])
  | m :: rest =>
    if m.char = '"' then ([], rest)
    else if m.char = '\\' then
      match rest with
      | [] => ([], [])
      | e :: rest =>
        let (text, rest) := scanLiteral rest
        (unescape e.char :: text, rest)
    else
      let (text, rest) := scanLiteral rest
      (m.char :: text, rest)

/-- The symbol that starts at a mark, as long as possible, and what follows it. -/
def scanSymbol? (m : Mark) (rest : List Mark) : Option (Symbol × List Mark) :=
  match rest.head?.bind fun n => Symbol.double? m.char n.char with
  | some s => some (s, rest.tail)
  | none => (Symbol.single? m.char).map (·, rest)

/-- Why no token starts with a character. -/
def refusal (c : Char) : LexFault :=
  if c = '=' then .bareEquals else if c = '&' ∨ c = '|' then .unpaired c else .unexpected c

/-- The token that starts at a mark, and what follows it. -/
def scan (m : Mark) (rest : List Mark) : Except (LexFault × Nat) (Token × List Mark) :=
  if m.char.isDigit then
    let digits := rest.takeWhile (·.char.isDigit)
    let (fraction, after) := scanFraction (rest.dropWhile (·.char.isDigit))
    .ok (⟨.number, textOf (m :: digits ++ fraction), m.origin⟩, after)
  else if startsName m.char then
    let word := textOf (m :: rest.takeWhile (continuesName ·.char))
    let kind := match Keyword.ofWord? word with
      | some k => .keyword k
      | none => .name
    .ok (⟨kind, word, m.origin⟩, rest.dropWhile (continuesName ·.char))
  else if m.char = '"' then
    let (text, after) := scanLiteral rest
    .ok (⟨.string, String.ofList text, m.origin⟩, after)
  else
    match scanSymbol? m rest with
    | some (s, after) => .ok (⟨.symbol s, s.spelling, m.origin⟩, after)
    | none => .error (refusal m.char, m.origin)

theorem length_dropWhile_le {α : Type} (p : α → Bool) (l : List α) :
    (l.dropWhile p).length ≤ l.length := (List.dropWhile_sublist p).length_le

theorem scanFraction_length (marks : List Mark) :
    (scanFraction marks).2.length ≤ marks.length := by
  unfold scanFraction
  split
  · split
    · have := length_dropWhile_le (fun m : Mark => m.char.isDigit)
      simp only [List.length_cons]
      exact Nat.le_trans (this _) (by omega)
    · simp
  · simp

theorem scanLiteral_length (marks : List Mark) :
    (scanLiteral marks).2.length ≤ marks.length := by
  fun_induction scanLiteral marks <;> simp_all <;> omega

theorem scanSymbol?_length {m : Mark} {rest after : List Mark} {s : Symbol}
    (h : scanSymbol? m rest = some (s, after)) : after.length ≤ rest.length := by
  unfold scanSymbol? at h
  split at h
  · simp only [Option.some.injEq, Prod.mk.injEq] at h
    rw [← h.2]
    simp
  · simp only [Option.map_eq_some_iff, Prod.mk.injEq] at h
    obtain ⟨_, _, _, rfl⟩ := h
    exact Nat.le_refl _

/-- A token takes up at least one mark. -/
theorem scan_length {m : Mark} {rest after : List Mark} {t : Token}
    (h : scan m rest = .ok (t, after)) : after.length ≤ rest.length := by
  unfold scan at h
  split at h
  · simp only [Except.ok.injEq, Prod.mk.injEq] at h
    rw [← h.2]
    exact Nat.le_trans (scanFraction_length _) (length_dropWhile_le _ _)
  · split at h
    · simp only [Except.ok.injEq, Prod.mk.injEq] at h
      rw [← h.2]
      exact length_dropWhile_le _ _
    · split at h
      · simp only [Except.ok.injEq, Prod.mk.injEq] at h
        rw [← h.2]
        exact scanLiteral_length _
      · split at h
        · simp only [Except.ok.injEq, Prod.mk.injEq] at h
          rw [← h.2]
          exact scanSymbol?_length (by assumption)
        · simp at h

/-- The tokens of a canonical text, or the first place where no token can start. -/
def scanAll : List Mark → Except (LexFault × Nat) (List Token)
  | [] => .ok []
  | m :: rest =>
    if Text.isBlank m.char then scanAll rest
    else if m.char = '#' then scanAll (rest.dropWhile (!Text.isLineBreak ·.char))
    else
      match _h : scan m rest with
      | .error fault => .error fault
      | .ok (t, after) =>
        match scanAll after with
        | .error fault => .error fault
        | .ok tokens => .ok (t :: tokens)
  termination_by marks => marks.length
  decreasing_by
    · simp
    · have := length_dropWhile_le (!Text.isLineBreak ·.char) rest
      simp only [List.length_cons]
      omega
    · have := scan_length _h
      simp only [List.length_cons]
      omega

end Token

/-- The tokens of a canonical text. -/
def Canonical.tokens (c : Canonical) : Except (LexFault × Nat) (List Token) := Token.scanAll c.marks

end Parlance
