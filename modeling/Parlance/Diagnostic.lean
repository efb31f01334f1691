import Parlance.Fault
import Parlance.Number.Display
import Parlance.Syntax.Parser
import Parlance.Token.Scan
import Parlance.Text.Lines
/-!
# Diagnostics

A diagnostic is a fault in the form in which it is shown: its kind, its message and its offset. The
report of a diagnostic against a source adds line and column, the lines around the place with a
caret under it, and suggestions that depend on the kind and the message.
-/
namespace Parlance

/-- The kind of a diagnostic, with what only that kind knows. -/
inductive DiagnosticKind
  | general
  | lex
  | parse (expected found : Option String)
  | assignmentTarget (expected found : Option String)
  | binding
  | runtime
  | undefinedVariable (name : String)
  | type
  | index
  | timeout
  deriving DecidableEq, Repr

/-- An offset may lie outside the source; a report then shows the nearer end. -/
structure Diagnostic where
  kind : DiagnosticKind
  message : String
  offset : Int
  deriving DecidableEq, Repr

namespace DiagnosticKind

def label : DiagnosticKind → String
  | general => "ReoError"
  | lex => "LexError"
  | parse .. => "ParseError"
  | assignmentTarget .. => "AssignmentTargetError"
  | binding => "BindingError"
  | runtime => "RuntimeError"
  | undefinedVariable _ => "UndefinedVariableError"
  | type => "TypeError"
  | index => "IndexError"
  | timeout => "TimeoutError"

def expected? : DiagnosticKind → Option String
  | parse e _ | assignmentTarget e _ => e
  | _ => none

def found? : DiagnosticKind → Option String
  | parse _ f | assignmentTarget _ f => f
  | _ => none

/-- The kinds that say what was expected and what was found. -/
def isSyntactic : DiagnosticKind → Bool
  | parse .. | assignmentTarget .. => true
  | _ => false

end DiagnosticKind

/-! ### From causes to diagnostics -/

/-- The label of what was found: the kind of a token, or the end. -/
def foundLabel (found : Option Token) : String :=
  match found with
  | some t => t.kind.label
  | none => Token.endLabel

/-- How a message shows what was found. -/
def foundText (found : Option Token) : String :=
  match found with
  | some t => t.kind.label ++ (if t.text.isEmpty then "" else " '" ++ t.text ++ "'")
  | none => Token.endLabel

/-- The place of a token in a source of the given length. -/
def offsetOf (length : Nat) (token : Option Token) : Nat := (token.map Token.offset).getD length

def LexFault.diagnostic (fault : LexFault × Nat) : Diagnostic := ⟨.lex, fault.1.message, fault.2⟩

/-- The diagnostic of a parse fault in a source of the given length. -/
def ParseFault.diagnostic (length : Nat) : ParseFault → Diagnostic
  | missing wanted found =>
    ⟨.parse (some wanted.label) (some (foundLabel found)),
      "Expected " ++ wanted.description ++ " but found " ++ foundText found, offsetOf length found⟩
  | noExpression found =>
    ⟨.parse (some "expression") (some (foundLabel found)),
      "Expected an expression but found " ++ foundText found, offsetOf length found⟩
  | notCallable callee offset =>
    ⟨.parse (some TokenKind.name.label) (some callee.label), "Only simple names can be called",
      offset⟩
  | notAssignable start found =>
    ⟨.assignmentTarget (some TokenKind.name.label) (some (foundLabel found)),
      "Assignment target must be a variable or a list element (name[index])",
      offsetOf length start⟩
  | tooDeep found =>
    ⟨.parse (some "shallower nesting") (some (foundLabel found)), "Expression nested too deeply",
      offsetOf length found⟩

def BindingFault.diagnostic (fault : BindingFault × Nat) : Diagnostic :=
  ⟨.binding, fault.1.message, fault.2⟩

def Fault.kind : Fault → DiagnosticKind
  | undefined name => .undefinedVariable name
  | notList .. => .type
  | outOfRange .. => .index
  | halted | timedOut _ => .timeout
  | _ => .runtime

def Fault.diagnostic (fault : Fault) (offset : Nat) : Diagnostic :=
  ⟨fault.kind, fault.message, offset⟩

namespace Diagnostic

/-- One line: kind, offset and message. -/
def summary (d : Diagnostic) : String :=
  d.kind.label ++ " at " ++ toString d.offset ++ ": " ++ d.message

/-- The source ended where more was expected: another line may complete it. -/
def isIncomplete (d : Diagnostic) : Bool :=
  d.kind.isSyntactic && d.kind.found? == some Token.endLabel

/-! ### Context -/

/-- A line number in the width of at least four columns, and a colon. -/
def lineLabel (n : Nat) : List Char :=
  let digits := decimalDigits n
  List.replicate (4 - digits.length) ' ' ++ digits ++ [':', ' ']

/-- The line under the place at fault. -/
def caretLine (column : Nat) : List Char :=
  List.replicate (6 + (column - 1)) ' ' ++ "^ Error here".toList

/-- The lines from number `first` on, with the caret line after the line of the given position. -/
def markedLines (place : Text.Position) (first : Nat) : List (List Char) → List (List Char)
  | [] => []
  | l :: ls =>
    let rest := markedLines place (first + 1) ls
    (lineLabel first ++ l) :: if first = place.line then caretLine place.column :: rest else rest

/-- The lines at most `around` lines away from an offset, with a caret under the offset. -/
def contextLines (source : List Char) (offset : Int) (around : Nat) : List (List Char) :=
  let place := Text.locate source offset
  let start := place.line - around - 1
  let shown := ((Text.lines source).take (place.line + around)).drop start
  markedLines place (start + 1) shown

/-- Those lines as one text. -/
def contextText (source : List Char) (offset : Int) (around : Nat) : String :=
  String.ofList (List.intercalate ['\n'] (contextLines source offset around))

/-! ### Suggestions -/

/-- One text occurs in another. -/
def occurs (part : List Char) : List Char → Bool
  | [] => part.isEmpty
  | c :: cs => part.isPrefixOf (c :: cs) || occurs part cs

/-- The message mentions a text. -/
def mentions (d : Diagnostic) (part : String) : Bool := occurs part.toList d.message.toList

/-- The line of the source that an offset is in. -/
def faultLine (source : List Char) (offset : Int) : List Char :=
  (Text.lines source).getD ((Text.locate source offset).line - 1) []

/-- A suggestion if a condition holds. -/
def suggestIf (condition : Bool) (suggestion : String) : List String :=
  if condition then [suggestion] else []

/-- What to do about a fault. -/
def suggestions (d : Diagnostic) (source : List Char) : List String :=
  match d.kind with
  | .lex =>
    suggestIf (d.mentions "'='")
      ("Use 'let NAME be VALUE.' or 'set NAME to VALUE.' to assign, "
        ++ "'is equal to' or '==' to compare")
    ++ suggestIf (d.mentions "'&'" || d.mentions "'|'")
      "Write 'and'/'or' (or '&&'/'||') for logical operators"
    ++ suggestIf (d.mentions "';'") "Statements end with '.', not ';'"
  | .assignmentTarget .. =>
    ["Only a variable or a single list element (name[index]) can be assigned"]
  | .parse expected found =>
    suggestIf (expected == some Symbol.dot.label) "Every statement ends with '.'"
    ++ suggestIf (expected == some Keyword.endWord.label || found == some Token.endLabel)
      "Close every block with 'end.' (for example 'end if.')"
    ++ suggestIf (expected == some Symbol.colon.label)
      "Block headers end with ':' (for example 'while x is less than 3:')"
    ++ suggestIf (expected == some Keyword.timesWord.label
        && occurs "times".toList ((faultLine source d.offset).map Text.lowerChar))
      "Write the count before 'times:' (for example 'repeat 3 times:')"
  | .undefinedVariable name =>
    ["Bind '" ++ name ++ "' with 'let " ++ name ++ " be ...' before using it; "
      ++ "functions cannot see the caller's variables"]
  | _ => []

end Diagnostic

/-! ### Reports -/

/-- A diagnostic with all that a report shows. Texts that are empty are not shown. -/
structure Report where
  kind : String
  message : String
  offset : Int
  line : Nat
  column : Nat
  expected : Option String
  found : Option String
  context : Option String
  suggestions : List String
  deriving DecidableEq, Repr

/-- The report of a diagnostic against its source. -/
def Diagnostic.report (d : Diagnostic) (source : List Char) : Report :=
  let place := Text.locate source d.offset
  { kind := d.kind.label
    message := d.message
    offset := d.offset
    line := place.line
    column := place.column
    expected := d.kind.expected?
    found := d.kind.found?
    context := if source.isEmpty then none else some (contextText source d.offset 2)
    suggestions := d.suggestions source }

namespace Report

/-- A labelled line, unless there is nothing to show. -/
def labelled (label : String) (text : Option String) : String :=
  match text with
  | some t => if t.isEmpty then "" else "  " ++ label ++ t ++ "\n"
  | none => ""

/-- The report as text. -/
def text (r : Report) : String :=
  let place :=
    if r.line = 0 then " at offset " ++ toString r.offset
    else " at line " ++ toString r.line ++ ", column " ++ toString r.column
  let suggested :=
    if r.suggestions.isEmpty then ""
    else "  Suggestions:\n" ++ String.join (r.suggestions.map fun s => "    - " ++ s ++ "\n")
  r.kind ++ place ++ ":\n  " ++ r.message ++ "\n"
    ++ labelled "Expected: " r.expected
    ++ labelled "Found: " r.found
    ++ labelled "Context:\n" r.context
    ++ suggested

end Report

namespace Diagnostic

/-- The full report, after the name of the file. -/
def describe (d : Diagnostic) (source : List Char) (file : String) : String :=
  file ++ ": " ++ (d.report source).text

/-- A text or the absence of one, in the interchange format JSON. -/
def jsonOption : Option String → String
  | some s => Text.jsonString s
  | none => "null"

/-- The diagnostic as one object of the interchange format JSON. -/
def json (d : Diagnostic) (source : List Char) : String :=
  let place := Text.locate source d.offset
  let syntactic :=
    if d.kind.isSyntactic then
      ", \"expected\": " ++ jsonOption d.kind.expected? ++ ", \"found\": "
        ++ jsonOption d.kind.found?
    else ""
  "\x7b\"kind\": " ++ Text.jsonString d.kind.label
    ++ ", \"message\": " ++ Text.jsonString d.message
    ++ ", \"offset\": " ++ toString d.offset
    ++ ", \"line\": " ++ toString place.line
    ++ ", \"column\": " ++ toString place.column
    ++ syntactic ++ "\x7d"

end Diagnostic
end Parlance
