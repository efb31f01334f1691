import Parlance.Shell.Script
/-!
# The interactive shell

The shell takes lines. It collects them until they make a program, which it then runs in one session
for all. A blank line gives up on lines that make none. A line that starts with a colon is a command
of the shell, but only where no lines are being collected.
-/
namespace Parlance

structure Repl where
  session : Session
  /-- the lines of a program that is not complete -/
  pending : List String
  timeout : Option Number

/-- What the shell answers to a line. -/
structure Reply where
  out : String
  err : String
  /-- the shell has been left -/
  ended : Bool
  need : Option Need
  /-- what ended the shell, if it broke down -/
  breakdown : Option Breakdown

namespace Reply

def silent : Reply := ⟨"", "", false, none, none⟩

def text (out : String) : Reply := { silent with out := out }

end Reply

namespace Repl

def start (world : World) (debug : Bool) (timeout : Option Number) : Repl :=
  ⟨.start world debug .standard, [], timeout⟩

/-- What the shell prints first. -/
def banner (lineEditing debug : Bool) : String :=
  unlines ([versionText ++ " - Interactive Mode", "Type 'exit.' to quit, ':help' for commands"]
    ++ (if lineEditing then ["Readline enabled: Use ↑/↓ for history, Tab for completion"] else [])
    ++ (if debug then ["Debug mode enabled"] else [])
    ++ [""])

/-- What is printed about the language when no arguments are given. -/
def languageInfo : String :=
  unlines
    ["Reo Programming Language",
     String.ofList (List.replicate 50 '='),
     "A small scripting language written in plain English:",
     "• Phrases like 'is greater than' and 'plus' become operators",
     "• Numbers, text, truth values and lists",
     "• if / while / repeat / for each blocks closed with 'end.'",
     "• Functions declared with 'to name(params):'",
     ""]

/-- What is printed before the shell starts by default. -/
def welcome : String :=
  languageInfo
    ++ unlines ["Starting interactive mode...", "Use 'reo --help' for command line options", ""]

/-- What is printed at the end of input. -/
def farewell : String := "\nGoodbye!\n"

def prompt (r : Repl) : String := if r.pending.isEmpty then "reo> " else "....> "

def helpText : String :=
  unlines
    ["REPL Commands:",
     "  :normalize <code> - Show the normalized text",
     "  :tokens <code>    - Show the token stream",
     "  :parse <code>     - Show the AST",
     "  :env              - Show variables and functions",
     "  :help             - Show this help",
     "  exit.             - Exit REPL",
     "",
     "Language features:",
     "  let x be 5.                           - Bind a variable",
     "  set x to x plus 1.                    - Assign",
     "  say x is greater than 3.              - Print a value",
     "  repeat 3 times: say \"hi\". end.        - Loops (also while, for each)",
     "  to double(n): return n times 2. end.  - Declare a function"]

/-- The name under which the shell reports faults. -/
def fileName : String := "<repl>"

/-- A long display is cut to sixty characters. -/
def shortened (s : String) : String :=
  if 60 < s.length then String.ofList (s.toList.take 57) ++ "..." else s

/-- The line about a variable. -/
def variableLine (store : Store) (name : String) (v : Value) : String :=
  let shown := (store.display? v).getD Fault.tooDeep.message
  "  " ++ name ++ " = " ++ shortened shown ++ " : " ++ v.kind.label

/-- The line about a function. -/
def functionLine (d : Declaration) : String :=
  "  to " ++ d.name ++ "(" ++ String.intercalate ", " d.parameters ++ ")"

/-- The variables and functions of a session. -/
def environment (s : Session) : String :=
  if s.frame.isEmpty && s.functions.isEmpty then unlines ["  (no user-defined bindings)"]
  else
    unlines (s.frame.map (fun b => variableLine s.store b.1 b.2)
      ++ s.functions.map fun f => functionLine f.2)

/-- Splits a command line at its first space. -/
def splitCommand (cs : List Char) : String × List Char :=
  (String.ofList (cs.takeWhile (· != ' ')), (cs.dropWhile (· != ' ')).tail)

def reportReply (trace : List String) (source : List Char) (failure : Failure) : Reply :=
  { Reply.silent with
    err := unlines trace ++ reportText failure.diagnostic source fileName false }

/-- The answer to a command of the shell. -/
def command (r : Repl) (line : List Char) : Reply :=
  let (name, argument) := splitCommand (Text.trim line)
  let debug := r.session.debug
  if name = ":normalize" then .text ((Canonical.ofSource argument).text ++ "\n")
  else if name = ":tokens" then
    let trace := if debug then Source.tokensTrace argument else []
    match Source.tokens argument with
    | .ok ts => { Reply.text (unlines (tokenLines ts argument.length)) with err := unlines trace }
    | .error failure => reportReply trace argument failure
  else if name = ":parse" then
    let nesting := r.session.limits.nesting
    let trace := if debug then Source.programTrace nesting argument else []
    match Source.program nesting argument with
    | .ok p => { Reply.text (p.outline 0 ++ "\n") with err := unlines trace }
    | .error failure => reportReply trace argument failure
  else if name = ":env" then .text (environment r.session)
  else if name = ":help" then .text helpText
  else .text ("Unknown command: " ++ name ++ " (try :help)\n")

/-- Runs a program that the lines have made. -/
def execute (r : Repl) (trace : List String) (source : List Char) (p : Program) : Repl × Reply :=
  let step := r.session.run ⟨r.timeout, none⟩ p
  let reply : Reply :=
    { Reply.silent with
      out := String.join step.written
      err := unlines (trace ++ step.trace) }
  let r := { r with session := step.session, pending := [] }
  match step.outcome with
  | .done | .exhausted => (r, reply)
  | .waiting need => (r, { reply with need := some need })
  | .failed failure =>
    (r, { reply with
      err := reply.err ++ reportText failure.diagnostic source fileName false
      breakdown := failure.breakdown? })

/-- Adds a line to the pending ones and runs them if they make a program. -/
def collect (r : Repl) (line : String) : Repl × Reply :=
  let pending := r.pending ++ [line]
  let source := (String.intercalate "\n" pending).toList
  let nesting := r.session.limits.nesting
  let trace := if r.session.debug then Source.programTrace nesting source else []
  match Source.program nesting source with
  | .ok p => r.execute trace source p
  | .error failure =>
    if failure.diagnostic.isIncomplete && !(Text.trim line.toList).isEmpty then
      ({ r with pending := pending }, { Reply.silent with err := unlines trace })
    else ({ r with pending := [] }, reportReply trace source failure)

/-- The answer to a line. -/
def submit (r : Repl) (line : String) : Repl × Reply :=
  let stripped := Text.trim line.toList
  if !r.pending.isEmpty then r.collect line
  else if stripped = "exit.".toList then (r, { Reply.silent with ended := true })
  else if stripped.isEmpty then (r, .silent)
  else if line.toList.head? = some ':' then (r, r.command line.toList)
  else r.collect line

/-! ### Completion -/

/-- What the shell completes, in the order in which it is offered. -/
def completions : List String :=
  (Keyword.all.map Keyword.spelling).mergeSort (fun a b => a ≤ b)
    ++ Builtin.all.map Builtin.name
    ++ [":tokens", ":normalize", ":parse", ":env", ":help", "exit."]

/-- The completions of the start of a word. -/
def complete (start : String) : List String :=
  completions.filter fun w => start.toList.isPrefixOf w.toList

end Repl
end Parlance
