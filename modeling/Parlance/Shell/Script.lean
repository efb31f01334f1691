import Parlance.Session
import Parlance.Shell.Arguments
/-!
# Scripts

Running a script from the command line, or showing one of its forms instead: the canonical text, the
tokens, the outline, or the result of the check alone, in this order of precedence.
-/
namespace Parlance

/-- What a command leaves: its exit code, its two outputs and the world afterwards. -/
structure Answer where
  code : Nat
  out : String
  err : String
  world : World
  /-- why the run stopped short, if the world did not know enough -/
  need : Option Need
  /-- what ended the command, if it broke down -/
  breakdown : Option Breakdown

namespace Answer

def ok (world : World) (out : String) : Answer := ⟨0, out, "", world, none, none⟩

def refused (world : World) (err : String) : Answer := ⟨1, "", err, world, none, none⟩

def broken (world : World) (cause : Breakdown) : Answer :=
  { refused world ("Error: " ++ cause.message ++ "\n") with breakdown := some cause }

end Answer

/-- Lines, each with its end. -/
def unlines (ls : List String) : String := String.join (ls.map (· ++ "\n"))

/-- The name and version that the version option shows. -/
def versionText : String := "Reo v1.0.0"

/-- A diagnostic as it goes to the error output. -/
def reportText (d : Diagnostic) (source : List Char) (file : String) (asJson : Bool) : String :=
  if asJson then d.json source ++ "\n" else d.describe source file

namespace Script

/-- Why a script cannot be read, if the command line has words for it. -/
def unreadableText? (path : String) : FileFault → Option String
  | .missing =>
    some ("Error: Script file '" ++ path ++ "' not found\n"
      ++ "  Hint: Check the file path and make sure the file exists\n")
  | .notText fault =>
    some ("Error: Cannot decode file '" ++ path ++ "': " ++ fault.message ++ "\n"
      ++ "  Hint: Make sure the file is a text file with UTF-8 encoding\n")
  | .isFolder => some ("Error: '" ++ path ++ "' is a directory\n")
  | .notFolder | .tooLong | .malformed => none

/-- The answer for an unread script; without words for the reason the command breaks down. -/
def unread (path : String) (world : World) (reason : FileFault) : Answer :=
  match unreadableText? path reason with
  | some text => .refused world text
  | none => .broken world (.file path reason)

/-- The answer when a source cannot be read or bound. -/
def failed (o : Options) (path : String) (source : List Char) (world : World)
    (trace : List String) (failure : Failure) : Answer :=
  .refused world
    (unlines trace ++ reportText failure.diagnostic source path (o.has .jsonErrors))

/-- The tokens of a script. -/
def showTokens (o : Options) (path : String) (source : List Char) (world : World) : Answer :=
  let trace := if o.has .debug then Source.tokensTrace source else []
  match Source.tokens source with
  | .error failure => failed o path source world trace failure
  | .ok ts => { Answer.ok world (unlines (tokenLines ts source.length)) with err := unlines trace }

/-- Whether a script can be bound. -/
def check (o : Options) (path : String) (source : List Char) (world : World)
    (trace : List String) (p : Program) : Answer :=
  match p.bind [] with
  | .error fault => failed o path source world trace (.binding fault)
  | .ok functions =>
    let bound := if o.has .debug then [Session.boundNote functions] else []
    let text := path ++ ": ok (" ++ toString functions.length ++ " functions, "
      ++ toString p.statements.length ++ " statements)"
    { Answer.ok world (unlines [text]) with err := unlines (trace ++ bound) }

/-- Runs a script. -/
def execute (o : Options) (path : String) (source : List Char) (world : World)
    (trace : List String) (p : Program) : Answer :=
  let step := (Session.start world (o.has .debug) .standard).run ⟨o.timeout, none⟩ p
  let err := unlines (trace ++ step.trace)
  let answer : Answer := ⟨0, String.join step.written, err, step.session.world, none, none⟩
  match step.outcome with
  | .done | .exhausted => answer
  | .waiting need => { answer with need := some need }
  | .failed failure =>
    { answer with
      code := 1
      err := err ++ reportText failure.diagnostic source path (o.has .jsonErrors)
      breakdown := failure.breakdown? }

/-- What the options ask for, on the source of a script. -/
def process (o : Options) (path : String) (source : List Char) (world : World) : Answer :=
  if o.has .normalize then .ok world ((Canonical.ofSource source).text ++ "\n")
  else if o.has .tokens then showTokens o path source world
  else
    let nesting := Limits.standard.nesting
    let trace := if o.has .debug then Source.programTrace nesting source else []
    match Source.program nesting source with
    | .error failure => failed o path source world trace failure
    | .ok p =>
      if o.has .parse then
        { Answer.ok world (p.outline 0 ++ "\n") with err := unlines trace }
      else if o.has .check then check o path source world trace p
      else execute o path source world trace p

/-- What the options ask for, on the script at a path. -/
def run (o : Options) (path : String) (world : World) : Answer :=
  match world.files.readText path with
  | .error reason => unread path world reason
  | .ok source => process o path source world

end Script
end Parlance
