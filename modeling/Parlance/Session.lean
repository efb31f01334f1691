import Parlance.Source
import Parlance.Run.Evaluate
/-!
# Sessions

A session runs programs one after another. It keeps the functions, the variables and the lists, and
the world with its input and files. A run with a time limit may make so many rounds of a loop per
second; it does not look at the session's halt flag. A time limit of more than 292 years
breaks the run down before it starts.
-/
namespace Parlance

/-- The bounds within which programs are read and run. -/
structure Limits where
  /-- how deep expressions and blocks may nest -/
  nesting : Nat
  /-- how many calls may be inside one another -/
  calls : Nat
  /-- the most rounds that a loop may make -/
  rounds : Nat
  /-- how many rounds of a loop count as a second -/
  roundsPerSecond : Nat

/-- Deeper and longer than any program needs that ends in a reasonable time. -/
def Limits.standard : Limits := ⟨250, 150, 1000000000000000, 1000000⟩

structure Session where
  functions : FunctionTable
  store : Store
  frame : Frame
  world : World
  halted : Bool
  debug : Bool
  limits : Limits

/-- How a program ended. -/
inductive Outcome
  | done
  | failed (failure : Failure)
  /-- a loop went through more rounds than any run may make -/
  | exhausted
  | waiting (need : Need)
  deriving DecidableEq

/-- What a step of a session leaves: the outcome, the session afterwards, and the texts written and
the lines of the trace, in order. -/
structure Step where
  outcome : Outcome
  session : Session
  written : List String
  trace : List String

/-- How a program is run. -/
structure RunOptions where
  /-- the time limit in seconds -/
  timeout : Option Number
  /-- the session is told to stop after so many writes -/
  haltAfter : Option Nat

namespace RunOptions

def plain : RunOptions := ⟨none, none⟩

/-- The rounds that a loop may make: those of the limits, and within a time limit no more than there
is time for. -/
def rounds (o : RunOptions) (limits : Limits) : Nat :=
  match o.timeout with
  | none => limits.rounds
  | some seconds =>
    match (seconds.mul (.ofNat limits.roundsPerSecond)).floor? with
    | some n => min n.toNat limits.rounds
    | none => limits.rounds

/-- The longest time limit in seconds: as many nanoseconds as a signed word of 64 bits can count, to
the microsecond. -/
def longestTimeout : Number := Decimal.toNumber false ⟨9223372036854775, -6⟩

/-- The time limit is too long to be waited for. -/
def isEndless (o : RunOptions) : Bool := o.timeout.any longestTimeout.lt

end RunOptions

namespace Session

/-- A session before its first program. -/
def start (world : World) (debug : Bool) (limits : Limits) : Session :=
  ⟨[], .empty, [], world, false, debug, limits⟩

/-- The state in which a program starts. -/
def state (s : Session) (haltAfter : Option Nat) : State :=
  { store := s.store
    frame := s.frame
    world := s.world
    halted := s.halted
    haltAfter := haltAfter
    written := []
    trace := [] }

/-- What stays the same during a run of the session. -/
def context (s : Session) (functions : FunctionTable) (options : RunOptions) : Context :=
  { functions := functions
    debug := s.debug
    heedsHalt := options.timeout.isNone
    rounds := options.rounds s.limits }

/-- The session after a run. -/
def afterRun (s : Session) (functions : FunctionTable) (final : State) : Session :=
  { s with
    functions := functions
    store := final.store
    frame := final.frame
    world := final.world
    halted := final.halted }

/-- How a program ended, given how its statements ended. -/
def outcomeOf (timeout : Option Number) : Except Stop Unit → Outcome
  | .ok () => .done
  | .error (.fault fault offset) => .failed (.run fault offset)
  | .error (.returned _) => .done
  | .error (.waiting need) => .waiting need
  | .error .exhausted =>
    match timeout with
    | some seconds => .failed (.run (.timedOut seconds.dump) 0)
    | none => .exhausted

def boundNote (functions : FunctionTable) : String :=
  "[binder] " ++ toString functions.length ++ " functions bound"

/-- Binds a program and runs it. A program that cannot be bound leaves the session as it was. -/
def run (s : Session) (options : RunOptions) (p : Program) : Step :=
  if options.isEndless then ⟨.failed (.run (.breakdown .timeLimit) 0), s, [], []⟩
  else
    match p.bind s.functions with
    | .error fault => ⟨.failed (.binding fault), s, [], []⟩
    | .ok functions =>
      let (r, final) :=
        Run.statements (s.context functions options) s.limits.calls p (s.state options.haltAfter)
      { outcome := outcomeOf options.timeout r
        session := s.afterRun functions final
        written := final.written.reverse
        trace := (if s.debug then [boundNote functions] else []) ++ final.trace.reverse }

/-- Reads a program and runs it. -/
def runSource (s : Session) (options : RunOptions) (source : List Char) : Step :=
  let reading := if s.debug then Source.programTrace s.limits.nesting source else []
  match Source.program s.limits.nesting source with
  | .error failure => ⟨.failed failure, s, [], reading⟩
  | .ok p =>
    let step := s.run options p
    { step with trace := reading ++ step.trace }

end Session
end Parlance
