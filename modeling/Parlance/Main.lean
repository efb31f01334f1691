import Parlance.Shell.Command
import Std.Time.Format
/-!
# The program

The outer layer: it reads lines and files, prints, and repeats a run that needed to know more. A run
repeats what it did before, so of what it writes only the part that is new is printed.
-/
namespace Parlance.Program

/-- The present time. -/
def presentMoment : IO Moment := do
  let now ← Std.Time.PlainDateTime.now
  return ⟨now.date.year.toInt.toNat, now.date.month.val.toNat, now.date.day.val.toNat,
    now.time.hour.val.toNat, now.time.minute.val.toNat, now.time.second.val.toNat,
    now.time.nanosecond.val.toNat / 1000⟩

/-- A world of which nothing but the time is known. -/
def unknownWorld : IO World := return ⟨← presentMoment, [], true, .empty, some []⟩

/-- Enters what is at a place. -/
def lookAt (files : Files) (place : List String) : IO Files := do
  let path := (← IO.currentDir) / Files.pathOf place
  if ← path.isDir then return files.addFolder place
  else if ← path.pathExists then
    return files.store place (← IO.FS.readBinFile path).toList
  else return files

/-- Enters what is on the way to a path and at it. -/
def survey (world : World) (path : String) : IO World := do
  let (start, names) := Files.stepsOf path
  let mut files := world.files
  for k in List.range (names.length + 1) do
    match files.walk start (names.take k) with
    | .ok place => files ← lookAt files place
    | .error _ => pure ()
  return { world with files := files, surveyed := world.surveyed.map (path :: ·) }

/-- Writes the files that a run has changed. -/
def save (before after : Files) : IO Unit := do
  for (path, bytes) in before.changes after do
    IO.FS.writeBinFile path ⟨bytes.toArray⟩

/-- A line without its end, or none at the end of input. -/
def readLine? : IO (Option String) := do
  let line ← (← IO.getStdin).getLine
  if line.isEmpty then return none
  return (Text.inputLines line.toList).head?.map String.ofList

/-- Learns what a run needs. -/
def learn (world : World) : Need → IO World
  | .path path => survey world path
  | .line => do
    match ← readLine? with
    | some line => return { world with input := world.input ++ [line] }
    | none => return { world with inputOpen := false }

/-- What one attempt at a run gives. -/
structure Attempt (α : Type) where
  out : String
  err : String
  need : Option Need
  files : Files
  result : α

/-- Repeats a run until it knows enough, and prints what it writes as soon as it is known. -/
partial def settle {α : Type} (run : World → Attempt α) (world : World) (printed : Nat) : IO α := do
  let attempt := run world
  IO.print (String.ofList (attempt.out.toList.drop printed))
  (← IO.getStdout).flush
  save world.files attempt.files
  match attempt.need with
  | some need => settle run (← learn world need) attempt.out.length
  | none =>
    IO.eprint attempt.err
    return attempt.result

/-- Answers the arguments; the result is the exit code. -/
def respond (args : List String) (world : World) : IO UInt32 :=
  settle (fun w =>
    let a := Command.answer false args w
    ⟨a.out, a.err, a.need, a.world.files, UInt32.ofNat a.code⟩) world 0

/-- Answers lines until the shell is left, breaks down or the input ends; the result is the exit
code. -/
partial def converse (repl : Repl) : IO UInt32 := do
  IO.print repl.prompt
  (← IO.getStdout).flush
  match ← readLine? with
  | none =>
    IO.print Repl.farewell
    return 0
  | some line =>
    let world := { repl.session.world with clock := ← presentMoment, input := [] }
    let (next, reply) : Repl × Reply ← settle (fun w =>
      let (next, reply) := { repl with session.world := w }.submit line
      ⟨reply.out, reply.err, reply.need, next.session.world.files, next, reply⟩) world 0
    if reply.breakdown.isSome then return 1
    else if reply.ended then return 0
    else converse next

/-- The interactive shell. -/
def interact (opening : String) (debug : Bool) (timeout : Option Number) : IO UInt32 := do
  IO.print (opening ++ Repl.banner false debug)
  converse (.start (← unknownWorld) debug timeout)

end Parlance.Program

open Parlance Program in
/-- Exit codes: zero, one for a script that failed, two for arguments that make no sense. Without
arguments the shell starts. -/
def main (args : List String) : IO UInt32 := do
  let world ← unknownWorld
  match Arguments.read args with
  | .options o =>
    match o.scriptPath? with
    | some path => respond args (← survey world path)
    | none =>
      if args.isEmpty then interact Repl.welcome false none
      else if o.has .interactive then interact "" (o.has .debug) o.timeout
      else respond args world
  | _ => respond args world
