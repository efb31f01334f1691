import Parlance.Shell.Repl
/-!
# The command line

What the program answers to its arguments, in a world of which everything is known: its exit code,
what it writes, and the world it leaves. The shell takes its lines from the same input as the
programs that it runs.
-/
namespace Parlance

namespace Repl

/-- What the shell writes until it is left or the input ends, the prompts included, after the two
outputs so far. It takes at most the given number of lines. -/
def converse (r : Repl) (out err : String) : Nat → Answer
  | 0 => { Answer.ok r.session.world (out ++ r.prompt ++ farewell) with err := err }
  | lines + 1 =>
    let out := out ++ r.prompt
    let world := r.session.world
    match world.input with
    | [] => { Answer.ok world (out ++ farewell) with err := err }
    | line :: input =>
      let (next, reply) := { r with session.world := { world with input := input } }.submit line
      let out := out ++ reply.out
      let err := err ++ reply.err
      let world := next.session.world
      match reply.breakdown with
      | some cause => { Answer.broken world cause with out := out }
      | none =>
        if reply.ended then { Answer.ok world out with err := err }
        else converse next out err lines

end Repl

namespace Command

/-- The answer to the options. -/
def answerTo (lineEditing : Bool) (o : Options) (world : World) : Answer :=
  match o.scriptPath? with
  | some path => Script.run o path world
  | none =>
    if o.has .interactive then
      let debug := o.has .debug
      (Repl.start world debug o.timeout).converse (Repl.banner lineEditing debug) ""
        world.input.length
    else .ok world (Arguments.help ++ "\n" ++ Repl.languageInfo)

/-- The answer to the arguments: arguments that make no sense have an exit code of their own. -/
def answer (lineEditing : Bool) (args : List String) (world : World) : Answer :=
  match Arguments.read args with
  | .mistake => { Answer.ok world "" with code := 2, err := Arguments.usage }
  | .noValue => .broken world .option
  | .help => .ok world Arguments.help
  | .version => .ok world (versionText ++ "\n")
  | .options o => answerTo lineEditing o world

end Command
end Parlance
