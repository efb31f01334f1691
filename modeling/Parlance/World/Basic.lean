import Parlance.World.Files
import Parlance.World.Moment
/-!
# The world of a run

What a program can learn from outside: the time, the lines of input, the files. Not all of it need
be known: a run that needs to know more stops and says what it needs, so that it can be repeated in
a world that knows more.
-/
namespace Parlance

structure World where
  clock : Moment
  /-- the lines that have not been read -/
  input : List String
  /-- more lines may follow -/
  inputOpen : Bool
  files : Files
  /-- the paths that have been looked up outside; none if the files are all there are -/
  surveyed : Option (List String)

/-- What a run needs to know from outside. -/
inductive Need
  | line
  | path (path : String)
  deriving DecidableEq, Repr

namespace World

/-- A world of which everything is known. -/
def complete (clock : Moment) (input : List String) (files : Files) : World :=
  ⟨clock, input, false, files, none⟩

/-- What is at a path is known. -/
def knows (w : World) (path : String) : Bool :=
  match w.surveyed with
  | none => true
  | some paths => paths.contains path

end World
end Parlance
