import Parlance.Table
import Parlance.Text.Utf8
import Parlance.Text.Lines
/-!
# Files

The files and folders that a program can reach. A place in the tree is given by the names on the way
to it, from the working directory; the way to a place above starts with two points, and a way that
starts with the empty name starts at the root. A program can create files but no folders. Reading a
text unifies line breaks, writing keeps them. Names and paths are bounded in length, counted in
bytes of their encoding.
-/
namespace Parlance

/-- Files and folders by path. A folder with a file in it need not be listed. -/
structure Files where
  contents : Table (List UInt8)
  folders : List String

/-- Why a file cannot be read or written. -/
inductive FileFault
  | missing
  | notFolder
  | isFolder
  /-- the path or a name in it -/
  | tooLong
  /-- the null character is in the path -/
  | malformed
  | notText (fault : Text.Utf8Fault)
  deriving DecidableEq, Repr

/-- What the operating system says about a path, or the decoder about the bytes. -/
def FileFault.message (path : String) : FileFault → String
  | missing => "[Errno 2] No such file or directory: " ++ Text.quoted path
  | notFolder => "[Errno 20] Not a directory: " ++ Text.quoted path
  | isFolder => "[Errno 21] Is a directory: " ++ Text.quoted path
  | tooLong => "[Errno 36] File name too long: " ++ Text.quoted path
  | malformed => "embedded null byte"
  | notText fault => fault.message

/-- What is at a place in the tree. -/
inductive Entry
  | folder
  | file (bytes : List UInt8)
  | absent
  deriving DecidableEq, Repr

namespace Files

/-- Nothing but the working directory and the folders above it. -/
def empty : Files := ⟨[], []⟩

/-- The path of a place. -/
def pathOf (place : List String) : String := String.intercalate "/" place

/-- The names between the slashes of a path. -/
def split (path : List Char) : List (List Char) :=
  match path with
  | [] => [[]]
  | c :: cs =>
    if c = '/' then [] :: split cs
    else
      match split cs with
      | [] => [[c]]
      | n :: ns => (c :: n) :: ns

/-- The working directory, the root and the folders above either. -/
def isBase (place : List String) : Bool := place == [""] || place.all (· == "..")

/-- What is at a place. -/
def entry (files : Files) (place : List String) : Entry :=
  let path := pathOf place
  if isBase place then .folder
  else
    match files.contents.get? path with
    | some bytes => .file bytes
    | none =>
      if files.folders.contains path
          || files.contents.keys.any fun k => (path ++ "/").toList.isPrefixOf k.toList then .folder
      else .absent

/-- The place above a folder. -/
def above (place : List String) : List String :=
  if place = [""] then place
  else if place.all (· == "..") then place ++ [".."]
  else place.dropLast

/-- How many bytes a name may have. -/
def longestName : Nat := 255

/-- How many bytes a path may have. -/
def longestPath : Nat := 4095

/-- Follows names from a place. Each name needs a folder to be looked up in. -/
def walk (files : Files) (place : List String) : List String → Except FileFault (List String)
  | [] => .ok place
  | n :: ns =>
    match files.entry place with
    | .absent => .error .missing
    | .file _ => .error .notFolder
    | .folder =>
      if n = "." then walk files place ns
      else if n = ".." then walk files (above place) ns
      else if longestName < n.utf8ByteSize then .error .tooLong
      else walk files (place ++ [n]) ns

/-- Where a path starts, and the names in it. -/
def stepsOf (path : String) : List String × List String :=
  let names := ((split path.toList).filter (!·.isEmpty)).map String.ofList
  (if path.toList.head? = some '/' then [""] else [], names)

/-- The place that a path leads to. -/
def resolve (files : Files) (path : String) : Except FileFault (List String) :=
  let (start, names) := stepsOf path
  if path.toList.contains '\x00' then .error .malformed
  else if path.isEmpty then .error .missing
  else if longestPath < path.utf8ByteSize then .error .tooLong
  else files.walk start names

/-- The path asks for a folder by a slash at its end. -/
def asksFolder (path : String) : Bool := path.toList.getLast? == some '/'

/-- The bytes of a file. -/
def read (files : Files) (path : String) : Except FileFault (List UInt8) := do
  match files.entry (← files.resolve path) with
  | .absent => .error .missing
  | .folder => .error .isFolder
  | .file bytes => if asksFolder path then .error .notFolder else .ok bytes

/-- The text of a file, with unified line breaks. -/
def readText (files : Files) (path : String) : Except FileFault (List Char) := do
  match Text.decode (← files.read path) with
  | .ok cs => .ok (Text.unifyBreaks cs)
  | .error fault => .error (.notText fault)

/-- The place of a file that is to be written; the file need not exist, its folder must. -/
def writable (files : Files) (path : String) : Except FileFault (List String) := do
  let place ← files.resolve path
  if asksFolder path then .error .isFolder
  else
    match files.entry place with
    | .folder => .error .isFolder
    | .file _ | .absent => .ok place

/-- Gives the file at a place new contents. -/
def store (files : Files) (place : List String) (bytes : List UInt8) : Files :=
  { files with contents := files.contents.put (pathOf place) bytes }

/-- Enters a folder. -/
def addFolder (files : Files) (place : List String) : Files :=
  { files with folders := pathOf place :: files.folders }

/-- The files that are new or have new contents. -/
def changes (before after : Files) : Table (List UInt8) :=
  after.contents.filter fun f => before.contents.get? f.1 != some f.2

end Files
end Parlance
