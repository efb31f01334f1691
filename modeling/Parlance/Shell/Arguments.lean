import Parlance.Number.Reading
/-!
# Command line arguments

Options may stand anywhere and long ones may be cut short as long as only one fits. At most one
argument is left over: the script. An option that answers at once, such as the one for the version,
does so when its turn comes, before later mistakes are seen; an option that could be two is a
mistake wherever it stands. A lone double dash ends the options; it belongs to the script that
stands next to it, and after a script that stands elsewhere it is an argument too many.
-/
namespace Parlance

inductive Flag
  | help | interactive | normalize | tokens | parse | check | timeout | jsonErrors | debug | version
  deriving DecidableEq, Repr

namespace Flag

def all : List Flag :=
  [help, interactive, normalize, tokens, parse, check, timeout, jsonErrors, debug, version]

def spelling : Flag → String
  | help => "--help" | interactive => "--interactive" | normalize => "--normalize"
  | tokens => "--tokens" | parse => "--parse" | check => "--check" | timeout => "--timeout"
  | jsonErrors => "--json-errors" | debug => "--debug" | version => "--version"

/-- The flags with a form of one letter. -/
def ofLetter? : Char → Option Flag
  | 'h' => some help
  | 'i' => some interactive
  | _ => none

end Flag

/-- What the arguments ask for. -/
structure Options where
  script : Option String
  flags : List Flag
  timeout : Option Number

inductive Request
  | options (o : Options)
  | version
  | help
  /-- the arguments make no sense -/
  | mistake
  /-- the time limit is given as a lone double dash, which is taken for the end of the options -/
  | noValue

namespace Arguments

/-- What kind of argument a word is. -/
inductive Word
  | plain (text : String)
  | flag (f : Flag) (value : Option String)
  /-- one-letter flags joined after one dash -/
  | letters (cs : List Char)
  /-- the lone double dash after which no word is an option -/
  | divider
  | unknown
  | ambiguous
  deriving DecidableEq

/-- Splits a word at its first equals sign. -/
def splitValue (cs : List Char) : List Char × Option String :=
  match cs.dropWhile (· != '=') with
  | [] => (cs, none)
  | _ :: value => (cs.takeWhile (· != '='), some (String.ofList value))

/-- What follows the dash makes a number: digits of any script, perhaps with a point and digits
before the last of them. A line feed at the end does not count. -/
def isNumber (cs : List Char) : Bool :=
  let cs := if cs.getLast? = some '\n' then cs.dropLast else cs
  let (whole, rest) := readDigits cs
  match rest with
  | [] => !whole.isEmpty
  | '.' :: fraction => !fraction.isEmpty && fraction.all Text.isDigit
  | _ => false

/-- The letters of joined one-letter flags. An equals sign after the first letter is passed over, if
more letters follow; otherwise it counts as a letter. -/
def joinedLetters : List Char → List Char
  | c :: '=' :: d :: cs => c :: d :: cs
  | cs => cs

/-- The flags that a long option may mean. -/
def candidates (option : List Char) : List Flag :=
  match Flag.all.find? fun f => f.spelling.toList == option with
  | some f => [f]
  | none => Flag.all.filter fun f => option.isPrefixOf f.spelling.toList

def classify (word : String) : Word :=
  match word.toList with
  | '-' :: '-' :: rest =>
    let (option, value) := splitValue ('-' :: '-' :: rest)
    match candidates option with
    | [f] => .flag f value
    | [] => if rest.contains ' ' then .plain word else .unknown
    | _ => .ambiguous
  | '-' :: c :: rest =>
    if (Flag.ofLetter? c).isSome then .letters (joinedLetters (c :: rest))
    else if isNumber (c :: rest) || (c :: rest).contains ' ' then .plain word
    else .unknown
  | _ => .plain word

/-- The words, each with its kind; after a lone double dash all are plain. -/
def classifyAll : List String → List Word
  | [] => []
  | "--" :: rest => .divider :: rest.map .plain
  | w :: rest => classify w :: classifyAll rest

/-- A text without its underscores, each of which must stand between two digits. -/
def joinDigits? : List Char → Option (List Char)
  | [] => some []
  | '_' :: _ => none
  | c :: '_' :: d :: cs =>
    if Text.isDigit c && Text.isDigit d then (joinDigits? (d :: cs)).map (c :: ·) else none
  | c :: cs => (joinDigits? cs).map (c :: ·)

/-- A number of seconds: a numeral, or one of the names of what is not finite. Blanks around it do
not count, except that separator characters are not allowed. -/
def seconds? (text : String) : Option Number :=
  let cs := Text.trim text.toList
  let (negative, name) := readSign cs
  let name := name.map Char.toLower
  if text.toList.any Text.isSeparator then none
  else if name = "inf".toList ∨ name = "infinity".toList then some (.infinite negative)
  else if name = "nan".toList then some .nan
  else
    match (joinDigits? cs).bind readNumeral? with
    | some (negative, d) => some (d.toNumber negative)
    | none => none

/-- The arguments seen so far. -/
structure Seen where
  options : Options
  /-- an argument was left over that has no meaning -/
  surplus : Bool

/-- The flags of joined letters; none if a letter is unknown. -/
def flagsOf? : List Char → Option (List Flag)
  | [] => some []
  | c :: cs =>
    match Flag.ofLetter? c, flagsOf? cs with
    | some f, some fs => some (f :: fs)
    | _, _ => none

/-- Takes the words in turn. -/
def take (seen : Seen) : List Word → Request
  | [] => if seen.surplus then .mistake else .options seen.options
  | .plain text :: .divider :: rest =>
    match seen.options.script with
    | none => take { seen with options.script := some text } rest
    | some _ => take { seen with surplus := true } rest
  | .plain text :: rest =>
    match seen.options.script with
    | none => take { seen with options.script := some text } rest
    | some _ => take { seen with surplus := true } rest
  | .divider :: rest =>
    match seen.options.script with
    | none => take seen rest
    | some _ => take { seen with surplus := true } rest
  | .flag .timeout (some value) :: rest =>
    match seconds? value with
    | some x => take { seen with options.timeout := some x } rest
    | none => if value = "--" then .noValue else .mistake
  | .flag .timeout none :: .plain value :: rest =>
    match seconds? value with
    | some x => take { seen with options.timeout := some x } rest
    | none => .mistake
  | .flag .timeout none :: _ => .mistake
  | .flag _ (some _) :: _ => .mistake
  | .flag .version none :: _ => .version
  | .flag .help none :: _ => .help
  | .flag f none :: rest => take { seen with options.flags := seen.options.flags ++ [f] } rest
  | .letters cs :: rest =>
    match flagsOf? cs with
    | none => .mistake
    | some fs =>
      if fs.contains .help then .help
      else take { seen with options.flags := seen.options.flags ++ fs } rest
  | .unknown :: rest => take { seen with surplus := true } rest
  | .ambiguous :: _ => .mistake

/-- A time limit must be above zero. -/
def checked : Request → Request
  | .options o =>
    match o.timeout with
    | some x => if x.le (.zero false) then .mistake else .options o
    | none => .options o
  | r => r

/-- What the arguments ask for. -/
def read (args : List String) : Request :=
  let words := classifyAll args
  if words.contains .ambiguous then .mistake
  else checked (take ⟨⟨none, [], none⟩, false⟩ words)

end Arguments

/-- How the command line is used. -/
def Arguments.usage : String :=
  "usage: reo [-h] [-i] [--normalize] [--tokens] [--parse] [--check]\n"
    ++ "           [--timeout SECONDS] [--json-errors] [--debug] [--version]\n"
    ++ "           [script]\n"

/-- What is printed when help is asked for. -/
def Arguments.help : String :=
  String.join
    [usage,
     "\nReo Programming Language - plain English scripting\n",
     "\npositional arguments:\n",
     "  script             Reo script file to execute\n",
     "\noptions:\n",
     "  -h, --help         show this help message and exit\n",
     "  -i, --interactive  Start interactive mode\n",
     "  --normalize        Print the normalized source text\n",
     "  --tokens           Print the token stream\n",
     "  --parse            Parse file and show the AST\n",
     "  --check            Parse and bind the file without running it\n",
     "  --timeout SECONDS  Run inside an actor and stop waiting after SECONDS\n",
     "  --json-errors      Report errors as JSON objects on stderr\n",
     "  --debug            Enable debug output for all stages\n",
     "  --version          show program's version number and exit\n",
     "\nExamples:\n",
     "  reo script.reo               # Run a Reo script\n",
     "  reo -i                       # Interactive mode\n",
     "  reo --normalize script.reo   # Show the text after phrase rewriting\n",
     "  reo --tokens script.reo      # Show the token stream\n",
     "  reo --parse script.reo       # Show the AST\n",
     "  reo --check script.reo       # Parse and bind without running\n",
     "  reo --timeout 5 script.reo   # Give up after 5 seconds\n",
     "        \n"]

/-- The option was given. -/
def Options.has (o : Options) (f : Flag) : Bool := o.flags.contains f

/-- The path of the script; an empty argument names none. -/
def Options.scriptPath? (o : Options) : Option String := o.script.filter (!·.isEmpty)

end Parlance
