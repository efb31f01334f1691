import Parlance.Main
import Parlance.Syntax.Node
import Parlance.Proofs.Grammar.Levels
import Parlance.Proofs.Grammar.Reads
import Parlance.Proofs.Grammar.Expressions
import Parlance.Proofs.Grammar.Statements
import Parlance.Proofs.Grammar.Refusals
import Parlance.Proofs.Grammar.Programs
import Parlance.Proofs.Binding.Calls
import Parlance.Proofs.Binding.Tables
import Parlance.Proofs.Binding.Acceptance
import Parlance.Proofs.Run.Bound
import Parlance.Proofs.Run.Sessions
import Parlance.Proofs.Grammar.Bare
import Parlance.Proofs.Grammar.Neighbours
import Parlance.Proofs.Reading.Phrases
import Parlance.Proofs.Reading.Written
import Parlance.Proofs.Reading.Canonical
import Parlance.Proofs.Reading.Scanning
import Parlance.Proofs.Reading.Renderings
import Parlance.Proofs.Reading.Printing
import Parlance.Proofs.Run.Keeping
import Parlance.Proofs.Run.Touching
import Parlance.Proofs.Run.Ends
import Parlance.Proofs.Reading.Passing
import Parlance.Proofs.Reading.Cuts
import Parlance.Proofs.Reading.Comments
import Parlance.Proofs.Joining.Mirrors
import Parlance.Proofs.Joining.Parsers
import Parlance.Proofs.Joining.Programs
import Parlance.Proofs.Joining.Tables
import Parlance.Proofs.Joining.Texts
import Parlance.Proofs.Joining.Sessions
import Parlance.Proofs.Run.Pairs
import Parlance.Proofs.Run.Tracing
import Parlance.Proofs.Run.Halting
import Parlance.Proofs.Steps.Machine
import Parlance.Proofs.Steps.Evaluator
import Parlance.Proofs.Steps.Halting
import Parlance.Proofs.Lines.Shadows
import Parlance.Proofs.Lines.Beginnings
import Parlance.Proofs.Lines.Tails
import Parlance.Proofs.Lines.Breaks
import Parlance.Proofs.Lines.Typing
import Parlance.Proofs.Lexing.Lexemes
import Parlance.Proofs.Lexing.Origins
import Parlance.Proofs.Lexing.Words
import Parlance.Proofs.Lexing.OriginMap
import Parlance.Proofs.Failures.Stopping
import Parlance.Proofs.Failures.Places
import Parlance.Proofs.Failures.Offsets
import Parlance.Proofs.Failures.Sessions
import Parlance.Proofs.Spelling.Trees
import Parlance.Proofs.Spelling.Parsers
import Parlance.Proofs.Spelling.Binding
import Parlance.Proofs.Spelling.Runs
import Parlance.Proofs.Spelling.Reports
import Parlance.Proofs.Spelling.Texts
import Parlance.Proofs.Spelling.Sessions
import Parlance.Proofs.Lexing.Literals
import Parlance.Proofs.Lexing.Quotation
import Parlance.Proofs.Lexing.NormalForm
import Parlance.Proofs.Renaming.Trees
import Parlance.Proofs.Renaming.Binding
import Parlance.Proofs.Renaming.Runs
import Parlance.Proofs.Renaming.Sessions
import Parlance.Proofs.Timeouts.Runs
import Parlance.Proofs.Timeouts.Hosts
import Parlance.Proofs.Timeouts.Abandoned
import Parlance.Proofs.Timeouts.Sessions
import Parlance.Proofs.Files.Encoding
import Parlance.Proofs.Files.Ways
import Parlance.Proofs.Files.Writing
import Parlance.Proofs.Files.Failing
import Parlance.Proofs.Lists.Display
import Parlance.Proofs.Lists.Removal
import Parlance.Proofs.Lists.Sequences
import Parlance.Proofs.Numbers.Rounding
import Parlance.Proofs.Numbers.Decimals
import Parlance.Proofs.Numbers.Numerals
import Parlance.Proofs.Numbers.Coercions
import Parlance.Proofs.Numbers.Equality
import Parlance.Proofs.Numbers.Remainder
import Parlance.Proofs.Numbers.Display
import Parlance.Proofs.Lists.Ranges
import Parlance.Proofs.Reports.Positions
import Parlance.Proofs.Reports.Contexts
import Parlance.Proofs.Numbers.Dumps
import Parlance.Proofs.Outlines.Quoting
import Parlance.Proofs.Outlines.Indentation
import Parlance.Proofs.Outlines.Fields
import Parlance.Proofs.Outlines.Lines
import Parlance.Proofs.Outlines.Sketches
import Parlance.Proofs.Outlines.Nodes
import Parlance.Proofs.Outlines.Programs
