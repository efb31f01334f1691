import Parlance.Syntax.NodeKind
import Parlance.Number.Reading
import Parlance.Token.Basic
/-!
# Parsing

Programs and expressions read from tokens. The parser looks at most three tokens ahead and never
goes back. How deep expressions and blocks may nest is bounded by a parameter, the nesting limit; a
limit above the number of tokens never comes into play.

A chain of operands and binary operators is read flat and then put together level by level, from
the tightest operators to the loosest, so that precedence is a matter of `assemble` alone.
-/
namespace Parlance

/-- What the parser needs at a place. -/
inductive Wanted
  | kind (k : TokenKind)
  | functionName | parameterName | variableName | loopVariable | listName
  | endOfInput
  deriving DecidableEq, Repr

/-- The label of the kind of token that is wanted. -/
def Wanted.label : Wanted → String
  | kind k => k.label
  | endOfInput => Token.endLabel
  | _ => TokenKind.name.label

/-- How a message calls what is wanted. -/
def Wanted.description : Wanted → String
  | functionName => "function name"
  | parameterName => "parameter name"
  | variableName => "variable name"
  | loopVariable => "loop variable"
  | listName => "list name"
  | endOfInput => "end of input"
  | w => w.label

/-- Why tokens are no program. A missing token stands for the end of the source. -/
inductive ParseFault
  | missing (wanted : Wanted) (found : Option Token)
  | noExpression (found : Option Token)
  | notCallable (callee : NodeKind) (offset : Nat)
  | notAssignable (start found : Option Token)
  | tooDeep (found : Option Token)
  deriving DecidableEq, Repr

namespace Parse

/-- A parser takes tokens from the front. -/
abbrev Parser := StateT (List Token) (Except ParseFault)

/-- The kind of the next token. -/
def kindAt (tokens : List Token) : Option TokenKind := tokens.head?.map Token.kind

/-- Takes a token of the given kind if it is next. -/
def accept (k : TokenKind) : Parser Bool := fun tokens =>
  match tokens with
  | t :: rest => if t.kind = k then .ok (true, rest) else .ok (false, t :: rest)
  | [] => .ok (false, [])

/-- Takes a token of the given kind; its absence is reported as `wanted`. -/
def expectAs (k : TokenKind) (wanted : Wanted) : Parser Token := fun tokens =>
  match tokens with
  | t :: rest => if t.kind = k then .ok (t, rest) else .error (.missing wanted (some t))
  | [] => .error (.missing wanted none)

def expect (k : TokenKind) : Parser Token := expectAs k (.kind k)

def expectSymbol (s : Symbol) : Parser Token := expect (.symbol s)

def expectKeyword (k : Keyword) : Parser Token := expect (.keyword k)

/-- Takes a name and gives its text. -/
def expectName (wanted : Wanted) : Parser String := return (← expectAs .name wanted).text

/-- Runs `item` until it answers `none`, at most once for each token of `bound`. -/
def collect {α : Type} (item : Parser (Option α)) : (bound : List Token) → Parser (List α)
  | [] => pure []
  | _ :: bound => do
    match ← item with
    | none => pure []
    | some a => return a :: (← collect item bound)

/-- Runs `item` until it answers `none`. Each answer takes at least one token, so the tokens that
are left bound the number of answers. -/
def repeated {α : Type} (item : Parser (Option α)) : Parser (List α) := fun tokens =>
  collect item tokens tokens

end Parse

/-- The operator that a symbol denotes between two operands. -/
def BinaryOp.ofSymbol? : Symbol → Option BinaryOp
  | .orOr => some .or
  | .andAnd => some .and
  | .equalEqual => some .equal
  | .bangEqual => some .unequal
  | .less => some .less
  | .lessEqual => some .lessEqual
  | .greater => some .greater
  | .greaterEqual => some .greaterEqual
  | .plus => some .add
  | .minus => some .subtract
  | .star => some .multiply
  | .slash => some .divide
  | .percent => some .remainder
  | _ => none

/-- The operator that a symbol denotes in front of an operand. -/
def UnaryOp.ofSymbol? : Symbol → Option UnaryOp
  | .bang => some .not
  | .minus => some .minus
  | .plus => some .plus
  | _ => none

def BinaryOp.ofKind? : TokenKind → Option BinaryOp
  | .symbol s => ofSymbol? s
  | _ => none

def UnaryOp.ofKind? : TokenKind → Option UnaryOp
  | .symbol s => ofSymbol? s
  | _ => none

namespace Expr

/-- An operator applied to two operands; the node starts where its left operand starts. -/
def joined (op : BinaryOp) (left right : Expr) : Expr := .binary op left right left.offset

/-- Applies the operators of one level in a chain, from the left. -/
def join (level : Nat) : Expr → List (BinaryOp × Expr) → Expr × List (BinaryOp × Expr)
  | first, [] => (first, [])
  | first, (op, e) :: rest =>
    if op.precedence = level then join level (joined op first e) rest
    else
      let (e, rest) := join level e rest
      (first, (op, e) :: rest)

/-- Applies all operators of a chain, the given level and then the looser ones. -/
def assembleFrom : (level : Nat) → Expr → List (BinaryOp × Expr) → Expr
  | 0, first, _ => first
  | level + 1, first, rest =>
    let (first, rest) := join (level + 1) first rest
    assembleFrom level first rest

/-- The expression that a chain of operands and operators denotes. -/
def assemble (first : Expr) (rest : List (BinaryOp × Expr)) : Expr :=
  assembleFrom BinaryOp.levels first rest

end Expr

namespace Parse

/-! ### Expressions -/

/-- A binary operator and the operand after it, if an operator is next. -/
def operation? (operand : Parser Expr) : Parser (Option (BinaryOp × Expr)) := fun tokens =>
  match tokens with
  | [] => .ok (none, [])
  | t :: rest =>
    match BinaryOp.ofKind? t.kind with
    | none => .ok (none, t :: rest)
    | some op => do
      let (e, rest) ← operand rest
      return (some (op, e), rest)

/-- Operands with binary operators between them. -/
def chain (operand : Parser Expr) : Parser Expr := do
  let first ← operand
  let rest ← repeated (operation? operand)
  return .assemble first rest

/-- A comma and the expression after it, if a comma is next. -/
def further? (expr : Parser Expr) : Parser (Option Expr) := do
  if ← accept (.symbol .comma) then return some (← expr) else return none

/-- Expressions with commas between them, up to a closing symbol, which is taken. -/
def arguments (expr : Parser Expr) (closing : Symbol) : Parser (List Expr) := do
  if kindAt (← get) = some (.symbol closing) then
    let _ ← expectSymbol closing
    return []
  else
    let first ← expr
    let rest ← repeated (further? expr)
    let _ ← expectSymbol closing
    return first :: rest

/-- A literal, a list or an expression in parentheses. -/
def primary (expr : Parser Expr) : Parser Expr := fun tokens =>
  match tokens with
  | [] => .error (.noExpression none)
  | t :: rest =>
    match t.kind with
    | .number => .ok (.number (.ofLiteral t.text.toList) t.offset, rest)
    | .string => .ok (.text t.text t.offset, rest)
    | .keyword .trueWord => .ok (.truth true t.offset, rest)
    | .keyword .falseWord => .ok (.truth false t.offset, rest)
    | .symbol .leftParen => do
      let (e, rest) ← expr rest
      let (_, rest) ← expectSymbol .rightParen rest
      return (e, rest)
    | .symbol .leftBracket => do
      let (items, rest) ← arguments expr .rightBracket rest
      return (.list items t.offset, rest)
    | _ => .error (.noExpression (some t))

/-- The indexes after an expression, at most one for each token of `bound`. A call is refused here,
once its arguments are read. -/
def indexes (expr : Parser Expr) : (bound : List Token) → Expr → Parser Expr
  | [], e => pure e
  | _ :: bound, e => fun tokens =>
    match tokens with
    | [] => .ok (e, [])
    | t :: rest =>
      match t.kind with
      | .symbol .leftParen => do
        let _ ← arguments expr .rightParen rest
        .error (.notCallable e.kind t.offset)
      | .symbol .leftBracket => do
        let (i, rest) ← expr rest
        let (_, rest) ← expectSymbol .rightBracket rest
        indexes expr bound (.index e i e.offset) rest
      | _ => .ok (e, t :: rest)

/-- The call of a bare name, if an opening parenthesis follows it. -/
def called (expr : Parser Expr) (callee : Token) : Parser Expr := do
  if ← accept (.symbol .leftParen) then
    return .call callee.text (← arguments expr .rightParen) callee.offset
  else return .name callee.text callee.offset

/-- A name, a call or a primary expression, with the indexes after it. Only a bare name, not one in
parentheses, can be called. -/
def postfixed (expr : Parser Expr) : Parser Expr := fun tokens => do
  let (e, rest) ←
    match tokens with
    | t :: rest => if t.kind = .name then called expr t rest else primary expr tokens
    | [] => primary expr tokens
  indexes expr rest e rest

/-- An operand of binary operators: unary operators before a postfixed expression. -/
def operand : (limit : Nat) → Parser Expr
  | 0 => fun tokens => .error (.tooDeep tokens.head?)
  | limit + 1 => fun tokens =>
    match tokens.head?.bind fun t => (UnaryOp.ofKind? t.kind).map (·, t.offset) with
    | some (op, offset) => do
      let (e, rest) ← operand limit tokens.tail
      return (.unary op e offset, rest)
    | none => postfixed (chain (operand limit)) tokens

/-- An expression that nests no deeper than the limit. -/
def expression (limit : Nat) : Parser Expr := chain (operand limit)

/-! ### Statements -/

/-- The token would go on with a target: the target read so far cannot be assigned to. -/
def continuesTarget (k : Option TokenKind) : Bool :=
  k == some (.symbol .leftParen) || k == some (.symbol .leftBracket)
    || (k.bind BinaryOp.ofKind?).isSome

/-- A variable, or a variable indexed once. -/
def target (expr : Parser Expr) : Parser Target := fun tokens =>
  match tokens with
  | [] => .error (.notAssignable none none)
  | t :: rest =>
    if t.kind = .name then do
      let (found, rest) ←
        if kindAt rest = some (.symbol .leftBracket) then do
          let (i, rest) ← expr rest.tail
          let (_, rest) ← expectSymbol .rightBracket rest
          pure (Target.element t.text i t.offset, rest)
        else pure (Target.name t.text t.offset, rest)
      if continuesTarget (kindAt rest) then .error (.notAssignable (some t) rest.head?)
      else return (found, rest)
    else .error (.notAssignable (some t) (some t))

/-- Statements up to one of the given keywords or the end. -/
def block (stmt : Parser Stmt) (stops : List Keyword) : Parser (List Stmt) :=
  repeated fun tokens =>
    match tokens with
    | [] => .ok (none, [])
    | t :: rest =>
      if stops.any fun k => t.kind == .keyword k then .ok (none, t :: rest)
      else do
        let (s, rest) ← stmt (t :: rest)
        return (some s, rest)

/-- Takes those of the keywords, in their order, that are next. -/
def acceptAll : List Keyword → Parser Unit
  | [] => pure ()
  | k :: ks => do
    let _ ← accept (.keyword k)
    acceptAll ks

/-- The end of a block: the keyword, words that echo the block's own, and a point. -/
def finish (echoes : List Keyword) : Parser Unit := do
  let _ ← expectKeyword .endWord
  acceptAll echoes
  let _ ← expectSymbol .dot

def letStatement (expr : Parser Expr) (start : Nat) : Parser Stmt := do
  let name ← expectName .variableName
  let _ ← expectKeyword .beWord
  let value ← expr
  let _ ← expectSymbol .dot
  return .letBe name value start

def setStatement (expr : Parser Expr) (start : Nat) : Parser Stmt := do
  let goal ← target expr
  let _ ← expectKeyword .toWord
  let value ← expr
  let _ ← expectSymbol .dot
  return .setTo goal value start

/-- An increase or decrease sets a target to its old value with an amount added or subtracted. -/
def adjustStatement (expr : Parser Expr) (op : BinaryOp) (start : Nat) : Parser Stmt := do
  let goal ← target expr
  let _ ← expectKeyword .byWord
  let amount ← expr
  let _ ← expectSymbol .dot
  return .setTo goal (.binary op goal.toExpr amount start) start

def sayStatement (expr : Parser Expr) (start : Nat) : Parser Stmt := do
  let value ← expr
  let _ ← expectSymbol .dot
  return .say value start

def appendStatement (expr : Parser Expr) (start : Nat) : Parser Stmt := do
  let value ← expr
  let _ ← expectKeyword .toWord
  let list ← expectName .listName
  let _ ← expectSymbol .dot
  return .append value list start

def removeStatement (expr : Parser Expr) (start : Nat) : Parser Stmt := do
  let value ← expr
  let _ ← expectKeyword .fromWord
  let list ← expectName .listName
  let _ ← expectSymbol .dot
  return .remove value list start

def ifStatement (expr : Parser Expr) (stmt : Parser Stmt) (start : Nat) : Parser Stmt := do
  let condition ← expr
  let _ ← accept (.symbol .comma)
  let _ ← accept (.keyword .thenWord)
  let _ ← expectSymbol .colon
  let thenBody ← block stmt [.endWord, .otherwiseWord]
  let elseBody ←
    if ← accept (.keyword .otherwiseWord) then
      let _ ← expectSymbol .colon
      block stmt [.endWord]
    else pure []
  finish [.ifWord]
  return .ifThen condition thenBody elseBody start

def whileStatement (expr : Parser Expr) (stmt : Parser Stmt) (start : Nat) : Parser Stmt := do
  let condition ← expr
  let _ ← accept (.symbol .comma)
  let _ ← accept (.keyword .doWord)
  let _ ← expectSymbol .colon
  let body ← block stmt [.endWord]
  finish [.whileWord]
  return .whileDo condition body start

def repeatStatement (expr : Parser Expr) (stmt : Parser Stmt) (start : Nat) : Parser Stmt := do
  let count ← expr
  let _ ← expectKeyword .timesWord
  let _ ← expectSymbol .colon
  let body ← block stmt [.endWord]
  finish [.repeatWord]
  return .repeatTimes count body start

def forEachStatement (expr : Parser Expr) (stmt : Parser Stmt) (start : Nat) : Parser Stmt := do
  let _ ← expectKeyword .eachWord
  let item ← expectName .loopVariable
  let _ ← expectKeyword .inWord
  let source ← expr
  let _ ← expectSymbol .colon
  let body ← block stmt [.endWord]
  finish [.forWord, .eachWord]
  return .forEach item source body start

def returnStatement (expr : Parser Expr) (start : Nat) : Parser Stmt := do
  let value ← expr
  let _ ← expectSymbol .dot
  return .giveBack value start

def evaluateStatement (expr : Parser Expr) (start : Nat) : Parser Stmt := do
  let value ← expr
  let _ ← expectSymbol .dot
  return .evaluate value start

/-- The statement that a keyword opens, if it opens one. -/
def opened? (expr : Parser Expr) (stmt : Parser Stmt) (start : Nat) : Keyword → Option (Parser Stmt)
  | .letWord => some (letStatement expr start)
  | .setWord => some (setStatement expr start)
  | .increaseWord => some (adjustStatement expr .add start)
  | .decreaseWord => some (adjustStatement expr .subtract start)
  | .sayWord => some (sayStatement expr start)
  | .appendWord => some (appendStatement expr start)
  | .removeWord => some (removeStatement expr start)
  | .ifWord => some (ifStatement expr stmt start)
  | .whileWord => some (whileStatement expr stmt start)
  | .repeatWord => some (repeatStatement expr stmt start)
  | .forWord => some (forEachStatement expr stmt start)
  | .returnWord => some (returnStatement expr start)
  | _ => none

/-- A statement whose expressions and inner statements are read by the given parsers. -/
def statementWith (expr : Parser Expr) (stmt : Parser Stmt) : Parser Stmt := fun tokens =>
  match tokens with
  | [] => .error (.noExpression none)
  | t :: rest =>
    match t.kind with
    | .keyword k =>
      match opened? expr stmt t.offset k with
      | some parser => parser rest
      | none => evaluateStatement expr t.offset (t :: rest)
    | _ => evaluateStatement expr t.offset (t :: rest)

/-- A statement that nests no deeper than the limit. -/
def statement : (limit : Nat) → Parser Stmt
  | 0 => fun tokens => .error (.tooDeep tokens.head?)
  | limit + 1 => statementWith (expression (limit + 1)) (statement limit)

/-! ### Programs -/

/-- A comma and the parameter after it, if a comma is next. -/
def furtherParameter? : Parser (Option String) := do
  if ← accept (.symbol .comma) then return some (← expectName .parameterName) else return none

/-- The parameters between parentheses. -/
def parameters : Parser (List String) := do
  let _ ← expectSymbol .leftParen
  let names ←
    if kindAt (← get) = some (.symbol .rightParen) then pure []
    else
      let first ← expectName .parameterName
      let rest ← repeated furtherParameter?
      pure (first :: rest)
  let _ ← expectSymbol .rightParen
  return names

def declaration (stmt : Parser Stmt) : Parser Declaration := do
  let start ← expectKeyword .toWord
  let name ← expectName .functionName
  let names ← parameters
  let _ ← expectSymbol .colon
  let body ← block stmt [.endWord]
  let _ ← expectKeyword .endWord
  let _ ← expectSymbol .dot
  return ⟨name, names, body, start.offset⟩

/-- A function declaration starts with its keyword, a name and a parenthesis. -/
def declares : List Token → Bool
  | a :: b :: c :: _ =>
    a.kind == .keyword .toWord && b.kind == .name && c.kind == .symbol .leftParen
  | _ => false

/-- A declaration or a statement, unless the tokens are used up. -/
def item? (stmt : Parser Stmt) : Parser (Option (Declaration ⊕ Stmt)) := fun tokens =>
  if tokens.isEmpty then .ok (none, [])
  else if declares tokens then do
    let (d, rest) ← declaration stmt tokens
    return (some (.inl d), rest)
  else do
    let (s, rest) ← stmt tokens
    return (some (.inr s), rest)

end Parse

/-- Declarations and statements in the order of the source, sorted into a program. -/
def Program.ofItems (items : List (Declaration ⊕ Stmt)) : Program :=
  ⟨items.filterMap Sum.getLeft?, items.filterMap Sum.getRight?⟩

/-- Reads a program. -/
def Program.parse (limit : Nat) (tokens : List Token) : Except ParseFault Program := do
  let (items, _) ← Parse.repeated (Parse.item? (Parse.statement limit)) tokens
  return .ofItems items

/-- Reads an expression that takes up all tokens. -/
def Expr.parse (limit : Nat) (tokens : List Token) : Except ParseFault Expr := do
  let (e, rest) ← Parse.expression limit tokens
  match rest with
  | [] => return e
  | t :: _ => .error (.missing .endOfInput (some t))

end Parlance
