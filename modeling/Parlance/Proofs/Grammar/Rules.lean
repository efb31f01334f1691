import Parlance.Syntax.Basic
import Parlance.Number.Reading
import Parlance.Token.Basic
/-!
# The grammar

Which token lists are programs, and with which tree. A rule relates the tokens of a phrase to its
tree; a rule that is built over other rules takes them as parameters, and the two knots (operands
inside expressions, statements inside blocks) are tied by `Operand` and `Statement`.
-/
namespace Parlance.Grammar

/-- A nonterminal: the tokens of a phrase and its tree. -/
abbrev Rule (α : Type) := List Token → α → Prop

def IsName (t : Token) : Prop := t.kind = .name

def IsWord (k : Keyword) (t : Token) : Prop := t.kind = .keyword k

def IsSign (s : Symbol) (t : Token) : Prop := t.kind = .symbol s

/-- A token that may be left out. -/
inductive Optional (k : TokenKind) : List Token → Prop
  | absent : Optional k []
  | present {t : Token} : t.kind = k → Optional k [t]

/-- Any number of phrases, one after another. -/
inductive Many {α : Type} (item : Rule α) : Rule (List α)
  | nil : Many item [] []
  | cons {ts rest : List Token} {a : α} {as : List α} :
      item ts a → Many item rest as → Many item (ts ++ rest) (a :: as)

/-- A comma and a phrase. -/
inductive Further {α : Type} (item : Rule α) : Rule α
  | intro {c : Token} {ts : List Token} {a : α} :
      IsSign .comma c → item ts a → Further item (c :: ts) a

/-- Any number of phrases with commas between them. -/
inductive Items {α : Type} (item : Rule α) : Rule (List α)
  | none : Items item [] []
  | some {ts rest : List Token} {a : α} {as : List α} :
      item ts a → Many (Further item) rest as → Items item (ts ++ rest) (a :: as)

/-! ### Expressions -/

/-- The binary operators, level by level from the loosest to the tightest. -/
def operators : Nat → List BinaryOp
  | 1 => [.or]
  | 2 => [.and]
  | 3 => [.equal, .unequal]
  | 4 => [.less, .lessEqual, .greater, .greaterEqual]
  | 5 => [.add, .subtract]
  | 6 => [.multiply, .divide, .remainder]
  | _ => []

def IsBinary (op : BinaryOp) (t : Token) : Prop :=
  ∃ s, IsSign s t ∧ s.spelling = op.spelling

def IsUnary (op : UnaryOp) (t : Token) : Prop :=
  ∃ s, IsSign s t ∧ s.spelling = op.spelling

/-- Operands joined by binary operators of a level or tighter ones. The left operand of an operator
may have an operator of the same level, the right one has tighter operators only. -/
inductive Level (operand : Rule Expr) : Nat → Rule Expr
  | operand {ts : List Token} {e : Expr} : operand ts e → Level operand 7 ts e
  | tighter {n : Nat} {ts : List Token} {e : Expr} :
      n < 7 → Level operand (n + 1) ts e → Level operand n ts e
  | binary {n : Nat} {op : BinaryOp} {t : Token} {ls rs : List Token} {l r : Expr} :
      op ∈ operators n → IsBinary op t → Level operand n ls l → Level operand (n + 1) rs r →
      Level operand n (ls ++ t :: rs) (.binary op l r l.offset)

/-- A literal, a name, a call of a name, a list, or an expression in parentheses. -/
inductive Primary (expr : Rule Expr) : Rule Expr
  | number {t : Token} :
      t.kind = .number → Primary expr [t] (.number (.ofLiteral t.text.toList) t.offset)
  | text {t : Token} : t.kind = .string → Primary expr [t] (.text t.text t.offset)
  | yes {t : Token} : IsWord .trueWord t → Primary expr [t] (.truth true t.offset)
  | no {t : Token} : IsWord .falseWord t → Primary expr [t] (.truth false t.offset)
  | name {t : Token} : IsName t → Primary expr [t] (.name t.text t.offset)
  | call {f o c : Token} {ts : List Token} {args : List Expr} :
      IsName f → IsSign .leftParen o → Items expr ts args → IsSign .rightParen c →
      Primary expr (f :: o :: ts ++ [c]) (.call f.text args f.offset)
  | list {o c : Token} {ts : List Token} {items : List Expr} :
      IsSign .leftBracket o → Items expr ts items → IsSign .rightBracket c →
      Primary expr (o :: ts ++ [c]) (.list items o.offset)
  | parens {o c : Token} {ts : List Token} {e : Expr} :
      IsSign .leftParen o → expr ts e → IsSign .rightParen c → Primary expr (o :: ts ++ [c]) e

/-- A primary expression, indexed any number of times. -/
inductive Indexed (expr : Rule Expr) : Rule Expr
  | primary {ts : List Token} {e : Expr} : Primary expr ts e → Indexed expr ts e
  | index {ts is : List Token} {e i : Expr} {o c : Token} :
      Indexed expr ts e → IsSign .leftBracket o → expr is i → IsSign .rightBracket c →
      Indexed expr (ts ++ o :: is ++ [c]) (.index e i e.offset)

/-- Unary operators before an indexed expression. -/
inductive Operand : Rule Expr
  | unary {op : UnaryOp} {t : Token} {ts : List Token} {x : Expr} :
      IsUnary op t → Operand ts x → Operand (t :: ts) (.unary op x t.offset)
  | plain {ts : List Token} {e : Expr} : Indexed (Level Operand 1) ts e → Operand ts e

def Expression : Rule Expr := Level Operand 1

/-! ### Statements -/

/-- What can be assigned to: a name, or a name indexed once. -/
inductive Assignable : Rule Target
  | name {t : Token} : IsName t → Assignable [t] (.name t.text t.offset)
  | element {t o c : Token} {ts : List Token} {i : Expr} :
      IsName t → IsSign .leftBracket o → Expression ts i → IsSign .rightBracket c →
      Assignable (t :: o :: ts ++ [c]) (.element t.text i t.offset)

/-- The other branch of a condition, which may be missing. -/
inductive Otherwise (statement : Rule Stmt) : Rule (List Stmt)
  | absent : Otherwise statement [] []
  | present {w c : Token} {ts : List Token} {ss : List Stmt} :
      IsWord .otherwiseWord w → IsSign .colon c → Many statement ts ss →
      Otherwise statement (w :: c :: ts) ss

/-- Some of the given words, in their order. -/
inductive Echo : List Keyword → List Token → Prop
  | nil : Echo [] []
  | cons {k : Keyword} {ks : List Keyword} {ts rest : List Token} :
      Optional (.keyword k) ts → Echo ks rest → Echo (k :: ks) (ts ++ rest)

/-- The end of a block, with words that echo the block's own. -/
inductive Close (echoes : List Keyword) : List Token → Prop
  | intro {e d : Token} {ts : List Token} :
      IsWord .endWord e → Echo echoes ts → IsSign .dot d → Close echoes (e :: ts ++ [d])

/-- A statement that opens with a keyword. -/
inductive Opened (statement : Rule Stmt) : Keyword → Rule Stmt
  | letBe {k n b d : Token} {ts : List Token} {v : Expr} :
      IsWord .letWord k → IsName n → IsWord .beWord b → Expression ts v → IsSign .dot d →
      Opened statement .letWord (k :: n :: b :: ts ++ [d]) (.letBe n.text v k.offset)
  | setTo {k w d : Token} {gs ts : List Token} {g : Target} {v : Expr} :
      IsWord .setWord k → Assignable gs g → IsWord .toWord w → Expression ts v → IsSign .dot d →
      Opened statement .setWord (k :: gs ++ w :: ts ++ [d]) (.setTo g v k.offset)
  | increase {k w d : Token} {gs ts : List Token} {g : Target} {v : Expr} :
      IsWord .increaseWord k → Assignable gs g → IsWord .byWord w → Expression ts v →
      IsSign .dot d →
      Opened statement .increaseWord (k :: gs ++ w :: ts ++ [d])
        (.setTo g (.binary .add g.toExpr v k.offset) k.offset)
  | decrease {k w d : Token} {gs ts : List Token} {g : Target} {v : Expr} :
      IsWord .decreaseWord k → Assignable gs g → IsWord .byWord w → Expression ts v →
      IsSign .dot d →
      Opened statement .decreaseWord (k :: gs ++ w :: ts ++ [d])
        (.setTo g (.binary .subtract g.toExpr v k.offset) k.offset)
  | say {k d : Token} {ts : List Token} {v : Expr} :
      IsWord .sayWord k → Expression ts v → IsSign .dot d →
      Opened statement .sayWord (k :: ts ++ [d]) (.say v k.offset)
  | ifThen {k colon : Token} {cs commas thens as bs close : List Token} {c : Expr}
      {a b : List Stmt} :
      IsWord .ifWord k → Expression cs c → Optional (.symbol .comma) commas →
      Optional (.keyword .thenWord) thens → IsSign .colon colon → Many statement as a →
      Otherwise statement bs b → Close [.ifWord] close →
      Opened statement .ifWord (k :: cs ++ commas ++ thens ++ colon :: as ++ bs ++ close)
        (.ifThen c a b k.offset)
  | whileDo {k colon : Token} {cs commas dos bs close : List Token} {c : Expr} {b : List Stmt} :
      IsWord .whileWord k → Expression cs c → Optional (.symbol .comma) commas →
      Optional (.keyword .doWord) dos → IsSign .colon colon → Many statement bs b →
      Close [.whileWord] close →
      Opened statement .whileWord (k :: cs ++ commas ++ dos ++ colon :: bs ++ close)
        (.whileDo c b k.offset)
  | repeatTimes {k w colon : Token} {cs bs close : List Token} {c : Expr} {b : List Stmt} :
      IsWord .repeatWord k → Expression cs c → IsWord .timesWord w → IsSign .colon colon →
      Many statement bs b → Close [.repeatWord] close →
      Opened statement .repeatWord (k :: cs ++ w :: colon :: bs ++ close)
        (.repeatTimes c b k.offset)
  | forEach {k e n i colon : Token} {ss bs close : List Token} {s : Expr} {b : List Stmt} :
      IsWord .forWord k → IsWord .eachWord e → IsName n → IsWord .inWord i → Expression ss s →
      IsSign .colon colon → Many statement bs b → Close [.forWord, .eachWord] close →
      Opened statement .forWord (k :: e :: n :: i :: ss ++ colon :: bs ++ close)
        (.forEach n.text s b k.offset)
  | append {k w n d : Token} {ts : List Token} {v : Expr} :
      IsWord .appendWord k → Expression ts v → IsWord .toWord w → IsName n → IsSign .dot d →
      Opened statement .appendWord (k :: ts ++ [w, n, d]) (.append v n.text k.offset)
  | remove {k w n d : Token} {ts : List Token} {v : Expr} :
      IsWord .removeWord k → Expression ts v → IsWord .fromWord w → IsName n → IsSign .dot d →
      Opened statement .removeWord (k :: ts ++ [w, n, d]) (.remove v n.text k.offset)
  | giveBack {k d : Token} {ts : List Token} {v : Expr} :
      IsWord .returnWord k → Expression ts v → IsSign .dot d →
      Opened statement .returnWord (k :: ts ++ [d]) (.giveBack v k.offset)

inductive Statement : Rule Stmt
  | opened {k : Keyword} {ts : List Token} {s : Stmt} : Opened Statement k ts s → Statement ts s
  | evaluate {t d : Token} {ts : List Token} {v : Expr} :
      Expression (t :: ts) v → IsSign .dot d → Statement (t :: ts ++ [d]) (.evaluate v t.offset)

/-! ### Programs -/

inductive Parameter : Rule String
  | intro {t : Token} : IsName t → Parameter [t] t.text

inductive Function : Rule Declaration
  | intro {w n o c colon e d : Token} {ps bs : List Token} {names : List String} {b : List Stmt} :
      IsWord .toWord w → IsName n → IsSign .leftParen o → Items Parameter ps names →
      IsSign .rightParen c → IsSign .colon colon → Many Statement bs b → IsWord .endWord e →
      IsSign .dot d →
      Function (w :: n :: o :: ps ++ c :: colon :: bs ++ [e, d]) ⟨n.text, names, b, w.offset⟩

/-- Functions and statements, in any order. -/
inductive Source : Rule Program
  | nil : Source [] ⟨[], []⟩
  | function {ts rest : List Token} {d : Declaration} {p : Program} :
      Function ts d → Source rest p → Source (ts ++ rest) ⟨d :: p.functions, p.statements⟩
  | statement {ts rest : List Token} {s : Stmt} {p : Program} :
      Statement ts s → Source rest p → Source (ts ++ rest) ⟨p.functions, s :: p.statements⟩

end Parlance.Grammar
