import Parlance.Syntax.NodeKind
import Parlance.Number.Display
import Parlance.Text.Quoted
/-!
# Outlines of programs

A program as indented lines. A node takes one line: its kind, the fields that hold no nodes, and its
offset. Under it stands the label of each field that holds nodes, two columns further in, and the
nodes of the field another two columns further in.
-/
namespace Parlance

/-- A field of a node in an outline. -/
inductive OutlineField
  | plain (label text : String)
  | parts (label : String) (lines : List String)

namespace OutlineField

def plain? : OutlineField → Option String
  | plain label text => some (label ++ "=" ++ text)
  | parts .. => none

/-- A field of nodes; when it is empty it is shown like a plain field. -/
def ofParts (label : String) (lines : List String) : OutlineField :=
  if lines.isEmpty then plain label "()" else parts label lines

def lines (margin : String) : OutlineField → List String
  | plain .. => []
  | parts label ls => (margin ++ "  " ++ label ++ ":") :: ls

end OutlineField

/-- Two blanks for each level, and none below level zero. -/
def margin (indent : Int) : String := String.ofList (List.replicate (2 * indent).toNat ' ')

/-- The lines of a node with the given fields. -/
def outlineNode (indent : Int) (kind : NodeKind) (fields : List OutlineField)
    (offset : Option Nat) : List String :=
  let place := match offset with
    | some o => " @" ++ toString o
    | none => ""
  let plain := String.intercalate ", " (fields.filterMap OutlineField.plain?)
  (margin indent ++ kind.label ++ "(" ++ plain ++ ")" ++ place)
    :: fields.flatMap (OutlineField.lines (margin indent))

/-- A truth value in an outline. -/
def truthText (b : Bool) : String := if b then "True" else "False"

/-- Names in an outline: quoted, between parentheses, with a comma after a lone one. -/
def namesText : List String → String
  | [] => "()"
  | [n] => "(" ++ Text.quoted n ++ ",)"
  | ns => "(" ++ String.intercalate ", " (ns.map Text.quoted) ++ ")"

open OutlineField

mutual

def Expr.outline (indent : Int) : Expr → List String
  | .number x o => outlineNode indent .numberLiteral [plain "value" x.dump] (some o)
  | .text s o => outlineNode indent .textLiteral [plain "value" (Text.quoted s)] (some o)
  | .truth b o => outlineNode indent .truthLiteral [plain "value" (truthText b)] (some o)
  | .name n o => outlineNode indent .name [plain "name" (Text.quoted n)] (some o)
  | .unary op x o =>
    outlineNode indent .unary
      [plain "op" (Text.quoted op.spelling), parts "operand" (x.outline (indent + 2))] (some o)
  | .binary op l r o =>
    outlineNode indent .binary
      [plain "op" (Text.quoted op.spelling), parts "left" (l.outline (indent + 2)),
        parts "right" (r.outline (indent + 2))] (some o)
  | .call f args o =>
    outlineNode indent .call
      [plain "name" (Text.quoted f), ofParts "args" (Expr.outlines (indent + 2) args)] (some o)
  | .index t i o =>
    outlineNode indent .index
      [parts "target" (t.outline (indent + 2)), parts "index" (i.outline (indent + 2))] (some o)
  | .list items o =>
    outlineNode indent .listLiteral [ofParts "items" (Expr.outlines (indent + 2) items)] (some o)

def Expr.outlines (indent : Int) : List Expr → List String
  | [] => []
  | e :: es => e.outline indent ++ Expr.outlines indent es

end

mutual

def Stmt.outline (indent : Int) : Stmt → List String
  | .letBe n v o =>
    outlineNode indent .letBe
      [plain "name" (Text.quoted n), parts "value" (v.outline (indent + 2))] (some o)
  | .setTo t v o =>
    outlineNode indent .setTo
      [parts "target" (t.toExpr.outline (indent + 2)), parts "value" (v.outline (indent + 2))]
      (some o)
  | .say v o => outlineNode indent .say [parts "value" (v.outline (indent + 2))] (some o)
  | .ifThen c a b o =>
    outlineNode indent .ifThen
      [parts "condition" (c.outline (indent + 2)),
        ofParts "then_body" (Stmt.outlines (indent + 2) a),
        ofParts "else_body" (Stmt.outlines (indent + 2) b)] (some o)
  | .whileDo c b o =>
    outlineNode indent .whileDo
      [parts "condition" (c.outline (indent + 2)), ofParts "body" (Stmt.outlines (indent + 2) b)]
      (some o)
  | .repeatTimes c b o =>
    outlineNode indent .repeatTimes
      [parts "count" (c.outline (indent + 2)), ofParts "body" (Stmt.outlines (indent + 2) b)]
      (some o)
  | .forEach n s b o =>
    outlineNode indent .forEach
      [plain "variable" (Text.quoted n), parts "source" (s.outline (indent + 2)),
        ofParts "body" (Stmt.outlines (indent + 2) b)] (some o)
  | .append v l o =>
    outlineNode indent .append
      [parts "value" (v.outline (indent + 2)), plain "list_name" (Text.quoted l)] (some o)
  | .remove v l o =>
    outlineNode indent .remove
      [parts "value" (v.outline (indent + 2)), plain "list_name" (Text.quoted l)] (some o)
  | .giveBack v o => outlineNode indent .giveBack [parts "value" (v.outline (indent + 2))] (some o)
  | .evaluate v o =>
    outlineNode indent .evaluate [parts "expression" (v.outline (indent + 2))] (some o)

def Stmt.outlines (indent : Int) : List Stmt → List String
  | [] => []
  | s :: ss => s.outline indent ++ Stmt.outlines indent ss

end

def Declaration.outline (indent : Int) (d : Declaration) : List String :=
  outlineNode indent .declaration
    [plain "name" (Text.quoted d.name), plain "parameters" (namesText d.parameters),
      ofParts "body" (Stmt.outlines (indent + 2) d.body)] (some d.offset)

def Program.outlineLines (indent : Int) (p : Program) : List String :=
  outlineNode indent .program
    [ofParts "functions" (p.functions.flatMap (Declaration.outline (indent + 2))),
      ofParts "statements" (Stmt.outlines (indent + 2) p.statements)] none

/-- The outline of a program as text. -/
def Program.outline (indent : Int) (p : Program) : String :=
  String.intercalate "\n" (p.outlineLines indent)

end Parlance
