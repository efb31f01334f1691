import Parlance.Syntax.NodeKind
/-!
# The nodes of a program

All nodes of a program in one list: each node before its parts, and the parts in the order of the
node's fields.
-/
namespace Parlance

inductive Node
  | expr (e : Expr)
  | stmt (s : Stmt)
  | declaration (d : Declaration)
  | program (p : Program)

namespace Node

def kind : Node → NodeKind
  | expr e => e.kind
  | stmt s => s.kind
  | declaration _ => .declaration
  | program _ => .program

/-- The place of a node; a program as a whole has none. -/
def offset? : Node → Option Nat
  | expr e => some e.offset
  | stmt s => some s.offset
  | declaration d => some d.offset
  | program _ => none

end Node

mutual

/-- An expression and the nodes in it. -/
def Expr.nodes : Expr → List Node
  | .unary op x o => .expr (.unary op x o) :: x.nodes
  | .binary op l r o => .expr (.binary op l r o) :: (l.nodes ++ r.nodes)
  | .call f args o => .expr (.call f args o) :: Expr.allNodes args
  | .index t i o => .expr (.index t i o) :: (t.nodes ++ i.nodes)
  | .list items o => .expr (.list items o) :: Expr.allNodes items
  | .number x o => [.expr (.number x o)]
  | .text s o => [.expr (.text s o)]
  | .truth b o => [.expr (.truth b o)]
  | .name n o => [.expr (.name n o)]

def Expr.allNodes : List Expr → List Node
  | [] => []
  | e :: es => e.nodes ++ Expr.allNodes es

end

/-- The nodes of the expression that reads a target. -/
def Target.nodes (t : Target) : List Node := t.toExpr.nodes

mutual

/-- A statement and the nodes in it. -/
def Stmt.nodes : Stmt → List Node
  | .letBe n v o => .stmt (.letBe n v o) :: v.nodes
  | .setTo t v o => .stmt (.setTo t v o) :: (t.nodes ++ v.nodes)
  | .say v o => .stmt (.say v o) :: v.nodes
  | .ifThen c a b o => .stmt (.ifThen c a b o) :: (c.nodes ++ Stmt.allNodes a ++ Stmt.allNodes b)
  | .whileDo c b o => .stmt (.whileDo c b o) :: (c.nodes ++ Stmt.allNodes b)
  | .repeatTimes c b o => .stmt (.repeatTimes c b o) :: (c.nodes ++ Stmt.allNodes b)
  | .forEach n s b o => .stmt (.forEach n s b o) :: (s.nodes ++ Stmt.allNodes b)
  | .append v l o => .stmt (.append v l o) :: v.nodes
  | .remove v l o => .stmt (.remove v l o) :: v.nodes
  | .giveBack v o => .stmt (.giveBack v o) :: v.nodes
  | .evaluate v o => .stmt (.evaluate v o) :: v.nodes

def Stmt.allNodes : List Stmt → List Node
  | [] => []
  | s :: ss => s.nodes ++ Stmt.allNodes ss

end

def Declaration.nodes (d : Declaration) : List Node := .declaration d :: Stmt.allNodes d.body

/-- A program and the nodes in it: functions first, then statements. -/
def Program.nodes (p : Program) : List Node :=
  .program p :: (p.functions.flatMap Declaration.nodes ++ Stmt.allNodes p.statements)

/-- The nodes of one kind. -/
def Program.find (p : Program) (kind : NodeKind) : List Node :=
  p.nodes.filter fun n => n.kind == kind

end Parlance
