import Parlance.Syntax.Basic
/-!
# Kinds of nodes

The label of each kind of node, as tree dumps, traces and messages show it.
-/
namespace Parlance

inductive NodeKind
  | numberLiteral | textLiteral | truthLiteral | name | unary | binary | call | index | listLiteral
  | letBe | setTo | say | ifThen | whileDo | repeatTimes | forEach | append | remove | giveBack
  | evaluate | declaration | program
  deriving DecidableEq, Repr

namespace NodeKind

def label : NodeKind → String
  | numberLiteral => "NumberLiteral" | textLiteral => "TextLiteral"
  | truthLiteral => "TruthLiteral" | name => "Name" | unary => "Unary" | binary => "Binary"
  | call => "Call" | index => "Index" | listLiteral => "ListLiteral"
  | letBe => "Let" | setTo => "Set" | say => "Say" | ifThen => "If" | whileDo => "While"
  | repeatTimes => "Repeat" | forEach => "ForEach" | append => "Append" | remove => "Remove"
  | giveBack => "Return" | evaluate => "ExpressionStatement"
  | declaration => "FunctionDeclaration" | program => "Program"

end NodeKind

def Expr.kind : Expr → NodeKind
  | number .. => .numberLiteral | text .. => .textLiteral | truth .. => .truthLiteral
  | name .. => .name | unary .. => .unary | binary .. => .binary | call .. => .call
  | index .. => .index | list .. => .listLiteral

def Stmt.kind : Stmt → NodeKind
  | letBe .. => .letBe | setTo .. => .setTo | say .. => .say | ifThen .. => .ifThen
  | whileDo .. => .whileDo | repeatTimes .. => .repeatTimes | forEach .. => .forEach
  | append .. => .append | remove .. => .remove | giveBack .. => .giveBack
  | evaluate .. => .evaluate

end Parlance
