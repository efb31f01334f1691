import Parlance.Value.Coercion
import Parlance.Syntax.Basic
/-!
# What the operators compute

Text on either side makes a sum a concatenation and a comparison one of texts. Equality compares
texts if either side is a text, truths if either is a truth, and else numbers with a tolerance. The
logical operators take both operands as truths.
-/
namespace Parlance

def Value.isText : Value → Bool
  | text _ => true
  | _ => false

def Value.isTruth : Value → Bool
  | truth _ => true
  | _ => false

/-- Numbers nearer to one another than this are equal. -/
def tolerance : Number := Decimal.toNumber false ⟨1, -12⟩

namespace Store

/-- A number computed from two numbers. -/
def arithmetic (store : Store) (f : Number → Number → Number) (x y : Value) :
    Except Fault Value := do
  let a ← store.toNumber x
  let b ← store.toNumber y
  return .number (f a b)

/-- Texts are joined, numbers added. -/
def add (store : Store) (x y : Value) : Except Fault Value :=
  if x.isText || y.isText then do
    let a ← store.toText x
    let b ← store.toText y
    return .text (a ++ b)
  else store.arithmetic .add x y

/-- The remainder of the operands rounded down, with the sign of the dividend. -/
def remainder (store : Store) (x y : Value) : Except Fault Value := do
  let dividend ← store.toInteger x
  let divisor ← store.toInteger y
  match dividend, divisor with
  | some a, some b => return .number (if b = 0 then .nan else .ofInt (a.tmod b))
  | _, _ => return .number .nan

/-- An order of texts by code points if either side is a text, else of numbers. -/
def compare (store : Store) (texts : String → String → Bool) (numbers : Number → Number → Bool)
    (x y : Value) : Except Fault Value :=
  if x.isText || y.isText then do
    let a ← store.toText x
    let b ← store.toText y
    return .truth (texts a b)
  else do
    let a ← store.toNumber x
    let b ← store.toNumber y
    return .truth (numbers a b)

def equal (store : Store) (x y : Value) : Except Fault Bool :=
  if x.isText || y.isText then do
    let a ← store.toText x
    let b ← store.toText y
    return a == b
  else if x.isTruth || y.isTruth then return store.toTruth x == store.toTruth y
  else do
    let a ← store.toNumber x
    let b ← store.toNumber y
    return (a.sub b).abs.lt tolerance

def applyBinary (store : Store) (op : BinaryOp) (x y : Value) : Except Fault Value :=
  match op with
  | .or => return .truth (store.toTruth x || store.toTruth y)
  | .and => return .truth (store.toTruth x && store.toTruth y)
  | .equal => return .truth (← store.equal x y)
  | .unequal => return .truth (!(← store.equal x y))
  | .less => store.compare (fun a b => a < b) Number.lt x y
  | .lessEqual => store.compare (fun a b => a ≤ b) Number.le x y
  | .greater => store.compare (fun a b => b < a) (fun a b => b.lt a) x y
  | .greaterEqual => store.compare (fun a b => b ≤ a) (fun a b => b.le a) x y
  | .add => store.add x y
  | .subtract => store.arithmetic .sub x y
  | .multiply => store.arithmetic .mul x y
  | .divide => store.arithmetic .div x y
  | .remainder => store.remainder x y

def applyUnary (store : Store) (op : UnaryOp) (x : Value) : Except Fault Value :=
  match op with
  | .not => return .truth (!store.toTruth x)
  | .minus => return .number (← store.toNumber x).neg
  | .plus => return x

end Store
end Parlance
