import Parlance.Proofs.Reading.Phrases
import Parlance.Session
/-!
# Names in lower case

Tokens, trees, tables and faults with their names in lower case. Two of them differ in the letter
case of their names only if they are the same when folded.
-/
namespace Parlance
open Text

/-! ### Letter case -/

/-- What does not tell the capital letters of ASCII from the small ones. -/
theorem apply_toLower {α : Type} {f : Char → α}
    (h : ∀ n < 128, (Char.ofNat n).isUpper = true → f (Char.ofNat n).toLower = f (Char.ofNat n))
    (c : Char) : f c.toLower = f c := by
  cases hc : c.isUpper with
  | true =>
    have hascii : c.toNat < 128 := lt_of_isAlphanum (by simp [Char.isAlphanum, Char.isAlpha, hc])
    exact forall_ascii (P := fun c => c.isUpper = true → f c.toLower = f c) h hascii hc
  | false => rw [Char.toLower_eq_of_not_isUpper (by simp [hc])]

theorem apply_congr {α : Type} {f : Char → α}
    (h : ∀ n < 128, (Char.ofNat n).isUpper = true → f (Char.ofNat n).toLower = f (Char.ofNat n))
    {a b : Char} (hab : a.toLower = b.toLower) : f a = f b := by
  rw [← apply_toLower h a, hab, apply_toLower h b]

theorem lowerChar_lowerChar (c : Char) : lowerChar (lowerChar c) = lowerChar c := by
  by_cases hc : c = '\u212A'
  · subst hc
    decide
  · conv_lhs => rw [lowerChar.eq_def c, if_neg hc]
    exact apply_toLower (by decide) c

@[simp]
theorem lower_lower (name : String) : lower (lower name) = lower name := by
  simp [lower, lowerChar_lowerChar, Function.comp_def]

theorem lower_append (a b : String) : lower (a ++ b) = lower a ++ lower b := by
  simp [lower]

/-- The token with its word in lower case. What a literal is for and how a number is written
stay. -/
def Token.folded (t : Token) : Token :=
  match t.kind with
  | .name | .keyword _ => { t with text := lower t.text }
  | _ => t

mutual

/-- The expression with its names in lower case. -/
def Expr.folded : Expr → Expr
  | .number x o => .number x o
  | .text s o => .text s o
  | .truth b o => .truth b o
  | .name n o => .name (lower n) o
  | .unary op x o => .unary op x.folded o
  | .binary op l r o => .binary op l.folded r.folded o
  | .call f args o => .call (lower f) (Expr.foldedAll args) o
  | .index t i o => .index t.folded i.folded o
  | .list items o => .list (Expr.foldedAll items) o

def Expr.foldedAll : List Expr → List Expr
  | [] => []
  | e :: es => e.folded :: Expr.foldedAll es

end

def Target.folded : Target → Target
  | .name n o => .name (lower n) o
  | .element list i o => .element (lower list) i.folded o

mutual

/-- The statement with its names in lower case. -/
def Stmt.folded : Stmt → Stmt
  | .letBe n v o => .letBe (lower n) v.folded o
  | .setTo t v o => .setTo t.folded v.folded o
  | .say v o => .say v.folded o
  | .ifThen c a b o => .ifThen c.folded (Stmt.foldedAll a) (Stmt.foldedAll b) o
  | .whileDo c b o => .whileDo c.folded (Stmt.foldedAll b) o
  | .repeatTimes c b o => .repeatTimes c.folded (Stmt.foldedAll b) o
  | .forEach n s b o => .forEach (lower n) s.folded (Stmt.foldedAll b) o
  | .append v l o => .append v.folded (lower l) o
  | .remove v l o => .remove v.folded (lower l) o
  | .giveBack v o => .giveBack v.folded o
  | .evaluate v o => .evaluate v.folded o

def Stmt.foldedAll : List Stmt → List Stmt
  | [] => []
  | s :: ss => s.folded :: Stmt.foldedAll ss

end

def Declaration.folded (d : Declaration) : Declaration :=
  ⟨lower d.name, d.parameters.map lower, Stmt.foldedAll d.body, d.offset⟩

def Program.folded (p : Program) : Program :=
  ⟨p.functions.map Declaration.folded, Stmt.foldedAll p.statements⟩

/-- The table with the names in its functions in lower case; its keys are in lower case already. -/
def FunctionTable.folded (f : FunctionTable) : FunctionTable := f.map fun e => (e.1, e.2.folded)

def ParseFault.folded : ParseFault → ParseFault
  | missing wanted found => missing wanted (found.map Token.folded)
  | noExpression found => noExpression (found.map Token.folded)
  | notCallable callee offset => notCallable callee offset
  | notAssignable start found => notAssignable (start.map Token.folded) (found.map Token.folded)
  | tooDeep found => tooDeep (found.map Token.folded)

def BindingFault.folded : BindingFault → BindingFault
  | shadowsBuiltin name => shadowsBuiltin (lower name)
  | declaredTwice name => declaredTwice (lower name)
  | parameterTwice parameter function => parameterTwice (lower parameter) (lower function)
  | returnOutside => returnOutside
  | unknownFunction name => unknownFunction (lower name)
  | argumentCount name expected got => argumentCount (lower name) expected got

def Fault.folded : Fault → Fault
  | undefined name => undefined (lower name)
  | argumentCount name expected got => argumentCount (lower name) expected got
  | unknownFunction name => unknownFunction (lower name)
  | fault => fault

def Failure.folded : Failure → Failure
  | lex fault => lex fault
  | parse fault length => parse fault.folded length
  | binding fault => binding (fault.1.folded, fault.2)
  | run fault offset => run fault.folded offset

theorem Fault.folded_folded (fault : Fault) : fault.folded.folded = fault.folded := by
  cases fault <;> simp [folded]

theorem BindingFault.folded_folded (fault : BindingFault) :
    fault.folded.folded = fault.folded := by
  cases fault <;> simp [folded]

/-! ### What stays -/

@[simp]
theorem Token.kind_folded (t : Token) : t.folded.kind = t.kind := by
  unfold Token.folded
  split <;> rfl

@[simp]
theorem Token.offset_folded (t : Token) : t.folded.offset = t.offset := by
  unfold Token.folded
  split <;> rfl

theorem Token.text_folded_name {t : Token} (h : t.kind = .name) : t.folded.text = lower t.text := by
  simp only [Token.folded, h]

theorem Expr.foldedAll_eq_map (es : List Expr) : Expr.foldedAll es = es.map Expr.folded := by
  induction es with
  | nil => rfl
  | cons e es ih => rw [Expr.foldedAll, ih, List.map_cons]

theorem Stmt.foldedAll_eq_map (ss : List Stmt) : Stmt.foldedAll ss = ss.map Stmt.folded := by
  induction ss with
  | nil => rfl
  | cons s ss ih => rw [Stmt.foldedAll, ih, List.map_cons]

@[simp]
theorem Expr.length_foldedAll (es : List Expr) : (Expr.foldedAll es).length = es.length := by
  rw [Expr.foldedAll_eq_map, List.length_map]

@[simp]
theorem Expr.offset_folded (e : Expr) : e.folded.offset = e.offset := by
  cases e <;> rfl

@[simp]
theorem Expr.kind_folded (e : Expr) : e.folded.kind = e.kind := by
  cases e <;> rfl

@[simp]
theorem Stmt.offset_folded (s : Stmt) : s.folded.offset = s.offset := by
  cases s <;> rfl

@[simp]
theorem Stmt.kind_folded (s : Stmt) : s.folded.kind = s.kind := by
  cases s <;> rfl

theorem Target.toExpr_folded (t : Target) : t.folded.toExpr = t.toExpr.folded := by
  cases t with
  | name => rfl
  | element => rfl

namespace FunctionTable

theorem keys_folded (f : FunctionTable) : Table.keys f.folded = Table.keys f :=
  Table.keys_map _ f

theorem get?_folded (f : FunctionTable) (key : String) :
    Table.get? key f.folded = (Table.get? key f).map Declaration.folded :=
  Table.get?_map _ f key

theorem put_folded (f : FunctionTable) (key : String) (d : Declaration) :
    Table.put key d.folded f.folded = folded (Table.put key d f) :=
  Table.put_map _ f key d

end FunctionTable
end Parlance
