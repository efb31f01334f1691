import Parlance.Binding
import Parlance.Proofs.Except
/-!
# What the binder checks

The binder accepts a block exactly if every call in it, at any depth, resolves, and no `return` in
it stands outside a function (`checkBlock_eq_ok`).
-/
namespace Parlance

/-- A call: the name that it uses and the number of its arguments. -/
structure CallSite where
  name : String
  count : Nat
  deriving DecidableEq, Repr

mutual

def Expr.calls : Expr → List CallSite
  | .unary _ x _ => x.calls
  | .binary _ l r _ => l.calls ++ r.calls
  | .call f args _ => ⟨f, args.length⟩ :: Expr.callsAll args
  | .index t i _ => t.calls ++ i.calls
  | .list items _ => Expr.callsAll items
  | .number .. | .text .. | .truth .. | .name .. => []

def Expr.callsAll : List Expr → List CallSite
  | [] => []
  | e :: es => e.calls ++ Expr.callsAll es

end

def Target.calls : Target → List CallSite
  | .name .. => []
  | .element _ i _ => i.calls

mutual

def Stmt.calls : Stmt → List CallSite
  | .letBe _ v _ | .say v _ | .append v _ _ | .remove v _ _ | .evaluate v _ | .giveBack v _ =>
    v.calls
  | .setTo t v _ => t.calls ++ v.calls
  | .ifThen c a b _ => c.calls ++ (Stmt.callsAll a ++ Stmt.callsAll b)
  | .whileDo c b _ | .repeatTimes c b _ | .forEach _ c b _ => c.calls ++ Stmt.callsAll b

def Stmt.callsAll : List Stmt → List CallSite
  | [] => []
  | s :: ss => s.calls ++ Stmt.callsAll ss

end

mutual

/-- A `return` stands in the statement. -/
def Stmt.returns : Stmt → Bool
  | .giveBack .. => true
  | .ifThen _ a b _ => Stmt.returnsAny a || Stmt.returnsAny b
  | .whileDo _ b _ | .repeatTimes _ b _ | .forEach _ _ b _ => Stmt.returnsAny b
  | .letBe .. | .setTo .. | .say .. | .append .. | .remove .. | .evaluate .. => false

def Stmt.returnsAny : List Stmt → Bool
  | [] => false
  | s :: ss => s.returns || Stmt.returnsAny ss

end

namespace Binding

/-- There is a function of the name, built in or declared, that takes as many arguments. -/
def Resolves (table : FunctionTable) (c : CallSite) : Prop := arity? table c.name = some c.count

variable {table : FunctionTable}

theorem andThen_eq_ok {x y : Check Unit} :
    (do x; y) = .ok () ↔ x = .ok () ∧ y = .ok () := by
  rw [except_bind_eq_ok]
  exact ⟨fun ⟨_, hx, hy⟩ => ⟨hx, hy⟩, fun ⟨hx, hy⟩ => ⟨(), hx, hy⟩⟩

theorem checkCall_eq_ok {name : String} {count offset : Nat} :
    checkCall table name count offset = .ok () ↔ Resolves table ⟨name, count⟩ := by
  unfold checkCall Resolves
  cases arity? table name with
  | none => simp
  | some n =>
    by_cases h : count = n
    · simp [h]
    · simp [h, Ne.symm h]

mutual

theorem checkExpr_eq_ok :
    (e : Expr) → (checkExpr table e = .ok () ↔ ∀ c ∈ e.calls, Resolves table c)
  | .unary _ x _ => by
    rw [checkExpr, Expr.calls]
    exact checkExpr_eq_ok x
  | .binary _ l r _ => by
    rw [checkExpr, Expr.calls, andThen_eq_ok, checkExpr_eq_ok l, checkExpr_eq_ok r,
      List.forall_mem_append]
  | .call f args o => by
    rw [checkExpr, Expr.calls, andThen_eq_ok, checkCall_eq_ok, checkExprs_eq_ok args,
      List.forall_mem_cons]
  | .index t i _ => by
    rw [checkExpr, Expr.calls, andThen_eq_ok, checkExpr_eq_ok t, checkExpr_eq_ok i,
      List.forall_mem_append]
  | .list items _ => by
    rw [checkExpr, Expr.calls]
    exact checkExprs_eq_ok items
  | .number .. | .text .. | .truth .. | .name .. => by simp [checkExpr, Expr.calls]

theorem checkExprs_eq_ok :
    (es : List Expr) → (checkExprs table es = .ok () ↔ ∀ c ∈ Expr.callsAll es, Resolves table c)
  | [] => by simp [checkExprs, Expr.callsAll]
  | e :: es => by
    rw [checkExprs, Expr.callsAll, andThen_eq_ok, checkExpr_eq_ok e, checkExprs_eq_ok es,
      List.forall_mem_append]

end

theorem checkTarget_eq_ok (t : Target) :
    checkTarget table t = .ok () ↔ ∀ c ∈ t.calls, Resolves table c := by
  cases t with
  | name => simp [checkTarget, Target.calls]
  | element _ i _ => exact checkExpr_eq_ok i

/-- What a block must fulfil: its calls resolve, and it has no `return` outside a function. -/
def Passes (table : FunctionTable) (inFunction : Bool) (calls : List CallSite) (returns : Bool) :
    Prop :=
  (∀ c ∈ calls, Resolves table c) ∧ (returns = true → inFunction = true)

variable {inFunction : Bool} {cs ds : List CallSite} {r q : Bool}

theorem passes_iff : Passes table inFunction cs false ↔ ∀ c ∈ cs, Resolves table c := by
  simp [Passes]

theorem passes_append :
    Passes table inFunction (cs ++ ds) (r || q) ↔
      Passes table inFunction cs r ∧ Passes table inFunction ds q := by
  simp only [Passes, List.forall_mem_append, Bool.or_eq_true]
  grind

theorem passes_header :
    Passes table inFunction (cs ++ ds) r ↔
      (∀ c ∈ cs, Resolves table c) ∧ Passes table inFunction ds r := by
  simp only [Passes, List.forall_mem_append]
  grind

mutual

theorem checkStmt_eq_ok :
    (s : Stmt) → (checkStmt table inFunction s = .ok () ↔
      Passes table inFunction s.calls s.returns)
  | .letBe _ v _ | .say v _ | .append v _ _ | .remove v _ _ | .evaluate v _ => by
    rw [checkStmt, Stmt.calls, Stmt.returns, passes_iff, checkExpr_eq_ok]
  | .setTo t v _ => by
    rw [checkStmt, Stmt.calls, Stmt.returns, passes_iff, andThen_eq_ok, checkTarget_eq_ok,
      checkExpr_eq_ok, List.forall_mem_append]
  | .ifThen c a b _ => by
    rw [checkStmt, Stmt.calls, Stmt.returns, passes_header, passes_append, andThen_eq_ok,
      andThen_eq_ok, checkExpr_eq_ok, checkBlock_eq_ok a, checkBlock_eq_ok b]
  | .whileDo c b _ | .repeatTimes c b _ | .forEach _ c b _ => by
    rw [checkStmt, Stmt.calls, Stmt.returns, passes_header, andThen_eq_ok, checkExpr_eq_ok,
      checkBlock_eq_ok b]
  | .giveBack v o => by
    rw [checkStmt, Stmt.calls, Stmt.returns]
    cases inFunction with
    | true => simp [Passes, checkExpr_eq_ok]
    | false => simp [Passes]

theorem checkBlock_eq_ok :
    (ss : List Stmt) → (checkBlock table inFunction ss = .ok () ↔
      Passes table inFunction (Stmt.callsAll ss) (Stmt.returnsAny ss))
  | [] => by simp [checkBlock, Stmt.callsAll, Stmt.returnsAny, Passes]
  | s :: ss => by
    rw [checkBlock, Stmt.callsAll, Stmt.returnsAny, passes_append, andThen_eq_ok, checkStmt_eq_ok s,
      checkBlock_eq_ok ss]

end

end Binding
end Parlance
