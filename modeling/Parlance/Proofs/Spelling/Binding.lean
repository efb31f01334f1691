import Parlance.Proofs.Binding.Tables
import Parlance.Proofs.Spelling.Trees
/-!
# Binding names in lower case

The binder looks names up in lower case only. So a program with its names in lower case is bound to
the table with the names in lower case, or refused for the same reason at the same place
(`bind_folded`).
-/
namespace Parlance
open Text

/-- What a binding comes to with all names in lower case. -/
def BindingFault.told {α β : Type} (f : α → β) : Binding.Check α → Binding.Check β
  | .ok a => .ok (f a)
  | .error fault => .error (fault.1.folded, fault.2)

namespace Binding
open BindingFault

theorem told_bind {α β γ δ : Type} {f : α → β} {g : γ → δ} {x : Check α} {k : α → Check γ}
    {k' : β → Check δ} (h : ∀ a, k' (f a) = told g (k a)) :
    (told f x >>= k') = told g (x >>= k) := by
  cases x with
  | ok a => exact h a
  | error fault => rfl

theorem find?_lower (name : String) : Builtin.find? (lower name) = Builtin.find? name :=
  Program.find?_congr (lower_lower name)

theorem repeated?_folded (seen names : List String) :
    repeated? seen (names.map lower) = (repeated? seen names).map lower := by
  induction names generalizing seen with
  | nil => rfl
  | cons n ns ih =>
    simp only [List.map_cons, repeated?, lower_lower]
    split
    · rfl
    · exact ih _

theorem declare_folded (declared : List String) (f : FunctionTable) (ds : List Declaration) :
    declare declared f.folded (ds.map Declaration.folded)
      = told FunctionTable.folded (declare declared f ds) := by
  induction ds generalizing declared f with
  | nil => rfl
  | cons d ds ih =>
    simp only [List.map_cons, declare, Declaration.folded, lower_lower, find?_lower,
      repeated?_folded]
    split
    · rfl
    · split
      · rfl
      · cases repeated? [] d.parameters with
        | some p => rfl
        | none =>
          have hput := f.put_folded (lower d.name) d
          rw [Declaration.folded] at hput
          simp only [Option.map_none, hput]
          exact ih _ _

theorem arity?_folded (f : FunctionTable) (name : String) :
    arity? f.folded (lower name) = arity? f name := by
  unfold arity?
  rw [find?_lower, lower_lower, f.get?_folded]
  cases Builtin.find? name with
  | some b => rfl
  | none =>
    cases Table.get? (lower name) f with
    | none => rfl
    | some d => simp [Declaration.folded]

theorem checkCall_folded (f : FunctionTable) (name : String) (count offset : Nat) :
    checkCall f.folded (lower name) count offset = told id (checkCall f name count offset) := by
  unfold checkCall
  rw [arity?_folded]
  cases arity? f name with
  | none => rfl
  | some n =>
    simp only
    split <;> rfl

section Checks

variable (f : FunctionTable)

mutual

theorem checkExpr_folded :
    (e : Expr) → checkExpr f.folded e.folded = told id (checkExpr f e)
  | .number .. | .text .. | .truth .. | .name .. => rfl
  | .unary _ x _ => checkExpr_folded x
  | .binary _ l r _ => by
    rw [Expr.folded, checkExpr, checkExpr, checkExpr_folded l]
    exact told_bind fun _ => checkExpr_folded r
  | .call name args o => by
    rw [Expr.folded, checkExpr, checkExpr, Expr.length_foldedAll, checkCall_folded]
    exact told_bind fun _ => checkExprs_folded args
  | .index t i _ => by
    rw [Expr.folded, checkExpr, checkExpr, checkExpr_folded t]
    exact told_bind fun _ => checkExpr_folded i
  | .list items _ => checkExprs_folded items

theorem checkExprs_folded :
    (es : List Expr) → checkExprs f.folded (Expr.foldedAll es) = told id (checkExprs f es)
  | [] => rfl
  | e :: es => by
    rw [Expr.foldedAll, checkExprs, checkExprs, checkExpr_folded e]
    exact told_bind fun _ => checkExprs_folded es

end

theorem checkTarget_folded (t : Target) :
    checkTarget f.folded t.folded = told id (checkTarget f t) := by
  cases t with
  | name => rfl
  | element _ i _ => exact checkExpr_folded f i

mutual

theorem checkStmt_folded (inFunction : Bool) :
    (s : Stmt) → checkStmt f.folded inFunction s.folded = told id (checkStmt f inFunction s)
  | .letBe _ v _ | .say v _ | .append v _ _ | .remove v _ _ | .evaluate v _ =>
    checkExpr_folded f v
  | .setTo t v _ => by
    rw [Stmt.folded, checkStmt, checkStmt, checkTarget_folded]
    exact told_bind fun _ => checkExpr_folded f v
  | .ifThen c a b _ => by
    rw [Stmt.folded, checkStmt, checkStmt, checkExpr_folded]
    refine told_bind fun _ => ?_
    rw [checkBlock_folded inFunction a]
    exact told_bind fun _ => checkBlock_folded inFunction b
  | .whileDo c b _ | .repeatTimes c b _ | .forEach _ c b _ => by
    rw [Stmt.folded, checkStmt, checkStmt, checkExpr_folded]
    exact told_bind fun _ => checkBlock_folded inFunction b
  | .giveBack v o => by
    rw [Stmt.folded, checkStmt, checkStmt]
    split
    · exact checkExpr_folded f v
    · rfl

theorem checkBlock_folded (inFunction : Bool) : (ss : List Stmt) →
    checkBlock f.folded inFunction (Stmt.foldedAll ss) = told id (checkBlock f inFunction ss)
  | [] => rfl
  | s :: ss => by
    rw [Stmt.foldedAll, checkBlock, checkBlock, checkStmt_folded inFunction s]
    exact told_bind fun _ => checkBlock_folded inFunction ss

end

theorem checkBodies_folded (ds : List Declaration) :
    checkBodies f.folded (ds.map Declaration.folded) = told id (checkBodies f ds) := by
  induction ds with
  | nil => rfl
  | cons d ds ih =>
    rw [List.map_cons, checkBodies, checkBodies]
    have hbody : checkBlock f.folded true d.folded.body = told id (checkBlock f true d.body) :=
      checkBlock_folded f true d.body
    rw [hbody]
    exact told_bind fun _ => ih

end Checks

end Binding

/-- The table that a program with its names in lower case runs with, or why it does not run. -/
theorem Program.bind_folded (p : Program) (known : FunctionTable) :
    p.folded.bind known.folded = BindingFault.told FunctionTable.folded (p.bind known) := by
  simp only [Program.bind, Program.folded, Binding.declare_folded]
  refine Binding.told_bind fun f => ?_
  rw [Binding.checkBodies_folded]
  refine Binding.told_bind fun _ => ?_
  rw [Binding.checkBlock_folded]
  exact Binding.told_bind fun _ => rfl

end Parlance
