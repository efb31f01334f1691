import Parlance.Proofs.Binding.Tables
import Parlance.Proofs.Renaming.Trees
/-!
# Binding renamed programs

The binder meets variables among parameters only, and there it asks only which of them are the same.
So a program is bound with new names for its variables exactly if it is bound with the old ones, and
to the same functions with new names for theirs (`bind_renamed`).
-/
namespace Parlance
open Text

namespace Binding

/-- What a check comes to with new names for the variables. -/
def Check.renamed {α β : Type} (ρ : String → String) (g : α → β) : Check α → Check β
  | .ok a => .ok (g a)
  | .error fault => .error (fault.1.renamed ρ, fault.2)

theorem renamed_bind {ρ : String → String} {α β γ δ : Type} {f : α → β} {g : γ → δ} {x : Check α}
    {k : α → Check γ} {k' : β → Check δ} (h : ∀ a, k' (f a) = Check.renamed ρ g (k a)) :
    (Check.renamed ρ f x >>= k') = Check.renamed ρ g (x >>= k) := by
  cases x with
  | ok a => exact h a
  | error fault => rfl

/-! ### Checks of calls -/

section Checks

variable (ρ : String → String) (f : FunctionTable)

theorem arity?_renamed (name : String) : arity? (f.renamed ρ) name = arity? f name := by
  unfold arity?
  rw [f.get?_renamed]
  cases Builtin.find? name with
  | some b => rfl
  | none =>
    cases Table.get? (lower name) f with
    | none => rfl
    | some d => exact congrArg some (d.length_parameters_renamed ρ)

theorem checkCall_renamed (name : String) (count offset : Nat) :
    checkCall (f.renamed ρ) name count offset
      = Check.renamed ρ id (checkCall f name count offset) := by
  unfold checkCall
  rw [arity?_renamed]
  cases arity? f name with
  | none => rfl
  | some n =>
    simp only
    split <;> rfl

mutual

theorem checkExpr_renamed :
    (e : Expr) → checkExpr (f.renamed ρ) (e.renamed ρ) = Check.renamed ρ id (checkExpr f e)
  | .number .. | .text .. | .truth .. | .name .. => rfl
  | .unary _ x _ => checkExpr_renamed x
  | .binary _ l r _ => by
    rw [Expr.renamed, checkExpr, checkExpr, checkExpr_renamed l]
    exact renamed_bind fun _ => checkExpr_renamed r
  | .call name args o => by
    rw [Expr.renamed, checkExpr, checkExpr, Expr.length_renamedAll, checkCall_renamed]
    exact renamed_bind fun _ => checkExprs_renamed args
  | .index t i _ => by
    rw [Expr.renamed, checkExpr, checkExpr, checkExpr_renamed t]
    exact renamed_bind fun _ => checkExpr_renamed i
  | .list items _ => checkExprs_renamed items

theorem checkExprs_renamed : (es : List Expr) →
    checkExprs (f.renamed ρ) (Expr.renamedAll ρ es) = Check.renamed ρ id (checkExprs f es)
  | [] => rfl
  | e :: es => by
    rw [Expr.renamedAll, checkExprs, checkExprs, checkExpr_renamed e]
    exact renamed_bind fun _ => checkExprs_renamed es

end

theorem checkTarget_renamed (t : Target) :
    checkTarget (f.renamed ρ) (t.renamed ρ) = Check.renamed ρ id (checkTarget f t) := by
  cases t with
  | name => rfl
  | element _ i _ => exact checkExpr_renamed ρ f i

mutual

theorem checkStmt_renamed (inFunction : Bool) : (s : Stmt) →
    checkStmt (f.renamed ρ) inFunction (s.renamed ρ)
      = Check.renamed ρ id (checkStmt f inFunction s)
  | .letBe _ v _ | .say v _ | .append v _ _ | .remove v _ _ | .evaluate v _ =>
    checkExpr_renamed ρ f v
  | .setTo t v _ => by
    rw [Stmt.renamed, checkStmt, checkStmt, checkTarget_renamed]
    exact renamed_bind fun _ => checkExpr_renamed ρ f v
  | .ifThen c a b _ => by
    rw [Stmt.renamed, checkStmt, checkStmt, checkExpr_renamed]
    refine renamed_bind fun _ => ?_
    rw [checkBlock_renamed inFunction a]
    exact renamed_bind fun _ => checkBlock_renamed inFunction b
  | .whileDo c b _ | .repeatTimes c b _ | .forEach _ c b _ => by
    rw [Stmt.renamed, checkStmt, checkStmt, checkExpr_renamed]
    exact renamed_bind fun _ => checkBlock_renamed inFunction b
  | .giveBack v o => by
    rw [Stmt.renamed, checkStmt, checkStmt]
    split
    · exact checkExpr_renamed ρ f v
    · rfl

theorem checkBlock_renamed (inFunction : Bool) : (ss : List Stmt) →
    checkBlock (f.renamed ρ) inFunction (Stmt.renamedAll ρ ss)
      = Check.renamed ρ id (checkBlock f inFunction ss)
  | [] => rfl
  | s :: ss => by
    rw [Stmt.renamedAll, checkBlock, checkBlock, checkStmt_renamed inFunction s]
    exact renamed_bind fun _ => checkBlock_renamed inFunction ss

end

theorem checkBodies_renamed (ds : List Declaration) :
    checkBodies (f.renamed ρ) (ds.map (Declaration.renamed ρ))
      = Check.renamed ρ id (checkBodies f ds) := by
  induction ds with
  | nil => rfl
  | cons d ds ih =>
    have hbody : checkBlock (f.renamed ρ) true (d.renamed ρ).body
        = Check.renamed ρ id (checkBlock f true d.body) := checkBlock_renamed ρ f true d.body
    rw [List.map_cons, checkBodies, checkBodies, hbody]
    exact renamed_bind fun _ => ih

end Checks

/-! ### Declarations -/

section Declarations

variable {names : List String} {ρ : String → String} (hρ : Faithful names ρ)
include hρ

theorem repeated?_renamed {seen ns : List String} (hseen : seen ⊆ names) (hns : ns ⊆ names) :
    repeated? (seen.map fun n => lower (ρ n)) (ns.map ρ)
      = (repeated? (seen.map lower) ns).map ρ := by
  induction ns generalizing seen with
  | nil => rfl
  | cons n ns ih =>
    obtain ⟨hn, hns⟩ := List.cons_subset.mp hns
    have hmem : lower (ρ n) ∈ (seen.map fun m => lower (ρ m)) ↔ lower n ∈ seen.map lower := by
      simp only [List.mem_map]
      exact exists_congr fun m => and_congr_right fun hm => hρ m (hseen hm) n hn
    simp only [List.map_cons, repeated?, hmem]
    split
    · rfl
    · exact ih (List.cons_subset.mpr ⟨hn, hseen⟩) hns

theorem declare_renamed (declared : List String) (f : FunctionTable) {ds : List Declaration}
    (hds : ∀ d ∈ ds, d.parameters ⊆ names) :
    declare declared (f.renamed ρ) (ds.map (Declaration.renamed ρ))
      = Check.renamed ρ (FunctionTable.renamed ρ) (declare declared f ds) := by
  induction ds generalizing declared f with
  | nil => rfl
  | cons d ds ih =>
    obtain ⟨hd, hds⟩ := List.forall_mem_cons.mp hds
    have hname : (d.renamed ρ).name = d.name := rfl
    have hrepeated : repeated? [] (d.renamed ρ).parameters = (repeated? [] d.parameters).map ρ :=
      repeated?_renamed hρ (List.nil_subset _) hd
    simp only [List.map_cons, declare, hname, hrepeated, f.put_renamed]
    split
    · rfl
    · split
      · rfl
      · cases repeated? [] d.parameters with
        | some p => rfl
        | none => exact ih _ _ hds

end Declarations
end Binding

namespace Program

variable {names : List String} {ρ : String → String} {p : Program}

theorem namesIn_declaration (hp : NamesIn names p.nodes) {d : Declaration}
    (hd : d ∈ p.functions) : NamesIn names d.nodes := by
  intro n hn
  refine hp n ?_
  simp only [nodes, List.mem_cons, List.mem_append, List.mem_flatMap]
  exact .inr (.inl ⟨d, hd, hn⟩)

theorem namesIn_statements (hp : NamesIn names p.nodes) :
    NamesIn names (Stmt.allNodes p.statements) := hp.cons.2.append.2

/-- What a program is bound to with new names for its variables, or why it is refused. -/
theorem bind_renamed (hρ : Faithful names ρ) (hp : NamesIn names p.nodes) (known : FunctionTable) :
    (p.renamed ρ).bind (known.renamed ρ)
      = Binding.Check.renamed ρ (FunctionTable.renamed ρ) (p.bind known) := by
  have hparameters : ∀ d ∈ p.functions, d.parameters ⊆ names :=
    fun d hd => (namesIn_declaration hp hd).cons.1
  simp only [bind, renamed, Binding.declare_renamed hρ [] known hparameters]
  refine Binding.renamed_bind fun f => ?_
  rw [Binding.checkBodies_renamed]
  refine Binding.renamed_bind fun _ => ?_
  rw [Binding.checkBlock_renamed]
  exact Binding.renamed_bind fun _ => rfl

/-- The functions that a program is bound to name the variables of the program and of the functions
known before. -/
theorem namesIn_bind {known f : FunctionTable} (h : p.bind known = .ok f)
    (hp : NamesIn names p.nodes) (hknown : known.NamesIn names) : f.NamesIn names := by
  intro key d hd
  rw [get?_bind h, Option.or_eq_some_iff] at hd
  rcases hd with hd | ⟨-, hd⟩
  · exact namesIn_declaration hp (Binding.declared?_mem hd).1
  · exact hknown key d hd

end Program
end Parlance
