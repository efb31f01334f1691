import Parlance.Proofs.Run.Computing
import Parlance.Session
import Parlance.Syntax.Node
/-!
# New names for variables

The variables of a tree are the names that its nodes have for them. A renaming puts another name in
the place of each and leaves the names of functions alone. It is faithful on some names if it makes
two of them the same, whatever the letter case, exactly when they were the same before. Frames that
differ by such a renaming have the same values in the same order, and each value is found under the
new name where it was found under the old one (`Frame.Renamed.get?`).
-/
namespace Parlance
open Text

/-! ### Variables -/

/-- The variables that a node names itself. -/
def Node.variables : Node → List String
  | expr (.name n _) | stmt (.letBe n _ _) | stmt (.forEach n _ _ _) | stmt (.append _ n _)
  | stmt (.remove _ n _) => [n]
  | declaration d => d.parameters
  | _ => []

/-- The variables of a program, those of its functions and their parameters among them. -/
def Program.variables (p : Program) : List String := p.nodes.flatMap Node.variables

/-- The variables of all functions of a table, and their parameters. -/
def FunctionTable.variables (f : FunctionTable) : List String :=
  f.flatMap fun e => e.2.nodes.flatMap Node.variables

/-- The nodes name no other variables than the given ones. -/
def NamesIn (names : List String) (nodes : List Node) : Prop := ∀ n ∈ nodes, n.variables ⊆ names

namespace NamesIn

variable {names : List String} {n : Node} {ns ms : List Node}

theorem cons (h : NamesIn names (n :: ns)) : n.variables ⊆ names ∧ NamesIn names ns :=
  List.forall_mem_cons.mp h

theorem append (h : NamesIn names (ns ++ ms)) : NamesIn names ns ∧ NamesIn names ms :=
  List.forall_mem_append.mp h

theorem of_flatMap (h : ns.flatMap Node.variables ⊆ names) : NamesIn names ns :=
  fun n hn _ hx => h (List.mem_flatMap.mpr ⟨n, hn, hx⟩)

end NamesIn

/-- The functions of the table name no other variables than the given ones. -/
def FunctionTable.NamesIn (names : List String) (f : FunctionTable) : Prop :=
  ∀ key d, f.get? key = some d → Parlance.NamesIn names d.nodes

theorem FunctionTable.NamesIn.of_variables {names : List String} {f : FunctionTable}
    (h : f.variables ⊆ names) : f.NamesIn names := by
  refine fun key d hd => .of_flatMap fun x hx => h ?_
  exact List.mem_flatMap.mpr ⟨(key, d), Table.mem_of_get? hd, hx⟩

/-! ### Trees -/

section Trees

variable (ρ : String → String)

mutual

/-- The expression with new names for its variables. -/
def Expr.renamed : Expr → Expr
  | .number x o => .number x o
  | .text s o => .text s o
  | .truth b o => .truth b o
  | .name n o => .name (ρ n) o
  | .unary op x o => .unary op x.renamed o
  | .binary op l r o => .binary op l.renamed r.renamed o
  | .call f args o => .call f (Expr.renamedAll args) o
  | .index t i o => .index t.renamed i.renamed o
  | .list items o => .list (Expr.renamedAll items) o

def Expr.renamedAll : List Expr → List Expr
  | [] => []
  | e :: es => e.renamed :: Expr.renamedAll es

end

def Target.renamed : Target → Target
  | .name n o => .name (ρ n) o
  | .element list i o => .element (ρ list) (i.renamed ρ) o

mutual

/-- The statement with new names for its variables. -/
def Stmt.renamed : Stmt → Stmt
  | .letBe n v o => .letBe (ρ n) (v.renamed ρ) o
  | .setTo t v o => .setTo (t.renamed ρ) (v.renamed ρ) o
  | .say v o => .say (v.renamed ρ) o
  | .ifThen c a b o => .ifThen (c.renamed ρ) (Stmt.renamedAll a) (Stmt.renamedAll b) o
  | .whileDo c b o => .whileDo (c.renamed ρ) (Stmt.renamedAll b) o
  | .repeatTimes c b o => .repeatTimes (c.renamed ρ) (Stmt.renamedAll b) o
  | .forEach n s b o => .forEach (ρ n) (s.renamed ρ) (Stmt.renamedAll b) o
  | .append v l o => .append (v.renamed ρ) (ρ l) o
  | .remove v l o => .remove (v.renamed ρ) (ρ l) o
  | .giveBack v o => .giveBack (v.renamed ρ) o
  | .evaluate v o => .evaluate (v.renamed ρ) o

def Stmt.renamedAll : List Stmt → List Stmt
  | [] => []
  | s :: ss => s.renamed :: Stmt.renamedAll ss

end

/-- The declaration under its own name, with new names for its parameters and variables. -/
def Declaration.renamed (d : Declaration) : Declaration :=
  ⟨d.name, d.parameters.map ρ, Stmt.renamedAll ρ d.body, d.offset⟩

def Program.renamed (p : Program) : Program :=
  ⟨p.functions.map (Declaration.renamed ρ), Stmt.renamedAll ρ p.statements⟩

def FunctionTable.renamed (f : FunctionTable) : FunctionTable :=
  f.map fun e => (e.1, e.2.renamed ρ)

@[simp]
theorem Expr.length_renamedAll (es : List Expr) : (Expr.renamedAll ρ es).length = es.length := by
  induction es with
  | nil => rfl
  | cons e es ih => rw [renamedAll, List.length_cons, List.length_cons, ih]

@[simp]
theorem Stmt.offset_renamed (s : Stmt) : (s.renamed ρ).offset = s.offset := by
  cases s <;> rfl

@[simp]
theorem Stmt.kind_renamed (s : Stmt) : (s.renamed ρ).kind = s.kind := by
  cases s <;> rfl

theorem Declaration.length_parameters_renamed (d : Declaration) :
    (d.renamed ρ).parameters.length = d.parameters.length := List.length_map _

end Trees

namespace FunctionTable

variable (ρ : String → String) (f : FunctionTable) (key : String)

theorem get?_renamed :
    Table.get? key (f.renamed ρ) = (Table.get? key f).map (Declaration.renamed ρ) :=
  Table.get?_map _ f key

theorem put_renamed (d : Declaration) :
    Table.put key (d.renamed ρ) (f.renamed ρ) = renamed ρ (Table.put key d f) :=
  Table.put_map _ f key d

end FunctionTable

/-! ### Faults -/

section Faults

variable (ρ : String → String)

def Fault.renamed : Fault → Fault
  | undefined name => undefined (ρ name)
  | fault => fault

def BindingFault.renamed : BindingFault → BindingFault
  | parameterTwice parameter function => parameterTwice (ρ parameter) function
  | fault => fault

def Failure.renamed : Failure → Failure
  | binding fault => binding (fault.1.renamed ρ, fault.2)
  | run fault offset => run (fault.renamed ρ) offset
  | failure => failure

def Stop.renamed : Stop → Stop
  | fault f offset => fault (f.renamed ρ) offset
  | stop => stop

def Outcome.renamed : Outcome → Outcome
  | failed failure => failed (failure.renamed ρ)
  | outcome => outcome

theorem Fault.renamed_of_not_ofName {fault : Fault} (h : ¬ fault.OfName) :
    fault.renamed ρ = fault := by
  cases fault with
  | undefined name => exact absurd trivial h
  | _ => rfl

/-- The variable that the message of a failure names. -/
def Failure.unbound? : Failure → Option String
  | run (.undefined name) _ | binding (.parameterTwice name _, _) => some name
  | _ => none

/-- A failure is of the same kind and at the same place whatever the variables are called, and it is
the same failure unless it names one of them. -/
theorem Failure.diagnostic_renamed (failure : Failure) :
    (failure.renamed ρ).diagnostic.kind.label = failure.diagnostic.kind.label ∧
      (failure.renamed ρ).diagnostic.offset = failure.diagnostic.offset ∧
      (failure.unbound? = none → failure.renamed ρ = failure) := by
  cases failure with
  | lex | parse => exact ⟨rfl, rfl, fun _ => rfl⟩
  | binding fault =>
    obtain ⟨fault, offset⟩ := fault
    cases fault with
    | parameterTwice => exact ⟨rfl, rfl, nofun⟩
    | _ => exact ⟨rfl, rfl, fun _ => rfl⟩
  | run fault offset =>
    cases fault with
    | undefined => exact ⟨rfl, rfl, nofun⟩
    | _ => exact ⟨rfl, rfl, fun _ => rfl⟩

end Faults

/-! ### Frames -/

/-- The renaming makes two of the names the same, whatever the letter case, exactly when they are
the same before. -/
def Faithful (names : List String) (ρ : String → String) : Prop :=
  ∀ a ∈ names, ∀ b ∈ names, lower (ρ a) = lower (ρ b) ↔ lower a = lower b

instance (names : List String) (ρ : String → String) : Decidable (Faithful names ρ) :=
  inferInstanceAs (Decidable (∀ a ∈ names, ∀ b ∈ names,
    lower (ρ a) = lower (ρ b) ↔ lower a = lower b))

/-- The second frame has the values of the first, in the same order, under the new names of the
variables. -/
def Frame.Renamed (names : List String) (ρ : String → String) : Frame → Frame → Prop :=
  List.Forall₂ fun e e' =>
    e'.2 = e.2 ∧ ∃ n ∈ names, e.1 = lower n ∧ e'.1 = lower (ρ n)

namespace Frame.Renamed

variable {names : List String} {ρ : String → String} {frame frame' : Frame} {n : String}

theorem get? (hρ : Faithful names ρ) (h : Frame.Renamed names ρ frame frame') (hn : n ∈ names) :
    frame'.get? (lower (ρ n)) = frame.get? (lower n) := by
  induction h with
  | nil => rfl
  | @cons e e' frame frame' he _ ih =>
    obtain ⟨k, v⟩ := e
    obtain ⟨k', v'⟩ := e'
    obtain ⟨rfl, m, hm, rfl, rfl⟩ := he
    simp only [Table.get?, hρ m hm n hn, ih]

theorem put (hρ : Faithful names ρ) (h : Frame.Renamed names ρ frame frame') (hn : n ∈ names)
    (v : Value) :
    Frame.Renamed names ρ (frame.put (lower n) v) (frame'.put (lower (ρ n)) v) := by
  induction h with
  | nil => exact .cons ⟨rfl, n, hn, rfl, rfl⟩ .nil
  | @cons e e' frame frame' he hrest ih =>
    obtain ⟨k, w⟩ := e
    obtain ⟨k', w'⟩ := e'
    obtain ⟨rfl, m, hm, rfl, rfl⟩ := he
    simp only [Table.put, hρ m hm n hn]
    split
    · exact .cons ⟨rfl, m, hm, rfl, rfl⟩ hrest
    · exact .cons ⟨rfl, m, hm, rfl, rfl⟩ ih

theorem putAll (hρ : Faithful names ρ) {entries : List (String × Value)}
    (h : ∀ e ∈ entries, e.1 ∈ names) (hframe : Frame.Renamed names ρ frame frame') :
    Frame.Renamed names ρ (entries.foldl (fun frame e => frame.put (lower e.1) e.2) frame)
      (entries.foldl (fun frame e => frame.put (lower (ρ e.1)) e.2) frame') := by
  induction entries generalizing frame frame' with
  | nil => exact hframe
  | cons e entries ih =>
    obtain ⟨he, hrest⟩ := List.forall_mem_cons.mp h
    exact ih hrest (hframe.put hρ he e.2)

/-- The frames of a call of a function under the old names and under the new ones. -/
theorem parameterFrame (hρ : Faithful names ρ) {parameters : List String}
    (h : parameters ⊆ names) (args : List Value) :
    Frame.Renamed names ρ (Run.parameterFrame parameters args)
      (Run.parameterFrame (parameters.map ρ) args) := by
  simp only [Run.parameterFrame, List.zip_map_left, List.foldl_map, Prod.map_fst, Prod.map_snd, id]
  exact putAll hρ (fun e he => h (List.of_mem_zip he).1) .nil

end Frame.Renamed
end Parlance
