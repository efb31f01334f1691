import Parlance.Proofs.Binding.Tables
import Parlance.Syntax.NodeKind
import Parlance.Token.Basic
/-!
# Moved offsets

A tree whose offsets are all moved by a function: the program of a text that stands somewhere else.
Nothing else of the tree changes, so that the binder finds the same in it (`checkBlock_moved`).
-/
namespace Parlance

def Token.moved (φ : Nat → Nat) (t : Token) : Token := { t with offset := φ t.offset }

mutual

def Expr.moved (φ : Nat → Nat) : Expr → Expr
  | .number x o => .number x (φ o)
  | .text s o => .text s (φ o)
  | .truth b o => .truth b (φ o)
  | .name n o => .name n (φ o)
  | .unary op x o => .unary op (x.moved φ) (φ o)
  | .binary op l r o => .binary op (l.moved φ) (r.moved φ) (φ o)
  | .call f args o => .call f (Expr.movedAll φ args) (φ o)
  | .index t i o => .index (t.moved φ) (i.moved φ) (φ o)
  | .list items o => .list (Expr.movedAll φ items) (φ o)

def Expr.movedAll (φ : Nat → Nat) : List Expr → List Expr
  | [] => []
  | e :: es => e.moved φ :: Expr.movedAll φ es

end

def Target.moved (φ : Nat → Nat) : Target → Target
  | .name n o => .name n (φ o)
  | .element list i o => .element list (i.moved φ) (φ o)

mutual

def Stmt.moved (φ : Nat → Nat) : Stmt → Stmt
  | .letBe n v o => .letBe n (v.moved φ) (φ o)
  | .setTo t v o => .setTo (t.moved φ) (v.moved φ) (φ o)
  | .say v o => .say (v.moved φ) (φ o)
  | .ifThen c a b o => .ifThen (c.moved φ) (Stmt.movedAll φ a) (Stmt.movedAll φ b) (φ o)
  | .whileDo c b o => .whileDo (c.moved φ) (Stmt.movedAll φ b) (φ o)
  | .repeatTimes c b o => .repeatTimes (c.moved φ) (Stmt.movedAll φ b) (φ o)
  | .forEach n s b o => .forEach n (s.moved φ) (Stmt.movedAll φ b) (φ o)
  | .append v list o => .append (v.moved φ) list (φ o)
  | .remove v list o => .remove (v.moved φ) list (φ o)
  | .giveBack v o => .giveBack (v.moved φ) (φ o)
  | .evaluate v o => .evaluate (v.moved φ) (φ o)

def Stmt.movedAll (φ : Nat → Nat) : List Stmt → List Stmt
  | [] => []
  | s :: ss => s.moved φ :: Stmt.movedAll φ ss

end

def Declaration.moved (φ : Nat → Nat) (d : Declaration) : Declaration :=
  ⟨d.name, d.parameters, Stmt.movedAll φ d.body, φ d.offset⟩

def Program.moved (φ : Nat → Nat) (p : Program) : Program :=
  ⟨p.functions.map (Declaration.moved φ), Stmt.movedAll φ p.statements⟩

def FunctionTable.moved (φ : Nat → Nat) (f : FunctionTable) : FunctionTable :=
  f.map fun e => (e.1, e.2.moved φ)

/-! ### Lists of trees -/

section Lists

variable {φ ψ : Nat → Nat}

theorem Expr.movedAll_eq_map (es : List Expr) : Expr.movedAll φ es = es.map (Expr.moved φ) := by
  induction es with
  | nil => rfl
  | cons e es ih => rw [Expr.movedAll, ih, List.map_cons]

theorem Stmt.movedAll_eq_map (ss : List Stmt) : Stmt.movedAll φ ss = ss.map (Stmt.moved φ) := by
  induction ss with
  | nil => rfl
  | cons s ss ih => rw [Stmt.movedAll, ih, List.map_cons]

@[simp]
theorem Expr.length_movedAll (es : List Expr) : (Expr.movedAll φ es).length = es.length := by
  rw [Expr.movedAll_eq_map, List.length_map]

/-! ### Moving twice -/

mutual

theorem Expr.moved_moved : (e : Expr) → (e.moved φ).moved ψ = e.moved (ψ ∘ φ)
  | .number .. | .text .. | .truth .. | .name .. => rfl
  | .unary _ x _ => by simp only [Expr.moved, Expr.moved_moved x, Function.comp_apply]
  | .binary _ l r _ => by
    simp only [Expr.moved, Expr.moved_moved l, Expr.moved_moved r, Function.comp_apply]
  | .call _ args _ => by simp only [Expr.moved, Expr.movedAll_movedAll args, Function.comp_apply]
  | .index t i _ => by
    simp only [Expr.moved, Expr.moved_moved t, Expr.moved_moved i, Function.comp_apply]
  | .list items _ => by simp only [Expr.moved, Expr.movedAll_movedAll items, Function.comp_apply]

theorem Expr.movedAll_movedAll :
    (es : List Expr) → Expr.movedAll ψ (Expr.movedAll φ es) = Expr.movedAll (ψ ∘ φ) es
  | [] => rfl
  | e :: es => by simp only [Expr.movedAll, Expr.moved_moved e, Expr.movedAll_movedAll es]

end

theorem Target.moved_moved (t : Target) : (t.moved φ).moved ψ = t.moved (ψ ∘ φ) := by
  cases t with
  | name => rfl
  | element _ i _ => simp only [Target.moved, Expr.moved_moved, Function.comp_apply]

mutual

theorem Stmt.moved_moved : (s : Stmt) → (s.moved φ).moved ψ = s.moved (ψ ∘ φ)
  | .letBe .. | .say .. | .append .. | .remove .. | .giveBack .. | .evaluate .. => by
    simp only [Stmt.moved, Expr.moved_moved, Function.comp_apply]
  | .setTo .. => by
    simp only [Stmt.moved, Target.moved_moved, Expr.moved_moved, Function.comp_apply]
  | .ifThen _ a b _ => by
    simp only [Stmt.moved, Expr.moved_moved, Stmt.movedAll_movedAll a, Stmt.movedAll_movedAll b,
      Function.comp_apply]
  | .whileDo _ b _ | .repeatTimes _ b _ | .forEach _ _ b _ => by
    simp only [Stmt.moved, Expr.moved_moved, Stmt.movedAll_movedAll b, Function.comp_apply]

theorem Stmt.movedAll_movedAll :
    (ss : List Stmt) → Stmt.movedAll ψ (Stmt.movedAll φ ss) = Stmt.movedAll (ψ ∘ φ) ss
  | [] => rfl
  | s :: ss => by simp only [Stmt.movedAll, Stmt.moved_moved s, Stmt.movedAll_movedAll ss]

end

theorem Declaration.moved_moved (d : Declaration) : (d.moved φ).moved ψ = d.moved (ψ ∘ φ) := by
  simp only [Declaration.moved, Stmt.movedAll_movedAll, Function.comp_apply]

theorem Program.moved_moved (p : Program) : (p.moved φ).moved ψ = p.moved (ψ ∘ φ) := by
  simp only [Program.moved, Stmt.movedAll_movedAll, List.map_map, Function.comp_def,
    Declaration.moved_moved]

theorem FunctionTable.moved_moved (f : FunctionTable) :
    (f.moved φ).moved ψ = f.moved (ψ ∘ φ) := by
  simp only [FunctionTable.moved, List.map_map, Function.comp_def, Declaration.moved_moved]

end Lists

/-! ### Moving nowhere -/

mutual

theorem Expr.moved_id : (e : Expr) → e.moved id = e
  | .number .. | .text .. | .truth .. | .name .. => rfl
  | .unary _ x _ => by simp only [Expr.moved, Expr.moved_id x, id]
  | .binary _ l r _ => by simp only [Expr.moved, Expr.moved_id l, Expr.moved_id r, id]
  | .call _ args _ => by simp only [Expr.moved, Expr.movedAll_id args, id]
  | .index t i _ => by simp only [Expr.moved, Expr.moved_id t, Expr.moved_id i, id]
  | .list items _ => by simp only [Expr.moved, Expr.movedAll_id items, id]

theorem Expr.movedAll_id : (es : List Expr) → Expr.movedAll id es = es
  | [] => rfl
  | e :: es => by simp only [Expr.movedAll, Expr.moved_id e, Expr.movedAll_id es]

end

theorem Target.moved_id (t : Target) : t.moved id = t := by
  cases t with
  | name => rfl
  | element => simp only [Target.moved, Expr.moved_id, id]

mutual

theorem Stmt.moved_id : (s : Stmt) → s.moved id = s
  | .letBe .. | .say .. | .append .. | .remove .. | .giveBack .. | .evaluate .. => by
    simp only [Stmt.moved, Expr.moved_id, id]
  | .setTo .. => by simp only [Stmt.moved, Target.moved_id, Expr.moved_id, id]
  | .ifThen _ a b _ => by
    simp only [Stmt.moved, Expr.moved_id, Stmt.movedAll_id a, Stmt.movedAll_id b, id]
  | .whileDo _ b _ | .repeatTimes _ b _ | .forEach _ _ b _ => by
    simp only [Stmt.moved, Expr.moved_id, Stmt.movedAll_id b, id]

theorem Stmt.movedAll_id : (ss : List Stmt) → Stmt.movedAll id ss = ss
  | [] => rfl
  | s :: ss => by simp only [Stmt.movedAll, Stmt.moved_id s, Stmt.movedAll_id ss]

end

theorem Declaration.moved_id (d : Declaration) : d.moved id = d := by
  simp only [Declaration.moved, Stmt.movedAll_id, id]

theorem Program.moved_id (p : Program) : p.moved id = p := by
  simp only [Program.moved, Stmt.movedAll_id, funext Declaration.moved_id, List.map_id']

theorem FunctionTable.moved_id (f : FunctionTable) : f.moved id = f := by
  simp only [FunctionTable.moved, Declaration.moved_id, List.map_id']

/-! ### What does not move -/

section Kept

variable {φ : Nat → Nat}

@[simp]
theorem Expr.offset_moved (e : Expr) : (e.moved φ).offset = φ e.offset := by
  cases e <;> rfl

@[simp]
theorem Stmt.offset_moved (s : Stmt) : (s.moved φ).offset = φ s.offset := by
  cases s <;> rfl

@[simp]
theorem Stmt.kind_moved (s : Stmt) : (s.moved φ).kind = s.kind := by
  cases s <;> rfl

theorem Target.moved_toExpr (t : Target) : (t.moved φ).toExpr = t.toExpr.moved φ := by
  cases t with
  | name => rfl
  | element => rfl

mutual

@[simp]
theorem Expr.calls_moved : (e : Expr) → (e.moved φ).calls = e.calls
  | .number .. | .text .. | .truth .. | .name .. => rfl
  | .unary _ x _ => by simp only [Expr.moved, Expr.calls, Expr.calls_moved x]
  | .binary _ l r _ => by
    simp only [Expr.moved, Expr.calls, Expr.calls_moved l, Expr.calls_moved r]
  | .call _ args _ => by
    simp only [Expr.moved, Expr.calls, Expr.callsAll_moved args, Expr.length_movedAll]
  | .index t i _ => by
    simp only [Expr.moved, Expr.calls, Expr.calls_moved t, Expr.calls_moved i]
  | .list items _ => by simp only [Expr.moved, Expr.calls, Expr.callsAll_moved items]

@[simp]
theorem Expr.callsAll_moved : (es : List Expr) →
    Expr.callsAll (Expr.movedAll φ es) = Expr.callsAll es
  | [] => rfl
  | e :: es => by
    simp only [Expr.movedAll, Expr.callsAll, Expr.calls_moved e, Expr.callsAll_moved es]

end

@[simp]
theorem Target.calls_moved (t : Target) : (t.moved φ).calls = t.calls := by
  cases t with
  | name => rfl
  | element => simp only [Target.moved, Target.calls, Expr.calls_moved]

mutual

@[simp]
theorem Stmt.calls_moved : (s : Stmt) → (s.moved φ).calls = s.calls
  | .letBe .. | .say .. | .append .. | .remove .. | .giveBack .. | .evaluate .. => by
    simp only [Stmt.moved, Stmt.calls, Expr.calls_moved]
  | .setTo .. => by simp only [Stmt.moved, Stmt.calls, Target.calls_moved, Expr.calls_moved]
  | .ifThen _ a b _ => by
    simp only [Stmt.moved, Stmt.calls, Expr.calls_moved, Stmt.callsAll_moved a,
      Stmt.callsAll_moved b]
  | .whileDo _ b _ | .repeatTimes _ b _ | .forEach _ _ b _ => by
    simp only [Stmt.moved, Stmt.calls, Expr.calls_moved, Stmt.callsAll_moved b]

@[simp]
theorem Stmt.callsAll_moved : (ss : List Stmt) →
    Stmt.callsAll (Stmt.movedAll φ ss) = Stmt.callsAll ss
  | [] => rfl
  | s :: ss => by
    simp only [Stmt.movedAll, Stmt.callsAll, Stmt.calls_moved s, Stmt.callsAll_moved ss]

end

mutual

@[simp]
theorem Stmt.returns_moved : (s : Stmt) → (s.moved φ).returns = s.returns
  | .letBe .. | .setTo .. | .say .. | .append .. | .remove .. | .giveBack .. | .evaluate .. => rfl
  | .ifThen _ a b _ => by
    simp only [Stmt.moved, Stmt.returns, Stmt.returnsAny_moved a, Stmt.returnsAny_moved b]
  | .whileDo _ b _ | .repeatTimes _ b _ | .forEach _ _ b _ => by
    simp only [Stmt.moved, Stmt.returns, Stmt.returnsAny_moved b]

@[simp]
theorem Stmt.returnsAny_moved :
    (ss : List Stmt) → Stmt.returnsAny (Stmt.movedAll φ ss) = Stmt.returnsAny ss
  | [] => rfl
  | s :: ss => by
    simp only [Stmt.movedAll, Stmt.returnsAny, Stmt.returns_moved s, Stmt.returnsAny_moved ss]

end

end Kept
end Parlance
