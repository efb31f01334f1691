import Mathlib
import Parlance.Source
import Parlance.Syntax.Node
import Parlance.Proofs.Outlines.Nodes
/-!
# Outlines of programs

Two nodes with one outline, written from one level of indentation on, are equal
(`Node.outline_injective`): the text tells the lines and their levels, these tell the sketch, and the
sketch tells the node. Below level zero there are no blanks to tell the levels, and parts of
different nodes run together.
-/
namespace Parlance

/-! ### Declarations and programs -/

def Declaration.fields (d : Declaration) : List Field :=
  [.plain .name (.quoted d.name), .plain .parameters (.names d.parameters),
    .ofParts .body (Stmt.sketches d.body)]

def Declaration.sketch (d : Declaration) : Outline Line :=
  .ofNode .declaration d.fields (some d.offset)

theorem Declaration.map_name_fields (d : Declaration) :
    d.fields.map Field.name = NodeKind.declaration.fieldNames := by
  simp [Declaration.fields, NodeKind.fieldNames]

theorem Declaration.map_lines_sketch (d : Declaration) (indent : Nat) :
    (d.sketch.lines indent).map lineText = d.outline indent := by
  have hbody := Stmt.map_allLines_sketches d.body (indent + 2)
  rw [Declaration.sketch, ← outlineNode_toOutline]
  simp [Declaration.fields, Declaration.outline, FieldName.label, hbody]

/-- A sketch tells the declaration. -/
theorem Declaration.sketch_injective : Function.Injective Declaration.sketch := by
  rintro ⟨n, ps, b, o⟩ ⟨n', ps', b', o'⟩ h
  obtain ⟨-, hfields, hoffset⟩ :=
    Outline.ofNode_inj (Declaration.map_name_fields _) (Declaration.map_name_fields _) h
  obtain rfl : o = o' := Option.some.inj hoffset
  obtain ⟨rfl, rfl, hb⟩ : n = n' ∧ ps = ps' ∧ Stmt.sketches b = Stmt.sketches b' := by
    simpa [Declaration.fields] using hfields
  rw [Stmt.sketches_inj b b' hb]

def Program.fields (p : Program) : List Field :=
  [.ofParts .functions (p.functions.map Declaration.sketch),
    .ofParts .statements (Stmt.sketches p.statements)]

def Program.sketch (p : Program) : Outline Line := .ofNode .program p.fields none

theorem Program.map_name_fields (p : Program) :
    p.fields.map Field.name = NodeKind.program.fieldNames := by
  simp [Program.fields, NodeKind.fieldNames]

theorem map_allLines_declarations (ds : List Declaration) (indent : Nat) :
    (Outline.allLines indent (ds.map Declaration.sketch)).map lineText
      = ds.flatMap (Declaration.outline indent) := by
  induction ds with
  | nil => rfl
  | cons d ds ih => simp [Outline.allLines, d.map_lines_sketch, ih]

theorem Program.map_lines_sketch (p : Program) (indent : Nat) :
    (p.sketch.lines indent).map lineText = p.outlineLines indent := by
  have hfunctions := map_allLines_declarations p.functions (indent + 2)
  have hstatements := Stmt.map_allLines_sketches p.statements (indent + 2)
  rw [Program.sketch, ← outlineNode_toOutline]
  simp [Program.fields, Program.outlineLines, FieldName.label, hfunctions, hstatements]

/-- A sketch tells the program. -/
theorem Program.sketch_injective : Function.Injective Program.sketch := by
  rintro ⟨ds, ss⟩ ⟨ds', ss'⟩ h
  obtain ⟨-, hfields, -⟩ :=
    Outline.ofNode_inj (Program.map_name_fields _) (Program.map_name_fields _) h
  obtain ⟨hds, hss⟩ : ds.map Declaration.sketch = ds'.map Declaration.sketch ∧
      Stmt.sketches ss = Stmt.sketches ss' := by
    simpa [Program.fields] using hfields
  rw [List.map_injective_iff.mpr Declaration.sketch_injective hds, Stmt.sketches_inj ss ss' hss]

/-! ### Nodes -/

theorem Expr.kind_ne_kind (e : Expr) (s : Stmt) : e.kind ≠ s.kind := by
  intro h
  cases e <;> cases s <;> cases h

namespace Node

def outlineLines (indent : Int) : Node → List String
  | expr e => e.outline indent
  | stmt s => s.outline indent
  | declaration d => d.outline indent
  | program p => p.outlineLines indent

/-- The outline of a node as text. -/
def outline (indent : Int) (n : Node) : String := "\n".intercalate (n.outlineLines indent)

theorem outline_program (indent : Int) (p : Program) :
    (program p).outline indent = p.outline indent := rfl

def fields : Node → List Field
  | expr e => e.fields
  | stmt s => s.fields
  | declaration d => d.fields
  | program p => p.fields

def sketch (n : Node) : Outline Line := .ofNode n.kind n.fields n.offset?

theorem map_name_fields (n : Node) : n.fields.map Field.name = n.kind.fieldNames := by
  cases n with
  | expr e => exact e.map_name_fields
  | stmt s => exact s.map_name_fields
  | declaration d => exact d.map_name_fields
  | program p => exact p.map_name_fields

theorem map_lines_sketch (n : Node) (indent : Nat) :
    (n.sketch.lines indent).map lineText = n.outlineLines indent := by
  cases n with
  | expr e => exact e.map_lines_sketch indent
  | stmt s => exact s.map_lines_sketch indent
  | declaration d => exact d.map_lines_sketch indent
  | program p => exact p.map_lines_sketch indent

/-- A sketch tells the node. -/
theorem sketch_injective : Function.Injective sketch := by
  intro m n h
  have hkind : m.kind = n.kind := (Outline.ofNode_inj m.map_name_fields n.map_name_fields h).1
  cases m with
  | expr e =>
    cases n with
    | expr e' => rw [Expr.sketch_inj e e' h]
    | stmt s => exact absurd hkind (e.kind_ne_kind s)
    | declaration | program => cases e <;> cases hkind
  | stmt s =>
    cases n with
    | expr e => exact absurd hkind.symm (e.kind_ne_kind s)
    | stmt s' => rw [Stmt.sketch_inj s s' h]
    | declaration | program => cases s <;> cases hkind
  | declaration d =>
    cases n with
    | expr e => cases e <;> cases hkind
    | stmt s => cases s <;> cases hkind
    | declaration d' => rw [Declaration.sketch_injective h]
    | program => cases hkind
  | program p =>
    cases n with
    | expr e => cases e <;> cases hkind
    | stmt s => cases s <;> cases hkind
    | declaration => cases hkind
    | program p' => rw [Program.sketch_injective h]

theorem toList_outline (n : Node) (indent : Nat) :
    (n.outline indent).toList = ['\n'].intercalate ((n.sketch.lines indent).map indented) := by
  have htext : String.toList ∘ lineText = indented := funext fun _ => String.toList_ofList
  rw [outline, ← map_lines_sketch, String.toList_intercalate, List.map_map, htext]
  rfl

/-- From level zero on, two nodes with one outline are equal. -/
theorem outline_injective {indent : Int} (h : 0 ≤ indent) : Function.Injective (outline indent) := by
  obtain ⟨indent, rfl⟩ := Int.eq_ofNat_of_zero_le h
  intro m n heq
  have htext := congrArg String.toList heq
  rw [toList_outline, toList_outline] at htext
  have hlines := joined_injective (Outline.lines_ne_nil _ _) (Outline.lines_ne_nil _ _) htext
  exact sketch_injective (Outline.lines_injective indent hlines)

end Node

/-- Two sources that nest their names in different ways, with every token at the same place. -/
def nestedFirst : Program :=
  ⟨[], [.evaluate (.list [.list [.name "x" 2] 1, .name "y" 5] 0) 0]⟩

def nestedBoth : Program :=
  ⟨[], [.evaluate (.list [.list [.name "x" 2, .name "y" 5] 1] 0) 0]⟩

theorem nestedFirst_ne : nestedFirst ≠ nestedBoth := nofun

theorem program_nestedFirst : Source.program 60 "[[x],y].".toList = .ok nestedFirst := by cbv

theorem program_nestedBoth : Source.program 60 "[[x, y]].".toList = .ok nestedBoth := by cbv

/-- At level zero the second name is seen to stand in the outer list or in the inner one. -/
theorem nested_apart : 0 ≤ (0 : Int) ∧ nestedFirst.outline 0 ≠ nestedBoth.outline 0 := by
  refine ⟨le_rfl, fun h => nestedFirst_ne ?_⟩
  rw [← Node.outline_program, ← Node.outline_program] at h
  exact Node.program.inj (Node.outline_injective (le_refl (0 : Int)) h)

/-- Eight levels below zero it is not. -/
theorem nested_together :
    Source.program 60 "[[x],y].".toList = .ok nestedFirst ∧
      Source.program 60 "[[x, y]].".toList = .ok nestedBoth ∧
      nestedFirst.outline (-8) = nestedBoth.outline (-8) ∧ nestedFirst ≠ nestedBoth :=
  ⟨program_nestedFirst, program_nestedBoth, by decide +kernel, nestedFirst_ne⟩

end Parlance
