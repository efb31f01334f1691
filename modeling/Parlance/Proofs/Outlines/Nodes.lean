import Mathlib
import Parlance.Proofs.Outlines.Sketches
/-!
# Sketches of expressions and statements

Each expression and each statement has a sketch whose lines are its outline
(`Expr.map_lines_sketch`, `Stmt.map_lines_sketch`). The sketch tells the node, by induction on the
node with one case for each kind (`Expr.sketch_inj`, `Stmt.sketch_inj`).
-/
namespace Parlance

/-! ### Operators -/

theorem UnaryOp.spelling_injective : Function.Injective UnaryOp.spelling := by
  intro a b h
  cases a <;> cases b <;> first | rfl | exact absurd h (by decide)

theorem BinaryOp.spelling_injective : Function.Injective BinaryOp.spelling := by
  intro a b h
  cases a <;> cases b <;> first | rfl | exact absurd h (by decide)

@[simp] theorem UnaryOp.spelling_inj {a b : UnaryOp} : a.spelling = b.spelling ↔ a = b :=
  UnaryOp.spelling_injective.eq_iff

@[simp] theorem BinaryOp.spelling_inj {a b : BinaryOp} : a.spelling = b.spelling ↔ a = b :=
  BinaryOp.spelling_injective.eq_iff

/-! ### Expressions -/

mutual

def Expr.fields : Expr → List Field
  | .number x _ => [.plain .value (.number x)]
  | .text s _ => [.plain .value (.quoted s)]
  | .truth b _ => [.plain .value (.truth b)]
  | .name n _ => [.plain .name (.quoted n)]
  | .unary op x _ =>
    [.plain .op (.quoted op.spelling), .parts .operand [.ofNode x.kind x.fields (some x.offset)]]
  | .binary op l r _ =>
    [.plain .op (.quoted op.spelling), .parts .left [.ofNode l.kind l.fields (some l.offset)],
      .parts .right [.ofNode r.kind r.fields (some r.offset)]]
  | .call f args _ => [.plain .name (.quoted f), .ofParts .args (Expr.sketches args)]
  | .index t i _ =>
    [.parts .target [.ofNode t.kind t.fields (some t.offset)],
      .parts .index [.ofNode i.kind i.fields (some i.offset)]]
  | .list items _ => [.ofParts .items (Expr.sketches items)]

def Expr.sketches : List Expr → List (Outline Line)
  | [] => []
  | e :: es => .ofNode e.kind e.fields (some e.offset) :: Expr.sketches es

end

def Expr.sketch (e : Expr) : Outline Line := .ofNode e.kind e.fields (some e.offset)

theorem Expr.map_name_fields (e : Expr) : e.fields.map Field.name = e.kind.fieldNames := by
  cases e <;> simp [Expr.fields, Expr.kind, NodeKind.fieldNames]

mutual

/-- The lines of a sketch are those of the outline. -/
theorem Expr.map_lines_sketch (e : Expr) (indent : Nat) :
    (e.sketch.lines indent).map lineText = e.outline indent := by
  rw [Expr.sketch, ← outlineNode_toOutline]
  match e with
  | .number .. | .text .. | .truth .. | .name .. =>
    simp [Expr.fields, Expr.outline, Expr.kind, Expr.offset, FieldName.label]
  | .unary op x o =>
    have hx := Expr.map_lines_sketch x (indent + 2)
    rw [Expr.sketch] at hx
    simp only [Expr.fields, List.map, Field.toOutline_plain, Field.toOutline_parts_singleton, hx,
      Expr.outline]
    rfl
  | .binary op l r o =>
    have hl := Expr.map_lines_sketch l (indent + 2)
    have hr := Expr.map_lines_sketch r (indent + 2)
    rw [Expr.sketch] at hl hr
    simp only [Expr.fields, List.map, Field.toOutline_plain, Field.toOutline_parts_singleton, hl,
      hr, Expr.outline]
    rfl
  | .call f args o =>
    have hargs := Expr.map_allLines_sketches args (indent + 2)
    simp only [Expr.fields, List.map, Field.toOutline_plain, Field.toOutline_ofParts, hargs,
      Expr.outline]
    rfl
  | .index t i o =>
    have ht := Expr.map_lines_sketch t (indent + 2)
    have hi := Expr.map_lines_sketch i (indent + 2)
    rw [Expr.sketch] at ht hi
    simp only [Expr.fields, List.map, Field.toOutline_parts_singleton, ht, hi, Expr.outline]
    rfl
  | .list items o =>
    have hitems := Expr.map_allLines_sketches items (indent + 2)
    simp only [Expr.fields, List.map, Field.toOutline_ofParts, hitems, Expr.outline]
    rfl

theorem Expr.map_allLines_sketches (es : List Expr) (indent : Nat) :
    (Outline.allLines indent (Expr.sketches es)).map lineText = Expr.outlines indent es := by
  match es with
  | [] => simp [Expr.sketches, Outline.allLines, Expr.outlines]
  | e :: es =>
    have he := Expr.map_lines_sketch e indent
    have hes := Expr.map_allLines_sketches es indent
    rw [Expr.sketch] at he
    simp [Expr.sketches, Outline.allLines, Expr.outlines, he, hes]

end

attribute [simp] Expr.map_lines_sketch

mutual

/-- A sketch tells the expression. -/
theorem Expr.sketch_inj (e e' : Expr) (h : e.sketch = e'.sketch) : e = e' := by
  -- the kind of the head leaves one form of expression
  obtain ⟨hkind, hfields, hoffset⟩ := Outline.ofNode_inj e.map_name_fields e'.map_name_fields h
  match e with
  | .number x o =>
    cases e' with
    | number x' o' =>
      obtain rfl : o = o' := Option.some.inj hoffset
      obtain rfl : x = x' := by simpa [Expr.fields] using hfields
      rfl
    | _ => cases hkind
  | .text s o =>
    cases e' with
    | text s' o' =>
      obtain rfl : o = o' := Option.some.inj hoffset
      obtain rfl : s = s' := by simpa [Expr.fields] using hfields
      rfl
    | _ => cases hkind
  | .truth b o =>
    cases e' with
    | truth b' o' =>
      obtain rfl : o = o' := Option.some.inj hoffset
      obtain rfl : b = b' := by simpa [Expr.fields] using hfields
      rfl
    | _ => cases hkind
  | .name n o =>
    cases e' with
    | name n' o' =>
      obtain rfl : o = o' := Option.some.inj hoffset
      obtain rfl : n = n' := by simpa [Expr.fields] using hfields
      rfl
    | _ => cases hkind
  | .unary op x o =>
    cases e' with
    | unary op' x' o' =>
      obtain rfl : o = o' := Option.some.inj hoffset
      obtain ⟨rfl, hx⟩ : op = op' ∧ x.sketch = x'.sketch := by
        simpa [Expr.fields, Expr.sketch] using hfields
      rw [Expr.sketch_inj x x' hx]
    | _ => cases hkind
  | .binary op l r o =>
    cases e' with
    | binary op' l' r' o' =>
      obtain rfl : o = o' := Option.some.inj hoffset
      obtain ⟨rfl, hl, hr⟩ : op = op' ∧ l.sketch = l'.sketch ∧ r.sketch = r'.sketch := by
        simpa [Expr.fields, Expr.sketch] using hfields
      rw [Expr.sketch_inj l l' hl, Expr.sketch_inj r r' hr]
    | _ => cases hkind
  | .call f args o =>
    cases e' with
    | call f' args' o' =>
      obtain rfl : o = o' := Option.some.inj hoffset
      obtain ⟨rfl, hargs⟩ : f = f' ∧ Expr.sketches args = Expr.sketches args' := by
        simpa [Expr.fields] using hfields
      rw [Expr.sketches_inj args args' hargs]
    | _ => cases hkind
  | .index t i o =>
    cases e' with
    | index t' i' o' =>
      obtain rfl : o = o' := Option.some.inj hoffset
      obtain ⟨ht, hi⟩ : t.sketch = t'.sketch ∧ i.sketch = i'.sketch := by
        simpa [Expr.fields, Expr.sketch] using hfields
      rw [Expr.sketch_inj t t' ht, Expr.sketch_inj i i' hi]
    | _ => cases hkind
  | .list items o =>
    cases e' with
    | list items' o' =>
      obtain rfl : o = o' := Option.some.inj hoffset
      obtain hitems : Expr.sketches items = Expr.sketches items' := by
        simpa [Expr.fields] using hfields
      rw [Expr.sketches_inj items items' hitems]
    | _ => cases hkind

theorem Expr.sketches_inj (es es' : List Expr) (h : Expr.sketches es = Expr.sketches es') :
    es = es' := by
  match es, es' with
  | [], [] => rfl
  | [], e' :: es' => cases h
  | e :: es, [] => cases h
  | e :: es, e' :: es' =>
    rw [Expr.sketches, Expr.sketches, List.cons.injEq] at h
    rw [Expr.sketch_inj e e' h.1, Expr.sketches_inj es es' h.2]

end

theorem Target.toExpr_injective : Function.Injective Target.toExpr := by
  rintro (⟨n, o⟩ | ⟨l, i, o⟩) (⟨n', o'⟩ | ⟨l', i', o'⟩) h <;> cases h <;> rfl

/-! ### Statements -/

mutual

def Stmt.fields : Stmt → List Field
  | .letBe n v _ => [.plain .name (.quoted n), .parts .value [v.sketch]]
  | .setTo t v _ => [.parts .target [t.toExpr.sketch], .parts .value [v.sketch]]
  | .say v _ => [.parts .value [v.sketch]]
  | .ifThen c a b _ =>
    [.parts .condition [c.sketch], .ofParts .thenBody (Stmt.sketches a),
      .ofParts .elseBody (Stmt.sketches b)]
  | .whileDo c b _ => [.parts .condition [c.sketch], .ofParts .body (Stmt.sketches b)]
  | .repeatTimes c b _ => [.parts .count [c.sketch], .ofParts .body (Stmt.sketches b)]
  | .forEach n s b _ =>
    [.plain .item (.quoted n), .parts .source [s.sketch], .ofParts .body (Stmt.sketches b)]
  | .append v l _ => [.parts .value [v.sketch], .plain .listName (.quoted l)]
  | .remove v l _ => [.parts .value [v.sketch], .plain .listName (.quoted l)]
  | .giveBack v _ => [.parts .value [v.sketch]]
  | .evaluate v _ => [.parts .expression [v.sketch]]

def Stmt.sketches : List Stmt → List (Outline Line)
  | [] => []
  | s :: ss => .ofNode s.kind s.fields (some s.offset) :: Stmt.sketches ss

end

def Stmt.sketch (s : Stmt) : Outline Line := .ofNode s.kind s.fields (some s.offset)

theorem Stmt.map_name_fields (s : Stmt) : s.fields.map Field.name = s.kind.fieldNames := by
  cases s <;> simp [Stmt.fields, Stmt.kind, NodeKind.fieldNames]

mutual

theorem Stmt.map_lines_sketch (s : Stmt) (indent : Nat) :
    (s.sketch.lines indent).map lineText = s.outline indent := by
  rw [Stmt.sketch, ← outlineNode_toOutline]
  match s with
  | .letBe .. | .setTo .. | .say .. | .append .. | .remove .. | .giveBack .. | .evaluate .. =>
    simp [Stmt.fields, Stmt.outline, Stmt.kind, Stmt.offset, FieldName.label]
  | .ifThen c a b o =>
    have ha := Stmt.map_allLines_sketches a (indent + 2)
    have hb := Stmt.map_allLines_sketches b (indent + 2)
    simp [Stmt.fields, Stmt.outline, Stmt.kind, Stmt.offset, FieldName.label, ha, hb]
  | .whileDo c b o =>
    have hb := Stmt.map_allLines_sketches b (indent + 2)
    simp [Stmt.fields, Stmt.outline, Stmt.kind, Stmt.offset, FieldName.label, hb]
  | .repeatTimes c b o =>
    have hb := Stmt.map_allLines_sketches b (indent + 2)
    simp [Stmt.fields, Stmt.outline, Stmt.kind, Stmt.offset, FieldName.label, hb]
  | .forEach n s b o =>
    have hb := Stmt.map_allLines_sketches b (indent + 2)
    simp [Stmt.fields, Stmt.outline, Stmt.kind, Stmt.offset, FieldName.label, hb]

theorem Stmt.map_allLines_sketches (ss : List Stmt) (indent : Nat) :
    (Outline.allLines indent (Stmt.sketches ss)).map lineText = Stmt.outlines indent ss := by
  match ss with
  | [] => simp [Stmt.sketches, Outline.allLines, Stmt.outlines]
  | s :: ss =>
    have hs := Stmt.map_lines_sketch s indent
    have hss := Stmt.map_allLines_sketches ss indent
    rw [Stmt.sketch] at hs
    simp [Stmt.sketches, Outline.allLines, Stmt.outlines, hs, hss]

end

mutual

/-- A sketch tells the statement. -/
theorem Stmt.sketch_inj (s s' : Stmt) (h : s.sketch = s'.sketch) : s = s' := by
  obtain ⟨hkind, hfields, hoffset⟩ := Outline.ofNode_inj s.map_name_fields s'.map_name_fields h
  match s with
  | .letBe n v o =>
    cases s' with
    | letBe n' v' o' =>
      obtain rfl : o = o' := Option.some.inj hoffset
      obtain ⟨rfl, hv⟩ : n = n' ∧ v.sketch = v'.sketch := by simpa [Stmt.fields] using hfields
      rw [Expr.sketch_inj v v' hv]
    | _ => cases hkind
  | .setTo t v o =>
    cases s' with
    | setTo t' v' o' =>
      obtain rfl : o = o' := Option.some.inj hoffset
      obtain ⟨ht, hv⟩ : t.toExpr.sketch = t'.toExpr.sketch ∧ v.sketch = v'.sketch := by
        simpa [Stmt.fields] using hfields
      rw [Target.toExpr_injective (Expr.sketch_inj _ _ ht), Expr.sketch_inj v v' hv]
    | _ => cases hkind
  | .say v o =>
    cases s' with
    | say v' o' =>
      obtain rfl : o = o' := Option.some.inj hoffset
      obtain hv : v.sketch = v'.sketch := by simpa [Stmt.fields] using hfields
      rw [Expr.sketch_inj v v' hv]
    | _ => cases hkind
  | .ifThen c a b o =>
    cases s' with
    | ifThen c' a' b' o' =>
      obtain rfl : o = o' := Option.some.inj hoffset
      obtain ⟨hc, ha, hb⟩ : c.sketch = c'.sketch ∧ Stmt.sketches a = Stmt.sketches a' ∧
          Stmt.sketches b = Stmt.sketches b' := by
        simpa [Stmt.fields] using hfields
      rw [Expr.sketch_inj c c' hc, Stmt.sketches_inj a a' ha, Stmt.sketches_inj b b' hb]
    | _ => cases hkind
  | .whileDo c b o =>
    cases s' with
    | whileDo c' b' o' =>
      obtain rfl : o = o' := Option.some.inj hoffset
      obtain ⟨hc, hb⟩ : c.sketch = c'.sketch ∧ Stmt.sketches b = Stmt.sketches b' := by
        simpa [Stmt.fields] using hfields
      rw [Expr.sketch_inj c c' hc, Stmt.sketches_inj b b' hb]
    | _ => cases hkind
  | .repeatTimes c b o =>
    cases s' with
    | repeatTimes c' b' o' =>
      obtain rfl : o = o' := Option.some.inj hoffset
      obtain ⟨hc, hb⟩ : c.sketch = c'.sketch ∧ Stmt.sketches b = Stmt.sketches b' := by
        simpa [Stmt.fields] using hfields
      rw [Expr.sketch_inj c c' hc, Stmt.sketches_inj b b' hb]
    | _ => cases hkind
  | .forEach n e b o =>
    cases s' with
    | forEach n' e' b' o' =>
      obtain rfl : o = o' := Option.some.inj hoffset
      obtain ⟨rfl, he, hb⟩ : n = n' ∧ e.sketch = e'.sketch ∧ Stmt.sketches b = Stmt.sketches b' := by
        simpa [Stmt.fields] using hfields
      rw [Expr.sketch_inj e e' he, Stmt.sketches_inj b b' hb]
    | _ => cases hkind
  | .append v l o =>
    cases s' with
    | append v' l' o' =>
      obtain rfl : o = o' := Option.some.inj hoffset
      obtain ⟨hv, rfl⟩ : v.sketch = v'.sketch ∧ l = l' := by simpa [Stmt.fields] using hfields
      rw [Expr.sketch_inj v v' hv]
    | _ => cases hkind
  | .remove v l o =>
    cases s' with
    | remove v' l' o' =>
      obtain rfl : o = o' := Option.some.inj hoffset
      obtain ⟨hv, rfl⟩ : v.sketch = v'.sketch ∧ l = l' := by simpa [Stmt.fields] using hfields
      rw [Expr.sketch_inj v v' hv]
    | _ => cases hkind
  | .giveBack v o =>
    cases s' with
    | giveBack v' o' =>
      obtain rfl : o = o' := Option.some.inj hoffset
      obtain hv : v.sketch = v'.sketch := by simpa [Stmt.fields] using hfields
      rw [Expr.sketch_inj v v' hv]
    | _ => cases hkind
  | .evaluate v o =>
    cases s' with
    | evaluate v' o' =>
      obtain rfl : o = o' := Option.some.inj hoffset
      obtain hv : v.sketch = v'.sketch := by simpa [Stmt.fields] using hfields
      rw [Expr.sketch_inj v v' hv]
    | _ => cases hkind

theorem Stmt.sketches_inj (ss ss' : List Stmt) (h : Stmt.sketches ss = Stmt.sketches ss') :
    ss = ss' := by
  match ss, ss' with
  | [], [] => rfl
  | [], s' :: ss' => cases h
  | s :: ss, [] => cases h
  | s :: ss, s' :: ss' =>
    rw [Stmt.sketches, Stmt.sketches, List.cons.injEq] at h
    rw [Stmt.sketch_inj s s' h.1, Stmt.sketches_inj ss ss' h.2]

end

end Parlance
