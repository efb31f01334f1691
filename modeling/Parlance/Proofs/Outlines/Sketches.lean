import Mathlib
import Parlance.Proofs.Outlines.Lines
/-!
# Sketches of nodes

The outline of a node as a tree of lines: its head, and under it the label of each field that holds
nodes, with the sketches of these nodes under the label. Written out, a sketch is the outline of the
node (`outlineNode_toOutline`). A field without nodes stands in the head instead, so the names of
the fields must be known to read one back; then a sketch tells every field (`Outline.ofNode_inj`).
-/
namespace Parlance

/-- A field of a node, with its text or with the sketches of its nodes. -/
inductive Field
  | plain (label : FieldName) (text : Shown)
  | parts (label : FieldName) (nodes : List (Outline Line))

/-- A line at its level as it stands in an outline. -/
def lineText (line : Nat × Line) : String := String.ofList (indented line)

theorem toList_margin (indent : Nat) : (margin indent).toList = List.replicate (2 * indent) ' ' := by
  rw [margin, String.toList_ofList, show (2 * (indent : Int)).toNat = 2 * indent by omega]

theorem lineText_label (indent : Nat) (n : FieldName) :
    margin indent ++ "  " ++ n.label ++ ":" = lineText (indent + 1, .label n) := by
  rw [← String.toList_inj]
  simp [toList_margin, lineText, indented, Line.chars, Line.lead, Line.trail, Nat.mul_add,
    List.replicate_add]

namespace Field

variable {fields others : List Field}

def name : Field → FieldName
  | plain n _ => n
  | parts n _ => n

def plain? : Field → Option (FieldName × Shown)
  | plain n text => some (n, text)
  | parts .. => none

def part? : Field → Option (Outline Line)
  | plain .. => none
  | parts n nodes => some (.node (.label n) nodes)

/-- A field of nodes; when it is empty it is shown like a plain field. -/
def ofParts (n : FieldName) (nodes : List (Outline Line)) : Field :=
  if nodes.isEmpty then plain n (.names []) else parts n nodes

@[simp] theorem name_plain (n : FieldName) (text : Shown) : (plain n text).name = n := rfl

@[simp] theorem name_parts (n : FieldName) (nodes : List (Outline Line)) :
    (parts n nodes).name = n := rfl

@[simp] theorem name_ofParts (n : FieldName) (nodes : List (Outline Line)) :
    (ofParts n nodes).name = n := by
  unfold ofParts
  split <;> rfl

theorem ofParts_injective (n : FieldName) : Function.Injective (ofParts n) := by
  rintro (_ | ⟨t, ts⟩) (_ | ⟨u, us⟩) h
  · rfl
  · cases h
  · cases h
  · exact (Field.parts.inj h).2

@[simp] theorem ofParts_inj {n : FieldName} {nodes others : List (Outline Line)} :
    ofParts n nodes = ofParts n others ↔ nodes = others :=
  (ofParts_injective n).eq_iff

theorem name_mem_of_plain {n : FieldName} {text : Shown} {tail : List (FieldName × Shown)}
    (h : fields.filterMap plain? = (n, text) :: tail) : n ∈ fields.map name := by
  have hmem : (n, text) ∈ fields.filterMap plain? := h ▸ List.mem_cons_self
  obtain ⟨field, hfield, hplain⟩ := List.mem_filterMap.mp hmem
  cases field with
  | parts => cases hplain
  | plain m text' =>
    cases hplain
    exact List.mem_map_of_mem hfield

/-- What the head shows and what stands under it tell the fields, as each has its own name. -/
theorem eq_of_shown (hnames : fields.map name = others.map name) (hnodup : (fields.map name).Nodup)
    (hplain : fields.filterMap plain? = others.filterMap plain?)
    (hpart : fields.filterMap part? = others.filterMap part?) : fields = others := by
  induction fields generalizing others with
  | nil => exact (List.map_eq_nil_iff.mp hnames.symm).symm
  | cons field fields ih =>
    cases others with
    | nil => cases hnames
    | cons other others =>
      rw [List.map_cons, List.map_cons, List.cons.injEq] at hnames
      rw [List.map_cons, List.nodup_cons] at hnodup
      obtain ⟨hname, hnames⟩ := hnames
      cases field with
      | plain n text =>
        cases other with
        | plain m text' =>
          obtain ⟨hhead, htail⟩ := List.cons.inj hplain
          cases hhead
          rw [ih hnames hnodup.2 htail hpart]
        | parts m nodes =>
          -- the text would have to stand in a later field of the same name
          have hmem : n ∈ others.map name := name_mem_of_plain hplain.symm
          exact absurd (hnames ▸ hmem) hnodup.1
      | parts n nodes =>
        cases other with
        | plain m text =>
          have hmem : m ∈ fields.map name := name_mem_of_plain hplain
          exact absurd (hname ▸ hmem) hnodup.1
        | parts m nodes' =>
          obtain ⟨hhead, htail⟩ := List.cons.inj hpart
          cases hhead
          rw [ih hnames hnodup.2 hplain htail]

/-- The field as it stands in the outline of a node. -/
def toOutline (indent : Nat) : Field → OutlineField
  | plain n text => .plain n.label (String.ofList text.chars)
  | parts n nodes => .parts n.label ((Outline.allLines (indent + 2) nodes).map lineText)

@[simp] theorem toOutline_plain (indent : Nat) (n : FieldName) (text : Shown) :
    toOutline indent (plain n text) = .plain n.label (String.ofList text.chars) := rfl

@[simp] theorem toOutline_parts_singleton (indent : Nat) (n : FieldName) (node : Outline Line) :
    toOutline indent (parts n [node])
      = .parts n.label ((node.lines (indent + 2)).map lineText) := by
  rw [toOutline, Outline.allLines, Outline.allLines, List.append_nil]

@[simp] theorem toOutline_ofParts (indent : Nat) (n : FieldName) (nodes : List (Outline Line)) :
    toOutline indent (ofParts n nodes)
      = .ofParts n.label ((Outline.allLines (indent + 2) nodes).map lineText) := by
  cases nodes with
  | nil => rfl
  | cons node nodes =>
    have hne : ((Outline.allLines (indent + 2) (node :: nodes)).map lineText).isEmpty = false := by
      simp [Outline.allLines, Outline.lines_ne_nil]
    rw [OutlineField.ofParts, hne]
    rfl

theorem filterMap_plain?_toOutline (indent : Nat) (fields : List Field) :
    (fields.map (toOutline indent)).filterMap OutlineField.plain?
      = (fields.filterMap plain?).map fun field => String.ofList (fieldChars field) := by
  induction fields with
  | nil => rfl
  | cons field fields ih =>
    cases field with
    | plain n text =>
      have htext : n.label ++ "=" ++ String.ofList text.chars
          = String.ofList (fieldChars (n, text)) := by
        rw [← String.toList_inj]
        simp [fieldChars]
      simp [toOutline, OutlineField.plain?, plain?, ih, htext]
    | parts n nodes => exact ih

theorem flatMap_lines_toOutline (indent : Nat) (fields : List Field) :
    (fields.map (toOutline indent)).flatMap (OutlineField.lines (margin indent))
      = (Outline.allLines (indent + 1) (fields.filterMap part?)).map lineText := by
  induction fields with
  | nil => rfl
  | cons field fields ih =>
    cases field with
    | plain n text => exact ih
    | parts n nodes =>
      simp [toOutline, OutlineField.lines, part?, Outline.allLines, Outline.lines,
        lineText_label, ih]

end Field

theorem toList_intercalate (fields : List (FieldName × Shown)) :
    (", ".intercalate (fields.map fun field => String.ofList (fieldChars field))).toList
      = listedFields fields := by
  cases fields with
  | nil => rfl
  | cons field fields =>
    rw [List.map_cons, toList_intercalate_cons, listedFields, String.toList_ofList]
    simp [continued, List.flatMap_map]

/-- The sketch of a node. -/
def Outline.ofNode (kind : NodeKind) (fields : List Field) (offset : Option Nat) : Outline Line :=
  .node (.head kind (fields.filterMap Field.plain?) offset) (fields.filterMap Field.part?)

/-- The lines of a sketch are those of the node. -/
theorem outlineNode_toOutline (indent : Nat) (kind : NodeKind) (fields : List Field)
    (offset : Option Nat) :
    outlineNode indent kind (fields.map (Field.toOutline indent)) offset
      = ((Outline.ofNode kind fields offset).lines indent).map lineText := by
  unfold outlineNode
  simp only
  rw [Outline.ofNode, Outline.lines, List.map_cons, Field.flatMap_lines_toOutline,
    Field.filterMap_plain?_toOutline]
  congr 1
  rw [← String.toList_inj]
  simp only [String.toList_append, toList_margin, toList_intercalate, lineText, indented,
    String.toList_ofList, Line.chars, Line.lead, Line.trail]
  cases offset <;> simp [placeChars]

/-- The names of the fields of a node, in their order. -/
def NodeKind.fieldNames : NodeKind → List FieldName
  | numberLiteral | textLiteral | truthLiteral => [.value]
  | name => [.name]
  | unary => [.op, .operand]
  | binary => [.op, .left, .right]
  | call => [.name, .args]
  | index => [.target, .index]
  | listLiteral => [.items]
  | letBe => [.name, .value]
  | setTo => [.target, .value]
  | say | giveBack => [.value]
  | ifThen => [.condition, .thenBody, .elseBody]
  | whileDo => [.condition, .body]
  | repeatTimes => [.count, .body]
  | forEach => [.item, .source, .body]
  | append | remove => [.value, .listName]
  | evaluate => [.expression]
  | declaration => [.name, .parameters, .body]
  | program => [.functions, .statements]

theorem NodeKind.nodup_fieldNames (kind : NodeKind) : kind.fieldNames.Nodup := by
  cases kind <;> decide

/-- A sketch tells the fields of a node that has those of its kind. -/
theorem Outline.ofNode_inj {kind kind' : NodeKind} {fields others : List Field}
    {offset offset' : Option Nat} (hfields : fields.map Field.name = kind.fieldNames)
    (hothers : others.map Field.name = kind'.fieldNames)
    (h : ofNode kind fields offset = ofNode kind' others offset') :
    kind = kind' ∧ fields = others ∧ offset = offset' := by
  rw [ofNode, ofNode, Outline.node.injEq, Line.head.injEq] at h
  obtain ⟨⟨rfl, hplain, hoffset⟩, hpart⟩ := h
  have hnodup : (fields.map Field.name).Nodup := hfields ▸ kind.nodup_fieldNames
  exact ⟨rfl, Field.eq_of_shown (hfields.trans hothers.symm) hnodup hplain hpart, hoffset⟩

end Parlance
