import Mathlib
import Parlance.Syntax.Outline
import Parlance.Proofs.Numbers.Dumps
import Parlance.Proofs.Outlines.Quoting
/-!
# Fields on one line

The fields of a node that hold no nodes stand in a list between parentheses, each with its name, an
equals sign and a text. Such a text is a word without the marks of a list, a quoted text or a list
of names; each of them ends in front of the next comma or parenthesis that is not its own
(`Shown.delimited`), so a list of fields tells each of them (`listedFields_cancel`).
-/
namespace Parlance

variable {α : Type} {cs ds rest rest' : List Char}

/-- Two texts that end at the first character of another kind are equal if their continuations
are. -/
theorem append_cancel_of_head {p : Char → Bool} (hcs : ∀ c ∈ cs, p c = true)
    (hds : ∀ c ∈ ds, p c = true) (hrest : ∀ c ∈ rest.head?, p c = false)
    (hrest' : ∀ c ∈ rest'.head?, p c = false) (h : cs ++ rest = ds ++ rest') :
    cs = ds ∧ rest = rest' := by
  have htake : ∀ {rest : List Char}, (∀ c ∈ rest.head?, p c = false) → rest.takeWhile p = [] := by
    rintro (_ | ⟨c, rest⟩) hhead
    · rfl
    · rw [List.takeWhile_cons_of_neg (by simp [hhead c rfl])]
  have hsame := congrArg (List.takeWhile p) h
  rw [List.takeWhile_append_of_pos hcs, List.takeWhile_append_of_pos hds, htake hrest,
    htake hrest', List.append_nil, List.append_nil] at hsame
  subst hsame
  exact ⟨rfl, List.append_cancel_left h⟩

/-! ### Lists between parentheses -/

/-- What can follow an item of a list. -/
def EndsItem (rest : List Char) : Prop := ∃ c tail, rest = c :: tail ∧ (c = ',' ∨ c = ')')

/-- The texts of items can be told from what follows them in a list. -/
def Delimited (f : α → List Char) : Prop :=
  ∀ ⦃a b rest rest'⦄, EndsItem rest → EndsItem rest' → f a ++ rest = f b ++ rest' →
    a = b ∧ rest = rest'

/-- Items with a comma before each of them. -/
def continued (f : α → List Char) (items : List α) : List Char :=
  items.flatMap fun a => ',' :: ' ' :: f a

theorem continued_cons (f : α → List Char) (a : α) (items : List α) :
    continued f (a :: items) = ',' :: ' ' :: (f a ++ continued f items) := rfl

theorem endsItem_continued (f : α → List Char) (items : List α) (rest : List Char) :
    EndsItem (continued f items ++ ')' :: rest) := by
  cases items with
  | nil => exact ⟨_, _, rfl, .inr rfl⟩
  | cons => exact ⟨_, _, rfl, .inl rfl⟩

theorem continued_cancel {f : α → List Char} (hf : Delimited f) {xs ys : List α}
    (h : continued f xs ++ ')' :: rest = continued f ys ++ ')' :: rest') :
    xs = ys ∧ rest = rest' := by
  induction xs generalizing ys with
  | nil =>
    cases ys with
    | nil => exact ⟨rfl, (List.cons.inj h).2⟩
    | cons y ys => cases h
  | cons x xs ih =>
    cases ys with
    | nil => cases h
    | cons y ys =>
      simp only [continued_cons, List.cons_append, List.append_assoc, List.cons.injEq,
        true_and] at h
      obtain ⟨rfl, htail⟩ := hf (endsItem_continued ..) (endsItem_continued ..) h
      obtain ⟨rfl, hrest⟩ := ih htail
      exact ⟨rfl, hrest⟩

theorem newline_not_mem_continued {f : α → List Char} (hf : ∀ a, '\n' ∉ f a) (items : List α) :
    '\n' ∉ continued f items := by
  simp [continued, hf]

theorem toList_intercalate_cons (s : String) (ss : List String) :
    (", ".intercalate (s :: ss)).toList = s.toList ++ continued String.toList ss := by
  induction ss generalizing s with
  | nil => simp [continued]
  | cons t ss ih =>
    rw [String.intercalate_cons_cons, String.toList_append, String.toList_append, ih,
      continued_cons, List.append_assoc]
    rfl

/-! ### Names -/

/-- What follows the first of some names: a lone one has a comma behind it. -/
def namesEnd : List String → List Char
  | [] => [',', ')']
  | ns => continued (fun n => Text.quotedChars n.toList) ns ++ [')']

theorem delimited_quoted : Delimited fun s : String => Text.quotedChars s.toList := by
  intro s t rest rest' _ _ h
  obtain ⟨hchars, hrest⟩ := Text.quotedChars_cancel h
  exact ⟨String.toList_injective hchars, hrest⟩

theorem toList_namesText_cons (n : String) (ns : List String) :
    (namesText (n :: ns)).toList = '(' :: (Text.quotedChars n.toList ++ namesEnd ns) := by
  cases ns with
  | nil => simp [namesText, namesEnd, Text.quoted]
  | cons m ns =>
    have htext : namesText (n :: m :: ns)
        = "(" ++ ", ".intercalate ((n :: m :: ns).map Text.quoted) ++ ")" := rfl
    rw [htext, String.toList_append, String.toList_append, List.map_cons, toList_intercalate_cons]
    simp [namesEnd, continued, Text.quoted, List.flatMap_map]

theorem namesEnd_cancel {ns ms : List String} (h : namesEnd ns ++ rest = namesEnd ms ++ rest') :
    ns = ms ∧ rest = rest' := by
  cases ns with
  | nil => cases ms with
    | nil => exact ⟨rfl, List.append_cancel_left h⟩
    | cons m ms => cases h
  | cons n ns => cases ms with
    | nil => cases h
    | cons m ms =>
      simp only [namesEnd, List.append_assoc, List.singleton_append] at h
      exact continued_cancel delimited_quoted h

theorem quotedChars_append_ne (cs rest rest' : List Char) :
    Text.quotedChars cs ++ rest ≠ ')' :: rest' := by
  intro h
  obtain ⟨quote, tail, hcs, hquote⟩ := Text.head_quotedChars cs
  rw [hcs] at h
  rcases hquote with rfl | rfl <;> cases h

theorem namesText_cancel {ns ms : List String}
    (h : (namesText ns).toList ++ rest = (namesText ms).toList ++ rest') :
    ns = ms ∧ rest = rest' := by
  cases ns with
  | nil => cases ms with
    | nil => exact ⟨rfl, List.append_cancel_left h⟩
    | cons m ms =>
      rw [toList_namesText_cons, List.cons_append, List.append_assoc] at h
      exact absurd (List.cons.inj h).2.symm (quotedChars_append_ne _ _ _)
  | cons n ns => cases ms with
    | nil =>
      rw [toList_namesText_cons, List.cons_append, List.append_assoc] at h
      exact absurd (List.cons.inj h).2 (quotedChars_append_ne _ _ _)
    | cons m ms =>
      simp only [toList_namesText_cons, List.cons_append, List.append_assoc, List.cons.injEq,
        true_and] at h
      obtain ⟨hchars, hend⟩ := Text.quotedChars_cancel h
      obtain ⟨rfl, hrest⟩ := namesEnd_cancel hend
      exact ⟨congrArg (· :: ns) (String.toList_injective hchars), hrest⟩

/-! ### Texts of fields -/

/-- No mark of a list, no quote and no line break. -/
def isUnmarked (c : Char) : Bool := c ∉ ['(', ')', ',', '\'', '"', '\n']

/-- The text of a field that holds no nodes. -/
inductive Shown
  | word (chars : List Char) (plain : ∀ c ∈ chars, isUnmarked c = true)
  | quoted (s : String)
  | names (ns : List String)

namespace Shown

/-- The three forms of such a text. -/
inductive Form
  | word | quoted | names

/-- The form of the text that comes first. -/
def formOf : List Char → Form
  | '(' :: _ => .names
  | '\'' :: _ => .quoted
  | '"' :: _ => .quoted
  | _ => .word

def form : Shown → Form
  | word .. => .word
  | quoted _ => .quoted
  | names _ => .names

def chars : Shown → List Char
  | word cs _ => cs
  | quoted s => Text.quotedChars s.toList
  | names ns => (namesText ns).toList

theorem formOf_append (a : Shown) (hrest : EndsItem rest) : formOf (a.chars ++ rest) = a.form := by
  cases a with
  | word cs hcs =>
    cases cs with
    | nil =>
      -- an empty word shows the mark that ends it
      obtain ⟨c, tail, rfl, rfl | rfl⟩ := hrest <;> rfl
    | cons c cs =>
      have hc := hcs c List.mem_cons_self
      simp only [chars, List.cons_append]
      unfold formOf
      split <;> simp_all [isUnmarked, form]
  | quoted s =>
    obtain ⟨quote, tail, hs, rfl | rfl⟩ := Text.head_quotedChars s.toList <;>
    · rw [chars, hs]
      rfl
  | names ns =>
    cases ns with
    | nil => rfl
    | cons n ns =>
      rw [chars, toList_namesText_cons]
      rfl

/-- The text of a field ends before the next mark that is not its own. -/
theorem delimited : Delimited chars := by
  intro a b rest rest' hrest hrest' h
  have hform : a.form = b.form := by
    rw [← formOf_append a hrest, h, formOf_append b hrest']
  cases a with
  | word cs hcs =>
    cases b with
    | quoted | names => cases hform
    | word ds hds =>
      have hends : ∀ {rest}, EndsItem rest → ∀ c ∈ rest.head?, isUnmarked c = false := by
        rintro _ ⟨c, tail, rfl, rfl | rfl⟩ _ ⟨⟩ <;> rfl
      obtain ⟨rfl, htail⟩ := append_cancel_of_head hcs hds (hends hrest) (hends hrest') h
      exact ⟨rfl, htail⟩
  | quoted s =>
    cases b with
    | word | names => cases hform
    | quoted t =>
      obtain ⟨rfl, htail⟩ := delimited_quoted hrest hrest' h
      exact ⟨rfl, htail⟩
  | names ns =>
    cases b with
    | word | quoted => cases hform
    | names ms =>
      obtain ⟨rfl, htail⟩ := namesText_cancel h
      exact ⟨rfl, htail⟩

theorem newline_not_mem_chars (a : Shown) : '\n' ∉ a.chars := by
  cases a with
  | word cs hcs => exact fun h => absurd (hcs _ h) (by decide)
  | quoted s => exact Text.newline_not_mem_quotedChars _
  | names ns =>
    cases ns with
    | nil => decide
    | cons n ns =>
      have hcontinued := newline_not_mem_continued fun s : String =>
        Text.newline_not_mem_quotedChars s.toList
      rw [chars, toList_namesText_cons]
      cases ns <;> simp [namesEnd, Text.newline_not_mem_quotedChars, hcontinued]

/-! ### Numbers and truths -/

theorem isUnmarked_dump (x : Number) : ∀ c ∈ x.dump.toList, isUnmarked c = true := by
  intro c hc
  rw [isUnmarked, decide_eq_true_eq]
  intro hmark
  simp only [List.mem_cons, List.not_mem_nil, or_false] at hmark
  rcases hmark with rfl | rfl | rfl | rfl | rfl | rfl <;>
    exact absurd (x.forall_mem_dump _ hc) (by decide)

def number (x : Number) : Shown := .word x.dump.toList (isUnmarked_dump x)

def truth (b : Bool) : Shown :=
  .word (truthText b).toList (by cases b <;> simp [truthText, isUnmarked])

theorem number_injective : Function.Injective number := fun _ _ h =>
  Number.dump_injective (String.toList_injective (Shown.word.inj h))

theorem truth_injective : Function.Injective truth := by
  rintro (_ | _) (_ | _) h
  · rfl
  · simp [truth, truthText] at h
  · simp [truth, truthText] at h
  · rfl

@[simp] theorem number_inj {x y : Number} : number x = number y ↔ x = y := number_injective.eq_iff

@[simp] theorem truth_inj {a b : Bool} : truth a = truth b ↔ a = b := truth_injective.eq_iff

@[simp] theorem ofList_chars_number (x : Number) : String.ofList (number x).chars = x.dump :=
  String.ofList_toList

@[simp] theorem ofList_chars_truth (b : Bool) : String.ofList (truth b).chars = truthText b :=
  String.ofList_toList

@[simp] theorem ofList_chars_quoted (s : String) :
    String.ofList (quoted s).chars = Text.quoted s := rfl

@[simp] theorem ofList_chars_names (ns : List String) :
    String.ofList (names ns).chars = namesText ns := String.ofList_toList

end Shown

/-! ### Fields with their names -/

/-- The names of the fields of all kinds of nodes. -/
inductive FieldName
  | value | name | op | operand | left | right | args | target | index | items | condition
  | thenBody | elseBody | body | count | item | source | listName | expression | parameters
  | functions | statements
  deriving DecidableEq

def FieldName.label : FieldName → String
  | value => "value" | name => "name" | op => "op" | operand => "operand" | left => "left"
  | right => "right" | args => "args" | target => "target" | index => "index" | items => "items"
  | condition => "condition" | thenBody => "then_body" | elseBody => "else_body" | body => "body"
  | count => "count" | item => "variable" | source => "source" | listName => "list_name"
  | expression => "expression" | parameters => "parameters" | functions => "functions"
  | statements => "statements"

/-- A character of the name of a field or of a kind of nodes. -/
def isLabelChar (c : Char) : Bool := c.isAlpha || c == '_'

namespace FieldName

def all : List FieldName :=
  [value, name, op, operand, left, right, args, target, index, items, condition, thenBody, elseBody,
    body, count, item, source, listName, expression, parameters, functions, statements]

theorem mem_all (n : FieldName) : n ∈ all := by cases n <;> decide

theorem label_injective : Function.Injective label := fun m n h =>
  List.inj_on_of_nodup_map (by decide +kernel : (all.map label).Nodup) (mem_all m) (mem_all n) h

theorem isLabelChar_label (n : FieldName) : ∀ c ∈ n.label.toList, isLabelChar c = true := by
  cases n <;> simp [label] <;> decide

end FieldName

namespace NodeKind

def all : List NodeKind :=
  [numberLiteral, textLiteral, truthLiteral, name, unary, binary, call, index, listLiteral, letBe,
    setTo, say, ifThen, whileDo, repeatTimes, forEach, append, remove, giveBack, evaluate,
    declaration, program]

theorem mem_all (k : NodeKind) : k ∈ all := by cases k <;> decide

theorem label_injective : Function.Injective label := fun j k h =>
  List.inj_on_of_nodup_map (by decide +kernel : (all.map label).Nodup) (mem_all j) (mem_all k) h

theorem isLabelChar_label (k : NodeKind) : ∀ c ∈ k.label.toList, isLabelChar c = true := by
  cases k <;> simp [label] <;> decide

end NodeKind

/-- A field as it stands on a line. -/
def fieldChars (field : FieldName × Shown) : List Char :=
  field.1.label.toList ++ '=' :: field.2.chars

theorem delimited_fieldChars : Delimited fieldChars := by
  rintro ⟨n, a⟩ ⟨m, b⟩ rest rest' hrest hrest' h
  rw [fieldChars, fieldChars, List.append_assoc, List.append_assoc] at h
  obtain ⟨hlabel, htail⟩ := append_cancel_of_head n.isLabelChar_label m.isLabelChar_label
    (by rintro _ ⟨⟩; rfl) (by rintro _ ⟨⟩; rfl) h
  obtain ⟨rfl, hrests⟩ := Shown.delimited hrest hrest' (List.cons.inj htail).2
  rw [FieldName.label_injective (String.toList_injective hlabel)]
  exact ⟨rfl, hrests⟩

theorem fieldChars_append_ne (field : FieldName × Shown) (rest rest' : List Char) :
    fieldChars field ++ rest ≠ ')' :: rest' := by
  intro h
  obtain ⟨n, a⟩ := field
  have hlabel := n.isLabelChar_label
  rw [fieldChars, List.append_assoc] at h
  generalize n.label.toList = label at h hlabel
  cases label with
  | nil => cases h
  | cons c cs =>
    obtain ⟨rfl, -⟩ := List.cons.inj h
    exact absurd (hlabel ')' List.mem_cons_self) (by decide)

theorem newline_not_mem_fieldChars (field : FieldName × Shown) : '\n' ∉ fieldChars field := by
  have hlabel : '\n' ∉ field.1.label.toList := fun h =>
    absurd (field.1.isLabelChar_label _ h) (by decide)
  simp [fieldChars, hlabel, Shown.newline_not_mem_chars]

/-- The fields between the parentheses of a line. -/
def listedFields : List (FieldName × Shown) → List Char
  | [] => []
  | field :: fields => fieldChars field ++ continued fieldChars fields

/-- A list of fields tells each field, and where the list ends. -/
theorem listedFields_cancel {fields others : List (FieldName × Shown)}
    (h : listedFields fields ++ ')' :: rest = listedFields others ++ ')' :: rest') :
    fields = others ∧ rest = rest' := by
  cases fields with
  | nil => cases others with
    | nil => exact ⟨rfl, (List.cons.inj h).2⟩
    | cons other others =>
      rw [listedFields, listedFields, List.append_assoc] at h
      exact absurd h.symm (fieldChars_append_ne _ _ _)
  | cons field fields => cases others with
    | nil =>
      rw [listedFields, listedFields, List.append_assoc] at h
      exact absurd h (fieldChars_append_ne _ _ _)
    | cons other others =>
      rw [listedFields, listedFields, List.append_assoc, List.append_assoc] at h
      obtain ⟨rfl, htail⟩ :=
        delimited_fieldChars (endsItem_continued ..) (endsItem_continued ..) h
      obtain ⟨rfl, hrest⟩ := continued_cancel delimited_fieldChars htail
      exact ⟨rfl, hrest⟩

theorem newline_not_mem_listedFields (fields : List (FieldName × Shown)) :
    '\n' ∉ listedFields fields := by
  cases fields with
  | nil => exact List.not_mem_nil
  | cons field fields =>
    simp [listedFields, newline_not_mem_fieldChars,
      newline_not_mem_continued newline_not_mem_fieldChars]

end Parlance
