import Parlance.Proofs.Grammar.Neighbours
import Parlance.Proofs.Reading.Renderings
/-!
# Every plain program has a rendering

A program is plain if its names are plain and its numbers are those of plain decimals. Each plain
program can be printed, with parentheses only where a level of the grammar asks for them
(`Program.exists_renders`).
-/
namespace Parlance
open Grammar

/-! ### Plain trees -/

mutual

def Expr.Plain : Expr → Prop
  | .number x _ => ∃ cs, PlainDecimal cs ∧ x = .ofLiteral cs
  | .text _ _ => True
  | .truth _ _ => True
  | .name n _ => PlainName n.toList
  | .unary _ x _ => x.Plain
  | .binary _ l r _ => l.Plain ∧ r.Plain
  | .call f args _ => PlainName f.toList ∧ Expr.PlainAll args
  | .index t i _ => t.Plain ∧ i.Plain
  | .list items _ => Expr.PlainAll items

def Expr.PlainAll : List Expr → Prop
  | [] => True
  | e :: es => e.Plain ∧ Expr.PlainAll es

end

def Target.Plain : Target → Prop
  | .name n _ => PlainName n.toList
  | .element list i _ => PlainName list.toList ∧ i.Plain

mutual

def Stmt.Plain : Stmt → Prop
  | .letBe n v _ => PlainName n.toList ∧ v.Plain
  | .setTo t v _ => t.Plain ∧ v.Plain
  | .say v _ => v.Plain
  | .ifThen c a b _ => c.Plain ∧ Stmt.PlainAll a ∧ Stmt.PlainAll b
  | .whileDo c b _ => c.Plain ∧ Stmt.PlainAll b
  | .repeatTimes c b _ => c.Plain ∧ Stmt.PlainAll b
  | .forEach n s b _ => PlainName n.toList ∧ s.Plain ∧ Stmt.PlainAll b
  | .append v list _ => v.Plain ∧ PlainName list.toList
  | .remove v list _ => v.Plain ∧ PlainName list.toList
  | .giveBack v _ => v.Plain
  | .evaluate v _ => v.Plain

def Stmt.PlainAll : List Stmt → Prop
  | [] => True
  | s :: ss => s.Plain ∧ Stmt.PlainAll ss

end

structure Declaration.Plain (d : Declaration) : Prop where
  name : PlainName d.name.toList
  parameters : ∀ n ∈ d.parameters, PlainName n.toList
  body : Stmt.PlainAll d.body

structure Program.Plain (p : Program) : Prop where
  functions : ∀ d ∈ p.functions, d.Plain
  statements : Stmt.PlainAll p.statements

/-! ### Printed tokens -/

def Token.Writable (t : Token) : Prop := ∃ cs, Written t cs

/-- The token of a symbol. -/
def Token.sign (s : Symbol) : Token := ⟨.symbol s, s.spelling, 0⟩

/-- The token of a keyword. -/
def Token.word (k : Keyword) : Token := ⟨.keyword k, k.spelling, 0⟩

/-- The token of a name. -/
def Token.ofName (n : String) : Token := ⟨.name, n, 0⟩

theorem isSign_sign (s : Symbol) : IsSign s (.sign s) := rfl

theorem isWord_word (k : Keyword) : IsWord k (.word k) := rfl

theorem isName_ofName (n : String) : IsName (.ofName n) := rfl

@[simp] theorem Token.writable_sign (s : Symbol) : (Token.sign s).Writable := ⟨_, .sign rfl⟩

@[simp] theorem Token.writable_word (k : Keyword) : (Token.word k).Writable :=
  ⟨k.spelling.toList, .word rfl (by cases k <;> decide)⟩

theorem Token.writable_ofName {n : String} (h : PlainName n.toList) : (Token.ofName n).Writable :=
  ⟨_, .name rfl h⟩

def WritableAll (ts : List Token) : Prop := ∀ t ∈ ts, t.Writable

@[simp] theorem writableAll_nil : WritableAll [] := by simp [WritableAll]

@[simp] theorem writableAll_cons {t : Token} {ts : List Token} :
    WritableAll (t :: ts) ↔ t.Writable ∧ WritableAll ts := List.forall_mem_cons

@[simp] theorem writableAll_append {xs ys : List Token} :
    WritableAll (xs ++ ys) ↔ WritableAll xs ∧ WritableAll ys := List.forall_mem_append

/-- A tree that a rule gives to some tokens that can be written. -/
def Printable {α β : Type} (rule : Rule α) (bare : α → β) (b : β) : Prop :=
  ∃ ts a, rule ts a ∧ bare a = b ∧ WritableAll ts

section Rules

variable {α β : Type} {rule : Rule α} {bare : α → β}

theorem Printable.imp {rule' : Rule α} {b : β} (h : Printable rule bare b)
    (himp : ∀ ts a, rule ts a → rule' ts a) : Printable rule' bare b := by
  obtain ⟨ts, a, ha, hb, hts⟩ := h
  exact ⟨ts, a, himp ts a ha, hb, hts⟩

theorem many_printable {bs : List β} (h : ∀ b ∈ bs, Printable rule bare b) :
    Printable (Many rule) (List.map bare) bs := by
  induction bs with
  | nil => exact ⟨[], [], .nil, rfl, by simp⟩
  | cons b bs ih =>
    rw [List.forall_mem_cons] at h
    obtain ⟨ts, a, ha, rfl, hts⟩ := h.1
    obtain ⟨us, as, has, rfl, hus⟩ := ih h.2
    exact ⟨ts ++ us, a :: as, .cons ha has, rfl, writableAll_append.mpr ⟨hts, hus⟩⟩

theorem further_printable {b : β} (h : Printable rule bare b) :
    Printable (Further rule) bare b := by
  obtain ⟨ts, a, ha, hb, hts⟩ := h
  exact ⟨_, a, .intro (isSign_sign _) ha, hb, by simp [hts]⟩

theorem items_printable {bs : List β} (h : ∀ b ∈ bs, Printable rule bare b) :
    Printable (Items rule) (List.map bare) bs := by
  cases bs with
  | nil => exact ⟨[], [], .none, rfl, by simp⟩
  | cons b bs =>
    rw [List.forall_mem_cons] at h
    obtain ⟨ts, a, ha, rfl, hts⟩ := h.1
    obtain ⟨us, as, has, rfl, hus⟩ := many_printable fun b hb => further_printable (h.2 b hb)
    exact ⟨ts ++ us, a :: as, .some ha has, rfl, writableAll_append.mpr ⟨hts, hus⟩⟩

end Rules

/-! ### Expressions -/

/-- An expression that can be printed at every place where the grammar has expressions. -/
structure Prints (e : Expr) : Prop where
  level : ∀ n ≤ 7, Printable (Level Operand n) Expr.bare e
  operand : Printable Operand Expr.bare e
  indexed : Printable (Indexed Expression) Expr.bare e

theorem level_down {operand : Rule Expr} {m n : Nat} (hmn : m ≤ n) (hn : n ≤ 7) {ts : List Token}
    {e : Expr} (h : Level operand n ts e) : Level operand m ts e := by
  obtain ⟨k, rfl⟩ := Nat.exists_eq_add_of_le hmn
  induction k with
  | zero => exact h
  | succ k ih => exact ih (by omega) (by omega) (.tighter (by omega) h)

theorem prints_of_indexed {e : Expr} (h : Printable (Indexed Expression) Expr.bare e) :
    Prints e :=
  have hoperand := h.imp fun _ _ => Operand.plain
  ⟨fun _ hn => hoperand.imp fun _ _ ho => level_down hn (Nat.le_refl 7) (.operand ho), hoperand, h⟩

theorem prints_of_primary {e : Expr} (h : Printable (Primary Expression) Expr.bare e) : Prints e :=
  prints_of_indexed (h.imp fun _ _ => .primary)

/-- In parentheses. -/
theorem prints_of_expression {e : Expr} (h : Printable Expression Expr.bare e) : Prints e := by
  obtain ⟨ts, x, hx, hb, hts⟩ := h
  refine prints_of_primary ⟨_, x, .parens (isSign_sign _) hx (isSign_sign _), hb, ?_⟩
  simp [hts]

/-- Parentheses only at the levels that are tighter. -/
theorem prints_of_level {e : Expr} {n : Nat} (hpos : 0 < n) (hn : n ≤ 7)
    (h : Printable (Level Operand n) Expr.bare e) : Prints e := by
  -- at a tighter level than its own an expression stands in parentheses
  have hparens := prints_of_expression (h.imp fun _ _ hl => level_down hpos hn hl)
  refine ⟨fun m hm => ?_, hparens.operand, hparens.indexed⟩
  rcases Nat.lt_or_ge n m with hmn | hmn
  · exact hparens.level m hm
  · exact h.imp fun _ _ hl => level_down hmn hn hl

theorem prints_of_operand {e : Expr} (h : Printable Operand Expr.bare e) : Prints e :=
  have hlevel := prints_of_level (by omega) (Nat.le_refl 7) (h.imp fun _ _ => .operand)
  ⟨hlevel.level, h, hlevel.indexed⟩

theorem exists_unary (op : UnaryOp) : ∃ s, IsUnary op (.sign s) := by
  cases op with
  | not => exact ⟨.bang, .bang, rfl, rfl⟩
  | minus => exact ⟨.minus, .minus, rfl, rfl⟩
  | plus => exact ⟨.plus, .plus, rfl, rfl⟩

theorem exists_binary (op : BinaryOp) : ∃ s, IsBinary op (.sign s) := by
  cases op <;> first
    | exact ⟨.orOr, .orOr, rfl, rfl⟩
    | exact ⟨.andAnd, .andAnd, rfl, rfl⟩
    | exact ⟨.equalEqual, .equalEqual, rfl, rfl⟩
    | exact ⟨.bangEqual, .bangEqual, rfl, rfl⟩
    | exact ⟨.less, .less, rfl, rfl⟩
    | exact ⟨.lessEqual, .lessEqual, rfl, rfl⟩
    | exact ⟨.greater, .greater, rfl, rfl⟩
    | exact ⟨.greaterEqual, .greaterEqual, rfl, rfl⟩
    | exact ⟨.plus, .plus, rfl, rfl⟩
    | exact ⟨.minus, .minus, rfl, rfl⟩
    | exact ⟨.star, .star, rfl, rfl⟩
    | exact ⟨.slash, .slash, rfl, rfl⟩
    | exact ⟨.percent, .percent, rfl, rfl⟩

mutual

theorem expr_prints : ∀ e : Expr, e.Plain → Prints e.bare
  | .number x _, h => by
    obtain ⟨cs, hcs, rfl⟩ := h
    have hnumber : PlainDecimal (String.ofList cs).toList := by rwa [String.toList_ofList]
    refine prints_of_primary ⟨[⟨.number, String.ofList cs, 0⟩], _, .number rfl, ?_, ?_⟩
    · rw [String.toList_ofList]
      rfl
    · simpa using ⟨_, .number rfl hnumber⟩
  | .text s _, _ => by
    refine prints_of_primary ⟨[⟨.string, s, 0⟩], _, .text rfl, rfl, ?_⟩
    simpa using ⟨_, .string rfl⟩
  | .truth true _, _ =>
    prints_of_primary ⟨[.word .trueWord], _, .yes rfl, rfl, by simp⟩
  | .truth false _, _ =>
    prints_of_primary ⟨[.word .falseWord], _, .no rfl, rfl, by simp⟩
  | .name n _, h => by
    refine prints_of_primary ⟨[.ofName n], _, .name rfl, rfl, ?_⟩
    simpa using Token.writable_ofName h
  | .unary op x _, h => by
    obtain ⟨s, hs⟩ := exists_unary op
    obtain ⟨ts, x', hx, hb, hts⟩ := (expr_prints x h).operand
    refine prints_of_operand ⟨_, _, .unary hs hx, ?_, by simp [hts]⟩
    rw [Expr.bare, Expr.bare, hb]
  | .binary op l r _, h => by
    obtain ⟨s, hs⟩ := exists_binary op
    have hlevels := op.precedence_le_levels
    unfold BinaryOp.levels at hlevels
    obtain ⟨ls, l', hl, hlb, hls⟩ := (expr_prints l h.1).level op.precedence (by omega)
    obtain ⟨rs, r', hr, hrb, hrs⟩ := (expr_prints r h.2).level (op.precedence + 1) (by omega)
    refine prints_of_level op.precedence_pos (by omega)
      ⟨_, _, .binary (mem_operators.mpr rfl) hs hl hr, ?_, ?_⟩
    · rw [Expr.bare, Expr.bare, hlb, hrb]
    · simp [hls, hrs]
  | .call f args _, h => by
    obtain ⟨ts, as, has, hb, hts⟩ := items_printable fun b hb => (exprs_print args h.2 b hb).level 1
      (by omega)
    refine prints_of_primary ⟨_, _, .call (isName_ofName f) (isSign_sign _) has (isSign_sign _),
      ?_, ?_⟩
    · rw [Expr.bare, Expr.bare, Expr.bareAll_eq_map, Expr.bareAll_eq_map, hb]
      rfl
    · have hname := Token.writable_ofName h.1
      simp [hname, hts]
  | .index t i _, h => by
    obtain ⟨ts, t', ht, htb, hts⟩ := (expr_prints t h.1).indexed
    obtain ⟨is, i', hi, hib, his⟩ := (expr_prints i h.2).level 1 (by omega)
    refine prints_of_indexed ⟨_, _, .index ht (isSign_sign _) hi (isSign_sign _), ?_, ?_⟩
    · rw [Expr.bare, Expr.bare, htb, hib]
    · simp [hts, his]
  | .list items _, h => by
    obtain ⟨ts, as, has, hb, hts⟩ := items_printable fun b hb => (exprs_print items h b hb).level 1
      (by omega)
    refine prints_of_primary ⟨_, _, .list (isSign_sign _) has (isSign_sign _), ?_, ?_⟩
    · rw [Expr.bare, Expr.bare, Expr.bareAll_eq_map, Expr.bareAll_eq_map, hb]
    · simp [hts]

theorem exprs_print : ∀ es : List Expr, Expr.PlainAll es → ∀ b ∈ es.map Expr.bare, Prints b
  | [], _ => by simp
  | e :: es, h => by
    rw [List.map_cons, List.forall_mem_cons]
    exact ⟨expr_prints e h.1, exprs_print es h.2⟩

end

theorem expression_printable {e : Expr} (h : e.Plain) : Printable Expression Expr.bare e.bare :=
  (expr_prints e h).level 1 (by omega)

/-! ### Statements -/

theorem assignable_printable {g : Target} (h : g.Plain) :
    Printable Assignable Target.bare g.bare := by
  cases g with
  | name n o =>
    refine ⟨[.ofName n], _, .name rfl, rfl, ?_⟩
    simpa using Token.writable_ofName h
  | element list i o =>
    obtain ⟨ts, i', hi, hb, hts⟩ := expression_printable h.2
    have hname := Token.writable_ofName h.1
    refine ⟨_, _, .element (isName_ofName list) (isSign_sign _) hi (isSign_sign _), ?_, ?_⟩
    · rw [Target.bare, Target.bare, hb]
      rfl
    · simp [hname, hts]

/-- The end of a block without an echo. -/
theorem exists_close (ks : List Keyword) : ∃ ts, Close ks ts ∧ WritableAll ts := by
  have hecho : Echo ks [] := by
    induction ks with
    | nil => exact .nil
    | cons k ks ih => exact .cons .absent ih
  exact ⟨_, .intro (isWord_word _) hecho (isSign_sign _), by simp⟩

section Statements

variable {v : Expr} {n list : String} {b : List Stmt} {o : Nat}

theorem letBe_printable (hn : PlainName n.toList) (hv : v.Plain) :
    Printable Statement Stmt.bare (Stmt.letBe n v o).bare := by
  obtain ⟨ts, v', hv, hvb, hts⟩ := expression_printable hv
  have hname := Token.writable_ofName hn
  refine ⟨_, _, .opened (.letBe (isWord_word _) (isName_ofName n) (isWord_word _) hv
    (isSign_sign _)), ?_, ?_⟩
  · rw [Stmt.bare, Stmt.bare, hvb]
    rfl
  · simp [hname, hts]

theorem setTo_printable {g : Target} (hg : g.Plain) (hv : v.Plain) :
    Printable Statement Stmt.bare (Stmt.setTo g v o).bare := by
  obtain ⟨gs, g', hg, hgb, hgs⟩ := assignable_printable hg
  obtain ⟨ts, v', hv, hvb, hts⟩ := expression_printable hv
  refine ⟨_, _, .opened (.setTo (isWord_word _) hg (isWord_word _) hv (isSign_sign _)), ?_, ?_⟩
  · rw [Stmt.bare, Stmt.bare, hgb, hvb]
  · simp [hgs, hts]

theorem say_printable (hv : v.Plain) : Printable Statement Stmt.bare (Stmt.say v o).bare := by
  obtain ⟨ts, v', hv, hvb, hts⟩ := expression_printable hv
  refine ⟨_, _, .opened (.say (isWord_word _) hv (isSign_sign _)), ?_, ?_⟩
  · rw [Stmt.bare, Stmt.bare, hvb]
  · simp [hts]

theorem giveBack_printable (hv : v.Plain) :
    Printable Statement Stmt.bare (Stmt.giveBack v o).bare := by
  obtain ⟨ts, v', hv, hvb, hts⟩ := expression_printable hv
  refine ⟨_, _, .opened (.giveBack (isWord_word _) hv (isSign_sign _)), ?_, ?_⟩
  · rw [Stmt.bare, Stmt.bare, hvb]
  · simp [hts]

theorem evaluate_printable (hv : v.Plain) :
    Printable Statement Stmt.bare (Stmt.evaluate v o).bare := by
  obtain ⟨ts, v', hv, hvb, hts⟩ := expression_printable hv
  obtain ⟨t, ts, rfl⟩ := List.exists_cons_of_ne_nil (Parse.expression_starts hv).ne_nil
  refine ⟨_, _, .evaluate hv (isSign_sign _), ?_, ?_⟩
  · rw [Stmt.bare, Stmt.bare, hvb]
  · rw [writableAll_cons] at hts
    simp [hts]

theorem append_printable (hv : v.Plain) (hn : PlainName list.toList) :
    Printable Statement Stmt.bare (Stmt.append v list o).bare := by
  obtain ⟨ts, v', hv, hvb, hts⟩ := expression_printable hv
  have hname := Token.writable_ofName hn
  refine ⟨_, _, .opened (.append (isWord_word _) hv (isWord_word _) (isName_ofName list)
    (isSign_sign _)), ?_, ?_⟩
  · rw [Stmt.bare, Stmt.bare, hvb]
    rfl
  · simp [hname, hts]

theorem remove_printable (hv : v.Plain) (hn : PlainName list.toList) :
    Printable Statement Stmt.bare (Stmt.remove v list o).bare := by
  obtain ⟨ts, v', hv, hvb, hts⟩ := expression_printable hv
  have hname := Token.writable_ofName hn
  refine ⟨_, _, .opened (.remove (isWord_word _) hv (isWord_word _) (isName_ofName list)
    (isSign_sign _)), ?_, ?_⟩
  · rw [Stmt.bare, Stmt.bare, hvb]
    rfl
  · simp [hname, hts]

end Statements

/-- A block as the blocks around it see it. -/
abbrev Block (b : List Stmt) : Prop :=
  Printable (Many Statement) (List.map Stmt.bare) (b.map Stmt.bare)

section Blocks

variable {c : Expr} {a b : List Stmt} {o : Nat}

theorem ifThen_printable (hc : c.Plain) (ha : Block a) (hb : Block b) :
    Printable Statement Stmt.bare (Stmt.ifThen c a b o).bare := by
  obtain ⟨cs, c', hc, hcb, hcs⟩ := expression_printable hc
  obtain ⟨as, a', ha, hab, has⟩ := ha
  obtain ⟨bs, b', hb, hbb, hbs⟩ := hb
  obtain ⟨close, hclose, hcloses⟩ := exists_close [.ifWord]
  refine ⟨_, _, .opened (.ifThen (isWord_word _) hc .absent .absent (isSign_sign _) ha
    (.present (isWord_word _) (isSign_sign _) hb) hclose), ?_, ?_⟩
  · rw [Stmt.bare, Stmt.bare, hcb]
    simp only [Stmt.bareAll_eq_map, hab, hbb]
  · simp [hcs, has, hbs, hcloses]

theorem whileDo_printable (hc : c.Plain) (hb : Block b) :
    Printable Statement Stmt.bare (Stmt.whileDo c b o).bare := by
  obtain ⟨cs, c', hc, hcb, hcs⟩ := expression_printable hc
  obtain ⟨bs, b', hb, hbb, hbs⟩ := hb
  obtain ⟨close, hclose, hcloses⟩ := exists_close [.whileWord]
  refine ⟨_, _, .opened (.whileDo (isWord_word _) hc .absent .absent (isSign_sign _) hb hclose),
    ?_, ?_⟩
  · rw [Stmt.bare, Stmt.bare, hcb]
    simp only [Stmt.bareAll_eq_map, hbb]
  · simp [hcs, hbs, hcloses]

theorem repeatTimes_printable (hc : c.Plain) (hb : Block b) :
    Printable Statement Stmt.bare (Stmt.repeatTimes c b o).bare := by
  obtain ⟨cs, c', hc, hcb, hcs⟩ := expression_printable hc
  obtain ⟨bs, b', hb, hbb, hbs⟩ := hb
  obtain ⟨close, hclose, hcloses⟩ := exists_close [.repeatWord]
  refine ⟨_, _, .opened (.repeatTimes (isWord_word _) hc (isWord_word _) (isSign_sign _) hb hclose),
    ?_, ?_⟩
  · rw [Stmt.bare, Stmt.bare, hcb]
    simp only [Stmt.bareAll_eq_map, hbb]
  · simp [hcs, hbs, hcloses]

theorem forEach_printable {n : String} (hn : PlainName n.toList) (hc : c.Plain) (hb : Block b) :
    Printable Statement Stmt.bare (Stmt.forEach n c b o).bare := by
  obtain ⟨cs, c', hc, hcb, hcs⟩ := expression_printable hc
  obtain ⟨bs, b', hb, hbb, hbs⟩ := hb
  obtain ⟨close, hclose, hcloses⟩ := exists_close [.forWord, .eachWord]
  have hname := Token.writable_ofName hn
  refine ⟨_, _, .opened (.forEach (isWord_word _) (isWord_word _) (isName_ofName n) (isWord_word _) hc
    (isSign_sign _) hb hclose), ?_, ?_⟩
  · rw [Stmt.bare, Stmt.bare, hcb]
    simp only [Stmt.bareAll_eq_map, hbb]
    rfl
  · simp [hname, hcs, hbs, hcloses]

end Blocks

mutual

theorem statement_printable :
    ∀ s : Stmt, s.Plain → Printable Statement Stmt.bare s.bare
  | .letBe _ _ _, h => letBe_printable h.1 h.2
  | .setTo _ _ _, h => setTo_printable h.1 h.2
  | .say _ _, h => say_printable h
  | .ifThen _ a b _, h =>
    ifThen_printable h.1 (many_printable (statements_printable a h.2.1))
      (many_printable (statements_printable b h.2.2))
  | .whileDo _ b _, h => whileDo_printable h.1 (many_printable (statements_printable b h.2))
  | .repeatTimes _ b _, h => repeatTimes_printable h.1 (many_printable (statements_printable b h.2))
  | .forEach _ _ b _, h =>
    forEach_printable h.1 h.2.1 (many_printable (statements_printable b h.2.2))
  | .append _ _ _, h => append_printable h.1 h.2
  | .remove _ _ _, h => remove_printable h.1 h.2
  | .giveBack _ _, h => giveBack_printable h
  | .evaluate _ _, h => evaluate_printable h

theorem statements_printable :
    ∀ ss : List Stmt, Stmt.PlainAll ss → ∀ b ∈ ss.map Stmt.bare, Printable Statement Stmt.bare b
  | [], _ => by simp
  | s :: ss, h => by
    rw [List.map_cons, List.forall_mem_cons]
    exact ⟨statement_printable s h.1, statements_printable ss h.2⟩

end

/-! ### Programs -/

theorem function_printable {d : Declaration} (h : d.Plain) :
    Printable Function Declaration.bare d.bare := by
  have hparameter : ∀ n ∈ d.parameters, Printable Parameter id n := by
    intro n hn
    refine ⟨[.ofName n], n, .intro rfl, rfl, ?_⟩
    simpa using Token.writable_ofName (h.parameters n hn)
  obtain ⟨ps, names, hnames, hnb, hps⟩ := items_printable hparameter
  obtain ⟨bs, b, hb, hbb, hbs⟩ := many_printable (statements_printable d.body h.body)
  have hname := Token.writable_ofName h.name
  refine ⟨_, _, .intro (isWord_word _) (isName_ofName d.name) (isSign_sign _) hnames (isSign_sign _)
    (isSign_sign _) hb (isWord_word _) (isSign_sign _), ?_, ?_⟩
  · rw [List.map_id] at hnb
    unfold Declaration.bare
    simp only [Stmt.bareAll_eq_map, hnb, hbb]
    rfl
  · simp [hname, hps, hbs]

theorem source_printable {p : Program} (h : p.Plain) :
    Printable Grammar.Source Program.bare p.bare := by
  obtain ⟨functions, statements⟩ := p
  obtain ⟨hfunctions, hstatements⟩ := h
  induction functions with
  | nil =>
    induction statements with
    | nil => exact ⟨[], _, .nil, rfl, by simp⟩
    | cons s statements ih =>
      obtain ⟨ts, s', hs, hsb, hts⟩ := statement_printable s hstatements.1
      obtain ⟨us, p', hp, hpb, hus⟩ := ih hfunctions hstatements.2
      refine ⟨_, _, .statement hs hp, ?_, by simp [hts, hus]⟩
      unfold Program.bare at hpb ⊢
      rw [Program.mk.injEq] at hpb ⊢
      rw [Stmt.bareAll, Stmt.bareAll, hsb, hpb.2]
      exact ⟨hpb.1, rfl⟩
  | cons d functions ih =>
    rw [List.forall_mem_cons] at hfunctions
    obtain ⟨ts, d', hd, hdb, hts⟩ := function_printable hfunctions.1
    obtain ⟨us, p', hp, hpb, hus⟩ := ih hfunctions.2 hstatements
    refine ⟨_, _, .function hd hp, ?_, by simp [hts, hus]⟩
    unfold Program.bare at hpb ⊢
    rw [Program.mk.injEq] at hpb ⊢
    rw [List.map_cons, List.map_cons, hdb, hpb.1]
    exact ⟨rfl, hpb.2⟩

theorem exists_pieces {ts : List Token} (h : WritableAll ts) :
    ∃ xs : List Piece, xs.map Piece.token = ts ∧
      ∀ x ∈ xs, Spelled x.token x.spelling ∧ x.gap = [' '] := by
  induction ts with
  | nil => exact ⟨[], rfl, by simp⟩
  | cons t ts ih =>
    rw [writableAll_cons] at h
    obtain ⟨cs, hcs⟩ := h.1
    obtain ⟨xs, rfl, hxs⟩ := ih h.2
    exact ⟨⟨t, cs, [' ']⟩ :: xs, rfl, List.forall_mem_cons.mpr ⟨⟨.written hcs, rfl⟩, hxs⟩⟩

/-- A plain program has a rendering that is read. -/
theorem Program.exists_renders {p : Program} (h : p.Plain) :
    ∃ xs, Renders p [] xs ∧ ∀ x ∈ xs, x.Plain := by
  obtain ⟨ts, q, hq, hb, hts⟩ := source_printable h
  obtain ⟨xs, rfl, hxs⟩ := exists_pieces hts
  have hgap : ∀ x ∈ xs, ∀ c ∈ x.gap, c = ' ' := by
    intro x hx c hc
    rwa [(hxs x hx).2, List.mem_singleton] at hc
  refine ⟨xs, ⟨⟨q, hq, hb⟩, by simp, fun x hx => (hxs x hx).1, ?_, ?_⟩, ?_⟩
  · intro x hx c hc
    rw [hgap x hx c hc]
    decide
  · refine List.Pairwise.isChain (List.pairwise_of_forall_mem_list fun x hx _ _ => ?_)
    rw [(hxs x hx).2]
    exact List.cons_ne_nil _ _
  · intro x hx _ c hc
    rw [hgap x hx c hc]
    rfl

/-- Parsing undoes printing. -/
theorem Program.exists_source {p : Program} (h : p.Plain) : ∃ (source : List Char) (limit : Nat),
    ∀ nesting, limit < nesting →
      ∃ q, Source.program nesting source = .ok q ∧ q.bare = p.bare := by
  obtain ⟨xs, hrenders, hplain⟩ := p.exists_renders h
  exact ⟨_, xs.length, fun nesting hn => hrenders.program_of_plain hn hplain⟩

end Parlance
