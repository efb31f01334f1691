import Mathlib.Data.List.Chain
import Parlance.Proofs.Grammar.Induction
import Parlance.Proofs.Grammar.Statements
/-!
# Neighbours

What the grammar says of two tokens side by side: after an operator an expression starts, and after
the word before a counted block comes a colon (`source_settled`).
-/
namespace Parlance.Grammar
open Parse (startsExpression Starts)

def isOperator (s : Symbol) : Bool := (BinaryOp.ofSymbol? s).isSome || (UnaryOp.ofSymbol? s).isSome

/-- Anything may follow a token of the kind. -/
def quiet : TokenKind → Bool
  | .symbol s => !isOperator s
  | .keyword k => k != .timesWord
  | .number | .string | .name => true

/-- A token of one kind may stand before one of another kind. -/
def mayPrecede (k k' : TokenKind) : Bool :=
  quiet k || match k with
    | .keyword _ => k' == .symbol .colon
    | _ => startsExpression k'

/-- Neighbours fit, and anything may follow the last token. -/
def Settled (ts : List Token) : Prop :=
  ts.IsChain (fun t u => mayPrecede t.kind u.kind = true) ∧ ∀ t ∈ ts.getLast?, quiet t.kind = true

theorem quiet_sign {s : Symbol} {t : Token} (h : IsSign s t) (hs : isOperator s = false) :
    quiet t.kind = true := by
  have h : t.kind = .symbol s := h
  simp [h, quiet, hs]

theorem quiet_word {k : Keyword} {t : Token} (h : IsWord k t) (hk : k ≠ .timesWord) :
    quiet t.kind = true := by
  have h : t.kind = .keyword k := h
  simp [h, quiet, hk]

theorem quiet_name {t : Token} (h : IsName t) : quiet t.kind = true := by
  have h : t.kind = .name := h
  rw [h]
  rfl

theorem settled_nil : Settled [] := ⟨.nil, by simp⟩

theorem settled_singleton {t : Token} (h : quiet t.kind = true) : Settled [t] :=
  ⟨.singleton t, by simpa using h⟩

theorem settled_append {xs ys : List Token} (hx : Settled xs) (hy : Settled ys) :
    Settled (xs ++ ys) := by
  refine ⟨List.isChain_append.mpr ⟨hx.1, hy.1, ?_⟩, ?_⟩
  · intro t ht u _
    unfold mayPrecede
    rw [hx.2 t ht, Bool.true_or]
  · intro t ht
    rw [List.getLast?_append] at ht
    cases hlast : ys.getLast? with
    | none =>
      rw [hlast] at ht
      exact hx.2 t ht
    | some u =>
      rw [hlast] at ht
      exact hy.2 t (hlast ▸ ht)

theorem settled_cons {t : Token} {ts : List Token} (h : quiet t.kind = true) (hs : Settled ts) :
    Settled (t :: ts) := settled_append (settled_singleton h) hs

/-- A token before one that may follow it. -/
theorem settled_cons_cons {t u : Token} {ts : List Token} (h : mayPrecede t.kind u.kind = true)
    (hs : Settled (u :: ts)) : Settled (t :: u :: ts) := by
  refine ⟨List.isChain_cons_cons.mpr ⟨h, hs.1⟩, ?_⟩
  rw [List.getLast?_cons_cons]
  exact hs.2

/-! ### Expressions -/

/-- The tokens of an expression: neighbours fit, and the first one starts an expression. -/
def Stands (ts : List Token) (_ : Expr) : Prop := Settled ts ∧ Starts startsExpression ts

/-- An operator before an expression. -/
theorem settled_operator {t : Token} {ts : List Token} {e : Expr} {s : Symbol} (ht : IsSign s t)
    (h : Stands ts e) : Settled (t :: ts) := by
  obtain ⟨hs, k, hk, hstart⟩ := h
  cases ts with
  | nil => simp [Parse.kindAt] at hk
  | cons u ts =>
    have hu : u.kind = k := by simpa [Parse.kindAt] using hk
    have ht : t.kind = .symbol s := ht
    refine settled_cons_cons ?_ hs
    simp [mayPrecede, ht, hu, hstart]

section Expressions

variable {E O : Rule Expr}

theorem many_settled {α : Type} {item : Rule α} (h : ∀ ts a, item ts a → Settled ts)
    {ts : List Token} {as : List α} (hm : Many item ts as) : Settled ts := by
  induction hm with
  | nil => exact settled_nil
  | cons ha _ ih => exact settled_append (h _ _ ha) ih

theorem further_settled {α : Type} {item : Rule α} (h : ∀ ts a, item ts a → Settled ts)
    (ts : List Token) (a : α) (hf : Further item ts a) : Settled ts := by
  cases hf with
  | intro hc ha => exact settled_cons (quiet_sign hc rfl) (h _ _ ha)

theorem items_settled {α : Type} {item : Rule α} (h : ∀ ts a, item ts a → Settled ts)
    {ts : List Token} {as : List α} (hi : Items item ts as) : Settled ts := by
  cases hi with
  | none => exact settled_nil
  | some ha hrest => exact settled_append (h _ _ ha) (many_settled (further_settled h) hrest)

theorem primary_settled (h : ∀ ts e, E ts e → Settled ts) {ts : List Token} {e : Expr}
    (hp : Primary E ts e) : Settled ts := by
  cases hp with
  | number ht =>
    refine settled_singleton ?_
    rw [ht]
    rfl
  | text ht =>
    refine settled_singleton ?_
    rw [ht]
    rfl
  | yes ht | no ht => exact settled_singleton (quiet_word ht (by decide))
  | name ht => exact settled_singleton (quiet_name ht)
  | call hf ho hargs hc =>
    have hopen := settled_cons (quiet_sign ho rfl) (items_settled h hargs)
    have hclose := settled_singleton (quiet_sign hc rfl)
    exact settled_append (settled_cons (quiet_name hf) hopen) hclose
  | list ho hitems hc =>
    have hclose := settled_singleton (quiet_sign hc rfl)
    exact settled_append (settled_cons (quiet_sign ho rfl) (items_settled h hitems)) hclose
  | parens ho he hc =>
    have hclose := settled_singleton (quiet_sign hc rfl)
    exact settled_append (settled_cons (quiet_sign ho rfl) (h _ _ he)) hclose

theorem indexed_settled (h : ∀ ts e, E ts e → Settled ts) {ts : List Token} {e : Expr}
    (hi : Indexed E ts e) : Settled ts := by
  induction hi with
  | primary hp => exact primary_settled h hp
  | index _ ho hi hc ih =>
    have hopen := settled_append ih (settled_cons (quiet_sign ho rfl) (h _ _ hi))
    exact settled_append hopen (settled_singleton (quiet_sign hc rfl))

theorem level_stands {n : Nat} {ts : List Token} {e : Expr} (h : Level Stands n ts e) :
    Stands ts e := by
  induction h with
  | operand hx => exact hx
  | tighter _ _ ih => exact ih
  | binary _ ht _ _ ihl ihr =>
    obtain ⟨s, hs, _⟩ := ht
    exact ⟨settled_append ihl.1 (settled_operator hs ihr), ihl.2.append _⟩

end Expressions

theorem operand_stands {ts : List Token} {e : Expr} (h : Operand ts e) : Stands ts e := by
  refine operand_induction ?_ ?_ h
  · intro op t ts x ht hx
    have hop := Parse.isUnary_iff.mp ht
    obtain ⟨s, hs, _⟩ := ht
    exact ⟨settled_operator hs hx, Parse.starts_cons rfl (by simp [startsExpression, hop]) _⟩
  · intro ts e hi
    have hstarts : Starts startsExpression ts :=
      (Parse.indexed_starts hi).mono fun k hk => by simp [startsExpression, hk]
    exact ⟨indexed_settled (fun _ _ hl => (level_stands hl).1) hi, hstarts⟩

theorem expression_settled {ts : List Token} {e : Expr} (h : Expression ts e) : Settled ts :=
  (level_stands (level_mono (fun _ _ => operand_stands) h)).1

/-! ### Statements -/

theorem assignable_settled {ts : List Token} {g : Target} (h : Assignable ts g) : Settled ts := by
  cases h with
  | name ht => exact settled_singleton (quiet_name ht)
  | element ht ho hi hc =>
    have hopen := settled_cons (quiet_sign ho rfl) (expression_settled hi)
    exact settled_append (settled_cons (quiet_name ht) hopen) (settled_singleton (quiet_sign hc rfl))

theorem optional_settled {k : TokenKind} {ts : List Token} (h : Optional k ts)
    (hk : quiet k = true) : Settled ts := by
  cases h with
  | absent => exact settled_nil
  | present ht => exact settled_singleton (by rw [ht, hk])

theorem echo_settled {ks : List Keyword} {ts : List Token} (h : Echo ks ts)
    (hks : .timesWord ∉ ks) : Settled ts := by
  induction h with
  | nil => exact settled_nil
  | cons ho _ ih =>
    simp only [List.mem_cons, not_or] at hks
    exact settled_append (optional_settled ho (by simpa [quiet] using Ne.symm hks.1)) (ih hks.2)

theorem close_settled {ks : List Keyword} {ts : List Token} (h : Close ks ts)
    (hks : .timesWord ∉ ks) : Settled ts := by
  cases h with
  | intro he hecho hd =>
    have hend := settled_cons (quiet_word he (by decide)) (echo_settled hecho hks)
    exact settled_append hend (settled_singleton (quiet_sign hd rfl))

section Statements

variable {S : Rule Stmt}

theorem otherwise_settled (h : ∀ ts s, S ts s → Settled ts) {ts : List Token} {ss : List Stmt}
    (ho : Otherwise S ts ss) : Settled ts := by
  cases ho with
  | absent => exact settled_nil
  | present hw hc hss =>
    have hblock := settled_cons (quiet_sign hc rfl) (many_settled h hss)
    exact settled_cons (quiet_word hw (by decide)) hblock

/-- A keyword, an expression and the point at the end of a statement. -/
theorem valued_settled {k d : Token} {w : Keyword} {ts : List Token} {v : Expr} (hk : IsWord w k)
    (hw : w ≠ .timesWord) (hv : Expression ts v) (hd : IsSign .dot d) : Settled (k :: ts ++ [d]) :=
  settled_append (settled_cons (quiet_word hk hw) (expression_settled hv))
    (settled_singleton (quiet_sign hd rfl))

theorem assigned_settled {k w d : Token} {kw ww : Keyword} {gs ts : List Token} {g : Target}
    {v : Expr} (hk : IsWord kw k) (hkw : kw ≠ .timesWord) (hg : Assignable gs g)
    (hw : IsWord ww w) (hww : ww ≠ .timesWord) (hv : Expression ts v) (hd : IsSign .dot d) :
    Settled (k :: gs ++ w :: ts ++ [d]) := by
  have hgoal := settled_cons (quiet_word hk hkw) (assignable_settled hg)
  have hvalue := settled_cons (quiet_word hw hww) (expression_settled hv)
  exact settled_append (settled_append hgoal hvalue) (settled_singleton (quiet_sign hd rfl))

theorem aimed_settled {k w n d : Token} {kw ww : Keyword} {ts : List Token} {v : Expr}
    (hk : IsWord kw k) (hkw : kw ≠ .timesWord) (hv : Expression ts v) (hw : IsWord ww w)
    (hww : ww ≠ .timesWord) (hn : IsName n) (hd : IsSign .dot d) :
    Settled (k :: ts ++ [w, n, d]) := by
  have hlist := settled_cons (quiet_name hn) (settled_singleton (quiet_sign hd rfl))
  have hvalue := settled_cons (quiet_word hk hkw) (expression_settled hv)
  exact settled_append hvalue (settled_cons (quiet_word hw hww) hlist)

theorem opened_settled (h : ∀ ts s, S ts s → Settled ts) {k : Keyword} {ts : List Token}
    {s : Stmt} (ho : Opened S k ts s) : Settled ts := by
  cases ho with
  | letBe hk hn hb hv hd =>
    have hvalue := settled_cons (quiet_word hb (by decide)) (expression_settled hv)
    have hname := settled_cons (quiet_name hn) hvalue
    exact settled_append (settled_cons (quiet_word hk (by decide)) hname)
      (settled_singleton (quiet_sign hd rfl))
  | setTo hk hg hw hv hd => exact assigned_settled hk (by decide) hg hw (by decide) hv hd
  | increase hk hg hw hv hd => exact assigned_settled hk (by decide) hg hw (by decide) hv hd
  | decrease hk hg hw hv hd => exact assigned_settled hk (by decide) hg hw (by decide) hv hd
  | say hk hv hd => exact valued_settled hk (by decide) hv hd
  | giveBack hk hv hd => exact valued_settled hk (by decide) hv hd
  | append hk hv hw hn hd => exact aimed_settled hk (by decide) hv hw (by decide) hn hd
  | remove hk hv hw hn hd => exact aimed_settled hk (by decide) hv hw (by decide) hn hd
  | ifThen hk hc hcommas hthens hcolon ha hb hclose =>
    have hcond := settled_cons (quiet_word hk (by decide)) (expression_settled hc)
    have hcomma := settled_append hcond (optional_settled hcommas rfl)
    have hhead := settled_append hcomma (optional_settled hthens rfl)
    have hthen := settled_cons (quiet_sign hcolon rfl) (many_settled h ha)
    have hbranches := settled_append (settled_append hhead hthen) (otherwise_settled h hb)
    exact settled_append hbranches (close_settled hclose (by decide))
  | whileDo hk hc hcommas hdos hcolon hb hclose =>
    have hcond := settled_cons (quiet_word hk (by decide)) (expression_settled hc)
    have hcomma := settled_append hcond (optional_settled hcommas rfl)
    have hhead := settled_append hcomma (optional_settled hdos rfl)
    have hbody := settled_cons (quiet_sign hcolon rfl) (many_settled h hb)
    exact settled_append (settled_append hhead hbody) (close_settled hclose (by decide))
  | repeatTimes hk hc hw hcolon hb hclose =>
    have hcount := settled_cons (quiet_word hk (by decide)) (expression_settled hc)
    have hbody := settled_cons (quiet_sign hcolon rfl) (many_settled h hb)
    have htimes := settled_cons_cons (by rw [hw, hcolon]; rfl) hbody
    exact settled_append (settled_append hcount htimes) (close_settled hclose (by decide))
  | forEach hk he hn hi hs hcolon hb hclose =>
    have hsource := settled_cons (quiet_word hi (by decide)) (expression_settled hs)
    have heach := settled_cons (quiet_word he (by decide)) (settled_cons (quiet_name hn) hsource)
    have hhead := settled_cons (quiet_word hk (by decide)) heach
    have hbody := settled_cons (quiet_sign hcolon rfl) (many_settled h hb)
    exact settled_append (settled_append hhead hbody) (close_settled hclose (by decide))

end Statements

theorem statement_settled {ts : List Token} {s : Stmt} (h : Statement ts s) : Settled ts := by
  refine statement_induction (P := fun ts _ => Settled ts) ?_ ?_ h
  · intro k ts s ho
    exact opened_settled (fun _ _ hs => hs) ho
  · intro t d ts v hv hd
    exact settled_append (expression_settled hv) (settled_singleton (quiet_sign hd rfl))

/-! ### Programs -/

theorem function_settled {ts : List Token} {d : Declaration} (h : Function ts d) :
    Settled ts := by
  have hparameter : ∀ ts name, Parameter ts name → Settled ts := by
    rintro _ _ ⟨ht⟩
    exact settled_singleton (quiet_name ht)
  cases h with
  | intro hw hn ho hps hc hcolon hbs he hd =>
    have hopen := settled_cons (quiet_sign ho rfl) (items_settled hparameter hps)
    have hhead := settled_cons (quiet_word hw (by decide)) (settled_cons (quiet_name hn) hopen)
    have hbody := settled_cons (quiet_sign hcolon rfl)
      (many_settled (fun _ _ => statement_settled) hbs)
    have hend := settled_cons (quiet_word he (by decide)) (settled_singleton (quiet_sign hd rfl))
    exact settled_append (settled_append hhead (settled_cons (quiet_sign hc rfl) hbody)) hend

theorem source_settled {ts : List Token} {p : Program} (h : Source ts p) : Settled ts := by
  induction h with
  | nil => exact settled_nil
  | function hd _ ih => exact settled_append (function_settled hd) ih
  | statement hs _ ih => exact settled_append (statement_settled hs) ih

end Parlance.Grammar
