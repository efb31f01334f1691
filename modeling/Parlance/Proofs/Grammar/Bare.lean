import Mathlib.Data.List.Forall2
import Parlance.Proofs.Grammar.Induction
/-!
# Offsets aside

A tree without its offsets depends on the kinds of the tokens and on the texts of names, numbers and
literals only: tokens that agree in these have, for each derivation, another one whose tree differs
in offsets at most (`source_copied`).
-/
namespace Parlance

/-! ### Trees without offsets -/

mutual

def Expr.bare : Expr → Expr
  | .number x _ => .number x 0
  | .text s _ => .text s 0
  | .truth b _ => .truth b 0
  | .name n _ => .name n 0
  | .unary op x _ => .unary op x.bare 0
  | .binary op l r _ => .binary op l.bare r.bare 0
  | .call f args _ => .call f (Expr.bareAll args) 0
  | .index t i _ => .index t.bare i.bare 0
  | .list items _ => .list (Expr.bareAll items) 0

def Expr.bareAll : List Expr → List Expr
  | [] => []
  | e :: es => e.bare :: Expr.bareAll es

end

def Target.bare : Target → Target
  | .name n _ => .name n 0
  | .element list i _ => .element list i.bare 0

mutual

def Stmt.bare : Stmt → Stmt
  | .letBe n v _ => .letBe n v.bare 0
  | .setTo t v _ => .setTo t.bare v.bare 0
  | .say v _ => .say v.bare 0
  | .ifThen c a b _ => .ifThen c.bare (Stmt.bareAll a) (Stmt.bareAll b) 0
  | .whileDo c b _ => .whileDo c.bare (Stmt.bareAll b) 0
  | .repeatTimes c b _ => .repeatTimes c.bare (Stmt.bareAll b) 0
  | .forEach n s b _ => .forEach n s.bare (Stmt.bareAll b) 0
  | .append v list _ => .append v.bare list 0
  | .remove v list _ => .remove v.bare list 0
  | .giveBack v _ => .giveBack v.bare 0
  | .evaluate v _ => .evaluate v.bare 0

def Stmt.bareAll : List Stmt → List Stmt
  | [] => []
  | s :: ss => s.bare :: Stmt.bareAll ss

end

def Declaration.bare (d : Declaration) : Declaration :=
  ⟨d.name, d.parameters, Stmt.bareAll d.body, 0⟩

def Program.bare (p : Program) : Program :=
  ⟨p.functions.map Declaration.bare, Stmt.bareAll p.statements⟩

theorem Expr.bareAll_eq_map (es : List Expr) : Expr.bareAll es = es.map Expr.bare := by
  induction es with
  | nil => rfl
  | cons e es ih => rw [Expr.bareAll, ih, List.map_cons]

theorem Stmt.bareAll_eq_map (ss : List Stmt) : Stmt.bareAll ss = ss.map Stmt.bare := by
  induction ss with
  | nil => rfl
  | cons s ss ih => rw [Stmt.bareAll, ih, List.map_cons]

theorem Target.bare_toExpr (g : Target) : g.toExpr.bare = g.bare.toExpr := by
  cases g with
  | name n o => rfl
  | element list i o => rfl

namespace Grammar

/-! ### Tokens that agree -/

/-- Two tokens of the same kind, and of the same text where the text counts. -/
structure Alike (u t : Token) : Prop where
  kind : u.kind = t.kind
  text : t.kind = .name ∨ t.kind = .number ∨ t.kind = .string → u.text = t.text

/-- Tokens that agree with others, one by one. -/
abbrev Copies : List Token → List Token → Prop := List.Forall₂ Alike

theorem copies_append {us xs ys : List Token} (h : Copies us (xs ++ ys)) :
    ∃ us₁ us₂, us = us₁ ++ us₂ ∧ Copies us₁ xs ∧ Copies us₂ ys :=
  ⟨_, _, (List.take_append_drop xs.length us).symm, List.forall₂_take_append _ _ _ h,
    List.forall₂_drop_append _ _ _ h⟩

theorem copies_cons {us ys : List Token} {t : Token} (h : Copies us (t :: ys)) :
    ∃ u us', us = u :: us' ∧ Alike u t ∧ Copies us' ys := by
  obtain ⟨u, us', hu, hus, rfl⟩ := List.forall₂_cons_right_iff.mp h
  exact ⟨u, us', rfl, hu, hus⟩

theorem copies_singleton {us : List Token} {t : Token} (h : Copies us [t]) :
    ∃ u, us = [u] ∧ Alike u t := by
  obtain ⟨u, us', rfl, hu, hus⟩ := copies_cons h
  cases hus
  exact ⟨u, rfl, hu⟩

variable {u t : Token}

theorem Alike.sign (h : Alike u t) {s : Symbol} (ht : IsSign s t) : IsSign s u := h.kind.trans ht

theorem Alike.word (h : Alike u t) {k : Keyword} (ht : IsWord k t) : IsWord k u := h.kind.trans ht

theorem Alike.name (h : Alike u t) (ht : IsName t) : IsName u ∧ u.text = t.text :=
  ⟨h.kind.trans ht, h.text (.inl ht)⟩

theorem Alike.binary (h : Alike u t) {op : BinaryOp} (ht : IsBinary op t) : IsBinary op u := by
  obtain ⟨s, hs, he⟩ := ht
  exact ⟨s, h.sign hs, he⟩

theorem Alike.unary (h : Alike u t) {op : UnaryOp} (ht : IsUnary op t) : IsUnary op u := by
  obtain ⟨s, hs, he⟩ := ht
  exact ⟨s, h.sign hs, he⟩

/-! ### Derivations from tokens that agree -/

/-- Tokens that agree with the given ones have the tree, up to its offsets. -/
def Copied {α β : Type} (rule : Rule α) (bare : α → β) (ts : List Token) (a : α) : Prop :=
  ∀ us, Copies us ts → ∃ b, rule us b ∧ bare b = bare a

section Lists

variable {α β : Type} {item item' : Rule α} {bare : α → β}

theorem many_copied (h : ∀ ts a, item' ts a → Copied item bare ts a) {ts : List Token}
    {as : List α} (hm : Many item' ts as) : Copied (Many item) (List.map bare) ts as := by
  induction hm with
  | nil =>
    intro all hall
    cases hall
    exact ⟨[], .nil, rfl⟩
  | cons ha _ ih =>
    intro all hall
    obtain ⟨us₁, us₂, rfl, h₁, h₂⟩ := copies_append hall
    obtain ⟨b, hb, hbare⟩ := h _ _ ha _ h₁
    obtain ⟨bs, hbs, hbares⟩ := ih _ h₂
    exact ⟨b :: bs, .cons hb hbs, by rw [List.map_cons, List.map_cons, hbare, hbares]⟩

theorem further_copied (h : ∀ ts a, item' ts a → Copied item bare ts a) (ts : List Token) (a : α)
    (hf : Further item' ts a) : Copied (Further item) bare ts a := by
  cases hf with
  | intro hc ha =>
    intro all hall
    obtain ⟨c, us, rfl, hc', hus⟩ := copies_cons hall
    obtain ⟨b, hb, hbare⟩ := h _ _ ha _ hus
    exact ⟨b, .intro (hc'.sign hc) hb, hbare⟩

theorem items_copied (h : ∀ ts a, item' ts a → Copied item bare ts a) {ts : List Token}
    {as : List α} (hi : Items item' ts as) : Copied (Items item) (List.map bare) ts as := by
  cases hi with
  | none =>
    intro all hall
    cases hall
    exact ⟨[], .none, rfl⟩
  | some ha hrest =>
    intro all hall
    obtain ⟨us₁, us₂, rfl, h₁, h₂⟩ := copies_append hall
    obtain ⟨b, hb, hbare⟩ := h _ _ ha _ h₁
    obtain ⟨bs, hbs, hbares⟩ := many_copied (further_copied h) hrest _ h₂
    exact ⟨b :: bs, .some hb hbs, by rw [List.map_cons, List.map_cons, hbare, hbares]⟩

end Lists

/-! ### Expressions -/

section Expressions

variable {E E' O : Rule Expr}

theorem primary_copied (h : ∀ ts e, E' ts e → Copied E Expr.bare ts e) {ts : List Token}
    {e : Expr} (hp : Primary E' ts e) : Copied (Primary E) Expr.bare ts e := by
  intro all hall
  cases hp with
  | number ht =>
    obtain ⟨u, rfl, hu⟩ := copies_singleton hall
    refine ⟨_, .number (hu.kind.trans ht), ?_⟩
    rw [hu.text (.inr (.inl ht))]
    rfl
  | text ht =>
    obtain ⟨u, rfl, hu⟩ := copies_singleton hall
    refine ⟨_, .text (hu.kind.trans ht), ?_⟩
    rw [hu.text (.inr (.inr ht))]
    rfl
  | yes ht =>
    obtain ⟨u, rfl, hu⟩ := copies_singleton hall
    exact ⟨_, .yes (hu.word ht), rfl⟩
  | no ht =>
    obtain ⟨u, rfl, hu⟩ := copies_singleton hall
    exact ⟨_, .no (hu.word ht), rfl⟩
  | name ht =>
    obtain ⟨u, rfl, hu⟩ := copies_singleton hall
    obtain ⟨hname, htext⟩ := hu.name ht
    refine ⟨_, .name hname, ?_⟩
    rw [htext]
    rfl
  | call hf ho hargs hc =>
    obtain ⟨us, vs, rfl, hus, hvs⟩ := copies_append hall
    obtain ⟨f, us, rfl, hf', hus⟩ := copies_cons hus
    obtain ⟨o, us, rfl, ho', hus⟩ := copies_cons hus
    obtain ⟨c, rfl, hc'⟩ := copies_singleton hvs
    obtain ⟨args, hargs, hbare⟩ := items_copied h hargs _ hus
    obtain ⟨hname, htext⟩ := hf'.name hf
    refine ⟨_, .call hname (ho'.sign ho) hargs (hc'.sign hc), ?_⟩
    rw [Expr.bare, Expr.bare, Expr.bareAll_eq_map, Expr.bareAll_eq_map, htext, hbare]
  | list ho hitems hc =>
    obtain ⟨us, vs, rfl, hus, hvs⟩ := copies_append hall
    obtain ⟨o, us, rfl, ho', hus⟩ := copies_cons hus
    obtain ⟨c, rfl, hc'⟩ := copies_singleton hvs
    obtain ⟨items, hitems, hbare⟩ := items_copied h hitems _ hus
    refine ⟨_, .list (ho'.sign ho) hitems (hc'.sign hc), ?_⟩
    rw [Expr.bare, Expr.bare, Expr.bareAll_eq_map, Expr.bareAll_eq_map, hbare]
  | parens ho he hc =>
    obtain ⟨us, vs, rfl, hus, hvs⟩ := copies_append hall
    obtain ⟨o, us, rfl, ho', hus⟩ := copies_cons hus
    obtain ⟨c, rfl, hc'⟩ := copies_singleton hvs
    obtain ⟨e, he, hbare⟩ := h _ _ he _ hus
    exact ⟨e, .parens (ho'.sign ho) he (hc'.sign hc), hbare⟩

theorem indexed_copied (h : ∀ ts e, E' ts e → Copied E Expr.bare ts e) {ts : List Token}
    {e : Expr} (hi : Indexed E' ts e) : Copied (Indexed E) Expr.bare ts e := by
  induction hi with
  | primary hp =>
    intro all hall
    obtain ⟨e, he, hbare⟩ := primary_copied h hp _ hall
    exact ⟨e, .primary he, hbare⟩
  | index _ ho hi hc ih =>
    intro all hall
    obtain ⟨us, cs, rfl, hus, hcs⟩ := copies_append hall
    obtain ⟨ts, ws, rfl, hts, hws⟩ := copies_append hus
    obtain ⟨o, ws, rfl, ho', hws⟩ := copies_cons hws
    obtain ⟨c, rfl, hc'⟩ := copies_singleton hcs
    obtain ⟨e, he, hbare⟩ := ih _ hts
    obtain ⟨i, hi, hbare'⟩ := h _ _ hi _ hws
    refine ⟨_, .index he (ho'.sign ho) hi (hc'.sign hc), ?_⟩
    rw [Expr.bare, Expr.bare, hbare, hbare']

theorem level_copied {n : Nat} {ts : List Token} {e : Expr}
    (h : Level (Copied O Expr.bare) n ts e) : Copied (Level O n) Expr.bare ts e := by
  induction h with
  | operand hx =>
    intro all hall
    obtain ⟨e, he, hbare⟩ := hx _ hall
    exact ⟨e, .operand he, hbare⟩
  | tighter hn _ ih =>
    intro all hall
    obtain ⟨e, he, hbare⟩ := ih _ hall
    exact ⟨e, .tighter hn he, hbare⟩
  | binary hop ht _ _ ihl ihr =>
    intro all hall
    obtain ⟨us, vs, rfl, hus, hvs⟩ := copies_append hall
    obtain ⟨u, vs, rfl, hu, hvs⟩ := copies_cons hvs
    obtain ⟨l, hl, hbare⟩ := ihl _ hus
    obtain ⟨r, hr, hbare'⟩ := ihr _ hvs
    refine ⟨_, .binary hop (hu.binary ht) hl hr, ?_⟩
    rw [Expr.bare, Expr.bare, hbare, hbare']

end Expressions

theorem operand_copied {ts : List Token} {e : Expr} (h : Operand ts e) :
    Copied Operand Expr.bare ts e := by
  refine operand_induction ?_ ?_ h
  · intro op t ts x ht hx all hall
    obtain ⟨u, us, rfl, hu, hus⟩ := copies_cons hall
    obtain ⟨x, hx, hbare⟩ := hx _ hus
    refine ⟨_, .unary (hu.unary ht) hx, ?_⟩
    rw [Expr.bare, Expr.bare, hbare]
  · intro ts e hi all hall
    obtain ⟨e, he, hbare⟩ := indexed_copied (fun _ _ => level_copied) hi _ hall
    exact ⟨e, .plain he, hbare⟩

theorem expression_copied {ts : List Token} {e : Expr} (h : Expression ts e) :
    Copied Expression Expr.bare ts e := level_copied (level_mono (fun _ _ => operand_copied) h)

/-! ### Statements -/

theorem assignable_copied {ts : List Token} {g : Target} (h : Assignable ts g) :
    Copied Assignable Target.bare ts g := by
  intro all hall
  cases h with
  | name ht =>
    obtain ⟨u, rfl, hu⟩ := copies_singleton hall
    obtain ⟨hname, htext⟩ := hu.name ht
    refine ⟨_, .name hname, ?_⟩
    rw [htext]
    rfl
  | element ht ho hi hc =>
    obtain ⟨us, cs, rfl, hus, hcs⟩ := copies_append hall
    obtain ⟨t, us, rfl, ht', hus⟩ := copies_cons hus
    obtain ⟨o, us, rfl, ho', hus⟩ := copies_cons hus
    obtain ⟨c, rfl, hc'⟩ := copies_singleton hcs
    obtain ⟨i, hi, hbare⟩ := expression_copied hi _ hus
    obtain ⟨hname, htext⟩ := ht'.name ht
    refine ⟨_, .element hname (ho'.sign ho) hi (hc'.sign hc), ?_⟩
    rw [Target.bare, Target.bare, htext, hbare]

theorem copies_optional {us ts : List Token} {k : TokenKind} (h : Copies us ts)
    (ho : Optional k ts) : Optional k us := by
  cases ho with
  | absent =>
    cases h
    exact .absent
  | present ht =>
    obtain ⟨u, rfl, hu⟩ := copies_singleton h
    exact .present (hu.kind.trans ht)

theorem copies_echo {ks : List Keyword} {us ts : List Token} (h : Copies us ts)
    (he : Echo ks ts) : Echo ks us := by
  induction he generalizing us with
  | nil =>
    cases h
    exact .nil
  | cons ho _ ih =>
    obtain ⟨us₁, us₂, rfl, h₁, h₂⟩ := copies_append h
    exact .cons (copies_optional h₁ ho) (ih h₂)

theorem copies_close {ks : List Keyword} {us ts : List Token} (h : Copies us ts)
    (hc : Close ks ts) : Close ks us := by
  cases hc with
  | intro he hecho hd =>
    obtain ⟨us, ds, rfl, hus, hds⟩ := copies_append h
    obtain ⟨e, us, rfl, he', hus⟩ := copies_cons hus
    obtain ⟨d, rfl, hd'⟩ := copies_singleton hds
    exact .intro (he'.word he) (copies_echo hus hecho) (hd'.sign hd)

section Shapes

variable {us gs ts : List Token} {k w n d : Token} {g : Target} {v : Expr}

/-- A word, an expression and a dot. -/
theorem copies_valued (h : Copies us (k :: ts ++ [d])) (hv : Expression ts v) :
    ∃ k' vs d' v', us = k' :: vs ++ [d'] ∧ Alike k' k ∧ Alike d' d ∧ Expression vs v' ∧
      v'.bare = v.bare := by
  obtain ⟨us, ds, rfl, hus, hds⟩ := copies_append h
  obtain ⟨k', vs, rfl, hk, hvs⟩ := copies_cons hus
  obtain ⟨d', rfl, hd⟩ := copies_singleton hds
  obtain ⟨v', hv, hbare⟩ := expression_copied hv _ hvs
  exact ⟨k', vs, d', v', rfl, hk, hd, hv, hbare⟩

/-- A word, a target, a word, an expression and a dot. -/
theorem copies_assigned (h : Copies us (k :: gs ++ w :: ts ++ [d])) (hg : Assignable gs g)
    (hv : Expression ts v) : ∃ k' gs' w' vs d' g' v', us = k' :: gs' ++ w' :: vs ++ [d'] ∧
      Alike k' k ∧ Alike w' w ∧ Alike d' d ∧ Assignable gs' g' ∧ Expression vs v' ∧
      g'.bare = g.bare ∧ v'.bare = v.bare := by
  obtain ⟨us, ds, rfl, hus, hds⟩ := copies_append h
  obtain ⟨gs', vs, rfl, hgs, hvs⟩ := copies_append hus
  obtain ⟨k', gs', rfl, hk, hgs⟩ := copies_cons hgs
  obtain ⟨w', vs, rfl, hw, hvs⟩ := copies_cons hvs
  obtain ⟨d', rfl, hd⟩ := copies_singleton hds
  obtain ⟨g', hg, hgb⟩ := assignable_copied hg _ hgs
  obtain ⟨v', hv, hvb⟩ := expression_copied hv _ hvs
  exact ⟨k', gs', w', vs, d', g', v', rfl, hk, hw, hd, hg, hv, hgb, hvb⟩

/-- A word, an expression, a word, a name and a dot. -/
theorem copies_aimed (h : Copies us (k :: ts ++ [w, n, d])) (hv : Expression ts v) :
    ∃ k' vs w' n' d' v', us = k' :: vs ++ [w', n', d'] ∧ Alike k' k ∧ Alike w' w ∧ Alike n' n ∧
      Alike d' d ∧ Expression vs v' ∧ v'.bare = v.bare := by
  obtain ⟨us, ds, rfl, hus, hds⟩ := copies_append h
  obtain ⟨k', vs, rfl, hk, hvs⟩ := copies_cons hus
  obtain ⟨w', ds, rfl, hw, hds⟩ := copies_cons hds
  obtain ⟨n', ds, rfl, hn, hds⟩ := copies_cons hds
  obtain ⟨d', rfl, hd⟩ := copies_singleton hds
  obtain ⟨v', hv, hbare⟩ := expression_copied hv _ hvs
  exact ⟨k', vs, w', n', d', v', rfl, hk, hw, hn, hd, hv, hbare⟩

end Shapes

section Statements

variable {S S' : Rule Stmt}

theorem otherwise_copied (h : ∀ ts s, S' ts s → Copied S Stmt.bare ts s) {ts : List Token}
    {ss : List Stmt} (ho : Otherwise S' ts ss) :
    Copied (Otherwise S) (List.map Stmt.bare) ts ss := by
  intro all hall
  cases ho with
  | absent =>
    cases hall
    exact ⟨[], .absent, rfl⟩
  | present hw hc hss =>
    obtain ⟨w, us, rfl, hw', hus⟩ := copies_cons hall
    obtain ⟨c, us, rfl, hc', hus⟩ := copies_cons hus
    obtain ⟨bs, hbs, hbare⟩ := many_copied h hss _ hus
    exact ⟨bs, .present (hw'.word hw) (hc'.sign hc) hbs, hbare⟩

theorem opened_copied (h : ∀ ts s, S' ts s → Copied S Stmt.bare ts s) {k : Keyword}
    {ts : List Token} {s : Stmt} (ho : Opened S' k ts s) :
    Copied (Opened S k) Stmt.bare ts s := by
  intro all hall
  cases ho with
  | letBe hk hn hb hv hd =>
    obtain ⟨us, ds, rfl, hus, hds⟩ := copies_append hall
    obtain ⟨k, us, rfl, hk', hus⟩ := copies_cons hus
    obtain ⟨n, us, rfl, hn', hus⟩ := copies_cons hus
    obtain ⟨b, us, rfl, hb', hus⟩ := copies_cons hus
    obtain ⟨d, rfl, hd'⟩ := copies_singleton hds
    obtain ⟨v, hv, hbare⟩ := expression_copied hv _ hus
    obtain ⟨hname, htext⟩ := hn'.name hn
    refine ⟨_, .letBe (hk'.word hk) hname (hb'.word hb) hv (hd'.sign hd), ?_⟩
    rw [Stmt.bare, Stmt.bare, htext, hbare]
  | setTo hk hg hw hv hd =>
    obtain ⟨_, _, _, _, _, _, _, rfl, hk', hw', hd', hg, hv, hgb, hvb⟩ :=
      copies_assigned hall hg hv
    refine ⟨_, .setTo (hk'.word hk) hg (hw'.word hw) hv (hd'.sign hd), ?_⟩
    rw [Stmt.bare, Stmt.bare, hgb, hvb]
  | increase hk hg hw hv hd =>
    obtain ⟨_, _, _, _, _, _, _, rfl, hk', hw', hd', hg, hv, hgb, hvb⟩ :=
      copies_assigned hall hg hv
    refine ⟨_, .increase (hk'.word hk) hg (hw'.word hw) hv (hd'.sign hd), ?_⟩
    rw [Stmt.bare, Stmt.bare, Expr.bare, Expr.bare, Target.bare_toExpr, Target.bare_toExpr, hgb,
      hvb]
  | decrease hk hg hw hv hd =>
    obtain ⟨_, _, _, _, _, _, _, rfl, hk', hw', hd', hg, hv, hgb, hvb⟩ :=
      copies_assigned hall hg hv
    refine ⟨_, .decrease (hk'.word hk) hg (hw'.word hw) hv (hd'.sign hd), ?_⟩
    rw [Stmt.bare, Stmt.bare, Expr.bare, Expr.bare, Target.bare_toExpr, Target.bare_toExpr, hgb,
      hvb]
  | say hk hv hd =>
    obtain ⟨_, _, _, _, rfl, hk', hd', hv, hbare⟩ := copies_valued hall hv
    refine ⟨_, .say (hk'.word hk) hv (hd'.sign hd), ?_⟩
    rw [Stmt.bare, Stmt.bare, hbare]
  | ifThen hk hc hcommas hthens hcolon ha hb hclose =>
    obtain ⟨us, es, rfl, hus, hes⟩ := copies_append hall
    obtain ⟨us, bs, rfl, hus, hbs⟩ := copies_append hus
    obtain ⟨us, as, rfl, hus, has⟩ := copies_append hus
    obtain ⟨us, ths, rfl, hus, hths⟩ := copies_append hus
    obtain ⟨cs, cos, rfl, hcs, hcos⟩ := copies_append hus
    obtain ⟨k, cs, rfl, hk', hcs⟩ := copies_cons hcs
    obtain ⟨colon, as, rfl, hcolon', has⟩ := copies_cons has
    obtain ⟨c, hc, hbare⟩ := expression_copied hc _ hcs
    obtain ⟨a, ha, hbare'⟩ := many_copied h ha _ has
    obtain ⟨b, hb, hbare''⟩ := otherwise_copied h hb _ hbs
    refine ⟨_, .ifThen (hk'.word hk) hc (copies_optional hcos hcommas)
      (copies_optional hths hthens) (hcolon'.sign hcolon) ha hb (copies_close hes hclose), ?_⟩
    simp only [Stmt.bare, Stmt.bareAll_eq_map, hbare, hbare', hbare'']
  | whileDo hk hc hcommas hdos hcolon hb hclose =>
    obtain ⟨us, es, rfl, hus, hes⟩ := copies_append hall
    obtain ⟨us, bs, rfl, hus, hbs⟩ := copies_append hus
    obtain ⟨us, ths, rfl, hus, hths⟩ := copies_append hus
    obtain ⟨cs, cos, rfl, hcs, hcos⟩ := copies_append hus
    obtain ⟨k, cs, rfl, hk', hcs⟩ := copies_cons hcs
    obtain ⟨colon, bs, rfl, hcolon', hbs⟩ := copies_cons hbs
    obtain ⟨c, hc, hbare⟩ := expression_copied hc _ hcs
    obtain ⟨b, hb, hbare'⟩ := many_copied h hb _ hbs
    refine ⟨_, .whileDo (hk'.word hk) hc (copies_optional hcos hcommas)
      (copies_optional hths hdos) (hcolon'.sign hcolon) hb (copies_close hes hclose), ?_⟩
    simp only [Stmt.bare, Stmt.bareAll_eq_map, hbare, hbare']
  | repeatTimes hk hc hw hcolon hb hclose =>
    obtain ⟨us, es, rfl, hus, hes⟩ := copies_append hall
    obtain ⟨cs, bs, rfl, hcs, hbs⟩ := copies_append hus
    obtain ⟨k, cs, rfl, hk', hcs⟩ := copies_cons hcs
    obtain ⟨w, bs, rfl, hw', hbs⟩ := copies_cons hbs
    obtain ⟨colon, bs, rfl, hcolon', hbs⟩ := copies_cons hbs
    obtain ⟨c, hc, hbare⟩ := expression_copied hc _ hcs
    obtain ⟨b, hb, hbare'⟩ := many_copied h hb _ hbs
    refine ⟨_, .repeatTimes (hk'.word hk) hc (hw'.word hw) (hcolon'.sign hcolon) hb
      (copies_close hes hclose), ?_⟩
    simp only [Stmt.bare, Stmt.bareAll_eq_map, hbare, hbare']
  | forEach hk he hn hi hs hcolon hb hclose =>
    obtain ⟨us, es, rfl, hus, hes⟩ := copies_append hall
    obtain ⟨cs, bs, rfl, hcs, hbs⟩ := copies_append hus
    obtain ⟨k, cs, rfl, hk', hcs⟩ := copies_cons hcs
    obtain ⟨e, cs, rfl, he', hcs⟩ := copies_cons hcs
    obtain ⟨n, cs, rfl, hn', hcs⟩ := copies_cons hcs
    obtain ⟨i, cs, rfl, hi', hcs⟩ := copies_cons hcs
    obtain ⟨colon, bs, rfl, hcolon', hbs⟩ := copies_cons hbs
    obtain ⟨c, hc, hbare⟩ := expression_copied hs _ hcs
    obtain ⟨b, hb, hbare'⟩ := many_copied h hb _ hbs
    obtain ⟨hname, htext⟩ := hn'.name hn
    refine ⟨_, .forEach (hk'.word hk) (he'.word he) hname (hi'.word hi) hc (hcolon'.sign hcolon) hb
      (copies_close hes hclose), ?_⟩
    simp only [Stmt.bare, Stmt.bareAll_eq_map, hbare, hbare', htext]
  | append hk hv hw hn hd =>
    obtain ⟨_, _, _, _, _, _, rfl, hk', hw', hn', hd', hv, hbare⟩ := copies_aimed hall hv
    obtain ⟨hname, htext⟩ := hn'.name hn
    refine ⟨_, .append (hk'.word hk) hv (hw'.word hw) hname (hd'.sign hd), ?_⟩
    rw [Stmt.bare, Stmt.bare, htext, hbare]
  | remove hk hv hw hn hd =>
    obtain ⟨_, _, _, _, _, _, rfl, hk', hw', hn', hd', hv, hbare⟩ := copies_aimed hall hv
    obtain ⟨hname, htext⟩ := hn'.name hn
    refine ⟨_, .remove (hk'.word hk) hv (hw'.word hw) hname (hd'.sign hd), ?_⟩
    rw [Stmt.bare, Stmt.bare, htext, hbare]
  | giveBack hk hv hd =>
    obtain ⟨_, _, _, _, rfl, hk', hd', hv, hbare⟩ := copies_valued hall hv
    refine ⟨_, .giveBack (hk'.word hk) hv (hd'.sign hd), ?_⟩
    rw [Stmt.bare, Stmt.bare, hbare]

end Statements

theorem statement_copied {ts : List Token} {s : Stmt} (h : Statement ts s) :
    Copied Statement Stmt.bare ts s := by
  refine statement_induction ?_ ?_ h
  · intro k ts s ho all hall
    obtain ⟨s, hs, hbare⟩ := opened_copied (fun _ _ h => h) ho _ hall
    exact ⟨s, .opened hs, hbare⟩
  · intro t d ts v hv hd all hall
    obtain ⟨us, ds, rfl, hus, hds⟩ := copies_append hall
    obtain ⟨d, rfl, hd'⟩ := copies_singleton hds
    obtain ⟨v, hv, hbare⟩ := expression_copied hv _ hus
    obtain ⟨u, us, rfl, _, _⟩ := copies_cons hus
    refine ⟨_, .evaluate hv (hd'.sign hd), ?_⟩
    rw [Stmt.bare, Stmt.bare, hbare]

/-! ### Programs -/

theorem parameter_copied (ts : List Token) (name : String) (h : Parameter ts name) :
    Copied Parameter id ts name := by
  intro all hall
  cases h with
  | intro ht =>
    obtain ⟨u, rfl, hu⟩ := copies_singleton hall
    obtain ⟨hname, htext⟩ := hu.name ht
    exact ⟨_, .intro hname, htext⟩

theorem function_copied {ts : List Token} {d : Declaration} (h : Function ts d) :
    Copied Function Declaration.bare ts d := by
  intro all hall
  cases h with
  | intro hw hn ho hps hc hcolon hbs he hd =>
    obtain ⟨us, es, rfl, hus, hes⟩ := copies_append hall
    obtain ⟨ps, bs, rfl, hps', hbs'⟩ := copies_append hus
    obtain ⟨w, ps, rfl, hw', hps'⟩ := copies_cons hps'
    obtain ⟨n, ps, rfl, hn', hps'⟩ := copies_cons hps'
    obtain ⟨o, ps, rfl, ho', hps'⟩ := copies_cons hps'
    obtain ⟨c, bs, rfl, hc', hbs'⟩ := copies_cons hbs'
    obtain ⟨colon, bs, rfl, hcolon', hbs'⟩ := copies_cons hbs'
    obtain ⟨e, es, rfl, he', hes⟩ := copies_cons hes
    obtain ⟨d, rfl, hd'⟩ := copies_singleton hes
    obtain ⟨names, hnames, hsame⟩ := items_copied parameter_copied hps _ hps'
    obtain ⟨b, hb, hbare⟩ := many_copied (fun _ _ => statement_copied) hbs _ hbs'
    obtain ⟨hname, htext⟩ := hn'.name hn
    rw [List.map_id, List.map_id] at hsame
    refine ⟨_, .intro (hw'.word hw) hname (ho'.sign ho) hnames (hc'.sign hc)
      (hcolon'.sign hcolon) hb (he'.word he) (hd'.sign hd), ?_⟩
    simp only [Declaration.bare, Stmt.bareAll_eq_map, hbare, htext, hsame]

theorem source_copied {ts : List Token} {p : Program} (h : Source ts p) :
    Copied Source Program.bare ts p := by
  induction h with
  | nil =>
    intro all hall
    cases hall
    exact ⟨_, .nil, rfl⟩
  | function hd _ ih =>
    intro all hall
    obtain ⟨us₁, us₂, rfl, h₁, h₂⟩ := copies_append hall
    obtain ⟨d, hd, hbare⟩ := function_copied hd _ h₁
    obtain ⟨p, hp, hbare'⟩ := ih _ h₂
    refine ⟨_, .function hd hp, ?_⟩
    rw [Program.bare, Program.mk.injEq] at hbare'
    simp only [Program.bare, List.map_cons, hbare, hbare'.1, hbare'.2]
  | statement hs _ ih =>
    intro all hall
    obtain ⟨us₁, us₂, rfl, h₁, h₂⟩ := copies_append hall
    obtain ⟨s, hs, hbare⟩ := statement_copied hs _ h₁
    obtain ⟨p, hp, hbare'⟩ := ih _ h₂
    refine ⟨_, .statement hs hp, ?_⟩
    rw [Program.bare, Program.mk.injEq] at hbare'
    simp only [Program.bare, Stmt.bareAll, hbare, hbare'.1, hbare'.2]

end Grammar
end Parlance
