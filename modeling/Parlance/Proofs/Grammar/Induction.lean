import Parlance.Proofs.Grammar.Rules
/-!
# Induction over derivations

Operands contain expressions and statements contain blocks. A relation that is kept by the rules of
operands, with the relation itself in the place of the operands inside, holds of all operands; and
so for statements.
-/
namespace Parlance.Grammar

theorem operand_induction {P : Rule Expr}
    (unary : ∀ {op : UnaryOp} {t : Token} {ts : List Token} {x : Expr},
      IsUnary op t → P ts x → P (t :: ts) (.unary op x t.offset))
    (plain : ∀ {ts : List Token} {e : Expr}, Indexed (Level P 1) ts e → P ts e)
    {ts : List Token} {e : Expr} (h : Operand ts e) : P ts e :=
  @Operand.rec (fun ts e _ => P ts e)
    (fun ts e _ => Indexed (Level P 1) ts e)
    (fun ts e _ => Primary (Level P 1) ts e)
    (fun n ts e _ => Level P n ts e)
    (fun ts es _ => Items (Level P 1) ts es)
    (fun ts es _ => Many (Further (Level P 1)) ts es)
    (fun ts e _ => Further (Level P 1) ts e)
    (fun ho _ hx => unary ho hx) (fun _ hx => plain hx)
    (fun _ hp => .primary hp) (fun _ ho _ hc hx hi => .index hx ho hi hc)
    .number .text .yes .no .name
    (fun hf ho _ hc hargs => .call hf ho hargs hc) (fun ho _ hc hitems => .list ho hitems hc)
    (fun ho _ hc hx => .parens ho hx hc)
    (fun _ hx => .operand hx) (fun hn _ hx => .tighter hn hx)
    (fun hop ht _ _ hl hr => .binary hop ht hl hr)
    .none (fun _ _ hx hrest => .some hx hrest)
    .nil (fun _ _ hx hrest => .cons hx hrest) (fun hc _ hx => .intro hc hx) _ _ h

theorem level_mono {O O' : Rule Expr} (h : ∀ ts e, O ts e → O' ts e) {n : Nat} {ts : List Token}
    {e : Expr} (hl : Level O n ts e) : Level O' n ts e := by
  induction hl with
  | operand hx => exact .operand (h _ _ hx)
  | tighter hn _ ih => exact .tighter hn ih
  | binary hop ht _ _ ihl ihr => exact .binary hop ht ihl ihr

theorem statement_induction {P : Rule Stmt}
    (opened : ∀ {k : Keyword} {ts : List Token} {s : Stmt}, Opened P k ts s → P ts s)
    (evaluate : ∀ {t d : Token} {ts : List Token} {v : Expr},
      Expression (t :: ts) v → IsSign .dot d → P (t :: ts ++ [d]) (.evaluate v t.offset))
    {ts : List Token} {s : Stmt} (h : Statement ts s) : P ts s :=
  @Statement.rec (fun ts s _ => P ts s)
    (fun k ts s _ => Opened P k ts s)
    (fun ts ss _ => Many P ts ss)
    (fun ts ss _ => Otherwise P ts ss)
    (fun _ hs => opened hs) evaluate
    .letBe .setTo .increase .decrease .say
    (fun hk hc hcomma hthen hcolon _ _ hclose ha hb =>
      .ifThen hk hc hcomma hthen hcolon ha hb hclose)
    (fun hk hc hcomma hdo hcolon _ hclose hb => .whileDo hk hc hcomma hdo hcolon hb hclose)
    (fun hk hc hw hcolon _ hclose hb => .repeatTimes hk hc hw hcolon hb hclose)
    (fun hk he hn hi hs hcolon _ hclose hb => .forEach hk he hn hi hs hcolon hb hclose)
    .append .remove .giveBack
    .nil (fun _ _ hs hrest => .cons hs hrest)
    .absent (fun hw hc _ hb => .present hw hc hb) _ _ h

end Parlance.Grammar
