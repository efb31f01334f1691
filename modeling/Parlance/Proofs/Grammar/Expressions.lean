import Parlance.Proofs.Grammar.Levels
import Parlance.Proofs.Grammar.Reads
/-!
# Expressions are read by the grammar

`expression_reads`: below the nesting limit the expression parser reads `Expression`, and what may
follow an expression is anything that does not continue a target.
-/
namespace Parlance.Parse
open Grammar

variable {n : Nat} {expr operand : Parser Expr} {E O : Rule Expr}

/-! ### First and following tokens -/

/-- No parenthesis, bracket or binary operator is next. -/
def Ended (ts : List Token) : Prop := continuesTarget (kindAt ts) = false

/-- No parenthesis or bracket is next. -/
def Unapplied (ts : List Token) : Prop :=
  kindAt ts ≠ some (.symbol .leftParen) ∧ kindAt ts ≠ some (.symbol .leftBracket)

/-- No binary operator is next. -/
def Unjoined (ts : List Token) : Prop := (kindAt ts).bind BinaryOp.ofKind? = none

/-- The kinds of token with which a primary expression starts. -/
def startsPrimary : TokenKind → Bool
  | .number | .string | .name | .keyword .trueWord | .keyword .falseWord => true
  | .symbol s => s == .leftParen || s == .leftBracket
  | _ => false

/-- The kinds of token with which an expression starts. -/
def startsExpression (k : TokenKind) : Bool := startsPrimary k || (UnaryOp.ofKind? k).isSome

/-- A token of certain kinds is next. -/
def Starts (p : TokenKind → Bool) (ts : List Token) : Prop := ∃ k, kindAt ts = some k ∧ p k = true

theorem binary_ofSymbol? {op : BinaryOp} {s : Symbol} :
    BinaryOp.ofSymbol? s = some op ↔ s.spelling = op.spelling := by
  cases s <;> cases op <;> decide

theorem unary_ofSymbol? {op : UnaryOp} {s : Symbol} :
    UnaryOp.ofSymbol? s = some op ↔ s.spelling = op.spelling := by
  cases s <;> cases op <;> decide

theorem isBinary_iff {op : BinaryOp} {t : Token} :
    IsBinary op t ↔ BinaryOp.ofKind? t.kind = some op := by
  unfold IsBinary IsSign BinaryOp.ofKind?
  cases t.kind <;> simp [binary_ofSymbol?]

theorem isUnary_iff {op : UnaryOp} {t : Token} :
    IsUnary op t ↔ UnaryOp.ofKind? t.kind = some op := by
  unfold IsUnary IsSign UnaryOp.ofKind?
  cases t.kind <;> simp [unary_ofSymbol?]

theorem ended_iff {ts : List Token} : Ended ts ↔ Unapplied ts ∧ Unjoined ts := by
  simp [Ended, Unapplied, Unjoined, continuesTarget]

theorem Ended.unapplied {ts : List Token} (h : Ended ts) : Unapplied ts := (ended_iff.mp h).1

theorem unapplied_of_binary {op : BinaryOp} {t : Token} (h : IsBinary op t) (ts : List Token) :
    Unapplied (t :: ts) := by
  obtain ⟨s, hs, he⟩ := h
  have hs : t.kind = .symbol s := hs
  constructor <;> simp only [kindAt, List.head?_cons, Option.map_some, hs, ne_eq, Option.some.injEq,
      TokenKind.symbol.injEq] <;> rintro rfl <;> revert he <;> cases op <;> decide

theorem ended_of_sign {t : Token} {s : Symbol} (h : IsSign s t)
    (hs : continuesTarget (some (.symbol s)) = false) (ts : List Token) : Ended (t :: ts) := by
  have h : t.kind = .symbol s := h
  simpa [Ended, kindAt, h] using hs

theorem ended_of_word {t : Token} {k : Keyword} (h : IsWord k t) (ts : List Token) :
    Ended (t :: ts) := by
  have h : t.kind = .keyword k := h
  simp [Ended, kindAt, h, continuesTarget, BinaryOp.ofKind?]

theorem kindAt_append {xs : List Token} {k : TokenKind} (h : kindAt xs = some k)
    (rest : List Token) : kindAt (xs ++ rest) = some k := by
  cases xs with
  | nil => simp [kindAt] at h
  | cons t xs => simpa [kindAt] using h

section Starts

variable {p q : TokenKind → Bool} {xs : List Token}

theorem Starts.append (h : Starts p xs) (rest : List Token) : Starts p (xs ++ rest) := by
  obtain ⟨k, hk, hp⟩ := h
  exact ⟨k, kindAt_append hk rest, hp⟩

theorem Starts.mono (h : Starts p xs) (hpq : ∀ k, p k = true → q k = true) : Starts q xs := by
  obtain ⟨k, hk, hp⟩ := h
  exact ⟨k, hk, hpq k hp⟩

theorem Starts.ne_nil (h : Starts p xs) : xs ≠ [] := by
  rintro rfl
  obtain ⟨k, hk, _⟩ := h
  simp [kindAt] at hk

theorem Starts.kindAt_ne (h : Starts p xs) {k : TokenKind} (hk : p k = false) :
    kindAt xs ≠ some k := by
  obtain ⟨k', hk', hp⟩ := h
  intro he
  rw [he, Option.some.injEq] at hk'
  rw [← hk', hk] at hp
  cases hp

theorem starts_cons {t : Token} {k : TokenKind} (h : t.kind = k) (hk : p k = true)
    (ts : List Token) : Starts p (t :: ts) := ⟨k, by simp [kindAt, h], hk⟩

end Starts

theorem primary_starts {ts : List Token} {e : Expr} (h : Primary E ts e) :
    Starts startsPrimary ts := by
  cases h with
  | number h | text h | yes h | no h | name h | call h | list h | parens h =>
    exact starts_cons h rfl _

theorem indexed_starts {ts : List Token} {e : Expr} (h : Indexed E ts e) :
    Starts startsPrimary ts := by
  induction h with
  | primary h => exact primary_starts h
  | index _ _ _ _ ih => simpa only [List.append_assoc] using ih.append _

theorem operand_starts {ts : List Token} {e : Expr} (h : Operand ts e) :
    Starts startsExpression ts := by
  cases h with
  | unary h _ => exact starts_cons rfl (by simp [startsExpression, isUnary_iff.mp h]) _
  | plain h => exact (indexed_starts h).mono fun k hk => by simp [startsExpression, hk]

theorem level_starts (hO : ∀ ts e, O ts e → Starts startsExpression ts) {k : Nat} {ts : List Token}
    {e : Expr} (h : Level O k ts e) : Starts startsExpression ts := by
  induction h with
  | operand h => exact hO _ _ h
  | tighter _ _ ih => exact ih
  | binary _ _ _ _ ihl _ => exact ihl.append _

theorem expression_starts {ts : List Token} {e : Expr} (h : Expression ts e) :
    Starts startsExpression ts := level_starts (fun _ _ => operand_starts) h

/-! ### Chains -/

theorem operation?_steps (ho : Reads n operand O Unapplied) :
    Steps n (operation? operand) (Link O) Unapplied Unjoined where
  step_sound {ts rest a} hn h := by
    cases ts with
    | nil => simp [operation?] at h
    | cons t ts =>
      cases hop : BinaryOp.ofKind? t.kind with
      | none => simp [operation?, hop] at h
      | some op =>
        simp only [operation?, hop, except_bind_eq_ok, Prod.exists] at h
        obtain ⟨e, mid, he, h⟩ := h
        cases h
        obtain ⟨xs, rfl, hx, hr⟩ := ho.sound (Nat.lt_of_succ_lt hn) he
        exact ⟨t :: xs, rfl, .intro (isBinary_iff.mpr hop) hx, hr⟩
  stop_sound {ts rest} hn h := by
    cases ts with
    | nil =>
      cases h
      exact ⟨rfl, rfl⟩
    | cons t ts =>
      cases hop : BinaryOp.ofKind? t.kind with
      | none =>
        simp only [operation?, hop] at h
        cases h
        exact ⟨rfl, hop⟩
      | some op =>
        simp only [operation?, hop, except_bind_eq_ok, Prod.exists] at h
        obtain ⟨e, mid, _, h⟩ := h
        cases h
  step_complete {xs rest a} hn hx hr := by
    obtain @⟨op, t, ts, e, ht, he⟩ := hx
    have h := ho.complete (Nat.lt_of_succ_lt hn) he hr
    simp only [List.cons_append, operation?, isBinary_iff.mp ht, h]
    rfl
  stop_complete {ts} _ h := by
    cases ts with
    | nil => rfl
    | cons t ts =>
      have hop : BinaryOp.ofKind? t.kind = none := h
      simp only [operation?, hop]
  stop_nil := rfl
  rule_ne_nil h := by
    cases h
    simp
  next_rule h := by
    cases h with
    | intro ht _ => exact unapplied_of_binary ht _

theorem chain_reads (ho : Reads n operand O Unapplied) :
    Reads n (chain operand) (Level O 1) Ended where
  sound {ts rest e} hn h := by
    simp only [chain, bind_eq_ok, pure_eq_ok] at h
    obtain ⟨first, mid, hfirst, ops, rest', hops, rfl, rfl⟩ := h
    obtain ⟨xs, rfl, hx, hmid⟩ := ho.sound hn hfirst
    have hn' : mid.length < n := by
      simp only [List.length_append] at hn
      omega
    obtain ⟨ys, rfl, hy, hu, hb⟩ := repeated_sound (operation?_steps ho) hn' hmid hops
    exact ⟨xs ++ ys, (List.append_assoc ..).symm, assemble_sound (.intro hx hy),
      ended_iff.mpr ⟨hu, hb⟩⟩
  complete {xs rest e} hn hx hr := by
    obtain ⟨first, ops, hc, rfl⟩ := assemble_complete hx
    obtain @⟨ts, ys, _, _, he, hl⟩ := hc
    obtain ⟨hu, hj⟩ := ended_iff.mp hr
    rw [List.append_assoc] at hn ⊢
    have hn' : (ys ++ rest).length < n := by
      simp only [List.length_append] at hn ⊢
      omega
    have hmid : Unapplied (ys ++ rest) := by
      cases hl with
      | nil => exact hu
      | cons hlink _ =>
        cases hlink with
        | intro ht _ => exact unapplied_of_binary ht _
    have hfirst := ho.complete hn he hmid
    have hops := repeated_complete (operation?_steps ho) hl hn' hu hj
    simp only [chain, bind_eq_ok, pure_eq_ok]
    exact ⟨first, _, hfirst, ops, rest, hops, rfl, rfl⟩

/-! ### Arguments -/

theorem get_bind_apply {α : Type} (f : List Token → Parser α) (ts : List Token) :
    (get >>= f) ts = f ts ts := rfl

theorem further?_steps (he : Reads n expr E Ended) :
    Steps n (further? expr) (Further E) Ended (fun ts => kindAt ts ≠ some (.symbol .comma)) where
  step_sound {ts rest a} hn h := by
    simp only [further?, bind_eq_ok] at h
    obtain ⟨b, mid, hb, h⟩ := h
    rcases accept_eq_ok.mp hb with ⟨rfl, c, rfl, hc⟩ | ⟨rfl, _, _⟩
    · simp only [if_true, bind_eq_ok, pure_eq_ok, Option.some.injEq] at h
      obtain ⟨e, _, hx, rfl, rfl⟩ := h
      obtain ⟨xs, rfl, hxs, hr⟩ := he.sound (Nat.lt_of_succ_lt hn) hx
      exact ⟨c :: xs, rfl, .intro hc hxs, hr⟩
    · cases h
  stop_sound {ts rest} _ h := by
    simp only [further?, bind_eq_ok] at h
    obtain ⟨b, mid, hb, h⟩ := h
    rcases accept_eq_ok.mp hb with ⟨rfl, _, _, _⟩ | ⟨rfl, rfl, hk⟩
    · simp only [if_true, bind_eq_ok, pure_eq_ok] at h
      obtain ⟨_, _, _, h, _⟩ := h
      cases h
    · cases h
      exact ⟨rfl, hk⟩
  step_complete {xs rest a} hn hx hr := by
    obtain @⟨c, ts, a, hc, ha⟩ := hx
    have h := he.complete (Nat.lt_of_succ_lt hn) ha hr
    simp only [further?, bind_eq_ok]
    refine ⟨true, ts ++ rest, accept_eq_ok.mpr (.inl ⟨rfl, c, rfl, hc⟩), ?_⟩
    simp only [if_true, bind_eq_ok, pure_eq_ok]
    exact ⟨a, rest, h, rfl, rfl⟩
  stop_complete {ts} _ h := by
    simp only [further?, bind_eq_ok]
    exact ⟨false, ts, accept_eq_ok.mpr (.inr ⟨rfl, rfl, h⟩), rfl⟩
  stop_nil := by simp [kindAt]
  rule_ne_nil h := by
    cases h
    simp
  next_rule h := by
    cases h with
    | intro hc _ => exact ended_of_sign hc rfl _

/-- A phrase and a closing symbol. -/
inductive Closed {α : Type} (item : Rule α) (closing : Symbol) : Rule α
  | intro {ts : List Token} {a : α} {c : Token} :
      item ts a → IsSign closing c → Closed item closing (ts ++ [c]) a

/-- Nothing is asked of what follows. -/
def Anything (_ : List Token) : Prop := True

theorem kindAt_cons_sign {t : Token} {s : Symbol} (h : IsSign s t) (ts : List Token) :
    kindAt (t :: ts) = some (.symbol s) := congrArg some h

theorem kindAt_cons_word {t : Token} {k : Keyword} (h : IsWord k t) (ts : List Token) :
    kindAt (t :: ts) = some (.keyword k) := congrArg some h

theorem arguments_reads (he : Reads n expr E Ended)
    (hE : ∀ ts e, E ts e → Starts startsExpression ts) {closing : Symbol}
    (hclosing : closing = .rightParen ∨ closing = .rightBracket) :
    Reads n (arguments expr closing) (Closed (Items E) closing) Anything where
  sound {ts rest as} hn h := by
    rw [arguments, get_bind_apply] at h
    split at h
    · simp only [bind_eq_ok, expectSymbol_eq_ok, pure_eq_ok] at h
      obtain ⟨c, mid, ⟨rfl, hc⟩, rfl, rfl⟩ := h
      exact ⟨[] ++ [c], rfl, .intro .none hc, trivial⟩
    · simp only [bind_eq_ok, expectSymbol_eq_ok, pure_eq_ok] at h
      obtain ⟨e, mid, hfirst, es, mid', hrest, c, _, ⟨rfl, hc⟩, rfl, rfl⟩ := h
      obtain ⟨xs, rfl, hx, hmid⟩ := he.sound hn hfirst
      have hn' : mid.length < n := by
        simp only [List.length_append] at hn
        omega
      obtain ⟨ys, rfl, hy, _⟩ := repeated_sound (further?_steps he) hn' hmid hrest
      exact ⟨xs ++ ys ++ [c], by simp, .intro (.some hx hy) hc, trivial⟩
  complete {xs rest as} hn hx _ := by
    obtain @⟨ts, as, c, hts, hc⟩ := hx
    rw [arguments, get_bind_apply]
    cases hts with
    | none =>
      rw [List.nil_append, List.singleton_append, if_pos (kindAt_cons_sign hc rest)]
      simp only [bind_eq_ok, expectSymbol_eq_ok, pure_eq_ok]
      exact ⟨c, rest, ⟨rfl, hc⟩, trivial, rfl⟩
    | @some xs ys e es hx hy =>
      have hstart : kindAt (xs ++ (ys ++ c :: rest)) ≠ some (.symbol closing) := by
        refine ((hE _ _ hx).append _).kindAt_ne ?_
        rcases hclosing with rfl | rfl <;> rfl
      have hend : Ended (c :: rest) := by
        refine ended_of_sign hc ?_ _
        rcases hclosing with rfl | rfl <;> rfl
      have hcomma : kindAt (c :: rest) ≠ some (.symbol .comma) := by
        rw [kindAt_cons_sign hc]
        rcases hclosing with rfl | rfl <;> simp
      have hmid : Ended (ys ++ c :: rest) := by
        cases hy with
        | nil => exact hend
        | cons hf _ =>
          rw [List.append_assoc]
          exact (further?_steps he).next_rule hf
      simp only [List.append_assoc, List.singleton_append] at hn ⊢
      have hn' : (ys ++ c :: rest).length < n := by
        rw [List.length_append] at hn
        omega
      rw [if_neg hstart]
      simp only [bind_eq_ok, expectSymbol_eq_ok, pure_eq_ok]
      exact ⟨e, _, he.complete hn hx hmid, es, c :: rest,
        repeated_complete (further?_steps he) hy hn' hend hcomma, c, rest, ⟨rfl, hc⟩, rfl, rfl⟩

/-! ### Primary and indexed expressions -/

/-- What stands before the indexes: a name, a call or another primary expression. -/
def base (expr : Parser Expr) : Parser Expr := fun tokens =>
  match tokens with
  | t :: rest => if t.kind = .name then called expr t rest else primary expr tokens
  | [] => primary expr tokens

theorem postfixed_apply (expr : Parser Expr) (ts : List Token) :
    postfixed expr ts = base expr ts >>= fun p => indexes expr p.2 p.1 p.2 := by
  cases ts with
  | nil => rfl
  | cons t ts =>
    simp only [postfixed, base]
    split <;> rfl

theorem called_eq_ok {t : Token} {e : Expr} {ts rest : List Token} :
    called expr t ts = .ok (e, rest) ↔
      (∃ o mid args, ts = o :: mid ∧ IsSign .leftParen o ∧
        arguments expr .rightParen mid = .ok (args, rest) ∧ e = .call t.text args t.offset) ∨
      (ts = rest ∧ kindAt ts ≠ some (.symbol .leftParen) ∧ e = .name t.text t.offset) := by
  simp only [called, bind_eq_ok]
  constructor
  · rintro ⟨b, mid, hb, h⟩
    rcases accept_eq_ok.mp hb with ⟨rfl, o, rfl, ho⟩ | ⟨rfl, rfl, hk⟩
    · simp only [if_true, bind_eq_ok, pure_eq_ok] at h
      obtain ⟨args, _, hargs, rfl, rfl⟩ := h
      exact .inl ⟨o, mid, args, rfl, ho, hargs, rfl⟩
    · obtain ⟨rfl, rfl⟩ := pure_eq_ok.mp h
      exact .inr ⟨rfl, hk, rfl⟩
  · rintro (⟨o, mid, args, rfl, ho, hargs, rfl⟩ | ⟨rfl, hk, rfl⟩)
    · refine ⟨true, mid, accept_eq_ok.mpr (.inl ⟨rfl, o, rfl, ho⟩), ?_⟩
      simp only [if_true, bind_eq_ok, pure_eq_ok]
      exact ⟨args, rest, hargs, rfl, rfl⟩
    · exact ⟨false, ts, accept_eq_ok.mpr (.inr ⟨rfl, rfl, hk⟩), rfl⟩

section Base

variable (he : Reads n expr E Ended) (hE : ∀ ts e, E ts e → Starts startsExpression ts)
include he hE

theorem base_sound {ts rest : List Token} {e : Expr} (hn : ts.length < n + 1)
    (h : base expr ts = .ok (e, rest)) : ∃ xs, ts = xs ++ rest ∧ Primary E xs e := by
  cases ts with
  | nil => cases h
  | cons t ts =>
    simp only [base] at h
    have hn := Nat.lt_of_succ_lt_succ hn
    split at h
    · next ht =>
      rcases called_eq_ok.mp h with ⟨o, mid, args, rfl, ho, hargs, rfl⟩ | ⟨rfl, _, rfl⟩
      · have hargs := (arguments_reads he hE (.inl rfl)).sound (Nat.lt_of_succ_lt hn) hargs
        obtain ⟨_, rfl, @⟨xs, _, c, hx, hc⟩, _⟩ := hargs
        exact ⟨t :: o :: xs ++ [c], by simp, .call ht ho hx hc⟩
      · exact ⟨[t], rfl, .name ht⟩
    · simp only [primary] at h
      split at h
      · next hk =>
        cases h
        exact ⟨[t], rfl, .number hk⟩
      · next hk =>
        cases h
        exact ⟨[t], rfl, .text hk⟩
      · next hk =>
        cases h
        exact ⟨[t], rfl, .yes hk⟩
      · next hk =>
        cases h
        exact ⟨[t], rfl, .no hk⟩
      · next hk =>
        simp only [except_bind_eq_ok, Prod.exists, expectSymbol_eq_ok] at h
        obtain ⟨e', mid, hx, c, _, ⟨rfl, hc⟩, h⟩ := h
        cases h
        obtain ⟨xs, rfl, hx, _⟩ := he.sound hn hx
        exact ⟨t :: xs ++ [c], by simp, .parens hk hx hc⟩
      · next hk =>
        simp only [except_bind_eq_ok, Prod.exists] at h
        obtain ⟨items, mid, hx, h⟩ := h
        cases h
        obtain ⟨_, rfl, @⟨xs, _, c, hx, hc⟩, _⟩ := (arguments_reads he hE (.inr rfl)).sound hn hx
        exact ⟨t :: xs ++ [c], by simp, .list hk hx hc⟩
      · cases h

theorem base_complete {xs rest : List Token} {e : Expr} (hn : (xs ++ rest).length < n + 1)
    (h : Primary E xs e) (hr : kindAt rest ≠ some (.symbol .leftParen)) :
    base expr (xs ++ rest) = .ok (e, rest) := by
  cases h with
  | number h | text h | yes h | no h => simp [base, primary, show _ = _ from h]
  | @name t h =>
    have h : t.kind = .name := h
    simp only [base, List.singleton_append, h, if_true]
    exact called_eq_ok.mpr (.inr ⟨rfl, hr, rfl⟩)
  | @call t o c ts args h ho hx hc =>
    have h : t.kind = .name := h
    have hn : (ts ++ [c] ++ rest).length < n := by
      simp at hn ⊢
      omega
    have hargs : arguments expr .rightParen (ts ++ [c] ++ rest) = .ok (args, rest) :=
      (arguments_reads he hE (.inl rfl)).complete hn (.intro hx hc) trivial
    simp only [base, List.cons_append, h, if_true]
    exact called_eq_ok.mpr (.inl ⟨o, _, args, rfl, ho, hargs, rfl⟩)
  | @list o c ts items ho hx hc =>
    have ho : o.kind = .symbol .leftBracket := ho
    have hn : (ts ++ [c] ++ rest).length < n := by
      simp at hn ⊢
      omega
    have hargs : arguments expr .rightBracket (ts ++ [c] ++ rest) = .ok (items, rest) :=
      (arguments_reads he hE (.inr rfl)).complete hn (.intro hx hc) trivial
    simp only [base, primary, List.cons_append, ho, hargs]
    rfl
  | @parens o c ts e ho hx hc =>
    have ho : o.kind = .symbol .leftParen := ho
    have hn : (ts ++ c :: rest).length < n := by
      simp at hn ⊢
      omega
    have hexpr : expr (ts ++ c :: rest) = .ok (e, c :: rest) :=
      he.complete hn hx (ended_of_sign hc rfl _)
    have hclose : expectSymbol .rightParen (c :: rest) = .ok (c, rest) :=
      expectSymbol_eq_ok.mpr ⟨rfl, hc⟩
    simp only [base, primary, List.cons_append, List.append_assoc, List.nil_append, ho, hexpr]
    show (expectSymbol .rightParen (c :: rest) >>= _) = _
    rw [hclose]
    rfl

omit hE in
theorem indexes_sound {bound xs ts rest : List Token} {e e' : Expr} (hn : ts.length < n + 1)
    (hb : ts.length ≤ bound.length) (hx : Indexed E xs e)
    (h : indexes expr bound e ts = .ok (e', rest)) :
    ∃ ys, ts = ys ++ rest ∧ Indexed E (xs ++ ys) e' ∧ Unapplied rest := by
  induction bound generalizing xs ts e with
  | nil =>
    obtain rfl := List.length_eq_zero_iff.mp (Nat.le_zero.mp hb)
    obtain ⟨rfl, rfl⟩ := pure_eq_ok.mp h
    exact ⟨[], rfl, by simpa using hx, by simp [Unapplied, kindAt]⟩
  | cons b bound ih =>
    cases ts with
    | nil =>
      cases h
      exact ⟨[], rfl, by simpa using hx, by simp [Unapplied, kindAt]⟩
    | cons o ts =>
      simp only [indexes] at h
      have hn := Nat.lt_of_succ_lt_succ hn
      split at h
      · simp only [except_bind_eq_ok] at h
        obtain ⟨_, _, h⟩ := h
        cases h
      · next ho =>
        simp only [except_bind_eq_ok, Prod.exists, expectSymbol_eq_ok] at h
        obtain ⟨i, _, hi, c, mid, ⟨rfl, hc⟩, h⟩ := h
        obtain ⟨is, rfl, hi, _⟩ := he.sound hn hi
        have hlen : mid.length ≤ bound.length := by
          simp at hb
          omega
        have hmid : mid.length < n + 1 := by
          simp at hn
          omega
        obtain ⟨ys, rfl, hy, hr⟩ := ih hmid hlen (.index hx ho hi hc) h
        exact ⟨o :: is ++ [c] ++ ys, by simp, by simpa using hy, hr⟩
      · next hp hb =>
        cases h
        refine ⟨[], rfl, by simpa using hx, ?_⟩
        simp only [Unapplied, kindAt, List.head?_cons, Option.map_some, ne_eq, Option.some.injEq]
        exact ⟨hp, hb⟩

omit he hE in
theorem indexes_done (bound : List Token) (e : Expr) {ts : List Token} (h : Unapplied ts) :
    indexes expr bound e ts = .ok (e, ts) := by
  cases bound with
  | nil => rfl
  | cons b bound =>
    cases ts with
    | nil => rfl
    | cons t ts =>
      simp only [Unapplied, kindAt, List.head?_cons, Option.map_some, ne_eq, Option.some.injEq] at h
      simp only [indexes]
      split
      · next hk => exact absurd hk h.1
      · next hk => exact absurd hk h.2
      · rfl

/-- After the tokens of an indexed expression the parser stands before the indexes that are left. -/
theorem postfixed_append {xs rest : List Token} {e : Expr} (h : Indexed E xs e)
    (hn : (xs ++ rest).length < n + 1) (hr : kindAt rest ≠ some (.symbol .leftParen)) :
    ∃ bound, rest.length ≤ bound.length ∧
      postfixed expr (xs ++ rest) = indexes expr bound e rest := by
  induction h generalizing rest with
  | primary h =>
    refine ⟨rest, Nat.le_refl _, ?_⟩
    rw [postfixed_apply, base_complete he hE hn h hr]
    rfl
  | @index ts is e i o c _ ho hi hc ih =>
    have heq : ts ++ o :: is ++ [c] ++ rest = ts ++ (o :: (is ++ c :: rest)) := by simp
    rw [heq] at hn ⊢
    have hkind := kindAt_cons_sign ho (is ++ c :: rest)
    obtain ⟨bound, hb, hpost⟩ := ih hn (by simp [hkind])
    cases bound with
    | nil => simp at hb
    | cons b bound =>
      have hn' : (is ++ c :: rest).length < n := by
        simp at hn ⊢
        omega
      have hindex : expr (is ++ c :: rest) = .ok (i, c :: rest) :=
        he.complete hn' hi (ended_of_sign hc rfl _)
      have hclose : expectSymbol .rightBracket (c :: rest) = .ok (c, rest) :=
        expectSymbol_eq_ok.mpr ⟨rfl, hc⟩
      have ho : o.kind = .symbol .leftBracket := ho
      refine ⟨bound, by simp at hb; omega, ?_⟩
      rw [hpost]
      simp only [indexes, ho, hindex]
      show (expectSymbol .rightBracket (c :: rest) >>= _) = _
      rw [hclose]
      rfl

theorem postfixed_reads : Reads (n + 1) (postfixed expr) (Indexed E) Unapplied where
  sound {ts rest e} hn h := by
    rw [postfixed_apply] at h
    simp only [except_bind_eq_ok, Prod.exists] at h
    obtain ⟨b, mid, hbase, h⟩ := h
    obtain ⟨xs, rfl, hx⟩ := base_sound he hE hn hbase
    have hmid : mid.length < n + 1 := by
      simp only [List.length_append] at hn
      omega
    obtain ⟨ys, rfl, hy, hr⟩ := indexes_sound he hmid (Nat.le_refl _) (.primary hx) h
    exact ⟨xs ++ ys, (List.append_assoc ..).symm, hy, hr⟩
  complete {xs rest e} hn hx hr := by
    obtain ⟨bound, _, h⟩ := postfixed_append he hE hx hn hr.1
    rw [h, indexes_done bound e hr]

end Base

/-! ### Operands and expressions -/

theorem operand_reads (limit : Nat) : Reads limit (Parse.operand limit) Operand Unapplied := by
  induction limit with
  | zero => exact ⟨fun h => absurd h (Nat.not_lt_zero _), fun h => absurd h (Nat.not_lt_zero _)⟩
  | succ limit ih =>
    have hpost := postfixed_reads (chain_reads ih) fun _ _ => expression_starts
    refine ⟨fun {ts rest e} hn h => ?_, fun {xs rest e} hn hx hr => ?_⟩
    · simp only [Parse.operand] at h
      split at h
      · next op o hop =>
        cases ts with
        | nil => cases hop
        | cons t ts =>
          simp only [List.head?_cons, Option.bind_some, Option.map_eq_some_iff,
            Prod.mk.injEq] at hop
          obtain ⟨op, hop, rfl, rfl⟩ := hop
          simp only [List.tail_cons, except_bind_eq_ok, Prod.exists] at h
          obtain ⟨x, mid, hx, h⟩ := h
          cases h
          obtain ⟨xs, rfl, hx, hr⟩ := ih.sound (Nat.lt_of_succ_lt_succ hn) hx
          exact ⟨t :: xs, rfl, .unary (isUnary_iff.mpr hop) hx, hr⟩
      · obtain ⟨xs, rfl, hx, hr⟩ := hpost.sound hn h
        exact ⟨xs, rfl, .plain hx, hr⟩
    · cases hx with
      | @unary op t ts x ht hx =>
        have h := ih.complete (Nat.lt_of_succ_lt_succ hn) hx hr
        simp only [Parse.operand, List.cons_append, List.head?_cons, Option.bind_some,
          isUnary_iff.mp ht, Option.map_some, List.tail_cons, h]
        rfl
      | plain hx =>
        have hstart : (kindAt (xs ++ rest)).bind UnaryOp.ofKind? = none := by
          obtain ⟨k, hk, hp⟩ := (indexed_starts hx).append rest
          rw [hk]
          cases k with
          | symbol s => cases s <;> first | rfl | cases hp
          | _ => rfl
        have hnone : (xs ++ rest).head?.bind
            (fun t => (UnaryOp.ofKind? t.kind).map (·, t.offset)) = none := by
          cases hh : (xs ++ rest).head? with
          | none => rfl
          | some t =>
            simp only [kindAt, hh, Option.map_some, Option.bind_some] at hstart
            simp [hstart]
        simp only [Parse.operand, hnone]
        exact hpost.complete hn hx hr

theorem expression_reads (limit : Nat) : Reads limit (expression limit) Expression Ended :=
  chain_reads (operand_reads limit)

end Parlance.Parse
