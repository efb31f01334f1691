import Parlance.Proofs.Joining.Parsers
/-!
# Programs in front of programs

The tokens of one program followed by those of another one, whose offsets are moved, are read as the
items of the one followed by those of the other (`parse_append`), whatever the nesting limit. The
tokens of a program end with a point (`ends_of_parse`).
-/
namespace Parlance

/-- The functions and the statements of one program before those of another one. -/
def Program.append (p q : Program) : Program :=
  ⟨p.functions ++ q.functions, p.statements ++ q.statements⟩

instance : Append Program := ⟨Program.append⟩

namespace Parse
open Grammar

variable {φ : Nat → Nat} {more : List Token}

/-! ### Statements -/

section Statements

variable {expr expr' : Parser Expr} {stmt stmt' : Parser Stmt}

/-- A target stands unless what follows would go on with it. -/
theorem standing_carried (φ : Nat → Nat) (more : List Token) (g : Target) (ts : List Token)
    (fault fault' : ParseFault) :
    Carried φ more (Target.moved φ) ts
      (if continuesTarget (kindAt ts) then .error fault else pure (g, ts))
      (if continuesTarget (kindAt (placed φ more ts)) then .error fault'
        else pure (g.moved φ, placed φ more ts)) := by
  intro g' rest hp
  split at hp
  · cases hp
  · next hcont =>
    cases hp
    refine ⟨List.suffix_refl _, fun hin => ?_⟩
    rw [kindAt_placed hin, if_neg hcont]
    rfl

theorem target_carries (h : Carries φ more (Expr.moved φ) expr expr') :
    Carries φ more (Target.moved φ) (target expr) (target expr') := by
  intro ts
  cases ts with
  | nil => exact .error
  | cons t ts =>
    simp only [target, placed_cons]
    by_cases hk : t.kind = .name
    · have hk' : (t.moved φ).kind = .name := hk
      rw [if_pos hk, if_pos hk']
      refine Carried.mono ?_ (List.suffix_cons t ts)
      by_cases hopen : kindAt ts = some (.symbol .leftBracket)
      · cases ts with
        | nil => cases hopen
        | cons o ts =>
          have hopen' : kindAt (placed φ more (o :: ts)) = some (.symbol .leftBracket) := hopen
          rw [if_pos hopen, if_pos hopen']
          refine Carried.mono ?_ (List.suffix_cons o ts)
          refine (h ts).bind fun i mid _ => (Carries.expectSymbol _ mid).bind fun _ rest _ => ?_
          exact standing_carried φ more (.element t.text i t.offset) rest _ _
      · rw [if_neg hopen]
        intro g rest hp
        obtain ⟨hsuffix, hcarry⟩ :=
          standing_carried φ more (.name t.text t.offset) ts _ _ g rest hp
        refine ⟨hsuffix, fun hin => ?_⟩
        rw [kindAt_placed (hin.of_suffix hsuffix), if_neg hopen]
        exact hcarry hin
    · rw [if_neg hk]
      exact .error

theorem block_carries (h : Closes φ more (Stmt.moved φ) stmt stmt') (stops : List Keyword) :
    Carries φ more (Stmt.movedAll φ) (block stmt stops) (block stmt' stops) := by
  have hmoved : Stmt.movedAll φ = List.map (Stmt.moved φ) := funext Stmt.movedAll_eq_map
  rw [hmoved]
  refine Carries.repeated (fun ts => ?_) fun {ts rest s} hp => ?_
  · cases ts with
    | nil =>
      refine .ok (List.suffix_refl _) fun hin => ?_
      obtain rfl := hin.nil
      rfl
    | cons t ts =>
      simp only [placed_cons]
      by_cases hstop : (stops.any fun k => t.kind == .keyword k) = true
      · have hstop' : (stops.any fun k => (t.moved φ).kind == .keyword k) = true := hstop
        rw [if_pos hstop, if_pos hstop']
        exact .ok (List.suffix_refl _) fun _ => rfl
      · have hstop' : ¬ (stops.any fun k => (t.moved φ).kind == .keyword k) = true := hstop
        rw [if_neg hstop, if_neg hstop']
        refine (h.carries (t :: ts)).bind fun s mid _ => ?_
        exact .ok (List.suffix_refl _) fun _ => rfl
  · cases ts with
    | nil => cases hp
    | cons t ts =>
      simp only at hp
      split at hp
      · cases hp
      · obtain ⟨⟨s, mid⟩, hs, hp⟩ := except_bind_eq_ok.mp hp
        cases hp
        exact h.takes hs

theorem acceptAll_carries (ks : List Keyword) :
    Carries φ more id (acceptAll ks) (acceptAll ks) := by
  induction ks with
  | nil => exact .pure rfl
  | cons k ks ih => exact (Carries.accept _).bind fun _ => ih

theorem finish_closes (echoes : List Keyword) :
    Closes φ more id (finish echoes) (finish echoes) :=
  .bind (.expectKeyword _) fun _ => .bind (acceptAll_carries _) fun _ => .dot rfl

theorem valued_closes (h : Carries φ more (Expr.moved φ) expr expr') {make make' : Expr → Stmt}
    (hmake : ∀ v, make' (v.moved φ) = (make v).moved φ) :
    Closes φ more (Stmt.moved φ) (valued expr make) (valued expr' make') :=
  .bind h fun v => .dot (hmake v)

theorem aimed_closes (h : Carries φ more (Expr.moved φ) expr expr') (k : Keyword)
    {make make' : Expr → String → Stmt}
    (hmake : ∀ v list, make' (v.moved φ) list = (make v list).moved φ) :
    Closes φ more (Stmt.moved φ) (aimed expr k make) (aimed expr' k make') :=
  .bind h fun v => .bind (.expectKeyword _) fun _ => .bind (.expectName _) fun list =>
    .dot (hmake v list)

theorem assigned_closes (h : Carries φ more (Expr.moved φ) expr expr') (k : Keyword)
    {make make' : Target → Expr → Stmt}
    (hmake : ∀ g v, make' (g.moved φ) (v.moved φ) = (make g v).moved φ) :
    Closes φ more (Stmt.moved φ) (assigned expr k make) (assigned expr' k make') :=
  .bind (target_carries h) fun g => .bind (.expectKeyword _) fun _ => .bind h fun v =>
    .dot (hmake g v)

theorem letStatement_closes (h : Carries φ more (Expr.moved φ) expr expr') (start : Nat) :
    Closes φ more (Stmt.moved φ) (letStatement expr start) (letStatement expr' (φ start)) :=
  .bind (.expectName _) fun _ => .bind (.expectKeyword _) fun _ => .bind h fun _ => .dot rfl

theorem bodied_closes (h : Closes φ more (Stmt.moved φ) stmt stmt') (echoes : List Keyword)
    {make make' : List Stmt → Stmt}
    (hmake : ∀ b, make' (Stmt.movedAll φ b) = (make b).moved φ) :
    Closes φ more (Stmt.moved φ) (bodied stmt echoes make) (bodied stmt' echoes make') :=
  .bind (.expectSymbol _) fun _ => .bind (block_carries h _) fun b =>
    .map (finish_closes _) fun _ => hmake b

theorem otherwise_carries (h : Closes φ more (Stmt.moved φ) stmt stmt') :
    Carries φ more (Stmt.movedAll φ) (otherwise stmt) (otherwise stmt') :=
  .acceptThen _ ((Carries.expectSymbol _).bind fun _ => block_carries h _) (.pure rfl)

theorem ifStatement_closes (he : Carries φ more (Expr.moved φ) expr expr')
    (hs : Closes φ more (Stmt.moved φ) stmt stmt') (start : Nat) :
    Closes φ more (Stmt.moved φ) (ifStatement expr stmt start)
      (ifStatement expr' stmt' (φ start)) := by
  rw [ifStatement_eq, ifStatement_eq]
  refine .bind he fun c => .bind (.accept _) fun _ => .bind (.accept _) fun _ => ?_
  refine .bind (.expectSymbol _) fun _ => .bind (block_carries hs _) fun a => ?_
  exact .bind (otherwise_carries hs) fun b => .map (finish_closes _) fun _ => rfl

/-- The parser that a keyword opens, moved, is the one that it opens at the place moved to. -/
theorem opened?_closes (he : Carries φ more (Expr.moved φ) expr expr')
    (hs : Closes φ more (Stmt.moved φ) stmt stmt') {start : Nat} {k : Keyword} {p : Parser Stmt}
    (hp : opened? expr stmt start k = some p) :
    ∃ q, opened? expr' stmt' (φ start) k = some q ∧ Closes φ more (Stmt.moved φ) p q := by
  cases k <;> simp only [opened?, Option.some.injEq, reduceCtorEq] at hp <;> subst hp <;>
    refine ⟨_, rfl, ?_⟩
  case letWord => exact letStatement_closes he _
  case setWord => exact assigned_closes he .toWord fun _ _ => rfl
  case increaseWord =>
    exact assigned_closes he .byWord fun g v => by
      simp only [Stmt.moved, Expr.moved, Target.moved_toExpr]
  case decreaseWord =>
    exact assigned_closes he .byWord fun g v => by
      simp only [Stmt.moved, Expr.moved, Target.moved_toExpr]
  case sayWord => exact valued_closes he fun _ => rfl
  case returnWord => exact valued_closes he fun _ => rfl
  case appendWord => exact aimed_closes he .toWord fun _ _ => rfl
  case removeWord => exact aimed_closes he .fromWord fun _ _ => rfl
  case ifWord => exact ifStatement_closes he hs _
  case whileWord =>
    rw [whileStatement_eq, whileStatement_eq]
    exact .bind he fun _ => .bind (.accept _) fun _ => .bind (.accept _) fun _ =>
      bodied_closes hs _ fun _ => rfl
  case repeatWord =>
    rw [repeatStatement_eq, repeatStatement_eq]
    exact .bind he fun _ => .bind (.expectKeyword _) fun _ => bodied_closes hs _ fun _ => rfl
  case forWord =>
    rw [forEachStatement_eq, forEachStatement_eq]
    exact .bind (.expectKeyword _) fun _ => .bind (.expectName _) fun _ =>
      .bind (.expectKeyword _) fun _ => .bind he fun _ => bodied_closes hs _ fun _ => rfl

theorem opened?_eq_none_congr {start start' : Nat} {k : Keyword}
    (h : opened? expr stmt start k = none) : opened? expr' stmt' start' k = none := by
  cases k <;> first | rfl | cases h

/-- Which parser reads a statement is told from its first token. -/
theorem statementWith_cons (he : Carries φ more (Expr.moved φ) expr expr')
    (hs : Closes φ more (Stmt.moved φ) stmt stmt') (t : Token) (ts : List Token) :
    ∃ (p q : Parser Stmt) (us : List Token), us <:+ t :: ts ∧ Closes φ more (Stmt.moved φ) p q ∧
      statementWith expr stmt (t :: ts) = p us ∧
      statementWith expr' stmt' (placed φ more (t :: ts)) = q (placed φ more us) := by
  have hvalue : Closes φ more (Stmt.moved φ) (evaluateStatement expr t.offset)
      (evaluateStatement expr' (φ t.offset)) := valued_closes he fun _ => rfl
  simp only [statementWith, placed_cons, kind_moved, offset_moved]
  split
  · next k _ =>
    cases ho : opened? expr stmt t.offset k with
    | some p =>
      obtain ⟨q, hq, hc⟩ := opened?_closes he hs ho
      rw [hq]
      exact ⟨p, q, ts, List.suffix_cons t ts, hc, rfl, rfl⟩
    | none =>
      rw [opened?_eq_none_congr ho]
      exact ⟨_, _, t :: ts, List.suffix_refl _, hvalue, rfl, rfl⟩
  · exact ⟨_, _, t :: ts, List.suffix_refl _, hvalue, rfl, rfl⟩

theorem statementWith_closes (he : Carries φ more (Expr.moved φ) expr expr')
    (hs : Closes φ more (Stmt.moved φ) stmt stmt') :
    Closes φ more (Stmt.moved φ) (statementWith expr stmt) (statementWith expr' stmt') where
  ends {ts rest s} hp := by
    cases ts with
    | nil => cases hp
    | cons t ts =>
      obtain ⟨p, q, us, ⟨xs, hxs⟩, hc, hps, _⟩ := statementWith_cons he hs t ts
      rw [hps] at hp
      obtain ⟨ys, d, rfl, hd⟩ := hc.ends hp
      exact ⟨xs ++ ys, d, by simp [← hxs], hd⟩
  closes {ts rest s} hp := by
    cases ts with
    | nil => cases hp
    | cons t ts =>
      obtain ⟨p, q, us, _, hc, hps, hqs⟩ := statementWith_cons he hs t ts
      rw [hps] at hp
      rw [hqs]
      exact hc.closes hp

end Statements

theorem statement_closes_of_le (φ : Nat → Nat) (more : List Token) {limit limit' : Nat}
    (hle : limit ≤ limit') :
    Closes φ more (Stmt.moved φ) (statement limit) (statement limit') := by
  induction limit generalizing limit' with
  | zero => exact ⟨nofun, nofun⟩
  | succ limit ih =>
    obtain ⟨limit', rfl⟩ : ∃ k, limit' = k + 1 := ⟨limit' - 1, by omega⟩
    exact statementWith_closes (expression_carries hle) (ih (Nat.le_of_succ_le_succ hle))

theorem statement_closes (φ : Nat → Nat) (more : List Token) (limit : Nat) :
    Closes φ more (Stmt.moved φ) (statement limit) (statement limit) :=
  statement_closes_of_le φ more (Nat.le_refl limit)

theorem operand_ne_ok {t : Token} (ht : t.kind = .keyword .toWord) (limit : Nat) (ts : List Token)
    (r : Expr × List Token) : operand limit (t :: ts) ≠ .ok r := by
  cases limit with
  | zero =>
    intro h
    cases h
  | succ limit =>
    have hprimary : ∀ expr, primary expr (t :: ts) = .error (.noExpression (some t)) := by
      intro expr
      simp only [primary, ht]
    simp only [operand, List.head?_cons, Option.bind_some, postfixed_apply, base, ht,
      reduceCtorEq, if_false, hprimary]
    intro h
    cases h

/-- No statement starts as a declaration does. -/
theorem not_declares_of_statement {limit : Nat} {ts rest : List Token} {s : Stmt}
    (h : statement limit ts = .ok (s, rest)) (us : List Token) : declares (ts ++ us) = false := by
  cases ts with
  | nil =>
    cases limit with
    | zero => cases h
    | succ limit => cases h
  | cons t ts =>
    have ht : t.kind ≠ .keyword .toWord := by
      intro ht
      cases limit with
      | zero => cases h
      | succ limit =>
        simp only [statement, statementWith, ht, opened?, evaluateStatement, expression, chain,
          bind_eq_ok] at h
        obtain ⟨_, _, ⟨e, mid, he, _⟩, _⟩ := h
        exact operand_ne_ok ht _ _ _ he
    unfold declares
    split
    · next a _ _ _ heq =>
      obtain ⟨rfl, _⟩ := List.cons.inj heq
      simp [ht]
    · rfl

/-! ### Declarations -/

theorem furtherParameter?_carries :
    Carries φ more (Option.map id) furtherParameter? furtherParameter? :=
  .acceptThen _ ((Carries.expectName _).bind fun _ => .pure rfl) (.pure rfl)

theorem furtherParameter?_takes : Takes furtherParameter? := by
  intro ts rest a hp
  simp only [furtherParameter?, bind_eq_ok] at hp
  obtain ⟨b, mid, hb, hp⟩ := hp
  rcases accept_eq_ok.mp hb with ⟨rfl, t, rfl, _⟩ | ⟨rfl, rfl, _⟩
  · simp only [if_true, bind_eq_ok, pure_eq_ok, expectName_eq_ok] at hp
    obtain ⟨_, _, ⟨u, rfl, _⟩, _, rfl⟩ := hp
    exact Nat.lt_succ_of_lt (Nat.lt_succ_self _)
  · cases hp

theorem parameters_carries : Carries φ more id parameters parameters := by
  have hclose : ∀ names : List String, Carries φ more id
      (do
        let names ← pure names
        let _ ← expectSymbol .rightParen
        return names)
      (do
        let names ← pure names
        let _ ← expectSymbol .rightParen
        return names) := fun names =>
    (show Carries φ more id (pure names) (pure names) from .pure rfl).bind fun _ =>
      (Carries.expectSymbol _).bind fun _ => .pure rfl
  refine (Carries.expectSymbol _).bind fun _ => .choose (hclose []) ?_
  refine (Carries.expectName _).bind fun first => ?_
  refine (furtherParameter?_carries.repeated furtherParameter?_takes).bind fun rest => ?_
  rw [List.map_id]
  exact hclose (first :: rest)

theorem declaration_closes {stmt stmt' : Parser Stmt}
    (h : Closes φ more (Stmt.moved φ) stmt stmt') :
    Closes φ more (Declaration.moved φ) (declaration stmt) (declaration stmt') :=
  .bind (.expectKeyword _) fun _ => .bind (.expectName _) fun _ => .bind parameters_carries fun _ =>
    .bind (.expectSymbol _) fun _ => .bind (block_carries h _) fun _ =>
      .bind (.expectKeyword _) fun _ => .dot rfl

/-! ### Items -/

def movedItem (φ : Nat → Nat) : Declaration ⊕ Stmt → Declaration ⊕ Stmt :=
  Sum.map (Declaration.moved φ) (Stmt.moved φ)

/-- Tokens as they are read, item after item, up to the end. -/
inductive Itemized (limit : Nat) : List Token → List (Declaration ⊕ Stmt) → Prop
  | nil : Itemized limit [] []
  | cons {ts rest : List Token} {x : Declaration ⊕ Stmt} {xs : List (Declaration ⊕ Stmt)} :
      item? (statement limit) ts = .ok (some x, rest) → Itemized limit rest xs →
      Itemized limit ts (x :: xs)

section Items

variable {limit : Nat} {ts rest : List Token} {x : Declaration ⊕ Stmt}
  {xs ys : List (Declaration ⊕ Stmt)}

theorem declares_placed (h : declares ts = true) : declares (placed φ more ts) = true := by
  unfold declares at h
  split at h
  · exact h
  · cases h

/-- An item ends with a point and is read in the same way in front of more tokens, and with a larger
nesting limit. -/
theorem item?_closes_of_le (φ : Nat → Nat) (more : List Token) {limit' : Nat}
    (hle : limit ≤ limit') (h : item? (statement limit) ts = .ok (some x, rest)) :
    (∃ us d, ts = us ++ d :: rest ∧ IsSign .dot d) ∧
      item? (statement limit') (placed φ more ts)
        = .ok (some (movedItem φ x), placed φ more rest) := by
  have hne : (placed φ more ts).isEmpty = false := by
    cases ts with
    | nil => cases h
    | cons t ts => rfl
  simp only [item?] at h ⊢
  rw [hne]
  split at h
  · cases h
  · split at h
    · next hdeclares =>
      obtain ⟨⟨d, mid⟩, hd, h⟩ := except_bind_eq_ok.mp h
      cases h
      have hcloses := declaration_closes (statement_closes_of_le φ more hle)
      refine ⟨hcloses.ends hd, ?_⟩
      rw [declares_placed hdeclares]
      exact except_bind_eq_ok.mpr ⟨_, hcloses.closes hd, rfl⟩
    · obtain ⟨⟨s, mid⟩, hs, h⟩ := except_bind_eq_ok.mp h
      cases h
      have hcloses := statement_closes_of_le φ more hle
      have hmoved := hcloses.closes hs
      refine ⟨hcloses.ends hs, ?_⟩
      have hdeclares := not_declares_of_statement hmoved []
      rw [List.append_nil] at hdeclares
      rw [hdeclares]
      exact except_bind_eq_ok.mpr ⟨_, hmoved, rfl⟩

theorem item?_closes (φ : Nat → Nat) (more : List Token)
    (h : item? (statement limit) ts = .ok (some x, rest)) :
    (∃ us d, ts = us ++ d :: rest ∧ IsSign .dot d) ∧
      item? (statement limit) (placed φ more ts)
        = .ok (some (movedItem φ x), placed φ more rest) :=
  item?_closes_of_le φ more (Nat.le_refl limit) h

theorem item?_eq_none (h : item? (statement limit) ts = .ok (none, rest)) : ts = [] := by
  simp only [item?] at h
  split at h
  · next hnil => exact List.isEmpty_iff.mp hnil
  · split at h
    · obtain ⟨_, _, h⟩ := except_bind_eq_ok.mp h
      cases h
    · obtain ⟨_, _, h⟩ := except_bind_eq_ok.mp h
      cases h

theorem itemized_of_collect {bound : List Token} (hb : ts.length ≤ bound.length)
    (h : collect (item? (statement limit)) bound ts = .ok (xs, rest)) : Itemized limit ts xs := by
  induction bound generalizing ts xs with
  | nil =>
    obtain rfl := List.length_eq_zero_iff.mp (Nat.le_zero.mp hb)
    obtain ⟨rfl, _⟩ := pure_eq_ok.mp h
    exact .nil
  | cons b bound ih =>
    obtain ⟨o, mid, ho, h⟩ := bind_eq_ok.mp h
    cases o with
    | none =>
      obtain rfl := item?_eq_none ho
      obtain ⟨rfl, _⟩ := pure_eq_ok.mp h
      exact .nil
    | some x =>
      obtain ⟨xs', rest', hxs, h⟩ := bind_eq_ok.mp h
      obtain ⟨rfl, rfl⟩ := pure_eq_ok.mp h
      obtain ⟨us, d, rfl, _⟩ := (item?_closes id [] ho).1
      simp only [List.length_append, List.length_cons] at hb
      exact .cons ho (ih (by omega) hxs)

theorem Itemized.collect (h : Itemized limit ts xs) {bound : List Token}
    (hb : ts.length ≤ bound.length) :
    collect (item? (statement limit)) bound ts = .ok (xs, []) := by
  induction h generalizing bound with
  | nil =>
    cases bound with
    | nil => rfl
    | cons b bound => rfl
  | cons hx _ ih =>
    obtain ⟨us, d, rfl, _⟩ := (item?_closes id [] hx).1
    simp only [List.length_append, List.length_cons] at hb
    cases bound with
    | nil =>
      rw [List.length_nil] at hb
      omega
    | cons b bound =>
      rw [List.length_cons] at hb
      refine bind_eq_ok.mpr ⟨_, _, hx, ?_⟩
      exact bind_eq_ok.mpr ⟨_, _, ih (by omega), rfl⟩

/-- Reading a program is reading its items. -/
theorem parse_eq_ok_iff_itemized {ts : List Token} {p : Program} :
    Program.parse limit ts = .ok p ↔ ∃ xs, Itemized limit ts xs ∧ p = .ofItems xs := by
  rw [program_parse_eq_ok]
  constructor
  · rintro ⟨xs, rest, h, rfl⟩
    exact ⟨xs, itemized_of_collect (Nat.le_refl _) h, rfl⟩
  · rintro ⟨xs, h, rfl⟩
    exact ⟨xs, [], h.collect (Nat.le_refl _), rfl⟩

/-- Items that are moved, in front of more items and perhaps with a larger nesting limit. -/
theorem Itemized.placed {limit' : Nat} (hle : limit ≤ limit') (φ : Nat → Nat)
    (h : Itemized limit ts xs) (hmore : Itemized limit' more ys) :
    Itemized limit' (placed φ more ts) (xs.map (movedItem φ) ++ ys) := by
  induction h with
  | nil => exact hmore
  | cons hx _ ih => exact .cons (item?_closes_of_le φ more hle hx).2 ih

theorem Itemized.last_point (h : Itemized limit ts xs) :
    ts = [] ∨ ∃ us d, ts = us ++ [d] ∧ IsSign .dot d := by
  induction h with
  | nil => exact .inl rfl
  | @cons ts rest x xs hx _ ih =>
    obtain ⟨us, d, rfl, hd⟩ := (item?_closes id [] hx).1
    refine .inr ?_
    rcases ih with rfl | ⟨vs, e, rfl, he⟩
    · exact ⟨us, d, rfl, hd⟩
    · exact ⟨us ++ d :: vs, e, by simp, he⟩

theorem placed_id (ts : List Token) : placed id more ts = ts ++ more := by
  have hid : Token.moved id = id := rfl
  rw [placed, hid, List.map_id]

theorem movedItem_id (xs : List (Declaration ⊕ Stmt)) : xs.map (movedItem id) = xs := by
  have hid : movedItem id = id := by
    funext x
    cases x with
    | inl d => simp only [movedItem, Sum.map_inl, Declaration.moved_id, id]
    | inr s => simp only [movedItem, Sum.map_inr, Stmt.moved_id, id]
  rw [hid, List.map_id]

end Items

theorem ofItems_append (xs ys : List (Declaration ⊕ Stmt)) :
    Program.ofItems (xs ++ ys) = Program.ofItems xs ++ Program.ofItems ys := by
  show _ = Program.append _ _
  simp only [Program.ofItems, Program.append, List.filterMap_append]

theorem ofItems_moved (xs : List (Declaration ⊕ Stmt)) :
    Program.ofItems (xs.map (movedItem φ)) = (Program.ofItems xs).moved φ := by
  have hfunctions :
      Sum.getLeft? ∘ movedItem φ = Option.map (Declaration.moved φ) ∘ Sum.getLeft? := by
    funext x
    cases x <;> rfl
  have hstatements : Sum.getRight? ∘ movedItem φ = Option.map (Stmt.moved φ) ∘ Sum.getRight? := by
    funext x
    cases x <;> rfl
  simp only [Program.ofItems, Program.moved, Stmt.movedAll_eq_map, List.filterMap_map,
    hfunctions, hstatements, List.map_filterMap, Function.comp_def]

/-- The tokens of two programs, one after the other, are read as the two programs. -/
theorem parse_append {limit : Nat} {ts us : List Token} {p q : Program}
    (hp : Program.parse limit ts = .ok p) (hq : Program.parse limit us = .ok q) (φ : Nat → Nat) :
    Program.parse limit (ts ++ us.map (Token.moved φ)) = .ok (p ++ q.moved φ) := by
  obtain ⟨xs, hxs, rfl⟩ := parse_eq_ok_iff_itemized.mp hp
  obtain ⟨ys, hys, rfl⟩ := parse_eq_ok_iff_itemized.mp hq
  have hsecond : Itemized limit (us.map (Token.moved φ)) (ys.map (movedItem φ)) := by
    simpa [placed] using hys.placed (Nat.le_refl limit) φ Itemized.nil
  have hjoined := hxs.placed (Nat.le_refl limit) id hsecond
  rw [placed_id, movedItem_id] at hjoined
  refine parse_eq_ok_iff_itemized.mpr ⟨_, hjoined, ?_⟩
  rw [ofItems_append, ofItems_moved]

/-- A program that is read with one nesting limit is read with every larger one. -/
theorem parse_of_le {limit limit' : Nat} (hle : limit ≤ limit') {ts : List Token} {p : Program}
    (hp : Program.parse limit ts = .ok p) : Program.parse limit' ts = .ok p := by
  obtain ⟨xs, hxs, rfl⟩ := parse_eq_ok_iff_itemized.mp hp
  have hlarger := hxs.placed hle id Itemized.nil
  rw [placed_id, movedItem_id, List.append_nil, List.append_nil] at hlarger
  exact parse_eq_ok_iff_itemized.mpr ⟨xs, hlarger, rfl⟩

/-- The tokens of a program end with a point. -/
theorem ends_of_parse {limit : Nat} {ts : List Token} {p : Program}
    (hp : Program.parse limit ts = .ok p) : ts = [] ∨ ∃ us d, ts = us ++ [d] ∧ IsSign .dot d := by
  obtain ⟨xs, hxs, rfl⟩ := parse_eq_ok_iff_itemized.mp hp
  exact hxs.last_point

end Parse
end Parlance
