import Parlance.Proofs.Grammar.Programs
import Parlance.Proofs.Spelling.Trees
/-!
# Parsing words in lower case

A parser looks at the kinds of tokens, and at the texts of words only to pass them on. So on tokens
whose words are in lower case it answers what it answers on the tokens as they are, with the names
in lower case, and refuses what it refuses (`Folds`). A program is read in this way as a whole
(`parse_folded`).
-/
namespace Parlance.Parse
open Grammar

variable {α β : Type}

/-- An answer on tokens as the answer on the same tokens with their words in lower case. -/
def answered (f : α → β) :
    Except ParseFault (α × List Token) → Except ParseFault (β × List Token)
  | .ok (a, rest) => .ok (f a, rest.map Token.folded)
  | .error fault => .error fault.folded

/-- The second parser answers on folded tokens as the first one does on the tokens. -/
def Folds (f : α → β) (p : Parser α) (q : Parser β) : Prop :=
  ∀ ts, q (ts.map Token.folded) = answered f (p ts)

theorem answered_bind {α' β' : Type} {f : α → α'} {g : β → β'}
    {r : Except ParseFault (α × List Token)}
    {k : α × List Token → Except ParseFault (β × List Token)}
    {k' : α' × List Token → Except ParseFault (β' × List Token)}
    (h : ∀ a rest, k' (f a, rest.map Token.folded) = answered g (k (a, rest))) :
    (answered f r >>= k') = answered g (r >>= k) := by
  cases r with
  | ok p => exact h p.1 p.2
  | error fault => rfl

theorem kindAt_folded (ts : List Token) : kindAt (ts.map Token.folded) = kindAt ts := by
  cases ts with
  | nil => rfl
  | cons t ts => simp [kindAt]

namespace Folds

variable {α' β' : Type} {f : α → α'} {g : β → β'}

theorem pure {a : α} {a' : α'} (h : a' = f a) :
    Folds f (Pure.pure a : Parser α) (Pure.pure a') := by
  subst h
  exact fun _ => rfl

theorem bind {x : Parser α} {y : Parser α'} {k : α → Parser β} {k' : α' → Parser β'}
    (hx : Folds f x y) (hk : ∀ a, Folds g (k a) (k' (f a))) : Folds g (x >>= k) (y >>= k') := by
  intro ts
  rw [bind_apply, bind_apply, hx ts]
  exact answered_bind fun a rest => hk a rest

theorem accept (k : TokenKind) : Folds id (accept k) (accept k) := by
  intro ts
  cases ts with
  | nil => rfl
  | cons t ts =>
    simp only [Parse.accept, List.map_cons, Token.kind_folded]
    split <;> rfl

theorem expectAs (k : TokenKind) (w : Wanted) :
    Folds Token.folded (expectAs k w) (expectAs k w) := by
  intro ts
  cases ts with
  | nil => rfl
  | cons t ts =>
    simp only [Parse.expectAs, List.map_cons, Token.kind_folded]
    split <;> rfl

theorem expectSymbol (s : Symbol) : Folds Token.folded (expectSymbol s) (expectSymbol s) :=
  expectAs _ _

theorem expectKeyword (k : Keyword) : Folds Token.folded (expectKeyword k) (expectKeyword k) :=
  expectAs _ _

theorem expectName (w : Wanted) : Folds Text.lower (expectName w) (expectName w) := by
  intro ts
  cases ts with
  | nil => rfl
  | cons t ts =>
    simp only [Parse.expectName, bind_apply, Parse.expectAs, List.map_cons, Token.kind_folded]
    split
    · next hk =>
      show Except.ok (t.folded.text, _) = Except.ok (Text.lower t.text, _)
      rw [Token.text_folded_name hk]
    · rfl

/-- A look at the next token decides how to go on. -/
theorem choose {k : Option TokenKind} {x y : Parser α} {x' y' : Parser α'} (hx : Folds f x x')
    (hy : Folds f y y') :
    Folds f (do if kindAt (← get) = k then x else y)
      (do if kindAt (← get) = k then x' else y') := by
  intro ts
  rw [get_bind_apply, get_bind_apply, kindAt_folded]
  split
  · exact hx ts
  · exact hy ts

/-- If a token is accepted the one parser goes on, otherwise the other. -/
theorem acceptThen (k : TokenKind) {x y : Parser α} {x' y' : Parser α'} (hx : Folds f x x')
    (hy : Folds f y y') :
    Folds f (do if ← Parse.accept k then x else y) (do if ← Parse.accept k then x' else y') := by
  refine (accept k).bind fun b => ?_
  cases b with
  | true => exact hx
  | false => exact hy

variable {item : Parser (Option α)} {item' : Parser (Option α')}

theorem collect (h : Folds (Option.map f) item item') (bound : List Token) :
    Folds (List.map f) (collect item bound) (collect item' (bound.map Token.folded)) := by
  induction bound with
  | nil => exact pure rfl
  | cons _ bound ih =>
    refine h.bind fun o => ?_
    cases o with
    | none => exact pure rfl
    | some a => exact ih.bind fun _ => pure rfl

theorem repeated (h : Folds (Option.map f) item item') :
    Folds (List.map f) (repeated item) (repeated item') := fun ts => h.collect ts ts

end Folds

/-! ### Chains -/

/-- An operator and its operand with its names in lower case. -/
def foldedLink (link : BinaryOp × Expr) : BinaryOp × Expr := (link.1, link.2.folded)

theorem joined_folded (op : BinaryOp) (l r : Expr) :
    Expr.joined op l.folded r.folded = (Expr.joined op l r).folded := by
  simp only [Expr.joined, Expr.folded, Expr.offset_folded]

theorem join_folded (level : Nat) (first : Expr) (rest : List (BinaryOp × Expr)) :
    Expr.join level first.folded (rest.map foldedLink)
      = ((Expr.join level first rest).1.folded, (Expr.join level first rest).2.map foldedLink) := by
  induction rest generalizing first with
  | nil => rfl
  | cons link rest ih =>
    obtain ⟨op, e⟩ := link
    simp only [List.map_cons, foldedLink, Expr.join]
    split
    · rw [joined_folded]
      exact ih _
    · rw [ih]
      rfl

theorem assembleFrom_folded (level : Nat) (first : Expr) (rest : List (BinaryOp × Expr)) :
    Expr.assembleFrom level first.folded (rest.map foldedLink)
      = (Expr.assembleFrom level first rest).folded := by
  induction level generalizing first rest with
  | zero => rfl
  | succ level ih =>
    simp only [Expr.assembleFrom, join_folded]
    exact ih _ _

/-! ### Expressions -/

section Expressions

variable {expr operand : Parser Expr}

theorem operation?_folds (h : Folds Expr.folded operand operand) :
    Folds (Option.map foldedLink) (operation? operand) (operation? operand) := by
  intro ts
  cases ts with
  | nil => rfl
  | cons t ts =>
    simp only [operation?, List.map_cons, Token.kind_folded]
    split
    · rfl
    · rw [h ts]
      exact answered_bind fun _ _ => rfl

theorem chain_folds (h : Folds Expr.folded operand operand) :
    Folds Expr.folded (chain operand) (chain operand) :=
  h.bind fun first => (operation?_folds h).repeated.bind fun rest =>
    .pure (assembleFrom_folded _ first rest)

theorem further?_folds (h : Folds Expr.folded expr expr) :
    Folds (Option.map Expr.folded) (further? expr) (further? expr) :=
  .acceptThen _ (h.bind fun _ => .pure rfl) (.pure rfl)

theorem arguments_folds (h : Folds Expr.folded expr expr) (closing : Symbol) :
    Folds Expr.foldedAll (arguments expr closing) (arguments expr closing) := by
  refine .choose ((Folds.expectSymbol _).bind fun _ => .pure rfl) (h.bind fun first => ?_)
  refine (further?_folds h).repeated.bind fun rest => (Folds.expectSymbol _).bind fun _ => .pure ?_
  rw [Expr.foldedAll, Expr.foldedAll_eq_map]

theorem primary_folds (h : Folds Expr.folded expr expr) :
    Folds Expr.folded (primary expr) (primary expr) := by
  intro ts
  cases ts with
  | nil => rfl
  | cons t ts =>
    simp only [primary, List.map_cons, Token.kind_folded, Token.offset_folded]
    split
    · next hk => simp only [Token.folded, hk]; rfl
    · next hk => simp only [Token.folded, hk]; rfl
    · rfl
    · rfl
    · rw [h ts]
      refine answered_bind fun e mid => ?_
      rw [Folds.expectSymbol _ mid]
      exact answered_bind fun _ _ => rfl
    · rw [arguments_folds h _ ts]
      exact answered_bind fun _ _ => rfl
    · rfl

theorem called_folds (h : Folds Expr.folded expr expr) {callee : Token} (hc : callee.kind = .name) :
    Folds Expr.folded (called expr callee) (called expr callee.folded) := by
  refine .acceptThen _ ((arguments_folds h _).bind fun _ => .pure ?_) (.pure ?_)
  · rw [Token.text_folded_name hc, Token.offset_folded]
    rfl
  · rw [Token.text_folded_name hc, Token.offset_folded]
    rfl

theorem indexes_folds (h : Folds Expr.folded expr expr) (bound : List Token) (e : Expr) :
    Folds Expr.folded (indexes expr bound e) (indexes expr (bound.map Token.folded) e.folded) := by
  induction bound generalizing e with
  | nil => exact .pure rfl
  | cons _ bound ih =>
    intro ts
    cases ts with
    | nil => rfl
    | cons t ts =>
      simp only [indexes, List.map_cons, Token.kind_folded, Token.offset_folded, Expr.kind_folded]
      split
      · rw [arguments_folds h _ ts]
        exact answered_bind fun _ _ => rfl
      · rw [h ts]
        refine answered_bind fun i mid => ?_
        rw [Folds.expectSymbol _ mid]
        refine answered_bind fun _ rest => ?_
        have hrest := ih (.index e i e.offset) rest
        simp only [Expr.folded, Expr.offset_folded] at hrest ⊢
        exact hrest
      · rfl

theorem postfixed_folds (h : Folds Expr.folded expr expr) :
    Folds Expr.folded (postfixed expr) (postfixed expr) := by
  have hbase : Folds Expr.folded (base expr) (base expr) := by
    intro ts
    cases ts with
    | nil => rfl
    | cons t ts =>
      simp only [base, List.map_cons, Token.kind_folded]
      split
      · next hk => exact called_folds h hk ts
      · exact primary_folds h (t :: ts)
  intro ts
  rw [postfixed_apply, postfixed_apply, hbase ts]
  exact answered_bind fun e rest => indexes_folds h rest e rest

end Expressions

theorem operand_folds (limit : Nat) : Folds Expr.folded (operand limit) (operand limit) := by
  induction limit with
  | zero =>
    intro ts
    cases ts <;> rfl
  | succ limit ih =>
    intro ts
    cases ts with
    | nil => exact postfixed_folds (chain_folds ih) []
    | cons t ts =>
      simp only [operand, List.map_cons, List.head?_cons, Option.bind_some, Token.kind_folded,
        Token.offset_folded]
      cases UnaryOp.ofKind? t.kind with
      | some op =>
        simp only [Option.map_some, List.tail_cons]
        rw [ih ts]
        exact answered_bind fun _ _ => rfl
      | none => exact postfixed_folds (chain_folds ih) (t :: ts)

theorem expression_folds (limit : Nat) : Folds Expr.folded (expression limit) (expression limit) :=
  chain_folds (operand_folds limit)

/-! ### Statements -/

section Statements

variable {expr : Parser Expr} {stmt : Parser Stmt}

/-- A target stands unless what follows would go on with it. -/
theorem standing_folded (g : Target) (t : Token) (rest : List Token) :
    (if continuesTarget (kindAt (rest.map Token.folded)) then
        .error (.notAssignable (some t.folded) (rest.map Token.folded).head?)
      else pure (g.folded, rest.map Token.folded))
      = answered Target.folded (if continuesTarget (kindAt rest) then
          .error (.notAssignable (some t) rest.head?) else pure (g, rest)) := by
  rw [kindAt_folded, List.head?_map]
  split <;> rfl

theorem target_folds (h : Folds Expr.folded expr expr) :
    Folds Target.folded (target expr) (target expr) := by
  intro ts
  cases ts with
  | nil => rfl
  | cons t ts =>
    simp only [target, List.map_cons, Token.kind_folded, kindAt_folded, Token.offset_folded]
    split
    · next hk =>
      rw [Token.text_folded_name hk]
      split
      · rw [← List.map_tail, h ts.tail]
        refine answered_bind fun i mid => ?_
        rw [Folds.expectSymbol _ mid]
        refine answered_bind fun _ rest => ?_
        exact standing_folded (.element t.text i t.offset) t rest
      · exact standing_folded (.name t.text t.offset) t ts
    · rfl

theorem block_folds (h : Folds Stmt.folded stmt stmt) (stops : List Keyword) :
    Folds Stmt.foldedAll (block stmt stops) (block stmt stops) := by
  have hmap : Stmt.foldedAll = List.map Stmt.folded := funext Stmt.foldedAll_eq_map
  rw [hmap]
  refine Folds.repeated fun ts => ?_
  cases ts with
  | nil => rfl
  | cons t ts =>
    simp only [List.map_cons, Token.kind_folded]
    split
    · rfl
    · have hitem := h (t :: ts)
      rw [List.map_cons] at hitem
      rw [hitem]
      exact answered_bind fun _ _ => rfl

theorem acceptAll_folds (ks : List Keyword) : Folds id (acceptAll ks) (acceptAll ks) := by
  induction ks with
  | nil => exact .pure rfl
  | cons k ks ih => exact (Folds.accept _).bind fun _ => ih

theorem finish_folds (echoes : List Keyword) : Folds id (finish echoes) (finish echoes) :=
  (Folds.expectKeyword _).bind fun _ => (acceptAll_folds _).bind fun _ =>
    (Folds.expectSymbol _).bind fun _ => .pure rfl

theorem valued_folds (h : Folds Expr.folded expr expr) {make : Expr → Stmt}
    (hmake : ∀ v, make v.folded = (make v).folded) :
    Folds Stmt.folded (valued expr make) (valued expr make) :=
  h.bind fun v => (Folds.expectSymbol _).bind fun _ => .pure (hmake v)

theorem aimed_folds (h : Folds Expr.folded expr expr) (k : Keyword) {make : Expr → String → Stmt}
    (hmake : ∀ v list, make v.folded (Text.lower list) = (make v list).folded) :
    Folds Stmt.folded (aimed expr k make) (aimed expr k make) :=
  h.bind fun v => (Folds.expectKeyword _).bind fun _ => (Folds.expectName _).bind fun list =>
    (Folds.expectSymbol _).bind fun _ => .pure (hmake v list)

theorem assigned_folds (h : Folds Expr.folded expr expr) (k : Keyword)
    {make : Target → Expr → Stmt} (hmake : ∀ g v, make g.folded v.folded = (make g v).folded) :
    Folds Stmt.folded (assigned expr k make) (assigned expr k make) :=
  (target_folds h).bind fun g => (Folds.expectKeyword _).bind fun _ => h.bind fun v =>
    (Folds.expectSymbol _).bind fun _ => .pure (hmake g v)

theorem bodied_folds (h : Folds Stmt.folded stmt stmt) (echoes : List Keyword)
    {make make' : List Stmt → Stmt} (hmake : ∀ b, make' (Stmt.foldedAll b) = (make b).folded) :
    Folds Stmt.folded (bodied stmt echoes make) (bodied stmt echoes make') :=
  (Folds.expectSymbol _).bind fun _ => (block_folds h _).bind fun b =>
    (finish_folds _).bind fun _ => .pure (hmake b)

theorem otherwise_folds (h : Folds Stmt.folded stmt stmt) :
    Folds Stmt.foldedAll (otherwise stmt) (otherwise stmt) :=
  .acceptThen _ ((Folds.expectSymbol _).bind fun _ => block_folds h _) (.pure rfl)

theorem ifStatement_folds (he : Folds Expr.folded expr expr) (hs : Folds Stmt.folded stmt stmt)
    (start : Nat) :
    Folds Stmt.folded (ifStatement expr stmt start) (ifStatement expr stmt start) := by
  rw [ifStatement_eq]
  refine he.bind fun c => (Folds.accept _).bind fun _ => (Folds.accept _).bind fun _ => ?_
  refine (Folds.expectSymbol _).bind fun _ => (block_folds hs _).bind fun a => ?_
  exact (otherwise_folds hs).bind fun b => (finish_folds _).bind fun _ => .pure rfl

theorem opened?_folds (he : Folds Expr.folded expr expr) (hs : Folds Stmt.folded stmt stmt)
    {start : Nat} {k : Keyword} {p : Parser Stmt} (hp : opened? expr stmt start k = some p) :
    Folds Stmt.folded p p := by
  cases k <;> simp only [opened?, Option.some.injEq, reduceCtorEq] at hp <;> subst hp
  case letWord =>
    exact (Folds.expectName _).bind fun _ => (Folds.expectKeyword _).bind fun _ =>
      he.bind fun _ => (Folds.expectSymbol _).bind fun _ => .pure rfl
  case setWord => exact assigned_folds he .toWord fun _ _ => rfl
  case increaseWord | decreaseWord =>
    exact assigned_folds he .byWord fun g v => by
      simp only [Stmt.folded, Expr.folded, Target.toExpr_folded]
  case sayWord => exact valued_folds he fun _ => rfl
  case returnWord => exact valued_folds he fun _ => rfl
  case appendWord => exact aimed_folds he .toWord fun _ _ => rfl
  case removeWord => exact aimed_folds he .fromWord fun _ _ => rfl
  case ifWord => exact ifStatement_folds he hs _
  case whileWord =>
    rw [whileStatement_eq]
    exact he.bind fun _ => (Folds.accept _).bind fun _ => (Folds.accept _).bind fun _ =>
      bodied_folds hs _ fun _ => rfl
  case repeatWord =>
    rw [repeatStatement_eq]
    exact he.bind fun _ => (Folds.expectKeyword _).bind fun _ => bodied_folds hs _ fun _ => rfl
  case forWord =>
    rw [forEachStatement_eq]
    exact (Folds.expectKeyword _).bind fun _ => (Folds.expectName _).bind fun _ =>
      (Folds.expectKeyword _).bind fun _ => he.bind fun _ => bodied_folds hs _ fun _ => rfl

theorem statementWith_folds (he : Folds Expr.folded expr expr) (hs : Folds Stmt.folded stmt stmt) :
    Folds Stmt.folded (statementWith expr stmt) (statementWith expr stmt) := by
  intro ts
  cases ts with
  | nil => rfl
  | cons t ts =>
    have hvalue : Folds Stmt.folded (evaluateStatement expr t.offset)
        (evaluateStatement expr t.offset) := valued_folds he fun _ => rfl
    simp only [statementWith, List.map_cons, Token.kind_folded, Token.offset_folded]
    split
    · split
      · next hp => exact opened?_folds he hs hp ts
      · exact hvalue (t :: ts)
    · exact hvalue (t :: ts)

end Statements

theorem statement_folds (limit : Nat) : Folds Stmt.folded (statement limit) (statement limit) := by
  induction limit with
  | zero =>
    intro ts
    cases ts <;> rfl
  | succ limit ih => exact statementWith_folds (expression_folds _) ih

/-! ### Programs -/

theorem parameters_folds : Folds (List.map Text.lower) parameters parameters := by
  have hfurther : Folds (Option.map Text.lower) furtherParameter? furtherParameter? :=
    .acceptThen _ ((Folds.expectName _).bind fun _ => .pure rfl) (.pure rfl)
  have hclose : ∀ names : List String, Folds (List.map Text.lower)
      (do
        let names ← pure names
        let _ ← expectSymbol .rightParen
        return names)
      (do
        let names ← pure (names.map Text.lower)
        let _ ← expectSymbol .rightParen
        return names) := fun names =>
    (show Folds (List.map Text.lower) (pure names) (pure (names.map Text.lower)) from
      .pure rfl).bind fun _ => (Folds.expectSymbol _).bind fun _ => .pure rfl
  refine (Folds.expectSymbol _).bind fun _ => .choose (hclose []) ?_
  refine (Folds.expectName _).bind fun first => hfurther.repeated.bind fun rest => ?_
  exact hclose (first :: rest)

theorem declaration_folds {stmt : Parser Stmt} (h : Folds Stmt.folded stmt stmt) :
    Folds Declaration.folded (declaration stmt) (declaration stmt) := by
  refine (Folds.expectKeyword _).bind fun start => (Folds.expectName _).bind fun name => ?_
  refine parameters_folds.bind fun names => (Folds.expectSymbol _).bind fun _ => ?_
  refine (block_folds h _).bind fun body => (Folds.expectKeyword _).bind fun _ => ?_
  refine (Folds.expectSymbol _).bind fun _ => .pure ?_
  rw [Token.offset_folded]
  rfl

theorem declares_folded (ts : List Token) : declares (ts.map Token.folded) = declares ts := by
  rcases ts with _ | ⟨a, _ | ⟨b, _ | ⟨c, ts⟩⟩⟩
  · rfl
  · rfl
  · rfl
  · simp [declares]

def foldedItem : Declaration ⊕ Stmt → Declaration ⊕ Stmt := Sum.map Declaration.folded Stmt.folded

theorem item?_folds (limit : Nat) : Folds (Option.map foldedItem) (item? (statement limit))
    (item? (statement limit)) := by
  intro ts
  simp only [item?, declares_folded, List.isEmpty_map]
  split
  · rfl
  · split
    · rw [declaration_folds (statement_folds limit) ts]
      exact answered_bind fun _ _ => rfl
    · rw [statement_folds limit ts]
      exact answered_bind fun _ _ => rfl

theorem ofItems_folded (xs : List (Declaration ⊕ Stmt)) :
    Program.ofItems (xs.map foldedItem) = (Program.ofItems xs).folded := by
  simp only [Program.ofItems, Program.folded, Stmt.foldedAll_eq_map, List.filterMap_map,
    List.map_filterMap]
  congr 1
  · congr 1
    funext x
    cases x <;> rfl
  · congr 1
    funext x
    cases x <;> rfl

/-- The program of folded tokens, or their fault. -/
theorem parse_folded (limit : Nat) (ts : List Token) :
    Program.parse limit (ts.map Token.folded) = match Program.parse limit ts with
      | .ok p => .ok p.folded
      | .error fault => .error fault.folded := by
  simp only [Program.parse]
  rw [(item?_folds limit).repeated ts]
  cases repeated (item? (statement limit)) ts with
  | ok answer => exact congrArg Except.ok (ofItems_folded answer.1)
  | error fault => rfl

end Parlance.Parse
