import Parlance.Proofs.Grammar.Statements
/-!
# Refusals

Where a parser gives up, the fault that it answers with names the next token of what is left of its
tokens (`Raised`), whichever parser it is (`Answers`). It is a fault for the nesting only on at least
as many tokens as the nesting limit: a limit above the number of tokens never comes into play
(`parse_ne_tooDeep`).
-/
namespace Parlance.Parse

variable {α β : Type} {n m : Nat}

/-- A fault on some tokens, with a nesting limit of `n`: it names the next token of some rest of
them, and it is for the nesting only if the tokens are not fewer than the limit. -/
inductive Raised (n : Nat) (ts : List Token) : ParseFault → Prop
  | missing {rest : List Token} (wanted : Wanted) :
      rest <:+ ts → Raised n ts (.missing wanted rest.head?)
  | noExpression {rest : List Token} : rest <:+ ts → Raised n ts (.noExpression rest.head?)
  | notCallable {t : Token} {rest : List Token} (callee : NodeKind) :
      t :: rest <:+ ts → Raised n ts (.notCallable callee t.offset)
  | notAssignable {start rest : List Token} :
      start <:+ ts → rest <:+ ts → Raised n ts (.notAssignable start.head? rest.head?)
  | tooDeep {rest : List Token} :
      rest <:+ ts → n ≤ ts.length → Raised n ts (.tooDeep rest.head?)

/-- An answer: a fault that is raised on `ts`, or what is left is a rest of `us`. -/
inductive Answered (n : Nat) (ts us : List Token) : Except ParseFault (α × List Token) → Prop
  | ok {a : α} {rest : List Token} : rest <:+ us → Answered n ts us (.ok (a, rest))
  | error {fault : ParseFault} : Raised n ts fault → Answered n ts us (.error fault)

/-- The parser leaves a rest of its tokens, or raises a fault on them. -/
def Answers (n : Nat) (p : Parser α) : Prop := ∀ ts, Answered n ts ts (p ts)

section Raised

variable {ts us rest : List Token} {fault : ParseFault}

theorem Raised.mono (h : Raised n ts fault) (hm : m ≤ n) (hs : ts <:+ us) : Raised m us fault := by
  cases h with
  | missing wanted hrest => exact .missing wanted (hrest.trans hs)
  | noExpression hrest => exact .noExpression (hrest.trans hs)
  | notCallable callee hrest => exact .notCallable callee (hrest.trans hs)
  | notAssignable hstart hrest => exact .notAssignable (hstart.trans hs) (hrest.trans hs)
  | tooDeep hrest hn =>
    have hlength := hs.length_le
    exact .tooDeep (hrest.trans hs) (by omega)

/-- One more token makes room for one more level. -/
theorem Raised.cons (h : Raised n ts fault) (t : Token) : Raised (n + 1) (t :: ts) fault := by
  have hs := List.suffix_cons t ts
  cases h with
  | missing wanted hrest => exact .missing wanted (hrest.trans hs)
  | noExpression hrest => exact .noExpression (hrest.trans hs)
  | notCallable callee hrest => exact .notCallable callee (hrest.trans hs)
  | notAssignable hstart hrest => exact .notAssignable (hstart.trans hs) (hrest.trans hs)
  | tooDeep hrest hn => exact .tooDeep (hrest.trans hs) (Nat.succ_le_succ hn)

end Raised

namespace Answered

variable {ts us vs ts' us' : List Token} {r : Except ParseFault (α × List Token)}

theorem mono (h : Answered n ts us r) (hm : m ≤ n) (hts : ts <:+ ts') (hus : us <:+ us') :
    Answered m ts' us' r := by
  cases h with
  | ok hrest => exact .ok (hrest.trans hus)
  | error hraised => exact .error (hraised.mono hm hts)

theorem cons (h : Answered n ts us r) (t : Token) : Answered (n + 1) (t :: ts) us r := by
  cases h with
  | ok hrest => exact .ok hrest
  | error hraised => exact .error (hraised.cons t)

theorem bind {f : α × List Token → Except ParseFault (β × List Token)} (h : Answered n ts us r)
    (hf : ∀ a rest, rest <:+ us → Answered n ts vs (f (a, rest))) :
    Answered n ts vs (r >>= f) := by
  cases h with
  | ok hrest => exact hf _ _ hrest
  | error hraised => exact .error hraised

end Answered

namespace Answers

theorem on {p : Parser α} (h : Answers n p) {rest us ts : List Token} (hrest : rest <:+ us)
    (hus : us <:+ ts) : Answered n ts us (p rest) :=
  (h rest).mono (Nat.le_refl n) (hrest.trans hus) hrest

theorem mono {p : Parser α} (h : Answers n p) (hm : m ≤ n) : Answers m p :=
  fun ts => (h ts).mono hm (List.suffix_refl ts) (List.suffix_refl ts)

theorem pure (a : α) : Answers n (Pure.pure a : Parser α) := fun ts => .ok (List.suffix_refl ts)

theorem bind {x : Parser α} {f : α → Parser β} (hx : Answers n x) (hf : ∀ a, Answers n (f a)) :
    Answers n (x >>= f) :=
  fun ts => (hx ts).bind fun a _ hrest => (hf a).on hrest (List.suffix_refl ts)

theorem get : Answers n (get : Parser (List Token)) := fun ts => .ok (List.suffix_refl ts)

theorem accept (k : TokenKind) : Answers n (accept k) := by
  intro ts
  cases ts with
  | nil => exact .ok (List.suffix_refl _)
  | cons t ts =>
    simp only [Parse.accept]
    split
    · exact .ok (List.suffix_cons t ts)
    · exact .ok (List.suffix_refl _)

theorem expectAs (k : TokenKind) (w : Wanted) : Answers n (expectAs k w) := by
  intro ts
  cases ts with
  | nil => exact .error (.missing w (List.suffix_refl []))
  | cons t ts =>
    simp only [Parse.expectAs]
    split
    · exact .ok (List.suffix_cons t ts)
    · exact .error (.missing w (List.suffix_refl (t :: ts)))

theorem expectSymbol (s : Symbol) : Answers n (expectSymbol s) := expectAs _ _

theorem expectKeyword (k : Keyword) : Answers n (expectKeyword k) := expectAs _ _

theorem expectName (w : Wanted) : Answers n (expectName w) :=
  (expectAs _ _).bind fun _ => pure _

theorem acceptThen (k : TokenKind) {x y : Parser α} (hx : Answers n x) (hy : Answers n y) :
    Answers n (do if ← Parse.accept k then x else y) := by
  refine (accept k).bind fun b => ?_
  cases b with
  | true => exact hx
  | false => exact hy

theorem choose {k : Option TokenKind} {x y : Parser α} (hx : Answers n x) (hy : Answers n y) :
    Answers n (do if kindAt (← MonadStateOf.get) = k then x else y) := by
  refine get.bind fun ts => ?_
  split
  · exact hx
  · exact hy

theorem collect {item : Parser (Option α)} (h : Answers n item) (bound : List Token) :
    Answers n (collect item bound) := by
  induction bound with
  | nil => exact pure _
  | cons b bound ih =>
    refine h.bind fun o => ?_
    cases o with
    | none => exact pure _
    | some a => exact ih.bind fun _ => pure _

theorem repeated {item : Parser (Option α)} (h : Answers n item) : Answers n (repeated item) :=
  fun ts => h.collect ts ts

end Answers

/-! ### Expressions -/

section Expressions

variable {expr operand : Parser Expr}

theorem operation?_answers (h : Answers n operand) : Answers n (operation? operand) := by
  intro ts
  cases ts with
  | nil => exact .ok (List.suffix_refl _)
  | cons t ts =>
    simp only [operation?]
    split
    · exact .ok (List.suffix_refl _)
    · exact (h.on (List.suffix_cons t ts) (List.suffix_refl _)).bind fun _ _ hrest => .ok hrest

theorem chain_answers (h : Answers n operand) : Answers n (chain operand) :=
  h.bind fun _ => (operation?_answers h).repeated.bind fun _ => .pure _

theorem further?_answers (h : Answers n expr) : Answers n (further? expr) :=
  .acceptThen _ (h.bind fun _ => .pure _) (.pure _)

theorem arguments_answers (h : Answers n expr) (closing : Symbol) :
    Answers n (arguments expr closing) := by
  refine .choose ((Answers.expectSymbol _).bind fun _ => .pure _) (h.bind fun _ => ?_)
  refine (further?_answers h).repeated.bind fun _ => ?_
  exact (Answers.expectSymbol _).bind fun _ => .pure _

theorem primary_answered (h : Answers n expr) (t : Token) (ts : List Token) :
    Answered (n + 1) (t :: ts) ts (primary expr (t :: ts)) := by
  simp only [primary]
  split
  · exact .ok (List.suffix_refl _)
  · exact .ok (List.suffix_refl _)
  · exact .ok (List.suffix_refl _)
  · exact .ok (List.suffix_refl _)
  · refine ((h ts).cons t).bind fun e mid hmid => ?_
    refine ((Answers.expectSymbol _).on hmid (List.suffix_cons t ts)).bind fun _ _ hrest => ?_
    exact .ok hrest
  · exact ((arguments_answers h _ ts).cons t).bind fun _ _ hrest => .ok hrest
  · exact .error (.noExpression (List.suffix_refl (t :: ts)))

theorem indexes_answers (h : Answers n expr) (bound : List Token) (e : Expr) :
    Answers n (indexes expr bound e) := by
  induction bound generalizing e with
  | nil => exact .pure _
  | cons b bound ih =>
    intro ts
    cases ts with
    | nil => exact .ok (List.suffix_refl _)
    | cons t ts =>
      have hts := List.suffix_cons t ts
      simp only [indexes]
      split
      · refine ((arguments_answers h _).on hts (List.suffix_refl _)).bind fun _ _ _ => ?_
        exact .error (.notCallable _ (List.suffix_refl _))
      · refine (h.on hts (List.suffix_refl _)).bind fun i mid hmid => ?_
        refine ((Answers.expectSymbol _).on hmid (List.suffix_refl _)).bind fun _ rest hrest => ?_
        exact (ih _).on hrest (List.suffix_refl _)
      · exact .ok (List.suffix_refl _)

theorem called_answers (h : Answers n expr) (callee : Token) : Answers n (called expr callee) :=
  .acceptThen _ ((arguments_answers h _).bind fun _ => .pure _) (.pure _)

/-- A base takes its first token before it reads what is nested in it. -/
theorem postfixed_answers (h : Answers n expr) : Answers (n + 1) (postfixed expr) := by
  intro ts
  cases ts with
  | nil => exact .error (.noExpression (List.suffix_refl []))
  | cons t ts =>
    have hbase : Answered (n + 1) (t :: ts) ts (base expr (t :: ts)) := by
      simp only [base]
      split
      · exact (called_answers h t ts).cons t
      · exact primary_answered h t ts
    rw [postfixed_apply]
    refine hbase.bind fun e rest hrest => ?_
    have hindexes := (indexes_answers h rest e).on hrest (List.suffix_refl ts)
    exact (hindexes.cons t).mono (Nat.le_refl _) (List.suffix_refl _) (List.suffix_cons t ts)

end Expressions

theorem operand_answers (limit : Nat) : Answers limit (operand limit) := by
  induction limit with
  | zero => exact fun ts => .error (.tooDeep (List.suffix_refl ts) (Nat.zero_le _))
  | succ limit ih =>
    intro ts
    simp only [operand]
    split
    · next hop =>
      cases ts with
      | nil => cases hop
      | cons t ts =>
        refine ((ih ts).cons t).bind fun _ _ hrest => ?_
        exact .ok (hrest.trans (List.suffix_cons t ts))
    · exact postfixed_answers (chain_answers ih) ts

theorem expression_answers (limit : Nat) : Answers limit (expression limit) :=
  chain_answers (operand_answers limit)

/-! ### Statements -/

section Statements

variable {expr : Parser Expr} {stmt : Parser Stmt}

theorem target_answers (h : Answers n expr) : Answers n (target expr) := by
  intro ts
  cases ts with
  | nil => exact .error (.notAssignable (List.suffix_refl []) (List.suffix_refl []))
  | cons t ts =>
    have hts := List.suffix_cons t ts
    simp only [target]
    split
    · have hstands : ∀ (found : Target) (rest : List Token), rest <:+ t :: ts →
          Answered n (t :: ts) (t :: ts) (if continuesTarget (kindAt rest) then
            .error (.notAssignable (some t) rest.head?) else Pure.pure (found, rest)) := by
        intro found rest hrest
        split
        · exact .error (.notAssignable (List.suffix_refl (t :: ts)) hrest)
        · exact .ok hrest
      split
      · have htail : ts.tail <:+ t :: ts := (List.tail_suffix ts).trans hts
        refine (h.on htail (List.suffix_refl _)).bind fun i mid hmid => ?_
        refine ((Answers.expectSymbol _).on hmid (List.suffix_refl _)).bind fun _ rest hrest => ?_
        exact hstands _ rest hrest
      · exact hstands _ ts hts
    · exact .error (.notAssignable (List.suffix_refl (t :: ts)) (List.suffix_refl (t :: ts)))

theorem block_answers (h : Answers n stmt) (stops : List Keyword) :
    Answers n (block stmt stops) := by
  refine Answers.repeated fun ts => ?_
  cases ts with
  | nil => exact .ok (List.suffix_refl _)
  | cons t ts =>
    simp only
    split
    · exact .ok (List.suffix_refl _)
    · exact (h _).bind fun _ _ hrest => .ok hrest

theorem acceptAll_answers (ks : List Keyword) : Answers n (acceptAll ks) := by
  induction ks with
  | nil => exact .pure _
  | cons k ks ih => exact (Answers.accept _).bind fun _ => ih

theorem finish_answers (echoes : List Keyword) : Answers n (finish echoes) :=
  (Answers.expectKeyword _).bind fun _ => (acceptAll_answers _).bind fun _ =>
    (Answers.expectSymbol _).bind fun _ => .pure _

theorem valued_answers (h : Answers n expr) (make : Expr → Stmt) :
    Answers n (valued expr make) :=
  h.bind fun _ => (Answers.expectSymbol _).bind fun _ => .pure _

theorem aimed_answers (h : Answers n expr) (k : Keyword) (make : Expr → String → Stmt) :
    Answers n (aimed expr k make) :=
  h.bind fun _ => (Answers.expectKeyword _).bind fun _ => (Answers.expectName _).bind fun _ =>
    (Answers.expectSymbol _).bind fun _ => .pure _

theorem assigned_answers (h : Answers n expr) (k : Keyword) (make : Target → Expr → Stmt) :
    Answers n (assigned expr k make) :=
  (target_answers h).bind fun _ => (Answers.expectKeyword _).bind fun _ => h.bind fun _ =>
    (Answers.expectSymbol _).bind fun _ => .pure _

theorem letStatement_answers (h : Answers n expr) (start : Nat) :
    Answers n (letStatement expr start) :=
  (Answers.expectName _).bind fun _ => (Answers.expectKeyword _).bind fun _ => h.bind fun _ =>
    (Answers.expectSymbol _).bind fun _ => .pure _

theorem bodied_answers (h : Answers n stmt) (echoes : List Keyword) (make : List Stmt → Stmt) :
    Answers n (bodied stmt echoes make) :=
  (Answers.expectSymbol _).bind fun _ => (block_answers h _).bind fun _ =>
    (finish_answers _).bind fun _ => .pure _

theorem otherwise_answers (h : Answers n stmt) : Answers n (otherwise stmt) :=
  .acceptThen _ ((Answers.expectSymbol _).bind fun _ => block_answers h _) (.pure _)

theorem ifStatement_answers (he : Answers n expr) (hs : Answers n stmt) (start : Nat) :
    Answers n (ifStatement expr stmt start) := by
  rw [ifStatement_eq]
  refine he.bind fun _ => (Answers.accept _).bind fun _ => (Answers.accept _).bind fun _ => ?_
  refine (Answers.expectSymbol _).bind fun _ => (block_answers hs _).bind fun _ => ?_
  exact (otherwise_answers hs).bind fun _ => (finish_answers _).bind fun _ => .pure _

theorem opened?_answers (he : Answers n expr) (hs : Answers n stmt) {start : Nat} {k : Keyword}
    {p : Parser Stmt} (hp : opened? expr stmt start k = some p) : Answers n p := by
  cases k <;> simp only [opened?, Option.some.injEq, reduceCtorEq] at hp <;> subst hp
  case letWord => exact letStatement_answers he _
  case setWord => exact assigned_answers he .toWord _
  case increaseWord => exact assigned_answers he .byWord _
  case decreaseWord => exact assigned_answers he .byWord _
  case sayWord => exact valued_answers he _
  case returnWord => exact valued_answers he _
  case appendWord => exact aimed_answers he .toWord _
  case removeWord => exact aimed_answers he .fromWord _
  case ifWord => exact ifStatement_answers he hs _
  case whileWord =>
    rw [whileStatement_eq]
    exact he.bind fun _ => (Answers.accept _).bind fun _ => (Answers.accept _).bind fun _ =>
      bodied_answers hs _ _
  case repeatWord =>
    rw [repeatStatement_eq]
    exact he.bind fun _ => (Answers.expectKeyword _).bind fun _ => bodied_answers hs _ _
  case forWord =>
    rw [forEachStatement_eq]
    exact (Answers.expectKeyword _).bind fun _ => (Answers.expectName _).bind fun _ =>
      (Answers.expectKeyword _).bind fun _ => he.bind fun _ => bodied_answers hs _ _

/-- A keyword is taken before the statements that are nested behind it. -/
theorem statementWith_answers (he : Answers (n + 1) expr) (hs : Answers n stmt) :
    Answers (n + 1) (statementWith expr stmt) := by
  intro ts
  cases ts with
  | nil => exact .error (.noExpression (List.suffix_refl []))
  | cons t ts =>
    simp only [statementWith]
    split
    · split
      · next hp =>
        have hopened := opened?_answers (he.mono (Nat.le_succ n)) hs hp
        exact ((hopened ts).cons t).mono (Nat.le_refl _) (List.suffix_refl _)
          (List.suffix_cons t ts)
      · exact valued_answers he _ _
    · exact valued_answers he _ _

end Statements

theorem statement_answers (limit : Nat) : Answers limit (statement limit) := by
  induction limit with
  | zero => exact fun ts => .error (.tooDeep (List.suffix_refl ts) (Nat.zero_le _))
  | succ limit ih => exact statementWith_answers (expression_answers _) ih

/-! ### Programs -/

theorem parameters_answers : Answers n parameters := by
  have hfurther : Answers n furtherParameter? :=
    .acceptThen _ ((Answers.expectName _).bind fun _ => .pure _) (.pure _)
  refine (Answers.expectSymbol _).bind fun _ => Answers.get.bind fun ts => ?_
  split
  · exact (Answers.expectSymbol _).bind fun _ => .pure _
  · exact (Answers.expectName _).bind fun _ => hfurther.repeated.bind fun _ =>
      (Answers.expectSymbol _).bind fun _ => .pure _

theorem declaration_answers {stmt : Parser Stmt} (h : Answers n stmt) :
    Answers n (declaration stmt) :=
  (Answers.expectKeyword _).bind fun _ => (Answers.expectName _).bind fun _ =>
    parameters_answers.bind fun _ => (Answers.expectSymbol _).bind fun _ =>
      (block_answers h _).bind fun _ => (Answers.expectKeyword _).bind fun _ =>
        (Answers.expectSymbol _).bind fun _ => .pure _

theorem item?_answers {stmt : Parser Stmt} (h : Answers n stmt) : Answers n (item? stmt) := by
  intro ts
  simp only [item?]
  split
  · exact .ok (List.nil_suffix)
  · split
    · exact (declaration_answers h ts).bind fun _ _ hrest => .ok hrest
    · exact (h ts).bind fun _ _ hrest => .ok hrest

section Programs

variable {limit : Nat} {ts : List Token} {fault : ParseFault}

/-- Tokens that are no program are refused for one of them, or for their end. -/
theorem raised_of_parse (h : Program.parse limit ts = .error fault) : Raised limit ts fault := by
  have hanswered := (item?_answers (statement_answers limit)).repeated ts
  rw [Program.parse] at h
  cases hread : repeated (item? (statement limit)) ts with
  | ok r =>
    rw [hread] at h
    cases h
  | error fault =>
    rw [hread] at h hanswered
    cases h
    cases hanswered with
    | error hraised => exact hraised

/-- Tokens that are no expression are refused for one of them, or for their end. -/
theorem raised_of_expression (h : Expr.parse limit ts = .error fault) : Raised limit ts fault := by
  have hanswered := expression_answers limit ts
  rw [Expr.parse] at h
  cases hread : expression limit ts with
  | error fault =>
    rw [hread] at h hanswered
    cases h
    cases hanswered with
    | error hraised => exact hraised
  | ok r =>
    obtain ⟨e, rest⟩ := r
    rw [hread] at h hanswered
    cases hanswered with
    | ok hrest =>
      cases rest with
      | nil => cases h
      | cons t rest =>
        cases h
        exact .missing _ hrest

/-- A program whose tokens are fewer than the limit is never refused for its nesting. -/
theorem parse_ne_tooDeep (h : ts.length < limit) (found : Option Token) :
    Program.parse limit ts ≠ .error (.tooDeep found) := by
  intro hrefused
  cases raised_of_parse hrefused with
  | tooDeep _ hlimit => omega

end Programs

end Parlance.Parse
