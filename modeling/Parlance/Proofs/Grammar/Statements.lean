import Parlance.Proofs.Grammar.Expressions
/-!
# Statements are read by the grammar

`statement_reads`: below the nesting limit the statement parser reads `Statement`, whatever follows.
-/
namespace Parlance.Parse
open Grammar

variable {n : Nat} {expr : Parser Expr} {stmt : Parser Stmt} {S : Rule Stmt}

/-! ### Optional words -/

theorem accept_sound {k : TokenKind} {b : Bool} {ts rest : List Token}
    (h : accept k ts = .ok (b, rest)) : ∃ xs, ts = xs ++ rest ∧ Optional k xs := by
  rcases accept_eq_ok.mp h with ⟨_, t, rfl, ht⟩ | ⟨_, rfl, _⟩
  · exact ⟨[t], rfl, .present ht⟩
  · exact ⟨[], rfl, .absent⟩

theorem accept_complete {k : TokenKind} {xs rest : List Token} (h : Optional k xs)
    (hr : kindAt rest ≠ some k) : ∃ b, accept k (xs ++ rest) = .ok (b, rest) := by
  cases h with
  | absent => exact ⟨false, accept_eq_ok.mpr (.inr ⟨rfl, rfl, hr⟩)⟩
  | @present t ht => exact ⟨true, accept_eq_ok.mpr (.inl ⟨rfl, t, rfl, ht⟩)⟩

theorem kindAt_optional_ne {k k' : TokenKind} {xs rest : List Token} (h : Optional k xs)
    (hk : k ≠ k') (hr : kindAt rest ≠ some k') : kindAt (xs ++ rest) ≠ some k' := by
  cases h with
  | absent => exact hr
  | present ht => simpa [kindAt, ht] using hk

theorem ended_optional {k : TokenKind} {xs rest : List Token} (h : Optional k xs)
    (hk : continuesTarget (some k) = false) (hr : Ended rest) : Ended (xs ++ rest) := by
  cases h with
  | absent => exact hr
  | present ht => simpa [Ended, kindAt, ht] using hk

theorem acceptAll_sound {ks : List Keyword} {ts rest : List Token}
    (h : acceptAll ks ts = .ok ((), rest)) : ∃ xs, ts = xs ++ rest ∧ Echo ks xs := by
  induction ks generalizing ts with
  | nil =>
    obtain ⟨_, rfl⟩ := pure_eq_ok.mp h
    exact ⟨[], rfl, .nil⟩
  | cons k ks ih =>
    simp only [acceptAll, bind_eq_ok] at h
    obtain ⟨b, mid, hb, h⟩ := h
    obtain ⟨xs, rfl, hx⟩ := accept_sound hb
    obtain ⟨ys, rfl, hy⟩ := ih h
    exact ⟨xs ++ ys, (List.append_assoc ..).symm, .cons hx hy⟩

theorem kindAt_echo_ne {ks : List Keyword} {k : Keyword} {xs rest : List Token} (h : Echo ks xs)
    (hk : k ∉ ks) (hr : kindAt rest ≠ some (.keyword k)) :
    kindAt (xs ++ rest) ≠ some (.keyword k) := by
  induction h with
  | nil => exact hr
  | cons hx _ ih =>
    simp only [List.mem_cons, not_or] at hk
    rw [List.append_assoc]
    exact kindAt_optional_ne hx (by simpa using Ne.symm hk.1) (ih hk.2)

theorem acceptAll_complete {ks : List Keyword} {xs rest : List Token} (h : Echo ks xs)
    (hks : ks.Nodup) (hr : ∀ k ∈ ks, kindAt rest ≠ some (.keyword k)) :
    acceptAll ks (xs ++ rest) = .ok ((), rest) := by
  induction h with
  | nil => rfl
  | @cons k ks ts ys hx hy ih =>
    obtain ⟨hk, hks⟩ := List.nodup_cons.mp hks
    obtain ⟨b, hb⟩ := accept_complete hx (kindAt_echo_ne hy hk (hr k (by simp)))
    rw [List.append_assoc]
    simp only [acceptAll, bind_eq_ok]
    exact ⟨b, _, hb, ih hks fun k' hk' => hr k' (by simp [hk'])⟩

theorem finish_reads {echoes : List Keyword} (hnodup : echoes.Nodup) :
    Reads n (finish echoes) (fun xs _ => Close echoes xs) Anything where
  sound {ts rest _} _ h := by
    simp only [finish, bind_eq_ok, expectKeyword_eq_ok, expectSymbol_eq_ok, pure_eq_ok] at h
    obtain ⟨e, _, ⟨rfl, he⟩, _, _, hecho, d, _, ⟨rfl, hd⟩, _, rfl⟩ := h
    obtain ⟨xs, rfl, hx⟩ := acceptAll_sound hecho
    exact ⟨e :: xs ++ [d], by simp, .intro he hx hd, trivial⟩
  complete {xs rest _} _ hx _ := by
    obtain @⟨e, d, ts, he, hts, hd⟩ := hx
    have hecho : acceptAll echoes (ts ++ d :: rest) = .ok ((), d :: rest) :=
      acceptAll_complete hts hnodup fun k _ => by simp [kindAt_cons_sign hd]
    simp only [finish, bind_eq_ok, expectKeyword_eq_ok, expectSymbol_eq_ok, pure_eq_ok]
    exact ⟨e, ts ++ d :: rest, ⟨by simp, he⟩, (), _, hecho, d, rest, ⟨rfl, hd⟩, trivial, rfl⟩

/-! ### Assignables -/

theorem ended_of_not {ts : List Token} (h : ¬ continuesTarget (kindAt ts) = true) : Ended ts :=
  Bool.eq_false_iff.mpr h

theorem target_reads (he : Reads n expr Expression Ended) :
    Reads n (target expr) Assignable Ended where
  sound {ts rest g} hn h := by
    cases ts with
    | nil => cases h
    | cons t ts =>
      simp only [target] at h
      split at h
      · next ht =>
        split at h
        · next hk =>
          cases ts with
          | nil => simp [kindAt] at hk
          | cons o ts =>
            simp only [List.tail_cons, except_bind_eq_ok, Prod.exists, expectSymbol_eq_ok] at h
            obtain ⟨i, _, hi, c, mid, ⟨rfl, hc⟩, found, _, hfound, h⟩ := h
            cases hfound
            split at h
            · cases h
            · next hend =>
              cases h
              have hn : ts.length < n := by
                simp at hn
                omega
              obtain ⟨xs, rfl, hx, _⟩ := he.sound hn hi
              have ho : o.kind = .symbol .leftBracket := by simpa [kindAt] using hk
              exact ⟨t :: o :: xs ++ [c], by simp, .element ht ho hx hc, ended_of_not hend⟩
        · simp only [except_bind_eq_ok, Prod.exists] at h
          obtain ⟨found, _, hfound, h⟩ := h
          cases hfound
          split at h
          · cases h
          · next hend =>
            cases h
            exact ⟨[t], rfl, .name ht, ended_of_not hend⟩
      · cases h
  complete {xs rest g} hn hx hr := by
    have hu := Ended.unapplied hr
    have hend : ¬ continuesTarget (kindAt rest) = true := Bool.eq_false_iff.mp hr
    cases hx with
    | @name t ht =>
      have ht : t.kind = .name := ht
      have hk : ¬ kindAt rest = some (.symbol .leftBracket) := hu.2
      simp only [target, List.singleton_append, ht, if_true, if_neg hk]
      show (if _ then _ else _) = _
      rw [if_neg hend]
      rfl
    | @element t o c ts i ht ho hx hc =>
      have ht : t.kind = .name := ht
      have hn : (ts ++ c :: rest).length < n := by
        simp at hn ⊢
        omega
      have hi : expr (ts ++ c :: rest) = .ok (i, c :: rest) :=
        he.complete hn hx (ended_of_sign hc rfl _)
      have hclose : expectSymbol .rightBracket (c :: rest) = .ok (c, rest) :=
        expectSymbol_eq_ok.mpr ⟨rfl, hc⟩
      simp only [target, List.cons_append, ht, if_true, kindAt_cons_sign ho, List.tail_cons,
        List.append_assoc, List.nil_append, except_bind_eq_ok, Prod.exists]
      refine ⟨i, _, hi, c, rest, hclose, _, _, rfl, ?_⟩
      rw [if_neg hend]
      rfl

/-! ### Blocks -/

/-- The keywords that open a statement. -/
def openers : List Keyword :=
  [.letWord, .setWord, .increaseWord, .decreaseWord, .sayWord, .ifWord, .whileWord, .repeatWord,
   .forWord, .appendWord, .removeWord, .returnWord]

/-- The kinds of token with which a statement starts. -/
def startsStatement (k : TokenKind) : Bool :=
  startsExpression k || openers.any fun w => k == .keyword w

theorem opened_starts {k : Keyword} {ts : List Token} {s : Stmt} (h : Opened S k ts s) :
    k ∈ openers ∧ ∃ t rest, ts = t :: rest ∧ IsWord k t := by
  cases h with
  | letBe hk | setTo hk | increase hk | decrease hk | say hk | ifThen hk | whileDo hk
  | repeatTimes hk | forEach hk | append hk | remove hk | giveBack hk =>
    exact ⟨by decide, _, _, rfl, hk⟩

theorem statement_starts {ts : List Token} {s : Stmt} (h : Statement ts s) :
    Starts startsStatement ts := by
  cases h with
  | @opened k _ _ h =>
    obtain ⟨hk, t, rest, rfl, ht⟩ := opened_starts h
    refine starts_cons ht ?_ _
    simp only [startsStatement, Bool.or_eq_true, List.any_eq_true]
    exact .inr ⟨k, hk, by simp⟩
  | evaluate hx _ =>
    have h := (expression_starts hx).append
    exact (h _).mono fun k hk => by simp [startsStatement, hk]

/-- One of the keywords is next, or nothing. -/
def Stopped (stops : List Keyword) (ts : List Token) : Prop :=
  ∀ k, kindAt ts = some k → ∃ w ∈ stops, k = .keyword w

theorem block_steps (hs : Reads n stmt S Anything)
    (hS : ∀ ts s, S ts s → Starts startsStatement ts) {stops : List Keyword}
    (hstops : ∀ w ∈ stops, startsStatement (.keyword w) = false) :
    Steps n (fun tokens => match tokens with
      | [] => .ok (none, [])
      | t :: rest =>
        if stops.any fun k => t.kind == .keyword k then .ok (none, t :: rest)
        else do
          let (s, rest) ← stmt (t :: rest)
          return (some s, rest)) S Anything (Stopped stops) where
  step_sound {ts rest a} hn h := by
    cases ts with
    | nil => cases h
    | cons t ts =>
      simp only at h
      split at h
      · cases h
      · simp only [except_bind_eq_ok, Prod.exists] at h
        obtain ⟨s, mid, hx, h⟩ := h
        cases h
        exact hs.sound hn hx
  stop_sound {ts rest} hn h := by
    cases ts with
    | nil =>
      cases h
      exact ⟨rfl, by simp [Stopped, kindAt]⟩
    | cons t ts =>
      simp only at h
      split at h
      · next hany =>
        cases h
        refine ⟨rfl, ?_⟩
        simpa [Stopped, kindAt] using hany
      · simp only [except_bind_eq_ok, Prod.exists] at h
        obtain ⟨s, mid, hx, h⟩ := h
        cases h
  step_complete {xs rest a} hn hx _ := by
    have h := hs.complete hn hx trivial
    obtain ⟨k, hk, hp⟩ := (hS _ _ hx).append rest
    cases hxs : xs ++ rest with
    | nil => simp [hxs, kindAt] at hk
    | cons t ts =>
      have hkind : t.kind = k := by simpa [hxs, kindAt] using hk
      have hany : ¬ (stops.any fun w => t.kind == .keyword w) = true := by
        simp only [List.any_eq_true, beq_iff_eq, not_exists, not_and]
        rintro w hw he
        rw [← hkind, he, hstops w hw] at hp
        cases hp
      rw [hxs] at h
      simp only [if_neg hany, h]
      rfl
  stop_complete {ts} _ h := by
    cases ts with
    | nil => rfl
    | cons t ts =>
      have hany : (stops.any fun w => t.kind == .keyword w) = true := by
        simpa using h t.kind rfl
      simp only [if_pos hany]
  stop_nil := by simp [Stopped, kindAt]
  rule_ne_nil h := (hS _ _ h).ne_nil
  next_rule _ := trivial

theorem block_reads (hs : Reads n stmt S Anything)
    (hS : ∀ ts s, S ts s → Starts startsStatement ts) {stops : List Keyword}
    (hstops : ∀ w ∈ stops, startsStatement (.keyword w) = false) :
    Reads n (block stmt stops) (Many S) (Stopped stops) where
  sound hn h := by
    obtain ⟨xs, hx, hm, _, hr⟩ := repeated_sound (block_steps hs hS hstops) hn trivial h
    exact ⟨xs, hx, hm, hr⟩
  complete hn hx hr := repeated_complete (block_steps hs hS hstops) hx hn trivial hr

theorem stopped_of_word {stops : List Keyword} {t : Token} {k : Keyword} (h : IsWord k t)
    (hk : k ∈ stops) (ts : List Token) : Stopped stops (t :: ts) := by
  intro k' hk'
  rw [kindAt_cons_word h, Option.some.injEq] at hk'
  exact ⟨k, hk, hk'.symm⟩

/-! ### The forms of statement -/

/-- An expression and a point. -/
inductive Valued (make : Expr → Stmt) : Rule Stmt
  | intro {d : Token} {ts : List Token} {v : Expr} :
      Expression ts v → IsSign .dot d → Valued make (ts ++ [d]) (make v)

/-- An expression, a keyword, the name of a list and a point. -/
inductive Aimed (k : Keyword) (make : Expr → String → Stmt) : Rule Stmt
  | intro {w x d : Token} {ts : List Token} {v : Expr} :
      Expression ts v → IsWord k w → IsName x → IsSign .dot d →
      Aimed k make (ts ++ [w, x, d]) (make v x.text)

/-- An assignable, a keyword, an expression and a point. -/
inductive Assigned (k : Keyword) (make : Target → Expr → Stmt) : Rule Stmt
  | intro {w d : Token} {gs ts : List Token} {g : Target} {v : Expr} :
      Assignable gs g → IsWord k w → Expression ts v → IsSign .dot d →
      Assigned k make (gs ++ w :: ts ++ [d]) (make g v)

/-- The parser of a statement that ends with its value. -/
def valued (expr : Parser Expr) (make : Expr → Stmt) : Parser Stmt := do
  let value ← expr
  let _ ← expectSymbol .dot
  return make value

/-- The parser of a statement that changes a list. -/
def aimed (expr : Parser Expr) (k : Keyword) (make : Expr → String → Stmt) : Parser Stmt := do
  let value ← expr
  let _ ← expectKeyword k
  let list ← expectName .listName
  let _ ← expectSymbol .dot
  return make value list

/-- The parser of a statement that assigns. -/
def assigned (expr : Parser Expr) (k : Keyword) (make : Target → Expr → Stmt) : Parser Stmt := do
  let goal ← target expr
  let _ ← expectKeyword k
  let value ← expr
  let _ ← expectSymbol .dot
  return make goal value

theorem valued_reads (he : Reads n expr Expression Ended) (make : Expr → Stmt) :
    Reads n (valued expr make) (Valued make) Anything where
  sound {ts rest s} hn h := by
    simp only [valued, bind_eq_ok, expectSymbol_eq_ok, pure_eq_ok] at h
    obtain ⟨v, _, hv, d, _, ⟨rfl, hd⟩, rfl, rfl⟩ := h
    obtain ⟨xs, rfl, hxs, _⟩ := he.sound hn hv
    exact ⟨xs ++ [d], by simp, .intro hxs hd, trivial⟩
  complete {xs rest s} hn hx _ := by
    obtain @⟨d, ts, v, hv, hd⟩ := hx
    have heq : ts ++ [d] ++ rest = ts ++ d :: rest := by simp
    have hv := he.complete (heq ▸ hn) hv (ended_of_sign hd rfl _)
    simp only [heq, valued, bind_eq_ok, expectSymbol_eq_ok, pure_eq_ok]
    exact ⟨v, _, hv, d, _, ⟨rfl, hd⟩, rfl, rfl⟩

theorem aimed_reads (he : Reads n expr Expression Ended) (k : Keyword)
    (make : Expr → String → Stmt) : Reads n (aimed expr k make) (Aimed k make) Anything where
  sound {ts rest s} hn h := by
    simp only [aimed, bind_eq_ok, expectKeyword_eq_ok, expectName_eq_ok, expectSymbol_eq_ok,
      pure_eq_ok] at h
    obtain ⟨v, _, hv, w, _, ⟨rfl, hw⟩, _, _, ⟨x, rfl, hx, rfl⟩, d, _, ⟨rfl, hd⟩, rfl, rfl⟩ := h
    obtain ⟨xs, rfl, hxs, _⟩ := he.sound hn hv
    exact ⟨xs ++ [w, x, d], by simp, .intro hxs hw hx hd, trivial⟩
  complete {xs rest s} hn hx _ := by
    obtain @⟨w, x, d, ts, v, hv, hw, hx, hd⟩ := hx
    have heq : ts ++ [w, x, d] ++ rest = ts ++ w :: x :: d :: rest := by simp
    have hv := he.complete (heq ▸ hn) hv (ended_of_word hw _)
    simp only [heq, aimed, bind_eq_ok, expectKeyword_eq_ok, expectName_eq_ok, expectSymbol_eq_ok,
      pure_eq_ok]
    exact ⟨v, _, hv, w, _, ⟨rfl, hw⟩, _, _, ⟨x, rfl, hx, rfl⟩, d, _, ⟨rfl, hd⟩, rfl, rfl⟩

theorem assigned_reads (he : Reads n expr Expression Ended) (k : Keyword)
    (make : Target → Expr → Stmt) :
    Reads n (assigned expr k make) (Assigned k make) Anything where
  sound {ts rest s} hn h := by
    simp only [assigned, bind_eq_ok, expectKeyword_eq_ok, expectSymbol_eq_ok, pure_eq_ok] at h
    obtain ⟨g, _, hg, w, mid, ⟨rfl, hw⟩, v, _, hv, d, _, ⟨rfl, hd⟩, rfl, rfl⟩ := h
    obtain ⟨gs, rfl, hgs, _⟩ := (target_reads he).sound hn hg
    have hn : mid.length < n := by
      simp at hn
      omega
    obtain ⟨xs, rfl, hxs, _⟩ := he.sound hn hv
    exact ⟨gs ++ w :: xs ++ [d], by simp, .intro hgs hw hxs hd, trivial⟩
  complete {xs rest s} hn hx _ := by
    obtain @⟨w, d, gs, ts, g, v, hg, hw, hv, hd⟩ := hx
    have heq : gs ++ w :: ts ++ [d] ++ rest = gs ++ w :: (ts ++ d :: rest) := by simp
    have hn' : (ts ++ d :: rest).length < n := by
      simp at hn ⊢
      omega
    have hg := (target_reads he).complete (heq ▸ hn) hg (ended_of_word hw _)
    have hv := he.complete hn' hv (ended_of_sign hd rfl _)
    simp only [heq, assigned, bind_eq_ok, expectKeyword_eq_ok, expectSymbol_eq_ok, pure_eq_ok]
    exact ⟨g, _, hg, w, _, ⟨rfl, hw⟩, v, _, hv, d, _, ⟨rfl, hd⟩, rfl, rfl⟩

theorem letStatement_reads (he : Reads n expr Expression Ended) {t : Token}
    (ht : IsWord .letWord t) :
    Reads n (letStatement expr t.offset) (fun xs s => Opened S .letWord (t :: xs) s)
      Anything where
  sound {ts rest s} hn h := by
    simp only [letStatement, bind_eq_ok, expectName_eq_ok, expectKeyword_eq_ok,
      expectSymbol_eq_ok, pure_eq_ok] at h
    obtain ⟨_, _, ⟨x, rfl, hx, rfl⟩, b, mid, ⟨rfl, hb⟩, v, _, hv, d, _, ⟨rfl, hd⟩, rfl, rfl⟩ := h
    have hn : mid.length < n := by
      simp at hn
      omega
    obtain ⟨xs, rfl, hv, _⟩ := he.sound hn hv
    exact ⟨x :: b :: xs ++ [d], by simp, .letBe ht hx hb hv hd, trivial⟩
  complete {xs rest s} hn hx _ := by
    cases hx with
    | @letBe _ x b d ts v _ hx hb hv hd =>
      have hn : (ts ++ d :: rest).length < n := by
        simp at hn ⊢
        omega
      have hv := he.complete hn hv (ended_of_sign hd rfl _)
      simp only [letStatement, bind_eq_ok, expectName_eq_ok, expectKeyword_eq_ok,
        expectSymbol_eq_ok, pure_eq_ok]
      exact ⟨_, _, ⟨x, by simp, hx, rfl⟩, b, _, ⟨rfl, hb⟩, v, _, hv, d, _, ⟨rfl, hd⟩, rfl, rfl⟩

/-! ### Statements with blocks -/

/-- A colon, a block and its end. -/
inductive Bodied (S : Rule Stmt) (echoes : List Keyword) (make : List Stmt → Stmt) : Rule Stmt
  | intro {colon : Token} {bs close : List Token} {b : List Stmt} :
      IsSign .colon colon → Many S bs b → Close echoes close →
      Bodied S echoes make (colon :: bs ++ close) (make b)

/-- The parser of what follows the header of a loop. -/
def bodied (stmt : Parser Stmt) (echoes : List Keyword) (make : List Stmt → Stmt) :
    Parser Stmt := do
  let _ ← expectSymbol .colon
  let body ← block stmt [.endWord]
  finish echoes
  return make body

theorem ended_bodied {echoes : List Keyword} {make : List Stmt → Stmt} {xs : List Token}
    {s : Stmt} (h : Bodied S echoes make xs s) (rest : List Token) : Ended (xs ++ rest) := by
  cases h with
  | intro hcolon _ _ => exact ended_of_sign hcolon rfl _

theorem kindAt_bodied_ne {echoes : List Keyword} {make : List Stmt → Stmt} {xs : List Token}
    {s : Stmt} (h : Bodied S echoes make xs s) (rest : List Token) {k : TokenKind}
    (hk : k ≠ .symbol .colon) : kindAt (xs ++ rest) ≠ some k := by
  cases h with
  | intro hcolon _ _ => simpa [kindAt_cons_sign hcolon] using Ne.symm hk

section Blocks

variable {t : Token} (he : Reads n expr Expression Ended) (hs : Reads n stmt S Anything)
  (hS : ∀ ts s, S ts s → Starts startsStatement ts)

include hs hS in
theorem bodied_reads {echoes : List Keyword} (hechoes : echoes.Nodup)
    (make : List Stmt → Stmt) :
    Reads n (bodied stmt echoes make) (Bodied S echoes make) Anything where
  sound {ts rest s} hn h := by
    simp only [bodied, bind_eq_ok, expectSymbol_eq_ok, pure_eq_ok] at h
    obtain ⟨colon, _, ⟨rfl, hcolon⟩, b, mid, hb, _, _, hend, rfl, rfl⟩ := h
    obtain ⟨bs, rfl, hbs, _⟩ := (block_reads hs hS (by decide)).sound (Nat.lt_of_succ_lt hn) hb
    have hn : mid.length < n := by
      simp at hn
      omega
    obtain ⟨close, rfl, hclose, _⟩ := (finish_reads hechoes).sound hn hend
    exact ⟨colon :: bs ++ close, by simp, .intro hcolon hbs hclose, trivial⟩
  complete {xs rest s} hn hx _ := by
    obtain @⟨colon, bs, close, b, hcolon, hbs, hclose⟩ := hx
    have heq : colon :: bs ++ close ++ rest = colon :: (bs ++ (close ++ rest)) := by simp
    rw [heq] at hn ⊢
    have hstop : Stopped [.endWord] (close ++ rest) := by
      cases hclose with
      | intro hend _ _ => exact stopped_of_word hend (by decide) _
    have hb := (block_reads hs hS (by decide)).complete (Nat.lt_of_succ_lt hn) hbs hstop
    have hn : (close ++ rest).length < n := by
      simp at hn ⊢
      omega
    have hend : finish echoes (close ++ rest) = .ok ((), rest) :=
      (finish_reads hechoes).complete hn hclose trivial
    simp only [bodied, bind_eq_ok, expectSymbol_eq_ok, pure_eq_ok]
    exact ⟨colon, _, ⟨rfl, hcolon⟩, b, _, hb, (), rest, hend, rfl, rfl⟩

theorem whileStatement_eq (expr : Parser Expr) (stmt : Parser Stmt) (start : Nat) :
    whileStatement expr stmt start = (do
      let c ← expr
      let _ ← accept (.symbol .comma)
      let _ ← accept (.keyword .doWord)
      bodied stmt [.whileWord] (.whileDo c · start)) := rfl

theorem repeatStatement_eq (expr : Parser Expr) (stmt : Parser Stmt) (start : Nat) :
    repeatStatement expr stmt start = (do
      let c ← expr
      let _ ← expectKeyword .timesWord
      bodied stmt [.repeatWord] (.repeatTimes c · start)) := rfl

theorem forEachStatement_eq (expr : Parser Expr) (stmt : Parser Stmt) (start : Nat) :
    forEachStatement expr stmt start = (do
      let _ ← expectKeyword .eachWord
      let item ← expectName .loopVariable
      let _ ← expectKeyword .inWord
      let source ← expr
      bodied stmt [.forWord, .eachWord] (.forEach item source · start)) := rfl

/-- The parser of the other branch of a condition. -/
def otherwise (stmt : Parser Stmt) : Parser (List Stmt) := do
  if ← accept (.keyword .otherwiseWord) then
    let _ ← expectSymbol .colon
    block stmt [.endWord]
  else pure []

theorem ifStatement_eq (expr : Parser Expr) (stmt : Parser Stmt) (start : Nat) :
    ifStatement expr stmt start = (do
      let c ← expr
      let _ ← accept (.symbol .comma)
      let _ ← accept (.keyword .thenWord)
      let _ ← expectSymbol .colon
      let a ← block stmt [.endWord, .otherwiseWord]
      let b ← otherwise stmt
      finish [.ifWord]
      return .ifThen c a b start) := by
  unfold ifStatement otherwise
  simp only [bind_assoc]
  repeat apply congrArg; funext _
  split <;> simp only [bind_assoc]

include he hs hS

theorem whileStatement_reads (ht : IsWord .whileWord t) :
    Reads n (whileStatement expr stmt t.offset) (fun xs s => Opened S .whileWord (t :: xs) s)
      Anything where
  sound {ts rest s} hn h := by
    simp only [whileStatement_eq, bind_eq_ok] at h
    obtain ⟨c, _, hc, _, _, hcomma, _, mid, hdo, hbody⟩ := h
    obtain ⟨cs, rfl, hcs, _⟩ := he.sound hn hc
    obtain ⟨commas, rfl, hcommas⟩ := accept_sound hcomma
    obtain ⟨dos, rfl, hdos⟩ := accept_sound hdo
    have hn : mid.length < n := by
      simp at hn
      omega
    obtain ⟨_, rfl, @⟨colon, bs, close, b, hcolon, hbs, hclose⟩, _⟩ :=
      (bodied_reads hs hS (by decide) _).sound hn hbody
    exact ⟨cs ++ commas ++ dos ++ colon :: bs ++ close, by simp,
      .whileDo ht hcs hcommas hdos hcolon hbs hclose, trivial⟩
  complete {xs rest s} hn hx _ := by
    cases hx with
    | @whileDo _ colon cs commas dos bs close c b _ hc hcommas hdos hcolon hbs hclose =>
      have hbody : Bodied S [.whileWord] (.whileDo c · t.offset) (colon :: bs ++ close) _ :=
        .intro hcolon hbs hclose
      have heq : cs ++ commas ++ dos ++ colon :: bs ++ close ++ rest =
          cs ++ (commas ++ (dos ++ (colon :: bs ++ close ++ rest))) := by simp
      have hend := ended_bodied hbody rest
      show whileStatement expr stmt t.offset (cs ++ commas ++ dos ++ colon :: bs ++ close ++ rest)
        = _
      rw [heq]
      have hn' : (colon :: bs ++ close ++ rest).length < n := by
        simp at hn ⊢
        omega
      have hc := he.complete (heq ▸ hn) hc
        (ended_optional hcommas rfl (ended_optional hdos rfl hend))
      obtain ⟨_, hcomma⟩ := accept_complete hcommas
        (kindAt_optional_ne hdos (by decide) (kindAt_bodied_ne hbody rest (by decide)))
      obtain ⟨_, hdo⟩ := accept_complete hdos (kindAt_bodied_ne hbody rest (by decide))
      have hb := (bodied_reads hs hS (by decide) _).complete hn' hbody trivial
      simp only [whileStatement_eq, bind_eq_ok]
      exact ⟨c, _, hc, _, _, hcomma, _, _, hdo, hb⟩

theorem repeatStatement_reads (ht : IsWord .repeatWord t) :
    Reads n (repeatStatement expr stmt t.offset) (fun xs s => Opened S .repeatWord (t :: xs) s)
      Anything where
  sound {ts rest s} hn h := by
    simp only [repeatStatement_eq, bind_eq_ok, expectKeyword_eq_ok] at h
    obtain ⟨c, _, hc, w, mid, ⟨rfl, hw⟩, hbody⟩ := h
    obtain ⟨cs, rfl, hcs, _⟩ := he.sound hn hc
    have hn : mid.length < n := by
      simp at hn
      omega
    obtain ⟨_, rfl, @⟨colon, bs, close, b, hcolon, hbs, hclose⟩, _⟩ :=
      (bodied_reads hs hS (by decide) _).sound hn hbody
    exact ⟨cs ++ w :: colon :: bs ++ close, by simp, .repeatTimes ht hcs hw hcolon hbs hclose,
      trivial⟩
  complete {xs rest s} hn hx _ := by
    cases hx with
    | @repeatTimes _ w colon cs bs close c b _ hc hw hcolon hbs hclose =>
      have hbody : Bodied S [.repeatWord] (.repeatTimes c · t.offset) (colon :: bs ++ close) _ :=
        .intro hcolon hbs hclose
      have heq : cs ++ w :: colon :: bs ++ close ++ rest =
          cs ++ w :: (colon :: bs ++ close ++ rest) := by simp
      show repeatStatement expr stmt t.offset (cs ++ w :: colon :: bs ++ close ++ rest) = _
      rw [heq]
      have hn' : (colon :: bs ++ close ++ rest).length < n := by
        simp at hn ⊢
        omega
      have hc := he.complete (heq ▸ hn) hc (ended_of_word hw _)
      have hb := (bodied_reads hs hS (by decide) _).complete hn' hbody trivial
      simp only [repeatStatement_eq, bind_eq_ok, expectKeyword_eq_ok]
      exact ⟨c, _, hc, w, _, ⟨rfl, hw⟩, hb⟩

theorem forEachStatement_reads (ht : IsWord .forWord t) :
    Reads n (forEachStatement expr stmt t.offset) (fun xs s => Opened S .forWord (t :: xs) s)
      Anything where
  sound {ts rest s} hn h := by
    simp only [forEachStatement_eq, bind_eq_ok, expectKeyword_eq_ok, expectName_eq_ok] at h
    obtain ⟨e, _, ⟨rfl, he'⟩, _, _, ⟨x, rfl, hx, rfl⟩, i, tail, ⟨rfl, hi⟩, c, mid, hc, hbody⟩ := h
    have hn : tail.length < n := by
      simp at hn
      omega
    obtain ⟨cs, rfl, hcs, _⟩ := he.sound hn hc
    have hn : mid.length < n := by
      simp at hn
      omega
    obtain ⟨_, rfl, @⟨colon, bs, close, b, hcolon, hbs, hclose⟩, _⟩ :=
      (bodied_reads hs hS (by decide) _).sound hn hbody
    exact ⟨e :: x :: i :: cs ++ colon :: bs ++ close, by simp,
      .forEach ht he' hx hi hcs hcolon hbs hclose, trivial⟩
  complete {xs rest s} hn hx _ := by
    cases hx with
    | @forEach _ e x i colon cs bs close c b _ he' hx hi hc hcolon hbs hclose =>
      have hbody : Bodied S [.forWord, .eachWord] (.forEach x.text c · t.offset)
          (colon :: bs ++ close) _ := .intro hcolon hbs hclose
      have heq : e :: x :: i :: cs ++ colon :: bs ++ close ++ rest =
          e :: x :: i :: (cs ++ (colon :: bs ++ close ++ rest)) := by simp
      show forEachStatement expr stmt t.offset (e :: x :: i :: cs ++ colon :: bs ++ close ++ rest)
        = _
      rw [heq]
      have hn₁ : (cs ++ (colon :: bs ++ close ++ rest)).length < n := by
        simp at hn ⊢
        omega
      have hn₂ : (colon :: bs ++ close ++ rest).length < n := by
        simp at hn ⊢
        omega
      have hc := he.complete hn₁ hc (ended_bodied hbody rest)
      have hb := (bodied_reads hs hS (by decide) _).complete hn₂ hbody trivial
      simp only [forEachStatement_eq, bind_eq_ok, expectKeyword_eq_ok, expectName_eq_ok]
      exact ⟨e, _, ⟨rfl, he'⟩, _, _, ⟨x, rfl, hx, rfl⟩, i, _, ⟨rfl, hi⟩, c, _, hc, hb⟩

omit he in
theorem otherwise_sound {ts rest : List Token} {ss : List Stmt} (hn : ts.length < n)
    (h : otherwise stmt ts = .ok (ss, rest)) : ∃ xs, ts = xs ++ rest ∧ Otherwise S xs ss := by
  simp only [otherwise, bind_eq_ok] at h
  obtain ⟨b, _, hb, h⟩ := h
  rcases accept_eq_ok.mp hb with ⟨rfl, w, rfl, hw⟩ | ⟨rfl, rfl, _⟩
  · simp only [if_true, bind_eq_ok, expectSymbol_eq_ok] at h
    obtain ⟨colon, mid, ⟨rfl, hcolon⟩, hblock⟩ := h
    have hn : mid.length < n := by
      simp at hn
      omega
    obtain ⟨xs, rfl, hxs, _⟩ := (block_reads hs hS (by decide)).sound hn hblock
    exact ⟨w :: colon :: xs, rfl, .present hw hcolon hxs⟩
  · obtain ⟨rfl, rfl⟩ := pure_eq_ok.mp h
    exact ⟨[], rfl, .absent⟩

omit he in
theorem otherwise_complete {xs rest : List Token} {ss : List Stmt} {w : Token}
    (hn : (xs ++ w :: rest).length < n) (h : Otherwise S xs ss) (hw : IsWord .endWord w) :
    otherwise stmt (xs ++ w :: rest) = .ok (ss, w :: rest) := by
  simp only [otherwise, bind_eq_ok]
  cases h with
  | absent =>
    refine ⟨false, w :: rest, accept_eq_ok.mpr (.inr ⟨rfl, rfl, ?_⟩), rfl⟩
    simp [kindAt_cons_word hw]
  | @present o colon ts _ ho hcolon hts =>
    refine ⟨true, colon :: (ts ++ w :: rest), accept_eq_ok.mpr (.inl ⟨rfl, o, rfl, ho⟩), ?_⟩
    have hn : (ts ++ w :: rest).length < n := by
      simp at hn ⊢
      omega
    have hstop : Stopped [.endWord] (w :: rest) := stopped_of_word hw (by decide) rest
    have hblock := (block_reads hs hS (by decide)).complete hn hts hstop
    simp only [if_true, bind_eq_ok, expectSymbol_eq_ok]
    exact ⟨colon, _, ⟨rfl, hcolon⟩, hblock⟩

theorem ifStatement_reads (ht : IsWord .ifWord t) :
    Reads n (ifStatement expr stmt t.offset) (fun xs s => Opened S .ifWord (t :: xs) s)
      Anything where
  sound {ts rest s} hn h := by
    simp only [ifStatement_eq, bind_eq_ok, expectSymbol_eq_ok, pure_eq_ok] at h
    obtain ⟨c, _, hc, _, _, hcomma, _, _, hthen, colon, mid, ⟨rfl, hcolon⟩, a, tail, ha, b, tail',
      hb, _, _, hend, rfl, rfl⟩ := h
    obtain ⟨cs, rfl, hcs, _⟩ := he.sound hn hc
    obtain ⟨commas, rfl, hcommas⟩ := accept_sound hcomma
    obtain ⟨thens, rfl, hthens⟩ := accept_sound hthen
    have hn : mid.length < n := by
      simp at hn
      omega
    obtain ⟨as, rfl, has, _⟩ := (block_reads hs hS (by decide)).sound hn ha
    have hn : tail.length < n := by
      simp at hn
      omega
    obtain ⟨bs, rfl, hbs⟩ := otherwise_sound hs hS hn hb
    have hn : tail'.length < n := by
      simp at hn
      omega
    obtain ⟨close, rfl, hclose, _⟩ := (finish_reads (by decide)).sound hn hend
    exact ⟨cs ++ commas ++ thens ++ colon :: as ++ bs ++ close, by simp,
      .ifThen ht hcs hcommas hthens hcolon has hbs hclose, trivial⟩
  complete {xs rest s} hn hx _ := by
    cases hx with
    | @ifThen _ colon cs commas thens as bs close c a b _ hc hcommas hthens hcolon ha hb hclose =>
      obtain @⟨w, d, es, hw, hes, hd⟩ := hclose
      have heq : cs ++ commas ++ thens ++ colon :: as ++ bs ++ (w :: es ++ [d]) ++ rest =
          cs ++ (commas ++ (thens ++ colon :: (as ++ (bs ++ w :: (es ++ [d] ++ rest))))) := by simp
      show ifStatement expr stmt t.offset
        (cs ++ commas ++ thens ++ colon :: as ++ bs ++ (w :: es ++ [d]) ++ rest) = _
      rw [heq]
      have hn₁ : (as ++ (bs ++ w :: (es ++ [d] ++ rest))).length < n := by
        simp at hn ⊢
        omega
      have hn₂ : (bs ++ w :: (es ++ [d] ++ rest)).length < n := by
        simp at hn ⊢
        omega
      have hn₃ : (w :: es ++ [d] ++ rest).length < n := by
        simp at hn ⊢
        omega
      have hstop : Stopped [.endWord, .otherwiseWord] (bs ++ w :: (es ++ [d] ++ rest)) := by
        cases hb with
        | absent => exact stopped_of_word hw (by decide) _
        | present ho _ _ => exact stopped_of_word ho (by decide) _
      have hkind : ∀ k, k ≠ .symbol .colon →
          kindAt (colon :: (as ++ (bs ++ w :: (es ++ [d] ++ rest)))) ≠ some k := by
        intro k hk
        simpa [kindAt_cons_sign hcolon] using Ne.symm hk
      have hc := he.complete (heq ▸ hn) hc
        (ended_optional hcommas rfl (ended_optional hthens rfl (ended_of_sign hcolon rfl _)))
      obtain ⟨_, hcomma⟩ := accept_complete hcommas
        (kindAt_optional_ne hthens (by decide) (hkind _ (by decide)))
      obtain ⟨_, hthen⟩ := accept_complete hthens (hkind _ (by decide))
      have ha := (block_reads hs hS (by decide)).complete hn₁ ha hstop
      have hb := otherwise_complete hs hS hn₂ hb hw
      have hend : finish [.ifWord] (w :: es ++ [d] ++ rest) = .ok ((), rest) :=
        (finish_reads (by decide)).complete hn₃ (.intro hw hes hd) trivial
      simp only [ifStatement_eq, bind_eq_ok, expectSymbol_eq_ok, pure_eq_ok]
      exact ⟨c, _, hc, _, _, hcomma, _, _, hthen, colon, _, ⟨rfl, hcolon⟩, a, _, ha, b, _, hb, (),
        rest, hend, rfl, rfl⟩

end Blocks

/-! ### All statements -/

theorem Reads.congr {p : Parser Stmt} {rule rule' : Rule Stmt} {follow : List Token → Prop}
    (h : Reads n p rule follow) (hr : ∀ xs s, rule xs s ↔ rule' xs s) : Reads n p rule' follow where
  sound hn hp := by
    obtain ⟨xs, hxs, hx, hf⟩ := h.sound hn hp
    exact ⟨xs, hxs, (hr _ _).mp hx, hf⟩
  complete hn hx hf := h.complete hn ((hr _ _).mpr hx) hf

theorem evaluateStatement_reads (he : Reads n expr Expression Ended) (start : Nat) :
    Reads n (evaluateStatement expr start) (Valued (.evaluate · start)) Anything :=
  valued_reads he _

/-- The parser that a keyword opens reads the statements that open with it. -/
theorem opened?_reads (he : Reads n expr Expression Ended) (hs : Reads n stmt S Anything)
    (hS : ∀ ts s, S ts s → Starts startsStatement ts) {t : Token} {k : Keyword} (ht : IsWord k t)
    {p : Parser Stmt} (hp : opened? expr stmt t.offset k = some p) :
    Reads n p (fun xs s => Opened S k (t :: xs) s) Anything := by
  cases k <;> simp only [opened?, Option.some.injEq, reduceCtorEq] at hp <;> subst hp
  case letWord => exact letStatement_reads he ht
  case ifWord => exact ifStatement_reads he hs hS ht
  case whileWord => exact whileStatement_reads he hs hS ht
  case repeatWord => exact repeatStatement_reads he hs hS ht
  case forWord => exact forEachStatement_reads he hs hS ht
  case setWord =>
    refine (assigned_reads he .toWord (.setTo · · t.offset)).congr fun xs s => ⟨?_, ?_⟩
    · rintro ⟨hg, hw, hv, hd⟩
      exact .setTo ht hg hw hv hd
    · intro h
      cases h with
      | setTo _ hg hw hv hd => exact .intro hg hw hv hd
  case increaseWord =>
    refine (assigned_reads he .byWord
      (fun g v => .setTo g (.binary .add g.toExpr v t.offset) t.offset)).congr
        fun xs s => ⟨?_, ?_⟩
    · rintro ⟨hg, hw, hv, hd⟩
      exact .increase ht hg hw hv hd
    · intro h
      cases h with
      | increase _ hg hw hv hd => exact .intro hg hw hv hd
  case decreaseWord =>
    refine (assigned_reads he .byWord
      (fun g v => .setTo g (.binary .subtract g.toExpr v t.offset) t.offset)).congr
        fun xs s => ⟨?_, ?_⟩
    · rintro ⟨hg, hw, hv, hd⟩
      exact .decrease ht hg hw hv hd
    · intro h
      cases h with
      | decrease _ hg hw hv hd => exact .intro hg hw hv hd
  case sayWord =>
    refine (valued_reads he (.say · t.offset)).congr fun xs s => ⟨?_, ?_⟩
    · rintro ⟨hv, hd⟩
      exact .say ht hv hd
    · intro h
      cases h with
      | say _ hv hd => exact .intro hv hd
  case returnWord =>
    refine (valued_reads he (.giveBack · t.offset)).congr fun xs s => ⟨?_, ?_⟩
    · rintro ⟨hv, hd⟩
      exact .giveBack ht hv hd
    · intro h
      cases h with
      | giveBack _ hv hd => exact .intro hv hd
  case appendWord =>
    refine (aimed_reads he .toWord (.append · · t.offset)).congr fun xs s => ⟨?_, ?_⟩
    · rintro ⟨hv, hw, hx, hd⟩
      exact .append ht hv hw hx hd
    · intro h
      cases h with
      | append _ hv hw hx hd => exact .intro hv hw hx hd
  case removeWord =>
    refine (aimed_reads he .fromWord (.remove · · t.offset)).congr fun xs s => ⟨?_, ?_⟩
    · rintro ⟨hv, hw, hx, hd⟩
      exact .remove ht hv hw hx hd
    · intro h
      cases h with
      | remove _ hv hw hx hd => exact .intro hv hw hx hd

theorem opened?_isSome {k : Keyword} (hk : k ∈ openers) (expr : Parser Expr) (stmt : Parser Stmt)
    (start : Nat) : ∃ p, opened? expr stmt start k = some p := by
  simp only [openers, List.mem_cons, List.not_mem_nil, or_false] at hk
  rcases hk with rfl | rfl | rfl | rfl | rfl | rfl | rfl | rfl | rfl | rfl | rfl | rfl <;>
    exact ⟨_, rfl⟩

theorem opened?_eq_none {k : Keyword} (hk : startsExpression (.keyword k) = true)
    (expr : Parser Expr) (stmt : Parser Stmt) (start : Nat) :
    opened? expr stmt start k = none := by
  cases k <;> first | rfl | cases hk

theorem statementWith_reads (he : Reads (n + 1) expr Expression Ended)
    (hs : Reads n stmt Statement Anything) :
    Reads (n + 1) (statementWith expr stmt) Statement Anything where
  sound {ts rest s} hn h := by
    have hsound : ∀ {t : Token} {us : List Token},
        evaluateStatement expr t.offset (t :: us) = .ok (s, rest) → (t :: us).length < n + 1 →
        ∃ xs, t :: us = xs ++ rest ∧ Statement xs s ∧ Anything rest := by
      intro t us h hn
      obtain ⟨_, heq, @⟨d, xs, v, hv, hd⟩, _⟩ := (evaluateStatement_reads he t.offset).sound hn h
      obtain ⟨k, hk, _⟩ := expression_starts hv
      cases xs with
      | nil => simp [kindAt] at hk
      | cons u xs =>
        obtain ⟨rfl, rfl⟩ : t = u ∧ us = xs ++ [d] ++ rest := by simpa using heq
        exact ⟨t :: xs ++ [d], by simp, .evaluate hv hd, trivial⟩
    cases ts with
    | nil => cases h
    | cons t ts =>
      simp only [statementWith] at h
      split at h
      · next k hk =>
        split at h
        · next p hp =>
          have hreads := opened?_reads (he.mono (Nat.le_succ n)) hs
            (fun _ _ => statement_starts) hk hp
          obtain ⟨xs, rfl, hxs, _⟩ := hreads.sound (Nat.lt_of_succ_lt_succ hn) h
          exact ⟨t :: xs, rfl, .opened hxs, trivial⟩
        · exact hsound h hn
      · exact hsound h hn
  complete {xs rest s} hn hx _ := by
    cases hx with
    | @opened k _ _ hx =>
      obtain ⟨hk, t, xs, rfl, ht⟩ := opened_starts hx
      obtain ⟨p, hp⟩ := opened?_isSome hk expr stmt t.offset
      have hreads := opened?_reads (he.mono (Nat.le_succ n)) hs
        (fun _ _ => statement_starts) ht hp
      have ht : t.kind = .keyword k := ht
      simp only [statementWith, List.cons_append, ht, hp]
      exact hreads.complete (Nat.lt_of_succ_lt_succ hn) hx trivial
    | @evaluate t d ts v hv hd =>
      have h := (evaluateStatement_reads he t.offset).complete hn (.intro hv hd) trivial
      obtain ⟨k, hk, hp⟩ := expression_starts hv
      have hk : t.kind = k := by simpa [kindAt] using hk
      simp only [List.cons_append] at h
      simp only [statementWith, List.cons_append]
      cases k with
      | keyword k => simp only [hk, opened?_eq_none hp, h]
      | _ => simp only [hk, h]

theorem statement_reads (limit : Nat) : Reads limit (statement limit) Statement Anything := by
  induction limit with
  | zero => exact ⟨fun h => absurd h (Nat.not_lt_zero _), fun h => absurd h (Nat.not_lt_zero _)⟩
  | succ limit ih => exact statementWith_reads (expression_reads (limit + 1)) ih

end Parlance.Parse
