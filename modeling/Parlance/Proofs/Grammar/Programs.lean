import Parlance.Diagnostic
import Parlance.Proofs.Grammar.Refusals
/-!
# Programs are read by the grammar

The parser answers with a program exactly if the tokens are derived from the grammar with that
program as their tree, the tree is unique, and all other tokens are refused for their syntax
(`parse_eq_ok_iff_source`).
-/
namespace Parlance.Parse
open Grammar

variable {n : Nat} {stmt : Parser Stmt}

/-! ### Parameters -/

/-- The parameters of a function, in parentheses. -/
inductive Parameters : Rule (List String)
  | intro {o c : Token} {ts : List Token} {names : List String} :
      IsSign .leftParen o → Items Parameter ts names → IsSign .rightParen c →
      Parameters (o :: ts ++ [c]) names

theorem furtherParameter?_steps :
    Steps n furtherParameter? (Further Parameter) Anything
      (fun ts => kindAt ts ≠ some (.symbol .comma)) where
  step_sound {ts rest a} _ h := by
    simp only [furtherParameter?, bind_eq_ok] at h
    obtain ⟨b, mid, hb, h⟩ := h
    rcases accept_eq_ok.mp hb with ⟨rfl, c, rfl, hc⟩ | ⟨rfl, _, _⟩
    · simp only [if_true, bind_eq_ok, expectName_eq_ok, pure_eq_ok, Option.some.injEq] at h
      obtain ⟨_, _, ⟨t, rfl, ht, rfl⟩, rfl, rfl⟩ := h
      exact ⟨[c, t], rfl, .intro hc (.intro ht), trivial⟩
    · cases h
  stop_sound {ts rest} _ h := by
    simp only [furtherParameter?, bind_eq_ok] at h
    obtain ⟨b, mid, hb, h⟩ := h
    rcases accept_eq_ok.mp hb with ⟨rfl, _, _, _⟩ | ⟨rfl, rfl, hk⟩
    · simp only [if_true, bind_eq_ok, pure_eq_ok] at h
      obtain ⟨_, _, _, h, _⟩ := h
      cases h
    · cases h
      exact ⟨rfl, hk⟩
  step_complete {xs rest a} _ hx _ := by
    obtain @⟨c, _, _, hc, @⟨t, ht⟩⟩ := hx
    simp only [furtherParameter?, bind_eq_ok]
    refine ⟨true, t :: rest, accept_eq_ok.mpr (.inl ⟨rfl, c, rfl, hc⟩), ?_⟩
    simp only [if_true, bind_eq_ok, expectName_eq_ok, pure_eq_ok]
    exact ⟨_, _, ⟨t, rfl, ht, rfl⟩, rfl, rfl⟩
  stop_complete {ts} _ h := by
    simp only [furtherParameter?, bind_eq_ok]
    exact ⟨false, ts, accept_eq_ok.mpr (.inr ⟨rfl, rfl, h⟩), rfl⟩
  stop_nil := by simp [kindAt]
  rule_ne_nil h := by
    cases h
    simp
  next_rule _ := trivial

theorem get_eq_ok {a ts rest : List Token} :
    (get : Parser (List Token)) ts = .ok (a, rest) ↔ a = ts ∧ rest = ts := by
  show Except.ok (ts, ts) = .ok (a, rest) ↔ _
  simp [eq_comm]

theorem parameters_reads : Reads n parameters Parameters Anything where
  sound {ts rest names} hn h := by
    simp only [parameters, bind_eq_ok, expectSymbol_eq_ok, get_eq_ok] at h
    obtain ⟨o, mid, ⟨rfl, ho⟩, _, _, ⟨rfl, rfl⟩, h⟩ := h
    split at h
    · simp only [bind_eq_ok, expectSymbol_eq_ok, pure_eq_ok] at h
      obtain ⟨_, _, ⟨rfl, rfl⟩, c, _, ⟨rfl, hc⟩, rfl, rfl⟩ := h
      exact ⟨[o, c], rfl, .intro ho .none hc, trivial⟩
    · simp only [bind_eq_ok, expectName_eq_ok, expectSymbol_eq_ok, pure_eq_ok] at h
      obtain ⟨_, tail, ⟨t, rfl, ht, rfl⟩, names', _, hrest, _, _, ⟨rfl, rfl⟩, c, _, ⟨rfl, hc⟩, rfl,
        rfl⟩ := h
      have hn : tail.length < n := Nat.lt_of_succ_lt (Nat.lt_of_succ_lt hn)
      obtain ⟨xs, rfl, hxs, _⟩ := repeated_sound furtherParameter?_steps hn trivial hrest
      exact ⟨o :: t :: xs ++ [c], by simp, .intro ho (.some (.intro ht) hxs) hc, trivial⟩
  complete {xs rest names} hn hx _ := by
    obtain @⟨o, c, ts, names, ho, hts, hc⟩ := hx
    simp only [parameters, bind_eq_ok, expectSymbol_eq_ok, get_eq_ok]
    refine ⟨o, ts ++ [c] ++ rest, ⟨rfl, ho⟩, _, _, ⟨rfl, rfl⟩, ?_⟩
    cases hts with
    | none =>
      have hk : kindAt ([] ++ [c] ++ rest) = some (.symbol .rightParen) := kindAt_cons_sign hc _
      rw [if_pos hk]
      simp only [bind_eq_ok, expectSymbol_eq_ok, pure_eq_ok]
      exact ⟨[], _, ⟨rfl, rfl⟩, c, rest, ⟨rfl, hc⟩, rfl, rfl⟩
    | @some _ ys _ as hx hy =>
      obtain @⟨t, ht⟩ := hx
      have heq : [t] ++ ys ++ [c] ++ rest = t :: (ys ++ c :: rest) := by simp
      have hk : ¬ kindAt (t :: (ys ++ c :: rest)) = some (.symbol .rightParen) := by
        have ht : t.kind = .name := ht
        simp [kindAt, ht]
      have hcomma : kindAt (c :: rest) ≠ some (.symbol .comma) := by
        simp [kindAt_cons_sign hc]
      have hn' : (ys ++ c :: rest).length < n := by
        simp at hn ⊢
        omega
      have hrest := repeated_complete furtherParameter?_steps hy hn' trivial hcomma
      rw [heq, if_neg hk]
      simp only [bind_eq_ok, expectName_eq_ok, expectSymbol_eq_ok, pure_eq_ok]
      exact ⟨_, _, ⟨t, rfl, ht, rfl⟩, as, _, hrest, _, _, ⟨rfl, rfl⟩, c, rest, ⟨rfl, hc⟩, rfl, rfl⟩

/-! ### Declarations -/

theorem declaration_reads (hs : Reads n stmt Statement Anything) :
    Reads n (declaration stmt) Function Anything where
  sound {ts rest d} hn h := by
    simp only [declaration, bind_eq_ok, expectKeyword_eq_ok, expectName_eq_ok, expectSymbol_eq_ok,
      pure_eq_ok] at h
    obtain ⟨w, _, ⟨rfl, hw⟩, _, mid, ⟨t, rfl, ht, rfl⟩, names, _, hnames, colon, mid', ⟨rfl, hcolon⟩,
      b, _, hb, e, _, ⟨rfl, he⟩, d', _, ⟨rfl, hd⟩, rfl, rfl⟩ := h
    have hn : mid.length < n := Nat.lt_of_succ_lt (Nat.lt_of_succ_lt hn)
    obtain ⟨_, rfl, @⟨o, c, ps, _, ho, hps, hc⟩, _⟩ := parameters_reads.sound hn hnames
    have hn : mid'.length < n := by
      simp at hn
      omega
    have hblock : Reads n (block stmt [.endWord]) (Many Statement) (Stopped [.endWord]) :=
      block_reads hs (fun _ _ => statement_starts) (by decide)
    obtain ⟨bs, rfl, hbs, _⟩ := hblock.sound hn hb
    exact ⟨w :: t :: o :: ps ++ c :: colon :: bs ++ [e, d'], by simp,
      .intro hw ht ho hps hc hcolon hbs he hd, trivial⟩
  complete {xs rest d} hn hx _ := by
    obtain @⟨w, t, o, c, colon, e, d', ps, bs, names, b, hw, ht, ho, hps, hc, hcolon, hbs, he,
      hd⟩ := hx
    have heq : w :: t :: o :: ps ++ c :: colon :: bs ++ [e, d'] ++ rest =
        w :: t :: ((o :: ps ++ [c]) ++ colon :: (bs ++ e :: d' :: rest)) := by simp
    have hn₁ : ((o :: ps ++ [c]) ++ colon :: (bs ++ e :: d' :: rest)).length < n := by
      simp at hn ⊢
      omega
    have hn₂ : (bs ++ e :: d' :: rest).length < n := by
      simp at hn ⊢
      omega
    have hblock : Reads n (block stmt [.endWord]) (Many Statement) (Stopped [.endWord]) :=
      block_reads hs (fun _ _ => statement_starts) (by decide)
    have hnames := parameters_reads.complete hn₁ (.intro ho hps hc) trivial
    have hb := hblock.complete hn₂ hbs (stopped_of_word he (by decide) _)
    rw [heq]
    simp only [declaration, bind_eq_ok, expectKeyword_eq_ok, expectName_eq_ok, expectSymbol_eq_ok,
      pure_eq_ok]
    exact ⟨w, _, ⟨rfl, hw⟩, _, _, ⟨t, rfl, ht, rfl⟩, names, _, hnames, colon, _, ⟨rfl, hcolon⟩, b,
      _, hb, e, _, ⟨rfl, he⟩, d', _, ⟨rfl, hd⟩, rfl, rfl⟩

/-! ### Items -/

/-- A declaration or a statement. -/
inductive Item : Rule (Declaration ⊕ Stmt)
  | function {ts : List Token} {d : Declaration} : Function ts d → Item ts (.inl d)
  | statement {ts : List Token} {s : Stmt} : Statement ts s → Item ts (.inr s)

theorem function_declares {ts : List Token} {d : Declaration} (h : Function ts d)
    (rest : List Token) : declares (ts ++ rest) = true := by
  obtain ⟨hw, hn, ho, _, _, _, _, _, _⟩ := h
  simp only [IsWord, IsName, IsSign] at hw hn ho
  simp [declares, hw, hn, ho]

theorem statement_not_declares {ts : List Token} {s : Stmt} (h : Statement ts s)
    (rest : List Token) : declares (ts ++ rest) = false := by
  have hk : kindAt (ts ++ rest) ≠ some (.keyword .toWord) :=
    ((statement_starts h).append rest).kindAt_ne (by decide)
  unfold declares
  split
  · next a _ _ _ heq =>
    rw [heq] at hk
    have ha : a.kind ≠ .keyword .toWord := fun ha => hk (congrArg some ha)
    simp [ha]
  · rfl

theorem item_ne_nil {ts : List Token} {x : Declaration ⊕ Stmt} (h : Item ts x) : ts ≠ [] := by
  cases h with
  | function h =>
    cases h
    simp
  | statement h => exact (statement_starts h).ne_nil

theorem item?_steps (hs : Reads n stmt Statement Anything) :
    Steps n (item? stmt) Item Anything (· = []) where
  step_sound {ts rest x} hn h := by
    simp only [item?] at h
    split at h
    · cases h
    · split at h
      · simp only [except_bind_eq_ok, Prod.exists] at h
        obtain ⟨d, _, hd, h⟩ := h
        cases h
        obtain ⟨xs, hxs, hx, hr⟩ := (declaration_reads hs).sound hn hd
        exact ⟨xs, hxs, .function hx, hr⟩
      · simp only [except_bind_eq_ok, Prod.exists] at h
        obtain ⟨s, _, hx, h⟩ := h
        cases h
        obtain ⟨xs, hxs, hx, hr⟩ := hs.sound hn hx
        exact ⟨xs, hxs, .statement hx, hr⟩
  stop_sound {ts rest} _ h := by
    simp only [item?] at h
    split at h
    · next hnil =>
      cases h
      have hnil := List.isEmpty_iff.mp hnil
      exact ⟨hnil, hnil⟩
    · split at h
      · simp only [except_bind_eq_ok, Prod.exists] at h
        obtain ⟨_, _, _, h⟩ := h
        cases h
      · simp only [except_bind_eq_ok, Prod.exists] at h
        obtain ⟨_, _, _, h⟩ := h
        cases h
  step_complete {xs rest x} hn hx _ := by
    have hne : ¬ (xs ++ rest).isEmpty = true := by simp [item_ne_nil hx]
    simp only [item?, if_neg hne]
    cases hx with
    | @function _ d hx =>
      have hd := (declaration_reads hs).complete hn hx trivial
      simp only [function_declares hx rest, if_true, except_bind_eq_ok, Prod.exists]
      exact ⟨d, rest, hd, rfl⟩
    | @statement _ s hx =>
      have hx' := hs.complete hn hx trivial
      simp only [statement_not_declares hx rest, Bool.false_eq_true, if_false, except_bind_eq_ok,
        Prod.exists]
      exact ⟨s, rest, hx', rfl⟩
  stop_complete {ts} _ h := by
    subst h
    rfl
  stop_nil := rfl
  rule_ne_nil := item_ne_nil
  next_rule _ := trivial

theorem source_iff {ts : List Token} {p : Program} :
    Source ts p ↔ ∃ items, Many Item ts items ∧ p = .ofItems items := by
  constructor
  · intro h
    induction h with
    | nil => exact ⟨[], .nil, rfl⟩
    | @function _ _ d p hd _ ih =>
      obtain ⟨items, hitems, rfl⟩ := ih
      exact ⟨.inl d :: items, .cons (.function hd) hitems, rfl⟩
    | @statement _ _ s p hs _ ih =>
      obtain ⟨items, hitems, rfl⟩ := ih
      exact ⟨.inr s :: items, .cons (.statement hs) hitems, rfl⟩
  · rintro ⟨items, h, rfl⟩
    induction h with
    | nil => exact .nil
    | cons hx _ ih =>
      cases hx with
      | function hd => exact .function hd ih
      | statement hs => exact .statement hs ih

/-! ### Programs -/

theorem program_parse_eq_ok {limit : Nat} {ts : List Token} {p : Program} :
    Program.parse limit ts = .ok p ↔
      ∃ items rest, repeated (item? (statement limit)) ts = .ok (items, rest) ∧
        p = .ofItems items := by
  simp only [Program.parse, except_bind_eq_ok, Prod.exists]
  constructor
  · rintro ⟨items, rest, hr, h⟩
    cases h
    exact ⟨items, rest, hr, rfl⟩
  · rintro ⟨items, rest, hr, rfl⟩
    exact ⟨items, rest, hr, rfl⟩

theorem source_of_parse {limit : Nat} {ts : List Token} {p : Program} (h : ts.length < limit)
    (hp : Program.parse limit ts = .ok p) : Source ts p := by
  obtain ⟨items, rest, hr, rfl⟩ := program_parse_eq_ok.mp hp
  obtain ⟨xs, rfl, hx, _, rfl⟩ :=
    repeated_sound (item?_steps (statement_reads limit)) h trivial hr
  exact source_iff.mpr ⟨items, by simpa using hx, rfl⟩

theorem parse_of_source {limit : Nat} {ts : List Token} {p : Program} (h : ts.length < limit)
    (hp : Source ts p) : Program.parse limit ts = .ok p := by
  obtain ⟨items, hitems, rfl⟩ := source_iff.mp hp
  have hr : repeated (item? (statement limit)) (ts ++ []) = .ok (items, []) :=
    repeated_complete (item?_steps (statement_reads limit)) hitems (by simpa using h) trivial rfl
  rw [List.append_nil] at hr
  exact program_parse_eq_ok.mpr ⟨items, [], hr, rfl⟩

/-- A parse fault other than for the nesting is a diagnostic of the parser's two kinds. -/
theorem diagnostic_isSyntactic (fault : ParseFault) (length : Nat) :
    (fault.diagnostic length).kind.isSyntactic = true := by
  cases fault <;> rfl

/-- Below the nesting limit the parser answers on all tokens. It answers with a program exactly if
the tokens are derived with that program as their tree; the tree is unique; and tokens without a
derivation are refused with a diagnostic of the parser, which is not about the nesting. -/
theorem parse_eq_ok_iff_source {limit : Nat} {ts : List Token} (h : ts.length < limit) :
    (∀ p, Program.parse limit ts = .ok p ↔ Source ts p) ∧
      (∀ p q, Source ts p → Source ts q → p = q) ∧
      ((¬ ∃ p, Source ts p) → ∃ fault, Program.parse limit ts = .error fault ∧
        (∀ found, fault ≠ .tooDeep found) ∧
        ∀ length, (fault.diagnostic length).kind.isSyntactic = true) := by
  have hparse : ∀ p, Program.parse limit ts = .ok p ↔ Source ts p :=
    fun p => ⟨source_of_parse h, parse_of_source h⟩
  refine ⟨hparse, ?_, ?_⟩
  · intro p q hp hq
    have hp := (hparse p).mpr hp
    rw [(hparse q).mpr hq] at hp
    cases hp
    rfl
  · intro hnone
    cases hr : Program.parse limit ts with
    | ok p => exact absurd ⟨p, source_of_parse h hr⟩ hnone
    | error fault =>
      refine ⟨fault, rfl, ?_, diagnostic_isSyntactic fault⟩
      rintro found rfl
      exact parse_ne_tooDeep h found hr

/-- The tokens of a sum whose right operand is a product, said. -/
def sumTokens : List Token :=
  [⟨.keyword .sayWord, "say", 0⟩, ⟨.number, "1", 4⟩, ⟨.symbol .plus, "+", 6⟩, ⟨.number, "2", 8⟩,
   ⟨.symbol .star, "*", 10⟩, ⟨.number, "3", 12⟩, ⟨.symbol .dot, ".", 13⟩]

theorem source_sumTokens :
    sumTokens.length < 8 ∧
      Source sumTokens ⟨[], [.say (.binary .add (.number (.ofLiteral ['1']) 4)
        (.binary .multiply (.number (.ofLiteral ['2']) 8) (.number (.ofLiteral ['3']) 12) 8) 4) 0]⟩ :=
  have h : sumTokens.length < 8 := by decide
  ⟨h, ((parse_eq_ok_iff_source h).1 _).mp rfl⟩

end Parlance.Parse
