import Parlance.Proofs.Lines.Shadows
import Mathlib.Logic.Relation
/-!
# Parsing the beginning of a program

The parser, on the first tokens of a program, answers with a program or comes to the end of the
tokens (`parse_beginning`), with one exception: a declaration is told from a statement by three
tokens, so that one whose head is cut off before its parenthesis is refused at its first word
(`Torn`).
-/
namespace Parlance.Parse
open Grammar

variable {us vs left mid rest : List Token}

/-! ### Statements -/

section Statements

variable {expr : Parser Expr} {stmt : Parser Stmt} {before after : Bool}

/-- What goes on with a target is the same at a beginning, but for a tip. -/
theorem continuesTarget_of_begins {named : Bool} (h : Begins named left mid)
    (htip : ∀ k ∈ tipKinds, kindAt mid ≠ some k) (hmid : continuesTarget (kindAt mid) = false) :
    continuesTarget (kindAt left) = false := by
  cases h with
  | nil => rfl
  | cons hsame _ => simpa [kindAt, hsame] using hmid
  | tip h => exact absurd rfl (htip _ h.mem)

theorem target_trails (h : Shadows true true expr expr) {g : Target} (hbegins : Begins true us vs)
    (hq : target expr vs = .ok (g, rest)) (htip : ∀ k ∈ tipKinds, kindAt rest ≠ some k) :
    Trails true rest (target expr us) := by
  have hstanding : ∀ {x y : Target} {t v : Token} {named : Bool} {mid left : List Token},
      Begins named left mid →
      (if continuesTarget (kindAt mid) then .error (ParseFault.notAssignable (some v) mid.head?)
        else .ok (y, mid)) = Except.ok (g, rest) →
      Trails true rest (if continuesTarget (kindAt left)
        then .error (ParseFault.notAssignable (some t) left.head?) else .ok (x, left)) := by
    intro x y t v named mid left hleft hmid
    split at hmid
    · cases hmid
    · next hends =>
      cases hmid
      rw [continuesTarget_of_begins hleft htip (Bool.eq_false_iff.mpr hends)]
      exact .ok hleft.loosen
  cases hbegins with
  | nil => exact .ended rfl
  | @cons _ t v us vs hsame htail =>
    simp only [target, hsame] at hq ⊢
    split at hq
    · next hname =>
      rw [if_pos hname]
      by_cases hopen : kindAt vs = some (.symbol .leftBracket)
      · rw [if_pos hopen] at hq
        obtain ⟨⟨i, mid⟩, hi, hindexed⟩ := except_bind_eq_ok.mp hq
        obtain ⟨⟨c, mid'⟩, hclose, hends⟩ := except_bind_eq_ok.mp hindexed
        cases htail with
        | nil => exact .ok .nil
        | @cons _ o o' us vs hopen' htail =>
          have hopened : kindAt (o :: us) = some (.symbol .leftBracket) := by
            rw [← hopen]
            exact congrArg some hopen'
          rw [if_pos hopened]
          refine (h.follow htail.loosen hi).bind fun i' left _ hleft => ?_
          refine ((Shadows.expectSymbol (by decide)).follow hleft hclose).bind
            fun c' left' _ (hleft' : Begins true _ _) => ?_
          exact hstanding hleft' hends
        | tip h => exact absurd (Option.some.inj hopen) (h.ne (by decide)).2
      · rw [if_neg hopen] at hq
        have hclosed : kindAt us ≠ some (.symbol .leftBracket) := by
          cases htail with
          | nil => simp [kindAt]
          | cons hsame' _ => simpa [kindAt, hsame'] using hopen
          | tip h => exact fun ho => (h.ne (by decide)).1 (Option.some.inj ho)
        rw [if_neg hclosed]
        exact hstanding htail hq
    · cases hq
  | @tip _ t v vs h =>
    simp only [target, if_neg (@IsTip.ne _ _ _ h .name (by decide)).2] at hq
    cases hq

theorem block_shadows (hcs : Closes id [] (Stmt.moved id) stmt stmt)
    (h : Shadows true true stmt stmt) {stops : List Keyword} (hstops : .timesWord ∉ stops) :
    Shadows true true (block stmt stops) (block stmt stops) := by
  refine ItemShadows.repeated ⟨rfl, fun {ts rest s} hp => ?_, fun {us vs mid o} hbegins hq => ?_⟩
  · cases ts with
    | nil => cases hp
    | cons t ts =>
      simp only at hp
      split at hp
      · cases hp
      · obtain ⟨⟨s, mid⟩, hs, hp⟩ := except_bind_eq_ok.mp hp
        cases hp
        exact hcs.takes hs
  · cases hbegins with
    | nil => exact .spent
    | @cons _ t v us vs hsame htail =>
      simp only [hsame] at hq ⊢
      split at hq
      · next hstop =>
        cases hq
        rw [if_pos hstop]
        exact .same rfl (.cons hsame htail)
      · next hstop =>
        obtain ⟨⟨s, mid⟩, hs, hq⟩ := except_bind_eq_ok.mp hq
        cases hq
        rw [if_neg hstop]
        exact (h.follow (.cons hsame htail) hs).item id s
    | @tip _ t v vs htip =>
      have hne : ∀ k ∈ stops, TokenKind.keyword k ∉ tipKinds := by
        intro k hk hmem
        simp only [tipKinds, List.mem_cons, reduceCtorEq, false_or, List.not_mem_nil, or_false,
          TokenKind.keyword.injEq] at hmem
        exact hstops (hmem ▸ hk)
      have ht : ¬ (stops.any fun k => t.kind == .keyword k) = true := by
        rw [List.any_eq_true]
        rintro ⟨k, hk, ht⟩
        exact (htip.ne (hne k hk)).1 (eq_of_beq ht)
      have hv : ¬ (stops.any fun k => v.kind == .keyword k) = true := by
        rw [List.any_eq_true]
        rintro ⟨k, hk, hv⟩
        exact (htip.ne (hne k hk)).2 (eq_of_beq hv)
      simp only [if_neg hv] at hq
      simp only [if_neg ht]
      obtain ⟨⟨s, mid⟩, hstmt, hq⟩ := except_bind_eq_ok.mp hq
      cases hq
      exact (h.follow (.tip htip) hstmt).item id s

theorem acceptAll_shadows {ks : List Keyword} (hks : .timesWord ∉ ks) :
    Shadows before before (acceptAll ks) (acceptAll ks) := by
  induction ks with
  | nil => exact .pure _ _
  | cons k ks ih =>
    rw [List.mem_cons, not_or] at hks
    have hk : TokenKind.keyword k ∉ tipKinds := by simpa [tipKinds] using Ne.symm hks.1
    exact (Shadows.accept hk (by simp)).bind fun _ _ => ih hks.2

theorem dot_shadows {α : Type} (a b : α) :
    Shadows true after (do let _ ← expectSymbol .dot; return a)
      (do let _ ← expectSymbol .dot; return b) :=
  (Shadows.expectSymbol (by decide)).bind fun _ _ => .pure _ _

theorem finish_shadows {echoes : List Keyword} (hechoes : .timesWord ∉ echoes) :
    Shadows true after (finish echoes) (finish echoes) :=
  (Shadows.expectKeyword (by decide)).bind fun _ _ => (acceptAll_shadows hechoes).bind fun _ _ =>
    dot_shadows _ _

theorem valued_shadows (h : Shadows true true expr expr) (make make' : Expr → Stmt) :
    Shadows true after (valued expr make) (valued expr make') := h.bind fun _ _ => dot_shadows _ _

theorem aimed_shadows (h : Shadows true true expr expr) {k : Keyword} (hk : .keyword k ∉ tipKinds)
    (make make' : Expr → String → Stmt) :
    Shadows true after (aimed expr k make) (aimed expr k make') :=
  h.bind fun _ _ => (Shadows.expectKeyword hk).bind fun _ _ =>
    (@Shadows.expectName true _).bind fun _ _ => dot_shadows _ _

theorem assigned_shadows (h : Shadows true true expr expr) {k : Keyword}
    (hk : .keyword k ∉ tipKinds) (make make' : Target → Expr → Stmt) :
    Shadows true after (assigned expr k make) (assigned expr k make') where
  dry := .ended rfl
  follow {us vs rest s} hbegins hq := by
    obtain ⟨g, mid, hg, hq⟩ := bind_eq_ok.mp hq
    have hword : ∀ k ∈ tipKinds, kindAt mid ≠ some k := by
      intro k' hk' hkind'
      obtain ⟨w, mid', hw, _⟩ := bind_eq_ok.mp hq
      obtain ⟨rfl, hkind⟩ := expectKeyword_eq_ok.mp hw
      rw [kindAt_cons_word hkind, Option.some.injEq] at hkind'
      exact hk (hkind' ▸ hk')
    refine (target_trails h hbegins hg hword).bind fun g' left _ hleft => ?_
    have hrest : ∀ g g' : Target, Shadows true after
        (do let _ ← expectKeyword k; let value ← expr; let _ ← expectSymbol .dot; return make g value)
        (do let _ ← expectKeyword k; let value ← expr; let _ ← expectSymbol .dot
            return make' g' value) := fun _ _ =>
      (Shadows.expectKeyword hk).bind fun _ _ => h.bind fun _ _ => dot_shadows _ _
    exact (hrest g' g).follow hleft hq

theorem letStatement_shadows (h : Shadows true true expr expr) (start start' : Nat) :
    Shadows true after (letStatement expr start) (letStatement expr start') :=
  (Shadows.expectName _).bind fun _ _ => (Shadows.expectKeyword (by decide)).bind fun _ _ =>
    h.bind fun _ _ => dot_shadows _ _

section Bodies

variable (hcs : Closes id [] (Stmt.moved id) stmt stmt) (hs : Shadows true true stmt stmt)
  (he : ∀ after, Shadows true after expr expr)
  (hj : ∀ {ts rest : List Token} {e : Expr}, expr ts = .ok (e, rest) → Unjoined rest)

include hcs hs

theorem bodied_shadows {echoes : List Keyword} (hechoes : .timesWord ∉ echoes)
    (make make' : List Stmt → Stmt) :
    Shadows false after (bodied stmt echoes make) (bodied stmt echoes make') :=
  Shadows.expectColon.bind fun _ _ => (block_shadows hcs hs (by decide)).bind fun _ _ =>
    (finish_shadows hechoes).bind fun _ _ => .pure _ _

theorem otherwise_shadows : Shadows true true (otherwise stmt) (otherwise stmt) :=
  .acceptThen (by decide) (by decide)
    (Shadows.expectColon.bind fun _ _ => block_shadows hcs hs (by decide)) (.pure _ _)

include he

theorem ifStatement_shadows (start start' : Nat) :
    Shadows true after (ifStatement expr stmt start) (ifStatement expr stmt start') := by
  rw [ifStatement_eq, ifStatement_eq]
  refine (he false).bind fun _ _ => (Shadows.accept (by decide) (by decide)).bind fun _ _ => ?_
  refine (Shadows.accept (by decide) (by decide)).bind fun _ _ => ?_
  refine Shadows.expectColon.bind fun _ _ => (block_shadows hcs hs (by decide)).bind fun _ _ => ?_
  exact (otherwise_shadows hcs hs).bind fun _ _ => (finish_shadows (by decide)).bind fun _ _ =>
    .pure _ _

theorem whileStatement_shadows (start start' : Nat) :
    Shadows true after (whileStatement expr stmt start) (whileStatement expr stmt start') := by
  rw [whileStatement_eq, whileStatement_eq]
  refine (he false).bind fun _ _ => (Shadows.accept (by decide) (by decide)).bind fun _ _ => ?_
  exact (Shadows.accept (by decide) (by decide)).bind fun _ _ => bodied_shadows hcs hs (by decide) _ _

theorem forEachStatement_shadows (start start' : Nat) :
    Shadows true after (forEachStatement expr stmt start) (forEachStatement expr stmt start') := by
  rw [forEachStatement_eq, forEachStatement_eq]
  refine (@Shadows.expectKeyword true true _ (by decide)).bind fun _ _ => ?_
  refine (@Shadows.expectName true _).bind fun _ _ => ?_
  refine (Shadows.expectKeyword (by decide)).bind fun _ _ => (he false).bind fun _ _ => ?_
  exact bodied_shadows hcs hs (by decide) _ _

include hj

/-- The word before a counted block comes after an expression, behind which no operator is left. -/
theorem repeatStatement_shadows (start start' : Nat) :
    Shadows true after (repeatStatement expr stmt start) (repeatStatement expr stmt start') := by
  rw [repeatStatement_eq, repeatStatement_eq]
  have hbody : ∀ c c' : Expr, Shadows false after (bodied stmt [.repeatWord] (.repeatTimes c · start))
      (bodied stmt [.repeatWord] (.repeatTimes c' · start')) :=
    fun _ _ => bodied_shadows hcs hs (by decide) _ _
  refine ⟨(he true).dry.bind fun c left _ hleft => ?_, fun {us vs rest s} hbegins hq => ?_⟩
  · obtain rfl := hleft.eq_nil
    exact .ended rfl
  · obtain ⟨c', mid, hc', hq⟩ := bind_eq_ok.mp hq
    obtain ⟨w, mid', hw, hbodied⟩ := bind_eq_ok.mp hq
    obtain ⟨rfl, hkind⟩ := expectKeyword_eq_ok.mp hw
    refine ((he true).follow hbegins hc').bind fun c left hc hleft => ?_
    cases hleft with
    | nil => exact .ended rfl
    | @cons _ t _ left _ hsame hleft =>
      have hword : expectKeyword .timesWord (t :: left) = .ok (t, left) :=
        expectKeyword_eq_ok.mpr ⟨rfl, hsame.trans hkind⟩
      rw [show w.kind = .keyword .timesWord from hkind] at hleft
      show Trails after rest (expectKeyword .timesWord (t :: left) >>= _)
      rw [hword]
      exact (hbody c c').follow hleft hbodied
    | tip htip => exact absurd (congrArg some htip.1) (hj hc).kindAt_ne

/-- The statement that a keyword opens on a beginning is the one that it opens on the whole. -/
theorem opened?_shadows (start : Nat) {start' : Nat} {k : Keyword} {q : Parser Stmt}
    (hq : opened? expr stmt start' k = some q) :
    ∃ p, opened? expr stmt start k = some p ∧ Shadows true after p q := by
  cases k <;> simp only [opened?, Option.some.injEq, reduceCtorEq] at hq <;> subst hq <;>
    refine ⟨_, rfl, ?_⟩
  case letWord => exact letStatement_shadows (he true) _ _
  case setWord => exact assigned_shadows (he true) (by decide) _ _
  case increaseWord => exact assigned_shadows (he true) (by decide) _ _
  case decreaseWord => exact assigned_shadows (he true) (by decide) _ _
  case sayWord => exact valued_shadows (he true) _ _
  case returnWord => exact valued_shadows (he true) _ _
  case appendWord => exact aimed_shadows (he true) (by decide) _ _
  case removeWord => exact aimed_shadows (he true) (by decide) _ _
  case ifWord => exact ifStatement_shadows hcs hs he _ _
  case whileWord => exact whileStatement_shadows hcs hs he _ _
  case repeatWord => exact repeatStatement_shadows hcs hs he hj _ _
  case forWord => exact forEachStatement_shadows hcs hs he _ _

theorem statementWith_shadows :
    Shadows true after (statementWith expr stmt) (statementWith expr stmt) where
  dry := .ended rfl
  follow {us vs rest s} hbegins hq := by
    have hvalue : ∀ start start', Shadows true after (evaluateStatement expr start)
        (evaluateStatement expr start') := fun _ _ => valued_shadows (he true) _ _
    cases hbegins with
    | nil => exact .ended rfl
    | @cons _ t v us vs hsame htail =>
      simp only [statementWith, hsame] at hq ⊢
      split at hq
      · next k hk =>
        cases ho : opened? expr stmt v.offset k with
        | some q =>
          obtain ⟨p, hp, hshadows⟩ := opened?_shadows hcs hs he hj t.offset ho
          rw [ho] at hq
          rw [hp]
          exact hshadows.follow htail.loosen hq
        | none =>
          rw [ho] at hq
          rw [opened?_eq_none_congr ho]
          exact (hvalue _ _).follow (.cons hsame htail) hq
      · exact (hvalue _ _).follow (.cons hsame htail) hq
    | @tip _ t v vs htip =>
      have hstar : t.kind = .symbol .star := htip.1
      have hq' : evaluateStatement expr v.offset (v :: vs) = .ok (s, rest) := by
        rcases htip.2 with ht | ⟨hcolon, _⟩
        · have ht' : v.kind = .keyword .timesWord := ht
          simpa only [statementWith, ht', opened?] using hq
        · have hcolon' : v.kind = .symbol .colon := hcolon
          simpa only [statementWith, hcolon'] using hq
      simp only [statementWith, hstar]
      exact (hvalue _ _).follow (.tip htip) hq'

end Bodies
end Statements

theorem statement_shadows (limit : Nat) : Shadows true true (statement limit) (statement limit) := by
  induction limit with
  | zero => exact ⟨.ended rfl, nofun⟩
  | succ limit ih =>
    exact statementWith_shadows (statement_closes id [] limit) ih (fun _ => expression_shadows _)
      (unjoined_of_chain (operand_carries _))

/-! ### Declarations -/

theorem furtherParameter?_shadows : ItemShadows furtherParameter? :=
  behindComma_shadows (Shadows.expectName _) furtherParameter?_takes

theorem parameters_shadows {after : Bool} : Shadows true after parameters parameters := by
  have hclose : ∀ names names' : List String, Shadows true after
      (do
        let names ← pure names
        let _ ← expectSymbol .rightParen
        return names)
      (do
        let names ← pure names'
        let _ ← expectSymbol .rightParen
        return names) := fun names names' =>
    (Shadows.pure names names').bind fun _ _ =>
      (Shadows.expectSymbol (by decide)).bind fun _ _ => .pure _ _
  refine (@Shadows.expectSymbol true true _ (by decide)).bind fun _ _ => ?_
  refine .choose (by decide) (hclose [] []) ((Shadows.expectName _).bind fun _ _ => ?_)
  exact furtherParameter?_shadows.repeated.bind fun _ _ => hclose _ _

theorem declaration_shadows (limit : Nat) :
    Shadows true true (declaration (statement limit)) (declaration (statement limit)) := by
  have hblock : Shadows true true (block (statement limit) [.endWord])
      (block (statement limit) [.endWord]) :=
    block_shadows (statement_closes id [] limit) (statement_shadows limit) (by decide)
  refine (@Shadows.expectKeyword true true _ (by decide)).bind fun _ _ => ?_
  refine (Shadows.expectName _).bind fun _ _ => (@parameters_shadows false).bind fun _ _ => ?_
  refine Shadows.expectColon.bind fun _ _ => hblock.bind fun _ _ => ?_
  exact (Shadows.expectKeyword (by decide)).bind fun _ _ => dot_shadows _ _

/-! ### Items -/

/-- The head of a declaration before its parenthesis: the keyword, and perhaps the name. -/
inductive IsHead : List Token → Prop
  | word {a : Token} : IsWord .toWord a → IsHead [a]
  | named {a b : Token} : IsWord .toWord a → IsName b → IsHead [a, b]

/-- Reading one item leaves the rest of the tokens. -/
def Leaves (limit : Nat) (ts rest : List Token) : Prop :=
  ∃ x, item? (statement limit) ts = .ok (some x, rest)

/-- Reading item after item comes to the rest of the tokens. -/
abbrev Reaches (limit : Nat) : List Token → List Token → Prop := Relation.ReflTransGen (Leaves limit)

/-- Item after item is read up to the head of a declaration that is cut off before its
parenthesis. -/
def Torn (limit : Nat) (ts : List Token) : Prop := ∃ head, Reaches limit ts head ∧ IsHead head

section Items

variable {limit : Nat} {ts us vs ws rest head : List Token}

theorem declares_of_begins {named : Bool} (h : Begins named us vs) (hdeclares : declares us = true) :
    declares vs = true := by
  unfold declares at hdeclares
  split at hdeclares
  · next a b c us =>
    simp only [Bool.and_eq_true, beq_iff_eq] at hdeclares
    obtain ⟨⟨ha, hb⟩, hc⟩ := hdeclares
    cases h with
    | cons ha' htail =>
      cases htail with
      | cons hb' htail =>
        cases htail with
        | cons hc' _ => simp [declares, ← ha', ← hb', ← hc', ha, hb, hc]
        | tip htip => exact absurd hc (htip.ne (by decide)).1
  · cases hdeclares

/-- The first tokens of a declaration are the head of one, or can be told from a statement. -/
theorem head_of_begins {named : Bool} (h : Begins named us vs) (hne : us ≠ [])
    (hdeclares : declares vs = true) : IsHead us ∨ declares us = true := by
  unfold declares at hdeclares
  split at hdeclares
  · next a b c vs =>
    simp only [Bool.and_eq_true, beq_iff_eq] at hdeclares
    obtain ⟨⟨ha, hb⟩, hc⟩ := hdeclares
    cases h with
    | nil => exact absurd rfl hne
    | tip htip => exact absurd ha (htip.ne (by decide)).2
    | cons ha' htail =>
      cases htail with
      | nil => exact .inl (.word (ha'.trans ha))
      | tip htip => exact absurd hb (htip.ne (by decide)).2
      | cons hb' htail =>
        cases htail with
        | nil => exact .inl (.named (ha'.trans ha) (hb'.trans hb))
        | tip htip => exact absurd hc (htip.ne (by decide)).2
        | cons hc' _ => exact .inr (by simp [declares, ha', hb', hc', ha, hb, hc])
  · cases hdeclares

theorem item?_trails (h : Begins true us vs) (hne : us ≠ [])
    (hq : Leaves limit vs rest) : IsHead us ∨ Trails true rest (item? (statement limit) us) := by
  obtain ⟨x, hq⟩ := hq
  have hus : us.isEmpty = false := by simpa using hne
  simp only [item?, hus, Bool.false_eq_true, if_false] at hq ⊢
  split at hq
  · cases hq
  · split at hq
    · next hdeclares =>
      obtain ⟨⟨d, mid⟩, hd, hq⟩ := except_bind_eq_ok.mp hq
      cases hq
      refine (head_of_begins h hne hdeclares).imp id fun hus => ?_
      rw [if_pos hus]
      exact ((declaration_shadows limit).follow h hd).bind fun _ _ _ hleft => .ok hleft
    · next hdeclares =>
      obtain ⟨⟨s, mid⟩, hs, hq⟩ := except_bind_eq_ok.mp hq
      cases hq
      refine .inr ?_
      rw [if_neg fun hus => hdeclares (declares_of_begins h hus)]
      exact ((statement_shadows limit).follow h hs).bind fun _ _ _ hleft => .ok hleft

theorem leaves_unique : Relator.RightUnique (Leaves limit) := by
  rintro ts rest rest' ⟨x, hx⟩ ⟨y, hy⟩
  rw [hx] at hy
  cases hy
  rfl

theorem not_leaves_nil : ¬ Leaves limit [] rest := by
  rintro ⟨x, hx⟩
  cases hx

theorem Leaves.length_lt (h : Leaves limit ts rest) : rest.length < ts.length := by
  obtain ⟨x, hx⟩ := h
  obtain ⟨us, d, rfl, _⟩ := (item?_closes id [] hx).1
  simp only [List.length_append, List.length_cons]
  omega

/-- The head of a declaration that is cut off is read as a statement, and refused at its first
word. -/
theorem item?_head (limit : Nat) (h : IsHead head) :
    ∃ fault, item? (statement limit) head = .error fault ∧ ¬ fault.AtEnd := by
  obtain ⟨a, ts, rfl, ha, hdeclares⟩ : ∃ a ts, head = a :: ts ∧ IsWord .toWord a ∧
      declares (a :: ts) = false := by
    cases h with
    | word ha => exact ⟨_, _, rfl, ha, rfl⟩
    | named ha hb => exact ⟨_, _, rfl, ha, rfl⟩
  have ha' : a.kind = .keyword .toWord := ha
  cases limit with
  | zero =>
    refine ⟨.tooDeep (some a), ?_, Option.some_ne_none a⟩
    simp only [item?, List.isEmpty_cons, hdeclares, Bool.false_eq_true, if_false]
    rfl
  | succ limit =>
    refine ⟨.noExpression (some a), ?_, Option.some_ne_none a⟩
    have hoperand : operand (limit + 1) (a :: ts) = .error (.noExpression (some a)) := by
      simp only [operand, List.head?_cons, Option.bind_some, ha', UnaryOp.ofKind?, Option.map_none,
        postfixed_apply, base, reduceCtorEq, if_false, primary]
      rfl
    simp only [item?, List.isEmpty_cons, hdeclares, Bool.false_eq_true, if_false, statement,
      statementWith, ha', opened?, evaluateStatement, expression, chain, bind_apply, hoperand]
    rfl

theorem not_leaves_head (h : IsHead head) : ¬ Leaves limit head rest := by
  rintro ⟨x, hx⟩
  obtain ⟨fault, hfault, _⟩ := item?_head limit h
  rw [hx] at hfault
  cases hfault

/-! ### Programs -/

theorem reaches_nil_iff : Reaches limit ts [] ↔ ∃ p, Program.parse limit ts = .ok p := by
  constructor
  · intro h
    have hitems : ∃ xs, Itemized limit ts xs := by
      induction h using Relation.ReflTransGen.head_induction_on with
      | refl => exact ⟨[], .nil⟩
      | head hstep _ ih =>
        obtain ⟨x, hx⟩ := hstep
        obtain ⟨xs, hxs⟩ := ih
        exact ⟨x :: xs, .cons hx hxs⟩
    obtain ⟨xs, hxs⟩ := hitems
    exact ⟨_, parse_eq_ok_iff_itemized.mpr ⟨xs, hxs, rfl⟩⟩
  · rintro ⟨p, hp⟩
    obtain ⟨xs, hxs⟩ : ∃ xs, Itemized limit ts xs :=
      (parse_eq_ok_iff_itemized.mp hp).imp fun _ h => h.1
    clear hp
    induction hxs with
    | nil => exact .refl
    | cons hx _ ih => exact .head ⟨_, hx⟩ ih

/-- The first item that is refused is what the program is refused for. -/
theorem parse_error (h : Reaches limit ts rest) {fault : ParseFault}
    (hfault : item? (statement limit) rest = .error fault) :
    Program.parse limit ts = .error fault := by
  have hcollect : ∀ bound : List Token, ts.length ≤ bound.length →
      collect (item? (statement limit)) bound ts = .error fault := by
    induction h using Relation.ReflTransGen.head_induction_on with
    | refl =>
      intro bound hb
      cases bound with
      | nil =>
        obtain rfl := List.length_eq_zero_iff.mp (Nat.le_zero.mp hb)
        cases hfault
      | cons b bound => rw [collect, bind_apply, hfault]; rfl
    | @head ts mid hstep _ ih =>
      intro bound hb
      have hless := hstep.length_lt
      obtain ⟨x, hx⟩ := hstep
      cases bound with
      | nil =>
        rw [List.length_nil] at hb
        omega
      | cons b bound =>
        rw [List.length_cons] at hb
        have hrest := ih bound (by omega)
        rw [collect, bind_apply, hx]
        show (collect (item? (statement limit)) bound mid >>= _) = _
        rw [hrest]
        rfl
  rw [Program.parse, repeated, hcollect ts (Nat.le_refl _)]
  rfl

/-- On the first tokens of a program the parser answers with a program or comes to the end, unless
the head of a declaration is torn. -/
theorem parse_beginning {p : Program} (hp : Program.parse limit vs = .ok p)
    (h : Begins true us vs) :
    (∃ q, Program.parse limit us = .ok q) ∨ Torn limit us ∨
      ∃ fault, Program.parse limit us = .error fault ∧ fault.AtEnd := by
  have hreach : Reaches limit us [] ∨ Torn limit us ∨ ∃ rest fault, Reaches limit us rest ∧
      item? (statement limit) rest = .error fault ∧ fault.AtEnd := by
    have hvs := reaches_nil_iff.mpr ⟨p, hp⟩
    clear hp
    induction hvs using Relation.ReflTransGen.head_induction_on generalizing us with
    | refl =>
      obtain rfl := h.eq_nil
      exact .inl .refl
    | @head vs mid hstep _ ih =>
      by_cases hne : us = []
      · subst hne
        exact .inl .refl
      · rcases item?_trails h hne hstep with hhead | htrails
        · exact .inr (.inl ⟨us, .refl, hhead⟩)
        · cases hr : item? (statement limit) us with
          | error fault =>
            rw [hr] at htrails
            cases htrails with
            | ended hend => exact .inr (.inr ⟨us, fault, .refl, hr, hend⟩)
          | ok found =>
            obtain ⟨o, left⟩ := found
            rw [hr] at htrails
            cases htrails with
            | ok hleft =>
              cases o with
              | none => exact absurd (item?_eq_none hr) hne
              | some x =>
                have hfirst : Leaves limit us left := ⟨x, hr⟩
                rcases ih hleft with hdone | ⟨head, hhead, his⟩ | ⟨rest, fault, hrest, hfault⟩
                · exact .inl (.head hfirst hdone)
                · exact .inr (.inl ⟨head, .head hfirst hhead, his⟩)
                · exact .inr (.inr ⟨rest, fault, .head hfirst hrest, hfault⟩)
  rcases hreach with hdone | htorn | ⟨rest, fault, hrest, hfault, hend⟩
  · exact .inl (reaches_nil_iff.mp hdone)
  · exact .inr (.inl htorn)
  · exact .inr (.inr ⟨fault, parse_error hrest hfault, hend⟩)

/-- A torn head is refused, and not for want of more tokens. -/
theorem Torn.refused (h : Torn limit ts) :
    ∃ fault, Program.parse limit ts = .error fault ∧ ¬ fault.AtEnd := by
  obtain ⟨head, hreach, hhead⟩ := h
  obtain ⟨fault, hfault, hend⟩ := item?_head limit hhead
  exact ⟨fault, parse_error hreach hfault, hend⟩

/-! ### Behind a program -/

theorem Reaches.append (h : Reaches limit ts rest) (ws : List Token) :
    Reaches limit (ts ++ ws) (rest ++ ws) := by
  refine Relation.ReflTransGen.lift (· ++ ws) ?_ _ _ h
  rintro us vs ⟨x, hx⟩
  have hplaced := (item?_closes id ws hx).2
  rw [placed_id, placed_id] at hplaced
  exact ⟨_, hplaced⟩

theorem Reaches.moved (h : Reaches limit ts rest) (φ : Nat → Nat) :
    Reaches limit (ts.map (Token.moved φ)) (rest.map (Token.moved φ)) := by
  refine Relation.ReflTransGen.lift (List.map (Token.moved φ)) ?_ _ _ h
  rintro us vs ⟨x, hx⟩
  have hplaced := (item?_closes φ [] hx).2
  simp only [placed, List.append_nil] at hplaced
  exact ⟨_, hplaced⟩

/-- Where no item is next, all items have been read. -/
theorem reaches_behind (h : Reaches limit ts []) (hstop : ∀ rest', ¬ Leaves limit rest rest') :
    Reaches limit (ts ++ ws) rest ↔ Reaches limit ws rest := by
  have hfirst : Reaches limit (ts ++ ws) ws := by simpa using h.append ws
  constructor
  · intro hrest
    rcases Relation.ReflTransGen.total_of_right_unique leaves_unique hfirst hrest with hws | hback
    · exact hws
    · rcases hback.cases_head with rfl | ⟨rest', hstep, _⟩
      · exact .refl
      · exact absurd hstep (hstop rest')
  · exact hfirst.trans

theorem map_moved_back (k : Nat) (ts : List Token) :
    (ts.map (Token.moved (· + k))).map (Token.moved (· - k)) = ts := by
  rw [List.map_map]
  refine List.map_congr_left (fun t _ => ?_) |>.trans (List.map_id ts)
  simp [Token.moved]

theorem isHead_moved (φ : Nat → Nat) (h : IsHead head) : IsHead (head.map (Token.moved φ)) := by
  cases h with
  | word ha => exact .word ha
  | named ha hb => exact .named ha hb

/-- Behind a program the tokens are a program if they are one elsewhere. -/
theorem parse_behind_iff (h : Reaches limit ts []) (k : Nat) :
    Reaches limit (ts ++ ws.map (Token.moved (· + k))) [] ↔ Reaches limit ws [] := by
  rw [reaches_behind h fun _ => not_leaves_nil]
  constructor
  · intro hmoved
    have hback := hmoved.moved (· - k)
    rwa [map_moved_back] at hback
  · intro hws
    exact hws.moved _

theorem torn_behind_iff (h : Reaches limit ts []) (k : Nat) :
    Torn limit (ts ++ ws.map (Token.moved (· + k))) ↔ Torn limit ws := by
  constructor
  · rintro ⟨head, hreach, hhead⟩
    rw [reaches_behind h fun _ => not_leaves_head hhead] at hreach
    have hback := hreach.moved (· - k)
    rw [map_moved_back] at hback
    exact ⟨_, hback, isHead_moved _ hhead⟩
  · rintro ⟨head, hreach, hhead⟩
    have hhead' := isHead_moved (· + k) hhead
    refine ⟨_, ?_, hhead'⟩
    rw [reaches_behind h fun _ => not_leaves_head hhead']
    exact hreach.moved _

end Items
end Parlance.Parse
