import Parlance.Diagnostic
import Parlance.Proofs.Joining.Programs
/-!
# Parsers on the beginning of a text

On the first tokens of a program a parser does what it does on the whole, up to the end of the
tokens, where it stops or asks for more (`Shadows`). A beginning may differ from the whole in its
last token: an operator may stand there that the rest of the text takes back (`IsTip`). The rest of
this module shows it for expressions.
-/
namespace Parlance
open Parse Grammar

/-- The parser needed a token where there are none left. -/
def ParseFault.AtEnd : ParseFault → Prop
  | missing _ found | noExpression found | notAssignable _ found | tooDeep found => found = none
  | notCallable .. => False

/-- A parse fault at the end is one that more text may mend. -/
theorem ParseFault.isIncomplete_iff {fault : ParseFault} {length : Nat} :
    (fault.diagnostic length).isIncomplete = true ↔ fault.AtEnd := by
  have hfound : ∀ found, foundLabel found = Token.endLabel ↔ found = none := by
    rintro (_ | ⟨kind, text, offset⟩)
    · simp [foundLabel]
    · suffices kind.label ≠ Token.endLabel by simpa [foundLabel]
      cases kind with
      | number | string | name => decide
      | symbol s => cases s <;> decide
      | keyword k => cases k <;> decide
  have hcallee : ∀ callee : NodeKind, callee.label ≠ Token.endLabel := by
    intro callee
    cases callee <;> decide
  cases fault with
  | notCallable callee offset =>
    simp [AtEnd, ParseFault.diagnostic, Diagnostic.isIncomplete, DiagnosticKind.found?, hcallee]
  | missing | noExpression | notAssignable | tooDeep =>
    simp [AtEnd, ParseFault.diagnostic, Diagnostic.isIncomplete, DiagnosticKind.found?,
      DiagnosticKind.isSyntactic, hfound]

namespace Parse

variable {α β : Type} {us vs left mid rest : List Token}

/-! ### Beginnings -/

/-- The operator of a phrase at the end of a text, and what stands in its place once a colon comes
next: the word before a counted block, or the colon itself where the word is the end of a name. -/
def IsTip (named : Bool) (t v : Token) : Prop :=
  IsSign .star t ∧ (IsWord .timesWord v ∨ IsSign .colon v ∧ named = true)

/-- The kinds of tokens in which a text and a beginning of it may differ. -/
def tipKinds : List TokenKind := [.symbol .star, .keyword .timesWord, .symbol .colon]

theorem IsTip.ne {named : Bool} {t v : Token} (h : IsTip named t v) {k : TokenKind}
    (hk : k ∉ tipKinds) : t.kind ≠ k ∧ v.kind ≠ k := by
  simp only [tipKinds, List.mem_cons, List.not_mem_nil, or_false, not_or] at hk
  obtain ⟨hstar, hv⟩ := h
  refine ⟨fun ht => hk.1 (ht.symm.trans hstar), fun hv' => ?_⟩
  rcases hv with hv | ⟨hv, _⟩
  · exact hk.2.1 (hv'.symm.trans hv)
  · exact hk.2.2 (hv'.symm.trans hv)

theorem IsTip.mem {named : Bool} {t v : Token} (h : IsTip named t v) : v.kind ∈ tipKinds := by
  have hkinds : ∀ k, k = .keyword .timesWord ∨ k = .symbol .colon → k ∈ tipKinds := by
    rintro _ (rfl | rfl) <;> decide
  exact hkinds _ (h.2.imp id And.left)

/-- Tokens of the kinds of the first ones of others, but perhaps for the last one. The flag tells
whether a name comes directly before the tokens. -/
inductive Begins : Bool → List Token → List Token → Prop
  | nil {named : Bool} {vs : List Token} : Begins named [] vs
  | cons {named : Bool} {t v : Token} {us vs : List Token} :
      t.kind = v.kind → Begins (v.kind == .name) us vs → Begins named (t :: us) (v :: vs)
  | tip {named : Bool} {t v : Token} {vs : List Token} :
      IsTip named t v → Begins named [t] (v :: vs)

namespace Begins

variable {named : Bool}

theorem refl (named : Bool) (ts : List Token) : Begins named ts ts := by
  induction ts generalizing named with
  | nil => exact .nil
  | cons t ts ih => exact .cons rfl (ih _)

theorem eq_nil (h : Begins named us []) : us = [] := by
  cases h
  rfl

theorem loosen (h : Begins named us vs) : Begins true us vs := by
  cases h with
  | nil => exact .nil
  | cons hsame htail => exact .cons hsame htail
  | tip htip => exact .tip ⟨htip.1, htip.2.imp id fun hv => ⟨hv.1, rfl⟩⟩

theorem weaken (h : Begins false us vs) (named : Bool) : Begins named us vs := by
  cases named with
  | false => exact h
  | true => exact h.loosen

/-- Where no operator is next, the last token is no tip. -/
theorem tighten (h : Begins named us vs) (hstar : kindAt us ≠ some (.symbol .star)) (other : Bool) :
    Begins other us vs := by
  cases h with
  | nil => exact .nil
  | cons hsame htail => exact .cons hsame htail
  | tip htip => exact absurd (congrArg some htip.1) hstar

end Begins

/-- What is answered on a beginning, next to what is left of the whole: the end is come to, or a
beginning is left of what is left of the whole. -/
inductive Trails (named : Bool) (rest : List Token) : Except ParseFault (α × List Token) → Prop
  | ended {fault : ParseFault} : fault.AtEnd → Trails named rest (.error fault)
  | ok {a : α} {left : List Token} : Begins named left rest → Trails named rest (.ok (a, left))

/-- Where the second parser answers on the whole, the first one does not go beyond it on a
beginning, and it does not go beyond the end. The flags tell whether a name may come before and may
have come last. -/
structure Shadows (before after : Bool) (p q : Parser α) : Prop where
  dry : Trails true [] (p [])
  follow {us vs rest : List Token} {b : α} : Begins before us vs → q vs = .ok (b, rest) →
    Trails after rest (p us)

namespace Trails

variable {named other : Bool} {r : Except ParseFault (α × List Token)}

theorem of_dry (h : Trails other [] r) : Trails named rest r := by
  cases h with
  | ended hend => exact .ended hend
  | ok hleft =>
    obtain rfl := hleft.eq_nil
    exact .ok .nil

theorem loosen (h : Trails named rest r) : Trails true rest r := by
  cases h with
  | ended hend => exact .ended hend
  | ok hleft => exact .ok hleft.loosen

theorem bind {f : α × List Token → Except ParseFault (β × List Token)} (h : Trails named mid r)
    (hf : ∀ a left, r = .ok (a, left) → Begins named left mid → Trails other rest (f (a, left))) :
    Trails other rest (r >>= f) := by
  cases h with
  | ended hend => exact .ended hend
  | ok hleft => exact hf _ _ rfl hleft

end Trails

namespace Shadows

variable {before between after named : Bool} {p q : Parser α}

theorem loosen (h : Shadows before after p q) : Shadows before true p q :=
  ⟨h.dry, fun hbegins hq => (h.follow hbegins hq).loosen⟩

theorem strict (h : Shadows true after p q) : Shadows false after p q :=
  ⟨h.dry, fun hbegins hq => h.follow hbegins.loosen hq⟩

theorem pure (a b : α) : Shadows named named (Pure.pure a) (Pure.pure b) where
  dry := .ok .nil
  follow h hq := by
    obtain ⟨_, rfl⟩ := pure_eq_ok.mp hq
    exact .ok h

theorem bind {f g : α → Parser β} (hp : Shadows before between p q)
    (hf : ∀ a b, Shadows between after (f a) (g b)) : Shadows before after (p >>= f) (q >>= g) where
  dry := hp.dry.bind fun a left _ hleft => by
    obtain rfl := hleft.eq_nil
    exact (hf a a).dry
  follow h hq := by
    obtain ⟨b, mid, hb, hq⟩ := bind_eq_ok.mp hq
    exact (hp.follow h hb).bind fun a left _ hleft => (hf a b).follow hleft hq

theorem expectAs {k : TokenKind} (hk : ∀ t v, IsTip before t v → v.kind ≠ k)
    (hname : k = .name → after = true) (w : Wanted) :
    Shadows before after (expectAs k w) (expectAs k w) where
  dry := .ended rfl
  follow {us vs rest t} h hq := by
    obtain ⟨rfl, hkind⟩ := expectAs_eq_ok.mp hq
    cases h with
    | nil => exact .ended rfl
    | tip htip => exact absurd hkind (hk _ _ htip)
    | cons hsame htail =>
      rw [Parse.expectAs, if_pos (hsame.trans hkind)]
      rw [hkind] at htail
      by_cases hk : k = .name
      · rw [hname hk]
        exact .ok htail.loosen
      · rw [beq_eq_false_iff_ne.mpr hk] at htail
        exact .ok (htail.weaken after)

theorem expectSymbol {s : Symbol} (hs : .symbol s ∉ tipKinds) :
    Shadows before after (expectSymbol s) (expectSymbol s) :=
  expectAs (fun _ _ htip => (htip.ne hs).2) (by simp) _

theorem expectKeyword {k : Keyword} (hk : .keyword k ∉ tipKinds) :
    Shadows before after (expectKeyword k) (expectKeyword k) :=
  expectAs (fun _ _ htip => (htip.ne hk).2) (by simp) _

/-- A colon stands in the place of an operator behind names only. -/
theorem expectColon :
    Shadows false after (Parse.expectSymbol .colon) (Parse.expectSymbol .colon) := by
  refine expectAs (fun t v htip hv => ?_) (by simp) _
  rcases htip.2 with ht | ⟨_, hnamed⟩
  · cases hv.symm.trans ht
  · cases hnamed

theorem expectName (w : Wanted) : Shadows before true (expectName w) (expectName w) :=
  (expectAs (fun _ _ htip => (htip.ne (by decide)).2) (fun _ => rfl) _).bind fun _ _ => pure _ _

/-- If a keyword or a mark is accepted the one parser goes on, otherwise the other. -/
theorem acceptThen {k : TokenKind} (hk : k ∉ tipKinds) (hname : k ≠ .name)
    {x y x' y' : Parser α} (hx : Shadows false after x x') (hy : Shadows before after y y') :
    Shadows before after (do if ← accept k then x else y) (do if ← accept k then x' else y') where
  dry := hy.dry
  follow {us vs rest b} h hq := by
    rw [bind_apply] at hq ⊢
    cases h with
    | nil => exact hy.dry.of_dry
    | @cons _ t v us vs hsame htail =>
      simp only [accept, hsame] at hq ⊢
      split at hq
      · next hkind =>
        rw [if_pos hkind]
        rw [hkind, beq_eq_false_iff_ne.mpr hname] at htail
        exact hx.follow htail hq
      · next hkind =>
        rw [if_neg hkind]
        exact hy.follow (.cons hsame htail) hq
    | @tip _ t v vs htip =>
      simp only [accept, if_neg (htip.ne hk).1, if_neg (htip.ne hk).2] at hq ⊢
      exact hy.follow (.tip htip) hq

/-- A keyword or a mark that may stand there or not. -/
theorem accept {k : TokenKind} (hk : k ∉ tipKinds) (hname : k ≠ .name) :
    Shadows named named (accept k) (accept k) := by
  have hweak : Shadows false named (Pure.pure true : Parser Bool) (Pure.pure true) :=
    ⟨.ok .nil, fun {us vs rest b} h hq => by
      obtain ⟨_, rfl⟩ := pure_eq_ok.mp hq
      exact .ok (h.weaken named)⟩
  have h := acceptThen hk hname hweak (pure false false)
  have heta : (do if ← Parse.accept k then Pure.pure true else Pure.pure false) = Parse.accept k := by
    funext ts
    rw [bind_apply]
    cases Parse.accept k ts with
    | error fault => rfl
    | ok found =>
      obtain ⟨b, rest⟩ := found
      cases b with
      | true => rfl
      | false => rfl
  rwa [heta] at h

/-- A look at the next token decides how to go on. -/
theorem choose {k : TokenKind} (hk : k ∉ tipKinds) {x y x' y' : Parser α}
    (hx : Shadows before after x x') (hy : Shadows before after y y') :
    Shadows before after (do if kindAt (← get) = some k then x else y)
      (do if kindAt (← get) = some k then x' else y') where
  dry := hy.dry
  follow {us vs rest b} h hq := by
    rw [get_bind_apply] at hq ⊢
    cases h with
    | nil => exact hy.dry.of_dry
    | @cons _ t v us vs hsame htail =>
      have hkind : kindAt (t :: us) = kindAt (v :: vs) := congrArg some hsame
      rw [hkind]
      split at hq
      · next hk =>
        rw [if_pos hk]
        exact hx.follow (.cons hsame htail) hq
      · next hk =>
        rw [if_neg hk]
        exact hy.follow (.cons hsame htail) hq
    | @tip _ t v vs htip =>
      have ht : kindAt [t] ≠ some k := fun h => (htip.ne hk).1 (Option.some.inj h)
      have hv : kindAt (v :: vs) ≠ some k := fun h => (htip.ne hk).2 (Option.some.inj h)
      rw [if_neg ht]
      rw [if_neg hv] at hq
      exact hy.follow (.tip htip) hq

end Shadows

/-! ### Repetition -/

/-- What an item answers on a beginning, next to its answer on the whole: the same as far as it goes
on, unless the beginning is used up. -/
inductive ItemTrails (o : Option α) (mid : List Token) :
    Except ParseFault (Option α × List Token) → Prop
  | ended {fault : ParseFault} : fault.AtEnd → ItemTrails o mid (.error fault)
  | spent {o' : Option α} : ItemTrails o mid (.ok (o', []))
  | same {o' : Option α} {left : List Token} : o'.isSome = o.isSome → Begins true left mid →
      ItemTrails o mid (.ok (o', left))

/-- An item that does not see more in a beginning than in the whole. -/
structure ItemShadows (item : Parser (Option α)) : Prop where
  dry : item [] = .ok (none, [])
  takes : Takes item
  follow {us vs mid : List Token} {o : Option α} : Begins true us vs → item vs = .ok (o, mid) →
    ItemTrails o mid (item us)

theorem Trails.item {named : Bool} {r : Except ParseFault (α × List Token)} (h : Trails named mid r)
    (f : α → β) (b : β) :
    ItemTrails (some b) mid (r >>= fun found => .ok (some (f found.1), found.2)) := by
  cases h with
  | ended hend => exact .ended hend
  | ok hleft => exact .same rfl hleft.loosen

namespace ItemShadows

variable {item : Parser (Option α)}

theorem collect_nil (h : ItemShadows item) (bound : List Token) :
    collect item bound [] = .ok ([], []) := by
  cases bound with
  | nil => rfl
  | cons b bound => rw [collect, bind_apply, h.dry]; rfl

theorem collect (h : ItemShadows item) {bound bound' : List Token} {as : List α}
    (hb : us.length ≤ bound.length) (hb' : vs.length ≤ bound'.length) (hbegins : Begins true us vs)
    (hq : collect item bound' vs = .ok (as, rest)) : Trails true rest (collect item bound us) := by
  induction bound' generalizing bound us vs as with
  | nil =>
    obtain rfl := List.length_eq_zero_iff.mp (Nat.le_zero.mp hb')
    obtain rfl := hbegins.eq_nil
    rw [h.collect_nil]
    exact .ok .nil
  | cons b' bound' ih =>
    cases us with
    | nil =>
      rw [h.collect_nil]
      exact .ok .nil
    | cons t us =>
      obtain ⟨b, bound, rfl⟩ := List.exists_cons_of_length_pos (Nat.lt_of_lt_of_le (by simp) hb)
      obtain ⟨o, mid, ho, hq⟩ := bind_eq_ok.mp hq
      have hitem := h.follow hbegins ho
      rw [Parse.collect, bind_apply]
      cases hr : item (t :: us) with
      | error fault =>
        rw [hr] at hitem
        cases hitem with
        | ended hend => exact .ended hend
      | ok found =>
        rw [hr] at hitem
        cases hitem with
        | @spent o' =>
          cases o' with
          | none => exact .ok .nil
          | some a =>
            have hrest : collect item bound [] = .ok ([], []) := h.collect_nil bound
            show Trails true rest (collect item bound [] >>= _)
            rw [hrest]
            exact .ok .nil
        | @same o' left hsame hleft =>
          cases o' with
          | none =>
            cases o with
            | none =>
              obtain ⟨_, rfl⟩ := pure_eq_ok.mp hq
              exact .ok hleft
            | some a => cases hsame
          | some a =>
            cases o with
            | none => cases hsame
            | some a' =>
              obtain ⟨as', rest', hrest, hq⟩ := bind_eq_ok.mp hq
              obtain ⟨_, rfl⟩ := pure_eq_ok.mp hq
              have hless := h.takes hr
              have hless' := h.takes ho
              simp only [List.length_cons] at hb hb' hless
              exact (ih (by omega) (by omega) hleft hrest).bind fun _ _ _ h => .ok h

theorem repeated (h : ItemShadows item) : Shadows true true (repeated item) (repeated item) where
  dry := .ok .nil
  follow hbegins hq := h.collect (Nat.le_refl _) (Nat.le_refl _) hbegins hq

end ItemShadows

/-- A comma and what follows it, if a comma is next. -/
theorem behindComma_shadows {p : Parser α} (h : Shadows true true p p)
    (ht : Takes (do if ← accept (.symbol .comma) then return some (← p) else return none)) :
    ItemShadows (do if ← accept (.symbol .comma) then return some (← p) else return none) where
  dry := rfl
  takes := ht
  follow {us vs mid o} hbegins hq := by
    have hstep : ∀ t ts, (do if ← accept (.symbol .comma) then return some (← p) else return none :
        Parser (Option α)) (t :: ts) = if t.kind = .symbol .comma
          then p ts >>= fun found => .ok (some found.1, found.2) else .ok (none, t :: ts) := by
      intro t ts
      rw [bind_apply, accept]
      by_cases hk : t.kind = .symbol .comma
      · rw [if_pos hk, if_pos hk]
        rfl
      · rw [if_neg hk, if_neg hk]
        rfl
    cases hbegins with
    | nil => exact .spent
    | @cons _ t v us vs hsame htail =>
      rw [hstep] at hq ⊢
      rw [hsame]
      split at hq
      · next hcomma =>
        obtain ⟨⟨a, rest⟩, ha, hq⟩ := except_bind_eq_ok.mp hq
        cases hq
        rw [if_pos hcomma]
        exact (h.follow htail.loosen ha).item id a
      · next hcomma =>
        cases hq
        rw [if_neg hcomma]
        exact .same rfl (.cons hsame htail)
    | @tip _ t v vs htip =>
      have hne := @IsTip.ne _ _ _ htip (.symbol .comma) (by decide)
      rw [hstep, if_neg hne.2] at hq
      rw [hstep, if_neg hne.1]
      cases hq
      exact .same rfl (.tip htip)

/-! ### Expressions -/

section Expressions

variable {expr operand : Parser Expr} {after : Bool}

theorem operation?_shadows (hc : Carries id [] (Expr.moved id) operand operand)
    (h : Shadows true true operand operand) : ItemShadows (operation? operand) where
  dry := rfl
  takes := operation?_takes hc
  follow {us vs mid o} hbegins hq := by
    cases hbegins with
    | nil => exact .spent
    | @cons _ t v us vs hsame htail =>
      simp only [operation?, hsame] at hq ⊢
      split at hq
      · cases hq
        exact .same rfl (.cons hsame htail)
      · next op _ =>
        obtain ⟨⟨e, rest⟩, he, hq⟩ := except_bind_eq_ok.mp hq
        cases hq
        exact (h.follow htail.loosen he).item (fun e => (op, e)) (op, e)
    | @tip _ t v vs htip =>
      -- the operator wants an operand, and the end is there
      have hstar : t.kind = .symbol .star := htip.1
      simp only [operation?, hstar, BinaryOp.ofKind?, BinaryOp.ofSymbol?]
      have hdry := h.dry
      generalize operand [] = r at hdry ⊢
      cases hdry with
      | ended hend => exact .ended hend
      | ok hleft =>
        obtain rfl := hleft.eq_nil
        exact .spent

theorem unjoined_of_operation? {ts rest : List Token}
    (h : operation? operand ts = .ok (none, rest)) : Unjoined rest := by
  cases ts with
  | nil =>
    cases h
    rfl
  | cons t ts =>
    simp only [operation?] at h
    split at h
    · next hnone =>
      cases h
      exact hnone
    · obtain ⟨_, _, h⟩ := except_bind_eq_ok.mp h
      cases h

/-- No operator is left behind a chain. -/
theorem unjoined_of_chain (hc : Carries id [] (Expr.moved id) operand operand)
    {ts rest : List Token} {e : Expr} (h : chain operand ts = .ok (e, rest)) : Unjoined rest := by
  have hcollect : ∀ (bound ts : List Token) (as : List (BinaryOp × Expr)),
      ts.length ≤ bound.length → collect (operation? operand) bound ts = .ok (as, rest) →
        Unjoined rest := by
    intro bound
    induction bound with
    | nil =>
      intro ts as hb h
      obtain rfl := List.length_eq_zero_iff.mp (Nat.le_zero.mp hb)
      obtain ⟨_, rfl⟩ := pure_eq_ok.mp h
      rfl
    | cons b bound ih =>
      intro ts as hb h
      obtain ⟨o, mid, ho, h⟩ := bind_eq_ok.mp h
      cases o with
      | none =>
        obtain ⟨_, rfl⟩ := pure_eq_ok.mp h
        exact unjoined_of_operation? ho
      | some a =>
        obtain ⟨as', rest', hrest, h⟩ := bind_eq_ok.mp h
        obtain ⟨_, rfl⟩ := pure_eq_ok.mp h
        have hless := operation?_takes hc ho
        rw [List.length_cons] at hb
        exact ih mid as' (by omega) hrest
  obtain ⟨first, mid, _, h⟩ := bind_eq_ok.mp h
  obtain ⟨as, rest', hrest, h⟩ := bind_eq_ok.mp h
  obtain ⟨_, rfl⟩ := pure_eq_ok.mp h
  exact hcollect mid mid as (Nat.le_refl _) hrest

theorem Unjoined.kindAt_ne {ts : List Token} (h : Unjoined ts) :
    kindAt ts ≠ some (.symbol .star) := by
  intro hstar
  rw [Unjoined, hstar] at h
  cases h

/-- A chain does not stop in front of an operator, so that no tip is left. -/
theorem chain_shadows (hc : Carries id [] (Expr.moved id) operand operand)
    (h : Shadows true true operand operand) : Shadows true after (chain operand) (chain operand) := by
  have hloose : Shadows true true (chain operand) (chain operand) :=
    h.bind fun _ _ => (operation?_shadows hc h).repeated.bind fun _ _ => .pure _ _
  refine ⟨hloose.dry, fun {us vs rest e} hbegins hq => ?_⟩
  have htrails := hloose.follow hbegins hq
  cases hr : chain operand us with
  | error fault =>
    rw [hr] at htrails
    cases htrails with
    | ended hend => exact .ended hend
  | ok found =>
    obtain ⟨e', left⟩ := found
    rw [hr] at htrails
    cases htrails with
    | ok hleft => exact .ok (hleft.tighten (unjoined_of_chain hc hr).kindAt_ne after)

theorem indexes_nil (bound : List Token) (e : Expr) : indexes expr bound e [] = .ok (e, []) := by
  cases bound with
  | nil => rfl
  | cons b bound => rfl

variable (hc : Carries id [] (Expr.moved id) expr expr) (h : Shadows true true expr expr)

include hc h

theorem further?_shadows : ItemShadows (further? expr) := behindComma_shadows h (further?_takes hc)

theorem arguments_shadows {closing : Symbol} (hk : .symbol closing ∉ tipKinds) :
    Shadows true after (arguments expr closing) (arguments expr closing) := by
  have hclose : Shadows true after (expectSymbol closing) (expectSymbol closing) :=
    Shadows.expectSymbol hk
  refine .choose hk (hclose.bind fun _ _ => .pure _ _) (h.bind fun _ _ => ?_)
  exact (further?_shadows hc h).repeated.bind fun _ _ => hclose.bind fun _ _ => .pure _ _

theorem primary_shadows : Shadows true after (primary expr) (primary expr) where
  dry := .ended rfl
  follow {us vs rest b} hbegins hq := by
    cases hbegins with
    | nil => exact .ended rfl
    | @cons _ t v us vs hsame htail =>
      have hname : v.kind ≠ .name := by
        intro hname
        simp only [primary, hname] at hq
        cases hq
      rw [beq_eq_false_iff_ne.mpr hname] at htail
      simp only [primary, hsame] at hq ⊢
      split at hq
      · cases hq
        exact .ok (htail.weaken after)
      · cases hq
        exact .ok (htail.weaken after)
      · cases hq
        exact .ok (htail.weaken after)
      · cases hq
        exact .ok (htail.weaken after)
      · obtain ⟨⟨e, mid⟩, he, hq⟩ := except_bind_eq_ok.mp hq
        obtain ⟨⟨c, mid'⟩, hclose, hq⟩ := except_bind_eq_ok.mp hq
        cases hq
        refine (h.follow htail.loosen he).bind fun _ left _ hleft => ?_
        exact ((Shadows.expectSymbol (by decide)).follow hleft hclose).bind fun _ _ _ hrest =>
          .ok hrest
      · obtain ⟨⟨items, mid⟩, hitems, hq⟩ := except_bind_eq_ok.mp hq
        cases hq
        exact ((arguments_shadows hc h (by decide)).follow htail.loosen hitems).bind
          fun _ _ _ (hrest : Begins after _ _) => .ok hrest
      · cases hq
    | @tip _ t v vs htip =>
      rcases htip.2 with ht | ⟨hcolon, _⟩
      · have ht' : v.kind = .keyword .timesWord := ht
        simp only [primary, ht'] at hq
        cases hq
      · have hcolon' : v.kind = .symbol .colon := hcolon
        simp only [primary, hcolon'] at hq
        cases hq

theorem called_shadows (callee callee' : Token) :
    Shadows true true (called expr callee) (called expr callee') := by
  have harguments : Shadows false true (arguments expr .rightParen) (arguments expr .rightParen) :=
    (arguments_shadows hc h (by decide)).strict
  exact .acceptThen (by decide) (by decide) (harguments.bind fun _ _ => .pure _ _) (.pure _ _)

theorem indexes_shadow {bound bound' : List Token} {e e' r : Expr} (hb : us.length ≤ bound.length)
    (hb' : vs.length ≤ bound'.length) (hbegins : Begins true us vs)
    (hq : indexes expr bound' e' vs = .ok (r, rest)) :
    Trails true rest (indexes expr bound e us) := by
  induction bound' generalizing bound us vs e e' with
  | nil =>
    obtain rfl := List.length_eq_zero_iff.mp (Nat.le_zero.mp hb')
    obtain rfl := hbegins.eq_nil
    rw [indexes_nil]
    exact .ok .nil
  | cons b' bound' ih =>
    cases us with
    | nil =>
      rw [indexes_nil]
      exact .ok .nil
    | cons t us =>
      obtain ⟨b, bound, rfl⟩ := List.exists_cons_of_length_pos (Nat.lt_of_lt_of_le (by simp) hb)
      cases hbegins with
      | @cons _ _ v _ vs hsame htail =>
        simp only [indexes, hsame] at hq ⊢
        split at hq
        · obtain ⟨_, _, hq⟩ := except_bind_eq_ok.mp hq
          cases hq
        · obtain ⟨⟨i, mid⟩, hi, hq⟩ := except_bind_eq_ok.mp hq
          obtain ⟨⟨c, mid'⟩, hclose, hq⟩ := except_bind_eq_ok.mp hq
          refine (h.follow htail.loosen hi).bind fun i' left hi' hleft => ?_
          refine ((Shadows.expectSymbol (by decide)).follow hleft hclose).bind
            fun c' left' hclose' (hleft' : Begins true _ _) => ?_
          have hless := (hc.suffix hi).length_le
          have hless' := (hc.suffix hi').length_le
          obtain ⟨rfl, _⟩ := expectSymbol_eq_ok.mp hclose
          obtain ⟨rfl, _⟩ := expectSymbol_eq_ok.mp hclose'
          simp only [List.length_cons] at hb hb' hless hless'
          have hleft'' : left'.length ≤ bound.length := by omega
          exact ih hleft'' (by omega) hleft' hq
        · cases hq
          exact .ok (.cons hsame htail)
      | @tip _ _ v vs htip =>
        have hstar : t.kind = .symbol .star := htip.1
        have hrest : rest = v :: vs := by
          rcases htip.2 with ht | ⟨hcolon, _⟩
          · have ht' : v.kind = .keyword .timesWord := ht
            simp only [indexes, ht'] at hq
            cases hq
            rfl
          · have hcolon' : v.kind = .symbol .colon := hcolon
            simp only [indexes, hcolon'] at hq
            cases hq
            rfl
        subst hrest
        simp only [indexes, hstar]
        exact .ok (.tip htip)

theorem base_shadows : Shadows true true (base expr) (base expr) where
  dry := .ended rfl
  follow {us vs rest b} hbegins hq := by
    cases hbegins with
    | nil => exact .ended rfl
    | @cons _ t v us vs hsame htail =>
      simp only [base, hsame] at hq ⊢
      split at hq
      · next hname =>
        rw [if_pos hname]
        exact (called_shadows hc h t v).follow htail.loosen hq
      · next hname =>
        rw [if_neg hname]
        exact (primary_shadows hc h).follow (.cons hsame htail) hq
    | @tip _ t v vs htip =>
      have hne := @IsTip.ne _ _ _ htip .name (by decide)
      simp only [base, if_neg hne.1, if_neg hne.2] at hq ⊢
      exact (primary_shadows hc h).follow (.tip htip) hq

theorem postfixed_shadows : Shadows true true (postfixed expr) (postfixed expr) where
  dry := .ended rfl
  follow hbegins hq := by
    rw [postfixed_apply] at hq ⊢
    obtain ⟨⟨e, mid⟩, he, hq⟩ := except_bind_eq_ok.mp hq
    refine ((base_shadows hc h).follow hbegins he).bind fun e' left _ hleft => ?_
    exact indexes_shadow hc h (Nat.le_refl _) (Nat.le_refl _) hleft hq

end Expressions

theorem operand_shadows (limit : Nat) : Shadows true true (operand limit) (operand limit) := by
  induction limit with
  | zero => exact ⟨.ended rfl, nofun⟩
  | succ limit ih =>
    have hpostfixed := postfixed_shadows (chain_carries (operand_carries limit))
      (chain_shadows (operand_carries limit) ih)
    refine ⟨.ended rfl, fun {us vs rest b} hbegins hq => ?_⟩
    have hunary : ∀ {us vs : List Token} {t v : Token}, Begins true (t :: us) (v :: vs) →
        UnaryOp.ofKind? t.kind = none → UnaryOp.ofKind? v.kind = none →
        operand (limit + 1) (v :: vs) = .ok (b, rest) →
        Trails true rest (operand (limit + 1) (t :: us)) := by
      intro us vs t v hbegins ht hv hq
      simp only [operand, List.head?_cons, Option.bind_some, ht, hv, Option.map_none] at hq ⊢
      exact hpostfixed.follow hbegins hq
    cases hbegins with
    | nil => exact .ended rfl
    | @cons _ t v us vs hsame htail =>
      cases hop : UnaryOp.ofKind? v.kind with
      | none => exact hunary (.cons hsame htail) (by rw [hsame, hop]) hop hq
      | some op =>
        simp only [operand, List.head?_cons, Option.bind_some, hsame, hop, Option.map_some] at hq ⊢
        obtain ⟨⟨e, mid⟩, he, hq⟩ := except_bind_eq_ok.mp hq
        cases hq
        exact (ih.follow htail.loosen he).bind fun _ _ _ hleft => .ok hleft
    | @tip _ t v vs htip =>
      have hstar : t.kind = .symbol .star := htip.1
      refine hunary (.tip htip) (by rw [hstar]; rfl) ?_ hq
      rcases htip.2 with ht | ⟨hcolon, _⟩
      · have ht' : v.kind = .keyword .timesWord := ht
        rw [ht']
        rfl
      · have hcolon' : v.kind = .symbol .colon := hcolon
        rw [hcolon']
        rfl

theorem expression_shadows {after : Bool} (limit : Nat) :
    Shadows true after (expression limit) (expression limit) :=
  chain_shadows (operand_carries limit) (operand_shadows limit)

end Parse
end Parlance
