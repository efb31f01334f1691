import Parlance.Proofs.Grammar.Programs
import Parlance.Proofs.Joining.Offsets
/-!
# Parsing in front of more tokens

A parser that answers on some tokens gives the same answer, with its offsets moved, where the tokens
stand somewhere else and more tokens follow (`Carries`), as long as it does not see the end. A
statement does not look behind its point (`Closes`), so the items of a program are read in front of
those of another one (`parse_append`). The nesting limit may be larger there.
-/
namespace Parlance.Parse
open Grammar

variable {α β : Type} {φ : Nat → Nat} {more : List Token}

/-- Tokens that stand somewhere else, with more tokens behind them. -/
def placed (φ : Nat → Nat) (more ts : List Token) : List Token := ts.map (Token.moved φ) ++ more

@[simp]
theorem placed_cons (t : Token) (ts : List Token) :
    placed φ more (t :: ts) = t.moved φ :: placed φ more ts := rfl

theorem length_placed (ts : List Token) : (placed φ more ts).length = ts.length + more.length := by
  simp [placed]

@[simp]
theorem kind_moved (t : Token) : (t.moved φ).kind = t.kind := rfl

@[simp]
theorem text_moved (t : Token) : (t.moved φ).text = t.text := rfl

@[simp]
theorem offset_moved (t : Token) : (t.moved φ).offset = φ t.offset := rfl

/-- The end does not come into view: there are tokens left, or nothing follows. -/
def Inside (more rest : List Token) : Prop := rest ≠ [] ∨ more = []

theorem Inside.of_suffix {rest ts : List Token} (h : Inside more rest) (hs : rest <:+ ts) :
    Inside more ts := by
  refine h.imp (fun hne => ?_) id
  rintro rfl
  exact hne (List.suffix_nil.mp hs)

theorem Inside.nil (h : Inside more []) : more = [] := h.resolve_left fun hne => hne rfl

theorem kindAt_placed {ts : List Token} (h : Inside more ts) :
    kindAt (placed φ more ts) = kindAt ts := by
  cases ts with
  | cons t ts => rfl
  | nil =>
    obtain rfl := h.nil
    rfl

/-! ### Answers -/

/-- What is answered on some tokens is answered, with the offsets moved, by `q` where the tokens
stand somewhere else and more tokens follow, unless the end comes into view. -/
def Carried (φ : Nat → Nat) (more : List Token) (move : α → α) (ts : List Token)
    (r q : Except ParseFault (α × List Token)) : Prop :=
  ∀ a rest, r = .ok (a, rest) →
    rest <:+ ts ∧ (Inside more rest → q = .ok (move a, placed φ more rest))

/-- The second parser carries the answers of the first one over. -/
def Carries (φ : Nat → Nat) (more : List Token) (move : α → α) (p q : Parser α) : Prop :=
  ∀ ts, Carried φ more move ts (p ts) (q (placed φ more ts))

/-- An item takes at least one token. -/
def Takes (item : Parser (Option α)) : Prop :=
  ∀ {ts rest : List Token} {a : α}, item ts = .ok (some a, rest) → rest.length < ts.length

namespace Carried

variable {move : α → α} {move' : β → β} {ts us rest : List Token}
  {r q : Except ParseFault (α × List Token)}

theorem ok {a : α} (hs : rest <:+ ts)
    (h : Inside more rest → q = .ok (move a, placed φ more rest)) :
    Carried φ more move ts (.ok (a, rest)) q := by
  rintro _ _ ⟨⟩
  exact ⟨hs, h⟩

theorem error {fault : ParseFault} : Carried φ more move ts (.error fault) q := nofun

theorem mono (h : Carried φ more move ts r q) (hs : ts <:+ us) : Carried φ more move us r q :=
  fun a rest hr => ⟨(h a rest hr).1.trans hs, (h a rest hr).2⟩

theorem bind {f g : α × List Token → Except ParseFault (β × List Token)}
    (h : Carried φ more move ts r q)
    (hf : ∀ a mid, r = .ok (a, mid) →
      Carried φ more move' mid (f (a, mid)) (g (move a, placed φ more mid))) :
    Carried φ more move' ts (r >>= f) (q >>= g) := by
  intro b rest hb
  obtain ⟨⟨a, mid⟩, ha, hb⟩ := except_bind_eq_ok.mp hb
  obtain ⟨hsuffix, hcarry⟩ := hf a mid ha b rest hb
  refine ⟨hsuffix.trans (h a mid ha).1, fun hin => ?_⟩
  exact except_bind_eq_ok.mpr ⟨_, (h a mid ha).2 (hin.of_suffix hsuffix), hcarry hin⟩

end Carried

namespace Carries

variable {move : α → α} {move' : β → β}

theorem suffix {p q : Parser α} (h : Carries φ more move p q) {ts rest : List Token} {a : α}
    (hp : p ts = .ok (a, rest)) : rest <:+ ts := (h ts a rest hp).1

theorem pure {a b : α} (h : b = move a) :
    Carries φ more move (Pure.pure a : Parser α) (Pure.pure b) := by
  subst h
  exact fun ts => .ok (List.suffix_refl ts) fun _ => rfl

theorem bind {x y : Parser α} {f g : α → Parser β} (hx : Carries φ more move x y)
    (hf : ∀ a, Carries φ more move' (f a) (g (move a))) :
    Carries φ more move' (x >>= f) (y >>= g) :=
  fun ts => (hx ts).bind fun a mid _ => hf a mid

theorem accept (k : TokenKind) : Carries φ more id (accept k) (accept k) := by
  intro ts
  cases ts with
  | nil =>
    refine .ok (List.suffix_refl _) fun hin => ?_
    obtain rfl := hin.nil
    rfl
  | cons t ts =>
    simp only [Parse.accept, placed_cons]
    by_cases hk : t.kind = k
    · have hk' : (t.moved φ).kind = k := hk
      rw [if_pos hk, if_pos hk']
      exact .ok (List.suffix_cons t ts) fun _ => rfl
    · have hk' : (t.moved φ).kind ≠ k := hk
      rw [if_neg hk, if_neg hk']
      exact .ok (List.suffix_refl _) fun _ => rfl

theorem expectAs (k : TokenKind) (w : Wanted) :
    Carries φ more (Token.moved φ) (expectAs k w) (expectAs k w) := by
  intro ts
  cases ts with
  | nil => exact .error
  | cons t ts =>
    simp only [Parse.expectAs, placed_cons]
    by_cases hk : t.kind = k
    · have hk' : (t.moved φ).kind = k := hk
      rw [if_pos hk, if_pos hk']
      exact .ok (List.suffix_cons t ts) fun _ => rfl
    · rw [if_neg hk]
      exact .error

theorem expectSymbol (s : Symbol) :
    Carries φ more (Token.moved φ) (expectSymbol s) (expectSymbol s) := expectAs _ _

theorem expectKeyword (k : Keyword) :
    Carries φ more (Token.moved φ) (expectKeyword k) (expectKeyword k) := expectAs _ _

theorem expectName (w : Wanted) : Carries φ more id (expectName w) (expectName w) :=
  (expectAs _ _).bind fun _ => pure rfl

/-- A look at the next token decides how to go on. -/
theorem choose {k : Option TokenKind} {x y x' y' : Parser α} (hx : Carries φ more move x x')
    (hy : Carries φ more move y y') :
    Carries φ more move (do if kindAt (← get) = k then x else y)
      (do if kindAt (← get) = k then x' else y') := by
  intro ts a rest hp
  rw [get_bind_apply] at hp ⊢
  split at hp
  · next hk =>
    refine ⟨hx.suffix hp, fun hin => ?_⟩
    rw [kindAt_placed (hin.of_suffix (hx.suffix hp)), if_pos hk]
    exact (hx ts a rest hp).2 hin
  · next hk =>
    refine ⟨hy.suffix hp, fun hin => ?_⟩
    rw [kindAt_placed (hin.of_suffix (hy.suffix hp)), if_neg hk]
    exact (hy ts a rest hp).2 hin

/-- If a token is accepted the one parser goes on, otherwise the other. -/
theorem acceptThen (k : TokenKind) {x y x' y' : Parser α} (hx : Carries φ more move x x')
    (hy : Carries φ more move y y') :
    Carries φ more move (do if ← Parse.accept k then x else y)
      (do if ← Parse.accept k then x' else y') := by
  refine (accept k).bind fun b => ?_
  cases b with
  | true => exact hx
  | false => exact hy

variable {item item' : Parser (Option α)}

theorem collect (h : Carries φ more (Option.map move) item item') (ht : Takes item)
    {bound bound' ts : List Token} (hb : ts.length ≤ bound.length)
    (hb' : bound'.length = bound.length + more.length) :
    Carried φ more (List.map move) ts (collect item bound ts)
      (Parse.collect item' bound' (placed φ more ts)) := by
  induction bound generalizing bound' ts with
  | nil =>
    -- the bound is used up only where the tokens are, and then no more may follow
    obtain rfl := List.length_eq_zero_iff.mp (Nat.le_zero.mp hb)
    refine .ok (List.suffix_refl _) fun hin => ?_
    obtain rfl := hin.nil
    obtain rfl := List.length_eq_zero_iff.mp hb'
    rfl
  | cons b bound ih =>
    obtain ⟨b', bound', rfl⟩ :=
      List.exists_cons_of_length_eq_add_one (hb'.trans (Nat.add_right_comm _ _ _))
    refine (h ts).bind fun o mid ho => ?_
    cases o with
    | none => exact .ok (List.suffix_refl _) fun _ => rfl
    | some a =>
      have hless := ht ho
      simp only [List.length_cons] at hb hb'
      refine (ih (by omega) (by omega)).bind fun as rest _ => ?_
      exact .ok (List.suffix_refl _) fun _ => rfl

theorem repeated (h : Carries φ more (Option.map move) item item') (ht : Takes item) :
    Carries φ more (List.map move) (repeated item) (Parse.repeated item') :=
  fun _ => h.collect ht (Nat.le_refl _) (length_placed _)

end Carries

/-- The first parser ends with a point and does not look behind it. -/
structure Closes (φ : Nat → Nat) (more : List Token) (move : α → α) (p q : Parser α) : Prop where
  ends {ts rest : List Token} {a : α} : p ts = .ok (a, rest) →
    ∃ xs d, ts = xs ++ d :: rest ∧ IsSign .dot d
  closes {ts rest : List Token} {a : α} : p ts = .ok (a, rest) →
    q (placed φ more ts) = .ok (move a, placed φ more rest)

namespace Closes

variable {move : α → α} {move' : β → β}

theorem takes {p q : Parser α} (h : Closes φ more move p q) {ts rest : List Token} {a : α}
    (hp : p ts = .ok (a, rest)) : rest.length < ts.length := by
  obtain ⟨xs, d, rfl, _⟩ := h.ends hp
  rw [List.length_append, List.length_cons]
  omega

theorem carries {p q : Parser α} (h : Closes φ more move p q) : Carries φ more move p q := by
  intro ts a rest hp
  obtain ⟨xs, d, hts, _⟩ := h.ends hp
  exact ⟨⟨xs ++ [d], by simp [hts]⟩, fun _ => h.closes hp⟩

theorem dot {a b : α} (h : b = move a) :
    Closes φ more move (do let _ ← expectSymbol .dot; return a)
      (do let _ ← expectSymbol .dot; return b) where
  ends hp := by
    simp only [bind_eq_ok, expectSymbol_eq_ok, pure_eq_ok] at hp
    obtain ⟨d, _, ⟨rfl, hd⟩, _, rfl⟩ := hp
    exact ⟨[], d, rfl, hd⟩
  closes hp := by
    simp only [bind_eq_ok, expectSymbol_eq_ok, pure_eq_ok] at hp ⊢
    obtain ⟨d, _, ⟨rfl, hd⟩, rfl, rfl⟩ := hp
    exact ⟨_, _, ⟨rfl, hd⟩, h, rfl⟩

theorem bind {x y : Parser α} {f g : α → Parser β} (hx : Carries φ more move x y)
    (hf : ∀ a, Closes φ more move' (f a) (g (move a))) :
    Closes φ more move' (x >>= f) (y >>= g) where
  ends hp := by
    obtain ⟨a, mid, ha, hb⟩ := bind_eq_ok.mp hp
    obtain ⟨xs, d, rfl, hd⟩ := (hf a).ends hb
    obtain ⟨ys, rfl⟩ := hx.suffix ha
    exact ⟨ys ++ xs, d, by simp, hd⟩
  closes hp := by
    obtain ⟨a, mid, ha, hb⟩ := bind_eq_ok.mp hp
    have hmid : mid ≠ [] := by
      obtain ⟨xs, d, rfl, _⟩ := (hf a).ends hb
      simp
    exact bind_eq_ok.mpr ⟨_, _, (hx _ _ _ ha).2 (.inl hmid), (hf a).closes hb⟩

theorem map {x y : Parser α} {f g : α → β} (hx : Closes φ more move x y)
    (hf : ∀ a, g (move a) = move' (f a)) :
    Closes φ more move' (do return f (← x)) (do return g (← y)) where
  ends hp := by
    obtain ⟨a, mid, ha, hb⟩ := bind_eq_ok.mp hp
    obtain ⟨_, rfl⟩ := pure_eq_ok.mp hb
    exact hx.ends ha
  closes hp := by
    obtain ⟨a, mid, ha, hb⟩ := bind_eq_ok.mp hp
    obtain ⟨rfl, rfl⟩ := pure_eq_ok.mp hb
    exact bind_eq_ok.mpr ⟨_, _, hx.closes ha, pure_eq_ok.mpr ⟨hf a, rfl⟩⟩

end Closes

/-! ### Chains -/

/-- An operator and its operand, moved. -/
def movedLink (φ : Nat → Nat) (link : BinaryOp × Expr) : BinaryOp × Expr :=
  (link.1, link.2.moved φ)

theorem joined_moved (op : BinaryOp) (l r : Expr) :
    Expr.joined op (l.moved φ) (r.moved φ) = (Expr.joined op l r).moved φ := by
  simp only [Expr.joined, Expr.moved, Expr.offset_moved]

theorem join_moved (level : Nat) (first : Expr) (rest : List (BinaryOp × Expr)) :
    Expr.join level (first.moved φ) (rest.map (movedLink φ))
      = ((Expr.join level first rest).1.moved φ,
        (Expr.join level first rest).2.map (movedLink φ)) := by
  induction rest generalizing first with
  | nil => rfl
  | cons link rest ih =>
    obtain ⟨op, e⟩ := link
    simp only [List.map_cons, movedLink, Expr.join]
    split
    · rw [joined_moved]
      exact ih _
    · rw [ih]
      rfl

theorem assembleFrom_moved (level : Nat) (first : Expr) (rest : List (BinaryOp × Expr)) :
    Expr.assembleFrom level (first.moved φ) (rest.map (movedLink φ))
      = (Expr.assembleFrom level first rest).moved φ := by
  induction level generalizing first rest with
  | zero => rfl
  | succ level ih =>
    simp only [Expr.assembleFrom, join_moved]
    exact ih _ _

/-! ### Expressions -/

section Expressions

variable {expr expr' operand operand' : Parser Expr}

theorem operation?_carries (h : Carries φ more (Expr.moved φ) operand operand') :
    Carries φ more (Option.map (movedLink φ)) (operation? operand) (operation? operand') := by
  intro ts
  cases ts with
  | nil =>
    refine .ok (List.suffix_refl _) fun hin => ?_
    obtain rfl := hin.nil
    rfl
  | cons t ts =>
    simp only [placed_cons, operation?, kind_moved]
    split
    · exact .ok (List.suffix_refl _) fun _ => rfl
    · refine ((h ts).bind fun e mid _ => ?_).mono (List.suffix_cons t ts)
      exact .ok (List.suffix_refl _) fun _ => rfl

theorem operation?_takes (h : Carries φ more (Expr.moved φ) operand operand') :
    Takes (operation? operand) := by
  intro ts rest a hp
  cases ts with
  | nil => cases hp
  | cons t ts =>
    simp only [operation?] at hp
    split at hp
    · cases hp
    · obtain ⟨⟨e, mid⟩, he, hp⟩ := except_bind_eq_ok.mp hp
      cases hp
      exact Nat.lt_succ_of_le (h.suffix he).length_le

theorem chain_carries (h : Carries φ more (Expr.moved φ) operand operand') :
    Carries φ more (Expr.moved φ) (chain operand) (chain operand') :=
  h.bind fun first =>
    ((operation?_carries h).repeated (operation?_takes h)).bind fun rest =>
      .pure (assembleFrom_moved _ first rest)

theorem further?_carries (h : Carries φ more (Expr.moved φ) expr expr') :
    Carries φ more (Option.map (Expr.moved φ)) (further? expr) (further? expr') :=
  .acceptThen _ (h.bind fun _ => .pure rfl) (.pure rfl)

theorem further?_takes (h : Carries φ more (Expr.moved φ) expr expr') : Takes (further? expr) := by
  intro ts rest a hp
  simp only [further?, bind_eq_ok] at hp
  obtain ⟨b, mid, hb, hp⟩ := hp
  rcases accept_eq_ok.mp hb with ⟨rfl, t, rfl, _⟩ | ⟨rfl, rfl, _⟩
  · simp only [if_true, bind_eq_ok, pure_eq_ok] at hp
    obtain ⟨e, mid', he, _, rfl⟩ := hp
    exact Nat.lt_succ_of_le (h.suffix he).length_le
  · cases hp

theorem arguments_carries (h : Carries φ more (Expr.moved φ) expr expr') (closing : Symbol) :
    Carries φ more (Expr.movedAll φ) (arguments expr closing) (arguments expr' closing) := by
  refine .choose ((Carries.expectSymbol _).bind fun _ => .pure rfl) (h.bind fun first => ?_)
  refine ((further?_carries h).repeated (further?_takes h)).bind fun rest => ?_
  refine (Carries.expectSymbol _).bind fun _ => .pure ?_
  rw [Expr.movedAll, Expr.movedAll_eq_map]

theorem primary_carries (h : Carries φ more (Expr.moved φ) expr expr') :
    Carries φ more (Expr.moved φ) (primary expr) (primary expr') := by
  intro ts
  cases ts with
  | nil => exact .error
  | cons t ts =>
    refine Carried.mono ?_ (List.suffix_cons t ts)
    simp only [placed_cons, primary, kind_moved, text_moved, offset_moved]
    split
    · exact .ok (List.suffix_refl _) fun _ => rfl
    · exact .ok (List.suffix_refl _) fun _ => rfl
    · exact .ok (List.suffix_refl _) fun _ => rfl
    · exact .ok (List.suffix_refl _) fun _ => rfl
    · refine (h ts).bind fun e mid _ => (Carries.expectSymbol _ mid).bind fun _ rest _ => ?_
      exact .ok (List.suffix_refl _) fun _ => rfl
    · refine (arguments_carries h _ ts).bind fun items rest _ => ?_
      exact .ok (List.suffix_refl _) fun _ => rfl
    · exact .error

theorem called_carries (h : Carries φ more (Expr.moved φ) expr expr') (callee : Token) :
    Carries φ more (Expr.moved φ) (called expr callee) (called expr' (callee.moved φ)) :=
  .acceptThen _ ((arguments_carries h _).bind fun _ => .pure rfl) (.pure rfl)

theorem indexes_carries (h : Carries φ more (Expr.moved φ) expr expr')
    {bound bound' ts : List Token} (hb : ts.length ≤ bound.length)
    (hb' : bound'.length = bound.length + more.length) (e : Expr) :
    Carried φ more (Expr.moved φ) ts (indexes expr bound e ts)
      (indexes expr' bound' (e.moved φ) (placed φ more ts)) := by
  induction bound generalizing bound' ts e with
  | nil =>
    obtain rfl := List.length_eq_zero_iff.mp (Nat.le_zero.mp hb)
    refine .ok (List.suffix_refl _) fun hin => ?_
    obtain rfl := hin.nil
    obtain rfl := List.length_eq_zero_iff.mp hb'
    rfl
  | cons b bound ih =>
    obtain ⟨b', bound', rfl⟩ :=
      List.exists_cons_of_length_eq_add_one (hb'.trans (Nat.add_right_comm _ _ _))
    cases ts with
    | nil =>
      refine .ok (List.suffix_refl _) fun hin => ?_
      obtain rfl := hin.nil
      rfl
    | cons t ts =>
      simp only [placed_cons, indexes, kind_moved]
      split
      · exact ((arguments_carries h _ ts).bind fun _ _ _ => .error).mono (List.suffix_cons t ts)
      · refine Carried.mono ?_ (List.suffix_cons t ts)
        refine (h ts).bind fun i mid hi => (Carries.expectSymbol _ mid).bind fun _ rest hc => ?_
        have hlength := (h.suffix hi).length_le
        obtain ⟨rfl, _⟩ := expectSymbol_eq_ok.mp hc
        simp only [List.length_cons] at hb hb' hlength
        have hrest := @ih bound' rest (by omega) (by omega) (.index e i e.offset)
        simpa only [Expr.moved, Expr.offset_moved] using hrest
      · exact .ok (List.suffix_refl _) fun _ => rfl

theorem base_carries (h : Carries φ more (Expr.moved φ) expr expr') :
    Carries φ more (Expr.moved φ) (base expr) (base expr') := by
  intro ts
  cases ts with
  | nil => exact .error
  | cons t ts =>
    simp only [base, placed_cons]
    by_cases hk : t.kind = .name
    · have hk' : (t.moved φ).kind = .name := hk
      rw [if_pos hk, if_pos hk']
      exact (called_carries h t ts).mono (List.suffix_cons t ts)
    · have hk' : (t.moved φ).kind ≠ .name := hk
      rw [if_neg hk, if_neg hk']
      exact primary_carries h (t :: ts)

theorem postfixed_carries (h : Carries φ more (Expr.moved φ) expr expr') :
    Carries φ more (Expr.moved φ) (postfixed expr) (postfixed expr') := by
  intro ts
  rw [postfixed_apply, postfixed_apply]
  refine (base_carries h ts).bind fun e mid _ => ?_
  exact indexes_carries h (Nat.le_refl _) (length_placed _) e

end Expressions

/-- A larger nesting limit changes no answer. -/
theorem operand_carries_of_le {limit limit' : Nat} (hle : limit ≤ limit') :
    Carries φ more (Expr.moved φ) (operand limit) (operand limit') := by
  induction limit generalizing limit' with
  | zero => exact fun _ => .error
  | succ limit ih =>
    obtain ⟨limit', rfl⟩ : ∃ k, limit' = k + 1 := ⟨limit' - 1, by omega⟩
    have hinner := ih (Nat.le_of_succ_le_succ hle)
    intro ts
    cases ts with
    | nil => exact .error
    | cons t ts =>
      simp only [operand, placed_cons, List.head?_cons, Option.bind_some, kind_moved, offset_moved]
      cases UnaryOp.ofKind? t.kind with
      | some op =>
        refine ((hinner ts).bind fun e mid _ => ?_).mono (List.suffix_cons t ts)
        exact .ok (List.suffix_refl _) fun _ => rfl
      | none => exact postfixed_carries (chain_carries hinner) (t :: ts)

theorem operand_carries (limit : Nat) :
    Carries φ more (Expr.moved φ) (operand limit) (operand limit) :=
  operand_carries_of_le (Nat.le_refl limit)

theorem expression_carries {limit limit' : Nat} (hle : limit ≤ limit') :
    Carries φ more (Expr.moved φ) (expression limit) (expression limit') :=
  chain_carries (operand_carries_of_le hle)

end Parlance.Parse
