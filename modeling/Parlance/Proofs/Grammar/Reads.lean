import Parlance.Proofs.Except
import Parlance.Proofs.Grammar.Rules
import Parlance.Syntax.Parser
/-!
# Parsers that read a rule

`Reads` ties a parser to a rule of the grammar: on token lists below a length, the parser succeeds
with a tree exactly if a front part of the tokens is a phrase with that tree and what is left may
follow such a phrase. `repeated_sound` and `repeated_complete` lift this to repetitions.
-/
namespace Parlance.Parse
open Grammar

variable {α β : Type} {n : Nat}

/-- A parser reads a rule on token lists shorter than `n`; `follow` is what may come after. -/
structure Reads (n : Nat) (p : Parser α) (rule : Rule α) (follow : List Token → Prop) :
    Prop where
  sound {ts rest : List Token} {a : α} : ts.length < n → p ts = .ok (a, rest) →
    ∃ xs, ts = xs ++ rest ∧ rule xs a ∧ follow rest
  complete {xs rest : List Token} {a : α} : (xs ++ rest).length < n → rule xs a → follow rest →
    p (xs ++ rest) = .ok (a, rest)

theorem Reads.mono {m : Nat} {p : Parser α} {rule : Rule α} {follow : List Token → Prop}
    (h : Reads n p rule follow) (hm : m ≤ n) : Reads m p rule follow :=
  ⟨fun hl => h.sound (Nat.lt_of_lt_of_le hl hm), fun hl => h.complete (Nat.lt_of_lt_of_le hl hm)⟩

/-! ### Steps of a parser -/

theorem bind_apply (x : Parser α) (f : α → Parser β) (ts : List Token) :
    (x >>= f) ts = x ts >>= fun p => f p.1 p.2 := rfl

theorem bind_eq_ok {x : Parser α} {f : α → Parser β} {ts rest : List Token} {b : β} :
    (x >>= f) ts = .ok (b, rest) ↔ ∃ a mid, x ts = .ok (a, mid) ∧ f a mid = .ok (b, rest) := by
  rw [bind_apply, except_bind_eq_ok, Prod.exists]

theorem pure_eq_ok {a b : α} {ts rest : List Token} :
    (pure a : Parser α) ts = .ok (b, rest) ↔ a = b ∧ ts = rest := by
  show Except.ok (a, ts) = .ok (b, rest) ↔ _
  simp

theorem accept_eq_ok {k : TokenKind} {b : Bool} {ts rest : List Token} :
    accept k ts = .ok (b, rest) ↔
      (b = true ∧ ∃ t, ts = t :: rest ∧ t.kind = k) ∨
        (b = false ∧ ts = rest ∧ kindAt ts ≠ some k) := by
  cases ts with
  | nil => simp [accept, kindAt, eq_comm]
  | cons t ts =>
    by_cases h : t.kind = k
    · grind [accept, kindAt]
    · grind [accept, kindAt]

theorem expectAs_eq_ok {k : TokenKind} {w : Wanted} {t : Token} {ts rest : List Token} :
    expectAs k w ts = .ok (t, rest) ↔ ts = t :: rest ∧ t.kind = k := by
  cases ts with
  | nil => simp [expectAs]
  | cons u ts =>
    by_cases h : u.kind = k
    · simp [expectAs, h]
      grind
    · simp [expectAs, h]
      grind

theorem expectSymbol_eq_ok {s : Symbol} {t : Token} {ts rest : List Token} :
    expectSymbol s ts = .ok (t, rest) ↔ ts = t :: rest ∧ IsSign s t := expectAs_eq_ok

theorem expectKeyword_eq_ok {k : Keyword} {t : Token} {ts rest : List Token} :
    expectKeyword k ts = .ok (t, rest) ↔ ts = t :: rest ∧ IsWord k t := expectAs_eq_ok

theorem expectName_eq_ok {w : Wanted} {s : String} {ts rest : List Token} :
    expectName w ts = .ok (s, rest) ↔ ∃ t, ts = t :: rest ∧ IsName t ∧ t.text = s := by
  simp only [expectName, bind_eq_ok, expectAs_eq_ok, pure_eq_ok, IsName]
  grind

/-! ### Repetition -/

/-- What repeating an item needs: the item reads one phrase or sees that none is next. -/
structure Steps (n : Nat) (item : Parser (Option α)) (rule : Rule α)
    (next stop : List Token → Prop) : Prop where
  step_sound {ts rest : List Token} {a : α} : ts.length < n → item ts = .ok (some a, rest) →
    ∃ xs, ts = xs ++ rest ∧ rule xs a ∧ next rest
  stop_sound {ts rest : List Token} : ts.length < n → item ts = .ok (none, rest) →
    ts = rest ∧ stop ts
  step_complete {xs rest : List Token} {a : α} : (xs ++ rest).length < n → rule xs a →
    next rest → item (xs ++ rest) = .ok (some a, rest)
  stop_complete {ts : List Token} : ts.length < n → stop ts → item ts = .ok (none, ts)
  stop_nil : stop []
  rule_ne_nil {xs : List Token} {a : α} : rule xs a → xs ≠ []
  next_rule {xs rest : List Token} {a : α} : rule xs a → next (xs ++ rest)

variable {item : Parser (Option α)} {rule : Rule α} {next stop : List Token → Prop}

theorem collect_sound (h : Steps n item rule next stop) {bound ts rest : List Token} {as : List α}
    (hn : ts.length < n) (hb : ts.length ≤ bound.length) (hs : next ts)
    (hr : collect item bound ts = .ok (as, rest)) :
    ∃ xs, ts = xs ++ rest ∧ Many rule xs as ∧ next rest ∧ stop rest := by
  induction bound generalizing ts as with
  | nil =>
    obtain ⟨rfl, rfl⟩ := pure_eq_ok.mp hr
    obtain rfl := List.length_eq_zero_iff.mp (Nat.le_zero.mp hb)
    exact ⟨[], rfl, .nil, hs, h.stop_nil⟩
  | cons b bound ih =>
    simp only [collect, bind_eq_ok] at hr
    obtain ⟨o, mid, ho, hr⟩ := hr
    cases o with
    | none =>
      obtain ⟨rfl, rfl⟩ := pure_eq_ok.mp hr
      obtain ⟨rfl, hstop⟩ := h.stop_sound hn ho
      exact ⟨[], rfl, .nil, hs, hstop⟩
    | some a =>
      obtain ⟨xs, rfl, hx, hmid⟩ := h.step_sound hn ho
      simp only [bind_eq_ok, pure_eq_ok] at hr
      obtain ⟨as', rest', hc, rfl, rfl⟩ := hr
      have hpos := List.length_pos_iff.mpr (h.rule_ne_nil hx)
      simp only [List.length_append, List.length_cons] at hn hb
      obtain ⟨ys, rfl, hys, hrest⟩ := ih (by omega) (by omega) hmid hc
      exact ⟨xs ++ ys, (List.append_assoc ..).symm, .cons hx hys, hrest⟩

theorem collect_complete (h : Steps n item rule next stop) {bound xs rest : List Token}
    {as : List α} (hx : Many rule xs as) (hn : (xs ++ rest).length < n)
    (hb : (xs ++ rest).length ≤ bound.length) (hnext : next rest) (hstop : stop rest) :
    collect item bound (xs ++ rest) = .ok (as, rest) := by
  induction hx generalizing bound with
  | nil =>
    cases bound with
    | nil =>
      obtain rfl := List.length_eq_zero_iff.mp (Nat.le_zero.mp hb)
      rfl
    | cons b bound =>
      simp only [List.nil_append] at hn ⊢
      simp only [collect, bind_eq_ok]
      exact ⟨none, rest, h.stop_complete hn hstop, rfl⟩
  | @cons ts ys a as ha hy ih =>
    have hpos := List.length_pos_iff.mpr (h.rule_ne_nil ha)
    have hmid : next (ys ++ rest) := by
      cases hy with
      | nil => exact hnext
      | cons hb' _ =>
        rw [List.append_assoc]
        exact h.next_rule hb'
    rw [List.append_assoc] at hn hb ⊢
    cases bound with
    | nil =>
      simp only [List.length_append, List.length_nil] at hb
      omega
    | cons b bound =>
      have hstep := h.step_complete hn ha hmid
      simp only [List.length_append, List.length_cons] at hn hb ih
      have hrest := @ih bound (by omega) (by omega)
      simp only [collect, bind_eq_ok]
      refine ⟨some a, ys ++ rest, hstep, ?_⟩
      simp only [bind_eq_ok, pure_eq_ok]
      exact ⟨as, rest, hrest, rfl, rfl⟩

theorem repeated_sound (h : Steps n item rule next stop) {ts rest : List Token} {as : List α}
    (hn : ts.length < n) (hs : next ts) (hr : repeated item ts = .ok (as, rest)) :
    ∃ xs, ts = xs ++ rest ∧ Many rule xs as ∧ next rest ∧ stop rest :=
  collect_sound h hn (Nat.le_refl _) hs hr

theorem repeated_complete (h : Steps n item rule next stop) {xs rest : List Token} {as : List α}
    (hx : Many rule xs as) (hn : (xs ++ rest).length < n) (hnext : next rest)
    (hstop : stop rest) : repeated item (xs ++ rest) = .ok (as, rest) :=
  collect_complete h hx hn (Nat.le_refl _) hnext hstop

end Parlance.Parse
