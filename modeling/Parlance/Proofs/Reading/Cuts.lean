import Parlance.Proofs.Reading.Passing
import Parlance.Proofs.Reading.Scanning
/-!
# Scanning a part of a canonical text

A part of a canonical text is scanned up to a place between two tokens (`Scans`). Scanning goes on
from there as from the start (`scanAll_append`), and comes to the same place if a blank follows
there (`Scans.before_blank`).
-/
namespace Parlance
open Text

namespace Token

/-! ### One step of the scanner -/

section Steps

variable {m : Mark} {rest after : List Mark} {t : Token}

def wordKind : Option Keyword → TokenKind
  | some k => .keyword k
  | none => .name

/-- The token that starts at a mark, told apart by its first character, and what follows it. -/
inductive Scanned (m : Mark) (rest after : List Mark) : Token → Prop
  | number (hdigit : m.char.isDigit = true)
      (hafter : (scanFraction (rest.dropWhile (·.char.isDigit))).2 = after) :
      Scanned m rest after
        ⟨.number, textOf (m :: rest.takeWhile (·.char.isDigit)
          ++ (scanFraction (rest.dropWhile (·.char.isDigit))).1), m.origin⟩
  | word {found : Option Keyword} (hdigit : ¬ m.char.isDigit = true)
      (hstart : startsName m.char = true)
      (hfound : Keyword.ofWord? (textOf (m :: rest.takeWhile (continuesName ·.char))) = found)
      (hafter : rest.dropWhile (continuesName ·.char) = after) :
      Scanned m rest after
        ⟨wordKind found, textOf (m :: rest.takeWhile (continuesName ·.char)), m.origin⟩
  | literal (hquote : m.char = '"') (hafter : (scanLiteral rest).2 = after) :
      Scanned m rest after ⟨.string, String.ofList (scanLiteral rest).1, m.origin⟩
  | symbol {s : Symbol} (hdigit : ¬ m.char.isDigit = true) (hstart : ¬ startsName m.char = true)
      (hquote : m.char ≠ '"') (hsymbol : scanSymbol? m rest = some (s, after)) :
      Scanned m rest after ⟨.symbol s, s.spelling, m.origin⟩

theorem scan_eq_ok : scan m rest = .ok (t, after) ↔ Scanned m rest after t := by
  constructor
  · intro h
    unfold scan at h
    split at h
    · next hdigit =>
      simp only [Except.ok.injEq, Prod.mk.injEq] at h
      obtain ⟨rfl, hafter⟩ := h
      exact .number hdigit hafter
    · next hdigit =>
      split at h
      · next hstart =>
        simp only [Except.ok.injEq, Prod.mk.injEq] at h
        generalize hfound : Keyword.ofWord? (textOf (m :: rest.takeWhile (continuesName ·.char)))
          = found at h
        obtain ⟨rfl, hafter⟩ := h
        exact .word hdigit hstart hfound hafter
      · next hstart =>
        split at h
        · next hquote =>
          simp only [Except.ok.injEq, Prod.mk.injEq] at h
          obtain ⟨rfl, hafter⟩ := h
          exact .literal hquote hafter
        · next hquote =>
          split at h
          · next hsymbol =>
            simp only [Except.ok.injEq, Prod.mk.injEq] at h
            obtain ⟨rfl, rfl⟩ := h
            exact .symbol hdigit hstart hquote hsymbol
          · cases h
  · intro h
    unfold scan
    cases h with
    | number hdigit hafter => rw [if_pos hdigit, ← hafter]
    | word hdigit hstart hfound hafter =>
      simp only [if_neg hdigit, if_pos hstart, hfound, hafter]
      rfl
    | literal hquote hafter =>
      rw [hquote, ← hafter]
      rfl
    | symbol hdigit hstart hquote hsymbol =>
      rw [if_neg hdigit, if_neg hstart, if_neg hquote, hsymbol]

theorem scanAll_blank (h : isBlank m.char = true) : scanAll (m :: rest) = scanAll rest := by
  rw [scanAll, if_pos h]

theorem scanAll_comment (h : m.char = '#') :
    scanAll (m :: rest) = scanAll (rest.dropWhile (!isLineBreak ·.char)) := by
  have hblank : ¬ isBlank m.char = true := by
    rw [h]
    decide
  rw [scanAll, if_neg hblank, if_pos h]

theorem scanAll_token (hb : isBlank m.char = false) (hc : m.char ≠ '#')
    (h : scan m rest = .ok (t, after)) :
    scanAll (m :: rest) = (scanAll after).map (t :: ·) := by
  rw [scanAll, hb, if_neg Bool.false_ne_true, if_neg hc]
  split
  · next hfault =>
    rw [h] at hfault
    cases hfault
  · next hread =>
    rw [h] at hread
    cases hread
    cases scanAll after with
    | error fault => rfl
    | ok tokens => rfl

theorem scanAll_fault (hb : isBlank m.char = false) (hc : m.char ≠ '#') {fault : LexFault × Nat}
    (h : scan m rest = .error fault) : scanAll (m :: rest) = .error fault := by
  rw [scanAll, hb, if_neg Bool.false_ne_true, if_neg hc]
  split
  · next hfault =>
    rw [h] at hfault
    cases hfault
    rfl
  · next hread =>
    rw [h] at hread
    cases hread

/-- How a canonical text that is not empty has tokens. -/
theorem scanAll_cons_eq_ok {us : List Token} : scanAll (m :: rest) = .ok us ↔
    (isBlank m.char = true ∧ scanAll rest = .ok us) ∨
    (m.char = '#' ∧ scanAll (rest.dropWhile (!isLineBreak ·.char)) = .ok us) ∨
    (isBlank m.char = false ∧ m.char ≠ '#' ∧ ∃ t after ts, scan m rest = .ok (t, after) ∧
      scanAll after = .ok ts ∧ us = t :: ts) := by
  cases hb : isBlank m.char with
  | true =>
    have hne : m.char ≠ '#' := by
      intro hc
      rw [hc] at hb
      revert hb
      decide
    simp [scanAll_blank hb, hne]
  | false =>
    by_cases hc : m.char = '#'
    · simp [scanAll_comment hc, hc]
    · cases hs : scan m rest with
      | error fault => simp [scanAll_fault hb hc hs, hc]
      | ok found =>
        obtain ⟨t, after⟩ := found
        rw [scanAll_token hb hc hs]
        cases hafter : scanAll after with
        | error fault => simp [Except.map, hc, hafter]
        | ok ts => simp [Except.map, hc, hafter, eq_comm]

/-- What holds of the tokens of a text if it holds of those of what follows its first blank, comment
or token. -/
@[elab_as_elim]
theorem scanAll_induction {p : ∀ marks us, scanAll marks = .ok us → Prop}
    (done : ∀ h, p [] [] h)
    (blank : ∀ m rest us h (hrest : scanAll rest = .ok us), isBlank m.char = true →
      p rest us hrest → p (m :: rest) us h)
    (comment : ∀ m rest us h (hrest : scanAll (rest.dropWhile (!isLineBreak ·.char)) = .ok us),
      m.char = '#' → p _ us hrest → p (m :: rest) us h)
    (token : ∀ m rest t after us h (hafter : scanAll after = .ok us), isBlank m.char = false →
      m.char ≠ '#' → scan m rest = .ok (t, after) → p after us hafter →
        p (m :: rest) (t :: us) h)
    {marks : List Mark} {us : List Token} (h : scanAll marks = .ok us) : p marks us h := by
  induction hn : marks.length using Nat.strong_induction_on generalizing marks us with
  | _ n ih =>
    subst hn
    cases marks with
    | nil =>
      rw [scanAll] at h
      cases h
      exact done _
    | cons m rest =>
      rcases scanAll_cons_eq_ok.mp h with ⟨hb, hrest⟩ | ⟨hc, hrest⟩ |
        ⟨hb, hc, t, after, ts, hs, hafter, rfl⟩
      · exact blank m rest us h hrest hb (ih _ (Nat.lt_succ_self _) hrest rfl)
      · have hless := Nat.lt_succ_of_le (length_dropWhile_le (!isLineBreak ·.char) rest)
        exact comment m rest us h hrest hc (ih _ hless hrest rfl)
      · have hless := Nat.lt_succ_of_le (scan_length hs)
        exact token m rest t after ts h hafter hb hc hs (ih _ hless hafter rfl)

end Steps

/-! ### Parts -/

/-- The marks are what is left of a literal, up to its closing quote. -/
def closesLiteral : List Mark → Bool
  | [] => false
  | m :: rest =>
    if m.char = '"' then rest.isEmpty
    else if m.char = '\\' then
      match rest with
      | [] => false
      | _ :: rest => closesLiteral rest
    else closesLiteral rest

/-- Scanning a part of a canonical text gives tokens and comes to the rest between two of them: not
inside a token, nor in a literal that is not closed, nor in a comment. -/
inductive Scans : (part rest : List Mark) → List Token → Prop
  | done {rest} : Scans [] rest []
  | blank {m part rest ts} : isBlank m.char = true → Scans part rest ts → Scans (m :: part) rest ts
  | comment {m line b part rest ts} : m.char = '#' → (∀ n ∈ line, isLineBreak n.char = false) →
      isLineBreak b.char = true → Scans part rest ts → Scans (m :: line ++ b :: part) rest ts
  | token {m t word part rest ts} : isBlank m.char = false → m.char ≠ '#' →
      scan m (word ++ (part ++ rest)) = .ok (t, part ++ rest) →
      (m.char = '"' → closesLiteral word = true) → Scans part rest ts →
      Scans (m :: word ++ part) rest (t :: ts)

theorem dropWhile_line {line : List Mark} (h : ∀ n ∈ line, isLineBreak n.char = false) {b : Mark}
    (hb : isLineBreak b.char = true) (rest : List Mark) :
    (line ++ b :: rest).dropWhile (!isLineBreak ·.char) = b :: rest := by
  have hline : ∀ n ∈ line, (!isLineBreak n.char) = true := by
    intro n hn
    rw [h n hn]
    rfl
  rw [List.dropWhile_append_of_pos hline, List.dropWhile_cons, hb]
  rfl

/-- A comment and the line break after it are passed over. -/
theorem scanAll_line {m : Mark} (hm : m.char = '#') {line : List Mark}
    (hline : ∀ n ∈ line, isLineBreak n.char = false) {b : Mark} (hb : isLineBreak b.char = true)
    (rest : List Mark) : scanAll (m :: line ++ b :: rest) = scanAll rest := by
  rw [List.cons_append, scanAll_comment hm, dropWhile_line hline hb,
    scanAll_blank (isBlank_of_isLineBreak hb)]

/-- Scanning goes on behind a part as from the start. -/
theorem scanAll_append {part rest : List Mark} {ts : List Token} (h : Scans part rest ts) :
    scanAll (part ++ rest) = (scanAll rest).map (ts ++ ·) := by
  induction h with
  | @done rest =>
    cases hrest : scanAll rest with
    | error fault => rw [List.nil_append, hrest]; rfl
    | ok us => rw [List.nil_append, hrest]; rfl
  | blank hm _ ih => rw [List.cons_append, scanAll_blank hm, ih]
  | comment hm hline hb _ ih =>
    rw [List.append_assoc, List.cons_append, ← ih]
    exact scanAll_line hm hline hb _
  | @token m t word part rest ts hblank hcomment hscan _ _ ih =>
    rw [List.append_assoc, List.cons_append, scanAll_token hblank hcomment hscan, ih]
    cases scanAll rest with
    | error fault => rfl
    | ok us => rfl

theorem scanAll_append_eq_ok {part rest : List Mark} {ts vs : List Token} (h : Scans part rest ts) :
    scanAll (part ++ rest) = .ok vs ↔ ∃ us, scanAll rest = .ok us ∧ vs = ts ++ us := by
  rw [scanAll_append h]
  cases scanAll rest with
  | error fault => simp [Except.map]
  | ok us => simp [Except.map, eq_comm]

/-! ### Another rest -/

section Exchange

variable {p : Char → Bool} {word rest rest' : List Mark} {m : Mark} {t : Token}

theorem takeWhile_append_stop (hword : ∀ n ∈ word, p n.char = true)
    (hrest : ∀ n ∈ rest.head?, p n.char = false) :
    (word ++ rest).takeWhile (p ·.char) = word ∧ (word ++ rest).dropWhile (p ·.char) = rest := by
  rw [List.takeWhile_append_of_pos hword, List.dropWhile_append_of_pos hword]
  cases rest with
  | nil => simp
  | cons n rest => simp [hrest n rfl]

/-- A part of a text that is all that a scan takes consists of what the scan may take. -/
theorem takeWhile_split (h : (word ++ rest).dropWhile (p ·.char) = rest) :
    (∀ n ∈ word, p n.char = true) ∧ ∀ n ∈ rest.head?, p n.char = false := by
  have hword : word = (word ++ rest).takeWhile (p ·.char) := by
    have hsplit := List.takeWhile_append_dropWhile (p := (p ·.char)) (l := word ++ rest)
    rw [h] at hsplit
    exact (List.append_cancel_right hsplit).symm
  constructor
  · intro n hn
    rw [hword] at hn
    exact List.mem_takeWhile_imp (p := fun n : Mark => p n.char) hn
  · intro n hn
    cases rest with
    | nil => cases hn
    | cons r rest =>
      cases hn
      have hhead := List.head?_dropWhile_not (p ·.char) (word ++ n :: rest)
      rw [h] at hhead
      simpa using hhead

/-- The character goes on with no token. -/
structure Separates (c : Char) : Prop where
  digit : c.isDigit = false
  name : continuesName c = false
  point : c ≠ '.'
  second : ∀ a, Symbol.double? a c = none

theorem separates_of_isBlank {c : Char} (h : isBlank c = true) : Separates c where
  digit := isDigit_of_isBlank c h
  name := continuesName_of_isBlank c h
  point := by
    rintro rfl
    cases h
  second _ := double?_of_isBlank h

/-- One rest in place of another one does not change the token before it: nothing or a character
that goes on with no token, or the same character with nothing after it that would make a fraction
of a point. -/
inductive Follows : (rest rest' : List Mark) → Prop
  | apart {rest rest' : List Mark} : (∀ n ∈ rest'.head?, Separates n.char) → Follows rest rest'
  | same {n : Mark} {rest rest' : List Mark} :
      (rest'.head? = rest.head? ∨ ∀ d ∈ rest'.head?, d.char.isDigit = false) →
      Follows (n :: rest) (n :: rest')

theorem Follows.separate {n : Mark} (h : Separates n.char) : Follows rest (n :: rest') := by
  refine .apart ?_
  rintro _ ⟨⟩
  exact h

theorem Follows.stops (h : Follows rest rest') (hp : ∀ c, Separates c → p c = false)
    (hrest : ∀ n ∈ rest.head?, p n.char = false) : ∀ n ∈ rest'.head?, p n.char = false := by
  cases h with
  | apart hapart => exact fun n hn => hp _ (hapart n hn)
  | same _ => exact hrest

theorem scanFraction_exchange (h : scanFraction (word ++ rest) = (word, rest))
    (hr : Follows rest rest') : scanFraction (word ++ rest') = (word, rest') := by
  cases word with
  | nil =>
    rw [List.nil_append] at h ⊢
    cases hr with
    | apart hapart =>
      cases rest' with
      | nil => rfl
      | cons n rest' =>
        cases rest' with
        | nil => rfl
        | cons d rest' => exact if_neg fun hpoint => (hapart n rfl).point hpoint.1
    | same hsecond =>
      rename_i n rest rest'
      cases rest' with
      | nil => rfl
      | cons d rest' =>
        refine if_neg fun hpoint => ?_
        rcases hsecond with hhead | hdigit
        · cases rest with
          | nil => cases hhead
          | cons e rest =>
            cases hhead
            rw [scanFraction, if_pos hpoint] at h
            cases h
        · rw [hdigit d rfl] at hpoint
          cases hpoint.2
  | cons a word =>
    cases word with
    | nil =>
      -- a fraction has a point and a digit
      exfalso
      cases rest with
      | nil => cases h
      | cons b rest =>
        simp only [List.cons_append, List.nil_append, scanFraction] at h
        split at h
        · cases h
        · cases h
    | cons b word =>
      simp only [List.cons_append, scanFraction] at h ⊢
      split at h
      · next hpoint =>
        have hdigits := takeWhile_split (p := Char.isDigit) (congrArg Prod.snd h)
        obtain ⟨htake, hdrop⟩ :=
          takeWhile_append_stop hdigits.1 (hr.stops (fun _ h => h.digit) hdigits.2)
        rw [if_pos hpoint, htake, hdrop]
      · cases h

theorem scanFraction_split (marks : List Mark) :
    (scanFraction marks).1 ++ (scanFraction marks).2 = marks := by
  unfold scanFraction
  split
  · split
    · simp
    · rfl
  · rfl

theorem scanLiteral_closed (h : closesLiteral word = true) (rest : List Mark) :
    scanLiteral (word ++ rest) = ((scanLiteral word).1, rest) := by
  fun_induction closesLiteral word with
  | case1 => cases h
  | case2 m word hm =>
    rw [List.isEmpty_iff] at h
    subst h
    rw [List.cons_append, scanLiteral.eq_def, scanLiteral.eq_def]
    simp only [if_pos hm, List.nil_append]
  | case3 m hm hslash => cases h
  | case4 m hm hslash e word ih =>
    simp only [List.cons_append, scanLiteral, if_neg hm, if_pos hslash, ih h]
  | case5 m word hm hslash ih =>
    rw [List.cons_append, scanLiteral.eq_def, scanLiteral.eq_def]
    simp only [if_neg hm, if_neg hslash, ih h]

/-- A symbol takes up one character or two, and one only where it cannot take two. -/
theorem scanSymbol?_split {s : Symbol} (h : scanSymbol? m (word ++ rest) = some (s, rest)) :
    (word = [] ∧ (rest.head?.bind fun n => Symbol.double? m.char n.char) = none ∧
        Symbol.single? m.char = some s) ∨
      ∃ n, word = [n] ∧ Symbol.double? m.char n.char = some s := by
  unfold scanSymbol? at h
  split at h
  · next d hd =>
    simp only [Option.some.injEq, Prod.mk.injEq] at h
    obtain ⟨rfl, htail⟩ := h
    have hlen := congrArg List.length htail
    cases word with
    | nil =>
      cases rest with
      | nil => cases hd
      | cons n rest => simp at hlen
    | cons n word =>
      cases word with
      | nil => exact .inr ⟨n, rfl, hd⟩
      | cons o word =>
        simp at hlen
        omega
  · next hd =>
    simp only [Option.map_eq_some_iff, Prod.mk.injEq] at h
    obtain ⟨_, hs, rfl, hsame⟩ := h
    obtain rfl := List.append_left_eq_self.mp hsame
    exact .inl ⟨rfl, hd, hs⟩

theorem scanSymbol?_exchange {s : Symbol} (h : scanSymbol? m (word ++ rest) = some (s, rest))
    (hr : Follows rest rest') : scanSymbol? m (word ++ rest') = some (s, rest') := by
  unfold scanSymbol?
  rcases scanSymbol?_split h with ⟨rfl, hdouble, hsingle⟩ | ⟨n, rfl, hdouble⟩
  · have hdouble' : (rest'.head?.bind fun n => Symbol.double? m.char n.char) = none := by
      cases hr with
      | apart hapart =>
        cases rest' with
        | nil => rfl
        | cons n rest' => exact (hapart n rfl).second m.char
      | same _ => exact hdouble
    rw [List.nil_append, hdouble', hsingle]
    rfl
  · simp only [List.singleton_append, List.head?_cons, Option.bind_some, List.tail_cons, hdouble]

theorem number_split (h : (scanFraction ((word ++ rest).dropWhile (·.char.isDigit))).2 = rest) :
    word = (word ++ rest).takeWhile (·.char.isDigit)
      ++ (scanFraction ((word ++ rest).dropWhile (·.char.isDigit))).1 := by
  have hsplit := List.takeWhile_append_dropWhile (p := (·.char.isDigit)) (l := word ++ rest)
  have hfraction := scanFraction_split ((word ++ rest).dropWhile (·.char.isDigit))
  rw [h] at hfraction
  rw [← hfraction, ← List.append_assoc] at hsplit
  exact (List.append_cancel_right hsplit).symm

/-- The digits and the fraction of a number, in front of another rest. -/
theorem number_exchange
    (h : (scanFraction ((word ++ rest).dropWhile (·.char.isDigit))).2 = rest)
    (hr : Follows rest rest') :
    (word ++ rest').takeWhile (·.char.isDigit) = (word ++ rest).takeWhile (·.char.isDigit) ∧
      scanFraction ((word ++ rest').dropWhile (·.char.isDigit))
        = ((scanFraction ((word ++ rest).dropWhile (·.char.isDigit))).1, rest') := by
  have hword := number_split h
  have hstop := List.head?_dropWhile_not (·.char.isDigit) (word ++ rest)
  have hdigits : ∀ n ∈ (word ++ rest).takeWhile (·.char.isDigit), n.char.isDigit = true :=
    fun n hn => List.mem_takeWhile_imp (p := fun n : Mark => n.char.isDigit) hn
  generalize (word ++ rest).takeWhile (·.char.isDigit) = digits at hword hdigits ⊢
  generalize (word ++ rest).dropWhile (·.char.isDigit) = other at hword hstop h ⊢
  have hfraction := scanFraction_split other
  rw [h] at hfraction
  generalize hfr : (scanFraction other).1 = fraction at hword hfraction ⊢
  have hscan : scanFraction (fraction ++ rest) = (fraction, rest) := by
    rw [hfraction, ← hfr, ← h]
  have hnext : ∀ n ∈ (fraction ++ rest').head?, n.char.isDigit = false := by
    cases fraction with
    | nil =>
      refine hr.stops (fun _ h => h.digit) fun n hn => ?_
      rw [← hfraction, List.nil_append, Option.mem_def.mp hn] at hstop
      simpa using hstop
    | cons f fraction =>
      rintro _ ⟨⟩
      rw [← hfraction] at hstop
      simpa using hstop
  obtain ⟨htake, hdrop⟩ := takeWhile_append_stop hdigits hnext
  rw [hword, List.append_assoc, htake, hdrop]
  exact ⟨rfl, scanFraction_exchange hscan hr⟩

/-- A token that ends in front of one rest ends in front of the other. -/
theorem scan_exchange (h : scan m (word ++ rest) = .ok (t, rest))
    (hclosed : m.char = '"' → closesLiteral word = true) (hr : Follows rest rest') :
    scan m (word ++ rest') = .ok (t, rest') := by
  rw [scan_eq_ok] at h ⊢
  cases h with
  | number hdigit hafter =>
    obtain ⟨htake, hfraction⟩ := number_exchange hafter hr
    have hnumber := @Scanned.number m (word ++ rest') rest' hdigit (by rw [hfraction])
    rwa [htake, hfraction] at hnumber
  | word hdigit hstart hfound hafter =>
    have hword := takeWhile_split (p := continuesName) hafter
    obtain ⟨htake, _⟩ := takeWhile_append_stop hword.1 hword.2
    obtain ⟨htake', hdrop'⟩ :=
      takeWhile_append_stop hword.1 (hr.stops (fun _ h => h.name) hword.2)
    have hrest' := @Scanned.word m (word ++ rest') rest' _ hdigit hstart rfl hdrop'
    rw [htake'] at hrest'
    rw [htake] at hfound ⊢
    rwa [hfound] at hrest'
  | literal hquote hafter =>
    have hliteral := scanLiteral_closed (hclosed hquote)
    have hrest' := @Scanned.literal m (word ++ rest') rest' hquote (by rw [hliteral])
    rw [hliteral] at hrest' ⊢
    exact hrest'
  | symbol hdigit hstart hquote hsymbol =>
    exact .symbol hdigit hstart hquote (scanSymbol?_exchange hsymbol hr)

theorem Follows.append {part : List Mark} {n : Mark} (h : Separates n.char) :
    Follows (part ++ rest) (part ++ n :: rest') := by
  cases part with
  | nil => exact .separate h
  | cons x part =>
    refine .same ?_
    cases part with
    | nil =>
      refine .inr ?_
      rintro _ ⟨⟩
      exact h.digit
    | cons y part => exact .inl rfl

/-- A part is scanned in the same way in front of a character that goes on with no token. -/
theorem Scans.before_separate {part : List Mark} {ts : List Token} (h : Scans part rest ts)
    {n : Mark} (hn : Separates n.char) (rest' : List Mark) : Scans part (n :: rest') ts := by
  induction h with
  | done => exact .done
  | blank hm _ ih => exact .blank hm ih
  | comment hm hline hbreak _ ih => exact .comment hm hline hbreak ih
  | token hblank hcomment hscan hclosed _ ih =>
    exact .token hblank hcomment (scan_exchange hscan hclosed (.append hn)) hclosed ih

/-- A part is scanned in the same way in front of a blank. -/
theorem Scans.before_blank {part : List Mark} {ts : List Token} (h : Scans part rest ts) {n : Mark}
    (hb : isBlank n.char = true) (rest' : List Mark) : Scans part (n :: rest') ts :=
  h.before_separate (separates_of_isBlank hb) rest'

end Exchange

/-! ### The last mark -/

/-- The character is of no letter, or the last one of a name. -/
def Parts (c : Char) (rest : List Mark) : Prop :=
  isBland c = true ∧ c ≠ '\\' ∨
    continuesName c = true ∧ ∀ n ∈ rest.head?, continuesName n.char = false

theorem closesLiteral_last {word : List Mark} (h : closesLiteral word = true) :
    ∃ q, word.getLast? = some q ∧ q.char = '"' := by
  fun_induction closesLiteral word with
  | case1 => cases h
  | case2 m word hm =>
    rw [List.isEmpty_iff] at h
    subst h
    exact ⟨m, rfl, hm⟩
  | case3 m hm hslash => cases h
  | case4 m hm hslash e word ih =>
    obtain ⟨q, hq, hquote⟩ := ih h
    exact ⟨q, by simp [List.getLast?_cons, hq], hquote⟩
  | case5 m word hm hslash ih =>
    obtain ⟨q, hq, hquote⟩ := ih h
    exact ⟨q, by simp [List.getLast?_cons, hq], hquote⟩

theorem parts_symbol {s : Symbol} {c : Char} (h : c ∈ s.spelling.toList) (rest : List Mark) :
    Parts c rest := by
  have hall : ∀ s : Symbol, (s.spelling.toList.all fun c => isBland c && c != '\\') = true := by
    intro s
    cases s <;> decide
  have hc := List.all_eq_true.mp (hall s) c h
  simp only [Bool.and_eq_true, bne_iff_ne] at hc
  exact .inl hc

theorem parts_digit {c : Char} (h : c.isDigit = true) (rest : List Mark) : Parts c rest := by
  refine .inl ⟨isBland_of_isDigit h, ?_⟩
  rintro rfl
  cases h

theorem continuesName_of_startsName {c : Char} (h : startsName c = true) :
    continuesName c = true := by
  simp only [startsName, continuesName, Char.isAlphanum, Bool.or_eq_true] at h ⊢
  tauto

theorem scanFraction_last {marks : List Mark} {x : Mark}
    (h : (scanFraction marks).1.getLast? = some x) : x.char.isDigit = true := by
  unfold scanFraction at h
  split at h
  · next p d rest =>
    split at h
    · next hpoint =>
      rw [List.getLast?_cons_cons] at h
      rcases List.mem_cons.mp (List.mem_of_getLast? h) with rfl | hx
      · exact hpoint.2
      · exact List.mem_takeWhile_imp (p := fun n : Mark => n.char.isDigit) hx
    · cases h
  · cases h

/-- The last mark of a token. -/
theorem scan_last {m : Mark} {word rest : List Mark} {t : Token}
    (h : scan m (word ++ rest) = .ok (t, rest)) (hclosed : m.char = '"' → closesLiteral word = true)
    {x : Mark} (hx : (m :: word).getLast? = some x) : Parts x.char rest := by
  have hmem : x = m ∨ x ∈ word := List.mem_cons.mp (List.mem_of_getLast? hx)
  cases scan_eq_ok.mp h with
  | number hdigit hafter =>
    have hword := number_split hafter
    refine parts_digit ?_ rest
    cases hfraction : (scanFraction ((word ++ rest).dropWhile (·.char.isDigit))).1.getLast? with
    | some y =>
      rw [hword, ← List.cons_append, List.getLast?_append, hfraction] at hx
      cases hx
      exact scanFraction_last hfraction
    | none =>
      rw [List.getLast?_eq_none_iff.mp hfraction, List.append_nil] at hword
      rcases hmem with rfl | hx
      · exact hdigit
      · rw [hword] at hx
        exact List.mem_takeWhile_imp (p := fun n : Mark => n.char.isDigit) hx
  | word _ hstart _ hafter =>
    have hword := takeWhile_split (p := continuesName) hafter
    refine .inr ⟨?_, hword.2⟩
    rcases hmem with rfl | hx
    · exact continuesName_of_startsName hstart
    · exact hword.1 x hx
  | literal hquote _ =>
    obtain ⟨q, hq, hchar⟩ := closesLiteral_last (hclosed hquote)
    have hxq : x = q := by
      rw [List.getLast?_cons, hq, Option.getD_some] at hx
      exact (Option.some.inj hx).symm
    rw [hxq, hchar]
    exact .inl (by decide)
  | @symbol s _ _ _ hsymbol =>
    have hspelled : x.char ∈ s.spelling.toList := by
      rcases scanSymbol?_split hsymbol with ⟨rfl, _, hsingle⟩ | ⟨n, rfl, hdouble⟩
      · cases hx
        simp [Symbol.spelling_of_single? hsingle]
      · cases hx
        simp [Symbol.spelling_of_double? hdouble]
    exact parts_symbol hspelled _

/-- The last mark of a part. -/
theorem Scans.last {part rest : List Mark} {ts : List Token} (h : Scans part rest ts) {x : Mark}
    (hx : part.getLast? = some x) : Parts x.char rest := by
  have hblank : ∀ {c : Char}, isBlank c = true → ∀ rest, Parts c rest := by
    intro c hc rest
    refine .inl ⟨isBland_of_isBlank hc, ?_⟩
    rintro rfl
    cases hc
  induction h with
  | done => cases hx
  | blank hm _ ih =>
    rw [← List.singleton_append, List.getLast?_append, Option.or_eq_some_iff] at hx
    rcases hx with hx | ⟨_, hx⟩
    · exact ih hx
    · cases hx
      exact hblank hm _
  | comment _ _ hb _ ih =>
    rw [List.getLast?_append, ← List.singleton_append, List.getLast?_append, Option.or_assoc,
      Option.or_eq_some_iff] at hx
    rcases hx with hx | ⟨_, hx⟩
    · exact ih hx
    · cases hx
      exact hblank (isBlank_of_isLineBreak hb) _
  | token _ _ hscan hclosed _ ih =>
    rw [List.getLast?_append, Option.or_eq_some_iff] at hx
    rcases hx with hx | ⟨hnone, hx⟩
    · exact ih hx
    · obtain rfl := List.getLast?_eq_none_iff.mp hnone
      exact scan_last hscan hclosed hx

/-! ### Shifted offsets -/

/-- A token so many places further on. -/
def shift (k : Nat) (t : Token) : Token := { t with offset := t.offset + k }

section Shift

variable {k : Nat} {marks : List Mark}

theorem takeWhile_shift (p : Char → Bool) :
    (marks.map (Mark.shift k)).takeWhile (p ·.char)
      = (marks.takeWhile (p ·.char)).map (Mark.shift k) := by
  rw [List.takeWhile_map]
  rfl

theorem dropWhile_shift (p : Char → Bool) :
    (marks.map (Mark.shift k)).dropWhile (p ·.char)
      = (marks.dropWhile (p ·.char)).map (Mark.shift k) := by
  rw [List.dropWhile_map]
  rfl

theorem textOf_shift : textOf (marks.map (Mark.shift k)) = textOf marks := by
  simp [textOf, Mark.shift, Function.comp_def]

theorem scanFraction_shift : scanFraction (marks.map (Mark.shift k))
    = ((scanFraction marks).1.map (Mark.shift k), (scanFraction marks).2.map (Mark.shift k)) := by
  cases marks with
  | nil => rfl
  | cons p marks =>
    cases marks with
    | nil => rfl
    | cons d rest =>
      simp only [List.map_cons, scanFraction, takeWhile_shift, dropWhile_shift]
      have hchar : ∀ m : Mark, (m.shift k).char = m.char := fun _ => rfl
      rw [hchar, hchar]
      split
      · rfl
      · rfl

theorem scanLiteral_shift : scanLiteral (marks.map (Mark.shift k))
    = ((scanLiteral marks).1, (scanLiteral marks).2.map (Mark.shift k)) := by
  have hchar : ∀ m : Mark, (m.shift k).char = m.char := fun _ => rfl
  fun_induction scanLiteral marks with
  | case1 => rfl
  | case2 m rest hm =>
    rw [List.map_cons, scanLiteral.eq_def]
    simp only [hchar, if_pos hm]
  | case3 m hm hslash =>
    rw [List.map_cons, scanLiteral.eq_def]
    simp only [hchar, if_neg hm, if_pos hslash, List.map_nil]
  | case4 m hm hslash e rest text after h ih =>
    rw [List.map_cons, scanLiteral.eq_def]
    simp only [hchar, if_neg hm, if_pos hslash, List.map_cons, ih, h]
  | case5 m rest hm hslash text after h ih =>
    rw [List.map_cons, scanLiteral.eq_def]
    simp only [hchar, if_neg hm, if_neg hslash, ih, h]

theorem scanSymbol?_shift (m : Mark) : scanSymbol? (m.shift k) (marks.map (Mark.shift k))
    = (scanSymbol? m marks).map fun found => (found.1, found.2.map (Mark.shift k)) := by
  have hhead : ((marks.map (Mark.shift k)).head?.bind
      fun n => Symbol.double? (m.shift k).char n.char)
        = marks.head?.bind fun n => Symbol.double? m.char n.char := by
    cases marks with
    | nil => rfl
    | cons n marks => rfl
  unfold scanSymbol?
  rw [hhead]
  cases marks.head?.bind fun n => Symbol.double? m.char n.char with
  | some s => simp
  | none => simp [Mark.shift, Option.map_map, Function.comp_def]

theorem scan_shift {m : Mark} {t : Token} {after : List Mark} (h : scan m marks = .ok (t, after)) :
    scan (m.shift k) (marks.map (Mark.shift k)) = .ok (t.shift k, after.map (Mark.shift k)) := by
  rw [scan_eq_ok] at h ⊢
  cases h with
  | number hdigit hafter =>
    have hafter' : (scanFraction ((marks.map (Mark.shift k)).dropWhile (·.char.isDigit))).2
        = after.map (Mark.shift k) := by rw [dropWhile_shift, scanFraction_shift, hafter]
    have hnumber := @Scanned.number (m.shift k) (marks.map (Mark.shift k)) _ hdigit hafter'
    rw [takeWhile_shift, dropWhile_shift, scanFraction_shift, ← List.map_cons, ← List.map_append,
      textOf_shift] at hnumber
    exact hnumber
  | word hdigit hstart hfound hafter =>
    have hword := @Scanned.word (m.shift k) (marks.map (Mark.shift k)) _ _ hdigit hstart rfl rfl
    rw [takeWhile_shift, dropWhile_shift, ← List.map_cons, textOf_shift, hafter, hfound] at hword
    exact hword
  | literal hquote hafter =>
    have hliteral := @Scanned.literal (m.shift k) (marks.map (Mark.shift k)) _ hquote rfl
    rw [scanLiteral_shift, hafter] at hliteral
    exact hliteral
  | symbol hdigit hstart hquote hsymbol =>
    refine .symbol hdigit hstart hquote ?_
    rw [scanSymbol?_shift, hsymbol]
    rfl

/-- A text further on has the same tokens further on. -/
theorem scanAll_shift {us : List Token} (h : scanAll marks = .ok us) :
    scanAll (marks.map (Mark.shift k)) = .ok (us.map (shift k)) := by
  have hchar : ∀ m : Mark, (m.shift k).char = m.char := fun _ => rfl
  induction h using scanAll_induction with
  | done => rw [List.map_nil, scanAll, List.map_nil]
  | blank m rest us _ _ hb ih => rw [List.map_cons, scanAll_blank (hchar m ▸ hb), ih]
  | comment m rest us _ _ hc ih =>
    rw [List.map_cons, scanAll_comment (hchar m ▸ hc), dropWhile_shift (!isLineBreak ·), ih]
  | token m rest t after us _ _ hb hc hs ih =>
    rw [List.map_cons, scanAll_token (hchar m ▸ hb) (hchar m ▸ hc) (scan_shift hs), ih]
    rfl

theorem scan_shift_fault {m : Mark} {fault : LexFault × Nat} (h : scan m marks = .error fault) :
    scan (m.shift k) (marks.map (Mark.shift k)) = .error (fault.1, fault.2 + k) := by
  have hchar : (m.shift k).char = m.char := rfl
  unfold scan at h ⊢
  rw [hchar, scanSymbol?_shift]
  split at h
  · cases h
  · next hdigit =>
    split at h
    · cases h
    · next hstart =>
      split at h
      · cases h
      · next hquote =>
        rw [if_neg hdigit, if_neg hstart, if_neg hquote]
        split at h
        · cases h
        · next hnone =>
          cases h
          rw [hnone]
          rfl

/-- The tokens of a text further on are those of the text, further on. -/
theorem scanAll_of_shift {vs : List Token} (h : scanAll (marks.map (Mark.shift k)) = .ok vs) :
    ∃ us, scanAll marks = .ok us ∧ vs = us.map (shift k) := by
  suffices hok : ∃ us, scanAll marks = .ok us by
    obtain ⟨us, hus⟩ := hok
    exact ⟨us, hus, Except.ok.inj (h.symm.trans (scanAll_shift hus))⟩
  induction hn : marks.length using Nat.strong_induction_on generalizing marks vs with
  | _ n ih =>
    subst hn
    cases marks with
    | nil => exact ⟨[], by rw [scanAll]⟩
    | cons m rest =>
      have hchar : (m.shift k).char = m.char := rfl
      rw [List.map_cons, scanAll_cons_eq_ok, hchar] at h
      rcases h with ⟨hb, hrest⟩ | ⟨hc, hrest⟩ | ⟨hb, hc, t, after, ts, hs, hafter, rfl⟩
      · rw [scanAll_blank hb]
        exact ih _ (Nat.lt_succ_self _) hrest rfl
      · rw [scanAll_comment hc]
        rw [dropWhile_shift (!isLineBreak ·)] at hrest
        exact ih _ (Nat.lt_succ_of_le (length_dropWhile_le _ _)) hrest rfl
      · cases hread : scan m rest with
        | error fault =>
          rw [scan_shift_fault hread] at hs
          cases hs
        | ok found =>
          obtain ⟨u, left⟩ := found
          rw [scan_shift hread] at hs
          cases hs
          obtain ⟨us, hus⟩ := ih _ (Nat.lt_succ_of_le (scan_length hread)) hafter rfl
          exact ⟨u :: us, by rw [scanAll_token hb hc hread, hus]; rfl⟩

end Shift

/-- Where tokens are found, a character that joins words starts a number or a name. -/
theorem continuesName_of_scanAll {m : Mark} {rest : List Mark} {us : List Token}
    (h : scanAll (m :: rest) = .ok us) (hm : joinsWord m.char = true) :
    continuesName m.char = true := by
  have hsymbols : ∀ s : Symbol, ((s.spelling.toList.take 1).all fun c => !joinsWord c) = true := by
    intro s
    cases s <;> decide
  have hsymbol : ∀ (s : Symbol) (tail : List Char), s.spelling.toList = m.char :: tail → False := by
    intro s tail hs
    have hall := hsymbols s
    rw [hs] at hall
    simp [hm] at hall
  rcases scanAll_cons_eq_ok.mp h with ⟨hb, _⟩ | ⟨hc, _⟩ | ⟨_, _, t, after, _, hs, _⟩
  · rw [joinsWord_of_isBlank hb] at hm
    cases hm
  · rw [hc] at hm
    exact absurd hm (by decide)
  · cases scan_eq_ok.mp hs with
    | number hdigit _ => simp [continuesName, Char.isAlphanum, hdigit]
    | word _ hstart _ _ => exact continuesName_of_startsName hstart
    | literal hquote _ =>
      rw [hquote] at hm
      exact absurd hm (by decide)
    | symbol _ _ _ hsymbol' =>
      exfalso
      unfold scanSymbol? at hsymbol'
      split at hsymbol'
      · next d hd =>
        cases rest with
        | nil => cases hd
        | cons n rest => exact hsymbol d _ (Symbol.spelling_of_double? hd)
      · rw [Option.map_eq_some_iff] at hsymbol'
        obtain ⟨d, hd, _⟩ := hsymbol'
        exact hsymbol d _ (Symbol.spelling_of_single? hd)

end Token
end Parlance
