import Parlance.Proofs.Joining.Texts
import Parlance.Proofs.Lines.Shadows
/-!
# Canonical texts with different ends

The beginning of a text may have an operator at its end where the whole text has the characters of a
phrase, and from there on the two go apart (`Ends`). If the whole is scanned then so is the
beginning, and its tokens are the first ones of the whole but perhaps for the last one
(`scanAll_tail`).
-/
namespace Parlance
open Text Parse Grammar

namespace Token

variable {m n : Mark} {word rest after part X Y Y' N V G : List Mark} {t : Token} {vs : List Token}

/-! ### Characters that stand in no token -/

/-- The character stands in no token, and is neither blank nor the start of a comment. -/
structure Stray (c : Char) : Prop where
  blank : isBlank c = false
  hash : c ≠ '#'
  quote : c ≠ '"'
  token : ¬ InToken c

/-- Where tokens are found a stray character stands behind a quote or a number sign. -/
theorem not_scanAll_of_stray (hpart : ∀ x ∈ part, x.char ≠ '"' ∧ x.char ≠ '#')
    (hn : Stray n.char) : scanAll (part ++ n :: rest) ≠ .ok vs := by
  induction hlen : part.length using Nat.strong_induction_on generalizing part vs with
  | _ k ih =>
    subst hlen
    intro h
    cases part with
    | nil =>
      rcases scanAll_cons_eq_ok.mp h with ⟨hb, _⟩ | ⟨hc, _⟩ | ⟨_, _, t, after, _, hs, _⟩
      · rw [hn.blank] at hb
        cases hb
      · exact hn.hash hc
      · obtain ⟨word, _, hword⟩ := scan_chars hs hn.quote
        exact hn.token (hword n List.mem_cons_self)
    | cons x part =>
      rw [List.forall_mem_cons] at hpart
      rcases scanAll_cons_eq_ok.mp h with ⟨_, hrest⟩ | ⟨hc, _⟩ | ⟨_, _, t, after, ts, hs, hafter, _⟩
      · exact ih _ (Nat.lt_succ_self _) hpart.2 rfl hrest
      · exact hpart.1.2 hc
      · obtain ⟨word, hsplit, hword⟩ := scan_chars hs hpart.1.1
        -- the token ends before the character
        rcases List.append_eq_append_iff.mp hsplit with ⟨w, rfl, hw⟩ | ⟨w, rfl, rfl⟩
        · cases w with
          | nil =>
            rw [List.nil_append] at hw
            subst hw
            exact @ih 0 (by simp) [] ts (by simp) rfl hafter
          | cons y w =>
            obtain ⟨rfl, _⟩ := List.cons.inj hw
            exact hn.token (hword _ (by simp))
        · have hless : w.length < (x :: (word ++ w)).length := by
            rw [List.length_cons, List.length_append]
            omega
          exact ih _ hless (fun y hy => hpart.2 y (List.mem_append_right word hy)) rfl hafter

/-! ### Words -/

/-- A word as long as it can be is one token. -/
theorem scan_name (hdigit : m.char.isDigit = false) (hstart : startsName m.char = true)
    (hword : ∀ x ∈ word, continuesName x.char = true)
    (hafter : ∀ x ∈ after.head?, continuesName x.char = false) : scan m (word ++ after)
      = .ok (⟨wordKind (Keyword.ofWord? (textOf (m :: word))), textOf (m :: word), m.origin⟩,
          after) := by
  obtain ⟨htake, hdrop⟩ := takeWhile_append_stop (p := continuesName) hword hafter
  have hscanned := @Scanned.word m (word ++ after) after _ (by simp [hdigit]) hstart rfl hdrop
  rw [htake] at hscanned
  exact scan_eq_ok.mpr hscanned

/-- Only a word has letters in it, behind its first character. -/
theorem name_of_letter (h : scan m (word ++ after) = .ok (t, after)) (hquote : m.char ≠ '"')
    {x : Mark} (hx : x ∈ word) (hletter : x.char.isAlpha = true) :
    m.char.isDigit = false ∧ startsName m.char = true ∧
      (∀ y ∈ word, continuesName y.char = true) ∧
        ∀ y ∈ after.head?, continuesName y.char = false := by
  have hdigit : x.char.isDigit = false :=
    forall_ascii (P := fun c => c.isAlpha = true → c.isDigit = false) (by decide)
      (lt_of_isAlphanum (by simp [Char.isAlphanum, hletter])) hletter
  cases scan_eq_ok.mp h with
  | number _ hafter =>
    have hchar : x.char = '.' ∨ x.char.isDigit = true := by
      rw [number_split hafter, List.mem_append] at hx
      rcases hx with hx | hx
      · exact .inr (List.mem_takeWhile_imp (p := fun n : Mark => n.char.isDigit) hx)
      · exact scanFraction_chars hx
    rcases hchar with hpoint | hchar
    · rw [hpoint] at hletter
      cases hletter
    · rw [hdigit] at hchar
      cases hchar
  | word hdigit hstart _ hafter =>
    exact ⟨by simpa using hdigit, hstart, takeWhile_split (p := continuesName) hafter⟩
  | literal hquote' _ => exact absurd hquote' hquote
  | @symbol s _ _ _ hsymbol =>
    have hspelled : x.char ∈ s.spelling.toList := by
      rcases scanSymbol?_split hsymbol with ⟨rfl, _⟩ | ⟨n, rfl, hdouble⟩
      · cases hx
      · rw [List.mem_singleton.mp hx]
        simp [Symbol.spelling_of_double? hdouble]
    have hall : (s.spelling.toList.all fun c => !c.isAlpha) = true := by
      cases s <;> decide
    have hnone := List.all_eq_true.mp hall _ hspelled
    rw [hletter] at hnone
    cases hnone

/-- No keyword has an underscore. -/
theorem ofWord?_underscore (hm : m ∈ word) (h : m.char = '_') :
    Keyword.ofWord? (textOf word) = none := by
  refine List.find?_eq_none.mpr fun k _ hk => ?_
  have hspelling : k.spelling = lower (textOf word) := by simpa using hk
  have hmem : '_' ∈ k.spelling.toList := by
    rw [hspelling, lower, textOf, String.toList_ofList, String.toList_ofList, List.map_map]
    refine List.mem_map.mpr ⟨m, hm, ?_⟩
    rw [Function.comp_apply, h]
    decide
  revert hmem
  cases k <;> decide

/-! ### The ends -/

/-- The word before a counted block, of which the colon comes next in the rest. What stands before
it does not belong to the phrase. -/
structure Counted (X V N : List Mark) : Prop where
  word : (V.map Mark.char).map Char.toLower = Keyword.timesWord.spelling.toList
  apart : ∀ x ∈ X.getLast?, joinsWord x.char = false
  colon : ∀ vs, scanAll N = .ok vs → ∃ v us, vs = v :: us ∧ IsSign .colon v

/-- The ends of a beginning and of the whole, the rest of which comes behind: the rest alone, or
what was taken for an operator in the beginning, perhaps with blanks behind it. The whole does not
have the operator but either characters of no token or the word before a counted block. -/
inductive Ends (X N : List Mark) : (Y Y' : List Mark) → Prop
  | here : Ends X N [] N
  | operator {s : Symbol} {pos : Nat} {V G : List Mark} :
      s ∈ [Symbol.less, .lessEqual, .greaterEqual, .star] →
      (∀ x ∈ V, x.char ≠ '"' ∧ x.char ≠ '#' ∧ isLineBreak x.char = false) →
      (∀ x ∈ G, isBlank x.char = true) →
      ((∃ x ∈ V, Stray x.char) ∨ s = .star ∧ Counted X V N) →
      Ends X N (s.marks pos ++ G) (V ++ (G ++ N))

/-- The tokens of a beginning next to those of the whole: the first ones of the whole, and behind
them come those of the rest unless the last one is a literal or an operator. -/
structure Cutoff (N : List Mark) (us vs : List Token) : Prop where
  begins : Begins false us vs
  rest : (∃ ws, scanAll N = .ok ws ∧ vs = us ++ ws) ∨
    ∃ t ∈ us.getLast?, t.kind = .string ∨ t.kind = .symbol .star

namespace Ends

theorem suffix {X' : List Mark} (h : Ends X N Y Y') (hX : X' <:+ X) : Ends X' N Y Y' := by
  cases h with
  | here => exact .here
  | operator hs hV hG hends =>
    refine .operator hs hV hG (hends.imp id fun hcounted => ⟨hcounted.1, ?_⟩)
    obtain ⟨hword, hapart, hcolon⟩ := hcounted.2
    refine ⟨hword, fun x hx => hapart x ?_, hcolon⟩
    obtain ⟨part, rfl⟩ := hX
    rw [List.getLast?_append, Option.mem_def.mp hx]
    rfl

theorem symbol_chars {s : Symbol} (hs : s ∈ [Symbol.less, .lessEqual, .greaterEqual, .star]) :
    ∀ c ∈ s.spelling.toList, c ≠ '"' ∧ isLineBreak c = false := by
  have hall : ∀ s ∈ [Symbol.less, .lessEqual, .greaterEqual, .star],
      (s.spelling.toList.all fun c => c != '"' && !isLineBreak c) = true := by decide
  intro c hc
  simpa using List.all_eq_true.mp (hall s hs) c hc

theorem no_quote (h : Ends X N Y Y') : ∀ y ∈ Y, y.char ≠ '"' := by
  cases h with
  | here => simp
  | operator hs _ hG _ =>
    intro y hy
    rcases List.mem_append.mp hy with hy | hy
    · obtain ⟨c, hc, rfl⟩ := List.mem_map.mp hy
      exact (symbol_chars hs c hc).1
    · intro hquote
      have hblank := hG y hy
      rw [hquote] at hblank
      cases hblank

/-- The end of the beginning goes on with no token. -/
theorem separates (h : Ends X N Y Y') : ∀ y ∈ Y.head?, Separates y.char := by
  cases h with
  | here => simp
  | operator hs _ _ _ =>
    have hless : Separates '<' := ⟨rfl, rfl, by decide, fun a => by simp [Symbol.double?]⟩
    have hgreater : Separates '>' := ⟨rfl, rfl, by decide, fun a => by simp [Symbol.double?]⟩
    have hstar : Separates '*' := ⟨rfl, rfl, by decide, fun a => by simp [Symbol.double?]⟩
    intro y hy
    simp only [List.mem_cons, List.not_mem_nil, or_false] at hs
    rcases hs with rfl | rfl | rfl | rfl
    · rw [← Option.some.inj hy]
      exact hless
    · rw [← Option.some.inj hy]
      exact hless
    · rw [← Option.some.inj hy]
      exact hgreater
    · rw [← Option.some.inj hy]
      exact hstar

end Ends

/-! ### Scanning both -/

theorem scanAll_blanks_append (hG : ∀ x ∈ G, isBlank x.char = true) (N : List Mark) :
    scanAll (G ++ N) = scanAll N := by
  induction G with
  | nil => rfl
  | cons x G ih =>
    rw [List.forall_mem_cons] at hG
    rw [List.cons_append, scanAll_blank hG.1, ih hG.2]

theorem scanAll_blanks_nil (hG : ∀ x ∈ G, isBlank x.char = true) : scanAll G = .ok [] := by
  have hnil := scanAll_blanks_append hG []
  rw [List.append_nil] at hnil
  rw [hnil, scanAll]

/-- A comment that goes on into the end takes what is there up to the line break. -/
theorem Ends.comment (h : Ends X (n :: N) Y Y') (hn : isLineBreak n.char = true) :
    scanAll (Y.dropWhile (!isLineBreak ·.char)) = .ok [] ∧
      scanAll (Y'.dropWhile (!isLineBreak ·.char)) = scanAll (n :: N) := by
  have hrest : (n :: N).dropWhile (!isLineBreak ·.char) = n :: N := by
    rw [List.dropWhile_cons, hn]
    rfl
  cases h with
  | here => exact ⟨by rw [List.dropWhile_nil, scanAll], by rw [hrest]⟩
  | @operator s pos V G hs hV hG _ =>
    have hsymbol : ∀ x ∈ s.marks pos, (!isLineBreak x.char) = true := by
      intro x hx
      obtain ⟨c, hc, rfl⟩ := List.mem_map.mp hx
      rw [(symbol_chars hs c hc).2]
      rfl
    have hV' : ∀ x ∈ V, (!isLineBreak x.char) = true := by
      intro x hx
      rw [(hV x hx).2.2]
      rfl
    have hblank : ∀ x ∈ G.dropWhile (!isLineBreak ·.char), isBlank x.char = true :=
      fun x hx => hG x ((List.dropWhile_sublist _).subset hx)
    rw [List.dropWhile_append_of_pos hsymbol, List.dropWhile_append_of_pos hV',
      List.dropWhile_append, scanAll_blanks_nil hblank]
    refine ⟨rfl, ?_⟩
    split
    · rw [hrest]
    · exact scanAll_blanks_append hblank _

theorem Cutoff.nil {ws : List Token} (h : scanAll N = .ok ws) : Cutoff N [] ws :=
  ⟨.nil, .inl ⟨ws, h, rfl⟩⟩

theorem Cutoff.cons {us : List Token} (h : Cutoff N us vs) (t : Token) :
    Cutoff N (t :: us) (t :: vs) := by
  refine ⟨.cons rfl (h.begins.weaken _), ?_⟩
  rcases h.rest with ⟨ws, hws, rfl⟩ | ⟨u, hu, hkind⟩
  · exact .inl ⟨ws, hws, rfl⟩
  · refine .inr ⟨u, ?_, hkind⟩
    rw [List.getLast?_cons, Option.mem_def.mp hu]
    rfl

/-- A character that is a symbol of its own and starts no other token is one token. -/
theorem scan_single {c : Char} {s : Symbol} (hsingle : Symbol.single? c = some s)
    (hdouble : ∀ d, Symbol.double? c d = none)
    (hother : (c.isDigit || startsName c || c == '"') = false) (pos : Nat) (rest : List Mark) :
    scan ⟨c, pos⟩ rest = .ok (⟨.symbol s, s.spelling, pos⟩, rest) := by
  simp only [Bool.or_eq_false_iff, beq_eq_false_iff_ne] at hother
  have hsymbol : scanSymbol? ⟨c, pos⟩ rest = some (s, rest) := by
    have hnone : (rest.head?.bind fun n => Symbol.double? c n.char) = none := by
      cases rest with
      | nil => rfl
      | cons x rest => exact hdouble x.char
    unfold scanSymbol?
    rw [hnone, hsingle]
    rfl
  exact scan_eq_ok.mpr (.symbol (by simp [hother.1.1]) (by simp [hother.1.2]) hother.2 hsymbol)

/-- The operator that is taken for the word before a counted block is one token. -/
theorem scanAll_star (pos : Nat) (hG : ∀ x ∈ G, isBlank x.char = true) :
    ∃ u, scanAll (Symbol.star.marks pos ++ G) = .ok [u] ∧ IsSign .star u := by
  have hscan := scan_single (c := '*') rfl (fun d => by simp [Symbol.double?]) (by decide) pos G
  refine ⟨⟨.symbol .star, Symbol.star.spelling, pos⟩, ?_, rfl⟩
  have hmarks : Symbol.star.marks pos ++ G = ⟨'*', pos⟩ :: G := rfl
  rw [hmarks, scanAll_token (show isBlank '*' = false by decide) (show '*' ≠ '#' by decide) hscan,
    scanAll_blanks_nil hG]
  rfl

/-- A name ends where blanks come, at the latest with the line. -/
theorem name_ends_at_break (hG : ∀ x ∈ G, isBlank x.char = true) (hn : isLineBreak n.char = true) :
    ∀ x ∈ (G ++ n :: N).head?, continuesName x.char = false := by
  intro x hx
  cases G with
  | nil =>
    cases hx
    exact continuesName_of_isBlank _ (isBlank_of_isLineBreak hn)
  | cons y G =>
    cases hx
    exact continuesName_of_isBlank _ (hG _ List.mem_cons_self)

namespace Counted

theorem letters (h : Counted X V N) : ∀ x ∈ V, x.char.isAlpha = true := by
  have hlower : Keyword.timesWord.spelling.toList.all Char.isLower = true := by decide
  intro x hx
  exact isAlpha_of_map_toLower hlower h.word x.char (List.mem_map_of_mem hx)

theorem continues (h : Counted X V N) : ∀ x ∈ V, continuesName x.char = true := by
  intro x hx
  simp [continuesName, Char.isAlphanum, h.letters x hx]

/-- The word alone is the keyword in the whole, and an operator in the beginning. -/
theorem alone (h : Counted X V (n :: N)) (hn : isLineBreak n.char = true)
    (hG : ∀ x ∈ G, isBlank x.char = true) (hvs : scanAll (V ++ (G ++ n :: N)) = .ok vs) (pos : Nat) :
    ∃ us, scanAll (Symbol.star.marks pos ++ G) = .ok us ∧ Cutoff (n :: N) us vs := by
  obtain ⟨u, hu, hstar⟩ := scanAll_star pos hG
  have hword : textOf V = String.ofList (V.map Mark.char) := rfl
  have hletters := h.letters
  have hspelled := h.word
  cases V with
  | nil => cases hspelled
  | cons m word =>
    rw [List.forall_mem_cons] at hletters
    have hstart : startsName m.char = true := by simp [startsName, hletters.1]
    have hdigit : m.char.isDigit = false :=
      forall_ascii (P := fun c => c.isAlpha = true → c.isDigit = false) (by decide)
        (lt_of_isAlphanum (by simp [Char.isAlphanum, hletters.1])) hletters.1
    have hscan := scan_name hdigit hstart
      (fun x hx => h.continues x (List.mem_cons_of_mem m hx)) (name_ends_at_break (N := N) hG hn)
    rw [hword, ofWord?_of_map_toLower hspelled] at hscan
    have hcontinues := continuesName_of_startsName hstart
    have hblank : isBlank m.char = false := by
      by_contra hblank
      rw [continuesName_of_isBlank _ (by simpa using hblank)] at hcontinues
      cases hcontinues
    have hhash : m.char ≠ '#' := by
      intro hhash
      rw [hhash] at hcontinues
      cases hcontinues
    rw [List.cons_append, scanAll_token hblank hhash hscan] at hvs
    cases hafter : scanAll (G ++ n :: N) with
    | error fault =>
      rw [hafter] at hvs
      cases hvs
    | ok ts =>
      rw [hafter] at hvs
      cases hvs
      exact ⟨[u], hu, .tip ⟨hstar, .inl rfl⟩, .inr ⟨u, rfl, .inr hstar⟩⟩

/-- A name that goes on into the word is cut in front of the operator in the beginning. The name
ends with an underscore, since no other character of names may stand beside a phrase. -/
theorem across (h : Counted (m :: X) V (n :: N)) (hn : isLineBreak n.char = true)
    (hG : ∀ x ∈ G, isBlank x.char = true) (hquote : m.char ≠ '"') {v : List Mark} (hv : v ≠ [])
    (hsplit : V ++ (G ++ n :: N) = v ++ after) (hs : scan m (X ++ (v ++ after)) = .ok (t, after))
    {ts : List Token} (hts : scanAll after = .ok ts) (pos : Nat) :
    ∃ u us, scan m (X ++ (Symbol.star.marks pos ++ G)) = .ok (u, Symbol.star.marks pos ++ G) ∧
      scanAll (Symbol.star.marks pos ++ G) = .ok us ∧ Cutoff (n :: N) (u :: us) (t :: ts) := by
  obtain ⟨x, hxv, hletter⟩ : ∃ x ∈ v, x.char.isAlpha = true := by
    have hletters := h.letters
    have hspelled := h.word
    cases V with
    | nil => cases hspelled
    | cons x V =>
      cases v with
      | nil => exact absurd rfl hv
      | cons y v =>
        obtain ⟨rfl, _⟩ := List.cons.inj hsplit
        exact ⟨x, List.mem_cons_self, hletters x List.mem_cons_self⟩
  rw [← List.append_assoc] at hs
  obtain ⟨hdigit, hstart, hword, hafter⟩ :=
    name_of_letter hs hquote (List.mem_append_right X hxv) hletter
  rw [List.forall_mem_append] at hword
  -- the name goes up to the end of the word
  obtain ⟨rfl, rfl⟩ : V = v ∧ G ++ n :: N = after := by
    obtain ⟨htake, hdrop⟩ :=
      takeWhile_append_stop (p := continuesName) h.continues (name_ends_at_break (N := N) hG hn)
    obtain ⟨htake', hdrop'⟩ := takeWhile_append_stop (p := continuesName) hword.2 hafter
    rw [hsplit] at htake hdrop
    exact ⟨htake.symm.trans htake', hdrop.symm.trans hdrop'⟩
  obtain ⟨x, hx, hunderscore⟩ : ∃ x ∈ m :: X, x.char = '_' := by
    obtain ⟨x, hlast⟩ : ∃ x, (m :: X).getLast? = some x :=
      ⟨_, List.getLast?_eq_some_getLast (by simp)⟩
    have hmem := List.mem_of_getLast? hlast
    have hcontinues : continuesName x.char = true := by
      rcases List.mem_cons.mp hmem with rfl | hmem
      · exact continuesName_of_startsName hstart
      · exact hword.1 x hmem
    refine ⟨x, hmem, ?_⟩
    simp only [continuesName, Bool.or_eq_true, beq_iff_eq] at hcontinues
    refine hcontinues.resolve_right fun halnum => ?_
    have hjoins := h.apart x hlast
    rw [joinsWord_of_isAlphanum halnum] at hjoins
    cases hjoins
  have hstop : ∀ y ∈ (Symbol.star.marks pos ++ G).head?, continuesName y.char = false := by
    intro y hy
    rw [← Option.some.inj hy]
    rfl
  have hname := scan_name hdigit hstart hword.1 hstop
  have hwhole := scan_name hdigit hstart (List.forall_mem_append.mpr hword) hafter
  rw [ofWord?_underscore hx hunderscore] at hname
  have hx' : x ∈ m :: (X ++ V) := List.mem_append_left V hx
  rw [ofWord?_underscore hx' hunderscore, hs] at hwhole
  obtain ⟨u, hu, hstar⟩ := scanAll_star pos hG
  rw [scanAll_blanks_append hG] at hts
  obtain ⟨v, us, rfl, hcolon⟩ := h.colon ts hts
  cases hwhole
  refine ⟨_, _, hname, hu, .cons rfl (.tip ⟨hstar, .inr ⟨hcolon, rfl⟩⟩), .inr ⟨u, rfl, .inr hstar⟩⟩

end Counted

/-- A token of the whole, and what the beginning has in its place: the same token, if it ends before
the two go apart, or the last one of the beginning but for an operator. -/
inductive Meets (N : List Mark) (m : Mark) (X Y Y' after : List Mark) (t : Token) (ts : List Token) :
    Prop
  | inside {X' : List Mark} : X' <:+ X → after = X' ++ Y' → scan m (X ++ Y) = .ok (t, X' ++ Y) →
      Meets N m X Y Y' after t ts
  | last {u : Token} {us : List Token} {after' : List Mark} : scan m (X ++ Y) = .ok (u, after') →
      scanAll after' = .ok us → Cutoff N (u :: us) (t :: ts) → Meets N m X Y Y' after t ts

section Meets

variable {ts : List Token}

/-- A literal that is not closed in the beginning is its last token. -/
theorem Ends.meets_literal (h : Ends X N Y Y') (hquote : m.char = '"')
    (hs : scan m (X ++ Y') = .ok (t, after)) : Meets N m X Y Y' after t ts := by
  rw [scan_quote hquote] at hs
  cases hs
  rcases scanLiteral_split (X ++ Y) with ⟨word, hsplit, hclosed⟩ | hnil
  · have hinside : ∃ X', X = word ++ X' := by
      rcases List.append_eq_append_iff.mp hsplit with ⟨w, rfl, hY⟩ | ⟨w, hX, _⟩
      · cases w with
        | nil => exact ⟨[], by simp⟩
        | cons y w =>
          -- the closing quote would stand in the end
          obtain ⟨q, hq, hchar⟩ := closesLiteral_last hclosed
          rw [List.getLast?_append, List.getLast?_cons, Option.some_or] at hq
          have hmem : q ∈ Y := by
            rw [hY]
            refine List.mem_append_left _ (List.mem_of_getLast? ?_)
            rw [List.getLast?_cons, hq]
          exact absurd hchar (h.no_quote q hmem)
      · exact ⟨w, hX⟩
    obtain ⟨X', rfl⟩ := hinside
    have hliteral := scanLiteral_closed hclosed
    refine .inside (List.suffix_append word X') ?_ ?_
    · rw [List.append_assoc, hliteral]
    · rw [scan_quote hquote, List.append_assoc, List.append_assoc, hliteral, hliteral]
  · have hafter : scanAll (scanLiteral (X ++ Y)).2 = .ok [] := by rw [hnil, scanAll]
    exact .last (scan_quote hquote _) hafter ⟨.cons rfl .nil, .inr ⟨_, rfl, .inl rfl⟩⟩

/-- The end of a beginning follows in place of the end of the whole. -/
theorem Ends.follows (h : Ends X N Y Y') : Follows (X ++ Y') (X ++ Y) := by
  cases X with
  | nil => exact .apart h.separates
  | cons x X =>
    refine .same ?_
    cases X with
    | nil => exact .inr fun d hd => (h.separates d hd).digit
    | cons y X => exact .inl rfl

theorem not_inToken_of_isLineBreak {c : Char} (h : isLineBreak c = true) : ¬ InToken c := by
  rintro (rfl | hname | ⟨s, hs⟩)
  · cases h
  · rw [continuesName_of_isBlank _ (isBlank_of_isLineBreak h)] at hname
    cases hname
  · have hall : (s.spelling.toList.all fun c => !isLineBreak c) = true := by
      cases s <;> decide
    have hnone := List.all_eq_true.mp hall c hs
    rw [h] at hnone
    cases hnone

/-- A token that goes on into the end of the whole is a name, and is cut in the beginning. -/
theorem Ends.meets_across (h : Ends (m :: X) (n :: N) Y Y') (hn : isLineBreak n.char = true)
    (hquote : m.char ≠ '"') {v : List Mark} (hv : v ≠ []) (hsplit : Y' = v ++ after)
    (hs : scan m (X ++ (v ++ after)) = .ok (t, after)) (hchars : ∀ x ∈ v, InToken x.char)
    (hts : scanAll after = .ok ts) : Meets (n :: N) m X Y Y' after t ts := by
  obtain ⟨y, v, rfl⟩ := List.exists_cons_of_ne_nil hv
  cases h with
  | here =>
    obtain ⟨rfl, _⟩ := List.cons.inj hsplit
    exact absurd (hchars n List.mem_cons_self) (not_inToken_of_isLineBreak hn)
  | @operator _ pos V G _ hV hG hends =>
    rcases hends with ⟨x, hx, hstray⟩ | ⟨rfl, hcounted⟩
    · exfalso
      obtain ⟨V₁, V₂, rfl⟩ := List.append_of_mem hx
      rw [List.append_assoc] at hsplit
      rcases List.append_eq_append_iff.mp hsplit with ⟨w, hw, hrest⟩ | ⟨w, rfl, rfl⟩
      · cases w with
        | nil =>
          rw [List.nil_append] at hrest
          subst hrest
          have hnone : ∀ z ∈ ([] : List Mark), z.char ≠ '"' ∧ z.char ≠ '#' := by simp
          exact not_scanAll_of_stray hnone hstray hts
        | cons z w =>
          obtain ⟨rfl, _⟩ := List.cons.inj hrest
          exact hstray.token (hchars x (by rw [hw]; simp))
      · refine not_scanAll_of_stray (fun z hz => ?_) hstray hts
        have hz := hV z (by simp [hz])
        exact ⟨hz.1, hz.2.1⟩
    · obtain ⟨u, us, hname, hus, hcut⟩ := hcounted.across hn hG hquote hv hsplit hs hts pos
      exact .last hname hus hcut

theorem Ends.meets (h : Ends (m :: X) (n :: N) Y Y') (hn : isLineBreak n.char = true)
    (hs : scan m (X ++ Y') = .ok (t, after)) (hts : scanAll after = .ok ts) :
    Meets (n :: N) m X Y Y' after t ts := by
  have hX : X <:+ m :: X := List.suffix_cons m X
  by_cases hquote : m.char = '"'
  · exact (h.suffix hX).meets_literal hquote hs
  · obtain ⟨word, hsplit, hchars⟩ := scan_chars hs hquote
    have hinside : ∀ X', X = word ++ X' → after = X' ++ Y' → Meets (n :: N) m X Y Y' after t ts := by
      rintro X' rfl rfl
      have hsuffix := List.suffix_append word X'
      rw [List.append_assoc] at hs
      refine .inside hsuffix rfl ?_
      rw [List.append_assoc]
      exact scan_exchange hs (fun h => absurd h hquote) (h.suffix (hsuffix.trans hX)).follows
    rcases List.append_eq_append_iff.mp hsplit with ⟨v, rfl, hY⟩ | ⟨X', hX, hafter⟩
    · by_cases hv : v = []
      · subst hv
        exact hinside [] (by simp) hY.symm
      · rw [hsplit, List.append_assoc] at hs
        exact h.meets_across hn hquote hv hY hs
          (fun x hx => hchars x (List.mem_cons_of_mem m (List.mem_append_right X hx))) hts
    · exact hinside X' hX hafter

end Meets

/-- Where the whole is scanned the beginning is scanned too. -/
theorem scanAll_tail (hn : isLineBreak n.char = true) (h : Ends X (n :: N) Y Y')
    (hvs : scanAll (X ++ Y') = .ok vs) :
    ∃ us, scanAll (X ++ Y) = .ok us ∧ Cutoff (n :: N) us vs := by
  induction hlen : X.length using Nat.strong_induction_on generalizing X vs with
  | _ k ih =>
    subst hlen
    cases X with
    | nil =>
      cases h with
      | here => exact ⟨[], by rw [List.nil_append, scanAll], .nil hvs⟩
      | @operator _ pos V G _ hV hG hends =>
        rcases hends with ⟨x, hx, hstray⟩ | ⟨rfl, hcounted⟩
        · exfalso
          obtain ⟨V₁, V₂, rfl⟩ := List.append_of_mem hx
          rw [List.nil_append, List.append_assoc] at hvs
          refine not_scanAll_of_stray (fun z hz => ?_) hstray hvs
          have hz := hV z (by simp [hz])
          exact ⟨hz.1, hz.2.1⟩
        · exact hcounted.alone hn hG hvs pos
    | cons m X =>
      rw [List.cons_append] at hvs ⊢
      rcases scanAll_cons_eq_ok.mp hvs with ⟨hb, hrest⟩ | ⟨hc, hrest⟩ |
        ⟨hb, hc, t, after, ts, hs, hafter, rfl⟩
      · rw [scanAll_blank hb]
        exact ih _ (Nat.lt_succ_self _) (h.suffix (List.suffix_cons m X)) hrest rfl
      · rw [scanAll_comment hc]
        rw [List.dropWhile_append] at hrest ⊢
        split at hrest
        · -- the comment goes on into the end
          next hnone =>
          obtain ⟨hnil, hsame⟩ := h.comment hn
          rw [if_pos hnone, hnil]
          rw [hsame] at hrest
          exact ⟨[], rfl, .nil hrest⟩
        · next hsome =>
          rw [if_neg hsome]
          have hsuffix := List.dropWhile_suffix (l := X) (!isLineBreak ·.char)
          exact ih _ (Nat.lt_succ_of_le (length_dropWhile_le _ _))
            (h.suffix (hsuffix.trans (List.suffix_cons m X))) hrest rfl
      · cases h.meets hn hs hafter with
        | @inside X' hX hsplit hscan =>
          subst hsplit
          obtain ⟨us, hus, hcut⟩ := ih _ (Nat.lt_succ_of_le hX.length_le)
            (h.suffix (hX.trans (List.suffix_cons m X))) hafter rfl
          refine ⟨t :: us, ?_, hcut.cons t⟩
          rw [scanAll_token hb hc hscan, hus]
          rfl
        | @last u us after' hscan hus hcut =>
          refine ⟨u :: us, ?_, hcut⟩
          rw [scanAll_token hb hc hscan, hus]
          rfl

end Token
end Parlance
