import Parlance.Proofs.Joining.Texts
/-!
# Lexemes

The grammar of a canonical text, stated without the scanner: what a blank, a comment and a token are
(`Lexeme.Formed`), and that of all lexemes that start at a place the longest one is taken
(`Lexeme.Stands`). The scanner divides a text into its lexemes (`divides_of_scanAll`) and gives up
at the first place where none starts (`barren_of_scanAll`).
-/
namespace Parlance
open Text

/-- What stands behind the opening quote of a literal, and the text that it is for. A literal may be
cut off, also behind a backslash. -/
inductive LiteralBody : (cs text : List Char) → Prop
  | closed : LiteralBody ['"'] []
  | cutOff : LiteralBody [] []
  | cutEscape : LiteralBody ['\\'] []
  | escape (c : Char) {cs text : List Char} : LiteralBody cs text →
      LiteralBody ('\\' :: c :: cs) (Token.unescape c :: text)
  | plain {c : Char} {cs text : List Char} : c ≠ '"' → c ≠ '\\' → LiteralBody cs text →
      LiteralBody (c :: cs) (c :: text)

/-- The characters of a token of a given kind and text. -/
inductive Token.Spells : TokenKind → String → List Char → Prop
  | number {cs : List Char} : PlainDecimal cs → Spells .number (String.ofList cs) cs
  | word {c : Char} {cs : List Char} : startsName c = true → (∀ d ∈ cs, continuesName d = true) →
      Spells (wordKind (Keyword.ofWord? (String.ofList (c :: cs)))) (String.ofList (c :: cs))
        (c :: cs)
  | literal {cs text : List Char} : LiteralBody cs text →
      Spells .string (String.ofList text) ('"' :: cs)
  | symbol (s : Symbol) : Spells (.symbol s) s.spelling s.spelling.toList

/-- A part of a canonical text, and the token that it is, if it is one. -/
structure Lexeme where
  marks : List Mark
  token? : Option Token

namespace Lexeme

/-- The marks are those of a blank, of a comment up to a line break, or of a token. -/
inductive Formed : Lexeme → Prop
  | blank {m : Mark} : isBlank m.char = true → Formed ⟨[m], none⟩
  | comment {m : Mark} {line : List Mark} : m.char = '#' →
      (∀ n ∈ line, isLineBreak n.char = false) → Formed ⟨m :: line, none⟩
  | token {m : Mark} {word : List Mark} {kind : TokenKind} {text : String} :
      Token.Spells kind text ((m :: word).map Mark.char) →
      Formed ⟨m :: word, some ⟨kind, text, m.origin⟩⟩

/-- Of all lexemes that start where this one does, in front of `rest`, none is longer. -/
structure Stands (x : Lexeme) (rest : List Mark) : Prop where
  formed : x.Formed
  longest : ∀ y : Lexeme, y.Formed → y.marks <+: x.marks ++ rest → y.marks.length ≤ x.marks.length

end Lexeme

/-- No lexeme starts a text. -/
def Barren (marks : List Mark) : Prop := ∀ y : Lexeme, y.Formed → ¬ y.marks <+: marks

/-- A text consists of lexemes up to `rest`, each the longest one at its place. -/
inductive Divides (rest : List Mark) : (xs : List Lexeme) → (marks : List Mark) → Prop
  | done : Divides rest [] rest
  | next {x : Lexeme} {xs : List Lexeme} {marks : List Mark} : x.Stands marks →
      Divides rest xs marks → Divides rest (x :: xs) (x.marks ++ marks)

/-- The tokens among lexemes. -/
def tokensOf (xs : List Lexeme) : List Token := xs.filterMap Lexeme.token?

/-- The lexemes of a text are its parts in a row. -/
theorem Divides.flatten {rest marks : List Mark} {xs : List Lexeme} (h : Divides rest xs marks) :
    xs.flatMap Lexeme.marks ++ rest = marks := by
  induction h with
  | done => rfl
  | next _ _ ih => rw [List.flatMap_cons, List.append_assoc, ih]

/-! ### Literals and comments -/

/-- Where in a text a character stands, as far as literals and comments are concerned. -/
inductive Place
  | code
  | literal
  /-- behind a backslash in a literal -/
  | escape
  | comment
  deriving DecidableEq

/-- The place behind a character. -/
def Place.next : Place → Char → Place
  | .code, c => if c = '"' then .literal else if c = '#' then .comment else .code
  | .literal, c => if c = '"' then .code else if c = '\\' then .escape else .literal
  | .escape, _ => .literal
  | .comment, c => if isLineBreak c then .code else .comment

/-- The place behind a text. -/
def placeAfter (place : Place) (cs : List Char) : Place := cs.foldl Place.next place

theorem placeAfter_append (place : Place) (xs ys : List Char) :
    placeAfter place (xs ++ ys) = placeAfter (placeAfter place xs) ys := List.foldl_append

theorem placeAfter_plain {c : Char} (hquote : c ≠ '"') (hslash : c ≠ '\\') (cs : List Char) :
    placeAfter .literal (c :: cs) = placeAfter .literal cs := by
  have hstep : placeAfter .literal (c :: cs) = placeAfter (Place.next .literal c) cs := rfl
  simp only [hstep, Place.next, if_neg hquote, if_neg hslash]

/-! ### First characters -/

theorem Symbol.chars_cases (s : Symbol) :
    (∃ a b, s.spelling.toList = [a, b] ∧ double? a b = some s) ∨
      ∃ a, s.spelling.toList = [a] ∧ single? a = some s := by
  cases s <;> first | exact .inr ⟨_, rfl, rfl⟩ | exact .inl ⟨_, _, rfl, rfl⟩

namespace Token

theorem Spells.ne_nil {kind : TokenKind} {text : String} {cs : List Char}
    (h : Spells kind text cs) : cs ≠ [] := by
  cases h with
  | number h =>
    obtain ⟨d, ds, rfl, _⟩ := h.head
    exact List.cons_ne_nil _ _
  | word _ _ => exact List.cons_ne_nil _ _
  | literal _ => exact List.cons_ne_nil _ _
  | symbol s => cases s <;> decide

theorem isAlphanum_or_of_startsName {c : Char} (h : startsName c = true) :
    c = '_' ∨ c.isAlphanum = true := by
  simp only [startsName, Bool.or_eq_true, beq_iff_eq] at h
  exact h.imp_right fun halpha => by simp [Char.isAlphanum, halpha]

theorem not_isDigit_of_startsName {c : Char} (h : startsName c = true) : c.isDigit = false := by
  rcases isAlphanum_or_of_startsName h with rfl | hc
  · decide
  · exact forall_ascii (P := fun c => startsName c = true → c.isDigit = false) (by decide)
      (lt_of_isAlphanum hc) h

/-- The first character of a symbol starts nothing else. -/
theorem symbol_head {s : Symbol} {c : Char} {cs : List Char} (h : s.spelling.toList = c :: cs) :
    c.isDigit = false ∧ startsName c = false ∧ c ≠ '"' := by
  cases s <;> cases h <;> decide

/-- No token starts with a blank or a number sign. -/
theorem Spells.head {kind : TokenKind} {text : String} {c : Char} {cs : List Char}
    (h : Spells kind text (c :: cs)) : isBlank c = false ∧ c ≠ '#' := by
  have halnum : ∀ {c : Char}, c.isAlphanum = true → isBlank c = false ∧ c ≠ '#' := by
    intro c hc
    refine ⟨not_isBlank_of_isAlphanum hc, ?_⟩
    rintro rfl
    cases hc
  generalize hcs : c :: cs = ds at h
  cases h with
  | number h =>
    obtain ⟨d, ds, hds, hd⟩ := h.head
    cases hcs.trans hds
    exact halnum (by simp [Char.isAlphanum, hd])
  | word hstart _ =>
    cases hcs
    rcases isAlphanum_or_of_startsName hstart with rfl | hc
    · decide
    · exact halnum hc
  | literal _ =>
    cases hcs
    decide
  | symbol s => cases s <;> cases hcs <;> decide

end Token

theorem Lexeme.Formed.ne_nil {x : Lexeme} (h : x.Formed) : x.marks ≠ [] := by
  cases h <;> exact List.cons_ne_nil _ _

/-- A lexeme at a place where no blank and no comment starts is a token. -/
theorem Lexeme.Formed.spells {y : Lexeme} (hy : y.Formed) {m : Mark} {rest : List Mark}
    (hb : isBlank m.char = false) (hc : m.char ≠ '#') (hpre : y.marks <+: m :: rest) :
    ∃ kind text, Token.Spells kind text (y.marks.map Mark.char) := by
  cases hy with
  | blank hblank =>
    rw [(List.cons_prefix_cons.mp hpre).1, hb] at hblank
    cases hblank
  | comment hsign _ => exact absurd ((List.cons_prefix_cons.mp hpre).1 ▸ hsign) hc
  | token hspells => exact ⟨_, _, hspells⟩

/-! ### The scanner takes the longest token -/

namespace Token

section Longest

variable {p : Char → Bool} {marks after rest : List Mark} {m : Mark} {t : Token} {cs : List Char}

theorem length_le_dropWhile (hcs : ∀ c ∈ cs, p c = true) (hpre : cs <+: marks.map Mark.char) :
    cs.length + (marks.dropWhile (p ·.char)).length ≤ marks.length := by
  obtain ⟨tail, htail⟩ := hpre
  obtain ⟨word, others, rfl, rfl, _⟩ := List.map_eq_append_iff.mp htail.symm
  have hword : ∀ n ∈ word, p n.char = true := fun n hn => hcs _ (List.mem_map_of_mem hn)
  have hothers := length_dropWhile_le (fun n : Mark => p n.char) others
  rw [List.dropWhile_append_of_pos hword, List.length_map, List.length_append]
  omega

theorem decimal_longest (h : PlainDecimal cs) (hpre : cs <+: marks.map Mark.char) :
    cs.length + (scanFraction (marks.dropWhile (·.char.isDigit))).2.length ≤ marks.length := by
  cases h with
  | whole _ hdigits =>
    have hlength := length_le_dropWhile hdigits hpre
    have hfraction := scanFraction_length (marks.dropWhile (·.char.isDigit))
    omega
  | @point ds fs _ hdigits hne hfraction =>
    obtain ⟨tail, htail⟩ := hpre
    obtain ⟨f, fs, rfl⟩ := List.exists_cons_of_ne_nil hne
    rw [List.append_assoc] at htail
    obtain ⟨digits, others, rfl, rfl, hothers⟩ := List.map_eq_append_iff.mp htail.symm
    rw [List.cons_append, List.cons_append] at hothers
    obtain ⟨point, others, rfl, hpoint, hothers⟩ := List.map_eq_cons_iff.mp hothers
    obtain ⟨first, others, rfl, rfl, hothers⟩ := List.map_eq_cons_iff.mp hothers
    have hds : ∀ n ∈ digits, n.char.isDigit = true :=
      fun n hn => hdigits _ (List.mem_map_of_mem hn)
    have hstop : ∀ n ∈ (point :: first :: others).head?, n.char.isDigit = false := by
      rintro _ ⟨⟩
      rw [hpoint]
      decide
    have hsecond : point.char = '.' ∧ first.char.isDigit :=
      ⟨hpoint, hfraction _ List.mem_cons_self⟩
    have hrest : fs.length + (others.dropWhile (·.char.isDigit)).length ≤ others.length :=
      length_le_dropWhile (fun c hc => hfraction c (List.mem_cons_of_mem _ hc))
        ⟨tail, (List.cons.inj hothers).2.symm⟩
    rw [(takeWhile_append_stop hds hstop).2, scanFraction, if_pos hsecond]
    simp only [List.length_append, List.length_cons, List.length_map]
    omega

theorem literal_longest {text : List Char} (h : LiteralBody cs text)
    (hpre : cs <+: marks.map Mark.char) :
    cs.length + (scanLiteral marks).2.length ≤ marks.length := by
  induction h generalizing marks with
  | closed =>
    cases marks with
    | nil => cases List.prefix_nil.mp hpre
    | cons n marks =>
      have hn : n.char = '"' := (List.cons_prefix_cons.mp hpre).1.symm
      rw [scanLiteral.eq_def]
      simp only [if_pos hn, List.length_cons, List.length_nil]
      omega
  | cutOff =>
    rw [List.length_nil, Nat.zero_add]
    exact scanLiteral_length marks
  | cutEscape =>
    cases marks with
    | nil => cases List.prefix_nil.mp hpre
    | cons n marks =>
      have hn : n.char = '\\' := (List.cons_prefix_cons.mp hpre).1.symm
      have hquote : n.char ≠ '"' := by
        rw [hn]
        decide
      cases marks with
      | nil =>
        rw [scanLiteral, if_neg hquote, if_pos hn]
        simp
      | cons e marks =>
        have hlength := scanLiteral_length marks
        simp only [scanLiteral, if_neg hquote, if_pos hn, List.length_cons, List.length_nil]
        omega
  | escape c _ ih =>
    cases marks with
    | nil => cases List.prefix_nil.mp hpre
    | cons n marks =>
      obtain ⟨hslash, hpre⟩ := List.cons_prefix_cons.mp hpre
      cases marks with
      | nil => cases List.prefix_nil.mp hpre
      | cons e marks =>
        have hquote : n.char ≠ '"' := by
          rw [← hslash]
          decide
        have hlength := ih (List.cons_prefix_cons.mp hpre).2
        simp only [scanLiteral, if_neg hquote, if_pos hslash.symm, List.length_cons]
        omega
  | plain hquote hslash _ ih =>
    cases marks with
    | nil => cases List.prefix_nil.mp hpre
    | cons n marks =>
      obtain ⟨rfl, htail⟩ := List.cons_prefix_cons.mp hpre
      have hlength := ih htail
      rw [scanLiteral.eq_def]
      simp only [if_neg hquote, if_neg hslash, List.length_cons]
      omega

theorem symbol_longest {s s' : Symbol} (hs : scanSymbol? m rest = some (s, after))
    (hpre : s'.spelling.toList <+: (m :: rest).map Mark.char) :
    s'.spelling.toList.length + after.length ≤ rest.length + 1 := by
  have hlength := scanSymbol?_length hs
  rcases s'.chars_cases with ⟨a, b, hspelling, hdouble⟩ | ⟨a, hspelling, _⟩
  · rw [hspelling] at hpre ⊢
    obtain ⟨rfl, htail⟩ := List.cons_prefix_cons.mp hpre
    cases rest with
    | nil => cases List.prefix_nil.mp htail
    | cons n rest =>
      obtain ⟨rfl, _⟩ := List.cons_prefix_cons.mp htail
      simp only [scanSymbol?, List.head?_cons, Option.bind_some, hdouble, Option.some.injEq,
        Prod.mk.injEq, List.tail_cons] at hs
      rw [← hs.2]
      simp only [List.length_cons, List.length_nil]
      omega
  · rw [hspelling, List.length_singleton]
    omega

/-- A fraction is nothing, or a point and at least one digit. -/
theorem scanFraction_cases (marks : List Mark) : (scanFraction marks).1 = [] ∨
    ∃ point fs, (scanFraction marks).1 = point :: fs ∧ point.char = '.' ∧ fs ≠ [] ∧
      ∀ n ∈ fs, n.char.isDigit = true := by
  unfold scanFraction
  split
  · split
    · next p d rest hpoint =>
      refine .inr ⟨p, _, rfl, hpoint.1, List.cons_ne_nil _ _, fun n hn => ?_⟩
      rcases List.mem_cons.mp hn with rfl | hn
      · exact hpoint.2
      · exact List.mem_takeWhile_imp (p := fun n : Mark => n.char.isDigit) hn
    · exact .inl rfl
  · exact .inl rfl

theorem scanLiteral_body (marks : List Mark) : ∃ word, marks = word ++ (scanLiteral marks).2 ∧
    LiteralBody (word.map Mark.char) (scanLiteral marks).1 := by
  fun_induction scanLiteral marks with
  | case1 => exact ⟨[], rfl, .cutOff⟩
  | case2 m rest hm =>
    refine ⟨[m], rfl, ?_⟩
    rw [List.map_singleton, hm]
    exact .closed
  | case3 m hm hslash =>
    refine ⟨[m], rfl, ?_⟩
    rw [List.map_singleton, hslash]
    exact .cutEscape
  | case4 m hm hslash e rest text after h ih =>
    rw [h] at ih
    obtain ⟨word, hword, hbody⟩ := ih
    refine ⟨m :: e :: word, by rw [hword]; rfl, ?_⟩
    rw [List.map_cons, List.map_cons, hslash]
    exact .escape e.char hbody
  | case5 m rest hm hslash text after h ih =>
    rw [h] at ih
    obtain ⟨word, hword, hbody⟩ := ih
    exact ⟨m :: word, by rw [hword]; rfl, .plain hm hslash hbody⟩

end Longest

/-- A token is spelled by the part of the text that its scan takes. -/
theorem scan_spells {m : Mark} {rest after : List Mark} {t : Token}
    (h : scan m rest = .ok (t, after)) :
    ∃ word, rest = word ++ after ∧ Spells t.kind t.text ((m :: word).map Mark.char) := by
  cases scan_eq_ok.mp h with
  | number hdigit hafter =>
    have hsplit := scanFraction_split (rest.dropWhile (·.char.isDigit))
    rw [hafter] at hsplit
    refine ⟨rest.takeWhile (·.char.isDigit) ++ (scanFraction (rest.dropWhile (·.char.isDigit))).1,
      ?_, .number ?_⟩
    · rw [List.append_assoc, hsplit, List.takeWhile_append_dropWhile]
    · have hdigits : ∀ c ∈ (m :: rest.takeWhile (·.char.isDigit)).map Mark.char,
          c.isDigit = true := by
        intro c hc
        obtain ⟨n, hn, rfl⟩ := List.mem_map.mp hc
        rcases List.mem_cons.mp hn with rfl | hn
        · exact hdigit
        · exact List.mem_takeWhile_imp (p := fun n : Mark => n.char.isDigit) hn
      rw [List.map_append]
      rcases scanFraction_cases (rest.dropWhile (·.char.isDigit)) with hnil |
        ⟨point, fs, hfraction, hpoint, hne, hfs⟩
      · rw [hnil, List.map_nil, List.append_nil]
        exact .whole (by simp) hdigits
      · have hchars : (point :: fs).map Mark.char = '.' :: fs.map Mark.char := by simp [hpoint]
        rw [hfraction, hchars]
        exact .point (by simp) hdigits (by simpa using hne) (by simpa using hfs)
  | word _ hstart hfound hafter =>
    refine ⟨rest.takeWhile (continuesName ·.char), ?_, ?_⟩
    · rw [← hafter, List.takeWhile_append_dropWhile]
    · subst hfound
      have hcontinues : ∀ d ∈ (rest.takeWhile (continuesName ·.char)).map Mark.char,
          continuesName d = true := by
        intro d hd
        obtain ⟨n, hn, rfl⟩ := List.mem_map.mp hd
        exact List.mem_takeWhile_imp (p := fun n : Mark => continuesName n.char) hn
      have htext : textOf (m :: rest.takeWhile (continuesName ·.char))
          = String.ofList (m.char :: (rest.takeWhile (continuesName ·.char)).map Mark.char) := rfl
      simp only [htext, List.map_cons]
      exact .word hstart hcontinues
  | literal hquote hafter =>
    obtain ⟨word, hword, hbody⟩ := scanLiteral_body rest
    rw [hafter] at hword
    refine ⟨word, hword, ?_⟩
    rw [List.map_cons, hquote]
    exact .literal hbody
  | @symbol s _ _ _ hsymbol =>
    obtain ⟨word, rfl⟩ := scanSymbol?_part hsymbol
    have hspelled : s.spelling.toList = (m :: word).map Mark.char := by
      rcases scanSymbol?_split hsymbol with ⟨rfl, _, hsingle⟩ | ⟨n, rfl, hdouble⟩
      · exact Symbol.spelling_of_single? hsingle
      · exact Symbol.spelling_of_double? hdouble
    refine ⟨word, rfl, ?_⟩
    rw [← hspelled]
    exact .symbol s

theorem head_of_prefix {m : Mark} {rest : List Mark} {cs : List Char}
    (h : cs <+: (m :: rest).map Mark.char) {c : Char} {ds : List Char} (hcs : cs = c :: ds) :
    m.char = c := by
  subst hcs
  exact (List.cons_prefix_cons.mp h).1.symm

/-- No spelling of a token reaches further than the token that a scan takes. -/
theorem scan_longest {m : Mark} {rest after : List Mark} {t : Token}
    (h : scan m rest = .ok (t, after)) {kind : TokenKind} {text : String} {cs : List Char}
    (hcs : Spells kind text cs) (hpre : cs <+: (m :: rest).map Mark.char) :
    cs.length + after.length ≤ rest.length + 1 := by
  have hhead : ∀ {c : Char} {ds : List Char}, cs = c :: ds → m.char = c := head_of_prefix hpre
  cases hcs with
  | number hdecimal =>
    obtain ⟨d, ds, hds, hd⟩ := hdecimal.head
    obtain rfl := hhead hds
    have hlength := decimal_longest hdecimal hpre
    rw [List.dropWhile_cons, if_pos hd] at hlength
    cases scan_eq_ok.mp h with
    | number _ hafter =>
      rw [← hafter]
      exact hlength
    | word hdigit _ _ _ => exact absurd hd hdigit
    | literal hquote _ =>
      rw [hquote] at hd
      cases hd
    | symbol hdigit _ _ _ => exact absurd hd hdigit
  | @word c cs hstart hword =>
    obtain rfl := hhead rfl
    have hcontinues : ∀ d ∈ m.char :: cs, continuesName d = true :=
      List.forall_mem_cons.mpr ⟨continuesName_of_startsName hstart, hword⟩
    have hlength := length_le_dropWhile hcontinues hpre
    rw [List.dropWhile_cons, if_pos (hcontinues _ List.mem_cons_self)] at hlength
    cases scan_eq_ok.mp h with
    | number hdigit _ => exact absurd hdigit (by simp [not_isDigit_of_startsName hstart])
    | word _ _ _ hafter =>
      rw [← hafter]
      exact hlength
    | literal hquote _ =>
      rw [hquote] at hstart
      cases hstart
    | symbol _ hnot _ _ => exact absurd hstart hnot
  | literal hbody =>
    have hquote := hhead rfl
    rw [scan_quote hquote] at h
    cases h
    have hlength := literal_longest hbody (List.cons_prefix_cons.mp hpre).2
    rw [List.length_cons]
    omega
  | symbol s' =>
    obtain ⟨c, ds, hds⟩ := List.exists_cons_of_ne_nil (Spells.symbol s').ne_nil
    obtain rfl := hhead hds
    obtain ⟨hdigit, hstart, hquote⟩ := symbol_head hds
    cases scan_eq_ok.mp h with
    | number hdigit' _ => exact absurd hdigit' (by simp [hdigit])
    | word _ hstart' _ _ => exact absurd hstart' (by simp [hstart])
    | literal hquote' _ => exact absurd hquote' hquote
    | symbol _ _ _ hsymbol => exact symbol_longest hsymbol hpre

/-- Where a scan is refused no token is spelled. -/
theorem scan_refused {m : Mark} {rest : List Mark} {fault : LexFault × Nat}
    (h : scan m rest = .error fault) : fault = (refusal m.char, m.origin) ∧
    ∀ {kind : TokenKind} {text : String} {cs : List Char}, Spells kind text cs →
      ¬ cs <+: (m :: rest).map Mark.char := by
  unfold scan at h
  split at h
  · cases h
  · next hdigit =>
    split at h
    · cases h
    · next hstart =>
      split at h
      · cases h
      · next hquote =>
        split at h
        · cases h
        · next hsymbol =>
          cases h
          refine ⟨rfl, fun {kind text cs} hcs hpre => ?_⟩
          have hhead : ∀ {c : Char} {ds : List Char}, cs = c :: ds → m.char = c :=
            head_of_prefix hpre
          cases hcs with
          | number hdecimal =>
            obtain ⟨d, ds, hds, hd⟩ := hdecimal.head
            obtain rfl := hhead hds
            exact hdigit hd
          | word hword _ =>
            obtain rfl := hhead rfl
            exact hstart hword
          | literal _ => exact hquote (hhead rfl)
          | symbol s =>
            rcases s.chars_cases with ⟨a, b, hspelling, hdouble⟩ | ⟨a, hspelling, hsingle⟩
            · rw [hspelling] at hpre
              obtain ⟨rfl, htail⟩ := List.cons_prefix_cons.mp hpre
              cases rest with
              | nil => cases List.prefix_nil.mp htail
              | cons n rest =>
                obtain ⟨rfl, _⟩ := List.cons_prefix_cons.mp htail
                simp [scanSymbol?, hdouble] at hsymbol
            · obtain rfl := hhead hspelling
              unfold scanSymbol? at hsymbol
              split at hsymbol
              · cases hsymbol
              · rw [hsingle] at hsymbol
                cases hsymbol

end Token

/-! ### The scanner divides a text -/

section Division

variable {m : Mark} {rest : List Mark}

/-- The lexemes that start with a blank, and those that start with a number sign. -/
theorem Lexeme.Formed.cases_of_prefix {y : Lexeme} (hy : y.Formed) (hpre : y.marks <+: m :: rest) :
    (isBlank m.char = true → y.marks = [m]) ∧
      (m.char = '#' → ∃ line, y.marks = m :: line ∧ ∀ n ∈ line, isLineBreak n.char = false) := by
  cases hy with
  | blank hb =>
    obtain rfl := (List.cons_prefix_cons.mp hpre).1
    refine ⟨fun _ => rfl, fun hsign => ?_⟩
    rw [hsign] at hb
    cases hb
  | comment hsign hline =>
    obtain rfl := (List.cons_prefix_cons.mp hpre).1
    refine ⟨fun hb => ?_, fun _ => ⟨_, rfl, hline⟩⟩
    rw [hsign] at hb
    cases hb
  | token hspells =>
    obtain rfl := (List.cons_prefix_cons.mp hpre).1
    have hhead := hspells.head
    exact ⟨fun hb => absurd hb (by simp [hhead.1]), fun hsign => absurd hsign hhead.2⟩

theorem stands_blank (hb : isBlank m.char = true) : (Lexeme.mk [m] none).Stands rest := by
  refine ⟨.blank hb, fun y hy hpre => ?_⟩
  rw [(hy.cases_of_prefix hpre).1 hb]

theorem stands_comment (hsign : m.char = '#') :
    (Lexeme.mk (m :: rest.takeWhile (!isLineBreak ·.char)) none).Stands
      (rest.dropWhile (!isLineBreak ·.char)) := by
  refine ⟨.comment hsign fun n hn => ?_, fun y hy hpre => ?_⟩
  · simpa using List.mem_takeWhile_imp (p := fun n : Mark => !isLineBreak n.char) hn
  · have hsplit := List.takeWhile_append_dropWhile (p := (!isLineBreak ·.char)) (l := rest)
    rw [List.cons_append, hsplit] at hpre
    obtain ⟨line, hline, hbreaks⟩ := (hy.cases_of_prefix hpre).2 hsign
    rw [hline] at hpre ⊢
    have hchars : line.map Mark.char <+: rest.map Mark.char :=
      (List.cons_prefix_cons.mp hpre).2.map Mark.char
    have hlength := Token.length_le_dropWhile (p := fun c => !isLineBreak c)
      (fun c hc => by
        obtain ⟨n, hn, rfl⟩ := List.mem_map.mp hc
        simp [hbreaks n hn]) hchars
    have htotal := congrArg List.length hsplit
    rw [List.length_append] at htotal
    rw [List.length_map] at hlength
    simp only [List.length_cons]
    omega

theorem stands_token {after : List Mark} {t : Token} (hb : isBlank m.char = false)
    (hc : m.char ≠ '#') (h : Token.scan m rest = .ok (t, after)) :
    ∃ word, rest = word ++ after ∧ (Lexeme.mk (m :: word) (some t)).Stands after := by
  obtain ⟨word, hword, hspells⟩ := Token.scan_spells h
  have horigin : t.offset = m.origin := by
    cases Token.scan_eq_ok.mp h <;> rfl
  refine ⟨word, hword, ?_, fun y hy hpre => ?_⟩
  · have hformed := Lexeme.Formed.token hspells
    rwa [← horigin] at hformed
  · rw [List.cons_append, ← hword] at hpre
    obtain ⟨kind, text, hy⟩ := hy.spells hb hc hpre
    have hlength := Token.scan_longest h hy (hpre.map Mark.char)
    have htotal := congrArg List.length hword
    rw [List.length_map] at hlength
    rw [List.length_append] at htotal
    simp only [List.length_cons]
    omega

/-- The tokens of a text are those of the lexemes that it consists of. -/
theorem divides_of_scanAll {marks : List Mark} {ts : List Token}
    (h : Token.scanAll marks = .ok ts) : ∃ xs, Divides [] xs marks ∧ ts = tokensOf xs := by
  induction h using Token.scanAll_induction with
  | done => exact ⟨[], .done, rfl⟩
  | blank m rest ts _ _ hb ih =>
    obtain ⟨xs, hxs, rfl⟩ := ih
    exact ⟨_, .next (stands_blank hb) hxs, rfl⟩
  | comment m rest ts _ _ hc ih =>
    obtain ⟨xs, hxs, rfl⟩ := ih
    have hdivides := Divides.next (stands_comment hc) hxs
    rw [List.cons_append, List.takeWhile_append_dropWhile] at hdivides
    exact ⟨_, hdivides, rfl⟩
  | token m rest t after us _ _ hb hc hs ih =>
    obtain ⟨word, rfl, hstands⟩ := stands_token hb hc hs
    obtain ⟨xs, hxs, rfl⟩ := ih
    exact ⟨_, .next hstands hxs, rfl⟩

/-- A text is given up at the first place behind a row of lexemes where no lexeme starts. -/
theorem barren_of_scanAll {marks : List Mark} {fault : LexFault × Nat}
    (h : Token.scanAll marks = .error fault) :
    ∃ xs m rest, Divides (m :: rest) xs marks ∧ Barren (m :: rest) ∧
      fault = (Token.refusal m.char, m.origin) := by
  induction hn : marks.length using Nat.strong_induction_on generalizing marks with
  | _ n ih =>
    subst hn
    cases marks with
    | nil =>
      rw [Token.scanAll] at h
      cases h
    | cons m rest =>
      cases hb : isBlank m.char with
      | true =>
        rw [Token.scanAll_blank hb] at h
        obtain ⟨xs, n, after, hxs, hbarren, hfault⟩ := ih _ (Nat.lt_succ_self _) h rfl
        exact ⟨_, n, after, .next (stands_blank hb) hxs, hbarren, hfault⟩
      | false =>
        by_cases hc : m.char = '#'
        · rw [Token.scanAll_comment hc] at h
          obtain ⟨xs, n, after, hxs, hbarren, hfault⟩ :=
            ih _ (Nat.lt_succ_of_le (Token.length_dropWhile_le _ _)) h rfl
          have hdivides := Divides.next (stands_comment hc) hxs
          rw [List.cons_append, List.takeWhile_append_dropWhile] at hdivides
          exact ⟨_, n, after, hdivides, hbarren, hfault⟩
        · cases hs : Token.scan m rest with
          | error refused =>
            rw [Token.scanAll_fault hb hc hs] at h
            cases h
            obtain ⟨rfl, hnone⟩ := Token.scan_refused hs
            refine ⟨[], m, rest, .done, fun y hy hpre => ?_, rfl⟩
            obtain ⟨kind, text, hspells⟩ := hy.spells hb hc hpre
            exact hnone hspells (hpre.map Mark.char)
          | ok found =>
            obtain ⟨t, after⟩ := found
            rw [Token.scanAll_token hb hc hs] at h
            cases hafter : Token.scanAll after with
            | ok us =>
              rw [hafter] at h
              cases h
            | error later =>
              rw [hafter] at h
              cases h
              obtain ⟨word, rfl, hstands⟩ := stands_token hb hc hs
              obtain ⟨xs, n, others, hxs, hbarren, hfault⟩ :=
                ih _ (Nat.lt_succ_of_le (Token.scan_length hs)) hafter rfl
              exact ⟨_, n, others, .next hstands hxs, hbarren, hfault⟩

end Division
end Parlance
