import Parlance.Canonical
import Parlance.Proofs.Grammar.Neighbours
import Parlance.Proofs.Reading.Written
/-!
# The canonical text of written tokens

The characters of a canonical text do not depend on where the source starts. Pieces in a row become
pieces with the same blanks between them, in which no phrase is left (`canonicalChars_join`): each
phrase becomes its symbol, and so does the word before a counted block if what stands between it and
the colon is not space that the normalizer passes over.
-/
namespace Parlance
open Text Grammar

/-- The characters of a canonical text. -/
def canonicalChars (zone : Zone) (before : Option Char) (cs : List Char) : List Char :=
  (canonicalFrom zone before 0 cs).map Mark.char

theorem Symbol.chars_marks (s : Symbol) (pos : Nat) :
    (s.marks pos).map Mark.char = s.spelling.toList := by
  simp [Symbol.marks, Function.comp_def]

theorem chars_canonicalFrom (zone : Zone) (before : Option Char) (pos pos' : Nat)
    (cs : List Char) : (canonicalFrom zone before pos cs).map Mark.char
      = (canonicalFrom zone before pos' cs).map Mark.char := by
  induction cs generalizing zone before pos pos' with
  | nil => rfl
  | cons c cs ih =>
    have hnext (zone : Zone) := ih zone (some c) (pos + 1) (pos' + 1)
    unfold canonicalFrom
    split
    · rw [List.map_cons, List.map_cons, hnext]
    · rw [List.map_cons, List.map_cons, hnext]
    · rw [hnext]
    · split
      · rw [List.map_cons, List.map_cons, hnext]
      · split
        · rw [List.map_append, List.map_append, Symbol.chars_marks, Symbol.chars_marks, hnext]
        · rw [List.map_cons, List.map_cons, hnext]

section Steps

variable {before : Option Char} {c : Char} {cs : List Char}

theorem canonicalChars_literal : canonicalChars .literal before (c :: cs)
    = c :: canonicalChars (if c = '"' then .code else if c = '\\' then .escape else .literal)
        (some c) cs := by
  unfold canonicalChars
  rw [canonicalFrom, List.map_cons, chars_canonicalFrom _ _ _ 0]

theorem canonicalChars_escape : canonicalChars .escape before (c :: cs)
    = c :: canonicalChars .literal (some c) cs := by
  unfold canonicalChars
  rw [canonicalFrom, List.map_cons, chars_canonicalFrom _ _ _ 0]

theorem canonicalChars_quote : canonicalChars .code before ('"' :: cs)
    = '"' :: canonicalChars .literal (some '"') cs := by
  unfold canonicalChars
  simp only [canonicalFrom, if_true, List.map_cons, chars_canonicalFrom _ _ (0 + 1) 0]

theorem canonicalChars_keep (hc : c ≠ '"') (h : Phrase.at? before (c :: cs) = none) :
    canonicalChars .code before (c :: cs) = c :: canonicalChars .code (some c) cs := by
  unfold canonicalChars
  simp only [canonicalFrom, if_neg hc, h, List.map_cons, chars_canonicalFrom _ _ (0 + 1) 0]

theorem canonicalChars_at {p : Phrase} (hc : c ≠ '"')
    (h : Phrase.at? before (c :: cs) = some p) : canonicalChars .code before (c :: cs)
      = p.symbol.spelling.toList ++ canonicalChars (.phrase (p.length - 1)) (some c) cs := by
  unfold canonicalChars
  simp only [canonicalFrom, if_neg hc, h, List.map_append, Symbol.chars_marks,
    chars_canonicalFrom _ _ (0 + 1) 0]

theorem canonicalChars_skip {n : Nat} : canonicalChars (.phrase (n + 1)) before (c :: cs)
    = canonicalChars (.phrase n) (some c) cs := by
  unfold canonicalChars
  rw [canonicalFrom, chars_canonicalFrom _ _ _ 0]

theorem canonicalChars_skipped : canonicalChars (.phrase 0) before cs
    = canonicalChars .code before cs := by
  cases cs <;> rfl

end Steps

/-! ### Runs of characters -/

section Runs

variable {before : Option Char} {rest : List Char}

/-- Characters with which no phrase starts stay. -/
theorem canonicalChars_bland {cs : List Char}
    (h : ∀ c ∈ cs, isBland c = true ∧ c ≠ '"') : canonicalChars .code before (cs ++ rest)
      = cs ++ canonicalChars .code (cs.getLast?.or before) rest := by
  induction cs generalizing before with
  | nil => rfl
  | cons c cs ih =>
    rw [List.forall_mem_cons] at h
    have hnone : Phrase.at? before (c :: (cs ++ rest)) = none :=
      Phrase.at?_eq_none_of_isBland h.1.1
    have hlast : (c :: cs).getLast?.or before = cs.getLast?.or (some c) := by
      rw [List.getLast?_cons]
      cases cs.getLast? <;> rfl
    rw [List.cons_append, canonicalChars_keep h.1.2 hnone, ih h.2, hlast, List.cons_append]

theorem canonicalChars_blanks {gap : List Char} (h : ∀ c ∈ gap, isBlank c = true) :
    canonicalChars .code before (gap ++ rest)
      = gap ++ canonicalChars .code (gap.getLast?.or before) rest := by
  refine canonicalChars_bland fun c hc => ⟨isBland_of_isBlank (h c hc), ?_⟩
  rintro rfl
  cases h _ hc

/-- In front of `rest` a text becomes `out`. -/
def Becomes (before : Option Char) (cs out rest : List Char) : Prop :=
  ∃ last, canonicalChars .code before (cs ++ rest) = out ++ canonicalChars .code last rest

theorem becomes_cons {c : Char} {cs out : List Char} (hc : c ≠ '"')
    (h : Phrase.at? before (c :: (cs ++ rest)) = none) (hcs : Becomes (some c) cs out rest) :
    Becomes before (c :: cs) (c :: out) rest := by
  obtain ⟨last, hlast⟩ := hcs
  refine ⟨last, ?_⟩
  rw [List.cons_append, canonicalChars_keep hc h, hlast, List.cons_append]

theorem ne_quote_of_isAlphanum {c : Char} (h : c.isAlphanum = true) : c ≠ '"' := by
  rintro rfl
  cases h

/-- The rest of a word stays. -/
theorem becomes_joined {c : Char} (hc : joinsWord c = true) {w : List Char}
    (hw : ∀ c ∈ w, c.isAlphanum = true) : Becomes (some c) w w rest := by
  induction w generalizing c with
  | nil => exact ⟨some c, rfl⟩
  | cons d w ih =>
    rw [List.forall_mem_cons] at hw
    exact becomes_cons (ne_quote_of_isAlphanum hw.1) (Phrase.at?_eq_none_of_joinsWord hc)
      (ih (joinsWord_of_isAlphanum hw.1) hw.2)

/-- A word at which there is no phrase stays. -/
theorem becomes_word {w : List Char} (hw : ∀ c ∈ w, c.isAlphanum = true)
    (h : Phrase.at? before (w ++ rest) = none) : Becomes before w w rest := by
  cases w with
  | nil => exact ⟨before, rfl⟩
  | cons c w =>
    rw [List.forall_mem_cons] at hw
    exact becomes_cons (ne_quote_of_isAlphanum hw.1) h
      (becomes_joined (joinsWord_of_isAlphanum hw.1) hw.2)

theorem canonicalChars_passed (before : Option Char) (cs rest : List Char) : ∃ last,
    canonicalChars (.phrase cs.length) before (cs ++ rest) = canonicalChars .code last rest := by
  induction cs generalizing before with
  | nil => exact ⟨before, canonicalChars_skipped⟩
  | cons c cs ih =>
    obtain ⟨last, hlast⟩ := ih (some c)
    refine ⟨last, ?_⟩
    rw [List.length_cons, List.cons_append, canonicalChars_skip, hlast]

/-- A phrase becomes its symbol. -/
theorem becomes_phrase {p : Phrase} (hp : p ∈ Phrase.all) {cs : List Char}
    (hcs : cs.map Char.toLower = p.words.toList) (h : Phrase.at? before (cs ++ rest) = some p) :
    Becomes before cs p.symbol.spelling.toList rest := by
  have hlen := Phrase.length_of_words hcs
  cases cs with
  | nil =>
    have hpos : ∀ p ∈ Phrase.all, p.length ≠ 0 := by decide
    exact absurd hlen.symm (hpos p hp)
  | cons c cs =>
    have hc : c ≠ '"' := by
      rintro rfl
      have hmem : '"' ∈ p.words.toList := by simp [← hcs]
      rcases Phrase.words_isLower hp hmem with h | h <;> cases h
    obtain ⟨last, hlast⟩ := canonicalChars_passed (some c) cs rest
    refine ⟨last, ?_⟩
    rw [List.cons_append] at h
    rw [List.cons_append, canonicalChars_at hc h, ← hlen, List.length_cons, Nat.add_sub_cancel,
      hlast]

/-- A literal stays as it is. -/
theorem canonicalChars_protected (before : Option Char) (cs rest : List Char) :
    canonicalChars .literal before (cs.flatMap protect ++ '"' :: rest)
      = cs.flatMap protect ++ '"' :: canonicalChars .code (some '"') rest := by
  induction cs generalizing before with
  | nil =>
    rw [List.flatMap_nil, List.nil_append, canonicalChars_literal, if_pos rfl]
    rfl
  | cons c cs ih =>
    rw [List.flatMap_cons, List.append_assoc]
    by_cases hc : c = '"' ∨ c = '\\'
    · have hprotect : protect c = ['\\', c] := if_pos hc
      have hstep := ih (some c)
      rw [hprotect, List.cons_append, canonicalChars_literal, if_neg (by decide), if_pos rfl,
        List.cons_append, canonicalChars_escape, List.nil_append, hstep]
      rfl
    · have hprotect : protect c = [c] := if_neg hc
      have hstep := ih (some c)
      rw [not_or] at hc
      rw [hprotect, List.singleton_append, canonicalChars_literal, if_neg hc.1, if_neg hc.2, hstep]
      rfl

theorem becomes_literal (cs : List Char) : Becomes before (literal cs) (literal cs) rest := by
  refine ⟨some '"', ?_⟩
  unfold literal
  rw [List.cons_append, canonicalChars_quote, List.append_assoc, List.singleton_append,
    canonicalChars_protected]
  simp

end Runs

/-! ### What follows a phrase -/

theorem Phrase.colonNext_gap {gap rest : List Char} (h : ∀ c ∈ gap, isBlank c = true) :
    colonNext (gap ++ rest) = (gap.all isGap && colonNext rest) := by
  induction gap with
  | nil => rfl
  | cons b gap ih =>
    rw [List.forall_mem_cons] at h
    unfold colonNext at ih ⊢
    rw [List.cons_append, List.dropWhile_cons, List.all_cons]
    cases hb : isGap b with
    | true =>
      rw [if_pos rfl, ih h.2]
      rfl
    | false =>
      have hne : b ≠ ':' := by
        rintro rfl
        cases h.1
      simp [hne]

theorem Phrase.colonNext_cons {c : Char} {rest : List Char} (h : isBlank c = false) :
    colonNext (c :: rest) = (c == ':') := by
  have hc : isGap c = false := by
    cases hgap : isGap c with
    | false => rfl
    | true =>
      simp only [isGap, Bool.or_eq_true, beq_iff_eq] at hgap
      rcases hgap with ((rfl | rfl) | rfl) | rfl <;> cases h
  unfold colonNext
  rw [List.dropWhile_cons, hc]
  simp

section Spelled

variable {t : Token} {cs rest : List Char}

theorem Spelled.head (h : Spelled t cs) : ∃ c rest, cs = c :: rest ∧ Heads t c := by
  cases h with
  | written h => exact h.head
  | @phrase p _ hp _ hcs =>
    have hhead : ∀ p ∈ Phrase.all, p.words.toList.head?.any Char.isLower = true := by decide
    have hhead := hhead p hp
    rw [← hcs] at hhead
    cases cs with
    | nil => cases hhead
    | cons c rest =>
      have hc : c.toLower.isLower = true := by simpa using hhead
      rw [Char.isLower_toLower_eq_isAlpha] at hc
      exact ⟨c, rest, rfl, heads_of_isAlphanum (by simp [Char.isAlphanum, hc])⟩

/-- A word in some letter case continues no phrase if its spelling does not. -/
theorem not_mem_continuations {words : List Char} (hwords : words.all Char.isLower = true)
    (hcs : cs.map Char.toLower = words)
    (h : ∀ w ∈ Phrase.continuations, w.map Char.toLower ≠ words) :
    cs.map Char.toUpper ∉ Phrase.continuations := by
  intro hmem
  refine h _ hmem ?_
  rw [map_toLower_toUpper (isAlphanum_of_map_toLower hwords hcs), hcs]

/-- A token that may follow an operator does not continue the phrase of the operator. -/
theorem Spelled.firstWord_not_mem (h : Spelled t cs)
    (ht : Parse.startsExpression t.kind = true) (hrest : Closes rest) :
    firstWord (cs ++ rest) ∉ Phrase.continuations := by
  cases h with
  | @phrase p _ hp hk hcs =>
    rw [hk] at ht
    have hsimple : ∀ p ∈ Phrase.all, Parse.startsExpression (.symbol p.symbol) = true →
        p.words.toList.all Char.isLower = true ∧
          ∀ w ∈ Phrase.continuations, w.map Char.toLower ≠ p.words.toList := by decide
    obtain ⟨hlower, hne⟩ := hsimple p hp ht
    rw [firstWord_append (isAlphanum_of_map_toLower hlower hcs) hrest]
    exact not_mem_continuations hlower hcs hne
  | written h =>
    cases h with
    | @sign s _ =>
      have hhead : ∃ c rest, s.spelling.toList = c :: rest ∧ isBland c = true := by
        cases s <;> exact ⟨_, _, rfl, by decide⟩
      obtain ⟨c, more, hcs, hc⟩ := hhead
      rw [hcs]
      exact Phrase.firstWord_not_mem_of_isBland hc
    | @word k _ _ hcs =>
      have hlower := k.spelling_isLower
      rw [firstWord_append (isAlphanum_of_map_toLower hlower hcs) hrest]
      exact not_mem_continuations hlower hcs (by cases k <;> decide)
    | name _ hname =>
      rw [firstWord_append hname.alphanumeric hrest]
      exact hname.not_mem_continuations
    | number _ hnumber =>
      obtain ⟨d, ds, hcs, hd⟩ := hnumber.head
      rw [hcs]
      exact Phrase.firstWord_not_mem_of_isBland (isBland_of_isDigit hd)
    | string _ => exact Phrase.firstWord_not_mem_of_isBland (c := '"') (by decide)

end Spelled

/-! ### Pieces in a row -/

/-- The token that the normalizer leaves of a piece. -/
def Piece.found (x : Piece) : Token :=
  if x.token.kind = .keyword .timesWord ∧ x.gap.all Phrase.isGap = false then
    { x.token with kind := .symbol .star }
  else x.token

/-- A piece as the normalizer leaves it. -/
structure Normalized (x y : Piece) : Prop where
  token : y.token = x.found
  written : Written y.token y.spelling
  gap : y.gap = x.gap

/-- Pieces that may stand in a row: blanks between them, and neighbours that fit. -/
structure Row (xs : List Piece) : Prop where
  spelled : ∀ x ∈ xs, Spelled x.token x.spelling
  spaced : Spaced xs
  settled : Settled (xs.map Piece.token)

theorem Row.tail {x : Piece} {xs : List Piece} (h : Row (x :: xs)) : Row xs := by
  refine ⟨fun y hy => h.spelled y (List.mem_cons_of_mem x hy), h.spaced.tail, ?_⟩
  obtain ⟨hchain, hlast⟩ := h.settled
  rw [List.map_cons] at hchain hlast
  refine ⟨hchain.tail, fun t ht => hlast t ?_⟩
  rw [List.getLast?_cons]
  rw [Option.mem_def] at ht
  rw [ht]
  rfl

/-- What follows a token that not everything may follow. -/
theorem Row.next {x : Piece} {xs : List Piece} (h : Row (x :: xs))
    (hx : quiet x.token.kind = false) :
    ∃ y ys, xs = y :: ys ∧ mayPrecede x.token.kind y.token.kind = true := by
  obtain ⟨hchain, hlast⟩ := h.settled
  cases xs with
  | nil =>
    have hquiet := hlast x.token rfl
    rw [hx] at hquiet
    cases hquiet
  | cons y ys => exact ⟨y, ys, rfl, (List.isChain_cons_cons.mp hchain).1⟩

section Row

variable {x y : Piece} {xs : List Piece}

theorem Row.firstWord_not_mem (h : Row (x :: y :: xs))
    (hy : ∀ rest, Closes rest → firstWord (y.spelling ++ rest) ∉ Phrase.continuations) :
    firstWord (x.gap ++ Piece.join (y :: xs)).tail ∉ Phrase.continuations := by
  have hblank := h.spaced.blank x List.mem_cons_self
  have hgap : x.gap ≠ [] := (List.isChain_cons_cons.mp h.spaced.between).1
  obtain ⟨b, bs, hbs⟩ := List.exists_cons_of_ne_nil hgap
  rw [hbs] at hblank ⊢
  rw [List.cons_append, List.tail_cons]
  cases bs with
  | nil =>
    rw [List.nil_append, Piece.join_cons]
    exact hy _ h.tail.spaced.closes
  | cons d bs =>
    have hd : isBlank d = true := hblank d (by simp)
    exact Phrase.firstWord_not_mem_of_isBland (isBland_of_isBlank hd)

/-- After an operator no colon comes, and its phrase is not continued. -/
theorem Row.after_operator (h : Row (x :: xs)) {s : Symbol} (hx : x.token.kind = .symbol s)
    (hs : isOperator s = true) : Phrase.colonNext (x.gap ++ Piece.join xs) = false ∧
      firstWord (x.gap ++ Piece.join xs).tail ∉ Phrase.continuations := by
  obtain ⟨y, ys, rfl, hnext⟩ := h.next (by rw [hx]; simp [quiet, hs])
  have hstarts : Parse.startsExpression y.token.kind = true := by
    rw [hx] at hnext
    simpa [mayPrecede, quiet, hs] using hnext
  have hy := h.tail.spelled y List.mem_cons_self
  obtain ⟨c, rest, hcs, hblank, _, hcolon⟩ := hy.head
  constructor
  · have hne : c ≠ ':' := by
      intro hc
      rw [hcolon hc] at hstarts
      cases hstarts
    rw [Phrase.colonNext_gap (h.spaced.blank x List.mem_cons_self), Piece.join_cons, hcs,
      List.cons_append, Phrase.colonNext_cons hblank]
    simp [hne]
  · exact h.firstWord_not_mem fun rest hrest => hy.firstWord_not_mem hstarts hrest

theorem Spelled.eq_colon {t : Token} {cs : List Char} (h : Spelled t cs)
    (ht : t.kind = .symbol .colon) : cs = [':'] := by
  cases h with
  | @phrase p _ hp hk _ =>
    have hnone : ∀ p ∈ Phrase.all, p.symbol ≠ .colon := by decide
    rw [ht] at hk
    exact absurd (TokenKind.symbol.inj hk).symm (hnone p hp)
  | written h =>
    cases h with
    | @sign s hk =>
      rw [ht] at hk
      rw [← TokenKind.symbol.inj hk]
      rfl
    | word hk _ => rw [ht] at hk; cases hk
    | name hk _ => rw [ht] at hk; cases hk
    | number hk _ => rw [ht] at hk; cases hk
    | string hk => rw [ht] at hk; cases hk

/-- The word before a counted block is taken for a phrase unless plain space leads to the colon. -/
theorem Row.after_times (h : Row (x :: xs)) (hx : x.token.kind = .keyword .timesWord) :
    Phrase.colonNext (x.gap ++ Piece.join xs) = x.gap.all Phrase.isGap ∧
      firstWord (x.gap ++ Piece.join xs).tail ∉ Phrase.continuations := by
  obtain ⟨y, ys, rfl, hnext⟩ := h.next (by rw [hx]; rfl)
  have hcolon : y.token.kind = .symbol .colon := by
    rw [hx] at hnext
    simpa [mayPrecede, quiet] using hnext
  have hy := (h.tail.spelled y List.mem_cons_self).eq_colon hcolon
  constructor
  · rw [Phrase.colonNext_gap (h.spaced.blank x List.mem_cons_self), Piece.join_cons, hy,
      List.singleton_append, Phrase.colonNext_cons (by decide)]
    simp
  · refine h.firstWord_not_mem fun rest _ => ?_
    rw [hy]
    exact Phrase.firstWord_not_mem_of_isBland (by decide)

end Row

theorem Keyword.opening_ne {k : Keyword} (hk : k ≠ .timesWord) {cs : List Char}
    (hcs : cs.map Char.toLower = k.spelling.toList) : ∀ p ∈ Phrase.all,
      p.opening ≠ cs.map Char.toUpper := by
  intro p hp hopening
  have hother : ∀ p ∈ Phrase.all, p.opening.map Char.toLower ≠ k.spelling.toList := by
    cases k <;> first | decide | exact absurd rfl hk
  refine hother p hp ?_
  rw [hopening, map_toLower_toUpper (isAlphanum_of_map_toLower k.spelling_isLower hcs), hcs]

theorem PlainDecimal.isBland {cs : List Char} (h : PlainDecimal cs) :
    ∀ c ∈ cs, isBland c = true ∧ c ≠ '"' := by
  have hdigit : ∀ c : Char, c.isDigit = true → Text.isBland c = true ∧ c ≠ '"' := by
    intro c hc
    refine ⟨isBland_of_isDigit hc, ?_⟩
    rintro rfl
    cases hc
  cases h with
  | whole _ hds => exact fun c hc => hdigit c (hds c hc)
  | point _ hds _ hfs =>
    intro c hc
    rcases List.mem_append.mp hc with hc | hc
    · exact hdigit c (hds c hc)
    · rcases List.mem_cons.mp hc with rfl | hc
      · decide
      · exact hdigit c (hfs c hc)

theorem Symbol.isBland_spelling (s : Symbol) : ∀ c ∈ s.spelling.toList,
    isBland c = true ∧ c ≠ '"' := by
  have hall : s.spelling.toList.all (fun c => isBland c && c != '"') = true := by
    cases s <;> decide
  intro c hc
  simpa using List.all_eq_true.mp hall c hc

section Piece

variable {x : Piece} {xs : List Piece} {before : Option Char}

theorem Piece.found_eq (h : x.token.kind ≠ .keyword .timesWord) : x.found = x.token := by
  unfold found
  rw [if_neg fun hx => h hx.1]

/-- The word before a counted block stays, or becomes an operator. -/
theorem Row.becomes_times (h : Row (x :: xs)) (hb : Phrase.apart before = true)
    (hk : x.token.kind = .keyword .timesWord) {cs : List Char}
    (hcs : cs.map Char.toLower = Phrase.times.words.toList) :
    ∃ out, Written x.found out ∧ Becomes before cs out (x.gap ++ Piece.join xs) := by
  have hrest := h.spaced.closes
  obtain ⟨hcolon, hnext⟩ := h.after_times hk
  cases hgap : x.gap.all Phrase.isGap with
  | true =>
    have hat : Phrase.at? before (cs ++ (x.gap ++ Piece.join xs)) = none :=
      Phrase.at?_eq_none_of_colonNext hcs hrest (hcolon.trans hgap)
    have hfound : x.found = x.token := by simp [Piece.found, hgap]
    refine ⟨cs, ?_, becomes_word (isAlphanum_of_map_toLower (by decide) hcs) hat⟩
    rw [hfound]
    exact .word hk hcs
  | false =>
    have hat := Phrase.at?_eq_some Phrase.times_mem hcs hb hrest (by simp [hcolon, hgap]) hnext
    have hfound : x.found.kind = .symbol .star := by simp [Piece.found, hk, hgap]
    exact ⟨_, .sign hfound, becomes_phrase Phrase.times_mem hcs hat⟩

/-- One piece in canonical form. -/
theorem Row.becomes_piece (h : Row (x :: xs)) (hb : Phrase.apart before = true) :
    ∃ out, Written x.found out ∧ Becomes before x.spelling out (x.gap ++ Piece.join xs) := by
  have hrest := h.spaced.closes
  have hx := h.spelled x List.mem_cons_self
  generalize x.spelling = cs at hx
  cases hx with
  | @phrase p _ hp hk hwords =>
    have hs : ∀ p ∈ Phrase.all, isOperator p.symbol = true := by decide
    obtain ⟨hcolon, hnext⟩ := h.after_operator hk (hs p hp)
    have hat := Phrase.at?_eq_some hp hwords hb hrest (by simp [hcolon]) hnext
    refine ⟨_, ?_, becomes_phrase hp hwords hat⟩
    rw [Piece.found_eq (by simp [hk])]
    exact .sign hk
  | written hx =>
    cases hx with
    | @sign s hk =>
      refine ⟨_, ?_, _, canonicalChars_bland (Symbol.isBland_spelling s)⟩
      rw [Piece.found_eq (by simp [hk])]
      exact .sign hk
    | @word k _ hk hwords =>
      by_cases htimes : k = .timesWord
      · subst htimes
        exact h.becomes_times hb hk hwords
      · have halnum := isAlphanum_of_map_toLower k.spelling_isLower hwords
        have hat : Phrase.at? before (cs ++ (x.gap ++ Piece.join xs)) = none :=
          Phrase.at?_eq_none_of_word halnum hrest (Keyword.opening_ne htimes hwords)
        refine ⟨cs, ?_, becomes_word halnum hat⟩
        rw [Piece.found_eq (by simp [hk, htimes])]
        exact .word hk hwords
    | name hk hname =>
      have hat : Phrase.at? before (x.token.text.toList ++ (x.gap ++ Piece.join xs)) = none :=
        Phrase.at?_eq_none_of_word hname.alphanumeric hrest hname.opening_ne
      refine ⟨_, ?_, becomes_word hname.alphanumeric hat⟩
      rw [Piece.found_eq (by simp [hk])]
      exact .name hk hname
    | number hk hnumber =>
      refine ⟨_, ?_, _, canonicalChars_bland hnumber.isBland⟩
      rw [Piece.found_eq (by simp [hk])]
      exact .number hk hnumber
    | string hk =>
      refine ⟨_, ?_, becomes_literal _⟩
      rw [Piece.found_eq (by simp [hk])]
      exact .string hk

/-- The canonical text of pieces in a row is written with the tokens that the normalizer leaves. -/
theorem Row.canonicalChars_join (h : Row xs) (hb : Phrase.apart before = true) :
    ∃ ys, List.Forall₂ Normalized xs ys ∧
      canonicalChars .code before (Piece.join xs) = Piece.join ys := by
  induction xs generalizing before with
  | nil => exact ⟨[], .nil, rfl⟩
  | cons x xs ih =>
    obtain ⟨out, hwritten, last, hlast⟩ := h.becomes_piece hb
    have hblank := h.spaced.blank x List.mem_cons_self
    obtain ⟨ys, hys, hjoin⟩ : ∃ ys, List.Forall₂ Normalized xs ys ∧
        canonicalChars .code (x.gap.getLast?.or last) (Piece.join xs) = Piece.join ys := by
      -- what the last piece leaves behind is not known, but then nothing follows
      cases xs with
      | nil => exact ⟨[], .nil, rfl⟩
      | cons y xs =>
        have hne : x.gap ≠ [] := (List.isChain_cons_cons.mp h.spaced.between).1
        exact ih h.tail (Phrase.apart_blanks hblank fun hnil => absurd hnil hne)
    refine ⟨⟨x.found, out, x.gap⟩ :: ys, .cons ⟨rfl, hwritten, rfl⟩ hys, ?_⟩
    rw [Piece.join_cons, Piece.join_cons, hlast, canonicalChars_blanks hblank, hjoin]

end Piece

end Parlance
