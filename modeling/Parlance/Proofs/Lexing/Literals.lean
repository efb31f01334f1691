import Parlance.Proofs.Spelling.Texts
/-!
# Literals of the normalizer and literals of the scanner

Two definitions say where a literal begins and ends: the zones of the normalizer, told from the
source, and the string tokens of the scanner, told from the canonical text. In a source whose number
signs all stand in literals they agree (`strings_eq_literals`), also on a literal that the source
leaves open.
-/
namespace Parlance
open Text

/-! ### The literals of a source -/

/-- A literal is open. -/
def Zone.isOpen : Zone → Bool
  | .literal | .escape => true
  | .code | .phrase _ => false

/-- Puts a mark in front of the first of some runs of marks. -/
def extendFirst (m : Mark) : List (List Mark) → List (List Mark)
  | [] => [[m]]
  | run :: runs => (m :: run) :: runs

/-- The literals of the rest of a source, as the normalizer passes them through: the characters of
each, with the quotes, at their places. A character is of a literal that is open in front of it or
behind it. If one is open at the start, what is left of it comes first. -/
def literalsFrom (zone : Zone) (before : Option Char) (pos : Nat) : List Char → List (List Mark)
  | [] => if zone.isOpen then [[]] else []
  | c :: cs =>
    let next := zone.next before c cs
    let later := literalsFrom next (some c) (pos + 1) cs
    if next.isOpen then extendFirst ⟨c, pos⟩ later
    else if zone.isOpen then [⟨c, pos⟩] :: later
    else later

/-- The literals of a source. -/
def literalsOf (source : List Char) : List (List Mark) := literalsFrom .code none 0 source

/-- The literals of a canonical text, told from its quotes and backslashes alone. -/
def quotedRuns (zone : Zone) : List Mark → List (List Mark)
  | [] => if zone.isOpen then [[]] else []
  | m :: marks =>
    let next := zone.quote m.char
    let later := quotedRuns next marks
    if next.isOpen then extendFirst m later
    else if zone.isOpen then [m] :: later
    else later

theorem isOpen_plain (zone : Zone) : zone.plain.isOpen = zone.isOpen := by
  cases zone <;> rfl

section Sources

variable {zone : Zone} {before : Option Char} {pos : Nat} {cs : List Char} {word marks : List Mark}

/-- Without quotes nothing is a literal. -/
theorem quotedRuns_unquoted (h : ∀ m ∈ word, m.char ≠ '"') :
    quotedRuns .code (word ++ marks) = quotedRuns .code marks := by
  induction word with
  | nil => rfl
  | cons m word ih =>
    rw [List.forall_mem_cons] at h
    have hcode : Zone.code.quote m.char = .code := if_neg h.1
    rw [List.cons_append, quotedRuns, hcode]
    exact ih h.2

/-- The normalizer leaves every literal as it is, and makes none. -/
theorem quotedRuns_canonicalFrom (before : Option Char) (pos : Nat) (h : zone.Pending cs) :
    quotedRuns zone.plain (canonicalFrom zone before pos cs) = literalsFrom zone before pos cs := by
  induction cs generalizing zone before pos with
  | nil => rw [canonicalFrom, quotedRuns, literalsFrom, isOpen_plain]
  | cons c cs ih =>
    have hpending : (zone.next before c cs).Pending cs := h.next
    have hrest := ih (some c) (pos + 1) hpending
    have hplain := plain_next before h
    have hstep := step_taken zone before pos c cs
    rw [canonicalFrom_cons, literalsFrom]
    generalize Zone.emit _ _ _ _ _ = es at hstep ⊢
    generalize Zone.next _ _ _ _ = next at hstep hrest hplain ⊢
    cases hstep with
    | inside hzone =>
      rw [hzone]
      exact hrest
    | kept _ _ _ =>
      rw [List.singleton_append, quotedRuns, ← hplain, hrest, isOpen_plain, isOpen_plain]
    | @phrase p hzone _ hat =>
      have hcode : zone.plain = .code ∧ zone.isOpen = false := by
        rcases hzone with rfl | rfl
        · exact ⟨rfl, rfl⟩
        · exact ⟨rfl, rfl⟩
      have hsymbol : ∀ m ∈ p.symbol.marks pos, m.char ≠ '"' := by
        intro m hm
        obtain ⟨d, hd, rfl⟩ := List.mem_map.mp hm
        exact (symbol_chars (at?_mem hat).1 hd).1
      rw [hcode.1, quotedRuns_unquoted hsymbol, hcode.2]
      exact hrest

theorem quotedRuns_ofSource (source : List Char) :
    quotedRuns .code (Canonical.ofSource source).marks = literalsOf source :=
  quotedRuns_canonicalFrom none 0 Zone.Pending.code

/-- The marks are those of a part of the source, from a quote on that stands outside of literals. -/
def IsSlice (source : List Char) (run : List Mark) : Prop :=
  ∃ a w b, source = a ++ (w ++ b) ∧ run = marksFrom a.length w ∧ w.head? = some '"' ∧
    quoting .code a = .code

/-- Behind `done`, what is left of an open literal comes first, and all others are parts of the
source from their quotes on. -/
theorem literalsFrom_slices (before : Option Char) (done : List Char) (h : zone.Pending cs)
    (hzone : zone.plain = quoting .code done) :
    (zone.isOpen = false → ∀ run ∈ literalsFrom zone before done.length cs,
      IsSlice (done ++ cs) run) ∧
    (zone.isOpen = true → ∃ w b later, cs = w ++ b ∧
      literalsFrom zone before done.length cs = marksFrom done.length w :: later ∧
      ∀ run ∈ later, IsSlice (done ++ cs) run) := by
  induction cs generalizing zone before done with
  | nil =>
    constructor
    · intro hopen
      simp [literalsFrom, hopen]
    · intro hopen
      exact ⟨[], [], [], rfl, by simp [literalsFrom, hopen, marksFrom], by simp⟩
  | cons c cs ih =>
    have hplain := plain_next before h
    have hafter : quoting .code (done ++ [c]) = (zone.next before c cs).plain := by
      rw [quoting_append, ← hzone, hplain]
      rfl
    have hrest := ih (some c) (done ++ [c]) h.next hafter.symm
    rw [List.append_assoc, List.singleton_append, List.length_append, List.length_singleton]
      at hrest
    rw [literalsFrom]
    generalize zone.next before c cs = next at hplain hrest ⊢
    cases hnext : next.isOpen with
    | false =>
      have hlater := hrest.1 hnext
      constructor
      · intro hopen
        simpa [hopen] using hlater
      · intro hopen
        exact ⟨[c], cs, _, rfl, by simp [hopen, marksFrom], hlater⟩
    | true =>
      obtain ⟨w, b, later, rfl, heq, hlater⟩ := hrest.2 hnext
      have hfirst : extendFirst ⟨c, done.length⟩
          (literalsFrom next (some c) (done.length + 1) (w ++ b))
            = marksFrom done.length (c :: w) :: later := by
        rw [heq]
        rfl
      simp only [if_true, hfirst]
      refine ⟨fun hopen => List.forall_mem_cons.mpr ⟨?_, hlater⟩, fun _ => ?_⟩
      · -- the literal starts here
        have hcode : zone.plain = .code := by
          cases zone <;> first | rfl | cases hopen
        have hc : c = '"' := by
          by_contra hc
          have hquote : Zone.code.quote c = .code := if_neg hc
          rw [← isOpen_plain, hplain, hcode, hquote] at hnext
          cases hnext
        exact ⟨done, c :: w, b, rfl, rfl, by simp [hc], hzone.symm.trans hcode⟩
      · exact ⟨c :: w, b, later, rfl, rfl, hlater⟩

/-- The literals of a source are parts of it. -/
theorem isSlice_of_mem_literalsOf {source : List Char} {run : List Mark}
    (h : run ∈ literalsOf source) : IsSlice source run :=
  (literalsFrom_slices none [] Zone.Pending.code rfl).1 rfl run h

end Sources

/-! ### The string tokens of a division -/

/-- The marks of the string tokens among lexemes. -/
def stringsOf (xs : List Lexeme) : List (List Mark) :=
  (xs.filter fun x => x.token?.any fun t => t.kind == .string).map Lexeme.marks

section Divisions

variable {x : Lexeme} {xs : List Lexeme} {word marks : List Mark} {cs text : List Char}

theorem quote_literal {c : Char} (hquote : c ≠ '"') (hslash : c ≠ '\\') :
    Zone.literal.quote c = .literal := by
  simp only [Zone.quote, Zone.fromLiteral, if_neg hquote, if_neg hslash]

theorem quoting_literal_cons {c : Char} (hquote : c ≠ '"') (hslash : c ≠ '\\') (cs : List Char) :
    quoting .literal (c :: cs) = quoting .literal cs := by
  have hstep : quoting .literal (c :: cs) = quoting (Zone.literal.quote c) cs := rfl
  rw [hstep, quote_literal hquote hslash]

/-- A literal that is closed, or that nothing follows. -/
theorem LiteralBody.quotedRuns (h : LiteralBody cs text) (hword : word.map Mark.char = cs)
    (hend : quoting .literal cs = .code ∨ marks = []) :
    Parlance.quotedRuns .literal (word ++ marks) = word :: Parlance.quotedRuns .code marks := by
  induction h generalizing word with
  | closed =>
    obtain ⟨m, rest, rfl, hm, hrest⟩ := List.map_eq_cons_iff.mp hword
    obtain rfl := List.map_eq_nil_iff.mp hrest
    have hcode : Zone.literal.quote m.char = .code := if_pos hm
    rw [List.singleton_append, Parlance.quotedRuns, hcode]
    rfl
  | cutOff =>
    obtain rfl := List.map_eq_nil_iff.mp hword
    obtain rfl := hend.resolve_left nofun
    rfl
  | cutEscape =>
    obtain ⟨m, rest, rfl, hm, hrest⟩ := List.map_eq_cons_iff.mp hword
    obtain rfl := List.map_eq_nil_iff.mp hrest
    obtain rfl := hend.resolve_left nofun
    have hescape : Zone.literal.quote m.char = .escape := by rw [hm]; rfl
    simp [Parlance.quotedRuns, hescape, Zone.isOpen, extendFirst]
  | escape c _ ih =>
    obtain ⟨m, rest, rfl, hm, hrest⟩ := List.map_eq_cons_iff.mp hword
    obtain ⟨e, rest, rfl, -, hrest⟩ := List.map_eq_cons_iff.mp hrest
    have hescape : Zone.literal.quote m.char = .escape := by rw [hm]; rfl
    have hliteral : Zone.escape.quote e.char = .literal := rfl
    rw [List.cons_append, List.cons_append, Parlance.quotedRuns, hescape, Parlance.quotedRuns,
      hliteral, ih hrest hend]
    rfl
  | @plain c _ _ hquote hslash _ ih =>
    obtain ⟨m, rest, rfl, rfl, hrest⟩ := List.map_eq_cons_iff.mp hword
    rw [quoting_literal_cons hquote hslash] at hend
    rw [List.cons_append, Parlance.quotedRuns, quote_literal hquote hslash, ih hrest hend]
    rfl

/-- A literal that is closed for the scanner is closed for the normalizer. -/
theorem LiteralBody.quoting_of_place (h : LiteralBody cs text)
    (hplace : placeAfter .literal cs = .code) : quoting .literal cs = .code := by
  induction h with
  | closed => rfl
  | cutOff | cutEscape => cases hplace
  | escape c _ ih => exact ih hplace
  | @plain c cs _ hquote hslash _ ih =>
    rw [placeAfter_plain hquote hslash] at hplace
    rw [quoting_literal_cons hquote hslash, ih hplace]

/-- A token that is no literal has no quote. -/
theorem Token.Spells.unquoted {kind : TokenKind} {text : String} (h : Token.Spells kind text cs)
    (hkind : kind ≠ .string) : ∀ c ∈ cs, c ≠ '"' := by
  cases h with
  | number hdecimal => exact fun c hc => (inert_of_decimal hdecimal c hc).quote
  | word hstart hword =>
    have hall := List.forall_mem_cons (p := (Token.continuesName · = true)).mpr
      ⟨Token.continuesName_of_startsName hstart, hword⟩
    exact fun c hc => (inert_of_continuesName (hall c hc)).quote
  | literal _ => exact absurd rfl hkind
  | symbol s => exact fun c hc => (inert_symbol s c hc).quote

theorem stringsOf_cons_of_ne (h : ∀ t ∈ x.token?, t.kind ≠ .string) :
    stringsOf (x :: xs) = stringsOf xs := by
  have hx : (x.token?.any fun t => t.kind == .string) = false := by
    cases htoken : x.token? with
    | none => rfl
    | some t => simpa using h t htoken
  simp [stringsOf, hx]

theorem stringsOf_cons_of_eq {t : Token} (h : x.token? = some t) (hkind : t.kind = .string) :
    stringsOf (x :: xs) = x.marks :: stringsOf xs := by
  simp [stringsOf, h, hkind]

/-- A lexeme that is neither a comment nor a literal is passed over. -/
theorem quotedRuns_passed (h : ∀ m ∈ x.marks, m.char ≠ '"')
    (hmarks : Unremarked .code ((x.marks ++ marks).map Mark.char)) :
    quotedRuns .code (x.marks ++ marks) = quotedRuns .code marks ∧
      Unremarked .code (marks.map Mark.char) := by
  refine ⟨quotedRuns_unquoted h, ?_⟩
  have hcode : quoting .code (x.marks.map Mark.char) = .code := by
    refine quoting_code fun c hc => ?_
    obtain ⟨m, hm, rfl⟩ := List.mem_map.mp hc
    exact h m hm
  rw [List.map_append, unremarked_append, hcode] at hmarks
  exact hmarks.2

/-- The string tokens of a text without comments are its literals. -/
theorem Divides.strings (h : Divides [] xs marks)
    (hmarks : Unremarked .code (marks.map Mark.char)) : quotedRuns .code marks = stringsOf xs := by
  induction h with
  | done => rfl
  | @next x xs marks hx hrest ih =>
    have hpass (hquote : ∀ m ∈ x.marks, m.char ≠ '"') (hkind : ∀ t ∈ x.token?, t.kind ≠ .string) :
        quotedRuns .code (x.marks ++ marks) = stringsOf (x :: xs) := by
      obtain ⟨hruns, hmarks'⟩ := quotedRuns_passed hquote hmarks
      rw [hruns, ih hmarks', stringsOf_cons_of_ne hkind]
    obtain ⟨all, found⟩ := x
    cases hx.formed with
    | @blank m hb =>
      refine hpass (List.forall_mem_singleton.mpr ?_) nofun
      intro hquote
      rw [hquote] at hb
      cases hb
    | @comment m line hsign _ => exact absurd rfl ((unremarked_cons.mp hmarks).1 hsign)
    | @token m word kind text hspells =>
      by_cases hkind : kind = .string
      · obtain ⟨_, _, body, hsame, hquote, hbody⟩ := hx.formed.quoted rfl hkind
        obtain ⟨rfl, rfl⟩ := List.cons.inj hsame
        have hend : quoting .literal (word.map Mark.char) = .code ∨ marks = [] := by
          cases marks with
          | nil => exact .inr rfl
          | cons n marks =>
            have hchars : (m :: word).map Mark.char = '"' :: word.map Mark.char := by simp [hquote]
            exact .inl (hbody.quoting_of_place (hx.literal_closed rfl hchars hbody).2)
        have hopens : Zone.code.quote m.char = .literal := if_pos hquote
        have hruns : quotedRuns .code (m :: word ++ marks)
            = (m :: word) :: quotedRuns .code marks := by
          rw [List.cons_append, quotedRuns, hopens, hbody.quotedRuns rfl hend]
          rfl
        have hmarks' : Unremarked .code (marks.map Mark.char) := by
          rcases hend with hclosed | rfl
          · have hcode : quoting .code ((m :: word).map Mark.char) = .code := by
              have hstep : quoting .code ((m :: word).map Mark.char)
                  = quoting (Zone.code.quote m.char) (word.map Mark.char) := rfl
              rw [hstep, hopens, hclosed]
            rw [List.map_append, unremarked_append, hcode] at hmarks
            exact hmarks.2
          · exact unremarked_nil
        rw [hruns, ih hmarks', stringsOf_cons_of_eq rfl hkind]
      · refine hpass (fun n hn => hspells.unquoted hkind _ (List.mem_map_of_mem hn)) ?_
        rintro _ ⟨⟩
        exact hkind

/-- The string tokens of a source whose number signs all stand in literals are the literals that the
normalizer passes through. -/
theorem strings_eq_literals {source : List Char} (h : Unremarked .code source)
    (hxs : Divides [] xs (Canonical.ofSource source).marks) :
    stringsOf xs = literalsOf source := by
  rw [← hxs.strings (canonical_unremarked none 0 Zone.Pending.code h).1, quotedRuns_ofSource]

end Divisions
end Parlance
