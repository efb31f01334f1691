import Parlance.Proofs.Grammar.Programs
import Parlance.Proofs.Reading.Canonical
import Parlance.Proofs.Reading.Scanning
import Parlance.Source
/-!
# Renderings

A rendering of a program is written in pieces whose tokens have the tree of the program in the
grammar, offsets aside. So it may have parentheses wherever the grammar allows them, optional words
or none, and operators as symbols or as phrases. It parses to the program exactly if the blanks after
each word before a counted block are plain space (`Renders.program_iff`).
-/
namespace Parlance
open Text Grammar

/-- A text that starts with some blanks, and the rest of which is written in pieces, renders a
program. -/
structure Renders (p : Program) (lead : List Char) (xs : List Piece) : Prop where
  tree : ∃ q, Grammar.Source (xs.map Piece.token) q ∧ q.bare = p.bare
  lead : ∀ c ∈ lead, isBlank c = true
  spelled : ∀ x ∈ xs, Spelled x.token x.spelling
  spaced : Spaced xs

theorem Spaced.of_gaps {xs ys : List Piece} (h : Spaced xs)
    (hgaps : ys.map Piece.gap = xs.map Piece.gap) : Spaced ys := by
  constructor
  · intro y hy c hc
    have hmem : y.gap ∈ xs.map Piece.gap := hgaps ▸ List.mem_map_of_mem hy
    obtain ⟨x, hx, hxy⟩ := List.mem_map.mp hmem
    exact h.blank x hx c (hxy ▸ hc)
  · have hchain := h.between
    rw [← List.isChain_map (R := fun g _ => g ≠ []) Piece.gap] at hchain ⊢
    rwa [hgaps]

section Normalized

variable {xs ys : List Piece}

theorem normalized_gaps (h : List.Forall₂ Normalized xs ys) :
    ys.map Piece.gap = xs.map Piece.gap := by
  induction h with
  | nil => rfl
  | cons hxy _ ih => rw [List.map_cons, List.map_cons, hxy.gap, ih]

theorem normalized_tokens (h : List.Forall₂ Normalized xs ys) :
    ys.map Piece.token = xs.map Piece.found := by
  induction h with
  | nil => rfl
  | cons hxy _ ih => rw [List.map_cons, List.map_cons, hxy.token, ih]

theorem normalized_written (h : List.Forall₂ Normalized xs ys) :
    ∀ y ∈ ys, Written y.token y.spelling := by
  induction h with
  | nil => simp
  | cons hxy _ ih => exact List.forall_mem_cons.mpr ⟨hxy.written, ih⟩

end Normalized

/-- The tokens of a text in pieces are the ones that the normalizer leaves. -/
theorem Row.tokens {xs : List Piece} (h : Row xs) {lead : List Char}
    (hlead : ∀ c ∈ lead, isBlank c = true) : ∃ us, Source.tokens (lead ++ Piece.join xs) = .ok us ∧
      Copies us (xs.map Piece.found) := by
  have hapart : Phrase.apart (lead.getLast?.or none) = true :=
    Phrase.apart_blanks hlead fun _ => rfl
  obtain ⟨ys, hys, hjoin⟩ := h.canonicalChars_join hapart
  have hchars : (canonicalFrom .code none 0 (lead ++ Piece.join xs)).map Mark.char
      = lead ++ Piece.join ys := by
    rw [← hjoin]
    exact canonicalChars_blanks hlead
  obtain ⟨after, hblanks, hafter⟩ := Token.scanAll_blanks hlead hchars
  obtain ⟨us, hus, hcopies⟩ := Token.scanAll_written (normalized_written hys)
    (h.spaced.of_gaps (normalized_gaps hys)) hafter
  rw [normalized_tokens hys] at hcopies
  refine ⟨us, ?_, hcopies⟩
  have htokens : (Canonical.ofSource (lead ++ Piece.join xs)).tokens = .ok us := hblanks.trans hus
  unfold Source.tokens
  rw [htokens]

theorem Source.program_eq_ok {nesting : Nat} {source : List Char} {us : List Token} {q : Program}
    (h : tokens source = .ok us) :
    program nesting source = .ok q ↔ Program.parse nesting us = .ok q := by
  unfold program
  rw [h]
  cases hparse : Program.parse nesting us with
  | ok p => simp [bind, Except.bind, hparse]
  | error fault => simp [bind, Except.bind, hparse]

/-- If the piece is the word before a counted block, plain space follows it. -/
def Piece.Plain (x : Piece) : Prop :=
  x.token.kind = .keyword .timesWord → ∀ c ∈ x.gap, Phrase.isGap c = true

theorem Piece.Plain.found_eq {x : Piece} (h : x.Plain) : x.found = x.token := by
  refine if_neg ?_
  rintro ⟨hx, hgap⟩
  rw [List.all_eq_true.mpr (h hx)] at hgap
  cases hgap

theorem Piece.found_kind {x : Piece} (h : ¬ x.Plain) : x.found.kind = .symbol .star := by
  unfold Plain at h
  rw [Classical.not_imp] at h
  have hgap : x.gap.all Phrase.isGap = false := by
    rw [← Bool.not_eq_true, List.all_eq_true]
    exact h.2
  unfold found
  rw [if_pos ⟨h.1, hgap⟩]

theorem copies_kinds {us ts : List Token} (h : Copies us ts) :
    us.map Token.kind = ts.map Token.kind := by
  induction h with
  | nil => rfl
  | cons hut _ ih => rw [List.map_cons, List.map_cons, hut.kind, ih]

theorem length_found {us : List Token} {xs : List Piece} (h : Copies us (xs.map Piece.found)) :
    us.length = xs.length := by
  rw [h.length_eq, List.length_map]

/-- The operator that a word before a counted block may be taken for does not stand before a colon. -/
theorem Row.plain_of_settled {xs : List Piece} (h : Row xs)
    (hchain : xs.IsChain fun x y => mayPrecede x.found.kind y.found.kind = true) :
    ∀ x ∈ xs, x.Plain := by
  induction xs with
  | nil => simp
  | cons x xs ih =>
    refine List.forall_mem_cons.mpr ⟨?_, ih h.tail hchain.tail⟩
    -- the operator found would stand before the colon, where an expression has to start
    by_contra hx
    have htimes : x.token.kind = .keyword .timesWord := by
      by_contra hne
      exact hx fun h => absurd h hne
    obtain ⟨y, ys, rfl, hnext⟩ := h.next (by rw [htimes]; rfl)
    have hcolon : y.token.kind = .symbol .colon := by
      rw [htimes] at hnext
      simpa [mayPrecede, quiet] using hnext
    have hy : y.found = y.token := Piece.found_eq (by simp [hcolon])
    have hmay := (List.isChain_cons_cons.mp hchain).1
    rw [Piece.found_kind hx, hy, hcolon] at hmay
    cases hmay

namespace Renders

variable {p : Program} {lead : List Char} {xs : List Piece} {nesting : Nat}

theorem row (h : Renders p lead xs) : Row xs := by
  obtain ⟨q, hq, _⟩ := h.tree
  exact ⟨h.spelled, h.spaced, source_settled hq⟩

/-- No other program is read from a rendering either if it has other blanks before such a colon. -/
theorem plain_of_program (h : Renders p lead xs) (hn : xs.length < nesting) {q : Program}
    (hq : Source.program nesting (lead ++ Piece.join xs) = .ok q) : ∀ x ∈ xs, x.Plain := by
  obtain ⟨us, hus, hcopies⟩ := h.row.tokens h.lead
  have hlen : us.length < nesting := (length_found hcopies).trans_lt hn
  have hparse := (Source.program_eq_ok hus).mp hq
  obtain ⟨hchain, _⟩ := source_settled (Parse.source_of_parse hlen hparse)
  refine h.row.plain_of_settled ?_
  rw [← List.isChain_map (R := fun k k' => mayPrecede k k' = true) Token.kind,
    copies_kinds hcopies, List.isChain_map, List.isChain_map] at hchain
  exact hchain

theorem program_of_plain (h : Renders p lead xs) (hn : xs.length < nesting)
    (hplain : ∀ x ∈ xs, x.Plain) :
    ∃ q, Source.program nesting (lead ++ Piece.join xs) = .ok q ∧ q.bare = p.bare := by
  obtain ⟨us, hus, hcopies⟩ := h.row.tokens h.lead
  have hlen : us.length < nesting := (length_found hcopies).trans_lt hn
  obtain ⟨q, hq, hbare⟩ := h.tree
  have hfound : xs.map Piece.found = xs.map Piece.token :=
    List.map_congr_left fun x hx => (hplain x hx).found_eq
  rw [hfound] at hcopies
  obtain ⟨r, hr, hrq⟩ := source_copied hq us hcopies
  exact ⟨r, (Source.program_eq_ok hus).mpr (Parse.parse_of_source hlen hr), hrq.trans hbare⟩

/-- A rendering of a program parses to this program, offsets aside, exactly if only spaces, tabs and
line breaks stand between the word before a counted block and its colon. -/
theorem program_iff (h : Renders p lead xs) (hn : xs.length < nesting) :
    (∃ q, Source.program nesting (lead ++ Piece.join xs) = .ok q ∧ q.bare = p.bare) ↔
      ∀ x ∈ xs, x.token.kind = .keyword .timesWord → ∀ c ∈ x.gap, Phrase.isGap c = true :=
  ⟨fun ⟨_, hq, _⟩ => h.plain_of_program hn hq, h.program_of_plain hn⟩

end Renders

/-- A counted block without statements, with some blanks before its colon. -/
def counted (gap : List Char) : List Piece :=
  [⟨⟨.keyword .repeatWord, "", 0⟩, "Repeat".toList, [' ']⟩,
    ⟨⟨.symbol .bang, "", 0⟩, "NOT".toList, [' ']⟩,
    ⟨⟨.name, "x", 0⟩, "x".toList, [' ']⟩,
    ⟨⟨.symbol .star, "", 0⟩, "times".toList, [' ']⟩,
    ⟨⟨.number, "3", 0⟩, "3".toList, [' ']⟩,
    ⟨⟨.keyword .timesWord, "", 0⟩, "times".toList, gap⟩,
    ⟨⟨.symbol .colon, "", 0⟩, ":".toList, [' ']⟩,
    ⟨⟨.keyword .endWord, "", 0⟩, "end".toList, [' ']⟩,
    ⟨⟨.symbol .dot, "", 0⟩, ".".toList, []⟩]

def countedProgram : Program :=
  ⟨[], [.repeatTimes (.binary .multiply (.unary .not (.name "x" 0) 0) (.number (.ofLiteral ['3']) 0)
    0) [] 0]⟩

theorem renders_counted {gap : List Char} (hne : gap ≠ [])
    (hblank : ∀ c ∈ gap, isBlank c = true) : Renders countedProgram [] (counted gap) := by
  have hspace : isBlank ' ' = true := by decide
  have hname : PlainName "x".toList := by
    constructor
    · decide
    · exact List.all_eq_true.mp (by decide : "x".toList.all Char.isAlphanum = true)
    · decide
    · decide
  have hnumber : PlainDecimal "3".toList :=
    .whole (by decide) (List.all_eq_true.mp (by decide : "3".toList.all Char.isDigit = true))
  have hnot : Phrase.of "not" .bang ∈ Phrase.all := by decide
  constructor
  · exact ⟨countedProgram, Parse.source_of_parse (by simp [counted] : _ < 10) rfl, rfl⟩
  · simp
  · unfold counted
    simp only [List.forall_mem_cons]
    exact ⟨.written (.word rfl (by decide)), .phrase hnot rfl (by decide),
      .written (.name rfl hname), .phrase Phrase.times_mem rfl (by decide),
      .written (.number rfl hnumber), .written (.word rfl (by decide)),
      .written (.sign (s := .colon) rfl), .written (.word rfl (by decide)),
      .written (.sign (s := .dot) rfl), by simp⟩
  · constructor
    · simpa [counted, hspace] using hblank
    · simp [counted, hne]

/-- With a tab and a line break before the colon the block is read. -/
theorem program_counted : Renders countedProgram [] (counted ['\t', '\n']) ∧
    ∃ q, Source.program 10 "Repeat NOT x times 3 times\t\n: end .".toList = .ok q ∧
      q.bare = countedProgram.bare := by
  have h : Renders countedProgram [] (counted ['\t', '\n']) :=
    renders_counted (by decide) (by simp; decide)
  have hplain : ∀ x ∈ counted ['\t', '\n'], x.Plain := by
    simp [counted, Piece.Plain, Phrase.isGap]
  exact ⟨h, (h.program_iff (by decide : 9 < 10)).mpr hplain⟩

/-- With a form feed before the colon it is not. -/
theorem formFeed_breaks : Renders countedProgram [] (counted ['\x0C']) ∧
    ∀ nesting, 9 < nesting → ∀ q,
      Source.program nesting "Repeat NOT x times 3 times\x0C: end .".toList ≠ .ok q := by
  have h : Renders countedProgram [] (counted ['\x0C']) :=
    renders_counted (by decide) (by simp; decide)
  refine ⟨h, fun nesting hn q hq => ?_⟩
  have hplain := h.plain_of_program hn hq
  have hgap := hplain ⟨⟨.keyword .timesWord, "", 0⟩, "times".toList, ['\x0C']⟩ (by simp [counted])
    rfl '\x0C' (by decide)
  cases hgap

end Parlance
