import Parlance.Token.Basic
import Parlance.Proofs.Reading.Phrases
/-!
# Written tokens

How a token may be spelled in a source: a symbol by its characters or by a phrase, a word of the
language in any letter case, a literal with a backslash before each quote and backslash in it. A
source is written in pieces, each a spelled token and the blanks after it.
-/
namespace Parlance
open Text

/-- The words of the phrases, in small letters. -/
def Phrase.vocabulary : List (List Char) := all.flatMap fun p => p.words.toList.splitOn ' '

/-- A letter and more letters and digits that are neither a keyword nor a word of a phrase. -/
structure PlainName (cs : List Char) : Prop where
  letter : cs.head?.any Char.isAlpha = true
  alphanumeric : ∀ c ∈ cs, c.isAlphanum = true
  reserved : Keyword.ofWord? (String.ofList cs) = none
  phrase : cs.map Char.toLower ∉ Phrase.vocabulary

/-- Digits, or digits on both sides of a point. -/
inductive PlainDecimal : List Char → Prop
  | whole {ds : List Char} : ds ≠ [] → (∀ d ∈ ds, d.isDigit = true) → PlainDecimal ds
  | point {ds fs : List Char} : ds ≠ [] → (∀ d ∈ ds, d.isDigit = true) → fs ≠ [] →
      (∀ f ∈ fs, f.isDigit = true) → PlainDecimal (ds ++ '.' :: fs)

/-- A character between quotes. -/
def protect (c : Char) : List Char := if c = '"' ∨ c = '\\' then ['\\', c] else [c]

/-- A text between quotes. -/
def literal (cs : List Char) : List Char := '"' :: (cs.flatMap protect ++ ['"'])

/-- A token as it stands in a canonical text. -/
inductive Written (t : Token) : List Char → Prop
  | sign {s : Symbol} : t.kind = .symbol s → Written t s.spelling.toList
  | word {k : Keyword} {cs : List Char} :
      t.kind = .keyword k → cs.map Char.toLower = k.spelling.toList → Written t cs
  | name : t.kind = .name → PlainName t.text.toList → Written t t.text.toList
  | number : t.kind = .number → PlainDecimal t.text.toList → Written t t.text.toList
  | string : t.kind = .string → Written t (literal t.text.toList)

/-- A token as it stands in a source. -/
inductive Spelled (t : Token) : List Char → Prop
  | written {cs : List Char} : Written t cs → Spelled t cs
  | phrase {p : Phrase} {cs : List Char} : p ∈ Phrase.all → t.kind = .symbol p.symbol →
      cs.map Char.toLower = p.words.toList → Spelled t cs

/-- A spelled token and the blanks after it. -/
structure Piece where
  token : Token
  spelling : List Char
  gap : List Char

/-- The text of pieces in a row. -/
def Piece.join (xs : List Piece) : List Char := xs.flatMap fun x => x.spelling ++ x.gap

theorem Piece.join_cons (x : Piece) (xs : List Piece) :
    join (x :: xs) = x.spelling ++ (x.gap ++ join xs) := by
  unfold join
  rw [List.flatMap_cons, List.append_assoc]

/-- There are blanks, and only blanks, between the pieces. -/
structure Spaced (xs : List Piece) : Prop where
  blank : ∀ x ∈ xs, ∀ c ∈ x.gap, isBlank c = true
  between : xs.IsChain fun x _ => x.gap ≠ []

theorem Spaced.tail {x : Piece} {xs : List Piece} (h : Spaced (x :: xs)) : Spaced xs :=
  ⟨fun y hy => h.blank y (List.mem_cons_of_mem x hy), h.between.tail⟩

/-- After a token in a row of pieces the text ends, or a blank comes. -/
theorem Spaced.closes {x : Piece} {xs : List Piece} (h : Spaced (x :: xs)) :
    Closes (x.gap ++ Piece.join xs) := by
  have hblank := h.blank x List.mem_cons_self
  cases hg : x.gap with
  | cons b bs =>
    intro c hc
    have hc : b = c := by simpa using hc
    exact hblank c (by simp [hg, hc])
  | nil =>
    cases xs with
    | nil => intro c hc; simp [Piece.join] at hc
    | cons y ys => exact absurd hg (List.isChain_cons_cons.mp h.between).1

/-! ### Words -/

theorem Phrase.opening_mem : ∀ p ∈ all, p.opening.map Char.toLower ∈ vocabulary := by decide

theorem Phrase.continuations_mem : ∀ w ∈ continuations, w.map Char.toLower ∈ vocabulary := by
  decide

theorem Keyword.spelling_isLower (k : Keyword) : k.spelling.toList.all Char.isLower = true := by
  cases k <;> decide

section Names

variable {w : List Char}

theorem PlainName.ne_nil (h : PlainName w) : w ≠ [] := by
  rintro rfl
  cases h.letter

theorem PlainName.opening_ne (h : PlainName w) : ∀ p ∈ Phrase.all,
    p.opening ≠ w.map Char.toUpper := by
  intro p hp hopening
  have hmem := Phrase.opening_mem p hp
  rw [hopening, map_toLower_toUpper h.alphanumeric] at hmem
  exact h.phrase hmem

theorem PlainName.not_mem_continuations (h : PlainName w) :
    w.map Char.toUpper ∉ Phrase.continuations := by
  intro hmem
  have hmem := Phrase.continuations_mem _ hmem
  rw [map_toLower_toUpper h.alphanumeric] at hmem
  exact h.phrase hmem

end Names

theorem PlainDecimal.head {cs : List Char} (h : PlainDecimal cs) :
    ∃ d ds, cs = d :: ds ∧ d.isDigit = true := by
  cases h with
  | whole hne hdigits =>
    obtain ⟨d, ds, rfl⟩ := List.exists_cons_of_ne_nil hne
    exact ⟨d, ds, rfl, hdigits d List.mem_cons_self⟩
  | point hne hdigits _ _ =>
    obtain ⟨d, ds, rfl⟩ := List.exists_cons_of_ne_nil hne
    exact ⟨d, _, rfl, hdigits d List.mem_cons_self⟩

/-! ### How spellings start -/

/-- A character that starts a token, and a colon only if the token is a colon. -/
structure Heads (t : Token) (c : Char) : Prop where
  blank : isBlank c = false
  comment : c ≠ '#'
  colon : c = ':' → t.kind = .symbol .colon

theorem not_isBlank_of_isAlphanum {c : Char} (h : c.isAlphanum = true) : isBlank c = false :=
  forall_ascii (P := fun c => c.isAlphanum = true → isBlank c = false) (by decide)
    (lt_of_isAlphanum h) h

theorem heads_of_isAlphanum {t : Token} {c : Char} (h : c.isAlphanum = true) : Heads t c := by
  refine ⟨not_isBlank_of_isAlphanum h, ?_, ?_⟩
  · rintro rfl
    cases h
  · rintro rfl
    cases h

theorem Written.head {t : Token} {cs : List Char} (h : Written t cs) :
    ∃ c rest, cs = c :: rest ∧ Heads t c := by
  cases h with
  | @sign s hk =>
    have hhead : ∃ c rest, s.spelling.toList = c :: rest ∧ isBlank c = false ∧ c ≠ '#' ∧
        (c = ':' → s = .colon) := by
      cases s <;> exact ⟨_, _, rfl, by decide, by decide, by decide⟩
    obtain ⟨c, rest, hcs, hblank, hcomment, hcolon⟩ := hhead
    exact ⟨c, rest, hcs, hblank, hcomment, fun hc => by rw [hk, hcolon hc]⟩
  | @word k cs hk hcs =>
    have halnum := isAlphanum_of_map_toLower k.spelling_isLower hcs
    cases cs with
    | nil => cases k <;> cases hcs
    | cons c rest => exact ⟨c, rest, rfl, heads_of_isAlphanum (halnum c List.mem_cons_self)⟩
  | name _ hname =>
    obtain ⟨c, rest, hcs⟩ := List.exists_cons_of_ne_nil hname.ne_nil
    exact ⟨c, rest, hcs, heads_of_isAlphanum (hname.alphanumeric c (by simp [hcs]))⟩
  | number _ hnumber =>
    obtain ⟨d, ds, hcs, hd⟩ := hnumber.head
    exact ⟨d, ds, hcs, heads_of_isAlphanum (by simp [Char.isAlphanum, hd])⟩
  | string _ =>
    have hquote : '"' ≠ ':' := by decide
    exact ⟨'"', _, rfl, by decide, by decide, fun h => absurd h hquote⟩

end Parlance
