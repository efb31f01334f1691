import Parlance.Proofs.Lexing.Literals
import Parlance.Proofs.Lexing.OriginMap
/-!
# Normal form

A text is normal if no phrase is left in it outside of its literals, but for the word before a
counted block in front of its colon. The canonical text of every source is normal, and the
normalizer leaves normal texts as they are, and no others (`canonical_is_normal`). What is read in
canonical text as a phrase has been read as that phrase in the source: symbols have no letters, and
no letter comes next to one.
-/
namespace Parlance
open Text

/-- The phrase occurs in a text at an offset: in some letter case, with no letter or digit beside
it. -/
structure Phrase.OccursAt (p : Phrase) (text : List Char) (pos : Nat) : Prop where
  before : Phrase.apart (text.take pos).getLast? = true
  same : inCapitals ((text.drop pos).take p.length) = p.capital
  behind : Phrase.apart (text.drop (pos + p.length)).head? = true

/-- The phrase is the word before a counted block, and the colon of the block comes next. -/
def Phrase.GivesWay (p : Phrase) (text : List Char) (pos : Nat) : Prop :=
  p = .times ∧ Phrase.colonNext (text.drop (pos + p.length)) = true

/-- The offset is of no literal of a text. -/
def OutsideLiterals (text : List Char) (pos : Nat) : Prop :=
  ∀ run ∈ literalsOf text, ∀ m ∈ run, m.origin ≠ pos

/-- No phrase is left in a text outside of its literals, unless it gives way. -/
def Normal (text : List Char) : Prop := ∀ p ∈ Phrase.all, ∀ pos, p.OccursAt text pos →
  OutsideLiterals text pos → p.GivesWay text pos

/-- Nowhere in a text does the normalizer come upon a phrase. -/
def Unbroken (zone : Zone) (before : Option Char) : List Char → Prop
  | [] => True
  | c :: cs => (∀ n, zone.next before c cs ≠ .phrase n)
      ∧ Unbroken (zone.next before c cs) (some c) cs

/-! ### The letters of a phrase -/

section Letters

variable {p : Phrase} {c : Char} {u cs : List Char}

/-- A phrase starts with a letter. -/
theorem joinsWord_of_capital_cons (hp : p ∈ Phrase.all) (h : inCapitals (c :: cs) = p.capital) :
    joinsWord c = true := by
  have hhead : ∀ p ∈ Phrase.all, p.capital.head?.any (fun u => u.isUpper && u != 'S') = true := by
    decide
  have hletter := hhead p hp
  have hcons : inCapitals (c :: cs) = capitals c ++ inCapitals cs := List.flatMap_cons
  rw [← h, hcons] at hletter
  unfold joinsWord
  unfold capitals at hletter ⊢
  split_ifs at hletter ⊢ with h1 h2 h3 h4
  · simp at hletter
  · rfl
  · simp at hletter
  · simp at hletter
  · simp only [List.singleton_append, List.head?_cons, Option.any_some, Bool.and_eq_true]
      at hletter
    simp [isWordChar, hletter.1]

/-- A phrase that is written with as many characters as it has ends with a letter. -/
theorem joinsWord_of_capital_concat (hp : p ∈ Phrase.all) (h : inCapitals (u ++ [c]) = p.capital)
    (hlength : u.length + 1 = p.length) : joinsWord c = true := by
  have hlast : ∀ p ∈ Phrase.all, p.capital.getLast?.any Char.isUpper = true := by decide
  have hone : inCapitals [c] = capitals c := List.append_nil _
  have hletter := hlast p hp
  have htotal := congrArg List.length h
  have hsingle : (inCapitals (u ++ [c])).length ≤ (u ++ [c]).length := by
    rw [htotal, Phrase.length_capital p hp, List.length_append, List.length_singleton, hlength]
  obtain ⟨d, hd⟩ := List.length_eq_one_iff.mp (length_capitals_eq_one hsingle c (by simp))
  rw [← h, inCapitals_append, hone, hd, List.getLast?_concat, Option.any_some] at hletter
  simp [joinsWord, hd, isWordChar, hletter]

/-- A phrase that gives way to a colon is the word before a counted block. -/
theorem eq_times_of_yieldsToColon (hp : p ∈ Phrase.all) (h : p.yieldsToColon = true) :
    p = .times := by
  have hown : ∀ p ∈ Phrase.all, p.yieldsToColon = true → p = .times := by decide
  exact hown p hp h

/-- A phrase is found where it occurs, unless it gives way. -/
theorem Phrase.standsAt_iff {text : List Char} {pos : Nat} (hp : p ∈ Phrase.all) :
    p.StandsAt text pos ↔ p.OccursAt text pos ∧ ¬ p.GivesWay text pos := by
  rw [StandsAt, startsAt_iff, List.drop_drop]
  constructor
  · rintro ⟨hbefore, -, hsame, hbehind, hcolon⟩
    refine ⟨⟨hbefore, hsame, hbehind⟩, ?_⟩
    rintro ⟨rfl, hnext⟩
    exact hcolon ⟨rfl, hnext⟩
  · rintro ⟨⟨hbefore, hsame, hbehind⟩, hstays⟩
    refine ⟨hbefore, ?_, hsame, hbehind, ?_⟩
    · cases hdrop : text.drop pos with
      | nil =>
        rw [hdrop, List.take_nil] at hsame
        have hempty := congrArg List.length hsame
        have hpos := length_pos hp
        rw [length_capital p hp] at hempty
        simp [inCapitals] at hempty
        omega
      | cons c cs =>
        obtain ⟨n, hn⟩ := Nat.exists_eq_succ_of_ne_zero (length_pos hp).ne'
        rw [hdrop, hn, List.take_succ_cons] at hsame
        exact joinsWord_of_capital_cons hp hsame
    · rintro ⟨hyields, hnext⟩
      exact hstays ⟨eq_times_of_yieldsToColon hp hyields, hnext⟩

/-- Of two phrases at one place one is the beginning of the other. -/
theorem capital_prefix_of_le {q : Phrase} {rest : List Char}
    (hp : inCapitals (rest.take p.length) = p.capital)
    (hq : inCapitals (rest.take q.length) = q.capital) (hle : p.length ≤ q.length) :
    p.capital <+: q.capital := by
  refine ⟨inCapitals ((rest.take q.length).drop p.length), ?_⟩
  rw [← hp, ← hq, ← inCapitals_append]
  have htake : rest.take p.length = (rest.take q.length).take p.length := by
    rw [List.take_take, Nat.min_eq_left hle]
  rw [htake, List.take_append_drop]

/-- The phrase that is found at a place is the longest one that occurs there. -/
theorem longest_of_at? {text : List Char} {pos : Nat}
    (h : Phrase.at? (text.take pos).getLast? (text.drop pos) = some p) {q : Phrase}
    (hq : q ∈ Phrase.all) (hoccurs : q.OccursAt text pos) : q = p ∨ q.length < p.length := by
  obtain ⟨hstarts, earlier, later, hall, hearlier⟩ := List.find?_eq_some_iff_append.mp h
  have hp : p ∈ Phrase.all := (at?_mem h).1
  have hsame := (Phrase.startsAt_iff.mp hstarts).2.2.1
  by_cases hlt : q.length < p.length
  · exact .inr hlt
  have hprefix : p.capital <+: q.capital :=
    capital_prefix_of_le hsame hoccurs.same (Nat.le_of_not_lt hlt)
  rw [hall, List.mem_append, List.mem_cons] at hq
  rcases hq with hfirst | rfl | hlast
  · -- an earlier phrase has been tried, so it gives way to a colon
    have hmem : q ∈ Phrase.all := hall ▸ List.mem_append_left _ hfirst
    have hway : q.GivesWay text pos := by
      by_contra hstays
      have hstands : q.StandsAt text pos := (Phrase.standsAt_iff hmem).mpr ⟨hoccurs, hstays⟩
      have hnot := hearlier q hfirst
      rw [Phrase.StandsAt] at hstands
      simp [hstands] at hnot
    have hown : ∀ p ∈ Phrase.all, p.capital <+: Phrase.times.capital → p = .times := by decide
    rw [hway.1] at hprefix
    exact .inl (hway.1.trans (hown p hp hprefix).symm)
  · exact .inl rfl
  · have hpairs := Phrase.all_pairwise
    rw [hall, List.pairwise_append] at hpairs
    exact absurd hprefix ((List.pairwise_cons.mp hpairs.2.1).1 q hlast)

end Letters

/-! ### Canonical text -/

section Canonical

variable {zone : Zone} {before before' : Option Char} {c : Char} {cs a b : List Char} {n : Nat}

theorem colonNext_iff : Phrase.colonNext cs = true ↔
    ∃ gap rest, cs = gap ++ ':' :: rest ∧ ∀ c ∈ gap, Phrase.isGap c = true := by
  constructor
  · intro h
    have hsplit := List.takeWhile_append_dropWhile (p := Phrase.isGap) (l := cs)
    rw [Phrase.colonNext, beq_iff_eq, List.head?_eq_some_iff] at h
    obtain ⟨rest, hrest⟩ := h
    rw [hrest] at hsplit
    exact ⟨_, rest, hsplit.symm, fun c hc => List.mem_takeWhile_imp hc⟩
  · rintro ⟨gap, rest, rfl, hgap⟩
    rw [colonNext_append, if_pos (List.all_eq_true.mpr hgap)]
    rfl

theorem isBland_of_isGap (h : Phrase.isGap c = true) : isBland c = true ∧ c ≠ '"' := by
  simp only [Phrase.isGap, Bool.or_eq_true, beq_iff_eq] at h
  rcases h with ((rfl | rfl) | rfl) | rfl <;> decide

/-- A colon that comes next does so in canonical text. -/
theorem colonNext_canonicalChars (h : Phrase.colonNext cs = true) :
    Phrase.colonNext (canonicalChars .code before cs) = true := by
  obtain ⟨gap, rest, rfl, hgap⟩ := colonNext_iff.mp h
  have hbland : ∀ c ∈ gap ++ [':'], isBland c = true ∧ c ≠ '"' := by
    intro c hc
    rcases List.mem_append.mp hc with hc | hc
    · exact isBland_of_isGap (hgap c hc)
    · rw [List.mem_singleton.mp hc]
      decide
  have hsplit : gap ++ ':' :: rest = gap ++ [':'] ++ rest := by simp
  rw [hsplit, canonicalChars_bland hbland]
  exact colonNext_iff.mpr ⟨gap, _, by rw [List.append_assoc]; rfl, hgap⟩

/-- Symbols have no letters. -/
theorem symbol_not_isPhrasal {p : Phrase} (hp : p ∈ Phrase.all) :
    ∃ s rest, p.symbol.spelling.toList = s :: rest ∧ isPhrasal s = false := by
  have hall : ∀ p ∈ Phrase.all,
      p.symbol.spelling.toList.head?.any (fun s => !isPhrasal s) = true := by decide
  have hhead := hall p hp
  cases hspelling : p.symbol.spelling.toList with
  | nil => simp [hspelling] at hhead
  | cons s rest => exact ⟨s, rest, rfl, by simpa [hspelling] using hhead⟩

/-- Characters of canonical text that may be of a phrase are those of the source, and stand in front
of canonical text again. -/
theorem canonicalChars_phrasal (k : Nat)
    (h : ∀ c ∈ (canonicalChars .code before cs).take k, isPhrasal c = true) :
    (canonicalChars .code before cs).take k = cs.take k ∧
      (canonicalChars .code before cs).drop k
        = canonicalChars .code ((cs.take k).getLast?.or before) (cs.drop k) := by
  induction k generalizing before cs with
  | zero => exact ⟨rfl, rfl⟩
  | succ k ih =>
    cases cs with
    | nil => exact ⟨rfl, rfl⟩
    | cons c cs =>
      by_cases hc : c = '"'
      · subst hc
        rw [canonicalChars_quote] at h
        exact absurd rfl (ne_quote_of_isPhrasal (h '"' (by simp)))
      · cases hat : Phrase.at? before (c :: cs) with
        | some p =>
          obtain ⟨s, rest, hspelling, hs⟩ := symbol_not_isPhrasal (at?_mem hat).1
          rw [canonicalChars_at hc hat, hspelling] at h
          rw [h s (by simp)] at hs
          cases hs
        | none =>
          rw [canonicalChars_keep hc hat] at h ⊢
          rw [List.take_succ_cons, List.forall_mem_cons] at h
          obtain ⟨htake, hdrop⟩ := ih h.2
          rw [List.take_succ_cons, List.take_succ_cons, List.drop_succ_cons, List.drop_succ_cons,
            getLast?_cons_or, htake, hdrop]
          exact ⟨rfl, rfl⟩

/-- Behind a letter nothing is replaced, so the character that comes next is that of the source. -/
theorem apart_canonicalChars (hc : joinsWord c = true) :
    Phrase.apart (canonicalChars .code (some c) cs).head? = Phrase.apart cs.head? := by
  cases cs with
  | nil => rfl
  | cons d cs =>
    by_cases hd : d = '"'
    · rw [hd, canonicalChars_quote]
      rfl
    · rw [canonicalChars_keep hd (Phrase.at?_eq_none_of_joinsWord hc)]
      rfl

/-- A phrase that starts canonical text starts the source. -/
theorem startsAt_of_canonicalChars {p : Phrase} (hp : p ∈ Phrase.all)
    (h : p.startsAt before (canonicalChars .code before cs) = true) :
    p.startsAt before cs = true := by
  obtain ⟨hbefore, hhead, hsame, hbehind, hcolon⟩ := Phrase.startsAt_iff.mp h
  obtain ⟨htake, hdrop⟩ := canonicalChars_phrasal p.length (isPhrasal_of_inCapitals hp hsame)
  obtain ⟨n, hn⟩ := Nat.exists_eq_succ_of_ne_zero (length_pos hp).ne'
  rw [htake] at hsame
  rw [hdrop] at hbehind hcolon
  refine Phrase.startsAt_iff.mpr ⟨hbefore, ?_, hsame, ?_, ?_⟩
  · cases cs with
    | nil => exact hhead
    | cons c cs =>
      rw [hn, List.take_succ_cons] at hsame
      exact joinsWord_of_capital_cons hp hsame
  · by_cases hend : cs.length ≤ p.length
    · rw [List.drop_eq_nil_of_le hend]
      rfl
    · -- the phrase is not over at the end of the text, so it has as many characters as its words
      have hlength : (cs.take p.length).length = p.length := by
        rw [List.length_take]
        omega
      have hne : cs.take p.length ≠ [] := by
        intro hnil
        rw [hnil, List.length_nil] at hlength
        omega
      obtain ⟨u, c, hu⟩ : ∃ u c, cs.take p.length = u ++ [c] :=
        ⟨_, _, (List.dropLast_append_getLast hne).symm⟩
      rw [hu] at hsame hlength hbehind
      rw [List.length_append, List.length_singleton] at hlength
      have hc := joinsWord_of_capital_concat hp hsame hlength
      rwa [List.getLast?_concat, Option.some_or, apart_canonicalChars hc] at hbehind
  · rintro ⟨hyields, hnext⟩
    exact hcolon ⟨hyields, colonNext_canonicalChars hnext⟩

theorem at?_canonicalChars (h : Phrase.at? before cs = none) :
    Phrase.at? before (canonicalChars .code before cs) = none := by
  rw [Phrase.at?, List.find?_eq_none] at h ⊢
  exact fun p hp hstarts => h p hp (startsAt_of_canonicalChars hp hstarts)

theorem at?_eq_none_of_head {c : Char} (h : joinsWord c = false) :
    Phrase.at? before (c :: cs) = none := by
  refine List.find?_eq_none.mpr fun p hp hstarts => ?_
  have hhead := (Phrase.startsAt_iff.mp hstarts).2.1
  simp [h] at hhead

theorem Unbroken.quote (h : Unbroken .literal (some '"') cs) :
    Unbroken .code before ('"' :: cs) := ⟨ne_phrase_of_plain rfl, h⟩

/-- A character at which no phrase is found breaks nothing. -/
theorem Unbroken.keep {c : Char} (hquote : c ≠ '"') (hnone : Phrase.at? before (c :: cs) = none)
    (h : Unbroken .code (some c) cs) : Unbroken .code before (c :: cs) := by
  have hnext : Zone.code.next before c cs = .code := by
    simp only [Zone.next, Zone.fromCode, if_neg hquote, hnone]
  rw [Unbroken, hnext]
  exact ⟨ne_phrase_of_plain rfl, h⟩

/-- Characters with which no phrase starts break nothing. -/
theorem Unbroken.bland_append (hcs : ∀ c ∈ cs, isBland c = true ∧ c ≠ '"')
    (h : Unbroken .code (cs.getLast?.or before) a) : Unbroken .code before (cs ++ a) := by
  induction cs generalizing before with
  | nil => exact h
  | cons c cs ih =>
    rw [List.forall_mem_cons] at hcs
    rw [getLast?_cons_or] at h
    exact .keep hcs.1.2 (Phrase.at?_eq_none_of_isBland hcs.1.1) (ih hcs.2 h)

/-- The normalizer comes upon no phrase in what it made of a source. Behind a phrase the canonical
text goes on with another character before it than the source does. -/
theorem unbroken_canonicalChars (hapart : zone.Apart cs)
    (hbefore : before' = before ∨ ∃ n, zone = .phrase n) :
    Unbroken zone.plain before' (canonicalChars zone before cs) := by
  induction cs generalizing zone before before' with
  | nil => exact trivial
  | cons c cs ih =>
    have hcoded : Zone.code.Apart cs := .of_plain rfl
    have hquoted : Zone.literal.Apart cs := .of_plain rfl
    -- a character in code, where a phrase has been looked for or cannot stand
    have hcode : (before' = before ∨ joinsWord c = false) →
        Unbroken .code before' (canonicalChars .code before (c :: cs)) := by
      intro hc
      by_cases hquote : c = '"'
      · subst hquote
        rw [canonicalChars_quote]
        exact .quote (ih hquoted (.inl rfl))
      cases hat : Phrase.at? before (c :: cs) with
      | some p =>
        have hnext : Zone.fromCode before c cs = .phrase (p.length - 1) := by
          simp only [Zone.fromCode, if_neg hquote, hat]
        rw [canonicalChars_at hquote hat]
        refine .bland_append p.symbol.isBland_spelling ?_
        have hphrase : (Zone.phrase (p.length - 1)).Apart cs := hnext ▸ .fromCode before c cs
        exact ih hphrase (.inr ⟨_, rfl⟩)
      | none =>
        have hnone : Phrase.at? before' (canonicalChars .code before (c :: cs)) = none := by
          rcases hc with rfl | hc
          · exact at?_canonicalChars hat
          · rw [canonicalChars_keep hquote hat]
            exact at?_eq_none_of_head hc
        rw [canonicalChars_keep hquote hat] at hnone ⊢
        exact .keep hquote hnone (ih hcoded (.inl rfl))
    cases zone with
    | literal =>
      have hnext := plain_fromLiteral c
      have hrest : Unbroken (Zone.fromLiteral c).plain (some c)
          (canonicalChars (Zone.fromLiteral c) (some c) cs) := ih (.of_plain hnext) (.inl rfl)
      rw [hnext] at hrest
      rw [canonicalChars_literal]
      exact ⟨ne_phrase_of_plain hnext, hrest⟩
    | escape =>
      rw [canonicalChars_escape]
      exact ⟨ne_phrase_of_plain rfl, ih hquoted (.inl rfl)⟩
    | code =>
      refine hcode (.inl (hbefore.resolve_right ?_))
      rintro ⟨n, hn⟩
      cases hn
    | phrase left =>
      cases left with
      | succ left =>
        rw [canonicalChars_skip]
        have hphrase : (Zone.phrase left).Apart cs := by
          rintro n ⟨⟩
          exact hapart (left + 1) rfl
        exact ih hphrase (.inr ⟨left, rfl⟩)
      | zero =>
        rw [canonicalChars_skipped]
        exact hcode (.inr (by simpa [Phrase.apart] using hapart 0 rfl))

/-- What is unbroken stays. -/
theorem Unbroken.canonicalChars_eq (h : Unbroken zone before cs) :
    canonicalChars zone before cs = cs := by
  induction cs generalizing zone before with
  | nil => rfl
  | cons c cs ih =>
    unfold canonicalChars
    rw [canonicalFrom_cons, emit_of_next_ne h.1, List.singleton_append, List.map_cons,
      chars_canonicalFrom _ _ _ 0]
    exact congrArg (c :: ·) (ih h.2)

theorem Unbroken.behind (h : Unbroken zone before (a ++ b)) (hzone : ∀ n, zone ≠ .phrase n) :
    (∀ n, zoneAfter zone before a b ≠ .phrase n) ∧
      Unbroken (zoneAfter zone before a b) (a.getLast?.or before) b := by
  induction a generalizing zone before with
  | nil => exact ⟨hzone, h⟩
  | cons c a ih =>
    rw [getLast?_cons_or]
    exact ih h.2 h.1

end Canonical

/-! ### Literals -/

section Literals

variable {zone : Zone} {before : Option Char} {pos : Nat} {cs text : List Char}

theorem flatten_extendFirst (m : Mark) (runs : List (List Mark)) :
    (extendFirst m runs).flatten = m :: runs.flatten := by
  cases runs <;> rfl

/-- The marks of the literals are those of the characters in front of which or behind which a literal
is open. -/
theorem mem_flatten_literalsFrom {m : Mark} : m ∈ (literalsFrom zone before pos cs).flatten ↔
    ∃ a b, cs = a ++ m.char :: b ∧ m.origin = pos + a.length ∧
      ((zoneAfter zone before a (m.char :: b)).isOpen = true ∨
        (zoneAfter zone before (a ++ [m.char]) b).isOpen = true) := by
  induction cs generalizing zone before pos with
  | nil =>
    rw [literalsFrom]
    split_ifs <;> simp
  | cons c cs ih =>
    have hlater := @ih (zone.next before c cs) (some c) (pos + 1)
    have hmem : m ∈ (literalsFrom zone before pos (c :: cs)).flatten ↔
        (m = ⟨c, pos⟩ ∧ (zone.isOpen = true ∨ (zone.next before c cs).isOpen = true)) ∨
          m ∈ (literalsFrom (zone.next before c cs) (some c) (pos + 1) cs).flatten := by
      rw [literalsFrom]
      cases (zone.next before c cs).isOpen <;> cases zone.isOpen <;> simp [flatten_extendFirst]
    rw [hmem, hlater]
    constructor
    · rintro (⟨rfl, hopen⟩ | ⟨a, b, rfl, horigin, hopen⟩)
      · exact ⟨[], cs, rfl, rfl, hopen⟩
      · refine ⟨c :: a, b, rfl, ?_, ?_⟩
        · rw [horigin, List.length_cons]
          omega
        · simpa only [zoneAfter, List.cons_append, List.append_assoc, List.nil_append] using hopen
    · rintro ⟨a, b, hcs, horigin, hopen⟩
      cases a with
      | nil =>
        obtain ⟨rfl, rfl⟩ := List.cons.inj hcs
        have hmark : m = ⟨m.char, pos⟩ := congrArg (Mark.mk m.char) horigin
        exact .inl ⟨hmark, hopen⟩
      | cons d a =>
        obtain rfl : c = d := (List.cons.inj hcs).1
        obtain rfl : cs = a ++ m.char :: b := (List.cons.inj hcs).2
        refine .inr ⟨a, b, rfl, ?_, ?_⟩
        · rw [horigin, List.length_cons]
          omega
        · simpa only [zoneAfter, List.cons_append, List.append_assoc, List.nil_append] using hopen

/-- An offset is outside of literals if none is open in front of its character nor behind it. -/
theorem outsideLiterals_iff {a b : List Char} {c : Char} :
    OutsideLiterals (a ++ c :: b) a.length ↔
      (zoneAfter .code none a (c :: b)).isOpen = false ∧
        (zoneAfter .code none (a ++ [c]) b).isOpen = false := by
  have hflatten : OutsideLiterals (a ++ c :: b) a.length ↔
      ∀ m ∈ (literalsOf (a ++ c :: b)).flatten, m.origin ≠ a.length := by
    simp only [OutsideLiterals, List.mem_flatten]
    grind
  rw [hflatten]
  constructor
  · intro h
    by_contra hopen
    refine h ⟨c, a.length⟩ (mem_flatten_literalsFrom.mpr ⟨a, b, rfl, (Nat.zero_add _).symm, ?_⟩)
      rfl
    grind
  · intro hclosed m hm horigin
    obtain ⟨a', b', hsplit, hlength, hopen⟩ := mem_flatten_literalsFrom.mp hm
    obtain ⟨rfl, hrest⟩ := List.append_inj hsplit (by omega)
    obtain ⟨rfl, rfl⟩ := List.cons.inj hrest
    rw [hclosed.1, hclosed.2] at hopen
    simp at hopen

/-- In a normal text the normalizer never comes upon a phrase. -/
theorem Normal.next_ne_phrase (h : Normal text) {a b : List Char} {c : Char}
    (htext : text = a ++ c :: b) (hzone : ∀ n, zoneAfter .code none a (c :: b) ≠ .phrase n)
    (n : Nat) : (zoneAfter .code none a (c :: b)).next a.getLast? c b ≠ .phrase n := by
  intro hn
  have hstep := step_taken (zoneAfter .code none a (c :: b)) a.getLast? 0 c b
  rw [hn] at hstep
  generalize Zone.emit _ _ _ _ _ = marks at hstep
  cases hstep with
  | inside hinside => exact hzone _ hinside
  | kept _ hkept _ => exact hkept n rfl
  | @phrase p hfree _ hat =>
    have hcode := hfree.resolve_right (hzone 0)
    have hstands : p.StandsAt text a.length := by
      rw [Phrase.StandsAt, htext, List.take_left, List.drop_left]
      exact (at?_mem hat).2
    have hoccurs := (Phrase.standsAt_iff (at?_mem hat).1).mp hstands
    refine hoccurs.2 (h p (at?_mem hat).1 _ hoccurs.1 ?_)
    rw [htext, outsideLiterals_iff, zoneAfter_concat, hn, hcode]
    exact ⟨rfl, rfl⟩

theorem Normal.unbroken (h : Normal text) : Unbroken .code none text := by
  -- from the start on, with what is left of the text
  suffices hsuffix : ∀ b a, text = a ++ b → (∀ n, zoneAfter .code none a b ≠ .phrase n) →
      Unbroken (zoneAfter .code none a b) a.getLast? b from
    hsuffix text [] rfl (ne_phrase_of_plain rfl)
  intro b
  induction b with
  | nil => exact fun _ _ _ => trivial
  | cons c b ih =>
    intro a htext hzone
    have hnext := h.next_ne_phrase htext hzone
    have hrest := ih (a ++ [c]) (by simpa using htext)
    rw [zoneAfter_concat, List.getLast?_concat] at hrest
    exact ⟨hnext, hrest hnext⟩

/-- Where an unbroken text is outside of its literals, the normalizer is in code. -/
theorem Unbroken.code_of_outside {a b : List Char} {c : Char}
    (h : Unbroken .code none (a ++ c :: b)) (houtside : OutsideLiterals (a ++ c :: b) a.length) :
    zoneAfter .code none a (c :: b) = .code := by
  have hzone := (h.behind (ne_phrase_of_plain rfl)).1
  have hclosed := (outsideLiterals_iff.mp houtside).1
  cases hz : zoneAfter .code none a (c :: b) with
  | code => rfl
  | literal | escape =>
    rw [hz] at hclosed
    cases hclosed
  | phrase n => exact absurd hz (hzone n)

theorem Unbroken.normal (h : Unbroken .code none text) : Normal text := by
  intro p hp pos hoccurs houtside
  by_contra hstays
  have hstands := (Phrase.standsAt_iff hp).mpr ⟨hoccurs, hstays⟩
  obtain ⟨c, hc⟩ : ∃ c, text[pos]? = some c :=
    ⟨_, List.getElem?_eq_getElem (lt_of_standsAt hstands)⟩
  obtain ⟨a, b, rfl, rfl⟩ := exists_append_of_getElem? hc
  rw [Phrase.StandsAt, List.take_left, List.drop_left] at hstands
  have hrest := (h.behind (ne_phrase_of_plain rfl)).2
  rw [Option.or_none, h.code_of_outside houtside] at hrest
  have hquote : c ≠ '"' := by
    obtain ⟨n, hn⟩ := Nat.exists_eq_succ_of_ne_zero (length_pos hp).ne'
    have hsame := (Phrase.startsAt_iff.mp hstands).2.2.1
    refine ne_quote_of_isPhrasal (isPhrasal_of_inCapitals hp hsame c ?_)
    rw [hn, List.take_succ_cons]
    exact List.mem_cons_self
  have hfound : (Phrase.at? a.getLast? (c :: b)).isSome = true :=
    List.find?_isSome.mpr ⟨p, hp, hstands⟩
  obtain ⟨q, hq⟩ := Option.isSome_iff_exists.mp hfound
  refine hrest.1 (q.length - 1) ?_
  simp only [Zone.next, Zone.fromCode, if_neg hquote, hq]

/-- A text is normal if and only if the normalizer comes upon no phrase in it. -/
theorem normal_iff_unbroken : Normal text ↔ Unbroken .code none text :=
  ⟨Normal.unbroken, Unbroken.normal⟩

end Literals

/-- The characters of a source in canonical form. -/
theorem Canonical.chars_ofSource (source : List Char) :
    (Canonical.ofSource source).chars = canonicalChars .code none source := rfl

theorem normal_ofSource (source : List Char) : Normal (Canonical.ofSource source).chars := by
  have hapart : Zone.code.Apart source := .of_plain rfl
  rw [Canonical.chars_ofSource, normal_iff_unbroken]
  exact unbroken_canonicalChars hapart (.inl rfl)

/-- The normalizer leaves a normal text as it is, and no other text. -/
theorem normal_iff_chars_ofSource {text : List Char} :
    Normal text ↔ (Canonical.ofSource text).chars = text := by
  constructor
  · intro h
    rw [Canonical.chars_ofSource]
    exact (normal_iff_unbroken.mp h).canonicalChars_eq
  · intro h
    rw [← h]
    exact normal_ofSource text

/-- A canonical text is normal: outside of its literals it has no phrase with room on both sides, in
no letter case, but for the word before a counted block in front of its colon. So the canonical form
of a canonical text is that text, which is so for normal texts only. What is replaced is the longest
phrase that occurs at its place. -/
theorem canonical_is_normal (source : List Char) :
    Normal (Canonical.ofSource source).chars ∧
    (Canonical.ofSource (Canonical.ofSource source).chars).chars
      = (Canonical.ofSource source).chars ∧
    (Normal source ↔ (Canonical.ofSource source).chars = source) ∧
    ∀ pos p, Replaced source pos p → marksAt source pos = p.symbol.marks pos ∧
      p.OccursAt source pos ∧ ¬ p.GivesWay source pos ∧
      ∀ q ∈ Phrase.all, q.OccursAt source pos → q = p ∨ q.length < p.length := by
  have hnormal := normal_ofSource source
  refine ⟨hnormal, normal_iff_chars_ofSource.mp hnormal, normal_iff_chars_ofSource, ?_⟩
  intro pos p hreplaced
  obtain ⟨hp, hstands⟩ := hreplaced.standsAt
  obtain ⟨hoccurs, hstays⟩ := (Phrase.standsAt_iff hp).mp hstands
  exact ⟨marksAt_replaced hreplaced, hoccurs, hstays,
    fun q hq => longest_of_at? hreplaced.found hq⟩

end Parlance
